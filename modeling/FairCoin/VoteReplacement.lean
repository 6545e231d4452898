import FairCoin.BudgetVotes
import FairCoin.Validation
import FairCoin.Lib.Register

/-!
# A masternode changes its vote

`AddOrUpdateVote` of proposals and of finalized budgets: a vote replaces the one its masternode
has stored when it is no older and at least `BUDGET_VOTE_UPDATE_MIN` later.

* `stored_tally` — what one offered vote leaves stored.
* `stored_run_le` — the time of the stored vote never decreases.
* `stored_run_eq_hold` — votes that are far enough apart, and whose differences fit the integer
  they are computed in, leave what a register of the newest value holds.
* `replacement_iff` — **replacement converges** to the newest vote in every order of delivery
  exactly when no two times are 2^63 seconds apart or more.
-/

namespace FairCoin

open Store

namespace Ballot

variable {I V : Type} (E : BallotEnv I V)

/-! ## The stored vote -/

/-- The vote of a masternode, by its key. -/
def stored (k : UInt256) (i : I) : Option V := (E.mapVotes i).lookup k

/-- `AddOrUpdateVote` on every delivery: a time and a vote. -/
def offerAll (i : I) (ds : List (ℤ × V)) : I := ds.foldl (fun i d => tally E d.1 i d.2) i

variable {E}

/-- **One delivery.**  A vote of another masternode changes nothing; a vote of this one is stored
when it is not ahead of the clock and replaces what is there. -/
theorem stored_tally (k : UInt256) (now : ℤ) (i : I) (v : V) :
    stored E k (tally E now i v) =
      if voteKey E v = k ∧ replaces E i v = true ∧ E.nTime v ≤ now + 60 * 60 then some v
      else stored E k i := by
  unfold tally addOrUpdateVote
  by_cases hacc : replaces E i v = true ∧ E.nTime v ≤ now + 60 * 60
  · have hc : (replaces E i v && !decide (now + 60 * 60 < E.nTime v)) = true := by
      simpa using hacc
    rw [if_pos hc, Option.getD_some, stored, E.mapVotes_setVotes, lookup_insert_eq]
    by_cases hk : k = voteKey E v
    · rw [if_pos hk, if_pos ⟨hk.symm, hacc⟩]
    · rw [if_neg hk, if_neg fun h => hk h.1.symm]
      rfl
  · have hc : ¬(replaces E i v && !decide (now + 60 * 60 < E.nTime v)) = true := by
      simpa using hacc
    rw [if_neg hc, if_neg fun h => hacc h.2]
    rfl

theorem replaces_of_none {i : I} {v : V} (h : stored E (voteKey E v) i = none) :
    replaces E i v = true := by
  unfold stored at h
  simp [replaces, h]

theorem replaces_of_some {i : I} {v old : V} (h : stored E (voteKey E v) i = some old) :
    replaces E i v = true ↔ E.nTime old ≤ E.nTime v ∧
      budgetVoteUpdateMin ≤ wrap64 (E.nTime v - E.nTime old) := by
  unfold stored at h
  simp [replaces, h]

/-- The time of the stored vote does not decrease. -/
theorem stored_tally_le {k : UInt256} {i : I} {old : V} (h : stored E k i = some old) (now : ℤ)
    (v : V) : ∃ new, stored E k (tally E now i v) = some new ∧ E.nTime old ≤ E.nTime new := by
  rw [stored_tally]
  split
  · next hc =>
    obtain ⟨rfl, hrep, -⟩ := hc
    exact ⟨v, rfl, ((replaces_of_some h).1 hrep).1⟩
  · exact ⟨old, h, le_rfl⟩

/-- **The stored time over a run.**  Whatever votes are delivered, in whatever order, the vote
stored at the end is no older than the one stored at the start. -/
theorem stored_run_le {k : UInt256} (ds : List (ℤ × V)) : ∀ {i : I} {old : V},
    stored E k i = some old →
      ∃ new, stored E k (offerAll E i ds) = some new ∧ E.nTime old ≤ E.nTime new := by
  induction ds with
  | nil => exact fun h => ⟨_, h, le_rfl⟩
  | cons d ds ih =>
    intro i old h
    obtain ⟨mid, hmid, hle⟩ := stored_tally_le h d.1 d.2
    obtain ⟨new, hnew, hle'⟩ := ih hmid
    exact ⟨new, hnew, hle.trans hle'⟩

/-! ## Votes that are far enough apart -/

/-- Votes of one masternode, with times that an `int64_t` holds and that are pairwise at least
`BUDGET_VOTE_UPDATE_MIN` apart. -/
structure Spaced (E : BallotEnv I V) (k : UInt256) (votes : List V) : Prop where
  key : ∀ v ∈ votes, voteKey E v = k
  int64 : ∀ v ∈ votes, -9223372036854775808 ≤ E.nTime v ∧ E.nTime v < 9223372036854775808
  apart : ∀ v ∈ votes, ∀ w ∈ votes, E.nTime v ≤ E.nTime w →
    v = w ∨ budgetVoteUpdateMin ≤ E.nTime w - E.nTime v

/-- Every vote is delivered at least once, nothing else is, and no vote is delivered before its
time. -/
structure Delivers (E : BallotEnv I V) (votes : List V) (ds : List (ℤ × V)) : Prop where
  only : ∀ d ∈ ds, d.2 ∈ votes ∧ E.nTime d.2 ≤ d.1
  all : ∀ v ∈ votes, ∃ t, (t, v) ∈ ds

/-- The difference of two of the times fits an `int64_t`. -/
def DifferencesFit (E : BallotEnv I V) (votes : List V) : Prop :=
  ∀ v ∈ votes, ∀ w ∈ votes, E.nTime w - E.nTime v < 9223372036854775808

/-- A newer vote whose difference in time fits replaces the stored one. -/
theorem stored_tally_eq_put {k : UInt256} {votes : List V} (hs : Spaced E k votes)
    (hfit : DifferencesFit E votes) {i : I} (hi : ∀ old, stored E k i = some old → old ∈ votes)
    {d : ℤ × V} (hd : d.2 ∈ votes ∧ E.nTime d.2 ≤ d.1) :
    stored E k (tally E d.1 i d.2) = Register.put E.nTime (stored E k i) d.2 := by
  obtain ⟨t, v⟩ := d
  obtain ⟨hv, ht⟩ := hd
  obtain rfl := hs.key v hv
  have hclock : E.nTime v ≤ t + 60 * 60 := by
    have : E.nTime v ≤ t := ht
    omega
  rw [stored_tally]
  cases hold : stored E (voteKey E v) i with
  | none => rw [if_pos ⟨rfl, replaces_of_none hold, hclock⟩, Register.put]
  | some old =>
    have hmem := hi old hold
    rw [Register.put]
    by_cases hle : E.nTime v ≤ E.nTime old
    · rw [if_pos hle]
      split
      · next hc =>
        -- an equal time is the same vote, and that is refused as too soon
        obtain ⟨hge, hmin⟩ := (replaces_of_some hold).1 hc.2.1
        have hzero : E.nTime v - E.nTime old = 0 := by omega
        rw [hzero] at hmin
        exact absurd hmin (by decide)
      · rfl
    · rw [if_neg hle, if_pos]
      refine ⟨rfl, (replaces_of_some hold).2 ⟨by omega, ?_⟩, hclock⟩
      have hdiff := hfit old hmem v hv
      rw [wrap64_of_lt (by omega) hdiff]
      rcases hs.apart old hmem v hv (by omega) with rfl | happart
      · exact absurd le_rfl hle
      · exact happart

/-- Under these conditions the stored vote is a register of the newest one. -/
theorem stored_run_eq_hold {k : UInt256} {votes : List V} (hs : Spaced E k votes)
    (hfit : DifferencesFit E votes) (ds : List (ℤ × V)) :
    ∀ {i : I}, (∀ old, stored E k i = some old → old ∈ votes) →
      (∀ d ∈ ds, d.2 ∈ votes ∧ E.nTime d.2 ≤ d.1) →
      stored E k (offerAll E i ds) = (ds.map Prod.snd).foldl (Register.put E.nTime) (stored E k i) := by
  induction ds with
  | nil => exact fun _ _ => rfl
  | cons d ds ih =>
    intro i hi hds
    have hd := hds d (by simp)
    have hstep := stored_tally_eq_put hs hfit hi hd
    have hmem : ∀ old, stored E k (tally E d.1 i d.2) = some old → old ∈ votes := by
      intro old hold
      rw [stored_tally] at hold
      split at hold
      · cases hold
        exact hd.1
      · exact hi old hold
    show stored E k (offerAll E (tally E d.1 i d.2) ds) = _
    rw [ih hmem fun e he => hds e (by simp [he]), hstep]
    rfl

/-! ## Convergence -/

/-- Whatever the order of delivery and the repetitions, an item on which the masternode has not
voted ends with its newest vote; and no delivery of any votes lowers the stored time. -/
structure Replacement (E : BallotEnv I V) (k : UInt256) (votes : List V) : Prop where
  converges : ∀ i ds, stored E k i = none → Delivers E votes ds →
    ∀ v ∈ votes, (∀ w ∈ votes, E.nTime w ≤ E.nTime v) → stored E k (offerAll E i ds) = some v
  keepsTime : ∀ i ds old, stored E k i = some old →
    ∃ new, stored E k (offerAll E i ds) = some new ∧ E.nTime old ≤ E.nTime new

/-- Two votes with the same time are the same vote. -/
theorem Spaced.eq_of_time {k : UInt256} {votes : List V} (hs : Spaced E k votes) {v w : V}
    (hv : v ∈ votes) (hw : w ∈ votes) (h : E.nTime v = E.nTime w) : v = w := by
  rcases hs.apart v hv w hw h.le with heq | hmin
  · exact heq
  · rw [h, sub_self] at hmin
    exact absurd hmin (by decide)

theorem converges_of_fit {k : UInt256} {votes : List V} (hs : Spaced E k votes)
    (hfit : DifferencesFit E votes) {i : I} {ds : List (ℤ × V)} (hi : stored E k i = none)
    (hd : Delivers E votes ds) {v : V} (hv : v ∈ votes)
    (hmax : ∀ w ∈ votes, E.nTime w ≤ E.nTime v) : stored E k (offerAll E i ds) = some v := by
  have hrun := stored_run_eq_hold hs hfit ds (i := i)
    (fun old hold => absurd (hi.symm.trans hold) (by simp)) hd.only
  rw [hi] at hrun
  have hne : Register.hold E.nTime (ds.map Prod.snd) ≠ none := by
    rw [ne_eq, Register.hold_eq_none, List.map_eq_nil_iff]
    rintro rfl
    obtain ⟨t, ht⟩ := hd.all v hv
    exact absurd ht (by simp)
  obtain ⟨w, hw⟩ := Option.ne_none_iff_exists'.1 hne
  have hnewest := Register.hold_newest hw
  obtain ⟨t, ht⟩ := hd.all v hv
  have hvle : E.nTime v ≤ E.nTime w := hnewest.le v (List.mem_map.2 ⟨(t, v), ht, rfl⟩)
  obtain ⟨d, hdmem, rfl⟩ := List.mem_map.1 hnewest.mem
  have hwmem := (hd.only d hdmem).1
  rw [hrun]
  change Register.hold E.nTime (ds.map Prod.snd) = some v
  rw [hw, hs.eq_of_time hwmem hv (le_antisymm (hmax _ hwmem) hvle)]

/-- Votes after the first leave the newest one out unless it is among them. -/
theorem stored_offerAll_ne {k : UInt256} {v : V} (ds : List (ℤ × V)) : ∀ {i : I},
    stored E k i ≠ some v → (∀ d ∈ ds, d.2 ≠ v) → stored E k (offerAll E i ds) ≠ some v := by
  induction ds with
  | nil => exact fun h _ => h
  | cons d ds ih =>
    intro i h hds
    refine ih ?_ fun e he => hds e (by simp [he])
    rw [stored_tally]
    split
    · exact fun heq => hds d (by simp) (Option.some.inj heq)
    · exact h

/-- The largest of some times. -/
theorem exists_newest {votes : List V} (hne : votes ≠ []) :
    ∃ v ∈ votes, ∀ w ∈ votes, E.nTime w ≤ E.nTime v := by
  obtain ⟨a, l, rfl⟩ := List.exists_cons_of_ne_nil hne
  obtain ⟨b, -, hnew⟩ := Register.hold_cons E.nTime a l
  exact ⟨b, hnew.mem, hnew.le⟩

/-- Two votes 2^63 seconds apart: the old one, then the new one, then the rest leaves the new one
out. -/
theorem not_converges {k : UInt256} {votes : List V} [DecidableEq V] (hs : Spaced E k votes)
    {v w : V} (hv : v ∈ votes) (hw : w ∈ votes) (hmax : ∀ u ∈ votes, E.nTime u ≤ E.nTime w)
    (hfar : 9223372036854775808 ≤ E.nTime w - E.nTime v) {i : I} (hi : stored E k i = none) :
    ∃ ds, Delivers E votes ds ∧ stored E k (offerAll E i ds) ≠ some w := by
  have hvw : v ≠ w := by
    rintro rfl
    omega
  have hkv := hs.key v hv
  have hkw := hs.key w hw
  obtain ⟨hvlo, -⟩ := hs.int64 v hv
  obtain ⟨-, hwhi⟩ := hs.int64 w hw
  let t := E.nTime w
  refine ⟨(t, v) :: (t, w) :: (votes.filter fun u => u ≠ w).map fun u => (t, u), ⟨?_, ?_⟩, ?_⟩
  · intro d hd
    rcases List.mem_cons.1 hd with rfl | hd
    · exact ⟨hv, hmax v hv⟩
    rcases List.mem_cons.1 hd with rfl | hd
    · exact ⟨hw, le_rfl⟩
    obtain ⟨u, hu, rfl⟩ := List.mem_map.1 hd
    exact ⟨(List.mem_filter.1 hu).1, hmax u (List.mem_filter.1 hu).1⟩
  · intro u hu
    by_cases huw : u = w
    · exact ⟨t, by simp [huw]⟩
    · refine ⟨t, List.mem_cons_of_mem _ (List.mem_cons_of_mem _ (List.mem_map.2 ⟨u, ?_, rfl⟩))⟩
      exact List.mem_filter.2 ⟨hu, by simpa using huw⟩
  · have hfirst : stored E k (tally E t i v) = some v := by
      have hclock : E.nTime v ≤ t + 60 * 60 := by
        have := hmax v hv
        omega
      rw [stored_tally, if_pos ⟨hkv, replaces_of_none (hkv.symm ▸ hi), hclock⟩]
    -- the difference is negative once it has wrapped, so the newest vote comes too soon
    have hsecond : stored E k (tally E t (tally E t i v) w) = some v := by
      rw [stored_tally, if_neg, hfirst]
      rintro ⟨-, hrep, -⟩
      have hmin := ((replaces_of_some (hkw.symm ▸ hfirst)).1 hrep).2
      have hwrap : wrap64 (E.nTime w - E.nTime v) =
          E.nTime w - E.nTime v - 18446744073709551616 := by
        unfold wrap64
        rw [Int.bmod_def]
        omega
      rw [hwrap, budgetVoteUpdateMin] at hmin
      omega
    refine stored_offerAll_ne _ (i := tally E t (tally E t i v) w) ?_ ?_
    · rw [hsecond]
      exact fun h => hvw (Option.some.inj h)
    · intro d hd
      obtain ⟨u, hu, rfl⟩ := List.mem_map.1 hd
      simpa using (List.mem_filter.1 hu).2

/-- **When replacement converges.**  Votes of one masternode that are far enough apart leave the
newest one stored, in every order of delivery and with any repetitions, if and only if no two of
their times are 2^63 seconds apart or more. -/
theorem replacement_iff {k : UInt256} {votes : List V} [DecidableEq V] (i₀ : I)
    (hs : Spaced E k votes) : Replacement E k votes ↔ DifferencesFit E votes := by
  constructor
  · intro hr v hv w hw
    by_contra hfar
    obtain ⟨x, hx, hmax⟩ := exists_newest (E := E) (List.ne_nil_of_mem hw)
    have hxw := hmax w hw
    have hempty : stored E k (E.setVotes i₀ ∅) = none := by
      rw [stored, E.mapVotes_setVotes]
      rfl
    obtain ⟨ds, hd, hne⟩ := not_converges hs hv hx hmax (by omega) hempty
    exact hne (hr.converges _ ds hempty hd x hx hmax)
  · intro hfit
    exact ⟨fun i ds hi hd v hv hmax => converges_of_fit hs hfit hi hd hv hmax,
      fun i ds old h => stored_run_le ds h⟩

end Ballot

/-! ## Proposals and finalized budgets -/

namespace CBudgetManager

open Ballot

/-- **Votes on proposals and on finalized budgets.**  For votes of one masternode on one item whose
times are not in the future and at least `BUDGET_VOTE_UPDATE_MIN` apart, `AddOrUpdateVote` leaves
the newest one stored in every order of delivery exactly when the difference of any two times
fits an `int64_t`; the stored time never decreases. -/
theorem vote_replacement_iff (env : BudgetEnv) (k : UInt256) :
    (∀ votes, Spaced env.proposals k votes →
      (Replacement env.proposals k votes ↔ DifferencesFit env.proposals votes)) ∧
    ∀ votes, Spaced env.finalized k votes →
      (Replacement env.finalized k votes ↔ DifferencesFit env.finalized votes) :=
  ⟨fun _ hs => replacement_iff VoteExample.proposal hs, fun _ hs => replacement_iff oneVote hs⟩

namespace VoteExample

/-- A vote of masternode `0x31` at a time. -/
def voteAt (nTime : ℤ) : CBudgetVote := { vote 0x31 [1] with nTime := nTime }

theorem spaced_two {s t : ℤ} (hs : -9223372036854775808 ≤ s) (ht : t < 9223372036854775808)
    (happart : 3600 ≤ t - s) : Spaced env.proposals 0x31 [voteAt s, voteAt t] where
  key := by
    simp only [List.forall_mem_cons]
    exact ⟨rfl, rfl, by simp⟩
  int64 := by
    have hst : s ≤ t := by omega
    simp only [List.forall_mem_cons]
    exact ⟨⟨hs, lt_of_le_of_lt hst ht⟩, ⟨hs.trans hst, ht⟩, by simp⟩
  apart := by
    simp only [List.forall_mem_cons]
    refine ⟨⟨fun _ => .inl trivial, fun _ => .inr ?_, by simp⟩, ⟨fun h => ?_, fun _ => .inl trivial, by simp⟩,
      by simp⟩
    · exact happart
    · have hts : t ≤ s := h
      omega

end VoteExample

open VoteExample in
/-- Two votes an hour apart: the later one is stored in either order. -/
theorem vote_replacement_hour :
    Replacement env.proposals 0x31 [voteAt 1500000000, voteAt 1500003600] := by
  refine ((vote_replacement_iff env 0x31).1 _ (spaced_two (by decide) (by decide) (by decide))).2 ?_
  simp only [DifferencesFit, List.forall_mem_cons]
  decide

open VoteExample in
/-- A vote with the time -2^63 and one at the present time, delivered in this order: the
difference wraps, and the later vote is refused as too soon. -/
theorem later_vote_refused :
    Spaced env.proposals 0x31 [voteAt (-9223372036854775808), voteAt 1500000000] ∧
      Ballot.Delivers env.proposals [voteAt (-9223372036854775808), voteAt 1500000000]
        [(1500000000, voteAt (-9223372036854775808)), (1500000000, voteAt 1500000000)] ∧
      stored env.proposals 0x31 (offerAll env.proposals proposal
        [(1500000000, voteAt (-9223372036854775808)), (1500000000, voteAt 1500000000)]) =
          some (voteAt (-9223372036854775808)) ∧
      ¬Replacement env.proposals 0x31 [voteAt (-9223372036854775808), voteAt 1500000000] := by
  have hdelivers : Ballot.Delivers env.proposals [voteAt (-9223372036854775808), voteAt 1500000000]
      [(1500000000, voteAt (-9223372036854775808)), (1500000000, voteAt 1500000000)] := by
    constructor
    · simp only [List.forall_mem_cons]
      exact ⟨⟨by simp, by decide⟩, ⟨by simp, by decide⟩, by simp⟩
    · simp only [List.forall_mem_cons]
      exact ⟨⟨1500000000, by simp⟩, ⟨1500000000, by simp⟩, by simp⟩
  have hstored : stored env.proposals 0x31 (offerAll env.proposals proposal
      [(1500000000, voteAt (-9223372036854775808)), (1500000000, voteAt 1500000000)]) =
        some (voteAt (-9223372036854775808)) := by
    decide
  refine ⟨spaced_two (by decide) (by decide) (by decide), hdelivers, hstored, fun hr => ?_⟩
  have hlast := hr.converges proposal _ rfl hdelivers (voteAt 1500000000) (by simp) (by
    simp only [List.forall_mem_cons]
    exact ⟨by decide, by decide, by simp⟩)
  rw [hstored] at hlast
  exact absurd hlast (by decide)

end CBudgetManager

end FairCoin
