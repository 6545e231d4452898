import FairCoin.Lib.Median
import FairCoin.Validation

/-!
# The clock offset

`AddTimeData` of `src/timedata.cpp` and `CMedianFilter` of `src/timedata.h`: the clocks of peers, one
sample for each address, in a window of 200.  Times are numbers; subtraction and negation wrap in 64
bits.

* `samples`, `held` — what a run of calls leaves in the window.
* `run_vValues` — the filter holds the window.
* `offset_update`, `offset_keep` — what a call does to the offset.
* `steady_iff` — **when peers shift the clock only a little**, over every run.
-/

namespace FairCoin

open Median

/-! ## The median filter -/

/-- `CMedianFilter`. -/
structure CMedianFilter where
  vValues : List ℤ
  vSorted : List ℤ
  nSize : ℕ
  deriving DecidableEq, Repr

namespace CMedianFilter

/-- The constructor. -/
def new (size : ℕ) (initial_value : ℤ) : CMedianFilter :=
  { vValues := [initial_value], vSorted := [initial_value], nSize := size }

/-- `input`. -/
def input (f : CMedianFilter) (value : ℤ) : CMedianFilter :=
  let vValues := (if f.vValues.length = f.nSize then f.vValues.tail else f.vValues) ++ [value]
  { f with vValues := vValues, vSorted := vValues.insertionSort (· ≤ ·) }

/-- `median`. -/
def median (f : CMedianFilter) : ℤ :=
  let size := f.vSorted.length
  if size % 2 = 1 then f.vSorted.getD (size / 2) 0
  else (wrap64 (f.vSorted.getD (size / 2 - 1) 0 + f.vSorted.getD (size / 2) 0)).tdiv 2

/-- `size`. -/
def size (f : CMedianFilter) : ℕ := f.vValues.length

end CMedianFilter

/-! ## `AddTimeData` -/

/-- The state behind the clock: the offset, and the statics of `AddTimeData`. -/
structure TimeData (CNetAddr : Type) where
  nTimeOffset : ℤ := 0
  setKnown : List CNetAddr := []
  vTimeOffsets : CMedianFilter := .new 200 0
  fDone : Bool := false
  strMiscWarning : String := ""

/-- `abs64`; negation wraps. -/
def abs64 (n : ℤ) : ℤ := if 0 ≤ n then n else wrap64 (-n)

/-- The warning about the clock. -/
def clockWarning : String :=
  "Warning: Please check that your computer's date and time are correct! " ++
    "If your clock is wrong faircoin Core will not work properly."

/-- A call: the local time, the address and the time of a peer. -/
structure TimeCall (CNetAddr : Type) where
  now : ℤ
  ip : CNetAddr
  nTime : ℤ

/-- `nOffsetSample`. -/
def TimeCall.nOffsetSample {CNetAddr : Type} (call : TimeCall CNetAddr) : ℤ :=
  wrap64 (call.nTime - call.now)

section AddTimeData

variable {CNetAddr : Type} [DecidableEq CNetAddr]

/-- `AddTimeData`. -/
def addTimeData (s : TimeData CNetAddr) (call : TimeCall CNetAddr) : TimeData CNetAddr :=
  -- ignore duplicates
  if call.ip ∈ s.setKnown then s
  else
    let vTimeOffsets := s.vTimeOffsets.input call.nOffsetSample
    let s := { s with setKnown := call.ip :: s.setKnown, vTimeOffsets := vTimeOffsets }
    if 5 ≤ vTimeOffsets.size ∧ vTimeOffsets.size % 2 = 1 then
      let nMedian := vTimeOffsets.median
      -- only let other nodes change our time by so much
      if abs64 nMedian < 70 * 60 then { s with nTimeOffset := nMedian }
      else
        let s := { s with nTimeOffset := 0 }
        let fMatch := vTimeOffsets.vSorted.any fun nOffset =>
          decide (nOffset ≠ 0) && decide (abs64 nOffset < 5 * 60)
        if s.fDone = true ∨ fMatch = true then s
        else { s with fDone := true, strMiscWarning := clockWarning }
    else s

/-- The state after a run of calls. -/
def TimeData.run (calls : List (TimeCall CNetAddr)) : TimeData CNetAddr :=
  calls.foldl addTimeData {}

/-! ## What is held -/

/-- The samples of a run of calls: of each address the first. -/
def samples : List CNetAddr → List (TimeCall CNetAddr) → List ℤ
  | _, [] => []
  | known, call :: calls =>
      if call.ip ∈ known then samples known calls
      else call.nOffsetSample :: samples (call.ip :: known) calls

/-- The samples held after a run: the initial 0 and one for each address, at most the last 200. -/
def held (calls : List (TimeCall CNetAddr)) : List ℤ :=
  let all := 0 :: samples [] calls
  all.drop (all.length - 200)

/-- The last call of the run updates the offset: its address is new, and an odd number of samples, five
at least, is held. -/
def Updates (calls : List (TimeCall CNetAddr)) : Prop :=
  ∃ before call, calls = before ++ [call] ∧ call.ip ∉ before.map TimeCall.ip ∧
    5 ≤ (held calls).length ∧ (held calls).length % 2 = 1

/-- `INT64_MIN`, the number that negation leaves as it is. -/
def int64Min : ℤ := -9223372036854775808

/-! ## The filter holds the window -/

theorem samples_append (known : List CNetAddr) (calls : List (TimeCall CNetAddr))
    (call : TimeCall CNetAddr) : samples known (calls ++ [call]) = samples known calls ++
      if call.ip ∈ known ∨ call.ip ∈ calls.map TimeCall.ip then [] else [call.nOffsetSample] := by
  induction calls generalizing known with
  | nil =>
    by_cases h : call.ip ∈ known
    · simp [samples, h]
    · simp [samples, h]
  | cons c calls ih =>
    rw [List.cons_append, samples, samples]
    by_cases h : c.ip ∈ known
    · rw [if_pos h, if_pos h, ih]
      congr 1
      by_cases hcall : call.ip ∈ known
      · rw [if_pos (.inl hcall), if_pos (.inl hcall)]
      · have hne : call.ip ≠ c.ip := fun heq => hcall (heq ▸ h)
        simp [hcall, hne]
    · rw [if_neg h, if_neg h, ih, List.cons_append]
      congr 2
      simp only [List.mem_cons, List.map_cons]
      congr 1
      rw [eq_iff_iff]
      tauto

theorem held_nil : held ([] : List (TimeCall CNetAddr)) = [0] := by
  unfold held samples
  dsimp only
  rw [List.length_singleton, show 1 - 200 = 0 by omega, List.drop_zero]

theorem held_length_le (calls : List (TimeCall CNetAddr)) : (held calls).length ≤ 200 := by
  unfold held
  dsimp only
  rw [List.length_drop]
  omega

theorem held_known {calls : List (TimeCall CNetAddr)} {call : TimeCall CNetAddr}
    (h : call.ip ∈ calls.map TimeCall.ip) : held (calls ++ [call]) = held calls := by
  unfold held
  rw [samples_append, if_pos (.inr h), List.append_nil]

/-- A new sample takes the place of the oldest when the window is full. -/
theorem held_fresh {calls : List (TimeCall CNetAddr)} {call : TimeCall CNetAddr}
    (h : call.ip ∉ calls.map TimeCall.ip) : held (calls ++ [call]) =
      (if (held calls).length = 200 then (held calls).tail else held calls) ++
        [call.nOffsetSample] := by
  have hcond : ¬ (call.ip ∈ ([] : List CNetAddr) ∨ call.ip ∈ calls.map TimeCall.ip) := by
    rintro (h0 | h1)
    · exact absurd h0 List.not_mem_nil
    · exact h h1
  unfold held
  dsimp only
  rw [samples_append, if_neg hcond, ← List.cons_append]
  generalize (0 : ℤ) :: samples [] calls = all
  rw [List.length_append, List.length_singleton, List.length_drop]
  by_cases hfull : 200 ≤ all.length
  · rw [if_pos (by omega), List.tail_drop, List.drop_append_of_le_length (by omega),
      show all.length + 1 - 200 = all.length - 200 + 1 by omega]
  · rw [if_neg (by omega), show all.length + 1 - 200 = 0 by omega,
      show all.length - 200 = 0 by omega]
    rfl

theorem run_append (calls : List (TimeCall CNetAddr)) (call : TimeCall CNetAddr) :
    TimeData.run (calls ++ [call]) = addTimeData (TimeData.run calls) call := by
  unfold TimeData.run
  rw [List.foldl_append]
  rfl

/-- The parts of the state that a call changes beside the offset and the warning. -/
theorem addTimeData_known {s : TimeData CNetAddr} {call : TimeCall CNetAddr}
    (h : call.ip ∈ s.setKnown) : addTimeData s call = s := if_pos h

theorem addTimeData_fresh {s : TimeData CNetAddr} {call : TimeCall CNetAddr}
    (h : call.ip ∉ s.setKnown) :
    (addTimeData s call).setKnown = call.ip :: s.setKnown ∧
      (addTimeData s call).vTimeOffsets = s.vTimeOffsets.input call.nOffsetSample := by
  rw [addTimeData, if_neg h]
  dsimp only
  split
  · split
    · exact ⟨rfl, rfl⟩
    · split <;> exact ⟨rfl, rfl⟩
  · exact ⟨rfl, rfl⟩

/-- **The filter holds the window**, and the addresses are known. -/
structure Holds (s : TimeData CNetAddr) (calls : List (TimeCall CNetAddr)) : Prop where
  known : ∀ ip, ip ∈ s.setKnown ↔ ip ∈ calls.map TimeCall.ip
  values : s.vTimeOffsets.vValues = held calls
  sorted : s.vTimeOffsets.vSorted = (held calls).insertionSort (· ≤ ·)
  size : s.vTimeOffsets.nSize = 200

theorem Holds.step {s : TimeData CNetAddr} {calls : List (TimeCall CNetAddr)} (h : Holds s calls)
    (call : TimeCall CNetAddr) : Holds (addTimeData s call) (calls ++ [call]) := by
  have hmap : (calls ++ [call]).map TimeCall.ip = calls.map TimeCall.ip ++ [call.ip] :=
    List.map_append
  by_cases hknown : call.ip ∈ s.setKnown
  · have hmem := (h.known call.ip).1 hknown
    rw [addTimeData_known hknown]
    refine ⟨fun ip => ?_, ?_, ?_, h.size⟩
    · rw [h.known, hmap, List.mem_append, List.mem_singleton]
      exact ⟨.inl, fun hip => hip.elim id fun heq => heq ▸ hmem⟩
    · rw [held_known hmem, h.values]
    · rw [held_known hmem, h.sorted]
  · have hnew : call.ip ∉ calls.map TimeCall.ip := fun hmem => hknown ((h.known _).2 hmem)
    obtain ⟨hset, hfilter⟩ := addTimeData_fresh hknown
    have hvalues : (s.vTimeOffsets.input call.nOffsetSample).vValues = held (calls ++ [call]) := by
      rw [held_fresh hnew, ← h.values, ← h.size]
      rfl
    refine ⟨fun ip => ?_, ?_, ?_, ?_⟩
    · rw [hset, List.mem_cons, h.known, hmap, List.mem_append, List.mem_singleton, or_comm]
    · rw [hfilter, hvalues]
    · rw [hfilter, ← hvalues]
      rfl
    · rw [hfilter]
      exact h.size

theorem Holds.run (calls : List (TimeCall CNetAddr)) : Holds (TimeData.run calls) calls := by
  induction calls using List.reverseRecOn with
  | nil =>
    refine ⟨fun ip => Iff.rfl, ?_, ?_, rfl⟩
    · rw [held_nil]
      rfl
    · rw [held_nil]
      rfl
  | append_singleton calls call ih =>
    rw [run_append]
    exact ih.step call

/-! ## The median of the window -/

theorem int64Min_le_wrap64 (x : ℤ) : int64Min ≤ wrap64 x :=
  Int.le_bmod (x := x) (m := 2 ^ 64) (by decide)

theorem int64Min_le_samples {known : List CNetAddr} {calls : List (TimeCall CNetAddr)} :
    ∀ x ∈ samples known calls, int64Min ≤ x := by
  induction calls generalizing known with
  | nil => exact List.forall_mem_nil _
  | cons call calls ih =>
    rw [samples]
    split
    · exact ih
    · intro x hx
      rcases List.mem_cons.1 hx with rfl | hx
      · exact int64Min_le_wrap64 _
      · exact ih x hx

theorem int64Min_le_held {calls : List (TimeCall CNetAddr)} : ∀ x ∈ held calls, int64Min ≤ x := by
  intro x hx
  rcases List.mem_cons.1 (List.mem_of_mem_drop hx) with rfl | hx
  · decide
  · exact int64Min_le_samples x hx

/-- **The filter computes the median** of an odd number of samples. -/
theorem Holds.median {s : TimeData CNetAddr} {calls : List (TimeCall CNetAddr)}
    (h : Holds s calls) (hodd : (held calls).length % 2 = 1) :
    IsMedian (held calls) s.vTimeOffsets.median := by
  have hlen : s.vTimeOffsets.vSorted.length = (held calls).length := by
    rw [h.sorted, List.length_insertionSort]
  have hlt : s.vTimeOffsets.vSorted.length / 2 < s.vTimeOffsets.vSorted.length := by omega
  have hmiddle : IsMedian s.vTimeOffsets.vSorted s.vTimeOffsets.median := by
    apply isMedian_middle
    · rw [h.sorted]
      exact List.pairwise_insertionSort _ _
    · rw [hlen]
      exact hodd
    · have hodd' : s.vTimeOffsets.vSorted.length % 2 = 1 := by
        rw [hlen]
        exact hodd
      rw [CMedianFilter.median, if_pos hodd', List.getD_eq_getElem _ _ hlt]
      exact List.getElem?_eq_getElem hlt
  apply hmiddle.perm
  rw [h.sorted]
  exact List.perm_insertionSort _ _

/-- **An update** takes the median, or 0 if it is too far away. -/
theorem offset_update {calls : List (TimeCall CNetAddr)} (h : Updates calls) :
    ∃ m, IsMedian (held calls) m ∧
      (TimeData.run calls).nTimeOffset = if abs64 m < 70 * 60 then m else 0 := by
  obtain ⟨before, call, rfl, hnew, hfive, hodd⟩ := h
  have hbefore := Holds.run before
  have hafter := Holds.run (before ++ [call])
  have hunknown : call.ip ∉ (TimeData.run before).setKnown := fun hmem =>
    hnew ((hbefore.known _).1 hmem)
  have hmedian := hafter.median hodd
  have hsize : ((TimeData.run before).vTimeOffsets.input call.nOffsetSample).size =
      (held (before ++ [call])).length := by
    rw [← hafter.values, run_append, (addTimeData_fresh hunknown).2]
    rfl
  rw [run_append, (addTimeData_fresh hunknown).2] at hmedian
  refine ⟨_, hmedian, ?_⟩
  rw [run_append, addTimeData, if_neg hunknown]
  dsimp only
  rw [if_pos (by rw [hsize]; exact ⟨hfive, hodd⟩)]
  split
  · rfl
  · split <;> rfl

/-- Any other call keeps the offset. -/
theorem offset_keep {calls : List (TimeCall CNetAddr)} {call : TimeCall CNetAddr}
    (h : ¬ Updates (calls ++ [call])) :
    (TimeData.run (calls ++ [call])).nTimeOffset = (TimeData.run calls).nTimeOffset := by
  have hbefore := Holds.run calls
  have hafter := Holds.run (calls ++ [call])
  rw [run_append] at hafter ⊢
  by_cases hknown : call.ip ∈ (TimeData.run calls).setKnown
  · rw [addTimeData_known hknown]
  · have hsize : ((TimeData.run calls).vTimeOffsets.input call.nOffsetSample).size =
        (held (calls ++ [call])).length := by
      rw [← hafter.values, (addTimeData_fresh hknown).2]
      rfl
    rw [addTimeData, if_neg hknown]
    dsimp only
    rw [if_neg]
    rintro ⟨hfive, hodd⟩
    rw [hsize] at hfive hodd
    exact h ⟨calls, call, rfl, fun hmem => hknown ((hbefore.known _).2 hmem), hfive, hodd⟩

/-- **A full window** stays full: it holds an even number of samples, and nothing is updated any
more. -/
theorem not_updates_of_full {calls : List (TimeCall CNetAddr)} {call : TimeCall CNetAddr}
    (h : (held calls).length = 200) : ¬ Updates (calls ++ [call]) := by
  rintro ⟨before, last, heq, hnew, -, hodd⟩
  obtain ⟨rfl, hlast⟩ := List.append_inj' heq rfl
  obtain rfl := List.singleton_inj.1 hlast
  rw [held_fresh hnew, if_pos h, List.length_append, List.length_tail, h,
    List.length_singleton] at hodd
  exact absurd hodd (by decide)

/-! ## The bound -/

/-- The test of the absolute value lets `INT64_MIN` through. -/
theorem abs64_lt_iff {m : ℤ} (hm : int64Min ≤ m) :
    abs64 m < 70 * 60 ↔ (-(70 * 60) < m ∧ m < 70 * 60) ∨ m = int64Min := by
  have hmin : int64Min = -9223372036854775808 := rfl
  rw [abs64]
  by_cases h0 : 0 ≤ m
  · rw [if_pos h0]
    omega
  · rw [if_neg h0]
    by_cases heq : m = int64Min
    · rw [heq]
      exact iff_of_true (by decide) (.inr rfl)
    · rw [wrap64_of_lt (by omega) (by omega)]
      omega

/-- **What peers can do to the clock** by a run of calls: the offset stays below 70 minutes; at most
200 samples are held; an update sets the offset to 0 or to their median; and against a majority of the
samples it leaves the offset at 0 or within their range, and within it if they are all below 70
minutes. -/
structure SteadyOffset (calls : List (TimeCall CNetAddr)) : Prop where
  bounded : -(70 * 60) < (TimeData.run calls).nTimeOffset ∧
    (TimeData.run calls).nTimeOffset < 70 * 60
  window : (TimeData.run calls).vTimeOffsets.vValues = held calls ∧ (held calls).length ≤ 200
  median : Updates calls → (TimeData.run calls).nTimeOffset = 0 ∨
    IsMedian (held calls) (TimeData.run calls).nTimeOffset
  minority : Updates calls → ∀ minority others : List ℤ, (held calls).Perm (minority ++ others) →
    minority.length < others.length →
      ((TimeData.run calls).nTimeOffset = 0 ∨
        (∃ x ∈ others, x ≤ (TimeData.run calls).nTimeOffset) ∧
          ∃ x ∈ others, (TimeData.run calls).nTimeOffset ≤ x) ∧
      ((∀ x ∈ others, -(70 * 60) < x ∧ x < 70 * 60) →
        (∃ x ∈ others, x ≤ (TimeData.run calls).nTimeOffset) ∧
          ∃ x ∈ others, (TimeData.run calls).nTimeOffset ≤ x)

theorem steady_of_bounded {calls : List (TimeCall CNetAddr)}
    (h : -(70 * 60) < (TimeData.run calls).nTimeOffset ∧
      (TimeData.run calls).nTimeOffset < 70 * 60) : SteadyOffset calls := by
  refine ⟨h, ⟨(Holds.run calls).values, held_length_le calls⟩, fun hupdates => ?_,
    fun hupdates minority others hperm hlt => ?_⟩
  · obtain ⟨m, hmedian, hoffset⟩ := offset_update hupdates
    rw [hoffset]
    split
    · exact .inr hmedian
    · exact .inl rfl
  · obtain ⟨m, hmedian, hoffset⟩ := offset_update hupdates
    have hle := hmedian.exists_le hperm hlt
    have hge := hmedian.exists_ge hperm hlt
    rw [hoffset]
    constructor
    · split
      · exact .inr ⟨hle, hge⟩
      · exact .inl rfl
    · intro hall
      have hclose : abs64 m < 70 * 60 := by
        rw [abs64_lt_iff (int64Min_le_held m hmedian.mem)]
        obtain ⟨x, hx, hxm⟩ := hle
        obtain ⟨y, hy, hmy⟩ := hge
        exact .inl ⟨(hall x hx).1.trans_le hxm, hmy.trans_lt (hall y hy).2⟩
      rw [if_pos hclose]
      exact ⟨hle, hge⟩

/-- **The clock offset.**  Peers shift the clock only a little in every state of a run if and only if
at none of its updates more than half of the samples held are `INT64_MIN`. -/
theorem steady_iff (calls : List (TimeCall CNetAddr)) :
    (∀ past, past <+: calls → SteadyOffset past) ↔
      ∀ past, past <+: calls → Updates past →
        2 * (held past).count int64Min ≤ (held past).length := by
  constructor
  · intro h past hpast hupdates
    obtain ⟨hlo, hhi⟩ := (h past hpast).bounded
    obtain ⟨m, hmedian, hoffset⟩ := offset_update hupdates
    obtain ⟨-, -, -, -, -, hodd⟩ := hupdates
    by_contra hmajority
    have hm := (hmedian.eq_least_iff hodd int64Min_le_held).2 (not_le.1 hmajority)
    rw [hoffset, hm, if_pos (by decide)] at hlo
    exact absurd hlo (by decide)
  · intro h past
    induction past using List.reverseRecOn with
    | nil =>
      intro _
      exact steady_of_bounded ⟨show -(70 * 60) < (0 : ℤ) by decide, show (0 : ℤ) < 70 * 60 by decide⟩
    | append_singleton past call ih =>
      intro hpast
      apply steady_of_bounded
      by_cases hupdates : Updates (past ++ [call])
      · obtain ⟨m, hmedian, hoffset⟩ := offset_update hupdates
        have hcount := h _ hpast hupdates
        have hm : m ≠ int64Min := by
          obtain ⟨-, -, -, -, -, hodd⟩ := hupdates
          intro heq
          have := (hmedian.eq_least_iff hodd int64Min_le_held).1 heq
          omega
        rw [hoffset]
        split
        · next hclose =>
          exact ((abs64_lt_iff (int64Min_le_held m hmedian.mem)).1 hclose).resolve_right hm
        · exact ⟨by decide, by decide⟩
      · rw [offset_keep hupdates]
        exact (ih ((List.prefix_append _ _).trans hpast)).bounded

end AddTimeData

/-- Four peers with one extreme time. -/
def extremeCalls : List (TimeCall ℕ) :=
  (List.range 4).map fun ip => { now := 1700000000, ip := ip, nTime := int64Min + 1700000000 }

/-- **Their median is `INT64_MIN`**, of which the absolute value is no positive number, and it becomes
the offset. -/
theorem offset_extremeCalls : (TimeData.run extremeCalls).nTimeOffset = int64Min ∧
    ¬ SteadyOffset extremeCalls := by
  have hoffset : (TimeData.run extremeCalls).nTimeOffset = int64Min := by decide
  refine ⟨hoffset, fun h => ?_⟩
  have hlo := h.bounded.1
  rw [hoffset] at hlo
  exact absurd hlo (by decide)

end FairCoin
