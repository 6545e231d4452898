import FairCoin.MasternodeSync

/-!
# Rounds of masternode synchronisation

What every run of `MasternodeSync.step` keeps, and what follows when it arrives at `FINISHED`.

* `Inv.process` — a call of `Process` keeps the invariant, assembled from what its parts keep:
  `Inv.reset`, `Inv.start`, `Base.leave`, `Base.fail`, `Inv.isBlockchainSynced`, and the pass
  through the peers, `Inv.processNodes`.
* `finished_of_run` — **a finished synchronisation went through every stage.**
-/

namespace FairCoin

namespace MasternodeSync

variable {env : Env} {c : Call} {s : State}

/-! ## Notes in the journal -/

theorem State.sinceReset_note (e : Event) : (s.note e).sinceReset = e :: s.sinceReset := rfl

namespace Stay

variable {st : Stay}

theorem turns_note (e : Event) :
    (st.note e).turns = (turnOf st.asset e).toList ++ st.turns := by
  show List.filterMap _ (e :: _) = _
  cases h : turnOf st.asset e with
  | none => exact List.filterMap_cons_none h
  | some p => exact List.filterMap_cons_some h

theorem turns_length_le_note (st : Stay) (e : Event) : st.turns.length ≤ (st.note e).turns.length := by
  rw [turns_note, List.length_append]
  exact Nat.le_add_left _ _

theorem mem_turns_note {p : ℕ} (hp : p ∈ st.turns) (e : Event) : p ∈ (st.note e).turns := by
  rw [turns_note]
  exact List.mem_append_right _ hp

theorem turns_pass (c : Call) (vNodes : List Peer) :
    (st.note (.pass c vNodes)).turns = st.turns := by
  rw [turns_note]
  cases st.asset <;> rfl

theorem passes_note {e : Event} (he : ∀ c vNodes, e ≠ .pass c vNodes) :
    (st.note e).passes = st.passes := by
  refine List.countP_cons_of_neg ?_
  cases e with
  | pass c vNodes => exact absurd rfl (he c vNodes)
  | _ => simp

theorem passes_pass (c : Call) (vNodes : List Peer) :
    (st.note (.pass c vNodes)).passes = st.passes + 1 :=
  List.countP_cons_of_pos (by simp)

theorem Present.of_note {p : ℕ} {e : Event} (h : (st.note e).Present p) : st.Present p :=
  fun c vNodes hmem => h c vNodes (List.mem_cons_of_mem _ hmem)

/-- Nothing but a pass through the peers can add to what is owed. -/
theorem underway_note {vNodes : List Peer} {p : ℕ} {e : Event}
    (he : ∀ c vNodes, e ≠ .pass c vNodes) (h : Underway st vNodes p) :
    Underway (st.note e) vNodes p := by
  have hle := turns_length_le_note st e
  rcases h with hturn | hmin | ⟨hpass, hmarks⟩
  · exact .inl (mem_turns_note hturn e)
  · exact .inr (.inl (hmin.trans hle))
  · refine .inr (.inr ⟨?_, hmarks⟩)
    rw [passes_note he]
    exact hpass.trans hle

end Stay

theorem Received.cons {a : Asset} {evs : List Event} (h : Received a evs) (e : Event) :
    Received a (e :: evs) :=
  ⟨fun ha => List.mem_cons_of_mem _ (h.1 ha), fun ha => List.mem_cons_of_mem _ (h.2 ha)⟩

theorem isChain_of_head {R : Stay → Stay → Prop} {a b : Stay} {l : List Stay}
    (h : (a :: l).IsChain R) (hab : ∀ x, R a x → R b x) : (b :: l).IsChain R := by
  cases l with
  | nil => exact List.isChain_singleton b
  | cons x l =>
    rw [List.isChain_cons_cons] at h ⊢
    exact ⟨hab x h.1, h.2⟩

theorem Base.note (h : Base s) (e : Event) : Base (s.note e) where
  asset := h.asset
  began := h.began
  path := h.path
  chain := isChain_of_head h.chain fun _ hx => hx
  attempts hdata := by
    have := Stay.turns_length_le_note s.stay e
    have := h.attempts hdata
    show s.requestedMasternodeAttempt ≤ (s.stay.note e).turns.length +
      (syncThreshold - s.requestedMasternodeAssets.minTurns)
    omega
  marks := h.marks
  nodup := h.nodup
  tip := h.tip
  listItem hne := List.mem_cons_of_mem _ (h.listItem hne)
  winnerItem hne := List.mem_cons_of_mem _ (h.winnerItem hne)
  received hall := (h.received fun b hb => hall b (List.mem_cons_of_mem _ hb)).cons e

theorem Inv.note (h : Inv s) {e : Event} (he : ∀ c vNodes, e ≠ .pass c vNodes) :
    Inv (s.note e) where
  toBase := h.toBase.note e
  owed hcleared hdata p hp := Stay.underway_note he (h.owed hcleared hdata p hp.of_note)

/-! ## Changes of stage -/

theorem received_initial (evs : List Event) : Received .initial evs :=
  ⟨fun hmem => absurd hmem (by decide), fun hmem => absurd hmem (by decide)⟩

theorem received_failed (evs : List Event) : Received .failed evs :=
  ⟨fun hmem => absurd hmem (by decide), fun hmem => absurd hmem (by decide)⟩

theorem Inv.reset (h : Base s) (now : ℤ) : Inv (reset now s) where
  asset := rfl
  began _ := rfl
  path _ := rfl
  chain := List.isChain_singleton _
  attempts hdata := absurd hdata Bool.false_ne_true
  marks _ hne := absurd rfl hne
  nodup := h.nodup
  tip := h.tip
  listItem hne := absurd rfl hne
  winnerItem hne := absurd rfl hne
  received _ := received_initial _
  owed _ hdata := absurd hdata Bool.false_ne_true

theorem before_next {a : Asset} (hfailed : a ≠ .failed) (hfinished : a ≠ .finished) :
    a.next.before = a :: a.before := by
  cases a <;> first | rfl | contradiction

theorem next_ne_failed (a : Asset) : a.next ≠ .failed := by
  cases a <;> exact nofun

theorem getNextAsset_of_ne (c : Call) (hinitial : s.requestedMasternodeAssets ≠ .initial)
    (hfailed : s.requestedMasternodeAssets ≠ .failed) :
    getNextAsset c s =
      { enter s.requestedMasternodeAssets.next c.now s with nAssetSyncStarted := c.now } := by
  unfold getNextAsset
  split
  · next heq => exact absurd heq hinitial
  · next heq => exact absurd heq hfailed
  · rfl

theorem sinceReset_enter (a : Asset) (now : ℤ) :
    (enter a now s).sinceReset = s.sinceReset := rfl

/-- **A stage is entered**: what the stage before owes must be settled, and so must what enforcement
asks for, and no peer may have the mark of the new stage. -/
theorem Base.enter (h : Base s) (hfailed : s.requestedMasternodeAssets ≠ .failed)
    (hfinished : s.requestedMasternodeAssets ≠ .finished)
    (hmarks : s.fCleared = true → ∀ n ∈ s.vNodes, ∀ r ∈ n.vecRequestsFulfilled,
      r.asset.code < s.requestedMasternodeAssets.next.code)
    (hfair : LeftFairly s.fCleared c.now s.stay)
    (hreceived : (∀ b, .process b ∈ s.sinceReset → b = true) →
      Received s.requestedMasternodeAssets.next s.sinceReset) :
    Inv { enter s.requestedMasternodeAssets.next c.now s with nAssetSyncStarted := c.now } where
  asset := rfl
  began _ := rfl
  path _ := by
    show s.stay.asset :: s.past.map Stay.asset = s.requestedMasternodeAssets.next.before
    rw [before_next hfailed hfinished, h.asset, h.path hfailed]
  chain := List.isChain_cons_cons.2 ⟨fun _ => hfair, h.chain⟩
  attempts _ := Nat.zero_le _
  marks hcleared _ n hn r hr := (hmarks hcleared n hn r hr).le
  nodup := h.nodup
  tip := h.tip
  listItem := h.listItem
  winnerItem := h.winnerItem
  received := hreceived
  owed hcleared _ p _ := by
    refine .inr (.inr ⟨Nat.le_refl 0, fun n hn _ r hr heq => ?_⟩)
    have hlt := hmarks hcleared n hn r hr
    rw [show r.asset = s.requestedMasternodeAssets.next from heq] at hlt
    exact Nat.lt_irrefl _ hlt

theorem code_lt_next {a : Asset} (hfailed : a ≠ .failed) (hfinished : a ≠ .finished) :
    a.code < a.next.code := by
  revert hfailed hfinished
  cases a <;> decide

/-- **A stage is left.** -/
theorem Base.leave (h : Base s) (hinitial : s.requestedMasternodeAssets ≠ .initial)
    (hfailed : s.requestedMasternodeAssets ≠ .failed)
    (hfinished : s.requestedMasternodeAssets ≠ .finished)
    (hfair : LeftFairly s.fCleared c.now s.stay)
    (hreceived : (∀ b, .process b ∈ s.sinceReset → b = true) →
      Received s.requestedMasternodeAssets.next s.sinceReset) :
    Inv (getNextAsset c s) := by
  rw [getNextAsset_of_ne c hinitial hfailed]
  refine h.enter hfailed hfinished (fun hcleared n hn r hr => ?_) hfair hreceived
  exact (h.marks hcleared hinitial n hn r hr).trans_lt (code_lt_next hfailed hfinished)

theorem Base.fail (h : Base s) : Inv (fail c s) where
  asset := rfl
  began hne := absurd rfl hne
  path hne := absurd rfl hne
  chain := List.isChain_cons_cons.2 ⟨fun hne => absurd rfl hne, h.chain⟩
  attempts hdata := absurd hdata Bool.false_ne_true
  marks _ _ n _ r _ := by
    show r.asset.code ≤ 998
    cases r <;> decide
  nodup := h.nodup
  tip := h.tip
  listItem := h.listItem
  winnerItem := h.winnerItem
  received _ := received_failed _
  owed _ hdata := absurd hdata Bool.false_ne_true

/-! ## Marks of the peers -/

namespace Peer

variable {n : Peer}

theorem fulfilledRequest_id (r : Request) : (n.fulfilledRequest r).id = n.id := by
  unfold fulfilledRequest
  split <;> rfl

theorem mem_fulfilledRequest {r r' : Request}
    (h : r' ∈ (n.fulfilledRequest r).vecRequestsFulfilled) :
    r' ∈ n.vecRequestsFulfilled ∨ r' = r := by
  unfold fulfilledRequest at h
  split at h
  · exact .inl h
  · rcases List.mem_append.1 h with h | h
    · exact .inl h
    · exact .inr (List.mem_singleton.1 h)

theorem fulfilledRequest_nodup (r : Request) (h : n.vecRequestsFulfilled.Nodup) :
    (n.fulfilledRequest r).vecRequestsFulfilled.Nodup := by
  unfold fulfilledRequest
  split
  · exact h
  · next hr =>
    have hr : r ∉ n.vecRequestsFulfilled := by simpa [hasFulfilledRequest] using hr
    show (n.vecRequestsFulfilled ++ [r]).Nodup
    rw [← List.concat_eq_append]
    exact h.concat hr

/-- Every mark can be there once only, so that clearing it takes it away. -/
theorem cleared_eq_nil (h : n.vecRequestsFulfilled.Nodup) :
    ((((n.clearFulfilledRequest .getspork).clearFulfilledRequest .mnsync).clearFulfilledRequest
      .mnwsync).clearFulfilledRequest .busync).vecRequestsFulfilled = [] := by
  have h₁ := h.erase .getspork
  have h₂ := h₁.erase .mnsync
  have h₃ := h₂.erase .mnwsync
  refine List.eq_nil_iff_forall_not_mem.2 fun r hr => ?_
  obtain ⟨hr₄, hr⟩ := h₃.mem_erase_iff.1 hr
  obtain ⟨hr₃, hr⟩ := h₂.mem_erase_iff.1 hr
  obtain ⟨hr₂, hr⟩ := h₁.mem_erase_iff.1 hr
  obtain ⟨hr₁, -⟩ := h.mem_erase_iff.1 hr
  cases r <;> contradiction

end Peer

theorem Base.setNodes (h : Base s) {vNodes : List Peer}
    (hnodup : ∀ n ∈ vNodes, n.vecRequestsFulfilled.Nodup)
    (hmarks : s.fCleared = true → s.requestedMasternodeAssets ≠ .initial →
      ∀ n ∈ vNodes, ∀ r ∈ n.vecRequestsFulfilled,
        r.asset.code ≤ s.requestedMasternodeAssets.code) :
    Base (s.setNodes vNodes) :=
  { h with marks := hmarks, nodup := hnodup }

/-- One peer gets the mark of the stage. -/
theorem Base.setNode (h : Base s) {before after : List Peer} {n n' : Peer} {r : Request}
    (hnodes : s.vNodes = before ++ n :: after) (hr : r.asset = s.requestedMasternodeAssets)
    (hn' : n' = n ∨ n' = n.fulfilledRequest r) :
    Base (s.setNodes (before ++ n' :: after)) := by
  have hmem : ∀ m ∈ before ++ n' :: after, m ∈ s.vNodes ∨ m = n' := by
    intro m hm
    rw [hnodes]
    rcases List.mem_append.1 hm with hm | hm
    · exact .inl (List.mem_append_left _ hm)
    · rcases List.mem_cons.1 hm with hm | hm
      · exact .inr hm
      · exact .inl (List.mem_append_right _ (List.mem_cons_of_mem _ hm))
  have hn : n ∈ s.vNodes := by
    rw [hnodes]
    exact List.mem_append_right _ List.mem_cons_self
  refine h.setNodes (fun m hm => ?_) (fun hcleared hinitial m hm r' hr' => ?_)
  · rcases hmem m hm with hm | rfl
    · exact h.nodup m hm
    · rcases hn' with rfl | rfl
      · exact h.nodup _ hn
      · exact Peer.fulfilledRequest_nodup r (h.nodup n hn)
  · rcases hmem m hm with hm | rfl
    · exact h.marks hcleared hinitial m hm r' hr'
    · rcases hn' with rfl | rfl
      · exact h.marks hcleared hinitial _ hn r' hr'
      · rcases Peer.mem_fulfilledRequest hr' with hr' | rfl
        · exact h.marks hcleared hinitial n hn r' hr'
        · rw [hr]

/-- The marks are cleared before a round starts. -/
theorem Base.clear (h : Base s) (hinitial : s.requestedMasternodeAssets = .initial) :
    Base (clearFulfilledRequest c s) := by
  have hpast : s.past = [] := by
    have := h.path (by rw [hinitial]; exact nofun)
    rw [hinitial] at this
    exact List.map_eq_nil_iff.1 this
  have hchain : ∀ R : Stay → Stay → Prop, (s.stay :: s.past).IsChain R := by
    intro R
    rw [hpast]
    exact List.isChain_singleton _
  unfold clearFulfilledRequest
  split
  · refine { h with
      chain := hchain _
      marks := fun _ hne => absurd hinitial hne
      nodup := fun n hn => ?_ }
    obtain ⟨m, hm, rfl⟩ := List.mem_map.1 hn
    rw [Peer.cleared_eq_nil (h.nodup m hm)]
    exact List.nodup_nil
  · exact { h with
      chain := hchain _
      marks := fun hcleared => absurd hcleared Bool.false_ne_true }

theorem marks_clear (h : Base s) (hcleared : (clearFulfilledRequest c s).fCleared = true) :
    ∀ n ∈ (clearFulfilledRequest c s).vNodes, n.vecRequestsFulfilled = [] := by
  unfold clearFulfilledRequest at hcleared ⊢
  split
  · intro n hn
    obtain ⟨m, hm, rfl⟩ := List.mem_map.1 hn
    exact Peer.cleared_eq_nil (h.nodup m hm)
  · next hlock =>
    rw [if_neg hlock] at hcleared
    exact absurd hcleared Bool.false_ne_true

theorem clearFulfilledRequest_assets :
    (clearFulfilledRequest c s).requestedMasternodeAssets = s.requestedMasternodeAssets := by
  unfold clearFulfilledRequest
  split <;> rfl

/-- **A round starts.** -/
theorem Base.start (h : Base s) (hinitial : s.requestedMasternodeAssets = .initial) :
    Inv (getNextAsset c s) := by
  have hclear := h.clear (c := c) hinitial
  have hassets := (clearFulfilledRequest_assets (c := c) (s := s)).trans hinitial
  have heq : getNextAsset c s =
      { MasternodeSync.enter (clearFulfilledRequest c s).requestedMasternodeAssets.next c.now
        (clearFulfilledRequest c s) with nAssetSyncStarted := c.now } := by
    unfold getNextAsset
    rw [hinitial, hassets]
  rw [heq]
  refine hclear.enter (by rw [hassets]; exact nofun) (by rw [hassets]; exact nofun) ?_ ?_ ?_
  · intro hcleared n hn r hr
    rw [marks_clear h hcleared n hn] at hr
    exact absurd hr List.not_mem_nil
  · intro hdata
    rw [hclear.asset, hassets] at hdata
    exact absurd hdata Bool.false_ne_true
  · intro _
    rw [hassets]
    exact ⟨fun hmem => absurd hmem (by decide), fun hmem => absurd hmem (by decide)⟩

/-! ## One peer -/

/-- A peer has its turn. -/
def Turn (a : Asset) (p : ℕ) (s s' : State) : Prop :=
  ∃ e asked, turnOf a e = some p ∧
    s' = { countAttempt (s.note e) with mWeAskedForMasternodeList := asked }

/-- The data of the stage has come in. -/
def Filled (s : State) : Prop :=
  (s.requestedMasternodeAssets = .list → s.lastMasternodeList ≠ 0) ∧
    (s.requestedMasternodeAssets = .mnw → s.lastMasternodeWinner ≠ 0)

/-- What can come of a peer that is not passed over. -/
structure Visited (c : Call) (s : State) (n n' : Peer) (s' : State) : Prop where
  marked : ∃ r : Request, r.asset = s.requestedMasternodeAssets ∧
    (n' = n ∨ n' = n.fulfilledRequest r)
  outcome : (s' = getNextAsset c s ∧ syncThreshold ≤ s.requestedMasternodeAttempt ∧
      (c.spork8 = true → Filled s)) ∨ s' = fail c s ∨
    (s' = s ∧ syncThreshold * 3 ≤ s.requestedMasternodeAttempt) ∨
    Turn s.requestedMasternodeAssets n.id s s'

theorem dsegUpdate_turn (n : Peer) : Turn .list n.id s (countAttempt (dsegUpdate env c n s)) := by
  unfold dsegUpdate
  extract_lets recent
  split
  · exact ⟨.skipped n.id, s.mWeAskedForMasternodeList, rfl, rfl⟩
  · exact ⟨.pushed n.id .dseg, _, rfl, rfl⟩

theorem visitData_cases {r : Request} {last : ℤ} {ask : State → State} {n n' : Peer} {s' : State}
    (hlate : ¬ c.now - s.nAssetSyncStarted > syncTimeout * 5)
    (h : visitData r last ask c s n = some (n', s')) :
    (n' = n ∨ n' = n.fulfilledRequest r) ∧
      ((s' = getNextAsset c s ∧ syncThreshold ≤ s.requestedMasternodeAttempt ∧
          (c.spork8 = true → last ≠ 0)) ∨ s' = fail c s ∨
        (s' = s ∧ syncThreshold * 3 ≤ s.requestedMasternodeAttempt) ∨ s' = ask s) := by
  unfold visitData at h
  split at h
  · next hquiet =>
    cases h
    obtain ⟨hpos, -, hle⟩ := of_decide_eq_true hquiet
    exact ⟨.inl rfl, .inl ⟨rfl, hle, fun _ => hpos.ne'⟩⟩
  · split at h
    · exact absurd h nofun
    · cases h
      refine ⟨.inr rfl, ?_⟩
      split
      · next htimed =>
        obtain ⟨-, hle⟩ := of_decide_eq_true htimed
        have hle := hle.resolve_right hlate
        split
        · exact .inr (.inl rfl)
        · next hspork =>
          exact .inl ⟨rfl, (show 2 ≤ 2 * 3 by decide).trans hle, fun hon => absurd hon hspork⟩
      · split
        · next hle => exact .inr (.inr (.inl ⟨rfl, hle⟩))
        · exact .inr (.inr (.inr rfl))

theorem visitBudget_cases {n n' : Peer} {s' : State}
    (hlate : ¬ c.now - s.nAssetSyncStarted > syncTimeout * 5)
    (h : visitBudget c s n = some (n', s')) :
    (n' = n ∨ n' = n.fulfilledRequest .busync) ∧
      ((s' = getNextAsset c s ∧ syncThreshold ≤ s.requestedMasternodeAttempt) ∨
        (s' = s ∧ syncThreshold * 3 ≤ s.requestedMasternodeAttempt) ∨ Turn .budget n.id s s') := by
  unfold visitBudget at h
  split at h
  · next hquiet =>
    cases h
    exact ⟨.inl rfl, .inl ⟨rfl, (of_decide_eq_true hquiet).2.2⟩⟩
  · split at h
    · next htimed =>
      cases h
      have hle := (of_decide_eq_true htimed).2.resolve_right hlate
      exact ⟨.inl rfl, .inl ⟨rfl, (show 2 ≤ 2 * 3 by decide).trans hle⟩⟩
    · split at h
      · exact absurd h nofun
      · cases h
        refine ⟨.inr rfl, ?_⟩
        split
        · next hle => exact .inr (.inl ⟨rfl, hle⟩)
        · exact .inr (.inr ⟨.pushed n.id .mnvs, s.mWeAskedForMasternodeList, rfl, rfl⟩)

/-- **What can come of a peer** in a stage that asks for data. -/
theorem visit_cases (hnet : env.network ≠ .regtest)
    (hdata : s.requestedMasternodeAssets.isData = true)
    (hlate : ¬ c.now - s.nAssetSyncStarted > syncTimeout * 5)
    (htip : s.requestedMasternodeAssets = .mnw → s.tip ≠ none) {n n' : Peer} {s' : State}
    (h : visit env c s n = some (n', s')) : Visited c s n n' s' := by
  unfold visit at h
  rw [if_neg hnet] at h
  split at h
  · next ha =>
    rw [ha] at hdata
    exact absurd hdata Bool.false_ne_true
  · next ha =>
    split at h
    · obtain ⟨hn', hcases⟩ := visitData_cases hlate h
      refine ⟨⟨.mnsync, ha.symm, hn'⟩, ?_⟩
      rcases hcases with ⟨hs', hle, hlast⟩ | hs' | hs' | hs'
      · refine .inl ⟨hs', hle, fun hon => ⟨fun _ => hlast hon, fun hmnw => ?_⟩⟩
        rw [ha] at hmnw
        exact absurd hmnw nofun
      · exact .inr (.inl hs')
      · exact .inr (.inr (.inl hs'))
      · rw [hs', ha]
        exact .inr (.inr (.inr (dsegUpdate_turn n)))
    · exact absurd h nofun
  · next ha =>
    split at h
    · obtain ⟨hn', hcases⟩ := visitData_cases hlate h
      refine ⟨⟨.mnwsync, ha.symm, hn'⟩, ?_⟩
      rcases hcases with ⟨hs', hle, hlast⟩ | hs' | hs' | hs'
      · refine .inl ⟨hs', hle, fun hon => ⟨fun hlist => ?_, fun _ => hlast hon⟩⟩
        rw [ha] at hlist
        exact absurd hlist nofun
      · exact .inr (.inl hs')
      · exact .inr (.inr (.inl hs'))
      · rw [if_neg (htip ha)] at hs'
        rw [hs', ha]
        exact .inr (.inr (.inr ⟨_, s.mWeAskedForMasternodeList, rfl, rfl⟩))
    · exact absurd h nofun
  · next ha =>
    split at h
    · obtain ⟨hn', hcases⟩ := visitBudget_cases hlate h
      refine ⟨⟨.busync, ha.symm, hn'⟩, ?_⟩
      rcases hcases with ⟨hs', hle⟩ | hs' | hs'
      · refine .inl ⟨hs', hle, fun _ => ?_⟩
        unfold Filled
        rw [ha]
        exact ⟨nofun, nofun⟩
      · exact .inr (.inr (.inl hs'))
      · rw [ha]
        exact .inr (.inr (.inr hs'))
    · exact absurd h nofun
  · exact absurd h nofun

theorem mem_of_hasFulfilledRequest {n : Peer} {r : Request} (h : n.hasFulfilledRequest r = true) :
    r ∈ n.vecRequestsFulfilled := of_decide_eq_true h

/-- A peer of sufficient version is passed over only when it has the mark of the stage. -/
theorem marked_of_visit (hnet : env.network ≠ .regtest)
    (hdata : s.requestedMasternodeAssets.isData = true) {n : Peer} (h : visit env c s n = none)
    (hn : Sufficient s.requestedMasternodeAssets c n) :
    ∃ r ∈ n.vecRequestsFulfilled, r.asset = s.requestedMasternodeAssets := by
  unfold visit at h
  unfold Sufficient at hn
  rw [if_neg hnet] at h
  split at h
  · next ha =>
    rw [ha] at hdata
    exact absurd hdata Bool.false_ne_true
  · next ha =>
    rw [ha, if_neg nofun] at hn
    rw [if_pos hn, visitList, visitData] at h
    split at h
    · exact absurd h nofun
    · split at h
      · next hr => exact ⟨.mnsync, mem_of_hasFulfilledRequest hr, ha.symm⟩
      · exact absurd h nofun
  · next ha =>
    rw [ha, if_neg nofun] at hn
    rw [if_pos hn, visitMnw, visitData] at h
    split at h
    · exact absurd h nofun
    · split at h
      · next hr => exact ⟨.mnwsync, mem_of_hasFulfilledRequest hr, ha.symm⟩
      · exact absurd h nofun
  · next ha =>
    rw [ha, if_pos rfl] at hn
    rw [if_pos hn, visitBudget] at h
    split at h
    · exact absurd h nofun
    · split at h
      · exact absurd h nofun
      · split at h
        · next hr => exact ⟨.busync, mem_of_hasFulfilledRequest hr, ha.symm⟩
        · exact absurd h nofun
  · next hsporks hlist hmnw hbudget =>
    revert hsporks hlist hmnw hbudget hdata
    cases s.requestedMasternodeAssets <;> simp [Asset.isData]

/-! ## A pass through the peers -/

theorem visit_of_visitNodes_none {ns : List Peer} (h : visitNodes env c s ns = none) :
    ∀ n ∈ ns, visit env c s n = none := by
  induction ns with
  | nil => exact fun n hn => absurd hn List.not_mem_nil
  | cons m ns ih =>
    unfold visitNodes at h
    split at h
    · exact absurd h nofun
    · next hm =>
      have hns := Option.map_eq_none_iff.1 h
      intro n hn
      rcases List.mem_cons.1 hn with rfl | hn
      · exact hm
      · exact ih hns n hn

theorem visit_of_visitNodes_some {ns ns' : List Peer} {s' : State}
    (h : visitNodes env c s ns = some (ns', s')) :
    ∃ before n n' after, ns = before ++ n :: after ∧ ns' = before ++ n' :: after ∧
      visit env c s n = some (n', s') := by
  induction ns generalizing ns' with
  | nil => exact absurd h nofun
  | cons m ns ih =>
    unfold visitNodes at h
    split at h
    · next n' _ hm =>
      cases h
      exact ⟨[], m, n', ns, rfl, rfl, hm⟩
    · obtain ⟨⟨ns₁, s₁⟩, hns, heq⟩ := Option.map_eq_some_iff.1 h
      cases heq
      obtain ⟨before, n, n', after, hns₁, hns₂, hn⟩ := ih hns
      exact ⟨m :: before, n, n', after, by rw [hns₁]; rfl, by rw [hns₂]; rfl, hn⟩

theorem Base.received_next (h : Base s) (hdata : s.requestedMasternodeAssets.isData = true)
    (hspork : .process c.spork8 ∈ s.sinceReset) (hfilled : c.spork8 = true → Filled s)
    (hall : ∀ b, .process b ∈ s.sinceReset → b = true) :
    Received s.requestedMasternodeAssets.next s.sinceReset := by
  have hfilled := hfilled (hall _ hspork)
  have hold := h.received hall
  cases ha : s.requestedMasternodeAssets with
  | list =>
    exact ⟨fun _ => h.listItem (hfilled.1 ha), fun hmem => absurd hmem (by decide)⟩
  | mnw =>
    exact ⟨fun _ => hold.1 (by rw [ha]; decide), fun _ => h.winnerItem (hfilled.2 ha)⟩
  | budget =>
    exact ⟨fun _ => hold.1 (by rw [ha]; decide), fun _ => hold.2 (by rw [ha]; decide)⟩
  | _ =>
    rw [ha] at hdata
    exact absurd hdata Bool.false_ne_true

/-- Enough attempts are enough turns. -/
theorem Base.minTurns_le (h : Base s) (hdata : s.requestedMasternodeAssets.isData = true)
    (hle : syncThreshold ≤ s.requestedMasternodeAttempt) :
    s.stay.asset.minTurns ≤ s.stay.turns.length := by
  have hattempts := h.attempts hdata
  have hmin : s.requestedMasternodeAssets.minTurns ≤ syncThreshold := by
    cases s.requestedMasternodeAssets <;> decide
  rw [h.asset]
  omega

theorem ne_of_isData {a b : Asset} (ha : a.isData = true) (hb : b.isData = false) : a ≠ b := by
  rintro rfl
  rw [ha] at hb
  exact absurd hb nofun

/-- A data stage is left, with its debts settled. -/
theorem Base.leaveData (h : Base s) (hdata : s.requestedMasternodeAssets.isData = true)
    (hspork : .process c.spork8 ∈ s.sinceReset) (hfilled : c.spork8 = true → Filled s)
    (hfair : LeftFairly s.fCleared c.now s.stay) : Inv (getNextAsset c s) :=
  h.leave (ne_of_isData hdata rfl) (ne_of_isData hdata rfl) (ne_of_isData hdata rfl) hfair
    (h.received_next hdata hspork hfilled)

theorem getNextAsset_setNodes (hinitial : s.requestedMasternodeAssets ≠ .initial)
    (hfailed : s.requestedMasternodeAssets ≠ .failed) (vNodes : List Peer) :
    getNextAsset c (s.setNodes vNodes) = (getNextAsset c s).setNodes vNodes := by
  rw [getNextAsset_of_ne c hinitial hfailed,
    getNextAsset_of_ne (s := s.setNodes vNodes) c hinitial hfailed]
  rfl

/-- Everything but the debts survives the turn of a peer. -/
theorem Base.turn (h : Base s) {e : Event} {p : ℕ} {asked : ℕ → Option ℤ}
    (he : turnOf s.requestedMasternodeAssets e = some p) :
    Base { countAttempt (s.note e) with mWeAskedForMasternodeList := asked } :=
  { h.note e with
    attempts := fun hdata => by
      show s.requestedMasternodeAttempt + 1 ≤ (s.stay.note e).turns.length +
        (syncThreshold - s.requestedMasternodeAssets.minTurns)
      have := h.attempts hdata
      rw [Stay.turns_note, h.asset, he, List.length_append]
      simp only [Option.toList_some, List.length_singleton]
      omega }

/-- Outside of the data stages nothing is owed. -/
theorem Base.toInv (h : Base s) (hdata : s.requestedMasternodeAssets.isData = false) : Inv s where
  toBase := h
  owed _ hdata' := by
    rw [h.asset, hdata] at hdata'
    exact absurd hdata' nofun

/-- A pass in which every peer is passed over: those that are owed a turn have had it. -/
theorem Inv.passedOver (h : Inv s) (hnet : env.network ≠ .regtest)
    (hdata : s.requestedMasternodeAssets.isData = true)
    (hnone : ∀ n ∈ s.vNodes, visit env c (s.note (.pass c s.vNodes)) n = none) :
    Inv (s.note (.pass c s.vNodes)) where
  toBase := h.toBase.note _
  owed hcleared hstay p hp := by
    have hle := Stay.turns_length_le_note s.stay (.pass c s.vNodes)
    obtain ⟨n, hn, rfl, hsuff⟩ := hp c s.vNodes List.mem_cons_self
    rw [show (s.note (.pass c s.vNodes)).stay.asset = s.requestedMasternodeAssets from h.asset]
      at hsuff
    rcases h.owed hcleared hstay n.id hp.of_note with hturn | hmin | ⟨-, hmarks⟩
    · exact .inl (Stay.mem_turns_note hturn _)
    · exact .inr (.inl (hmin.trans hle))
    · obtain ⟨r, hr, heq⟩ := marked_of_visit hnet (s := s.note (.pass c s.vNodes)) hdata
        (hnone n hn) hsuff
      exact absurd (heq.trans h.asset.symm) (hmarks n hn rfl r hr)

/-- A peer has its turn in a pass: nothing more is owed to it, nor to the others. -/
theorem underway_turn {st : Stay} {before after : List Peer} {n n' : Peer} {e : Event} {p : ℕ}
    (vNodes : List Peer) (hid : n'.id = n.id) (he : turnOf st.asset e = some n.id)
    (h : Underway st (before ++ n :: after) p) :
    Underway ((st.note (.pass c vNodes)).note e) (before ++ n' :: after) p := by
  have hturns : ((st.note (.pass c vNodes)).note e).turns = n.id :: st.turns := by
    rw [Stay.turns_note, Stay.turns_pass,
      show turnOf (st.note (.pass c vNodes)).asset e = some n.id from he]
    rfl
  have hne : ∀ c vNodes, e ≠ .pass c vNodes := by
    rintro c vNodes rfl
    revert he
    cases st.asset <;> exact nofun
  unfold Underway
  rw [hturns, Stay.passes_note hne, Stay.passes_pass, List.length_cons]
  by_cases hpn : n.id = p
  · exact .inl (hpn ▸ List.mem_cons_self)
  · rcases h with hturn | hmin | ⟨hpass, hmarks⟩
    · exact .inl (List.mem_cons_of_mem _ hturn)
    · exact .inr (.inl (hmin.trans (Nat.le_succ _)))
    · refine .inr (.inr ⟨Nat.succ_le_succ hpass, fun m hm hmp r hr => ?_⟩)
      have hm : m ∈ before ++ n :: after := by
        rcases List.mem_append.1 hm with hm | hm
        · exact List.mem_append_left _ hm
        · rcases List.mem_cons.1 hm with heq | hm
          · rw [heq, hid] at hmp
            exact absurd hmp hpn
          · exact List.mem_append_right _ (List.mem_cons_of_mem _ hm)
      exact hmarks m hm hmp r hr

/-- **A pass through the peers** in a data stage. -/
theorem Inv.processData (h : Inv s) (hnet : env.network ≠ .regtest)
    (hdata : s.requestedMasternodeAssets.isData = true)
    (hlate : ¬ c.now - s.nAssetSyncStarted > syncTimeout * 5) (htip : s.tip ≠ none)
    (hspork : .process c.spork8 ∈ s.sinceReset) : Inv (processNodes env c s) := by
  have hbase := h.toBase.note (.pass c s.vNodes)
  have hspork' : .process c.spork8 ∈ (s.note (.pass c s.vNodes)).sinceReset :=
    List.mem_cons_of_mem _ hspork
  unfold processNodes
  dsimp only
  split
  · next hnone => exact h.passedOver hnet hdata (visit_of_visitNodes_none hnone)
  · next vNodes s' hsome =>
    obtain ⟨before, n, n', after, hnodes, rfl, hvisit⟩ := visit_of_visitNodes_some hsome
    obtain ⟨⟨r, hr, hn'⟩, hcases⟩ := visit_cases (s := s.note (.pass c s.vNodes)) hnet hdata
      hlate (fun _ => htip) hvisit
    have hbase' := hbase.setNode hnodes hr hn'
    have hmin : syncThreshold ≤ s.requestedMasternodeAttempt →
        s.stay.asset.minTurns ≤ (s.stay.note (.pass c s.vNodes)).turns.length :=
      fun hle => hbase.minTurns_le hdata hle
    rcases hcases with ⟨rfl, hle, hfilled⟩ | rfl | ⟨rfl, hle⟩ | ⟨e, asked, he, rfl⟩
    · rw [← getNextAsset_setNodes (s := s.note (.pass c s.vNodes)) (ne_of_isData hdata rfl)
        (ne_of_isData hdata rfl)]
      exact hbase'.leaveData hdata hspork' hfilled fun _ _ _ _ => .inr (.inl (hmin hle))
    · exact hbase'.fail
    · exact
        { toBase := hbase'
          owed := fun _ _ _ _ => .inr (.inl (hmin ((show 2 ≤ 2 * 3 by decide).trans hle))) }
    · refine
        { toBase := hbase'.turn he
          owed := fun hcleared hstay p hp => ?_ }
      have hid : n'.id = n.id := by
        rcases hn' with rfl | rfl
        · rfl
        · exact Peer.fulfilledRequest_id _
      refine underway_turn s.vNodes hid (h.asset.symm ▸ he) ?_
      rw [← show s.vNodes = before ++ n :: after from hnodes]
      exact h.owed hcleared hstay p fun c vNodes hmem =>
        hp c vNodes (List.mem_cons_of_mem _ (List.mem_cons_of_mem _ hmem))

theorem not_isData_sporks (hsporks : s.requestedMasternodeAssets = .sporks) :
    s.requestedMasternodeAssets.isData = false := by
  rw [hsporks]
  rfl

theorem Base.leaveSporks (h : Base s) (hsporks : s.requestedMasternodeAssets = .sporks) :
    Inv (getNextAsset c s) := by
  refine h.leave (by rw [hsporks]; exact nofun) (by rw [hsporks]; exact nofun)
    (by rw [hsporks]; exact nofun) (fun hdata => ?_) (fun _ => ?_)
  · rw [h.asset, not_isData_sporks hsporks] at hdata
    exact absurd hdata nofun
  · rw [hsporks]
    exact ⟨fun hmem => absurd hmem (by decide), fun hmem => absurd hmem (by decide)⟩

theorem getNextAsset_assets :
    (getNextAsset c s).requestedMasternodeAssets = s.requestedMasternodeAssets.next := rfl

theorem getNextAsset_attempt : (getNextAsset c s).requestedMasternodeAttempt = 0 := rfl

/-- The peer asked for sporks when the `LIST` stage is entered counts as an attempt there. -/
theorem Base.leaveSporksCounting (h : Base s) (hsporks : s.requestedMasternodeAssets = .sporks) :
    Inv (countAttempt (getNextAsset c s)) := by
  refine { h.leaveSporks hsporks with attempts := fun _ => ?_ }
  show (getNextAsset c s).requestedMasternodeAttempt + 1 ≤ (getNextAsset c s).stay.turns.length +
    (syncThreshold - (getNextAsset c s).requestedMasternodeAssets.minTurns)
  rw [getNextAsset_attempt, getNextAsset_assets, hsporks]
  exact Nat.le_add_left _ _

/-- A pass through the peers in the `SPORKS` stage. -/
theorem Inv.processSporks (h : Inv s) (hnet : env.network ≠ .regtest)
    (hsporks : s.requestedMasternodeAssets = .sporks) : Inv (processNodes env c s) := by
  have hbase := h.toBase.note (.pass c s.vNodes)
  have hdata := not_isData_sporks hsporks
  unfold processNodes
  dsimp only
  split
  · exact hbase.toInv hdata
  · next vNodes s' hsome =>
    obtain ⟨before, n, n', after, hnodes, rfl, hvisit⟩ := visit_of_visitNodes_some hsome
    unfold visit at hvisit
    rw [if_neg hnet, show (s.note (.pass c s.vNodes)).requestedMasternodeAssets = .sporks
      from hsporks] at hvisit
    dsimp only at hvisit
    unfold visitSporks at hvisit
    split at hvisit
    · exact absurd hvisit nofun
    · cases hvisit
      have hbase' := (hbase.setNode (r := .getspork) hnodes hsporks.symm (.inr rfl)).note
        (.pushed n.id .getsporks)
      split
      · have hinitial : s.requestedMasternodeAssets ≠ .initial := by rw [hsporks]; exact nofun
        have hfailed : s.requestedMasternodeAssets ≠ .failed := by rw [hsporks]; exact nofun
        have hleave : Inv (countAttempt (getNextAsset c
            (((s.note (.pass c s.vNodes)).note (.pushed n.id .getsporks)).setNodes
              (before ++ n.fulfilledRequest .getspork :: after)))) :=
          hbase'.leaveSporksCounting hsporks
        rw [getNextAsset_setNodes (by exact hinitial) (by exact hfailed)] at hleave
        exact hleave
      · exact Base.toInv { hbase' with
          attempts := fun hdata' => absurd (hdata.symm.trans hdata') nofun } hdata

theorem visit_of_not_isData (hnet : env.network ≠ .regtest)
    (hsporks : s.requestedMasternodeAssets ≠ .sporks)
    (hdata : s.requestedMasternodeAssets.isData = false) (n : Peer) : visit env c s n = none := by
  unfold visit
  rw [if_neg hnet]
  split
  · next ha => exact absurd ha hsporks
  · next ha => rw [ha] at hdata; exact absurd hdata nofun
  · next ha => rw [ha] at hdata; exact absurd hdata nofun
  · next ha => rw [ha] at hdata; exact absurd hdata nofun
  · rfl

/-- **A pass through the peers** keeps the invariant. -/
theorem Inv.processNodes (h : Inv s) (hnet : env.network ≠ .regtest)
    (hlate : Asset.code .sporks ≤ s.requestedMasternodeAssets.code →
      ¬ c.now - s.nAssetSyncStarted > syncTimeout * 5)
    (htip : s.requestedMasternodeAssets.isData = true → s.tip ≠ none)
    (hspork : s.requestedMasternodeAssets.isData = true → .process c.spork8 ∈ s.sinceReset) :
    Inv (processNodes env c s) := by
  by_cases hsporks : s.requestedMasternodeAssets = .sporks
  · exact h.processSporks hnet hsporks
  · cases hdata : s.requestedMasternodeAssets.isData with
    | true =>
      have hcode : Asset.code .sporks ≤ s.requestedMasternodeAssets.code := by
        revert hdata
        cases s.requestedMasternodeAssets <;> decide
      exact h.processData hnet hdata (hlate hcode) (htip hdata) (hspork hdata)
    | false =>
      unfold MasternodeSync.processNodes
      dsimp only
      split
      · exact (h.toBase.note _).toInv hdata
      · next hsome =>
        obtain ⟨_, n, _, _, _, _, hvisit⟩ := visit_of_visitNodes_some hsome
        rw [visit_of_not_isData hnet (by exact hsporks) (by exact hdata)] at hvisit
        exact absurd hvisit nofun

/-! ## Calls -/

/-- What `IsBlockchainSynced` does to the state. -/
structure SyncedSpec (s : State) (r : Bool × State) : Prop where
  inv : Inv r.2
  tip : r.1 = true → r.2.tip ≠ none
  frame : r.2.requestedMasternodeAssets = .initial ∨
    (r.2.requestedMasternodeAssets = s.requestedMasternodeAssets ∧ r.2.sinceReset = s.sinceReset)

theorem isBlockchainSynced_spec (env : Env) (c : Call) (h : Inv s) :
    SyncedSpec s (isBlockchainSynced env c s) := by
  unfold isBlockchainSynced
  extract_lets _ s₀ s₁
  have h₀ : Inv s₀ ∧ (s₀.requestedMasternodeAssets = .initial ∨
      (s₀.requestedMasternodeAssets = s.requestedMasternodeAssets ∧
        s₀.sinceReset = s.sinceReset)) := by
    simp only [s₀]
    split
    · exact ⟨{ Inv.reset h.toBase c.now with tip := fun hf => absurd hf Bool.false_ne_true },
        .inl rfl⟩
    · exact ⟨h, .inr ⟨rfl, rfl⟩⟩
  have h₁ : Inv s₁ := { h₀.1 with }
  split
  · next hsynced => exact ⟨h₁, fun _ => h₁.tip hsynced, h₀.2⟩
  · split
    · exact ⟨h₁, fun hf => absurd hf Bool.false_ne_true, h₀.2⟩
    · split
      · exact ⟨h₁, fun hf => absurd hf Bool.false_ne_true, h₀.2⟩
      · split
        · exact ⟨h₁, fun hf => absurd hf Bool.false_ne_true, h₀.2⟩
        · next nTime htip =>
          split
          · exact ⟨h₁, fun hf => absurd hf Bool.false_ne_true, h₀.2⟩
          · have hne : s₁.tip ≠ none := by rw [htip]; exact nofun
            exact ⟨{ h₁ with tip := fun _ => hne }, fun _ => hne, h₀.2⟩

/-- A stage that has taken too long is left. -/
theorem Inv.processLate (h : Inv s) (hinitial : s.requestedMasternodeAssets ≠ .initial)
    (hfailed : s.requestedMasternodeAssets ≠ .failed)
    (hfinished : s.requestedMasternodeAssets ≠ .finished)
    (hlate : c.now - s.nAssetSyncStarted > syncTimeout * 5)
    (hspork : s.requestedMasternodeAssets.isData = true → .process c.spork8 ∈ s.sinceReset) :
    Inv (processLate c s) := by
  unfold MasternodeSync.processLate
  split
  · exact h.toBase.fail
  · next hfilled =>
    cases hdata : s.requestedMasternodeAssets.isData with
    | true =>
      refine h.toBase.leaveData hdata (hspork hdata) (fun hon => ?_) (fun hstay hcleared p hp => ?_)
      · exact ⟨fun ha hzero => hfilled ⟨hon, .inl ⟨ha, hzero⟩⟩,
          fun ha hzero => hfilled ⟨hon, .inr ⟨ha, hzero⟩⟩⟩
      · rcases h.owed hcleared hstay p hp with hturn | hmin | ⟨hpass, -⟩
        · exact .inl hturn
        · exact .inr (.inl hmin)
        · refine .inr (.inr ⟨?_, hpass⟩)
          rw [h.began hfailed]
          exact hlate
    | false =>
      refine h.toBase.leaveSporks ?_
      revert hinitial hfailed hfinished hdata
      cases s.requestedMasternodeAssets <;> simp [Asset.isData]

/-- `Process` from the test of the block chain on. -/
theorem Inv.processStage (h : Inv s) (hnet : env.network ≠ .regtest)
    (hfailed : s.requestedMasternodeAssets ≠ .failed)
    (hfinished : s.requestedMasternodeAssets ≠ .finished)
    (hspork : s.requestedMasternodeAssets.isData = true → .process c.spork8 ∈ s.sinceReset) :
    Inv (processStage env c s) := by
  unfold MasternodeSync.processStage
  rw [if_neg hnet]
  have hspec := isBlockchainSynced_spec env c h
  generalize isBlockchainSynced env c s = r at hspec
  dsimp only
  have hfailed' : r.2.requestedMasternodeAssets ≠ .failed := by
    rcases hspec.frame with heq | ⟨heq, -⟩
    · rw [heq]; exact nofun
    · rwa [heq]
  have hfinished' : r.2.requestedMasternodeAssets ≠ .finished := by
    rcases hspec.frame with heq | ⟨heq, -⟩
    · rw [heq]; exact nofun
    · rwa [heq]
  have hspork' : r.2.requestedMasternodeAssets.isData = true →
      .process c.spork8 ∈ r.2.sinceReset := by
    intro hdata
    rcases hspec.frame with heq | ⟨heq, hsince⟩
    · rw [heq] at hdata
      exact absurd hdata Bool.false_ne_true
    · rw [hsince]
      exact hspork (heq ▸ hdata)
  split
  · exact hspec.inv
  · next hwait =>
    split
    · next hlate =>
      refine hspec.inv.processLate ?_ hfailed' hfinished' hlate.2 hspork'
      intro heq
      rw [heq] at hlate
      exact absurd hlate.1 (by decide)
    · next hlate =>
      split
      · exact hspec.inv
      · refine hspec.inv.processNodes hnet (fun hcode hlong => hlate ⟨hcode, hlong⟩)
          (fun hdata => hspec.tip ?_) hspork'
        have hcode : Asset.code .sporks < r.2.requestedMasternodeAssets.code := by
          revert hdata
          cases r.2.requestedMasternodeAssets <;> decide
        by_contra hsynced
        exact hwait ⟨by simpa using hsynced, hcode⟩

/-- **A call of `Process`** keeps the invariant. -/
theorem Inv.process (h : Inv s) (hnet : env.network ≠ .regtest) :
    Inv (process env c s) := by
  unfold MasternodeSync.process
  split
  · exact { h with }
  · extract_lets s₁ s₂ s₃
    have h₁ : Inv s₁ := Inv.note (s := { s with tick := s.tick + 1 }) { h with } nofun
    split
    · exact h₁
    · next hfinished =>
      split
      · exact h₁
      · have h₂ : Inv s₂ := by
          simp only [s₂]
          split
          · exact Inv.reset h₁.toBase c.now
          · exact h₁
        have h₃ : Inv s₃ := by
          simp only [s₃]
          split
          · next hinitial => exact h₂.toBase.start hinitial
          · exact h₂
        have hframe : s₃.requestedMasternodeAssets = .sporks ∨
            (s₃ = s₁ ∧ s₁.requestedMasternodeAssets ≠ .failed) := by
          by_cases hfailed : s₁.requestedMasternodeAssets = .failed
          · have h₂ : s₂.requestedMasternodeAssets = .initial := by
              simp only [s₂]
              rw [if_pos hfailed]
              rfl
            simp only [s₃]
            rw [if_pos h₂, getNextAsset_assets, h₂]
            exact .inl rfl
          · have h₂ : s₂ = s₁ := if_neg hfailed
            simp only [s₃]
            rw [h₂]
            split
            · next hinitial =>
              rw [getNextAsset_assets, hinitial]
              exact .inl rfl
            · exact .inr ⟨rfl, hfailed⟩
        rcases hframe with hsporks | ⟨heq, hfailed⟩
        · refine h₃.processStage hnet (by rw [hsporks]; exact nofun)
            (by rw [hsporks]; exact nofun) fun hdata => ?_
          rw [hsporks] at hdata
          exact absurd hdata Bool.false_ne_true
        · rw [heq]
          exact h₁.processStage hnet hfailed hfinished fun _ => List.mem_cons_self

/-! ## Runs -/

theorem inv_start (now : ℤ) (tip : Option ℤ) (asked : ℕ → Option ℤ) :
    Inv (State.start now tip asked) where
  asset := rfl
  began _ := rfl
  path _ := rfl
  chain := List.isChain_singleton _
  attempts hdata := absurd hdata Bool.false_ne_true
  marks _ hne := absurd rfl hne
  nodup _ hn := absurd hn List.not_mem_nil
  tip hf := absurd hf Bool.false_ne_true
  listItem hne := absurd rfl hne
  winnerItem hne := absurd rfl hne
  received _ := received_initial _
  owed _ hdata := absurd hdata Bool.false_ne_true

/-- Peers come and go, and say their versions: no mark is set by it. -/
theorem Inv.setNodes (h : Inv s) {vNodes : List Peer}
    (hmem : ∀ n ∈ vNodes, n.vecRequestsFulfilled = [] ∨
      ∃ m ∈ s.vNodes, m.id = n.id ∧ m.vecRequestsFulfilled = n.vecRequestsFulfilled) :
    Inv (s.setNodes vNodes) where
  toBase := by
    refine h.toBase.setNodes (fun n hn => ?_) (fun hcleared hinitial n hn r hr => ?_)
    · rcases hmem n hn with hnil | ⟨m, hm, -, heq⟩
      · rw [hnil]
        exact List.nodup_nil
      · rw [← heq]
        exact h.nodup m hm
    · rcases hmem n hn with hnil | ⟨m, hm, -, heq⟩
      · rw [hnil] at hr
        exact absurd hr List.not_mem_nil
      · rw [← heq] at hr
        exact h.marks hcleared hinitial m hm r hr
  owed hcleared hdata p hp := by
    rcases h.owed hcleared hdata p hp with hturn | hmin | ⟨hpass, hmarks⟩
    · exact .inl hturn
    · exact .inr (.inl hmin)
    · refine .inr (.inr ⟨hpass, fun n hn hnp r hr => ?_⟩)
      rcases hmem n hn with hnil | ⟨m, hm, hid, heq⟩
      · rw [hnil] at hr
        exact absurd hr List.not_mem_nil
      · rw [← heq] at hr
        exact hmarks m hm (hid.trans hnp) r hr

/-- **Every step keeps the invariant.** -/
theorem Inv.step (h : Inv s) (hnet : env.network ≠ .regtest) (a : Action) : Inv (step env s a) := by
  cases a with
  | process c => exact h.process hnet
  | isBlockchainSynced c => exact (isBlockchainSynced_spec env c h).inv
  | reset now => exact Inv.reset h.toBase now
  | addedMasternodeList known hash now =>
    exact { h.note (e := .listItem) nofun with listItem := fun _ => List.mem_cons_self }
  | addedMasternodeWinner known hash now =>
    exact { h.note (e := .winnerItem) nofun with winnerItem := fun _ => List.mem_cons_self }
  | addedBudgetItem known hash now => exact { h.note (e := .budgetItem) nofun with }
  | connect addr =>
    have hnodes : Inv (s.setNodes (s.vNodes ++ [{ id := s.nLastNodeId, addr := addr }])) := by
      refine h.setNodes fun n hn => ?_
      rcases List.mem_append.1 hn with hn | hn
      · exact .inr ⟨n, hn, rfl, rfl⟩
      · rw [List.mem_singleton.1 hn]
        exact .inl rfl
    exact { hnodes with }
  | version id nVersion =>
    refine h.setNodes fun n hn => ?_
    obtain ⟨m, hm, rfl⟩ := List.mem_map.1 hn
    refine .inr ⟨m, hm, ?_⟩
    split <;> exact ⟨rfl, rfl⟩
  | disconnect id => exact h.setNodes fun n hn => .inr ⟨n, List.mem_of_mem_filter hn, rfl, rfl⟩
  | newTip nTime => exact { h with tip := fun _ => nofun }
  | checkAndRemove now => exact { h with }
  | clear => exact { h with }

theorem inv_of_run (hnet : env.network ≠ .regtest) (now : ℤ) (tip : Option ℤ)
    (asked : ℕ → Option ℤ) (as : List Action) :
    Inv (as.foldl (step env) (State.start now tip asked)) :=
  Run.foldl_invariant (C := fun _ _ => True) (fun _ a h _ => h.step hnet a)
    (inv_start now tip asked) (Run.alongFold_of_forall fun _ _ => trivial)

theorem exists_of_map_eq_cons {l : List Stay} {a : Asset} {as : List Asset}
    (h : l.map Stay.asset = a :: as) :
    ∃ st rest, l = st :: rest ∧ st.asset = a ∧ rest.map Stay.asset = as := by
  cases l with
  | nil => exact absurd h nofun
  | cons st rest =>
    rw [List.map_cons, List.cons.injEq] at h
    exact ⟨st, rest, rfl, h.1, h.2⟩

/-- **A finished synchronisation went through every stage.**  Whenever the state is `FINISHED`, the
stages `LIST`, `MNW` and `BUDGET` have been entered since the last `Reset`; each of them was left
fairly; and when `SPORK_8` was active in every call since then, list and winner items have been
received. -/
theorem finished_of_run (hnet : env.network ≠ .regtest) {now : ℤ} {tip : Option ℤ}
    {asked : ℕ → Option ℤ} {as : List Action} {s : State}
    (hrun : as.foldl (step env) (State.start now tip asked) = s)
    (hfinished : s.requestedMasternodeAssets = .finished) :
    ∃ budget mnw list sporks initial : Stay,
      s.past = [budget, mnw, list, sporks, initial] ∧
      (budget.asset = .budget ∧ mnw.asset = .mnw ∧ list.asset = .list) ∧
      LeftFairly s.fCleared mnw.began list ∧ LeftFairly s.fCleared budget.began mnw ∧
      LeftFairly s.fCleared s.stay.began budget ∧
      ((∀ b, .process b ∈ s.sinceReset → b = true) →
        .listItem ∈ s.sinceReset ∧ .winnerItem ∈ s.sinceReset) := by
  have h := inv_of_run hnet now tip asked as
  rw [hrun] at h
  have hpath := h.path (by rw [hfinished]; exact nofun)
  rw [hfinished] at hpath
  obtain ⟨budget, l₁, hl₁, hbudget, hpath⟩ := exists_of_map_eq_cons hpath
  obtain ⟨mnw, l₂, hl₂, hmnw, hpath⟩ := exists_of_map_eq_cons hpath
  obtain ⟨list, l₃, hl₃, hlist, hpath⟩ := exists_of_map_eq_cons hpath
  obtain ⟨sporks, l₄, hl₄, -, hpath⟩ := exists_of_map_eq_cons hpath
  obtain ⟨initial, l₅, hl₅, -, hpath⟩ := exists_of_map_eq_cons hpath
  have hpast : s.past = [budget, mnw, list, sporks, initial] := by
    rw [hl₁, hl₂, hl₃, hl₄, hl₅, List.map_eq_nil_iff.1 hpath]
  have hchain := h.chain
  rw [hpast] at hchain
  simp only [List.isChain_cons_cons] at hchain
  obtain ⟨hbudget', hmnw', hlist', -⟩ := hchain
  refine ⟨budget, mnw, list, sporks, initial, hpast, ⟨hbudget, hmnw, hlist⟩,
    hlist' (by rw [hmnw]; exact nofun), hmnw' (by rw [hbudget]; exact nofun),
    hbudget' (by rw [h.asset, hfinished]; exact nofun), fun hall => ?_⟩
  have hreceived := h.received hall
  rw [hfinished] at hreceived
  exact ⟨hreceived.1 (by decide), hreceived.2 (by decide)⟩

/-! ## A peer that is not asked -/

/-- The main network. -/
def mainEnv : Env := { network := .main, isLocal := fun _ => false }

/-- A call of `Process` that gets past the tick counter, and those after it that do not. -/
def calls (now : ℤ) : List Action := List.replicate 5 (.process { now := now, spork8 := true })

/-- Three peers are there from the start.  In the `LIST` stage the first two are asked; an item
comes in, and then no other for a while. -/
def threePeers : List Action :=
  [.connect 11, .connect 12, .connect 13, .version 0 71000, .version 1 71000, .version 2 71000] ++
    calls 1000000 ++ calls 1000005 ++ calls 1000010 ++ calls 1000015 ++
    [.addedMasternodeList false 1 1000016] ++ calls 1000020 ++ calls 1000027 ++ calls 1000032 ++
    calls 1000037 ++ calls 1000042 ++ [.addedMasternodeWinner false 2 1000043] ++ calls 1000054 ++
    calls 1000059 ++ calls 1000064 ++ calls 1000069 ++ calls 1000081

def threePeersFinal : State :=
  threePeers.foldl (step mainEnv) (State.start 1000000 (some 1000000) fun _ => none)

theorem finished_of_run_threePeers :
    threePeersFinal.requestedMasternodeAssets = .finished ∧
      ∃ budget mnw list sporks initial : Stay,
        threePeersFinal.past = [budget, mnw, list, sporks, initial] ∧
        (budget.asset = .budget ∧ mnw.asset = .mnw ∧ list.asset = .list) ∧
        LeftFairly threePeersFinal.fCleared mnw.began list ∧
        LeftFairly threePeersFinal.fCleared budget.began mnw ∧
        LeftFairly threePeersFinal.fCleared threePeersFinal.stay.began budget ∧
        ((∀ b, .process b ∈ threePeersFinal.sinceReset → b = true) →
          .listItem ∈ threePeersFinal.sinceReset ∧ .winnerItem ∈ threePeersFinal.sinceReset) := by
  have hfinished : threePeersFinal.requestedMasternodeAssets = .finished := by decide +kernel
  exact ⟨hfinished, finished_of_run (by decide : mainEnv.network ≠ .regtest) rfl hfinished⟩

/-- **A peer that is there throughout need not be asked**: the third one is of sufficient version
and connected from before the `LIST` stage until the synchronisation is finished, and is never
asked for the list. -/
theorem finished_without_asking :
    threePeersFinal.requestedMasternodeAssets = .finished ∧
      (∃ n ∈ threePeersFinal.vNodes, n.id = 2 ∧ n.nVersion = 71000) ∧
      ∃ st ∈ threePeersFinal.past, st.asset = .list ∧ st.Present 2 ∧
        .pushed 2 .dseg ∉ st.events := by
  have htest : threePeersFinal.past.any (fun st => decide (st.asset = .list) && st.presentIn 2 &&
      decide (.pushed 2 .dseg ∉ st.events)) = true := by decide +kernel
  obtain ⟨st, hst, htest⟩ := List.any_eq_true.1 htest
  simp only [Bool.and_eq_true, decide_eq_true_eq] at htest
  exact ⟨by decide +kernel, by decide +kernel, st, hst, htest.1.1,
    Stay.present_of_presentIn htest.1.2, htest.2⟩

end MasternodeSync

end FairCoin
