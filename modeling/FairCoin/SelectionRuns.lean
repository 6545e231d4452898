import FairCoin.SelectionLoop

/-!
# Every activation of a run

What the arrival of blocks and the marks set by hand do to the block tree, and what holds when
`ActivateBestChain` returns true anywhere in a run.

* `LinkInv`, `linkBlocks_inv` — the queue of `ReceivedBlockTransactions` links every block whose
  ancestors have their data.
* `Sound` — the calls that keep the invariant: `InvalidateBlock` comes to its end, no block is
  found corrupted when it is connected, and no counter wraps.
* `activate_best_chain_run` — **activation is correct in every run of such calls**: it ends, and
  when it returns true the active chain is a path from genesis without failed blocks, the coins
  view is at its tip, and no candidate has more work.
* `invalidate_genesis_stays`, `corrupted_block_loops` — what happens otherwise.
-/

namespace FairCoin

open Store SelectState

/-! ## New headers -/

section Headers

variable {env : SelectEnv} {s : SelectState}

theorem BlockTree.lookup_eq_index {t : BlockTree} {h : UInt256} (hh : h ∈ t.mapBlockIndex) :
    t.mapBlockIndex.lookup h = some (t.index h) := by
  obtain ⟨p, hp⟩ := Option.isSome_iff_exists.1 (AList.lookup_isSome.2 hh)
  rw [BlockTree.index, hp]
  rfl

/-- The entry `AddToBlockIndex` makes for a block whose parent is known. -/
theorem addToBlockIndex_spec {h : UInt256} (hprev : env.hashPrevBlock h ∈ s.mapBlockIndex)
    (hnew : h ∉ s.mapBlockIndex) :
    s.Grows (s.addToBlockIndex env h).toBlockTree h (env.hashPrevBlock h) ∧
      ((s.addToBlockIndex env h).index h).nTx = 0 ∧
      ((s.addToBlockIndex env h).index h).nChainTx = 0 ∧
      ((s.addToBlockIndex env h).index h).nSequenceId = 0 ∧
      ((s.addToBlockIndex env h).index h).nStatus = { valid := blockValidTree } ∧
      ((s.addToBlockIndex env h).index h).nChainWork =
        ((s.index (env.hashPrevBlock h)).nChainWork + env.getBlockProof h) % 2 ^ 256 := by
  have hlookup := BlockTree.lookup_eq_index hprev
  have hindex : ∀ x, (s.addToBlockIndex env h).index x = if x = h then
      ({ phashBlock := some h
         nSequenceId := 0
         pprev := some (env.hashPrevBlock h)
         nHeight := (s.index (env.hashPrevBlock h)).nHeight + 1
         pskip := s.getAncestor (env.hashPrevBlock h)
           (getSkipHeight ((s.index (env.hashPrevBlock h)).nHeight + 1).toNat)
         nChainWork := ((s.index (env.hashPrevBlock h)).nChainWork + env.getBlockProof h) % 2 ^ 256 } :
         CBlockIndex).raiseValidity blockValidTree else s.index x := by
    intro x
    rw [BlockTree.index, addToBlockIndex]
    simp only [hlookup, lookup_insert_eq]
    split
    · rfl
    · rfl
  have hself := hindex h
  rw [if_pos rfl] at hself
  refine ⟨⟨hnew, hprev, fun x => AList.mem_insert _, fun x hx => ?_, ?_, ?_, ?_⟩, ?_⟩
  · rw [hindex, if_neg hx]
  all_goals rw [hself]
  · rfl
  · rfl
  · rfl
  · exact ⟨rfl, rfl, rfl, rfl, rfl⟩

/-- A new header keeps the invariant: its entry has no data and waits for nothing. -/
theorem SelectInv.addToBlockIndex (hI : SelectInv env s) {h : UInt256} (hnew : h ∉ s.mapBlockIndex)
    (hprev : env.hashPrevBlock h ∈ s.mapBlockIndex)
    (hwork : (s.index (env.hashPrevBlock h)).nChainWork + env.getBlockProof h < 2 ^ 256) :
    SelectInv env (s.addToBlockIndex env h) := by
  obtain ⟨hG, hTx, hChainTx, hSeq, hStatus, hWork⟩ := addToBlockIndex_spec hprev hnew
  rw [Nat.mod_eq_of_lt hwork] at hWork
  have hT := hI.tree
  have hg := hG.ne hT.mem_genesis
  obtain ⟨tip, htipMem, htip, hchain, hcoins⟩ := hI.exists_tip
  have hold : ∀ {x : UInt256}, x ∈ s.mapBlockIndex →
      (s.addToBlockIndex env h).index x = s.index x := fun hx => hG.index _ (hG.ne hx)
  have hparent : ∀ {x p : UInt256}, x ∈ s.mapBlockIndex → (s.index x).pprev = some p →
      p ∈ s.mapBlockIndex := fun hx hp => hT.levelled.parent_mem _ hx _ hp
  refine ⟨⟨⟨⟨hG.isTree hT, ?_, ?_, ?_, ?_, ?_, ?_, ?_, ?_, ?_, hI.unlinked_nodup⟩, ?_, ?_⟩, ?_, ?_, ?_⟩,
    ?_⟩
  · rw [hold hT.mem_genesis]
    exact hI.genesis_data
  · rw [hold hT.mem_genesis]
    exact hI.genesis_undo
  · intro x hx hne
    rcases (hG.mem x).1 hx with rfl | hx
    · rw [hG.pprev, hold hprev, hWork]
      exact ⟨rfl, rfl⟩
    · obtain ⟨hp, hw⟩ := hI.header x hx hne
      rw [hold hx, hold (hparent hx hp)]
      exact ⟨hp, hw⟩
  · intro x hx
    rcases (hG.mem x).1 hx with rfl | hx
    · rw [hStatus, hTx]
      exact ⟨le_rfl, by decide, by simp⟩
    · rw [hold hx]
      exact hI.levels x hx
  · intro x hx
    rcases (hG.mem x).1 hx with rfl | hx
    · rw [hStatus]
      intro hlt
      exact absurd hlt (by decide)
    · rw [hold hx]
      intro hlt
      obtain ⟨hge, hp⟩ := hI.scripts x hx hlt
      exact ⟨hge, fun p hxp => by rw [hold (hparent hx hxp)]; exact hp p hxp⟩
  · intro x hx p hxp
    rcases (hG.mem x).1 hx with rfl | hx
    · cases hG.pprev.symm.trans hxp
      rw [hold hprev, hWork, hTx]
      exact ⟨Nat.le_add_right _ _, by simp⟩
    · rw [hold hx] at hxp ⊢
      rw [hold (hparent hx hxp)]
      exact hI.work x hx p hxp
  · intro x hx
    rcases (hG.mem x).1 hx with rfl | hx
    · rw [hChainTx]
      exact fun h0 => absurd rfl h0
    · rw [hold hx]
      intro hset
      obtain ⟨htx, hp⟩ := hI.linked x hx hset
      exact ⟨htx, fun p hxp => by rw [hold (hparent hx hxp)]; exact hp p hxp⟩
  · intro x hx
    rcases (hG.mem x).1 hx with rfl | hx
    · rw [hChainTx]
      exact fun h0 => absurd rfl h0
    · rw [hold hx, hG.path_old hT hx]
      intro hset
      rw [hI.sum x hx hset]
      congr 1
      refine List.map_congr_left fun y hy => ?_
      rw [hold (ParentTree.mem_of_mem_path hT.levelled hx y hy)]
  · intro x hx
    rcases (hG.mem x).1 hx with rfl | hx
    · exact fun _ => hSeq
    · rw [hold hx]
      exact hI.sequence x hx
  · intro x hx
    rcases (hG.mem x).1 hx with rfl | hx
    · rw [hTx]
      exact fun h0 => absurd rfl h0
    · rw [hold hx]
      intro htx h0
      obtain ⟨p, hxp, hp⟩ := hI.ready x hx htx h0
      exact ⟨p, hxp, by rw [hold (hparent hx hxp)]; exact hp⟩
  · intro p x
    show (p, x) ∈ s.mapBlocksUnlinked ↔ _
    rw [hI.unlinked_iff, hG.mem]
    constructor
    · rintro ⟨hx, hrest⟩
      rw [hold hx]
      exact ⟨.inr hx, hrest⟩
    · rintro ⟨rfl | hx, hxp, htx, h0⟩
      · exact absurd hTx htx
      · rw [hold hx] at hxp htx h0
        exact ⟨hx, hxp, htx, h0⟩
  · exact ⟨tip, (hG.mem tip).2 (.inr htipMem), by rw [hG.path_old hT htipMem]; exact hchain, hcoins⟩
  · intro x hx
    rw [hold (hI.mem_of_mem_chain hx)]
    exact hI.active x hx
  · intro c hc
    obtain ⟨hcMem, hcLink, hless⟩ := hI.candidates c hc
    rw [hold hcMem]
    refine ⟨(hG.mem c).2 (.inr hcMem), hcLink, fun tip' htip' => ?_⟩
    have htipMem' := hI.mem_of_mem_chain (TipInv.tip_mem_chain htip')
    rw [← hless tip' htip']
    simp only [SelectState.less, hold hcMem, hold htipMem']
  · intro x hx
    rw [hold (hI.mem_of_mem_chain hx)]
    exact hI.unfailed x hx

end Headers

/-! ## The queue of linked blocks -/

/-- The transactions on the path to a block. -/
def BlockTree.pathTx (t : BlockTree) (h : UInt256) : ℕ :=
  ((t.path h).map fun x => (t.index x).nTx).sum

/-- The entries while `ReceivedBlockTransactions` works off its queue: the blocks of the queue
descend from `root`, have their data, and so do their ancestors; no other block with data has all
its ancestors linked. -/
structure LinkInv (env : SelectEnv) (root : UInt256) (queue : List UInt256) (s : SelectState) :
    Prop extends EntryBase env s where
  fits : ∀ h ∈ s.mapBlockIndex, root ∈ s.path h → s.pathTx h < 2 ^ 32
  nodup : queue.Nodup
  queued : ∀ h ∈ queue, h ∈ s.mapBlockIndex ∧ (s.index h).nTx ≠ 0 ∧ (s.index h).nChainTx = 0 ∧
    root ∈ s.path h ∧ ∀ p, (s.index h).pprev = some p → (s.index p).nChainTx ≠ 0
  ready : ∀ h ∈ s.mapBlockIndex, (s.index h).nTx ≠ 0 → (s.index h).nChainTx = 0 → h ∉ queue →
    ∃ p, (s.index h).pprev = some p ∧ (s.index p).nChainTx = 0
  unlinked_iff : ∀ p h, (p, h) ∈ s.mapBlocksUnlinked ↔ h ∈ s.mapBlockIndex ∧
    (s.index h).pprev = some p ∧ (s.index h).nTx ≠ 0 ∧ (s.index h).nChainTx = 0 ∧ h ∉ queue
  chain : ∃ tip ∈ s.mapBlockIndex, s.chainActive = (s.path tip).reverse ∧ s.coinsBest = tip
  active : ∀ h ∈ s.chainActive, (s.index h).nChainTx ≠ 0 ∧
    (h ≠ env.hashGenesisBlock → (s.index h).nStatus.haveUndo = true ∧
      blockValidScripts ≤ (s.index h).nStatus.valid)
  candidates : ∀ c ∈ s.setBlockIndexCandidates, c ∈ s.mapBlockIndex ∧ (s.index c).nChainTx ≠ 0 ∧
    ∀ tip, s.tipHash = some tip → s.less env c tip = false
  unfailed : ∀ h ∈ s.chainActive, (s.index h).nStatus.failed = false

section Queue

variable {env : SelectEnv} {s : SelectState} {root : UInt256}

/-- An empty queue leaves nothing to link. -/
theorem LinkInv.selectInv (hL : LinkInv env root [] s) : SelectInv env s where
  toEntryBase := hL.toEntryBase
  ready h hh htx h0 := hL.ready h hh htx h0 (by simp)
  unlinked_iff p h := by
    rw [hL.unlinked_iff]
    simp
  chain := hL.chain
  active := hL.active
  candidates := hL.candidates
  unfailed := hL.unfailed

variable (env) in
/-- What linking a block writes. -/
theorem linkBlock_spec (s : SelectState) (h : UInt256) :
    (∀ x, (s.linkBlock env h).index x =
      if x = h then (s.index h).number (s.nChainTxPrev h) s.nBlockSequenceId else s.index x) ∧
    (s.linkBlock env h).chainActive = s.chainActive ∧
    (s.linkBlock env h).coinsBest = s.coinsBest ∧
    (s.linkBlock env h).mapBlocksUnlinked = s.mapBlocksUnlinked ∧
    (∀ x, x ∈ (s.linkBlock env h).mapBlockIndex ↔ x = h ∨ x ∈ s.mapBlockIndex) ∧
    ∀ c ∈ (s.linkBlock env h).setBlockIndexCandidates, c ∈ s.setBlockIndexCandidates ∨
      c = h ∧ ∀ tip, s.tipHash = some tip → (s.linkBlock env h).less env h tip = false := by
  have hindex : ∀ x, (s.numberBlock h).index x =
      if x = h then (s.index h).number (s.nChainTxPrev h) s.nBlockSequenceId else s.index x :=
    fun x => s.index_modify h x fun p => p.number (s.nChainTxPrev h) s.nBlockSequenceId
  have hmem : ∀ x, x ∈ (s.numberBlock h).mapBlockIndex ↔ x = h ∨ x ∈ s.mapBlockIndex :=
    fun x => AList.mem_insert _
  rw [linkBlock]
  split
  · next htest =>
    have hsame := (s.numberBlock h).insertCandidate_toBlockTree h
    refine ⟨fun x => ?_, ?_, ?_, ?_, fun x => ?_, fun c hc => ?_⟩
    · rw [hsame]
      exact hindex x
    · rw [hsame]
      rfl
    · rw [insertCandidate]
      split <;> rfl
    · rw [insertCandidate]
      split <;> rfl
    · rw [hsame]
      exact hmem x
    · rcases (mem_insertCandidate _).1 hc with hc | rfl
      · exact .inl hc
      · refine .inr ⟨rfl, fun tip htip => ?_⟩
        have hless : ((s.numberBlock c).insertCandidate c).less env c tip =
            (s.numberBlock c).less env c tip := by
          simp only [SelectState.less, hsame]
        rw [hless]
        simpa using (Option.all_eq_true _ _).1 htest tip htip
  · exact ⟨hindex, rfl, rfl, rfl, hmem, fun c hc => .inl hc⟩

/-- **Linking a block.**  The first block of the queue is linked, and the blocks that wait for it
join the queue. -/
theorem LinkInv.step {h : UInt256} {queue : List UInt256} (hL : LinkInv env root (h :: queue) s) :
    LinkInv env root
      (queue ++ ((s.linkBlock env h).mapBlocksUnlinked.filter (·.1 = h)).map Prod.snd)
      { s.linkBlock env h with
        mapBlocksUnlinked := (s.linkBlock env h).mapBlocksUnlinked.filter (·.1 ≠ h) } := by
  obtain ⟨hindex, hchain', hcoins', hunl, hmem', hcand'⟩ := linkBlock_spec env s h
  obtain ⟨hh, htx, h0, hroot, hparent⟩ := hL.queued h (by simp)
  have hT := hL.tree
  set s' : SelectState := { s.linkBlock env h with
    mapBlocksUnlinked := (s.linkBlock env h).mapBlocksUnlinked.filter (·.1 ≠ h) } with hs'
  have hmem : ∀ x, x ∈ s'.mapBlockIndex ↔ x ∈ s.mapBlockIndex := by
    intro x
    refine (hmem' x).trans ⟨?_, .inr⟩
    rintro (rfl | hx)
    · exact hh
    · exact hx
  have hother : ∀ x, x ≠ h → s'.index x = s.index x := fun x hx => by
    refine (hindex x).trans ?_
    rw [if_neg hx]
  have hself : s'.index h = _ := (hindex h).trans (if_pos rfl)
  have hshape : SameShape s.toBlockTree s'.toBlockTree := by
    refine ⟨hmem, ?_, ?_, ?_, ?_⟩ <;>
    · intro x
      by_cases hx : x = h
      · rw [hx, hself]
        rfl
      · rw [hother x hx]
  have hnTx : ∀ x, (s'.index x).nTx = (s.index x).nTx ∧
      (s'.index x).nStatus = (s.index x).nStatus := by
    intro x
    by_cases hx : x = h
    · rw [hx, hself]
      exact ⟨rfl, rfl⟩
    · rw [hother x hx]
      exact ⟨rfl, rfl⟩
  have hpathTx : ∀ x, s'.pathTx x = s.pathTx x := by
    intro x
    simp only [BlockTree.pathTx, hshape.path, fun y => (hnTx y).1]
  -- the count does not wrap, so the block is linked
  have hsum : (s'.index h).nChainTx = s.pathTx h := by
    have hlt := hL.fits h hh hroot
    rw [hself, CBlockIndex.number, nChainTxPrev]
    cases hp : (s.index h).pprev with
    | none =>
      have hpath : s.path h = [h] := ParentTree.path_of_root hT.levelled hh hp
      rw [BlockTree.pathTx, hpath, List.map_singleton, List.sum_singleton] at hlt ⊢
      rw [Nat.zero_add, Nat.mod_eq_of_lt hlt]
    | some p =>
      have hpath : s.path h = h :: s.path p := ParentTree.path_of_parent hT.levelled hh hp
      have hpMem := hT.levelled.parent_mem h hh p hp
      rw [BlockTree.pathTx, hpath, List.map_cons, List.sum_cons] at hlt ⊢
      simp only [hL.sum p hpMem (hparent p hp)]
      rw [Nat.mod_eq_of_lt (by omega), Nat.add_comm]
  have hset : (s'.index h).nChainTx ≠ 0 := by
    have hin : (s.index h).nTx ∈ (s.path h).map fun x => (s.index x).nTx :=
      List.mem_map_of_mem (ParentTree.self_mem_path h)
    have hle := List.single_le_sum (fun _ _ => Nat.zero_le _) _ hin
    rw [hsum, BlockTree.pathTx]
    omega
  have hkeep : ∀ x, (s.index x).nChainTx ≠ 0 → (s'.index x).nChainTx ≠ 0 := by
    intro x hx
    by_cases hxh : x = h
    · rw [hxh]
      exact hset
    · rwa [hother x hxh]
  have hback : ∀ x, (s'.index x).nChainTx = 0 → (s.index x).nChainTx = 0 ∧ x ≠ h := by
    intro x hx
    have hxh : x ≠ h := fun hxh => hset (hxh ▸ hx)
    rw [hother x hxh] at hx
    exact ⟨hx, hxh⟩
  obtain ⟨hnotin, hnodup⟩ := List.nodup_cons.1 hL.nodup
  -- a block waits for `h` when it stands on it, has its data and is not in the queue
  have hwaits : ∀ x, x ∈ ((s.linkBlock env h).mapBlocksUnlinked.filter (·.1 = h)).map Prod.snd ↔
      (h, x) ∈ s.mapBlocksUnlinked := by
    intro x
    rw [hunl, List.mem_map]
    constructor
    · rintro ⟨⟨p, y⟩, hy, rfl⟩
      obtain ⟨hy₁, hy₂⟩ := List.mem_filter.1 hy
      have hph : p = h := by simpa using hy₂
      rwa [← hph]
    · exact fun hx => ⟨(h, x), List.mem_filter.2 ⟨hx, by simp⟩, rfl⟩
  have hqueue : ∀ x, x ∈ queue ++
      ((s.linkBlock env h).mapBlocksUnlinked.filter (·.1 = h)).map Prod.snd ↔
      x ∈ queue ∨ (h, x) ∈ s.mapBlocksUnlinked := by
    intro x
    rw [List.mem_append, hwaits]
  obtain ⟨tip, htipMem, hchain, hcoins⟩ := hL.chain
  have htip : s.tipHash = some tip := SelectState.tipHash_of_chain hchain
  have htipChain : tip ∈ s.chainActive := TipInv.tip_mem_chain htip
  have htip' : s'.tipHash = s.tipHash := by
    rw [tipHash, tipHash]
    exact congrArg List.getLast? hchain'
  have hoff : ∀ x ∈ s.chainActive, x ≠ h := by
    rintro x hx rfl
    exact (hL.active x hx).1 h0
  refine ⟨⟨hshape.isTree hT, ?_, ?_, fun x hx => ?_, fun x hx => ?_, fun x hx => ?_,
    fun x hx => ?_, fun x hx hxset => ?_, fun x hx hxset => ?_, fun x hx hx0 => ?_, ?_⟩, fun x hx hxroot => ?_, ?_,
    fun x hx => ?_, fun x hx hxtx hx0 hxq => ?_, fun p x => ?_, ?_, fun x hx => ?_, fun c hc => ?_,
    fun x hx => ?_⟩
  · rw [(hnTx _).1]
    exact hL.genesis_data
  · rw [(hnTx _).2]
    exact hL.genesis_undo
  · rw [hshape.pprev, hshape.nChainWork, hshape.nChainWork]
    exact hL.header x ((hmem x).1 hx)
  · rw [(hnTx x).1, (hnTx x).2]
    exact hL.levels x ((hmem x).1 hx)
  · simp only [hshape.pprev, fun y => (hnTx y).2]
    exact hL.scripts x ((hmem x).1 hx)
  · simp only [hshape.pprev, hshape.nChainWork, fun y => (hnTx y).1]
    exact hL.work x ((hmem x).1 hx)
  · rw [hshape.pprev, (hnTx x).1]
    by_cases hxh : x = h
    · rw [hxh]
      exact ⟨htx, fun p hp => hkeep p (hparent p hp)⟩
    · rw [hother x hxh] at hxset
      obtain ⟨hxtx, hxp⟩ := hL.linked x ((hmem x).1 hx) hxset
      exact ⟨hxtx, fun p hp => hkeep p (hxp p hp)⟩
  · change _ = s'.pathTx x
    rw [hpathTx]
    by_cases hxh : x = h
    · rw [hxh]
      exact hsum
    · rw [hother x hxh] at hxset ⊢
      exact hL.sum x ((hmem x).1 hx) hxset
  · obtain ⟨hx0, hxh⟩ := hback x hx0
    rw [hother x hxh]
    exact hL.sequence x ((hmem x).1 hx) hx0
  · show (((s.linkBlock env h).mapBlocksUnlinked.filter (·.1 ≠ h)).map Prod.snd).Nodup
    rw [hunl]
    exact hL.unlinked_nodup.sublist (List.filter_sublist.map _)
  · rw [hshape.path] at hxroot
    rw [hpathTx]
    exact hL.fits x ((hmem x).1 hx) hxroot
  · refine List.nodup_append.2 ⟨hnodup, ?_, ?_⟩
    · rw [hunl]
      exact hL.unlinked_nodup.sublist (List.filter_sublist.map _)
    · rintro x hx y hy rfl
      have hwait := ((hL.unlinked_iff h x).1 ((hwaits x).1 hy)).2.2.2.2
      exact hwait (List.mem_cons_of_mem _ hx)
  · rw [hmem, (hnTx x).1, hshape.path, hshape.pprev]
    rcases (hqueue x).1 hx with hxq | hxw
    · obtain ⟨hx₁, hx₂, hx₃, hx₄, hx₅⟩ := hL.queued x (List.mem_cons_of_mem _ hxq)
      have hxh : x ≠ h := fun hxh => hnotin (hxh ▸ hxq)
      exact ⟨hx₁, hx₂, by rwa [hother x hxh], hx₄, fun p hp => hkeep p (hx₅ p hp)⟩
    · obtain ⟨hx₁, hxp, hx₂, hx₃, hxq⟩ := (hL.unlinked_iff h x).1 hxw
      have hxh : x ≠ h := fun hxh => hxq (by simp [hxh])
      refine ⟨hx₁, hx₂, by rwa [hother x hxh], ?_, fun p hp => ?_⟩
      · exact (ParentTree.mem_path_iff hT.levelled hx₁).2 (.inr ⟨h, hxp, hroot⟩)
      · cases hxp.symm.trans hp
        exact hset
  · obtain ⟨hx0', hxh⟩ := hback x hx0
    rw [(hnTx x).1] at hxtx
    rw [hqueue, not_or] at hxq
    have hxm := (hmem x).1 hx
    have hxqueue : x ∉ h :: queue := by
      simp [hxh, hxq.1]
    obtain ⟨p, hp, hp0⟩ := hL.ready x hxm hxtx hx0' hxqueue
    have hph : p ≠ h := by
      rintro rfl
      exact hxq.2 ((hL.unlinked_iff p x).2 ⟨hxm, hp, hxtx, hx0', hxqueue⟩)
    exact ⟨p, (hshape.pprev x).trans hp, by rwa [hother p hph]⟩
  · show (p, x) ∈ (s.linkBlock env h).mapBlocksUnlinked.filter (·.1 ≠ h) ↔ _
    rw [hqueue, hunl, List.mem_filter, hL.unlinked_iff, hmem, hshape.pprev, (hnTx x).1]
    constructor
    · rintro ⟨⟨hxm, hp, hxtx, hx0, hxq⟩, hph⟩
      have hxh : x ≠ h := fun hxh => hxq (by simp [hxh])
      refine ⟨hxm, hp, hxtx, by rwa [hother x hxh], ?_⟩
      rintro (hxq' | hxw)
      · exact hxq (List.mem_cons_of_mem _ hxq')
      · cases hp.symm.trans ((hL.unlinked_iff h x).1 hxw).2.1
        exact absurd hph (by simp)
    · rintro ⟨hxm, hp, hxtx, hx0, hxq⟩
      obtain ⟨hx0', hxh⟩ := hback x hx0
      rw [not_or] at hxq
      have hxqueue : x ∉ h :: queue := by
        simp [hxh, hxq.1]
      refine ⟨⟨hxm, hp, hxtx, hx0', hxqueue⟩, ?_⟩
      have hph : p ≠ h := by
        rintro rfl
        exact hxq.2 ((hL.unlinked_iff p x).2 ⟨hxm, hp, hxtx, hx0', hxqueue⟩)
      simpa using hph
  · refine ⟨tip, (hmem tip).2 htipMem, ?_, hcoins'.trans hcoins⟩
    rw [hshape.path]
    exact hchain'.trans hchain
  · rw [(hnTx x).2]
    have hx' : x ∈ s.chainActive := hchain' ▸ hx
    exact ⟨hkeep x (hL.active x hx').1, (hL.active x hx').2⟩
  · rw [hmem, htip']
    rcases hcand' c hc with hc | ⟨rfl, hnew⟩
    · obtain ⟨hcm, hcset, hless⟩ := hL.candidates c hc
      have hch : c ≠ h := by
        rintro rfl
        exact hcset h0
      refine ⟨hcm, hkeep c hcset, fun t ht => ?_⟩
      have hth : t ≠ h := hoff t (TipInv.tip_mem_chain ht)
      rw [← hless t ht]
      simp only [SelectState.less, hother c hch, hother t hth]
    · exact ⟨hh, hset, fun t ht => hnew t ht⟩
  · rw [(hnTx x).2]
    exact hL.unfailed x (hchain' ▸ hx)

variable (root) in
/-- Working off the queue. -/
theorem linkBlocks_inv (n : ℕ) : ∀ (queue : List UInt256) (s : SelectState),
    LinkInv env root queue s → queue.length + s.mapBlocksUnlinked.length ≤ n →
    SelectInv env (linkBlocks env n queue s) := by
  induction n with
  | zero =>
    intro queue s hL hn
    have hnil : queue = [] := List.length_eq_zero_iff.1 (by omega)
    rw [hnil] at hL
    exact hL.selectInv
  | succ n ih =>
    intro queue s hL hn
    cases queue with
    | nil => exact hL.selectInv
    | cons h queue =>
      rw [linkBlocks]
      refine ih _ _ hL.step ?_
      -- a round takes a block off the queue, and what joins it leaves `mapBlocksUnlinked`
      have hunl : (s.linkBlock env h).mapBlocksUnlinked = s.mapBlocksUnlinked :=
        (linkBlock_spec env s h).2.2.2.1
      have hsplit := List.length_eq_length_filter_add (l := s.mapBlocksUnlinked)
        (fun e => decide (e.1 = h))
      simp only [hunl, List.length_append, List.length_map, List.length_cons] at hn ⊢
      have hneg : (s.mapBlocksUnlinked.filter fun e => decide (e.1 ≠ h)) =
          s.mapBlocksUnlinked.filter fun e => !decide (e.1 = h) := by
        congr 1
        funext e
        simp
      rw [hneg]
      omega

theorem CBlockIndex.raiseValidity_of_lt {q : CBlockIndex} {n : ℕ} (hok : q.nStatus.failed = false)
    (hlt : q.nStatus.valid < n) :
    q.raiseValidity n = { q with nStatus := { q.nStatus with valid := n } } := by
  rw [raiseValidity, if_neg (by simp [hok]), if_pos hlt]

theorem CBlockIndex.receive_eq {p : CBlockIndex} (nTx : ℕ) (hok : p.nStatus.failed = false)
    (hvalid : p.nStatus.valid = blockValidTree) : p.receive nTx = { p with
      nTx := nTx
      nChainTx := 0
      nStatus := { p.nStatus with haveData := true, valid := blockValidTransactions } } :=
  raiseValidity_of_lt hok (by show p.nStatus.valid < _; rw [hvalid]; decide)

/-- A block that waits for its data, on a good parent with less work. -/
structure Receivable (s : SelectState) (h : UInt256) (nTx : ℕ) : Prop where
  mem : h ∈ s.mapBlockIndex
  fresh : (s.index h).nTx = 0
  unfailed : (s.index h).nStatus.failed = false
  nonempty : nTx ≠ 0
  parent : ∀ p, (s.index h).pprev = some p → (s.index p).nStatus.failed = false ∧
    (s.index p).nChainWork < (s.index h).nChainWork
  fits : ∀ x ∈ s.mapBlockIndex, h ∈ s.path x → s.pathTx x + nTx < 2 ^ 32

namespace SelectInv

variable {h : UInt256} {nTx : ℕ}

theorem valid_of_fresh (hI : SelectInv env s) (hh : h ∈ s.mapBlockIndex)
    (hfresh : (s.index h).nTx = 0) :
    (s.index h).nStatus.valid = blockValidTree ∧ (s.index h).nChainTx = 0 := by
  obtain ⟨htree, hlevel, -⟩ := hI.levels h hh
  constructor
  · have hlt : ¬blockValidTransactions ≤ (s.index h).nStatus.valid := fun hge => hlevel.1 hge hfresh
    simp only [blockValidTransactions, blockValidTree] at *
    omega
  · by_contra hset
    exact (hI.linked h hh hset).1 hfresh

theorem index_receive (hI : SelectInv env s) (hR : Receivable s h nTx) (x : UInt256) :
    (s.modify h fun p => p.receive nTx).index x = if x = h then { s.index h with
      nTx := nTx
      nChainTx := 0
      nStatus := { (s.index h).nStatus with
        haveData := true, valid := blockValidTransactions } } else s.index x := by
  rw [s.index_modify,
    CBlockIndex.receive_eq nTx hR.unfailed (hI.valid_of_fresh hR.mem hR.fresh).1]

theorem sameShape_receive (hI : SelectInv env s) (hR : Receivable s h nTx) :
    SameShape s.toBlockTree (s.modify h fun p => p.receive nTx).toBlockTree := by
  refine ⟨fun x => s.mem_modify hR.mem x _, ?_, ?_, ?_, ?_⟩ <;>
  · intro x
    rw [hI.index_receive hR]
    split
    · next hx => rw [hx]
    · rfl

/-- The data adds to the transactions of the paths through the block. -/
theorem pathTx_receive (hI : SelectInv env s) (hR : Receivable s h nTx) {x : UInt256}
    (hx : x ∈ s.mapBlockIndex) : (s.modify h fun p => p.receive nTx).pathTx x =
      s.pathTx x + if h ∈ s.path x then nTx else 0 := by
  have hL := hI.tree.levelled
  have hshape := hI.sameShape_receive hR
  have hnTx : ∀ y, ((s.modify h fun p => p.receive nTx).index y).nTx =
      if y = h then nTx else (s.index y).nTx := by
    intro y
    rw [hI.index_receive hR]
    split <;> rfl
  simp only [BlockTree.pathTx, hshape.path, hnTx]
  induction x, hx using hL.induction with
  | root x hx hp =>
    have hpath : s.path x = [x] := ParentTree.path_of_root hL hx hp
    rw [hpath, List.map_singleton, List.sum_singleton, List.map_singleton, List.sum_singleton]
    by_cases hxh : x = h
    · simp [hxh, hR.fresh]
    · simp [hxh, Ne.symm hxh]
  | child x hx p hp ih =>
    have hpath : s.path x = x :: s.path p := ParentTree.path_of_parent hL hx hp
    rw [hpath, List.map_cons, List.sum_cons, List.map_cons, List.sum_cons, ih]
    by_cases hxh : x = h
    · have hnot : h ∉ s.path p := by
        intro hin
        have hle : s.height h ≤ s.height p :=
          ParentTree.height_le_of_mem_path hL (hL.parent_mem x hx p hp) h hin
        have hheight := hL.height_parent x hx p hp
        rw [hxh] at hheight
        omega
      simp only [hxh, if_true, if_neg hnot, hR.fresh, List.mem_cons, true_or]
      omega
    · simp only [if_neg hxh, List.mem_cons, Ne.symm hxh, false_or]
      omega

theorem base_receive (hI : SelectInv env s) (hR : Receivable s h nTx) :
    EntryBase env (s.modify h fun p => p.receive nTx) := by
  have hshape := hI.sameShape_receive hR
  obtain ⟨hvalid, h0⟩ := hI.valid_of_fresh hR.mem hR.fresh
  have hindex := hI.index_receive hR
  have hself := (hindex h).trans (if_pos rfl)
  have hother : ∀ x, x ≠ h → (s.modify h fun p => p.receive nTx).index x = s.index x :=
    fun x hx => (hindex x).trans (if_neg hx)
  have hChainTx : ∀ x, ((s.modify h fun p => p.receive nTx).index x).nChainTx =
      (s.index x).nChainTx := by
    intro x
    by_cases hx : x = h
    · rw [hx, hself, h0]
    · rw [hother x hx]
  have hne : env.hashGenesisBlock ≠ h := by
    rintro rfl
    exact hI.genesis_data hR.fresh
  refine ⟨hshape.isTree hI.tree, ?_, ?_, fun x hx => ?_, fun x hx => ?_, fun x hx => ?_,
    fun x hx => ?_, fun x hx => ?_, fun x hx hset => ?_, fun x hx => ?_, hI.unlinked_nodup⟩
  · rw [hother _ hne]
    exact hI.genesis_data
  · rw [hother _ hne]
    exact hI.genesis_undo
  · rw [hshape.pprev, hshape.nChainWork, hshape.nChainWork]
    exact hI.header x ((hshape.mem x).1 hx)
  · by_cases hxh : x = h
    · rw [hxh, hself]
      exact ⟨show blockValidTree ≤ blockValidTransactions by decide,
        ⟨fun _ => hR.nonempty, fun _ => le_rfl⟩, ⟨fun _ => hR.nonempty, fun _ => rfl⟩⟩
    · rw [hother x hxh]
      exact hI.levels x ((hshape.mem x).1 hx)
  · rw [hshape.pprev]
    by_cases hxh : x = h
    · rw [hxh, hself]
      exact fun hlt => absurd hlt (by simp)
    · rw [hother x hxh]
      intro hlt
      obtain ⟨hge, hp⟩ := hI.scripts x ((hshape.mem x).1 hx) hlt
      refine ⟨hge, fun p hxp => (hp p hxp).imp id fun hpv => ?_⟩
      have hph : p ≠ h := by
        rintro rfl
        rw [hvalid] at hpv
        exact absurd hpv (by decide)
      rwa [hother p hph]
  · intro p hxp
    rw [hshape.pprev] at hxp
    rw [hshape.nChainWork, hshape.nChainWork]
    by_cases hxh : x = h
    · rw [hxh] at hxp ⊢
      exact ⟨((hR.parent p hxp).2).le, fun _ => (hR.parent p hxp).2⟩
    · rw [hother x hxh]
      exact hI.work x ((hshape.mem x).1 hx) p hxp
  · simp only [hChainTx, hshape.pprev]
    by_cases hxh : x = h
    · rw [hxh, h0]
      exact fun hset => absurd rfl hset
    · rw [hother x hxh]
      exact hI.linked x ((hshape.mem x).1 hx)
  · have hxm := (hshape.mem x).1 hx
    rw [hChainTx] at hset ⊢
    change _ = (s.modify h fun p => p.receive nTx).pathTx x
    rw [hI.pathTx_receive hR hxm, if_neg, Nat.add_zero]
    · exact hI.sum x hxm hset
    · exact fun hin => hI.linked_path hxm hset h hin h0
  · rw [hChainTx]
    intro hx0
    by_cases hxh : x = h
    · rw [hxh, hself]
      exact hI.sequence h hR.mem h0
    · rw [hother x hxh]
      exact hI.sequence x ((hshape.mem x).1 hx) hx0

/-- The data of a block arrives: it is linked with the blocks that wait for it, or it waits. -/
theorem receivedBlockTransactions (hI : SelectInv env s) (hR : Receivable s h nTx) :
    SelectInv env (s.receivedBlockTransactions env h nTx) := by
  have hshape := hI.sameShape_receive hR
  obtain ⟨hvalid, h0⟩ := hI.valid_of_fresh hR.mem hR.fresh
  have hindex := hI.index_receive hR
  have hself := (hindex h).trans (if_pos rfl)
  have hother : ∀ x, x ≠ h → (s.modify h fun p => p.receive nTx).index x = s.index x :=
    fun x hx => (hindex x).trans (if_neg hx)
  have hbase := hI.base_receive hR
  have hL := hI.tree.levelled
  have hne : h ≠ env.hashGenesisBlock := by
    rintro rfl
    exact hI.genesis_data hR.fresh
  have hChainTx : ∀ x, ((s.modify h fun p => p.receive nTx).index x).nChainTx =
      (s.index x).nChainTx := by
    intro x
    by_cases hx : x = h
    · rw [hx, hself, h0]
    · rw [hother x hx]
  obtain ⟨prev, hprevMem, hprev, -⟩ := hI.tree.pprev h hR.mem hne
  have hph : prev ≠ h := by
    rintro rfl
    have := hL.height_parent prev hR.mem prev hprev
    omega
  have hnew : ∀ p, (p, h) ∉ s.mapBlocksUnlinked := fun p hin =>
    ((hI.unlinked_iff p h).1 hin).2.2.1 hR.fresh
  -- what does not depend on where the block goes
  obtain ⟨tip, htipMem, htip, hchain, hcoins⟩ := hI.exists_tip
  have hoff : ∀ x ∈ s.chainActive, x ≠ h := by
    rintro x hx rfl
    exact (hI.active x hx).1 h0
  have hchain' : ∃ tip ∈ (s.modify h fun p => p.receive nTx).mapBlockIndex,
      s.chainActive = ((s.modify h fun p => p.receive nTx).path tip).reverse ∧
        s.coinsBest = tip :=
    ⟨tip, (hshape.mem tip).2 htipMem, by rw [hshape.path]; exact hchain, hcoins⟩
  have hactive' : ∀ x ∈ s.chainActive, ((s.modify h fun p => p.receive nTx).index x) =
      s.index x := fun x hx => hother x (hoff x hx)
  have hcand' : ∀ c ∈ s.setBlockIndexCandidates,
      c ∈ (s.modify h fun p => p.receive nTx).mapBlockIndex ∧
        ((s.modify h fun p => p.receive nTx).index c).nChainTx ≠ 0 ∧
        ∀ tip, s.tipHash = some tip →
          (s.modify h fun p => p.receive nTx).less env c tip = false := by
    intro c hc
    obtain ⟨hcMem, hcset, hless⟩ := hI.candidates c hc
    have hch : c ≠ h := by
      rintro rfl
      exact hcset h0
    refine ⟨(hshape.mem c).2 hcMem, by rwa [hChainTx], fun t ht => ?_⟩
    rw [← hless t ht]
    simp only [SelectState.less, hother c hch, hother t (hoff t (TipInv.tip_mem_chain ht))]
  rw [SelectState.receivedBlockTransactions]
  simp only [(hshape.pprev h).trans hprev]
  split
  · next hlinked =>
    rw [hChainTx] at hlinked
    refine linkBlocks_inv h _ _ _ ⟨hbase, fun x hx hin => ?_, by simp, fun x hx => ?_,
      fun x hx htx hx0 hxq => ?_, fun p x => ?_, hchain', fun x hx => ?_, hcand', fun x hx => ?_⟩
      (by simp only [List.length_singleton]; omega)
    · rw [hshape.path] at hin
      have hxm := (hshape.mem x).1 hx
      rw [hI.pathTx_receive hR hxm, if_pos hin]
      exact hR.fits x hxm hin
    · rw [List.mem_singleton.1 hx, hshape.path, hshape.pprev, hChainTx]
      refine ⟨(hshape.mem h).2 hR.mem, by rw [hself]; exact hR.nonempty, h0,
        ParentTree.self_mem_path h, fun p hp => ?_⟩
      cases hprev.symm.trans hp
      rwa [hChainTx]
    · have hxh : x ≠ h := by simpa using hxq
      rw [hChainTx] at hx0
      rw [hother x hxh] at htx
      obtain ⟨p, hp, hp0⟩ := hI.ready x ((hshape.mem x).1 hx) htx hx0
      exact ⟨p, (hshape.pprev x).trans hp, by rwa [hChainTx]⟩
    · rw [unlinked_modify, hI.unlinked_iff, hshape.mem, hshape.pprev, hChainTx, List.mem_singleton]
      by_cases hxh : x = h
      · rw [hxh]
        simp [hR.fresh]
      · rw [hother x hxh]
        simp [hxh]
    · rw [hactive' x hx]
      exact hI.active x hx
    · rw [hactive' x hx]
      exact hI.unfailed x hx
  · next hwaits =>
    rw [hChainTx, not_not] at hwaits
    have hgood : ((s.modify h fun p => p.receive nTx).index prev).isValid blockValidTree = true := by
      rw [hother prev hph, CBlockIndex.isValid, (hR.parent prev hprev).1, if_neg (by simp)]
      simpa using (hI.levels prev hprevMem).1
    rw [if_pos hgood]
    refine ⟨⟨⟨⟨hbase.tree, hbase.genesis_data, hbase.genesis_undo, hbase.header, hbase.levels,
      hbase.scripts, hbase.work, hbase.linked, hbase.sum, hbase.sequence, ?_⟩, fun x hx htx hx0 => ?_,
      fun p x => ?_⟩, hchain', fun x hx => ?_, hcand'⟩, fun x hx => ?_⟩
    · show ((s.mapBlocksUnlinked ++ [(prev, h)]).map Prod.snd).Nodup
      rw [List.map_append, List.map_singleton]
      refine List.nodup_append.2 ⟨hI.unlinked_nodup, by simp, ?_⟩
      rintro x hx y hy rfl
      obtain ⟨⟨p, z⟩, hz, rfl⟩ := List.mem_map.1 hx
      have hzh : z = h := List.mem_singleton.1 hy
      rw [hzh] at hz
      exact hnew p hz
    · change ((s.modify h fun p => p.receive nTx).index x).nTx ≠ 0 at htx
      change ((s.modify h fun p => p.receive nTx).index x).nChainTx = 0 at hx0
      change ∃ p, ((s.modify h fun p => p.receive nTx).index x).pprev = some p ∧
        ((s.modify h fun p => p.receive nTx).index p).nChainTx = 0
      rw [hshape.pprev]
      simp only [hChainTx]
      by_cases hxh : x = h
      · exact ⟨prev, by rw [hxh]; exact hprev, hwaits⟩
      · rw [hChainTx] at hx0
        rw [hother x hxh] at htx
        exact hI.ready x ((hshape.mem x).1 hx) htx hx0
    · show (p, x) ∈ s.mapBlocksUnlinked ++ [(prev, h)] ↔
        x ∈ (s.modify h fun p => p.receive nTx).mapBlockIndex ∧
          ((s.modify h fun p => p.receive nTx).index x).pprev = some p ∧
          ((s.modify h fun p => p.receive nTx).index x).nTx ≠ 0 ∧
          ((s.modify h fun p => p.receive nTx).index x).nChainTx = 0
      rw [List.mem_append, List.mem_singleton, hI.unlinked_iff, hshape.mem, hshape.pprev, hChainTx]
      by_cases hxh : x = h
      · rw [hxh, hself, hprev]
        simp [hR.fresh, hR.mem, hR.nonempty, h0, eq_comm]
      · rw [hother x hxh]
        simp [hxh]
    · change ((s.modify h fun p => p.receive nTx).index x).nChainTx ≠ 0 ∧ (_ →
        ((s.modify h fun p => p.receive nTx).index x).nStatus.haveUndo = true ∧
          _ ≤ ((s.modify h fun p => p.receive nTx).index x).nStatus.valid)
      rw [hactive' x hx]
      exact hI.active x hx
    · change ((s.modify h fun p => p.receive nTx).index x).nStatus.failed = false
      rw [hactive' x hx]
      exact hI.unfailed x hx

end SelectInv

end Queue

/-! ## Marks set by hand -/

section Marks

variable {env : SelectEnv} {s : SelectState}

/-- A block with its data that is not below the tip may join the candidates. -/
theorem SelectInv.insertCandidate (hI : SelectInv env s) {h : UInt256} (hh : h ∈ s.mapBlockIndex)
    (hset : (s.index h).nChainTx ≠ 0)
    (hless : ∀ tip, s.tipHash = some tip → s.less env h tip = false) :
    SelectInv env (s.insertCandidate h) := by
  have hsame := s.insertCandidate_toBlockTree h
  have hrest : (s.insertCandidate h).mapBlocksUnlinked = s.mapBlocksUnlinked ∧
      (s.insertCandidate h).coinsBest = s.coinsBest := by
    rw [SelectState.insertCandidate]
    split <;> exact ⟨rfl, rfl⟩
  have hd : SameData s (s.insertCandidate h) :=
    SameData.of_map_eq (by rw [hsame]) hrest.1
  have hindex : ∀ x, (s.insertCandidate h).index x = s.index x := fun x => by rw [hsame]
  refine ⟨⟨hd.entryInv (fun x => ?_) ?_ hI.toEntryInv, ?_, fun x hx => ?_, fun c hc => ?_⟩,
    fun x hx => ?_⟩
  · rw [hindex]
    exact ⟨le_rfl, .inl rfl⟩
  · rw [hindex]
  · obtain ⟨tip, hmem, hchain, hcoins⟩ := hI.chain
    exact ⟨tip, (hd.mem tip).2 hmem, by rw [hsame, hchain], hrest.2.trans hcoins⟩
  · rw [hindex]
    exact hI.active x (by rwa [hsame] at hx)
  · rw [hd.mem, hindex]
    have hall : c ∈ s.mapBlockIndex ∧ (s.index c).nChainTx ≠ 0 ∧
        ∀ tip, s.tipHash = some tip → s.less env c tip = false := by
      rcases (s.mem_insertCandidate).1 hc with hc | rfl
      · exact hI.candidates c hc
      · exact ⟨hh, hset, hless⟩
    refine ⟨hall.1, hall.2.1, fun tip htip => ?_⟩
    rw [hd.less]
    exact hall.2.2 tip (by rwa [tipHash, hsame] at htip)
  · rw [hindex]
    exact hI.unfailed x (by rwa [hsame] at hx)

/-- `InvalidateBlock` adds candidates. -/
theorem SelectInv.addCandidates (hI : SelectInv env s) : SelectInv env (s.addCandidates env) := by
  obtain ⟨tip, hmem, htip, -, -⟩ := hI.exists_tip
  rw [SelectState.addCandidates, htip]
  -- the fold keeps the tree as it is
  suffices h : ∀ (l : List UInt256) (s' : SelectState), SelectInv env s' →
      s'.toBlockTree = s.toBlockTree → (∀ x ∈ l, x ∈ s.mapBlockIndex) →
      SelectInv env (l.foldl (addCandidate env tip) s') from
    h _ s hI rfl fun x hx => AList.mem_keys.2 hx
  intro l
  induction l with
  | nil => exact fun s' hI' _ _ => hI'
  | cons x l ih =>
    intro s' hI' hsame hl
    have hl' : ∀ y ∈ l, y ∈ s.mapBlockIndex := fun y hy => hl y (by simp [hy])
    rw [List.foldl_cons, addCandidate]
    split
    · next htest =>
      simp only [Bool.and_eq_true, decide_eq_true_eq, Bool.not_eq_true'] at htest
      have hx : x ∈ s'.mapBlockIndex := by
        rw [hsame]
        exact hl x (by simp)
      refine ih _ (hI'.insertCandidate hx htest.1.2 fun t ht => ?_) ?_ hl'
      · rw [tipHash, hsame] at ht
        cases htip.symm.trans ht
        exact htest.2
      · rw [insertCandidate_toBlockTree]
        exact hsame
    · exact ih s' hI' hsame hl'

/-- Flags on a block may be cleared, wherever it is. -/
theorem SelectInv.clear (hI : SelectInv env s) {h : UInt256} (hh : h ∈ s.mapBlockIndex) :
    SelectInv env (s.modify h .clearFailed) := by
  refine ⟨hI.modify_flag hh fun p => ⟨_, rfl, rfl, rfl, rfl⟩, fun x hx => ?_⟩
  rw [s.index_modify]
  split
  · rfl
  · exact hI.unfailed x hx

theorem sameShape_clear {h : UInt256} (hh : h ∈ s.mapBlockIndex) :
    SameShape s.toBlockTree (s.modify h .clearFailed).toBlockTree :=
  SameShape.modify s hh fun _ => ⟨rfl, rfl, rfl, rfl⟩

theorem SelectInv.reconsiderEntry (hI : SelectInv env s) {pindex h : UInt256} {nHeight : ℤ}
    (hh : h ∈ s.mapBlockIndex) : SelectInv env (s.reconsiderEntry env pindex nHeight h) ∧
      SameShape s.toBlockTree (s.reconsiderEntry env pindex nHeight h).toBlockTree := by
  rw [SelectState.reconsiderEntry]
  split
  · have hclear := hI.clear hh
    have hshape := sameShape_clear hh
    simp only
    split
    · next htest =>
      simp only [Bool.and_eq_true, decide_eq_true_eq] at htest
      obtain ⟨tip, htip, hless⟩ := (Option.any_eq_true _ _).1 htest.2
      refine ⟨hclear.insertCandidate ((hshape.mem h).2 hh) htest.1.2 fun t ht => ?_, ?_⟩
      · cases htip.symm.trans ht
        rw [Bool.eq_false_iff]
        intro hback
        exact absurd (less_trans hless hback) (by rw [less_irrefl]; simp)
      · rw [insertCandidate_toBlockTree]
        exact hshape
    · exact ⟨hclear, hshape⟩
  · exact ⟨hI, SameShape.refl _⟩

theorem SelectInv.clearEntry (hI : SelectInv env s) {h : UInt256} (hh : h ∈ s.mapBlockIndex) :
    SelectInv env (s.clearEntry h) ∧ SameShape s.toBlockTree (s.clearEntry h).toBlockTree := by
  rw [SelectState.clearEntry]
  split
  · exact ⟨hI.clear hh, sameShape_clear hh⟩
  · exact ⟨hI, SameShape.refl _⟩

/-- A pass over blocks of the index that keeps the invariant and the shape at each of them. -/
theorem SelectInv.foldl {f : SelectState → UInt256 → SelectState}
    (hf : ∀ s h, SelectInv env s → h ∈ s.mapBlockIndex →
      SelectInv env (f s h) ∧ SameShape s.toBlockTree (f s h).toBlockTree) (l : List UInt256) :
    ∀ s, SelectInv env s → (∀ x ∈ l, x ∈ s.mapBlockIndex) →
      SelectInv env (l.foldl f s) ∧ SameShape s.toBlockTree (l.foldl f s).toBlockTree := by
  induction l with
  | nil => exact fun s hI _ => ⟨hI, SameShape.refl _⟩
  | cons x l ih =>
    intro s hI hl
    obtain ⟨hI', hshape⟩ := hf s x hI (hl x (by simp))
    obtain ⟨hI'', hshape'⟩ := ih (f s x) hI' fun y hy => (hshape.mem y).2 (hl y (by simp [hy]))
    exact ⟨hI'', hshape.trans hshape'⟩

/-- `ReconsiderBlock` keeps the invariant. -/
theorem SelectInv.reconsiderBlock (hI : SelectInv env s) {pindex : UInt256}
    (hp : pindex ∈ s.mapBlockIndex) : SelectInv env (s.reconsiderBlock env pindex) := by
  rw [SelectState.reconsiderBlock]
  obtain ⟨hI₁, hshape⟩ := SelectInv.foldl (fun s h hI hh => hI.reconsiderEntry hh) _ s hI
    (f := SelectState.reconsiderEntry env pindex (s.index pindex).nHeight)
    fun x hx => AList.mem_keys.2 hx
  refine (SelectInv.foldl (fun s h hI hh => hI.clearEntry hh) _ _ hI₁ fun x hx => ?_).1
  exact ParentTree.mem_of_mem_path hI₁.tree.levelled ((hshape.mem pindex).2 hp) x hx

/-- The calls of `DisconnectBlock` that `InvalidateBlock` makes succeed, system errors apart. -/
def Disconnects (env : SelectEnv) (s : SelectState) (pindex : UInt256) : Prop :=
  ∀ i x, s.chainActive.reverse[i]? = some x → pindex ∈ s.path x →
    env.disconnectBlock (s.nDisconnects + i) x = .ok ∨
      env.disconnectBlock (s.nDisconnects + i) x = .abort

/-- `InvalidateBlock` marks and disconnects the active blocks from the tip down to the one that is
invalidated. -/
theorem disconnectAbove_inv {pindex : UInt256} (hg : pindex ≠ env.hashGenesisBlock) (n : ℕ) :
    ∀ (s : SelectState), TipInv env s → pindex ∈ s.mapBlockIndex → s.chainActive.length ≤ n →
      Disconnects env s pindex →
      (∀ x ∈ s.chainActive, pindex ∉ s.path x → (s.index x).nStatus.failed = false) →
      (∃ s', disconnectAbove env pindex n s = .ok s' ∧ SelectInv env s') ∨
        disconnectAbove env pindex n s = .error .abort := by
  induction n with
  | zero =>
    intro s hI _ hlen _ _
    obtain ⟨tip, -, htip, -, -⟩ := hI.exists_tip
    have := List.length_pos_of_mem (TipInv.tip_mem_chain htip)
    omega
  | succ n ih =>
    intro s hI hp hlen hD hclear
    rw [disconnectAbove]
    by_cases hin : pindex ∈ s.chainActive
    · rw [if_pos ((hI.contains_iff hp).2 hin)]
      obtain ⟨tip, htipMem, htip, hchain, hcoins⟩ := hI.exists_tip
      simp only [htip]
      have hT := hI.tree
      have hpTip : pindex ∈ s.path tip := by
        rw [hchain, List.mem_reverse] at hin
        exact hin
      have htg : tip ≠ env.hashGenesisBlock := by
        rintro rfl
        rw [BlockTree.path, ParentTree.path_of_root hT.levelled hT.mem_genesis hT.pprev_genesis,
          List.mem_singleton] at hpTip
        exact hg hpTip
      set s₁ := (s.modify tip .markFailedChild).eraseCandidate tip with hs₁
      have hI₁ : TipInv env s₁ :=
        (hI.modify_flag htipMem (f := .markFailedChild) fun p => ⟨_, rfl, rfl, rfl, rfl⟩).withCandidates
          rfl rfl rfl rfl fun c hc => ((mem_eraseCandidate _).1 hc).1
      have hshape : SameShape s.toBlockTree s₁.toBlockTree :=
        SameShape.modify s htipMem (f := .markFailedChild) fun _ => ⟨rfl, rfl, rfl, rfl⟩
      have htip₁ : s₁.tipHash = some tip := htip
      have hfirst : s.chainActive.reverse[0]? = some tip := by
        rw [← List.head?_eq_getElem?, List.head?_reverse]
        exact htip
      rcases selectDisconnect_cases hI₁ htip₁ with
        ⟨-, -, hdisc⟩ | ⟨htg' | ⟨hne₁, hne₂⟩, -⟩ | hdisc
      · rw [hdisc]
        have hpop := hI₁.chain_disconnected_subset htip₁ htg
        have hd := s₁.sameData_disconnected tip
        have hshape₂ := hshape.trans hd.toSameShape
        refine ih _ (hI₁.disconnect htip₁ htg) ((hshape₂.mem pindex).2 hp) ?_ ?_ ?_
        · have hlen' := congrArg List.length hpop
          rw [List.length_append, List.length_singleton] at hlen'
          change s.chainActive.length = _ at hlen'
          omega
        · intro i x hx hpx
          rw [hshape₂.path] at hpx
          have hnext : s.chainActive.reverse[i + 1]? = some x := by
            have hrev : s.chainActive.reverse = tip :: (s₁.disconnected tip).chainActive.reverse := by
              change s.chainActive = _ at hpop
              rw [hpop, List.reverse_append]
              rfl
            rw [hrev, List.getElem?_cons_succ]
            exact hx
          have hcount : (s₁.disconnected tip).nDisconnects = s.nDisconnects + 1 :=
            (setTip_counters _ _).2
          rw [hcount, Nat.add_assoc, Nat.add_comm 1 i]
          exact hD (i + 1) x hnext hpx
        · intro x hx hpx
          rw [hshape₂.path] at hpx
          have hxt : x ≠ tip := by
            rintro rfl
            exact hpx hpTip
          have hxin : x ∈ s.chainActive := by
            change s.chainActive = _ at hpop
            rw [hpop]
            exact List.mem_append_left _ hx
          rw [index_disconnected]
          change ((s.modify tip .markFailedChild).index x).nStatus.failed = false
          rw [s.index_modify, if_neg hxt]
          exact hclear x hxin hpx
      · exact absurd htg' htg
      · rcases hD 0 tip hfirst hpTip with hok | habort
        · exact absurd hok hne₁
        · exact absurd habort hne₂
      · rw [hdisc]
        exact .inr rfl
    · rw [if_neg (by rw [hI.contains_iff hp]; exact hin)]
      refine .inl ⟨s, rfl, hI, fun x hx => hclear x hx fun hpx => hin ?_⟩
      obtain ⟨tip, htipMem, -, hchain, -⟩ := hI.exists_tip
      rw [hchain, List.mem_reverse] at hx ⊢
      exact ParentTree.path_trans hI.tree.levelled htipMem x hx pindex hpx

/-- `InvalidateBlock` keeps the invariant when it comes to its end. -/
theorem SelectInv.invalidateBlock (hI : SelectInv env s) {pindex : UInt256}
    (hg : pindex ≠ env.hashGenesisBlock) (hp : pindex ∈ s.mapBlockIndex)
    (hD : Disconnects env s pindex) :
    (∃ s', s.invalidateBlock env pindex = .ok s' ∧ SelectInv env s') ∨
      s.invalidateBlock env pindex = .error .abort := by
  set s₁ := (s.modify pindex .markFailedValid).eraseCandidate pindex with hs₁
  have hI₁ : TipInv env s₁ :=
    (hI.modify_flag hp (f := .markFailedValid) fun p => ⟨_, rfl, rfl, rfl, rfl⟩).withCandidates
      rfl rfl rfl rfl fun c hc => ((mem_eraseCandidate _).1 hc).1
  have hshape : SameShape s.toBlockTree s₁.toBlockTree :=
    SameShape.modify s hp (f := .markFailedValid) fun _ => ⟨rfl, rfl, rfl, rfl⟩
  have hrun := disconnectAbove_inv hg s.chainActive.length s₁ hI₁ ((hshape.mem pindex).2 hp) le_rfl
    (fun i x hx hpx => hD i x hx (by rwa [hshape.path] at hpx)) fun x hx hpx => by
      have hxp : x ≠ pindex := by
        rintro rfl
        exact hpx (ParentTree.self_mem_path x)
      change ((s.modify pindex .markFailedValid).index x).nStatus.failed = false
      rw [s.index_modify, if_neg hxp]
      exact hI.unfailed x hx
  rw [SelectState.invalidateBlock]
  rcases hrun with ⟨s', hs', hI'⟩ | habort
  · rw [hs']
    exact .inl ⟨_, rfl, hI'.addCandidates⟩
  · rw [habort]
    exact .inr rfl

end Marks

/-! ## Genesis -/

section Genesis

variable {env : SelectEnv}

/-- The state with genesis alone in the index. -/
def onlyGenesis (env : SelectEnv) (p : CBlockIndex) : SelectState :=
  { mapBlockIndex := (∅ : AList fun _ : UInt256 => CBlockIndex).insert env.hashGenesisBlock p }

theorem index_onlyGenesis (p : CBlockIndex) :
    (onlyGenesis env p).index env.hashGenesisBlock = p := by
  rw [BlockTree.index, onlyGenesis, AList.lookup_insert, Option.getD_some]

theorem modify_onlyGenesis (p : CBlockIndex) (f : CBlockIndex → CBlockIndex) :
    (onlyGenesis env p).modify env.hashGenesisBlock f = onlyGenesis env (f p) := by
  rw [SelectState.modify, index_onlyGenesis, onlyGenesis, onlyGenesis, AList.insert_insert]

/-- The entry of genesis after `InitBlockIndex`. -/
def genesisEntry (env : SelectEnv) : CBlockIndex where
  phashBlock := some env.hashGenesisBlock
  nChainWork := env.getBlockProof env.hashGenesisBlock % 2 ^ 256
  nTx := 1
  nChainTx := 1
  nSequenceId := 1
  nStatus := { valid := blockValidTransactions, haveData := true }

theorem initBlockIndex_eq : initBlockIndex env =
    { onlyGenesis env (genesisEntry env) with
      chainActive := [env.hashGenesisBlock]
      coinsBest := env.hashGenesisBlock
      setBlockIndexCandidates := [env.hashGenesisBlock]
      nBlockSequenceId := 2 } := by
  set p : CBlockIndex := { genesisEntry env with nChainTx := 0, nSequenceId := 0 } with hp
  have hreceive : (({} : SelectState).addToBlockIndex env env.hashGenesisBlock).modify
      env.hashGenesisBlock (fun p => p.receive 1) = onlyGenesis env p := by
    exact modify_onlyGenesis { phashBlock := some env.hashGenesisBlock
                               nChainWork := env.getBlockProof env.hashGenesisBlock % 2 ^ 256
                               nStatus := { valid := blockValidTree } } _
  have hnumber : (onlyGenesis env p).numberBlock env.hashGenesisBlock =
      { onlyGenesis env (genesisEntry env) with nBlockSequenceId := 2 } := by
    rw [numberBlock, nChainTxPrev, index_onlyGenesis, modify_onlyGenesis]
    rfl
  have hlink : (({} : SelectState).addToBlockIndex env env.hashGenesisBlock).receivedBlockTransactions
      env env.hashGenesisBlock 1 = { onlyGenesis env (genesisEntry env) with
        setBlockIndexCandidates := [env.hashGenesisBlock], nBlockSequenceId := 2 } := by
    rw [receivedBlockTransactions]
    simp only [hreceive, index_onlyGenesis]
    show linkBlocks env 1 [env.hashGenesisBlock] (onlyGenesis env p) = _
    rw [linkBlocks, linkBlock, hnumber]
    rfl
  rw [initBlockIndex, hlink]

theorem mem_onlyGenesis {p : CBlockIndex} {h : UInt256} :
    h ∈ (onlyGenesis env p).mapBlockIndex ↔ h = env.hashGenesisBlock := by
  rw [onlyGenesis, AList.mem_insert]
  exact or_iff_left (AList.notMem_empty h)

/-- `InitBlockIndex` establishes the invariant. -/
theorem SelectInv.initBlockIndex : SelectInv env (initBlockIndex env) := by
  set s := SelectState.initBlockIndex env with hs
  have hmap : s.mapBlockIndex = (onlyGenesis env (genesisEntry env)).mapBlockIndex := by
    rw [hs, initBlockIndex_eq]
  have hmem : ∀ h, h ∈ s.mapBlockIndex ↔ h = env.hashGenesisBlock := fun h => by
    rw [hmap, mem_onlyGenesis]
  have hindex : s.index env.hashGenesisBlock = genesisEntry env := by
    rw [BlockTree.index, hmap]
    exact index_onlyGenesis _
  have hchain : s.chainActive = [env.hashGenesisBlock] := by rw [hs, initBlockIndex_eq]
  have hcand : s.setBlockIndexCandidates = [env.hashGenesisBlock] := by rw [hs, initBlockIndex_eq]
  have hunlinked : s.mapBlocksUnlinked = [] := by rw [hs, initBlockIndex_eq]; rfl
  have htree : IsTree s.toBlockTree env.hashGenesisBlock := by
    constructor <;> simp [hmem, hindex, genesisEntry]
  have hpath : s.path env.hashGenesisBlock = [env.hashGenesisBlock] :=
    ParentTree.path_of_root htree.levelled htree.mem_genesis htree.pprev_genesis
  constructor
  · constructor
    · constructor
      · constructor <;> simp [htree, hmem, hindex, hpath, hunlinked, genesisEntry, blockValidTree, blockValidTransactions]
      · simp [hmem, hindex, genesisEntry]
      · simp [hmem, hindex, hunlinked, genesisEntry]
    · exact ⟨_, htree.mem_genesis, by rw [hchain, hpath]; rfl, by rw [hs, initBlockIndex_eq]⟩
    · simp [hchain, hindex, genesisEntry]
    · simp [hcand, hmem, hindex, genesisEntry, tipHash, hchain]
      exact less_irrefl ..
  · simp [hchain, hindex, genesisEntry, BlockStatus.failed]

end Genesis

/-! ## Runs -/

section Runs

variable {env : SelectEnv} {s : SelectState}

/-- The work of a header does not wrap. -/
def WorkFits (env : SelectEnv) (s : SelectState) (a : Arrival) : Prop :=
  (s.index (env.hashPrevBlock a.hash)).nChainWork + env.getBlockProof a.hash < 2 ^ 256

/-- The transactions of a block do not make a count wrap, on any branch through the block. -/
def TxFits (env : SelectEnv) (s : SelectState) (a : Arrival) : Prop :=
  if a.hash ∈ s.mapBlockIndex then
    ∀ x ∈ s.mapBlockIndex, a.hash ∈ s.path x → s.pathTx x + a.nTx < 2 ^ 32
  else s.pathTx (env.hashPrevBlock a.hash) + a.nTx < 2 ^ 32

/-- The calls after which activation is as it should be.

* A block has a positive proof when `CheckWork` accepts it, and no counter wraps.
* No block is found corrupted when it is connected: it would be tried again and again.
* `InvalidateBlock` is not called for genesis, and its disconnects succeed: otherwise it leaves
  failed blocks in the active chain. -/
def Sound (env : SelectEnv) (s : SelectState) : TreeOp → Prop
  | .acceptBlock a => WorkFits env s a ∧ TxFits env s a ∧
      (a.checkWork = true → 0 < env.getBlockProof a.hash)
  | .acceptBlockHeader a => WorkFits env s a
  | .activateBestChain _ => NoCorruption env s
  | .invalidateBlock hash => hash ≠ env.hashGenesisBlock ∧ Disconnects env s hash
  | .reconsiderBlock _ => True
  | .disconnectTip => True

/-- What a call leaves: a state, or a state in which it returned false. -/
def Leaves (r : Except Stop SelectState) (P : SelectState → Prop) : Prop :=
  (∀ s, r = .ok s → P s) ∧ ∀ s, r = .error (.fails s) → P s

theorem leaves_ok {P : SelectState → Prop} {s : SelectState} (h : P s) : Leaves (.ok s) P :=
  ⟨fun _ he => by cases he; exact h, fun _ he => by simp at he⟩

theorem leaves_fails {P : SelectState → Prop} {s : SelectState} (h : P s) :
    Leaves (.error (.fails s)) P :=
  ⟨fun _ he => by simp at he, fun _ he => by cases he; exact h⟩

theorem hasGoodParent_spec {h : UInt256} (hne : h ≠ env.hashGenesisBlock)
    (hgood : s.hasGoodParent env h = true) : env.hashPrevBlock h ∈ s.mapBlockIndex ∧
      (s.index (env.hashPrevBlock h)).nStatus.failed = false := by
  rw [hasGoodParent, Bool.or_eq_true, beq_iff_eq] at hgood
  obtain ⟨p, hp, hok⟩ := (Option.any_eq_true _ _).1 (hgood.resolve_left hne)
  have hmem : env.hashPrevBlock h ∈ s.mapBlockIndex :=
    AList.lookup_isSome.1 (by rw [hp]; rfl)
  refine ⟨hmem, ?_⟩
  rw [BlockTree.index, hp]
  simpa using hok

/-- `AcceptBlockHeader` returns true for a block that is then in the index and not marked. -/
theorem SelectInv.acceptBlockHeader (hI : SelectInv env s) {a : Arrival} (hW : WorkFits env s a) :
    (s.acceptBlockHeader env a = .error (.fails s)) ∨
      ∃ s', s.acceptBlockHeader env a = .ok s' ∧ SelectInv env s' ∧ a.hash ∈ s'.mapBlockIndex ∧
        (s'.index a.hash).nStatus.failed = false ∧
        (s' = s ∧ a.hash ∈ s.mapBlockIndex ∨ a.hash ∉ s.mapBlockIndex ∧
          env.hashPrevBlock a.hash ∈ s.mapBlockIndex ∧ s' = s.addToBlockIndex env a.hash) := by
  rw [SelectState.acceptBlockHeader]
  cases hlookup : s.mapBlockIndex.lookup a.hash with
  | some p =>
    have hmem : a.hash ∈ s.mapBlockIndex := AList.lookup_isSome.1 (by rw [hlookup]; rfl)
    simp only
    split
    · exact .inl rfl
    · next hok =>
      refine .inr ⟨s, rfl, hI, hmem, ?_, .inl ⟨rfl, hmem⟩⟩
      rw [BlockTree.index, hlookup]
      simpa using hok
  | none =>
    have hnew : a.hash ∉ s.mapBlockIndex := AList.lookup_eq_none.1 hlookup
    simp only
    split
    · next htest =>
      rw [Bool.and_eq_true, Bool.and_eq_true] at htest
      have hne : a.hash ≠ env.hashGenesisBlock := by
        intro hg
        rw [hg] at hnew
        exact hnew hI.tree.mem_genesis
      obtain ⟨hprev, -⟩ := hasGoodParent_spec hne htest.1.2
      obtain ⟨hG, -, -, -, hstatus, -⟩ := addToBlockIndex_spec hprev hnew
      refine .inr ⟨_, rfl, hI.addToBlockIndex hnew hprev hW, (hG.mem _).2 (.inl rfl), ?_,
        .inr ⟨hnew, hprev, rfl⟩⟩
      rw [hstatus]
      rfl
    · exact .inl rfl

/-- `AcceptBlock` keeps the invariant. -/
theorem SelectInv.acceptBlock (hI : SelectInv env s) {a : Arrival} (hW : WorkFits env s a)
    (hTx : TxFits env s a) (hproof : a.checkWork = true → 0 < env.getBlockProof a.hash) :
    Leaves (s.acceptBlock env a) (SelectInv env) := by
  rw [SelectState.acceptBlock]
  split
  · exact leaves_fails hI
  · next hgood =>
    split
    · exact leaves_fails hI
    · next hcheck =>
      rcases hI.acceptBlockHeader hW with hfail | ⟨s', hok, hI', hmem, hunfailed, hcase⟩
      · rw [hfail]
        exact leaves_fails hI
      · rw [hok]
        simp only
        split
        · exact leaves_ok hI'
        · next hdata =>
          have hfresh : (s'.index a.hash).nTx = 0 := by
            by_contra htx
            exact hdata ((hI'.levels a.hash hmem).2.2.2 htx)
          have hne : a.hash ≠ env.hashGenesisBlock := by
            intro hg
            rw [hg] at hfresh
            exact hI'.genesis_data hfresh
          have hoff : a.hash ∉ s'.chainActive := fun hin =>
            (hI'.active a.hash hin).1 (hI'.valid_of_fresh hmem hfresh).2
          cases hverdict : a.checkBlock with
          | invalid c =>
            cases c with
            | false => exact leaves_fails (hI'.mark hmem hoff fun p => ⟨_, rfl, rfl, rfl, rfl⟩)
            | true => exact leaves_fails hI'
          | error => exact leaves_fails hI'
          | abort => exact ⟨fun _ he => by simp at he, fun _ he => by simp at he⟩
          | ok =>
            simp only
            split
            · refine leaves_ok (hI'.receivedBlockTransactions ⟨hmem, hfresh, hunfailed, ?_, ?_, ?_⟩)
              · rw [Arrival.checkBlock] at hverdict
                split at hverdict
                · split at hverdict
                  · exact absurd hverdict (by simp)
                  · next hsize => exact fun hzero => hsize (.inl hzero)
                · next hv => exact absurd hverdict hv
              · intro p hp
                obtain ⟨hpp, hwork⟩ := hI'.header a.hash hmem hne
                cases hp.symm.trans hpp
                have hpos := hproof (by
                  by_contra hc
                  exact hcheck ⟨hne, by simpa using hc⟩)
                obtain ⟨hprev, hprevOk⟩ := hasGoodParent_spec hne (by simpa using hgood)
                refine ⟨?_, by omega⟩
                rcases hcase with ⟨rfl, -⟩ | ⟨hnew, -, rfl⟩
                · exact hprevOk
                · obtain ⟨hG, -⟩ := addToBlockIndex_spec hprev hnew
                  rwa [hG.index _ (hG.ne hprev)]
              · intro x hx hin
                rw [TxFits] at hTx
                rcases hcase with ⟨rfl, hin'⟩ | ⟨hnew, hprev, rfl⟩
                · rw [if_pos hin'] at hTx
                  exact hTx x hx hin
                · -- only the new block itself lies above it
                  rw [if_neg hnew] at hTx
                  obtain ⟨hG, hzero, -⟩ := addToBlockIndex_spec hprev hnew
                  rcases (hG.mem x).1 hx with rfl | hx
                  · rw [BlockTree.pathTx, hG.path_new hI.tree, List.map_cons, List.sum_cons, hzero,
                      Nat.zero_add]
                    convert hTx using 2
                    rw [BlockTree.pathTx]
                    congr 1
                    refine List.map_congr_left fun y hy => ?_
                    rw [hG.index y (hG.ne (ParentTree.mem_of_mem_path hI.tree.levelled hprev y hy))]
                  · rw [hG.path_old hI.tree hx] at hin
                    exact absurd (ParentTree.mem_of_mem_path hI.tree.levelled hx _ hin) hnew
            · exact leaves_fails hI'

/-- `ActivateBestChain` keeps the invariant, however many rounds it is given. -/
theorem SelectInv.activateBestChain (hI : SelectInv env s) (hC : NoCorruption env s) (fuel : ℕ) :
    Leaves (s.activateBestChain env fuel) (SelectInv env) := by
  obtain ⟨r, hr, hends⟩ := activateBestChain_ends s.rank s hI hC le_rfl
  -- a call that is not cut short returns what it returns with enough rounds
  have hsame : ∀ r', s.activateBestChain env fuel = r' → r' ≠ .error .outOfFuel → r' = r := by
    intro r' h hne
    have := activateBestChain_mono hne fuel s
      (fuel + (s.rank + s.setBlockIndexCandidates.length + 2)) h (by omega)
    rw [← this]
    exact hr _ (by omega)
  refine ⟨fun s' h => ?_, fun s' h => ?_⟩
  · rw [← hsame _ h (by simp)] at hends
    exact hI.moves hends.1
  · rw [← hsame _ h (by simp)] at hends
    exact hI.moves hends

/-- **A call keeps the invariant.** -/
theorem SelectInv.call (hI : SelectInv env s) {op : TreeOp} (hS : Sound env s op) :
    Leaves (treeCall env s op) (SelectInv env) := by
  cases op with
  | acceptBlock a => exact hI.acceptBlock hS.1 hS.2.1 hS.2.2
  | acceptBlockHeader a =>
    rw [treeCall]
    rcases hI.acceptBlockHeader hS with hfail | ⟨s', hok, hI', -⟩
    · rw [hfail]
      exact leaves_fails hI
    · rw [hok]
      exact leaves_ok hI'
  | activateBestChain fuel => exact hI.activateBestChain hS fuel
  | invalidateBlock hash =>
    rw [treeCall]
    split
    · next hmem =>
      rcases hI.invalidateBlock hS.1 hmem hS.2 with ⟨s', hs', hI'⟩ | habort
      · rw [hs']
        exact leaves_ok hI'
      · rw [habort]
        exact ⟨fun _ he => by simp at he, fun _ he => by simp at he⟩
    · exact leaves_fails hI
  | reconsiderBlock hash =>
    rw [treeCall]
    split
    · next hmem => exact leaves_ok (hI.reconsiderBlock hmem)
    · exact leaves_fails hI
  | disconnectTip =>
    rw [treeCall]
    obtain ⟨tip, -, htip, -, -⟩ := hI.exists_tip
    rcases selectDisconnect_cases hI.toTipInv htip with
      ⟨hg, -, hdisc⟩ | ⟨-, s', hdisc, hmove⟩ | hdisc
    · rw [hdisc]
      exact leaves_ok (hI.move (.disconnect s tip htip hg))
    · rw [hdisc]
      exact leaves_fails (hI.move hmove)
    · rw [hdisc]
      exact ⟨fun _ he => by simp at he, fun _ he => by simp at he⟩

/-- The invariant holds after every run of calls as above. -/
theorem SelectInv.run {ops : List TreeOp}
    (hS : Run.Along (treeStep env) (Sound env) (SelectState.initBlockIndex env) ops)
    (hrun : Run.run (treeStep env) (SelectState.initBlockIndex env) ops = .ok s) :
    SelectInv env s := by
  refine Run.run_invariant (fun s op s' hI hop hstep => ?_) SelectInv.initBlockIndex hS hrun
  have hcall := hI.call hop
  rw [treeStep] at hstep
  split at hstep
  · next s₁ hfails =>
    cases hstep
    exact hcall.2 s' hfails
  · exact hcall.1 s' hstep

/-- What `ActivateBestChain` owes its callers when it returns true. -/
structure Activated (env : SelectEnv) (s : SelectState) : Prop where
  head : s.chainActive.head? = some env.hashGenesisBlock
  linked : s.chainActive.IsChain fun p h => (s.index h).pprev = some p
  unfailed : ∀ h ∈ s.chainActive, (s.index h).nStatus.failed = false
  coins : s.tipHash = some s.coinsBest
  best : ∀ c ∈ s.setBlockIndexCandidates,
    (∀ a ∈ s.path c, (s.index a).nStatus.haveData = true ∧ (s.index a).nStatus.failed = false) →
      (s.index c).nChainWork ≤ (s.index s.coinsBest).nChainWork

/-- The call comes to an end, in one of the ways in which the function returns. -/
def Returns : Except Stop SelectState → Prop
  | .ok _ => True
  | .error (.fails _) => True
  | .error .abort => True
  | .error (.crash _) => False
  | .error .outOfFuel => False

theorem SelectInv.activated (hI : SelectInv env s)
    (hbest : ∀ tip, s.tipHash = some tip → ∀ c ∈ s.setBlockIndexCandidates,
      s.less env tip c = false) : Activated env s := by
  obtain ⟨tip, htipMem, htip, hchain, hcoins⟩ := hI.exists_tip
  have hT := hI.tree
  refine ⟨?_, ?_, hI.unfailed, by rw [htip, hcoins], fun c hc _ => ?_⟩
  · obtain ⟨r, hr, hlast, hroot⟩ := ParentTree.getLast?_path hT.levelled htipMem
    rw [hchain, List.head?_reverse, BlockTree.path, hlast]
    by_contra hne
    obtain ⟨p, -, hp, -⟩ := hT.pprev r hr fun h => hne (by rw [h])
    exact absurd (hroot.symm.trans hp) (by simp)
  · rw [hchain, List.isChain_reverse]
    exact ParentTree.isChain_path tip
  · rw [hcoins]
    exact work_le_of_not_less (hbest tip htip c hc)

/-- **`ActivateBestChain` comes to an end at the best chain.**  After every run of calls as
above, in a state where no block is found corrupted when it is connected, the loop ends; if it
returns true, the active chain is a path from genesis to the best block of the coins view, none of
its blocks is failed, and no candidate has more work than the tip. -/
theorem activate_best_chain_run (env : SelectEnv) (ops : List TreeOp) (s : SelectState)
    (hS : Run.Along (treeStep env) (Sound env) (initBlockIndex env) ops)
    (hrun : Run.run (treeStep env) (initBlockIndex env) ops = .ok s) (hC : NoCorruption env s) :
    ∃ N r, (∀ fuel, N ≤ fuel → s.activateBestChain env fuel = r) ∧ Returns r ∧
      ∀ s', r = .ok s' → Activated env s' := by
  have hI := SelectInv.run hS hrun
  obtain ⟨r, hr, hends⟩ := activateBestChain_ends s.rank s hI hC le_rfl
  refine ⟨s.rank + s.setBlockIndexCandidates.length + 2, r, fun fuel hfuel => hr fuel (by omega),
    ?_⟩
  rcases hends.cases with ⟨s', rfl, hmoves, hbest⟩ | ⟨s', rfl, -⟩ | rfl
  · refine ⟨trivial, fun s'' hs'' => ?_⟩
    cases hs''
    exact (hI.moves hmoves).activated hbest
  · exact ⟨trivial, fun _ h => by simp at h⟩
  · exact ⟨trivial, fun _ h => by simp at h⟩

theorem forkAddr_injective (a b : UInt256) (h : a.toNat = b.toNat) : a = b :=
  BitVec.eq_of_toNat_eq h

/-- Block 2 and the branch of blocks 3 and 4 on genesis; block 4 is invalid. -/
def forkEnv : SelectEnv where
  hashGenesisBlock := 1
  hashPrevBlock h := if h = 4 then 3 else 1
  getBlockProof _ := 1
  addr h := h.toNat
  addr_injective := forkAddr_injective
  connectBlock _ h := if h = 4 then .invalid false else .ok
  disconnectBlock _ _ := .ok
  flushStateToDisk _ := true

/-- Block 2 becomes the tip, then the other branch arrives. -/
def forkOps : List TreeOp :=
  [.acceptBlock { hash := 2 }, .activateBestChain 9, .acceptBlock { hash := 3 },
    .acceptBlock { hash := 4 }]

/-- A test of `Sound` for blocks that are new. -/
def arrivalFits (env : SelectEnv) (s : SelectState) : TreeOp → Bool
  | .acceptBlock a =>
      decide ((s.index (env.hashPrevBlock a.hash)).nChainWork + env.getBlockProof a.hash <
          2 ^ 256) &&
        decide (a.hash ∉ s.mapBlockIndex) &&
        decide (s.pathTx (env.hashPrevBlock a.hash) + a.nTx < 2 ^ 32) &&
        decide (0 < env.getBlockProof a.hash)
  | .activateBestChain _ => true
  | _ => false

theorem sound_of_arrivalFits {op : TreeOp} (hC : NoCorruption env s)
    (h : arrivalFits env s op = true) : Sound env s op := by
  cases op with
  | acceptBlock a =>
    simp only [arrivalFits, Bool.and_eq_true, decide_eq_true_eq] at h
    obtain ⟨⟨⟨hwork, hnew⟩, htx⟩, hproof⟩ := h
    refine ⟨hwork, ?_, fun _ => hproof⟩
    rw [TxFits, if_neg hnew]
    exact htx
  | activateBestChain fuel => exact hC
  | _ => simp [arrivalFits] at h

theorem noCorruption_forkEnv (s : SelectState) : NoCorruption forkEnv s := by
  intro n _ h _
  simp only [forkEnv]
  split <;> simp

/-- The active chain that a run of calls and then `ActivateBestChain` leave. -/
def chainAfter (env : SelectEnv) (ops : List TreeOp) (fuel : ℕ) : Option (List UInt256) :=
  match Run.run (treeStep env) (initBlockIndex env) ops with
  | .ok s => (s.activateBestChain env fuel).toOption.map (·.chainActive)
  | .error _ => none

theorem chainAfter_eq_some {ops : List TreeOp} {fuel : ℕ} {chain : List UInt256}
    (h : chainAfter env ops fuel = some chain) : ∃ s s',
      Run.run (treeStep env) (initBlockIndex env) ops = .ok s ∧
        s.activateBestChain env fuel = .ok s' ∧ s'.chainActive = chain := by
  rw [chainAfter] at h
  split at h
  · next s hs =>
    cases hact : s.activateBestChain env fuel with
    | error e => simp [hact, Except.toOption] at h
    | ok s' =>
      rw [hact] at h
      exact ⟨s, s', hs, hact, Option.some.inj h⟩
  · exact absurd h (by simp)

/-- Blocks 3 and 4 have the most work; block 4 fails, and the node returns to block 2. -/
theorem activate_best_chain_fork : ∃ s s',
    Run.run (treeStep forkEnv) (initBlockIndex forkEnv) forkOps = .ok s ∧
      (∃ N, ∀ fuel, N ≤ fuel → s.activateBestChain forkEnv fuel = .ok s') ∧
      s'.chainActive = [1, 2] ∧ Activated forkEnv s' := by
  obtain ⟨s, s', hs, hact, hchain⟩ := chainAfter_eq_some
    (show chainAfter forkEnv forkOps 10 = some [1, 2] by decide)
  have hS : Run.Along (treeStep forkEnv) (Sound forkEnv) (initBlockIndex forkEnv) forkOps :=
    Run.along_of_checkAlong (fun s _ _ h => sound_of_arrivalFits (noCorruption_forkEnv s) h)
      (by decide)
  obtain ⟨N, r, hr, -, hok⟩ :=
    activate_best_chain_run forkEnv forkOps s hS hs (noCorruption_forkEnv s)
  have hmono := activateBestChain_mono (by simp) 10 s (N + 10) hact (by omega)
  have hrs : r = .ok s' := (hr (N + 10) (by omega)).symm.trans hmono
  exact ⟨s, s', hs, ⟨N, fun fuel hfuel => by rw [hr fuel hfuel, hrs]⟩, hchain, hok s' hrs⟩

/-- The same tree, with a copy of the blocks on disk that has been damaged. -/
def damagedEnv : SelectEnv := { forkEnv with connectBlock := fun _ _ => .invalid true }

/-- Block 2 has arrived, and `ConnectBlock` has been called `k` times. -/
def damagedState (k : ℕ) : SelectState :=
  { ((initBlockIndex damagedEnv).addToBlockIndex damagedEnv 2).receivedBlockTransactions
      damagedEnv 2 1 with nConnects := k }

theorem damaged_find (n k : ℕ) : findMostWorkChain damagedEnv (n + 1) (damagedState k) =
    .ok (some 2, damagedState k) := by
  rfl

theorem damaged_round (k : ℕ) : (damagedState k).activateBestChainStep damagedEnv 2 =
    .ok (damagedState (k + 1)) := by
  rfl

theorem damaged_loop (n : ℕ) :
    ∀ k, (damagedState k).activateBestChain damagedEnv n = .error .outOfFuel := by
  induction n with
  | zero => exact fun k => rfl
  | succ n ih =>
    intro k
    rw [activateBestChain]
    cases n with
    | zero => rfl
    | succ n =>
      rw [damaged_find]
      have htip : ∀ k, (damagedState k).tipHash = some 1 := fun k => rfl
      simp only [htip, damaged_round]
      exact ih (k + 1)

/-- **A failed block can stay active, and the loop need not end.**  When genesis is invalidated
the active chain keeps it, marked as failed, and `ActivateBestChain` returns true.  When block 2
fails to connect with corruption possible it is not marked, and is tried again for ever. -/
theorem activation_keeps_failed_and_loops :
    (∃ s s', Run.run (treeStep forkEnv) (initBlockIndex forkEnv) [.invalidateBlock 1] = .ok s ∧
      s.activateBestChain forkEnv 2 = .ok s' ∧
      ∃ h ∈ s'.chainActive, (s'.index h).nStatus.failed = true) ∧
    ∃ s, Run.run (treeStep damagedEnv) (initBlockIndex damagedEnv) [.acceptBlock { hash := 2 }] =
        .ok s ∧ ∀ fuel, s.activateBestChain damagedEnv fuel = .error .outOfFuel := by
  refine ⟨⟨_, _, rfl, rfl, 1, ?_, ?_⟩, damagedState 0, rfl, fun fuel => damaged_loop fuel 0⟩
  · decide
  · decide

end Runs

end FairCoin
