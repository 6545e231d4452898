import Mathlib
import FairCoin.StakeModifiers
import FairCoin.Lib.Picking

/-!
# The blocks behind a stake modifier

What the 64 rounds of `ComputeNextStakeModifier` of `src/kernel.cpp` select.

* `candidates` — the blocks of the window, in the order in which they are looked at.
* `selectBlockFromCandidates_eq` — the loop of a round is a pick of the cheapest candidate of a
  growing window.
* `Selection` — the blocks of some rounds, the choice of each round, and the bits they give.
* `Selection.round` — a round finds a block and adds it.
* `computeNextStakeModifier_selects` — **the next modifier never fails**, and every bit of it comes
  from the block of its round.
-/

namespace FairCoin

open Store

/-! ## Candidates -/

/-- The candidates for a block on top of `prev`. -/
def candidates (t : BlockTree) (prev : UInt256) : List (ℤ × UInt256) :=
  vSortedByTimestamp (nSelectionIntervalStart (t.index prev).nTime) ((t.path prev).map t.index)

instance : Std.Total candidateLe where
  total a b := by
    unfold candidateLe
    simp only [BitVec.le_def]
    omega

instance : IsTrans (ℤ × UInt256) candidateLe where
  trans a b c hab hbc := by
    unfold candidateLe at *
    simp only [BitVec.le_def] at *
    omega

/-- The candidates stand in the order of their times. -/
theorem candidates_sorted (t : BlockTree) (prev : UInt256) :
    (candidates t prev).Pairwise fun a b => a.1 ≤ b.1 := by
  refine (List.pairwise_insertionSort candidateLe _).imp fun {a b} hab => ?_
  rcases hab with hlt | ⟨heq, -⟩
  · exact hlt.le
  · exact heq.le

variable {k : KernelEnv} {t : BlockTree} {g prev : UInt256}

/-- What is said of a candidate is what the index has. -/
structure Indexed (t : BlockTree) (item : ℤ × UInt256) : Prop where
  lookup : t.mapBlockIndex.lookup item.2 = some (t.index item.2)
  nTime : item.1 = (t.index item.2).nTime
  self : (t.index item.2).getBlockHash = item.2

/-- A candidate is an ancestor that is not below the window. -/
theorem mem_candidates (hT : IsTree t g) (hself : ∀ h ∈ t.mapBlockIndex,
    (t.index h).getBlockHash = h) (hprev : prev ∈ t.mapBlockIndex) {item : ℤ × UInt256}
    (h : item ∈ candidates t prev) : item.2 ∈ t.path prev ∧ Indexed t item := by
  rw [candidates, vSortedByTimestamp, List.mem_insertionSort, List.mem_reverse,
    List.mem_map] at h
  obtain ⟨p, hp, rfl⟩ := h
  obtain ⟨x, hx, rfl⟩ := List.mem_map.1 ((List.takeWhile_prefix _).subset hp)
  have hxt := ParentTree.mem_of_mem_path hT.levelled hprev x hx
  obtain ⟨entry, hentry⟩ := Option.isSome_iff_exists.1 (AList.lookup_isSome.2 hxt)
  simp only [hself x hxt]
  refine ⟨hx, ?_, rfl, hself x hxt⟩
  rw [BlockTree.index, hentry]
  rfl

/-- No block is a candidate twice. -/
theorem candidates_nodup (hT : IsTree t g) (hself : ∀ h ∈ t.mapBlockIndex,
    (t.index h).getBlockHash = h) (hprev : prev ∈ t.mapBlockIndex) :
    ((candidates t prev).map Prod.snd).Nodup := by
  have hperm : ((candidates t prev).map Prod.snd).Perm
      ((((t.path prev).map t.index).takeWhile fun pindex =>
        decide (nSelectionIntervalStart (t.index prev).nTime ≤ pindex.nTime)).map
          CBlockIndex.getBlockHash) := by
    refine ((List.perm_insertionSort candidateLe _).map Prod.snd).trans ?_
    refine ((List.reverse_perm _).map Prod.snd).trans ?_
    rw [List.map_map]
    exact .refl _
  rw [hperm.nodup_iff]
  have hpath : ((t.path prev).map t.index).map CBlockIndex.getBlockHash = t.path prev := by
    rw [List.map_map]
    refine (List.map_congr_left fun x hx => ?_).trans (List.map_id _)
    exact hself x (ParentTree.mem_of_mem_path hT.levelled hprev x hx)
  have hnodup : (((t.path prev).map t.index).map CBlockIndex.getBlockHash).Nodup := by
    rw [hpath]
    exact ParentTree.nodup_path hT.levelled hprev
  exact hnodup.sublist ((List.takeWhile_prefix _).sublist.map _)

namespace KernelEnv

/-! ## One round -/

/-- The selection hash of a candidate, as a number. -/
def cost (k : KernelEnv) (t : BlockTree) (fModifierV2 : Bool) (nStakeModifierPrev : BitVec 64)
    (item : ℤ × UInt256) : ℕ :=
  (k.selectionHash fModifierV2 nStakeModifierPrev (t.index item.2)).toNat

/-- The height of the first candidate decides on the hash of all. -/
def modifierV2 (k : KernelEnv) (t : BlockTree) (items : List (ℤ × UInt256)) : Bool :=
  match items with
  | [] => false
  | item :: _ => decide (k.network.modifierUpgradeBlock ≤ (t.index item.2).nHeight)

/-- The variables of the loop say what it has found. -/
structure Carries (k : KernelEnv) (t : BlockTree) (v2 : Bool) (m : BitVec 64)
    (best : Option (ℤ × UInt256)) (s : CandidateState) : Prop where
  fFirstRun : s.fFirstRun = false
  fModifierV2 : s.fModifierV2 = v2
  fSelected : s.fSelected = best.isSome
  pindexSelected : s.pindexSelected = best.map fun item => t.index item.2
  hashBest : ∀ item, best = some item → s.hashBest.toNat = k.cost t v2 m item

/-- Membership among the selected blocks is decided as in the loop. -/
local instance selected_lawfulBEq : LawfulBEq UInt256 := inferInstance

/-- The pick of a round among the candidates that are not selected yet. -/
def pickCandidate (k : KernelEnv) (t : BlockTree) (items : List (ℤ × UInt256)) (v2 : Bool)
    (mapSelectedBlocks : List UInt256) (stop : ℤ) (m : BitVec 64) :
    Option (ℤ × UInt256) → Option (ℤ × UInt256) :=
  Picking.pick Prod.fst (k.cost t v2 m) (fun item => decide (item.2 ∈ mapSelectedBlocks)) stop items

/-- From its second candidate on the loop is a pick. -/
theorem selectLoop_eq {v2 : Bool} {m : BitVec 64} (mapSelectedBlocks : List UInt256) (stop : ℤ)
    {items : List (ℤ × UInt256)} (hidx : ∀ item ∈ items, Indexed t item) :
    ∀ {best : Option (ℤ × UInt256)} {s : CandidateState}, Carries k t v2 m best s →
      ∃ s', k.selectLoop t mapSelectedBlocks stop m items s = some s' ∧
        Carries k t v2 m (k.pickCandidate t items v2 mapSelectedBlocks stop m best) s' := by
  induction items with
  | nil => exact fun {best} {s} hs => ⟨s, rfl, hs⟩
  | cons item items ih =>
    intro best s hs
    have hitem := hidx item List.mem_cons_self
    have hrest := fun i hi => hidx i (List.mem_cons_of_mem item hi)
    rw [selectLoop, hitem.lookup, pickCandidate, Picking.pick]
    simp only [hs.fFirstRun, hs.fModifierV2, hs.fSelected, hitem.self, hitem.nTime,
      Bool.false_eq_true, if_false, decide_eq_true_eq]
    split
    · exact ⟨s, rfl, hs⟩
    · split
      · exact ih hrest hs
      · refine ih hrest ?_
        cases best with
        | none =>
          rw [if_neg (by simp)]
          refine ⟨rfl, rfl, rfl, rfl, fun i hi => ?_⟩
          cases hi
          rfl
        | some b =>
          have hb := hs.hashBest b rfl
          simp only [Picking.better, Option.isSome_some, true_and, BitVec.lt_def, hb]
          rw [show (k.selectionHash v2 m (t.index item.2)).toNat = k.cost t v2 m item from rfl]
          by_cases hlt : k.cost t v2 m item < k.cost t v2 m b
          · rw [if_neg (not_not.2 hlt), if_pos hlt]
            refine ⟨rfl, rfl, rfl, rfl, fun i hi => ?_⟩
            cases hi
            rfl
          · rw [if_pos hlt, if_neg hlt]
            exact hs

/-- **The choice of a round is a pick.** -/
theorem selectBlockFromCandidates_eq {m : BitVec 64} (mapSelectedBlocks : List UInt256) (stop : ℤ)
    {items : List (ℤ × UInt256)} (hidx : ∀ item ∈ items, Indexed t item) :
    k.selectBlockFromCandidates t items mapSelectedBlocks stop m =
      (k.pickCandidate t items (k.modifierV2 t items) mapSelectedBlocks stop m none).map
        fun item => t.index item.2 := by
  cases items with
  | nil => rfl
  | cons item items =>
    have hitem := hidx item List.mem_cons_self
    -- the first candidate sets the flag, and nothing is selected before
    have hstart : k.selectLoop t mapSelectedBlocks stop m (item :: items) {} =
        k.selectLoop t mapSelectedBlocks stop m (item :: items)
          { fModifierV2 := k.modifierV2 t (item :: items), fFirstRun := false } := by
      rw [selectLoop, selectLoop, hitem.lookup]
      simp [modifierV2]
    have hcarries : Carries k t (k.modifierV2 t (item :: items)) m none
        { fModifierV2 := k.modifierV2 t (item :: items), fFirstRun := false } :=
      ⟨rfl, rfl, rfl, rfl, fun i hi => by cases hi⟩
    obtain ⟨s', hs', hcarries'⟩ := selectLoop_eq mapSelectedBlocks stop hidx hcarries
    rw [selectBlockFromCandidates, hstart, hs']
    simp only [hcarries'.fSelected, hcarries'.pindexSelected]
    cases k.pickCandidate t (item :: items) (k.modifierV2 t (item :: items)) mapSelectedBlocks stop m
      none <;> rfl

/-! ## All rounds -/

/-- `nSelectionIntervalStop` after some rounds. -/
def intervalStop (nStart : ℤ) (rounds : ℕ) : ℤ :=
  nStart + ((List.range rounds).map getStakeModifierSelectionIntervalSection).sum

/-- The candidates that are not among the selected ones. -/
def unselected (items selected : List (ℤ × UInt256)) : List (ℤ × UInt256) :=
  items.filter fun item => !decide (item.2 ∈ selected.map Prod.snd)

/-- The blocks that some rounds have selected: distinct candidates, each the choice of its round
among those that the rounds before it left, and the bits that they give. -/
structure Selection (k : KernelEnv) (t : BlockTree) (items : List (ℤ × UInt256)) (nStart : ℤ)
    (m : BitVec 64) (selected : List (ℤ × UInt256)) (nStakeModifierNew : BitVec 64) : Prop where
  distinct : (selected.map Prod.snd).Nodup
  candidate : ∀ item ∈ selected, item ∈ items
  chosen : ∀ i item, selected[i]? = some item →
    Picking.Picked Prod.fst (k.cost t (k.modifierV2 t items) m) (intervalStop nStart (i + 1))
      (unselected items (selected.take i)) item
  bits : ∀ i item, selected[i]? = some item →
    nStakeModifierNew.getLsbD i = (t.index item.2).getStakeEntropyBit.getLsbD 0
  rest : ∀ i, selected.length ≤ i → nStakeModifierNew.getLsbD i = false

/-- The variables after some rounds. -/
structure AfterRounds (k : KernelEnv) (t : BlockTree) (items : List (ℤ × UInt256)) (nStart : ℤ)
    (m : BitVec 64) (selected : List (ℤ × UInt256)) (s : ModifierRounds) : Prop where
  stop : s.nSelectionIntervalStop = intervalStop nStart selected.length
  mem : ∀ h, h ∈ s.mapSelectedBlocks ↔ h ∈ selected.map Prod.snd
  selection : Selection k t items nStart m selected s.nStakeModifierNew

/-- As long as fewer blocks are selected than there are candidates, one is left. -/
theorem unselected_ne_nil {items selected : List (ℤ × UInt256)} (hitems : (items.map Prod.snd).Nodup)
    (hlt : selected.length < items.length) : unselected items selected ≠ [] := by
  intro hnil
  rw [unselected, List.filter_eq_nil_iff] at hnil
  have hsub : items.map Prod.snd ⊆ selected.map Prod.snd := by
    intro h hh
    obtain ⟨item, hitem, rfl⟩ := List.mem_map.1 hh
    simpa using hnil item hitem
  have hle := (hitems.subperm hsub).length_le
  rw [List.length_map, List.length_map] at hle
  omega

theorem intervalStop_succ (nStart : ℤ) (r : ℕ) : intervalStop nStart (r + 1) =
    intervalStop nStart r + getStakeModifierSelectionIntervalSection r := by
  unfold intervalStop
  rw [List.range_succ, List.map_append, List.sum_append, List.map_singleton, List.sum_singleton]
  push_cast
  omega

/-- The bit of a round, and nothing above it. -/
theorem getLsbD_entropyBit (p : CBlockIndex) (i : ℕ) :
    p.getStakeEntropyBit.getLsbD i = (decide (i = 0) && p.getStakeEntropyBit.getLsbD 0) := by
  have hone : ∀ j, (1 : BitVec 64).getLsbD j = decide (j = 0) := by
    intro j
    rw [show (1 : BitVec 64) = 1#64 from rfl, BitVec.getLsbD_one]
    simp
  unfold CBlockIndex.getStakeEntropyBit
  rw [BitVec.getLsbD_and, BitVec.getLsbD_and, hone, hone]
  by_cases hi : i = 0
  · simp [hi]
  · simp [hi]

/-- **A round finds a block** and adds it to the selection. -/
theorem AfterRounds.round {items : List (ℤ × UInt256)} {nStart : ℤ} {m : BitVec 64}
    {selected : List (ℤ × UInt256)} {s : ModifierRounds}
    (hA : AfterRounds k t items nStart m selected s) (hidx : ∀ item ∈ items, Indexed t item)
    (hsorted : items.Pairwise fun a b => a.1 ≤ b.1) (hitems : (items.map Prod.snd).Nodup)
    (hlt : selected.length < items.length) (h64 : selected.length < 64) :
    ∃ item s', k.modifierRound t items m s selected.length = some s' ∧
      AfterRounds k t items nStart m (selected ++ [item]) s' := by
  have hfilter : items.filter (fun item => !decide (item.2 ∈ s.mapSelectedBlocks)) =
      unselected items selected := by
    refine List.filter_congr fun item _ => ?_
    rw [decide_eq_decide.2 (hA.mem item.2)]
  have hne := unselected_ne_nil hitems hlt
  rw [← hfilter] at hne
  obtain ⟨item, hpick, hpicked⟩ := @Picking.pick_spec _ _ _ _ _ Prod.fst
    (k.cost t (k.modifierV2 t items) m) _ (intervalStop nStart (selected.length + 1)) _ hsorted hne
  rw [hfilter] at hpicked
  obtain ⟨hmem, hnew⟩ := List.mem_filter.1 hpicked.mem
  have hself := (hidx item hmem).self
  rw [Bool.not_eq_true', decide_eq_false_iff_not] at hnew
  have hround : k.modifierRound t items m s selected.length = some
      { nSelectionIntervalStop := intervalStop nStart (selected.length + 1)
        mapSelectedBlocks := item.2 :: s.mapSelectedBlocks
        nStakeModifierNew := s.nStakeModifierNew |||
          (t.index item.2).getStakeEntropyBit.shiftLeft selected.length } := by
    unfold modifierRound
    simp only [hA.stop, ← intervalStop_succ, selectBlockFromCandidates_eq _ _ hidx]
    rw [pickCandidate, hpick]
    simp only [Option.map_some, hself]
  have hbit : ∀ i, (s.nStakeModifierNew |||
      (t.index item.2).getStakeEntropyBit.shiftLeft selected.length).getLsbD i =
        (s.nStakeModifierNew.getLsbD i || (decide (i = selected.length) &&
          (t.index item.2).getStakeEntropyBit.getLsbD 0)) := by
    intro i
    rw [BitVec.getLsbD_or, BitVec.shiftLeft_eq, BitVec.getLsbD_shiftLeft,
      getLsbD_entropyBit _ (i - selected.length)]
    by_cases hi : i = selected.length
    · simp [hi, h64]
    · have : ¬(¬i < selected.length ∧ i - selected.length = 0) := by omega
      by_cases hlow : i < selected.length
      · simp [hi, hlow]
      · simp [hi, show i - selected.length ≠ 0 by omega]
  have hget : ∀ i x, (selected ++ [item])[i]? = some x →
      (i < selected.length ∧ selected[i]? = some x) ∨ (i = selected.length ∧ x = item) := by
    intro i x hx
    by_cases hi : i < selected.length
    · rw [List.getElem?_append_left hi] at hx
      exact .inl ⟨hi, hx⟩
    · rw [List.getElem?_append_right (by omega)] at hx
      have hi0 : i - selected.length = 0 := by
        by_contra hne
        rw [List.getElem?_eq_none (by simp; omega)] at hx
        cases hx
      rw [hi0] at hx
      cases hx
      exact .inr ⟨by omega, rfl⟩
  refine ⟨item, _, hround, ?_, fun h => ?_, ?_, fun x hx => ?_, fun i x hx => ?_,
    fun i x hx => ?_, fun i hi => ?_⟩
  · simp
  · rw [List.map_append, List.mem_append, List.mem_cons, hA.mem]
    simp [or_comm]
  · rw [List.map_append, List.nodup_append]
    refine ⟨hA.selection.distinct, List.nodup_singleton _, fun a ha b hb hab => hnew ?_⟩
    rw [← List.mem_singleton.1 hb, ← hab]
    exact ha
  · rcases List.mem_append.1 hx with hx | hx
    · exact hA.selection.candidate x hx
    · rw [List.mem_singleton.1 hx]
      exact hmem
  · rcases hget i x hx with ⟨hi, hx⟩ | ⟨rfl, rfl⟩
    · rw [List.take_append_of_le_length hi.le]
      exact hA.selection.chosen i x hx
    · rw [List.take_append_of_le_length le_rfl, List.take_length]
      exact hpicked
  · rw [hbit]
    rcases hget i x hx with ⟨hi, hx⟩ | ⟨rfl, rfl⟩
    · simp [hA.selection.bits i x hx, hi.ne]
    · simp [hA.selection.rest _ le_rfl]
  · rw [List.length_append, List.length_singleton] at hi
    rw [hbit, hA.selection.rest i (by omega)]
    simp [show i ≠ selected.length by omega]

/-- The rounds find as many blocks as there are candidates, and no more than 64. -/
theorem rounds_spec {items : List (ℤ × UInt256)} (nStart : ℤ) (m : BitVec 64)
    (hidx : ∀ item ∈ items, Indexed t item) (hsorted : items.Pairwise fun a b => a.1 ≤ b.1)
    (hitems : (items.map Prod.snd).Nodup) : ∀ n ≤ min 64 items.length, ∃ selected s,
      selected.length = n ∧ (List.range n).foldlM (k.modifierRound t items m)
        { nSelectionIntervalStop := nStart } = some s ∧
      AfterRounds k t items nStart m selected s := by
  intro n
  induction n with
  | zero =>
    intro _
    refine ⟨[], _, rfl, rfl, ?_, fun h => by simp, List.nodup_nil, by simp, by simp, by simp,
      fun i _ => by simp⟩
    simp [intervalStop]
  | succ n ih =>
    intro hn
    obtain ⟨selected, s, rfl, hfold, hA⟩ := ih (by omega)
    obtain ⟨item, s', hround, hA'⟩ := hA.round hidx hsorted hitems (by omega) (by omega)
    refine ⟨selected ++ [item], s', by simp, ?_, hA'⟩
    rw [List.range_succ, List.foldlM_append, hfold]
    simp only [Option.bind_eq_bind, Option.bind_some, List.foldlM_cons, List.foldlM_nil, hround]
    rfl

/-! ## The result -/

theorem getLastStakeModifier_isSome {chain : List CBlockIndex}
    (h : ∃ p ∈ chain, p.fStakeModifier = true) : ∃ last, getLastStakeModifier chain = some last := by
  induction chain with
  | nil =>
    obtain ⟨p, hp, -⟩ := h
    exact absurd hp List.not_mem_nil
  | cons c chain ih =>
    rw [getLastStakeModifier]
    split
    · exact ⟨_, rfl⟩
    · next hc =>
      obtain ⟨p, hp, hpm⟩ := h
      rcases List.mem_cons.1 hp with rfl | hp
      · exact absurd hpm hc
      · exact ih ⟨p, hp, hpm⟩

/-- The blocks on genesis have a generated modifier, so every block above genesis has a last one. -/
theorem Received.exists_modifier {stakemodifier : BitVec 64} {genesis : CBlock}
    {blocks : List CBlock} (h : Received k stakemodifier genesis blocks t)
    (hprev : prev ∈ t.mapBlockIndex) (hheight : (t.index prev).nHeight ≠ 0) :
    ∃ last, getLastStakeModifier ((t.path prev).map t.index) = some last := by
  have hT := h.tree
  have hpos : 1 ≤ t.height prev := by
    have := hT.nHeight_eq hprev
    omega
  obtain ⟨x, hx, hx1⟩ := ParentTree.exists_mem_path_height hT.levelled hprev 1 hpos
  have hxt := ParentTree.mem_of_mem_path hT.levelled hprev x hx
  refine getLastStakeModifier_isSome ⟨t.index x, List.mem_map.2 ⟨x, hx, rfl⟩, ?_⟩
  obtain ⟨b, hb, rfl⟩ := (h.mem x).1 hxt
  rcases List.mem_cons.1 hb with rfl | hb
  · have := (hT.height_eq_zero_iff hxt).2 rfl
    omega
  · obtain ⟨hparent, hentry⟩ := h.child b hb
    have hindex : t.index (k.getHash b) =
        (k.childIndex stakemodifier t b).raiseValidity blockValidTree := by
      rw [BlockTree.index, hentry]
      rfl
    have hlow : (t.index b.hashPrevBlock).nHeight = 0 := by
      have hnHeight := hT.nHeight_eq hxt
      rw [hindex] at hnHeight
      have hchild : (t.index b.hashPrevBlock).nHeight + 1 = (t.height (k.getHash b) : ℤ) := hnHeight
      omega
    rw [hindex]
    show (k.computeNextStakeModifier stakemodifier t (some b.hashPrevBlock)).fGeneratedStakeModifier
      = true
    unfold computeNextStakeModifier
    simp only [hlow, if_true]

/-- **The next modifier.**  On an index that a node has built from genesis, computing the modifier
for a block on top of any block of it does not fail.  When a modifier is generated above the first
block, the rounds select as many blocks as there are candidates, at most 64, all different; each
round selects, among the candidates that are left, the one of the least selection hash up to its
stop, or the first later one when there is none; and the bits of the modifier are the entropy bits
of the selected blocks, then zeros. -/
theorem computeNextStakeModifier_selects {stakemodifier : BitVec 64} {genesis : CBlock}
    {blocks : List CBlock} (received : Received k stakemodifier genesis blocks t)
    (known : prev ∈ t.mapBlockIndex) :
    (k.computeNextStakeModifier stakemodifier t (some prev)).ret = true ∧
    ((t.index prev).nHeight ≠ 0 →
      (k.computeNextStakeModifier stakemodifier t (some prev)).fGeneratedStakeModifier = true →
      ∃ m nModifierTime selected,
        getLastStakeModifier ((t.path prev).map t.index) = some (m, nModifierTime) ∧
        selected.length = min 64 (candidates t prev).length ∧
        Selection k t (candidates t prev) (nSelectionIntervalStart (t.index prev).nTime) m selected
          (k.computeNextStakeModifier stakemodifier t (some prev)).nStakeModifier) := by
  have hT := received.tree
  have hself := received.self
  by_cases hheight : (t.index prev).nHeight = 0
  · refine ⟨?_, fun hne => absurd hheight hne⟩
    unfold computeNextStakeModifier
    simp only [hheight, if_true]
  obtain ⟨⟨m, nModifierTime⟩, hlast⟩ := received.exists_modifier known hheight
  by_cases hold : (t.index prev).nTime / getIntervalVersion fTestNet ≤
      nModifierTime / getIntervalVersion fTestNet
  · -- the last modifier is not old enough
    have hnext : k.computeNextStakeModifier stakemodifier t (some prev) = ⟨true, m, false⟩ := by
      unfold computeNextStakeModifier
      simp only [hheight, if_false, hlast, hold, if_true]
    rw [hnext]
    exact ⟨rfl, fun _ h => by cases h⟩
  · obtain ⟨selected, s, hlen, hfold, hA⟩ := rounds_spec
      (nSelectionIntervalStart (t.index prev).nTime) m
      (fun item hitem => (mem_candidates hT hself known hitem).2) (candidates_sorted t prev)
      (candidates_nodup hT hself known) _ le_rfl
    have hnext : k.computeNextStakeModifier stakemodifier t (some prev) =
        ⟨true, s.nStakeModifierNew, true⟩ := by
      unfold computeNextStakeModifier
      unfold candidates at hfold
      simp only [hheight, if_false, hlast, hold]
      rw [hfold]
    rw [hnext]
    exact ⟨rfl, fun _ _ => ⟨m, nModifierTime, selected, hlast, hlen, hA.selection⟩⟩

namespace ModifierExample

/-- A block two minutes after the first. -/
def second : CBlock := { hashPrevBlock := 2, nTime := 1180, nNonce := 3, vtx := [] }

/-- The index after three blocks. -/
def threeBlocks : BlockTree := env.receive 5 genesis [first, second]

theorem threeBlocks_received : Received env 5 genesis [first, second] threeBlocks :=
  received_receive 5 (by decide) (.refl _) ⟨by decide, by decide, trivial⟩

end ModifierExample

open ModifierExample in
theorem computeNextStakeModifier_threeBlocks : ∃ m selected, selected.length = 3 ∧
    Selection env threeBlocks (candidates threeBlocks 3) (nSelectionIntervalStart 1180) m selected
      (env.computeNextStakeModifier 5 threeBlocks (some 3)).nStakeModifier := by
  have hknown : (3 : UInt256) ∈ threeBlocks.mapBlockIndex := by decide
  have hgenerated : (env.computeNextStakeModifier 5 threeBlocks
      (some 3)).fGeneratedStakeModifier = true := by decide
  obtain ⟨m, nModifierTime, selected, -, hlen, hselection⟩ :=
    (computeNextStakeModifier_selects threeBlocks_received hknown).2 (by decide) hgenerated
  exact ⟨m, selected, hlen, hselection⟩

end KernelEnv

end FairCoin
