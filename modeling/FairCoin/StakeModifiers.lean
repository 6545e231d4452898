import FairCoin.Ancestors
import FairCoin.Targets
import FairCoin.Lib.Codec
import Mathlib.Data.List.Sort

/-!
# Stake modifiers

`ComputeNextStakeModifier` of `src/kernel.cpp` and `AddToBlockIndex` of `src/main.cpp`, which
gives every new entry of the block index its stake modifier.

* `computeNextStakeModifier` — 64 rounds, each of which selects a block of the window and takes
  its entropy bit.
* `addToBlockIndex` — a block enters the index on top of its parent.
* `Received` — what the index holds after the blocks of a tree: one entry for each, made from its
  own ancestors.
* `Received.agree` — with one value for the literal, **the index does not depend on the order** in
  which the blocks arrive.
* `stakeModifiers_agree_iff` — two nodes agree exactly when the literal `"stakemodifier"` has the
  same address in both, or there is nothing above genesis.

The modifier of the first block above genesis is `uint64_t("stakemodifier")`: the address of a
string literal, a value of the process.
-/

namespace FairCoin

open Store

/-! ## Intervals -/

/-- `MODIFIER_INTERVAL`. -/
def modifierInterval : ℕ := 60

/-- `MODIFIER_INTERVAL_TESTNET`. -/
def modifierIntervalTestnet : ℕ := 60

/-- `MODIFIER_INTERVAL_RATIO`. -/
def modifierIntervalRatio : ℕ := 3

/-- The global `fTestNet` of `src/kernel.cpp`, which nothing sets. -/
def fTestNet : Bool := false

/-- `getIntervalVersion`. -/
def getIntervalVersion (fTestNet : Bool) : ℕ :=
  if fTestNet then modifierIntervalTestnet else modifierInterval

/-- `GetStakeModifierSelectionIntervalSection`. -/
def getStakeModifierSelectionIntervalSection (nSection : ℕ) : ℕ :=
  getIntervalVersion fTestNet * 63 / (63 + (63 - nSection) * (modifierIntervalRatio - 1))

/-- `GetStakeModifierSelectionInterval`. -/
def getStakeModifierSelectionInterval : ℕ :=
  ((List.range 64).map getStakeModifierSelectionIntervalSection).sum

/-- `ModifierUpgradeBlock()`. -/
def Network.modifierUpgradeBlock : Network → ℤ
  | .main | .unittest => 615800
  | .testnet | .regtest => 51197

/-! ## The selection of a block -/

/-- What the index and the kernel read besides the tree: the network's parameters, the hash of a
header, and `Hash` of the bytes of a stream. -/
structure KernelEnv where
  network : Network
  blockHash : CBlockHeader → UInt256
  hash : List UInt8 → UInt256

/-- `GetStakeEntropyBit`: the lowest bit of the hash. -/
def CBlockIndex.getStakeEntropyBit (pindex : CBlockIndex) : BitVec 64 :=
  pindex.getBlockHash.setWidth 64 &&& 1

/-- `GetLastStakeModifier`, over a block and its ancestors: the modifier and the time of the last
one that was generated. -/
def getLastStakeModifier : List CBlockIndex → Option (BitVec 64 × ℕ)
  | [] => none
  | pindex :: chain =>
      if pindex.fStakeModifier then some (pindex.nStakeModifier, pindex.nTime)
      else getLastStakeModifier chain

/-- The variables of `SelectBlockFromCandidates`. -/
structure CandidateState where
  fModifierV2 : Bool := false
  fFirstRun : Bool := true
  fSelected : Bool := false
  hashBest : UInt256 := 0
  pindexSelected : Option CBlockIndex := none

namespace KernelEnv

variable (k : KernelEnv)

/-- `CBlock::GetHash`. -/
def getHash (block : CBlock) : UInt256 := k.blockHash block.toCBlockHeader

/-- The selection hash of a candidate; that of a proof-of-stake block is shifted down. -/
def selectionHash (fModifierV2 : Bool) (nStakeModifierPrev : BitVec 64) (pindex : CBlockIndex) :
    UInt256 :=
  let hashProof : UInt256 :=
    if fModifierV2 then pindex.getBlockHash
    else if pindex.fProofOfStake then 0 else pindex.getBlockHash
  let hashSelection :=
    k.hash (Codec.putLE 32 hashProof.toNat ++ Codec.putLE 8 nStakeModifierPrev.toNat)
  if pindex.fProofOfStake then hashSelection >>> 32 else hashSelection

/-- Membership in `mapSelectedBlocks` is decided by the equality of hashes. -/
local instance kernel_lawfulBEq : LawfulBEq UInt256 := inferInstance

/-- The loop of `SelectBlockFromCandidates`; a candidate that is not in the index ends it with an
error. -/
def selectLoop (t : BlockTree) (mapSelectedBlocks : List UInt256) (nSelectionIntervalStop : ℤ)
    (nStakeModifierPrev : BitVec 64) :
    List (ℤ × UInt256) → CandidateState → Option CandidateState
  | [], s => some s
  | item :: items, s =>
      match t.mapBlockIndex.lookup item.2 with
      | none => none
      | some pindex =>
          if s.fSelected ∧ nSelectionIntervalStop < pindex.nTime then some s
          else
            -- the height of the first candidate decides which hash is used for all of them
            let s := if s.fFirstRun then
              { s with fModifierV2 := decide (k.network.modifierUpgradeBlock ≤ pindex.nHeight)
                       fFirstRun := false } else s
            if pindex.getBlockHash ∈ mapSelectedBlocks then
              selectLoop t mapSelectedBlocks nSelectionIntervalStop nStakeModifierPrev items s
            else
              let hashSelection := k.selectionHash s.fModifierV2 nStakeModifierPrev pindex
              selectLoop t mapSelectedBlocks nSelectionIntervalStop nStakeModifierPrev items
                (if s.fSelected ∧ ¬hashSelection < s.hashBest then s
                 else { s with fSelected := true
                               hashBest := hashSelection
                               pindexSelected := some pindex })

/-- `SelectBlockFromCandidates`. -/
def selectBlockFromCandidates (t : BlockTree) (vSortedByTimestamp : List (ℤ × UInt256))
    (mapSelectedBlocks : List UInt256) (nSelectionIntervalStop : ℤ)
    (nStakeModifierPrev : BitVec 64) : Option CBlockIndex :=
  match k.selectLoop t mapSelectedBlocks nSelectionIntervalStop nStakeModifierPrev
      vSortedByTimestamp {} with
  | some s => if s.fSelected then s.pindexSelected else none
  | none => none

end KernelEnv

/-! ## The next modifier -/

/-- What `ComputeNextStakeModifier` returns and sets. -/
structure NextModifier where
  ret : Bool
  nStakeModifier : BitVec 64
  fGeneratedStakeModifier : Bool
  deriving DecidableEq, Repr

/-- The variables of the rounds of `ComputeNextStakeModifier`. -/
structure ModifierRounds where
  nSelectionIntervalStop : ℤ
  mapSelectedBlocks : List UInt256 := []
  nStakeModifierNew : BitVec 64 := 0

/-- `operator<` of the pairs of time and hash, as the order they are sorted in. -/
def candidateLe (a b : ℤ × UInt256) : Prop := a.1 < b.1 ∨ a.1 = b.1 ∧ a.2 ≤ b.2

instance : DecidableRel candidateLe := fun _ _ => inferInstanceAs (Decidable (_ ∨ _))

/-- `nSelectionIntervalStart` for a block at this time. -/
def nSelectionIntervalStart (nTime : ℕ) : ℤ :=
  ((nTime / getIntervalVersion fTestNet * getIntervalVersion fTestNet : ℕ) : ℤ) -
    getStakeModifierSelectionInterval

/-- `vSortedByTimestamp`: the blocks of the window, among a block and its ancestors, sorted. -/
def vSortedByTimestamp (nStart : ℤ) (chain : List CBlockIndex) : List (ℤ × UInt256) :=
  ((chain.takeWhile fun pindex => decide (nStart ≤ pindex.nTime)).map fun pindex =>
    ((pindex.nTime : ℤ), pindex.getBlockHash)).reverse.insertionSort candidateLe

namespace KernelEnv

variable (k : KernelEnv)

/-- A round of `ComputeNextStakeModifier`. -/
def modifierRound (t : BlockTree) (vSortedByTimestamp : List (ℤ × UInt256))
    (nStakeModifier : BitVec 64) (s : ModifierRounds) (nRound : ℕ) : Option ModifierRounds :=
  let nSelectionIntervalStop :=
    s.nSelectionIntervalStop + getStakeModifierSelectionIntervalSection nRound
  (k.selectBlockFromCandidates t vSortedByTimestamp s.mapSelectedBlocks nSelectionIntervalStop
    nStakeModifier).map fun pindex =>
      { nSelectionIntervalStop := nSelectionIntervalStop
        mapSelectedBlocks := pindex.getBlockHash :: s.mapSelectedBlocks
        nStakeModifierNew := s.nStakeModifierNew ||| pindex.getStakeEntropyBit.shiftLeft nRound }

/-- `ComputeNextStakeModifier` in a process where the literal `"stakemodifier"` is at an address. -/
def computeNextStakeModifier (stakemodifier : BitVec 64) (t : BlockTree)
    (pindexPrev : Option UInt256) : NextModifier :=
  match pindexPrev with
  | none => ⟨true, 0, true⟩
  | some prev =>
      if (t.index prev).nHeight = 0 then ⟨true, stakemodifier, true⟩
      else
        let chain := (t.path prev).map t.index
        match getLastStakeModifier chain with
        | none => ⟨false, 0, false⟩
        | some (nStakeModifier, nModifierTime) =>
            if (t.index prev).nTime / getIntervalVersion fTestNet ≤
                nModifierTime / getIntervalVersion fTestNet then ⟨true, nStakeModifier, false⟩
            else
              let nStart := nSelectionIntervalStart (t.index prev).nTime
              let vSorted := vSortedByTimestamp nStart chain
              match (List.range (min 64 vSorted.length)).foldlM
                  (k.modifierRound t vSorted nStakeModifier)
                  { nSelectionIntervalStop := nStart } with
              | none => ⟨false, nStakeModifier, false⟩
              | some s => ⟨true, s.nStakeModifierNew, true⟩

/-! ## The block index -/

/-- `CBlockIndex(block)`. -/
def newBlockIndex (block : CBlock) : CBlockIndex where
  nVersion := block.nVersion
  hashMerkleRoot := block.hashMerkleRoot
  nTime := block.nTime
  nBits := block.nBits
  nNonce := block.nNonce
  fProofOfStake := block.isProofOfStake
  prevoutStake :=
    if block.isProofOfStake then
      ((block.vtx[1]?.bind fun tx => tx.vin.head?).map CTxIn.prevout).getD ⟨0, 4294967295⟩
    else ⟨0, 4294967295⟩
  nStakeTime := if block.isProofOfStake then block.nTime else 0

/-- The entry of a block on top of its parent, in `AddToBlockIndex`. -/
def childIndex (stakemodifier : BitVec 64) (t : BlockTree) (block : CBlock) : CBlockIndex :=
  let prev := t.index block.hashPrevBlock
  let pindexNew := newBlockIndex block
  let next := k.computeNextStakeModifier stakemodifier t (some block.hashPrevBlock)
  { pindexNew with
    phashBlock := some (k.getHash block)
    pprev := some block.hashPrevBlock
    nHeight := prev.nHeight + 1
    pskip := t.getAncestor block.hashPrevBlock (getSkipHeight (prev.nHeight + 1).toNat)
    fStakeEntropy := decide ((k.getHash block).setWidth 64 &&& 1 = 1#64)
    nStakeModifier := next.nStakeModifier
    fStakeModifier := next.fGeneratedStakeModifier
    nChainWork := (prev.nChainWork + (getBlockProof pindexNew).toNat) % 2 ^ 256 }

/-- The entry of a block whose parent is not in the index. -/
def rootIndex (block : CBlock) : CBlockIndex :=
  { newBlockIndex block with
    phashBlock := some (k.getHash block)
    nChainWork := (getBlockProof (newBlockIndex block)).toNat }

/-- `AddToBlockIndex`; a block is not its own parent. -/
def addToBlockIndex (stakemodifier : BitVec 64) (t : BlockTree) (block : CBlock) : BlockTree :=
  if k.getHash block ∈ t.mapBlockIndex then t
  else
    let pindexNew := if block.hashPrevBlock ∈ t.mapBlockIndex then k.childIndex stakemodifier t block
      else k.rootIndex block
    { t with mapBlockIndex :=
        t.mapBlockIndex.insert (k.getHash block) (pindexNew.raiseValidity blockValidTree) }

/-- The index after a node has received genesis and then other blocks. -/
def receive (stakemodifier : BitVec 64) (genesis : CBlock) (blocks : List CBlock) : BlockTree :=
  (genesis :: blocks).foldl (k.addToBlockIndex stakemodifier) {}

/-! ## What a modifier depends on -/

variable {k} {t t' : BlockTree} {g : UInt256}

theorem selectLoop_congr (mapSelectedBlocks : List UInt256) (nSelectionIntervalStop : ℤ)
    (nStakeModifierPrev : BitVec 64) {items : List (ℤ × UInt256)}
    (h : ∀ item ∈ items, t'.mapBlockIndex.lookup item.2 = t.mapBlockIndex.lookup item.2) :
    ∀ s, k.selectLoop t' mapSelectedBlocks nSelectionIntervalStop nStakeModifierPrev items s =
      k.selectLoop t mapSelectedBlocks nSelectionIntervalStop nStakeModifierPrev items s := by
  induction items with
  | nil => exact fun _ => rfl
  | cons item items ih =>
    intro s
    have ih := ih fun i hi => h i (List.mem_cons_of_mem _ hi)
    rw [selectLoop, selectLoop, h item List.mem_cons_self]
    simp only [ih]

theorem modifierRound_congr {vSorted : List (ℤ × UInt256)}
    (h : ∀ item ∈ vSorted, t'.mapBlockIndex.lookup item.2 = t.mapBlockIndex.lookup item.2)
    (nStakeModifier : BitVec 64) :
    k.modifierRound t' vSorted nStakeModifier = k.modifierRound t vSorted nStakeModifier := by
  funext s nRound
  unfold modifierRound selectBlockFromCandidates
  simp only [selectLoop_congr _ _ _ h]

theorem mem_vSortedByTimestamp {nStart : ℤ} {chain : List CBlockIndex} {item : ℤ × UInt256}
    (h : item ∈ vSortedByTimestamp nStart chain) : ∃ p ∈ chain, item.2 = p.getBlockHash := by
  rw [vSortedByTimestamp, (List.perm_insertionSort _ _).mem_iff, List.mem_reverse,
    List.mem_map] at h
  obtain ⟨p, hp, rfl⟩ := h
  exact ⟨p, (List.takeWhile_prefix _).subset hp, rfl⟩

/-- **A modifier depends on the ancestors only**: on the entries of the path of the parent. -/
theorem computeNextStakeModifier_congr (stakemodifier : BitVec 64) {prev : UInt256}
    (hself : ∀ x ∈ t.path prev, (t.index x).getBlockHash = x)
    (hpath : t'.path prev = t.path prev)
    (hentry : ∀ x ∈ t.path prev, t'.mapBlockIndex.lookup x = t.mapBlockIndex.lookup x) :
    k.computeNextStakeModifier stakemodifier t' (some prev) =
      k.computeNextStakeModifier stakemodifier t (some prev) := by
  have hindex : ∀ x ∈ t.path prev, t'.index x = t.index x := by
    intro x hx
    rw [BlockTree.index, hentry x hx, BlockTree.index]
  have hchain : (t'.path prev).map t'.index = (t.path prev).map t.index := by
    rw [hpath]
    exact List.map_congr_left hindex
  have hlookup : ∀ nStart, ∀ item ∈ vSortedByTimestamp nStart ((t.path prev).map t.index),
      t'.mapBlockIndex.lookup item.2 = t.mapBlockIndex.lookup item.2 := by
    intro nStart item hitem
    obtain ⟨p, hp, heq⟩ := mem_vSortedByTimestamp hitem
    obtain ⟨x, hx, rfl⟩ := List.mem_map.1 hp
    rw [heq, hself x hx]
    exact hentry x hx
  unfold computeNextStakeModifier
  simp only [hindex prev (ParentTree.self_mem_path prev), hchain,
    modifierRound_congr (hlookup _) _]

/-- The entry of a block depends on the entries of its ancestors only. -/
theorem childIndex_congr (stakemodifier : BitVec 64) {block : CBlock} (hT : IsTree t g)
    (hT' : IsTree t' g) (hmem : block.hashPrevBlock ∈ t.mapBlockIndex)
    (hmem' : block.hashPrevBlock ∈ t'.mapBlockIndex)
    (hself : ∀ x ∈ t.path block.hashPrevBlock, (t.index x).getBlockHash = x)
    (hpath : t'.path block.hashPrevBlock = t.path block.hashPrevBlock)
    (hentry : ∀ x ∈ t.path block.hashPrevBlock,
      t'.mapBlockIndex.lookup x = t.mapBlockIndex.lookup x) :
    k.childIndex stakemodifier t' block = k.childIndex stakemodifier t block := by
  have hindex : ∀ x ∈ t.path block.hashPrevBlock, t'.index x = t.index x := by
    intro x hx
    rw [BlockTree.index, hentry x hx, BlockTree.index]
  have hprev := hindex _ (ParentTree.self_mem_path _)
  have hskip : ∀ n, t'.getAncestor block.hashPrevBlock n = t.getAncestor block.hashPrevBlock n := by
    intro n
    refine Option.ext fun x => ?_
    rw [hT'.getAncestor_eq_some_iff hmem', hT.getAncestor_eq_some_iff hmem, hpath]
    exact and_congr_right fun hx => by rw [hindex x hx]
  unfold childIndex
  simp only [hprev, hskip, computeNextStakeModifier_congr stakemodifier hself hpath hentry]

/-! ## The index after some blocks -/

theorem index_addToBlockIndex (stakemodifier : BitVec 64) {block : CBlock}
    (hfresh : k.getHash block ∉ t.mapBlockIndex) (hknown : block.hashPrevBlock ∈ t.mapBlockIndex) :
    (k.addToBlockIndex stakemodifier t block).mapBlockIndex =
      t.mapBlockIndex.insert (k.getHash block)
        ((k.childIndex stakemodifier t block).raiseValidity blockValidTree) := by
  rw [addToBlockIndex, if_neg hfresh, if_pos hknown]

theorem grows_addToBlockIndex (stakemodifier : BitVec 64) {block : CBlock}
    (hfresh : k.getHash block ∉ t.mapBlockIndex) (hknown : block.hashPrevBlock ∈ t.mapBlockIndex) :
    t.Grows (k.addToBlockIndex stakemodifier t block) (k.getHash block) block.hashPrevBlock := by
  have hmap := index_addToBlockIndex stakemodifier hfresh hknown
  have hnew : (k.addToBlockIndex stakemodifier t block).index (k.getHash block) =
      (k.childIndex stakemodifier t block).raiseValidity blockValidTree := by
    rw [BlockTree.index, hmap, AList.lookup_insert, Option.getD_some]
  refine ⟨hfresh, hknown, fun x => by rw [hmap, AList.mem_insert], fun x hx => ?_, ?_, ?_, ?_⟩
  · rw [BlockTree.index, hmap, AList.lookup_insert_ne hx, BlockTree.index]
  all_goals rw [hnew]; rfl

/-- **The index after genesis and some blocks**: a tree over genesis with one entry for each block,
made from the entries of its ancestors. -/
structure Received (k : KernelEnv) (stakemodifier : BitVec 64) (genesis : CBlock)
    (blocks : List CBlock) (t : BlockTree) : Prop where
  tree : IsTree t (k.getHash genesis)
  mem : ∀ h, h ∈ t.mapBlockIndex ↔ ∃ b ∈ genesis :: blocks, k.getHash b = h
  self : ∀ h ∈ t.mapBlockIndex, (t.index h).getBlockHash = h
  root : t.mapBlockIndex.lookup (k.getHash genesis) =
    some ((k.rootIndex genesis).raiseValidity blockValidTree)
  child : ∀ b ∈ blocks, b.hashPrevBlock ∈ t.mapBlockIndex ∧
    t.mapBlockIndex.lookup (k.getHash b) =
      some ((k.childIndex stakemodifier t b).raiseValidity blockValidTree)

/-- Every block stands on genesis or on a block before it. -/
def ParentFirst (k : KernelEnv) : List UInt256 → List CBlock → Prop
  | _, [] => True
  | known, block :: blocks =>
      block.hashPrevBlock ∈ known ∧ ParentFirst k (k.getHash block :: known) blocks

namespace Received

variable {stakemodifier : BitVec 64} {genesis : CBlock} {blocks blocks' : List CBlock}

theorem genesis_start : Received k stakemodifier genesis []
    (k.addToBlockIndex stakemodifier {} genesis) := by
  have hmap : (k.addToBlockIndex stakemodifier {} genesis).mapBlockIndex =
      (∅ : Map UInt256 CBlockIndex).insert (k.getHash genesis)
        ((k.rootIndex genesis).raiseValidity blockValidTree) := by
    rw [addToBlockIndex, if_neg (AList.notMem_empty _), if_neg (AList.notMem_empty _)]
  have hmem : ∀ h, h ∈ (k.addToBlockIndex stakemodifier {} genesis).mapBlockIndex ↔
      h = k.getHash genesis := by
    intro h
    rw [hmap, AList.mem_insert]
    simp [AList.notMem_empty]
  have hroot : (k.addToBlockIndex stakemodifier {} genesis).index (k.getHash genesis) =
      (k.rootIndex genesis).raiseValidity blockValidTree := by
    rw [BlockTree.index, hmap, AList.lookup_insert, Option.getD_some]
  refine ⟨⟨(hmem _).2 rfl, ?_, ?_, ?_, ?_, ?_⟩, ?_, ?_, ?_, ?_⟩
  · rw [hroot]; rfl
  · rw [hroot]; rfl
  · intro h hh
    rw [(hmem h).1 hh, hroot]
    exact le_rfl
  · exact fun h hh hne => absurd ((hmem h).1 hh) hne
  · exact fun h hh hne => absurd ((hmem h).1 hh) hne
  · intro h
    rw [hmem]
    simp [eq_comm]
  · intro h hh
    rw [(hmem h).1 hh, hroot]
    rfl
  · rw [hmap, AList.lookup_insert]
  · simp

theorem self_path (h : Received k stakemodifier genesis blocks t) {x : UInt256}
    (hx : x ∈ t.mapBlockIndex) : ∀ y ∈ t.path x, (t.index y).getBlockHash = y :=
  fun y hy => h.self y (ParentTree.mem_of_mem_path h.tree.levelled hx y hy)

/-- A block arrives on top of one that is there. -/
theorem add (h : Received k stakemodifier genesis blocks t) {block : CBlock}
    (hfresh : k.getHash block ∉ t.mapBlockIndex) (hknown : block.hashPrevBlock ∈ t.mapBlockIndex) :
    Received k stakemodifier genesis (blocks ++ [block])
      (k.addToBlockIndex stakemodifier t block) := by
  have hmap := index_addToBlockIndex (k := k) stakemodifier hfresh hknown
  have hG := grows_addToBlockIndex (k := k) stakemodifier hfresh hknown
  have hT := hG.isTree h.tree
  have hold : ∀ x ∈ t.mapBlockIndex,
      (k.addToBlockIndex stakemodifier t block).mapBlockIndex.lookup x =
        t.mapBlockIndex.lookup x := by
    intro x hx
    rw [hmap, AList.lookup_insert_ne (hG.ne hx)]
  -- the entry of a block on one that was there is what it would have been before
  have hkeep : ∀ b : CBlock, b.hashPrevBlock ∈ t.mapBlockIndex →
      k.childIndex stakemodifier (k.addToBlockIndex stakemodifier t block) b =
        k.childIndex stakemodifier t b := by
    intro b hb
    refine childIndex_congr stakemodifier h.tree hT hb ((hG.mem _).2 (.inr hb)) (h.self_path hb)
      (hG.path_old h.tree hb) fun x hx => hold x ?_
    exact ParentTree.mem_of_mem_path h.tree.levelled hb x hx
  refine ⟨hT, fun x => ?_, fun x hx => ?_, ?_, fun b hb => ?_⟩
  · rw [hG.mem, h.mem, ← List.cons_append]
    simp only [List.mem_append, List.mem_singleton]
    constructor
    · rintro (rfl | ⟨b, hb, rfl⟩)
      · exact ⟨block, .inr rfl, rfl⟩
      · exact ⟨b, .inl hb, rfl⟩
    · rintro ⟨b, hb | rfl, rfl⟩
      · exact .inr ⟨b, hb, rfl⟩
      · exact .inl rfl
  · rcases (hG.mem x).1 hx with rfl | hx
    · rw [BlockTree.index, hmap, AList.lookup_insert]
      rfl
    · rw [hG.index x (hG.ne hx)]
      exact h.self x hx
  · rw [hold _ h.tree.mem_genesis]
    exact h.root
  · rcases List.mem_append.1 hb with hb | hb
    · obtain ⟨hprev, hentry⟩ := h.child b hb
      refine ⟨(hG.mem _).2 (.inr hprev), ?_⟩
      rw [hold _ ((h.mem _).2 ⟨b, List.mem_cons_of_mem _ hb, rfl⟩), hkeep b hprev]
      exact hentry
    · obtain rfl := List.mem_singleton.1 hb
      refine ⟨(hG.mem _).2 (.inr hknown), ?_⟩
      rw [hkeep b hknown, hmap, AList.lookup_insert]

/-- Blocks arrive parent-first. -/
theorem run : ∀ {blocks' : List CBlock} {known : List UInt256} {blocks : List CBlock}
    {t : BlockTree}, Received k stakemodifier genesis blocks t →
    (∀ h ∈ known, h ∈ t.mapBlockIndex) → ParentFirst k known blocks' →
    (∀ b ∈ blocks', k.getHash b ∉ t.mapBlockIndex) → (blocks'.map k.getHash).Nodup →
    Received k stakemodifier genesis (blocks ++ blocks')
      (blocks'.foldl (k.addToBlockIndex stakemodifier) t) := by
  intro blocks'
  induction blocks' with
  | nil =>
    intro known blocks t h _ _ _ _
    rw [List.append_nil]
    exact h
  | cons b bs ih =>
    intro known blocks t h hknown hfirst hfresh hnodup
    have hprev := hknown _ hfirst.1
    have hnew := hfresh b List.mem_cons_self
    have hG := grows_addToBlockIndex (k := k) stakemodifier hnew hprev
    rw [List.map_cons, List.nodup_cons] at hnodup
    rw [List.foldl_cons, List.append_cons]
    refine ih (h.add hnew hprev) (fun x hx => ?_) hfirst.2 (fun b' hb' hmem => ?_) hnodup.2
    · rcases List.mem_cons.1 hx with rfl | hx
      · exact (hG.mem _).2 (.inl rfl)
      · exact (hG.mem _).2 (.inr (hknown x hx))
    · rcases (hG.mem _).1 hmem with heq | hmem
      · exact hnodup.1 (List.mem_map.2 ⟨b', hb', heq⟩)
      · exact hfresh b' (List.mem_cons_of_mem _ hb') hmem

/-- **The order does not matter.**  Two nodes with the same value for the literal that have
received the same blocks have the same index. -/
theorem agree (h : Received k stakemodifier genesis blocks t)
    (h' : Received k stakemodifier genesis blocks' t') (hsame : ∀ b, b ∈ blocks' ↔ b ∈ blocks)
    (hash : UInt256) : t'.mapBlockIndex.lookup hash = t.mapBlockIndex.lookup hash := by
  have hmem : ∀ x, x ∈ t'.mapBlockIndex ↔ x ∈ t.mapBlockIndex := by
    intro x
    rw [h.mem, h'.mem]
    simp [hsame]
  suffices hall : ∀ x ∈ t.mapBlockIndex, t'.path x = t.path x ∧
      ∀ y ∈ t.path x, t'.mapBlockIndex.lookup y = t.mapBlockIndex.lookup y by
    by_cases hx : hash ∈ t.mapBlockIndex
    · exact (hall hash hx).2 hash (ParentTree.self_mem_path hash)
    · rw [AList.lookup_eq_none.2 hx, AList.lookup_eq_none.2 fun hx' => hx ((hmem hash).1 hx')]
  have hL := h.tree.levelled
  have hL' := h'.tree.levelled
  intro x hx
  induction x, hx using hL.induction with
  | root x hx hp =>
    obtain rfl := (h.tree.pprev_eq_none_iff hx).1 hp
    have hlookup := h'.root.trans h.root.symm
    have hp' : t'.parent (k.getHash genesis) = none := h'.tree.pprev_genesis
    have hpath : t.path (k.getHash genesis) = [k.getHash genesis] := ParentTree.path_of_root hL hx hp
    refine ⟨?_, fun y hy => ?_⟩
    · rw [hpath]
      exact ParentTree.path_of_root hL' ((hmem _).2 hx) hp'
    · rw [hpath, List.mem_singleton] at hy
      rw [hy]
      exact hlookup
  | child x hx p hp ih =>
    have hne : x ≠ k.getHash genesis := by
      intro heq
      have hnone : t.parent x = none := (h.tree.pprev_eq_none_iff hx).2 heq
      exact absurd (hnone.symm.trans hp) (by simp)
    obtain ⟨b, hb, rfl⟩ := (h.mem x).1 hx
    have hb : b ∈ blocks := (List.mem_cons.1 hb).resolve_left fun heq => hne (by rw [heq])
    obtain ⟨hprev, hentry⟩ := h.child b hb
    obtain ⟨hprev', hentry'⟩ := h'.child b ((hsame b).2 hb)
    have hparent : t.parent (k.getHash b) = some b.hashPrevBlock := by
      rw [BlockTree.parent, BlockTree.index, hentry]
      rfl
    have hparent' : t'.parent (k.getHash b) = some b.hashPrevBlock := by
      rw [BlockTree.parent, BlockTree.index, hentry']
      rfl
    obtain rfl : b.hashPrevBlock = p := Option.some.inj (hparent.symm.trans hp)
    obtain ⟨hpath, hlookup⟩ := ih
    have hsameEntry : t'.mapBlockIndex.lookup (k.getHash b) =
        t.mapBlockIndex.lookup (k.getHash b) := by
      rw [hentry, hentry', childIndex_congr stakemodifier h.tree h'.tree hprev hprev'
        (h.self_path hprev) hpath hlookup]
    have hcons : t.path (k.getHash b) = k.getHash b :: t.path b.hashPrevBlock :=
      ParentTree.path_of_parent hL hx hparent
    refine ⟨?_, fun y hy => ?_⟩
    · rw [hcons, ← hpath]
      exact ParentTree.path_of_parent hL' ((hmem _).2 hx) hparent'
    · rw [hcons] at hy
      rcases List.mem_cons.1 hy with rfl | hy
      · exact hsameEntry
      · exact hlookup y hy

end Received

/-- What a node has received from genesis on. -/
theorem received_receive (stakemodifier : BitVec 64) {genesis : CBlock} {blocks l : List CBlock}
    (hdistinct : ((genesis :: blocks).map k.getHash).Nodup) (hperm : l.Perm blocks)
    (hfirst : ParentFirst k [k.getHash genesis] l) :
    Received k stakemodifier genesis l (k.receive stakemodifier genesis l) := by
  have hnodup : ((genesis :: l).map k.getHash).Nodup :=
    (((hperm.cons genesis).map k.getHash).nodup_iff).2 hdistinct
  rw [List.map_cons, List.nodup_cons] at hnodup
  have hstart : Received k stakemodifier genesis [] (k.addToBlockIndex stakemodifier {} genesis) :=
    Received.genesis_start
  rw [receive, List.foldl_cons]
  refine hstart.run (fun h hh => ?_) hfirst (fun b hb hmem => ?_) hnodup.2
  · rw [List.mem_singleton.1 hh]
    exact hstart.tree.mem_genesis
  · obtain ⟨b', hb', heq⟩ := (hstart.mem _).1 hmem
    rw [List.mem_singleton.1 hb'] at heq
    exact hnodup.1 (List.mem_map.2 ⟨b, hb, heq.symm⟩)

/-- The modifier of a block and its flag `BLOCK_STAKE_MODIFIER`. -/
def stakeModifierOf (t : BlockTree) (hash : UInt256) : Option (BitVec 64 × Bool) :=
  (t.mapBlockIndex.lookup hash).map fun pindex => (pindex.nStakeModifier, pindex.fStakeModifier)

/-- The two nodes give every block the same modifier and the same flag, in whatever order each of
them receives the blocks of the tree. -/
def ModifiersAgree (k : KernelEnv) (stakemodifier₁ stakemodifier₂ : BitVec 64) (genesis : CBlock)
    (blocks : List CBlock) : Prop :=
  ∀ l₁ l₂ : List CBlock, l₁.Perm blocks → ParentFirst k [k.getHash genesis] l₁ →
    l₂.Perm blocks → ParentFirst k [k.getHash genesis] l₂ → ∀ hash,
      stakeModifierOf (k.receive stakemodifier₁ genesis l₁) hash =
        stakeModifierOf (k.receive stakemodifier₂ genesis l₂) hash

/-- The modifier of a block on genesis is the value of the literal. -/
theorem Received.first_modifier {stakemodifier : BitVec 64} {genesis block : CBlock}
    {blocks : List CBlock} (h : Received k stakemodifier genesis blocks t) (hb : block ∈ blocks)
    (hprev : block.hashPrevBlock = k.getHash genesis) :
    stakeModifierOf t (k.getHash block) = some (stakemodifier, true) := by
  have hheight := h.tree.nHeight_genesis
  rw [stakeModifierOf, (h.child block hb).2]
  have hnext : k.computeNextStakeModifier stakemodifier t (some block.hashPrevBlock) =
      ⟨true, stakemodifier, true⟩ := by
    unfold computeNextStakeModifier
    simp only [hprev, hheight, if_true]
  show some ((k.childIndex stakemodifier t block).nStakeModifier,
    (k.childIndex stakemodifier t block).fStakeModifier) = _
  unfold childIndex
  simp only [hnext]

/-- **When two nodes agree on the stake modifiers** of a block tree: when the literal has the same
address in both processes, or nothing stands on genesis. -/
theorem stakeModifiers_agree_iff (k : KernelEnv) (stakemodifier₁ stakemodifier₂ : BitVec 64)
    (genesis : CBlock) (blocks : List CBlock)
    (hdistinct : ((genesis :: blocks).map k.getHash).Nodup)
    (hfirst : ParentFirst k [k.getHash genesis] blocks) :
    ModifiersAgree k stakemodifier₁ stakemodifier₂ genesis blocks ↔
      stakemodifier₁ = stakemodifier₂ ∨ blocks = [] := by
  constructor
  · intro hagree
    cases blocks with
    | nil => exact .inr rfl
    | cons b bs =>
      have hprev : b.hashPrevBlock = k.getHash genesis := List.mem_singleton.1 hfirst.1
      have hsame := hagree _ _ (.refl _) hfirst (.refl _) hfirst (k.getHash b)
      rw [(received_receive stakemodifier₁ hdistinct (.refl _) hfirst).first_modifier
          List.mem_cons_self hprev,
        (received_receive stakemodifier₂ hdistinct (.refl _) hfirst).first_modifier
          List.mem_cons_self hprev] at hsame
      exact .inl (Prod.mk.inj (Option.some.inj hsame)).1
  · rintro hcase l₁ l₂ hperm₁ hfirst₁ hperm₂ hfirst₂ hash
    have h₁ := received_receive stakemodifier₁ hdistinct hperm₁ hfirst₁
    have h₂ := received_receive stakemodifier₂ hdistinct hperm₂ hfirst₂
    rcases hcase with rfl | rfl
    · have hsame : ∀ b, b ∈ l₂ ↔ b ∈ l₁ := fun b => (hperm₂.trans hperm₁.symm).mem_iff
      rw [stakeModifierOf, stakeModifierOf, h₁.agree h₂ hsame]
    · -- genesis has the modifier zero in every process
      obtain rfl := List.perm_nil.1 hperm₁
      obtain rfl := List.perm_nil.1 hperm₂
      rfl

/-! ## Two processes -/

namespace ModifierExample

/-- Headers are told apart by their nonces. -/
def env : KernelEnv where
  network := .main
  blockHash h := BitVec.ofNat 256 h.nNonce
  hash bytes := BitVec.ofNat 256 (bytes.map UInt8.toNat).sum

/-- The genesis block of the example. -/
def genesis : CBlock := { hashPrevBlock := 0, nTime := 1000, nNonce := 1, vtx := [] }

/-- The block on it. -/
def first : CBlock := { hashPrevBlock := 1, nTime := 1060, nNonce := 2, vtx := [] }

end ModifierExample

open ModifierExample in
/-- Within one process the order does not matter. -/
theorem stakeModifiers_agree_same :
    ModifiersAgree env 0x555555a0b1c0 0x555555a0b1c0 genesis [first] :=
  (stakeModifiers_agree_iff env 0x555555a0b1c0 0x555555a0b1c0 genesis [first] (by decide)
    ⟨by decide, trivial⟩).2 (.inl rfl)

open ModifierExample in
/-- Two processes that have the literal at different addresses give the first block different
modifiers. -/
theorem stakeModifiers_differ :
    ¬ModifiersAgree env 0x555555a0b1c0 0x5631f4c2b1c0 genesis [first] := by
  intro hagree
  have hsame := hagree [first] [first] (.refl _) ⟨by decide, trivial⟩ (.refl _)
    ⟨by decide, trivial⟩ 2
  revert hsame
  decide

end KernelEnv

end FairCoin
