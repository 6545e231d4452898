import FairCoin.StakeModifiers

/-!
# The stake kernel

`GetKernelStakeModifier` and `CheckStakeKernelHash` of `src/kernel.cpp`.

* `getKernelStakeModifier` — from the origin of the stake forward, by height, in the active chain,
  until a modifier was generated a selection interval later.
* `checkStakeKernelHash` — the check of a kernel, and the search for one.
* `getKernelStakeModifier_eq_none_iff` — the walk fails exactly when the active chain has no such
  modifier.
* `getKernelStakeModifier_congr` — chains that run through a block on top of such a modifier give
  the same result.
* `checkStakeKernelHash_settled` — so does the kernel check.
* `branchIndependent_iff` — the verdict is the same on every branch exactly when **no branch** has
  such a modifier above the height of the origin, so that it is an error on all of them.
-/

namespace FairCoin

open Store

/-! ## The walk -/

/-- What `GetKernelStakeModifier` sets: the modifier, and the height and time of the block that
generated it. -/
structure KernelModifier where
  nStakeModifier : BitVec 64
  nStakeModifierHeight : ℤ
  nStakeModifierTime : ℕ
  deriving DecidableEq, Repr

namespace BlockTree

/-- The loop of `GetKernelStakeModifier`, over the blocks of the active chain that follow
`pindex`.  It fails at the end of the chain. -/
def kernelLoop (t : BlockTree) (nStop : ℕ) (chain : List UInt256) (pindex : CBlockIndex)
    (nStakeModifierHeight : ℤ) (nStakeModifierTime : ℕ) : Option KernelModifier :=
  if nStakeModifierTime < nStop then
    match chain with
    | [] => none
    | pindexNext :: chain =>
        if (t.index pindexNext).fStakeModifier then
          t.kernelLoop nStop chain (t.index pindexNext) (t.index pindexNext).nHeight
            (t.index pindexNext).nTime
        else
          t.kernelLoop nStop chain (t.index pindexNext) nStakeModifierHeight nStakeModifierTime
  else some ⟨pindex.nStakeModifier, nStakeModifierHeight, nStakeModifierTime⟩

/-- `GetKernelStakeModifier`.  The successor of a block is the block of the active chain one level
up, whether or not the block is on that chain. -/
def getKernelStakeModifier (t : BlockTree) (hashBlockFrom : UInt256) : Option KernelModifier :=
  match t.mapBlockIndex.lookup hashBlockFrom with
  | none => none
  | some pindexFrom =>
      t.kernelLoop (pindexFrom.nTime + getStakeModifierSelectionInterval)
        (t.chainActive.drop (pindexFrom.nHeight + 1).toNat) pindexFrom pindexFrom.nHeight
        pindexFrom.nTime

/-- `chainActive.SetTip`. -/
def setTip (t : BlockTree) (hash : UInt256) : BlockTree :=
  { t with chainActive := (t.path hash).reverse }

end BlockTree

/-! ## The kernel -/

/-- `nStakeMinAge`: two hours. -/
def nStakeMinAge : BitVec 32 := 7200

/-- `stakeTargetHit`. -/
def stakeTargetHit (hashProofOfStake : UInt256) (nValueIn : ℤ) (bnTargetPerCoinDay : UInt256) :
    Bool :=
  let bnCoinDayWeight : UInt256 := (BitVec.ofInt 64 nValueIn).setWidth 256 / 100
  decide (hashProofOfStake < bnCoinDayWeight * bnTargetPerCoinDay)

/-- What `CheckStakeKernelHash` returns and sets. -/
structure KernelCheck where
  fSuccess : Bool
  hashProofOfStake : Option UInt256
  nTimeTx : BitVec 32
  deriving DecidableEq, Repr

/-- The search of `CheckStakeKernelHash`: times from the end of the drift down. -/
def kernelSearch (proof : BitVec 32 → UInt256) (hit : UInt256 → Bool) (nTimeTx : BitVec 32) :
    ℕ → Option UInt256 → KernelCheck
  | 0, hashProofOfStake => ⟨false, hashProofOfStake, nTimeTx⟩
  | n + 1, _ =>
      let nTryTime := nTimeTx + BitVec.ofNat 32 (n + 1)
      if hit (proof nTryTime) then ⟨true, some (proof nTryTime), nTryTime⟩
      else kernelSearch proof hit nTimeTx n (some (proof nTryTime))

namespace KernelEnv

variable (k : KernelEnv)

/-- `stakeHash`, on a stream that already holds the modifier. -/
def stakeHash (nTimeTx : BitVec 32) (ss : List UInt8) (prevoutIndex : ℕ) (prevoutHash : UInt256)
    (nTimeBlockFrom : BitVec 32) : UInt256 :=
  k.hash (ss ++ Codec.putLE 4 nTimeBlockFrom.toNat ++ Codec.putLE 4 prevoutIndex ++
    Codec.putLE 32 prevoutHash.toNat ++ Codec.putLE 4 nTimeTx.toNat)

/-- `CheckStakeKernelHash`, without the time stamps of `mapHashedBlocks`. -/
def checkStakeKernelHash (t : BlockTree) (nBits : BitVec 32) (blockFrom : CBlock)
    (txPrev : CTransaction) (prevout : COutPoint) (nTimeTx nHashDrift : BitVec 32)
    (fCheck : Bool) : Except Failure KernelCheck :=
  match txPrev.vout[prevout.n]? with
  | none => .error (.crash "txPrev.vout[prevout.n]")
  | some txout =>
      let nTimeBlockFrom := BitVec.ofNat 32 blockFrom.nTime
      if nTimeTx < nTimeBlockFrom then .ok ⟨false, none, nTimeTx⟩
      else if nTimeTx < nTimeBlockFrom + nStakeMinAge then .ok ⟨false, none, nTimeTx⟩
      else
        match t.getKernelStakeModifier (k.getHash blockFrom) with
        | none => .ok ⟨false, none, nTimeTx⟩
        | some modifier =>
            let ss := Codec.putLE 8 modifier.nStakeModifier.toNat
            let proof := fun nTime => k.stakeHash nTime ss prevout.n prevout.hash nTimeBlockFrom
            let hit := fun hash => stakeTargetHit hash txout.nValue (setCompact nBits).bn
            if fCheck then .ok ⟨hit (proof nTimeTx), some (proof nTimeTx), nTimeTx⟩
            else .ok (kernelSearch proof hit nTimeTx nHashDrift.toNat none)

end KernelEnv

/-! ## Where the walk ends -/

namespace BlockTree

variable {t : BlockTree} {nStop : ℕ}

/-- A block that generated its modifier late enough ends the walk. -/
def EndsWalk (t : BlockTree) (nStop : ℕ) (x : UInt256) : Prop :=
  (t.index x).fStakeModifier = true ∧ nStop ≤ (t.index x).nTime

theorem kernelLoop_of_le {chain : List UInt256} {pindex : CBlockIndex} {nHeight : ℤ} {nTime : ℕ}
    (h : nStop ≤ nTime) : t.kernelLoop nStop chain pindex nHeight nTime =
      some ⟨pindex.nStakeModifier, nHeight, nTime⟩ := by
  rw [kernelLoop.eq_def, if_neg (not_lt.2 h)]

theorem kernelLoop_eq_none_iff {chain : List UInt256} : ∀ {pindex : CBlockIndex} {nHeight : ℤ}
    {nTime : ℕ}, nTime < nStop →
      (t.kernelLoop nStop chain pindex nHeight nTime = none ↔
        ∀ x ∈ chain, ¬t.EndsWalk nStop x) := by
  induction chain with
  | nil =>
    intro pindex nHeight nTime hlt
    rw [kernelLoop, if_pos hlt]
    simp
  | cons x chain ih =>
    intro pindex nHeight nTime hlt
    rw [kernelLoop, if_pos hlt, List.forall_mem_cons]
    by_cases hgen : (t.index x).fStakeModifier = true
    · rw [if_pos hgen]
      rcases lt_or_ge (t.index x).nTime nStop with hx | hx
      · rw [ih hx]
        exact ⟨fun h => ⟨fun he => absurd he.2 (not_le.2 hx), h⟩, fun h => h.2⟩
      · rw [kernelLoop_of_le hx]
        exact ⟨fun h => absurd h (by simp), fun h => absurd ⟨hgen, hx⟩ h.1⟩
    · rw [if_neg hgen, ih hlt]
      exact ⟨fun h => ⟨fun he => hgen he.1, h⟩, fun h => h.2⟩

/-- What follows the block that ends the walk is not looked at. -/
theorem kernelLoop_append {chain : List UInt256} (rest : List UInt256) :
    ∀ {pindex : CBlockIndex} {nHeight : ℤ} {nTime : ℕ}, (∃ x ∈ chain, t.EndsWalk nStop x) →
      t.kernelLoop nStop (chain ++ rest) pindex nHeight nTime =
        t.kernelLoop nStop chain pindex nHeight nTime := by
  induction chain with
  | nil =>
    rintro pindex nHeight nTime ⟨x, hx, -⟩
    exact absurd hx (by simp)
  | cons y chain ih =>
    intro pindex nHeight nTime hends
    rcases lt_or_ge nTime nStop with hlt | hge
    · rw [List.cons_append, kernelLoop, if_pos hlt, kernelLoop, if_pos hlt]
      by_cases hy : t.EndsWalk nStop y
      · rw [if_pos hy.1, if_pos hy.1, kernelLoop_of_le hy.2, kernelLoop_of_le hy.2]
      · obtain ⟨x, hx, hxe⟩ := hends
        have hends : ∃ x ∈ chain, t.EndsWalk nStop x := by
          rcases List.mem_cons.1 hx with rfl | hx
          · exact absurd hxe hy
          · exact ⟨x, hx, hxe⟩
        rw [ih hends, ih hends]
    · rw [kernelLoop_of_le hge, kernelLoop_of_le hge]

/-! ## The walk on a branch -/

variable {g tip origin : UInt256}

/-- A block above the origin's height that generated its modifier at least a selection interval
after the origin. -/
def LateModifier (t : BlockTree) (origin x : UInt256) : Prop :=
  t.height origin < t.height x ∧
    t.EndsWalk ((t.index origin).nTime + getStakeModifierSelectionInterval) x

theorem getStakeModifierSelectionInterval_pos : 0 < getStakeModifierSelectionInterval := by
  decide

theorem kernelLoop_setTip (tip : UInt256) (chain : List UInt256) : ∀ (pindex : CBlockIndex)
    (nHeight : ℤ) (nTime : ℕ), (t.setTip tip).kernelLoop nStop chain pindex nHeight nTime =
      t.kernelLoop nStop chain pindex nHeight nTime := by
  have hindex : (t.setTip tip).index = t.index := rfl
  induction chain with
  | nil =>
    intro pindex nHeight nTime
    rw [kernelLoop, kernelLoop]
  | cons x chain ih =>
    intro pindex nHeight nTime
    rw [kernelLoop, kernelLoop, hindex, ih, ih]

/-- The walk from an origin that is in the index, on a branch. -/
theorem getKernelStakeModifier_setTip (hT : IsTree t g) (ho : origin ∈ t.mapBlockIndex)
    (tip : UInt256) : (t.setTip tip).getKernelStakeModifier origin =
      t.kernelLoop ((t.index origin).nTime + getStakeModifierSelectionInterval)
        ((t.path tip).reverse.drop (t.height origin + 1)) (t.index origin)
        (t.index origin).nHeight (t.index origin).nTime := by
  obtain ⟨p, hp⟩ := Option.isSome_iff_exists.1 (AList.lookup_isSome.2 ho)
  have hindex : t.index origin = p := by rw [index, hp, Option.getD_some]
  have hheight : ((t.index origin).nHeight + 1).toNat = t.height origin + 1 := by
    have := hT.nHeight_nonneg origin ho
    rw [height]
    omega
  have hlookup : (t.setTip tip).mapBlockIndex.lookup origin = some p := hp
  unfold getKernelStakeModifier
  rw [hlookup, ← hindex]
  show (t.setTip tip).kernelLoop _ ((t.path tip).reverse.drop _) _ _ _ = _
  rw [kernelLoop_setTip, hheight]

/-- **Where the walk fails**: on a branch without a late modifier. -/
theorem getKernelStakeModifier_eq_none_iff (hT : IsTree t g) (ho : origin ∈ t.mapBlockIndex)
    (htip : tip ∈ t.mapBlockIndex) : (t.setTip tip).getKernelStakeModifier origin = none ↔
      ∀ x ∈ t.path tip, ¬t.LateModifier origin x := by
  have hpos := getStakeModifierSelectionInterval_pos
  rw [getKernelStakeModifier_setTip hT ho, kernelLoop_eq_none_iff (by omega)]
  have hmem : ∀ x, x ∈ (t.path tip).reverse.drop (t.height origin + 1) ↔
      x ∈ t.path tip ∧ t.height origin + 1 ≤ t.height x :=
    fun x => ParentTree.mem_drop_reverse_path hT.levelled htip _
  constructor
  · exact fun h x hx hlate => h x ((hmem x).2 ⟨hx, hlate.1⟩) hlate.2
  · exact fun h x hx hends => h x ((hmem x).1 hx).1 ⟨((hmem x).1 hx).2, hends⟩

/-- **Branches that agree up to a late modifier give the same result**, wherever they end. -/
theorem getKernelStakeModifier_congr (hT : IsTree t g) (ho : origin ∈ t.mapBlockIndex)
    {tip' x : UInt256} (htip : tip ∈ t.mapBlockIndex) (htip' : tip' ∈ t.mapBlockIndex)
    (hx : x ∈ t.path tip) (hx' : x ∈ t.path tip') (hlate : t.LateModifier origin x) :
    (t.setTip tip).getKernelStakeModifier origin =
      (t.setTip tip').getKernelStakeModifier origin := by
  have hxt := ParentTree.mem_of_mem_path hT.levelled htip x hx
  have hends : ∃ y ∈ (t.path x).reverse.drop (t.height origin + 1), t.EndsWalk
      ((t.index origin).nTime + getStakeModifierSelectionInterval) y :=
    ⟨x, (ParentTree.mem_drop_reverse_path hT.levelled hxt _).2
      ⟨ParentTree.self_mem_path x, hlate.1⟩, hlate.2⟩
  have hlength : t.height origin + 1 ≤ (t.path x).reverse.length := by
    have hpath : (t.path x).length = t.height x + 1 := ParentTree.length_path hT.levelled hxt
    have := hlate.1
    rw [List.length_reverse, hpath]
    omega
  -- either branch is the path of the block, and then something that is not looked at
  have hcut : ∀ tip ∈ t.mapBlockIndex, x ∈ t.path tip → (t.setTip tip).getKernelStakeModifier origin =
      t.kernelLoop ((t.index origin).nTime + getStakeModifierSelectionInterval)
        ((t.path x).reverse.drop (t.height origin + 1)) (t.index origin)
        (t.index origin).nHeight (t.index origin).nTime := by
    intro tip htip hx
    have hsplit : t.path tip = _ ++ t.path x := ParentTree.path_eq_append hT.levelled htip x hx
    rw [getKernelStakeModifier_setTip hT ho, hsplit, List.reverse_append,
      List.drop_append_of_le_length hlength, kernelLoop_append _ hends]
  rw [hcut tip htip hx, hcut tip' htip' hx']

end BlockTree

/-! ## The verdict on every branch -/

namespace KernelEnv

open BlockTree

variable {k : KernelEnv} {t : BlockTree} {g : UInt256}

theorem checkStakeKernelHash_congr {t' : BlockTree} {blockFrom : CBlock}
    (h : t'.getKernelStakeModifier (k.getHash blockFrom) =
      t.getKernelStakeModifier (k.getHash blockFrom))
    (nBits : BitVec 32) (txPrev : CTransaction) (prevout : COutPoint)
    (nTimeTx nHashDrift : BitVec 32) (fCheck : Bool) :
    k.checkStakeKernelHash t' nBits blockFrom txPrev prevout nTimeTx nHashDrift fCheck =
      k.checkStakeKernelHash t nBits blockFrom txPrev prevout nTimeTx nHashDrift fCheck := by
  unfold checkStakeKernelHash
  rw [h]

/-- The modifier for an origin, and the verdict on any kernel from it, are the same whichever
branch is active. -/
def BranchIndependent (k : KernelEnv) (t : BlockTree) (origin : UInt256) : Prop :=
  ∀ a ∈ t.mapBlockIndex, ∀ b ∈ t.mapBlockIndex,
    (t.setTip a).getKernelStakeModifier origin = (t.setTip b).getKernelStakeModifier origin ∧
    ∀ nBits blockFrom txPrev prevout nTimeTx nHashDrift, k.getHash blockFrom = origin →
      k.checkStakeKernelHash (t.setTip a) nBits blockFrom txPrev prevout nTimeTx nHashDrift true =
        k.checkStakeKernelHash (t.setTip b) nBits blockFrom txPrev prevout nTimeTx nHashDrift true

/-- **When the verdict does not depend on the active branch**: when no block of the tree above the
origin's height generated a modifier a selection interval later, so that the walk fails on every
branch. -/
theorem branchIndependent_iff (k : KernelEnv) {p origin : UInt256} (hT : IsTree t g)
    (hp : p ∈ t.mapBlockIndex) (ho : origin ∈ t.path p) :
    k.BranchIndependent t origin ↔ ∀ x ∈ t.mapBlockIndex, ¬t.LateModifier origin x := by
  have ho := ParentTree.mem_of_mem_path hT.levelled hp origin ho
  constructor
  · intro hind x hx hlate
    -- genesis alone is a branch too, and has nothing above the origin
    have hgenesis : (t.setTip g).getKernelStakeModifier origin = none := by
      refine (getKernelStakeModifier_eq_none_iff hT ho hT.mem_genesis).2 fun y hy hlate => ?_
      have hle := ParentTree.height_le_of_mem_path hT.levelled hT.mem_genesis y hy
      have hzero := (hT.height_eq_zero_iff hT.mem_genesis).2 rfl
      have := hlate.1
      omega
    have hnone := (hind g hT.mem_genesis x hx).1
    rw [hgenesis] at hnone
    exact (getKernelStakeModifier_eq_none_iff hT ho hx).1 hnone.symm x
      (ParentTree.self_mem_path x) hlate
  · intro hnone a ha b hb
    have hfail : ∀ tip ∈ t.mapBlockIndex, (t.setTip tip).getKernelStakeModifier origin = none := by
      intro tip htip
      refine (getKernelStakeModifier_eq_none_iff hT ho htip).2 fun x hx => hnone x ?_
      exact ParentTree.mem_of_mem_path hT.levelled htip x hx
    have hsame := (hfail a ha).trans (hfail b hb).symm
    refine ⟨hsame, ?_⟩
    rintro nBits blockFrom txPrev prevout nTimeTx nHashDrift rfl
    exact checkStakeKernelHash_congr hsame nBits txPrev prevout nTimeTx nHashDrift true

/-! ## Two branches -/

namespace KernelExample

open ModifierExample

/-- A block with a nonce that tells it apart. -/
def block (hashPrevBlock : UInt256) (nTime nNonce : ℕ) : CBlock :=
  { hashPrevBlock := hashPrevBlock, nTime := nTime, nNonce := nNonce, vtx := [] }

/-- Two branches on block 2: blocks 4 and 5, and blocks 7 and 8. -/
def branches : List CBlock :=
  [block 1 4000 2, block 2 6200 4, block 4 6260 5, block 2 6200 7, block 7 6260 8]

/-- The index after these blocks. -/
def tree : BlockTree := env.receive 0x555555a0b1c0 genesis branches

theorem received_tree : Received env 0x555555a0b1c0 genesis branches tree :=
  received_receive 0x555555a0b1c0 (by decide) (.refl _)
    ⟨by decide, by decide, by decide, by decide, by decide,
      trivial⟩

theorem isTree_tree : IsTree tree 1 := received_tree.tree

end KernelExample

open KernelExample ModifierExample in
/-- From the end of a branch nothing follows, and the verdict is the same everywhere. -/
theorem branchIndependent_tip : env.BranchIndependent tree 5 := by
  have hheights : tree.mapBlockIndex.keys.map tree.height = [3, 2, 3, 2, 1, 0] := by
    decide
  have hheight : tree.height 5 = 3 := by decide
  refine (branchIndependent_iff env isTree_tree (show 5 ∈ tree.mapBlockIndex by decide)
    (ParentTree.self_mem_path 5)).2 fun x hx hlate => ?_
  have hmem : tree.height x ∈ tree.mapBlockIndex.keys.map tree.height :=
    List.mem_map_of_mem (AList.mem_keys.1 hx)
  have hlt := hlate.1
  rw [hheights] at hmem
  rw [hheight] at hlt
  simp only [List.mem_cons, List.not_mem_nil, or_false] at hmem
  omega

open KernelExample ModifierExample in
/-- A stake from block 2, in a block on top of block 5: the modifier is zero while the block's own
branch is active, and one while the other branch is. -/
theorem kernel_modifier_differs :
    IsTree tree 1 ∧ 5 ∈ tree.mapBlockIndex ∧ 2 ∈ tree.path 5 ∧
      (tree.setTip 5).getKernelStakeModifier 2 = some ⟨0, 3, 6260⟩ ∧
      (tree.setTip 8).getKernelStakeModifier 2 = some ⟨1, 3, 6260⟩ ∧
      ¬env.BranchIndependent tree 2 := by
  have h₅ : (tree.setTip 5).getKernelStakeModifier 2 = some ⟨0, 3, 6260⟩ := by decide
  have h₈ : (tree.setTip 8).getKernelStakeModifier 2 = some ⟨1, 3, 6260⟩ := by decide
  refine ⟨isTree_tree, by decide, by decide, h₅, h₈, fun hind => ?_⟩
  have hsame := (hind 5 (by decide) 8 (by decide)).1
  rw [h₅, h₈] at hsame
  exact absurd hsame (by decide)

/-! ## Buried modifiers -/

/-- **A verdict is settled once a late modifier is buried.**  On all active branches that share a
block above the origin which generated a modifier a selection interval later, the kernel check has
the same outcome, whatever was mined on top. -/
theorem checkStakeKernelHash_settled (k : KernelEnv) (hT : IsTree t g) {x : UInt256}
    (blockFrom : CBlock) (ho : k.getHash blockFrom ∈ t.mapBlockIndex)
    (hlate : t.LateModifier (k.getHash blockFrom) x) {tip tip' : UInt256}
    (htip : tip ∈ t.mapBlockIndex) (htip' : tip' ∈ t.mapBlockIndex) (hx : x ∈ t.path tip)
    (hx' : x ∈ t.path tip') (nBits : BitVec 32) (txPrev : CTransaction) (prevout : COutPoint)
    (nTimeTx nHashDrift : BitVec 32) (fCheck : Bool) :
    k.checkStakeKernelHash (t.setTip tip) nBits blockFrom txPrev prevout nTimeTx nHashDrift fCheck =
      k.checkStakeKernelHash (t.setTip tip') nBits blockFrom txPrev prevout nTimeTx nHashDrift
        fCheck :=
  checkStakeKernelHash_congr (getKernelStakeModifier_congr hT ho htip htip' hx hx' hlate) nBits
    txPrev prevout nTimeTx nHashDrift fCheck

namespace KernelExample

open ModifierExample

/-- The transaction whose output is staked. -/
def staked : CTransaction := { hash := 70, vin := [], vout := [⟨100 * coin, [0x51], -10⟩] }

/-- One more block on the first branch. -/
def longer : BlockTree :=
  env.receive 0x555555a0b1c0 genesis (branches ++ [block 5 6320 9])

theorem isTree_longer : IsTree longer 1 := by
  have hreceived : Received env 0x555555a0b1c0 genesis (branches ++ [block 5 6320 9]) longer :=
    received_receive 0x555555a0b1c0 (by decide) (.refl _)
      ⟨by decide, by decide, by decide, by decide, by decide, by decide, trivial⟩
  exact hreceived.tree

end KernelExample

open KernelExample ModifierExample in
/-- A stake from block 2 is judged on block 9 as it is on block 5. -/
theorem checkStakeKernelHash_settled_longer :
    env.checkStakeKernelHash (longer.setTip 5) 0x207fffff (block 1 4000 2) staked ⟨70, 0⟩ 9000 0
        true =
      env.checkStakeKernelHash (longer.setTip 9) 0x207fffff (block 1 4000 2) staked ⟨70, 0⟩ 9000 0
        true := by
  have hlate : longer.LateModifier (env.getHash (block 1 4000 2)) 5 := by
    refine ⟨by decide, ?_⟩
    unfold BlockTree.EndsWalk
    decide
  exact checkStakeKernelHash_settled env isTree_longer (block 1 4000 2) (by decide) hlate
    (by decide) (by decide) (by decide) (by decide) 0x207fffff staked ⟨70, 0⟩ 9000 0 true

end KernelEnv

end FairCoin
