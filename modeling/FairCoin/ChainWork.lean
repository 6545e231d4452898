import FairCoin.CompactTargets
import FairCoin.StakeModifiers

/-!
# The work of a chain

`GetBlockProof` of `src/pow.cpp` and the `nChainWork` that `AddToBlockIndex` of `src/main.cpp` adds
up.

* `exactProof` — the expected number of hashes for a target, `2 ^ 256 / (target + 1)`.
* `getBlockProof_spec` — **the proof is exact**, although `2 ^ 256` is not a 256-bit number.
* `chainWork_eq` — as long as the sum fits, `nChainWork` is the sum over the path.
* `blockProof_exact` — the proof of every word, its order, and the growth of the work along a chain.
-/

namespace FairCoin

open Store

/-- A target that blocks can be checked against. -/
def ValidTarget (nBits : ℕ) : Prop :=
  (setCompact (BitVec.ofNat 32 nBits)).fNegative = false ∧
    (setCompact (BitVec.ofNat 32 nBits)).fOverflow = false ∧
    (setCompact (BitVec.ofNat 32 nBits)).bn ≠ 0

/-- The target of a word. -/
def targetOf (nBits : ℕ) : ℕ := (setCompact (BitVec.ofNat 32 nBits)).bn.toNat

/-- The work of a target: how many hashes it takes to meet it. -/
def exactProof (nBits : ℕ) : ℕ := 2 ^ 256 / (targetOf nBits + 1)

/-- No word stands for the largest number, so the divisor of `GetBlockProof` is not zero. -/
theorem targetOf_succ_lt (nBits : ℕ) : targetOf nBits + 1 < 2 ^ 256 := by
  unfold targetOf
  rw [setCompact_bn]
  have hm := mantissa_lt (BitVec.ofNat 32 nBits)
  generalize (BitVec.ofNat 32 nBits &&& 0x007fffff#32).toNat = nMantissa at hm ⊢
  generalize (BitVec.ofNat 32 nBits >>> 24).toNat = nSize
  split
  · have hle : nMantissa / 256 ^ (3 - nSize) ≤ nMantissa := Nat.div_le_self _ _
    omega
  · next hsize =>
    -- the last byte is zero
    obtain ⟨k, hk⟩ : ∃ k, nSize - 3 = k + 1 := ⟨nSize - 4, by omega⟩
    rw [hk, pow_succ, ← mul_assoc]
    omega

/-- **The proof is exact**: zero for a target that is negative, out of range or zero, and the
quotient otherwise. -/
theorem getBlockProof_spec (block : CBlockIndex) :
    (¬ValidTarget block.nBits → getBlockProof block = 0) ∧
    (ValidTarget block.nBits → (getBlockProof block).toNat = exactProof block.nBits) := by
  have hlt := targetOf_succ_lt block.nBits
  unfold targetOf at hlt
  unfold getBlockProof
  simp only
  constructor
  · intro h
    rw [if_pos]
    unfold ValidTarget at h
    revert h
    cases (setCompact (BitVec.ofNat 32 block.nBits)).fNegative <;>
      cases (setCompact (BitVec.ofNat 32 block.nBits)).fOverflow <;> simp
  · rintro ⟨hneg, hover, hzero⟩
    rw [hneg, hover, decide_eq_false hzero, if_neg (by decide), exactProof, targetOf]
    generalize (setCompact (BitVec.ofNat 32 block.nBits)).bn = bn at hlt hzero ⊢
    have hpos : 0 < bn.toNat := by
      rw [Nat.pos_iff_ne_zero]
      exact fun h0 => hzero (BitVec.eq_of_toNat_eq h0)
    have hone : (1 : UInt256).toNat = 1 := rfl
    have hsucc : (bn + 1).toNat = bn.toNat + 1 := by
      rw [BitVec.toNat_add, hone, Nat.mod_eq_of_lt hlt]
    have hsum : 2 ^ 256 = 2 ^ 256 - 1 - bn.toNat + (bn.toNat + 1) := by omega
    have hquot : (2 ^ 256 - 1 - bn.toNat) / (bn.toNat + 1) + 1 = 2 ^ 256 / (bn.toNat + 1) := by
      conv_rhs => rw [hsum]
      exact (Nat.add_div_right _ (Nat.succ_pos _)).symm
    have hbound : 2 ^ 256 / (bn.toNat + 1) < 2 ^ 256 := Nat.div_lt_self (by decide) (by omega)
    rw [BitVec.toNat_add, BitVec.toNat_udiv, BitVec.toNat_not, hsucc, hone, hquot]
    exact Nat.mod_eq_of_lt hbound

/-- Every target is met by some hash. -/
theorem exactProof_pos (nBits : ℕ) : 1 ≤ exactProof nBits :=
  Nat.div_pos (targetOf_succ_lt nBits).le (Nat.succ_pos _)

/-- A larger target takes no more work. -/
theorem exactProof_anti {a b : ℕ} (h : targetOf a ≤ targetOf b) : exactProof b ≤ exactProof a :=
  Nat.div_le_div_left (Nat.succ_le_succ h) (Nat.succ_pos _)

/-! ## Along a chain -/

/-- The work of a block and its ancestors. -/
def exactWork (t : BlockTree) (path : List UInt256) : ℕ :=
  (path.map fun x => exactProof (t.index x).nBits).sum

namespace KernelEnv

variable {k : KernelEnv} {stakemodifier : BitVec 64} {genesis : CBlock} {blocks : List CBlock}
  {t : BlockTree}

/-- What `AddToBlockIndex` sums up. -/
theorem Received.nChainWork_eq (h : Received k stakemodifier genesis blocks t) {x : UInt256}
    (hx : x ∈ t.mapBlockIndex) : (t.index x).nChainWork =
      (((t.parent x).elim 0 fun p => (t.index p).nChainWork) +
        (getBlockProof (t.index x)).toNat) % 2 ^ 256 := by
  obtain ⟨b, hb, rfl⟩ := (h.mem x).1 hx
  rcases List.mem_cons.1 hb with rfl | hb
  · have hindex : t.index (k.getHash b) = (k.rootIndex b).raiseValidity blockValidTree := by
      rw [BlockTree.index, h.root]
      rfl
    have hparent : t.parent (k.getHash b) = none := h.tree.pprev_genesis
    rw [hparent, hindex]
    show (getBlockProof (newBlockIndex b)).toNat = (0 + (getBlockProof (newBlockIndex b)).toNat) % _
    rw [zero_add]
    exact (Nat.mod_eq_of_lt (getBlockProof (newBlockIndex b)).isLt).symm
  · have hindex : t.index (k.getHash b) =
        (k.childIndex stakemodifier t b).raiseValidity blockValidTree := by
      rw [BlockTree.index, (h.child b hb).2]
      rfl
    have hparent : t.parent (k.getHash b) = some b.hashPrevBlock := by
      rw [BlockTree.parent, hindex]
      rfl
    rw [hparent, hindex]
    rfl

/-- **The work is the sum over the path**, as long as that fits. -/
theorem Received.chainWork_eq (h : Received k stakemodifier genesis blocks t) {x : UInt256}
    (hx : x ∈ t.mapBlockIndex) (hvalid : ∀ y ∈ t.path x, ValidTarget (t.index y).nBits)
    (hfits : exactWork t (t.path x) < 2 ^ 256) :
    (t.index x).nChainWork = exactWork t (t.path x) := by
  have hL := h.tree.levelled
  have hproof : ∀ y ∈ t.path x, (getBlockProof (t.index y)).toNat = exactProof (t.index y).nBits :=
    fun y hy => (getBlockProof_spec _).2 (hvalid y hy)
  have hself := hproof x (ParentTree.self_mem_path x)
  induction x, hx using hL.induction with
  | root x hx hp =>
    have hpath : t.path x = [x] := ParentTree.path_of_root hL hx hp
    rw [h.nChainWork_eq hx, show t.parent x = none from hp, hself]
    rw [hpath] at hfits ⊢
    simp only [exactWork, List.map_cons, List.map_nil, List.sum_cons, List.sum_nil] at hfits ⊢
    rw [Option.elim_none, zero_add, add_zero]
    exact Nat.mod_eq_of_lt hfits
  | child x hx p hp ih =>
    have hpath : t.path x = x :: t.path p := ParentTree.path_of_parent hL hx hp
    have hpt := hL.parent_mem x hx p hp
    have hsub : ∀ y ∈ t.path p, y ∈ t.path x := by
      intro y hy
      rw [hpath]
      exact List.mem_cons_of_mem _ hy
    have hsum : exactWork t (t.path x) = exactProof (t.index x).nBits + exactWork t (t.path p) := by
      rw [hpath]
      rfl
    have hparent := ih (fun y hy => hvalid y (hsub y hy)) (by omega)
      (fun y hy => hproof y (hsub y hy)) (hproof p (hsub p (ParentTree.self_mem_path p)))
    rw [h.nChainWork_eq hx, show t.parent x = some p from hp, hself, Option.elim_some, hparent,
      hsum, add_comm]
    rw [hsum] at hfits
    exact Nat.mod_eq_of_lt hfits

/-- The work grows from block to block. -/
theorem Received.chainWork_lt (h : Received k stakemodifier genesis blocks t) {x : UInt256}
    (hx : x ∈ t.mapBlockIndex) (hvalid : ∀ y ∈ t.path x, ValidTarget (t.index y).nBits)
    (hfits : exactWork t (t.path x) < 2 ^ 256) :
    (t.path x).Pairwise fun y z => (t.index z).nChainWork < (t.index y).nChainWork := by
  have hL := h.tree.levelled
  have hwork := h.chainWork_eq hx hvalid hfits
  induction x, hx using hL.induction with
  | root x hx hp =>
    rw [show t.path x = [x] from ParentTree.path_of_root hL hx hp]
    exact List.pairwise_singleton _ _
  | child x hx p hp ih =>
    have hpath : t.path x = x :: t.path p := ParentTree.path_of_parent hL hx hp
    have hpt := hL.parent_mem x hx p hp
    have hsum : exactWork t (t.path x) = exactProof (t.index x).nBits + exactWork t (t.path p) := by
      rw [hpath]
      rfl
    have hvalid' : ∀ y ∈ t.path p, ValidTarget (t.index y).nBits := by
      intro y hy
      apply hvalid
      rw [hpath]
      exact List.mem_cons_of_mem _ hy
    have hfits' : exactWork t (t.path p) < 2 ^ 256 := by omega
    have hparent := h.chainWork_eq hpt hvalid' hfits'
    have hrest := ih hvalid' hfits' hparent
    have hpos := exactProof_pos (t.index x).nBits
    have hlt : (t.index p).nChainWork < (t.index x).nChainWork := by
      rw [hwork, hparent, hsum]
      omega
    rw [hpath, List.pairwise_cons]
    refine ⟨fun z hz => ?_, hrest⟩
    obtain ⟨l, hl⟩ : ∃ l, t.path p = p :: l := List.head?_eq_some_iff.1 (ParentTree.head?_path p)
    rw [hl] at hz hrest
    rcases List.mem_cons.1 hz with rfl | hz
    · exact hlt
    · exact ((List.pairwise_cons.1 hrest).1 z hz).trans hlt

end KernelEnv

/-- **`GetBlockProof` is exact**, on every word: zero when the target is negative, out of range or
zero, and otherwise `2 ^ 256 / (target + 1)`, which is at least one, does not grow with the target,
and never divides by zero.  So `nChainWork` is the sum of the proofs and grows with every block along
a chain of blocks with valid targets, as long as the sum stays below `2 ^ 256`. -/
theorem blockProof_exact :
    (∀ block : CBlockIndex, (setCompact (BitVec.ofNat 32 block.nBits)).bn + 1 ≠ 0 ∧
      (¬ValidTarget block.nBits → getBlockProof block = 0) ∧
      (ValidTarget block.nBits → (getBlockProof block).toNat = exactProof block.nBits ∧
        1 ≤ (getBlockProof block).toNat)) ∧
    (∀ block block' : CBlockIndex, ValidTarget block.nBits → ValidTarget block'.nBits →
      targetOf block.nBits ≤ targetOf block'.nBits →
      (getBlockProof block').toNat ≤ (getBlockProof block).toNat) ∧
    ∀ (k : KernelEnv) (stakemodifier : BitVec 64) (genesis : CBlock) (blocks : List CBlock)
      (t : BlockTree), k.Received stakemodifier genesis blocks t → ∀ x ∈ t.mapBlockIndex,
      (∀ y ∈ t.path x, ValidTarget (t.index y).nBits) → exactWork t (t.path x) < 2 ^ 256 →
      (t.index x).nChainWork = exactWork t (t.path x) ∧
      (t.path x).Pairwise fun y z => (t.index z).nChainWork < (t.index y).nChainWork := by
  refine ⟨fun block => ⟨fun h0 => ?_, (getBlockProof_spec block).1, fun hvalid => ?_⟩,
    fun block block' hvalid hvalid' hle => ?_, fun k stakemodifier genesis blocks t h x hx hvalid
      hfits => ⟨h.chainWork_eq hx hvalid hfits, h.chainWork_lt hx hvalid hfits⟩⟩
  · have hlt := targetOf_succ_lt block.nBits
    unfold targetOf at hlt
    have hsum := congrArg BitVec.toNat h0
    rw [BitVec.toNat_add, show (1 : UInt256).toNat = 1 from rfl, Nat.mod_eq_of_lt hlt] at hsum
    exact absurd hsum (Nat.succ_ne_zero _)
  · have heq := (getBlockProof_spec block).2 hvalid
    exact ⟨heq, heq ▸ exactProof_pos _⟩
  · rw [(getBlockProof_spec block).2 hvalid, (getBlockProof_spec block').2 hvalid']
    exact exactProof_anti hle

end FairCoin
