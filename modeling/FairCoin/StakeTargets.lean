import FairCoin.Difficulty
import FairCoin.StakeKernel

/-!
# Proof-of-stake targets

The two places where a proof-of-stake target is multiplied: the test of a kernel hash and the
retarget of every block.  Both products are taken modulo `2 ^ 256`.

* `stakeTargetHit_exact_iff` — **when the test of a kernel hash is exact**.
* `posRetarget_exact_iff` — **when the retarget is exact**.
-/

namespace FairCoin

theorem proofOfStakeLimit_toNat : proofOfStakeLimit.toNat = 2 ^ 232 - 1 := by decide

/-! ## The kernel hash -/

/-- The weight of a coin. -/
theorem coinDayWeight_toNat {nValueIn : ℤ} (hlo : 0 ≤ nValueIn)
    (hhi : nValueIn ≤ 3300000000000000) :
    ((BitVec.ofInt 64 nValueIn).setWidth 256 / 100 : UInt256).toNat = nValueIn.toNat / 100 := by
  obtain ⟨n, rfl⟩ := Int.eq_ofNat_of_zero_le hlo
  rw [BitVec.toNat_udiv, BitVec.toNat_setWidth, BitVec.toNat_ofInt]
  have hn : ((n : ℤ) % ((2 ^ 64 : ℕ) : ℤ)).toNat = n := by omega
  rw [hn, Nat.mod_eq_of_lt (by omega)]
  rfl

/-- The test, in numbers. -/
theorem stakeTargetHit_eq {nValueIn : ℤ} (hlo : 0 ≤ nValueIn) (hhi : nValueIn ≤ 3300000000000000)
    (hash target : UInt256) :
    stakeTargetHit hash nValueIn target =
      decide (hash.toNat < nValueIn.toNat / 100 * target.toNat % 2 ^ 256) := by
  rw [stakeTargetHit, decide_eq_decide, BitVec.lt_def, BitVec.toNat_mul,
    coinDayWeight_toNat hlo hhi]

/-- A target whose multiples leave the 256 bits: there is a coin that meets it, on a hash that the
next larger coin misses. -/
theorem exists_missed {target : UInt256} (hlimit : target.toNat < 2 ^ 232) {n : ℕ}
    (hn : n ≤ 33000000000000) (hwrap : 2 ^ 256 ≤ n * target.toNat) :
    ∃ (hash : UInt256) (w : ℕ), w < n ∧ stakeTargetHit hash (w * 100 : ℕ) target = true ∧
      stakeTargetHit hash ((w + 1) * 100 : ℕ) target = false := by
  have hpos : 0 < target.toNat := by
    by_contra h0
    rw [Nat.eq_zero_of_not_pos h0] at hwrap
    omega
  -- the largest weight that does not wrap
  obtain ⟨w, hw⟩ : ∃ w, w = (2 ^ 256 - 1) / target.toNat := ⟨_, rfl⟩
  have hfits : w * target.toNat ≤ 2 ^ 256 - 1 := hw ▸ Nat.div_mul_le_self _ _
  have hnext : 2 ^ 256 - 1 < (w + 1) * target.toNat := by
    rw [hw, mul_comm]
    exact Nat.lt_mul_div_succ _ hpos
  have hlt : w < n := by
    by_contra hge
    have := Nat.mul_le_mul_right target.toNat (not_lt.1 hge)
    omega
  rw [Nat.succ_mul] at hnext
  have hmod : (w + 1) * target.toNat % 2 ^ 256 = w * target.toNat + target.toNat - 2 ^ 256 := by
    rw [Nat.succ_mul, Nat.mod_eq_sub_mod (by omega), Nat.mod_eq_of_lt (by omega)]
  have hcoin : ∀ k : ℕ, k ≤ n → ∀ hash : UInt256, stakeTargetHit hash (k * 100 : ℕ) target =
      decide (hash.toNat < k * target.toNat % 2 ^ 256) := by
    intro k hk hash
    rw [stakeTargetHit_eq (by omega) (by omega), Int.toNat_natCast,
      Nat.mul_div_cancel _ (by decide)]
  refine ⟨BitVec.ofNat 256 (w * target.toNat + target.toNat - 2 ^ 256), w, hlt, ?_, ?_⟩
  · rw [hcoin w hlt.le, BitVec.toNat_ofNat, Nat.mod_eq_of_lt (by omega),
      Nat.mod_eq_of_lt (by omega), decide_eq_true_eq]
    omega
  · rw [hcoin (w + 1) hlt, hmod, BitVec.toNat_ofNat, Nat.mod_eq_of_lt (by omega),
      decide_eq_false_iff_not]
    exact lt_irrefl _

/-- **The test of a kernel hash.**  For a coin and a target it is exact on every hash if and only if
the weighted target fits 256 bits; and for a target, larger coins meet it whenever smaller ones do if
and only if the weighted target of the largest coin fits. -/
theorem stakeTargetHit_exact_iff (net : Network) (target : UInt256)
    (htarget : target ≤ proofOfStakeLimit) :
    (∀ nValueIn : ℤ, 0 ≤ nValueIn → nValueIn ≤ net.maxMoneyOut →
      ((∀ hash : UInt256, stakeTargetHit hash nValueIn target =
          decide (hash.toNat < nValueIn.toNat / 100 * target.toNat)) ↔
        nValueIn.toNat / 100 * target.toNat < 2 ^ 256)) ∧
    ((∀ (hash : UInt256) (a b : ℤ), 0 ≤ a → a ≤ b → b ≤ net.maxMoneyOut →
        stakeTargetHit hash a target = true → stakeTargetHit hash b target = true) ↔
      net.maxMoneyOut.toNat / 100 * target.toNat < 2 ^ 256) := by
  have hlimit : target.toNat < 2 ^ 232 := by
    have := BitVec.le_def.1 htarget
    rw [proofOfStakeLimit_toNat] at this
    omega
  rw [net.maxMoneyOut_eq]
  refine ⟨fun v hlo hhi => ⟨fun h => ?_, fun h hash => ?_⟩, fun h => ?_,
    fun h hash a b ha hab hb hit => ?_⟩
  · by_contra hwrap
    have hlast := h (~~~(0#256))
    have hall : (~~~(0#256)).toNat = 2 ^ 256 - 1 := by decide
    rw [stakeTargetHit_eq hlo hhi, hall, decide_eq_decide] at hlast
    have hmod := Nat.mod_lt (v.toNat / 100 * target.toNat) (show 0 < 2 ^ 256 by decide)
    omega
  · rw [stakeTargetHit_eq hlo hhi, Nat.mod_eq_of_lt h]
  · by_contra hwrap
    obtain ⟨hash, w, hw, hhit, hmiss⟩ := exists_missed hlimit (by decide) (not_lt.1 hwrap)
    have hw' : w < 33000000000000 := hw
    have hlarger := h hash (w * 100 : ℕ) ((w + 1) * 100 : ℕ) (by omega) (by omega) (by omega) hhit
    rw [hmiss] at hlarger
    cases hlarger
  · have hmul : a.toNat / 100 * target.toNat ≤ b.toNat / 100 * target.toNat :=
      Nat.mul_le_mul_right _ (Nat.div_le_div_right (by omega))
    have hfits : b.toNat / 100 * target.toNat < 2 ^ 256 :=
      (Nat.mul_le_mul_right _ (Nat.div_le_div_right (by omega))).trans_lt h
    rw [stakeTargetHit_eq ha (by omega), Nat.mod_eq_of_lt (by omega), decide_eq_true_eq] at hit
    rw [stakeTargetHit_eq (by omega) hb, Nat.mod_eq_of_lt hfits, decide_eq_true_eq]
    omega

/-- A coin of one unit of weight at the limit, on a hash below the limit. -/
theorem stakeTargetHit_exact_unit : stakeTargetHit 5 100 proofOfStakeLimit =
    decide ((5 : UInt256).toNat < (100 : ℤ).toNat / 100 * proofOfStakeLimit.toNat) :=
  ((stakeTargetHit_exact_iff .main proofOfStakeLimit (BitVec.le_refl _)).1 100 (by decide)
    (by decide)).2 (by decide) 5

/-- **A larger coin misses**: at the limit, the product for a coin of 16.777217 FAIR wraps, and a hash
that a smaller coin meets, and that the larger one should, is refused. -/
theorem stakeTargetHit_wraps :
    stakeTargetHit (BitVec.ofNat 256 (2 ^ 255)) 1677721600 proofOfStakeLimit = true ∧
    ¬ stakeTargetHit (BitVec.ofNat 256 (2 ^ 255)) 1677721700 proofOfStakeLimit = true ∧
    (BitVec.ofNat 256 (2 ^ 255)).toNat < (1677721700 : ℤ).toNat / 100 * proofOfStakeLimit.toNat := by
  decide

/-! ## The retarget -/

/-- The block spacing, one second for a block before its parent. -/
def blockSpacing (nActualSpacing : ℤ) : ℕ := if nActualSpacing < 0 then 1 else nActualSpacing.toNat

/-- The factor of the moving average. -/
def retargetFactor (s : ℕ) : ℕ := 39 * 60 + 2 * s

/-- The retarget in exact arithmetic. -/
def exactRetarget (old s : ℕ) : ℕ :=
  min proofOfStakeLimit.toNat (old * retargetFactor s / (41 * 60))

/-- The quotient that the code computes. -/
def wrappedRetarget (old s : ℕ) : ℕ := old * (retargetFactor s % 2 ^ 32) % 2 ^ 256 / (41 * 60)

theorem proofOfStakeTarget_toNat (bnOld : UInt256) (d : ℤ) :
    (proofOfStakeTarget bnOld d).toNat =
      let w := wrappedRetarget bnOld.toNat (blockSpacing d)
      if w = 0 ∨ proofOfStakeLimit.toNat < w then proofOfStakeLimit.toNat else w := by
  have hfactor : ((40 - 1 : ℤ) * 60 + (if d < 0 then 1 else d) + (if d < 0 then 1 else d)) =
      (retargetFactor (blockSpacing d) : ℤ) := by
    unfold retargetFactor blockSpacing
    split <;> omega
  have hnarrow : ((BitVec.ofInt 32 (retargetFactor (blockSpacing d))).setWidth 256).toNat =
      retargetFactor (blockSpacing d) % 2 ^ 32 := by
    rw [BitVec.toNat_setWidth, BitVec.ofInt_natCast, BitVec.toNat_ofNat]
    omega
  have hdivisor : ((BitVec.ofInt 64 ((40 + 1) * 60)).setWidth 256 : UInt256).toNat = 41 * 60 := by
    decide
  have hquotient : (bnOld * (BitVec.ofInt 32 (retargetFactor (blockSpacing d))).setWidth 256 /
      (BitVec.ofInt 64 ((40 + 1) * 60)).setWidth 256 : UInt256).toNat =
        wrappedRetarget bnOld.toNat (blockSpacing d) := by
    rw [BitVec.toNat_udiv, BitVec.toNat_mul, hnarrow, hdivisor, wrappedRetarget]
  simp only [proofOfStakeTarget, hfactor]
  generalize (bnOld * (BitVec.ofInt 32 (retargetFactor (blockSpacing d))).setWidth 256 /
      (BitVec.ofInt 64 ((40 + 1) * 60)).setWidth 256 : UInt256) = q at hquotient
  rw [← hquotient]
  have hcond : (q ≤ 0 ∨ proofOfStakeLimit < q) ↔ (q.toNat = 0 ∨ proofOfStakeLimit.toNat < q.toNat) := by
    rw [BitVec.le_def, BitVec.lt_def]
    exact or_congr_left Nat.le_zero
  by_cases h : q.toNat = 0 ∨ proofOfStakeLimit.toNat < q.toNat
  · rw [if_pos (hcond.2 h), if_pos h]
  · rw [if_neg fun hq => h (hcond.1 hq), if_neg h]

/-- The retarget leaves nothing out: the factor fits 32 bits, the product fits 256 bits, and the
quotient is not zero. -/
def RetargetFits (old s : ℕ) : Prop :=
  retargetFactor s < 2 ^ 32 ∧ old * retargetFactor s < 2 ^ 256 ∧ 41 * 60 ≤ old * retargetFactor s

/-- Both the exact quotient and the one of the code are rounded to the limit. -/
def BothAtLimit (old s : ℕ) : Prop :=
  truncated proofOfStakeLimit.toNat ≤ old * retargetFactor s / (41 * 60) ∧
    (wrappedRetarget old s = 0 ∨ truncated proofOfStakeLimit.toNat ≤ wrappedRetarget old s)

theorem proofOfStakeTarget_of_fits {bnOld : UInt256} {d : ℤ}
    (h : RetargetFits bnOld.toNat (blockSpacing d)) :
    (proofOfStakeTarget bnOld d).toNat = exactRetarget bnOld.toNat (blockSpacing d) := by
  obtain ⟨hnarrow, hfits, hpos⟩ := h
  have hw : wrappedRetarget bnOld.toNat (blockSpacing d) =
      bnOld.toNat * retargetFactor (blockSpacing d) / (41 * 60) := by
    rw [wrappedRetarget, Nat.mod_eq_of_lt hnarrow, Nat.mod_eq_of_lt hfits]
  have hne : bnOld.toNat * retargetFactor (blockSpacing d) / (41 * 60) ≠ 0 := by
    have := Nat.div_pos hpos (show 0 < 41 * 60 by decide)
    omega
  rw [proofOfStakeTarget_toNat, hw, exactRetarget]
  dsimp only
  by_cases hlt : proofOfStakeLimit.toNat < bnOld.toNat * retargetFactor (blockSpacing d) / (41 * 60)
  · rw [if_pos (.inr hlt), min_eq_left hlt.le]
  · rw [if_neg (not_or.2 ⟨hne, hlt⟩), min_eq_right (not_lt.1 hlt)]

theorem truncated_proofOfStakeLimit :
    truncated proofOfStakeLimit.toNat = (2 ^ 16 - 1) * 2 ^ 216 := by
  decide

/-- Targets that are rounded to the limit. -/
theorem getCompact_atLimit {x : UInt256} (hlo : truncated proofOfStakeLimit.toNat ≤ x.toNat)
    (hhi : x.toNat ≤ proofOfStakeLimit.toNat) : getCompact x = getCompact proofOfStakeLimit := by
  have hcompact : ∀ y : UInt256, truncated proofOfStakeLimit.toNat ≤ y.toNat →
      y.toNat ≤ proofOfStakeLimit.toNat → (getCompact y).toNat = 30 * 2 ^ 24 + (2 ^ 16 - 1) := by
    intro y hlo hhi
    rw [truncated_proofOfStakeLimit] at hlo
    rw [proofOfStakeLimit_toNat] at hhi
    have hlength : bitLength y.toNat = 232 := by
      have hle : bitLength y.toNat ≤ 232 := bitLength_le_iff.2 (by omega)
      have hge : ¬ bitLength y.toNat ≤ 231 := by
        rw [bitLength_le_iff]
        omega
      omega
    have hlead : leadingBytes y.toNat = y.toNat / 2 ^ 208 := by
      unfold leadingBytes
      rw [hlength, if_neg (by decide)]
      norm_num
    rw [getCompact_toNat, hlead, hlength, if_pos (by omega)]
    omega
  apply BitVec.eq_of_toNat_eq
  rw [hcompact x hlo hhi, hcompact _ (truncated_le _) le_rfl]

theorem proofOfStakeTarget_le (bnOld : UInt256) (d : ℤ) :
    (proofOfStakeTarget bnOld d).toNat ≤ proofOfStakeLimit.toNat := by
  rw [proofOfStakeTarget_toNat]
  dsimp only
  split
  · exact le_rfl
  · omega

/-- A narrowed or wrapped product is at most half of the exact one. -/
theorem two_mul_wrappedRetarget_le {old s : ℕ} (h : 2 ^ 32 ≤ retargetFactor s) :
    2 * wrappedRetarget old s ≤ old * retargetFactor s / (41 * 60) := by
  have hhalf : 2 * (retargetFactor s % 2 ^ 32) ≤ retargetFactor s := by omega
  have hmod := Nat.mod_le (old * (retargetFactor s % 2 ^ 32)) (2 ^ 256)
  have hmul : old * (retargetFactor s % 2 ^ 32) * 2 ≤ old * retargetFactor s := by
    rw [mul_assoc, mul_comm _ 2]
    exact Nat.mul_le_mul_left old hhalf
  unfold wrappedRetarget
  omega

/-- Twice a number does not have its compact form. -/
theorem truncated_lt_of_two_mul_le {a b : ℕ} (hpos : 0 < a) (h : 2 * a ≤ b) :
    truncated a < truncated b := by
  have ha := truncated_le a
  have hb := lt_truncated_add b
  by_cases h0 : droppedBytes b = 0
  · rw [h0] at hb
    norm_num at hb
    omega
  · have hsmall := pow_droppedBytes_le (Nat.pos_of_ne_zero h0)
    generalize 256 ^ droppedBytes b = p at hb hsmall
    omega

/-- **When the retarget is exact**, on the target of the last block and the spacing. -/
theorem getCompact_retarget_iff (bnOld : UInt256) (d : ℤ) :
    getCompact (proofOfStakeTarget bnOld d) =
        getCompact (BitVec.ofNat 256 (exactRetarget bnOld.toNat (blockSpacing d))) ↔
      RetargetFits bnOld.toNat (blockSpacing d) ∨ BothAtLimit bnOld.toNat (blockSpacing d) := by
  have hexact : (BitVec.ofNat 256 (exactRetarget bnOld.toNat (blockSpacing d))).toNat =
      exactRetarget bnOld.toNat (blockSpacing d) := by
    rw [BitVec.toNat_ofNat]
    exact Nat.mod_eq_of_lt ((min_le_left _ _).trans_lt proofOfStakeLimit.isLt)
  have hcode := proofOfStakeTarget_toNat bnOld d
  dsimp only at hcode
  constructor
  · intro h
    have hround := congrArg (fun n => (setCompact n).bn.toNat) h
    rw [setCompact_getCompact, setCompact_getCompact, hexact, hcode] at hround
    by_cases hfits : RetargetFits bnOld.toNat (blockSpacing d)
    · exact .inl hfits
    right
    have hlimit := truncated_proofOfStakeLimit
    have hmax := proofOfStakeLimit_toNat
    have htwo := @two_mul_wrappedRetarget_le bnOld.toNat (blockSpacing d)
    have hwrapped : wrappedRetarget bnOld.toNat (blockSpacing d) ≤
        bnOld.toNat * retargetFactor (blockSpacing d) / (41 * 60) := by
      refine Nat.div_le_div_right ((Nat.mod_le _ _).trans ?_)
      exact Nat.mul_le_mul_left _ (Nat.mod_le _ _)
    unfold exactRetarget at hround
    unfold RetargetFits at hfits
    unfold BothAtLimit
    generalize wrappedRetarget bnOld.toNat (blockSpacing d) = w at hround htwo hwrapped ⊢
    generalize retargetFactor (blockSpacing d) = f at hround htwo hwrapped hfits ⊢
    generalize bnOld.toNat * f = P at hround htwo hwrapped hfits ⊢
    by_cases hlimited : w = 0 ∨ proofOfStakeLimit.toNat < w
    · rw [if_pos hlimited] at hround
      have hq : truncated proofOfStakeLimit.toNat ≤ P / (41 * 60) :=
        hround.le.trans ((truncated_le _).trans (min_le_right _ _))
      refine ⟨hq, hlimited.imp_right fun hlt => ?_⟩
      exact (truncated_le _).trans hlt.le
    · obtain ⟨hne, hle⟩ := not_or.1 hlimited
      rw [if_neg hlimited] at hround
      by_cases hq : proofOfStakeLimit.toNat ≤ P / (41 * 60)
      · rw [min_eq_left hq] at hround
        exact ⟨(truncated_le _).trans hq, .inr (hround.symm.le.trans (truncated_le w))⟩
      · rw [min_eq_right (not_le.1 hq).le] at hround
        have hfactor : 2 ^ 32 ≤ f := by omega
        have hlt := truncated_lt_of_two_mul_le (Nat.pos_of_ne_zero hne) (htwo hfactor)
        omega
  · rintro (hfits | ⟨hlow, hwrapped⟩)
    · congr 1
      apply BitVec.eq_of_toNat_eq
      rw [proofOfStakeTarget_of_fits hfits, hexact]
    · have hcodeLow : truncated proofOfStakeLimit.toNat ≤ (proofOfStakeTarget bnOld d).toNat := by
        rw [hcode]
        split
        · exact truncated_le _
        · next hlimited => exact hwrapped.resolve_left (not_or.1 hlimited).1
      have hexactLow : truncated proofOfStakeLimit.toNat ≤
          (BitVec.ofNat 256 (exactRetarget bnOld.toNat (blockSpacing d))).toNat := by
        rw [hexact]
        exact le_min (truncated_le _) hlow
      rw [getCompact_atLimit hcodeLow (proofOfStakeTarget_le bnOld d), getCompact_atLimit hexactLow]
      rw [hexact]
      exact min_le_left _ _

theorem lastPowBlock_ge (net : Network) : 24 ≤ net.lastPowBlock := by
  cases net <;> decide

/-- Above the last proof-of-work block. -/
theorem getNextWorkRequired_stake {net : Network} {pindexLast pprev : CBlockIndex}
    {ancestors : List CBlockIndex} (habove : net.lastPowBlock < pindexLast.nHeight) :
    getNextWorkRequired net (pindexLast :: pprev :: ancestors) = some (getCompact
      (proofOfStakeTarget pindexLast.target (pindexLast.nTime - pprev.nTime))) := by
  have hlow := lastPowBlock_ge net
  rw [getNextWorkRequired, if_neg (by omega), if_pos habove]

/-- **The proof-of-stake retarget.**  It is the compact form of the exact formula if and only if the
factor fits 32 bits, the product fits 256 bits and the quotient is not zero, or else both the exact and
the computed quotient end at the limit.  Where nothing is lost, a longer spacing gives no smaller
target. -/
theorem posRetarget_exact_iff (net : Network) (pindexLast pprev : CBlockIndex)
    (ancestors : List CBlockIndex) (habove : net.lastPowBlock < pindexLast.nHeight) :
    (getNextWorkRequired net (pindexLast :: pprev :: ancestors) = some (getCompact (BitVec.ofNat 256
        (exactRetarget pindexLast.target.toNat
          (blockSpacing (pindexLast.nTime - pprev.nTime))))) ↔
      RetargetFits pindexLast.target.toNat (blockSpacing (pindexLast.nTime - pprev.nTime)) ∨
        BothAtLimit pindexLast.target.toNat (blockSpacing (pindexLast.nTime - pprev.nTime))) ∧
    ∀ (pindexLast' pprev' : CBlockIndex) (ancestors' : List CBlockIndex),
      net.lastPowBlock < pindexLast'.nHeight → pindexLast'.target = pindexLast.target →
      blockSpacing (pindexLast.nTime - pprev.nTime) ≤
        blockSpacing (pindexLast'.nTime - pprev'.nTime) →
      RetargetFits pindexLast.target.toNat (blockSpacing (pindexLast.nTime - pprev.nTime)) →
      RetargetFits pindexLast.target.toNat (blockSpacing (pindexLast'.nTime - pprev'.nTime)) →
      ∃ nBits nBits', getNextWorkRequired net (pindexLast :: pprev :: ancestors) = some nBits ∧
        getNextWorkRequired net (pindexLast' :: pprev' :: ancestors') = some nBits' ∧
        (setCompact nBits).bn ≤ (setCompact nBits').bn := by
  refine ⟨?_, ?_⟩
  · rw [getNextWorkRequired_stake habove, Option.some.injEq]
    exact getCompact_retarget_iff _ _
  · intro pindexLast' pprev' ancestors' habove' hsame hspacing hfits hfits'
    refine ⟨_, _, getNextWorkRequired_stake habove, getNextWorkRequired_stake habove', ?_⟩
    rw [BitVec.le_def, setCompact_getCompact, setCompact_getCompact, hsame,
      proofOfStakeTarget_of_fits hfits, proofOfStakeTarget_of_fits hfits']
    apply truncated_mono
    have hfactor : retargetFactor (blockSpacing (pindexLast.nTime - pprev.nTime)) ≤
        retargetFactor (blockSpacing (pindexLast'.nTime - pprev'.nTime)) := by
      unfold retargetFactor
      omega
    exact min_le_min_left _ (Nat.div_le_div_right (Nat.mul_le_mul_left _ hfactor))

/-- A block at the limit, and the block before it. -/
def blockAtLimit (nHeight : ℤ) (nTime : ℕ) : CBlockIndex :=
  { nHeight := nHeight, nTime := nTime, nBits := 0x1e00ffff }

/-- A minute after the block before it. -/
theorem posRetarget_minute : getNextWorkRequired .main
      [blockAtLimit 10002 1800000060, blockAtLimit 10001 1800000000] =
    some (getCompact (BitVec.ofNat 256 (exactRetarget (blockAtLimit 10002 1800000060).target.toNat
      (blockSpacing ((1800000060 : ℕ) - (1800000000 : ℕ)))))) :=
  (posRetarget_exact_iff .main _ _ [] (by decide)).1.2
    (.inl ⟨by decide, by decide, by decide⟩)

/-- **After a stall of the chain of 8388000 seconds**, 97 days, at the minimum difficulty, the product
wraps: the target is not the exact one, and is smaller than the one after a minute. -/
theorem posRetarget_wraps :
    ¬ getNextWorkRequired .main [blockAtLimit 10002 1808388000, blockAtLimit 10001 1800000000] =
      some (getCompact (BitVec.ofNat 256 (exactRetarget (blockAtLimit 10002 1808388000).target.toNat
        (blockSpacing ((1808388000 : ℕ) - (1800000000 : ℕ)))))) ∧
    ¬ ((getNextWorkRequired .main [blockAtLimit 10002 1800000060, blockAtLimit 10001 1800000000]).map
        fun n => (setCompact n).bn.toNat).getD 0 ≤
      ((getNextWorkRequired .main [blockAtLimit 10002 1808388000, blockAtLimit 10001 1800000000]).map
        fun n => (setCompact n).bn.toNat).getD 0 := by
  decide

end FairCoin
