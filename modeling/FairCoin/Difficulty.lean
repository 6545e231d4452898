import FairCoin.Params
import FairCoin.Targets

/-!
# Difficulty

`uint256::GetCompact` of `src/uint256.cpp` and `GetNextWorkRequired` of `src/pow.cpp`, over the chain
of index entries that end at `pindexLast`.

* `getCompact`, `truncated` — the compact form keeps the leading bytes of a target.
* `truncated_mono` — **rounding to compact form keeps the order**.
* `dgwLoop` — the average and the timespan of the last 24 proof-of-work blocks.
* `getNextWorkRequired` — both branches.
-/

namespace FairCoin

/-! ## The compact form -/

/-- `bits()`: the position of the highest bit set plus one. -/
def UInt256.bits (bn : UInt256) : ℕ := if bn = 0 then 0 else bn.toNat.log2 + 1

/-- `uint256::GetCompact`. -/
def getCompact (bn : UInt256) : BitVec 32 :=
  let nSize := (UInt256.bits bn + 7) / 8
  let nCompact : BitVec 32 :=
    if nSize ≤ 3 then (bn.setWidth 64 <<< (8 * (3 - nSize))).setWidth 32
    else ((bn >>> (8 * (nSize - 3))).setWidth 64).setWidth 32
  -- the sign bit is kept clear: the mantissa loses a byte and the size takes it
  if nCompact &&& 0x00800000#32 ≠ 0 then nCompact >>> 8 ||| BitVec.ofNat 32 (nSize + 1) <<< 24
  else nCompact ||| BitVec.ofNat 32 nSize <<< 24

/-- The bits of a number. -/
def bitLength (n : ℕ) : ℕ := if n = 0 then 0 else n.log2 + 1

/-- The bytes that the compact form drops. -/
def droppedBytes (n : ℕ) : ℕ := bitLength n / 8 - 2

/-- A number without the bytes that the compact form drops. -/
def truncated (n : ℕ) : ℕ := n / 256 ^ droppedBytes n * 256 ^ droppedBytes n

theorem lt_two_pow_bitLength (n : ℕ) : n < 2 ^ bitLength n := by
  unfold bitLength
  split
  · next h => rw [h]; decide
  · exact Nat.lt_log2_self

theorem two_pow_le_of_lt_bitLength {n k : ℕ} (h : k < bitLength n) : 2 ^ k ≤ n := by
  unfold bitLength at h
  split at h
  · exact absurd h (Nat.not_lt_zero _)
  · next hn => exact (Nat.le_log2 hn).1 (by omega)

theorem bitLength_le_iff {n k : ℕ} : bitLength n ≤ k ↔ n < 2 ^ k := by
  constructor
  · intro h
    exact (lt_two_pow_bitLength n).trans_le (Nat.pow_le_pow_right (by decide) h)
  · intro h
    by_contra hlt
    exact absurd (two_pow_le_of_lt_bitLength (not_le.1 hlt)) (not_le.2 h)

theorem bitLength_mono {a b : ℕ} (h : a ≤ b) : bitLength a ≤ bitLength b :=
  bitLength_le_iff.2 (h.trans_lt (lt_two_pow_bitLength b))

theorem truncated_le (n : ℕ) : truncated n ≤ n := Nat.div_mul_le_self _ _

theorem lt_truncated_add (n : ℕ) : n < truncated n + 256 ^ droppedBytes n := by
  have h := Nat.lt_div_mul_add (a := n) (show 0 < 256 ^ droppedBytes n by positivity)
  exact h

/-- What is dropped is small. -/
theorem pow_droppedBytes_le {n : ℕ} (h : 0 < droppedBytes n) :
    256 ^ droppedBytes n * 2 ^ 15 ≤ n := by
  have hlt : 8 * droppedBytes n + 15 < bitLength n := by
    unfold droppedBytes at h ⊢
    omega
  calc 256 ^ droppedBytes n * 2 ^ 15 = 2 ^ (8 * droppedBytes n + 15) := by
        rw [pow_add, pow_mul]
        norm_num
    _ ≤ n := two_pow_le_of_lt_bitLength hlt

/-- **Rounding keeps the order.** -/
theorem truncated_mono {a b : ℕ} (h : a ≤ b) : truncated a ≤ truncated b := by
  have hdropped : droppedBytes a ≤ droppedBytes b := by
    have := bitLength_mono h
    unfold droppedBytes
    omega
  rcases hdropped.eq_or_lt with heq | hlt
  · unfold truncated
    rw [heq]
    exact Nat.mul_le_mul_right _ (Nat.div_le_div_right h)
  · have hpos : 0 < droppedBytes b := by omega
    have hlow : 2 ^ 15 ≤ b / 256 ^ droppedBytes b := by
      rw [Nat.le_div_iff_mul_le (by positivity), mul_comm]
      exact pow_droppedBytes_le hpos
    have hshort : bitLength a ≤ 8 * droppedBytes b + 15 := by
      unfold droppedBytes at hlt ⊢
      omega
    calc truncated a ≤ a := truncated_le a
      _ ≤ 2 ^ (8 * droppedBytes b + 15) := (bitLength_le_iff.1 hshort).le
      _ = 2 ^ 15 * 256 ^ droppedBytes b := by
        rw [pow_add, pow_mul, mul_comm]
        norm_num
      _ ≤ truncated b := Nat.mul_le_mul_right _ hlow

/-! ## Reading the compact form back -/

/-- The mantissa of a word has 23 bits. -/
theorem mantissa_lt (nCompact : BitVec 32) : (nCompact &&& 0x007fffff#32).toNat < 2 ^ 23 := by
  rw [BitVec.toNat_and]
  show nCompact.toNat &&& (2 ^ 23 - 1) < 2 ^ 23
  rw [Nat.and_two_pow_sub_one_eq_mod]
  exact Nat.mod_lt _ (by decide)

/-- What `SetCompact` reads from a word. -/
theorem setCompact_bn (nCompact : BitVec 32) :
    (setCompact nCompact).bn.toNat =
      if (nCompact >>> 24).toNat ≤ 3 then
        (nCompact &&& 0x007fffff#32).toNat / 256 ^ (3 - (nCompact >>> 24).toNat)
      else (nCompact &&& 0x007fffff#32).toNat * 256 ^ ((nCompact >>> 24).toNat - 3) % 2 ^ 256 := by
  have hm := mantissa_lt nCompact
  have hpow : ∀ k : ℕ, 2 ^ (8 * k) = 256 ^ k := by
    intro k
    rw [pow_mul]
    norm_num
  simp only [setCompact]
  split
  · rw [BitVec.toNat_setWidth, BitVec.toNat_ushiftRight, Nat.shiftRight_eq_div_pow, hpow]
    exact Nat.mod_eq_of_lt ((Nat.div_le_self _ _).trans_lt (hm.trans (by decide)))
  · rw [BitVec.toNat_shiftLeft, BitVec.toNat_setWidth, Nat.mod_eq_of_lt (hm.trans (by decide)),
      Nat.shiftLeft_eq, hpow]

/-- The two fields of a word below the sign bit. -/
theorem fields_of_word {nCompact : BitVec 32} {nSize nMantissa : ℕ}
    (h : nCompact.toNat = nSize * 2 ^ 24 + nMantissa) (hm : nMantissa < 2 ^ 23) :
    (nCompact >>> 24).toNat = nSize ∧ (nCompact &&& 0x007fffff#32).toNat = nMantissa ∧
      nCompact &&& 0x00800000#32 = 0 := by
  refine ⟨?_, ?_, ?_⟩
  · rw [BitVec.toNat_ushiftRight, h, Nat.shiftRight_eq_div_pow]
    omega
  · rw [BitVec.toNat_and, h]
    show (nSize * 2 ^ 24 + nMantissa) &&& (2 ^ 23 - 1) = nMantissa
    rw [Nat.and_two_pow_sub_one_eq_mod]
    omega
  · apply BitVec.eq_of_toNat_eq
    rw [BitVec.toNat_and, h]
    show (nSize * 2 ^ 24 + nMantissa) &&& 2 ^ 23 = 0
    rw [Nat.and_two_pow, Nat.testBit_eq_decide_div_mod_eq,
      decide_eq_false (by omega : ¬(nSize * 2 ^ 24 + nMantissa) / 2 ^ 23 % 2 = 1)]
    rfl

/-- What `SetCompact` reads from a size and a mantissa without the sign bit. -/
theorem setCompact_toNat {nCompact : BitVec 32} {nSize nMantissa : ℕ}
    (h : nCompact.toNat = nSize * 2 ^ 24 + nMantissa) (hm : nMantissa < 2 ^ 23) :
    (setCompact nCompact).bn.toNat =
      if nSize ≤ 3 then nMantissa / 256 ^ (3 - nSize)
      else nMantissa * 256 ^ (nSize - 3) % 2 ^ 256 := by
  obtain ⟨hsize, hmantissa, -⟩ := fields_of_word h hm
  rw [setCompact_bn, hsize, hmantissa]

/-- The mantissa before the sign bit is cleared. -/
def leadingBytes (n : ℕ) : ℕ :=
  if (bitLength n + 7) / 8 ≤ 3 then n * 256 ^ (3 - (bitLength n + 7) / 8)
  else n / 256 ^ ((bitLength n + 7) / 8 - 3)

theorem lt_pow_size (n : ℕ) : n < 256 ^ ((bitLength n + 7) / 8) := by
  have h : n < 2 ^ (8 * ((bitLength n + 7) / 8)) := bitLength_le_iff.1 (by omega)
  rwa [pow_mul] at h

theorem leadingBytes_lt (n : ℕ) : leadingBytes n < 2 ^ 24 := by
  have hlt := lt_pow_size n
  unfold leadingBytes
  split
  · next h =>
    calc n * 256 ^ (3 - (bitLength n + 7) / 8)
        < 256 ^ ((bitLength n + 7) / 8) * 256 ^ (3 - (bitLength n + 7) / 8) :=
          Nat.mul_lt_mul_of_pos_right hlt (by positivity)
      _ = 2 ^ 24 := by
        rw [← pow_add, Nat.add_sub_of_le h]
        norm_num
  · next h =>
    rw [Nat.div_lt_iff_lt_mul (by positivity)]
    calc n < 256 ^ ((bitLength n + 7) / 8) := hlt
      _ = 2 ^ 24 * 256 ^ ((bitLength n + 7) / 8 - 3) := by
        rw [show (2 : ℕ) ^ 24 = 256 ^ 3 by norm_num, ← pow_add,
          Nat.add_sub_of_le (not_le.1 h).le]

/-- The sign bit would be set if the length in bits is that of the bytes. -/
theorem two_pow_le_leadingBytes_iff (n : ℕ) :
    2 ^ 23 ≤ leadingBytes n ↔ bitLength n ≠ 0 ∧ bitLength n % 8 = 0 := by
  have hle : ∀ k : ℕ, 2 ^ k ≤ n ↔ k < bitLength n := by
    intro k
    have := @bitLength_le_iff n k
    omega
  unfold leadingBytes
  split
  · next h =>
    have hpow : (2 : ℕ) ^ 23 = 2 ^ (8 * ((bitLength n + 7) / 8) - 1) *
        256 ^ (3 - (bitLength n + 7) / 8) ∨ bitLength n = 0 := by
      by_cases h0 : bitLength n = 0
      · exact .inr h0
      · left
        rw [show (256 : ℕ) = 2 ^ 8 by norm_num, ← pow_mul, ← pow_add]
        congr 1
        omega
    rcases hpow with hpow | h0
    · rw [hpow, Nat.mul_le_mul_right_iff (by positivity), hle]
      omega
    · have hn : n = 0 := by
        have := lt_two_pow_bitLength n
        rw [h0] at this
        omega
      rw [hn]
      simp [bitLength]
  · next h =>
    rw [Nat.le_div_iff_mul_le (by positivity), show (256 : ℕ) = 2 ^ 8 by norm_num, ← pow_mul,
      ← pow_add, hle]
    omega

theorem bits_eq (bn : UInt256) : UInt256.bits bn = bitLength bn.toNat := by
  unfold UInt256.bits bitLength
  by_cases h : bn = 0
  · rw [h]
    rfl
  · have h0 : bn.toNat ≠ 0 := fun h0 => h (BitVec.eq_of_toNat_eq h0)
    rw [if_neg h, if_neg h0]

/-- The word that `GetCompact` works on holds the mantissa. -/
theorem leadingWord_eq (bn : UInt256) :
    (if (bitLength bn.toNat + 7) / 8 ≤ 3 then
        (bn.setWidth 64 <<< (8 * (3 - (bitLength bn.toNat + 7) / 8))).setWidth 32
      else ((bn >>> (8 * ((bitLength bn.toNat + 7) / 8 - 3))).setWidth 64).setWidth 32 :
        BitVec 32) = BitVec.ofNat 32 (leadingBytes bn.toNat) := by
  have hlead := leadingBytes_lt bn.toNat
  apply BitVec.eq_of_toNat_eq
  rw [BitVec.toNat_ofNat, Nat.mod_eq_of_lt (hlead.trans (by decide))]
  have hpow : ∀ k : ℕ, 2 ^ (8 * k) = 256 ^ k := by
    intro k
    rw [pow_mul]
    norm_num
  unfold leadingBytes at hlead ⊢
  split
  · next h =>
    rw [if_pos h] at hlead
    have hn : bn.toNat < 2 ^ 24 := by
      have := lt_pow_size bn.toNat
      calc bn.toNat < 256 ^ ((bitLength bn.toNat + 7) / 8) := this
        _ ≤ 256 ^ 3 := Nat.pow_le_pow_right (by decide) h
        _ = 2 ^ 24 := by norm_num
    rw [BitVec.toNat_setWidth, BitVec.toNat_shiftLeft, BitVec.toNat_setWidth, Nat.shiftLeft_eq,
      hpow, Nat.mod_eq_of_lt (hn.trans (by decide)),
      Nat.mod_eq_of_lt (hlead.trans (by decide)), Nat.mod_eq_of_lt (hlead.trans (by decide))]
  · next h =>
    rw [if_neg h] at hlead
    rw [BitVec.toNat_setWidth, BitVec.toNat_setWidth, BitVec.toNat_ushiftRight,
      Nat.shiftRight_eq_div_pow, hpow, Nat.mod_eq_of_lt (hlead.trans (by decide)),
      Nat.mod_eq_of_lt (hlead.trans (by decide))]

/-- The sign bit of a word of three bytes. -/
theorem signBit_iff {m : ℕ} (hm : m < 2 ^ 24) :
    (BitVec.ofNat 32 m &&& 0x00800000#32 ≠ 0) ↔ 2 ^ 23 ≤ m := by
  rw [ne_eq, ← BitVec.toNat_inj, BitVec.toNat_and, BitVec.toNat_ofNat,
    Nat.mod_eq_of_lt (hm.trans (by decide))]
  show ¬ m &&& 2 ^ 23 = 0 ↔ _
  have hbit : decide (m / 2 ^ 23 % 2 = 1) = decide (2 ^ 23 ≤ m) := by
    rw [decide_eq_decide]
    omega
  rw [Nat.and_two_pow, Nat.testBit_eq_decide_div_mod_eq, hbit]
  by_cases h : 2 ^ 23 ≤ m
  · rw [decide_eq_true h]
    exact iff_of_true (by decide) h
  · rw [decide_eq_false h]
    exact iff_of_false (by decide) h

/-- A mantissa loses its last byte. -/
theorem ofNat_ushiftRight {m : ℕ} (hm : m < 2 ^ 24) :
    BitVec.ofNat 32 m >>> 8 = BitVec.ofNat 32 (m / 2 ^ 8) := by
  apply BitVec.eq_of_toNat_eq
  rw [BitVec.toNat_ushiftRight, BitVec.toNat_ofNat, BitVec.toNat_ofNat,
    Nat.shiftRight_eq_div_pow, Nat.mod_eq_of_lt (hm.trans (by decide)),
    Nat.mod_eq_of_lt (by omega)]

/-- A mantissa with the size above it. -/
theorem toNat_or_size {size m : ℕ} (hsize : size < 256) (hm : m < 2 ^ 24) :
    (BitVec.ofNat 32 m ||| BitVec.ofNat 32 size <<< 24).toNat = size * 2 ^ 24 + m := by
  rw [BitVec.toNat_or, BitVec.toNat_shiftLeft, BitVec.toNat_ofNat, BitVec.toNat_ofNat,
    Nat.shiftLeft_eq, Nat.mod_eq_of_lt (hm.trans (by decide)),
    Nat.mod_eq_of_lt (show size < 2 ^ 32 by omega),
    Nat.mod_eq_of_lt (show size * 2 ^ 24 < 2 ^ 32 by omega), Nat.lor_comm,
    mul_comm size, Nat.two_pow_add_eq_or_of_lt hm]

/-- `GetCompact`, as a size and a mantissa. -/
theorem getCompact_toNat (bn : UInt256) :
    (getCompact bn).toNat =
      if 2 ^ 23 ≤ leadingBytes bn.toNat then
        ((bitLength bn.toNat + 7) / 8 + 1) * 2 ^ 24 + leadingBytes bn.toNat / 2 ^ 8
      else (bitLength bn.toNat + 7) / 8 * 2 ^ 24 + leadingBytes bn.toNat := by
  have hlead := leadingBytes_lt bn.toNat
  have hbits : bitLength bn.toNat ≤ 256 := bitLength_le_iff.2 bn.isLt
  rw [getCompact]
  simp only [bits_eq, leadingWord_eq]
  by_cases h : 2 ^ 23 ≤ leadingBytes bn.toNat
  · rw [if_pos ((signBit_iff hlead).2 h), if_pos h, ofNat_ushiftRight hlead,
      toNat_or_size (by omega) (by omega)]
  · rw [if_neg (fun hs => h ((signBit_iff hlead).1 hs)), if_neg h,
      toNat_or_size (by omega) (by omega)]

/-- **A target read back from its compact form** has its leading bytes. -/
theorem setCompact_getCompact (bn : UInt256) :
    (setCompact (getCompact bn)).bn.toNat = truncated bn.toNat := by
  have hcompact := getCompact_toNat bn
  have hlead := leadingBytes_lt bn.toNat
  have hsign := two_pow_le_leadingBytes_iff bn.toNat
  have htrunc : truncated bn.toNat < 2 ^ 256 := (truncated_le _).trans_lt bn.isLt
  have hn := lt_two_pow_bitLength bn.toNat
  generalize bn.toNat = n at hcompact hlead hsign htrunc hn
  unfold truncated at htrunc ⊢
  by_cases h : 2 ^ 23 ≤ leadingBytes n
  · rw [if_pos h] at hcompact
    obtain ⟨hpos, hmod⟩ := hsign.1 h
    obtain ⟨k, hk⟩ : ∃ k, bitLength n = 8 * k := ⟨bitLength n / 8, by omega⟩
    have hsize : (bitLength n + 7) / 8 = k := by omega
    have hdropped : droppedBytes n = k - 2 := by
      unfold droppedBytes
      omega
    rw [setCompact_toNat hcompact (by omega), hsize, hdropped]
    rw [hdropped] at htrunc
    unfold leadingBytes
    rw [hsize]
    rcases lt_trichotomy k 3 with hlt | rfl | hgt
    · have hpow : (256 : ℕ) ^ (3 - k) = 256 ^ (2 - k) * 2 ^ 8 := by
        rw [show 3 - k = 2 - k + 1 by omega, pow_succ]
        norm_num
      rw [if_pos (by omega), if_pos hlt.le, hpow, ← mul_assoc, Nat.mul_div_cancel _ (by decide),
        show 3 - (k + 1) = 2 - k by omega, Nat.mul_div_cancel _ (by positivity),
        show k - 2 = 0 by omega]
      simp
    · rw [if_neg (by decide), if_pos le_rfl]
      norm_num at htrunc ⊢
      omega
    · have hpow : (256 : ℕ) ^ (k - 2) = 256 ^ (k - 3) * 2 ^ 8 := by
        rw [show k - 2 = k - 3 + 1 by omega, pow_succ]
        norm_num
      rw [if_neg (by omega), if_neg (by omega), Nat.div_div_eq_div_mul, ← hpow,
        show k + 1 - 3 = k - 2 by omega]
      exact Nat.mod_eq_of_lt htrunc
  · rw [if_neg h] at hcompact
    have hdropped : droppedBytes n = (bitLength n + 7) / 8 - 3 := by
      unfold droppedBytes
      omega
    rw [setCompact_toNat hcompact (by omega), hdropped]
    rw [hdropped] at htrunc
    unfold leadingBytes
    split
    · next hle =>
      rw [Nat.mul_div_cancel _ (by positivity), show (bitLength n + 7) / 8 - 3 = 0 by omega]
      simp
    · next hgt => exact Nat.mod_eq_of_lt htrunc

/-! ## `GetNextWorkRequired` -/

namespace Network

/-- `ProofOfWorkLimit()`. -/
def proofOfWorkLimit : Network → UInt256
  | regtest => ~~~(0#256) >>> 1
  | _ => ~~~(0#256) >>> 20

/-- `TargetSpacing()`, in seconds. -/
def targetSpacing : Network → ℤ
  | main | unittest => 120
  | testnet | regtest => 60

end Network

/-- `bnTargetLimit` of the proof-of-stake branch. -/
def proofOfStakeLimit : UInt256 := ~~~(0#256) >>> 24

/-- The target of an index entry. -/
def CBlockIndex.target (pindex : CBlockIndex) : UInt256 :=
  (setCompact (BitVec.ofNat 32 pindex.nBits)).bn

/-- The proof-of-stake branch: a moving average of the target.  The factor is an `int64_t`, for which
`operator*=` of a 32-bit word is chosen. -/
def proofOfStakeTarget (bnOld : UInt256) (nActualSpacing : ℤ) : UInt256 :=
  let nActualSpacing := if nActualSpacing < 0 then 1 else nActualSpacing
  let nInterval : ℤ := 40
  let bnNew := bnOld *
    (BitVec.ofInt 32 ((nInterval - 1) * 60 + nActualSpacing + nActualSpacing)).setWidth 256
  let bnNew := bnNew / (BitVec.ofInt 64 ((nInterval + 1) * 60)).setWidth 256
  if bnNew ≤ 0 ∨ proofOfStakeLimit < bnNew then proofOfStakeLimit else bnNew

/-- What the loop over the past blocks carries. -/
structure DgwState where
  nActualTimespan : ℤ := 0
  lastBlockTime : ℤ := 0
  countBlocks : ℕ := 0
  pastDifficultyAverage : UInt256 := 0
  pastDifficultyAveragePrev : UInt256 := 0
  deriving DecidableEq, Repr

/-- A block of the loop. -/
def dgwStep (st : DgwState) (blockReading : CBlockIndex) : DgwState :=
  let countBlocks := st.countBlocks + 1
  let average :=
    if countBlocks = 1 then blockReading.target
    else (st.pastDifficultyAveragePrev * BitVec.ofNat 256 countBlocks + blockReading.target) /
      BitVec.ofNat 256 (countBlocks + 1)
  { nActualTimespan :=
      if 0 < st.lastBlockTime then
        st.nActualTimespan + (st.lastBlockTime - blockReading.nTime)
      else st.nActualTimespan
    lastBlockTime := blockReading.nTime
    countBlocks := countBlocks
    pastDifficultyAverage := if countBlocks ≤ 24 then average else st.pastDifficultyAverage
    pastDifficultyAveragePrev := if countBlocks ≤ 24 then average else st.pastDifficultyAveragePrev }

/-- The loop, at its counter, over the blocks from `BlockReading` down. -/
def dgwLoop : ℕ → List CBlockIndex → DgwState → DgwState
  | _, [], st => st
  | i, blockReading :: rest, st =>
      if blockReading.nHeight ≤ 0 then st
      else if 24 < i then st
      else dgwLoop (i + 1) rest (dgwStep st blockReading)

/-- The timespan between its bounds. -/
def clampTimespan (nTargetTimespan nActualTimespan : ℤ) : ℤ :=
  let n := if nActualTimespan < nTargetTimespan.tdiv 3 then nTargetTimespan.tdiv 3
    else nActualTimespan
  if nTargetTimespan * 3 < n then nTargetTimespan * 3 else n

/-- The retarget after the loop. -/
def dgwTarget (net : Network) (st : DgwState) : UInt256 :=
  let nTargetTimespan := st.countBlocks * net.targetSpacing
  let nActualTimespan := clampTimespan nTargetTimespan st.nActualTimespan
  let bnNew := st.pastDifficultyAverage * (BitVec.ofInt 32 nActualTimespan).setWidth 256
  let bnNew := bnNew / (BitVec.ofInt 64 nTargetTimespan).setWidth 256
  if net.proofOfWorkLimit < bnNew then net.proofOfWorkLimit else bnNew

/-- `GetNextWorkRequired`, on `pindexLast` and its ancestors; `none` is a null pointer that is read. -/
def getNextWorkRequired (net : Network) : List CBlockIndex → Option (BitVec 32)
  | [] => some (getCompact net.proofOfWorkLimit)
  | pindexLast :: ancestors =>
      if pindexLast.nHeight = 0 ∨ pindexLast.nHeight < 24 then some (getCompact net.proofOfWorkLimit)
      else if net.lastPowBlock < pindexLast.nHeight then
        match ancestors with
        | [] => none
        | pprev :: _ => some (getCompact
            (proofOfStakeTarget pindexLast.target (pindexLast.nTime - pprev.nTime)))
      else some (getCompact (dgwTarget net (dgwLoop 1 (pindexLast :: ancestors) {})))

end FairCoin
