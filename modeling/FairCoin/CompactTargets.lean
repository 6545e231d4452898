import FairCoin.Difficulty

/-!
# Compact targets as a number format

`uint256::GetCompact` and `uint256::SetCompact` of `src/uint256.cpp`, as a floating-point format: a
size in bytes and a mantissa of three bytes that keeps its sign bit clear.

* `getCompactChecked` — `GetCompact` with the sign and with its two assertions.
* `compactSize`, `compactMantissa` — the two fields of the compact form of a number.
* `compactValue` — the number that a word denotes, a rational one below the size three.
* `setCompact_spec` — the value and the two flags of every word.
* `compact_rounds` — **compact targets round safely**: down, by less than one part in `2^15`, in
  order, and once only.
-/

namespace FairCoin

/-! ## `GetCompact` with its assertions -/

/-- `uint256::GetCompact(fNegative)`; `none` when an assertion fails. -/
def getCompactChecked (bn : UInt256) (fNegative : Bool) : Option (BitVec 32) :=
  let nSize := (UInt256.bits bn + 7) / 8
  let nCompact : BitVec 32 :=
    if nSize ≤ 3 then (bn.setWidth 64 <<< (8 * (3 - nSize))).setWidth 32
    else ((bn >>> (8 * (nSize - 3))).setWidth 64).setWidth 32
  let (nCompact, nSize) :=
    if nCompact &&& 0x00800000#32 ≠ 0 then (nCompact >>> 8, nSize + 1) else (nCompact, nSize)
  if nCompact &&& ~~~0x007fffff#32 ≠ 0 then none
  else if ¬nSize < 256 then none
  else
    let nCompact := nCompact ||| BitVec.ofNat 32 nSize <<< 24
    some (nCompact ||| if fNegative ∧ nCompact &&& 0x007fffff#32 ≠ 0 then 0x00800000#32 else 0)

/-! ## The fields of the compact form -/

/-- The size in the compact form of a number. -/
def compactSize (n : ℕ) : ℕ := if n = 0 then 0 else bitLength n / 8 + 1

/-- The mantissa in the compact form of a number. -/
def compactMantissa (n : ℕ) : ℕ :=
  if compactSize n ≤ 3 then n * 256 ^ (3 - compactSize n) else n / 256 ^ (compactSize n - 3)

theorem bitLength_eq_zero_iff {n : ℕ} : bitLength n = 0 ↔ n = 0 := by
  have h := @bitLength_le_iff n 0
  omega

theorem compactSize_le (n : ℕ) : compactSize n ≤ bitLength n / 8 + 1 := by
  unfold compactSize
  split
  · exact Nat.zero_le _
  · exact le_rfl

theorem compactSize_mono {a b : ℕ} (h : a ≤ b) : compactSize a ≤ compactSize b := by
  have hbits := bitLength_mono h
  unfold compactSize
  split
  · exact Nat.zero_le _
  · rw [if_neg (by omega)]
    omega

theorem droppedBytes_eq (n : ℕ) : droppedBytes n = compactSize n - 3 := by
  unfold droppedBytes compactSize
  split
  · next h =>
    rw [bitLength_eq_zero_iff.2 h]
  · omega

/-- The mantissa leaves the sign bit clear. -/
theorem compactMantissa_lt (n : ℕ) : compactMantissa n < 2 ^ 23 := by
  have hpow : ∀ k, (256 : ℕ) ^ k = 2 ^ (8 * k) := fun k => by
    rw [pow_mul]
    norm_num
  unfold compactMantissa
  by_cases h0 : n = 0
  · rw [h0]
    simp
  have hsize : compactSize n = bitLength n / 8 + 1 := if_neg h0
  have hn := lt_two_pow_bitLength n
  split
  · next h =>
    calc n * 256 ^ (3 - compactSize n) < 2 ^ bitLength n * 2 ^ (8 * (3 - compactSize n)) := by
          rw [hpow]
          exact Nat.mul_lt_mul_of_pos_right hn (by positivity)
      _ = 2 ^ (bitLength n + 8 * (3 - compactSize n)) := (pow_add _ _ _).symm
      _ ≤ 2 ^ 23 := Nat.pow_le_pow_right (by decide) (by omega)
  · next h =>
    rw [hpow, Nat.div_lt_iff_lt_mul (by positivity), ← pow_add]
    exact hn.trans_le (Nat.pow_le_pow_right (by decide) (by omega))

/-- **`GetCompact` writes the two fields.** -/
theorem getCompact_fields (bn : UInt256) :
    (getCompact bn).toNat = compactSize bn.toNat * 2 ^ 24 + compactMantissa bn.toNat := by
  have hcompact := getCompact_toNat bn
  have hsign := two_pow_le_leadingBytes_iff bn.toNat
  generalize bn.toNat = n at hcompact hsign ⊢
  rw [hcompact]
  by_cases h0 : n = 0
  · rw [h0]
    decide
  have hpos : bitLength n ≠ 0 := fun h => h0 (bitLength_eq_zero_iff.1 h)
  have hsize : compactSize n = bitLength n / 8 + 1 := if_neg h0
  by_cases h : 2 ^ 23 ≤ leadingBytes n
  · rw [if_pos h]
    obtain ⟨-, hmod⟩ := hsign.1 h
    obtain ⟨k, hk⟩ : ∃ k, bitLength n = 8 * k := ⟨bitLength n / 8, by omega⟩
    have hk' : (bitLength n + 7) / 8 = k := by omega
    have hcs : compactSize n = k + 1 := by omega
    rw [hk', hcs]
    congr 1
    unfold leadingBytes compactMantissa
    rw [hk', hcs]
    rcases lt_trichotomy k 3 with hlt | rfl | hgt
    · rw [if_pos hlt.le, if_pos (by omega), show 3 - k = 3 - (k + 1) + 1 by omega, pow_succ,
        ← mul_assoc]
      exact Nat.mul_div_cancel _ (by decide)
    · rw [if_pos le_rfl, if_neg (by decide)]
      norm_num
    · have hpow : (256 : ℕ) ^ (k + 1 - 3) = 256 ^ (k - 3) * 2 ^ 8 := by
        rw [show k + 1 - 3 = k - 3 + 1 by omega, pow_succ]
        norm_num
      rw [if_neg (by omega), if_neg (by omega), hpow, ← Nat.div_div_eq_div_mul]
  · rw [if_neg h]
    have hmod : bitLength n % 8 ≠ 0 := fun hmod => h (hsign.2 ⟨hpos, hmod⟩)
    have hcs : (bitLength n + 7) / 8 = compactSize n := by omega
    unfold leadingBytes compactMantissa
    rw [hcs]

/-- What is left below the sign bit passes the first assertion. -/
theorem and_not_mantissa {m : ℕ} (hm : m < 2 ^ 23) :
    BitVec.ofNat 32 m &&& ~~~0x007fffff#32 = 0 := by
  apply BitVec.eq_of_getLsbD_eq
  intro i hi
  show _ = (0#32).getLsbD i
  rw [BitVec.getLsbD_and, BitVec.getLsbD_zero, BitVec.getLsbD_ofNat]
  by_cases hhigh : 23 ≤ i
  · rw [Nat.testBit_lt_two_pow (hm.trans_le (Nat.pow_le_pow_right (by decide) hhigh)),
      Bool.and_false, Bool.false_and]
  · have hlow : (~~~0x007fffff#32).getLsbD i = false := by
      interval_cases i <;> decide
    rw [hlow, Bool.and_false]

/-- **The assertions of `GetCompact` hold**, with and without the sign. -/
theorem getCompactChecked_eq (bn : UInt256) (fNegative : Bool) :
    getCompactChecked bn fNegative = some (getCompact bn |||
      if fNegative ∧ getCompact bn &&& 0x007fffff#32 ≠ 0 then 0x00800000#32 else 0) := by
  have hlead := leadingBytes_lt bn.toNat
  have hbits : bitLength bn.toNat ≤ 256 := bitLength_le_iff.2 bn.isLt
  unfold getCompactChecked getCompact
  simp only [bits_eq, leadingWord_eq]
  by_cases h : 2 ^ 23 ≤ leadingBytes bn.toNat
  · simp only [if_pos ((signBit_iff hlead).2 h), ofNat_ushiftRight hlead,
      and_not_mantissa (show leadingBytes bn.toNat / 2 ^ 8 < 2 ^ 23 by omega)]
    rw [if_neg (by simp), if_neg (by omega)]
  · simp only [if_neg fun hs => h ((signBit_iff hlead).1 hs), and_not_mantissa (not_le.1 h)]
    rw [if_neg (by simp), if_neg (by omega)]

/-! ## `SetCompact` on every word -/

/-- The number that a word denotes: the mantissa, shifted to the size. -/
def compactValue (nCompact : BitVec 32) : ℚ :=
  ((nCompact &&& 0x007fffff#32).toNat : ℚ) * (256 : ℚ) ^ (((nCompact >>> 24).toNat : ℤ) - 3)

/-- What is left of the number when the bytes below the point are dropped. -/
theorem floor_compactValue (nCompact : BitVec 32) : ⌊compactValue nCompact⌋₊ =
    if (nCompact >>> 24).toNat ≤ 3 then
      (nCompact &&& 0x007fffff#32).toNat / 256 ^ (3 - (nCompact >>> 24).toNat)
    else (nCompact &&& 0x007fffff#32).toNat * 256 ^ ((nCompact >>> 24).toNat - 3) := by
  unfold compactValue
  generalize (nCompact >>> 24).toNat = nSize
  generalize (nCompact &&& 0x007fffff#32).toNat = nMantissa
  split
  · next h =>
    rw [show ((nSize : ℤ) - 3) = -((3 - nSize : ℕ) : ℤ) by omega, zpow_neg, zpow_natCast,
      ← div_eq_mul_inv]
    rw [show ((256 : ℚ) ^ (3 - nSize)) = ((256 ^ (3 - nSize) : ℕ) : ℚ) by push_cast; rfl]
    exact Nat.floor_div_eq_div _ _
  · next h =>
    rw [show ((nSize : ℤ) - 3) = ((nSize - 3 : ℕ) : ℤ) by omega, zpow_natCast]
    rw [show (nMantissa : ℚ) * 256 ^ (nSize - 3) = ((nMantissa * 256 ^ (nSize - 3) : ℕ) : ℚ) by
      push_cast; rfl]
    exact Nat.floor_natCast _

/-- The three ranges of the overflow test are where the number is out of range. -/
theorem overflow_ranges {nSize nMantissa : ℕ} (hm : nMantissa < 2 ^ 23) (hsize : 3 < nSize) :
    (nMantissa ≠ 0 ∧ (34 < nSize ∨ 0xff < nMantissa ∧ 33 < nSize ∨ 0xffff < nMantissa ∧ 32 < nSize))
      ↔ 2 ^ 256 ≤ nMantissa * 256 ^ (nSize - 3) := by
  have hpow : (2 : ℕ) ^ 256 = 256 ^ 32 := by norm_num
  rw [hpow]
  rcases Nat.lt_or_ge nSize 32 with hlt | hge
  · have hlow : nMantissa * 256 ^ (nSize - 3) < 256 ^ 32 := by
      calc nMantissa * 256 ^ (nSize - 3) < 256 ^ 3 * 256 ^ (nSize - 3) :=
            Nat.mul_lt_mul_of_pos_right (by omega) (by positivity)
        _ = 256 ^ nSize := by rw [← pow_add, show 3 + (nSize - 3) = nSize by omega]
        _ ≤ 256 ^ 32 := Nat.pow_le_pow_right (by decide) hlt.le
    exact iff_of_false (by omega) (not_le.2 hlow)
  · have hsplit : ∀ k, nSize - 3 = 29 + k → (256 ^ 32 ≤ nMantissa * 256 ^ (nSize - 3) ↔
        256 ^ 3 ≤ nMantissa * 256 ^ k) := by
      intro k hk
      rw [hk, pow_add, show (256 : ℕ) ^ 32 = 256 ^ 3 * 256 ^ 29 by norm_num, mul_comm (256 ^ 29),
        ← mul_assoc]
      exact Nat.mul_le_mul_right_iff (by positivity)
    obtain ⟨k, hk⟩ : ∃ k, nSize = 32 + k := ⟨nSize - 32, by omega⟩
    rw [hsplit k (by omega)]
    rcases Nat.lt_or_ge k 3 with hlt | hge3
    · interval_cases k <;> norm_num <;> omega
    · have hbig : 256 ^ 3 ≤ 256 ^ k := Nat.pow_le_pow_right (by decide) hge3
      constructor
      · intro h
        exact hbig.trans (Nat.le_mul_of_pos_left _ (by omega))
      · intro h
        refine ⟨fun h0 => ?_, by omega⟩
        rw [h0, zero_mul] at h
        norm_num at h

theorem compactValue_nonneg (nCompact : BitVec 32) : 0 ≤ compactValue nCompact := by
  unfold compactValue
  positivity

/-- `SetCompact` reports an overflow exactly for numbers of more than 256 bits. -/
theorem fOverflow_iff (nCompact : BitVec 32) :
    (setCompact nCompact).fOverflow = true ↔ 2 ^ 256 ≤ ⌊compactValue nCompact⌋₊ := by
  have hm := mantissa_lt nCompact
  rw [floor_compactValue]
  unfold setCompact
  by_cases hsize : (nCompact >>> 24).toNat ≤ 3
  · have hsmall : (nCompact &&& 0x007fffff#32).toNat / 256 ^ (3 - (nCompact >>> 24).toNat) <
        2 ^ 256 := (Nat.div_le_self _ _).trans_lt (hm.trans (by decide))
    simp only [if_pos hsize, Bool.and_eq_true, decide_eq_true_eq]
    refine iff_of_false (fun h => ?_) (not_le.2 hsmall)
    omega
  · rw [if_neg hsize, ← overflow_ranges hm (by omega)]
    simp only [if_neg hsize, Bool.and_eq_true, decide_eq_true_eq, BitVec.lt_def, ne_eq,
      ← BitVec.toNat_inj]
    rfl

/-- `SetCompact` reports a negative number exactly when the sign bit is set and the number is not
zero. -/
theorem fNegative_iff (nCompact : BitVec 32) : (setCompact nCompact).fNegative = true ↔
    nCompact &&& 0x00800000#32 ≠ 0 ∧ ⌊compactValue nCompact⌋₊ ≠ 0 := by
  have hpow : ∀ k : ℕ, 2 ^ (8 * k) = 256 ^ k := by
    intro k
    rw [pow_mul]
    norm_num
  rw [floor_compactValue, and_comm]
  unfold setCompact
  simp only [Bool.and_eq_true, decide_eq_true_eq]
  refine and_congr_left fun _ => ?_
  rw [ne_eq, ← BitVec.toNat_inj]
  by_cases hsize : (nCompact >>> 24).toNat ≤ 3
  · rw [if_pos hsize, if_pos hsize, BitVec.toNat_ushiftRight, Nat.shiftRight_eq_div_pow, hpow]
    rfl
  · rw [if_neg hsize, if_neg hsize, ne_eq, Nat.mul_eq_zero, not_or]
    exact ⟨fun h => ⟨h, by positivity⟩, fun h => h.1⟩

/-- **What `SetCompact` makes of a word.** -/
theorem setCompact_spec (nCompact : BitVec 32) :
    ((setCompact nCompact).fOverflow = true ↔ 2 ^ 256 ≤ compactValue nCompact) ∧
    ((setCompact nCompact).fNegative = true ↔
      nCompact &&& 0x00800000#32 ≠ 0 ∧ ⌊compactValue nCompact⌋₊ ≠ 0) ∧
    ((setCompact nCompact).fOverflow = false →
      (setCompact nCompact).bn.toNat = ⌊compactValue nCompact⌋₊) := by
  refine ⟨?_, fNegative_iff nCompact, fun h => ?_⟩
  · rw [fOverflow_iff, Nat.le_floor_iff (compactValue_nonneg nCompact)]
    push_cast
    rfl
  · have hfits : ⌊compactValue nCompact⌋₊ < 2 ^ 256 := by
      rw [← not_le, ← fOverflow_iff, h]
      exact Bool.false_ne_true
    rw [setCompact_bn]
    rw [floor_compactValue] at hfits ⊢
    split
    · rfl
    · next hsize =>
      rw [if_neg hsize] at hfits
      exact Nat.mod_eq_of_lt hfits

/-! ## Rounding -/

/-- Dropping the last bytes keeps the length. -/
theorem bitLength_truncated (n : ℕ) : bitLength (truncated n) = bitLength n := by
  rcases Nat.eq_zero_or_pos (bitLength n) with h0 | hpos
  · rw [bitLength_eq_zero_iff.1 h0]
    rfl
  apply le_antisymm (bitLength_mono (truncated_le n))
  by_contra hlt
  rw [not_le, ← Nat.le_sub_one_iff_lt hpos, bitLength_le_iff] at hlt
  have hlow : 2 ^ (bitLength n - 1) ≤ n := two_pow_le_of_lt_bitLength (by omega)
  have hdropped : 8 * droppedBytes n ≤ bitLength n - 1 := by
    unfold droppedBytes
    omega
  -- the highest bit is a multiple of what is dropped
  have hmul : 2 ^ (bitLength n - 1) =
      2 ^ (bitLength n - 1 - 8 * droppedBytes n) * 256 ^ droppedBytes n := by
    rw [show (256 : ℕ) = 2 ^ 8 by norm_num, ← pow_mul, ← pow_add]
    congr 1
    omega
  have hle : 2 ^ (bitLength n - 1) ≤ truncated n := by
    rw [truncated, hmul]
    refine Nat.mul_le_mul_right _ ?_
    rw [Nat.le_div_iff_mul_le (by positivity), ← hmul]
    exact hlow
  omega

theorem compactSize_truncated (n : ℕ) : compactSize (truncated n) = compactSize n := by
  have hbits := bitLength_truncated n
  have hzero : truncated n = 0 ↔ n = 0 := by
    rw [← bitLength_eq_zero_iff, hbits, bitLength_eq_zero_iff]
  unfold compactSize
  rw [hbits, if_congr hzero rfl rfl]

/-- A number that has lost its last bytes has the same compact form. -/
theorem compactMantissa_truncated (n : ℕ) : compactMantissa (truncated n) = compactMantissa n := by
  unfold compactMantissa
  rw [compactSize_truncated]
  split
  · next h =>
    have hdropped : droppedBytes n = 0 := by
      rw [droppedBytes_eq]
      omega
    rw [truncated, hdropped, pow_zero, Nat.div_one, mul_one]
  · rw [truncated, droppedBytes_eq, Nat.mul_div_cancel _ (by positivity)]

/-- **Compact forms are in the order of the numbers.** -/
theorem compactFields_mono {a b : ℕ} (h : a ≤ b) :
    compactSize a * 2 ^ 24 + compactMantissa a ≤ compactSize b * 2 ^ 24 + compactMantissa b := by
  have hsize := compactSize_mono h
  have ha := compactMantissa_lt a
  rcases hsize.eq_or_lt with heq | hlt
  · have hmantissa : compactMantissa a ≤ compactMantissa b := by
      unfold compactMantissa
      rw [heq]
      split
      · exact Nat.mul_le_mul_right _ h
      · exact Nat.div_le_div_right h
    omega
  · omega

/-- What is lost is less than one part in `2 ^ 15`. -/
theorem sub_truncated_lt (n : ℕ) : (n - truncated n) * 2 ^ 15 < n ∨ truncated n = n := by
  rcases Nat.eq_zero_or_pos (droppedBytes n) with hzero | hpos
  · right
    rw [truncated, hzero, pow_zero, Nat.div_one, mul_one]
  · left
    have hlost := lt_truncated_add n
    have hlow := pow_droppedBytes_le hpos
    have hpow : 0 < 256 ^ droppedBytes n := by positivity
    calc (n - truncated n) * 2 ^ 15 < 256 ^ droppedBytes n * 2 ^ 15 :=
          Nat.mul_lt_mul_of_pos_right (by omega) (by decide)
      _ ≤ n := hlow

/-- **Compact targets round safely.**  The assertions of `GetCompact` hold for every number; what
`SetCompact` reads back is not larger, less than one part in `2 ^ 15` smaller, reported without a
flag, and has the same compact form; and compact forms are in the order of the numbers.  For every
word `SetCompact` reports an overflow exactly when the number that the word denotes has more than
256 bits, a negative number exactly when the sign bit is set and the number is not zero, and
without an overflow yields the number, rounded down. -/
theorem compact_rounds :
    (∀ x : UInt256, (∀ fNegative, (getCompactChecked x fNegative).isSome) ∧
      getCompactChecked x false = some (getCompact x) ∧
      (setCompact (getCompact x)).bn ≤ x ∧
      ((x.toNat - (setCompact (getCompact x)).bn.toNat) * 2 ^ 15 < x.toNat ∨
        (setCompact (getCompact x)).bn = x) ∧
      (setCompact (getCompact x)).fNegative = false ∧
      (setCompact (getCompact x)).fOverflow = false ∧
      getCompact (setCompact (getCompact x)).bn = getCompact x) ∧
    (∀ x y : UInt256, x ≤ y → (getCompact x).toNat ≤ (getCompact y).toNat) ∧
    ∀ nCompact : BitVec 32,
      ((setCompact nCompact).fOverflow = true ↔ 2 ^ 256 ≤ compactValue nCompact) ∧
      ((setCompact nCompact).fNegative = true ↔
        nCompact &&& 0x00800000#32 ≠ 0 ∧ ⌊compactValue nCompact⌋₊ ≠ 0) ∧
      ((setCompact nCompact).fOverflow = false →
        (setCompact nCompact).bn.toNat = ⌊compactValue nCompact⌋₊) := by
  refine ⟨fun x => ?_, fun x y h => ?_, setCompact_spec⟩
  · have hread := setCompact_getCompact x
    have hfields := getCompact_fields x
    obtain ⟨hsize, hmantissa, hsign⟩ := fields_of_word hfields (compactMantissa_lt x.toNat)
    refine ⟨fun fNegative => ?_, ?_, ?_, ?_, ?_, ?_, ?_⟩
    · rw [getCompactChecked_eq]
      rfl
    · rw [getCompactChecked_eq]
      simp
    · rw [BitVec.le_def, hread]
      exact truncated_le _
    · rw [hread, ← BitVec.toNat_inj, hread]
      exact sub_truncated_lt _
    · rw [← Bool.not_eq_true, fNegative_iff]
      exact fun h => h.1 hsign
    · have hfloor : ⌊compactValue (getCompact x)⌋₊ < 2 ^ 256 := by
        rw [floor_compactValue, hsize, hmantissa]
        split
        · have hm := compactMantissa_lt x.toNat
          exact (Nat.div_le_self _ _).trans_lt (hm.trans (by decide))
        · next hlarge =>
          rw [compactMantissa, if_neg hlarge]
          exact (Nat.div_mul_le_self _ _).trans_lt x.isLt
      rw [← Bool.not_eq_true, fOverflow_iff, not_le]
      exact hfloor
    · apply BitVec.eq_of_toNat_eq
      rw [getCompact_fields, hread, compactSize_truncated, compactMantissa_truncated, hfields]
  · rw [getCompact_fields, getCompact_fields]
    exact compactFields_mono (BitVec.le_def.1 h)

end FairCoin
