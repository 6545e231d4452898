import FairCoin.Coins
import FairCoin.Compressor
import FairCoin.Lib.Sparse

/-!
# Coins entries on disk

`CCoins::Serialize`, `CCoins::Unserialize`, `CCoins::GetSerializeSize` and `CCoins::CalcMaskSize` of
`src/coins.h` and `src/coins.cpp`.  A header code packs two flags, the availability of the first
two outputs and the number of bytes of the mask of the other ones that are not zero.

* `headerCode` — the header code; `Serialize` multiplies the count by 16 and `GetSerializeSize`
  by 8.
* `bits_eq` — the two bits and the mask are the availability of all outputs.
* `Storable` — the entries that the format can hold at all: their outputs come back one by one, and
  the counters do not wrap.
* `SizesAgree` — the two header codes take the same number of bytes.
* `stored_iff` — **an entry is read back and its size is right exactly when it is storable and the
  two header codes take the same number of bytes**.
-/

namespace FairCoin

open Codec Slots

/-! ## Signed numbers -/

/-- `WriteVarInt` of an `int`; of a negative one it keeps the low seven bits. -/
def putInt (n : ℤ) : Bytes :=
  if n < 0 then [UInt8.ofNat (n % 128).toNat] else putVarInt 32 n.toNat

/-- `ReadVarInt` into an `int`. -/
def getInt (s : Bytes) : Option (ℤ × Bytes) :=
  (getVarInt 32 s).map fun x => (wrap32 x.1, x.2)

/-- `GetSizeOfVarInt` of an `int`. -/
def sizeOfInt (n : ℤ) : ℕ := if n < 0 then 1 else sizeOfVarInt 32 n.toNat

theorem length_putInt (n : ℤ) : (putInt n).length = sizeOfInt n := by
  unfold putInt sizeOfInt
  split
  · rfl
  · exact length_putVarInt 32 _

/-- Numbers that are not negative come back. -/
theorem getInt_putInt {n : ℤ} (h0 : 0 ≤ n) (hn : n < 2 ^ 31) (rest : Bytes) :
    getInt (putInt n ++ rest) = some (n, rest) := by
  have hback : wrap32 (n.toNat : ℤ) = n := by
    rw [wrap32, Int.bmod_def]
    omega
  rw [getInt, putInt, if_neg (not_lt.2 h0), getVarInt_putVarInt rest (by norm_num) (by omega),
    Option.map_some, hback]

namespace CCoins

/-! ## The format -/

/-- The bytes of the mask that has the outputs from the third one on. -/
def maskCount (c : CCoins) : ℕ := (c.vout.length - 2 + 7) / 8

/-- Byte `b` of the mask. -/
def chAvail (c : CCoins) (b : ℕ) : UInt8 := byteOf fun i => c.isAvailable (2 + b * 8 + i)

/-- The first bytes of the mask. -/
def mask (c : CCoins) (n : ℕ) : Bytes := (List.range n).map c.chAvail

/-- One byte of the loop of `CCoins::CalcMaskSize`. -/
def calcMaskStep (c : CCoins) : ℕ × ℕ → ℕ → ℕ × ℕ
  | (nLastUsedByte, nNonzeroBytes), b =>
      let fZero := (List.range 8).all fun i => !c.isAvailable (2 + b * 8 + i)
      if fZero then (nLastUsedByte, nNonzeroBytes) else (b + 1, nNonzeroBytes + 1)

/-- `CCoins::CalcMaskSize`: the bytes up to the last one that is not zero, and the number of those
that are not zero. -/
def calcMaskSize (c : CCoins) : ℕ × ℕ := (List.range c.maskCount).foldl c.calcMaskStep (0, 0)

/-- The count in the header code: one less when neither of the first outputs is there. -/
def maskCode (c : CCoins) : ℕ :=
  c.calcMaskSize.2 - if c.isAvailable 0 || c.isAvailable 1 then 0 else 1

/-- The low bits of the header code. -/
def headerFlags (c : CCoins) : ℕ :=
  (if c.fCoinBase then 1 else 0) + (if c.fCoinStake then 2 else 0) +
    (if c.isAvailable 0 then 4 else 0) + (if c.isAvailable 1 then 8 else 0)

/-- The header code, in `unsigned int`. -/
def headerCode (nFactor : ℕ) (c : CCoins) : ℕ := (nFactor * c.maskCode + c.headerFlags) % 2 ^ 32

/-- Whether the code gets past its loops and its assertion: unsigned counters go through at most
`2 ^ 32 - 6` outputs, and there is something unspent. -/
def writable (c : CCoins) : Bool :=
  decide (c.vout.length ≤ 2 ^ 32 - 6) &&
    ((c.isAvailable 0 || c.isAvailable 1) || c.calcMaskSize.2 != 0)

/-- `GetSerializeSize` of the unspent outputs: `CSizeComputer` counts the bytes that the writer of
each one writes. -/
def sizeOfOutputs (ops : CurveOps) (c : CCoins) : ℕ :=
  (c.vout.map fun o : CTxOut => if o.isNull then 0 else ((diskTxOut ops).put o).length).sum

/-- `CCoins::GetSerializeSize`, in `unsigned int`. -/
def getSerializeSize (ops : CurveOps) (c : CCoins) : Option ℕ :=
  if c.writable then
    some ((sizeOfInt c.nVersion + sizeOfVarInt 32 (headerCode 8 c) + c.calcMaskSize.1 +
      c.sizeOfOutputs ops + sizeOfInt c.nHeight) % 2 ^ 32)
  else none

/-- `CCoins::Serialize`. -/
def serialize (ops : CurveOps) (c : CCoins) : Option Bytes :=
  if c.writable then
    some (putInt c.nVersion ++ (putVarInt 32 (headerCode 16 c) ++ (c.mask c.calcMaskSize.1 ++
      (putSparse (diskTxOut ops) CTxOut.isNull c.vout ++ putInt c.nHeight))))
  else none

/-- `CCoins::Unserialize` after the header code. -/
def unserializeOutputs (ops : CurveOps) (nVersion : ℤ) (nCode : ℕ) (s : Bytes) :
    Option (CCoins × Bytes) :=
  let fFirst := nCode.testBit 2
  let fSecond := nCode.testBit 3
  let nMaskCode := nCode / 16 + if fFirst || fSecond then 0 else 1
  (readMask nMaskCode s).bind fun (bits, s) =>
    (getSparse (diskTxOut ops) CTxOut.null (fFirst :: fSecond :: bits) s).bind fun (vout, s) =>
      (getInt s).map fun (nHeight, s) =>
        ({ fCoinBase := nCode.testBit 0, fCoinStake := nCode.testBit 1, vout := vout,
           nHeight := nHeight, nVersion := nVersion : CCoins }.cleanup, s)

/-- `CCoins::Unserialize`. -/
def unserialize (ops : CurveOps) (s : Bytes) : Option (CCoins × Bytes) :=
  (getInt s).bind fun (nVersion, s) =>
    (getVarInt 32 s).bind fun (nCode, s) => unserializeOutputs ops nVersion nCode s

/-! ## The mask -/

variable {ops : CurveOps} {c : CCoins}

theorem isAvailable_eq {n : ℕ} (h : n < c.vout.length) :
    c.isAvailable n = !(c.vout[n]).isNull := by
  rw [isAvailable, List.getElem?_eq_getElem h]

theorem isAvailable_eq_false {n : ℕ} (h : c.vout.length ≤ n) : c.isAvailable n = false := by
  rw [isAvailable, List.getElem?_eq_none h]

theorem calcMaskStep_eq (x : ℕ × ℕ) (b : ℕ) :
    c.calcMaskStep x b = if c.chAvail b = 0 then x else (b + 1, x.2 + 1) := by
  have hzero : ((List.range 8).all fun i => !c.isAvailable (2 + b * 8 + i)) = true ↔
      c.chAvail b = 0 := (byteOf_eq_zero_iff _).symm
  unfold calcMaskStep
  by_cases h : c.chAvail b = 0
  · rw [if_pos h]
    simp only [hzero.2 h, if_true]
  · rw [if_neg h]
    simp only [mt hzero.1 h, if_false, Bool.false_eq_true]

/-- The second number is the count of the bytes that are not zero. -/
theorem calcMask_nonzero (n : ℕ) :
    ((List.range n).foldl c.calcMaskStep (0, 0)).2 = nonzero (c.mask n) := by
  induction n with
  | zero => rfl
  | succ n ih =>
    rw [List.range_succ, List.foldl_append, List.foldl_cons, List.foldl_nil, calcMaskStep_eq, mask,
      List.range_succ, List.map_append, nonzero, List.countP_append, ← nonzero, ← mask, ← ih]
    split
    · next h => simp [h]
    · next h => simp [h]

/-- When there is no vacant slot at the end, the last byte of the mask is not zero. -/
theorem chAvail_last (htrim : Trimmed CTxOut.isNull c.vout) {n : ℕ} (hn : c.maskCount = n + 1) :
    c.chAvail n ≠ 0 := by
  unfold maskCount at hn
  have hne : c.vout ≠ [] := List.ne_nil_of_length_pos (by omega)
  have havail : c.isAvailable (c.vout.length - 1) = true := by
    obtain ⟨o, ho⟩ := Option.isSome_iff_exists.1 (htrim.slot_last hne)
    obtain ⟨hget, hnull⟩ := slot_eq_some_iff.1 ho
    rw [isAvailable, hget]
    simp only [hnull, Bool.not_false]
  intro h
  have hall := List.all_eq_true.1 ((byteOf_eq_zero_iff _).1 h) (c.vout.length - 1 - (2 + n * 8))
    (List.mem_range.2 (by omega))
  have hidx : 2 + n * 8 + (c.vout.length - 1 - (2 + n * 8)) = c.vout.length - 1 := by omega
  rw [hidx, havail] at hall
  cases hall

/-- Without a vacant slot at the end the mask has all its bytes. -/
theorem calcMaskSize_eq (htrim : Trimmed CTxOut.isNull c.vout) :
    c.calcMaskSize = (c.maskCount, nonzero (c.mask c.maskCount)) := by
  refine Prod.ext ?_ (calcMask_nonzero _)
  rw [calcMaskSize]
  cases hn : c.maskCount with
  | zero => rfl
  | succ n =>
    rw [List.range_succ, List.foldl_append, List.foldl_cons, List.foldl_nil, calcMaskStep_eq,
      if_neg (chAvail_last htrim hn)]

theorem mask_getLast? (htrim : Trimmed CTxOut.isNull c.vout) :
    (c.mask c.maskCount).getLast? ≠ some 0 := by
  rw [mask]
  cases hn : c.maskCount with
  | zero => simp
  | succ n =>
    rw [List.range_succ, List.map_append, List.map_singleton, List.getLast?_concat, Ne,
      Option.some.injEq]
    exact chAvail_last htrim hn

/-- The bits of the mask are the availability of the outputs from the third one on. -/
theorem flatMap_mask (n : ℕ) : (c.mask n).flatMap bitsOf =
    (List.range (n * 8)).map fun i => c.isAvailable (2 + i) := by
  induction n with
  | zero => rfl
  | succ n ih =>
    rw [mask, List.range_succ, List.map_append, List.flatMap_append, ← mask, ih, Nat.succ_mul,
      List.range_add, List.map_append, List.map_singleton, List.flatMap_singleton, chAvail,
      bitsOf_byteOf, List.map_map]
    simp only [Function.comp_def, Nat.add_assoc]

/-- **The two bits and the mask are the availability of all outputs**, with vacant slots up to the
end of the last byte. -/
theorem bits_eq : c.isAvailable 0 :: c.isAvailable 1 :: (c.mask c.maskCount).flatMap bitsOf =
    availBits CTxOut.isNull c.vout (2 + c.maskCount * 8 - c.vout.length) := by
  have hcount : c.vout.length ≤ 2 + c.maskCount * 8 := by
    unfold maskCount
    omega
  have hall : c.isAvailable 0 :: c.isAvailable 1 :: (c.mask c.maskCount).flatMap bitsOf =
      (List.range (2 + c.maskCount * 8)).map c.isAvailable := by
    rw [flatMap_mask, List.range_add, List.map_append, List.map_map]
    rfl
  rw [hall]
  apply List.ext_getElem?
  intro i
  rw [List.getElem?_map, availBits]
  rcases Nat.lt_or_ge i c.vout.length with hi | hi
  · rw [List.getElem?_append_left (by simpa using hi), List.getElem?_range (by omega),
      List.getElem?_map, List.getElem?_eq_getElem hi, Option.map_some, Option.map_some,
      isAvailable_eq hi]
  · rw [List.getElem?_append_right (by simpa using hi), List.length_map]
    rcases Nat.lt_or_ge i (2 + c.maskCount * 8) with hi' | hi'
    · rw [List.getElem?_range hi', List.getElem?_replicate, if_pos (by omega), Option.map_some,
        isAvailable_eq_false hi]
    · rw [List.getElem?_eq_none (by simpa using hi'), List.getElem?_replicate, if_neg (by omega)]
      rfl

/-! ## Reading back -/

/-- The header code gives the flags, and the count up to `2 ^ 28`. -/
theorem header_bits (c : CCoins) :
    (headerCode 16 c).testBit 0 = c.fCoinBase ∧ (headerCode 16 c).testBit 1 = c.fCoinStake ∧
    (headerCode 16 c).testBit 2 = c.isAvailable 0 ∧ (headerCode 16 c).testBit 3 = c.isAvailable 1 ∧
    headerCode 16 c / 16 = c.maskCode % 2 ^ 28 := by
  simp only [Nat.testBit_eq_decide_div_mod_eq, headerCode, headerFlags]
  generalize c.maskCode = m
  cases c.fCoinBase <;> cases c.fCoinStake <;> cases c.isAvailable 0 <;> cases c.isAvailable 1 <;>
    simp only [if_true, if_false, Bool.false_eq_true, decide_eq_true_eq, decide_eq_false_iff_not] <;>
    omega

/-- The number of mask bytes that the reader waits for. -/
def readCount (c : CCoins) : ℕ :=
  c.maskCode % 2 ^ 28 + if c.isAvailable 0 || c.isAvailable 1 then 0 else 1

/-- What the reader makes of the outputs and the height. -/
def readOutputs (ops : CurveOps) (c : CCoins) (bits : List Bool) (s : Bytes) :
    Option (CCoins × Bytes) :=
  (getSparse (diskTxOut ops) CTxOut.null (c.isAvailable 0 :: c.isAvailable 1 :: bits) s).bind
    fun (vout, s) => (getInt s).map fun (nHeight, s) =>
      ({ c with vout := vout, nHeight := nHeight }.cleanup, s)

/-- The integers and the header code come back. -/
theorem unserialize_serialize (hver : 0 ≤ c.nVersion ∧ c.nVersion < 2 ^ 31)
    (htrim : Trimmed CTxOut.isNull c.vout) {bytes : Bytes} (h : c.serialize ops = some bytes)
    (rest : Bytes) :
    unserialize ops (bytes ++ rest) = (readMask c.readCount (c.mask c.maskCount ++
      (putSparse (diskTxOut ops) CTxOut.isNull c.vout ++ (putInt c.nHeight ++ rest)))).bind
        fun (bits, s) => c.readOutputs ops bits s := by
  obtain ⟨h0, h1, h2, h3, h4⟩ := header_bits c
  unfold serialize at h
  split at h
  · cases h
    have hcode : headerCode 16 c < 2 ^ 32 := Nat.mod_lt _ (by norm_num)
    simp only [List.append_assoc]
    rw [unserialize, getInt_putInt hver.1 hver.2, Option.bind_some]
    simp only
    rw [getVarInt_putVarInt _ (by norm_num) hcode, Option.bind_some, calcMaskSize_eq htrim]
    simp only [unserializeOutputs, h0, h1, h2, h3, h4]
    rfl
  · cases h

/-- The number of unspent outputs. -/
def unspentCount (vout : List CTxOut) : ℕ := vout.countP fun o => !o.isNull

theorem count_availBits (vout : List CTxOut) (k : ℕ) :
    (availBits CTxOut.isNull vout k).count true = unspentCount vout := by
  rw [availBits, List.count_append, List.count_replicate, if_neg (by decide), Nat.add_zero,
    unspentCount, List.count, List.countP_map]
  congr 1
  funext o
  simp

/-- There is something for the header to count. -/
theorem writable_iff (hne : c.isPruned = false) (htrim : Trimmed CTxOut.isNull c.vout) :
    c.writable = true ↔ c.vout.length ≤ 2 ^ 32 - 6 := by
  have hsome : ((c.isAvailable 0 || c.isAvailable 1) || c.calcMaskSize.2 != 0) = true := by
    rw [calcMaskSize_eq htrim]
    by_contra hnone
    simp only [Bool.or_eq_true, bne_iff_ne, not_or, not_not, Bool.not_eq_true] at hnone
    obtain ⟨⟨h0, h1⟩, hmask⟩ := hnone
    have hbytes : ∀ ch ∈ c.mask c.maskCount, ch = 0 := by
      intro ch hch
      by_contra hch0
      exact absurd (nonzero_pos_iff.2 ⟨ch, hch, hch0⟩) (by omega)
    have hbits : (c.isAvailable 0 :: c.isAvailable 1 ::
        (c.mask c.maskCount).flatMap bitsOf).count true = 0 := by
      rw [List.count_eq_zero]
      intro hmem
      rw [h0, h1] at hmem
      obtain ⟨ch, hch, hbit⟩ := List.mem_flatMap.1 (by simpa using hmem)
      rw [hbytes ch hch] at hbit
      revert hbit
      decide
    rw [bits_eq, count_availBits, unspentCount, List.countP_eq_zero] at hbits
    have hpruned : c.isPruned = true := by
      rw [isPruned, List.all_eq_true]
      intro o ho
      simpa using hbits o ho
    rw [hne] at hpruned
    cases hpruned
  rw [writable, hsome, Bool.and_true, decide_eq_true_iff]

/-! ## Storable entries -/

/-- The number of bytes that an entry takes. -/
def diskSize (ops : CurveOps) (c : CCoins) : ℕ :=
  sizeOfInt c.nVersion + sizeOfVarInt 32 (headerCode 16 c) + c.maskCount + c.sizeOfOutputs ops +
    sizeOfInt c.nHeight

/-- The entries that the format can hold: the outputs come back one by one, and no counter
wraps. -/
structure Storable (ops : CurveOps) (c : CCoins) : Prop where
  count : c.vout.length ≤ 2 ^ 32 - 6
  spent : c.NullsDefault
  unspent : ∀ o ∈ c.vout, o.isNull = false → (diskTxOut ops).fits o = true
  mask : c.maskCode < 2 ^ 28
  size : c.diskSize ops < 2 ^ 32

/-- No threshold of the variable-length integers lies between the two header codes: above
`8 * m + f` and not above `16 * m + f`, for the count `m` and the flags `f`. -/
def SizesAgree (c : CCoins) : Prop :=
  ∀ T ∈ [128, 16512, 2113664, 270549120],
    T ≤ 16 * c.maskCode + c.headerFlags → T ≤ 8 * c.maskCode + c.headerFlags

instance (c : CCoins) : Decidable c.SizesAgree :=
  inferInstanceAs (Decidable (∀ T ∈ [128, 16512, 2113664, 270549120],
    T ≤ 16 * c.maskCode + c.headerFlags → T ≤ 8 * c.maskCode + c.headerFlags))

/-- What is asked of a stored entry. -/
def ComesBack (ops : CurveOps) (c : CCoins) : Prop :=
  ∃ bytes, c.serialize ops = some bytes ∧
    (∀ rest, unserialize ops (bytes ++ rest) = some (c, rest)) ∧
    c.getSerializeSize ops = some bytes.length

theorem length_putSparse : (putSparse (diskTxOut ops) CTxOut.isNull c.vout).length =
    c.sizeOfOutputs ops := by
  rw [putSparse, List.length_flatMap, sizeOfOutputs]
  congr 2
  funext o
  cases o.isNull <;> rfl

theorem length_serialize (htrim : Trimmed CTxOut.isNull c.vout) {bytes : Bytes}
    (h : c.serialize ops = some bytes) : bytes.length = c.diskSize ops := by
  unfold serialize at h
  split at h
  · cases h
    simp only [List.length_append, length_putInt, length_putVarInt, length_putSparse, mask,
      List.length_map, List.length_range, calcMaskSize_eq htrim, diskSize]
    omega
  · cases h

/-- A count of mask bytes that has wrapped loses outputs. -/
theorem mask_of_comesBack (hver : 0 ≤ c.nVersion ∧ c.nVersion < 2 ^ 31)
    (htrim : Trimmed CTxOut.isNull c.vout) {bytes : Bytes} (h : c.serialize ops = some bytes)
    (hback : unserialize ops (bytes ++ []) = some (c, [])) : c.maskCode < 2 ^ 28 := by
  by_contra hlarge
  rw [unserialize_serialize hver htrim h] at hback
  obtain ⟨⟨bits, s⟩, hread, hout⟩ := Option.bind_eq_some_iff.1 hback
  obtain ⟨⟨vout, s'⟩, hsparse, hheight⟩ := Option.bind_eq_some_iff.1 hout
  obtain ⟨⟨nHeight, s''⟩, -, hc⟩ := Option.map_eq_some_iff.1 hheight
  have hvout : trim CTxOut.isNull vout = c.vout := congrArg (CCoins.vout ∘ Prod.fst) hc
  have hfew : c.readCount < nonzero (c.mask c.maskCount) := by
    unfold readCount
    unfold maskCode at hlarge ⊢
    rw [calcMaskSize_eq htrim] at hlarge ⊢
    simp only at hlarge ⊢
    split at hlarge <;> simp_all <;> omega
  have hbits := count_lt_of_readMask hfew hread
  have hocc := occupied_le_count (show CTxOut.isNull CTxOut.null = true from rfl) hsparse
  have hall := count_availBits c.vout (2 + c.maskCount * 8 - c.vout.length)
  rw [← bits_eq] at hall
  have hle : unspentCount c.vout ≤ unspentCount vout := by
    rw [← hvout]
    exact (List.rdropWhile_prefix _ vout).sublist.countP_le
  simp only [List.count_cons] at hall hocc
  unfold unspentCount at hall hle
  simp only at hbits
  omega

/-- With a count that does not wrap, the reader finds the bits of all outputs. -/
theorem unserialize_outputs (hver : 0 ≤ c.nVersion ∧ c.nVersion < 2 ^ 31)
    (htrim : Trimmed CTxOut.isNull c.vout) (hmask : c.maskCode < 2 ^ 28) {bytes : Bytes}
    (h : c.serialize ops = some bytes) (rest : Bytes) :
    unserialize ops (bytes ++ rest) =
      (getSparse (diskTxOut ops) CTxOut.null
        (availBits CTxOut.isNull c.vout (2 + c.maskCount * 8 - c.vout.length))
        (putSparse (diskTxOut ops) CTxOut.isNull c.vout ++ (putInt c.nHeight ++ rest))).bind
          fun (vout, s) => (getInt s).map fun (nHeight, s) =>
            ({ c with vout := vout, nHeight := nHeight }.cleanup, s) := by
  have hsome : ((c.isAvailable 0 || c.isAvailable 1) || c.calcMaskSize.2 != 0) = true := by
    unfold serialize at h
    split at h
    · next hw => exact (Bool.and_eq_true_iff.1 hw).2
    · cases h
  have hcount : c.readCount = nonzero (c.mask c.maskCount) := by
    unfold readCount
    rw [Nat.mod_eq_of_lt hmask]
    unfold maskCode
    rw [calcMaskSize_eq htrim] at hsome ⊢
    cases havail : (c.isAvailable 0 || c.isAvailable 1) with
    | true => simp
    | false =>
      rw [havail, Bool.false_or, bne_iff_ne] at hsome
      simp only [Bool.false_eq_true, if_false]
      omega
  rw [unserialize_serialize hver htrim h, hcount, readMask_append (mask_getLast? htrim),
    Option.bind_some]
  simp only [readOutputs, bits_eq]

/-- Vacant slots at the end make no difference to a trimmed vector. -/
theorem trim_append_vacant {vout : List CTxOut} (htrim : Trimmed CTxOut.isNull vout) (k : ℕ) :
    trim CTxOut.isNull (vout ++ List.replicate k CTxOut.null) = vout := by
  induction k with
  | zero =>
    rw [List.replicate_zero, List.append_nil]
    exact htrim
  | succ k ih =>
    have hnull : CTxOut.null.isNull = true := rfl
    rw [List.replicate_succ', ← List.append_assoc, trim_concat, if_pos hnull, ih]

theorem fixed_of_nullsDefault (hnull : c.NullsDefault) :
    (c.vout.map fun o => if o.isNull then CTxOut.null else o) = c.vout := by
  conv_rhs => rw [← List.map_id c.vout]
  apply List.map_congr_left
  intro o ho
  cases h : o.isNull with
  | true => exact (hnull o ho h).symm
  | false => rfl

/-- **A storable entry comes back**. -/
theorem unserialize_of_storable (hops : ops.Sound) (hver : 0 ≤ c.nVersion ∧ c.nVersion < 2 ^ 31)
    (hheight : 0 ≤ c.nHeight ∧ c.nHeight < 2 ^ 31) (htrim : Trimmed CTxOut.isNull c.vout)
    (hstore : c.Storable ops) {bytes : Bytes} (h : c.serialize ops = some bytes) (rest : Bytes) :
    unserialize ops (bytes ++ rest) = some (c, rest) := by
  have hfaithful : ∀ o ∈ c.vout, o.isNull = false → Faithful (diskTxOut ops) o :=
    fun o ho hnull => (exact_txOut hops o trivial).1 (hstore.unspent o ho hnull)
  rw [unserialize_outputs hver htrim hstore.mask h, getSparse_putSparse _ _ hfaithful,
    Option.bind_some, fixed_of_nullsDefault hstore.spent]
  simp only
  rw [getInt_putInt hheight.1 hheight.2, Option.map_some, cleanup]
  simp only [trim_append_vacant htrim]

/-- **An entry that comes back has outputs that do**. -/
theorem outputs_of_comesBack (hops : ops.Sound) (hver : 0 ≤ c.nVersion ∧ c.nVersion < 2 ^ 31)
    (htrim : Trimmed CTxOut.isNull c.vout) (hmask : c.maskCode < 2 ^ 28) {bytes : Bytes}
    (h : c.serialize ops = some bytes)
    (hback : unserialize ops (bytes ++ []) = some (c, [])) :
    c.NullsDefault ∧ ∀ o ∈ c.vout, o.isNull = false → (diskTxOut ops).fits o = true := by
  have hexact : ∀ o, (diskTxOut ops).fits o = true ∨ Lossy (diskTxOut ops) o := by
    intro o
    cases hfits : (diskTxOut ops).fits o with
    | true => exact .inl rfl
    | false => exact .inr ((exact_txOut hops o trivial).2 hfits)
  rw [unserialize_outputs hver htrim hmask h] at hback
  obtain ⟨⟨vout, s⟩, hsparse, hheight⟩ := Option.bind_eq_some_iff.1 hback
  obtain ⟨⟨nHeight, s'⟩, -, hc⟩ := Option.map_eq_some_iff.1 hheight
  have hvout : trim CTxOut.isNull vout = c.vout := congrArg (CCoins.vout ∘ Prod.fst) hc
  have hfits : ∀ o ∈ c.vout, o.isNull = false → (diskTxOut ops).fits o = true := by
    intro o ho hnull
    refine (hexact o).resolve_right fun hlossy => ?_
    obtain ⟨i, a, ha, hva, hne⟩ := lossy_getSparse
      (fun a _ _ => (hexact a).imp (fun hf => (exact_txOut hops a trivial).1 hf) id)
      ⟨o, ho, hnull, hlossy⟩ hsparse
    have hslot : slot CTxOut.isNull c.vout i = some a := slot_eq_some_iff.2 ⟨ha, hva⟩
    rw [← hvout, slot_trim] at hslot
    exact hne (slot_eq_some_iff.1 hslot).1
  refine ⟨fun o ho hnull => ?_, hfits⟩
  have hfaithful : ∀ o ∈ c.vout, o.isNull = false → Faithful (diskTxOut ops) o :=
    fun o ho hnull => (exact_txOut hops o trivial).1 (hfits o ho hnull)
  rw [getSparse_putSparse _ _ hfaithful] at hsparse
  have hmem : o ∈ trim CTxOut.isNull vout := by rwa [hvout]
  have hvout' := congrArg Prod.fst (Option.some.inj hsparse)
  simp only at hvout'
  rw [← hvout'] at hmem
  rcases List.mem_append.1 (mem_of_mem_trim hmem) with hmem | hmem
  · obtain ⟨o', -, rfl⟩ := List.mem_map.1 hmem
    cases ho' : o'.isNull with
    | true => simp
    | false => simp [ho'] at hnull
  · exact List.eq_of_mem_replicate hmem

/-! ## Sizes -/

theorem headerCode_lt {nFactor : ℕ} (hfactor : nFactor ≤ 16) (hmask : c.maskCode < 2 ^ 28) :
    headerCode nFactor c = nFactor * c.maskCode + c.headerFlags := by
  have hflags : c.headerFlags ≤ 15 := by
    unfold headerFlags
    cases c.fCoinBase <;> cases c.fCoinStake <;> cases c.isAvailable 0 <;>
      cases c.isAvailable 1 <;> simp
  have hmul : nFactor * c.maskCode ≤ 16 * c.maskCode := Nat.mul_le_mul_right _ hfactor
  exact Nat.mod_eq_of_lt (by omega)

/-- The header codes take the same number of bytes iff no threshold lies between them. -/
theorem headerSizes_iff (hmask : c.maskCode < 2 ^ 28) :
    sizeOfVarInt 32 (headerCode 8 c) = sizeOfVarInt 32 (headerCode 16 c) ↔ c.SizesAgree := by
  rw [sizeOfVarInt_eq_iff, headerCode_lt (by norm_num) hmask, headerCode_lt (by norm_num) hmask]
  constructor
  · intro h T hT hle
    have hlimit : ∃ j < 5, T = varIntLimit j := by
      simp only [List.mem_cons, List.not_mem_nil, or_false] at hT
      rcases hT with rfl | rfl | rfl | rfl
      · exact ⟨1, by decide, rfl⟩
      · exact ⟨2, by decide, rfl⟩
      · exact ⟨3, by decide, rfl⟩
      · exact ⟨4, by decide, rfl⟩
    obtain ⟨j, hj, rfl⟩ := hlimit
    by_contra hlt
    exact absurd ((h j hj).1 (Nat.not_le.1 hlt)) (Nat.not_lt.2 hle)
  · intro h j hj
    constructor
    · intro hlt
      by_contra hge
      have hmem : varIntLimit j ∈ [128, 16512, 2113664, 270549120] := by
        have hj' : j < 5 := hj
        interval_cases j
        · exact absurd hlt (Nat.not_lt_zero _)
        · decide
        · decide
        · decide
        · decide
      exact absurd (h _ hmem (Nat.not_lt.1 hge)) (Nat.not_le.2 hlt)
    · intro hlt
      omega

theorem getSerializeSize_iff (htrim : Trimmed CTxOut.isNull c.vout) (hmask : c.maskCode < 2 ^ 28)
    {bytes : Bytes} (h : c.serialize ops = some bytes) :
    c.getSerializeSize ops = some bytes.length ↔ c.diskSize ops < 2 ^ 32 ∧ c.SizesAgree := by
  have hw : c.writable = true := by
    unfold serialize at h
    split at h
    · next hw => exact hw
    · cases h
  have hle : sizeOfVarInt 32 (headerCode 8 c) ≤ sizeOfVarInt 32 (headerCode 16 c) := by
    apply sizeOfVarInt_mono
    rw [headerCode_lt (by norm_num) hmask, headerCode_lt (by norm_num) hmask]
    omega
  rw [length_serialize htrim h, getSerializeSize, if_pos hw, Option.some.injEq,
    ← headerSizes_iff hmask, calcMaskSize_eq htrim, diskSize]
  constructor
  · intro heq
    have hlt := Nat.mod_lt (sizeOfInt c.nVersion + sizeOfVarInt 32 (headerCode 8 c) +
      c.maskCount + c.sizeOfOutputs ops + sizeOfInt c.nHeight) (show 0 < 2 ^ 32 by norm_num)
    simp only at heq
    constructor <;> omega
  · rintro ⟨hlt, heq⟩
    simp only
    rw [heq, Nat.mod_eq_of_lt hlt]

/-- **Exactly the storable entries whose two header codes take the same number of bytes come back**:
read from what was written in front of any suffix, and with the size that was written. -/
theorem comesBack_iff (hops : ops.Sound) (hne : c.isPruned = false)
    (hver : 0 ≤ c.nVersion ∧ c.nVersion < 2 ^ 31) (hheight : 0 ≤ c.nHeight ∧ c.nHeight < 2 ^ 31)
    (htrim : Trimmed CTxOut.isNull c.vout) :
    c.ComesBack ops ↔ c.Storable ops ∧ c.SizesAgree := by
  constructor
  · rintro ⟨bytes, hwrite, hread, hsize⟩
    have hw : c.writable = true := by
      unfold serialize at hwrite
      split at hwrite
      · next hw => exact hw
      · cases hwrite
    have hmask := mask_of_comesBack hver htrim hwrite (hread [])
    obtain ⟨hspent, hunspent⟩ := outputs_of_comesBack hops hver htrim hmask hwrite (hread [])
    obtain ⟨hlt, hagree⟩ := (getSerializeSize_iff htrim hmask hwrite).1 hsize
    exact ⟨⟨(writable_iff hne htrim).1 hw, hspent, hunspent, hmask, hlt⟩, hagree⟩
  · rintro ⟨hstore, hagree⟩
    obtain ⟨bytes, hwrite⟩ : ∃ bytes, c.serialize ops = some bytes := by
      rw [serialize, if_pos ((writable_iff hne htrim).2 hstore.count)]
      exact ⟨_, rfl⟩
    exact ⟨bytes, hwrite, unserialize_of_storable hops hver hheight htrim hstore hwrite,
      (getSerializeSize_iff htrim hstore.mask hwrite).2 ⟨hstore.size, hagree⟩⟩

/-- An entry whose first and third outputs are spent. -/
def sparseEntry : CCoins where
  vout := [.null, { nValue := 100000000, scriptPubKey := [] }, .null,
    { nValue := 234925952, scriptPubKey := [0x51] }]
  nHeight := 120891
  nVersion := 1

theorem comesBack_sparseEntry : sparseEntry.ComesBack CScriptCompressor.generatorOps := by
  have htrim : Trimmed CTxOut.isNull sparseEntry.vout := rfl
  refine (comesBack_iff CScriptCompressor.generatorOps_sound (by decide) (by decide) (by decide)
    htrim).2 ⟨⟨by decide, ?_, ?_, by decide, by decide⟩, by decide⟩
  · unfold NullsDefault
    decide
  · intro o ho hnull
    have hmoney : 0 ≤ o.nValue ∧ o.nValue ≤ Network.maxMoneyOut .main ∧
        o.scriptPubKey.length + 6 < 2 ^ 32 ∧ o.nRounds = -10 := by
      revert o
      decide
    rw [txOutFits_iff]
    exact ⟨amountFits_of_money hmoney.1 hmoney.2.1, hmoney.2.2⟩

/-- An entry of 66 unspent outputs: the mask has eight bytes, and the header code is 140 for the
writer and 76 for the size function. -/
def manyOutputs : CCoins where
  vout := List.replicate 66 { nValue := 1, scriptPubKey := [] }
  nHeight := 1
  nVersion := 1

theorem manyOutputs_size : manyOutputs.isPruned = false ∧
    Trimmed CTxOut.isNull manyOutputs.vout ∧
    ¬manyOutputs.ComesBack CScriptCompressor.generatorOps := by
  have htrim : Trimmed CTxOut.isNull manyOutputs.vout := rfl
  refine ⟨by decide, htrim, ?_⟩
  rintro ⟨bytes, hwrite, -, hsize⟩
  have hagree := (getSerializeSize_iff htrim (by decide) hwrite).1 hsize
  exact absurd hagree.2 (by decide)

end CCoins

end FairCoin
