import FairCoin.Lib.VarInt
import Mathlib.Algebra.BigOperators.Intervals
import Mathlib.Algebra.BigOperators.Ring.Finset
import Mathlib.Data.List.GetD
import Mathlib.Tactic.Ring

/-!
# The one-to-one code of integers

`GetSizeOfVarInt`, `WriteVarInt` and `ReadVarInt` of `src/serialize.h`, for every integer type.

* `IntType` — the types the templates are instantiated with: a size in bytes and a sign.
* `writeVarInt` — the writer with its local buffer, which it could run over.
* `readVarInt` — the reader; an unsigned type wraps, a signed one must not overflow.
* `Digits` — the byte strings of the comment, and the number that each one denotes.
* `exists_digits`, `writeVarInt_digits`, `readVarInt_digits` — numbers and byte strings correspond.
* `varInt_oneToOne` — **the code is one-to-one**.
-/

namespace FairCoin

open Codec

/-! ## The code -/

/-- An integer type. -/
structure IntType where
  size : ℕ
  signed : Bool
  size_pos : 0 < size

namespace IntType

variable (I : IntType)

/-- The width in bits. -/
def width : ℕ := 8 * I.size

/-- The non-negative values are those below. -/
def limit : ℕ := 2 ^ (if I.signed then I.width - 1 else I.width)

/-- The length of the local buffer of `WriteVarInt`. -/
def bufferSize : ℕ := (I.size * 8 + 6) / 7

end IntType

/-- `GetSizeOfVarInt`. -/
def getSizeOfVarInt (n : ℕ) : ℕ :=
  if n ≤ 0x7f then 1 else getSizeOfVarInt (n / 128 - 1) + 1
termination_by n
decreasing_by omega

/-- The first loop of `WriteVarInt`, with the room that is left in the buffer; `none` when it is run
over.  The bytes in the buffer stand in the order in which the second loop writes them. -/
def writeVarIntLoop : ℕ → ℕ → Bytes → Option Bytes
  | 0, _, _ => none
  | room + 1, n, tmp =>
      let tmp := UInt8.ofNat (n % 128 + if tmp.isEmpty then 0 else 128) :: tmp
      if n ≤ 0x7f then some tmp else writeVarIntLoop room (n / 128 - 1) tmp

/-- `WriteVarInt`. -/
def writeVarInt (I : IntType) (n : ℕ) : Option Bytes := writeVarIntLoop I.bufferSize n []

/-- How `ReadVarInt` goes wrong. -/
inductive VarIntError where
  | endOfData
  | signedOverflow
  deriving DecidableEq, Repr

/-- A result of the arithmetic of a type. -/
def IntType.store (I : IntType) (n : ℕ) : Except VarIntError ℕ :=
  if n < I.limit then .ok n else if I.signed then .error .signedOverflow else .ok (n % I.limit)

/-- The loop of `ReadVarInt`. -/
def readVarIntLoop (I : IntType) : ℕ → Bytes → Except VarIntError (ℕ × Bytes)
  | _, [] => .error .endOfData
  | n, chData :: is =>
      match I.store (n * 128 + chData.toNat % 128) with
      | .error e => .error e
      | .ok n =>
          if 128 ≤ chData.toNat then
            match I.store (n + 1) with
            | .error e => .error e
            | .ok n => readVarIntLoop I n is
          else .ok (n, is)

/-- `ReadVarInt`. -/
def readVarInt (I : IntType) (is : Bytes) : Except VarIntError (ℕ × Bytes) := readVarIntLoop I 0 is

/-! ## Byte strings of the comment -/

/-- The byte strings of the comment: all but the last byte have the high bit set. -/
structure Digits (a : Bytes) : Prop where
  ne_nil : a ≠ []
  high : ∀ i, i + 1 < a.length → 128 ≤ (a.getD i 0).toNat
  last : (a.getD (a.length - 1) 0).toNat < 128

/-- The number that the comment gives for a byte string:
`(a[len-1] & 0x7F) + sum(i=1..len-1, 128^i*((a[len-i-1] & 0x7F)+1))`. -/
def denoted (a : Bytes) : ℕ :=
  (a.getD (a.length - 1) 0).toNat % 128 +
    ∑ i ∈ Finset.Ico 1 a.length, 128 ^ i * ((a.getD (a.length - i - 1) 0).toNat % 128 + 1)

/-- The digits with the high bit set, as the reader adds them up. -/
def carried (l : Bytes) : ℕ := l.foldl (fun n b => n * 128 + b.toNat % 128 + 1) 0

theorem carried_append (l : Bytes) (b : UInt8) :
    carried (l ++ [b]) = carried l * 128 + b.toNat % 128 + 1 := by
  rw [carried, List.foldl_append]
  rfl

/-- Most significant digit first, what is carried is the sum of the comment. -/
theorem carried_eq (l : Bytes) : carried l =
    ∑ i ∈ Finset.range l.length, 128 ^ i * ((l.getD (l.length - 1 - i) 0).toNat % 128 + 1) := by
  induction l using List.reverseRecOn with
  | nil => rfl
  | append_singleton l b ih =>
    rw [carried_append, ih, List.length_append, List.length_singleton, Finset.sum_range_succ',
      Finset.sum_mul]
    have hlast : (l ++ [b]).getD (l.length + 1 - 1 - 0) 0 = b := by simp
    have hrest : ∀ i ∈ Finset.range l.length,
        128 ^ i * ((l.getD (l.length - 1 - i) 0).toNat % 128 + 1) * 128 =
          128 ^ (i + 1) * (((l ++ [b]).getD (l.length + 1 - 1 - (i + 1)) 0).toNat % 128 + 1) := by
      intro i hi
      have hlt := Finset.mem_range.1 hi
      rw [show l.length + 1 - 1 - (i + 1) = l.length - 1 - i by omega,
        List.getD_append _ _ _ _ (by omega), pow_succ]
      ring
    rw [Finset.sum_congr rfl hrest, hlast, pow_zero, one_mul]
    omega

/-- A byte string of the comment is its carried digits and a last one. -/
theorem digits_iff (a : Bytes) : Digits a ↔
    ∃ l b, a = l ++ [b] ∧ (∀ c ∈ l, 128 ≤ c.toNat) ∧ b.toNat < 128 := by
  constructor
  · rintro ⟨hne, hhigh, hlast⟩
    rw [← List.dropLast_append_getLast hne] at hhigh hlast ⊢
    generalize a.dropLast = l at hhigh hlast ⊢
    generalize a.getLast hne = b at hhigh hlast ⊢
    refine ⟨l, b, rfl, fun c hc => ?_, by simpa using hlast⟩
    obtain ⟨i, hi, rfl⟩ := List.getElem_of_mem hc
    have h := hhigh i (by simpa using hi)
    rw [List.getD_append _ _ _ _ hi, List.getD_eq_getElem _ _ hi] at h
    exact h
  · rintro ⟨l, b, rfl, hl, hb⟩
    refine ⟨by simp, fun i hi => ?_, by simpa using hb⟩
    rw [List.length_append, List.length_singleton] at hi
    rw [List.getD_append _ _ _ _ (by omega), List.getD_eq_getElem _ _ (by omega)]
    exact hl _ (List.getElem_mem _)

theorem denoted_append (l : Bytes) (b : UInt8) :
    denoted (l ++ [b]) = carried l * 128 + b.toNat % 128 := by
  have hlast : (l ++ [b]).getD ((l ++ [b]).length - 1) 0 = b := by simp
  have hrest : ∀ i ∈ Finset.range l.length, 128 ^ (1 + i) *
      (((l ++ [b]).getD (l.length + 1 - (1 + i) - 1) 0).toNat % 128 + 1) =
        128 ^ i * ((l.getD (l.length - 1 - i) 0).toNat % 128 + 1) * 128 := by
    intro i hi
    have hlt := Finset.mem_range.1 hi
    rw [show l.length + 1 - (1 + i) - 1 = l.length - 1 - i by omega,
      List.getD_append _ _ _ _ (by omega), add_comm 1 i, pow_succ]
    ring
  rw [denoted, hlast, List.length_append, List.length_singleton, Finset.sum_Ico_eq_sum_range,
    Nat.add_sub_cancel, Finset.sum_congr rfl hrest, ← Finset.sum_mul, ← carried_eq]
  omega

/-! ## Numbers and digits -/

/-- Every number is denoted by some byte string. -/
theorem exists_carried (n : ℕ) : ∃ (l : Bytes) (b : UInt8), (∀ c ∈ l, 128 ≤ c.toNat) ∧
    b.toNat < 128 ∧ carried l * 128 + b.toNat = n := by
  have hlow : ∀ m < 256, (UInt8.ofNat m).toNat = m := fun m hm => Nat.mod_eq_of_lt hm
  induction n using Nat.strongRecOn with
  | ind n ih =>
    rcases Nat.lt_or_ge n 128 with hsmall | hlarge
    · exact ⟨[], UInt8.ofNat n, by simp, by rw [hlow n (by omega)]; exact hsmall,
        by rw [hlow n (by omega)]; simp [carried]⟩
    · obtain ⟨l, b, hl, hb, hn⟩ := ih (n / 128 - 1) (by omega)
      refine ⟨l ++ [UInt8.ofNat (b.toNat + 128)], UInt8.ofNat (n % 128), fun c hc => ?_, ?_, ?_⟩
      · rcases List.mem_append.1 hc with hc | hc
        · exact hl c hc
        · rw [List.mem_singleton.1 hc, hlow _ (by omega)]
          omega
      · rw [hlow _ (by omega)]
        omega
      · rw [carried_append, hlow _ (by omega), hlow _ (by omega)]
        omega

theorem exists_digits (n : ℕ) : ∃ a, Digits a ∧ denoted a = n := by
  obtain ⟨l, b, hl, hb, hn⟩ := exists_carried n
  refine ⟨l ++ [b], (digits_iff _).2 ⟨l, b, rfl, hl, hb⟩, ?_⟩
  rw [denoted_append, Nat.mod_eq_of_lt hb, hn]

/-- `k` digits with the high bit set stand for at least `128 ^ k`. -/
theorem pow_le_carried {l : Bytes} (hne : l ≠ []) : 128 ^ l.length ≤ carried l * 128 := by
  induction l using List.reverseRecOn with
  | nil => exact absurd rfl hne
  | append_singleton l b ih =>
    rw [carried_append, List.length_append, List.length_singleton, pow_succ]
    cases l with
    | nil => simp [carried]
    | cons c l =>
      have := ih (List.cons_ne_nil _ _)
      omega

/-- **The buffer is large enough** for the digits of a number of the type. -/
theorem length_le_bufferSize (I : IntType) {l : Bytes} {n : ℕ} (h : carried l * 128 ≤ n)
    (hn : n < I.limit) : l.length + 1 ≤ I.bufferSize := by
  have hsize := I.size_pos
  have hlimit : I.limit ≤ 2 ^ (8 * I.size) := by
    unfold IntType.limit IntType.width
    apply Nat.pow_le_pow_right (by decide)
    split <;> omega
  unfold IntType.bufferSize
  cases l with
  | nil =>
    simp only [List.length_nil]
    omega
  | cons c l =>
    have hpow := pow_le_carried (List.cons_ne_nil c l)
    have hlt : 2 ^ (7 * (c :: l).length) < 2 ^ (8 * I.size) := by
      rw [pow_mul]
      norm_num only
      omega
    have := (Nat.pow_lt_pow_iff_right (by decide)).1 hlt
    omega

/-- The writer puts the carried digits in front of what it has. -/
theorem writeVarIntLoop_carried {l : Bytes} (hl : ∀ c ∈ l, 128 ≤ c.toNat) (hne : l ≠ []) :
    ∀ {room : ℕ} {tmp : Bytes}, tmp ≠ [] → l.length ≤ room →
      writeVarIntLoop room (carried l - 1) tmp = some (l ++ tmp) := by
  induction l using List.reverseRecOn with
  | nil => exact absurd rfl hne
  | append_singleton l b ih =>
    intro room tmp htmp hroom
    rw [List.length_append, List.length_singleton] at hroom
    obtain ⟨room, rfl⟩ : ∃ r, room = r + 1 := ⟨room - 1, by omega⟩
    have hb := hl b (by simp)
    have hb' := b.toNat_lt
    have hempty : tmp.isEmpty = false := by simpa using htmp
    have hdigit : UInt8.ofNat ((carried (l ++ [b]) - 1) % 128 + 128) = b := by
      rw [carried_append, ← UInt8.toNat_inj]
      show ((carried l * 128 + b.toNat % 128 + 1 - 1) % 128 + 128) % 256 = b.toNat
      omega
    rw [writeVarIntLoop, hempty]
    simp only [Bool.false_eq_true, if_false, hdigit]
    rw [carried_append]
    cases l with
    | nil =>
      rw [if_pos (by simp [carried]; omega)]
      rfl
    | cons c l =>
      have hpos := pow_le_carried (List.cons_ne_nil c l)
      have hpow : 128 ≤ 128 ^ (c :: l).length :=
        Nat.le_self_pow (by simp) 128
      rw [if_neg (by omega), show (carried (c :: l) * 128 + b.toNat % 128 + 1 - 1) / 128 - 1 =
        carried (c :: l) - 1 by omega, ih (fun x hx => hl x (by simp at hx ⊢; tauto))
          (List.cons_ne_nil _ _) (List.cons_ne_nil _ _) (by omega), List.append_assoc]
      rfl

/-- **The writer writes the digits of a number.** -/
theorem writeVarInt_carried (I : IntType) {l : Bytes} {b : UInt8} (hl : ∀ c ∈ l, 128 ≤ c.toNat)
    (hb : b.toNat < 128) (hn : carried l * 128 + b.toNat < I.limit) :
    writeVarInt I (carried l * 128 + b.toNat) = some (l ++ [b]) := by
  have hroom := length_le_bufferSize I (Nat.le_add_right _ _) hn
  obtain ⟨room, hsize⟩ : ∃ r, I.bufferSize = r + 1 := ⟨I.bufferSize - 1, by omega⟩
  have hdigit : UInt8.ofNat ((carried l * 128 + b.toNat) % 128) = b := by
    rw [← UInt8.toNat_inj]
    show (carried l * 128 + b.toNat) % 128 % 256 = b.toNat
    omega
  rw [writeVarInt, hsize, writeVarIntLoop]
  simp only [List.isEmpty_nil, if_true, add_zero, hdigit]
  cases l with
  | nil =>
    rw [if_pos (by simp [carried]; omega)]
    rfl
  | cons c l =>
    have hpos := pow_le_carried (List.cons_ne_nil c l)
    have hpow : 128 ≤ 128 ^ (c :: l).length := Nat.le_self_pow (by simp) 128
    rw [if_neg (by omega), show (carried (c :: l) * 128 + b.toNat) / 128 - 1 =
      carried (c :: l) - 1 by omega]
    exact writeVarIntLoop_carried hl (List.cons_ne_nil _ _) (List.cons_ne_nil _ _) (by omega)

theorem le_foldl_carried (l : Bytes) : ∀ m : ℕ,
    m ≤ l.foldl (fun n b => n * 128 + b.toNat % 128 + 1) m := by
  induction l with
  | nil => exact fun _ => le_rfl
  | cons b l ih =>
    intro m
    have := ih (m * 128 + b.toNat % 128 + 1)
    rw [List.foldl_cons]
    omega

theorem IntType.store_of_lt (I : IntType) {n : ℕ} (hn : n < I.limit) : I.store n = .ok n :=
  if_pos hn

/-- The reader adds the digits up and stops at the last one; nothing overflows on the way. -/
theorem readVarIntLoop_carried (I : IntType) {l : Bytes} (hl : ∀ c ∈ l, 128 ≤ c.toNat) {b : UInt8}
    (hb : b.toNat < 128) (rest : Bytes) : ∀ {m : ℕ},
    l.foldl (fun n b => n * 128 + b.toNat % 128 + 1) m * 128 + b.toNat < I.limit →
    readVarIntLoop I m (l ++ b :: rest) =
      .ok (l.foldl (fun n b => n * 128 + b.toNat % 128 + 1) m * 128 + b.toNat, rest) := by
  induction l with
  | nil =>
    intro m hm
    rw [List.foldl_nil] at hm ⊢
    rw [List.nil_append, readVarIntLoop, Nat.mod_eq_of_lt hb, I.store_of_lt hm]
    simp only [if_neg (not_le.2 hb)]
  | cons c l ih =>
    intro m hm
    have hle := le_foldl_carried l (m * 128 + c.toNat % 128 + 1)
    rw [List.foldl_cons] at hm ⊢
    rw [List.cons_append, readVarIntLoop, I.store_of_lt (by omega)]
    simp only [if_pos (hl c List.mem_cons_self)]
    rw [I.store_of_lt (by omega)]
    exact ih (fun x hx => hl x (List.mem_cons_of_mem c hx)) hm

/-- The size of what is left of a number is the number of its carried digits. -/
theorem getSizeOfVarInt_carried {l : Bytes} (hne : l ≠ []) :
    getSizeOfVarInt (carried l - 1) = l.length := by
  induction l using List.reverseRecOn with
  | nil => exact absurd rfl hne
  | append_singleton l b ih =>
    rw [getSizeOfVarInt, carried_append, List.length_append, List.length_singleton]
    cases l with
    | nil =>
      rw [if_pos (by simp [carried]; omega)]
      rfl
    | cons c l =>
      have hpos := pow_le_carried (List.cons_ne_nil c l)
      have hpow : 128 ≤ 128 ^ (c :: l).length := Nat.le_self_pow (by simp) 128
      rw [if_neg (by omega), show (carried (c :: l) * 128 + b.toNat % 128 + 1 - 1) / 128 - 1 =
        carried (c :: l) - 1 by omega, ih (List.cons_ne_nil _ _)]

theorem getSizeOfVarInt_digits {l : Bytes} {b : UInt8} (hb : b.toNat < 128) :
    getSizeOfVarInt (carried l * 128 + b.toNat) = l.length + 1 := by
  rw [getSizeOfVarInt]
  cases l with
  | nil =>
    rw [if_pos (by simp [carried]; omega)]
    rfl
  | cons c l =>
    have hpos := pow_le_carried (List.cons_ne_nil c l)
    have hpow : 128 ≤ 128 ^ (c :: l).length := Nat.le_self_pow (by simp) 128
    rw [if_neg (by omega), show (carried (c :: l) * 128 + b.toNat) / 128 - 1 =
      carried (c :: l) - 1 by omega, getSizeOfVarInt_carried (List.cons_ne_nil _ _)]

/-! ## The result -/

/-- A number of the type, written and read. -/
theorem writeVarInt_spec (I : IntType) {n : ℕ} (hn : n < I.limit) :
    ∃ a, writeVarInt I n = some a ∧ Digits a ∧ denoted a = n ∧ a.length = getSizeOfVarInt n ∧
      a.length ≤ I.bufferSize ∧ ∀ rest, readVarInt I (a ++ rest) = .ok (n, rest) := by
  obtain ⟨l, b, hl, hb, rfl⟩ := exists_carried n
  refine ⟨l ++ [b], writeVarInt_carried I hl hb hn, (digits_iff _).2 ⟨l, b, rfl, hl, hb⟩, ?_, ?_, ?_,
    fun rest => ?_⟩
  · rw [denoted_append, Nat.mod_eq_of_lt hb]
  · rw [List.length_append, List.length_singleton, getSizeOfVarInt_digits hb]
  · rw [List.length_append, List.length_singleton]
    exact length_le_bufferSize I (Nat.le_add_right _ _) hn
  · rw [List.append_assoc]
    exact readVarIntLoop_carried I hl hb rest hn

theorem writeVarIntLoop_eq {room : ℕ} : ∀ {n : ℕ} {tmp bs : Bytes},
    writeVarIntLoop room n tmp = some bs → putVarIntLoop room n tmp = bs := by
  induction room with
  | zero => exact fun h => by cases h
  | succ room ih =>
    intro n tmp bs h
    rw [writeVarIntLoop] at h
    rw [putVarIntLoop]
    split
    · next hsmall =>
      rw [if_pos hsmall] at h
      exact Option.some.inj h
    · next hlarge =>
      rw [if_neg hlarge] at h
      exact ih h

/-- The coin database writes its numbers in this code. -/
theorem writeVarInt_eq_putVarInt (I : IntType) {n : ℕ} (hn : n < I.limit) :
    writeVarInt I n = some (putVarInt I.width n) := by
  obtain ⟨a, ha, -⟩ := writeVarInt_spec I hn
  rw [ha, putVarInt, IntType.width, mul_comm]
  rw [writeVarInt] at ha
  rw [← writeVarIntLoop_eq ha]
  rfl

/-- **A byte string of the comment is the code of what it denotes.** -/
theorem writeVarInt_denoted (I : IntType) {a : Bytes} (ha : Digits a) (hn : denoted a < I.limit) :
    writeVarInt I (denoted a) = some a := by
  obtain ⟨l, b, rfl, hl, hb⟩ := (digits_iff a).1 ha
  rw [denoted_append, Nat.mod_eq_of_lt hb] at hn ⊢
  exact writeVarInt_carried I hl hb hn

/-- The bytes do not depend on the type. -/
theorem writeVarInt_type (I J : IntType) {n : ℕ} (hn : n < I.limit) (hn' : n < J.limit) :
    writeVarInt I n = writeVarInt J n := by
  obtain ⟨a, ha, hdigits, rfl, -⟩ := writeVarInt_spec I hn
  rw [ha, writeVarInt_denoted J hdigits hn']

/-- **The code of integers is one-to-one**, for every integer type and every non-negative number of
it: the writer stays within its buffer of `(8 * sizeof + 6) / 7` bytes and writes as many bytes as
`GetSizeOfVarInt` says; the reader gives the number back and leaves what follows; the bytes do not
depend on the type; no code is a proper prefix of another; and every byte string of the comment whose
number fits is the code of that number. -/
theorem varInt_oneToOne (I : IntType) :
    (∀ n < I.limit, ∃ a, writeVarInt I n = some a ∧ a.length = getSizeOfVarInt n ∧
      getSizeOfVarInt n ≤ (8 * I.size + 6) / 7 ∧
      ∀ rest, readVarInt I (a ++ rest) = .ok (n, rest)) ∧
    (∀ (J : IntType) (n : ℕ), n < I.limit → n < J.limit → writeVarInt I n = writeVarInt J n) ∧
    (∀ (J : IntType) (m n : ℕ) (a b rest : Bytes), m < I.limit → n < J.limit →
      writeVarInt I m = some a → writeVarInt J n = some b → a ++ rest = b → m = n ∧ rest = []) ∧
    ∀ a, Digits a → denoted a < I.limit → writeVarInt I (denoted a) = some a := by
  refine ⟨fun n hn => ?_, fun J n hn hn' => ?_, fun J m n a b rest hm hn ha hb hab => ?_,
    fun a => writeVarInt_denoted I⟩
  · obtain ⟨a, ha, -, -, hlen, hsize, hread⟩ := writeVarInt_spec I hn
    refine ⟨a, ha, hlen, ?_, hread⟩
    rw [← hlen, mul_comm 8]
    exact hsize
  · exact writeVarInt_type I J hn hn'
  · -- the larger type reads both
    have hread : ∀ K : IntType, m < K.limit → n < K.limit → m = n ∧ rest = [] := by
      intro K hmK hnK
      obtain ⟨a', ha', -, -, -, -, hreada⟩ := writeVarInt_spec K hmK
      obtain ⟨b', hb', -, -, -, -, hreadb⟩ := writeVarInt_spec K hnK
      cases ((writeVarInt_type I K hm hmK).symm.trans ha).symm.trans ha'
      cases ((writeVarInt_type J K hn hnK).symm.trans hb).symm.trans hb'
      have hboth := hreadb []
      rw [List.append_nil, ← hab, hreada rest] at hboth
      cases hboth
      exact ⟨rfl, rfl⟩
    rcases le_total I.limit J.limit with hle | hle
    · exact hread J (hm.trans_le hle) hn
    · exact hread I hm (hn.trans_le hle)

end FairCoin
