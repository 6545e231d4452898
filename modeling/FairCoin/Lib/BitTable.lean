import Mathlib.Data.Nat.Bitwise
import Mathlib.Tactic.IntervalCases

/-!
# Tables of bits in bytes

A vector of bytes as a table of bits; bit `i` is bit `i % 8` of byte `i / 8`.

* `mask` — a byte with a single bit.
* `test`, `mark` — a bit of the table, and the table with the bit set.
* `test_mark` — marking sets that bit and keeps the others.
* `markAll` — the table with many bits set.
-/

namespace BitTable

/-- `1 << (i & 7)`. -/
def mask (i : ℕ) : UInt8 := 1 <<< UInt8.ofNat (i % 8)

/-- Bit `i` of the table. -/
def test (v : List UInt8) (i : ℕ) : Bool := v.getD (i / 8) 0 &&& mask i != 0

/-- The table with bit `i` set. -/
def mark (v : List UInt8) (i : ℕ) : List UInt8 := v.modify (i / 8) (· ||| mask i)

/-- The table with the bits of a list set. -/
def markAll (v : List UInt8) (is : List ℕ) : List UInt8 := is.foldl mark v

theorem markAll_cons (v : List UInt8) (i : ℕ) (is : List ℕ) :
    markAll v (i :: is) = markAll (mark v i) is := rfl

theorem toNat_mask (i : ℕ) : (mask i).toNat = 2 ^ (i % 8) := by
  have hi : i % 8 < 8 := Nat.mod_lt _ (by decide)
  unfold mask
  generalize i % 8 = k at hi
  interval_cases k <;> rfl

theorem and_mask (b : UInt8) (i : ℕ) : (b &&& mask i != 0) = b.toNat.testBit (i % 8) := by
  have h : b &&& mask i ≠ 0 ↔ b.toNat.testBit (i % 8) = true := by
    rw [← UInt8.toNat_inj.ne, UInt8.toNat_and, toNat_mask, Nat.and_two_pow]
    cases b.toNat.testBit (i % 8) <;> simp
  rw [Bool.eq_iff_iff, ← h, bne_iff_ne]

theorem test_eq (v : List UInt8) (i : ℕ) : test v i = (v.getD (i / 8) 0).toNat.testBit (i % 8) :=
  and_mask _ i

@[simp] theorem length_mark (v : List UInt8) (i : ℕ) : (mark v i).length = v.length :=
  List.length_modify _ _ _

@[simp] theorem length_markAll (is : List ℕ) (v : List UInt8) :
    (markAll v is).length = v.length := by
  induction is generalizing v with
  | nil => rfl
  | cons i is ih => exact (ih _).trans (length_mark v i)

/-- **One bit is set.**  The others stay. -/
theorem test_mark {v : List UInt8} {i : ℕ} (hi : i / 8 < v.length) (j : ℕ) :
    test (mark v i) j = (test v j || decide (i = j)) := by
  simp only [test_eq, mark, List.getD_eq_getElem?_getD, List.getElem?_modify]
  by_cases hij : i / 8 = j / 8
  · have hj : j / 8 < v.length := hij ▸ hi
    have hbits : i % 8 = j % 8 ↔ i = j :=
      ⟨fun h => by omega, fun h => congrArg (· % 8) h⟩
    rw [List.getElem?_eq_getElem hj]
    simp only [hij, Option.map_eq_map, Option.map_some, if_true, Option.getD_some,
      UInt8.toNat_or, toNat_mask, Nat.testBit_or, Nat.testBit_two_pow, hbits]
  · have hne : i ≠ j := fun h => hij (congrArg (· / 8) h)
    simp [hij, hne]

theorem test_markAll {is : List ℕ} {v : List UInt8} (his : ∀ i ∈ is, i / 8 < v.length) (j : ℕ) :
    test (markAll v is) j = (test v j || decide (j ∈ is)) := by
  induction is generalizing v with
  | nil => simp [markAll]
  | cons i is ih =>
    have hi := his i List.mem_cons_self
    have his' : ∀ k ∈ is, k / 8 < (mark v i).length := fun k hk =>
      (length_mark v i).symm ▸ his k (List.mem_cons_of_mem _ hk)
    rw [markAll_cons, ih his', test_mark hi,
      Bool.or_assoc]
    congr 1
    simp only [List.mem_cons, Bool.decide_or, eq_comm (a := i)]

end BitTable
