import Mathlib.Algebra.BigOperators.Group.Finset.Basic
import Mathlib.Algebra.BigOperators.Ring.Finset
import Mathlib.Data.Nat.ModEq
import Mathlib.Tactic.Ring

/-!
# Digits in place

A number in an array of digits, the lowest one first, that a loop reads and writes by index.

* `sum` — the value of the first digits.
* `sum_write` — what a write changes.
* `digit_eq` — a digit is what a division and a remainder give.
* `upTo` — a loop that counts up, with its invariant rule.
-/

namespace Digits

/-- The value of the first `n` digits to a base. -/
def sum (B : ℕ) (f : ℕ → ℕ) (n : ℕ) : ℕ := ∑ i ∈ Finset.range n, f i * B ^ i

variable {B : ℕ} {f g : ℕ → ℕ} {n : ℕ}

@[simp] theorem sum_zero (B : ℕ) (f : ℕ → ℕ) : sum B f 0 = 0 := rfl

theorem sum_succ (B : ℕ) (f : ℕ → ℕ) (n : ℕ) : sum B f (n + 1) = sum B f n + f n * B ^ n :=
  Finset.sum_range_succ _ _

theorem sum_congr (h : ∀ i < n, f i = g i) : sum B f n = sum B g n :=
  Finset.sum_congr rfl fun i hi => by rw [h i (Finset.mem_range.1 hi)]

theorem sum_lt (h : ∀ i < n, f i < B) : sum B f n < B ^ n := by
  induction n with
  | zero => exact Nat.one_pos
  | succ n ih =>
    rw [sum_succ]
    have hlow := ih fun i hi => h i (Nat.lt_succ_of_lt hi)
    have hn := h n (Nat.lt_succ_self n)
    calc sum B f n + f n * B ^ n < B ^ n + f n * B ^ n := Nat.add_lt_add_right hlow _
      _ = (f n + 1) * B ^ n := by ring
      _ ≤ B * B ^ n := Nat.mul_le_mul_right _ hn
      _ = B ^ (n + 1) := by ring

theorem sum_add (B : ℕ) (f g : ℕ → ℕ) (n : ℕ) :
    sum B (fun i => f i + g i) n = sum B f n + sum B g n := by
  simp only [sum, Nat.add_mul, Finset.sum_add_distrib]

theorem sum_mul_left (B c : ℕ) (f : ℕ → ℕ) (n : ℕ) :
    sum B (fun i => c * f i) n = c * sum B f n := by
  simp only [sum, mul_assoc, Finset.mul_sum]

/-- The higher digits do not count below them. -/
theorem sum_modEq {m : ℕ} (hm : m ≤ n) : sum B f n ≡ sum B f m [MOD B ^ m] := by
  induction n, hm using Nat.le_induction with
  | base => rfl
  | succ n hm ih =>
    rw [sum_succ]
    have hzero : f n * B ^ n ≡ 0 [MOD B ^ m] :=
      (Nat.modEq_zero_iff_dvd.2 ((pow_dvd_pow B hm).mul_left _))
    exact ih.add hzero

/-- What the write of one digit changes. -/
theorem sum_write {i : ℕ} (hi : i < n) (hg : ∀ j, j ≠ i → g j = f j) :
    sum B g n + f i * B ^ i = sum B f n + g i * B ^ i := by
  induction n with
  | zero => exact absurd hi (Nat.not_lt_zero i)
  | succ n ih =>
    rw [sum_succ, sum_succ]
    rcases Nat.lt_succ_iff_lt_or_eq.1 hi with hlt | rfl
    · have := ih hlt
      rw [hg n (by omega)]
      omega
    · rw [sum_congr fun j hj => hg j (by omega)]
      omega

/-- A digit is what a division and a remainder give. -/
theorem digit_eq (h : ∀ i < n, f i < B) {i : ℕ} (hi : i < n) : sum B f n / B ^ i % B = f i := by
  induction n with
  | zero => exact absurd hi (Nat.not_lt_zero i)
  | succ n ih =>
    have hlow : ∀ i < n, f i < B := fun i hi => h i (Nat.lt_succ_of_lt hi)
    have hB : 0 < B := (Nat.zero_le _).trans_lt (h n (Nat.lt_succ_self n))
    have hpos : 0 < B ^ i := Nat.pow_pos hB
    rw [sum_succ]
    rcases Nat.lt_succ_iff_lt_or_eq.1 hi with hlt | rfl
    · have hpow : B ^ n = B ^ i * (B * B ^ (n - i - 1)) := by
        rw [← pow_succ', ← pow_add]
        congr 1
        omega
      rw [hpow, mul_left_comm, Nat.add_mul_div_left _ _ hpos, mul_left_comm (f n),
        Nat.add_mul_mod_self_left]
      exact ih hlow hlt
    · rw [mul_comm, Nat.add_mul_div_left _ _ hpos, Nat.div_eq_of_lt (sum_lt hlow), zero_add]
      exact Nat.mod_eq_of_lt (h i hi)

/-- Bits that stand in different places are added. -/
theorem or_eq_add {x y m : ℕ} (hx : 2 ^ m ∣ x) (hy : y < 2 ^ m) : x ||| y = x + y := by
  obtain ⟨c, rfl⟩ := hx
  exact (Nat.two_pow_add_eq_or_of_lt hy c).symm

/-! ## Loops that count up -/

universe u

variable {σ : Type u}

/-- The state of a loop after `n` turns. -/
def upTo (body : σ → ℕ → σ) (s : σ) : ℕ → σ
  | 0 => s
  | n + 1 => body (upTo body s n) n

/-- **The invariant rule.** -/
theorem upTo_invariant {body : σ → ℕ → σ} {s : σ} {I : ℕ → σ → Prop} (h0 : I 0 s)
    (hstep : ∀ i < n, ∀ s, I i s → I (i + 1) (body s i)) : I n (upTo body s n) := by
  induction n with
  | zero => exact h0
  | succ n ih => exact hstep n (Nat.lt_succ_self n) _ (ih fun i hi => hstep i (Nat.lt_succ_of_lt hi))

end Digits
