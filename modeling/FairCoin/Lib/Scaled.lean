import Mathlib.Tactic.Ring
import Mathlib.Tactic.Linarith
import Mathlib.Tactic.NormNum
import Mathlib.Data.Nat.Basic

/-!
# Numbers as a mantissa and an exponent

A number in base `b` is its mantissa times a power of `b`; the exponent is at most `E`, and below
`E` the mantissa does not end in a zero.  Packing the last digit of the mantissa and the exponent
in mixed radix gives one code for each number.

* `strip` — mantissa and exponent; `strip_mul_pow` says that they are unique.
* `code`, `decode` — the packing and its inverse.
* `decode_code`, `code_decode` — **the codes are a bijection** of the natural numbers.
* `code_le` — the code of a number is at most the number times the number of exponents;
  `code_le_of_mod_eq_zero` divides this by the base when the number ends in a zero.
-/

namespace Scaled

/-- Divide by `b` while the number ends in a zero, at most `E` times: the mantissa and the
exponent. -/
def strip (b : ℕ) : ℕ → ℕ → ℕ × ℕ
  | 0, n => (n, 0)
  | E + 1, n => if n % b = 0 then ((strip b E (n / b)).1, (strip b E (n / b)).2 + 1) else (n, 0)

/-- The mantissa and the exponent of a number, and what makes them unique. -/
structure Normal (b E n m e : ℕ) : Prop where
  value : n = m * b ^ e
  le : e ≤ E
  last : e < E → m % b ≠ 0

theorem normal_strip {b : ℕ} (E n : ℕ) : Normal b E n (strip b E n).1 (strip b E n).2 := by
  induction E generalizing n with
  | zero => exact ⟨by simp [strip], Nat.le_refl 0, fun h => absurd h (Nat.not_lt_zero _)⟩
  | succ E ih =>
    rw [strip]
    split
    · next hzero =>
      obtain ⟨hvalue, hle, hlast⟩ := ih (n / b)
      refine ⟨?_, Nat.succ_le_succ hle, fun h => hlast (Nat.lt_of_succ_lt_succ h)⟩
      calc n = n / b * b := (Nat.div_mul_cancel (Nat.dvd_of_mod_eq_zero hzero)).symm
        _ = (strip b E (n / b)).1 * b ^ (strip b E (n / b)).2 * b := by rw [← hvalue]
        _ = _ := by rw [pow_succ, Nat.mul_assoc]
    · next hdigit => exact ⟨by simp, Nat.zero_le _, fun _ => hdigit⟩

/-- **Mantissa and exponent are unique.** -/
theorem strip_mul_pow {b : ℕ} (hb : 0 < b) {E n m e : ℕ} (h : Normal b E n m e) :
    strip b E n = (m, e) := by
  induction E generalizing n m e with
  | zero =>
    obtain rfl : e = 0 := Nat.le_zero.1 h.le
    rw [strip, h.value, pow_zero, Nat.mul_one]
  | succ E ih =>
    cases e with
    | zero =>
      have hn : n = m := by rw [h.value, pow_zero, Nat.mul_one]
      rw [strip, if_neg (hn ▸ h.last (Nat.succ_pos E)), hn]
    | succ e =>
      have hn : n = m * b ^ e * b := by rw [h.value, pow_succ, Nat.mul_assoc]
      have hdiv : n / b = m * b ^ e := by rw [hn, Nat.mul_div_cancel _ hb]
      have hrec := ih (n := n / b) (m := m) (e := e)
        ⟨hdiv, Nat.le_of_succ_le_succ h.le, fun h' => h.last (Nat.succ_lt_succ h')⟩
      rw [strip, if_pos (by rw [hn, Nat.mul_mod_left]), hrec]

/-! ## Codes -/

/-- Pack a mantissa and an exponent: below the largest exponent the last digit of the mantissa is
not zero, and takes one of `b - 1` values. -/
def pack (b E m e : ℕ) : ℕ :=
  if e < E then 1 + (m / b * (b - 1) + m % b - 1) * (E + 1) + e else 1 + (m - 1) * (E + 1) + E

/-- The code of a number. -/
def code (b E n : ℕ) : ℕ := if n = 0 then 0 else pack b E (strip b E n).1 (strip b E n).2

/-- The mantissa that a code has above its exponent `e`. -/
def mantissa (b E q e : ℕ) : ℕ := if e < E then q / (b - 1) * b + (q % (b - 1) + 1) else q + 1

/-- The number of a code. -/
def decode (b E x : ℕ) : ℕ :=
  if x = 0 then 0
  else mantissa b E ((x - 1) / (E + 1)) ((x - 1) % (E + 1)) * b ^ ((x - 1) % (E + 1))

@[simp] theorem code_zero (b E : ℕ) : code b E 0 = 0 := rfl

@[simp] theorem decode_zero (b E : ℕ) : decode b E 0 = 0 := rfl

theorem decode_pos_form {b E q e : ℕ} (he : e ≤ E) :
    decode b E (1 + q * (E + 1) + e) = mantissa b E q e * b ^ e := by
  have hx : 1 + q * (E + 1) + e - 1 = e + (E + 1) * q := by rw [Nat.mul_comm q]; omega
  have hdiv : (e + (E + 1) * q) / (E + 1) = q := by
    rw [Nat.add_mul_div_left _ _ (Nat.succ_pos E), Nat.div_eq_of_lt (Nat.lt_succ_of_le he),
      Nat.zero_add]
  have hmod : (e + (E + 1) * q) % (E + 1) = e := by
    rw [Nat.add_mul_mod_self_left, Nat.mod_eq_of_lt (Nat.lt_succ_of_le he)]
  rw [decode, if_neg (by omega), hx, hdiv, hmod]

/-- Splitting the last digit off a mantissa and putting it back. -/
theorem mantissa_digits {b E m e : ℕ} (hb : 2 ≤ b) (he : e < E) (hm : m % b ≠ 0) :
    mantissa b E (m / b * (b - 1) + m % b - 1) e = m := by
  obtain ⟨b, rfl⟩ : ∃ c, b = c + 2 := ⟨b - 2, by omega⟩
  have hlt : m % (b + 2) - 1 < b + 1 := by
    have := Nat.mod_lt m (show 0 < b + 2 by omega)
    omega
  have hq : m / (b + 2) * (b + 2 - 1) + m % (b + 2) - 1 =
      (m % (b + 2) - 1) + (b + 1) * (m / (b + 2)) := by
    rw [show b + 2 - 1 = b + 1 from rfl, Nat.mul_comm]
    omega
  rw [mantissa, if_pos he, hq, show b + 2 - 1 = b + 1 from rfl,
    Nat.add_mul_div_left _ _ (Nat.succ_pos b), Nat.div_eq_of_lt hlt, Nat.zero_add,
    Nat.add_mul_mod_self_left, Nat.mod_eq_of_lt hlt]
  have := Nat.div_add_mod' m (b + 2)
  omega

/-- **Decoding undoes coding.** -/
theorem decode_code {b : ℕ} (hb : 2 ≤ b) (E n : ℕ) : decode b E (code b E n) = n := by
  rw [code]
  split
  · next h => rw [h, decode_zero]
  · next hn =>
    obtain ⟨hvalue, hle, hlast⟩ := normal_strip (b := b) E n
    rw [pack]
    split
    · next he => rw [decode_pos_form hle, mantissa_digits hb he (hlast he), ← hvalue]
    · next he =>
      have hE : (strip b E n).2 = E := by omega
      have hm : (strip b E n).1 ≠ 0 := by
        intro h0
        rw [h0, Nat.zero_mul] at hvalue
        exact hn hvalue
      have hsucc : (strip b E n).1 - 1 + 1 = (strip b E n).1 := by omega
      rw [decode_pos_form (Nat.le_refl E), mantissa, if_neg (Nat.lt_irrefl E), hsucc]
      conv_rhs => rw [hvalue, hE]

theorem mantissa_pos (b E q e : ℕ) : 0 < mantissa b E q e := by
  rw [mantissa]
  split <;> omega

/-- The mantissa of a code has a last digit, when its exponent is not the largest. -/
theorem mantissa_mod {b E q e : ℕ} (hb : 2 ≤ b) (he : e < E) :
    mantissa b E q e % b = q % (b - 1) + 1 ∧ mantissa b E q e / b = q / (b - 1) := by
  have hlt : q % (b - 1) + 1 < b := by
    have := Nat.mod_lt q (show 0 < b - 1 by omega)
    omega
  have hform : mantissa b E q e = q % (b - 1) + 1 + b * (q / (b - 1)) := by
    rw [mantissa, if_pos he, Nat.mul_comm b]
    omega
  constructor
  · rw [hform, Nat.add_mul_mod_self_left, Nat.mod_eq_of_lt hlt]
  · rw [hform, Nat.add_mul_div_left _ _ (by omega), Nat.div_eq_of_lt hlt, Nat.zero_add]

theorem normal_mantissa {b E q e : ℕ} (hb : 2 ≤ b) (he : e ≤ E) :
    Normal b E (mantissa b E q e * b ^ e) (mantissa b E q e) e := by
  refine ⟨rfl, he, fun h => ?_⟩
  rw [(mantissa_mod hb h).1]
  exact Nat.succ_ne_zero _

/-- **Coding undoes decoding.** -/
theorem code_decode {b : ℕ} (hb : 2 ≤ b) (E x : ℕ) : code b E (decode b E x) = x := by
  cases x with
  | zero => rfl
  | succ x =>
    have he : x % (E + 1) ≤ E := Nat.le_of_lt_succ (Nat.mod_lt x (Nat.succ_pos E))
    have hx : x + 1 = 1 + x / (E + 1) * (E + 1) + x % (E + 1) := by
      have := Nat.div_add_mod' x (E + 1)
      omega
    generalize x / (E + 1) = q at hx
    generalize x % (E + 1) = e at hx he
    have hne : mantissa b E q e * b ^ e ≠ 0 :=
      Nat.mul_ne_zero (mantissa_pos b E q e).ne' (pow_ne_zero _ (by omega))
    rw [hx, decode_pos_form he, code, if_neg hne,
      strip_mul_pow (by omega) (normal_mantissa hb he), pack]
    split
    · next h =>
      obtain ⟨hmod, hdiv⟩ := mantissa_mod (q := q) hb h
      have hq := Nat.div_add_mod' q (b - 1)
      have hsum : mantissa b E q e / b * (b - 1) + mantissa b E q e % b - 1 = q := by
        rw [hmod, hdiv]
        omega
      rw [hsum]
    · next h =>
      have hE : e = E := by omega
      rw [mantissa, if_neg h, Nat.add_sub_cancel, hE]

theorem code_injective {b : ℕ} (hb : 2 ≤ b) (E : ℕ) : Function.Injective (code b E) :=
  Function.LeftInverse.injective (decode_code hb E)

/-! ## Bounds -/

theorem pack_le {b E m e : ℕ} (he : e ≤ E) (hm : 0 < m) : pack b E m e ≤ (E + 1) * m := by
  obtain ⟨m, rfl⟩ : ∃ k, m = k + 1 := ⟨m - 1, by omega⟩
  have hdigits : (m + 1) / b * (b - 1) + (m + 1) % b - 1 ≤ m := by
    have hq := Nat.div_add_mod' (m + 1) b
    have hmul := Nat.mul_le_mul_left ((m + 1) / b) (Nat.sub_le b 1)
    omega
  have hbound := Nat.mul_le_mul_right (E + 1) hdigits
  have hexpand : (E + 1) * (m + 1) = m * (E + 1) + (E + 1) := by ring
  rw [pack, hexpand]
  split
  · omega
  · rw [Nat.add_sub_cancel]
    omega

theorem code_le {b : ℕ} (hb : 0 < b) (E n : ℕ) : code b E n ≤ (E + 1) * n := by
  rw [code]
  split
  · exact Nat.zero_le _
  · next hn =>
    obtain ⟨hvalue, hle, -⟩ := normal_strip (b := b) E n
    have hm : 0 < (strip b E n).1 := by
      apply Nat.pos_of_ne_zero
      intro h0
      rw [h0, Nat.zero_mul] at hvalue
      exact hn hvalue
    refine (pack_le hle hm).trans (Nat.mul_le_mul_left _ ?_)
    conv_rhs => rw [hvalue]
    exact Nat.le_mul_of_pos_right _ (pow_pos hb _)

theorem code_le_of_mod_eq_zero {b : ℕ} (hb : 0 < b) {E n : ℕ} (hE : 0 < E) (hn : n % b = 0) :
    code b E n ≤ (E + 1) * (n / b) := by
  rw [code]
  split
  · exact Nat.zero_le _
  · next hn0 =>
    obtain ⟨E, rfl⟩ : ∃ k, E = k + 1 := ⟨E - 1, by omega⟩
    obtain ⟨hvalue, hle, -⟩ := normal_strip (b := b) E (n / b)
    have hdiv : n / b ≠ 0 := by
      intro h0
      have := Nat.div_mul_cancel (Nat.dvd_of_mod_eq_zero hn)
      rw [h0, Nat.zero_mul] at this
      exact hn0 this.symm
    have hm : 0 < (strip b E (n / b)).1 := by
      apply Nat.pos_of_ne_zero
      intro h0
      rw [h0, Nat.zero_mul] at hvalue
      exact hdiv hvalue
    rw [strip, if_pos hn]
    refine (pack_le (Nat.succ_le_succ hle) hm).trans (Nat.mul_le_mul_left _ ?_)
    conv_rhs => rw [hvalue]
    exact Nat.le_mul_of_pos_right _ (pow_pos hb _)

end Scaled
