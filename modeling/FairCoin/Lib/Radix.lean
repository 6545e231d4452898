import Mathlib.Data.Nat.Digits.Lemmas

/-!
# Positional numerals

Numbers as lists of digits, the most significant digit first, and the conversion between two bases in
a buffer of fixed length.

* `value`, `numeral` — the number that digits write, and the digits without leading zeros.
* `numeral_value` — digits are the numeral of their value up to leading zeros.
* `mulAdd` — **a buffer times a factor plus a carry**, digit by digit from the right.
* `horner` — the conversion, one digit after another; it fails when a carry is left.
* `pow_lt_pow_of_ratio` — a rational bound on a logarithm sizes the buffer.
-/

namespace Radix

/-! ## Values -/

/-- The number that a list of digits writes. -/
def value (b : ℕ) (ds : List ℕ) : ℕ := ds.foldl (fun v d => v * b + d) 0

/-- The digits of a number, without leading zeros. -/
def numeral (b n : ℕ) : List ℕ := (Nat.digits b n).reverse

@[simp] theorem value_nil (b : ℕ) : value b [] = 0 := rfl

theorem value_concat (b : ℕ) (ds : List ℕ) (d : ℕ) : value b (ds ++ [d]) = value b ds * b + d := by
  rw [value, List.foldl_append]
  rfl

theorem value_append (b : ℕ) (xs ys : List ℕ) :
    value b (xs ++ ys) = value b xs * b ^ ys.length + value b ys := by
  induction ys using List.reverseRecOn with
  | nil => simp
  | append_singleton ys d ih =>
    rw [← List.append_assoc, value_concat, ih, value_concat, List.length_append,
      List.length_singleton, pow_succ]
    ring

theorem value_cons (b d : ℕ) (ds : List ℕ) :
    value b (d :: ds) = d * b ^ ds.length + value b ds := by
  rw [← List.singleton_append, value_append]
  congr 2
  exact (value_concat b [] d).trans (by simp)

theorem value_replicate_zero (b k : ℕ) : value b (List.replicate k 0) = 0 := by
  induction k with
  | zero => rfl
  | succ k ih => rw [List.replicate_succ, value_cons, ih, Nat.zero_mul]

theorem value_lt {b : ℕ} {ds : List ℕ} (h : ∀ d ∈ ds, d < b) : value b ds < b ^ ds.length := by
  induction ds with
  | nil => exact Nat.one_pos
  | cons d ds ih =>
    have hd := h d List.mem_cons_self
    have hrest := ih fun x hx => h x (List.mem_cons_of_mem _ hx)
    rw [value_cons, List.length_cons, pow_succ']
    calc d * b ^ ds.length + value b ds < d * b ^ ds.length + b ^ ds.length := by omega
      _ = (d + 1) * b ^ ds.length := (Nat.succ_mul _ _).symm
      _ ≤ b * b ^ ds.length := Nat.mul_le_mul_right _ hd

/-- Digits in the other order are those of `Nat.ofDigits`. -/
theorem value_reverse (b : ℕ) (ds : List ℕ) : value b ds.reverse = Nat.ofDigits b ds := by
  induction ds with
  | nil => rfl
  | cons d ds ih => rw [List.reverse_cons, value_concat, ih, Nat.ofDigits_cons, mul_comm, add_comm]

/-! ## Numerals -/

theorem value_numeral (b n : ℕ) : value b (numeral b n) = n := by
  rw [numeral, value_reverse, Nat.ofDigits_digits]

theorem lt_of_mem_numeral {b n d : ℕ} (hb : 1 < b) (h : d ∈ numeral b n) : d < b :=
  Nat.digits_lt_base hb (List.mem_reverse.1 h)

theorem length_numeral_le {b n k : ℕ} (hb : 1 < b) (h : n < b ^ k) : (numeral b n).length ≤ k := by
  rw [numeral, List.length_reverse]
  exact (Nat.digits_length_le_iff hb n).2 h

/-- A numeral has no leading zero. -/
theorem head?_numeral (b n : ℕ) : (numeral b n).head? ≠ some 0 := by
  intro h
  rw [numeral, List.head?_reverse] at h
  by_cases hn : n = 0
  · rw [hn, Nat.digits_zero] at h
    cases h
  · have hne : Nat.digits b n ≠ [] := Nat.digits_ne_nil_iff_ne_zero.2 hn
    rw [List.getLast?_eq_some_getLast hne, Option.some.injEq] at h
    exact Nat.getLast_digit_ne_zero b hn h

theorem dropWhile_numeral (b n : ℕ) : (numeral b n).dropWhile (· == 0) = numeral b n := by
  have h := head?_numeral b n
  cases hd : numeral b n with
  | nil => rfl
  | cons d ds =>
    rw [hd, List.head?_cons] at h
    rw [List.dropWhile_cons_of_neg]
    simpa using fun h0 => h (congrArg some h0)

/-- **Digits are the numeral of their value**, up to leading zeros. -/
theorem numeral_value {b : ℕ} {ds : List ℕ} (hb : 1 < b) (h : ∀ d ∈ ds, d < b) :
    numeral b (value b ds) = ds.dropWhile (· == 0) := by
  induction ds with
  | nil => simp [numeral]
  | cons d ds ih =>
    by_cases hd : d = 0
    · have hrest := ih fun x hx => h x (List.mem_cons_of_mem _ hx)
      rw [hd, value_cons, Nat.zero_mul, Nat.zero_add, hrest, List.dropWhile_cons_of_pos rfl]
    · rw [List.dropWhile_cons_of_neg (by simpa using hd), numeral,
        ← List.reverse_reverse (d :: ds), value_reverse, Nat.digits_ofDigits b hb]
      · intro x hx
        exact h x (List.mem_reverse.1 hx)
      · intro hne
        rw [List.getLast_reverse]
        exact hd

/-! ## Multiplication in a buffer -/

/-- The buffer times `m` plus `carry`, from the right; with the carry that is left. -/
def mulAdd (b m : ℕ) : List ℕ → ℕ → List ℕ × ℕ
  | [], carry => ([], carry)
  | d :: ds, carry =>
      let carry' := (mulAdd b m ds carry).2 + m * d
      (carry' % b :: (mulAdd b m ds carry).1, carry' / b)

@[simp] theorem length_mulAdd (b m : ℕ) (ds : List ℕ) (carry : ℕ) :
    (mulAdd b m ds carry).1.length = ds.length := by
  induction ds with
  | nil => rfl
  | cons d ds ih => rw [mulAdd, List.length_cons, ih, List.length_cons]

theorem lt_of_mem_mulAdd {b m carry d : ℕ} {ds : List ℕ} (hb : 0 < b)
    (h : d ∈ (mulAdd b m ds carry).1) : d < b := by
  induction ds with
  | nil => cases h
  | cons x ds ih =>
    rcases List.mem_cons.1 h with rfl | h
    · exact Nat.mod_lt _ hb
    · exact ih h

/-- **What the multiplication computes.** -/
theorem mulAdd_value (b m : ℕ) (ds : List ℕ) (carry : ℕ) :
    value b (mulAdd b m ds carry).1 + b ^ ds.length * (mulAdd b m ds carry).2 =
      m * value b ds + carry := by
  induction ds with
  | nil => simp [mulAdd]
  | cons d ds ih =>
    rw [mulAdd, value_cons, length_mulAdd, value_cons, List.length_cons]
    generalize hx : (mulAdd b m ds carry).2 + m * d = x
    have hmod := Nat.div_add_mod x b
    calc x % b * b ^ ds.length + value b (mulAdd b m ds carry).1 + b ^ (ds.length + 1) * (x / b)
        = (b * (x / b) + x % b) * b ^ ds.length + value b (mulAdd b m ds carry).1 := by
          rw [pow_succ]
          ring
      _ = m * (d * b ^ ds.length) + (value b (mulAdd b m ds carry).1 +
          b ^ ds.length * (mulAdd b m ds carry).2) := by
          rw [hmod, ← hx]
          ring
      _ = m * (d * b ^ ds.length + value b ds) + carry := by
          rw [ih]
          ring

/-- No carry is left if the product fits the buffer. -/
theorem mulAdd_carry {b m c : ℕ} {l : List ℕ} (h : m * value b l + c < b ^ l.length) :
    (mulAdd b m l c).2 = 0 := by
  have hvalue := mulAdd_value b m l c
  by_contra hne
  have : b ^ l.length ≤ b ^ l.length * (mulAdd b m l c).2 :=
    Nat.le_mul_of_pos_right _ (Nat.pos_of_ne_zero hne)
  omega

/-! ## Conversion -/

/-- The digits of base `m` written in base `b` into a buffer; `none` when a c is left. -/
def horner (b m : ℕ) : List ℕ → List ℕ → Option (List ℕ)
  | buffer, [] => some buffer
  | buffer, d :: l =>
      if (mulAdd b m buffer d).2 = 0 then horner b m (mulAdd b m buffer d).1 l else none

/-- **A buffer that is large enough** holds the number in the other base. -/
theorem horner_eq_some {b m : ℕ} (hb : 0 < b) (hm : 0 < m) {ds : List ℕ} : ∀ {buffer : List ℕ},
    (∀ d ∈ buffer, d < b) → value b buffer * m ^ ds.length + value m ds < b ^ buffer.length →
      ∃ buffer', horner b m buffer ds = some buffer' ∧ (∀ d ∈ buffer', d < b) ∧
        value b buffer' = value b buffer * m ^ ds.length + value m ds := by
  induction ds with
  | nil =>
    intro buffer hbuffer _
    exact ⟨buffer, rfl, hbuffer, by simp⟩
  | cons d ds ih =>
    intro buffer hbuffer hfits
    have hsplit : value b buffer * m ^ (d :: ds).length + value m (d :: ds) =
        (m * value b buffer + d) * m ^ ds.length + value m ds := by
      rw [value_cons, List.length_cons, pow_succ]
      ring
    have hpos : 0 < m ^ ds.length := Nat.pow_pos hm
    have hstep : m * value b buffer + d < b ^ buffer.length := by
      have := Nat.le_mul_of_pos_right (m * value b buffer + d) hpos
      omega
    have hcarry := mulAdd_carry hstep
    have hvalue := mulAdd_value b m buffer d
    rw [hcarry, Nat.mul_zero, Nat.add_zero] at hvalue
    obtain ⟨buffer', hrun, hlt, hresult⟩ := ih
      (fun x hx => lt_of_mem_mulAdd hb hx) (by rw [hvalue, length_mulAdd]; omega)
    refine ⟨buffer', ?_, hlt, ?_⟩
    · rw [horner, if_pos hcarry, hrun]
    · rw [hresult, hvalue, hsplit]

/-- **Conversion of a numeral.**  Into a buffer of zeros, without its leading zeros. -/
theorem horner_replicate {b m k : ℕ} {l : List ℕ} (hb : 1 < b) (hm : 0 < m)
    (h : value m l < b ^ k) : ∃ buffer, horner b m (List.replicate k 0) l = some buffer ∧
      buffer.dropWhile (· == 0) = numeral b (value m l) := by
  have hzero := value_replicate_zero b k
  obtain ⟨buffer, hrun, hlt, hvalue⟩ := @horner_eq_some b m (by omega) hm l
    (List.replicate k 0)
    (fun d hd => by rw [List.eq_of_mem_replicate hd]; omega)
    (by rw [hzero, List.length_replicate]; omega)
  refine ⟨buffer, hrun, ?_⟩
  rw [← numeral_value hb hlt, hvalue, hzero, Nat.zero_mul, Nat.zero_add]

/-- A rational bound on the logarithm of a base to another sizes the buffer of every length. -/
theorem pow_lt_pow_of_ratio {a b p q : ℕ} (hb : 1 < b) (hq : 0 < q) (h : a ^ q ≤ b ^ p) (n : ℕ) :
    a ^ n < b ^ (n * p / q + 1) := by
  have hsize : n * p < q * (n * p / q + 1) := by
    exact Nat.lt_mul_div_succ (n * p) hq
  apply lt_of_pow_lt_pow_left₀ q (Nat.zero_le _)
  calc (a ^ n) ^ q = (a ^ q) ^ n := pow_right_comm a n q
    _ ≤ (b ^ p) ^ n := Nat.pow_le_pow_left h n
    _ = b ^ (n * p) := by rw [← pow_mul, mul_comm]
    _ < b ^ (q * (n * p / q + 1)) := Nat.pow_lt_pow_right hb hsize
    _ = (b ^ (n * p / q + 1)) ^ q := by rw [← pow_mul, mul_comm]

end Radix
