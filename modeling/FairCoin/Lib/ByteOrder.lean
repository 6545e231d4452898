import FairCoin.Lib.Codec
import Mathlib.Data.List.Lex

/-!
# Byte strings in order

A database walks its keys in the order of their bytes: the first different byte decides, and a
string comes before its extensions.

* `putBE` — numbers with the most significant byte first, so that their order is that of their
  bytes (`lt_putBE_append`).
* `takeWhile_eq_filter`, `dropWhile_eq_filter` — a walk over a range of sorted entries meets the
  entries in the range.
* `walk_block`, `walk_runs_on_iff` — a walk from a place on meets the entries at the place, and when it
  runs on behind them.
-/

namespace ByteOrder

open Codec (Bytes)

/-- The bytes of a string as numbers, in the order of which strings are compared. -/
def values (bs : Bytes) : List ℕ := bs.map UInt8.toNat

/-- Bytewise comparison. -/
def lt (a b : Bytes) : Bool := decide (values a < values b)

/-- The low `k` bytes of a number, most significant first. -/
def putBE : ℕ → ℕ → Bytes
  | 0, _ => []
  | k + 1, n => UInt8.ofNat (n / 256 ^ k) :: putBE k (n % 256 ^ k)

/-- **Big-endian numbers in order.**  Strings that start with numbers of the same width are in the
order of the numbers, and of what follows when the numbers are the same. -/
theorem lt_putBE_append {k : ℕ} : ∀ {m n : ℕ} (x y : Bytes), m < 256 ^ k → n < 256 ^ k →
    (lt (putBE k m ++ x) (putBE k n ++ y) = true ↔ m < n ∨ (m = n ∧ lt x y = true)) := by
  induction k with
  | zero =>
    intro m n x y hm hn
    obtain rfl : m = 0 := by simpa using hm
    obtain rfl : n = 0 := by simpa using hn
    simp [putBE]
  | succ k ih =>
    intro m n x y hm hn
    have hpos : 0 < 256 ^ k := by positivity
    have hbyte : ∀ {j : ℕ}, j < 256 ^ (k + 1) → (UInt8.ofNat (j / 256 ^ k)).toNat = j / 256 ^ k := by
      intro j hj
      rw [UInt8.toNat_ofNat']
      refine Nat.mod_eq_of_lt ?_
      rw [Nat.div_lt_iff_lt_mul hpos, mul_comm, ← pow_succ]
      exact hj
    have hrest := ih (m := m % 256 ^ k) (n := n % 256 ^ k) x y (Nat.mod_lt _ hpos)
      (Nat.mod_lt _ hpos)
    unfold lt values at hrest ⊢
    rw [decide_eq_true_eq, decide_eq_true_eq] at hrest
    rw [decide_eq_true_eq, decide_eq_true_eq, putBE, putBE, List.cons_append, List.cons_append,
      List.map_cons, List.map_cons, List.cons_lt_cons_iff, hbyte hm, hbyte hn, hrest]
    -- compare quotient and remainder
    have hmdiv := Nat.div_add_mod m (256 ^ k)
    have hndiv := Nat.div_add_mod n (256 ^ k)
    have hmmod := Nat.mod_lt m hpos
    have hnmod := Nat.mod_lt n hpos
    rcases lt_trichotomy (m / 256 ^ k) (n / 256 ^ k) with hq | hq | hq
    · have hlt : m < n := by
        have := Nat.mul_le_mul_left (256 ^ k) (Nat.succ_le_of_lt hq)
        rw [Nat.succ_eq_add_one, mul_add, mul_one] at this
        omega
      simp [hq, hlt]
    · rw [hq] at hmdiv
      constructor
      · rintro (h | ⟨-, h | ⟨h, h'⟩⟩)
        · omega
        · exact .inl (by omega)
        · exact .inr ⟨by omega, h'⟩
      · rintro (h | ⟨h, h'⟩)
        · exact .inr ⟨hq, .inl (by omega)⟩
        · exact .inr ⟨hq, .inr ⟨by omega, h'⟩⟩
    · have hlt : n < m := by
        have := Nat.mul_le_mul_left (256 ^ k) (Nat.succ_le_of_lt hq)
        rw [Nat.succ_eq_add_one, mul_add, mul_one] at this
        omega
      constructor
      · rintro (h | ⟨h, -⟩) <;> omega
      · rintro (h | ⟨h, -⟩) <;> omega

/-- Strings that start with strings of the same length are compared by these first. -/
theorem lt_append_of_length : ∀ {x y : Bytes} (u v : Bytes), x.length = y.length →
    (lt (x ++ u) (y ++ v) = true ↔ values x < values y ∨ (x = y ∧ lt u v = true)) := by
  intro x
  induction x with
  | nil =>
    intro y u v h
    obtain rfl := List.eq_nil_of_length_eq_zero h.symm
    simp
  | cons b x ih =>
    intro y u v h
    cases y with
    | nil => cases h
    | cons c y =>
      have hrest := ih u v (Nat.succ_inj.1 h)
      unfold lt values at hrest ⊢
      rw [decide_eq_true_eq, decide_eq_true_eq] at hrest
      rw [decide_eq_true_eq, decide_eq_true_eq, List.cons_append, List.cons_append, List.map_cons,
        List.map_cons, List.map_cons, List.map_cons, List.cons_lt_cons_iff, List.cons_lt_cons_iff,
        hrest, List.cons.injEq, ← UInt8.toNat_inj]
      tauto

theorem values_injective {x y : Bytes} (h : values x = values y) : x = y :=
  List.map_injective_iff.2 (fun _ _ hb => UInt8.toNat_inj.1 hb) h

theorem lt_nil (x : Bytes) : lt x [] = false := by
  simp [lt, values]

theorem not_lt_trans {a b c : Bytes} (h₁ : lt b a = false) (h₂ : lt c b = false) :
    lt c a = false := by
  unfold lt at *
  rw [decide_eq_false_iff_not, not_lt] at *
  exact h₁.trans h₂

theorem not_lt_total (a b : Bytes) : (!lt b a || !lt a b) = true := by
  unfold lt
  rcases le_total (values a) (values b) with h | h
  · simp [not_lt.2 h]
  · simp [not_lt.2 h]

section Walk

variable {α : Type} {p : α → Bool}

/-- Walking on while a test holds, over entries that pass the test before those that do not. -/
theorem takeWhile_eq_filter {l : List α} (h : l.Pairwise fun a b => p b = true → p a = true) :
    l.takeWhile p = l.filter p := by
  induction l with
  | nil => rfl
  | cons a l ih =>
    obtain ⟨ha, hl⟩ := List.pairwise_cons.1 h
    by_cases hp : p a = true
    · rw [List.takeWhile_cons_of_pos hp, List.filter_cons_of_pos hp, ih hl]
    · rw [List.takeWhile_cons_of_neg hp, List.filter_cons_of_neg hp, eq_comm,
        List.filter_eq_nil_iff]
      exact fun b hb hpb => hp (ha b hb hpb)

theorem dropWhile_eq_filter {l : List α} (h : l.Pairwise fun a b => p b = true → p a = true) :
    l.dropWhile p = l.filter fun a => !p a := by
  induction l with
  | nil => rfl
  | cons a l ih =>
    obtain ⟨ha, hl⟩ := List.pairwise_cons.1 h
    by_cases hp : p a = true
    · rw [List.dropWhile_cons_of_pos hp, List.filter_cons_of_neg (by simp [hp]), ih hl]
    · rw [List.dropWhile_cons_of_neg hp, List.filter_cons_of_pos (by simp [hp]), eq_comm]
      congr 1
      rw [List.filter_eq_self]
      intro b hb
      have hpb : ¬p b = true := fun hpb => hp (ha b hb hpb)
      simpa using hpb

end Walk

section Block

variable {α P : Type} [LinearOrder P] {pre : α → P} {l : List α} {p : P}

/-- The entries from a place on are those at the place and those behind it. -/
theorem filter_not_lt (hsorted : l.Pairwise fun a b => pre a ≤ pre b) (p : P) :
    l.filter (fun e => !decide (pre e < p)) =
      l.filter (fun e => decide (pre e = p)) ++ l.filter fun e => decide (p < pre e) := by
  induction l with
  | nil => rfl
  | cons a l ih =>
    obtain ⟨ha, hl⟩ := List.pairwise_cons.1 hsorted
    rcases lt_trichotomy (pre a) p with hlt | heq | hgt
    · rw [List.filter_cons_of_neg (by simp [hlt]), List.filter_cons_of_neg (by simp [hlt.ne]),
        List.filter_cons_of_neg (by simp [hlt.le]), ih hl]
    · rw [List.filter_cons_of_pos (by simp [heq]), List.filter_cons_of_pos (by simp [heq]),
        List.filter_cons_of_neg (by simp [heq]), ih hl]
      rfl
    · have hnone : l.filter (fun e => decide (pre e = p)) = [] := by
        rw [List.filter_eq_nil_iff]
        intro b hb heq
        exact absurd (of_decide_eq_true heq) (hgt.trans_le (ha b hb)).ne'
      rw [List.filter_cons_of_pos (by simp [hgt.le]), List.filter_cons_of_neg (by simp [hgt.ne']),
        List.filter_cons_of_pos (by simp [hgt]), ih hl, hnone]
      rfl

/-- **A walk from a place on** meets the entries at the place, and runs on behind them. -/
theorem walk_block (hsorted : l.Pairwise fun a b => pre a ≤ pre b) {q : α → Bool}
    (hsame : ∀ e ∈ l, pre e = p → q e = true) :
    (l.dropWhile fun e => decide (pre e < p)).takeWhile q =
      l.filter (fun e => decide (pre e = p)) ++
        (l.filter fun e => decide (p < pre e)).takeWhile q := by
  rw [dropWhile_eq_filter (hsorted.imp fun {a b} hab hb =>
      decide_eq_true (hab.trans_lt (of_decide_eq_true hb))), filter_not_lt hsorted,
    List.takeWhile_append_of_pos]
  intro e he
  obtain ⟨hmem, heq⟩ := List.mem_filter.1 he
  exact hsame e hmem (of_decide_eq_true heq)

/-- **The walk runs on** if the test holds of the next entries. -/
theorem walk_runs_on_iff (hsorted : l.Pairwise fun a b => pre a ≤ pre b) {same : α → Bool}
    (hsame : ∀ a b, pre a = pre b → same a = same b) :
    (l.filter fun e => decide (p < pre e)).takeWhile same ≠ [] ↔
      ∃ e ∈ l, p < pre e ∧ same e = true ∧ ∀ e' ∈ l, p < pre e' → pre e ≤ pre e' := by
  have hbehind := hsorted.sublist (List.filter_sublist (p := fun e => decide (p < pre e)))
  have hmem : ∀ e, e ∈ l.filter (fun e => decide (p < pre e)) ↔ e ∈ l ∧ p < pre e := by
    intro e
    rw [List.mem_filter, decide_eq_true_eq]
  generalize l.filter (fun e => decide (p < pre e)) = behind at hbehind hmem
  cases behind with
  | nil =>
    refine iff_of_false (fun h => h rfl) ?_
    rintro ⟨e, he, hlt, -⟩
    exact absurd ((hmem e).2 ⟨he, hlt⟩) List.not_mem_nil
  | cons first behind =>
    obtain ⟨hfirst, -⟩ := List.pairwise_cons.1 hbehind
    have hleast : ∀ e' ∈ l, p < pre e' → pre first ≤ pre e' := by
      intro e' he' hlt
      rcases List.mem_cons.1 ((hmem e').2 ⟨he', hlt⟩) with rfl | hin
      · exact le_rfl
      · exact hfirst e' hin
    obtain ⟨hin, hlt⟩ := (hmem first).1 List.mem_cons_self
    by_cases hs : same first = true
    · rw [List.takeWhile_cons_of_pos hs]
      exact iff_of_true (List.cons_ne_nil _ _) ⟨first, hin, hlt, hs, hleast⟩
    · rw [List.takeWhile_cons_of_neg hs]
      refine iff_of_false (fun h => h rfl) ?_
      rintro ⟨e, he, hpe, hse, hmin⟩
      have heq : pre first = pre e := le_antisymm (hleast e he hpe) (hmin first hin hlt)
      exact hs ((hsame first e heq).trans hse)

end Block

end ByteOrder
