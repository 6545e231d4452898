import Mathlib.Algebra.BigOperators.Group.List.Basic
import Mathlib.Algebra.Order.BigOperators.Group.List
import Mathlib.Algebra.Order.Ring.Int
import Mathlib.Tactic.Ring

/-!
# Lists with marks

A search over subsets of a list keeps one mark for each element.

* `picked` — the marked elements.
* `total` — the sum of a measure over them; marking one more element adds its measure
  (`total_set_true`), and no total of a non-negative measure exceeds that of the whole list
  (`total_le`).
-/

namespace Marked

variable {α : Type*}

/-- The elements with a mark. -/
def picked : List α → List Bool → List α
  | x :: xs, b :: bs => if b then x :: picked xs bs else picked xs bs
  | _, _ => []

/-- The sum of a measure over the marked elements. -/
def total (f : α → ℤ) (xs : List α) (marks : List Bool) : ℤ := ((picked xs marks).map f).sum

theorem picked_sublist (xs : List α) : ∀ marks, (picked xs marks).Sublist xs := by
  induction xs with
  | nil => exact fun marks => List.Sublist.refl _
  | cons x xs ih =>
    intro marks
    cases marks with
    | nil => exact List.nil_sublist _
    | cons b bs =>
      rw [picked]
      split
      · exact (ih bs).cons_cons x
      · exact (ih bs).cons x

@[simp] theorem picked_replicate_true (xs : List α) :
    picked xs (List.replicate xs.length true) = xs := by
  induction xs with
  | nil => rfl
  | cons x xs ih => simp [picked, List.replicate_succ, ih]

@[simp] theorem picked_replicate_false (xs : List α) (n : ℕ) :
    picked xs (List.replicate n false) = [] := by
  induction xs generalizing n with
  | nil => rfl
  | cons x xs ih =>
    cases n with
    | zero => rfl
    | succ n => simp [picked, List.replicate_succ, ih]

/-- One more mark. -/
theorem total_set_true (f : α → ℤ) {xs : List α} : ∀ {marks : List Bool} {i : ℕ} {x : α},
    xs[i]? = some x → marks[i]? = some false →
      total f xs (marks.set i true) = total f xs marks + f x := by
  unfold total
  induction xs with
  | nil =>
    intro marks i x hx
    exact absurd hx (by simp)
  | cons y xs ih =>
    intro marks i x hx hm
    cases marks with
    | nil => exact absurd hm (by simp)
    | cons b bs =>
      cases i with
      | zero =>
        simp only [List.getElem?_cons_zero, Option.some.injEq] at hx hm
        subst hx hm
        simp [picked]
        ring
      | succ i =>
        rw [List.getElem?_cons_succ] at hx hm
        have := ih hx hm
        rw [List.set_cons_succ, picked, picked]
        split
        · rw [List.map_cons, List.map_cons, List.sum_cons, List.sum_cons, this]
          ring
        · exact this

theorem total_nonneg {f : α → ℤ} {xs : List α} (hf : ∀ x ∈ xs, 0 ≤ f x) (marks : List Bool) :
    0 ≤ total f xs marks := by
  refine List.sum_nonneg fun v hv => ?_
  obtain ⟨x, hx, rfl⟩ := List.mem_map.1 hv
  exact hf x ((picked_sublist xs marks).subset hx)

theorem total_le {f : α → ℤ} {xs : List α} (hf : ∀ x ∈ xs, 0 ≤ f x) (marks : List Bool) :
    total f xs marks ≤ (xs.map f).sum := by
  refine List.Sublist.sum_le_sum ((picked_sublist xs marks).map f) fun v hv => ?_
  obtain ⟨x, hx, rfl⟩ := List.mem_map.1 hv
  exact hf x hx

end Marked
