import Mathlib

/-!
# Greedy choice under a limit

Items with a cost are considered one after the other; an item is taken when its cost still fits
under the limit.

* `pick` — the items taken.
* `sum_pick_le` — what is taken fits.
* `pick_append`, `lt_of_skipped` — an item that is left out did not fit on top of what had been
  taken of the items before it.
-/

namespace Greedy

variable {α : Type} (cost : α → ℤ) (cap : ℤ)

/-- The items that are taken, when `used` is taken up already. -/
def pick : ℤ → List α → List α
  | _, [] => []
  | used, a :: l => if cost a + used ≤ cap then a :: pick (used + cost a) l else pick used l

/-- What some items cost. -/
def total (l : List α) : ℤ := (l.map cost).sum

variable {cost cap}

theorem pick_sublist (l : List α) : ∀ used, (pick cost cap used l).Sublist l := by
  induction l with
  | nil => exact fun _ => .slnil
  | cons a l ih =>
    intro used
    rw [pick]
    split
    · exact (ih _).cons_cons a
    · exact (ih _).cons a

theorem sum_pick_le (l : List α) : ∀ {used}, used ≤ cap →
    used + total cost (pick cost cap used l) ≤ cap := by
  induction l with
  | nil =>
    intro used h
    simpa [pick, total] using h
  | cons a l ih =>
    intro used h
    rw [pick]
    split
    · next hfit =>
      have := ih (show used + cost a ≤ cap by omega)
      simp only [total, List.map_cons, List.sum_cons] at this ⊢
      omega
    · exact ih h

/-- The items of a second list are considered with what the first has taken up. -/
theorem pick_append (l l' : List α) : ∀ used, pick cost cap used (l ++ l') =
    pick cost cap used l ++ pick cost cap (used + total cost (pick cost cap used l)) l' := by
  induction l with
  | nil => simp [pick, total]
  | cons a l ih =>
    intro used
    rw [List.cons_append, pick, pick]
    split
    · rw [ih, List.cons_append]
      simp only [total, List.map_cons, List.sum_cons, add_assoc]
    · rw [ih]

/-- An item that is not taken when its turn comes does not fit. -/
theorem lt_of_skipped {before after : List α} {a : α} {used : ℤ}
    (h : a ∉ pick cost cap used (before ++ a :: after)) :
    cap < cost a + (used + total cost (pick cost cap used before)) := by
  by_contra hfit
  rw [pick_append, pick, if_pos (not_lt.1 hfit)] at h
  exact h (List.mem_append_right _ List.mem_cons_self)

end Greedy
