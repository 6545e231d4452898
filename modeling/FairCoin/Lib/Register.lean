import Mathlib

/-!
# A register that keeps the newest value

Values with a time are offered one after the other; a value is taken when it is newer than the
one held.

* `hold` — what is held after a list of offers.
* `hold_newest`, `hold_eq_none` — it is one of the newest values offered.
* `hold_cons_of_le` — of several newest values the one offered first is held, so the order of the
  offers matters exactly when there are ties.
-/

namespace Register

variable {α τ : Type} [LinearOrder τ] (time : α → τ)

/-- Take a value unless the one held is at least as new. -/
def put : Option α → α → Option α
  | none, a => some a
  | some b, a => if time a ≤ time b then some b else some a

/-- What is held after a list of offers. -/
def hold (l : List α) : Option α := l.foldl (put time) none

/-- One of the newest values of a list. -/
structure Newest (l : List α) (a : α) : Prop where
  mem : a ∈ l
  le : ∀ b ∈ l, time b ≤ time a

theorem foldl_put_some (l : List α) : ∀ a : α, ∃ b, l.foldl (put time) (some a) = some b ∧
    (b = a ∨ b ∈ l) ∧ time a ≤ time b ∧ ∀ x ∈ l, time x ≤ time b := by
  induction l with
  | nil => exact fun a => ⟨a, rfl, .inl rfl, le_rfl, by simp⟩
  | cons c l ih =>
    intro a
    rw [List.foldl_cons, put]
    split
    · next hle =>
      obtain ⟨b, hb, hmem, hab, hl⟩ := ih a
      refine ⟨b, hb, hmem.imp id (by simp +contextual), hab, fun x hx => ?_⟩
      rcases List.mem_cons.1 hx with rfl | hx
      · exact hle.trans hab
      · exact hl x hx
    · next hlt =>
      obtain ⟨b, hb, hmem, hcb, hl⟩ := ih c
      refine ⟨b, hb, .inr ?_, (not_le.1 hlt).le.trans hcb, fun x hx => ?_⟩
      · rcases hmem with rfl | hmem
        · exact List.mem_cons_self
        · exact List.mem_cons_of_mem c hmem
      · rcases List.mem_cons.1 hx with rfl | hx
        · exact hcb
        · exact hl x hx

/-- Something is held after an offer, and it is one of the newest. -/
theorem hold_cons (a : α) (l : List α) :
    ∃ b, hold time (a :: l) = some b ∧ Newest time (a :: l) b := by
  obtain ⟨b, hb, hmem, hab, hl⟩ := foldl_put_some time l a
  refine ⟨b, hb, ?_, fun x hx => ?_⟩
  · rcases hmem with rfl | hmem
    · exact List.mem_cons_self
    · exact List.mem_cons_of_mem a hmem
  · rcases List.mem_cons.1 hx with rfl | hx
    · exact hab
    · exact hl x hx

variable {time}

theorem hold_newest {l : List α} {a : α} (h : hold time l = some a) : Newest time l a := by
  cases l with
  | nil => exact absurd h (by simp [hold])
  | cons c l =>
    obtain ⟨b, hb, hnew⟩ := hold_cons time c l
    cases h.symm.trans hb
    exact hnew

theorem hold_eq_none {l : List α} : hold time l = none ↔ l = [] := by
  cases l with
  | nil => simp [hold]
  | cons c l =>
    obtain ⟨b, hb, -⟩ := hold_cons time c l
    simp [hb]

/-- Of several newest values the first is held. -/
theorem hold_cons_of_le {a : α} {l : List α} (h : ∀ b ∈ l, time b ≤ time a) :
    hold time (a :: l) = some a := by
  show l.foldl (put time) (some a) = some a
  induction l with
  | nil => rfl
  | cons c l ih =>
    rw [List.foldl_cons, put, if_pos (h c (by simp))]
    exact ih fun b hb => h b (by simp [hb])

end Register
