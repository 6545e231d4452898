import Mathlib

/-!
# Picking the cheapest item of a growing window

Items stand in the order of their times.  A pick takes the cheapest item up to a stop that is not
excluded, or the first later one when there is none up to the stop.

* `pick` — the loop: it runs on past the stop only until something is found.
* `Picked` — what a pick is.
* `pick_spec` — the loop finds a pick exactly when not all items are excluded.
-/

namespace Picking

variable {α τ β : Type} [LinearOrder τ] [LinearOrder β]

/-- The better of what was found and an item; the first one of equal cost stays. -/
def better (cost : α → β) : Option α → α → α
  | none, a => a
  | some b, a => if cost a < cost b then a else b

/-- The loop. -/
def pick (time : α → τ) (cost : α → β) (excluded : α → Bool) (stop : τ) :
    List α → Option α → Option α
  | [], best => best
  | a :: l, best =>
      if best.isSome ∧ stop < time a then best
      else if excluded a then pick time cost excluded stop l best
      else pick time cost excluded stop l (some (better cost best a))

/-- The item of a list that a pick takes. -/
structure Picked (time : α → τ) (cost : α → β) (stop : τ) (l : List α) (a : α) : Prop where
  mem : a ∈ l
  least : (∃ b ∈ l, time b ≤ stop) → time a ≤ stop ∧ ∀ b ∈ l, time b ≤ stop → cost a ≤ cost b
  first : (∀ b ∈ l, stop < time b) → l.head? = some a

variable {time : α → τ} {cost : α → β} {excluded : α → Bool} {stop : τ}

/-- Once something up to the stop is found, the cheapest item up to the stop is. -/
theorem pick_some {l : List α} (hsorted : l.Pairwise fun a b => time a ≤ time b) :
    ∀ {b : α}, ∃ a, pick time cost excluded stop l (some b) = some a ∧
      (a = b ∨ a ∈ l.filter (fun x => !excluded x) ∧ time a ≤ stop) ∧ cost a ≤ cost b ∧
      ∀ x ∈ l.filter (fun x => !excluded x), time x ≤ stop → cost a ≤ cost x := by
  induction l with
  | nil => exact fun {b} => ⟨b, rfl, .inl rfl, le_rfl, by simp⟩
  | cons c l ih =>
    intro b
    obtain ⟨hc, hl⟩ := List.pairwise_cons.1 hsorted
    rw [pick]
    split
    · next hstop =>
      -- all that follows is later than the stop
      refine ⟨b, rfl, .inl rfl, le_rfl, fun x hx hle => ?_⟩
      rcases List.mem_cons.1 (List.mem_filter.1 hx).1 with rfl | hx
      · exact absurd hle (not_le.2 hstop.2)
      · exact absurd ((hc x hx).trans hle) (not_le.2 hstop.2)
    · next hgo =>
      have hcs : time c ≤ stop := by
        rw [not_and, not_lt] at hgo
        exact hgo rfl
      split
      · next hex =>
        obtain ⟨a, ha, hmem, hcost, hleast⟩ := ih hl (b := b)
        rw [List.filter_cons_of_neg (by simp [hex])]
        exact ⟨a, ha, hmem, hcost, hleast⟩
      · next hex =>
        obtain ⟨a, ha, hmem, hcost, hleast⟩ := ih hl (b := better cost (some b) c)
        rw [List.filter_cons_of_pos (by simp [hex])]
        have hbetter : cost (better cost (some b) c) ≤ cost b ∧
            cost (better cost (some b) c) ≤ cost c := by
          rw [better]
          split
          · next hlt => exact ⟨hlt.le, le_rfl⟩
          · next hge => exact ⟨le_rfl, not_lt.1 hge⟩
        refine ⟨a, ha, ?_, hcost.trans hbetter.1, fun x hx hle => ?_⟩
        · rcases hmem with rfl | ⟨hmem, hle⟩
          · rw [better]
            split
            · exact .inr ⟨List.mem_cons_self, hcs⟩
            · exact .inl rfl
          · exact .inr ⟨List.mem_cons_of_mem _ hmem, hle⟩
        · rcases List.mem_cons.1 hx with rfl | hx
          · exact hcost.trans hbetter.2
          · exact hleast x hx hle

/-- **The loop finds a pick** of the items that are not excluded, if there are any. -/
theorem pick_spec {l : List α} (hsorted : l.Pairwise fun a b => time a ≤ time b)
    (hne : l.filter (fun x => !excluded x) ≠ []) :
    ∃ a, pick time cost excluded stop l none = some a ∧
      Picked time cost stop (l.filter fun x => !excluded x) a := by
  induction l with
  | nil => exact absurd rfl hne
  | cons c l ih =>
    obtain ⟨hc, hl⟩ := List.pairwise_cons.1 hsorted
    rw [pick, if_neg (by simp)]
    split
    · next hex =>
      rw [List.filter_cons_of_neg (by simp [hex])] at hne ⊢
      exact ih hl hne
    · next hex =>
      rw [List.filter_cons_of_pos (by simp [hex])]
      by_cases hcs : time c ≤ stop
      · obtain ⟨a, ha, hmem, hcost, hleast⟩ :=
          @pick_some α τ β _ _ time cost excluded stop l hl c
        refine ⟨a, ha, ?_, fun _ => ⟨?_, fun x hx hle => ?_⟩, fun hlate => ?_⟩
        · rcases hmem with rfl | ⟨hmem, -⟩
          · exact List.mem_cons_self
          · exact List.mem_cons_of_mem _ hmem
        · rcases hmem with rfl | ⟨-, hle⟩
          · exact hcs
          · exact hle
        · rcases List.mem_cons.1 hx with rfl | hx
          · exact hcost
          · exact hleast x hx hle
        · exact absurd hcs (not_le.2 (hlate c List.mem_cons_self))
      · -- a late item is taken and ends the loop
        have hlate : ∀ x ∈ l, stop < time x := fun x hx => (not_le.1 hcs).trans_le (hc x hx)
        refine ⟨c, ?_, List.mem_cons_self, fun hex => ?_, fun _ => rfl⟩
        · cases l with
          | nil => rfl
          | cons d l =>
            rw [pick, if_pos ⟨rfl, hlate d List.mem_cons_self⟩]
            rfl
        · obtain ⟨b, hb, hbs⟩ := hex
          rcases List.mem_cons.1 hb with rfl | hb
          · exact absurd hbs hcs
          · exact absurd hbs (not_le.2 (hlate b (List.mem_filter.1 hb).1))

end Picking
