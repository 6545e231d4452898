import Mathlib.Logic.Relation
import Mathlib.Data.List.Basic

/-!
# Closing a set of nodes with a worklist

A worklist takes a node from its queue, and adds the successors that it can see.  Nodes may be in
the queue several times, and some of them may not be there at all.

* `Reached` — the nodes that can be reached from the starts.
* `Closing` — the invariant of the loop: nothing but reached nodes is touched, and what a finished
  node leads to is finished or queued.
* `Closing.skip`, `Closing.take`, `Closing.grow` — the steps that keep it.
* `Closing.mem_done_iff` — once the queue is empty, exactly the reached nodes are done.
-/

namespace Worklist

variable {α : Type*}

/-- The nodes that can be reached from the starts. -/
def Reached (R : α → α → Prop) (start : α → Prop) (x : α) : Prop :=
  ∃ s, start s ∧ Relation.ReflTransGen R s x

/-- **The invariant of a worklist.**  `done` are the finished nodes, each once. -/
structure Closing (R : α → α → Prop) (live start : α → Prop) (done queue : List α) : Prop where
  nodup : done.Nodup
  alive : ∀ x ∈ done, live x
  sound : ∀ x, x ∈ done ∨ x ∈ queue → Reached R start x
  begun : ∀ x, start x → live x → x ∈ done ∨ x ∈ queue
  closed : ∀ x ∈ done, ∀ y, R x y → y ∈ done ∨ y ∈ queue

namespace Closing

variable {R : α → α → Prop} {live start : α → Prop} {done queue : List α}

/-- Before anything is done and without a start. -/
theorem empty : Closing R live (fun _ => False) [] [] := by
  refine ⟨List.nodup_nil, ?_, ?_, ?_, ?_⟩
  · intro x hx
    exact absurd hx (by simp)
  · rintro x (hx | hx) <;> exact absurd hx (by simp)
  · intro x hx
    exact hx.elim
  · intro x hx
    exact absurd hx (by simp)

theorem congr {start' : α → Prop} (h : Closing R live start done queue)
    (hstart : ∀ x, start x ↔ start' x) : Closing R live start' done queue := by
  obtain rfl : start = start' := funext fun x => propext (hstart x)
  exact h

/-- More starts are queued. -/
theorem grow (h : Closing R live start done queue) (extra : List α) :
    Closing R live (fun x => start x ∨ x ∈ extra) done (queue ++ extra) := by
  refine ⟨h.nodup, h.alive, fun x hx => ?_, fun x hx hl => ?_, fun x hx y hy => ?_⟩
  · rw [List.mem_append, ← or_assoc] at hx
    rcases hx with hx | hx
    · obtain ⟨s, hs, hpath⟩ := h.sound x hx
      exact ⟨s, .inl hs, hpath⟩
    · exact ⟨x, .inr hx, .refl⟩
  · rw [List.mem_append]
    rcases hx with hx | hx
    · exact (h.begun x hx hl).imp_right .inl
    · exact .inr (.inr hx)
  · rw [List.mem_append]
    exact (h.closed x hx y hy).imp_right .inl

/-- A node that is not there, or that is done, leaves the queue. -/
theorem skip {x : α} (h : Closing R live start done (x :: queue)) (hR : ∀ x y, R x y → live y)
    (hx : live x → x ∈ done) : Closing R live start done queue := by
  have hdrop : ∀ y, live y → y ∈ done ∨ y ∈ x :: queue → y ∈ done ∨ y ∈ queue := by
    intro y hl hy
    rw [List.mem_cons] at hy
    rcases hy with hy | rfl | hy
    · exact .inl hy
    · exact .inl (hx hl)
    · exact .inr hy
  refine ⟨h.nodup, h.alive, fun y hy => ?_, fun y hy hl => ?_, fun z hz y hy => ?_⟩
  · exact h.sound y (hy.imp_right (List.mem_cons_of_mem x))
  · exact hdrop y hl (h.begun y hy hl)
  · exact hdrop y (hR z y hy) (h.closed z hz y hy)

/-- A node is done, and successors that are not done are queued. -/
theorem take {x : α} {next : List α} (h : Closing R live start done (x :: queue)) (hl : live x)
    (hx : x ∉ done) (hnext : ∀ y ∈ next, R x y) (hall : ∀ y, R x y → y ∈ done ∨ y ∈ next) :
    Closing R live start (done ++ [x]) (queue ++ next) := by
  have hmove : ∀ y, y ∈ done ∨ y ∈ x :: queue → y ∈ done ++ [x] ∨ y ∈ queue ++ next := by
    intro y hy
    simp only [List.mem_append, List.mem_cons, List.not_mem_nil, or_false] at hy ⊢
    tauto
  have hreached := h.sound x (.inr (by simp))
  refine ⟨?_, fun y hy => ?_, fun y hy => ?_, fun y hy hl => ?_, fun z hz y hy => ?_⟩
  · refine List.nodup_append.2 ⟨h.nodup, by simp, fun y hy z hz => ?_⟩
    rw [List.mem_singleton] at hz
    rintro rfl
    exact hx (hz ▸ hy)
  · rw [List.mem_append, List.mem_singleton] at hy
    rcases hy with hy | rfl
    · exact h.alive y hy
    · exact hl
  · rw [List.mem_append, List.mem_append, List.mem_singleton] at hy
    rcases hy with (hy | rfl) | hy | hy
    · exact h.sound y (.inl hy)
    · exact hreached
    · exact h.sound y (.inr (List.mem_cons_of_mem x hy))
    · obtain ⟨s, hs, hpath⟩ := hreached
      exact ⟨s, hs, hpath.tail (hnext y hy)⟩
  · exact hmove y (h.begun y hy hl)
  · rw [List.mem_append, List.mem_singleton] at hz
    rcases hz with hz | rfl
    · exact hmove y (h.closed z hz y hy)
    · rcases hall y hy with hd | hn
      · exact .inl (List.mem_append_left _ hd)
      · exact .inr (List.mem_append_right _ hn)

/-- **The loop is over.**  The finished nodes are the ones that can be reached. -/
theorem mem_done_iff (h : Closing R live start done [])
    (hR : ∀ x y, R x y → live x ∧ live y) (x : α) :
    x ∈ done ↔ live x ∧ Reached R start x := by
  have hempty : ∀ y, y ∈ done ∨ y ∈ ([] : List α) → y ∈ done := by
    rintro y (hy | hy)
    · exact hy
    · exact absurd hy (by simp)
  constructor
  · intro hx
    exact ⟨h.alive x hx, h.sound x (.inl hx)⟩
  · rintro ⟨hl, s, hs, hpath⟩
    induction hpath with
    | refl => exact hempty s (h.begun s hs hl)
    | tail _ hstep ih =>
      have hprev := ih (hR _ _ hstep).1
      exact hempty _ (h.closed _ hprev _ hstep)

end Closing

end Worklist
