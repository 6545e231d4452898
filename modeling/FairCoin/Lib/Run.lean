import Mathlib.Logic.Basic
import Mathlib.Data.List.Basic

/-!
# Runs of a fallible step function

A machine takes actions one after the other; an action can fail, and then the run is over.

* `run` — the state after a list of actions, all of which succeed.
* `Along` — a condition holds of every action of the list, in the state it is taken in.
* `run_invariant`, `run_history` — what one step keeps, a run keeps.
* `length_le_of_lowers` — a run whose steps lower a measure ends.
* `checkAlong` — a test for `Along` that can be evaluated.

A machine whose actions never fail runs by `List.foldl`; there `AlongFold` is the condition
along the run and `foldl_history` is the invariant rule, with the actions taken so far at hand.
-/

namespace Run

variable {σ α ε : Type} (step : σ → α → Except ε σ)

/-- The state after a list of actions that all succeed. -/
def run : σ → List α → Except ε σ
  | s, [] => .ok s
  | s, a :: as =>
      match step s a with
      | .ok s' => run s' as
      | .error e => .error e

/-- A condition on every action, in the state it is taken in. -/
def Along (C : σ → α → Prop) : σ → List α → Prop
  | _, [] => True
  | s, a :: as => C s a ∧ ∀ s', step s a = .ok s' → Along C s' as

/-- A test of every action, in the state it is taken in. -/
def checkAlong (c : σ → α → Bool) : σ → List α → Bool
  | _, [] => true
  | s, a :: as =>
      c s a && match step s a with
        | .ok s' => checkAlong c s' as
        | .error _ => true

variable {step}

theorem run_cons_eq_ok {s s' : σ} {a : α} {as : List α} (h : run step s (a :: as) = .ok s') :
    ∃ s₁, step s a = .ok s₁ ∧ run step s₁ as = .ok s' := by
  rw [run] at h
  split at h
  · next s₁ h₁ => exact ⟨s₁, h₁, h⟩
  · exact absurd h (by simp)

theorem run_cons {s s₁ s' : σ} {a : α} {as : List α} (h₁ : step s a = .ok s₁)
    (h₂ : run step s₁ as = .ok s') : run step s (a :: as) = .ok s' := by
  rw [run, h₁]
  exact h₂

/-- **Invariants of runs.**  A property that every step which meets the condition keeps holds
at the end of every run whose steps all meet it. -/
theorem run_invariant {I : σ → Prop} {C : σ → α → Prop}
    (hstep : ∀ s a s', I s → C s a → step s a = .ok s' → I s') {as : List α} :
    ∀ {s s' : σ}, I s → Along step C s as → run step s as = .ok s' → I s' := by
  induction as with
  | nil =>
    intro s s' hI _ h
    cases h
    exact hI
  | cons a as ih =>
    intro s s' hI hC h
    obtain ⟨s₁, h₁, h₂⟩ := run_cons_eq_ok h
    exact ih (hstep s a s₁ hI hC.1 h₁) (hC.2 s₁ h₁) h₂

/-- **Invariants with a history**, of runs whose steps can fail. -/
theorem run_history {I : List α → σ → Prop} {C : α → Prop}
    (hstep : ∀ hist s a s', I hist s → C a → step s a = .ok s' → I (hist ++ [a]) s') {as : List α} :
    ∀ {hist : List α} {s s' : σ}, I hist s → (∀ a ∈ as, C a) → run step s as = .ok s' →
      I (hist ++ as) s' := by
  induction as with
  | nil =>
    intro hist s s' hI _ h
    cases h
    rw [List.append_nil]
    exact hI
  | cons a as ih =>
    intro hist s s' hI hC h
    obtain ⟨s₁, h₁, h₂⟩ := run_cons_eq_ok h
    have := ih (hstep hist s a s₁ hI (hC a (by simp)) h₁) (fun b hb => hC b (by simp [hb])) h₂
    rwa [List.append_assoc] at this

theorem along_of_forall {C : σ → α → Prop} {as : List α} :
    (∀ a ∈ as, ∀ s, C s a) → ∀ s : σ, Along step C s as := by
  induction as with
  | nil => exact fun _ _ => trivial
  | cons a as ih =>
    intro h s
    exact ⟨h a (by simp) s, fun s' _ => ih (fun b hb => h b (by simp [hb])) s'⟩

/-- **Runs end.**  A run whose steps all lower a measure is no longer than the measure. -/
theorem length_le_of_lowers {I : σ → Prop} {C : σ → α → Prop} {μ : σ → ℕ}
    (hstep : ∀ s a s', I s → C s a → step s a = .ok s' → I s' ∧ μ s' < μ s) {as : List α} :
    ∀ {s s' : σ}, I s → Along step C s as → run step s as = .ok s' → as.length ≤ μ s := by
  induction as with
  | nil => exact fun _ _ _ => Nat.zero_le _
  | cons a as ih =>
    intro s s' hI hC h
    obtain ⟨s₁, h₁, h₂⟩ := run_cons_eq_ok h
    obtain ⟨hI₁, hlt⟩ := hstep s a s₁ hI hC.1 h₁
    have hle := ih hI₁ (hC.2 s₁ h₁) h₂
    rw [List.length_cons]
    omega

theorem run_append {as bs : List α} : ∀ {s s₁ : σ}, run step s as = .ok s₁ →
    run step s (as ++ bs) = run step s₁ bs := by
  induction as with
  | nil =>
    intro s s₁ h
    cases h
    rfl
  | cons a as ih =>
    intro s s₁ h
    obtain ⟨s₂, h₁, h₂⟩ := run_cons_eq_ok h
    rw [List.cons_append, run, h₁]
    exact ih h₂

theorem along_append {C : σ → α → Prop} {as bs : List α} : ∀ {s s₁ : σ}, Along step C s as →
    run step s as = .ok s₁ → Along step C s₁ bs → Along step C s (as ++ bs) := by
  induction as with
  | nil =>
    intro s s₁ _ h hbs
    cases h
    exact hbs
  | cons a as ih =>
    intro s s₁ has h hbs
    obtain ⟨s₂, h₁, h₂⟩ := run_cons_eq_ok h
    refine ⟨has.1, fun s' hs' => ?_⟩
    rw [h₁] at hs'
    cases hs'
    exact ih (has.2 s₂ h₁) h₂ hbs

/-- A test that implies a condition can be run instead of proving it. -/
theorem along_of_checkAlong {C : σ → α → Prop} {c : σ → α → Bool} {as : List α} :
    ∀ {s : σ}, (∀ s, ∀ a ∈ as, c s a = true → C s a) → checkAlong step c s as = true →
      Along step C s as := by
  induction as with
  | nil => exact fun _ _ => trivial
  | cons a as ih =>
    intro s hc h
    rw [checkAlong, Bool.and_eq_true] at h
    refine ⟨hc s a (by simp) h.1, fun s' hs' => ?_⟩
    have hrest := h.2
    rw [hs'] at hrest
    exact ih (fun s b hb => hc s b (by simp [hb])) hrest

/-! ## Machines that never fail -/

section Total

variable (next : σ → α → σ)

/-- A condition on every action of a run that never fails, in the state it is taken in. -/
def AlongFold (C : σ → α → Prop) : σ → List α → Prop
  | _, [] => True
  | s, a :: as => C s a ∧ AlongFold C (next s a) as

instance (C : σ → α → Prop) [∀ s a, Decidable (C s a)] :
    ∀ (s : σ) (as : List α), Decidable (AlongFold next C s as)
  | _, [] => .isTrue trivial
  | s, a :: as =>
      have := instDecidableAlongFold C (next s a) as
      inferInstanceAs (Decidable (C s a ∧ AlongFold next C (next s a) as))

variable {next}

/-- **Invariants with a history.**  A property of the state and of the actions taken so far
that every step which meets the condition keeps holds at the end of every run whose steps all
meet it. -/
theorem foldl_history {I : List α → σ → Prop} {C : σ → α → Prop}
    (hstep : ∀ hist s a, I hist s → C s a → I (hist ++ [a]) (next s a)) {as : List α} :
    ∀ {hist : List α} {s : σ}, I hist s → AlongFold next C s as →
      I (hist ++ as) (as.foldl next s) := by
  induction as with
  | nil =>
    intro hist s hI _
    rw [List.append_nil]
    exact hI
  | cons a as ih =>
    intro hist s hI hC
    have := ih (hstep hist s a hI hC.1) hC.2
    rwa [List.append_assoc] at this

theorem foldl_invariant {I : σ → Prop} {C : σ → α → Prop}
    (hstep : ∀ s a, I s → C s a → I (next s a)) {as : List α} :
    ∀ {s : σ}, I s → AlongFold next C s as → I (as.foldl next s) := by
  induction as with
  | nil => exact fun hI _ => hI
  | cons a as ih => exact fun hI hC => ih (hstep _ a hI hC.1) hC.2

theorem alongFold_of_forall {C : σ → α → Prop} (h : ∀ s a, C s a) {as : List α} :
    ∀ {s : σ}, AlongFold next C s as := by
  induction as with
  | nil => exact trivial
  | cons a as ih => exact ⟨h _ a, ih⟩

end Total

end Run
