import Mathlib

/-!
# Trimmed slot vectors

A vector some of whose entries are *vacant*, with the vacant entries at its end
dropped.  Two such vectors hold the same thing exactly when they have the same
occupied slots, which is how the rest of the development compares them.

* `slot p l n` — what slot `n` of `l` holds, `none` when it is vacant or beyond
  the end.
* `trim p l` — drop the vacant tail; `slot_trim` says no slot changes.
* `grow d l k` — pad with the vacant value `d` up to length `k`; `slot_grow` says
  no slot changes.
* `slot_set`, `slot_set_vacant` — writing a slot changes that slot and no other.
* `eq_of_slot_eq` — **extensionality**: trimmed vectors whose vacant entries are
  all the same value are equal as soon as their slots are.
-/

namespace Slots

variable {α : Type*} {p : α → Bool}

/-- What slot `n` holds: `none` when the slot is vacant or out of range. -/
def slot (p : α → Bool) (l : List α) (n : ℕ) : Option α := l[n]?.filter fun a => !p a

/-- Drop the vacant entries at the end. -/
def trim (p : α → Bool) (l : List α) : List α := l.rdropWhile p

/-- Pad with `d` up to length `k`; a longer vector is left alone. -/
def grow (d : α) (l : List α) (k : ℕ) : List α := l ++ List.replicate (k - l.length) d

/-- The vector ends in an occupied slot, or is empty. -/
def Trimmed (p : α → Bool) (l : List α) : Prop := trim p l = l

theorem slot_eq_some_iff {l : List α} {n : ℕ} {a : α} :
    slot p l n = some a ↔ l[n]? = some a ∧ p a = false := by
  simp [slot, Option.filter_eq_some_iff]

theorem slot_eq_none_iff {l : List α} {n : ℕ} :
    slot p l n = none ↔ ∀ a, l[n]? = some a → p a = true := by
  simp [slot, Option.filter_eq_none_iff]

@[simp] theorem slot_nil (n : ℕ) : slot p ([] : List α) n = none := by simp [slot]

theorem slot_eq_none_of_length_le {l : List α} {n : ℕ} (h : l.length ≤ n) : slot p l n = none := by
  rw [slot, List.getElem?_eq_none h]; rfl

theorem lt_length_of_slot_isSome {l : List α} {n : ℕ} (h : (slot p l n).isSome) : n < l.length := by
  by_contra hc
  rw [slot_eq_none_of_length_le (by omega)] at h
  exact absurd h (by simp)

@[simp] theorem trim_nil : trim p ([] : List α) = [] := List.rdropWhile_nil p

theorem trim_concat (l : List α) (x : α) : trim p (l ++ [x]) = if p x then trim p l else l ++ [x] :=
  List.rdropWhile_concat p l x

theorem trimmed_trim (l : List α) : Trimmed p (trim p l) := List.rdropWhile_idempotent p l

theorem mem_of_mem_trim {l : List α} {a : α} (h : a ∈ trim p l) : a ∈ l :=
  (List.rdropWhile_prefix p l).mem h

theorem trim_eq_nil_iff {l : List α} : trim p l = [] ↔ ∀ x ∈ l, p x = true :=
  List.rdropWhile_eq_nil_iff

/-- Trimming changes no slot. -/
theorem slot_trim (l : List α) (n : ℕ) : slot p (trim p l) n = slot p l n := by
  induction l using List.reverseRecOn with
  | nil => simp
  | append_singleton l x ih =>
    rw [trim_concat]
    by_cases hx : p x = true
    · rw [if_pos hx, ih]
      rcases lt_trichotomy n l.length with h | h | h
      · rw [slot, slot, List.getElem?_append_left h]
      · subst h
        rw [slot_eq_none_of_length_le le_rfl, slot]
        simp [Option.filter, hx]
      · rw [slot_eq_none_of_length_le h.le, slot_eq_none_of_length_le (by simp; omega)]
    · rw [if_neg hx]

/-- All slots of a vector are vacant exactly when it trims to nothing. -/
theorem trim_eq_nil_iff_slot {l : List α} : trim p l = [] ↔ ∀ n, slot p l n = none := by
  rw [trim_eq_nil_iff]
  constructor
  · intro h n
    rw [slot_eq_none_iff]
    intro a ha
    exact h a (List.mem_of_getElem? ha)
  · intro h x hx
    obtain ⟨n, hn⟩ := List.getElem?_of_mem hx
    exact slot_eq_none_iff.1 (h n) x hn

theorem slot_set {l : List α} {n : ℕ} {a : α} (hn : n < l.length) (ha : p a = false) (m : ℕ) :
    slot p (l.set n a) m = if m = n then some a else slot p l m := by
  rw [slot, slot, List.getElem?_set]
  by_cases hm : m = n
  · subst hm
    simp [hn, ha]
  · simp [hm, Ne.symm hm]

theorem slot_set_vacant {l : List α} {n : ℕ} {d : α} (hd : p d = true) (m : ℕ) :
    slot p (l.set n d) m = if m = n then none else slot p l m := by
  rw [slot, slot, List.getElem?_set]
  by_cases hm : m = n
  · subst hm
    by_cases hl : m < l.length <;> simp [hl, hd]
  · simp [hm, Ne.symm hm]

theorem le_length_grow (d : α) (l : List α) (k : ℕ) : k ≤ (grow d l k).length := by
  simp only [grow, List.length_append, List.length_replicate]
  omega

/-- Growing changes no slot. -/
theorem slot_grow {d : α} (hd : p d = true) (l : List α) (k n : ℕ) :
    slot p (grow d l k) n = slot p l n := by
  by_cases hn : n < l.length
  · rw [slot, slot, grow, List.getElem?_append_left hn]
  · rw [slot_eq_none_of_length_le (Nat.le_of_not_lt hn), slot_eq_none_iff]
    intro a ha
    rw [grow, List.getElem?_append_right (Nat.le_of_not_lt hn)] at ha
    rw [List.eq_of_mem_replicate (List.mem_of_getElem? ha)]
    exact hd

theorem mem_grow {d : α} {l : List α} {k : ℕ} {a : α} (h : a ∈ grow d l k) : a ∈ l ∨ a = d := by
  rcases List.mem_append.1 h with h | h
  · exact Or.inl h
  · exact Or.inr (List.eq_of_mem_replicate h)

/-- A non-empty trimmed vector ends in an occupied slot. -/
theorem Trimmed.slot_last {l : List α} (h : Trimmed p l) (hne : l ≠ []) :
    (slot p l (l.length - 1)).isSome := by
  have hlast := List.rdropWhile_eq_self_iff.1 h hne
  have hget : l[l.length - 1]? = some (l.getLast hne) := (List.getLast?_eq_getElem? ▸
    List.getLast?_eq_some_getLast hne)
  have hs : slot p l (l.length - 1) = some (l.getLast hne) :=
    slot_eq_some_iff.2 ⟨hget, by simpa using hlast⟩
  rw [hs]; rfl

/-- Trimmed vectors with the same slots have the same length. -/
theorem Trimmed.length_le {l k : List α} (hl : Trimmed p l)
    (h : ∀ n, slot p l n = slot p k n) : l.length ≤ k.length := by
  by_cases hne : l = []
  · simp [hne]
  · have hs := hl.slot_last hne
    rw [h] at hs
    have := lt_length_of_slot_isSome hs
    omega

/-- **Extensionality.**  Two trimmed vectors whose vacant entries are all `d` are
equal when they have the same slots. -/
theorem eq_of_slot_eq {d : α} {l k : List α} (hl : Trimmed p l) (hk : Trimmed p k)
    (hdl : ∀ a ∈ l, p a = true → a = d) (hdk : ∀ a ∈ k, p a = true → a = d)
    (h : ∀ n, slot p l n = slot p k n) : l = k := by
  have hlen : l.length = k.length :=
    le_antisymm (hl.length_le h) (hk.length_le fun n => (h n).symm)
  refine List.ext_getElem hlen fun n h₁ h₂ => ?_
  have hn := h n
  have hln : l[n]? = some l[n] := List.getElem?_eq_getElem h₁
  have hkn : k[n]? = some k[n] := List.getElem?_eq_getElem h₂
  by_cases hp : p l[n] = true
  · have hkp : p k[n] = true := by
      have hnone : slot p k n = none := by
        rw [← hn, slot_eq_none_iff]
        intro a ha
        rw [hln] at ha
        cases ha
        exact hp
      exact slot_eq_none_iff.1 hnone _ hkn
    rw [hdl _ (List.getElem_mem h₁) hp, hdk _ (List.getElem_mem h₂) hkp]
  · have hs : slot p k n = some l[n] := by
      rw [← hn]
      exact slot_eq_some_iff.2 ⟨hln, by simpa using hp⟩
    have := (slot_eq_some_iff.1 hs).1
    rw [hkn] at this
    exact (Option.some.inj this).symm

end Slots
