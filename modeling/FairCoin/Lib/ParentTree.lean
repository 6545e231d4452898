import Mathlib.Data.List.TakeWhile
import Mathlib.Data.Set.Basic
import Mathlib.Data.List.Basic
import Mathlib.Data.List.Chain

/-!
# Trees given by parent pointers

A tree is a function that gives every node its parent, and a function that gives it its height.

* `path` — a node and its ancestors, the node first.
* `Levelled` — the nodes of a set have their parents in the set, one level below; a node without
  a parent is at level zero.
* `mem_path_of_height_le`, `eq_of_mem_path_of_height_eq` — the ancestors of a node are a chain,
  with one node at each height.
* `path_congr` — a path depends only on the pointers of the nodes on it.
-/

namespace ParentTree

variable {α : Type} (parent : α → Option α) (height : α → ℕ)

/-- The nodes met in so many steps up. -/
def climb : ℕ → α → List α
  | 0, a => [a]
  | n + 1, a =>
      match parent a with
      | some b => a :: climb n b
      | none => [a]

/-- A node and its ancestors, the node first. -/
def path (a : α) : List α := climb parent (height a) a

/-- Parents are one level down, and nodes without a parent at level zero. -/
structure Levelled (S : Set α) : Prop where
  parent_mem : ∀ a ∈ S, ∀ b, parent a = some b → b ∈ S
  height_parent : ∀ a ∈ S, ∀ b, parent a = some b → height a = height b + 1
  height_root : ∀ a ∈ S, parent a = none → height a = 0

variable {parent height} {S : Set α}

theorem path_of_parent (hT : Levelled parent height S) {a b : α} (ha : a ∈ S)
    (hab : parent a = some b) : path parent height a = a :: path parent height b := by
  rw [path, hT.height_parent a ha b hab, climb, hab]
  rfl

theorem path_of_root (hT : Levelled parent height S) {a : α} (ha : a ∈ S)
    (hroot : parent a = none) : path parent height a = [a] := by
  rw [path, hT.height_root a ha hroot, climb]

theorem self_mem_path (a : α) : a ∈ path parent height a := by
  rw [path]
  cases height a with
  | zero => simp [climb]
  | succ n =>
    rw [climb]
    split <;> simp

theorem path_ne_nil (a : α) : path parent height a ≠ [] :=
  List.ne_nil_of_mem (self_mem_path a)

theorem head?_path (a : α) : (path parent height a).head? = some a := by
  rw [path]
  cases height a with
  | zero => rfl
  | succ n =>
    rw [climb]
    split <;> rfl

/-- Induction along the parent pointers of a levelled tree. -/
@[elab_as_elim]
theorem Levelled.induction (hT : Levelled parent height S) {motive : (a : α) → a ∈ S → Prop}
    (root : ∀ a (ha : a ∈ S), parent a = none → motive a ha)
    (child : ∀ a (ha : a ∈ S) b (hab : parent a = some b),
      motive b (hT.parent_mem a ha b hab) → motive a ha) (a : α) (ha : a ∈ S) : motive a ha := by
  suffices h : ∀ n, ∀ a (ha : a ∈ S), height a = n → motive a ha from h _ a ha rfl
  intro n
  induction n with
  | zero =>
    intro a ha hn
    cases hp : parent a with
    | none => exact root a ha hp
    | some b =>
      have := hT.height_parent a ha b hp
      omega
  | succ n ih =>
    intro a ha hn
    cases hp : parent a with
    | none => exact root a ha hp
    | some b =>
      have := hT.height_parent a ha b hp
      exact child a ha b hp (ih b (hT.parent_mem a ha b hp) (by omega))

theorem mem_path_iff (hT : Levelled parent height S) {a x : α} (ha : a ∈ S) :
    x ∈ path parent height a ↔ x = a ∨ ∃ b, parent a = some b ∧ x ∈ path parent height b := by
  cases hp : parent a with
  | none => simp [path_of_root hT ha hp]
  | some b => simp [path_of_parent hT ha hp]

theorem mem_of_mem_path (hT : Levelled parent height S) {a : α} (ha : a ∈ S) :
    ∀ x ∈ path parent height a, x ∈ S := by
  induction a, ha using hT.induction with
  | root a ha hp => simp [path_of_root hT ha hp, ha]
  | child a ha b hp ih =>
    intro x hx
    rcases (mem_path_iff hT ha).1 hx with rfl | ⟨b', hb', hx'⟩
    · exact ha
    · cases hp.symm.trans hb'
      exact ih x hx'

theorem path_trans (hT : Levelled parent height S) {a : α} (ha : a ∈ S) :
    ∀ x ∈ path parent height a, ∀ y ∈ path parent height x, y ∈ path parent height a := by
  induction a, ha using hT.induction with
  | root a ha hp => simp [path_of_root hT ha hp]
  | child a ha b hp ih =>
    intro x hx y hy
    rcases (mem_path_iff hT ha).1 hx with rfl | ⟨b', hb', hx'⟩
    · exact hy
    · cases hp.symm.trans hb'
      exact (mem_path_iff hT ha).2 (.inr ⟨_, hp, ih x hx' y hy⟩)

theorem height_le_of_mem_path (hT : Levelled parent height S) {a : α} (ha : a ∈ S) :
    ∀ x ∈ path parent height a, height x ≤ height a := by
  induction a, ha using hT.induction with
  | root a ha hp => simp [path_of_root hT ha hp]
  | child a ha b hp ih =>
    intro x hx
    rcases (mem_path_iff hT ha).1 hx with rfl | ⟨b', hb', hx'⟩
    · exact le_rfl
    · cases hp.symm.trans hb'
      have := ih x hx'
      have := hT.height_parent a ha b hp
      omega

/-- Of two ancestors of a node, the lower one is an ancestor of the other. -/
theorem mem_path_of_height_le (hT : Levelled parent height S) {a : α} (ha : a ∈ S) :
    ∀ x ∈ path parent height a, ∀ y ∈ path parent height a, height y ≤ height x →
      y ∈ path parent height x := by
  induction a, ha using hT.induction with
  | root a ha hp =>
    intro x hx y hy _
    rw [path_of_root hT ha hp, List.mem_singleton] at hx hy
    rw [hx, hy]
    exact self_mem_path a
  | child a ha b hp ih =>
    have hb := hT.parent_mem a ha b hp
    intro x hx y hy hle
    rcases (mem_path_iff hT ha).1 hx with rfl | ⟨b', hb', hx'⟩
    · exact hy
    cases hp.symm.trans hb'
    rcases (mem_path_iff hT ha).1 hy with rfl | ⟨b', hb', hy'⟩
    · have := height_le_of_mem_path hT hb x hx'
      have := hT.height_parent y ha b hp
      omega
    cases hp.symm.trans hb'
    exact ih x hx' y hy' hle

/-- A node has one ancestor at each height. -/
theorem eq_of_mem_path_of_height_eq (hT : Levelled parent height S) {a x y : α} (ha : a ∈ S)
    (hx : x ∈ path parent height a) (hy : y ∈ path parent height a) (h : height x = height y) :
    x = y := by
  have hxS := mem_of_mem_path hT ha x hx
  have hyx := mem_path_of_height_le hT ha x hx y hy h.ge
  rcases (mem_path_iff hT hxS).1 hyx with rfl | ⟨b, hb, hyb⟩
  · rfl
  · have := height_le_of_mem_path hT (hT.parent_mem x hxS b hb) y hyb
    have := hT.height_parent x hxS b hb
    omega

/-- An ancestor of a node other than the node itself is an ancestor of its parent. -/
theorem mem_path_parent (hT : Levelled parent height S) {a b x : α} (ha : a ∈ S)
    (hab : parent a = some b) (hx : x ∈ path parent height a) (hne : x ≠ a) :
    x ∈ path parent height b := by
  rcases (mem_path_iff hT ha).1 hx with rfl | ⟨b', hb', hx'⟩
  · exact absurd rfl hne
  · cases hab.symm.trans hb'
    exact hx'

/-- There is an ancestor at each height up to the node's own. -/
theorem exists_mem_path_height (hT : Levelled parent height S) {a : α} (ha : a ∈ S) :
    ∀ n ≤ height a, ∃ x ∈ path parent height a, height x = n := by
  induction a, ha using hT.induction with
  | root a ha hp =>
    intro n hn
    have := hT.height_root a ha hp
    exact ⟨a, self_mem_path a, by omega⟩
  | child a ha b hp ih =>
    intro n hn
    by_cases hna : n = height a
    · exact ⟨a, self_mem_path a, hna.symm⟩
    · have := hT.height_parent a ha b hp
      obtain ⟨x, hx, hxn⟩ := ih n (by omega)
      exact ⟨x, (mem_path_iff hT ha).2 (.inr ⟨b, hp, hx⟩), hxn⟩

/-- The path to a node is what lies above an ancestor, and then the path to the ancestor. -/
theorem path_eq_append (hT : Levelled parent height S) {a : α} (ha : a ∈ S) :
    ∀ x ∈ path parent height a, path parent height a =
      (path parent height a).takeWhile (fun y => decide (height y ≠ height x)) ++
        path parent height x := by
  induction a, ha using hT.induction with
  | root a ha hp =>
    intro x hx
    rw [path_of_root hT ha hp, List.mem_singleton] at hx
    subst hx
    rw [path_of_root hT ha hp]
    simp
  | child a ha b hp ih =>
    intro x hx
    rcases (mem_path_iff hT ha).1 hx with rfl | ⟨b', hb', hx'⟩
    · rw [path_of_parent hT ha hp]
      simp
    · cases hp.symm.trans hb'
      have h₁ := height_le_of_mem_path hT (hT.parent_mem a ha b hp) x hx'
      have h₂ := hT.height_parent a ha b hp
      have hne : height a ≠ height x := by omega
      rw [path_of_parent hT ha hp, List.takeWhile_cons_of_pos (by simpa using hne),
        List.cons_append, ← ih x hx']

/-- What lies above an ancestor on a path is higher. -/
theorem height_lt_of_mem_takeWhile (hT : Levelled parent height S) {a : α} (ha : a ∈ S) :
    ∀ x ∈ path parent height a, ∀ y ∈ (path parent height a).takeWhile
      (fun y => decide (height y ≠ height x)), height x < height y := by
  induction a, ha using hT.induction with
  | root a ha hp =>
    intro x hx y hy
    rw [path_of_root hT ha hp, List.mem_singleton] at hx
    subst hx
    rw [path_of_root hT ha hp] at hy
    simp at hy
  | child a ha b hp ih =>
    intro x hx y hy
    rw [path_of_parent hT ha hp] at hy
    rcases (mem_path_iff hT ha).1 hx with rfl | ⟨b', hb', hx'⟩
    · simp at hy
    · cases hp.symm.trans hb'
      have h₁ := height_le_of_mem_path hT (hT.parent_mem a ha b hp) x hx'
      have h₂ := hT.height_parent a ha b hp
      have hne : height a ≠ height x := by omega
      rw [List.takeWhile_cons_of_pos (by simpa using hne)] at hy
      rcases List.mem_cons.1 hy with rfl | hy
      · omega
      · exact ih x hx' y hy

/-- A path holds one node for each height. -/
theorem length_path (hT : Levelled parent height S) {a : α} (ha : a ∈ S) :
    (path parent height a).length = height a + 1 := by
  induction a, ha using hT.induction with
  | root a ha hp => simp [path_of_root hT ha hp, hT.height_root a ha hp]
  | child a ha b hp ih =>
    rw [path_of_parent hT ha hp, List.length_cons, ih, hT.height_parent a ha b hp]

/-- From the root up, the nodes of a path stand at their heights. -/
theorem getElem?_reverse_path (hT : Levelled parent height S) {a x : α} (ha : a ∈ S) (k : ℕ) :
    (path parent height a).reverse[k]? = some x ↔ x ∈ path parent height a ∧ height x = k := by
  induction a, ha using hT.induction with
  | root a ha hp =>
    have hzero := hT.height_root a ha hp
    rw [path_of_root hT ha hp]
    cases k with
    | zero => simp +contextual [eq_comm, hzero]
    | succ k => simp +contextual [hzero]
  | child a ha b hp ih =>
    have hb := hT.parent_mem a ha b hp
    have hlen : (path parent height b).reverse.length = height a := by
      rw [List.length_reverse, length_path hT hb, hT.height_parent a ha b hp]
    rw [path_of_parent hT ha hp, List.reverse_cons, List.mem_cons]
    rcases lt_or_ge k (height a) with hk | hk
    · rw [List.getElem?_append_left (by rw [hlen]; exact hk), ih]
      constructor
      · exact fun h => ⟨.inr h.1, h.2⟩
      · rintro ⟨rfl | hx, hh⟩
        · omega
        · exact ⟨hx, hh⟩
    · rw [List.getElem?_append_right (by rw [hlen]; exact hk), hlen]
      constructor
      · intro h
        obtain ⟨hlt, heq⟩ := List.getElem?_eq_some_iff.1 h
        rw [List.length_singleton] at hlt
        have hka : k = height a := by omega
        simp only [hka, Nat.sub_self, List.getElem_cons_zero] at heq
        exact ⟨.inl heq.symm, by rw [← heq, hka]⟩
      · rintro ⟨rfl | hx, hh⟩
        · rw [hh]
          simp
        · have := height_le_of_mem_path hT hb x hx
          have := hT.height_parent a ha b hp
          omega

/-- From some height on, a path from the root up holds the nodes that are at least that high. -/
theorem mem_drop_reverse_path (hT : Levelled parent height S) {a x : α} (ha : a ∈ S) (k : ℕ) :
    x ∈ (path parent height a).reverse.drop k ↔ x ∈ path parent height a ∧ k ≤ height x := by
  rw [List.mem_iff_getElem?]
  constructor
  · rintro ⟨i, hi⟩
    rw [List.getElem?_drop, getElem?_reverse_path hT ha] at hi
    exact ⟨hi.1, by omega⟩
  · rintro ⟨hx, hle⟩
    refine ⟨height x - k, ?_⟩
    rw [List.getElem?_drop, getElem?_reverse_path hT ha]
    exact ⟨hx, by omega⟩

/-- What follows a node on a path is the path of that node. -/
theorem path_of_eq_append (hT : Levelled parent height S) {a x : α} (ha : a ∈ S) :
    ∀ {l r : List α}, path parent height a = l ++ x :: r → path parent height x = x :: r := by
  induction a, ha using hT.induction with
  | root a ha hp =>
    intro l r h
    have hr := path_of_root hT ha hp
    rw [hr] at h
    cases l with
    | nil =>
      cases h
      exact hr
    | cons y l => simp at h
  | child a ha b hp ih =>
    intro l r h
    have hr := path_of_parent hT ha hp
    cases l with
    | nil =>
      have hax : a = x := by
        rw [hr] at h
        exact (List.cons.inj h).1
      rw [← hax] at h ⊢
      exact h
    | cons y l =>
      rw [hr, List.cons_append] at h
      exact ih (List.cons.inj h).2

/-- A path depends only on the pointers of the nodes on it. -/
theorem path_congr (hT : Levelled parent height S) {parent' : α → Option α} {height' : α → ℕ}
    (hp : ∀ a ∈ S, parent' a = parent a) (hh : ∀ a ∈ S, height' a = height a) :
    ∀ a ∈ S, path parent' height' a = path parent height a := by
  have hT' : Levelled parent' height' S := by
    refine ⟨fun a ha b hab => ?_, fun a ha b hab => ?_, fun a ha hab => ?_⟩
    · exact hT.parent_mem a ha b ((hp a ha).symm.trans hab)
    · have hab' := (hp a ha).symm.trans hab
      rw [hh a ha, hh b (hT.parent_mem a ha b hab')]
      exact hT.height_parent a ha b hab'
    · rw [hh a ha]
      exact hT.height_root a ha ((hp a ha).symm.trans hab)
  intro a ha
  induction a, ha using hT.induction with
  | root a ha hr => rw [path_of_root hT ha hr, path_of_root hT' ha ((hp a ha).trans hr)]
  | child a ha b hr ih =>
    rw [path_of_parent hT ha hr, path_of_parent hT' ha ((hp a ha).trans hr), ih]

theorem isChain_climb (n : ℕ) (a : α) :
    (climb parent n a).IsChain fun x y => parent x = some y := by
  induction n generalizing a with
  | zero => exact List.isChain_singleton a
  | succ n ih =>
    rw [climb]
    split
    · next b hb =>
      refine List.isChain_cons.2 ⟨fun y hy => ?_, ih b⟩
      have hhead : (climb parent n b).head? = some b := by
        cases n with
        | zero => rfl
        | succ n =>
          rw [climb]
          split <;> rfl
      rw [hhead, Option.mem_some_iff] at hy
      rwa [← hy]
    · exact List.isChain_singleton a

/-- Along a path every node is followed by its parent. -/
theorem isChain_path (a : α) :
    (path parent height a).IsChain fun x y => parent x = some y := isChain_climb _ a

/-- A path ends in a root. -/
theorem getLast?_path (hT : Levelled parent height S) {a : α} (ha : a ∈ S) :
    ∃ r ∈ S, (path parent height a).getLast? = some r ∧ parent r = none := by
  induction a, ha using hT.induction with
  | root a ha hp =>
    rw [path_of_root hT ha hp]
    exact ⟨a, ha, rfl, hp⟩
  | child a ha b hp ih =>
    obtain ⟨r, hr, hlast, hroot⟩ := ih
    refine ⟨r, hr, ?_, hroot⟩
    rw [path_of_parent hT ha hp, List.getLast?_cons, hlast]
    rfl

/-- No node stands twice on a path. -/
theorem nodup_path (hT : Levelled parent height S) {a : α} (ha : a ∈ S) :
    (path parent height a).Nodup := by
  induction a, ha using hT.induction with
  | root a ha hp => simp [path_of_root hT ha hp]
  | child a ha b hp ih =>
    rw [path_of_parent hT ha hp, List.nodup_cons]
    refine ⟨fun hmem => ?_, ih⟩
    have hle := height_le_of_mem_path hT (hT.parent_mem a ha b hp) a hmem
    have := hT.height_parent a ha b hp
    omega

end ParentTree
