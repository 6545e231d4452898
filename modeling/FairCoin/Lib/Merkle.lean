import Mathlib

/-!
# Merkle trees that repeat the last node of an odd level

A list of leaves is hashed level by level, in pairs, until one node is left.  A level of odd
length pairs its last node with itself, so the root alone does not fix the leaves: a list whose
last pair is a twin has the root of the list without the second twin.

* `pairUp`, `twins` — one level up, and whether a level ends in a pair of equal nodes.
* `climb` — the loop over the levels, with the flag that some level ended in twins.
* `hashed` — the pairs the loop hashes.
* `climb_inj` — **two lists without twins that reach the same root are equal**, when no two of the
  hashed pairs collide and no leaf is the hash of a pair.
* `tower` — all levels, one after the other.
* `branch`, `walk` — the siblings on the way from a leaf, and the way with them;
  `walk_branch` — **it ends on the root**.
-/

namespace Merkle

variable {α : Type} [DecidableEq α] (hash : α → α → α)

/-- The pairs of a level; the last node of an odd level is paired with itself. -/
def pairs : List α → List (α × α)
  | [] => []
  | [a] => [(a, a)]
  | a :: b :: rest => (a, b) :: pairs rest

/-- One level up. -/
def pairUp (level : List α) : List α := (pairs level).map fun p => hash p.1 p.2

/-- The level ends in a pair of equal nodes. -/
def twins : List α → Bool
  | [] => false
  | [_] => false
  | [a, b] => a == b
  | _ :: _ :: c :: rest => twins (c :: rest)

/-- The levels up to the root, and whether one of them ends in twins. -/
def climb : ℕ → List α → Bool → List α × Bool
  | 0, level, mutated => (level, mutated)
  | n + 1, level, mutated =>
      if level.length ≤ 1 then (level, mutated)
      else climb n (pairUp hash level) (mutated || twins level)

/-- The pairs hashed on the way to the root. -/
def hashed : ℕ → List α → List (α × α)
  | 0, _ => []
  | n + 1, level => if level.length ≤ 1 then [] else pairs level ++ hashed n (pairUp hash level)

/-! ## One level -/

omit [DecidableEq α] in
theorem length_pairs : ∀ level : List α, (pairs level).length = (level.length + 1) / 2
  | [] => by simp [pairs]
  | [_] => by simp [pairs]
  | _ :: _ :: rest => by
      rw [pairs, List.length_cons, length_pairs rest, List.length_cons, List.length_cons]
      omega

omit [DecidableEq α] in
theorem length_pairUp (level : List α) :
    (pairUp hash level).length = (level.length + 1) / 2 := by
  rw [pairUp, List.length_map, length_pairs]

/-- A level without twins is fixed by its pairs. -/
theorem pairs_inj : ∀ {l l' : List α}, pairs l = pairs l' → twins l = false → twins l' = false →
    l = l'
  | [], [], _, _, _ => rfl
  | [], [_], h, _, _ => absurd h (by simp [pairs])
  | [], _ :: _ :: _, h, _, _ => absurd h (by simp [pairs])
  | [_], [], h, _, _ => absurd h (by simp [pairs])
  | [a], [b], h, _, _ => by
      simp only [pairs, List.cons.injEq, Prod.mk.injEq, and_true] at h
      rw [h.1]
  | [a], [b, c], h, _, h' => by
      simp only [pairs, List.cons.injEq, Prod.mk.injEq, and_true] at h
      obtain ⟨rfl, rfl⟩ := h
      exact absurd h' (by simp [twins])
  | [_], _ :: _ :: _ :: _, h, _, _ => by
      have := congrArg List.length h
      rw [length_pairs, length_pairs] at this
      simp only [List.length_cons, List.length_nil] at this
      omega
  | _ :: _ :: _, [], h, _, _ => absurd h (by simp [pairs])
  | [a, b], [c], h, hl, _ => by
      simp only [pairs, List.cons.injEq, Prod.mk.injEq, and_true] at h
      obtain ⟨rfl, rfl⟩ := h
      exact absurd hl (by simp [twins])
  | _ :: _ :: _ :: _, [_], h, _, _ => by
      have := congrArg List.length h
      rw [length_pairs, length_pairs] at this
      simp only [List.length_cons, List.length_nil] at this
      omega
  | a :: b :: rest, c :: d :: rest', h, hl, hl' => by
      simp only [pairs, List.cons.injEq, Prod.mk.injEq] at h
      obtain ⟨⟨rfl, rfl⟩, hrest⟩ := h
      have htail : ∀ {x y : α} {r : List α}, twins (x :: y :: r) = false → twins r = false := by
        intro x y r hr
        cases r with
        | nil => rfl
        | cons z r => exact hr
      rw [pairs_inj hrest (htail hl) (htail hl')]

/-- One level up is injective on levels without twins whose pairs do not collide. -/
theorem pairUp_inj {l l' : List α}
    (hfree : ∀ p ∈ pairs l, ∀ q ∈ pairs l', hash p.1 p.2 = hash q.1 q.2 → p = q)
    (hl : twins l = false) (hl' : twins l' = false) (h : pairUp hash l = pairUp hash l') :
    l = l' := by
  apply pairs_inj _ hl hl'
  have hlen : (pairs l).length = (pairs l').length := by
    simpa [pairUp] using congrArg List.length h
  apply List.ext_getElem hlen
  intro i hi hi'
  apply hfree _ (List.getElem_mem hi) _ (List.getElem_mem hi')
  have hget : (pairUp hash l)[i]? = (pairUp hash l')[i]? := by rw [h]
  rw [pairUp, pairUp, List.getElem?_map, List.getElem?_map, List.getElem?_eq_getElem hi,
    List.getElem?_eq_getElem hi'] at hget
  simpa using hget

/-! ## The way to the root -/

/-- What the loop does: it climbs some number of levels, all of them longer than one, and ends
on the root. -/
theorem climb_spec : ∀ (n : ℕ) (level : List α) (mutated : Bool), level.length ≤ n →
    ∃ d, (climb hash n level mutated).1 = (pairUp hash)^[d] level ∧
      (climb hash n level mutated).1.length ≤ 1 ∧
      ((climb hash n level mutated).2 = false →
        mutated = false ∧ ∀ i < d, twins ((pairUp hash)^[i] level) = false) ∧
      ∀ i < d, pairs ((pairUp hash)^[i] level) ⊆ hashed hash n level
  | 0, level, mutated, hlen => by
      refine ⟨0, rfl, ?_, fun h => ⟨h, by simp⟩, by simp⟩
      show level.length ≤ 1
      omega
  | n + 1, level, mutated, hlen => by
      rw [climb, hashed]
      split
      · next hone => exact ⟨0, rfl, hone, fun h => ⟨h, by simp⟩, by simp⟩
      · next hmany =>
        have hshort : (pairUp hash level).length ≤ n := by
          rw [length_pairUp]
          omega
        obtain ⟨d, hroot, hone, hclean, hsub⟩ :=
          climb_spec n (pairUp hash level) (mutated || twins level) hshort
        refine ⟨d + 1, hroot, hone, fun h => ?_, fun i hi => ?_⟩
        · obtain ⟨hm, htwins⟩ := hclean h
          rw [Bool.or_eq_false_iff] at hm
          refine ⟨hm.1, fun i hi => ?_⟩
          cases i with
          | zero => exact hm.2
          | succ i => exact htwins i (by omega)
        · cases i with
          | zero => exact List.subset_append_left _ _
          | succ i => exact List.subset_append_of_subset_right _ (hsub i (by omega))

/-- The loop ends on the first level that has no pair. -/
theorem climb_eq_iterate : ∀ (d n : ℕ) (level : List α) (mutated : Bool), level.length ≤ n →
    (∀ i < d, 1 < ((pairUp hash)^[i] level).length) → ((pairUp hash)^[d] level).length ≤ 1 →
    (climb hash n level mutated).1 = (pairUp hash)^[d] level
  | 0, 0, _, _, _, _, _ => rfl
  | 0, n + 1, level, mutated, _, _, hone => by
      have hshort : level.length ≤ 1 := hone
      rw [climb, if_pos hshort]
      rfl
  | d + 1, 0, level, _, hlen, hmany, _ => by
      have hlong : 1 < level.length := hmany 0 (Nat.succ_pos d)
      omega
  | d + 1, n + 1, level, mutated, hlen, hmany, hone => by
      have hlong : 1 < level.length := hmany 0 (Nat.succ_pos d)
      have hup : (pairUp hash level).length ≤ n := by
        rw [length_pairUp]
        omega
      rw [climb, if_neg (by omega), Function.iterate_succ_apply]
      exact climb_eq_iterate d n (pairUp hash level) _ hup
        (fun i hi => hmany (i + 1) (Nat.succ_lt_succ hi)) hone

/-- Two levels without twins below the same level are equal. -/
theorem iterate_inj (d : ℕ) : ∀ {l l' : List α},
    (∀ i < d, ∀ p ∈ pairs ((pairUp hash)^[i] l), ∀ q ∈ pairs ((pairUp hash)^[i] l'),
      hash p.1 p.2 = hash q.1 q.2 → p = q) →
    (∀ i < d, twins ((pairUp hash)^[i] l) = false) →
    (∀ i < d, twins ((pairUp hash)^[i] l') = false) →
    (pairUp hash)^[d] l = (pairUp hash)^[d] l' → l = l' := by
  induction d with
  | zero =>
    intro l l' _ _ _ h
    exact h
  | succ d ih =>
    intro l l' hfree hl hl' h
    have hup : pairUp hash l = pairUp hash l' :=
      ih (fun i hi => hfree (i + 1) (by omega)) (fun i hi => hl (i + 1) (by omega))
        (fun i hi => hl' (i + 1) (by omega)) h
    exact pairUp_inj hash (hfree 0 (by omega)) (hl 0 (by omega)) (hl' 0 (by omega)) hup

/-- No two of the things hashed for the one list and for the other have the same hash: neither
two pairs, nor a leaf and a pair. -/
structure CollisionFree (l l' : List α) : Prop where
  pairs : ∀ p ∈ hashed hash l.length l, ∀ q ∈ hashed hash l'.length l',
    hash p.1 p.2 = hash q.1 q.2 → p = q
  left : ∀ x ∈ l, ∀ q ∈ hashed hash l'.length l', x ≠ hash q.1 q.2
  right : ∀ x ∈ l', ∀ p ∈ hashed hash l.length l, x ≠ hash p.1 p.2

omit [DecidableEq α] in
theorem CollisionFree.symm {l l' : List α} (h : CollisionFree hash l l') :
    CollisionFree hash l' l :=
  ⟨fun p hp q hq heq => (h.pairs q hq p hp heq.symm).symm, h.right, h.left⟩

omit [DecidableEq α] in
theorem iterate_pairUp_ne_nil {l : List α} (h : l ≠ []) (d : ℕ) :
    (pairUp hash)^[d] l ≠ [] := by
  induction d with
  | zero => exact h
  | succ d ih =>
    rw [Function.iterate_succ_apply']
    intro hnil
    have := congrArg List.length hnil
    rw [length_pairUp, List.length_nil] at this
    have := List.length_pos_iff.2 ih
    omega

/-- A list whose tree is not higher than the other's has the leaves of the other. -/
theorem climb_inj_of_le {l l' : List α} {d d' : ℕ} (hle : d ≤ d') (hne : l ≠ [])
    (hfree : CollisionFree hash l l') (heq : (pairUp hash)^[d] l = (pairUp hash)^[d'] l')
    (hl : ∀ i < d, twins ((pairUp hash)^[i] l) = false)
    (hl' : ∀ i < d', twins ((pairUp hash)^[i] l') = false)
    (hsub : ∀ i < d, pairs ((pairUp hash)^[i] l) ⊆ hashed hash l.length l)
    (hsub' : ∀ i < d', pairs ((pairUp hash)^[i] l') ⊆ hashed hash l'.length l') : l = l' := by
  obtain ⟨k, rfl⟩ := Nat.exists_eq_add_of_le hle
  have hsplit : ∀ i, (pairUp hash)^[i] ((pairUp hash)^[k] l') = (pairUp hash)^[i + k] l' :=
    fun i => (Function.iterate_add_apply _ i k l').symm
  have hbase : l = (pairUp hash)^[k] l' := by
    apply iterate_inj hash d
    · intro i hi p hp q hq
      rw [hsplit] at hq
      exact hfree.pairs p (hsub i hi hp) q (hsub' (i + k) (by omega) hq)
    · exact hl
    · intro i hi
      rw [hsplit]
      exact hl' (i + k) (by omega)
    · rw [hsplit]
      exact heq
  -- above the leaves of the higher tree there are only hashes of pairs
  cases k with
  | zero => exact hbase
  | succ k =>
    exfalso
    obtain ⟨x, rest, hx⟩ := List.exists_cons_of_ne_nil hne
    have hmem : x ∈ (pairUp hash)^[k + 1] l' := by
      rw [← hbase, hx]
      exact List.mem_cons_self
    rw [Function.iterate_succ_apply', pairUp, List.mem_map] at hmem
    obtain ⟨q, hq, rfl⟩ := hmem
    refine hfree.left _ ?_ q (hsub' k (by omega) hq) rfl
    rw [hx]
    exact List.mem_cons_self

/-- **The root fixes the leaves.**  Two lists that reach the same root, neither of them through a
level that ends in twins, are equal. -/
theorem climb_inj {l l' : List α} {z : α} (hne : l ≠ []) (hne' : l' ≠ [])
    (hfree : CollisionFree hash l l')
    (heq : (climb hash l.length l false).1.head?.getD z =
      (climb hash l'.length l' false).1.head?.getD z)
    (hl : (climb hash l.length l false).2 = false)
    (hl' : (climb hash l'.length l' false).2 = false) : l = l' := by
  obtain ⟨d, hroot, hone, hclean, hsub⟩ := climb_spec hash l.length l false le_rfl
  obtain ⟨d', hroot', hone', hclean', hsub'⟩ := climb_spec hash l'.length l' false le_rfl
  have hlevel : (pairUp hash)^[d] l = (pairUp hash)^[d'] l' := by
    rw [hroot] at heq hone
    rw [hroot'] at heq hone'
    obtain ⟨x, xs, hx⟩ := List.exists_cons_of_ne_nil (iterate_pairUp_ne_nil hash hne d)
    obtain ⟨y, ys, hy⟩ := List.exists_cons_of_ne_nil (iterate_pairUp_ne_nil hash hne' d')
    rw [hx, hy] at heq
    rw [hx, List.length_cons] at hone
    rw [hy, List.length_cons] at hone'
    have hxs : xs = [] := List.eq_nil_of_length_eq_zero (by omega)
    have hys : ys = [] := List.eq_nil_of_length_eq_zero (by omega)
    have hxy : x = y := heq
    rw [hx, hy, hxs, hys, hxy]
  rcases le_total d d' with hle | hle
  · exact climb_inj_of_le hash hle hne hfree hlevel (hclean hl).2 (hclean' hl').2 hsub hsub'
  · exact (climb_inj_of_le hash hle hne' (hfree.symm hash) hlevel.symm (hclean' hl').2
      (hclean hl).2 hsub' hsub).symm

/-! ## Branches -/

section Branches

omit [DecidableEq α]

/-- All levels, one after the other. -/
def tower : ℕ → List α → List α
  | 0, level => level
  | n + 1, level => if level.length ≤ 1 then level else level ++ tower n (pairUp hash level)

/-- The siblings on the way from a node of a level to the root; the last node of an odd level is
its own. -/
def branch (d : α) : ℕ → List α → ℕ → List α
  | 0, _, _ => []
  | n + 1, level, i =>
      if level.length ≤ 1 then []
      else level.getD (min (i ^^^ 1) (level.length - 1)) d
        :: branch d n (pairUp hash level) (i / 2)

/-- The way from a node with the siblings of a branch. -/
def walk (x : α) : List α → ℕ → α
  | [], _ => x
  | y :: ys, i => walk (if i % 2 = 1 then hash y x else hash x y) ys (i / 2)

/-- The pairs of a level by their index. -/
theorem getElem?_pairs (d : α) : ∀ (l : List α) (k : ℕ), 2 * k < l.length →
    (pairs l)[k]? = some (l.getD (2 * k) d, l.getD (min (2 * k + 1) (l.length - 1)) d)
  | [], k, hk => absurd hk (Nat.not_lt_zero _)
  | [a], k, hk => by
      obtain rfl : k = 0 := by
        rw [List.length_singleton] at hk
        omega
      rfl
  | a :: b :: rest, 0, _ => by
      have hmin : min (2 * 0 + 1) ((a :: b :: rest).length - 1) = 1 := by
        simp only [List.length_cons]
        omega
      rw [hmin]
      rfl
  | a :: b :: rest, k + 1, hk => by
      have hk' : 2 * k < rest.length := by
        simp only [List.length_cons] at hk
        omega
      have hmin : min (2 * (k + 1) + 1) ((a :: b :: rest).length - 1)
          = min (2 * k + 1) (rest.length - 1) + 2 := by
        simp only [List.length_cons]
        omega
      rw [hmin, pairs, List.getElem?_cons_succ, getElem?_pairs d rest k hk', Nat.mul_succ]
      rfl

/-- The sibling of an index within its level. -/
theorem xor_one (i : ℕ) : i ^^^ 1 = if i % 2 = 1 then i - 1 else i + 1 := by
  have hdiv : (i ^^^ 1) / 2 = i / 2 := by
    rw [Nat.xor_div_two]
    exact Nat.xor_zero _
  have hmod : (i ^^^ 1) % 2 = (i + 1) % 2 := by
    rw [Nat.xor_mod_two_eq]
  split <;> omega

/-- A node and its sibling make the node above them. -/
theorem getElem?_pairUp {d x : α} {level : List α} {i : ℕ} (hx : level[i]? = some x) :
    (pairUp hash level)[i / 2]? =
      some (if i % 2 = 1 then hash (level.getD (min (i ^^^ 1) (level.length - 1)) d) x
        else hash x (level.getD (min (i ^^^ 1) (level.length - 1)) d)) := by
  obtain ⟨hi, hget⟩ := List.getElem?_eq_some_iff.1 hx
  have hD : level.getD i d = x := by
    rw [List.getD_eq_getElem?_getD, hx, Option.getD_some]
  rw [pairUp, List.getElem?_map, getElem?_pairs d level (i / 2) (by omega), Option.map_some,
    xor_one]
  split
  · next hodd =>
    have h₁ : 2 * (i / 2) = i - 1 := by omega
    have h₂ : min (2 * (i / 2) + 1) (level.length - 1) = i := by omega
    have h₃ : min (i - 1) (level.length - 1) = i - 1 := by omega
    rw [h₂, h₁, h₃, hD]
  · next heven =>
    have h₁ : 2 * (i / 2) = i := by omega
    rw [h₁, hD]

/-- **A branch leads to the root.** -/
theorem walk_branch (d : α) : ∀ (n : ℕ) (level : List α) (i : ℕ) (x : α), level.length ≤ n →
    level[i]? = some x → (tower hash n level).getLast? = some (walk hash x (branch hash d n level i) i)
  | 0, level, i, x, hlen, hx => by
      rw [List.eq_nil_of_length_eq_zero (Nat.le_zero.1 hlen)] at hx
      cases hx
  | n + 1, level, i, x, hlen, hx => by
      obtain ⟨hi, -⟩ := List.getElem?_eq_some_iff.1 hx
      rw [tower, branch]
      split
      · next hone =>
        obtain ⟨y, rfl⟩ := List.length_eq_one_iff.1 (show level.length = 1 by omega)
        obtain rfl : i = 0 := by
          rw [List.length_singleton] at hi
          omega
        exact hx
      · next hmany =>
        have hup : (pairUp hash level).length ≤ n := by
          rw [length_pairUp]
          omega
        have ih := walk_branch d n (pairUp hash level) (i / 2) _ hup (getElem?_pairUp (d := d) hash hx)
        rw [List.getLast?_append, ih]
        rfl

end Branches

/-- The tower ends on the root. -/
theorem getLast?_tower : ∀ (n : ℕ) (level : List α) (mutated : Bool), level.length ≤ n →
    (tower hash n level).getLast? = (climb hash n level mutated).1.head?
  | 0, level, mutated, hlen => by
      rw [List.eq_nil_of_length_eq_zero (Nat.le_zero.1 hlen)]
      rfl
  | n + 1, level, mutated, hlen => by
      rw [tower, climb]
      split
      · next hone =>
        match level, hone with
        | [], _ => rfl
        | [_], _ => rfl
      · next hmany =>
        have hup : (pairUp hash level).length ≤ n := by
          rw [length_pairUp]
          omega
        rw [List.getLast?_append, getLast?_tower n _ (mutated || twins level) hup]
        obtain ⟨d, hroot, -⟩ := climb_spec hash n (pairUp hash level) (mutated || twins level) hup
        have hne : pairUp hash level ≠ [] := by
          rw [← List.length_pos_iff, length_pairUp]
          omega
        obtain ⟨x, xs, hx⟩ := List.exists_cons_of_ne_nil (iterate_pairUp_ne_nil hash hne d)
        rw [hroot, hx]
        rfl

end Merkle
