import Mathlib.Data.List.Count
import Mathlib.Data.List.Infix
import Mathlib.Tactic.Ring
import Mathlib.Tactic.Linarith

/-!
# Partial Merkle trees

A Merkle tree is described by a bit and a hash for each node that a walk from the root visits: the
walk stops at a node without a selected leaf, and takes its hash; at a selected leaf it takes the
leaf.  The tree repeats the left half of a node that has no right half, so a reader who is told
another number of leaves sees another shape with the same root.

* `root`, `hashedPairs` — a tree of some height over a list of leaves, and the pairs it hashes.
* `build`, `extract` — the bits and hashes of a selection, and the walk that reads them.
* `extract_build` — **complete**: the walk returns the root and the selected leaves.
* `openLeaves` — the leaves that a walk over some other number of leaves can reach.
* `extract_sublist`, `exists_extract` — **exact**: a walk that ends on the root returns some of
  them, and there is one that returns them all.
-/

namespace PartialMerkle

variable {α : Type} (hash : α → α → α) (d : α)

/-! ## Trees -/

/-- The leaves below the two children of a node of height `k + 1`; without a right half, the left
one is repeated. -/
def halves (k : ℕ) (l : List α) : List α × List α :=
  if l.length ≤ 2 ^ k then (l, l) else (l.take (2 ^ k), l.drop (2 ^ k))

/-- The tree of height `k` over these leaves. -/
def root : ℕ → List α → α
  | 0, l => l.headD d
  | k + 1, l => hash (root k (halves k l).1) (root k (halves k l).2)

/-- The pairs that are hashed. -/
def hashedPairs : ℕ → List α → List (α × α)
  | 0, _ => []
  | k + 1, l =>
      (root hash d k (halves k l).1, root hash d k (halves k l).2) ::
        (hashedPairs k (halves k l).1 ++ hashedPairs k (halves k l).2)

theorem halves_ne_nil {k : ℕ} {l : List α} (h : l ≠ []) :
    (halves k l).1 ≠ [] ∧ (halves k l).2 ≠ [] := by
  rw [halves]
  split
  · exact ⟨h, h⟩
  · next hlong =>
    have hpos : 0 < 2 ^ k := Nat.two_pow_pos k
    constructor
    · intro hnil
      have hlen := congrArg List.length hnil
      rw [List.length_take, List.length_nil] at hlen
      omega
    · intro hnil
      have hlen := congrArg List.length hnil
      rw [List.length_drop, List.length_nil] at hlen
      omega

theorem length_halves_le {k : ℕ} {l : List α} (h : l.length ≤ 2 ^ (k + 1)) :
    (halves k l).1.length ≤ 2 ^ k ∧ (halves k l).2.length ≤ 2 ^ k := by
  rw [pow_succ] at h
  rw [halves]
  split
  · next hshort => exact ⟨hshort, hshort⟩
  · rw [List.length_take, List.length_drop]
    omega

/-! ## Walks -/

/-- The walk over a tree of height `k` with `c` leaves: the hash of its root and the leaves it
selects, with the bits and hashes that are left. -/
def extract : ℕ → ℕ → List Bool → List α → Option (α × List α × List Bool × List α)
  | _, _, [], _ => none
  | 0, _, b :: bits, hs =>
      match hs with
      | [] => none
      | x :: hs => some (x, if b then [x] else [], bits, hs)
  | _ + 1, _, false :: bits, hs =>
      match hs with
      | [] => none
      | x :: hs => some (x, [], bits, hs)
  | k + 1, c, true :: bits, hs =>
      match extract k (min c (2 ^ k)) bits hs with
      | none => none
      | some (x, ms, bits, hs) =>
          if c ≤ 2 ^ k then some (hash x x, ms, bits, hs)
          else
            match extract k (c - 2 ^ k) bits hs with
            | none => none
            | some (y, ms', bits, hs) => some (hash x y, ms ++ ms', bits, hs)

/-- The selected leaves. -/
def selected (l : List α) (m : List Bool) : List α :=
  ((l.zip m).filter fun p => p.2).map Prod.fst

/-- The bits and hashes of a selection. -/
def build : ℕ → List α → List Bool → List Bool × List α
  | 0, l, m => ([m.any id], [l.headD d])
  | k + 1, l, m =>
      if m.any id then
        if l.length ≤ 2 ^ k then
          (true :: (build k l m).1, (build k l m).2)
        else
          (true :: ((build k (l.take (2 ^ k)) (m.take (2 ^ k))).1 ++
              (build k (l.drop (2 ^ k)) (m.drop (2 ^ k))).1),
            (build k (l.take (2 ^ k)) (m.take (2 ^ k))).2 ++
              (build k (l.drop (2 ^ k)) (m.drop (2 ^ k))).2)
      else ([false], [root hash d (k + 1) l])

/-! ## Completeness -/

theorem selected_eq_nil {l : List α} {m : List Bool} (h : m.any id = false) :
    selected l m = [] := by
  rw [selected, List.map_eq_nil_iff, List.filter_eq_nil_iff]
  intro p hp htrue
  have := List.any_eq_false.1 h p.2 (List.of_mem_zip hp).2
  exact this htrue

theorem selected_append {l l' : List α} {m m' : List Bool} (h : l.length = m.length) :
    selected (l ++ l') (m ++ m') = selected l m ++ selected l' m' := by
  rw [selected, List.zip_append h, List.filter_append, List.map_append]
  rfl

/-- **Completeness.**  The walk over what was built returns the root and the selected leaves, and
leaves what comes after. -/
theorem extract_build : ∀ (k : ℕ) (l : List α) (m : List Bool) (bits : List Bool) (hs : List α),
    l ≠ [] → l.length ≤ 2 ^ k → m.length = l.length →
    extract hash k l.length ((build hash d k l m).1 ++ bits) ((build hash d k l m).2 ++ hs) =
      some (root hash d k l, selected l m, bits, hs)
  | 0, l, m, bits, hs, hne, hlen, hm => by
      obtain ⟨x, rfl⟩ := List.length_eq_one_iff.1
        (show l.length = 1 by have := List.length_pos_iff.2 hne; rw [pow_zero] at hlen; omega)
      obtain ⟨b, rfl⟩ := List.length_eq_one_iff.1 hm
      cases b <;> rfl
  | k + 1, l, m, bits, hs, hne, hlen, hm => by
      rw [build]
      by_cases hany : m.any id = true
      · rw [if_pos hany]
        by_cases hshort : l.length ≤ 2 ^ k
        · rw [if_pos hshort, List.cons_append, extract, min_eq_left hshort,
            extract_build k l m bits hs hne hshort hm, root, halves, if_pos hshort]
          simp only [if_pos hshort]
        · rw [if_neg hshort]
          have hpow : l.length ≤ 2 ^ k + 2 ^ k := by rw [pow_succ] at hlen; omega
          have hleft : (l.take (2 ^ k)).length = 2 ^ k := by rw [List.length_take]; omega
          have hright : (l.drop (2 ^ k)).length = l.length - 2 ^ k := List.length_drop ..
          have hpos : 0 < 2 ^ k := Nat.two_pow_pos k
          have h₁ := extract_build k (l.take (2 ^ k)) (m.take (2 ^ k))
            ((build hash d k (l.drop (2 ^ k)) (m.drop (2 ^ k))).1 ++ bits)
            ((build hash d k (l.drop (2 ^ k)) (m.drop (2 ^ k))).2 ++ hs)
            (List.ne_nil_of_length_pos (by omega)) hleft.le
            (by rw [List.length_take, List.length_take, hm])
          have h₂ := extract_build k (l.drop (2 ^ k)) (m.drop (2 ^ k)) bits hs
            (List.ne_nil_of_length_pos (by omega)) (by omega)
            (by rw [List.length_drop, List.length_drop, hm])
          rw [hleft] at h₁
          rw [hright] at h₂
          have hsel : selected l m = selected (l.take (2 ^ k)) (m.take (2 ^ k)) ++
              selected (l.drop (2 ^ k)) (m.drop (2 ^ k)) := by
            rw [← selected_append (by rw [List.length_take, List.length_take, hm]),
              List.take_append_drop, List.take_append_drop]
          rw [List.cons_append, List.append_assoc, List.append_assoc, extract,
            min_eq_right (by omega), h₁]
          simp only [if_neg hshort, h₂]
          rw [root, halves, if_neg hshort, hsel]
      · rw [if_neg hany, selected_eq_nil (Bool.eq_false_iff.2 hany)]
        rfl

/-- A hash for each leaf at most, a bit for each hash at least, and a bit for each node at most. -/
theorem length_build : ∀ (k : ℕ) (l : List α) (m : List Bool), l ≠ [] → l.length ≤ 2 ^ k →
    (build hash d k l m).2.length ≤ l.length ∧
      (build hash d k l m).2.length ≤ (build hash d k l m).1.length ∧
      (build hash d k l m).1.length ≤ (k + 1) * l.length
  | 0, l, m, hne, _ => by
      have hpos := List.length_pos_iff.2 hne
      refine ⟨?_, le_rfl, ?_⟩
      · exact hpos
      · show 1 ≤ (0 + 1) * l.length
        omega
  | k + 1, l, m, hne, hlen => by
      have hpos := List.length_pos_iff.2 hne
      have hmul : (k + 1 + 1) * l.length = (k + 1) * l.length + l.length := by ring
      rw [build]
      split
      · split
        · next hshort =>
          obtain ⟨h₁, h₂, h₃⟩ := length_build k l m hne hshort
          refine ⟨h₁, ?_, ?_⟩
          · simp only [List.length_cons]
            omega
          · simp only [List.length_cons]
            omega
        · next hlong =>
          have hleft : (l.take (2 ^ k)).length = 2 ^ k := by rw [List.length_take]; omega
          have hright : (l.drop (2 ^ k)).length = l.length - 2 ^ k := List.length_drop ..
          have hpow : l.length ≤ 2 ^ k + 2 ^ k := by rw [pow_succ] at hlen; omega
          have hpow' : 0 < 2 ^ k := Nat.two_pow_pos k
          obtain ⟨h₁, h₂, h₃⟩ := length_build k (l.take (2 ^ k)) (m.take (2 ^ k))
            (List.ne_nil_of_length_pos (by omega)) hleft.le
          obtain ⟨h₄, h₅, h₆⟩ := length_build k (l.drop (2 ^ k)) (m.drop (2 ^ k))
            (List.ne_nil_of_length_pos (by omega)) (by omega)
          rw [hleft] at h₁ h₃
          rw [hright] at h₄ h₆
          have hsum : (k + 1) * 2 ^ k + (k + 1) * (l.length - 2 ^ k) = (k + 1) * l.length := by
            rw [← Nat.mul_add]
            congr 1
            omega
          simp only [List.length_cons, List.length_append]
          omega
      · refine ⟨hpos, le_rfl, ?_⟩
        show 1 ≤ _
        omega

/-! ## What a walk can reach -/

variable [DecidableEq α]

/-- The leaves that a walk over `c` leaves can reach when its root is that of the tree of height
`k` over `l`.  Where the walk has only a left half, the two halves of the tree have to be equal. -/
def openLeaves : ℕ → ℕ → List α → List α
  | 0, _, l => l
  | k + 1, c, l =>
      if c ≤ 2 ^ k then
        if root hash d k (halves k l).1 = root hash d k (halves k l).2 then
          openLeaves k c (halves k l).1
        else []
      else openLeaves k (2 ^ k) (halves k l).1 ++ openLeaves k (c - 2 ^ k) (halves k l).2

/-- A walk that ends on the root returns leaves that can be reached, in order. -/
theorem extract_sublist : ∀ {k c : ℕ} {l : List α} {bits bits' : List Bool} {hs hs' ms : List α},
    l ≠ [] → l.length ≤ 2 ^ k →
    (∀ q ∈ hashedPairs hash d k l, ∀ a b, hash a b = hash q.1 q.2 → a = q.1 ∧ b = q.2) →
    extract hash k c bits hs = some (root hash d k l, ms, bits', hs') →
    ms.Sublist (openLeaves hash d k c l)
  | 0, c, l, bits, bits', hs, hs', ms, hne, hlen, _, h => by
      obtain ⟨y, rfl⟩ := List.length_eq_one_iff.1
        (show l.length = 1 by have := List.length_pos_iff.2 hne; rw [pow_zero] at hlen; omega)
      cases bits with
      | nil => cases h
      | cons b bits =>
          cases hs with
          | nil => cases h
          | cons x hs =>
              simp only [extract, root, List.headD_cons, Option.some.injEq, Prod.mk.injEq] at h
              obtain ⟨rfl, rfl, -, -⟩ := h
              rw [openLeaves]
              split
              · exact List.Sublist.refl _
              · exact List.nil_sublist _
  | k + 1, c, l, bits, bits', hs, hs', ms, hne, hlen, hfree, h => by
      obtain ⟨hne₁, hne₂⟩ := halves_ne_nil (k := k) hne
      obtain ⟨hlen₁, hlen₂⟩ := length_halves_le hlen
      have hpair := hfree _ List.mem_cons_self
      have hfree₁ : ∀ q ∈ hashedPairs hash d k (halves k l).1, ∀ a b,
          hash a b = hash q.1 q.2 → a = q.1 ∧ b = q.2 := fun q hq =>
        hfree q (List.mem_cons_of_mem _ (List.mem_append_left _ hq))
      have hfree₂ : ∀ q ∈ hashedPairs hash d k (halves k l).2, ∀ a b,
          hash a b = hash q.1 q.2 → a = q.1 ∧ b = q.2 := fun q hq =>
        hfree q (List.mem_cons_of_mem _ (List.mem_append_right _ hq))
      rcases bits with _ | ⟨_ | _, bits⟩
      · cases h
      · cases hs with
        | nil => cases h
        | cons x hs =>
            simp only [extract, Option.some.injEq, Prod.mk.injEq] at h
            obtain ⟨-, rfl, -⟩ := h
            exact List.nil_sublist _
      · rw [extract] at h
        split at h
        · cases h
        · next x ms₁ bits₁ hs₁ hleft =>
          split at h
          · next hc =>
            simp only [Option.some.injEq, Prod.mk.injEq] at h
            obtain ⟨hroot, rfl, -⟩ := h
            obtain ⟨hx₁, hx₂⟩ := hpair x x hroot
            rw [min_eq_left hc, hx₁] at hleft
            rw [openLeaves, if_pos hc, if_pos (hx₁.symm.trans hx₂)]
            exact extract_sublist hne₁ hlen₁ hfree₁ hleft
          · next hc =>
            split at h
            · cases h
            · next y ms₂ bits₂ hs₂ hright =>
              simp only [Option.some.injEq, Prod.mk.injEq] at h
              obtain ⟨hroot, rfl, -⟩ := h
              obtain ⟨hx, hy⟩ := hpair x y hroot
              rw [min_eq_right (by omega), hx] at hleft
              rw [hy] at hright
              rw [openLeaves, if_neg hc]
              exact (extract_sublist hne₁ hlen₁ hfree₁ hleft).append
                (extract_sublist hne₂ hlen₂ hfree₂ hright)

/-- A walk that ends on the root and returns all leaves that can be reached. -/
theorem exists_extract : ∀ (k c : ℕ) (l : List α), 0 < c → l ≠ [] → l.length ≤ 2 ^ k →
    ∃ bits hs, (∀ bits' hs', extract hash k c (bits ++ bits') (hs ++ hs') =
        some (root hash d k l, openLeaves hash d k c l, bits', hs')) ∧
      hs.length ≤ c ∧ hs.length ≤ bits.length
  | 0, c, l, hc, hne, hlen => by
      obtain ⟨y, rfl⟩ := List.length_eq_one_iff.1
        (show l.length = 1 by have := List.length_pos_iff.2 hne; rw [pow_zero] at hlen; omega)
      exact ⟨[true], [y], fun _ _ => rfl, hc, le_rfl⟩
  | k + 1, c, l, hc, hne, hlen => by
      obtain ⟨hne₁, hne₂⟩ := halves_ne_nil (k := k) hne
      obtain ⟨hlen₁, hlen₂⟩ := length_halves_le hlen
      have hpos : 0 < 2 ^ k := Nat.two_pow_pos k
      by_cases hshort : c ≤ 2 ^ k
      · by_cases heq : root hash d k (halves k l).1 = root hash d k (halves k l).2
        · obtain ⟨bits, hs, hrun, hhs, hbits⟩ := exists_extract k c (halves k l).1 hc hne₁ hlen₁
          refine ⟨true :: bits, hs, fun bits' hs' => ?_, hhs, by simp only [List.length_cons]; omega⟩
          rw [List.cons_append, extract, min_eq_left hshort, hrun, openLeaves, if_pos hshort,
            if_pos heq]
          simp only [if_pos hshort]
          rw [root, ← heq]
        · refine ⟨[false], [root hash d (k + 1) l], fun bits' hs' => ?_, hc, le_rfl⟩
          rw [openLeaves, if_pos hshort, if_neg heq]
          rfl
      · obtain ⟨bits₁, hs₁, hrun₁, hhs₁, hbits₁⟩ :=
          exists_extract k (2 ^ k) (halves k l).1 hpos hne₁ hlen₁
        obtain ⟨bits₂, hs₂, hrun₂, hhs₂, hbits₂⟩ :=
          exists_extract k (c - 2 ^ k) (halves k l).2 (by omega) hne₂ hlen₂
        refine ⟨true :: (bits₁ ++ bits₂), hs₁ ++ hs₂, fun bits' hs' => ?_, ?_, ?_⟩
        · rw [List.cons_append, List.append_assoc, List.append_assoc, extract,
            min_eq_right (by omega), hrun₁]
          simp only [if_neg hshort, hrun₂]
          rw [root, openLeaves, if_neg hshort]
        · rw [List.length_append]
          omega
        · simp only [List.length_append, List.length_cons]
          omega

/-- Only leaves of the tree can be reached. -/
theorem openLeaves_subset : ∀ (k c : ℕ) (l : List α), openLeaves hash d k c l ⊆ l
  | 0, _, _ => List.Subset.refl _
  | k + 1, c, l => by
      have hhalves : (halves k l).1 ⊆ l ∧ (halves k l).2 ⊆ l := by
        rw [halves]
        split
        · exact ⟨List.Subset.refl _, List.Subset.refl _⟩
        · exact ⟨List.take_subset _ _, List.drop_subset _ _⟩
      rw [openLeaves]
      split
      · split
        · exact List.Subset.trans (openLeaves_subset k c _) hhalves.1
        · exact List.nil_subset _
      · exact List.append_subset.2 ⟨List.Subset.trans (openLeaves_subset k _ _) hhalves.1,
          List.Subset.trans (openLeaves_subset k _ _) hhalves.2⟩

/-- **No more leaves than the tree has.**  Then none is reached twice. -/
theorem openLeaves_sublist : ∀ {k c : ℕ} {l : List α}, c ≤ l.length →
    (openLeaves hash d k c l).Sublist l
  | 0, _, _, _ => List.Sublist.refl _
  | k + 1, c, l, hc => by
      rw [openLeaves, halves]
      by_cases hlong : l.length ≤ 2 ^ k
      · rw [if_pos hlong, if_pos (hc.trans hlong)]
        split
        · exact openLeaves_sublist hc
        · exact List.nil_sublist _
      · rw [if_neg hlong]
        have hleft : (l.take (2 ^ k)).length = 2 ^ k := by rw [List.length_take]; omega
        by_cases hshort : c ≤ 2 ^ k
        · rw [if_pos hshort]
          split
          · exact (openLeaves_sublist (hshort.trans hleft.ge)).trans (List.take_sublist _ _)
          · exact List.nil_sublist _
        · rw [if_neg hshort]
          have hright : (l.drop (2 ^ k)).length = l.length - 2 ^ k := List.length_drop ..
          have happend := (openLeaves_sublist (k := k) hleft.ge).append
            (openLeaves_sublist (k := k) (c := c - 2 ^ k) (l := l.drop (2 ^ k)) (by omega))
          rwa [List.take_append_drop] at happend

end PartialMerkle
