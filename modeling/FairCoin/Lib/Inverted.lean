import FairCoin.Lib.Store

/-!
# Inverted indexes

Beside a store stands a second one that lists, under every name, the keys whose value mentions it.

* `under` — the keys that are listed under a name.
* `link`, `unlink` — a key comes to stand under some names, and goes from under them; a name under
  which nothing stands any more goes with it.
* `Exact` — the index lists what a relation says, and no empty sets.
-/

namespace Inverted

open Store

universe u v

variable {K : Type u} [DecidableEq K] {P : Type v} [DecidableEq P]

/-- The keys that are listed under a name. -/
def under (rev : Map P (Finset K)) (p : P) : Finset K := (rev.lookup p).getD ∅

/-- A key comes to stand under a name. -/
def linkOne (k : K) (rev : Map P (Finset K)) (p : P) : Map P (Finset K) :=
  rev.insert p (insert k (under rev p))

/-- A key goes from under a name. -/
def unlinkOne (k : K) (rev : Map P (Finset K)) (p : P) : Map P (Finset K) :=
  match rev.lookup p with
  | none => rev
  | some ks => if ks.erase k = ∅ then rev.erase p else rev.insert p (ks.erase k)

/-- A key comes to stand under some names. -/
def link (k : K) (rev : Map P (Finset K)) (ps : List P) : Map P (Finset K) :=
  ps.foldl (linkOne k) rev

/-- A key goes from under some names. -/
def unlink (k : K) (rev : Map P (Finset K)) (ps : List P) : Map P (Finset K) :=
  ps.foldl (unlinkOne k) rev

/-- The index lists what a relation says, and no empty sets. -/
structure Exact (rev : Map P (Finset K)) (rel : K → P → Prop) : Prop where
  mem_iff : ∀ k p, k ∈ under rev p ↔ rel k p
  nonempty : ∀ p ks, rev.lookup p = some ks → ks ≠ ∅

variable {rev : Map P (Finset K)} {rel rel' : K → P → Prop} {k : K}

theorem Exact.congr (h : Exact rev rel) (hrel : ∀ k p, rel k p ↔ rel' k p) : Exact rev rel' :=
  ⟨fun k p => (h.mem_iff k p).trans (hrel k p), h.nonempty⟩

theorem Exact.empty : Exact (∅ : Map P (Finset K)) fun _ _ => False :=
  ⟨fun _ _ => by simp [under], fun _ _ h => by simp at h⟩

theorem under_linkOne (p q : P) :
    under (linkOne k rev p) q = if q = p then insert k (under rev p) else under rev q := by
  rw [under, linkOne, lookup_insert_eq]
  split
  · rfl
  · rfl

theorem under_unlinkOne (p q : P) :
    under (unlinkOne k rev p) q = if q = p then (under rev p).erase k else under rev q := by
  unfold unlinkOne
  split
  · next hp =>
    split
    · next hq =>
      rw [hq, under, hp]
      rfl
    · rfl
  · next ks hp =>
    have hks : under rev p = ks := by
      rw [under, hp]
      rfl
    rw [hks]
    split
    · next hempty =>
      rw [under, lookup_erase_eq]
      split
      · exact hempty.symm
      · rfl
    · rw [under, lookup_insert_eq]
      split
      · rfl
      · rfl

theorem Exact.linkOne (h : Exact rev rel) (k : K) (p : P) :
    Exact (linkOne k rev p) fun k' q => rel k' q ∨ (k' = k ∧ q = p) := by
  refine ⟨fun k' q => ?_, fun q ks hq => ?_⟩
  · rw [under_linkOne]
    split
    · next hqp =>
      rw [Finset.mem_insert, h.mem_iff, hqp]
      simp [or_comm]
    · next hqp => simp [h.mem_iff, hqp]
  · rw [Inverted.linkOne, lookup_insert_eq] at hq
    split at hq
    · cases hq
      exact Finset.insert_ne_empty _ _
    · exact h.nonempty q ks hq

theorem Exact.unlinkOne (h : Exact rev rel) (k : K) (p : P) :
    Exact (unlinkOne k rev p) fun k' q => rel k' q ∧ ¬(k' = k ∧ q = p) := by
  refine ⟨fun k' q => ?_, fun q ks hq => ?_⟩
  · rw [under_unlinkOne]
    split
    · next hqp =>
      rw [Finset.mem_erase, h.mem_iff, hqp]
      simp [and_comm]
    · next hqp => simp [h.mem_iff, hqp]
  · unfold Inverted.unlinkOne at hq
    split at hq
    · exact h.nonempty q ks hq
    · split at hq
      · rw [lookup_erase_eq] at hq
        split at hq
        · cases hq
        · exact h.nonempty q ks hq
      · next hne =>
        rw [lookup_insert_eq] at hq
        split at hq
        · cases hq
          exact hne
        · exact h.nonempty q ks hq

/-- **A key that comes.** -/
theorem Exact.link (h : Exact rev rel) (k : K) (ps : List P) :
    Exact (link k rev ps) fun k' q => rel k' q ∨ (k' = k ∧ q ∈ ps) := by
  induction ps generalizing rev rel with
  | nil => exact h.congr fun k' q => by simp
  | cons p ps ih =>
    refine (ih (h.linkOne k p)).congr fun k' q => ?_
    rw [List.mem_cons]
    tauto

/-- **A key that goes.** -/
theorem Exact.unlink (h : Exact rev rel) (k : K) (ps : List P) :
    Exact (unlink k rev ps) fun k' q => rel k' q ∧ ¬(k' = k ∧ q ∈ ps) := by
  induction ps generalizing rev rel with
  | nil => exact h.congr fun k' q => by simp
  | cons p ps ih =>
    refine (ih (h.unlinkOne k p)).congr fun k' q => ?_
    rw [List.mem_cons]
    tauto

end Inverted
