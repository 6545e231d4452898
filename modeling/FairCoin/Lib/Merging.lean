import Mathlib.Logic.Relation
import Mathlib.Data.Finset.Union
import Mathlib.Data.Finset.Lattice.Basic
import Mathlib.Data.Finset.Lattice.Lemmas
import Mathlib.Order.Disjoint

/-!
# Merging overlapping groups

Groups of elements are taken one after the other, and each is merged with the blocks it overlaps.

* `absorb` — one group: the blocks it hits become one block with it.
* `Partitions` — the blocks are disjoint, none is empty, and each is held together by the groups.
* `Partitions.absorb`, `partitions_foldl` — a step keeps this, and so does a run.
* `Partitions.exists_block_iff` — two elements are in one block exactly when a chain of groups
  leads from the one to the other.
-/

namespace Merging

variable {α : Type} [DecidableEq α]

/-- Two elements of one group. -/
def Joined (groups : Set (Finset α)) (x y : α) : Prop := ∃ g ∈ groups, x ∈ g ∧ y ∈ g

/-- The blocks that a group overlaps. -/
def hits (blocks : Finset (Finset α)) (g : Finset α) : Finset (Finset α) :=
  blocks.filter fun b => ∃ x ∈ g, x ∈ b

/-- A group with all the blocks it overlaps. -/
def merged (blocks : Finset (Finset α)) (g : Finset α) : Finset α :=
  g ∪ (hits blocks g).biUnion id

/-- Merge a group with the blocks it overlaps. -/
def absorb (blocks : Finset (Finset α)) (g : Finset α) : Finset (Finset α) :=
  insert (merged blocks g) (blocks \ hits blocks g)

/-- The blocks are what the groups are merged to. -/
structure Partitions (groups : Set (Finset α)) (blocks : Finset (Finset α)) : Prop where
  nonempty : ∀ b ∈ blocks, b.Nonempty
  disjoint : ∀ b ∈ blocks, ∀ c ∈ blocks, ∀ x ∈ b, x ∈ c → b = c
  covers : ∀ g ∈ groups, ∃ b ∈ blocks, g ⊆ b
  grouped : ∀ b ∈ blocks, ∀ x ∈ b, ∃ g ∈ groups, x ∈ g
  joined : ∀ b ∈ blocks, ∀ x ∈ b, ∀ y ∈ b, Relation.ReflTransGen (Joined groups) x y

variable {groups : Set (Finset α)} {blocks : Finset (Finset α)} {g : Finset α}

theorem mem_hits {b : Finset α} : b ∈ hits blocks g ↔ b ∈ blocks ∧ ∃ x ∈ g, x ∈ b :=
  Finset.mem_filter

theorem mem_merged {x : α} :
    x ∈ merged blocks g ↔ x ∈ g ∨ ∃ b ∈ blocks, (∃ z ∈ g, z ∈ b) ∧ x ∈ b := by
  simp only [merged, Finset.mem_union, Finset.mem_biUnion, mem_hits, id, and_assoc]

theorem mem_absorb {b : Finset α} :
    b ∈ absorb blocks g ↔ b = merged blocks g ∨ (b ∈ blocks ∧ ∀ x ∈ g, x ∉ b) := by
  rw [absorb, Finset.mem_insert, Finset.mem_sdiff, mem_hits]
  refine or_congr_right (and_congr_right fun hb => ?_)
  push Not
  exact ⟨fun h => h hb, fun h _ => h⟩

theorem subset_merged : g ⊆ merged blocks g := fun _ hx => mem_merged.2 (.inl hx)

theorem subset_merged_of_hit {b : Finset α} (hb : b ∈ blocks) (hhit : ∃ x ∈ g, x ∈ b) :
    b ⊆ merged blocks g := fun _ hx => mem_merged.2 (.inr ⟨b, hb, hhit, hx⟩)

theorem Joined.mono {groups' : Set (Finset α)} (h : groups ⊆ groups') {x y : α}
    (hxy : Joined groups x y) : Joined groups' x y :=
  let ⟨g, hg, hx, hy⟩ := hxy
  ⟨g, h hg, hx, hy⟩

theorem reach_mono {groups' : Set (Finset α)} (h : groups ⊆ groups') {x y : α}
    (hxy : Relation.ReflTransGen (Joined groups) x y) :
    Relation.ReflTransGen (Joined groups') x y :=
  Relation.ReflTransGen.mono (fun _ _ => Joined.mono h) x y hxy

theorem partitions_empty : Partitions (∅ : Set (Finset α)) ∅ where
  nonempty := by simp
  disjoint := by simp
  covers := by simp
  grouped := by simp
  joined := by simp

namespace Partitions

/-- Every element of a merged group is joined to an element of the group. -/
theorem reach_group (h : Partitions groups blocks) {x : α} (hx : x ∈ merged blocks g) :
    ∃ z ∈ g, Relation.ReflTransGen (Joined (insert g groups)) x z ∧
      Relation.ReflTransGen (Joined (insert g groups)) z x := by
  rcases mem_merged.1 hx with hx | ⟨b, hb, ⟨z, hz, hzb⟩, hxb⟩
  · exact ⟨x, hx, .refl, .refl⟩
  · have hsub := Set.subset_insert g groups
    exact ⟨z, hz, reach_mono hsub (h.joined b hb x hxb z hzb),
      reach_mono hsub (h.joined b hb z hzb x hxb)⟩

/-- **Merging a group keeps a partition.** -/
theorem absorb (h : Partitions groups blocks) (hg : g.Nonempty) :
    Partitions (insert g groups) (absorb blocks g) where
  nonempty b hb := by
    rcases mem_absorb.1 hb with rfl | ⟨hb, -⟩
    · exact hg.mono subset_merged
    · exact h.nonempty b hb
  disjoint b hb c hc x hxb hxc := by
    -- an element of the new block that is in an old one would make the old one a hit
    have key : ∀ c ∈ blocks, (∀ z ∈ g, z ∉ c) → ∀ x ∈ merged blocks g, x ∉ c := by
      intro c hc hmiss x hx hxc
      rcases mem_merged.1 hx with hx | ⟨b, hb, ⟨z, hz, hzb⟩, hxb⟩
      · exact hmiss x hx hxc
      · rw [h.disjoint b hb c hc x hxb hxc] at hzb
        exact hmiss z hz hzb
    rcases mem_absorb.1 hb with rfl | ⟨hb, hbg⟩ <;> rcases mem_absorb.1 hc with rfl | ⟨hc, hcg⟩
    · rfl
    · exact absurd hxc (key c hc hcg x hxb)
    · exact absurd hxb (key b hb hbg x hxc)
    · exact h.disjoint b hb c hc x hxb hxc
  covers g' hg' := by
    rcases Set.mem_insert_iff.1 hg' with rfl | hg'
    · exact ⟨_, mem_absorb.2 (.inl rfl), subset_merged⟩
    · obtain ⟨b, hb, hsub⟩ := h.covers g' hg'
      by_cases hhit : ∃ x ∈ g, x ∈ b
      · exact ⟨_, mem_absorb.2 (.inl rfl), hsub.trans (subset_merged_of_hit hb hhit)⟩
      · push Not at hhit
        exact ⟨b, mem_absorb.2 (.inr ⟨hb, hhit⟩), hsub⟩
  grouped b hb x hx := by
    have old : ∀ b ∈ blocks, x ∈ b → ∃ g' ∈ insert g groups, x ∈ g' := fun b hb hx =>
      let ⟨g', hg', hx'⟩ := h.grouped b hb x hx
      ⟨g', Set.mem_insert_of_mem g hg', hx'⟩
    rcases mem_absorb.1 hb with rfl | ⟨hb, -⟩
    · rcases mem_merged.1 hx with hx | ⟨b, hb, -, hx⟩
      · exact ⟨g, Set.mem_insert g groups, hx⟩
      · exact old b hb hx
    · exact old b hb hx
  joined b hb x hx y hy := by
    rcases mem_absorb.1 hb with rfl | ⟨hb, -⟩
    · obtain ⟨u, hu, hxu, -⟩ := h.reach_group hx
      obtain ⟨v, hv, -, hvy⟩ := h.reach_group hy
      have huv : Joined (insert g groups) u v := ⟨g, Set.mem_insert g groups, hu, hv⟩
      exact (hxu.tail huv).trans hvy
    · exact reach_mono (Set.subset_insert g groups) (h.joined b hb x hx y hy)

omit [DecidableEq α] in
/-- The elements of the blocks are those of the groups. -/
theorem exists_mem_iff (h : Partitions groups blocks) (x : α) :
    (∃ b ∈ blocks, x ∈ b) ↔ ∃ g ∈ groups, x ∈ g := by
  constructor
  · rintro ⟨b, hb, hx⟩
    exact h.grouped b hb x hx
  · rintro ⟨g, hg, hx⟩
    obtain ⟨b, hb, hsub⟩ := h.covers g hg
    exact ⟨b, hb, hsub hx⟩

omit [DecidableEq α] in
/-- **Two elements are in one block exactly when a chain of groups joins them.** -/
theorem exists_block_iff (h : Partitions groups blocks) {x : α} (hx : ∃ b ∈ blocks, x ∈ b) (y : α) :
    (∃ b ∈ blocks, x ∈ b ∧ y ∈ b) ↔ Relation.ReflTransGen (Joined groups) x y := by
  constructor
  · rintro ⟨b, hb, hxb, hyb⟩
    exact h.joined b hb x hxb y hyb
  · intro hxy
    obtain ⟨b, hb, hxb⟩ := hx
    refine ⟨b, hb, hxb, ?_⟩
    induction hxy with
    | refl => exact hxb
    | tail _ hyz ih =>
      obtain ⟨g, hg, hy, hz⟩ := hyz
      obtain ⟨c, hc, hsub⟩ := h.covers g hg
      rw [h.disjoint b hb c hc _ ih (hsub hy)]
      exact hsub hz

end Partitions

/-- **A run over non-empty groups makes a partition of them.** -/
theorem partitions_foldl (gs : List (Finset α)) (hgs : ∀ g ∈ gs, g.Nonempty)
    (h : Partitions groups blocks) :
    Partitions (groups ∪ {g | g ∈ gs}) (gs.foldl absorb blocks) := by
  induction gs generalizing groups blocks with
  | nil => simpa using h
  | cons g gs ih =>
    rw [List.foldl_cons]
    have hrun := ih (fun g' hg' => hgs g' (by simp [hg'])) (h.absorb (hgs g (by simp)))
    have hset : groups ∪ {g' | g' ∈ g :: gs} = insert g groups ∪ {g' | g' ∈ gs} := by
      ext g'
      simp only [Set.mem_union, Set.mem_ofPred_eq, List.mem_cons, Set.mem_insert_iff]
      tauto
    rw [hset]
    exact hrun

end Merging
