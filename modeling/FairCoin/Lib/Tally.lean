import FairCoin.Lib.Store

/-!
# Totals over a keyed store

The sum of a number over the values of a store, as a counter beside the store keeps it.

* `tally` — the sum.
* `tally_insert`, `tally_erase` — what a write adds and what a deletion takes away.
* `tally_eq_zero` — the sum where every value counts nothing.
* `tally_one`, `tally_ite`, `tally_add` — numbers of entries, and the sum of two totals.
* `tally_le_card` — **entries that each have a place of their own** are no more than the places.
-/

namespace Store

universe u v

variable {K : Type u} [DecidableEq K] {V : Type v}

/-- The sum of a number over the values of a store. -/
def tally (f : V → ℤ) (s : Map K V) : ℤ := (s.entries.map fun e => f e.2).sum

/-- What a key contributes to the sum. -/
def share (f : V → ℤ) (s : Map K V) (k : K) : ℤ := (s.lookup k).elim 0 f

variable (f : V → ℤ)

@[simp] theorem tally_empty : tally f (∅ : Map K V) = 0 := rfl

theorem share_of_lookup {s : Map K V} {k : K} {x : V} (h : s.lookup k = some x) :
    share f s k = f x := by
  rw [share, h]
  rfl

theorem share_of_none {s : Map K V} {k : K} (h : s.lookup k = none) : share f s k = 0 := by
  rw [share, h]
  rfl

theorem tally_erase (s : Map K V) (k : K) : tally f (s.erase k) = tally f s - share f s k := by
  cases hk : s.lookup k with
  | none =>
    have hkeys : k ∉ s.entries.keys := AList.lookup_eq_none.1 hk
    have hentries : (s.erase k).entries = s.entries := List.kerase_of_notMem_keys hkeys
    rw [share_of_none f hk, sub_zero, tally, tally, hentries]
  | some x =>
    have hperm := ((entries_perm_erase hk).map fun e => f e.2).sum_eq
    rw [share_of_lookup f hk, tally, tally, hperm, List.map_cons, List.sum_cons]
    exact (add_sub_cancel_left _ _).symm

theorem tally_insert (s : Map K V) (k : K) (x : V) :
    tally f (s.insert k x) = tally f s - share f s k + f x := by
  have hentries : (s.insert k x).entries = ⟨k, x⟩ :: (s.erase k).entries := List.kinsert_def
  rw [← tally_erase, tally, hentries, List.map_cons, List.sum_cons, add_comm]
  rfl

theorem share_nonneg (hf : ∀ x, 0 ≤ f x) (s : Map K V) (k : K) : 0 ≤ share f s k := by
  rw [share]
  cases s.lookup k with
  | none => exact le_rfl
  | some x => exact hf x

theorem tally_eq_zero {s : Map K V} (h : ∀ k x, s.lookup k = some x → f x = 0) : tally f s = 0 := by
  refine List.sum_eq_zero fun y hy => ?_
  obtain ⟨e, he, rfl⟩ := List.mem_map.1 hy
  exact h e.1 e.2 (AList.mem_lookup_iff.2 he)

/-- The number of entries. -/
theorem tally_one (s : Map K V) : tally (fun _ => 1) s = s.entries.length := by
  rw [tally, List.map_const', List.sum_replicate, nsmul_one]

/-- The number of entries whose value passes a test. -/
theorem tally_ite (q : V → Bool) (s : Map K V) :
    tally (fun x => if q x = true then 1 else 0) s = (s.entries.filter fun e => q e.2).length := by
  rw [tally]
  induction s.entries with
  | nil => rfl
  | cons e es ih =>
    rw [List.map_cons, List.sum_cons, ih, List.filter_cons]
    split
    · rw [List.length_cons]
      push_cast
      ring
    · rw [zero_add]

/-- **Entries that each have a place of their own** are no more than the places. -/
theorem tally_le_card {γ : Type*} {s : Map K V} {q : V → Bool} {S : Finset γ} (g : K → γ)
    (hmem : ∀ k x, s.lookup k = some x → q x = true → g k ∈ S)
    (hinj : ∀ k x k' x', s.lookup k = some x → q x = true → s.lookup k' = some x' → q x' = true →
      g k = g k' → k = k') :
    tally (fun x => if q x = true then 1 else 0) s ≤ S.card := by
  classical
  have hentry : ∀ e ∈ s.entries.filter fun e => q e.2,
      s.lookup e.1 = some e.2 ∧ q e.2 = true := fun e he =>
    ⟨AList.mem_lookup_iff.2 (List.mem_filter.1 he).1, (List.mem_filter.1 he).2⟩
  have hnodup : ((s.entries.filter fun e => q e.2).map fun e => g e.1).Nodup := by
    rw [List.Nodup, List.pairwise_map]
    refine ((List.nodupKeys_iff_pairwise.1 s.nodupKeys).sublist
      List.filter_sublist).imp_of_mem fun {e e'} he he' hne heq => hne ?_
    obtain ⟨hl, hq⟩ := hentry e he
    obtain ⟨hl', hq'⟩ := hentry e' he'
    exact hinj _ _ _ _ hl hq hl' hq' heq
  rw [tally_ite, ← List.length_map (fun e => g e.1), ← List.toFinset_card_of_nodup hnodup]
  refine Int.ofNat_le.2 (Finset.card_le_card fun c hc => ?_)
  rw [List.mem_toFinset] at hc
  obtain ⟨e, he, rfl⟩ := List.mem_map.1 hc
  obtain ⟨hl, hq⟩ := hentry e he
  exact hmem _ _ hl hq

end Store
