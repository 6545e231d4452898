import Mathlib

/-!
# Keyed stores and batches of writes

A store is a finite map, kept as an association list with distinct keys.  Two ways
of writing to it many entries at once, beside the insertion of a key that is not there yet
(`insertNew`):

* `mergeAll` — fold a step that may fail and that touches one key over the entries of
  another store, as a cache does when it is flushed into its parent.
  `lookup_mergeAll` says the result is the pointwise merge.
* `applyBatch` — apply a list of puts and deletes in order, as a database does with a
  write batch.  `lookup_applyBatch_eq_of_forall_ne` and
  `lookup_applyBatch_concat` read a store through the last write of a key.
-/

namespace Store

universe u v w

variable {K : Type u} [DecidableEq K] {V : Type v} {E : Type w}

/-- A finite map from keys to values. -/
abbrev Map (K : Type u) (V : Type v) := AList fun _ : K => V

theorem lookup_insert_eq (s : Map K V) (k t : K) (x : V) :
    (s.insert k x).lookup t = if t = k then some x else s.lookup t := by
  by_cases h : t = k
  · subst h
    rw [if_pos rfl, AList.lookup_insert]
  · rw [if_neg h, AList.lookup_insert_ne h]

theorem lookup_erase_eq (s : Map K V) (k t : K) :
    (s.erase k).lookup t = if t = k then none else s.lookup t := by
  by_cases h : t = k
  · subst h
    rw [if_pos rfl, AList.lookup_erase]
  · rw [if_neg h, AList.lookup_erase_ne h]

theorem entries_insert_of_lookup_eq_none {s : Map K V} {k : K} (x : V) (h : s.lookup k = none) :
    (s.insert k x).entries = ⟨k, x⟩ :: s.entries := by
  change List.kinsert k x s.entries = _
  rw [List.kinsert_def, List.kerase_of_notMem_keys (AList.lookup_eq_none.1 h)]

theorem entries_perm_erase {s : Map K V} {k : K} {x : V} (h : s.lookup k = some x) :
    s.entries.Perm (⟨k, x⟩ :: (s.erase k).entries) := by
  have hkeys : k ∈ s.entries.keys := AList.lookup_isSome.1 (by rw [h]; rfl)
  obtain ⟨y, l₁, l₂, -, hl, herase⟩ := List.exists_of_kerase hkeys
  have hxy : x = y := by
    have hy : (⟨k, y⟩ : (_ : K) × V) ∈ s.entries := by
      rw [hl]
      simp
    exact Option.some.inj (h.symm.trans (AList.mem_lookup_iff.2 hy))
  have hentries : (s.erase k).entries = l₁ ++ l₂ := herase
  rw [hentries, hl, hxy]
  exact List.perm_middle

/-- A store that holds the entries of another which pass a test has those entries. -/
theorem entries_perm_filter {s s' : Map K V} {p : (_ : K) × V → Bool}
    (h : ∀ k x, s'.lookup k = some x ↔ s.lookup k = some x ∧ p ⟨k, x⟩ = true) :
    s'.entries.Perm (s.entries.filter p) := by
  have hnodup : (s.entries.filter p).NodupKeys :=
    List.nodupKeys_iff_pairwise.2
      ((List.nodupKeys_iff_pairwise.1 s.nodupKeys).sublist List.filter_sublist)
  refine List.lookup_ext s'.nodupKeys hnodup fun k x => ?_
  rw [List.mem_dlookup_iff hnodup, List.mem_filter, ← AList.mem_lookup_iff]
  exact h k x

/-- Insert a key that is not there yet; an existing entry stays as it is. -/
def insertNew (s : Map K V) (k : K) (x : V) : Map K V :=
  if (s.lookup k).isSome then s else s.insert k x

theorem lookup_insertNew (s : Map K V) (k t : K) (x : V) :
    (insertNew s k x).lookup t = if t = k then some ((s.lookup k).getD x) else s.lookup t := by
  rw [insertNew]
  cases h : s.lookup k with
  | none =>
    rw [if_neg (by simp), lookup_insert_eq]
    rfl
  | some y =>
    rw [if_pos (by simp)]
    by_cases ht : t = k
    · rw [if_pos ht, ht, h]
      rfl
    · rw [if_neg ht]

theorem lookup_insertNew_cases {s : Map K V} {k t : K} {x y : V}
    (h : (insertNew s k x).lookup t = some y) :
    s.lookup t = some y ∨ (s.lookup t = none ∧ t = k ∧ y = x) := by
  rw [lookup_insertNew] at h
  split at h
  · next ht =>
    rw [ht]
    cases hk : s.lookup k with
    | none =>
      rw [hk] at h
      exact .inr ⟨rfl, rfl, (Option.some.inj h).symm⟩
    | some z =>
      rw [hk] at h
      exact .inl h
  · exact .inl h

theorem lookup_insertNew_of_lookup {s : Map K V} {k t : K} {y : V} (x : V)
    (h : s.lookup t = some y) : (insertNew s k x).lookup t = some y := by
  rw [lookup_insertNew]
  split
  · next ht =>
    rw [← ht, h]
    rfl
  · exact h

theorem isSome_lookup_insertNew (s : Map K V) (k : K) (x : V) :
    ((insertNew s k x).lookup k).isSome = true := by
  rw [lookup_insertNew, if_pos rfl]
  rfl

/-- Erasing keys one after the other leaves the entries of the other keys. -/
theorem lookup_foldl_erase {A : Type w} (key : A → K) (as : List A) (m : Map K V) (k : K) (x : V) :
    (as.foldl (fun m a => m.erase (key a)) m).lookup k = some x ↔
      m.lookup k = some x ∧ k ∉ as.map key := by
  induction as generalizing m with
  | nil => simp
  | cons a as ih =>
    rw [List.foldl_cons, ih, lookup_erase_eq]
    by_cases hk : k = key a
    · simp [hk]
    · simp [hk]

/-! ## Walking a store in key order -/

/-- The entries of a map in the order of its keys, as a `std::map` is walked. -/
def sortedEntries (le : K → K → Bool) (m : Map K V) : List (K × V) :=
  (m.entries.map fun e => (e.1, e.2)).mergeSort fun a b => le a.1 b.1

/-- A map from its entries, inserted one after the other. -/
def mapOfEntries (es : List (K × V)) : Map K V :=
  es.foldl (fun m e => insertNew m e.1 e.2) ∅

theorem lookup_foldl_insertNew (es : List (K × V)) (m : Map K V) (k : K)
    (x : V) (hnodup : (es.map Prod.fst).Nodup) (hm : ∀ e ∈ es, m.lookup e.1 = none) :
    (es.foldl (fun m e => insertNew m e.1 e.2) m).lookup k = some x ↔
      m.lookup k = some x ∨ (k, x) ∈ es := by
  induction es generalizing m with
  | nil => simp
  | cons e es ih =>
    rw [List.map_cons, List.nodup_cons] at hnodup
    have hne : ∀ e' ∈ es, e'.1 ≠ e.1 :=
      fun e' he' h => hnodup.1 (h ▸ List.mem_map_of_mem he')
    have hl : ∀ t, (insertNew m e.1 e.2).lookup t = if t = e.1 then some e.2 else m.lookup t := by
      intro t
      rw [lookup_insertNew, hm e (by simp)]
      rfl
    have hrest : ∀ e' ∈ es, (insertNew m e.1 e.2).lookup e'.1 = none := by
      intro e' he'
      rw [hl, if_neg (hne e' he')]
      exact hm e' (by simp [he'])
    rw [List.foldl_cons, ih _ hnodup.2 hrest, hl, List.mem_cons]
    by_cases hk : k = e.1
    · subst hk
      rw [if_pos rfl, hm e (by simp)]
      simp [Prod.ext_iff, eq_comm]
    · rw [if_neg hk]
      simp [Prod.ext_iff, hk]

omit [DecidableEq K] in
theorem sortedEntries_perm (le : K → K → Bool) (m : Map K V) :
    (sortedEntries le m).Perm (m.entries.map fun e => (e.1, e.2)) := List.mergeSort_perm _ _

omit [DecidableEq K] in
theorem sortedEntries_nodup (le : K → K → Bool) (m : Map K V) :
    ((sortedEntries le m).map Prod.fst).Nodup := by
  refine ((sortedEntries_perm le m).map Prod.fst).nodup_iff.2 ?_
  rw [List.map_map]
  exact m.nodupKeys

/-- Writing the entries of a map in order and inserting them again gives the map back. -/
theorem lookup_mapOfEntries_sortedEntries (le : K → K → Bool)
    (m : Map K V) (k : K) : (mapOfEntries (sortedEntries le m)).lookup k = m.lookup k := by
  refine Option.ext fun x => ?_
  rw [mapOfEntries, ← Option.mem_def, Option.mem_def,
    lookup_foldl_insertNew _ ∅ k x (sortedEntries_nodup le m) (fun _ _ => rfl),
    (sortedEntries_perm le m).mem_iff]
  constructor
  · rintro (h | h)
    · exact absurd h (by simp)
    · obtain ⟨e, he, heq⟩ := List.mem_map.1 h
      cases heq
      exact AList.mem_lookup_iff.2 he
  · intro h
    exact .inr (List.mem_map.2 ⟨⟨k, x⟩, AList.mem_lookup_iff.1 h, rfl⟩)

omit [DecidableEq K] in
theorem length_sortedEntries (le : K → K → Bool) (m : Map K V) :
    (sortedEntries le m).length = m.entries.length := by
  rw [sortedEntries, List.length_mergeSort, List.length_map]

theorem mem_sortedEntries_iff {le : K → K → Bool} {m : Map K V} {e : K × V} :
    e ∈ sortedEntries le m ↔ m.lookup e.1 = some e.2 := by
  rw [sortedEntries, List.mem_mergeSort, List.mem_map]
  constructor
  · rintro ⟨e', he', rfl⟩
    exact AList.mem_lookup_iff.2 he'
  · intro h
    exact ⟨⟨e.1, e.2⟩, AList.mem_lookup_iff.1 h, rfl⟩

theorem mem_sortedEntries {le : K → K → Bool} {m : Map K V} {e : K × V}
    (he : e ∈ sortedEntries le m) : m.lookup e.1 = some e.2 := mem_sortedEntries_iff.1 he

/-- Maps with the same content are walked alike. -/
theorem sortedEntries_congr {le : K → K → Bool} (htrans : ∀ a b c, le a b → le b c → le a c)
    (htotal : ∀ a b, (le a b || le b a) = true) (hantisymm : ∀ a b, le a b → le b a → a = b)
    {m m' : Map K V} (h : ∀ k, m.lookup k = m'.lookup k) :
    sortedEntries le m = sortedEntries le m' := by
  have hperm : (sortedEntries le m).Perm (sortedEntries le m') := by
    refine (List.perm_ext_iff_of_nodup (sortedEntries_nodup le m).of_map
      (sortedEntries_nodup le m').of_map).2 fun e => ?_
    rw [mem_sortedEntries_iff, mem_sortedEntries_iff, h]
  have hsorted : ∀ m : Map K V, (sortedEntries le m).Pairwise fun a b => le a.1 b.1 = true :=
    fun m => List.pairwise_mergeSort (fun a b c => htrans a.1 b.1 c.1)
      (fun a b => htotal a.1 b.1) _
  refine hperm.eq_of_pairwise (fun a b ha hb hab hba => ?_) (hsorted m) (hsorted m')
  have hkey := hantisymm a.1 b.1 hab hba
  have ha := mem_sortedEntries_iff.1 ha
  have hb := mem_sortedEntries_iff.1 hb
  rw [hkey, h, hb] at ha
  exact Prod.ext hkey (Option.some.inj ha).symm

/-- Walking a store meets each key once. -/
theorem filter_sortedEntries (le : K → K → Bool) (m : Map K V) (k : K) :
    ((sortedEntries le m).filter fun e => e.1 = k) = ((m.lookup k).map fun x => (k, x)).toList := by
  have hmem : ∀ x, (k, x) ∈ (sortedEntries le m).filter (fun e => e.1 = k) ↔
      m.lookup k = some x := by
    intro x
    rw [List.mem_filter, mem_sortedEntries_iff]
    simp
  have hkey : ∀ e ∈ (sortedEntries le m).filter (fun e => e.1 = k), e.1 = k := by
    intro e he
    simpa using (List.mem_filter.1 he).2
  have hsub : (((sortedEntries le m).filter fun e => e.1 = k).map Prod.fst).Nodup :=
    (sortedEntries_nodup le m).sublist (List.filter_sublist.map _)
  generalize (sortedEntries le m).filter (fun e => e.1 = k) = l at hmem hkey hsub ⊢
  match l with
  | [] =>
    cases h : m.lookup k with
    | none => rfl
    | some x => exact absurd ((hmem x).2 h) (by simp)
  | [e] =>
    obtain ⟨k', x⟩ := e
    obtain rfl : k' = k := hkey (k', x) (by simp)
    rw [(hmem x).1 (by simp)]
    rfl
  | e :: e' :: l =>
    have h₁ := hkey e (by simp)
    have h₂ := hkey e' (by simp)
    simp [h₁, h₂] at hsub

/-! ## Merging one store into another -/

/-- Fold `step` over the entries of `child`, starting from `parent`. -/
def mergeAll (step : Map K V → K → E → Option (Map K V)) (child : Map K E) (parent : Map K V) :
    Option (Map K V) :=
  child.entries.foldlM (fun s p => step s p.1 p.2) parent

theorem lookup_foldlM {step : Map K V → K → E → Option (Map K V)}
    {ok : K → E → Option V → Prop} {merge : E → Option V → Option V}
    (hstep : ∀ s k e, ok k e (s.lookup k) → ∃ s', step s k e = some s' ∧
      ∀ t, s'.lookup t = if t = k then merge e (s.lookup k) else s.lookup t)
    (es : List (Sigma fun _ : K => E)) (hes : es.NodupKeys) (s : Map K V)
    (hok : ∀ k e, es.dlookup k = some e → ok k e (s.lookup k)) :
    ∃ s', es.foldlM (fun s p => step s p.1 p.2) s = some s' ∧
      ∀ t, s'.lookup t = match es.dlookup t with
        | none => s.lookup t
        | some e => merge e (s.lookup t) := by
  induction es generalizing s with
  | nil => exact ⟨s, rfl, fun t => rfl⟩
  | cons p es ih =>
    obtain ⟨k, e⟩ := p
    obtain ⟨hk, hes'⟩ := List.nodupKeys_cons.1 hes
    have hnone : es.dlookup k = none := List.dlookup_eq_none.2 hk
    obtain ⟨s', hs', hl⟩ := hstep s k e (hok k e (List.dlookup_cons_eq es k e))
    have hok' : ∀ k' e', es.dlookup k' = some e' → ok k' e' (s'.lookup k') := by
      intro k' e' h'
      have hne : k' ≠ k := by
        rintro rfl
        rw [hnone] at h'
        exact absurd h' (by simp)
      rw [hl, if_neg hne]
      exact hok k' e' (by rw [List.dlookup_cons_ne es ⟨k, e⟩ hne]; exact h')
    obtain ⟨s'', hs'', hl'⟩ := ih hes' s' hok'
    refine ⟨s'', by rw [List.foldlM_cons, hs']; exact hs'', fun t => ?_⟩
    rw [hl' t]
    by_cases ht : t = k
    · subst ht
      rw [hnone, List.dlookup_cons_eq]
      simp only
      rw [hl, if_pos rfl]
    · rw [List.dlookup_cons_ne es ⟨k, e⟩ ht, hl, if_neg ht]

/-- **Merging is pointwise.**  When every step succeeds and changes its own key only,
the whole fold succeeds, and each key is merged with what the parent had there. -/
theorem lookup_mergeAll {step : Map K V → K → E → Option (Map K V)}
    (ok : K → E → Option V → Prop) {merge : E → Option V → Option V}
    (hstep : ∀ s k e, ok k e (s.lookup k) → ∃ s', step s k e = some s' ∧
      ∀ t, s'.lookup t = if t = k then merge e (s.lookup k) else s.lookup t)
    (child : Map K E) (parent : Map K V)
    (hok : ∀ k e, child.lookup k = some e → ok k e (parent.lookup k)) :
    ∃ s', mergeAll step child parent = some s' ∧
      ∀ t, s'.lookup t = match child.lookup t with
        | none => parent.lookup t
        | some e => merge e (parent.lookup t) :=
  lookup_foldlM hstep child.entries child.nodupKeys parent hok

/-! ## Batches of puts and deletes -/

/-- One write: put a value, or delete the key. -/
def applyWrite (s : Map K V) : K × Option V → Map K V
  | (k, some x) => s.insert k x
  | (k, none) => s.erase k

/-- Apply the writes in order. -/
def applyBatch (s : Map K V) (ws : List (K × Option V)) : Map K V := ws.foldl applyWrite s

theorem lookup_applyWrite (s : Map K V) (w : K × Option V) (t : K) :
    (applyWrite s w).lookup t = if t = w.1 then w.2 else s.lookup t := by
  obtain ⟨k, _ | x⟩ := w
  · exact lookup_erase_eq s k t
  · exact lookup_insert_eq s k t x

@[simp] theorem applyBatch_nil (s : Map K V) : applyBatch s [] = s := rfl

theorem applyBatch_append (s : Map K V) (ws ws' : List (K × Option V)) :
    applyBatch s (ws ++ ws') = applyBatch (applyBatch s ws) ws' := List.foldl_append ..

/-- A key that no write names keeps its value. -/
theorem lookup_applyBatch_eq_of_forall_ne {s : Map K V} {ws : List (K × Option V)} {t : K}
    (h : ∀ w ∈ ws, w.1 ≠ t) : (applyBatch s ws).lookup t = s.lookup t := by
  induction ws generalizing s with
  | nil => rfl
  | cons w ws ih =>
    have hw : t ≠ w.1 := Ne.symm (h w (by simp))
    rw [applyBatch, List.foldl_cons]
    refine (ih fun w' hw' => h w' (by simp [hw'])).trans ?_
    rw [lookup_applyWrite, if_neg hw]

/-- The last write of a key decides its value. -/
theorem lookup_applyBatch_concat (s : Map K V) (ws : List (K × Option V)) (w : K × Option V)
    (t : K) : (applyBatch s (ws ++ [w])).lookup t =
      if t = w.1 then w.2 else (applyBatch s ws).lookup t := by
  rw [applyBatch_append]
  exact lookup_applyWrite _ w t

end Store
