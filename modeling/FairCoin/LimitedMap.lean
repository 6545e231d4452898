import FairCoin.Lib.Run
import FairCoin.Lib.Store

/-!
# The limited map

`limitedmap` of `src/limitedmap.h`, which `CNode::AskFor` keeps its request times in.

* `LimitedMap` — `map`, `rmap` and the bound; an iterator is the number of its node.
* `insert`, `erase`, `update`, `setMaxSize` — the member functions, with their crashes.
* `Mirrored` — the two containers hold the same entries, and `rmap` is in order.
* `Mirrored.insert_spec` — what an insertion does in each state.
* `limitedMap_iff` — **the map keeps its promise exactly while there is room for two**.
-/

namespace FairCoin

open Store

variable {K : Type} [DecidableEq K] {V : Type} [LinearOrder V]

/-! ## Member functions -/

/-- `limitedmap`.  An element of `map` stands in a node, and the number of the node is what an
iterator is; `nodes` have been made so far. -/
structure LimitedMap (K : Type) [DecidableEq K] (V : Type) where
  map : Map K (ℕ × V) := ∅
  rmap : List (V × ℕ) := []
  nMaxSize : ℕ := 0
  nodes : ℕ := 0

/-- What the functions cannot survive: the first element of an empty `rmap`, an iterator without its
element, and the assertion that is never reached. -/
inductive LimitedMapCrash where
  | emptyRmap
  | dangling
  | shouldntEverGetHere
  deriving DecidableEq, Repr

namespace LimitedMap

/-- `size()`. -/
def size (s : LimitedMap K V) : ℕ := s.map.entries.length

/-- `std::multimap::insert`: behind the entries of the same value. -/
def multiInsert (rmap : List (V × ℕ)) (x : V × ℕ) : List (V × ℕ) :=
  rmap.takeWhile (fun e => e.1 ≤ x.1) ++ x :: rmap.dropWhile fun e => e.1 ≤ x.1

/-- `std::multimap::equal_range`. -/
def equalRange (rmap : List (V × ℕ)) (v : V) : List (V × ℕ) := rmap.filter fun e => e.1 = v

/-- `map.erase(rmap.begin()->second); rmap.erase(rmap.begin());`. -/
def eraseBegin (s : LimitedMap K V) : Except LimitedMapCrash (LimitedMap K V) :=
  match s.rmap with
  | [] => .error .emptyRmap
  | (_, it) :: rmap =>
      match s.map.entries.find? fun e => e.2.1 = it with
      | none => .error .dangling
      | some e => .ok { s with map := s.map.erase e.1, rmap }

/-- `insert`. -/
def insert (s : LimitedMap K V) (k : K) (v : V) : Except LimitedMapCrash (LimitedMap K V) :=
  match s.map.lookup k with
  | some _ => .ok s
  | none =>
      let it := s.nodes
      let s := { s with map := s.map.insert k (it, v), nodes := it + 1 }
      (if s.nMaxSize ≠ 0 ∧ s.size = s.nMaxSize then s.eraseBegin else .ok s).map fun s =>
        { s with rmap := multiInsert s.rmap (v, it) }

/-- `erase`. -/
def erase (s : LimitedMap K V) (k : K) : Except LimitedMapCrash (LimitedMap K V) :=
  match s.map.lookup k with
  | none => .ok s
  | some (itTarget, value) =>
      match (equalRange s.rmap value).find? fun it => it.2 = itTarget with
      | none => .error .shouldntEverGetHere
      | some it => .ok { s with rmap := s.rmap.erase it, map := s.map.erase k }

/-- `update`, with the key that the iterator stands at. -/
def update (s : LimitedMap K V) (k : K) (v : V) : Except LimitedMapCrash (LimitedMap K V) :=
  match s.map.lookup k with
  | none => .ok s
  | some (itTarget, value) =>
      match (equalRange s.rmap value).find? fun it => it.2 = itTarget with
      | none => .error .shouldntEverGetHere
      | some it =>
          .ok { s with
            rmap := multiInsert (s.rmap.erase it) (v, itTarget)
            map := s.map.insert k (itTarget, v) }

/-- The loop of `max_size(s)`; it has no more turns than there are elements. -/
def shrink (n : ℕ) : ℕ → LimitedMap K V → Except LimitedMapCrash (LimitedMap K V)
  | 0, s => .ok s
  | turns + 1, s =>
      if n < s.size then do
        let s ← s.eraseBegin
        shrink n turns s
      else .ok s

/-- `max_size(s)`. -/
def setMaxSize (s : LimitedMap K V) (n : ℕ) : Except LimitedMapCrash (LimitedMap K V) := do
  let s ← if n ≠ 0 then shrink n s.size s else .ok s
  .ok { s with nMaxSize := n }

end LimitedMap

/-- A call of a member function that changes the map. -/
inductive LimitedMapCall (K : Type) (V : Type) where
  | insert (k : K) (v : V)
  | erase (k : K)
  | update (k : K) (v : V)
  | maxSize (n : ℕ)
  deriving DecidableEq, Repr

namespace LimitedMap

def step (s : LimitedMap K V) : LimitedMapCall K V → Except LimitedMapCrash (LimitedMap K V)
  | .insert k v => s.insert k v
  | .erase k => s.erase k
  | .update k v => s.update k v
  | .maxSize n => s.setMaxSize n

/-! ## The two containers -/

/-- The entries that `rmap` should hold. -/
def mirror (map : Map K (ℕ × V)) : List (V × ℕ) := map.entries.map fun e => (e.2.2, e.2.1)

/-- `rmap` holds exactly one entry for each entry of `map`, with its value, and is in order. -/
structure Mirrored (s : LimitedMap K V) : Prop where
  perm : s.rmap.Perm (mirror s.map)
  sorted : s.rmap.Pairwise fun a b => a.1 ≤ b.1
  nodup : (s.map.entries.map fun e => e.2.1).Nodup
  fresh : ∀ e ∈ s.map.entries, e.2.1 < s.nodes

variable {s : LimitedMap K V} {k : K} {v : V}

theorem multiInsert_perm (rmap : List (V × ℕ)) (x : V × ℕ) :
    (multiInsert rmap x).Perm (x :: rmap) := by
  refine List.perm_middle.trans ?_
  rw [List.takeWhile_append_dropWhile]

theorem multiInsert_sorted {rmap : List (V × ℕ)} (h : rmap.Pairwise fun a b => a.1 ≤ b.1)
    (x : V × ℕ) : (multiInsert rmap x).Pairwise fun a b => a.1 ≤ b.1 := by
  induction rmap with
  | nil => exact List.pairwise_singleton _ _
  | cons e rmap ih =>
    obtain ⟨he, hrmap⟩ := List.pairwise_cons.1 h
    unfold multiInsert
    by_cases hle : e.1 ≤ x.1
    · rw [List.takeWhile_cons_of_pos (by simpa using hle),
        List.dropWhile_cons_of_pos (by simpa using hle)]
      refine List.pairwise_cons.2 ⟨fun a ha => ?_, ih hrmap⟩
      rcases List.mem_cons.1 ((multiInsert_perm rmap x).mem_iff.1 ha) with rfl | ha
      · exact hle
      · exact he a ha
    · rw [List.takeWhile_cons_of_neg (by simpa using hle),
        List.dropWhile_cons_of_neg (by simpa using hle)]
      refine List.pairwise_cons.2 ⟨fun a ha => ?_, h⟩
      have hx := (lt_of_not_ge hle).le
      rcases List.mem_cons.1 ha with rfl | ha
      · exact hx
      · exact hx.trans (he a ha)

/-- The entry that a loop over an equal range looks for is there. -/
theorem Mirrored.find?_equalRange (h : s.Mirrored) {it : ℕ} (hk : s.map.lookup k = some (it, v)) :
    (equalRange s.rmap v).find? (fun e => e.2 = it) = some (v, it) := by
  have hmem : (v, it) ∈ s.rmap :=
    h.perm.mem_iff.2 (List.mem_map.2 ⟨⟨k, (it, v)⟩, AList.mem_lookup_iff.1 hk, rfl⟩)
  cases hfind : (equalRange s.rmap v).find? fun e => e.2 = it with
  | none =>
    have hnone := List.find?_eq_none.1 hfind (v, it)
      (List.mem_filter.2 ⟨hmem, decide_eq_true rfl⟩)
    exact absurd (decide_eq_true rfl) hnone
  | some e =>
    have hv := (List.mem_filter.1 (List.mem_of_find?_eq_some hfind)).2
    have hit := List.find?_some hfind
    exact congrArg some (Prod.ext (of_decide_eq_true hv) (of_decide_eq_true hit))

/-- An entry goes from both containers. -/
theorem Mirrored.remove (h : s.Mirrored) {it : ℕ} (hk : s.map.lookup k = some (it, v)) :
    Mirrored { s with map := s.map.erase k, rmap := s.rmap.erase (v, it) } := by
  have hentries := entries_perm_erase hk
  have hmirror : (mirror s.map).Perm ((v, it) :: mirror (s.map.erase k)) :=
    hentries.map fun e : (_ : K) × (ℕ × V) => (e.2.2, e.2.1)
  refine ⟨?_, h.sorted.sublist List.erase_sublist, ?_, fun e he => ?_⟩
  · have herase := (h.perm.trans hmirror).erase (v, it)
    rwa [List.erase_cons_head] at herase
  · exact (List.nodup_cons.1 ((hentries.map fun e => e.2.1).nodup_iff.1 h.nodup)).2
  · exact h.fresh e (hentries.mem_iff.2 (List.mem_cons_of_mem _ he))

/-- An entry comes into both containers, in a node that no other one stands in. -/
theorem Mirrored.add (h : s.Mirrored) {it : ℕ} (hk : s.map.lookup k = none)
    (hit : it ∉ s.map.entries.map fun e => e.2.1) {nodes : ℕ} (hlt : it < nodes)
    (hle : s.nodes ≤ nodes) :
    Mirrored
      { s with map := s.map.insert k (it, v), rmap := multiInsert s.rmap (v, it), nodes } := by
  have hentries := entries_insert_of_lookup_eq_none (it, v) hk
  refine ⟨?_, multiInsert_sorted h.sorted _, ?_, fun e he => ?_⟩
  · refine (multiInsert_perm _ _).trans ?_
    rw [mirror, hentries, List.map_cons]
    exact h.perm.cons _
  · rw [hentries, List.map_cons]
    exact List.nodup_cons.2 ⟨hit, h.nodup⟩
  · rw [hentries] at he
    rcases List.mem_cons.1 he with rfl | he
    · exact hlt
    · exact (h.fresh e he).trans_le hle

/-- The first entry of `rmap` is that of an element of least value. -/
theorem Mirrored.least (h : s.Mirrored) {it : ℕ} {rest : List (V × ℕ)}
    (hr : s.rmap = (v, it) :: rest) : ∃ k, s.map.lookup k = some (it, v) ∧
      ∀ e ∈ s.map.entries, v ≤ e.2.2 := by
  obtain ⟨⟨k, x⟩, hk, hx⟩ := List.mem_map.1 (h.perm.mem_iff.1 (by rw [hr]; simp) :
    (v, it) ∈ mirror s.map)
  cases hx
  refine ⟨k, AList.mem_lookup_iff.2 hk, fun e he => ?_⟩
  have hmem : (e.2.2, e.2.1) ∈ s.rmap := h.perm.mem_iff.2 (List.mem_map.2 ⟨e, he, rfl⟩)
  rw [hr] at hmem
  rcases List.mem_cons.1 hmem with heq | hmem
  · exact (congrArg Prod.fst heq).ge
  · have hsorted := h.sorted
    rw [hr] at hsorted
    exact (List.pairwise_cons.1 hsorted).1 _ hmem

/-- The element of an iterator is found. -/
theorem find?_node {map : Map K (ℕ × V)} (hnodup : (map.entries.map fun e => e.2.1).Nodup)
    {it : ℕ} (hk : map.lookup k = some (it, v)) :
    map.entries.find? (fun e => e.2.1 = it) = some ⟨k, (it, v)⟩ := by
  have hmem : (⟨k, (it, v)⟩ : (_ : K) × (ℕ × V)) ∈ map.entries := AList.mem_lookup_iff.1 hk
  cases hfind : map.entries.find? fun e => e.2.1 = it with
  | none => exact absurd (decide_eq_true rfl) (List.find?_eq_none.1 hfind _ hmem)
  | some e =>
    have hit : e.2.1 = it := by simpa using List.find?_some hfind
    rw [List.inj_on_of_nodup_map hnodup (List.mem_of_find?_eq_some hfind) hmem hit]

/-- What `rmap.begin()` stands for goes, if there is one. -/
theorem Mirrored.eraseBegin (h : s.Mirrored) (hsize : s.size ≠ 0) :
    ∃ k it v, s.map.lookup k = some (it, v) ∧ (∀ e ∈ s.map.entries, v ≤ e.2.2) ∧
      s.eraseBegin = .ok { s with map := s.map.erase k, rmap := s.rmap.erase (v, it) } := by
  cases hr : s.rmap with
  | nil =>
    have hlen := h.perm.length_eq
    rw [hr, mirror, List.length_map] at hlen
    exact absurd hlen.symm hsize
  | cons x rest =>
    obtain ⟨v, it⟩ := x
    obtain ⟨k, hk, hleast⟩ := h.least hr
    refine ⟨k, it, v, hk, hleast, ?_⟩
    rw [LimitedMap.eraseBegin, hr]
    simp only [find?_node h.nodup hk, List.erase_cons_head]

theorem size_erase {it : ℕ} (hk : s.map.lookup k = some (it, v)) (rmap : List (V × ℕ)) :
    size { s with map := s.map.erase k, rmap } + 1 = s.size :=
  (entries_perm_erase hk).length_eq.symm

/-! ## One call -/

/-- The entries, as a caller sees them. -/
def items (s : LimitedMap K V) : List (K × V) := s.map.entries.map fun e => (e.1, e.2.2)

theorem length_items (s : LimitedMap K V) : s.items.length = s.size := List.length_map _

/-- The state after an insertion that evicts nothing. -/
def inserted (s : LimitedMap K V) (k : K) (v : V) : LimitedMap K V :=
  { s with
    map := s.map.insert k (s.nodes, v), rmap := multiInsert s.rmap (v, s.nodes)
    nodes := s.nodes + 1 }

theorem Mirrored.of_inserted (h : s.Mirrored) (hk : s.map.lookup k = none) :
    Mirrored (s.inserted k v) := by
  refine h.add hk (fun hit => ?_) (Nat.lt_succ_self _) (Nat.le_succ _)
  obtain ⟨e, he, heq⟩ := List.mem_map.1 hit
  exact absurd (h.fresh e he) (heq ▸ lt_irrefl _)

theorem items_inserted (hk : s.map.lookup k = none) :
    (s.inserted k v).items = (k, v) :: s.items := by
  have hentries := entries_insert_of_lookup_eq_none (s.nodes, v) hk
  show (s.map.insert k (s.nodes, v)).entries.map _ = _
  rw [hentries]
  rfl

theorem items_erase {it : ℕ} (hk : s.map.lookup k = some (it, v)) {rmap : List (V × ℕ)} :
    s.items.Perm ((k, v) :: items { s with map := s.map.erase k, rmap }) :=
  (entries_perm_erase hk).map fun e : (_ : K) × (ℕ × V) => (e.1, e.2.2)

/-- **An insertion.**  It evicts where the new entry makes the bound full, and only there; if there
was nothing before, it is lost. -/
theorem Mirrored.insert_spec (h : s.Mirrored) (hk : s.map.lookup k = none) (v : V) :
    if s.nMaxSize ≠ 0 ∧ s.size + 1 = s.nMaxSize then
      if s.size = 0 then s.insert k v = .error .emptyRmap
      else ∃ k' it v', s.map.lookup k' = some (it, v') ∧ (∀ e ∈ s.map.entries, v' ≤ e.2.2) ∧
        s.insert k v = .ok
          (inserted { s with map := s.map.erase k', rmap := s.rmap.erase (v', it) } k v)
    else s.insert k v = .ok (s.inserted k v) := by
  have hentries := entries_insert_of_lookup_eq_none (s.nodes, v) hk
  have hlen : (s.map.insert k (s.nodes, v)).entries.length = s.size + 1 := by
    rw [hentries]
    rfl
  have hmir : Mirrored (s.inserted k v) := h.of_inserted hk
  have hins : s.insert k v = ((if s.nMaxSize ≠ 0 ∧ s.size + 1 = s.nMaxSize then
      LimitedMap.eraseBegin { s with map := s.map.insert k (s.nodes, v), nodes := s.nodes + 1 }
      else .ok { s with map := s.map.insert k (s.nodes, v), nodes := s.nodes + 1 }).map
        fun s₁ => { s₁ with rmap := multiInsert s₁.rmap (v, s.nodes) }) := by
    rw [LimitedMap.insert, hk]
    simp only [size, hlen]
    rfl
  rw [hins]
  split
  · split
    · next h0 =>
      have hr : s.rmap = [] := by
        have hlen := h.perm.length_eq
        rw [mirror, List.length_map] at hlen
        exact List.length_eq_zero_iff.1 (hlen.trans h0)
      rw [LimitedMap.eraseBegin, hr]
      rfl
    · next h0 =>
      cases hr : s.rmap with
      | nil =>
        have hlen := h.perm.length_eq
        rw [hr, mirror, List.length_map] at hlen
        exact absurd hlen.symm h0
      | cons x rest =>
        obtain ⟨v', it⟩ := x
        obtain ⟨k', hk', hleast⟩ := h.least hr
        have hne : k' ≠ k := by
          rintro rfl
          rw [hk] at hk'
          cases hk'
        have hfind : (s.map.insert k (s.nodes, v)).entries.find? (fun e => e.2.1 = it) =
            some ⟨k', (it, v')⟩ :=
          find?_node hmir.nodup ((AList.lookup_insert_ne hne).trans hk')
        have hcomm : (s.map.insert k (s.nodes, v)).erase k' =
            (s.map.erase k').insert k (s.nodes, v) := by
          refine AList.ext ?_
          show List.kerase k' (s.map.insert k (s.nodes, v)).entries =
            List.kinsert k (s.nodes, v) (List.kerase k' s.map.entries)
          have hnot : k ∉ (List.kerase k' s.map.entries).keys := fun hmem =>
            AList.lookup_eq_none.1 hk (List.mem_keys_of_mem_keys_kerase hmem)
          rw [hentries, List.kerase_cons_ne hne, List.kinsert_def, List.kerase_of_notMem_keys hnot]
        refine ⟨k', it, v', hk', hleast, ?_⟩
        simp only [LimitedMap.eraseBegin, hfind, hcomm, List.erase_cons_head]
        rfl
  · rfl

theorem Mirrored.erase_spec (h : s.Mirrored) {it : ℕ} (hk : s.map.lookup k = some (it, v)) :
    s.erase k = .ok { s with map := s.map.erase k, rmap := s.rmap.erase (v, it) } := by
  rw [LimitedMap.erase, hk]
  simp only [h.find?_equalRange hk]

theorem Mirrored.update_spec (h : s.Mirrored) {it : ℕ} {old : V}
    (hk : s.map.lookup k = some (it, old)) (v : V) : ∃ s', s.update k v = .ok s' ∧ s'.Mirrored ∧
      s'.size = s.size ∧ s'.nMaxSize = s.nMaxSize := by
  have hrem := h.remove hk
  have hnone : (s.map.erase k).lookup k = none := AList.lookup_erase _ _
  have hmap : s.map.insert k (it, v) = (s.map.erase k).insert k (it, v) := by
    refine AList.ext ?_
    rw [entries_insert_of_lookup_eq_none _ hnone]
    exact List.kinsert_def
  have hit : it ∉ (s.map.erase k).entries.map fun e => e.2.1 :=
    (List.nodup_cons.1
      (((entries_perm_erase hk).map fun e => e.2.1).nodup_iff.1 h.nodup)).1
  have hlt : it < s.nodes := h.fresh _ (AList.mem_lookup_iff.1 hk)
  refine ⟨_, ?_, hrem.add (v := v) hnone hit hlt le_rfl, ?_, rfl⟩
  · rw [LimitedMap.update, hk]
    simp only [h.find?_equalRange hk, hmap]
  · rw [← size_erase hk s.rmap, size, entries_insert_of_lookup_eq_none _ hnone]
    rfl

/-- The loop of `max_size` ends, within the bound. -/
theorem Mirrored.shrink (n : ℕ) : ∀ (turns : ℕ) {s : LimitedMap K V}, s.Mirrored →
    s.size ≤ turns + n →
      ∃ s', LimitedMap.shrink n turns s = .ok s' ∧ s'.Mirrored ∧ s'.size ≤ n := by
  intro turns
  induction turns with
  | zero =>
    intro s h hsize
    exact ⟨s, rfl, h, by omega⟩
  | succ turns ih =>
    intro s h hsize
    rw [LimitedMap.shrink]
    split
    · obtain ⟨k, it, v, hk, -, hbegin⟩ := h.eraseBegin (by omega)
      have hsmall := size_erase hk (s.rmap.erase (v, it))
      rw [hbegin]
      exact ih (h.remove hk) (by omega)
    · exact ⟨s, rfl, h, by omega⟩

/-! ## Runs -/

/-- The size is within the bound. -/
def Bounded (s : LimitedMap K V) : Prop := s.nMaxSize ≠ 0 → s.size ≤ s.nMaxSize

/-- What an insertion of a new key should do: evict nothing while there is room, and else one entry
of least value. -/
def Promise (s s' : LimitedMap K V) : LimitedMapCall K V → Prop
  | .insert k v => s.map.lookup k = none →
      if s.nMaxSize = 0 ∨ s.size < s.nMaxSize then s'.items.Perm ((k, v) :: s.items)
      else ∃ e rest, s.items.Perm (e :: rest) ∧ (∀ e' ∈ s.items, e.2 ≤ e'.2) ∧
        s'.items.Perm ((k, v) :: rest)
  | _ => True

/-- A call that leaves the containers mirrored and within the bound, and keeps the promise. -/
structure Kept (s : LimitedMap K V) (call : LimitedMapCall K V) (s' : LimitedMap K V) : Prop where
  mirrored : s'.Mirrored
  bounded : s'.Bounded
  promise : Promise s s' call

/-- There is room for a new entry and one more. -/
def Roomy (s : LimitedMap K V) : LimitedMapCall K V → Prop
  | .insert k _ => s.map.lookup k = none → s.nMaxSize ≠ 0 → s.size + 1 < s.nMaxSize
  | _ => True

/-- A call keeps everything if and only if there is room. -/
theorem Mirrored.kept_iff (h : s.Mirrored) (hbound : s.Bounded) (call : LimitedMapCall K V) :
    (∃ s', s.step call = .ok s' ∧ Kept s call s') ↔ Roomy s call := by
  cases call with
  | insert k v =>
    cases hk : s.map.lookup k with
    | some x =>
      have hins : s.insert k v = .ok s := by rw [LimitedMap.insert, hk]
      refine ⟨fun _ hnone => ?_, fun _ => ⟨s, hins, h, hbound, fun hnone => ?_⟩⟩ <;>
      · rw [hk] at hnone
        cases hnone
    | none =>
      have hspec := h.insert_spec hk v
      have hitems := items_inserted (v := v) hk
      have hlen : (s.inserted k v).size = s.size + 1 := by
        rw [← length_items, hitems, List.length_cons, length_items]
      constructor
      · rintro ⟨s', hs', hkept⟩ - hmax
        have hprom := hkept.promise hk
        by_contra hroom
        split at hspec
        · next hfull =>
          rw [if_pos (.inr (by omega))] at hprom
          have hcount := hprom.length_eq
          rw [List.length_cons, length_items, length_items] at hcount
          split at hspec
          · exact absurd (hspec.symm.trans hs') (by simp)
          · obtain ⟨k', it, v', hk', -, hins⟩ := hspec
            cases hins.symm.trans hs'
            have hnone : (s.map.erase k').lookup k = none := by
              rw [lookup_erase_eq, hk, ite_self]
            have hsize := size_erase hk' (s.rmap.erase (v', it))
            rw [← length_items, items_inserted hnone, List.length_cons, length_items] at hcount
            omega
        · next hfull =>
          cases hspec.symm.trans hs'
          rw [if_neg (by omega)] at hprom
          obtain ⟨e, rest, hperm, -, hperm'⟩ := hprom
          have h₁ := hperm.length_eq
          have h₂ := hperm'.length_eq
          rw [List.length_cons, length_items] at h₁ h₂
          omega
      · intro hroom
        have hroom := hroom hk
        rw [if_neg (by omega)] at hspec
        refine ⟨_, hspec, h.of_inserted hk, fun hmax => ?_, fun _ => ?_⟩
        · have := hroom hmax
          show (s.inserted k v).size ≤ s.nMaxSize
          omega
        · rw [if_pos (by omega), hitems]
  | erase k =>
    refine ⟨fun _ => trivial, fun _ => ?_⟩
    cases hk : s.map.lookup k with
    | none => exact ⟨s, by rw [step, LimitedMap.erase, hk], h, hbound, trivial⟩
    | some x =>
      refine ⟨_, h.erase_spec hk, h.remove hk, fun hmax => ?_, trivial⟩
      have hsize := size_erase hk (s.rmap.erase (x.2, x.1))
      exact (Nat.le_of_lt (by omega)).trans (hbound hmax)
  | update k v =>
    refine ⟨fun _ => trivial, fun _ => ?_⟩
    cases hk : s.map.lookup k with
    | none => exact ⟨s, by rw [step, LimitedMap.update, hk], h, hbound, trivial⟩
    | some x =>
      obtain ⟨s', hs', hmir, hsize, hmax⟩ := h.update_spec hk v
      refine ⟨s', hs', hmir, fun hne => ?_, trivial⟩
      rw [hsize, hmax]
      exact hbound (hmax ▸ hne)
  | maxSize n =>
    refine ⟨fun _ => trivial, fun _ => ?_⟩
    by_cases hn : n = 0
    · refine ⟨{ s with nMaxSize := n }, ?_, ⟨h.perm, h.sorted, h.nodup, h.fresh⟩,
        fun hne => absurd hn hne, trivial⟩
      rw [step, setMaxSize, if_neg (not_not.2 hn)]
      rfl
    · obtain ⟨s', hs', hmir, hsize⟩ := h.shrink n s.size (Nat.le_add_right _ _)
      refine ⟨{ s' with nMaxSize := n }, ?_, ⟨hmir.perm, hmir.sorted, hmir.nodup, hmir.fresh⟩,
        fun _ => hsize, trivial⟩
      rw [step, setMaxSize, if_pos hn, hs']
      rfl

/-- Over a whole run: every call keeps everything if and only if there is room in each. -/
theorem Mirrored.run_iff {calls : List (LimitedMapCall K V)} : ∀ {s : LimitedMap K V},
    s.Mirrored → s.Bounded →
      ((∀ pre call, pre ++ [call] <+: calls → ∃ s₁ s₂, Run.run LimitedMap.step s pre = .ok s₁ ∧
        LimitedMap.step s₁ call = .ok s₂ ∧ Kept s₁ call s₂) ↔
      Run.Along LimitedMap.step Roomy s calls) := by
  induction calls with
  | nil =>
    intro s _ _
    refine ⟨fun _ => trivial, fun _ pre call hpre => ?_⟩
    exact absurd (List.prefix_nil.1 hpre) (by simp)
  | cons call calls ih =>
    intro s h hbound
    constructor
    · intro hall
      obtain ⟨s₁, s₂, hrun, hs₂, hkept⟩ := hall [] call (List.prefix_append [call] calls)
      cases hrun
      refine ⟨(h.kept_iff hbound call).1 ⟨s₂, hs₂, hkept⟩, fun s' hs' => ?_⟩
      cases hs₂.symm.trans hs'
      refine (ih hkept.mirrored hkept.bounded).1 fun pre call' hpre => ?_
      obtain ⟨s₃, s₄, hrun, hrest⟩ := hall (call :: pre) call' (List.cons_prefix_cons.2 ⟨rfl, hpre⟩)
      rw [Run.run, hs₂] at hrun
      exact ⟨s₃, s₄, hrun, hrest⟩
    · rintro ⟨hroom, hrest⟩ pre call' hpre
      obtain ⟨s₂, hs₂, hkept⟩ := (h.kept_iff hbound call).2 hroom
      cases pre with
      | nil =>
        obtain ⟨rfl, -⟩ := List.cons_prefix_cons.1 hpre
        exact ⟨s, s₂, rfl, hs₂, hkept⟩
      | cons a pre =>
        obtain ⟨rfl, hpre'⟩ := List.cons_prefix_cons.1 hpre
        obtain ⟨s₃, s₄, hrun, hfinal⟩ :=
          (ih hkept.mirrored hkept.bounded).2 (hrest s₂ hs₂) pre call' hpre'
        exact ⟨s₃, s₄, Run.run_cons hs₂ hrun, hfinal⟩

theorem Mirrored.start (n : ℕ) : Mirrored ({ nMaxSize := n } : LimitedMap K V) :=
  ⟨List.Perm.refl _, List.Pairwise.nil, List.nodup_nil, fun e he => by cases he⟩

end LimitedMap

/-- **The bound is one too small, and not kept behind it.**  From an empty map of any bound, every
call of a sequence keeps the two containers mirrored and within the bound, and evicts as promised,
if and only if every new key comes while there is room for it and one more. -/
theorem limitedMap_iff (n : ℕ) (calls : List (LimitedMapCall K V)) :
    (∀ pre call, pre ++ [call] <+: calls → ∃ s s',
        Run.run LimitedMap.step { nMaxSize := n } pre = .ok s ∧ LimitedMap.step s call = .ok s' ∧
          LimitedMap.Kept s call s') ↔
      Run.Along LimitedMap.step LimitedMap.Roomy { nMaxSize := n } calls :=
  (LimitedMap.Mirrored.start n).run_iff fun _ => Nat.zero_le _

/-- Two entries into a map of two: the first one goes, though one place was free. -/
theorem limitedMap_evictsEarly : ¬∀ (n : ℕ) (calls : List (LimitedMapCall ℕ ℤ)), 1 ≤ n →
    ∀ pre call, pre ++ [call] <+: calls → ∃ s s',
      Run.run LimitedMap.step { nMaxSize := n } pre = .ok s ∧ LimitedMap.step s call = .ok s' ∧
        LimitedMap.Kept s call s' := by
  intro h
  obtain ⟨s, s', hs, hs', hkept⟩ := h 2 [.insert 1 10, .insert 2 20] (by decide) [.insert 1 10]
    (.insert 2 20) (List.prefix_refl _)
  cases hs
  cases hs'
  have hprom := hkept.promise (by decide)
  rw [if_pos (by decide)] at hprom
  exact absurd hprom.length_eq (by decide)

/-- The only element of a map of one would be evicted before it is there. -/
example : (LimitedMap.step ({ nMaxSize := 1 } : LimitedMap ℕ ℤ) (.insert 1 10)).isOk = false := by
  decide

end FairCoin
