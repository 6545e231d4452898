import FairCoin.Lib.Inverted
import FairCoin.Lib.Run
import FairCoin.Primitives

/-!
# Orphan transactions

`mapOrphanTransactions` and `mapOrphanTransactionsByPrev` of `src/main.cpp`.

* `addOrphanTx`, `eraseOrphanTx`, `eraseOrphansFor`, `limitOrphanTxSize` — the four functions.
* `Mirrored` — the second map lists, under every previous transaction, the orphans that spend it.
* `Mirrored.eraseOrphansFor` — all orphans of a peer go, and only those.
* `limitOrphanTxSize_spec` — the random eviction ends within the bound.
* `orphanMaps_consistent` — **all of it, after any sequence of calls**.
-/

namespace FairCoin

open Store Inverted

/-! ## The functions -/

/-- `COrphanTx`. -/
structure COrphanTx where
  tx : CTransaction
  fromPeer : ℤ
  deriving DecidableEq, Repr

/-- The two maps. -/
structure OrphanMaps where
  mapOrphanTransactions : Map UInt256 COrphanTx := ∅
  mapOrphanTransactionsByPrev : Map UInt256 (Finset UInt256) := ∅

namespace OrphanMaps

/-- `AddOrphanTx`. -/
def addOrphanTx (s : OrphanMaps) (tx : CTransaction) (peer : ℤ) : Bool × OrphanMaps :=
  let hash := tx.hash
  if (s.mapOrphanTransactions.lookup hash).isSome then (false, s)
  else if tx.serializeSize % 2 ^ 32 > 5000 then (false, s)
  else
    (true,
      { mapOrphanTransactions := s.mapOrphanTransactions.insert hash { tx, fromPeer := peer }
        mapOrphanTransactionsByPrev := tx.vin.foldl (fun byPrev txin =>
          byPrev.insert txin.prevout.hash (insert hash (under byPrev txin.prevout.hash)))
          s.mapOrphanTransactionsByPrev })

/-- `EraseOrphanTx`. -/
def eraseOrphanTx (s : OrphanMaps) (hash : UInt256) : OrphanMaps :=
  match s.mapOrphanTransactions.lookup hash with
  | none => s
  | some it =>
      { mapOrphanTransactions := s.mapOrphanTransactions.erase hash
        mapOrphanTransactionsByPrev := it.tx.vin.foldl (fun byPrev txin =>
          match byPrev.lookup txin.prevout.hash with
          | none => byPrev
          | some itPrev =>
              if itPrev.erase hash = ∅ then byPrev.erase txin.prevout.hash
              else byPrev.insert txin.prevout.hash (itPrev.erase hash))
          s.mapOrphanTransactionsByPrev }

/-- The order of `mapOrphanTransactions`. -/
def hashLe (a b : UInt256) : Bool := decide (a ≤ b)

/-- The loop of `EraseOrphansFor`, over the keys that the iterator comes to; `none` where the entry
it stands at is gone. -/
def eraseOrphansForLoop (peer : ℤ) : List UInt256 → OrphanMaps → Option OrphanMaps
  | [], s => some s
  | maybeErase :: rest, s =>
      match s.mapOrphanTransactions.lookup maybeErase with
      | none => none
      | some orphan =>
          eraseOrphansForLoop peer rest
            (if orphan.fromPeer = peer then s.eraseOrphanTx orphan.tx.hash else s)

/-- `EraseOrphansFor`. -/
def eraseOrphansFor (s : OrphanMaps) (peer : ℤ) : Option OrphanMaps :=
  eraseOrphansForLoop peer ((sortedEntries hashLe s.mapOrphanTransactions).map Prod.fst) s

/-- `size()` of the first map. -/
def size (s : OrphanMaps) : ℕ := s.mapOrphanTransactions.entries.length

/-- The first key that is not below a number, and else the first one of all. -/
def victim (s : OrphanMaps) (randomhash : UInt256) : Option UInt256 :=
  let keys := (sortedEntries hashLe s.mapOrphanTransactions).map Prod.fst
  (keys.find? fun hash => randomhash ≤ hash).or keys.head?

theorem size_eraseOrphanTx {s : OrphanMaps} {hash : UInt256}
    (h : (s.mapOrphanTransactions.lookup hash).isSome) :
    (s.eraseOrphanTx hash).size + 1 = s.size := by
  obtain ⟨it, hit⟩ := Option.isSome_iff_exists.1 h
  have hlen := (entries_perm_erase hit).length_eq
  rw [eraseOrphanTx, hit]
  exact hlen.symm

theorem lookup_victim {s : OrphanMaps} {randomhash hash : UInt256}
    (h : s.victim randomhash = some hash) : (s.mapOrphanTransactions.lookup hash).isSome := by
  have hmem : hash ∈ (sortedEntries hashLe s.mapOrphanTransactions).map Prod.fst := by
    rcases Option.or_eq_some_iff.1 h with hfind | ⟨-, hhead⟩
    · exact List.mem_of_find?_eq_some hfind
    · exact List.mem_of_mem_head? hhead
  obtain ⟨e, he, rfl⟩ := List.mem_map.1 hmem
  rw [mem_sortedEntries_iff.1 he]
  rfl

/-- `LimitOrphanTxSize`, with the numbers that `GetRandHash` gives; the first component is
`nEvicted`. -/
def limitOrphanTxSize (nMaxOrphans : ℕ) (rand : ℕ → UInt256) (s : OrphanMaps) (nEvicted : ℕ := 0) :
    ℕ × OrphanMaps :=
  if s.size > nMaxOrphans then
    match h : s.victim (rand nEvicted) with
    | none => (nEvicted, s) -- an empty map has no more than any number of entries
    | some it =>
        have : (s.eraseOrphanTx it).size < s.size := by
          have := size_eraseOrphanTx (lookup_victim h)
          omega
        limitOrphanTxSize nMaxOrphans rand (s.eraseOrphanTx it) (nEvicted + 1)
  else (nEvicted, s)
termination_by s.size

/-! ## The two maps -/

/-- A stored orphan has an input that spends an output of a transaction. -/
def Spends (s : OrphanMaps) (hash prev : UInt256) : Prop :=
  ∃ orphan, s.mapOrphanTransactions.lookup hash = some orphan ∧
    ∃ txin ∈ orphan.tx.vin, txin.prevout.hash = prev

/-- Orphans stand under their hashes, and the second map lists what they spend. -/
structure Mirrored (s : OrphanMaps) : Prop where
  keyed : ∀ hash orphan, s.mapOrphanTransactions.lookup hash = some orphan → orphan.tx.hash = hash
  exact : Exact s.mapOrphanTransactionsByPrev s.Spends

theorem Mirrored.start : Mirrored {} := by
  refine ⟨fun hash orphan h => by simp at h, Exact.empty.congr fun hash prev => ?_⟩
  simp [Spends]

/-- What a transaction spends. -/
def prevs (tx : CTransaction) : List UInt256 := tx.vin.map fun txin => txin.prevout.hash

theorem mem_prevs {tx : CTransaction} {prev : UInt256} :
    prev ∈ prevs tx ↔ ∃ txin ∈ tx.vin, txin.prevout.hash = prev := List.mem_map

variable {s : OrphanMaps}

theorem Mirrored.addOrphanTx (h : s.Mirrored) (tx : CTransaction) (peer : ℤ) :
    (s.addOrphanTx tx peer).2.Mirrored := by
  simp only [OrphanMaps.addOrphanTx]
  split
  · exact h
  · next hnew =>
    have hnone : s.mapOrphanTransactions.lookup tx.hash = none := by simpa using hnew
    split
    · exact h
    · have hbyPrev : tx.vin.foldl (fun byPrev txin =>
          byPrev.insert txin.prevout.hash (insert tx.hash (under byPrev txin.prevout.hash)))
          s.mapOrphanTransactionsByPrev =
            link tx.hash s.mapOrphanTransactionsByPrev (prevs tx) := by
        rw [link, prevs, List.foldl_map]
        rfl
      refine ⟨fun hash orphan horphan => ?_, ?_⟩
      · rw [lookup_insert_eq] at horphan
        split at horphan
        · next heq =>
          cases horphan
          exact heq.symm
        · exact h.keyed hash orphan horphan
      · rw [hbyPrev]
        refine (h.exact.link tx.hash (prevs tx)).congr fun hash prev => ?_
        simp only [Spends, lookup_insert_eq]
        split
        · next heq =>
          rw [heq, hnone]
          simp [mem_prevs]
        · next hne => simp [hne]

theorem Mirrored.eraseOrphanTx (h : s.Mirrored) (hash : UInt256) :
    (s.eraseOrphanTx hash).Mirrored := by
  unfold OrphanMaps.eraseOrphanTx
  split
  · exact h
  · next it hit =>
    have hbyPrev : it.tx.vin.foldl (fun byPrev txin =>
        match byPrev.lookup txin.prevout.hash with
        | none => byPrev
        | some itPrev =>
            if itPrev.erase hash = ∅ then byPrev.erase txin.prevout.hash
            else byPrev.insert txin.prevout.hash (itPrev.erase hash))
        s.mapOrphanTransactionsByPrev =
          unlink hash s.mapOrphanTransactionsByPrev (prevs it.tx) := by
      rw [unlink, prevs, List.foldl_map]
      congr 1
      funext byPrev txin
      unfold unlinkOne
      split
      · next hprev => rw [hprev]
      · next itPrev hprev =>
        rw [hprev]
    refine ⟨fun hash' orphan horphan => ?_, ?_⟩
    · rw [lookup_erase_eq] at horphan
      split at horphan
      · cases horphan
      · exact h.keyed hash' orphan horphan
    · rw [hbyPrev]
      refine (h.exact.unlink hash (prevs it.tx)).congr fun hash' prev => ?_
      simp only [Spends, lookup_erase_eq]
      split
      · next heq =>
        rw [heq, hit]
        simp [mem_prevs]
      · next hne => simp [hne]

/-! ## The loops -/

theorem lookup_eraseOrphanTx (s : OrphanMaps) (hash hash' : UInt256) :
    (s.eraseOrphanTx hash).mapOrphanTransactions.lookup hash' =
      if hash' = hash then none else s.mapOrphanTransactions.lookup hash' := by
  unfold OrphanMaps.eraseOrphanTx
  split
  · next hnone =>
    split
    · next heq => rw [heq, hnone]
    · rfl
  · exact lookup_erase_eq _ _ _

/-- **All orphans of a peer go, and only those.** -/
theorem Mirrored.eraseOrphansForLoop (peer : ℤ) : ∀ {keys : List UInt256} {s : OrphanMaps},
    s.Mirrored → keys.Nodup → (∀ hash ∈ keys, (s.mapOrphanTransactions.lookup hash).isSome) →
      ∃ s', OrphanMaps.eraseOrphansForLoop peer keys s = some s' ∧ s'.Mirrored ∧
        ∀ hash orphan, s'.mapOrphanTransactions.lookup hash = some orphan ↔
          s.mapOrphanTransactions.lookup hash = some orphan ∧
            ¬(hash ∈ keys ∧ orphan.fromPeer = peer) := by
  intro keys
  induction keys with
  | nil => exact fun h _ _ => ⟨_, rfl, h, by simp⟩
  | cons key keys ih =>
    intro s h hnodup hkeys
    obtain ⟨hkey, hnodup⟩ := List.nodup_cons.1 hnodup
    obtain ⟨orphan, horphan⟩ := Option.isSome_iff_exists.1 (hkeys key (by simp))
    rw [OrphanMaps.eraseOrphansForLoop, horphan]
    simp only
    split
    · next hpeer =>
      rw [h.keyed key orphan horphan]
      obtain ⟨s', hs', hmir, hspec⟩ := ih (h.eraseOrphanTx key) hnodup fun hash hhash => by
        rw [lookup_eraseOrphanTx, if_neg (ne_of_mem_of_not_mem hhash hkey)]
        exact hkeys hash (List.mem_cons_of_mem _ hhash)
      refine ⟨s', hs', hmir, fun hash o => ?_⟩
      rw [hspec, lookup_eraseOrphanTx]
      split
      · next heq =>
        subst heq
        rw [horphan]
        refine iff_of_false (fun hfalse => nomatch hfalse.1) fun hboth => hboth.2 ?_
        cases hboth.1
        exact ⟨List.mem_cons_self, hpeer⟩
      · next hne => simp [hne]
    · next hpeer =>
      obtain ⟨s', hs', hmir, hspec⟩ := ih h hnodup fun hash hhash =>
        hkeys hash (List.mem_cons_of_mem _ hhash)
      refine ⟨s', hs', hmir, fun hash o => ?_⟩
      rw [hspec]
      refine and_congr_right fun ho => not_congr (and_congr_left fun hp => ?_)
      refine ⟨fun hmem => List.mem_cons_of_mem _ hmem, fun hmem => ?_⟩
      rcases List.mem_cons.1 hmem with rfl | hmem
      · cases horphan.symm.trans ho
        exact absurd hp hpeer
      · exact hmem

theorem Mirrored.eraseOrphansFor (h : s.Mirrored) (peer : ℤ) :
    ∃ s', s.eraseOrphansFor peer = some s' ∧ s'.Mirrored ∧
      ∀ hash orphan, s'.mapOrphanTransactions.lookup hash = some orphan ↔
        s.mapOrphanTransactions.lookup hash = some orphan ∧ orphan.fromPeer ≠ peer := by
  have hmem : ∀ hash, hash ∈ (sortedEntries hashLe s.mapOrphanTransactions).map Prod.fst ↔
      (s.mapOrphanTransactions.lookup hash).isSome := by
    intro hash
    rw [List.mem_map, Option.isSome_iff_exists]
    refine ⟨?_, fun ⟨orphan, horphan⟩ => ⟨(hash, orphan), mem_sortedEntries_iff.2 horphan, rfl⟩⟩
    rintro ⟨e, he, rfl⟩
    exact ⟨e.2, mem_sortedEntries_iff.1 he⟩
  obtain ⟨s', hs', hmir, hspec⟩ := Mirrored.eraseOrphansForLoop peer h
    (sortedEntries_nodup hashLe s.mapOrphanTransactions) fun hash hhash => (hmem hash).1 hhash
  refine ⟨s', hs', hmir, fun hash orphan => (hspec hash orphan).trans ?_⟩
  refine and_congr_right fun ho => ?_
  rw [hmem, ho]
  simp

theorem victim_isSome (h : s.size ≠ 0) (randomhash : UInt256) :
    (s.victim randomhash).isSome := by
  have hne : (sortedEntries hashLe s.mapOrphanTransactions).map Prod.fst ≠ [] := by
    intro hnil
    have hlen := congrArg List.length hnil
    rw [List.length_map, length_sortedEntries] at hlen
    exact h hlen
  rw [victim, Option.isSome_or, Bool.or_eq_true]
  exact .inr (by simpa using hne)

/-- **The random eviction ends within the bound**, and only takes orphans away. -/
theorem limitOrphanTxSize_spec (nMaxOrphans : ℕ) (rand : ℕ → UInt256) {s : OrphanMaps}
    (h : s.Mirrored) (nEvicted : ℕ) :
    (limitOrphanTxSize nMaxOrphans rand s nEvicted).2.Mirrored ∧
      (limitOrphanTxSize nMaxOrphans rand s nEvicted).2.size ≤ nMaxOrphans ∧
      ∀ hash orphan, (limitOrphanTxSize nMaxOrphans rand s nEvicted).2.mapOrphanTransactions.lookup
        hash = some orphan → s.mapOrphanTransactions.lookup hash = some orphan := by
  induction s, nEvicted using limitOrphanTxSize.induct nMaxOrphans rand with
  | case1 s nEvicted hsize hnone =>
    have hsome := victim_isSome (s := s) (by omega) (rand nEvicted)
    rw [hnone] at hsome
    cases hsome
  | case2 s nEvicted hsize it hit hlt ih =>
    obtain ⟨hmir, hle, hsub⟩ := ih (h.eraseOrphanTx it)
    have hstep : limitOrphanTxSize nMaxOrphans rand s nEvicted =
        limitOrphanTxSize nMaxOrphans rand (s.eraseOrphanTx it) (nEvicted + 1) := by
      rw [limitOrphanTxSize, if_pos hsize]
      split
      · next hnone =>
        rw [hnone] at hit
        cases hit
      · next it' hit' =>
        cases hit.symm.trans hit'
        rfl
    rw [hstep]
    refine ⟨hmir, hle, fun hash orphan horphan => ?_⟩
    have hold := hsub hash orphan horphan
    rw [lookup_eraseOrphanTx] at hold
    split at hold
    · cases hold
    · exact hold
  | case3 s nEvicted hsize =>
    rw [limitOrphanTxSize, if_neg hsize]
    exact ⟨h, Nat.le_of_not_lt hsize, fun _ _ horphan => horphan⟩

/-! ## Runs -/

/-- A call of one of the functions. -/
inductive Call where
  | addOrphanTx (tx : CTransaction) (peer : ℤ)
  | eraseOrphanTx (hash : UInt256)
  | eraseOrphansFor (peer : ℤ)
  | limitOrphanTxSize (nMaxOrphans : ℕ) (rand : ℕ → UInt256)

/-- One call; `none` where an iterator stands at nothing. -/
def step (s : OrphanMaps) : Call → Option OrphanMaps
  | .addOrphanTx tx peer => some (s.addOrphanTx tx peer).2
  | .eraseOrphanTx hash => some (s.eraseOrphanTx hash)
  | .eraseOrphansFor peer => s.eraseOrphansFor peer
  | .limitOrphanTxSize nMaxOrphans rand => some (limitOrphanTxSize nMaxOrphans rand s).2

theorem Mirrored.step (h : s.Mirrored) (call : Call) :
    ∃ s', OrphanMaps.step s call = some s' ∧ s'.Mirrored := by
  cases call with
  | addOrphanTx tx peer => exact ⟨_, rfl, h.addOrphanTx tx peer⟩
  | eraseOrphanTx hash => exact ⟨_, rfl, h.eraseOrphanTx hash⟩
  | eraseOrphansFor peer =>
    obtain ⟨s', hs', hmir, -⟩ := h.eraseOrphansFor peer
    exact ⟨s', hs', hmir⟩
  | limitOrphanTxSize nMaxOrphans rand =>
    exact ⟨_, rfl, (limitOrphanTxSize_spec nMaxOrphans rand h 0).1⟩

/-- A sequence of calls. -/
def run (s : OrphanMaps) (calls : List Call) : Option OrphanMaps :=
  calls.foldlM OrphanMaps.step s

theorem Mirrored.run (calls : List Call) : ∀ {s : OrphanMaps}, s.Mirrored →
    ∃ s', OrphanMaps.run s calls = some s' ∧ s'.Mirrored := by
  induction calls with
  | nil => exact fun h => ⟨_, rfl, h⟩
  | cons call calls ih =>
    intro s h
    obtain ⟨s₁, hs₁, h₁⟩ := h.step call
    obtain ⟨s', hs', h'⟩ := ih h₁
    refine ⟨s', ?_, h'⟩
    rw [OrphanMaps.run, List.foldlM_cons, hs₁]
    exact hs'

end OrphanMaps

/-- **The orphan maps are consistent.**  After any sequence of calls the second map lists under a
hash exactly the stored orphans that spend it, without empty sets; a peer's orphans can be erased,
all of them and no others; and an eviction ends with no more orphans than it should leave. -/
theorem orphanMaps_consistent (calls : List OrphanMaps.Call) :
    ∃ s, OrphanMaps.run {} calls = some s ∧
      (∀ prev hash, (∃ itPrev, s.mapOrphanTransactionsByPrev.lookup prev = some itPrev ∧
        hash ∈ itPrev) ↔ ∃ orphan, s.mapOrphanTransactions.lookup hash = some orphan ∧
          ∃ txin ∈ orphan.tx.vin, txin.prevout.hash = prev) ∧
      (∀ prev itPrev, s.mapOrphanTransactionsByPrev.lookup prev = some itPrev → itPrev ≠ ∅) ∧
      (∀ peer, ∃ s', s.eraseOrphansFor peer = some s' ∧
        ∀ hash orphan, s'.mapOrphanTransactions.lookup hash = some orphan ↔
          s.mapOrphanTransactions.lookup hash = some orphan ∧ orphan.fromPeer ≠ peer) ∧
      ∀ nMaxOrphans rand,
        (OrphanMaps.limitOrphanTxSize nMaxOrphans rand s).2.size ≤ nMaxOrphans := by
  obtain ⟨s, hs, h⟩ := OrphanMaps.Mirrored.run calls OrphanMaps.Mirrored.start
  refine ⟨s, hs, fun prev hash => ?_, h.exact.nonempty, fun peer => ?_, fun nMaxOrphans rand => ?_⟩
  · refine Iff.trans ?_ (h.exact.mem_iff hash prev)
    rw [under]
    cases s.mapOrphanTransactionsByPrev.lookup prev with
    | none => simp
    | some itPrev => simp
  · obtain ⟨s', hs', -, hspec⟩ := h.eraseOrphansFor peer
    exact ⟨s', hs', hspec⟩
  · exact (OrphanMaps.limitOrphanTxSize_spec nMaxOrphans rand h 0).2.1

end FairCoin
