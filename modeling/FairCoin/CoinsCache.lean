import FairCoin.Coins
import FairCoin.Lib.Store

/-!
# The coins cache

`CCoinsViewCache` of `src/coins.cpp`: a stack of caches over the coin database, each
holding entries it fetched from the level below or was asked to change.

* `CCoinsViewCache.fetch`, `modifyCoins`, `batchWrite`, `flush` — the operations, with
  the `DIRTY` and `FRESH` flags as the source keeps them.  `CoinsStack.step` runs one
  operation on the top cache; `none` is a failed assertion.
* `CoinsStack.observe` — what a read through a level means: the first level that has
  the transaction decides, and an entry with nothing left in it counts as absent.
* `LevelInv` — the flag invariant that ties an entry to what the levels below it mean.
* `CoinsStack.run_refines` — **refinement**: the stack behaves as a stack of plain maps,
  entry for entry when modifications treat all pruned entries alike.
* `stale_metadata` — the restriction is needed: a pruned entry that is not `FRESH`
  stays in the cache with its metadata, a `FRESH` one is erased, so a modification
  that reads the metadata of a pruned entry sees either, and no plain map does both.
-/

namespace FairCoin

open Store

/-! ## Levels -/

/-- `CCoinsCacheEntry`. -/
structure CCoinsCacheEntry where
  coins : CCoins := {}
  dirty : Bool := false
  fresh : Bool := false
  deriving DecidableEq, Repr

/-- `CCoinsViewCache`. -/
structure CCoinsViewCache where
  cacheCoins : Map UInt256 CCoinsCacheEntry := ∅
  hashBlock : UInt256 := 0

/-- `CCoinsViewDB`: the entries on disk and the best block. -/
structure CCoinsViewDB where
  coins : Map UInt256 CCoins := ∅
  hashBestChain : UInt256 := 0

/-- A stack of caches, the top first, over the database. -/
structure CoinsStack where
  caches : List CCoinsViewCache := []
  db : CCoinsViewDB := {}

namespace CCoinsViewCache

/-- `FetchCoins` at the head of `caches`, with the fetches it causes below. -/
def fetch (db : CCoinsViewDB) (txid : UInt256) :
    List CCoinsViewCache → List CCoinsViewCache × Option CCoins
  | [] => ([], db.coins.lookup txid)
  | c :: cs =>
      match c.cacheCoins.lookup txid with
      | some e => (c :: cs, some e.coins)
      | none =>
          match fetch db txid cs with
          | (cs', none) => (c :: cs', none)
          | (cs', some tmp) =>
              ({ c with cacheCoins := c.cacheCoins.insert txid
                          { coins := tmp, fresh := tmp.isPruned } } :: cs', some tmp)

/-- `ModifyCoins`, up to the `CCoinsModifier` it returns: the entry to modify. -/
def entryToModify (db : CCoinsViewDB) (txid : UInt256) (c : CCoinsViewCache)
    (cs : List CCoinsViewCache) : CCoinsCacheEntry × List CCoinsViewCache :=
  match c.cacheCoins.lookup txid with
  | some e => ({ e with dirty := true }, cs)
  | none =>
      match fetch db txid cs with
      | (cs', none) => ({ coins := {}, dirty := true, fresh := true }, cs')
      | (cs', some coins) => ({ coins := coins, dirty := true, fresh := coins.isPruned }, cs')

/-- `ModifyCoins`, the modification `f` through the `CCoinsModifier`, and its
destructor. -/
def modifyCoins (db : CCoinsViewDB) (txid : UInt256) (f : CCoins → CCoins) (c : CCoinsViewCache)
    (cs : List CCoinsViewCache) : List CCoinsViewCache :=
  let (e, cs') := c.entryToModify db txid cs
  let e' := { e with coins := (f e.coins).cleanup }
  if e'.fresh && e'.coins.isPruned then { c with cacheCoins := c.cacheCoins.erase txid } :: cs'
  else { c with cacheCoins := c.cacheCoins.insert txid e' } :: cs'

/-- One pass of the loop of `CCoinsViewCache::BatchWrite`; `none` when the assertion
that a missing entry is `FRESH` fails. -/
def writeEntry (cacheCoins : Map UInt256 CCoinsCacheEntry) (txid : UInt256)
    (e : CCoinsCacheEntry) : Option (Map UInt256 CCoinsCacheEntry) :=
  if e.dirty then
    match cacheCoins.lookup txid with
    | none =>
        if e.coins.isPruned then some cacheCoins
        else if e.fresh then
          some (cacheCoins.insert txid { coins := e.coins, dirty := true, fresh := true })
        else none
    | some us =>
        if us.fresh && e.coins.isPruned then some (cacheCoins.erase txid)
        else some (cacheCoins.insert txid { us with coins := e.coins, dirty := true })
  else some cacheCoins

/-- `CCoinsViewCache::BatchWrite`. -/
def batchWrite (parent : CCoinsViewCache) (mapCoins : Map UInt256 CCoinsCacheEntry)
    (hashBlockIn : UInt256) : Option CCoinsViewCache :=
  (mergeAll writeEntry mapCoins parent.cacheCoins).map fun m =>
    { cacheCoins := m, hashBlock := hashBlockIn }

end CCoinsViewCache

namespace CCoinsViewDB

/-- `BatchWriteCoins` on one entry of the batch. -/
def writeEntry (coins : Map UInt256 CCoins) (txid : UInt256) (e : CCoinsCacheEntry) :
    Option (Map UInt256 CCoins) :=
  if e.dirty then
    if e.coins.isPruned then some (coins.erase txid) else some (coins.insert txid e.coins)
  else some coins

/-- `CCoinsViewDB::BatchWrite`. -/
def batchWrite (db : CCoinsViewDB) (mapCoins : Map UInt256 CCoinsCacheEntry) (hashBlock : UInt256) :
    Option CCoinsViewDB :=
  (mergeAll writeEntry mapCoins db.coins).map fun m =>
    { coins := m, hashBestChain := if hashBlock ≠ 0 then hashBlock else db.hashBestChain }

end CCoinsViewDB

/-! ## Operations on the stack -/

namespace CoinsStack

/-- The operations a caller has: reads and changes through the top cache, and the
creation, flush and discard of a cache. -/
inductive Op
  | getCoins (txid : UInt256)
  | accessCoins (txid : UInt256)
  | haveCoins (txid : UInt256)
  | modifyCoins (txid : UInt256) (f : CCoins → CCoins)
  | flush
  | create
  | discard

/-- What an operation answers. -/
inductive Answer
  | coins (c : Option CCoins)
  | have (b : Bool)
  | done
  deriving DecidableEq, Repr

/-- `Flush` of the top cache into the level below. -/
def flush : CoinsStack → Option CoinsStack
  | ⟨[], db⟩ => some ⟨[], db⟩
  | ⟨[c], db⟩ => (db.batchWrite c.cacheCoins c.hashBlock).map fun db' =>
      ⟨[{ c with cacheCoins := ∅ }], db'⟩
  | ⟨c :: p :: cs, db⟩ => (p.batchWrite c.cacheCoins c.hashBlock).map fun p' =>
      ⟨{ c with cacheCoins := ∅ } :: p' :: cs, db⟩

/-- One operation; `none` is a failed assertion.  Without a cache there is nothing to
modify or discard. -/
def step (s : CoinsStack) : Op → Option (CoinsStack × Answer)
  | .getCoins txid | .accessCoins txid =>
      let (cs, r) := CCoinsViewCache.fetch s.db txid s.caches
      some (⟨cs, s.db⟩, .coins r)
  | .haveCoins txid =>
      let (cs, r) := CCoinsViewCache.fetch s.db txid s.caches
      -- `vout.empty()` and not `IsPruned()`
      some (⟨cs, s.db⟩, .have (r.any fun c => !c.vout.isEmpty))
  | .modifyCoins txid f =>
      match s.caches with
      | [] => some (s, .done)
      | c :: cs => some (⟨c.modifyCoins s.db txid f cs, s.db⟩, .done)
  | .flush => s.flush.map fun s' => (s', .done)
  | .create => some (⟨{} :: s.caches, s.db⟩, .done)
  | .discard => some (⟨s.caches.tail, s.db⟩, .done)

/-- A sequence of operations, with the answers in order. -/
def run (s : CoinsStack) : List Op → Option (CoinsStack × List Answer)
  | [] => some (s, [])
  | op :: ops => do
      let (s', a) ← s.step op
      let (s'', as) ← run s' ops
      some (s'', a :: as)

end CoinsStack

/-! ## Plain maps -/

/-- The same operations on plain maps: creating a cache copies the top map, flushing
copies it into the map below, discarding drops it.  `nf` is the form in which the map
keeps an entry. -/
structure PlainStack where
  top : UInt256 → CCoins
  below : List (UInt256 → CCoins) := []

namespace PlainStack

open CoinsStack (Op Answer)

/-- One operation on plain maps. -/
def step (nf : CCoins → CCoins) (m : PlainStack) : Op → PlainStack × Answer
  | .getCoins txid | .accessCoins txid =>
      (m, .coins (if (m.top txid).isPruned then none else some (m.top txid)))
  | .haveCoins txid => (m, .have (!(m.top txid).isPruned))
  | .modifyCoins txid f =>
      match m.below with
      | [] => (m, .done)
      | _ => ({ m with top := Function.update m.top txid (nf (f (m.top txid))) }, .done)
  | .flush =>
      match m.below with
      | [] => (m, .done)
      | _ :: ms => ({ m with below := m.top :: ms }, .done)
  | .create => (⟨m.top, m.top :: m.below⟩, .done)
  | .discard =>
      match m.below with
      | [] => (m, .done)
      | p :: ms => (⟨p, ms⟩, .done)

/-- A sequence of operations on plain maps. -/
def run (nf : CCoins → CCoins) (m : PlainStack) : List Op → PlainStack × List Answer
  | [] => (m, [])
  | op :: ops =>
      let (m', a) := m.step nf op
      let (m'', as) := run nf m' ops
      (m'', a :: as)

end PlainStack

/-! ## What a stack means -/

namespace CoinsStack

/-- What a read through the head of the list means. -/
def observe (db : CCoinsViewDB) : List CCoinsViewCache → UInt256 → CCoins
  | [], txid => ((db.coins.lookup txid).getD {}).normalize
  | c :: cs, txid =>
      match c.cacheCoins.lookup txid with
      | some e => e.coins.normalize
      | none => observe db cs txid

/-- The meanings of the levels below the top. -/
def observeBelow (db : CCoinsViewDB) : List CCoinsViewCache → List (UInt256 → CCoins)
  | [] => []
  | _ :: cs => observe db cs :: observeBelow db cs

/-- The stack of plain maps a stack of caches stands for. -/
def toPlain (s : CoinsStack) : PlainStack :=
  ⟨observe s.db s.caches, observeBelow s.db s.caches⟩

/-- An answer with pruned entries read as absent. -/
def Answer.observe : Answer → Answer
  | .coins (some c) => if c.isPruned then .coins none else .coins (some c)
  | a => a

/-- The level below has an entry for the transaction; the database never refuses one. -/
def HasEntry (txid : UInt256) : List CCoinsViewCache → Prop
  | [] => True
  | p :: _ => (p.cacheCoins.lookup txid).isSome

/-- What the flags of an entry say about the levels below it: a `FRESH` entry has
nothing there, an entry that is not `DIRTY` agrees with it, and an entry that is not
`FRESH` was fetched through the parent, which therefore has one too. -/
structure EntryInv (db : CCoinsViewDB) (cs : List CCoinsViewCache) (txid : UInt256)
    (e : CCoinsCacheEntry) : Prop where
  trimmed : e.coins.cleanup = e.coins
  fresh : e.fresh = true → observe db cs txid = {}
  clean : e.dirty = false → e.coins.normalize = observe db cs txid
  parent : e.fresh = false → HasEntry txid cs

/-- The invariant of every level. -/
def LevelInv (db : CCoinsViewDB) : List CCoinsViewCache → Prop
  | [] => ∀ txid c, db.coins.lookup txid = some c → c.cleanup = c
  | c :: cs => LevelInv db cs ∧
      ∀ txid e, c.cacheCoins.lookup txid = some e → EntryInv db cs txid e

/-- A modification that does the same to every entry with nothing left in it. -/
def Respectful (f : CCoins → CCoins) : Prop :=
  ∀ c, c.isPruned = true → (f c).normalize = (f {}).normalize

/-- Every modification of the operation is respectful. -/
def Op.Respectful : Op → Prop
  | .modifyCoins _ f => CoinsStack.Respectful f
  | _ => True

theorem observe_cons (db : CCoinsViewDB) (c : CCoinsViewCache) (cs : List CCoinsViewCache)
    (txid : UInt256) : observe db (c :: cs) txid =
      match c.cacheCoins.lookup txid with
      | some e => e.coins.normalize
      | none => observe db cs txid := rfl

theorem observe_cons_some {db : CCoinsViewDB} {c : CCoinsViewCache} {cs : List CCoinsViewCache}
    {txid : UInt256} {e : CCoinsCacheEntry} (h : c.cacheCoins.lookup txid = some e) :
    observe db (c :: cs) txid = e.coins.normalize := by
  rw [observe_cons, h]

theorem observe_cons_none {db : CCoinsViewDB} {c : CCoinsViewCache} {cs : List CCoinsViewCache}
    {txid : UInt256} (h : c.cacheCoins.lookup txid = none) :
    observe db (c :: cs) txid = observe db cs txid := by
  rw [observe_cons, h]

theorem normalize_of_trimmed {c : CCoins} (ht : c.cleanup = c) (hp : c.isPruned = false) :
    c.normalize = c := by
  rw [CCoins.normalize_of_not_isPruned hp, ht]

/-- An entry moves to a level with the same meaning below it and at least the same
entries in the parent. -/
theorem EntryInv.mono {db : CCoinsViewDB} {cs cs' : List CCoinsViewCache} {txid : UInt256}
    {e : CCoinsCacheEntry} (h : EntryInv db cs txid e)
    (ho : observe db cs' txid = observe db cs txid) (hp : HasEntry txid cs → HasEntry txid cs') :
    EntryInv db cs' txid e :=
  ⟨h.trimmed, fun hf => ho.trans (h.fresh hf), fun hd => (h.clean hd).trans ho.symm,
    fun hf => hp (h.parent hf)⟩

/-! ## Reading -/

/-- What a fetch leaves behind: the same meaning at every level, and the entry in the
head of the list when there is one at all. -/
structure FetchSpec (db : CCoinsViewDB) (txid : UInt256) (cs cs' : List CCoinsViewCache)
    (r : Option CCoins) : Prop where
  inv : LevelInv db cs'
  observe : observe db cs' = observe db cs
  below : observeBelow db cs' = observeBelow db cs
  hasEntry : ∀ t, HasEntry t cs → HasEntry t cs'
  found : ∀ c, r = some c → c.cleanup = c ∧ c.normalize = CoinsStack.observe db cs txid ∧
    HasEntry txid cs'
  missing : r = none → CoinsStack.observe db cs txid = {}

theorem fetch_spec {db : CCoinsViewDB} (txid : UInt256) :
    ∀ {cs : List CCoinsViewCache}, LevelInv db cs →
      FetchSpec db txid cs (CCoinsViewCache.fetch db txid cs).1
        (CCoinsViewCache.fetch db txid cs).2
  | [], h => by
      refine ⟨h, rfl, rfl, fun _ ht => ht, fun c hc => ⟨h txid c hc, ?_, trivial⟩, fun hn => ?_⟩
      · simp only [CCoinsViewCache.fetch] at hc
        simp [CoinsStack.observe, hc]
      · simp only [CCoinsViewCache.fetch] at hn
        simp [CoinsStack.observe, hn, CCoins.normalize]
  | c :: cs, h => by
      have ih := fetch_spec txid h.1
      cases he : c.cacheCoins.lookup txid with
      | some e =>
        simp only [CCoinsViewCache.fetch, he]
        refine ⟨h, rfl, rfl, fun _ ht => ht, fun c' hc' => ?_, fun hn => absurd hn (by simp)⟩
        cases hc'
        exact ⟨(h.2 txid e he).trimmed, (observe_cons_some he).symm, by simp [HasEntry, he]⟩
      | none =>
        generalize hf : CCoinsViewCache.fetch db txid cs = r at ih
        obtain ⟨cs', r⟩ := r
        obtain ⟨ihinv, ihobs, ihbel, ihhas, ihfound, ihmiss⟩ := ih
        simp only at ihinv ihobs ihbel ihhas ihfound ihmiss
        cases r with
        | none =>
          simp only [CCoinsViewCache.fetch, he, hf]
          have hmono : ∀ t e, c.cacheCoins.lookup t = some e → EntryInv db cs' t e :=
            fun t e ht => (h.2 t e ht).mono (congrFun ihobs t) (ihhas t)
          refine ⟨⟨ihinv, hmono⟩, ?_, ?_, fun _ ht => ht, fun c' hc' => absurd hc' (by simp), ?_⟩
          · funext t
            rw [observe_cons, observe_cons, ihobs]
          · rw [observeBelow, observeBelow, ihobs, ihbel]
          · intro _
            rw [observe_cons_none he, ihmiss rfl]
        | some tmp =>
          obtain ⟨htrim, hnorm, hhas⟩ := ihfound tmp rfl
          simp only [CCoinsViewCache.fetch, he, hf]
          refine ⟨⟨ihinv, ?_⟩, ?_, ?_, ?_, ?_, fun hn => absurd hn (by simp)⟩
          · intro t e ht
            rw [lookup_insert_eq] at ht
            split at ht
            · next heq =>
              subst heq
              cases ht
              refine ⟨htrim, fun hfr => ?_, fun _ => ?_, fun _ => hhas⟩
              · rw [ihobs, ← hnorm, CCoins.normalize_of_isPruned hfr]
              · rw [ihobs, hnorm]
            · exact (h.2 t e ht).mono (congrFun ihobs t) (ihhas t)
          · funext t
            rw [observe_cons, observe_cons, lookup_insert_eq]
            by_cases ht : t = txid
            · subst ht
              rw [if_pos rfl, he]
              exact hnorm
            · rw [if_neg ht, ihobs]
          · rw [observeBelow, observeBelow, ihobs, ihbel]
          · intro t ht
            simp only [HasEntry] at ht ⊢
            rw [lookup_insert_eq]
            split
            · rfl
            · exact ht
          · intro c' hc'
            cases hc'
            refine ⟨htrim, ?_, ?_⟩
            · rw [observe_cons_none he, hnorm]
            · simp [HasEntry]

/-! ## Modifying -/

/-- The entry `ModifyCoins` hands out means what the stack meant, and the levels below
keep their meaning. -/
theorem entryToModify_spec {db : CCoinsViewDB} (txid : UInt256) {c : CCoinsViewCache}
    {cs : List CCoinsViewCache} (h : LevelInv db (c :: cs)) :
    ∃ e cs', c.entryToModify db txid cs = (e, cs') ∧ LevelInv db cs' ∧
      observe db cs' = observe db cs ∧ observeBelow db cs' = observeBelow db cs ∧
      (∀ t, HasEntry t cs → HasEntry t cs') ∧ e.dirty = true ∧ EntryInv db cs' txid e ∧
      e.coins.normalize = observe db (c :: cs) txid := by
  cases he : c.cacheCoins.lookup txid with
  | some e =>
    obtain ⟨ht, hf, -, hp⟩ := h.2 txid e he
    refine ⟨{ e with dirty := true }, cs, by rw [CCoinsViewCache.entryToModify, he], h.1, rfl, rfl,
      fun _ ht => ht, rfl, ⟨ht, hf, fun hd => absurd hd (by simp), hp⟩, ?_⟩
    rw [observe_cons_some he]
  | none =>
    have hspec := fetch_spec txid h.1
    generalize hfe : CCoinsViewCache.fetch db txid cs = r at hspec
    obtain ⟨cs', r⟩ := r
    obtain ⟨hinv, hobs, hbel, hhas, hfound, hmiss⟩ := hspec
    simp only at hinv hobs hbel hhas hfound hmiss
    cases r with
    | none =>
      refine ⟨{ coins := {}, dirty := true, fresh := true }, cs',
        by simp only [CCoinsViewCache.entryToModify, he, hfe], hinv, hobs, hbel, hhas,
        rfl, ⟨rfl, fun _ => ?_, fun hd => absurd hd (by simp), fun hf => absurd hf (by simp)⟩, ?_⟩
      · rw [hobs, hmiss rfl]
      · rw [observe_cons_none he, hmiss rfl]
        rfl
    | some tmp =>
      obtain ⟨htrim, hnorm, hent⟩ := hfound tmp rfl
      refine ⟨{ coins := tmp, dirty := true, fresh := tmp.isPruned }, cs',
        by simp only [CCoinsViewCache.entryToModify, he, hfe], hinv, hobs, hbel, hhas,
        rfl, ⟨htrim, fun hf => ?_, fun hd => absurd hd (by simp), fun _ => hent⟩, ?_⟩
      · rw [hobs, ← hnorm, CCoins.normalize_of_isPruned hf]
      · rw [observe_cons_none he, hnorm]

/-- A respectful modification sees of an entry only what the entry means. -/
theorem Respectful.normalize_eq {f : CCoins → CCoins} (hf : Respectful f) {c : CCoins}
    (hc : c.cleanup = c) : (f c).normalize = (f c.normalize).normalize := by
  by_cases hp : c.isPruned = true
  · rw [CCoins.normalize_of_isPruned hp, hf c hp]
  · rw [normalize_of_trimmed hc (by simpa using hp)]

theorem normalize_cleanup (c : CCoins) : c.cleanup.normalize = c.normalize := by
  by_cases hp : c.isPruned = true
  · rw [CCoins.normalize_of_isPruned hp, CCoins.normalize_of_isPruned (by simpa using hp)]
  · have hp' : c.isPruned = false := by simpa using hp
    rw [CCoins.normalize_of_not_isPruned hp',
      CCoins.normalize_of_not_isPruned (by rw [CCoins.isPruned_cleanup, hp']),
      CCoins.cleanup_cleanup]

/-- Any modification: the level means what it did, except that the transaction now has
what the modification made of an entry with the old meaning. -/
theorem modifyCoins_spec {db : CCoinsViewDB} (txid : UInt256) (f : CCoins → CCoins)
    {c : CCoinsViewCache} {cs : List CCoinsViewCache} (h : LevelInv db (c :: cs)) :
    ∃ x : CCoins, x.cleanup = x ∧ x.normalize = observe db (c :: cs) txid ∧
      LevelInv db (c.modifyCoins db txid f cs) ∧
      observe db (c.modifyCoins db txid f cs) =
        Function.update (observe db (c :: cs)) txid (f x).normalize ∧
      observeBelow db (c.modifyCoins db txid f cs) = observeBelow db (c :: cs) := by
  obtain ⟨e, cs', hmod, hinv, hobs, hbel, hhas, hdirty, hent, hmean⟩ :=
    entryToModify_spec txid h
  have hmono : ∀ t e', c.cacheCoins.lookup t = some e' → EntryInv db cs' t e' :=
    fun t e' ht => (h.2 t e' ht).mono (congrFun hobs t) (hhas t)
  have hother : ∀ t, observe db (c :: cs') t = observe db (c :: cs) t := by
    intro t
    rw [observe_cons, observe_cons, hobs]
  refine ⟨e.coins, hent.trimmed, hmean, ?_⟩
  unfold CCoinsViewCache.modifyCoins
  rw [hmod]
  simp only
  split
  · next hpr =>
    -- the entry is dropped: nothing is left in it, and nothing is below it
    rw [Bool.and_eq_true] at hpr
    refine ⟨⟨hinv, fun t e' ht => ?_⟩, ?_, by rw [observeBelow, observeBelow, hobs, hbel]⟩
    · rw [lookup_erase_eq] at ht
      split at ht
      · exact absurd ht (by simp)
      · exact hmono t e' ht
    · funext t
      rw [observe_cons, lookup_erase_eq, Function.update_apply]
      by_cases ht : t = txid
      · rw [if_pos ht, if_pos ht, ← normalize_cleanup, CCoins.normalize_of_isPruned hpr.2, ht]
        exact hent.fresh hpr.1
      · rw [if_neg ht, if_neg ht]
        exact hother t
  · refine ⟨⟨hinv, fun t e' ht => ?_⟩, ?_, by rw [observeBelow, observeBelow, hobs, hbel]⟩
    · rw [lookup_insert_eq] at ht
      split at ht
      · next heq =>
        subst heq
        cases ht
        exact ⟨CCoins.cleanup_cleanup _, hent.fresh,
          fun hd => absurd (hdirty.symm.trans hd) (by simp), hent.parent⟩
      · exact hmono t e' ht
    · funext t
      rw [observe_cons, lookup_insert_eq, Function.update_apply]
      by_cases ht : t = txid
      · rw [if_pos ht, if_pos ht]
        exact normalize_cleanup _
      · rw [if_neg ht, if_neg ht]
        exact hother t

/-! ## Flushing -/

/-- What a parent holds for a transaction after a flush. -/
def mergeEntry (e : CCoinsCacheEntry) : Option CCoinsCacheEntry → Option CCoinsCacheEntry
  | none =>
      if e.dirty && !e.coins.isPruned then some { coins := e.coins, dirty := true, fresh := true }
      else none
  | some us =>
      if e.dirty then
        if us.fresh && e.coins.isPruned then none else some { us with coins := e.coins, dirty := true }
      else some us

/-- The assertion of `BatchWrite`. -/
def WriteOk (e : CCoinsCacheEntry) (us : Option CCoinsCacheEntry) : Prop :=
  e.dirty = true → us = none → e.coins.isPruned = false → e.fresh = true

theorem writeEntry_spec (m : Map UInt256 CCoinsCacheEntry) (k : UInt256) (e : CCoinsCacheEntry)
    (hok : WriteOk e (m.lookup k)) :
    ∃ m', CCoinsViewCache.writeEntry m k e = some m' ∧
      ∀ t, m'.lookup t = if t = k then mergeEntry e (m.lookup k) else m.lookup t := by
  have hsame : mergeEntry e (m.lookup k) = m.lookup k →
      ∀ t, m.lookup t = if t = k then mergeEntry e (m.lookup k) else m.lookup t := by
    intro hm t
    split
    · next ht => rw [hm, ht]
    · rfl
  unfold CCoinsViewCache.writeEntry
  cases hd : e.dirty with
  | false =>
    refine ⟨m, rfl, hsame ?_⟩
    cases m.lookup k <;> simp [mergeEntry, hd]
  | true =>
    simp only [if_true]
    cases hl : m.lookup k with
    | none =>
      cases hp : e.coins.isPruned with
      | true =>
        rw [hl] at hsame
        exact ⟨m, by simp, hsame (by simp [mergeEntry, hp])⟩
      | false =>
        have hfr := hok hd hl hp
        refine ⟨m.insert k { coins := e.coins, dirty := true, fresh := true }, by simp [hfr],
          fun t => ?_⟩
        rw [lookup_insert_eq]
        simp [mergeEntry, hd, hp]
    | some us =>
      by_cases hc : (us.fresh && e.coins.isPruned) = true
      · refine ⟨m.erase k, by simp only [hc, if_true], fun t => ?_⟩
        rw [lookup_erase_eq]
        simp [mergeEntry, hd, hc]
      · refine ⟨_, by simp only [hc]; rfl, fun t => ?_⟩
        rw [lookup_insert_eq]
        simp [mergeEntry, hd, hc]

/-- Flushing into a cache: the parent takes over the meaning of the child, and no
assertion fails. -/
theorem batchWrite_spec {db : CCoinsViewDB} {c p : CCoinsViewCache} {cs : List CCoinsViewCache}
    (h : LevelInv db (c :: p :: cs)) :
    ∃ p', p.batchWrite c.cacheCoins c.hashBlock = some p' ∧ LevelInv db (p' :: cs) ∧
      observe db (p' :: cs) = observe db (c :: p :: cs) := by
  have hok : ∀ k e, c.cacheCoins.lookup k = some e → WriteOk e (p.cacheCoins.lookup k) := by
    intro k e hk _ hnone _
    by_contra hfr
    have := (h.2 k e hk).parent (by simpa using hfr)
    rw [HasEntry, hnone] at this
    exact absurd this (by simp)
  obtain ⟨m', hm', hl⟩ := lookup_mergeAll (fun _ => WriteOk) writeEntry_spec c.cacheCoins
    p.cacheCoins hok
  refine ⟨{ cacheCoins := m', hashBlock := c.hashBlock }, by
    rw [CCoinsViewCache.batchWrite, hm']; rfl, ⟨h.1.1, fun t e ht => ?_⟩, ?_⟩
  · simp only at ht
    rw [hl t] at ht
    cases hc : c.cacheCoins.lookup t with
    | none =>
      rw [hc] at ht
      exact h.1.2 t e ht
    | some ec =>
      rw [hc] at ht
      have hec := h.2 t ec hc
      cases hp : p.cacheCoins.lookup t with
      | none =>
        simp only [hp, mergeEntry] at ht
        split at ht
        · next hd =>
          cases ht
          rw [Bool.and_eq_true] at hd
          have hfr : ec.fresh = true := hok t ec hc hd.1 hp (by simpa using hd.2)
          refine ⟨hec.trimmed, fun _ => ?_, fun hd' => absurd hd' (by simp),
            fun hf => absurd hf (by simp)⟩
          rw [← hec.fresh hfr, observe_cons_none hp]
        · exact absurd ht (by simp)
      | some us =>
        have hus := h.1.2 t us hp
        simp only [hp, mergeEntry] at ht
        split at ht
        · split at ht
          · exact absurd ht (by simp)
          · cases ht
            exact ⟨hec.trimmed, hus.fresh, fun hd' => absurd hd' (by simp), hus.parent⟩
        · cases ht
          exact hus
  · funext t
    rw [observe_cons, hl t, observe_cons db c]
    cases hc : c.cacheCoins.lookup t with
    | none => rfl
    | some ec =>
      have hec := h.2 t ec hc
      cases hp : p.cacheCoins.lookup t with
      | none =>
        simp only [mergeEntry]
        split
        · next heq =>
          split at heq
          · cases heq
            rfl
          · exact absurd heq (by simp)
        · next heq =>
          split at heq
          · exact absurd heq (by simp)
          · next hd =>
            -- nothing is written: the entry agrees with the parent or is pruned and fresh
            rw [← observe_cons_none hp]
            cases hdirty : ec.dirty with
            | false => exact (hec.clean hdirty).symm
            | true =>
              have hpr : ec.coins.isPruned = true := by simpa [hdirty] using hd
              rw [CCoins.normalize_of_isPruned hpr]
              refine hec.fresh ?_
              by_contra hfr
              have := hec.parent (by simpa using hfr)
              rw [HasEntry, hp] at this
              exact absurd this (by simp)
      | some us =>
        have hus := h.1.2 t us hp
        simp only [mergeEntry]
        cases hdirty : ec.dirty with
        | false =>
          simp only [Bool.false_eq_true, if_false]
          rw [hec.clean hdirty, observe_cons_some hp]
        | true =>
          by_cases hcond : (us.fresh && ec.coins.isPruned) = true
          · simp only [hcond, if_true]
            rw [Bool.and_eq_true] at hcond
            rw [CCoins.normalize_of_isPruned hcond.2, hus.fresh hcond.1]
          · simp only [hcond]
            rfl

/-- What the database holds for a transaction after a flush. -/
def mergeDB (e : CCoinsCacheEntry) (us : Option CCoins) : Option CCoins :=
  if e.dirty then if e.coins.isPruned then none else some e.coins else us

theorem writeEntryDB_spec (m : Map UInt256 CCoins) (k : UInt256) (e : CCoinsCacheEntry)
    (_ : True) :
    ∃ m', CCoinsViewDB.writeEntry m k e = some m' ∧
      ∀ t, m'.lookup t = if t = k then mergeDB e (m.lookup k) else m.lookup t := by
  unfold CCoinsViewDB.writeEntry mergeDB
  split
  · split
    · exact ⟨_, rfl, lookup_erase_eq m k⟩
    · exact ⟨_, rfl, fun t => lookup_insert_eq m k t e.coins⟩
  · refine ⟨m, rfl, fun t => ?_⟩
    split
    · next ht => rw [ht]
    · rfl

/-- Flushing into the database. -/
theorem batchWriteDB_spec {db : CCoinsViewDB} {c : CCoinsViewCache} (h : LevelInv db [c]) :
    ∃ db', db.batchWrite c.cacheCoins c.hashBlock = some db' ∧ LevelInv db' [] ∧
      observe db' [] = observe db [c] := by
  obtain ⟨m', hm', hl⟩ := lookup_mergeAll (fun _ _ _ => True) writeEntryDB_spec c.cacheCoins
    db.coins (fun _ _ _ => trivial)
  refine ⟨_, by rw [CCoinsViewDB.batchWrite, hm']; rfl, fun t x hx => ?_, ?_⟩
  · simp only at hx
    rw [hl t] at hx
    cases hc : c.cacheCoins.lookup t with
    | none =>
      rw [hc] at hx
      exact h.1 t x hx
    | some e =>
      rw [hc] at hx
      simp only [mergeDB] at hx
      split at hx
      · split at hx
        · exact absurd hx (by simp)
        · cases hx
          exact (h.2 t e hc).trimmed
      · exact h.1 t x hx
  · funext t
    simp only [observe]
    rw [hl t]
    cases hc : c.cacheCoins.lookup t with
    | none => rfl
    | some e =>
      have he := h.2 t e hc
      simp only [mergeDB]
      cases hd : e.dirty with
      | false => exact (he.clean hd).symm
      | true =>
        by_cases hp : e.coins.isPruned = true
        · simp only [hp, if_true, Option.getD_none]
          rw [CCoins.normalize_of_isPruned hp]
          rfl
        · simp only [hp, if_true]
          rfl

theorem lookup_empty_cache (t : UInt256) :
    (∅ : Map UInt256 CCoinsCacheEntry).lookup t = none := AList.lookup_empty t

/-- A cache with no entries says nothing. -/
theorem observe_empty_cache (db : CCoinsViewDB) (hb : UInt256) (cs : List CCoinsViewCache) :
    observe db ({ cacheCoins := ∅, hashBlock := hb } :: cs) = observe db cs := by
  funext t
  exact observe_cons_none (lookup_empty_cache t)

theorem levelInv_empty_cache {db : CCoinsViewDB} (hb : UInt256) {cs : List CCoinsViewCache}
    (h : LevelInv db cs) : LevelInv db ({ cacheCoins := ∅, hashBlock := hb } :: cs) := by
  refine ⟨h, fun t e ht => ?_⟩
  rw [lookup_empty_cache] at ht
  exact absurd ht (by simp)

/-! ## Refinement -/

/-- The answer of a fetch, read with pruned entries as absent. -/
theorem FetchSpec.answer {db : CCoinsViewDB} {txid : UInt256} {cs cs' : List CCoinsViewCache}
    {r : Option CCoins} (h : FetchSpec db txid cs cs' r) :
    (Answer.coins r).observe = .coins (if (CoinsStack.observe db cs txid).isPruned then none
      else some (CoinsStack.observe db cs txid)) := by
  cases r with
  | none => simp [Answer.observe, h.missing rfl]
  | some c =>
    obtain ⟨ht, hn, -⟩ := h.found c rfl
    rw [← hn, CCoins.isPruned_normalize]
    by_cases hp : c.isPruned = true
    · simp [Answer.observe, hp]
    · rw [normalize_of_trimmed ht (by simpa using hp)]
      simp [Answer.observe, hp]

theorem FetchSpec.have {db : CCoinsViewDB} {txid : UInt256} {cs cs' : List CCoinsViewCache}
    {r : Option CCoins} (h : FetchSpec db txid cs cs' r) :
    (r.any fun c => !c.vout.isEmpty) = !(CoinsStack.observe db cs txid).isPruned := by
  cases r with
  | none => simp [h.missing rfl]
  | some c =>
    obtain ⟨ht, hn, -⟩ := h.found c rfl
    rw [← hn, CCoins.isPruned_normalize]
    have hiff : c.isPruned = c.vout.isEmpty := by
      rw [Bool.eq_iff_iff, CCoins.isPruned_iff_trim, List.isEmpty_iff]
      have hv : Slots.trim CTxOut.isNull c.vout = c.vout := congrArg CCoins.vout ht
      rw [hv]
    simp [hiff]

/-- The plain operation an operation comes to: a modification writes some entry to its
transaction, and everything else is itself. -/
inductive Resolves : Op → Op → Prop
  | modify (txid : UInt256) (f : CCoins → CCoins) (x : CCoins) :
      Resolves (.modifyCoins txid f) (.modifyCoins txid fun _ => x)
  | refl (op : Op) : Resolves op op

/-- What one operation does: it succeeds, keeps the invariant, and does to the plain maps
what an operation it resolves to does to them, which is the operation itself when it is
respectful. -/
structure StepSpec (s : CoinsStack) (op : Op) (s' : CoinsStack) (a : Answer) (op' : Op) : Prop where
  step : s.step op = some (s', a)
  inv : LevelInv s'.db s'.caches
  resolves : Resolves op op'
  plain : s.toPlain.step CCoins.normalize op' = (s'.toPlain, a.observe)
  respectful : op.Respectful →
    s.toPlain.step CCoins.normalize op' = s.toPlain.step CCoins.normalize op

theorem step_refines {s : CoinsStack} (op : Op) (h : LevelInv s.db s.caches) :
    ∃ s' a op', StepSpec s op s' a op' := by
  obtain ⟨cs, db⟩ := s
  cases op with
  | getCoins txid | accessCoins txid =>
    have hspec := fetch_spec txid h
    refine ⟨_, _, _, rfl, hspec.inv, .refl _, ?_, fun _ => rfl⟩
    rw [hspec.answer]
    simp only [PlainStack.step, toPlain, hspec.observe, hspec.below]
    rfl
  | haveCoins txid =>
    have hspec := fetch_spec txid h
    refine ⟨_, _, _, rfl, hspec.inv, .refl _, ?_, fun _ => rfl⟩
    rw [hspec.have]
    simp only [PlainStack.step, toPlain, hspec.observe, hspec.below, Answer.observe]
  | modifyCoins txid f =>
    cases cs with
    | nil => exact ⟨_, _, _, rfl, h, .refl _, rfl, fun _ => rfl⟩
    | cons c cs =>
      obtain ⟨x, hx, hmean, hinv, hobs, hbel⟩ := modifyCoins_spec txid f h
      refine ⟨_, _, _, rfl, hinv, .modify txid f (f x), ?_, fun hf => ?_⟩
      · simp only [PlainStack.step, toPlain, hobs, hbel, Answer.observe]
        rfl
      · simp only [PlainStack.step, toPlain]
        rw [Respectful.normalize_eq hf hx, hmean]
  | flush =>
    cases cs with
    | nil => exact ⟨_, _, _, rfl, h, .refl _, rfl, fun _ => rfl⟩
    | cons c cs =>
      cases cs with
      | nil =>
        obtain ⟨db', hw, hinv, hobs⟩ := batchWriteDB_spec h
        refine ⟨⟨[{ c with cacheCoins := ∅ }], db'⟩, .done, .flush, ?_,
          levelInv_empty_cache _ hinv, .refl _, ?_, fun _ => rfl⟩
        · simp only [CoinsStack.step, flush, hw]
          rfl
        · simp only [PlainStack.step, toPlain, observeBelow, Answer.observe, observe_empty_cache, hobs]
      | cons p cs =>
        obtain ⟨p', hw, hinv, hobs⟩ := batchWrite_spec h
        refine ⟨⟨{ c with cacheCoins := ∅ } :: p' :: cs, db⟩, .done, .flush, ?_,
          levelInv_empty_cache _ hinv, .refl _, ?_, fun _ => rfl⟩
        · simp only [CoinsStack.step, flush, hw]
          rfl
        · simp only [PlainStack.step, toPlain, observeBelow, Answer.observe, observe_empty_cache, hobs]
  | create =>
    refine ⟨_, _, _, rfl, levelInv_empty_cache _ h, .refl _, ?_, fun _ => rfl⟩
    simp only [PlainStack.step, toPlain, observeBelow, Answer.observe]
    rw [show ({} : CCoinsViewCache) = { cacheCoins := ∅, hashBlock := 0 } from rfl,
      observe_empty_cache]
  | discard =>
    cases cs with
    | nil => exact ⟨_, _, _, rfl, h, .refl _, rfl, fun _ => rfl⟩
    | cons c cs => exact ⟨_, _, _, rfl, h.1, .refl _, rfl, fun _ => rfl⟩

/-- A sequence of operations runs without a failed assertion, and is a run of the plain
maps: of the operations it resolves to, and of the operations themselves when they are
respectful. -/
theorem run_refines (ops : List Op) : ∀ {s : CoinsStack}, LevelInv s.db s.caches →
    ∃ s' as ops', s.run ops = some (s', as) ∧ List.Forall₂ Resolves ops ops' ∧
      s.toPlain.run CCoins.normalize ops' = (s'.toPlain, as.map Answer.observe) ∧
      ((∀ op ∈ ops, op.Respectful) →
        s.toPlain.run CCoins.normalize ops = (s'.toPlain, as.map Answer.observe)) := by
  induction ops with
  | nil => exact fun {s} h => ⟨s, [], [], rfl, .nil, rfl, fun _ => rfl⟩
  | cons op ops ih =>
    intro s h
    obtain ⟨s₁, a, op', hstep, hinv, hres, hp, hresp⟩ := step_refines op h
    obtain ⟨s₂, as, ops', hrun, hall, hp', hresp'⟩ := ih hinv
    refine ⟨s₂, a :: as, op' :: ops', ?_, .cons hres hall, ?_, fun hops => ?_⟩
    · simp [run, hstep, hrun]
    · simp [PlainStack.run, hp, hp']
    · have h₁ := (hresp (hops op (by simp))).symm.trans hp
      have h₂ := hresp' fun op' ho' => hops op' (by simp [ho'])
      simp [PlainStack.run, h₁, h₂]

/-- `FromTx` overwrites the entry. -/
theorem respectful_fromTx (tx : CTransaction) (h : ℤ) :
    Respectful fun _ => CCoins.fromTx tx h := fun _ _ => rfl

/-- `Clear` overwrites the entry. -/
theorem respectful_clear : Respectful fun _ => {} := fun _ _ => rfl

/-- `Spend` does nothing to an entry with nothing left in it. -/
theorem respectful_spend (n : ℕ) :
    Respectful fun c => ((c.spend n).map Prod.snd).getD c := by
  have hnone : ∀ c : CCoins, c.isPruned = true → c.spend n = none := by
    intro c hp
    rw [← Option.not_isSome_iff_eq_none, CCoins.spend_isSome_iff, CCoins.isAvailable_iff,
      CCoins.isPruned_iff.1 hp n]
    simp
  intro c hp
  simp only [hnone c hp, hnone {} rfl, Option.map_none, Option.getD_none]
  rw [CCoins.normalize_of_isPruned hp]
  rfl

/-- **A stack of caches is a plain map.**  Over any database whose entries are trimmed,
every sequence of reads, modifications, flushes, creations and discards runs without a
failed assertion, as a run of plain maps in which each modification writes some entry to
its own transaction.  When the modifications are respectful, those entries are what the
modifications make of the plain map, so that every read answers what the same sequence
answers on the plain map and every level means what its plain map is. -/
theorem coinsStack_refines_plainMap {db : CCoinsViewDB}
    (hdb : ∀ txid c, db.coins.lookup txid = some c → c.cleanup = c) (ops : List Op) :
    ∃ s' as ops', CoinsStack.run ⟨[], db⟩ ops = some (s', as) ∧ List.Forall₂ Resolves ops ops' ∧
      PlainStack.run CCoins.normalize ⟨observe db [], []⟩ ops' =
        (s'.toPlain, as.map Answer.observe) ∧
      ((∀ op ∈ ops, op.Respectful) →
        PlainStack.run CCoins.normalize ⟨observe db [], []⟩ ops =
          (s'.toPlain, as.map Answer.observe)) :=
  run_refines ops (s := ⟨[], db⟩) hdb

/-- The outputs `clearOutputs` leaves none of, and `addOutput` writes. -/
def oneOutput : List CTxOut := [{ nValue := 1, scriptPubKey := [0x51] }]

/-- Drop the outputs of an entry and keep its metadata. -/
def clearOutputs (c : CCoins) : CCoins := { c with vout := [] }

/-- Give an entry an output and keep its metadata. -/
def addOutput (c : CCoins) : CCoins := { c with vout := oneOutput }

/-- A database with one entry, of height 5. -/
def oneEntryDB : CCoinsViewDB :=
  { coins := AList.singleton 1 { vout := oneOutput, nHeight := 5 } }

theorem oneEntryDB_trimmed (txid : UInt256) (c : CCoins)
    (h : oneEntryDB.coins.lookup txid = some c) : c.cleanup = c := by
  have hc : (if txid = 1 then some ({ vout := oneOutput, nHeight := 5 } : CCoins) else none) =
      some c := by
    rw [← h]
    exact (lookup_insert_eq ∅ 1 txid _).symm
  split at hc
  · cases hc
    decide
  · exact absurd hc (by simp)

/-- Create a cache, clear the entry, flush, discard the cache and read. -/
theorem coinsStack_refines_clear_flush :
    ∃ s' as, CoinsStack.run ⟨[], oneEntryDB⟩
        [.create, .modifyCoins 1 (fun _ => {}), .flush, .discard, .getCoins 1] = some (s', as) ∧
      PlainStack.run CCoins.normalize ⟨observe oneEntryDB [], []⟩
          [.create, .modifyCoins 1 (fun _ => {}), .flush, .discard, .getCoins 1] =
        (s'.toPlain, as.map Answer.observe) := by
  obtain ⟨s', as, -, hrun, -, -, hplain⟩ := coinsStack_refines_plainMap oneEntryDB_trimmed
    [.create, .modifyCoins 1 (fun _ => {}), .flush, .discard, .getCoins 1]
  exact ⟨s', as, hrun, hplain (by simp [Op.Respectful, respectful_clear])⟩

/-- **The metadata of a pruned entry.**  An entry fetched from the database keeps its
metadata in the cache when its outputs are dropped; one created in the cache is erased.
So a modification that reads that metadata is answered one way in the first case and
another in the second, and neither a map that forgets pruned entries nor one that keeps
them gives both answers. -/
theorem stale_metadata :
    (∃ s' as, CoinsStack.run ⟨[], oneEntryDB⟩
        [.create, .modifyCoins 1 clearOutputs, .modifyCoins 1 addOutput, .getCoins 1] =
          some (s', as) ∧
      (PlainStack.run CCoins.normalize ⟨observe oneEntryDB [], []⟩
        [.create, .modifyCoins 1 clearOutputs, .modifyCoins 1 addOutput, .getCoins 1]).2 ≠
          as.map Answer.observe) ∧
    (∃ s' as, CoinsStack.run ⟨[], {}⟩
        [.create, .modifyCoins 1 (fun _ => { vout := oneOutput, nHeight := 5 }),
          .modifyCoins 1 clearOutputs, .modifyCoins 1 addOutput, .getCoins 1] = some (s', as) ∧
      (PlainStack.run CCoins.cleanup ⟨observe {} [], []⟩
        [.create, .modifyCoins 1 (fun _ => { vout := oneOutput, nHeight := 5 }),
          .modifyCoins 1 clearOutputs, .modifyCoins 1 addOutput, .getCoins 1]).2 ≠
          as.map Answer.observe) := by
  refine ⟨⟨_, _, rfl, ?_⟩, ⟨_, _, rfl, ?_⟩⟩
  · decide
  · decide

end CoinsStack

end FairCoin
