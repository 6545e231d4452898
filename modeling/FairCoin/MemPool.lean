import FairCoin.Index
import FairCoin.Lib.Worklist

/-!
# The memory pool

`CTxMemPool` of `src/txmempool.cpp`: the transactions that wait for a block, and for each output
they spend the input that spends it.

* `remove` — take a transaction out, with everything that spends it when `fRecursive` is set.  The
  children of a transaction are read from `mapNextTx`, from which they are erased meanwhile.
* `removeConflicts` — take out what spends an input of another transaction.
* `Consistent` — what `check` asserts of `mapTx` and `mapNextTx`.
* `remove_recursive` — **exactly the descendants go**, each listed once, and nothing else changes.
* `removeConflicts_spec` — **exactly the conflicts and their descendants go**.

Priorities and fees, and the estimator that reads them, are not part of the model.
-/

namespace FairCoin

open Store

/-! ## The pool -/

/-- `CTxMemPoolEntry`. -/
structure CTxMemPoolEntry where
  tx : CTransaction
  nTxSize : UInt64
  nTime : ℤ := 0
  deriving DecidableEq

/-- `CInPoint`: an input of a transaction of the pool, and the transaction `ptx` points to. -/
structure CInPoint where
  ptx : CTransaction
  n : ℕ
  deriving DecidableEq

/-- `CMempoolAddressDeltaKey`. -/
structure CMempoolAddressDeltaKey where
  type : ℕ
  addressBytes : UInt160
  txhash : UInt256
  index : ℕ
  spending : ℕ
  deriving DecidableEq

/-- `CMempoolAddressDelta`. -/
structure CMempoolAddressDelta where
  time : ℤ
  amount : ℤ
  prevhash : UInt256 := 0
  prevout : ℕ := 0
  deriving DecidableEq

/-- `CTxMemPool`. -/
structure CTxMemPool where
  nTransactionsUpdated : UInt32 := 0
  totalTxSize : UInt64 := 0
  mapAddress : Map CMempoolAddressDeltaKey CMempoolAddressDelta := ∅
  mapAddressInserted : Map UInt256 (List CMempoolAddressDeltaKey) := ∅
  mapSpent : Map CSpentIndexKey CSpentIndexValue := ∅
  mapSpentInserted : Map UInt256 (List CSpentIndexKey) := ∅
  mapTx : Map UInt256 CTxMemPoolEntry := ∅
  mapNextTx : Map COutPoint CInPoint := ∅

namespace CTxMemPool

/-- `addUnchecked`. -/
def addUnchecked (pool : CTxMemPool) (hash : UInt256) (entry : CTxMemPoolEntry) : CTxMemPool :=
  { pool with
    mapTx := pool.mapTx.insert hash entry
    mapNextTx := entry.tx.vin.zipIdx.foldl
      (fun m txin => m.insert txin.1.prevout ⟨entry.tx, txin.2⟩) pool.mapNextTx
    nTransactionsUpdated := pool.nTransactionsUpdated + 1
    totalTxSize := pool.totalTxSize + entry.nTxSize }

/-- `removeAddressIndex`. -/
def removeAddressIndex (pool : CTxMemPool) (txhash : UInt256) : CTxMemPool :=
  match pool.mapAddressInserted.lookup txhash with
  | none => pool
  | some keys =>
      { pool with
        mapAddress := keys.foldl (fun m key => m.erase key) pool.mapAddress
        mapAddressInserted := pool.mapAddressInserted.erase txhash }

/-- `removeSpentIndex`. -/
def removeSpentIndex (pool : CTxMemPool) (txhash : UInt256) : CTxMemPool :=
  match pool.mapSpentInserted.lookup txhash with
  | none => pool
  | some keys =>
      { pool with
        mapSpent := keys.foldl (fun m key => m.erase key) pool.mapSpent
        mapSpentInserted := pool.mapSpentInserted.erase txhash }

/-- The transactions that `mapNextTx` has for the first outputs of a transaction, in the order of
the outputs. -/
def spenders (pool : CTxMemPool) (hash : UInt256) (nOutputs : ℕ) : List UInt256 :=
  (List.range nOutputs).filterMap fun i =>
    (pool.mapNextTx.lookup ⟨hash, i⟩).map fun inPoint => inPoint.ptx.hash

/-- An entry leaves the pool. -/
def eraseEntry (pool : CTxMemPool) (hash : UInt256) (entry : CTxMemPoolEntry) : CTxMemPool :=
  (({ pool with
      mapNextTx := entry.tx.vin.foldl (fun m txin => m.erase txin.prevout) pool.mapNextTx
      totalTxSize := pool.totalTxSize - entry.nTxSize
      mapTx := pool.mapTx.erase hash
      nTransactionsUpdated := pool.nTransactionsUpdated + 1 } : CTxMemPool).removeAddressIndex
    hash).removeSpentIndex hash

@[simp] theorem removeAddressIndex_mapTx (pool : CTxMemPool) (txhash : UInt256) :
    (pool.removeAddressIndex txhash).mapTx = pool.mapTx := by
  unfold removeAddressIndex
  split <;> rfl

@[simp] theorem removeAddressIndex_mapNextTx (pool : CTxMemPool) (txhash : UInt256) :
    (pool.removeAddressIndex txhash).mapNextTx = pool.mapNextTx := by
  unfold removeAddressIndex
  split <;> rfl

@[simp] theorem removeSpentIndex_mapTx (pool : CTxMemPool) (txhash : UInt256) :
    (pool.removeSpentIndex txhash).mapTx = pool.mapTx := by
  unfold removeSpentIndex
  split <;> rfl

@[simp] theorem removeSpentIndex_mapNextTx (pool : CTxMemPool) (txhash : UInt256) :
    (pool.removeSpentIndex txhash).mapNextTx = pool.mapNextTx := by
  unfold removeSpentIndex
  split <;> rfl

@[simp] theorem eraseEntry_mapTx (pool : CTxMemPool) (hash : UInt256) (entry : CTxMemPoolEntry) :
    (pool.eraseEntry hash entry).mapTx = pool.mapTx.erase hash := by
  simp [eraseEntry]

@[simp] theorem eraseEntry_mapNextTx (pool : CTxMemPool) (hash : UInt256)
    (entry : CTxMemPoolEntry) : (pool.eraseEntry hash entry).mapNextTx =
      entry.tx.vin.foldl (fun m txin => m.erase txin.prevout) pool.mapNextTx := by
  simp [eraseEntry]

/-- An entry that leaves makes the pool smaller. -/
theorem length_eraseEntry_lt {pool : CTxMemPool} {hash : UInt256} {entry : CTxMemPoolEntry}
    (h : pool.mapTx.lookup hash = some entry) :
    (pool.eraseEntry hash entry).mapTx.entries.length < pool.mapTx.entries.length := by
  have hmem : hash ∈ pool.mapTx := AList.lookup_isSome.1 (by rw [h]; rfl)
  rw [eraseEntry_mapTx]
  have hlen : (pool.mapTx.erase hash).keys.length + 1 = pool.mapTx.keys.length := by
    rw [AList.keys_erase, List.length_erase_of_mem (AList.mem_keys.1 hmem)]
    have := List.length_pos_of_mem (AList.mem_keys.1 hmem)
    omega
  simp only [AList.keys, List.keys, List.length_map] at hlen
  omega

/-- The loop of `remove`.  It ends: an entry leaves the pool, or the queue gets shorter. -/
def removeLoop (fRecursive : Bool) (pool : CTxMemPool) (removed : List CTransaction)
    (txToRemove : List UInt256) : CTxMemPool × List CTransaction :=
  match txToRemove with
  | [] => (pool, removed)
  | hash :: rest =>
      match _h : pool.mapTx.lookup hash with
      | none => removeLoop fRecursive pool removed rest
      | some entry =>
          removeLoop fRecursive (pool.eraseEntry hash entry) (removed ++ [entry.tx])
            (if fRecursive then rest ++ pool.spenders hash entry.tx.vout.length else rest)
termination_by (pool.mapTx.entries.length, txToRemove.length)
decreasing_by
  · exact Prod.Lex.right _ (by simp)
  · exact Prod.Lex.left _ _ (length_eraseEntry_lt _h)

/-- `CTxMemPool::remove`. -/
def remove (pool : CTxMemPool) (origTx : CTransaction) (removed : List CTransaction)
    (fRecursive : Bool) : CTxMemPool × List CTransaction :=
  removeLoop fRecursive pool removed (origTx.hash ::
    if fRecursive ∧ (pool.mapTx.lookup origTx.hash).isNone then
      pool.spenders origTx.hash origTx.vout.length else [])

/-- `removeConflicts` for one input. -/
def removeConflict (tx : CTransaction) (s : CTxMemPool × List CTransaction) (txin : CTxIn) :
    CTxMemPool × List CTransaction :=
  match s.1.mapNextTx.lookup txin.prevout with
  | none => s
  | some inPoint =>
      if inPoint.ptx.hash ≠ tx.hash then s.1.remove inPoint.ptx s.2 true else s

/-- `CTxMemPool::removeConflicts`. -/
def removeConflicts (pool : CTxMemPool) (tx : CTransaction) (removed : List CTransaction) :
    CTxMemPool × List CTransaction :=
  tx.vin.foldl (removeConflict tx) (pool, removed)

end CTxMemPool

/-! ## Dependence -/

/-- A transaction spends an output of another. -/
def CTransaction.Spends (x y : CTransaction) : Prop :=
  ∃ txin ∈ x.vin, txin.prevout.hash = y.hash ∧ txin.prevout.n < y.vout.length

/-- Two transactions spend the same output. -/
def CTransaction.SharesInput (x y : CTransaction) : Prop :=
  ∃ a ∈ x.vin, ∃ b ∈ y.vin, a.prevout = b.prevout

namespace CTxMemPool

/-- The transaction is in the pool. -/
def Has (pool : CTxMemPool) (tx : CTransaction) : Prop :=
  ∃ entry, pool.mapTx.lookup tx.hash = some entry ∧ entry.tx = tx

/-- The transactions of the pool that depend on the outputs of a transaction, directly or through
other transactions of the pool. -/
inductive DependsOn (pool : CTxMemPool) (t : CTransaction) : CTransaction → Prop
  | direct {x : CTransaction} : pool.Has x → x.Spends t → DependsOn pool t x
  | through {x y : CTransaction} : DependsOn pool t y → pool.Has x → x.Spends y →
      DependsOn pool t x

/-- **A consistent pool**, as `check` has it: entries are filed under their hashes, and `mapNextTx`
is the inverse of the inputs. -/
structure Consistent (pool : CTxMemPool) : Prop where
  filed : ∀ hash entry, pool.mapTx.lookup hash = some entry → entry.tx.hash = hash
  inputs : ∀ hash entry, pool.mapTx.lookup hash = some entry → ∀ i txin,
    entry.tx.vin[i]? = some txin → pool.mapNextTx.lookup txin.prevout = some ⟨entry.tx, i⟩
  next : ∀ prevout inPoint, pool.mapNextTx.lookup prevout = some inPoint →
    pool.Has inPoint.ptx ∧
      ∃ txin, inPoint.ptx.vin[inPoint.n]? = some txin ∧ txin.prevout = prevout

/-- What is left of a pool when transactions are gone. -/
structure Pruned (pool : CTxMemPool) (gone : List CTransaction) (pool' : CTxMemPool) : Prop where
  entries : ∀ hash entry, pool'.mapTx.lookup hash = some entry ↔
    pool.mapTx.lookup hash = some entry ∧ entry.tx ∉ gone
  next : ∀ prevout inPoint, pool'.mapNextTx.lookup prevout = some inPoint ↔
    pool.mapNextTx.lookup prevout = some inPoint ∧ inPoint.ptx ∉ gone

section Removal

variable {pool pool' : CTxMemPool} {gone : List CTransaction}

theorem Pruned.refl (pool : CTxMemPool) : Pruned pool [] pool := by
  refine ⟨fun hash entry => ?_, fun prevout inPoint => ?_⟩ <;> simp

/-- The spender of an output is a transaction that has it as an input. -/
theorem Consistent.ptx_eq_iff (hpool : pool.Consistent) {hash : UInt256} {entry : CTxMemPoolEntry}
    (he : pool.mapTx.lookup hash = some entry) {prevout : COutPoint} {inPoint : CInPoint}
    (hn : pool.mapNextTx.lookup prevout = some inPoint) :
    inPoint.ptx = entry.tx ↔ prevout ∈ entry.tx.vin.map CTxIn.prevout := by
  rw [List.mem_map]
  constructor
  · intro heq
    obtain ⟨-, txin, hin, hprev⟩ := hpool.next prevout inPoint hn
    rw [heq] at hin
    exact ⟨txin, List.mem_of_getElem? hin, hprev⟩
  · rintro ⟨txin, hin, rfl⟩
    obtain ⟨i, hi⟩ := List.getElem?_of_mem hin
    have := hpool.inputs hash entry he i txin hi
    rw [hn, Option.some.injEq] at this
    rw [this]

/-- One more transaction is gone. -/
theorem Pruned.eraseEntry (hpool : pool.Consistent) (h : Pruned pool gone pool') {hash : UInt256}
    {entry : CTxMemPoolEntry} (he : pool'.mapTx.lookup hash = some entry) :
    Pruned pool (gone ++ [entry.tx]) (pool'.eraseEntry hash entry) := by
  have he₀ := ((h.entries hash entry).1 he).1
  refine ⟨fun hash' entry' => ?_, fun prevout inPoint => ?_⟩
  · have hsame : pool.mapTx.lookup hash' = some entry' → (entry'.tx = entry.tx ↔ hash' = hash) := by
      intro he'
      constructor
      · intro heq
        rw [← hpool.filed hash' entry' he', heq, hpool.filed hash entry he₀]
      · rintro rfl
        rw [he₀, Option.some.injEq] at he'
        rw [he']
    rw [eraseEntry_mapTx, lookup_erase_eq, List.mem_append, List.mem_singleton, not_or]
    split
    · next hh =>
      constructor
      · intro hnone
        exact absurd hnone (by simp)
      · rintro ⟨he', -, hne⟩
        exact absurd ((hsame he').2 hh) hne
    · next hh =>
      rw [h.entries]
      constructor
      · rintro ⟨he', hg⟩
        exact ⟨he', hg, fun heq => hh ((hsame he').1 heq)⟩
      · rintro ⟨he', hg, -⟩
        exact ⟨he', hg⟩
  · rw [eraseEntry_mapNextTx, lookup_foldl_erase, h.next, List.mem_append, List.mem_singleton,
      not_or]
    constructor
    · rintro ⟨⟨hn, hg⟩, hne⟩
      exact ⟨hn, hg, fun heq => hne ((hpool.ptx_eq_iff he₀ hn).1 heq)⟩
    · rintro ⟨hn, hg, hne⟩
      exact ⟨⟨hn, hg⟩, fun hin => hne ((hpool.ptx_eq_iff he₀ hn).2 hin)⟩

/-- What is left is consistent. -/
theorem Pruned.consistent (hpool : pool.Consistent) (h : Pruned pool gone pool') :
    pool'.Consistent := by
  refine ⟨fun hash entry he => ?_, fun hash entry he i txin hi => ?_, fun prevout inPoint hn => ?_⟩
  · exact hpool.filed hash entry ((h.entries hash entry).1 he).1
  · obtain ⟨he₀, hg⟩ := (h.entries hash entry).1 he
    exact (h.next _ _).2 ⟨hpool.inputs hash entry he₀ i txin hi, hg⟩
  · obtain ⟨hn₀, hg⟩ := (h.next prevout inPoint).1 hn
    obtain ⟨⟨entry, he, heq⟩, hin⟩ := hpool.next prevout inPoint hn₀
    exact ⟨⟨entry, (h.entries _ _).2 ⟨he, by rw [heq]; exact hg⟩, heq⟩, hin⟩

/-! ## Removal as the closure of a graph -/

/-- The hash of a transaction of the pool. -/
def Live (pool : CTxMemPool) (hash : UInt256) : Prop := ∃ tx, pool.Has tx ∧ tx.hash = hash

/-- A transaction of the pool is spent by another one of the pool. -/
def Feeds (pool : CTxMemPool) (a b : UInt256) : Prop :=
  ∃ x y, pool.Has x ∧ x.hash = a ∧ pool.Has y ∧ y.hash = b ∧ y.Spends x

theorem Has.eq {x y : CTransaction} (hx : pool.Has x) (hy : pool.Has y) (h : x.hash = y.hash) :
    x = y := by
  obtain ⟨e, he, rfl⟩ := hx
  obtain ⟨e', he', rfl⟩ := hy
  rw [h, he', Option.some.injEq] at he
  rw [he]

theorem Feeds.live {a b : UInt256} (h : pool.Feeds a b) : pool.Live a ∧ pool.Live b := by
  obtain ⟨x, y, hx, ha, hy, hb, -⟩ := h
  exact ⟨⟨x, hx, ha⟩, ⟨y, hy, hb⟩⟩

theorem Consistent.has (hpool : pool.Consistent) {hash : UInt256} {entry : CTxMemPoolEntry}
    (he : pool.mapTx.lookup hash = some entry) : pool.Has entry.tx :=
  ⟨entry, by rw [hpool.filed hash entry he]; exact he, rfl⟩

theorem Pruned.has_iff (h : Pruned pool gone pool') (x : CTransaction) :
    pool'.Has x ↔ pool.Has x ∧ x ∉ gone := by
  constructor
  · rintro ⟨e, he, rfl⟩
    obtain ⟨he₀, hg⟩ := (h.entries _ _).1 he
    exact ⟨⟨e, he₀, rfl⟩, hg⟩
  · rintro ⟨⟨e, he, rfl⟩, hg⟩
    exact ⟨e, (h.entries _ _).2 ⟨he, hg⟩, rfl⟩

/-- What `mapNextTx` has for the outputs of a transaction: the transactions that spend them. -/
theorem Consistent.mem_spenders_iff (hpool : pool.Consistent) {t : CTransaction} {b : UInt256} :
    b ∈ pool.spenders t.hash t.vout.length ↔ ∃ y, pool.Has y ∧ y.hash = b ∧ y.Spends t := by
  unfold spenders
  simp only [List.mem_filterMap, List.mem_range, Option.map_eq_some_iff]
  constructor
  · rintro ⟨i, hi, inPoint, hn, rfl⟩
    obtain ⟨hhas, txin, hin, hprev⟩ := hpool.next _ inPoint hn
    exact ⟨inPoint.ptx, hhas, rfl, txin, List.mem_of_getElem? hin, by rw [hprev], by rw [hprev]; exact hi⟩
  · rintro ⟨y, ⟨e, he, rfl⟩, rfl, txin, hin, hhash, hlt⟩
    obtain ⟨i, hi⟩ := List.getElem?_of_mem hin
    refine ⟨txin.prevout.n, hlt, ⟨e.tx, i⟩, ?_, rfl⟩
    rw [← hhash]
    exact hpool.inputs _ e he i txin hi

/-- **The loop of `remove`.**  It takes out what can be reached from what is queued. -/
theorem removeLoop_spec (hpool : pool.Consistent) {start : UInt256 → Prop}
    {removed₀ : List CTransaction} (pool' : CTxMemPool) (removed : List CTransaction)
    (txToRemove : List UInt256) : ∀ gone, removed = removed₀ ++ gone → Pruned pool gone pool' →
      (∀ x ∈ gone, pool.Has x) →
      Worklist.Closing pool.Feeds pool.Live start (gone.map CTransaction.hash) txToRemove →
      ∃ gone' pool'', removeLoop true pool' removed txToRemove = (pool'', removed₀ ++ gone') ∧
        Pruned pool gone' pool'' ∧ (∀ x ∈ gone', pool.Has x) ∧
        Worklist.Closing pool.Feeds pool.Live start (gone'.map CTransaction.hash) [] := by
  have hlive : ∀ a b, pool.Feeds a b → pool.Live b := fun a b h => h.live.2
  induction pool', removed, txToRemove using removeLoop.induct true with
  | case1 pool' removed =>
    rintro gone rfl hpruned hgone hclosing
    exact ⟨gone, pool', by rw [removeLoop], hpruned, hgone, hclosing⟩
  | case2 pool' removed hash rest hnone ih =>
    rintro gone rfl hpruned hgone hclosing
    rw [removeLoop]
    split
    · refine ih gone rfl hpruned hgone (hclosing.skip hlive ?_)
      -- a transaction that is not in the pool any more is among the ones that are gone
      rintro ⟨x, ⟨entry, hentry, rfl⟩, rfl⟩
      rw [List.mem_map]
      by_contra hne
      have := (hpruned.entries _ entry).2 ⟨hentry, fun hg => hne ⟨entry.tx, hg, rfl⟩⟩
      rw [hnone] at this
      exact absurd this (by simp)
    · next entry he =>
      rw [hnone] at he
      exact absurd he (by simp)
  | case3 pool' removed hash rest entry he ih =>
    rintro gone rfl hpruned hgone hclosing
    rw [removeLoop]
    split
    · next hnone =>
      rw [hnone] at he
      exact absurd he (by simp)
    · next entry' he' =>
      rw [he, Option.some.injEq] at he'
      subst he'
      have hpool' := hpruned.consistent hpool
      have hfiled := hpool'.filed hash entry he
      obtain ⟨hhas, hnotgone⟩ := (hpruned.has_iff entry.tx).1 (hpool'.has he)
      have hgone' : ∀ x ∈ gone ++ [entry.tx], pool.Has x := by
        intro x hx
        rw [List.mem_append, List.mem_singleton] at hx
        rcases hx with hx | rfl
        · exact hgone x hx
        · exact hhas
      refine ih (gone ++ [entry.tx]) (by simp) (hpruned.eraseEntry hpool he) hgone' ?_
      rw [dif_pos rfl, List.map_append, List.map_singleton, hfiled]
      -- the spenders of the transaction are the ones the pool has left
      refine hclosing.take ⟨entry.tx, hhas, hfiled⟩ ?_ ?_ ?_
      · rw [List.mem_map]
        rintro ⟨x, hx, hxh⟩
        rw [(hgone x hx).eq hhas (by rw [hxh, hfiled])] at hx
        exact hnotgone hx
      · intro b hb
        rw [← hfiled, hpool'.mem_spenders_iff] at hb
        obtain ⟨y, hy, rfl, hspends⟩ := hb
        exact ⟨entry.tx, y, hhas, hfiled, ((hpruned.has_iff y).1 hy).1, rfl, hspends⟩
      · rintro b ⟨x, y, hx, hxh, hy, rfl, hspends⟩
        rw [hx.eq hhas (by rw [hxh, hfiled])] at hspends
        by_cases hg : y ∈ gone
        · exact .inl (List.mem_map_of_mem hg)
        · right
          rw [← hfiled, hpool'.mem_spenders_iff]
          exact ⟨y, (hpruned.has_iff y).2 ⟨hy, hg⟩, rfl, hspends⟩

/-! ## What is removed -/

theorem dependsOn_iff {t x : CTransaction} : pool.DependsOn t x ↔ pool.Has x ∧
    ∃ s, pool.Has s ∧ s.Spends t ∧ Relation.ReflTransGen pool.Feeds s.hash x.hash := by
  constructor
  · intro h
    induction h with
    | @direct x hx hspends => exact ⟨hx, x, hx, hspends, .refl⟩
    | @through x y _ hx hspends ih =>
      obtain ⟨hy, s, hs, hst, hpath⟩ := ih
      exact ⟨hx, s, hs, hst, hpath.tail ⟨y, x, hy, rfl, hx, rfl, hspends⟩⟩
  · rintro ⟨hx, s, hs, hst, hpath⟩
    -- every transaction on the way depends on `t`
    have hall : ∀ {b}, Relation.ReflTransGen pool.Feeds s.hash b →
        ∀ x, pool.Has x → x.hash = b → pool.DependsOn t x := by
      intro b hb
      induction hb with
      | refl =>
        intro x hx hxs
        rw [hx.eq hs hxs]
        exact .direct hs hst
      | tail _ hfeeds ih =>
        intro x hx hxb
        obtain ⟨y, z, hy, hyb, hz, hzb, hspends⟩ := hfeeds
        rw [hx.eq hz (by rw [hxb, hzb])]
        exact .through (ih y hy hyb) hz hspends
    exact hall hpath x hx rfl

/-- What can be reached from a transaction of the pool. -/
theorem reflTransGen_feeds_iff {c x : CTransaction} (hc : pool.Has c) (hx : pool.Has x) :
    Relation.ReflTransGen pool.Feeds c.hash x.hash ↔ x = c ∨ pool.DependsOn c x := by
  rw [Relation.ReflTransGen.cases_head_iff, dependsOn_iff]
  constructor
  · rintro (heq | ⟨b, ⟨y, s, hy, hyc, hs, rfl, hspends⟩, hpath⟩)
    · exact .inl (hx.eq hc heq.symm)
    · rw [hy.eq hc hyc] at hspends
      exact .inr ⟨hx, s, hs, hspends, hpath⟩
  · rintro (rfl | ⟨-, s, hs, hspends, hpath⟩)
    · exact .inl rfl
    · exact .inr ⟨s.hash, ⟨c, s, hc, rfl, hs, rfl, hspends⟩, hpath⟩

/-- The end of a removal, said of transactions. -/
theorem mem_gone_iff {start : UInt256 → Prop} (hgone : ∀ x ∈ gone, pool.Has x)
    (hclosing : Worklist.Closing pool.Feeds pool.Live start (gone.map CTransaction.hash) [])
    (x : CTransaction) :
    x ∈ gone ↔ pool.Has x ∧ Worklist.Reached pool.Feeds start x.hash := by
  have hmem : x ∈ gone ↔ pool.Has x ∧ x.hash ∈ gone.map CTransaction.hash := by
    rw [List.mem_map]
    constructor
    · intro hx
      exact ⟨hgone x hx, x, hx, rfl⟩
    · rintro ⟨hx, y, hy, hyx⟩
      rwa [← (hgone y hy).eq hx hyx]
  rw [hmem, hclosing.mem_done_iff (fun a b h => h.live)]
  constructor
  · rintro ⟨hx, -, hreach⟩
    exact ⟨hx, hreach⟩
  · rintro ⟨hx, hreach⟩
    exact ⟨hx, ⟨x, hx, rfl⟩, hreach⟩

/-- **Recursive removal.**  From a consistent pool `remove` takes out the transaction, if it is
there, and all that depends on its outputs, directly or through the pool; it lists each of them
once, and leaves all other entries of `mapTx` and `mapNextTx` as they are.  The transaction is in
the pool, or no transaction of the pool has its hash. -/
theorem remove_recursive (hpool : pool.Consistent) (t : CTransaction)
    (ht : ∀ entry, pool.mapTx.lookup t.hash = some entry → entry.tx = t)
    (removed : List CTransaction) : ∃ gone pool',
      pool.remove t removed true = (pool', removed ++ gone) ∧
      (gone.map CTransaction.hash).Nodup ∧
      (∀ x, x ∈ gone ↔ pool.Has x ∧ (x = t ∨ pool.DependsOn t x)) ∧
      Pruned pool gone pool' := by
  set queue := t.hash :: if true = true ∧ (pool.mapTx.lookup t.hash).isNone = true then
    pool.spenders t.hash t.vout.length else [] with hqueue
  have hempty : Worklist.Closing pool.Feeds pool.Live (fun _ => False) [] [] := .empty
  have hstart := hempty.grow queue
  obtain ⟨gone, pool', hloop, hpruned, hgone, hclosing⟩ := removeLoop_spec hpool
    pool removed queue [] (removed.append_nil).symm (Pruned.refl pool) (by simp) hstart
  refine ⟨gone, pool', hloop, hclosing.nodup, fun x => ?_, hpruned⟩
  rw [mem_gone_iff hgone hclosing]
  refine and_congr_right fun hx => ?_
  simp only [Worklist.Reached, false_or]
  cases hlookup : pool.mapTx.lookup t.hash with
  | some entry =>
    have hhas : pool.Has t := ⟨entry, hlookup, ht entry hlookup⟩
    rw [← reflTransGen_feeds_iff hhas hx]
    simp [hqueue, hlookup]
  | none =>
    have hdead : ∀ y, pool.Has y → y.hash ≠ t.hash := by
      rintro y ⟨e, he, rfl⟩ heq
      rw [heq, hlookup] at he
      exact absurd he (by simp)
    have hmem : ∀ b, b ∈ queue ↔ b = t.hash ∨ ∃ y, pool.Has y ∧ y.hash = b ∧ y.Spends t := by
      intro b
      rw [← hpool.mem_spenders_iff]
      simp [hqueue, hlookup]
    rw [dependsOn_iff]
    constructor
    · rintro ⟨b, hb, hpath⟩
      rcases (hmem b).1 hb with rfl | ⟨y, hy, rfl, hspends⟩
      · -- nothing of the pool is reached through a hash that is not there
        rcases Relation.ReflTransGen.cases_head_iff.1 hpath with heq | ⟨c, ⟨y, -, hy, hyt, -⟩, -⟩
        · exact absurd heq.symm (hdead x hx)
        · exact absurd hyt (hdead y hy)
      · exact .inr ⟨hx, y, hy, hspends, hpath⟩
    · rintro (rfl | ⟨-, y, hy, hspends, hpath⟩)
      · exact absurd rfl (hdead x hx)
      · exact ⟨y.hash, (hmem _).2 (.inr ⟨y, hy, rfl, hspends⟩), hpath⟩

/-! ## Conflicts -/

/-- The hashes of the transactions of the pool, other than `t`, that have one of the inputs. -/
def ConflictsOf (pool : CTxMemPool) (t : CTransaction) (inputs : List CTxIn) (hash : UInt256) :
    Prop :=
  ∃ c, pool.Has c ∧ c.hash = hash ∧ c.hash ≠ t.hash ∧
    ∃ a ∈ c.vin, ∃ b ∈ inputs, a.prevout = b.prevout

/-- One more input: the transaction that spends its output in the pool. -/
theorem Consistent.conflictsOf_concat (hpool : pool.Consistent) (t : CTransaction)
    (inputs : List CTxIn) (txin : CTxIn) (hash : UInt256) :
    pool.ConflictsOf t (inputs ++ [txin]) hash ↔ pool.ConflictsOf t inputs hash ∨
      ∃ inPoint, pool.mapNextTx.lookup txin.prevout = some inPoint ∧ inPoint.ptx.hash = hash ∧
        inPoint.ptx.hash ≠ t.hash := by
  constructor
  · rintro ⟨c, hc, rfl, hne, a, ha, b, hb, hab⟩
    rw [List.mem_append, List.mem_singleton] at hb
    rcases hb with hb | rfl
    · exact .inl ⟨c, hc, rfl, hne, a, ha, b, hb, hab⟩
    · obtain ⟨entry, he, rfl⟩ := hc
      obtain ⟨i, hi⟩ := List.getElem?_of_mem ha
      refine .inr ⟨⟨entry.tx, i⟩, ?_, rfl, hne⟩
      rw [← hab]
      exact hpool.inputs _ entry he i a hi
  · rintro (⟨c, hc, rfl, hne, a, ha, b, hb, hab⟩ | ⟨inPoint, hn, rfl, hne⟩)
    · exact ⟨c, hc, rfl, hne, a, ha, b, List.mem_append_left _ hb, hab⟩
    · obtain ⟨hhas, a, ha, hprev⟩ := hpool.next _ inPoint hn
      exact ⟨inPoint.ptx, hhas, rfl, hne, a, List.mem_of_getElem? ha, txin, by simp, hprev⟩

/-- `removeConflicts` for one input. -/
theorem removeConflict_spec (hpool : pool.Consistent) (t : CTransaction) {inputs : List CTxIn}
    (txin : CTxIn) {removed : List CTransaction} (hpruned : Pruned pool gone pool')
    (hgone : ∀ x ∈ gone, pool.Has x)
    (hclosing : Worklist.Closing pool.Feeds pool.Live (pool.ConflictsOf t inputs)
      (gone.map CTransaction.hash) []) :
    ∃ gone' pool'', removeConflict t (pool', removed ++ gone) txin = (pool'', removed ++ gone') ∧
      Pruned pool gone' pool'' ∧ (∀ x ∈ gone', pool.Has x) ∧
      Worklist.Closing pool.Feeds pool.Live (pool.ConflictsOf t (inputs ++ [txin]))
        (gone'.map CTransaction.hash) [] := by
  have hconcat := hpool.conflictsOf_concat t inputs txin
  -- without a conflict at this input nothing happens
  have hnothing : (∀ inPoint, pool.mapNextTx.lookup txin.prevout = some inPoint →
      inPoint.ptx.hash = t.hash) → ∀ hash, pool.ConflictsOf t inputs hash ↔
        pool.ConflictsOf t (inputs ++ [txin]) hash := by
    intro hsame hash
    rw [hconcat]
    constructor
    · exact .inl
    · rintro (h | ⟨inPoint, hn, -, hne⟩)
      · exact h
      · exact absurd (hsame inPoint hn) hne
  unfold removeConflict
  cases hlookup : pool.mapNextTx.lookup txin.prevout with
  | none =>
    have hnone : pool'.mapNextTx.lookup txin.prevout = none := by
      rw [Option.eq_none_iff_forall_not_mem]
      intro inPoint hn
      have := ((hpruned.next _ _).1 hn).1
      rw [hlookup] at this
      exact absurd this (by simp)
    rw [hnone]
    exact ⟨gone, pool', rfl, hpruned, hgone, hclosing.congr (hnothing (by simp [hlookup]))⟩
  | some inPoint =>
    by_cases hsame : inPoint.ptx.hash = t.hash
    · refine ⟨gone, pool', ?_, hpruned, hgone, hclosing.congr (hnothing (by simpa [hlookup]))⟩
      cases hlookup' : pool'.mapNextTx.lookup txin.prevout with
      | none => rfl
      | some inPoint' =>
        have := ((hpruned.next _ _).1 hlookup').1
        rw [hlookup, Option.some.injEq] at this
        simp only
        rw [if_neg (by rw [← this]; exact not_not.2 hsame)]
    · -- the conflict is one more start
      have hstart := (hclosing.grow [inPoint.ptx.hash]).congr
        (fun hash => show _ ↔ pool.ConflictsOf t (inputs ++ [txin]) hash by
          have hne : t.hash ≠ inPoint.ptx.hash := Ne.symm hsame
          rw [hconcat, hlookup]
          simp [hne, eq_comm])
      rw [List.nil_append] at hstart
      obtain ⟨hhas, -⟩ := hpool.next _ _ hlookup
      by_cases hg : inPoint.ptx ∈ gone
      · have hnone : pool'.mapNextTx.lookup txin.prevout = none := by
          rw [Option.eq_none_iff_forall_not_mem]
          intro inPoint' hn
          obtain ⟨hn₀, hg'⟩ := (hpruned.next _ _).1 hn
          rw [hlookup, Option.some.injEq] at hn₀
          exact hg' (hn₀ ▸ hg)
        rw [hnone]
        refine ⟨gone, pool', rfl, hpruned, hgone, hstart.skip (fun a b h => h.live.2) ?_⟩
        exact fun _ => List.mem_map_of_mem hg
      · rw [(hpruned.next _ _).2 ⟨hlookup, hg⟩]
        simp only
        rw [if_pos hsame, remove]
        obtain ⟨entry, he, -⟩ := (hpruned.has_iff _).2 ⟨hhas, hg⟩
        rw [if_neg (by rw [he]; simp)]
        exact removeLoop_spec hpool pool' _ [inPoint.ptx.hash] gone rfl hpruned hgone hstart

/-- **Removal of conflicts.**  From a consistent pool `removeConflicts` takes out the transactions
other than `t` that spend an input of `t`, and all that depends on them, and nothing else. -/
theorem removeConflicts_spec (hpool : pool.Consistent) (t : CTransaction)
    (ht : ∀ entry, pool.mapTx.lookup t.hash = some entry → entry.tx = t)
    (removed : List CTransaction) : ∃ gone pool',
      pool.removeConflicts t removed = (pool', removed ++ gone) ∧
      (gone.map CTransaction.hash).Nodup ∧
      (∀ x, x ∈ gone ↔ pool.Has x ∧ ∃ c, pool.Has c ∧ c ≠ t ∧ c.SharesInput t ∧
        (x = c ∨ pool.DependsOn c x)) ∧
      Pruned pool gone pool' := by
  have hloop : ∀ (rest inputs : List CTxIn) {gone : List CTransaction} {pool' : CTxMemPool},
      Pruned pool gone pool' → (∀ x ∈ gone, pool.Has x) →
      Worklist.Closing pool.Feeds pool.Live (pool.ConflictsOf t inputs)
        (gone.map CTransaction.hash) [] →
      ∃ gone' pool'', rest.foldl (removeConflict t) (pool', removed ++ gone) =
          (pool'', removed ++ gone') ∧ Pruned pool gone' pool'' ∧ (∀ x ∈ gone', pool.Has x) ∧
        Worklist.Closing pool.Feeds pool.Live (pool.ConflictsOf t (inputs ++ rest))
          (gone'.map CTransaction.hash) [] := by
    intro rest
    induction rest with
    | nil =>
      intro inputs gone pool' hpruned hgone hclosing
      rw [List.append_nil]
      exact ⟨gone, pool', rfl, hpruned, hgone, hclosing⟩
    | cons txin rest ih =>
      intro inputs gone pool' hpruned hgone hclosing
      obtain ⟨gone₁, pool₁, hstep, hpruned₁, hgone₁, hclosing₁⟩ :=
        removeConflict_spec hpool t txin hpruned hgone hclosing
      obtain ⟨gone₂, pool₂, hrest, hpruned₂, hgone₂, hclosing₂⟩ :=
        ih (inputs ++ [txin]) hpruned₁ hgone₁ hclosing₁
      rw [List.append_assoc] at hclosing₂
      exact ⟨gone₂, pool₂, by rw [List.foldl_cons, hstep, hrest], hpruned₂, hgone₂, hclosing₂⟩
  have hempty : Worklist.Closing pool.Feeds pool.Live (pool.ConflictsOf t []) [] [] :=
    Worklist.Closing.empty.congr fun hash => by simp [ConflictsOf]
  obtain ⟨gone, pool', hfold, hpruned, hgone, hclosing⟩ :=
    hloop t.vin [] (Pruned.refl pool) (by simp) hempty
  rw [List.append_nil] at hfold
  refine ⟨gone, pool', hfold, hclosing.nodup, fun x => ?_, hpruned⟩
  rw [mem_gone_iff hgone hclosing, List.nil_append]
  refine and_congr_right fun hx => ?_
  constructor
  · rintro ⟨b, ⟨c, hc, rfl, hne, hshares⟩, hpath⟩
    refine ⟨c, hc, ?_, hshares, (reflTransGen_feeds_iff hc hx).1 hpath⟩
    rintro rfl
    exact hne rfl
  · rintro ⟨c, hc, hne, hshares, hdep⟩
    refine ⟨c.hash, ⟨c, hc, rfl, fun heq => ?_, hshares⟩, (reflTransGen_feeds_iff hc hx).2 hdep⟩
    obtain ⟨entry, he, rfl⟩ := hc
    exact hne (ht entry (by rw [← heq]; exact he))

/-- **Removal is exact.**  For every consistent pool and every transaction, in the pool or not,
`remove` takes out the transaction and what depends on it, `removeConflicts` takes out what
conflicts with it and what depends on that; what goes is listed once, and what stays is not
changed. -/
theorem removal_exact (hpool : pool.Consistent) (t : CTransaction)
    (ht : ∀ entry, pool.mapTx.lookup t.hash = some entry → entry.tx = t)
    (removed : List CTransaction) :
    (∃ gone pool', pool.remove t removed true = (pool', removed ++ gone) ∧
      (gone.map CTransaction.hash).Nodup ∧
      (∀ x, x ∈ gone ↔ pool.Has x ∧ (x = t ∨ pool.DependsOn t x)) ∧
      Pruned pool gone pool') ∧
    ∃ gone pool', pool.removeConflicts t removed = (pool', removed ++ gone) ∧
      (gone.map CTransaction.hash).Nodup ∧
      (∀ x, x ∈ gone ↔ pool.Has x ∧ ∃ c, pool.Has c ∧ c ≠ t ∧ c.SharesInput t ∧
        (x = c ∨ pool.DependsOn c x)) ∧
      Pruned pool gone pool' :=
  ⟨remove_recursive hpool t ht removed, removeConflicts_spec hpool t ht removed⟩

end Removal

/-! ## Building a pool -/

theorem consistent_empty : Consistent {} := by
  refine ⟨fun hash entry h => ?_, fun hash entry h => ?_, fun prevout inPoint h => ?_⟩ <;>
    exact absurd h (by simp)

/-- The entries of `mapNextTx` after the inputs of a transaction were written. -/
theorem lookup_inputs {tx : CTransaction} {o : COutPoint} {inPoint : CInPoint} {l : List CTxIn} :
    ∀ {k : ℕ} {m : Map COutPoint CInPoint}, (l.map CTxIn.prevout).Nodup →
      (((l.zipIdx k).foldl (fun m txin => m.insert txin.1.prevout ⟨tx, txin.2⟩) m).lookup o =
          some inPoint ↔
        (∃ i txin, l[i]? = some txin ∧ txin.prevout = o ∧ inPoint = ⟨tx, k + i⟩) ∨
          (o ∉ l.map CTxIn.prevout ∧ m.lookup o = some inPoint)) := by
  induction l with
  | nil => simp
  | cons a l ih =>
    intro k m hnodup
    rw [List.map_cons, List.nodup_cons] at hnodup
    rw [List.zipIdx_cons, List.foldl_cons, ih hnodup.2, lookup_insert_eq]
    constructor
    · rintro (⟨i, txin, hi, hprev, rfl⟩ | ⟨hnot, hl⟩)
      · exact .inl ⟨i + 1, txin, by simpa using hi, hprev, by rw [add_assoc, add_comm 1 i]⟩
      · split at hl
        · next ho =>
          rw [Option.some.injEq] at hl
          exact .inl ⟨0, a, rfl, ho.symm, hl.symm⟩
        · next ho => exact .inr ⟨by simp [ho, hnot], hl⟩
    · rintro (⟨i, txin, hi, hprev, rfl⟩ | ⟨hnot, hl⟩)
      · cases i with
        | zero =>
          rw [List.getElem?_cons_zero, Option.some.injEq] at hi
          subst hi
          right
          rw [← hprev, if_pos rfl]
          exact ⟨hnodup.1, rfl⟩
        | succ i =>
          rw [List.getElem?_cons_succ] at hi
          exact .inl ⟨i, txin, hi, hprev, by rw [add_assoc, add_comm 1 i]⟩
      · rw [List.map_cons, List.mem_cons, not_or] at hnot
        right
        rw [if_neg hnot.1]
        exact ⟨hnot.2, hl⟩

/-- A transaction that spends nothing twice, and nothing that the pool spends, can be added. -/
theorem Consistent.addUnchecked {pool : CTxMemPool} (hpool : pool.Consistent)
    {entry : CTxMemPoolEntry} (hnew : pool.mapTx.lookup entry.tx.hash = none)
    (hnodup : (entry.tx.vin.map CTxIn.prevout).Nodup)
    (hunspent : ∀ txin ∈ entry.tx.vin, pool.mapNextTx.lookup txin.prevout = none) :
    (pool.addUnchecked entry.tx.hash entry).Consistent := by
  have hentry : ∀ hash, (pool.addUnchecked entry.tx.hash entry).mapTx.lookup hash =
      if hash = entry.tx.hash then some entry else pool.mapTx.lookup hash :=
    fun hash => lookup_insert_eq ..
  have hnext : ∀ o inPoint, (pool.addUnchecked entry.tx.hash entry).mapNextTx.lookup o =
      some inPoint ↔ (∃ i txin, entry.tx.vin[i]? = some txin ∧ txin.prevout = o ∧
        inPoint = ⟨entry.tx, 0 + i⟩) ∨ (o ∉ entry.tx.vin.map CTxIn.prevout ∧
          pool.mapNextTx.lookup o = some inPoint) := fun o inPoint => lookup_inputs hnodup
  refine ⟨fun hash e he => ?_, fun hash e he i txin hi => ?_, fun o inPoint hn => ?_⟩
  · rw [hentry] at he
    split at he
    · next hh =>
      cases he
      exact hh.symm
    · exact hpool.filed hash e he
  · rw [hentry] at he
    rw [hnext]
    split at he
    · cases he
      exact .inl ⟨i, txin, hi, rfl, by rw [zero_add]⟩
    · have hold := hpool.inputs hash e he i txin hi
      refine .inr ⟨fun hmem => ?_, hold⟩
      obtain ⟨txin', hin, hprev⟩ := List.mem_map.1 hmem
      have := hunspent txin' hin
      rw [hprev, hold] at this
      exact absurd this (by simp)
  · rcases (hnext o inPoint).1 hn with ⟨i, txin, hi, hprev, rfl⟩ | ⟨-, hold⟩
    · refine ⟨⟨entry, by rw [hentry, if_pos rfl], rfl⟩, txin, by rw [zero_add]; exact hi, hprev⟩
    · obtain ⟨⟨e, he, heq⟩, hin⟩ := hpool.next o inPoint hold
      refine ⟨⟨e, ?_, heq⟩, hin⟩
      rw [hentry, if_neg ?_]
      · exact he
      · intro hh
        rw [hh, hnew] at he
        exact absurd he (by simp)

namespace PoolExample

/-- A transaction with inputs and a number of outputs. -/
def tx (hash : UInt256) (inputs : List COutPoint) (outputs : ℕ) : CTransaction where
  hash := hash
  vin := inputs.map fun o => { prevout := o }
  vout := List.replicate outputs ⟨11000, [0x51], -10⟩

/-- A transaction with two outputs, two transactions that spend one each, and a last one that
spends both of these. -/
def parent : CTransaction := tx 1 [⟨100, 0⟩] 2
def left : CTransaction := tx 2 [⟨1, 0⟩] 1
def right : CTransaction := tx 3 [⟨1, 1⟩] 1
def last : CTransaction := tx 4 [⟨2, 0⟩, ⟨3, 0⟩] 1

/-- Add transactions one after the other. -/
def poolOf (txs : List CTransaction) : CTxMemPool :=
  txs.foldl (fun pool t => pool.addUnchecked t.hash ⟨t, 100, 0⟩) {}

theorem consistent_add (txs : List CTransaction) (t : CTransaction) (h : (poolOf txs).Consistent)
    (hnew : (poolOf txs).mapTx.lookup t.hash = none) (hnodup : (t.vin.map CTxIn.prevout).Nodup)
    (hunspent : ∀ txin ∈ t.vin, (poolOf txs).mapNextTx.lookup txin.prevout = none) :
    (poolOf (txs ++ [t])).Consistent := by
  unfold poolOf
  rw [List.foldl_append]
  exact h.addUnchecked hnew hnodup hunspent

/-- The three that depend on the first, while it is in a block. -/
theorem consistent_orphans : (poolOf [left, right, last]).Consistent := by
  refine consistent_add [left, right] last ?_ (by decide) (by decide) (by decide)
  refine consistent_add [left] right ?_ (by decide) (by decide) (by decide)
  exact consistent_add [] left consistent_empty (by decide) (by decide)
    (by decide)

end PoolExample

open PoolExample in
/-- The first transaction is not in the pool, and the last one can be reached in two ways. -/
theorem removal_exact_diamond : (poolOf [left, right, last]).DependsOn parent last ∧
    ∃ gone pool', (poolOf [left, right, last]).remove parent [] true = (pool', [] ++ gone) ∧
      (gone.map CTransaction.hash).Nodup ∧
      (∀ x, x ∈ gone ↔ (poolOf [left, right, last]).Has x ∧
        (x = parent ∨ (poolOf [left, right, last]).DependsOn parent x)) ∧
      Pruned (poolOf [left, right, last]) gone pool' := by
  have hleft : (poolOf [left, right, last]).Has left := ⟨⟨left, 100, 0⟩, by decide, rfl⟩
  have hlast : (poolOf [left, right, last]).Has last := ⟨⟨last, 100, 0⟩, by decide, rfl⟩
  refine ⟨.through (.direct hleft ⟨_, List.mem_cons_self, rfl, by decide⟩) hlast
    ⟨_, List.mem_cons_self, rfl, by decide⟩, ?_⟩
  have hnone : (poolOf [left, right, last]).mapTx.lookup parent.hash = none := by decide
  exact (removal_exact consistent_orphans parent (by simp [hnone]) []).1

end CTxMemPool

end FairCoin
