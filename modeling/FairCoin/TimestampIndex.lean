import FairCoin.Ledger
import FairCoin.Lib.ByteOrder

/-!
# The timestamp index

`-timestampindex`: `ConnectBlock` writes a key of the time and the hash of each block, and
`GetTimestampIndex` walks the keys of a range of times.

* `readTimestampIndex_spec` — the walk meets the keys of the range, in the order of their times:
  times are written with the most significant byte first.
* `IndexedInv` — what the index holds after a run: every block that was ever connected, apart from
  genesis.
* `reports_iff` — **the index reports the active chain** exactly when the range does not contain
  the time of genesis, and every block of the range that was connected is still on the chain:
  `DisconnectBlock` does not erase the key, and `ConnectBlock` returns early on genesis.
-/

namespace FairCoin

open Store

/-! ## Keys in the database -/

/-- `DB_TIMESTAMPINDEX`. -/
def dbTimestampIndex : UInt8 := 0x73

/-- The bytes of a key: the time with the most significant byte first, and the bytes of the hash
as they are in memory. -/
def CTimestampIndexKey.bytes (key : CTimestampIndexKey) : Codec.Bytes :=
  dbTimestampIndex :: (ByteOrder.putBE 4 key.timestamp ++ Codec.putLE 32 key.blockHash.toNat)

/-- The bytes of a `CTimestampIndexIteratorKey`, where the walk starts. -/
def timestampIteratorKey (timestamp : ℕ) : Codec.Bytes :=
  dbTimestampIndex :: ByteOrder.putBE 4 timestamp

/-- The order of the keys in the database. -/
def timestampKeyLe (a b : CTimestampIndexKey) : Bool := !ByteOrder.lt b.bytes a.bytes

/-- `CBlockTreeDB::ReadTimestampIndex`: from the first key that is not before the iterator key to
the first one that is not below `high`.  Keys of other kinds have another first byte, and the walk
stops there. -/
def CBlockTreeDB.readTimestampIndex (db : CBlockTreeDB) (high low : ℕ) : List UInt256 :=
  (((sortedEntries timestampKeyLe db.timestampIndex).dropWhile
      fun e => ByteOrder.lt e.1.bytes (timestampIteratorKey low)).takeWhile
    fun e => decide (e.1.timestamp < high)).map fun e => e.1.blockHash

/-- `GetTimestampIndex`. -/
def getTimestampIndex (env : Env) (node : Node) (high low : ℕ) : Except String (List UInt256) :=
  if env.fTimestampIndex then .ok (node.blocktree.readTimestampIndex high low)
  else .error "Timestamp index not enabled"

section Order

variable {a b : CTimestampIndexKey}

theorem lt_cons (c : UInt8) (x y : Codec.Bytes) :
    ByteOrder.lt (c :: x) (c :: y) = ByteOrder.lt x y := by
  unfold ByteOrder.lt
  rw [decide_eq_decide]
  simp [ByteOrder.values]

/-- A key that is not after another has no later time. -/
theorem timestamp_le_of_keyLe (ha : a.timestamp < 256 ^ 4) (hb : b.timestamp < 256 ^ 4)
    (h : timestampKeyLe a b = true) : a.timestamp ≤ b.timestamp := by
  unfold timestampKeyLe CTimestampIndexKey.bytes at h
  rw [Bool.not_eq_true', lt_cons] at h
  by_contra hlt
  have := (ByteOrder.lt_putBE_append (Codec.putLE 32 b.blockHash.toNat)
    (Codec.putLE 32 a.blockHash.toNat) hb ha).2 (.inl (not_le.1 hlt))
  rw [this] at h
  exact absurd h (by simp)

/-- The walk starts at the first key whose time is not below. -/
theorem lt_iteratorKey {low : ℕ} (ha : a.timestamp < 256 ^ 4) (hlow : low < 256 ^ 4) :
    ByteOrder.lt a.bytes (timestampIteratorKey low) = true ↔ a.timestamp < low := by
  unfold CTimestampIndexKey.bytes timestampIteratorKey
  rw [lt_cons]
  have h := ByteOrder.lt_putBE_append (Codec.putLE 32 a.blockHash.toNat) [] ha hlow
  rw [List.append_nil] at h
  rw [h]
  have hnil : ∀ x, ByteOrder.lt x [] = false := by
    intro x
    simp [ByteOrder.lt, ByteOrder.values]
  simp [hnil]

end Order

/-- **The walk.**  It meets the keys whose time is in the range, each once, in the order of their
times. -/
theorem readTimestampIndex_spec {db : CBlockTreeDB} {high low : ℕ} (hlow : low < 256 ^ 4)
    (htimes : ∀ key, db.timestampIndex.lookup key = some () → key.timestamp < 256 ^ 4) :
    ∃ keys : List CTimestampIndexKey,
      db.readTimestampIndex high low = keys.map CTimestampIndexKey.blockHash ∧ keys.Nodup ∧
      keys.Pairwise (fun a b => a.timestamp ≤ b.timestamp) ∧
      ∀ key, key ∈ keys ↔ db.timestampIndex.lookup key = some () ∧ low ≤ key.timestamp ∧
        key.timestamp < high := by
  set es := sortedEntries timestampKeyLe db.timestampIndex with hes
  have hmem : ∀ e ∈ es, e.1.timestamp < 256 ^ 4 := fun e he => htimes e.1 (mem_sortedEntries he)
  have hsorted : es.Pairwise fun a b => a.1.timestamp ≤ b.1.timestamp := by
    have hkeys : es.Pairwise fun a b => timestampKeyLe a.1 b.1 = true := by
      refine List.pairwise_mergeSort ?_ ?_ (db.timestampIndex.entries.map fun e => (e.1, e.2))
      · intro a b c hab hbc
        unfold timestampKeyLe at *
        rw [Bool.not_eq_true'] at *
        exact ByteOrder.not_lt_trans hab hbc
      · exact fun a b => ByteOrder.not_lt_total a.1.bytes b.1.bytes
    refine List.Pairwise.imp_of_mem (fun {a b} ha hb hab => ?_) hkeys
    exact timestamp_le_of_keyLe (hmem a ha) (hmem b hb) hab
  have hdrop : es.dropWhile (fun e => ByteOrder.lt e.1.bytes (timestampIteratorKey low)) =
      es.filter fun e => !ByteOrder.lt e.1.bytes (timestampIteratorKey low) := by
    refine ByteOrder.dropWhile_eq_filter (hsorted.imp_of_mem fun {a b} ha hb hab hlt => ?_)
    rw [lt_iteratorKey (hmem b hb) hlow] at hlt
    exact (lt_iteratorKey (hmem a ha) hlow).2 (lt_of_le_of_lt hab hlt)
  have htake : (es.filter fun e => !ByteOrder.lt e.1.bytes (timestampIteratorKey low)).takeWhile
      (fun e => decide (e.1.timestamp < high)) =
        (es.filter fun e => !ByteOrder.lt e.1.bytes (timestampIteratorKey low)).filter
          fun e => decide (e.1.timestamp < high) := by
    refine ByteOrder.takeWhile_eq_filter ((hsorted.sublist List.filter_sublist).imp ?_)
    intro a b hab hlt
    rw [decide_eq_true_eq] at hlt ⊢
    omega
  set found := (es.filter fun e => !ByteOrder.lt e.1.bytes (timestampIteratorKey low)).filter
    fun e => decide (e.1.timestamp < high) with hfound
  have hsub : found.Sublist es := List.filter_sublist.trans List.filter_sublist
  refine ⟨found.map Prod.fst, ?_, ?_, ?_, fun key => ?_⟩
  · rw [CBlockTreeDB.readTimestampIndex, ← hes, hdrop, htake, List.map_map]
    rfl
  · refine List.Nodup.sublist (hsub.map _) ?_
    refine ((List.mergeSort_perm _ _).map Prod.fst).nodup_iff.2 ?_
    rw [List.map_map]
    exact db.timestampIndex.nodupKeys
  · rw [List.pairwise_map]
    exact hsorted.sublist hsub
  · rw [List.mem_map]
    constructor
    · rintro ⟨e, he, rfl⟩
      rw [hfound, List.mem_filter, List.mem_filter, decide_eq_true_eq, Bool.not_eq_true'] at he
      refine ⟨mem_sortedEntries he.1.1, ?_, he.2⟩
      by_contra hlt
      have := (lt_iteratorKey (hmem e he.1.1) hlow).2 (not_le.1 hlt)
      rw [he.1.2] at this
      exact absurd this (by simp)
    · rintro ⟨hl, hge, hlt⟩
      refine ⟨(key, ()), ?_, rfl⟩
      have he : (key, ()) ∈ es := mem_sortedEntries_iff.2 hl
      rw [hfound, List.mem_filter, List.mem_filter, decide_eq_true_eq, Bool.not_eq_true']
      refine ⟨⟨he, ?_⟩, hlt⟩
      rw [← Bool.not_eq_true, lt_iteratorKey (hmem _ he) hlow]
      exact not_lt.2 hge

/-! ## The index along a run -/

/-- A step of a node of this world that keeps the timestamp index.  The time of a block has 32
bits. -/
def Op.Indexed (w : World) : Op → Prop
  | .accept env block _ _ => env.In w ∧ env.fTimestampIndex = true ∧ block.nTime < 256 ^ 4
  | .connect env _ => env.In w ∧ env.fTimestampIndex = true
  | .disconnect env => env.In w ∧ env.fTimestampIndex = true

/-- The block that a step makes the tip. -/
def Op.connects? : Op → Option UInt256
  | .connect _ hash => some hash
  | _ => none

/-- The blocks that were the tip at some time. -/
def connectedBy (ops : List Op) : List UInt256 := ops.filterMap Op.connects?

/-- What a step does to the active chain. -/
def Op.move (chain : List UInt256) : Op → List UInt256
  | .accept .. => chain
  | .connect _ hash => chain ++ [hash]
  | .disconnect _ => chain.dropLast

/-- The active chain that the steps leave behind. -/
def activeAfter (ops : List Op) : List UInt256 := ops.foldl Op.move []

theorem connectedBy_concat (ops : List Op) (op : Op) :
    connectedBy (ops ++ [op]) = connectedBy ops ++ op.connects?.toList := by
  unfold connectedBy
  rw [List.filterMap_append]
  cases op <;> rfl

theorem activeAfter_concat (ops : List Op) (op : Op) :
    activeAfter (ops ++ [op]) = op.move (activeAfter ops) := by
  rw [activeAfter, List.foldl_append]
  rfl

/-- **What the index holds.**  Entries are filed under their hashes and have times of 32 bits;
every block of the chain was connected; the keys are those of the blocks, other than genesis, that
were connected at some time. -/
structure IndexedInv (w : World) (hist : List Op) (st : ChainState) : Prop where
  hash : ∀ h p, st.entry h = some p → p.phashBlock = some h
  time : ∀ h p, st.entry h = some p → p.nTime < 256 ^ 4
  chain : st.chain = activeAfter hist
  active : ∀ h ∈ st.chain, h ∈ connectedBy hist
  known : ∀ h ∈ connectedBy hist, ∃ p, st.entry h = some p
  keys : ∀ key, st.node.blocktree.timestampIndex.lookup key = some () ↔
    key.blockHash ∈ connectedBy hist ∧ key.blockHash ≠ w.network.hashGenesisBlock ∧
      ∃ p, st.entry key.blockHash = some p ∧ p.nTime = key.timestamp

theorem indexedInv_start (w : World) : IndexedInv w [] {} := by
  have hnone : ∀ h p, ({} : ChainState).entry h ≠ some p := fun h p hp => by cases hp
  refine ⟨fun h p hp => absurd hp (hnone h p), fun h p hp => absurd hp (hnone h p), rfl,
    fun h hh => absurd hh (by simp [ChainState.chain]), fun h hh => absurd hh (by simp [connectedBy]),
    fun key => ⟨fun hkey => absurd hkey (by simp), fun hkey => ?_⟩⟩
  exact absurd hkey.1 (by simp [connectedBy])

section Steps

variable {w : World} {hist : List Op} {st st' : ChainState}

theorem IndexedInv.accept {env : Env} {block : CBlock} {pos : CDiskBlockPos} {base : CBlockIndex}
    (hinv : IndexedInv w hist st) (htime : block.nTime < 256 ^ 4)
    (h : FairCoin.acceptBlock env block pos base st = .ok st') :
    IndexedInv w (hist ++ [.accept env block pos base]) st' := by
  obtain ⟨hnew, -, pprev, nHeight, -, rfl⟩ := acceptBlock_ok h
  set hash := env.blockHash block.toCBlockHeader with hhash
  set p := newEntry hash pprev nHeight block pos base with hp
  have hentry : ∀ g, (ChainState.setEntry { st with node := { st.node with
      blockFiles := Function.update st.node.blockFiles pos (some block) } } hash p).entry g =
        if g = hash then some p else st.entry g := fun g => ChainState.entry_setEntry _ hash g p
  have hconn : connectedBy (hist ++ [.accept env block pos base]) = connectedBy hist := by
    rw [connectedBy_concat]
    exact List.append_nil _
  have hother : ∀ g ∈ connectedBy hist, g ≠ hash := by
    rintro g hg rfl
    obtain ⟨q, hq⟩ := hinv.known _ hg
    rw [hnew] at hq
    exact absurd hq (by simp)
  refine ⟨fun g q hq => ?_, fun g q hq => ?_, ?_, ?_, ?_, fun key => ?_⟩
  · rw [hentry] at hq
    split at hq
    · next hg =>
      cases hq
      rw [hg]
      rfl
    · exact hinv.hash g q hq
  · rw [hentry] at hq
    split at hq
    · cases hq
      exact htime
    · exact hinv.time g q hq
  · rw [activeAfter_concat]
    exact hinv.chain
  · rw [hconn]
    exact hinv.active
  · rw [hconn]
    intro g hg
    rw [hentry, if_neg (hother g hg)]
    exact hinv.known g hg
  · rw [hconn, hentry]
    refine Iff.trans (hinv.keys key) (and_congr_right fun hc => ?_)
    rw [if_neg (hother _ hc)]

theorem IndexedInv.connect {env : Env} {hash : UInt256} (hinv : IndexedInv w hist st)
    (hw : env.In w) (hon : env.fTimestampIndex = true)
    (h : FairCoin.connectTip env hash st = .ok st') :
    IndexedInv w (hist ++ [.connect env hash]) st' := by
  obtain ⟨p, block, view, node, p', hp, -, hread, hconnect, rfl⟩ := connectTip_ok h
  have hphash : p.getBlockHash = hash := by
    rw [CBlockIndex.getBlockHash, hinv.hash hash p hp]
    rfl
  have hbhash := (readBlockFromDisk_eq_some hread).2
  rw [hphash] at hbhash
  have hconn : connectedBy (hist ++ [.connect env hash]) = connectedBy hist ++ [hash] := by
    rw [connectedBy_concat]
    rfl
  -- the entry keeps its hash and its time, and the key is written unless the block is genesis
  obtain ⟨hsame, htree, hkeys⟩ : p'.SameBlock p ∧ node.tree = st.node.tree ∧
      ∀ key, node.blocktree.timestampIndex.lookup key = some () ↔
        st.node.blocktree.timestampIndex.lookup key = some () ∨
          (hash ≠ w.network.hashGenesisBlock ∧ key = ⟨p.nTime, hash⟩) := by
    by_cases hgen : hash = w.network.hashGenesisBlock
    · obtain ⟨-, rfl, rfl⟩ := connectBlock_genesis hconnect (by rw [hbhash, hgen, hw.1])
      refine ⟨⟨rfl, rfl, rfl, rfl, rfl⟩, rfl, fun key => ?_⟩
      simp [hgen]
    · obtain ⟨s, hc⟩ := connectBlock_ok hconnect (by rw [hbhash, hw.1]; exact hgen)
      have hsame := sameBlock_connected hc
      refine ⟨hsame, (node_connected hc).1, fun key => ?_⟩
      have hindex : node.blocktree.timestampIndex =
          st.node.blocktree.timestampIndex.insert ⟨p.nTime, hash⟩ () := by
        have hwritten := hsame.getBlockHash
        rw [hc.pindex_eq, hphash] at hwritten
        have htime := hsame.nTime
        rw [hc.pindex_eq] at htime
        have hundo : ∀ (n : Node) (q : CBlockIndex) (u : CBlockUndo),
            (n.withUndo env q u).blocktree = n.blocktree := by
          intro n q u
          unfold Node.withUndo
          split <;> rfl
        rw [hc.node_eq]
        simp only [Node.onBlockTree, CBlockTreeDB.withIndexes, hon, if_true, hwritten, htime, hundo,
          CBlockTreeDB.writeTimestampIndex]
        rfl
      rw [hindex, lookup_insert_eq]
      split
      · next hkey => simp [hkey, hgen]
      · next hkey => simp [hkey]
  have hentry : ∀ g, (((({ node := node, view := view } : ChainState).setEntry hash p').setChain
      (st.chain ++ [hash])).entry g) = if g = hash then some p' else st.entry g := by
    intro g
    have := ChainState.entry_setEntry ({ node := node, view := view } : ChainState) hash g p'
    rw [ChainState.entry, ChainState.entry, ← htree]
    exact this
  have hfiled : ∀ g (t : ℕ), (∃ q, (if g = hash then some p' else st.entry g) = some q ∧
      q.nTime = t) ↔ ∃ q, st.entry g = some q ∧ q.nTime = t := by
    intro g t
    split
    · next hg =>
      subst hg
      simp [hp, hsame.nTime]
    · rfl
  refine ⟨fun g q hq => ?_, fun g q hq => ?_, ?_, ?_, ?_, fun key => ?_⟩
  · rw [hentry] at hq
    split at hq
    · next hg =>
      cases hq
      rw [hsame.phashBlock, hg]
      exact hinv.hash hash p hp
    · exact hinv.hash g q hq
  · rw [hentry] at hq
    split at hq
    · cases hq
      rw [hsame.nTime]
      exact hinv.time hash p hp
    · exact hinv.time g q hq
  · rw [activeAfter_concat, ← hinv.chain]
    rfl
  · rw [hconn]
    intro g hg
    have hg' : g ∈ st.chain ++ [hash] := hg
    rw [List.mem_append] at hg' ⊢
    exact hg'.imp_left (hinv.active g)
  · rw [hconn]
    intro g hg
    rw [hentry]
    split
    · exact ⟨p', rfl⟩
    · next hne =>
      refine hinv.known g ?_
      simpa [hne] using hg
  · rw [hentry, hfiled, hconn, List.mem_append, List.mem_singleton]
    refine Iff.trans (hkeys key) ?_
    rw [hinv.keys key]
    constructor
    · rintro (⟨hc, hne, hq⟩ | ⟨hne, rfl⟩)
      · exact ⟨.inl hc, hne, hq⟩
      · exact ⟨.inr rfl, hne, p, hp, rfl⟩
    · rintro ⟨hc | rfl, hne, q, hq, ht⟩
      · exact .inl ⟨hc, hne, q, hq, ht⟩
      · rw [hp] at hq
        cases hq
        exact .inr ⟨hne, by rw [ht]⟩

theorem IndexedInv.disconnect {env : Env} (hinv : IndexedInv w hist st)
    (h : FairCoin.disconnectTip env st = .ok st') : IndexedInv w (hist ++ [.disconnect env]) st' := by
  obtain ⟨hash, p, block, view, node, p', htip, hp, hread, hdis, rfl⟩ := disconnectTip_ok h
  obtain ⟨-, rfl, batch, hspec⟩ := disconnectBlock_eq_ok.1 hdis
  have hconn : connectedBy (hist ++ [.disconnect env]) = connectedBy hist := by
    rw [connectedBy_concat]
    exact List.append_nil _
  have hentry : ∀ g, (({ node := node, view := view } : ChainState).setChain
      st.chain.dropLast).entry g = st.entry g := by
    intro g
    rw [ChainState.entry, hspec.node_eq]
    rfl
  refine ⟨fun g q hq => ?_, fun g q hq => ?_, ?_, ?_, ?_, fun key => ?_⟩
  · exact hinv.hash g q (by rwa [hentry] at hq)
  · exact hinv.time g q (by rwa [hentry] at hq)
  · rw [activeAfter_concat, ← hinv.chain]
    rfl
  · rw [hconn]
    exact fun g hg => hinv.active g (List.mem_of_mem_dropLast hg)
  · rw [hconn]
    intro g hg
    rw [hentry]
    exact hinv.known g hg
  · rw [hconn, hentry, ← hinv.keys key]
    -- the batch erases addresses and spent outputs, and no time
    show node.blocktree.timestampIndex.lookup key = some () ↔ _
    rw [hspec.node_eq]
    rfl

end Steps

/-- Every run keeps it. -/
theorem indexedInv_run {w : World} {ops : List Op} {st : ChainState}
    (hops : ∀ op ∈ ops, op.Indexed w) (hrun : Run.run step {} ops = .ok st) :
    IndexedInv w ops st := by
  have := Run.run_history (I := IndexedInv w) (C := Op.Indexed w) (fun hist st op st' hinv hop h => ?_)
    (indexedInv_start w) hops hrun
  · simpa using this
  · cases op with
    | accept env block pos base => exact hinv.accept hop.2.2 h
    | connect env hash => exact hinv.connect hop.1 hop.2 h
    | disconnect env => exact hinv.disconnect h

/-! ## What the index reports -/

/-- The time of a block is in a range. -/
def ChainState.InRange (st : ChainState) (high low : ℕ) (hash : UInt256) : Prop :=
  ∃ p, st.entry hash = some p ∧ low ≤ p.nTime ∧ p.nTime < high

/-- The list is that of the blocks of the active chain in a range, each once and in the order of
their times. -/
structure Reports (st : ChainState) (high low : ℕ) (hashes : List UInt256) : Prop where
  mem : ∀ h, h ∈ hashes ↔ h ∈ st.chain ∧ st.InRange high low h
  nodup : hashes.Nodup
  ordered : hashes.Pairwise fun a b => ∀ p q, st.entry a = some p → st.entry b = some q →
    p.nTime ≤ q.nTime

/-- What `GetTimestampIndex` returns after a run: the blocks of the range, other than genesis, that
were connected at some time. -/
theorem getTimestampIndex_run {w : World} {hist : List Op} {st : ChainState} {env : Env}
    (high low : ℕ) (hinv : IndexedInv w hist st) (hon : env.fTimestampIndex = true)
    (hlow : low < 256 ^ 4) : ∃ hashes, getTimestampIndex env st.node high low = .ok hashes ∧
      (∀ h, h ∈ hashes ↔ h ∈ connectedBy hist ∧ h ≠ w.network.hashGenesisBlock ∧
        st.InRange high low h) ∧ hashes.Nodup ∧
      hashes.Pairwise fun a b => ∀ p q, st.entry a = some p → st.entry b = some q →
        p.nTime ≤ q.nTime := by
  obtain ⟨keys, hread, hnodup, hsorted, hmem⟩ := readTimestampIndex_spec
    hlow (fun key hkey => by
      obtain ⟨-, -, p, hp, ht⟩ := (hinv.keys key).1 hkey
      rw [← ht]
      exact hinv.time _ p hp)
  -- the time of a key is the time of its block
  have htime : ∀ key ∈ keys, ∀ p, st.entry key.blockHash = some p → p.nTime = key.timestamp := by
    intro key hkey p hp
    obtain ⟨-, -, q, hq, ht⟩ := (hinv.keys key).1 ((hmem key).1 hkey).1
    rw [hp] at hq
    cases hq
    exact ht
  refine ⟨keys.map CTimestampIndexKey.blockHash, ?_, fun h => ?_, ?_, ?_⟩
  · rw [getTimestampIndex, if_pos hon, hread]
  · rw [List.mem_map]
    constructor
    · rintro ⟨key, hkey, rfl⟩
      obtain ⟨hl, hge, hlt⟩ := (hmem key).1 hkey
      obtain ⟨hc, hne, p, hp, ht⟩ := (hinv.keys key).1 hl
      exact ⟨hc, hne, p, hp, by rw [ht]; exact hge, by rw [ht]; exact hlt⟩
    · rintro ⟨hc, hne, p, hp, hge, hlt⟩
      exact ⟨⟨p.nTime, h⟩, (hmem _).2 ⟨(hinv.keys _).2 ⟨hc, hne, p, hp, rfl⟩, hge, hlt⟩, rfl⟩
  · refine List.Nodup.map_on (fun a ha b hb hab => ?_) hnodup
    obtain ⟨-, -, p, hp, ht⟩ := (hinv.keys a).1 ((hmem a).1 ha).1
    have hb' := htime b hb p (by rw [← hab]; exact hp)
    cases a
    cases b
    simp_all
  · rw [List.pairwise_map]
    refine hsorted.imp_of_mem fun {a b} ha hb hab p q hp hq => ?_
    rw [htime a ha p hp, htime b hb q hq]
    exact hab

/-- **The index and the active chain.**  After a run, `GetTimestampIndex` reports the active chain
exactly when no block with a time in the range is genesis on the chain, or was connected and then
taken off the chain again. -/
theorem reports_iff {w : World} {ops : List Op} {st : ChainState} {env : Env} {high low : ℕ}
    (hops : ∀ op ∈ ops, op.Indexed w) (hrun : Run.run step {} ops = .ok st)
    (hon : env.fTimestampIndex = true) (hlow : low < 256 ^ 4) :
    (∃ hashes, getTimestampIndex env st.node high low = .ok hashes ∧ Reports st high low hashes) ↔
      ∀ h, st.InRange high low h →
        (h = w.network.hashGenesisBlock → h ∉ activeAfter ops) ∧
        (h ≠ w.network.hashGenesisBlock → h ∈ connectedBy ops → h ∈ activeAfter ops) := by
  have hinv := indexedInv_run hops hrun
  obtain ⟨hashes, hget, hmem, hnodup, hsorted⟩ :=
    getTimestampIndex_run high low hinv hon hlow
  constructor
  · rintro ⟨hashes', hget', hrep⟩ h hrange
    rw [hget] at hget'
    cases hget'
    refine ⟨?_, fun hne hc => ?_⟩
    · intro hgen hact
      have := (hmem h).1 ((hrep.mem h).2 ⟨by rw [hinv.chain]; exact hact, hrange⟩)
      exact this.2.1 hgen
    · rw [← hinv.chain]
      exact ((hrep.mem h).1 ((hmem h).2 ⟨hc, hne, hrange⟩)).1
  · intro hcond
    refine ⟨hashes, hget, fun h => ?_, hnodup, hsorted⟩
    rw [hmem]
    constructor
    · rintro ⟨hc, hne, hrange⟩
      refine ⟨?_, hrange⟩
      rw [hinv.chain]
      exact (hcond h hrange).2 hne hc
    · rintro ⟨hact, hrange⟩
      refine ⟨hinv.active h hact, fun hgen => ?_, hrange⟩
      exact (hcond h hrange).1 hgen (by rw [← hinv.chain]; exact hact)

namespace TimestampExample

/-- A synchronised node of the regression test network that keeps all indexes. -/
def env : Env := .quiet .regtest true

def world : World := ⟨.regtest, env.blockHash⟩

/-- The hash of the block at a height. -/
def blockHash (n : ℕ) : UInt256 :=
  if n = 0 then Network.regtest.hashGenesisBlock else BitVec.ofNat 256 n

/-- The times of the blocks, a minute apart. -/
def times : List ℕ := [1500000000, 1500000060, 1500000120]

/-- The block at a height. -/
def block (n : ℕ) : CBlock where
  hashPrevBlock := if n = 0 then 0 else blockHash (n - 1)
  nTime := times.getD n 0
  nNonce := (blockHash n).toNat
  vtx := [{
    hash := BitVec.ofNat 256 (100 + n)
    vin := [{ prevout := ⟨0, 4294967295⟩, scriptSig := [1, 1] }]
    vout := [⟨10 * coin, [0x51], -10⟩] }]

/-- Genesis and two blocks. -/
def forward : List Op := (List.range 3).flatMap fun n =>
  [.accept env (block n) ⟨0, n⟩ {}, .connect env (blockHash n)]

/-- The last block is taken off the chain again. -/
def reorganised : List Op := forward ++ [.disconnect env]

theorem indexed_forward {op : Op} (hop : op ∈ forward) : op.Indexed world := by
  simp only [forward, List.mem_flatMap, List.mem_range] at hop
  obtain ⟨n, hn, hop⟩ := hop
  rw [List.mem_cons, List.mem_singleton] at hop
  rcases hop with rfl | rfl
  · refine ⟨⟨rfl, rfl⟩, rfl, ?_⟩
    show times.getD n 0 < 256 ^ 4
    interval_cases n <;> norm_num [times]
  · exact ⟨⟨rfl, rfl⟩, rfl⟩

theorem indexed_reorganised {op : Op} (hop : op ∈ reorganised) : op.Indexed world := by
  rw [reorganised, List.mem_append, List.mem_singleton] at hop
  rcases hop with hop | rfl
  · exact indexed_forward hop
  · exact ⟨⟨rfl, rfl⟩, rfl⟩

/-- The node after some steps. -/
def after (ops : List Op) : ChainState := (Run.run step {} ops).toOption.getD {}

theorem run_after {ops : List Op} (h : (Run.run step {} ops).toOption.isSome = true) :
    Run.run step {} ops = .ok (after ops) := by
  obtain ⟨st, hst⟩ := Option.isSome_iff_exists.1 h
  rw [after, hst]
  exact eq_ok_of_toOption hst

end TimestampExample

open TimestampExample in
/-- Without a reorganisation the two blocks after genesis are reported. -/
theorem reports_forward : ∃ hashes,
    getTimestampIndex env (after forward).node 1500000200 1500000060 = .ok hashes ∧
      Reports (after forward) 1500000200 1500000060 hashes := by
  refine (reports_iff (fun op => indexed_forward) (run_after (by decide)) rfl
    (by decide)).2 fun h hrange => ⟨?_, ?_⟩
  · rintro rfl
    obtain ⟨p, hp, hge, -⟩ := hrange
    have htime : ((after forward).entry world.network.hashGenesisBlock).map CBlockIndex.nTime =
        some 1500000000 := by decide
    rw [hp, Option.map_some, Option.some.injEq] at htime
    omega
  · intro _ hc
    have hall : connectedBy forward = activeAfter forward := rfl
    rwa [hall] at hc

open TimestampExample in
/-- After the second block was taken off the chain, its hash is still reported. -/
theorem reports_disconnected : (∀ op ∈ reorganised, op.Indexed world) ∧
    Run.run step {} reorganised = .ok (after reorganised) ∧
    (after reorganised).chain = [blockHash 0, blockHash 1] ∧
    (∃ hashes, getTimestampIndex env (after reorganised).node 1500000200 1500000060 = .ok hashes ∧
      blockHash 2 ∈ hashes) ∧
    ¬∃ hashes, getTimestampIndex env (after reorganised).node 1500000200 1500000060 = .ok hashes ∧
      Reports (after reorganised) 1500000200 1500000060 hashes := by
  have hchain : (after reorganised).chain = [blockHash 0, blockHash 1] := by decide
  have hrun : Run.run step {} reorganised = .ok (after reorganised) := run_after (by decide)
  have htime : ((after reorganised).entry (blockHash 2)).map CBlockIndex.nTime =
      some 1500000120 := by decide
  obtain ⟨p, hp, hnTime⟩ := Option.map_eq_some_iff.1 htime
  obtain ⟨hashes, hget, hmem, -, -⟩ := getTimestampIndex_run
    1500000200 1500000060 (indexedInv_run (fun op => indexed_reorganised) hrun)
    (show env.fTimestampIndex = true from rfl) (by decide)
  have hconn : connectedBy reorganised = [blockHash 0, blockHash 1, blockHash 2] := rfl
  have hlisted : blockHash 2 ∈ hashes := (hmem _).2 ⟨by rw [hconn]; simp, by decide, p, hp,
    by omega, by omega⟩
  refine ⟨fun op => indexed_reorganised, hrun, hchain, ⟨hashes, hget, hlisted⟩, ?_⟩
  rintro ⟨hashes', hget', hrep⟩
  rw [hget] at hget'
  cases hget'
  have hactive := ((hrep.mem (blockHash 2)).1 hlisted).1
  rw [hchain] at hactive
  exact absurd hactive (by decide)

end FairCoin
