import FairCoin.PaymentFile
import FairCoin.Lib.Canonical

/-!
# The wire form of transactions and blocks

The `SerializationOp` of `src/primitives/transaction.h` and `src/primitives/block.h`, over the
streams of `src/serialize.h`.

* `vectorFormat` — vectors, which are read in chunks of five million bytes of memory.
* `txFormat`, `blockFormat` — transactions and blocks; the signature of a block comes last, and
  only when the second transaction is a coinstake.
* `CTransaction.refreshed` — a transaction with the fields that are only in memory as a reader
  fills them.
* `wire_form` — **one wire form**: a reader takes back what was written and nothing else, and the
  sizes are those of the bytes.
-/

namespace FairCoin

open Codec

/-! ## Formats -/

/-- The sizes in memory of the elements of vectors, which bound a round of reading; every one is
at least a byte and at most five million. -/
structure Layout where
  sizeofTxIn : ℕ
  sizeofTxOut : ℕ
  sizeofTx : ℕ
  txIn_pos : 0 < 5000000 / sizeofTxIn
  txOut_pos : 0 < 5000000 / sizeofTxOut
  tx_pos : 0 < 5000000 / sizeofTx

section Formats

variable (L : Layout) (hashBytes : Bytes → UInt256)

/-- `Unserialize_impl` of a vector: `chunk` elements in a round. -/
def vectorFormat {α : Type} (chunk : ℕ) (c : Format α) : Format (List α) :=
  chunkedVec chunk maxSize c

/-- `std::vector<unsigned char>` and `CScript`. -/
def bytesFormat : Format (List UInt8) := vectorFormat (1 + 4999999 / 1) byte

/-- `CTxIn::SerializationOp`. -/
def wireTxInFormat : Format CTxIn :=
  imap (pair outPointFormat (pair bytesFormat (uint 4)))
    (fun i => (i.prevout, i.scriptSig, i.nSequence)) fun x => ⟨x.1, x.2.1, x.2.2⟩

/-- `CTxOut::SerializationOp`; `nRounds` is what the constructor left. -/
def txOutFormat : Format CTxOut :=
  imap (pair int64 bytesFormat) (fun o => (o.nValue, o.scriptPubKey))
    fun x => { nValue := x.1, scriptPubKey := x.2 }

/-- The fields of a transaction in the order of `SerializationOp`. -/
def txFields : Format (ℤ × List CTxIn × List CTxOut × ℕ) :=
  pair int32 (pair (vectorFormat (5000000 / L.sizeofTxIn) wireTxInFormat)
    (pair (vectorFormat (5000000 / L.sizeofTxOut) txOutFormat) (uint 4)))

/-- `CTransaction::SerializationOp`; `UpdateHash` hashes what was read. -/
def txFormat : Format CTransaction :=
  imap (txFields L) (fun tx => (tx.nVersion, tx.vin, tx.vout, tx.nLockTime))
    fun x =>
      { hash := hashBytes ((txFields L).put x)
        nVersion := x.1
        vin := x.2.1
        vout := x.2.2.1
        nLockTime := x.2.2.2 }

/-- `CBlockHeader::SerializationOp`. -/
def headerFormat : Format CBlockHeader :=
  imap (pair int32 (pair (bitVec 32) (pair (bitVec 32) (pair (uint 4) (pair (uint 4) (uint 4))))))
    (fun h => (h.nVersion, h.hashPrevBlock, h.hashMerkleRoot, h.nTime, h.nBits, h.nNonce))
    fun x => ⟨x.1, x.2.1, x.2.2.1, x.2.2.2.1, x.2.2.2.2.1, x.2.2.2.2.2⟩

/-- The header and the transactions of a block. -/
def headerTxFormat : Format (CBlockHeader × List CTransaction) :=
  pair headerFormat (vectorFormat (5000000 / L.sizeofTx) (txFormat L hashBytes))

/-- `vtx.size() > 1 && vtx[1].IsCoinStake()`. -/
def hasBlockSig (vtx : List CTransaction) : Bool :=
  match vtx with
  | _ :: tx :: _ => tx.isCoinStake
  | _ => false

/-- `CBlock::SerializationOp`. -/
def blockFormat : Format CBlock :=
  imap (trailing (headerTxFormat L hashBytes) (fun x => hasBlockSig x.2) bytesFormat [])
    (fun b => ((b.toCBlockHeader, b.vtx), b.vchBlockSig))
    fun x => { toCBlockHeader := x.1.1, vtx := x.1.2, vchBlockSig := x.2 }

/-! ## Fields that are only in memory -/

/-- The output as a reader leaves it. -/
def CTxOut.refreshed (o : CTxOut) : CTxOut := { o with nRounds := -10 }

/-- The transaction as a reader leaves it: `hash` is computed, `nRounds` is not read. -/
def CTransaction.refreshed (tx : CTransaction) : CTransaction :=
  { tx with
    hash := hashBytes ((txFormat L hashBytes).put tx)
    vout := tx.vout.map CTxOut.refreshed }

/-- The block as a reader leaves it. -/
def CBlock.refreshed (b : CBlock) : CBlock :=
  { b with vtx := b.vtx.map (CTransaction.refreshed L hashBytes) }

end Formats

/-! ## Values of the source's types -/

/-- The fields of the output are values of their types, and its script is within `MAX_SIZE`. -/
structure CTxOut.Wire (o : CTxOut) : Prop where
  nValue : -2 ^ 63 ≤ o.nValue ∧ o.nValue < 2 ^ 63
  scriptPubKey : o.scriptPubKey.length ≤ maxSize

/-- The fields of the transaction are values of their types, and its vectors are within
`MAX_SIZE`. -/
structure CTransaction.Wire (tx : CTransaction) : Prop where
  nVersion : IsInt tx.nVersion
  vin : tx.vin.length ≤ maxSize
  inputs : ∀ i ∈ tx.vin, i.Wire ∧ i.scriptSig.length ≤ maxSize
  vout : tx.vout.length ≤ maxSize
  outputs : ∀ o ∈ tx.vout, o.Wire
  nLockTime : tx.nLockTime < 256 ^ 4

/-- The fields of the header are values of their types. -/
structure CBlockHeader.Wire (h : CBlockHeader) : Prop where
  nVersion : IsInt h.nVersion
  nTime : h.nTime < 256 ^ 4
  nBits : h.nBits < 256 ^ 4
  nNonce : h.nNonce < 256 ^ 4

/-- The fields of the block are values of their types, its vectors are within `MAX_SIZE`, and a
block without a coinstake has no signature. -/
structure CBlock.Wire (b : CBlock) : Prop where
  header : b.toCBlockHeader.Wire
  vtx : b.vtx.length ≤ maxSize
  transactions : ∀ tx ∈ b.vtx, tx.Wire
  vchBlockSig : b.vchBlockSig.length ≤ maxSize
  unsigned : b.isProofOfStake = false → b.vchBlockSig = []

/-! ## Reading what was written -/

theorem isSize_of_le {n : ℕ} (h : n ≤ maxSize) : IsSize n :=
  lt_of_le_of_lt h (by decide)

theorem bytesFormat_eq : bytesFormat = vec maxSize byte :=
  chunkedVec_eq_vec (by decide) maxSize byte

theorem bytesFormat_fits {l : List UInt8} (h : l.length ≤ maxSize) : bytesFormat.fits l = true := by
  have hall : l.all byte.fits = true := List.all_eq_true.2 fun _ _ => rfl
  show (decide (l.length ≤ maxSize) && l.all byte.fits) = true
  rw [hall, decide_eq_true h]
  rfl

theorem lawful_bytesFormat : Codec.Lawful bytesFormat fun l => IsSize l.length := by
  rw [bytesFormat_eq]
  exact lawful_scriptFormat

theorem lawful_wireTxInFormat : Codec.Lawful wireTxInFormat CTxIn.Wire :=
  lawful_imap (lawful_pair lawful_outPointFormat (lawful_pair lawful_bytesFormat (lawful_uint 4)))
    fun _ hi => ⟨⟨hi.n, hi.scriptSig, hi.nSequence⟩, rfl⟩

theorem lawful_txOutFormat : Codec.Lawful txOutFormat fun o => o.Wire ∧ o.refreshed = o :=
  lawful_imap (lawful_pair lawful_int64 lawful_bytesFormat)
    fun _ ho => ⟨⟨ho.1.nValue, isSize_of_le ho.1.scriptPubKey⟩, ho.2⟩

section Lawful

variable (L : Layout) (hashBytes : Bytes → UInt256)

theorem lawful_vectorFormat {α : Type} {chunk : ℕ} (hchunk : 0 < chunk) {c : Format α}
    {P : α → Prop} (hc : Codec.Lawful c P) :
    Codec.Lawful (vectorFormat chunk c) fun as => as.length < 2 ^ 64 ∧ ∀ a ∈ as, P a := by
  rw [vectorFormat, chunkedVec_eq_vec hchunk]
  exact lawful_vec maxSize hc

theorem lawful_txFormat : Codec.Lawful (txFormat L hashBytes)
    fun tx => tx.Wire ∧ tx.refreshed L hashBytes = tx := by
  refine lawful_imap (lawful_pair lawful_int32 (lawful_pair
    (lawful_vectorFormat L.txIn_pos lawful_wireTxInFormat) (lawful_pair
      (lawful_vectorFormat L.txOut_pos lawful_txOutFormat) (lawful_uint 4)))) ?_
  rintro tx ⟨hwire, hfresh⟩
  have hvout : tx.vout.map CTxOut.refreshed = tx.vout := congrArg CTransaction.vout hfresh
  have hhash : hashBytes ((txFormat L hashBytes).put tx) = tx.hash :=
    congrArg CTransaction.hash hfresh
  refine ⟨⟨hwire.nVersion, ⟨isSize_of_le hwire.vin, fun i hi => (hwire.inputs i hi).1⟩,
    ⟨isSize_of_le hwire.vout, fun o ho => ⟨hwire.outputs o ho, ?_⟩⟩, hwire.nLockTime⟩, ?_⟩
  · exact List.map_inj_left.1 (hvout.trans (List.map_id tx.vout).symm) o ho
  · cases tx
    simp only [CTransaction.mk.injEq, and_true]
    exact hhash

theorem lawful_headerFormat : Codec.Lawful headerFormat CBlockHeader.Wire :=
  lawful_imap (lawful_pair lawful_int32 (lawful_pair (lawful_bitVec 32) (lawful_pair
    (lawful_bitVec 32) (lawful_pair (lawful_uint 4) (lawful_pair (lawful_uint 4)
      (lawful_uint 4))))))
    fun _ hh => ⟨⟨hh.nVersion, trivial, trivial, hh.nTime, hh.nBits, hh.nNonce⟩, rfl⟩

theorem lawful_blockFormat : Codec.Lawful (blockFormat L hashBytes)
    fun b => b.Wire ∧ b.refreshed L hashBytes = b := by
  refine lawful_imap (lawful_trailing (lawful_pair lawful_headerFormat
    (lawful_vectorFormat L.tx_pos (lawful_txFormat L hashBytes)))
      (fun x => hasBlockSig x.2) lawful_bytesFormat []) ?_
  rintro b ⟨hwire, hfresh⟩
  have hvtx : b.vtx.map (CTransaction.refreshed L hashBytes) = b.vtx :=
    congrArg CBlock.vtx hfresh
  refine ⟨⟨⟨hwire.header, isSize_of_le hwire.vtx, fun tx htx => ⟨hwire.transactions tx htx, ?_⟩⟩,
    isSize_of_le hwire.vchBlockSig, hwire.unsigned⟩, rfl⟩
  exact List.map_inj_left.1 (hvtx.trans (List.map_id b.vtx).symm) tx htx

/-! ## What fits -/

theorem vectorFormat_fits {α : Type} {chunk : ℕ} {c : Format α} {as : List α}
    (hlen : as.length ≤ maxSize) (has : ∀ a ∈ as, c.fits a = true) :
    (vectorFormat chunk c).fits as = true := by
  show (decide (as.length ≤ maxSize) && as.all c.fits) = true
  rw [decide_eq_true hlen, List.all_eq_true.2 has]
  rfl

theorem txFormat_fits {tx : CTransaction} (h : tx.Wire) :
    (txFormat L hashBytes).fits tx = true := by
  have hvin : (vectorFormat (5000000 / L.sizeofTxIn) wireTxInFormat).fits tx.vin = true := by
    apply vectorFormat_fits h.vin
    intro i hi
    show (true && (bytesFormat.fits i.scriptSig && true)) = true
    rw [bytesFormat_fits (h.inputs i hi).2]
    rfl
  have hvout : (vectorFormat (5000000 / L.sizeofTxOut) txOutFormat).fits tx.vout = true := by
    apply vectorFormat_fits h.vout
    intro o ho
    show (true && bytesFormat.fits o.scriptPubKey) = true
    rw [bytesFormat_fits (h.outputs o ho).scriptPubKey]
    rfl
  show (true && ((vectorFormat (5000000 / L.sizeofTxIn) wireTxInFormat).fits tx.vin &&
    ((vectorFormat (5000000 / L.sizeofTxOut) txOutFormat).fits tx.vout && true))) = true
  rw [hvin, hvout]
  rfl

theorem blockFormat_fits {b : CBlock} (h : b.Wire) :
    (blockFormat L hashBytes).fits b = true := by
  have hvtx : (vectorFormat (5000000 / L.sizeofTx) (txFormat L hashBytes)).fits b.vtx = true :=
    vectorFormat_fits h.vtx fun tx htx => txFormat_fits L hashBytes (h.transactions tx htx)
  show ((true && (vectorFormat (5000000 / L.sizeofTx) (txFormat L hashBytes)).fits b.vtx) &&
    (!hasBlockSig b.vtx || bytesFormat.fits b.vchBlockSig)) = true
  rw [hvtx, bytesFormat_fits h.vchBlockSig, Bool.or_true]
  rfl

/-! ## The fields in memory leave no trace -/

theorem flatMap_put_map {α : Type} (c : Format α) (f : α → α) (hf : ∀ a, c.put (f a) = c.put a)
    (as : List α) : (as.map f).flatMap c.put = as.flatMap c.put := by
  rw [List.flatMap_map]
  exact List.flatMap_congr fun a _ => hf a

theorem txFormat_put_refreshed (tx : CTransaction) :
    (txFormat L hashBytes).put (tx.refreshed L hashBytes) = (txFormat L hashBytes).put tx := by
  have hvout : (vectorFormat (5000000 / L.sizeofTxOut) txOutFormat).put
      (tx.vout.map CTxOut.refreshed) =
        (vectorFormat (5000000 / L.sizeofTxOut) txOutFormat).put tx.vout := by
    show putCompactSize _ ++ _ = putCompactSize _ ++ _
    rw [List.length_map, flatMap_put_map txOutFormat CTxOut.refreshed fun _ => rfl]
  show int32.put tx.nVersion ++ ((vectorFormat (5000000 / L.sizeofTxIn) wireTxInFormat).put tx.vin
    ++ ((vectorFormat (5000000 / L.sizeofTxOut) txOutFormat).put (tx.vout.map CTxOut.refreshed) ++
      (uint 4).put tx.nLockTime)) = _
  rw [hvout]
  rfl

theorem refreshed_refreshed (tx : CTransaction) :
    (tx.refreshed L hashBytes).refreshed L hashBytes = tx.refreshed L hashBytes := by
  rw [CTransaction.refreshed, txFormat_put_refreshed]
  simp [CTransaction.refreshed, CTxOut.refreshed]

theorem CTransaction.Wire.refreshed {tx : CTransaction} (h : tx.Wire) :
    (tx.refreshed L hashBytes).Wire := by
  refine ⟨h.nVersion, h.vin, h.inputs, ?_, ?_, h.nLockTime⟩
  · show (tx.vout.map CTxOut.refreshed).length ≤ maxSize
    rw [List.length_map]
    exact h.vout
  · intro o ho
    obtain ⟨o', ho', rfl⟩ := List.mem_map.1 ho
    exact ⟨(h.outputs o' ho').nValue, (h.outputs o' ho').scriptPubKey⟩

theorem isCoinStake_refreshed (tx : CTransaction) :
    (tx.refreshed L hashBytes).isCoinStake = tx.isCoinStake := by
  obtain ⟨hash, nVersion, vin, vout, nLockTime⟩ := tx
  rcases vin with _ | ⟨i, vin⟩
  · rfl
  · rcases vout with _ | ⟨o, _ | ⟨o', vout⟩⟩ <;> rfl

theorem hasBlockSig_refreshed (vtx : List CTransaction) :
    hasBlockSig (vtx.map (CTransaction.refreshed L hashBytes)) = hasBlockSig vtx := by
  rcases vtx with _ | ⟨tx, _ | ⟨tx', vtx⟩⟩
  · rfl
  · rfl
  · exact isCoinStake_refreshed L hashBytes tx'

theorem blockFormat_put_refreshed (b : CBlock) :
    (blockFormat L hashBytes).put (b.refreshed L hashBytes) = (blockFormat L hashBytes).put b := by
  have hvtx : (vectorFormat (5000000 / L.sizeofTx) (txFormat L hashBytes)).put
      (b.vtx.map (CTransaction.refreshed L hashBytes)) =
        (vectorFormat (5000000 / L.sizeofTx) (txFormat L hashBytes)).put b.vtx := by
    show putCompactSize _ ++ _ = putCompactSize _ ++ _
    rw [List.length_map, flatMap_put_map _ _ (txFormat_put_refreshed L hashBytes)]
  show (headerFormat.put b.toCBlockHeader ++
    (vectorFormat (5000000 / L.sizeofTx) (txFormat L hashBytes)).put
      (b.vtx.map (CTransaction.refreshed L hashBytes))) ++
    (if hasBlockSig (b.vtx.map (CTransaction.refreshed L hashBytes)) then
      bytesFormat.put b.vchBlockSig else []) = _
  rw [hvtx, hasBlockSig_refreshed]
  rfl

theorem block_refreshed_refreshed (b : CBlock) :
    (b.refreshed L hashBytes).refreshed L hashBytes = b.refreshed L hashBytes := by
  simp only [CBlock.refreshed, List.map_map]
  congr 1
  exact List.map_congr_left fun tx _ => refreshed_refreshed L hashBytes tx

theorem CBlock.Wire.refreshed {b : CBlock} (h : b.Wire) : (b.refreshed L hashBytes).Wire := by
  refine ⟨h.header, ?_, ?_, h.vchBlockSig, ?_⟩
  · show (b.vtx.map (CTransaction.refreshed L hashBytes)).length ≤ maxSize
    rw [List.length_map]
    exact h.vtx
  · intro tx htx
    obtain ⟨tx', htx', rfl⟩ := List.mem_map.1 htx
    exact (h.transactions tx' htx').refreshed L hashBytes
  · intro hwork
    apply h.unsigned
    have hsame := hasBlockSig_refreshed L hashBytes b.vtx
    show hasBlockSig b.vtx = false
    rw [← hsame]
    exact hwork

/-! ## Sizes -/

theorem length_putCompactSize_eq (n : ℕ) : (putCompactSize n).length = getSizeOfCompactSize n := by
  rw [length_putCompactSize, getSizeOfCompactSize]

theorem length_bytesFormat_put (l : List UInt8) : (bytesFormat.put l).length = bytesSize l := by
  show (putCompactSize l.length ++ l.flatMap byte.put).length = bytesSize l
  have hlen : (l.flatMap byte.put).length = l.length := by
    induction l with
    | nil => rfl
    | cons b l ih => rw [List.flatMap_cons, List.length_append, ih, List.length_cons, add_comm]; rfl
  rw [List.length_append, length_putCompactSize_eq, hlen, bytesSize]

theorem length_flatMap_put {α : Type} (c : Format α) (size : α → ℕ)
    (hsize : ∀ a, (c.put a).length = size a) (as : List α) :
    (as.flatMap c.put).length = (as.map size).sum := by
  rw [List.length_flatMap]
  congr 1
  exact List.map_congr_left fun a _ => hsize a

theorem length_wireTxInFormat_put (i : CTxIn) :
    (wireTxInFormat.put i).length = i.serializeSize := by
  show ((putLE 32 _ ++ putLE 4 _) ++ (bytesFormat.put i.scriptSig ++ putLE 4 _)).length = _
  simp only [List.length_append, length_putLE, length_bytesFormat_put, CTxIn.serializeSize]
  omega

theorem length_txOutFormat_put (o : CTxOut) : (txOutFormat.put o).length = o.serializeSize := by
  show (putLE 8 _ ++ bytesFormat.put o.scriptPubKey).length = _
  rw [List.length_append, length_putLE, length_bytesFormat_put, CTxOut.serializeSize]

theorem length_txFormat_put (tx : CTransaction) :
    ((txFormat L hashBytes).put tx).length = tx.serializeSize := by
  show (putLE 4 _ ++ ((putCompactSize tx.vin.length ++ tx.vin.flatMap wireTxInFormat.put) ++
    ((putCompactSize tx.vout.length ++ tx.vout.flatMap txOutFormat.put) ++ putLE 4 _))).length = _
  simp only [List.length_append, length_putLE, length_putCompactSize_eq,
    length_flatMap_put wireTxInFormat _ length_wireTxInFormat_put,
    length_flatMap_put txOutFormat _ length_txOutFormat_put, CTransaction.serializeSize]
  omega

theorem length_blockFormat_put (b : CBlock) :
    ((blockFormat L hashBytes).put b).length = b.serializeSize := by
  have hsig : (if hasBlockSig b.vtx then bytesFormat.put b.vchBlockSig else []).length =
      if b.isProofOfStake then bytesSize b.vchBlockSig else 0 := by
    show _ = if hasBlockSig b.vtx then _ else _
    split
    · exact length_bytesFormat_put _
    · rfl
  show (((putLE 4 _ ++ (putLE 32 _ ++ (putLE 32 _ ++ (putLE 4 _ ++ (putLE 4 _ ++ putLE 4 _))))) ++
    (putCompactSize b.vtx.length ++ b.vtx.flatMap (txFormat L hashBytes).put)) ++
    (if hasBlockSig b.vtx then bytesFormat.put b.vchBlockSig else [])).length = _
  rw [List.length_append, hsig]
  simp only [List.length_append, length_putLE, length_putCompactSize_eq,
    length_flatMap_put _ _ (length_txFormat_put L hashBytes), CBlock.serializeSize]
  omega

/-! ## Writing what was read -/

theorem canonical_vectorFormat {α : Type} {chunk : ℕ} (hchunk : 0 < chunk) {c : Format α}
    (hc : Canonical c fun _ => True) : Canonical (vectorFormat chunk c) fun _ => True := by
  rw [vectorFormat, chunkedVec_eq_vec hchunk]
  exact fun bs as rest h => ⟨(canonical_vec maxSize hc bs as rest h).1, trivial⟩

theorem canonical_bytesFormat : Canonical bytesFormat fun _ => True :=
  canonical_vectorFormat (by decide) canonical_byte

theorem canonical_wireTxInFormat : Canonical wireTxInFormat fun _ => True := by
  have hprevout : Canonical outPointFormat fun _ => True :=
    canonical_imap (canonical_pair (canonical_bitVec 32) (canonical_uint 4))
      fun _ _ => ⟨trivial, rfl⟩
  exact canonical_imap (canonical_pair hprevout (canonical_pair canonical_bytesFormat
    (canonical_uint 4))) fun _ _ => ⟨trivial, rfl⟩

theorem canonical_txOutFormat : Canonical txOutFormat fun _ => True :=
  canonical_imap (canonical_pair canonical_int64 canonical_bytesFormat)
    fun _ _ => ⟨trivial, rfl⟩

theorem canonical_txFormat : Canonical (txFormat L hashBytes) fun _ => True :=
  canonical_imap (canonical_pair canonical_int32 (canonical_pair
    (canonical_vectorFormat L.txIn_pos canonical_wireTxInFormat) (canonical_pair
      (canonical_vectorFormat L.txOut_pos canonical_txOutFormat) (canonical_uint 4))))
    fun _ _ => ⟨trivial, rfl⟩

theorem canonical_headerTxFormat : Canonical (headerTxFormat L hashBytes) fun _ => True := by
  have hheader : Canonical headerFormat fun _ => True :=
    canonical_imap (canonical_pair canonical_int32 (canonical_pair (canonical_bitVec 32)
      (canonical_pair (canonical_bitVec 32) (canonical_pair (canonical_uint 4) (canonical_pair
        (canonical_uint 4) (canonical_uint 4)))))) fun _ _ => ⟨trivial, rfl⟩
  intro bs x rest h
  exact ⟨(canonical_pair hheader (canonical_vectorFormat L.tx_pos
    (canonical_txFormat L hashBytes)) bs x rest h).1, trivial⟩

theorem canonical_blockFormat : Canonical (blockFormat L hashBytes) fun _ => True :=
  canonical_imap (canonical_trailing (canonical_headerTxFormat L hashBytes)
    (fun x => hasBlockSig x.2) canonical_bytesFormat []) fun _ _ => ⟨trivial, rfl⟩

end Lawful

/-! ## One wire form -/

/-- **One wire form.**  For every transaction and every block whose vectors are within `MAX_SIZE`,
where a block without a coinstake has no signature:

* reading the bytes that were written, whatever follows them, gives the object back, with the
  fields that are only in memory as a reader fills them, and leaves what follows;
* `GetSerializeSize` is the number of bytes;
* bytes that can be read are the bytes of what was read, and what is left;
* the signature of a block is written when its second transaction is a coinstake, and read when
  the second of the transactions just read is one. -/
theorem wire_form (L : Layout) (hashBytes : Bytes → UInt256) :
    (∀ tx : CTransaction, tx.Wire → ∀ rest,
      (txFormat L hashBytes).get ((txFormat L hashBytes).put tx ++ rest) =
        some (tx.refreshed L hashBytes, rest) ∧
      tx.serializeSize = ((txFormat L hashBytes).put tx).length) ∧
    (∀ bytes tx rest, (txFormat L hashBytes).get bytes = some (tx, rest) →
      bytes = (txFormat L hashBytes).put tx ++ rest) ∧
    (∀ b : CBlock, b.Wire → ∀ rest,
      (blockFormat L hashBytes).get ((blockFormat L hashBytes).put b ++ rest) =
        some (b.refreshed L hashBytes, rest) ∧
      b.serializeSize = ((blockFormat L hashBytes).put b).length) ∧
    (∀ bytes b rest, (blockFormat L hashBytes).get bytes = some (b, rest) →
      bytes = (blockFormat L hashBytes).put b ++ rest) ∧
    (∀ b : CBlock, (blockFormat L hashBytes).put b =
      (headerTxFormat L hashBytes).put (b.toCBlockHeader, b.vtx) ++
        if hasBlockSig b.vtx then bytesFormat.put b.vchBlockSig else []) ∧
    ∀ bytes header vtx rest,
      (headerTxFormat L hashBytes).get bytes = some ((header, vtx), rest) →
      (blockFormat L hashBytes).get bytes =
        (if hasBlockSig vtx then bytesFormat.get rest else some ([], rest)).map fun x =>
          ({ toCBlockHeader := header, vtx := vtx, vchBlockSig := x.1 }, x.2) := by
  refine ⟨?_, ?_, ?_, ?_, fun _ => rfl, ?_⟩
  · intro tx hwire rest
    refine ⟨?_, (length_txFormat_put L hashBytes tx).symm⟩
    rw [← txFormat_put_refreshed, lawful_txFormat L hashBytes (tx.refreshed L hashBytes) rest
      ⟨hwire.refreshed L hashBytes, refreshed_refreshed L hashBytes tx⟩,
      txFormat_fits L hashBytes (hwire.refreshed L hashBytes), if_pos rfl]
  · exact fun bytes tx rest h => (canonical_txFormat L hashBytes bytes tx rest h).1
  · intro b hwire rest
    refine ⟨?_, (length_blockFormat_put L hashBytes b).symm⟩
    rw [← blockFormat_put_refreshed, lawful_blockFormat L hashBytes (b.refreshed L hashBytes) rest
      ⟨hwire.refreshed L hashBytes, block_refreshed_refreshed L hashBytes b⟩,
      blockFormat_fits L hashBytes (hwire.refreshed L hashBytes), if_pos rfl]
  · exact fun bytes b rest h => (canonical_blockFormat L hashBytes bytes b rest h).1
  · intro bytes header vtx rest h
    show (((headerTxFormat L hashBytes).get bytes).bind _).map _ = _
    rw [h]
    simp only [Option.bind_some]
    cases hasBlockSig vtx with
    | false => rfl
    | true =>
      simp only [if_true, Option.map_map]
      rfl

/-- The sizes on a machine with 64-bit pointers. -/
def Layout.lp64 : Layout := ⟨96, 40, 96, by decide, by decide, by decide⟩

/-- A block with a coinstake and a signature of two bytes. -/
def signedBlock : CBlock :=
  { hashPrevBlock := 7
    vtx := [{ hash := 0, vin := [], vout := [] },
      { hash := 0
        vin := [{ prevout := ⟨5, 1⟩, scriptSig := [0x51] }]
        vout := [⟨0, [], -10⟩, ⟨50, [0xac], -10⟩] }]
    vchBlockSig := [0x30, 0x01] }

/-- The bytes of a staked block, with a byte that is not its own after them. -/
theorem wire_form_of_signedBlock :
    (blockFormat .lp64 fun _ => 0).get ((blockFormat .lp64 fun _ => 0).put signedBlock ++ [0xff])
      = some (signedBlock, [0xff]) := by
  have hin : ∀ i ∈ (signedBlock.vtx.flatMap CTransaction.vin),
      i.Wire ∧ i.scriptSig.length ≤ maxSize := by
    intro i hi
    obtain rfl : i = { prevout := ⟨5, 1⟩, scriptSig := [0x51] } := by simpa [signedBlock] using hi
    exact ⟨⟨by decide, isSize_of_le (by decide), by decide⟩, by decide⟩
  have hout : ∀ o ∈ (signedBlock.vtx.flatMap CTransaction.vout), o.Wire := by
    intro o ho
    obtain rfl | rfl : o = ⟨0, [], -10⟩ ∨ o = ⟨50, [0xac], -10⟩ := by
      simpa [signedBlock] using ho
    · exact ⟨by decide, by decide⟩
    · exact ⟨by decide, by decide⟩
  have hsmall : ∀ tx ∈ signedBlock.vtx, tx.nVersion = 1 ∧ tx.vin.length ≤ 1 ∧
      tx.vout.length ≤ 2 ∧ tx.nLockTime = 0 := by simp [signedBlock]
  have hone : IsInt 1 := by norm_num [IsInt]
  have hthree : IsInt 3 := by norm_num [IsInt]
  have hwire : signedBlock.Wire := by
    refine ⟨⟨hthree, by decide, by decide, by decide⟩, by decide, ?_, by decide, by decide⟩
    intro tx htx
    obtain ⟨hversion, hvin, hvout, hlock⟩ := hsmall tx htx
    exact ⟨hversion ▸ hone, hvin.trans (by decide),
      fun i hi => hin i (List.mem_flatMap.2 ⟨tx, htx, hi⟩), hvout.trans (by decide),
      fun o ho => hout o (List.mem_flatMap.2 ⟨tx, htx, ho⟩), hlock ▸ by decide⟩
  exact ((wire_form .lp64 fun _ => 0).2.2.1 signedBlock hwire [0xff]).1

end FairCoin
