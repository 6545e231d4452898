import FairCoin.Lib.Canonical
import FairCoin.TimestampIndex
import FairCoin.Validation

/-!
# Queries of several addresses

`getaddressutxos`, `getaddressdeltas`, `getaddressbalance` and `getaddresstxids` of
`src/rpcaddressindex.cpp`, over the address indexes of the block tree database.  A query walks the keys
of each address of the request and puts what it meets together.

* `walk_eq` — **a walk** meets the keys of its address, and runs on where the next keys have the same
  hash under another type.
* `flatMap_walk` — the walks meet each entry of the set once if none runs on and no address with entries
  is repeated, and only then.
* `answers_iff` — **when the queries are those of the set** of addresses.
-/

namespace FairCoin

open Store

/-! ## Keys in the database -/

/-- An address of a request, as `GetIndexKey` returns it. -/
structure IndexAddress where
  hashBytes : UInt160
  type : ℕ
  type_valid : type = 1 ∨ type = 2
  deriving DecidableEq

/-- How the keys of an index are written: the byte of the index, then the type and the hash of the
address, then the rest. -/
structure AddressKeys (K : Type) where
  index : UInt8
  type : K → ℕ
  hashBytes : K → UInt160
  place : K → Codec.Bytes

/-- `CAddressIndexIteratorKey`. -/
def addressPrefix (type : ℕ) (hashBytes : UInt160) : Codec.Bytes :=
  UInt8.ofNat type :: Codec.putLE 20 hashBytes.toNat

/-- An `int` with the most significant byte first. -/
def putInt32BE (n : ℤ) : Codec.Bytes := ByteOrder.putBE 4 (BitVec.ofInt 32 n).toNat

/-- The keys of `DB_ADDRESSINDEX`. -/
def addressIndexKeys : AddressKeys CAddressIndexKey where
  index := 0x64
  type := CAddressIndexKey.type
  hashBytes := CAddressIndexKey.hashBytes
  place key := putInt32BE key.blockHeight ++ (ByteOrder.putBE 4 key.txindex ++
    (Codec.putLE 32 key.txhash.toNat ++ (Codec.putLE 4 key.index ++ [if key.spending then 1 else 0])))

/-- The keys of `DB_ADDRESSUNSPENTINDEX`. -/
def addressUnspentKeys : AddressKeys CAddressUnspentKey where
  index := 0x75
  type := CAddressUnspentKey.type
  hashBytes := CAddressUnspentKey.hashBytes
  place key := Codec.putLE 32 key.txhash.toNat ++ Codec.putLE 4 key.index

namespace AddressKeys

variable {K V : Type} [DecidableEq K] (ks : AddressKeys K)

/-- The bytes of a key. -/
def bytes (key : K) : Codec.Bytes :=
  ks.index :: (addressPrefix (ks.type key) (ks.hashBytes key) ++ ks.place key)

/-- The order of the keys in the database. -/
def keyLe (a b : K) : Bool := !ByteOrder.lt (ks.bytes b) (ks.bytes a)

/-- The entries of the index, in order. -/
def entries (m : Map K V) : List (K × V) := sortedEntries ks.keyLe m

/-- The walk of `ReadAddressIndex` and `ReadAddressUnspentIndex`: from the first key that is not before
`seek` on, while the hash is that of the address and the walk is not stopped.  The type is not
compared. -/
def walk (m : Map K V) (addressHash : UInt160) (seek : Codec.Bytes) (stop : K → Bool) :
    List (K × V) :=
  ((ks.entries m).dropWhile fun e => ByteOrder.lt (ks.bytes e.1) (ks.index :: seek)).takeWhile
    fun e => decide (ks.hashBytes e.1 = addressHash) && !stop e.1

end AddressKeys

/-- `CBlockTreeDB::ReadAddressIndex`. -/
def CBlockTreeDB.readAddressIndex (db : CBlockTreeDB) (address : IndexAddress)
    (start stop : ℤ) : List (CAddressIndexKey × ℤ) :=
  addressIndexKeys.walk db.addressIndex address.hashBytes
    (if 0 < start ∧ 0 < stop then addressPrefix address.type address.hashBytes ++ putInt32BE start
      else addressPrefix address.type address.hashBytes)
    fun key => decide (0 < stop ∧ stop < key.blockHeight)

/-- `CBlockTreeDB::ReadAddressUnspentIndex`. -/
def CBlockTreeDB.readAddressUnspentIndex (db : CBlockTreeDB) (address : IndexAddress) :
    List (CAddressUnspentKey × CAddressUnspentValue) :=
  addressUnspentKeys.walk db.addressUnspentIndex address.hashBytes
    (addressPrefix address.type address.hashBytes) fun _ => false

/-! ## The calls -/

/-- `JSONRPCError`. -/
structure JSONRPCError where
  code : ℤ
  message : String
  deriving DecidableEq, Repr

/-- The error of an index that is not enabled. -/
def noInformation : JSONRPCError := ⟨-5, "No information available for address"⟩

/-- The error of an entry whose type is unknown. -/
def unknownAddressType : JSONRPCError := ⟨-32603, "Unknown address type"⟩

/-- The loop over the addresses of a request, which appends what each of them has in the index. -/
def forAddresses {α : Type} (fAddressIndex : Bool) (read : IndexAddress → List α) :
    List IndexAddress → Except JSONRPCError (List α)
  | [] => .ok []
  | address :: addresses =>
      if fAddressIndex then
        match forAddresses fAddressIndex read addresses with
        | .ok rest => .ok (read address ++ rest)
        | .error e => .error e
      else .error noInformation

/-- `getAddressFromIndex`. -/
def getAddressFromIndex (type : ℕ) (hash : UInt160) : Option IndexAddress :=
  if h : type = 2 then some ⟨hash, type, .inr h⟩
  else if h : type = 1 then some ⟨hash, type, .inl h⟩
  else none

/-- The loop over the entries, which fails at an unknown type. -/
def forEntries {K V α : Type} (ks : AddressKeys K) (object : IndexAddress → K × V → α) :
    List (K × V) → Except JSONRPCError (List α)
  | [] => .ok []
  | e :: es =>
      match getAddressFromIndex (ks.type e.1) (ks.hashBytes e.1) with
      | none => .error unknownAddressType
      | some address =>
          match forEntries ks object es with
          | .ok rest => .ok (object address e :: rest)
          | .error e => .error e

/-- An object of `getaddressutxos`. -/
structure AddressUtxo where
  address : IndexAddress
  txid : UInt256
  outputIndex : ℤ
  script : CScript
  satoshis : ℤ
  height : ℤ
  deriving DecidableEq

/-- An object of `getaddressdeltas`. -/
structure AddressDelta where
  satoshis : ℤ
  txid : UInt256
  index : ℤ
  blockindex : ℤ
  height : ℤ
  address : IndexAddress
  deriving DecidableEq

/-- The object of `getaddressbalance`. -/
structure AddressBalance where
  balance : ℤ
  received : ℤ
  deriving DecidableEq, Repr

section Calls

variable (fAddressIndex : Bool) (db : CBlockTreeDB) (addresses : List IndexAddress)

/-- The object of an unspent output. -/
def utxoObject (address : IndexAddress) (e : CAddressUnspentKey × CAddressUnspentValue) :
    AddressUtxo :=
  ⟨address, e.1.txhash, wrap32 e.1.index, e.2.script, e.2.satoshis, e.2.blockHeight⟩

/-- The object of a delta. -/
def deltaObject (address : IndexAddress) (e : CAddressIndexKey × ℤ) : AddressDelta :=
  ⟨e.2, e.1.txhash, wrap32 e.1.index, wrap32 e.1.txindex, e.1.blockHeight, address⟩

/-- `getaddressutxos`; `std::sort` leaves the order of outputs of one height open. -/
def getAddressUtxos : Except JSONRPCError (List AddressUtxo) :=
  match forAddresses fAddressIndex db.readAddressUnspentIndex addresses with
  | .error e => .error e
  | .ok unspentOutputs =>
      forEntries addressUnspentKeys utxoObject
        (unspentOutputs.mergeSort fun a b => decide (a.2.blockHeight ≤ b.2.blockHeight))

/-- The heights of a request of `getaddressdeltas`, checked; none is a range from 0 to 0. -/
def deltaRange : Option (ℤ × ℤ) → Except JSONRPCError (ℤ × ℤ)
  | none => .ok (0, 0)
  | some (start, stop) =>
      if start ≤ 0 ∨ stop ≤ 0 then
        .error ⟨-8, "Start and end is expected to be greater than zero"⟩
      else if stop < start then
        .error ⟨-8, "End value is expected to be greater than start"⟩
      else .ok (start, stop)

/-- `GetAddressIndex` for each address: with the range if both heights are positive. -/
def readIndex (range : ℤ × ℤ) : Except JSONRPCError (List (CAddressIndexKey × ℤ)) :=
  forAddresses fAddressIndex (fun address =>
    if 0 < range.1 ∧ 0 < range.2 then db.readAddressIndex address range.1 range.2
    else db.readAddressIndex address 0 0) addresses

/-- `getaddressdeltas`. -/
def getAddressDeltas (range : Option (ℤ × ℤ)) : Except JSONRPCError (List AddressDelta) :=
  match deltaRange range with
  | .error e => .error e
  | .ok range =>
      match readIndex fAddressIndex db addresses range with
      | .error e => .error e
      | .ok addressIndex => forEntries addressIndexKeys deltaObject addressIndex

/-- The loop of `getaddressbalance`. -/
def balanceStep (b : AddressBalance) (e : CAddressIndexKey × ℤ) : AddressBalance where
  balance := wrap64 (b.balance + e.2)
  received := if 0 < e.2 then wrap64 (b.received + e.2) else b.received

/-- `getaddressbalance`. -/
def getAddressBalance : Except JSONRPCError AddressBalance :=
  match readIndex fAddressIndex db addresses (0, 0) with
  | .error e => .error e
  | .ok addressIndex => .ok (addressIndex.foldl balanceStep ⟨0, 0⟩)

/-- The pairs that are new when they are inserted. -/
def newPairs (seen : List (ℤ × UInt256)) : List (ℤ × UInt256) → List (ℤ × UInt256)
  | [] => []
  | p :: ps => if p ∈ seen then newPairs seen ps else p :: newPairs (p :: seen) ps

/-- The order of the set: heights, and the texts of the ids, which are in the order of their
numbers. -/
def pairLe (a b : ℤ × UInt256) : Bool := decide (a.1 < b.1 ∨ (a.1 = b.1 ∧ a.2 ≤ b.2))

/-- `getaddresstxids`: of several addresses in the order of the set, of one as they come. -/
def getAddressTxids (range : Option (ℤ × ℤ)) : Except JSONRPCError (List UInt256) :=
  match readIndex fAddressIndex db addresses (range.getD (0, 0)) with
  | .error e => .error e
  | .ok addressIndex =>
      let txids := newPairs [] (addressIndex.map fun e => (e.1.blockHeight, e.1.txhash))
      if 1 < addresses.length then .ok ((txids.mergeSort pairLe).map Prod.snd)
      else .ok (txids.map Prod.snd)

end Calls

/-! ## What a walk meets -/

/-- Places among keys, in the order of their bytes. -/
def Place : Type := List ℕ

instance : LinearOrder Place := inferInstanceAs (LinearOrder (List ℕ))

namespace AddressKeys

variable {K V : Type} [DecidableEq K] (ks : AddressKeys K)

/-- The entries of an address. -/
def own (m : Map K V) (a : IndexAddress) : List (K × V) :=
  (ks.entries m).filter fun e => decide (ks.type e.1 = a.type ∧ ks.hashBytes e.1 = a.hashBytes)

/-- The entries of a set of addresses. -/
def listed (m : Map K V) (addresses : List IndexAddress) : List (K × V) :=
  (ks.entries m).filter fun e =>
    decide (∃ a ∈ addresses, ks.type e.1 = a.type ∧ ks.hashBytes e.1 = a.hashBytes)

/-- The place of an address among the keys: the bytes that its keys start with. -/
def addressPlace (type : ℕ) (hashBytes : UInt160) : Place :=
  ByteOrder.values (addressPrefix type hashBytes)

/-- **The walk of an address runs on**: the next keys behind its own have the same hash. -/
def RunsOn (m : Map K V) (a : IndexAddress) : Prop :=
  ∃ e ∈ ks.entries m, addressPlace a.type a.hashBytes < addressPlace (ks.type e.1) (ks.hashBytes e.1) ∧
    ks.hashBytes e.1 = a.hashBytes ∧
    ∀ e' ∈ ks.entries m,
      addressPlace a.type a.hashBytes < addressPlace (ks.type e'.1) (ks.hashBytes e'.1) →
        addressPlace (ks.type e.1) (ks.hashBytes e.1) ≤
          addressPlace (ks.type e'.1) (ks.hashBytes e'.1)

end AddressKeys

theorem length_addressPrefix (type : ℕ) (hashBytes : UInt160) :
    (addressPrefix type hashBytes).length = 21 := by
  rw [addressPrefix, List.length_cons, Codec.length_putLE]

theorem putLE_injective {k m n : ℕ} (hm : m < 256 ^ k) (hn : n < 256 ^ k)
    (h : Codec.putLE k m = Codec.putLE k n) : m = n := by
  have hget := Codec.getLE_putLE [] hm
  rw [h, Codec.getLE_putLE [] hn] at hget
  exact (congrArg Prod.fst (Option.some.inj hget)).symm

theorem addressPrefix_injective {t t' : ℕ} {h h' : UInt160} (ht : t < 256) (ht' : t' < 256)
    (heq : addressPrefix t h = addressPrefix t' h') : t = t' ∧ h = h' := by
  obtain ⟨htype, hhash⟩ := List.cons.inj heq
  constructor
  · have := congrArg UInt8.toNat htype
    rwa [UInt8.toNat_ofNat', UInt8.toNat_ofNat', Nat.mod_eq_of_lt ht, Nat.mod_eq_of_lt ht'] at this
  · apply BitVec.eq_of_toNat_eq
    exact putLE_injective h.isLt h'.isLt hhash

namespace AddressKeys

variable {K V : Type} [DecidableEq K] {ks : AddressKeys K} {m : Map K V}

theorem entries_keyLe (ks : AddressKeys K) (m : Map K V) :
    (ks.entries m).Pairwise fun a b => ks.keyLe a.1 b.1 = true := by
  refine List.pairwise_mergeSort ?_ ?_ (m.entries.map fun e => (e.1, e.2))
  · intro a b c hab hbc
    unfold keyLe at *
    rw [Bool.not_eq_true'] at *
    exact ByteOrder.not_lt_trans hab hbc
  · exact fun a b => ByteOrder.not_lt_total (ks.bytes a.1) (ks.bytes b.1)

/-- The entries are in the order of their addresses. -/
theorem entries_sorted (ks : AddressKeys K) (m : Map K V) : (ks.entries m).Pairwise fun a b =>
    addressPlace (ks.type a.1) (ks.hashBytes a.1) ≤ addressPlace (ks.type b.1) (ks.hashBytes b.1) := by
  refine (entries_keyLe ks m).imp fun {a b} hab => ?_
  unfold keyLe bytes at hab
  rw [Bool.not_eq_true', lt_cons] at hab
  by_contra hlt
  have h := (ByteOrder.lt_append_of_length (ks.place b.1) (ks.place a.1)
    ((length_addressPrefix (ks.type b.1) (ks.hashBytes b.1)).trans
      (length_addressPrefix (ks.type a.1) (ks.hashBytes a.1)).symm)).2 (.inl (not_le.1 hlt))
  rw [hab] at h
  cases h

/-- The walk starts at the first key that is not before those of its address. -/
theorem lt_seek (key : K) (type : ℕ) (hashBytes : UInt160) :
    ByteOrder.lt (ks.bytes key) (ks.index :: addressPrefix type hashBytes) =
      decide (addressPlace (ks.type key) (ks.hashBytes key) < addressPlace type hashBytes) := by
  have h := ByteOrder.lt_append_of_length (ks.place key) []
    ((length_addressPrefix (ks.type key) (ks.hashBytes key)).trans
      (length_addressPrefix type hashBytes).symm)
  rw [List.append_nil, ByteOrder.lt_nil] at h
  rw [bytes, lt_cons, Bool.eq_iff_iff, h, decide_eq_true_eq]
  exact ⟨fun h => h.resolve_right (fun h => nomatch h.2), .inl⟩

theorem addressPlace_inj {t t' : ℕ} {h h' : UInt160} (ht : t < 256) (ht' : t' < 256) :
    addressPlace t h = addressPlace t' h' ↔ t = t' ∧ h = h' := by
  constructor
  · intro heq
    exact addressPrefix_injective ht ht' (ByteOrder.values_injective heq)
  · rintro ⟨rfl, rfl⟩
    rfl

/-- **A walk** meets the keys of its address, and those of the next ones if it runs on. -/
theorem walk_eq (hfits : ∀ e ∈ ks.entries m, ks.type e.1 < 256) (a : IndexAddress) :
    ∃ behind, ks.walk m a.hashBytes (addressPrefix a.type a.hashBytes) (fun _ => false) =
      ks.own m a ++ behind ∧ (behind = [] ↔ ¬ ks.RunsOn m a) := by
  have hsorted := entries_sorted ks m
  have htype : a.type < 256 := by
    have := a.type_valid
    omega
  have hplace : ∀ e ∈ ks.entries m, addressPlace (ks.type e.1) (ks.hashBytes e.1) =
      addressPlace a.type a.hashBytes ↔ ks.type e.1 = a.type ∧ ks.hashBytes e.1 = a.hashBytes :=
    fun e he => addressPlace_inj (hfits e he) htype
  have hwalk := ByteOrder.walk_block hsorted
    (p := addressPlace a.type a.hashBytes)
    (q := fun e => decide (ks.hashBytes e.1 = a.hashBytes))
    (fun e he heq => decide_eq_true ((hplace e he).1 heq).2)
  refine ⟨((ks.entries m).filter fun e => decide (addressPlace a.type a.hashBytes <
    addressPlace (ks.type e.1) (ks.hashBytes e.1))).takeWhile
      fun e => decide (ks.hashBytes e.1 = a.hashBytes), ?_, ?_⟩
  · have hown : ks.own m a = (ks.entries m).filter fun e =>
        decide (addressPlace (ks.type e.1) (ks.hashBytes e.1) = addressPlace a.type a.hashBytes) := by
      apply List.filter_congr
      intro e he
      rw [decide_eq_decide, hplace e he]
    rw [hown, ← hwalk, walk]
    simp only [lt_seek, Bool.not_false, Bool.and_true]
  · rw [iff_not_comm, ← ne_eq]
    symm
    refine (ByteOrder.walk_runs_on_iff hsorted ?_).trans ?_
    · intro e e' heq
      have hprefix := ByteOrder.values_injective heq
      have hhash : ks.hashBytes e.1 = ks.hashBytes e'.1 :=
        BitVec.eq_of_toNat_eq (putLE_injective (ks.hashBytes e.1).isLt (ks.hashBytes e'.1).isLt
          (List.cons.inj hprefix).2)
      rw [hhash]
    · simp only [decide_eq_true_eq]
      rfl

/-! ### Several addresses -/

theorem listed_cons_of_mem {a : IndexAddress} {as : List IndexAddress} (h : a ∈ as) :
    ks.listed m (a :: as) = ks.listed m as := by
  apply List.filter_congr
  intro e _
  rw [decide_eq_decide]
  constructor
  · rintro ⟨b, hb, heq⟩
    rcases List.mem_cons.1 hb with rfl | hb
    · exact ⟨b, h, heq⟩
    · exact ⟨b, hb, heq⟩
  · rintro ⟨b, hb, heq⟩
    exact ⟨b, List.mem_cons_of_mem _ hb, heq⟩

/-- A new address adds its entries. -/
theorem listed_cons_perm {a : IndexAddress} {as : List IndexAddress} (h : a ∉ as) :
    (ks.listed m (a :: as)).Perm (ks.own m a ++ ks.listed m as) := by
  have hother : ∀ e : K × V, ks.type e.1 = a.type ∧ ks.hashBytes e.1 = a.hashBytes →
      ¬ ∃ b ∈ as, ks.type e.1 = b.type ∧ ks.hashBytes e.1 = b.hashBytes := by
    rintro e ⟨htype, hhash⟩ ⟨b, hb, htype', hhash'⟩
    apply h
    have : a = b := by
      cases a
      cases b
      simp only [IndexAddress.mk.injEq]
      exact ⟨hhash.symm.trans hhash', htype.symm.trans htype'⟩
    rwa [this]
  unfold listed own
  induction ks.entries m with
  | nil => exact List.Perm.refl _
  | cons e l ih =>
    by_cases hown : ks.type e.1 = a.type ∧ ks.hashBytes e.1 = a.hashBytes
    · rw [List.filter_cons_of_pos (by simp [hown]), List.filter_cons_of_pos (by simp [hown]),
        List.filter_cons_of_neg (by simpa using hother e hown)]
      exact ih.cons e
    · by_cases hin : ∃ b ∈ as, ks.type e.1 = b.type ∧ ks.hashBytes e.1 = b.hashBytes
      · have hin' : ∃ b ∈ a :: as, ks.type e.1 = b.type ∧ ks.hashBytes e.1 = b.hashBytes := by
          obtain ⟨b, hb, heq⟩ := hin
          exact ⟨b, List.mem_cons_of_mem _ hb, heq⟩
        rw [List.filter_cons_of_pos (by rw [decide_eq_true_eq]; exact hin'),
          List.filter_cons_of_neg (by simpa using hown),
          List.filter_cons_of_pos (by rw [decide_eq_true_eq]; exact hin)]
        exact (ih.cons e).trans List.perm_middle.symm
      · have hin' : ¬ ∃ b ∈ a :: as, ks.type e.1 = b.type ∧ ks.hashBytes e.1 = b.hashBytes := by
          rintro ⟨b, hb, heq⟩
          rcases List.mem_cons.1 hb with rfl | hb
          · exact hown heq
          · exact hin ⟨b, hb, heq⟩
        rw [List.filter_cons_of_neg (by rw [decide_eq_true_eq]; exact hin'),
          List.filter_cons_of_neg (by simpa using hown),
          List.filter_cons_of_neg (by rw [decide_eq_true_eq]; exact hin)]
        exact ih

/-- No address with entries is repeated in the request. -/
def NoRepeats (ks : AddressKeys K) (m : Map K V) (addresses : List IndexAddress) : Prop :=
  ∀ a, 1 < addresses.count a → ks.own m a = []

theorem noRepeats_cons_of_mem {a : IndexAddress} {as : List IndexAddress} (h : a ∈ as) :
    ks.NoRepeats m (a :: as) ↔ ks.own m a = [] ∧ ks.NoRepeats m as := by
  have hpos := List.count_pos_iff.2 h
  constructor
  · intro hno
    refine ⟨hno a (by rw [List.count_cons_self]; omega), fun b hb => hno b ?_⟩
    exact hb.trans_le List.count_le_count_cons
  · rintro ⟨hnone, hno⟩ b hb
    by_cases heq : b = a
    · rw [heq]
      exact hnone
    · rw [List.count_cons_of_ne (Ne.symm heq)] at hb
      exact hno b hb

theorem noRepeats_cons_of_notMem {a : IndexAddress} {as : List IndexAddress} (h : a ∉ as) :
    ks.NoRepeats m (a :: as) ↔ ks.NoRepeats m as := by
  have hzero := List.count_eq_zero.2 h
  constructor
  · intro hno b hb
    exact hno b (hb.trans_le List.count_le_count_cons)
  · intro hno b hb
    by_cases heq : b = a
    · rw [heq, List.count_cons_self] at hb
      omega
    · rw [List.count_cons_of_ne (Ne.symm heq)] at hb
      exact hno b hb

theorem length_listed_le (as : List IndexAddress) :
    (ks.listed m as).length ≤ (as.flatMap (ks.own m)).length ∧
      ((ks.listed m as).length = (as.flatMap (ks.own m)).length ↔ ks.NoRepeats m as) := by
  induction as with
  | nil =>
    have hnone : ks.listed m [] = [] := by
      apply List.filter_eq_nil_iff.2
      intro e _
      simp
    rw [hnone]
    exact ⟨le_rfl, iff_of_true rfl fun a ha => absurd ha (by simp)⟩
  | cons a as ih =>
    obtain ⟨hle, heq⟩ := ih
    rw [List.flatMap_cons, List.length_append]
    by_cases h : a ∈ as
    · rw [listed_cons_of_mem h, noRepeats_cons_of_mem h, ← heq, ← List.length_eq_zero_iff]
      constructor <;> omega
    · rw [(listed_cons_perm h).length_eq, List.length_append, noRepeats_cons_of_notMem h, ← heq]
      constructor <;> omega

theorem flatMap_own_perm {as : List IndexAddress} (h : ks.NoRepeats m as) :
    (as.flatMap (ks.own m)).Perm (ks.listed m as) := by
  induction as with
  | nil =>
    have hnone : ks.listed m [] = [] := by
      apply List.filter_eq_nil_iff.2
      intro e _
      simp
    rw [hnone]
    exact List.Perm.refl _
  | cons a as ih =>
    rw [List.flatMap_cons]
    by_cases ha : a ∈ as
    · obtain ⟨hnone, hno⟩ := (noRepeats_cons_of_mem ha).1 h
      rw [listed_cons_of_mem ha, hnone]
      exact ih hno
    · exact ((ih ((noRepeats_cons_of_notMem ha).1 h)).append_left _).trans
        (listed_cons_perm ha).symm

/-- Each entry of the set is met once by the walks. -/
def MeetsOnce (ks : AddressKeys K) (m : Map K V) (addresses : List IndexAddress) : Prop :=
  (∀ a ∈ addresses, ¬ ks.RunsOn m a) ∧ ks.NoRepeats m addresses

theorem flatMap_walk_eq (hfits : ∀ e ∈ ks.entries m, ks.type e.1 < 256) {as : List IndexAddress}
    (h : ∀ a ∈ as, ¬ ks.RunsOn m a) : (as.flatMap fun a => ks.walk m a.hashBytes
      (addressPrefix a.type a.hashBytes) fun _ => false) = as.flatMap (ks.own m) := by
  apply List.flatMap_congr
  intro a ha
  obtain ⟨behind, hwalk, hbehind⟩ := walk_eq hfits a
  rw [hwalk, hbehind.2 (h a ha), List.append_nil]

/-- **The walks of a request** meet each entry of the set once, or more entries than the set has. -/
theorem flatMap_walk (hfits : ∀ e ∈ ks.entries m, ks.type e.1 < 256) (as : List IndexAddress) :
    (ks.MeetsOnce m as → (as.flatMap fun a => ks.walk m a.hashBytes
        (addressPrefix a.type a.hashBytes) fun _ => false).Perm (ks.listed m as)) ∧
      (¬ ks.MeetsOnce m as → (ks.listed m as).length < (as.flatMap fun a => ks.walk m a.hashBytes
        (addressPrefix a.type a.hashBytes) fun _ => false).length) := by
  constructor
  · rintro ⟨hstops, hno⟩
    rw [flatMap_walk_eq hfits hstops]
    exact flatMap_own_perm hno
  · intro hnot
    -- each walk is at least as long as the entries of its address
    have hlength : ∀ bs : List IndexAddress, (bs.flatMap (ks.own m)).length ≤
        (bs.flatMap fun a => ks.walk m a.hashBytes (addressPrefix a.type a.hashBytes)
          fun _ => false).length ∧
        ((∃ a ∈ bs, ks.RunsOn m a) → (bs.flatMap (ks.own m)).length <
          (bs.flatMap fun a => ks.walk m a.hashBytes (addressPrefix a.type a.hashBytes)
            fun _ => false).length) := by
      intro bs
      induction bs with
      | nil => exact ⟨le_rfl, fun ⟨a, ha, _⟩ => absurd ha List.not_mem_nil⟩
      | cons b bs ih =>
        obtain ⟨behind, hwalk, hbehind⟩ := walk_eq hfits b
        rw [List.flatMap_cons, List.flatMap_cons, hwalk, List.length_append, List.length_append,
          List.length_append]
        refine ⟨by omega, ?_⟩
        rintro ⟨a, ha, hruns⟩
        rcases List.mem_cons.1 ha with rfl | ha
        · have hpos : 0 < behind.length := List.length_pos_iff.2 fun hnil => hbehind.1 hnil hruns
          omega
        · have := ih.2 ⟨a, ha, hruns⟩
          omega
    obtain ⟨hle, hlt⟩ := hlength as
    obtain ⟨hlisted, heq⟩ := @length_listed_le K V _ ks m as
    by_cases hruns : ∃ a ∈ as, ks.RunsOn m a
    · exact hlisted.trans_lt (hlt hruns)
    · have hno : ¬ ks.NoRepeats m as := fun hno =>
        hnot ⟨fun a ha hr => hruns ⟨a, ha, hr⟩, hno⟩
      exact (lt_of_le_of_ne hlisted fun h => hno (heq.1 h)).trans_le hle

end AddressKeys

/-! ## The loops of the calls -/

theorem forAddresses_eq {α : Type} (read : IndexAddress → List α) (addresses : List IndexAddress) :
    forAddresses true read addresses = .ok (addresses.flatMap read) := by
  induction addresses with
  | nil => rfl
  | cons a as ih =>
    rw [forAddresses, if_pos rfl, ih]
    rfl

/-- An object of the answer describes an entry. -/
def Describes {K V α : Type} (ks : AddressKeys K) (object : IndexAddress → K × V → α) (e : K × V)
    (o : α) : Prop :=
  ∃ a, getAddressFromIndex (ks.type e.1) (ks.hashBytes e.1) = some a ∧ o = object a e

/-- **The loop over the entries** describes each of them, in order. -/
theorem forEntries_iff {K V α : Type} {ks : AddressKeys K} {object : IndexAddress → K × V → α}
    {es : List (K × V)} : ∀ {objects : List α}, forEntries ks object es = .ok objects ↔
      List.Forall₂ (Describes ks object) es objects := by
  induction es with
  | nil =>
    intro objects
    rw [List.forall₂_nil_left_iff]
    constructor
    · intro h
      cases h
      rfl
    · rintro rfl
      rfl
  | cons e es ih =>
    intro objects
    rw [List.forall₂_cons_left_iff, forEntries]
    constructor
    · intro h
      cases haddress : getAddressFromIndex (ks.type e.1) (ks.hashBytes e.1) with
      | none =>
        rw [haddress] at h
        cases h
      | some a =>
        rw [haddress] at h
        cases hrest : forEntries ks object es with
        | error fault =>
          rw [hrest] at h
          cases h
        | ok rest =>
          rw [hrest] at h
          cases h
          exact ⟨_, rest, ⟨a, haddress, rfl⟩, ih.1 hrest, rfl⟩
    · rintro ⟨o, rest, ⟨a, haddress, rfl⟩, hrest, rfl⟩
      rw [haddress, ih.2 hrest]

/-- The entries of a set of addresses have known types. -/
theorem describes_listed {K V α : Type} [DecidableEq K] {ks : AddressKeys K} {m : Map K V}
    {addresses : List IndexAddress} (object : IndexAddress → K × V → α) {e : K × V}
    (he : e ∈ ks.listed m addresses) : ∃ o, Describes ks object e o := by
  obtain ⟨a, -, htype, hhash⟩ := of_decide_eq_true (List.mem_filter.1 he).2
  obtain ⟨b, hb⟩ : ∃ b, getAddressFromIndex (ks.type e.1) (ks.hashBytes e.1) = some b := by
    rcases a.type_valid with h1 | h2
    · refine ⟨⟨ks.hashBytes e.1, ks.type e.1, .inl (htype.trans h1)⟩, ?_⟩
      rw [getAddressFromIndex, dif_neg (by omega), dif_pos (by omega)]
    · refine ⟨⟨ks.hashBytes e.1, ks.type e.1, .inr (htype.trans h2)⟩, ?_⟩
      rw [getAddressFromIndex, dif_pos (by omega)]
  exact ⟨object b e, b, hb, rfl⟩

theorem exists_described {K V α : Type} {k : AddressKeys K} {f : IndexAddress → K × V → α}
    {es : List (K × V)} (h : ∀ e ∈ es, ∃ o, Describes k f e o) :
    ∃ objects, List.Forall₂ (Describes k f) es objects := by
  induction es with
  | nil => exact ⟨[], .nil⟩
  | cons e es ih =>
    obtain ⟨o, ho⟩ := h e List.mem_cons_self
    obtain ⟨objects, hrest⟩ := ih fun x hx => h x (List.mem_cons_of_mem _ hx)
    exact ⟨o :: objects, .cons ho hrest⟩

/-- The sum of the positive deltas. -/
def positiveSum (l : List ℤ) : ℤ := (l.filter fun n => decide (0 < n)).sum

theorem positiveSum_nonneg (l : List ℤ) : 0 ≤ positiveSum l := by
  apply List.sum_nonneg
  intro n hn
  exact (of_decide_eq_true (List.mem_filter.1 hn).2).le

/-- **The sums of the balance**, in 64 bits. -/
theorem foldl_balanceStep (l : List (CAddressIndexKey × ℤ)) : ∀ b r : ℤ,
    l.foldl balanceStep ⟨wrap64 b, wrap64 r⟩ =
      ⟨wrap64 (b + (l.map Prod.snd).sum), wrap64 (r + positiveSum (l.map Prod.snd))⟩ := by
  induction l with
  | nil =>
    intro b r
    simp [positiveSum]
  | cons e l ih =>
    intro b r
    rw [List.foldl_cons, balanceStep]
    dsimp only
    rw [wrap64_add_left, wrap64_add_left]
    by_cases hpos : 0 < e.2
    · rw [if_pos hpos, ih, List.map_cons, List.sum_cons, positiveSum, positiveSum,
        List.filter_cons_of_pos (by simpa using hpos), List.sum_cons, add_assoc, add_assoc]
    · rw [if_neg hpos, ih, List.map_cons, List.sum_cons, positiveSum, positiveSum,
        List.filter_cons_of_neg (by simpa using hpos), add_assoc]

theorem newPairs_spec (ps : List (ℤ × UInt256)) : ∀ seen : List (ℤ × UInt256),
    (newPairs seen ps).Sublist ps ∧ (newPairs seen ps).Nodup ∧
      ∀ p, p ∈ newPairs seen ps ↔ p ∈ ps ∧ p ∉ seen := by
  induction ps with
  | nil =>
    intro seen
    exact ⟨List.Sublist.refl _, List.nodup_nil, fun p => by simp [newPairs]⟩
  | cons q ps ih =>
    intro seen
    rw [newPairs]
    by_cases hq : q ∈ seen
    · obtain ⟨hsub, hnodup, hmem⟩ := ih seen
      rw [if_pos hq]
      refine ⟨hsub.cons q, hnodup, fun p => ?_⟩
      rw [hmem, List.mem_cons]
      constructor
      · rintro ⟨hp, hnew⟩
        exact ⟨.inr hp, hnew⟩
      · rintro ⟨rfl | hp, hnew⟩
        · exact absurd hq hnew
        · exact ⟨hp, hnew⟩
    · obtain ⟨hsub, hnodup, hmem⟩ := ih (q :: seen)
      rw [if_neg hq]
      refine ⟨hsub.cons_cons q, List.nodup_cons.2 ⟨?_, hnodup⟩, fun p => ?_⟩
      · intro h
        exact ((hmem q).1 h).2 List.mem_cons_self
      · rw [List.mem_cons, hmem, List.mem_cons, List.mem_cons]
        constructor
        · rintro (rfl | ⟨hp, hnew⟩)
          · exact ⟨.inl rfl, hq⟩
          · exact ⟨.inr hp, fun h => hnew (.inr h)⟩
        · rintro ⟨rfl | hp, hnew⟩
          · exact .inl rfl
          · by_cases heq : p = q
            · exact .inl heq
            · exact .inr ⟨hp, fun h => h.elim heq hnew⟩

/-! ## The answers -/

/-- **The content of the address indexes**, as they are written: types are bytes, and heights are not
negative. -/
structure IndexContent where
  db : CBlockTreeDB
  deltas_fit : ∀ e ∈ addressIndexKeys.entries db.addressIndex,
    e.1.type < 256 ∧ 0 ≤ e.1.blockHeight ∧ e.1.blockHeight < 2 ^ 31
  unspent_fit : ∀ e ∈ addressUnspentKeys.entries db.addressUnspentIndex, e.1.type < 256

namespace IndexContent

variable (c : IndexContent) (addresses : List IndexAddress)

/-- The deltas of a set of addresses. -/
def deltas : List (CAddressIndexKey × ℤ) := addressIndexKeys.listed c.db.addressIndex addresses

/-- The unspent outputs of a set of addresses. -/
def unspent : List (CAddressUnspentKey × CAddressUnspentValue) :=
  addressUnspentKeys.listed c.db.addressUnspentIndex addresses

/-- The sum of the values of the unspent outputs. -/
def unspentSum : ℤ := ((c.unspent addresses).map fun e => e.2.satoshis).sum

/-- **The answers are those of the set of addresses**: each unspent output and each delta of the set
once, the sum of the unspent values and of the positive deltas, and each transaction of the set once,
in the order of the heights. -/
structure Answers : Prop where
  utxos : ∃ es objects, es.Perm (c.unspent addresses) ∧
    getAddressUtxos true c.db addresses = .ok objects ∧
    List.Forall₂ (Describes addressUnspentKeys utxoObject) es objects
  deltas : ∃ es objects, es.Perm (c.deltas addresses) ∧
    getAddressDeltas true c.db addresses none = .ok objects ∧
    List.Forall₂ (Describes addressIndexKeys deltaObject) es objects
  balance : getAddressBalance true c.db addresses =
    .ok ⟨c.unspentSum addresses, positiveSum ((c.deltas addresses).map Prod.snd)⟩
  txids : ∃ ps : List (ℤ × UInt256), getAddressTxids true c.db addresses none =
      .ok (ps.map Prod.snd) ∧ (ps.map Prod.snd).Nodup ∧ (ps.Pairwise fun a b => a.1 ≤ b.1) ∧
    ∀ p, p ∈ ps ↔ ∃ e ∈ c.deltas addresses, (e.1.blockHeight, e.1.txhash) = p

/-- **A request that is answered for its set**: no walk runs on, no address with entries is repeated, no
transaction is at two heights, the deltas of the set sum to its unspent values, and what it received
fits an amount. -/
structure Queryable : Prop where
  deltas : addressIndexKeys.MeetsOnce c.db.addressIndex addresses
  unspent : addressUnspentKeys.MeetsOnce c.db.addressUnspentIndex addresses
  heights : ∀ e ∈ c.deltas addresses, ∀ e' ∈ c.deltas addresses, e.1.txhash = e'.1.txhash →
    e.1.blockHeight = e'.1.blockHeight
  balance : wrap64 ((c.deltas addresses).map Prod.snd).sum = c.unspentSum addresses
  received : positiveSum ((c.deltas addresses).map Prod.snd) < 2 ^ 63

variable {c addresses}

/-- The walks of a request over the deltas. -/
def deltaWalks (c : IndexContent) (addresses : List IndexAddress) : List (CAddressIndexKey × ℤ) :=
  addresses.flatMap fun a => addressIndexKeys.walk c.db.addressIndex a.hashBytes
    (addressPrefix a.type a.hashBytes) fun _ => false

/-- The walks of a request over the unspent outputs. -/
def unspentWalks (c : IndexContent) (addresses : List IndexAddress) :
    List (CAddressUnspentKey × CAddressUnspentValue) :=
  addresses.flatMap fun a => addressUnspentKeys.walk c.db.addressUnspentIndex a.hashBytes
    (addressPrefix a.type a.hashBytes) fun _ => false

theorem readIndex_eq (c : IndexContent) (addresses : List IndexAddress) :
    readIndex true c.db addresses (0, 0) = .ok (c.deltaWalks addresses) := by
  rw [readIndex, forAddresses_eq]
  rfl

theorem getAddressUtxos_eq (c : IndexContent) (addresses : List IndexAddress) :
    getAddressUtxos true c.db addresses = forEntries addressUnspentKeys utxoObject
      ((c.unspentWalks addresses).mergeSort
        fun a b => decide (a.2.blockHeight ≤ b.2.blockHeight)) := by
  rw [getAddressUtxos, forAddresses_eq]
  rfl

theorem getAddressDeltas_eq (c : IndexContent) (addresses : List IndexAddress) :
    getAddressDeltas true c.db addresses none =
      forEntries addressIndexKeys deltaObject (c.deltaWalks addresses) := by
  rw [getAddressDeltas, deltaRange]
  dsimp only
  rw [readIndex_eq]

theorem getAddressBalance_eq (c : IndexContent) (addresses : List IndexAddress) :
    getAddressBalance true c.db addresses =
      .ok ⟨wrap64 ((c.deltaWalks addresses).map Prod.snd).sum,
        wrap64 (positiveSum ((c.deltaWalks addresses).map Prod.snd))⟩ := by
  rw [getAddressBalance, readIndex_eq]
  dsimp only
  have h := foldl_balanceStep (c.deltaWalks addresses) 0 0
  rw [zero_add, zero_add, show wrap64 0 = 0 by rfl] at h
  rw [h]

theorem positiveSum_perm {l l' : List ℤ} (h : l.Perm l') : positiveSum l = positiveSum l' :=
  (h.filter _).sum_eq

/-- Of one address the heights come in order. -/
theorem own_heights (c : IndexContent) (a : IndexAddress) :
    (addressIndexKeys.own c.db.addressIndex a).Pairwise
      fun e e' => e.1.blockHeight ≤ e'.1.blockHeight := by
  refine List.Pairwise.imp_of_mem ?_
    ((AddressKeys.entries_keyLe addressIndexKeys c.db.addressIndex).sublist List.filter_sublist)
  intro e e' he he' hle
  obtain ⟨hin, hown⟩ := List.mem_filter.1 he
  obtain ⟨hin', hown'⟩ := List.mem_filter.1 he'
  obtain ⟨htype, hhash⟩ := of_decide_eq_true hown
  obtain ⟨htype', hhash'⟩ := of_decide_eq_true hown'
  obtain ⟨-, hlo, hhi⟩ := c.deltas_fit e hin
  obtain ⟨-, hlo', hhi'⟩ := c.deltas_fit e' hin'
  unfold AddressKeys.keyLe AddressKeys.bytes at hle
  rw [Bool.not_eq_true', lt_cons, htype, hhash, htype', hhash'] at hle
  by_contra hlt
  have hint : ∀ n : ℤ, 0 ≤ n → n < 2 ^ 31 → (BitVec.ofInt 32 n).toNat = n.toNat := by
    intro n hn hn'
    rw [BitVec.toNat_ofInt]
    omega
  have hplace : ByteOrder.lt (addressIndexKeys.place e'.1) (addressIndexKeys.place e.1) = true := by
    apply (ByteOrder.lt_putBE_append _ _ (BitVec.isLt _) (BitVec.isLt _)).2
    rw [hint _ hlo hhi, hint _ hlo' hhi']
    exact .inl (by omega)
  have h := (ByteOrder.lt_append_of_length (x := addressPrefix a.type a.hashBytes)
    (addressIndexKeys.place e'.1) (addressIndexKeys.place e.1) rfl).2 (.inr ⟨rfl, hplace⟩)
  rw [hle] at h
  cases h

theorem deltaWalks_spec (c : IndexContent) (addresses : List IndexAddress) :
    (addressIndexKeys.MeetsOnce c.db.addressIndex addresses →
        (c.deltaWalks addresses).Perm (c.deltas addresses)) ∧
      (¬ addressIndexKeys.MeetsOnce c.db.addressIndex addresses →
        (c.deltas addresses).length < (c.deltaWalks addresses).length) :=
  AddressKeys.flatMap_walk (fun e he => (c.deltas_fit e he).1) addresses

theorem unspentWalks_spec (c : IndexContent) (addresses : List IndexAddress) :
    (addressUnspentKeys.MeetsOnce c.db.addressUnspentIndex addresses →
        (c.unspentWalks addresses).Perm (c.unspent addresses)) ∧
      (¬ addressUnspentKeys.MeetsOnce c.db.addressUnspentIndex addresses →
        (c.unspent addresses).length < (c.unspentWalks addresses).length) :=
  AddressKeys.flatMap_walk c.unspent_fit addresses

/-- An answer that has as many objects as the set has entries meets each of them once. -/
theorem Answers.meetsOnce (h : c.Answers addresses) :
    addressIndexKeys.MeetsOnce c.db.addressIndex addresses ∧
      addressUnspentKeys.MeetsOnce c.db.addressUnspentIndex addresses := by
  constructor
  · obtain ⟨es, objects, hperm, hanswer, hdescribes⟩ := h.deltas
    rw [getAddressDeltas_eq] at hanswer
    have hlength := (forEntries_iff.1 hanswer).length_eq
    by_contra hnot
    have hlt := (deltaWalks_spec c addresses).2 hnot
    rw [hlength, ← hdescribes.length_eq, hperm.length_eq] at hlt
    exact lt_irrefl _ hlt
  · obtain ⟨es, objects, hperm, hanswer, hdescribes⟩ := h.utxos
    rw [getAddressUtxos_eq] at hanswer
    have hlength := (forEntries_iff.1 hanswer).length_eq
    rw [List.length_mergeSort] at hlength
    by_contra hnot
    have hlt := (unspentWalks_spec c addresses).2 hnot
    rw [hlength, ← hdescribes.length_eq, hperm.length_eq] at hlt
    exact lt_irrefl _ hlt

theorem Answers.queryable (h : c.Answers addresses) : c.Queryable addresses := by
  obtain ⟨hdeltas, hunspent⟩ := h.meetsOnce
  have hperm := (deltaWalks_spec c addresses).1 hdeltas
  have hsum := (hperm.map Prod.snd).sum_eq
  have hpositive := positiveSum_perm (hperm.map Prod.snd)
  have hbalance := h.balance
  rw [getAddressBalance_eq, hsum, hpositive, Except.ok.injEq, AddressBalance.mk.injEq] at hbalance
  refine ⟨hdeltas, hunspent, ?_, hbalance.1, ?_⟩
  · obtain ⟨ps, -, hnodup, -, hmem⟩ := h.txids
    intro e he e' he' htx
    have hp := (hmem _).2 ⟨e, he, rfl⟩
    have hp' := (hmem _).2 ⟨e', he', rfl⟩
    exact congrArg Prod.fst (List.inj_on_of_nodup_map hnodup hp hp' htx)
  · have hwrap := hbalance.2
    have hlt : wrap64 (positiveSum ((c.deltas addresses).map Prod.snd)) < 2 ^ 63 :=
      Int.bmod_lt (by decide)
    rwa [hwrap] at hlt

/-- The pairs of heights and transactions of the walks. -/
def walkPairs (c : IndexContent) (addresses : List IndexAddress) : List (ℤ × UInt256) :=
  newPairs [] ((c.deltaWalks addresses).map fun e => (e.1.blockHeight, e.1.txhash))

theorem getAddressTxids_eq (c : IndexContent) (addresses : List IndexAddress) :
    getAddressTxids true c.db addresses none = .ok ((if 1 < addresses.length then
      (c.walkPairs addresses).mergeSort pairLe else c.walkPairs addresses).map Prod.snd) := by
  rw [getAddressTxids, Option.getD_none, readIndex_eq]
  dsimp only
  split <;> rfl

theorem pairLe_trans (a b c : ℤ × UInt256) (hab : pairLe a b = true) (hbc : pairLe b c = true) :
    pairLe a c = true := by
  unfold pairLe at *
  rw [decide_eq_true_eq, BitVec.le_def] at *
  omega

theorem pairLe_total (a b : ℤ × UInt256) : (pairLe a b || pairLe b a) = true := by
  unfold pairLe
  rw [Bool.or_eq_true, decide_eq_true_eq, decide_eq_true_eq, BitVec.le_def, BitVec.le_def]
  omega

theorem fst_le_of_pairLe {a b : ℤ × UInt256} (h : pairLe a b = true) : a.1 ≤ b.1 := by
  unfold pairLe at h
  rw [decide_eq_true_eq] at h
  omega

/-- **The transactions of the set**, where the walks meet its entries. -/
theorem Queryable.txids (h : c.Queryable addresses) :
    ∃ ps : List (ℤ × UInt256), getAddressTxids true c.db addresses none =
      .ok (ps.map Prod.snd) ∧ (ps.map Prod.snd).Nodup ∧ (ps.Pairwise fun a b => a.1 ≤ b.1) ∧
    ∀ p, p ∈ ps ↔ ∃ e ∈ c.deltas addresses, (e.1.blockHeight, e.1.txhash) = p := by
  have hperm := (deltaWalks_spec c addresses).1 h.deltas
  obtain ⟨hsub, hnodup, hmem⟩ :=
    newPairs_spec ((c.deltaWalks addresses).map fun e => (e.1.blockHeight, e.1.txhash)) []
  have hpairs : ∀ p, p ∈ c.walkPairs addresses ↔
      ∃ e ∈ c.deltas addresses, (e.1.blockHeight, e.1.txhash) = p := by
    intro p
    rw [walkPairs, hmem, List.mem_map]
    constructor
    · rintro ⟨⟨e, he, heq⟩, -⟩
      exact ⟨e, hperm.mem_iff.1 he, heq⟩
    · rintro ⟨e, he, heq⟩
      exact ⟨⟨e, hperm.mem_iff.2 he, heq⟩, List.not_mem_nil⟩
  have hinj : ∀ p ∈ c.walkPairs addresses, ∀ q ∈ c.walkPairs addresses, p.2 = q.2 → p = q := by
    intro p hp q hq heq
    obtain ⟨e, he, rfl⟩ := (hpairs p).1 hp
    obtain ⟨e', he', rfl⟩ := (hpairs q).1 hq
    exact Prod.ext (h.heights e he e' he' heq) heq
  rw [getAddressTxids_eq]
  by_cases hmany : 1 < addresses.length
  · rw [if_pos hmany]
    have hsort := List.mergeSort_perm (c.walkPairs addresses) pairLe
    refine ⟨_, rfl, ?_, ?_, fun p => (hsort.mem_iff).trans (hpairs p)⟩
    · rw [(hsort.map Prod.snd).nodup_iff]
      exact List.Nodup.map_on hinj hnodup
    · exact (List.pairwise_mergeSort pairLe_trans pairLe_total _).imp fst_le_of_pairLe
  · rw [if_neg hmany]
    refine ⟨_, rfl, List.Nodup.map_on hinj hnodup, ?_, hpairs⟩
    apply List.Pairwise.sublist hsub
    rw [List.pairwise_map, deltaWalks,
      AddressKeys.flatMap_walk_eq (fun e he => (c.deltas_fit e he).1) h.deltas.1]
    -- one address at most
    rcases addresses with _ | ⟨a, _ | ⟨b, as⟩⟩
    · exact List.Pairwise.nil
    · rw [List.flatMap_cons, List.flatMap_nil, List.append_nil]
      exact own_heights c a
    · exact absurd (by simp) hmany

theorem Queryable.answers (h : c.Queryable addresses) : c.Answers addresses := by
  have hdeltas := (deltaWalks_spec c addresses).1 h.deltas
  have hunspent := (unspentWalks_spec c addresses).1 h.unspent
  refine ⟨?_, ?_, ?_, h.txids⟩
  · have hsorted := (List.mergeSort_perm (c.unspentWalks addresses)
      fun a b => decide (a.2.blockHeight ≤ b.2.blockHeight)).trans hunspent
    obtain ⟨objects, hobjects⟩ := exists_described (k := addressUnspentKeys) (f := utxoObject)
      fun e he => describes_listed utxoObject (hsorted.mem_iff.1 he)
    exact ⟨_, objects, hsorted, (getAddressUtxos_eq c addresses).trans (forEntries_iff.2 hobjects),
      hobjects⟩
  · obtain ⟨objects, hobjects⟩ := exists_described (k := addressIndexKeys) (f := deltaObject)
      fun e he => describes_listed deltaObject (hdeltas.mem_iff.1 he)
    exact ⟨_, objects, hdeltas, (getAddressDeltas_eq c addresses).trans (forEntries_iff.2 hobjects),
      hobjects⟩
  · have hnonneg := positiveSum_nonneg ((c.deltas addresses).map Prod.snd)
    have hreceived := h.received
    rw [getAddressBalance_eq, (hdeltas.map Prod.snd).sum_eq, positiveSum_perm (hdeltas.map Prod.snd),
      h.balance, wrap64_of_lt (by omega) (by omega)]

/-- **Queries of several addresses.**  The answers are those of the set of addresses if and only if no
walk runs on behind its address, no address with entries is repeated, no transaction of the set is at
two heights, and the sums of the set are those of its unspent values and fit an amount. -/
theorem answers_iff (c : IndexContent) (addresses : List IndexAddress) :
    c.Answers addresses ↔ c.Queryable addresses :=
  ⟨Answers.queryable, Queryable.answers⟩

end IndexContent

/-- In an index of one key there is that key. -/
theorem eq_of_mem_singleton {K V : Type} [DecidableEq K] {ks : AddressKeys K} {k : K} {x : V}
    {e : K × V} (he : e ∈ ks.entries (AList.singleton k x)) : e = (k, x) := by
  have hlookup := mem_sortedEntries he
  rw [← AList.insert_empty, lookup_insert_eq] at hlookup
  split at hlookup
  · next hk => exact Prod.ext hk (Option.some.inj hlookup).symm
  · cases hlookup

/-- The indexes with one unspent output of 5 units, to the hash 7 under a type. -/
def oneOutput (a : IndexAddress) : IndexContent where
  db := { addressIndex := AList.singleton ⟨a.type, a.hashBytes, 1, 0, 9, 0, false⟩ 5,
          addressUnspentIndex := AList.singleton ⟨a.type, a.hashBytes, 9, 0⟩ ⟨5, [], 1⟩ }
  deltas_fit e he := by
    have htype := a.type_valid
    rw [eq_of_mem_singleton he]
    exact ⟨show a.type < 256 by omega, show (0 : ℤ) ≤ 1 by decide, show (1 : ℤ) < 2 ^ 31 by decide⟩
  unspent_fit e he := by
    have htype := a.type_valid
    rw [eq_of_mem_singleton he]
    show a.type < 256
    omega

/-- The address of a key. -/
def keyAddress : IndexAddress := ⟨7, 1, .inl rfl⟩

/-- The address of a script with the hash of the key. -/
def scriptAddress : IndexAddress := ⟨7, 2, .inr rfl⟩

/-- **An address listed twice** counts twice, and an address without entries has those of the script
with its hash. -/
theorem balance_repeated :
    getAddressBalance true (oneOutput keyAddress).db [keyAddress, keyAddress] = .ok ⟨10, 10⟩ ∧
    getAddressBalance true (oneOutput scriptAddress).db [keyAddress] = .ok ⟨5, 5⟩ ∧
    ¬ (oneOutput keyAddress).Answers [keyAddress, keyAddress] ∧
    ¬ (oneOutput scriptAddress).Answers [keyAddress] := by
  have htwice : getAddressBalance true (oneOutput keyAddress).db [keyAddress, keyAddress] =
      .ok ⟨10, 10⟩ := by decide +kernel
  have hother : getAddressBalance true (oneOutput scriptAddress).db [keyAddress] = .ok ⟨5, 5⟩ := by
    decide +kernel
  refine ⟨htwice, hother, fun h => ?_, fun h => ?_⟩
  · have hbalance := h.balance
    rw [htwice] at hbalance
    exact absurd hbalance (by decide +kernel)
  · have hbalance := h.balance
    rw [hother] at hbalance
    exact absurd hbalance (by decide +kernel)

end FairCoin
