import FairCoin.Params
import FairCoin.Lib.Store

/-!
# The block index and its databases

`CBlockIndex` of `src/chain.h`, the records of the address, spent and timestamp
indexes (`src/addressindex.h`, `src/spentindex.h`), and `CBlockTreeDB` of
`src/txdb.cpp`, the database all of them are written to.

* `getAddressIndexKey` — the script forms the address index recognises, decoded
  opcode by opcode as `Solver` does.
* `CBlockTreeDB.updateAddressUnspentIndex` and the other batch writes — one batch each,
  in the order of the vector; a null value erases its key.

Block index entries refer to each other by hash: the pointer `pprev` is the hash of the
entry it points to.
-/

namespace FairCoin

open Store

/-! ## Block index entries -/

/-- `nStatus`: the validity level (`BLOCK_VALID_MASK`) and the flag bits. -/
structure BlockStatus where
  valid : ℕ := 0
  haveData : Bool := false
  haveUndo : Bool := false
  failedValid : Bool := false
  failedChild : Bool := false
  deriving DecidableEq, Repr

/-- `BLOCK_VALID_TREE`. -/
def blockValidTree : ℕ := 2

/-- `BLOCK_VALID_TRANSACTIONS`. -/
def blockValidTransactions : ℕ := 3

/-- `BLOCK_VALID_SCRIPTS`. -/
def blockValidScripts : ℕ := 5

/-- `nStatus & BLOCK_FAILED_MASK`. -/
def BlockStatus.failed (s : BlockStatus) : Bool := s.failedValid || s.failedChild

/-- `CDiskBlockPos`; the null position is `none`. -/
structure CDiskBlockPos where
  nFile : ℤ
  nPos : ℕ
  deriving DecidableEq, Repr

/-- `CDiskTxPos`. -/
structure CDiskTxPos where
  block : Option CDiskBlockPos
  nTxOffset : ℕ
  deriving DecidableEq, Repr

/-- `CBlockIndex`. -/
structure CBlockIndex where
  phashBlock : Option UInt256 := none
  pprev : Option UInt256 := none
  pskip : Option UInt256 := none
  nHeight : ℤ := 0
  nFile : ℤ := 0
  nDataPos : ℕ := 0
  nUndoPos : ℕ := 0
  nChainWork : ℕ := 0
  nTx : ℕ := 0
  nChainTx : ℕ := 0
  nStatus : BlockStatus := {}
  fProofOfStake : Bool := false
  fStakeEntropy : Bool := false
  fStakeModifier : Bool := false
  nStakeModifier : BitVec 64 := 0
  prevoutStake : COutPoint := { hash := 0, n := 4294967295 }
  nStakeTime : ℕ := 0
  nMint : ℤ := 0
  nMoneySupply : ℤ := 0
  nVersion : ℤ := 0
  hashMerkleRoot : UInt256 := 0
  nTime : ℕ := 0
  nBits : ℕ := 0
  nNonce : ℕ := 0
  nSequenceId : ℕ := 0
  deriving DecidableEq, Repr

namespace CBlockIndex

/-- `GetBlockHash`; the source dereferences `phashBlock`. -/
def getBlockHash (p : CBlockIndex) : UInt256 := p.phashBlock.getD 0

/-- `GetBlockPos`. -/
def getBlockPos (p : CBlockIndex) : Option CDiskBlockPos :=
  if p.nStatus.haveData then some ⟨p.nFile, p.nDataPos⟩ else none

/-- `GetUndoPos`. -/
def getUndoPos (p : CBlockIndex) : Option CDiskBlockPos :=
  if p.nStatus.haveUndo then some ⟨p.nFile, p.nUndoPos⟩ else none

/-- `IsValid`. -/
def isValid (p : CBlockIndex) (nUpTo : ℕ) : Bool :=
  if p.nStatus.failed then false else decide (nUpTo ≤ p.nStatus.valid)

/-- `RaiseValidity`. -/
def raiseValidity (p : CBlockIndex) (nUpTo : ℕ) : CBlockIndex :=
  if p.nStatus.failed then p
  else if p.nStatus.valid < nUpTo then { p with nStatus := { p.nStatus with valid := nUpTo } }
  else p

end CBlockIndex

/-- `CDiskBlockIndex`: the part of an entry that is written to disk. -/
structure CDiskBlockIndex where
  hashPrev : UInt256
  nHeight : ℤ
  nStatus : BlockStatus
  nTx : ℕ
  pos : Option CDiskBlockPos
  undoPos : Option CDiskBlockPos
  nMint : ℤ
  nMoneySupply : ℤ
  fProofOfStake : Bool
  fStakeEntropy : Bool
  fStakeModifier : Bool
  nStakeModifier : BitVec 64
  stake : Option (COutPoint × ℕ)
  nVersion : ℤ
  hashMerkleRoot : UInt256
  nTime : ℕ
  nBits : ℕ
  nNonce : ℕ
  deriving DecidableEq, Repr

/-- The record `CDiskBlockIndex(pindex)` serialises to. -/
def CBlockIndex.toDisk (p : CBlockIndex) : CDiskBlockIndex where
  hashPrev := p.pprev.getD 0
  nHeight := p.nHeight
  nStatus := p.nStatus
  nTx := p.nTx
  pos := p.getBlockPos
  undoPos := p.getUndoPos
  nMint := p.nMint
  nMoneySupply := p.nMoneySupply
  fProofOfStake := p.fProofOfStake
  fStakeEntropy := p.fStakeEntropy
  fStakeModifier := p.fStakeModifier
  nStakeModifier := p.nStakeModifier
  stake := if p.fProofOfStake then some (p.prevoutStake, p.nStakeTime) else none
  nVersion := p.nVersion
  hashMerkleRoot := p.hashMerkleRoot
  nTime := p.nTime
  nBits := p.nBits
  nNonce := p.nNonce

/-! ## Scripts the address index recognises -/

namespace CScript

/-- `GetOp`: the opcode, the bytes it pushes and the rest of the script. -/
def getOp : CScript → Option (UInt8 × List UInt8 × CScript)
  | [] => none
  | opcode :: pc =>
      let push (nSize : ℕ) (pc : CScript) : Option (UInt8 × List UInt8 × CScript) :=
        if pc.length < nSize then none else some (opcode, pc.take nSize, pc.drop nSize)
      if opcode < 0x4c then push opcode.toNat pc
      else if opcode = 0x4c then
        match pc with
        | a :: pc => push a.toNat pc
        | _ => none
      else if opcode = 0x4d then
        match pc with
        | a :: b :: pc => push (a.toNat + 256 * b.toNat) pc
        | _ => none
      else if opcode = 0x4e then
        match pc with
        | a :: b :: c :: d :: pc =>
            push (a.toNat + 256 * b.toNat + 65536 * c.toNat + 16777216 * d.toNat) pc
        | _ => none
      else some (opcode, [], pc)

/-- `IsPayToScriptHash`. -/
def isPayToScriptHash (s : CScript) : Bool :=
  s.length == 23 && s[0]? == some 0xa9 && s[1]? == some 0x14 && s[22]? == some 0x87

/-- The template `OP_PUBKEY OP_CHECKSIG`: the public key. -/
def matchPubKey (s : CScript) : Option (List UInt8) :=
  match s.getOp with
  | some (_, vch, s₁) =>
      if vch.length < 33 || 65 < vch.length then none
      else if s₁ = [0xac] then some vch else none
  | none => none

/-- The template `OP_DUP OP_HASH160 OP_PUBKEYHASH OP_EQUALVERIFY OP_CHECKSIG`: the hash. -/
def matchPubKeyHash (s : CScript) : Option (List UInt8) :=
  match s with
  | 0x76 :: 0xa9 :: s₁ =>
      match getOp s₁ with
      | some (_, vch, s₂) =>
          if vch.length ≠ 20 then none
          else if s₂ = [0x88, 0xac] then some vch else none
      | none => none
  | _ => none

end CScript

/-- `CPubKey::IsValid`, after `CPubKey(vch)`: the first byte fixes the length. -/
def isValidPubKey (vch : List UInt8) : Bool :=
  match vch with
  | [] => false
  | h :: _ =>
      if h = 2 ∨ h = 3 then vch.length == 33
      else if h = 4 ∨ h = 6 ∨ h = 7 then vch.length == 65
      else false

/-- The hash word with these little-endian bytes. -/
def bytesToUInt160 (l : List UInt8) : UInt160 :=
  BitVec.ofNat 160 (l.foldr (fun b acc => b.toNat + 256 * acc) 0)

/-- `GetAddressIndexKey`: the address type and hash of a script, when it is one of the
forms that are indexed.  `hash160` is the hash of a public key. -/
def getAddressIndexKey (hash160 : List UInt8 → UInt160) (script : CScript) : Option (ℕ × UInt160) :=
  if script.isPayToScriptHash then some (2, bytesToUInt160 ((script.drop 2).take 20))
  else
    match script.matchPubKey with
    | some vch => if isValidPubKey vch then some (1, hash160 vch) else none
    | none => script.matchPubKeyHash.map fun vch => (1, bytesToUInt160 vch)

/-- Indexed outputs are spendable. -/
theorem getAddressIndexKey_isUnspendable {hash160 : List UInt8 → UInt160} {script : CScript}
    {a : ℕ × UInt160} (h : getAddressIndexKey hash160 script = some a) :
    script.isUnspendable = false := by
  unfold CScript.isUnspendable
  rw [beq_eq_false_iff_ne]
  intro hhead
  obtain ⟨rest, rfl⟩ : ∃ rest, script = 0x6a :: rest := by
    cases script with
    | nil => exact absurd hhead (by simp)
    | cons b bs => exact ⟨bs, by simpa using hhead⟩
  have h₁ : CScript.isPayToScriptHash (0x6a :: rest) = false := by
    simp [CScript.isPayToScriptHash]
  have h₂ : CScript.matchPubKey (0x6a :: rest) = none := by
    simp [CScript.matchPubKey, CScript.getOp]
  have h₃ : CScript.matchPubKeyHash (0x6a :: rest) = none := by
    simp [CScript.matchPubKeyHash]
  simp [getAddressIndexKey, h₁, h₂, h₃] at h

/-! ## Index records -/

/-- `CAddressIndexKey`. -/
structure CAddressIndexKey where
  type : ℕ
  hashBytes : UInt160
  blockHeight : ℤ
  txindex : ℕ
  txhash : UInt256
  index : ℕ
  spending : Bool
  deriving DecidableEq, Repr

/-- `CAddressUnspentKey`. -/
structure CAddressUnspentKey where
  type : ℕ
  hashBytes : UInt160
  txhash : UInt256
  index : ℕ
  deriving DecidableEq, Repr

/-- `CAddressUnspentValue`. -/
structure CAddressUnspentValue where
  satoshis : ℤ
  script : CScript
  blockHeight : ℤ
  deriving DecidableEq, Repr

/-- The default constructor of `CAddressUnspentValue`. -/
def CAddressUnspentValue.null : CAddressUnspentValue := ⟨-1, [], 0⟩

/-- `CAddressUnspentValue::IsNull`. -/
def CAddressUnspentValue.isNull (v : CAddressUnspentValue) : Bool := v.satoshis == -1

/-- `CSpentIndexKey`. -/
structure CSpentIndexKey where
  txid : UInt256
  outputIndex : ℕ
  deriving DecidableEq, Repr

/-- `CSpentIndexValue`. -/
structure CSpentIndexValue where
  txid : UInt256
  inputIndex : ℕ
  blockHeight : ℤ
  satoshis : ℤ
  addressType : ℕ
  addressHash : UInt160
  deriving DecidableEq, Repr

/-- The default constructor of `CSpentIndexValue`. -/
def CSpentIndexValue.null : CSpentIndexValue := ⟨0, 0, 0, 0, 0, 0⟩

/-- `CSpentIndexValue::IsNull`. -/
def CSpentIndexValue.isNull (v : CSpentIndexValue) : Bool := v.txid == 0

/-- `CTimestampIndexKey`. -/
structure CTimestampIndexKey where
  timestamp : ℕ
  blockHash : UInt256
  deriving DecidableEq, Repr

/-! ## The block tree database -/

/-- `CBlockTreeDB`. -/
structure CBlockTreeDB where
  blockIndex : Map UInt256 CDiskBlockIndex := ∅
  txIndex : Map UInt256 CDiskTxPos := ∅
  addressIndex : Map CAddressIndexKey ℤ := ∅
  addressUnspentIndex : Map CAddressUnspentKey CAddressUnspentValue := ∅
  spentIndex : Map CSpentIndexKey CSpentIndexValue := ∅
  timestampIndex : Map CTimestampIndexKey Unit := ∅

namespace CBlockTreeDB

/-- A batch in which a null value erases its key. -/
def orErase {K V : Type} (isNull : V → Bool) (vect : List (K × V)) : List (K × Option V) :=
  vect.map fun p => (p.1, if isNull p.2 then none else some p.2)

/-- A batch of plain writes. -/
def puts {K V : Type} (vect : List (K × V)) : List (K × Option V) :=
  vect.map fun p => (p.1, some p.2)

/-- A batch of erasures. -/
def erasures {K V : Type} (vect : List (K × V)) : List (K × Option V) :=
  vect.map fun p => (p.1, none)

variable (db : CBlockTreeDB)

/-- `WriteBlockIndex`; the key is the hash of the record's header. -/
def writeBlockIndex (hash : UInt256) (p : CBlockIndex) : CBlockTreeDB :=
  { db with blockIndex := db.blockIndex.insert hash p.toDisk }

/-- `WriteTxIndex`. -/
def writeTxIndex (vect : List (UInt256 × CDiskTxPos)) : CBlockTreeDB :=
  { db with txIndex := applyBatch db.txIndex (puts vect) }

/-- `WriteAddressIndex`. -/
def writeAddressIndex (vect : List (CAddressIndexKey × ℤ)) : CBlockTreeDB :=
  { db with addressIndex := applyBatch db.addressIndex (puts vect) }

/-- `EraseAddressIndex`. -/
def eraseAddressIndex (vect : List (CAddressIndexKey × ℤ)) : CBlockTreeDB :=
  { db with addressIndex := applyBatch db.addressIndex (erasures vect) }

/-- `UpdateAddressUnspentIndex`. -/
def updateAddressUnspentIndex (vect : List (CAddressUnspentKey × CAddressUnspentValue)) :
    CBlockTreeDB :=
  { db with addressUnspentIndex :=
      applyBatch db.addressUnspentIndex (orErase CAddressUnspentValue.isNull vect) }

/-- `UpdateSpentIndex`. -/
def updateSpentIndex (vect : List (CSpentIndexKey × CSpentIndexValue)) : CBlockTreeDB :=
  { db with spentIndex := applyBatch db.spentIndex (orErase CSpentIndexValue.isNull vect) }

/-- `WriteTimestampIndex`. -/
def writeTimestampIndex (key : CTimestampIndexKey) : CBlockTreeDB :=
  { db with timestampIndex := db.timestampIndex.insert key () }

end CBlockTreeDB

end FairCoin
