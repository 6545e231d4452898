import Mathlib

/-!
# Transactions and blocks

The data model of `src/primitives/transaction.h`, `src/primitives/block.h` and
`src/amount.h`: outpoints, inputs, outputs, transactions and blocks, with the
member functions the validation code calls.

* `CTxOut.isNull`, `CTxOut.isEmpty` — a *null* output (value `-1`) marks a spent
  slot of a coins entry, an *empty* one (value `0`, empty script) marks the first
  output of a coinstake.
* `CTransaction.isCoinBase`, `CTransaction.isCoinStake` — the two shapes of
  transaction the reward rules treat specially.
* `CTransaction.getValueOut` — the checked 64-bit sum of the outputs; it throws
  on a negative output and on a wrapped sum.
* `serializeSize` — the number of bytes of the network encoding, which the size
  limits of `CheckTransaction` and `CheckBlock` read.

Hashes are 256-bit words.  The `hash` of a transaction is a field, as in the
source, where it caches the double SHA-256 of the serialised transaction; the
hash function itself is not modelled, and the results that need it ask only that
the transactions of a block do not collide.
-/

namespace FairCoin

/-! ## Words, amounts and scripts -/

/-- The source's `uint256`. -/
abbrev UInt256 := BitVec 256

/-- The key order of `uint256`. -/
def uint256Le (a b : UInt256) : Bool := decide (a ≤ b)

/-- The source's `uint160`. -/
abbrev UInt160 := BitVec 160

/-- The value an `int64_t` holds after an arithmetic operation whose exact result
is `x`.  Amounts (`CAmount`) are integers, and every sum of them that can leave
the 64-bit range is written with it. -/
def wrap64 (x : ℤ) : ℤ := x.bmod (2 ^ 64)

/-- The value an `int` holds after an `int64_t` has been assigned to it. -/
def wrap32 (x : ℤ) : ℤ := x.bmod (2 ^ 32)

/-- `COIN`. -/
def coin : ℤ := 100000000

/-- `CENT`. -/
def cent : ℤ := 1000000

/-- A script is its bytes. -/
abbrev CScript := List UInt8

/-- `CScript::IsUnspendable`: the script starts with `OP_RETURN`. -/
def CScript.isUnspendable (s : CScript) : Bool := s.head? == some 0x6a

/-! ## Inputs and outputs -/

/-- `COutPoint`: a transaction hash and an index into its outputs. -/
structure COutPoint where
  hash : UInt256
  n : ℕ
  deriving DecidableEq, Repr

/-- `COutPoint::IsNull`. -/
def COutPoint.isNull (o : COutPoint) : Bool := o.hash == 0 && o.n == 4294967295

/-- `CTxIn`, without the memory-only `prevPubKey`. -/
structure CTxIn where
  prevout : COutPoint
  scriptSig : CScript := []
  nSequence : ℕ := 4294967295
  deriving DecidableEq, Repr

/-- `CTxOut`.  `nRounds` is memory only but is compared by `operator==`. -/
structure CTxOut where
  nValue : ℤ
  scriptPubKey : CScript
  nRounds : ℤ := -10
  deriving DecidableEq, Repr

/-- The default constructor of `CTxOut`, and the result of `SetNull`. -/
def CTxOut.null : CTxOut := { nValue := -1, scriptPubKey := [], nRounds := -10 }

/-- `CTxOut::IsNull`. -/
def CTxOut.isNull (o : CTxOut) : Bool := o.nValue == -1

/-- `CTxOut::IsEmpty`. -/
def CTxOut.isEmpty (o : CTxOut) : Bool := o.nValue == 0 && o.scriptPubKey.isEmpty

@[simp] theorem CTxOut.isNull_null : CTxOut.null.isNull = true := rfl

theorem CTxOut.isNull_iff {o : CTxOut} : o.isNull = true ↔ o.nValue = -1 := by
  simp [CTxOut.isNull]

theorem CTxOut.isNull_eq_false_of_nonneg {o : CTxOut} (h : 0 ≤ o.nValue) : o.isNull = false := by
  simp only [CTxOut.isNull, beq_eq_false_iff_ne, ne_eq]
  omega

/-! ## Transactions -/

/-- `CTransaction`. -/
structure CTransaction where
  hash : UInt256
  nVersion : ℤ := 1
  vin : List CTxIn
  vout : List CTxOut
  nLockTime : ℕ := 0
  deriving DecidableEq, Repr

namespace CTransaction

/-- `CTransaction::IsCoinBase`. -/
def isCoinBase (tx : CTransaction) : Bool :=
  match tx.vin with
  | [i] => i.prevout.isNull
  | _ => false

/-- `CTransaction::IsCoinStake`: marked with the first output empty. -/
def isCoinStake (tx : CTransaction) : Bool :=
  match tx.vin, tx.vout with
  | i :: _, o :: _ :: _ => !i.prevout.isNull && o.isEmpty
  | _, _ => false

/-- The loop of `CTransaction::GetValueOut`; `none` when it throws. -/
def getValueOutLoop (nValueOut : ℤ) : List CTxOut → Option ℤ
  | [] => some nValueOut
  | o :: os =>
      if o.nValue < 0 then none
      else if wrap64 (nValueOut + o.nValue) < nValueOut then none
      else getValueOutLoop (wrap64 (nValueOut + o.nValue)) os

/-- `CTransaction::GetValueOut`. -/
def getValueOut (tx : CTransaction) : Option ℤ := getValueOutLoop 0 tx.vout

end CTransaction

/-! ## Blocks -/

/-- `CBlockHeader`. -/
structure CBlockHeader where
  nVersion : ℤ := 3
  hashPrevBlock : UInt256
  hashMerkleRoot : UInt256 := 0
  nTime : ℕ := 0
  nBits : ℕ := 0
  nNonce : ℕ := 0
  deriving DecidableEq, Repr

/-- `CBlock`: a header, the transactions and the block signature. -/
structure CBlock extends CBlockHeader where
  vtx : List CTransaction
  vchBlockSig : List UInt8 := []
  deriving DecidableEq, Repr

/-- `CBlock::IsProofOfStake`: the second transaction is a coinstake. -/
def CBlock.isProofOfStake (b : CBlock) : Bool :=
  match b.vtx with
  | _ :: tx :: _ => tx.isCoinStake
  | _ => false

/-- `CBlock::IsProofOfWork`. -/
def CBlock.isProofOfWork (b : CBlock) : Bool := !b.isProofOfStake

/-! ## Serialised sizes -/

/-- `GetSizeOfCompactSize`. -/
def getSizeOfCompactSize (nSize : ℕ) : ℕ :=
  if nSize < 253 then 1
  else if nSize ≤ 65535 then 3
  else if nSize ≤ 4294967295 then 5
  else 9

/-- The size of a byte vector on the wire. -/
def bytesSize (l : List UInt8) : ℕ := getSizeOfCompactSize l.length + l.length

/-- `GetSerializeSize` of an input. -/
def CTxIn.serializeSize (i : CTxIn) : ℕ := 36 + bytesSize i.scriptSig + 4

/-- `GetSerializeSize` of an output. -/
def CTxOut.serializeSize (o : CTxOut) : ℕ := 8 + bytesSize o.scriptPubKey

/-- `GetSerializeSize` of a transaction. -/
def CTransaction.serializeSize (tx : CTransaction) : ℕ :=
  4 + getSizeOfCompactSize tx.vin.length + (tx.vin.map CTxIn.serializeSize).sum
    + getSizeOfCompactSize tx.vout.length + (tx.vout.map CTxOut.serializeSize).sum + 4

/-- `GetSerializeSize` of a block; the signature is part of it only when the block
is proof-of-stake. -/
def CBlock.serializeSize (b : CBlock) : ℕ :=
  80 + getSizeOfCompactSize b.vtx.length + (b.vtx.map CTransaction.serializeSize).sum
    + (if b.isProofOfStake then bytesSize b.vchBlockSig else 0)

end FairCoin
