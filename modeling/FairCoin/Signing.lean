import FairCoin.Solver

/-!
# Ownership and signing

`IsMine` of `src/wallet_ismine.cpp` and `SignSignature` of `src/script/sign.cpp`, over a keystore as
`src/keystore.cpp` and `src/crypter.cpp` keep it.

* `CryptoEnv` — keys, signatures and hash functions.
* `CKeyStore` — keys under the hash of their public key, redeem scripts under their own hash.
* `CKeyStore.isMine` — the recursion through stored redeem scripts, with fuel.
* `CKeyStore.signSignature` — the signatures, the redeem script, and the test of the solution.
-/

namespace FairCoin

open Codec

/-! ## Keys and hashes -/

/-- What is asked of `CKey`, `CPubKey` and the hash functions. -/
structure CryptoEnv where
  Key : Type
  /-- `CKey::GetPubKey`, as bytes. -/
  pubKey : Key → Valtype
  /-- `CKey::Sign`. -/
  sign : Key → UInt256 → Valtype
  /-- `CPubKey::Verify`. -/
  verify : Valtype → UInt256 → Valtype → Bool
  ripemd160 : Valtype → Valtype
  sha1 : Valtype → Valtype
  sha256 : Valtype → Valtype
  /-- `Hash`, of the bytes that are signed. -/
  hashBytes : Bytes → UInt256
  /-- `CMutableTransaction::GetHash`. -/
  getHash : CMutableTransaction → UInt256

namespace CryptoEnv

variable (C : CryptoEnv)

/-- `Hash160`. -/
def hash160 (vch : Valtype) : Valtype := C.ripemd160 (C.sha256 vch)

/-- `CPubKey(vch).GetID()`: a public key that is not valid is empty. -/
def getID (vch : Valtype) : Valtype := C.hash160 (if isValidPubKey vch then vch else [])

/-- `CheckSig` of `MutableTransactionSignatureChecker(&txTo, nIn)`. -/
def checkSig (txTo : CMutableTransaction) (nIn : ℕ) (vchSigIn vchPubKey : Valtype)
    (scriptCode : CScript) : Bool :=
  if !isValidPubKey vchPubKey then false
  else
    match vchSigIn.getLast? with
    | none => false
    | some nHashType =>
        C.verify vchPubKey (signatureHash C.hashBytes scriptCode (txTo.toTransaction (C.getHash txTo))
          nIn (BitVec.ofNat 32 nHashType.toNat)) vchSigIn.dropLast

/-- `MutableTransactionSignatureChecker(&txTo, nIn)`. -/
def checker (txTo : CMutableTransaction) (nIn : ℕ) : ScriptEnv where
  checkSig := C.checkSig txTo nIn
  ripemd160 := C.ripemd160
  sha1 := C.sha1
  sha256 := C.sha256

/-- What signing relies on: public keys are compressed or uncompressed, and a signature is validly
encoded, fits its key and is not the hash of its key. -/
structure Sound : Prop where
  pubKey_encoding : ∀ k, isCompressedOrUncompressedPubKey (C.pubKey k) = true
  sign_encoding : ∀ k hash, isValidSignatureEncoding (C.sign k hash ++ [1]) = true
  verify_sign : ∀ k hash, C.verify (C.pubKey k) hash (C.sign k hash) = true
  sign_ne_hash160 : ∀ k hash, C.sign k hash ++ [1] ≠ C.hash160 (C.pubKey k)

end CryptoEnv

/-- `STANDARD_SCRIPT_VERIFY_FLAGS`. -/
def standardScriptVerifyFlags : VerifyFlags where
  p2sh := true
  derSig := true
  strictEnc := true
  minimalData := true
  nullDummy := true
  discourageUpgradableNops := true

/-! ## The keystore -/

/-- A keystore; `CKeyID` and `CScriptID` are the twenty bytes they hold.  A locked one still has its
keys, but does not hand them out. -/
structure CKeyStore (C : CryptoEnv) where
  mapKeys : Valtype → Option C.Key
  mapScripts : Valtype → Option CScript
  setWatchOnly : CScript → Bool
  locked : Bool
  /-- `AddKey`. -/
  mapKeys_id : ∀ id k, mapKeys id = some k → id = C.hash160 (C.pubKey k)
  /-- `AddCScript`. -/
  mapScripts_id : ∀ id s, mapScripts id = some s → id = C.hash160 s ∧ s.length ≤ 520

/-- `isminetype`. -/
inductive IsMineType
  | no
  | watchOnly
  | spendable
  deriving DecidableEq, Repr

namespace CKeyStore

variable {C : CryptoEnv} (keystore : CKeyStore C)

/-- `HaveKey`. -/
def haveKey (id : Valtype) : Bool := (keystore.mapKeys id).isSome

/-- `GetKey`. -/
def getKey (id : Valtype) : Option C.Key :=
  if keystore.locked then none else keystore.mapKeys id

/-- `GetPubKey`; a store that is encrypted keeps the public keys beside the secrets. -/
def getPubKey (id : Valtype) : Option Valtype := (keystore.mapKeys id).map C.pubKey

/-- `GetCScript`. -/
def getCScript (id : Valtype) : Option CScript := keystore.mapScripts id

/-! ## Ownership -/

/-- `HaveKeys`. -/
def haveKeys (pubkeys : List Valtype) : ℕ :=
  pubkeys.countP fun pubkey => keystore.haveKey (C.getID pubkey)

/-- The end of `IsMine`. -/
def watchOnlyOrNo (scriptPubKey : CScript) : IsMineType :=
  if keystore.setWatchOnly scriptPubKey then .watchOnly else .no

/-- `IsMine`; `none` while it is still running. -/
def isMine : ℕ → CScript → Option IsMineType
  | 0, _ => none
  | n + 1, scriptPubKey =>
      match solver scriptPubKey with
      | none => some (keystore.watchOnlyOrNo scriptPubKey)
      | some (whichType, vSolutions) =>
          match whichType with
          | .nonstandard => some (keystore.watchOnlyOrNo scriptPubKey)
          | .nullData => some (keystore.watchOnlyOrNo scriptPubKey)
          | .pubkey =>
              if keystore.haveKey (C.getID (vSolutions.headD [])) then some .spendable
              else some (keystore.watchOnlyOrNo scriptPubKey)
          | .pubkeyhash =>
              if keystore.haveKey (vSolutions.headD []) then some .spendable
              else some (keystore.watchOnlyOrNo scriptPubKey)
          | .scripthash =>
              match keystore.getCScript (vSolutions.headD []) with
              | none => some (keystore.watchOnlyOrNo scriptPubKey)
              | some subscript =>
                  match isMine n subscript with
                  | none => none
                  | some .spendable => some .spendable
                  | some _ => some (keystore.watchOnlyOrNo scriptPubKey)
          | .multisig =>
              let keys := (vSolutions.drop 1).dropLast
              if keystore.haveKeys keys = keys.length then some .spendable
              else some (keystore.watchOnlyOrNo scriptPubKey)

/-! ## Signing -/

/-- `Sign1`: the script with the signature. -/
def sign1 (address : Valtype) (hash : UInt256) (nHashType : BitVec 32) (scriptSig : CScript) :
    Option CScript :=
  match keystore.getKey address with
  | none => none
  | some key =>
      some (scriptSig ++ CScript.pushData (C.sign key hash ++ [UInt8.ofNat nHashType.toNat]))

/-- The loop of `SignN`, with `nSigned`. -/
def signLoop (hash : UInt256) (nHashType : BitVec 32) (nRequired : ℕ) :
    List Valtype → ℕ → CScript → ℕ × CScript
  | [], nSigned, scriptSig => (nSigned, scriptSig)
  | pubkey :: pubkeys, nSigned, scriptSig =>
      if nSigned < nRequired then
        match keystore.sign1 (C.getID pubkey) hash nHashType scriptSig with
        | none => signLoop hash nHashType nRequired pubkeys nSigned scriptSig
        | some scriptSig => signLoop hash nHashType nRequired pubkeys (nSigned + 1) scriptSig
      else (nSigned, scriptSig)

/-- `SignN`. -/
def signN (multisigdata : List Valtype) (hash : UInt256) (nHashType : BitVec 32)
    (scriptSig : CScript) : Bool × CScript :=
  let nRequired := ((multisigdata.headD []).headD 0).toNat
  let r := keystore.signLoop hash nHashType nRequired (multisigdata.drop 1).dropLast 0 scriptSig
  (decide (r.1 = nRequired), r.2)

/-- `Solver` of `sign.cpp`: whether it succeeds, the script it returns and the type. -/
def solverSign (scriptPubKey : CScript) (hash : UInt256) (nHashType : BitVec 32) :
    Bool × CScript × TxnOutType :=
  match solver scriptPubKey with
  | none => (false, [], .nonstandard)
  | some (whichType, vSolutions) =>
      match whichType with
      | .nonstandard => (false, [], whichType)
      | .nullData => (false, [], whichType)
      | .pubkey =>
          match keystore.sign1 (C.getID (vSolutions.headD [])) hash nHashType [] with
          | none => (false, [], whichType)
          | some scriptSig => (true, scriptSig, whichType)
      | .pubkeyhash =>
          match keystore.sign1 (vSolutions.headD []) hash nHashType [] with
          | none => (false, [], whichType)
          | some scriptSig =>
              let vch := (keystore.getPubKey (vSolutions.headD [])).getD []
              (true, scriptSig ++ CScript.pushData vch, whichType)
      | .scripthash =>
          match keystore.getCScript (vSolutions.headD []) with
          | none => (false, [], whichType)
          | some subscript => (true, subscript, whichType)
      | .multisig =>
          let r := keystore.signN vSolutions hash nHashType [0]
          (r.1, r.2, whichType)

end CKeyStore

/-- `txTo.vin[nIn].scriptSig = scriptSig`. -/
def CMutableTransaction.setScriptSig (txTo : CMutableTransaction) (nIn : ℕ) (scriptSig : CScript) :
    CMutableTransaction :=
  { txTo with vin := txTo.vin.modify nIn fun txin => { txin with scriptSig := scriptSig } }

namespace CryptoEnv

variable (C : CryptoEnv)

/-- `SignatureHash` of a transaction that is being made. -/
def sigHash (scriptCode : CScript) (txTo : CMutableTransaction) (nIn : ℕ) (nHashType : BitVec 32) :
    UInt256 :=
  signatureHash C.hashBytes scriptCode (txTo.toTransaction (C.getHash txTo)) nIn nHashType

/-- `VerifyScript` with the standard flags, of this script for an input. -/
def verifies (scriptSig fromPubKey : CScript) (txTo : CMutableTransaction) (nIn : ℕ) : Bool :=
  match (verifyScript (C.checker txTo nIn) standardScriptVerifyFlags scriptSig fromPubKey).2 with
  | .ok () => true
  | .error _ => false

end CryptoEnv

/-- The end of `SignSignature`: the script goes into the input, and the solution is tested. -/
def testSolution (C : CryptoEnv) (fromPubKey : CScript) (txTo : CMutableTransaction) (nIn : ℕ)
    (scriptSig : CScript) : Bool × CMutableTransaction :=
  let txTo := txTo.setScriptSig nIn scriptSig
  (C.verifies scriptSig fromPubKey txTo nIn, txTo)

/-- `SignSignature`, for an input that the transaction has. -/
def CKeyStore.signSignature {C : CryptoEnv} (keystore : CKeyStore C) (fromPubKey : CScript)
    (txTo : CMutableTransaction) (nIn : ℕ) (nHashType : BitVec 32) : Bool × CMutableTransaction :=
  let hash := C.sigHash fromPubKey txTo nIn nHashType
  match keystore.solverSign fromPubKey hash nHashType with
  | (false, scriptSig, _) => (false, txTo.setScriptSig nIn scriptSig)
  | (true, subscript, whichType) =>
      let txTo := txTo.setScriptSig nIn subscript
      if whichType = .scripthash then
        let hash2 := C.sigHash subscript txTo nIn nHashType
        let r := keystore.solverSign subscript hash2 nHashType
        let fSolved := r.1 && r.2.2 != .scripthash
        let scriptSig := r.2.1 ++ CScript.pushData subscript
        if !fSolved then (false, txTo.setScriptSig nIn scriptSig)
        else testSolution C fromPubKey txTo nIn scriptSig
      else testSolution C fromPubKey txTo nIn subscript

end FairCoin
