import FairCoin.StandardScripts

/-!
# The encrypted keystore

`CCryptoKeyStore` of `src/crypter.cpp`, over `CBasicKeyStore` of `src/keystore.cpp`: keys in the
plain, or secrets encrypted with a master key that is there while the store is unlocked.

* `KeyCrypto` — public keys, their hashes, and AES-256-CBC.
* `CCryptoKeyStore` — the two maps, the master key and the two flags, with every operation.
* `Vault` — what the store is for: keys, and whether they are handed out.
* `crypted_refines` — **after `EncryptKeys` the store is a vault**, over every run.
-/

namespace FairCoin

open Store

/-! ## Secrets and public keys -/

/-- The key order of `uint160`. -/
def uint160Le (a b : UInt160) : Bool := decide (a ≤ b)

instance : DecidableEq CPubKey := fun a b =>
  decidable_of_iff (a.vch = b.vch) ⟨fun h => by cases a; cases b; cases h; rfl, fun h => h ▸ rfl⟩

/-- `CPubKey::IsCompressed`. -/
def CPubKey.isCompressed (pubkey : CPubKey) : Bool := pubkey.vch.length == 33

/-- The last loop of `CompareBigEndian`, over strings of the same length. -/
def compareBytes : List UInt8 → List UInt8 → ℤ
  | c1 :: s1, c2 :: s2 => if c2 < c1 then 1 else if c1 < c2 then -1 else compareBytes s1 s2
  | _, _ => 0

/-- `CompareBigEndian`: the bytes by which a string is longer come first. -/
def compareBigEndian (c1 c2 : List UInt8) : ℤ :=
  if (c1.take (c1.length - c2.length)).any (· != 0) then 1
  else if (c2.take (c2.length - c1.length)).any (· != 0) then -1
  else compareBytes (c1.drop (c1.length - c2.length)) (c2.drop (c2.length - c1.length))

/-- `vchMaxModOrder`: the order of the generator minus one. -/
def vchMaxModOrder : List UInt8 :=
  [0xFF, 0xFF, 0xFF, 0xFF, 0xFF, 0xFF, 0xFF, 0xFF, 0xFF, 0xFF, 0xFF, 0xFF, 0xFF, 0xFF, 0xFF, 0xFE,
   0xBA, 0xAE, 0xDC, 0xE6, 0xAF, 0x48, 0xA0, 0x3B, 0xBF, 0xD2, 0x5E, 0x8C, 0xD0, 0x36, 0x41, 0x40]

/-- `eccrypto::Check`, of the 32 bytes of a secret. -/
def eccryptoCheck (vch : List UInt8) : Bool :=
  decide (0 < compareBigEndian vch []) && decide (compareBigEndian vch vchMaxModOrder ≤ 0)

/-- A valid `CKey`. -/
structure CKey where
  vch : List UInt8
  fCompressed : Bool
  size : vch.length = 32
  fValid : eccryptoCheck vch = true

/-- `CKey::Set`; `none` is the key that is not valid. -/
def CKey.set (vch : List UInt8) (fCompressed : Bool) : Option CKey :=
  if h : vch.length = 32 then
    if hcheck : eccryptoCheck vch = true then some ⟨vch, fCompressed, h, hcheck⟩ else none
  else none

theorem CKey.set_eq (key : CKey) : CKey.set key.vch key.fCompressed = some key := by
  rw [CKey.set, dif_pos key.size, dif_pos key.fValid]

/-- What is asked of the curve, of the hash functions and of `EVP_aes_256_cbc`; a call of the cipher
can fail. -/
structure KeyCrypto where
  /-- `secp256k1_ec_pubkey_create`. -/
  pubkeyCreate : List UInt8 → Bool → CPubKey
  /-- `CPubKey::GetHash`. -/
  getHash : CPubKey → UInt256
  /-- `CPubKey::GetID`. -/
  getID : CPubKey → UInt160
  /-- The `EVP_Encrypt` calls, under a key and an initialisation vector. -/
  aesEncrypt : List UInt8 → UInt256 → List UInt8 → Option (List UInt8)
  /-- The `EVP_Decrypt` calls. -/
  aesDecrypt : List UInt8 → UInt256 → List UInt8 → Option (List UInt8)

namespace KeyCrypto

variable (env : KeyCrypto)

/-- `CKey::GetPubKey`. -/
def getPubKey (key : CKey) : CPubKey := env.pubkeyCreate key.vch key.fCompressed

/-- The address of a key. -/
def keyID (key : CKey) : UInt160 := env.getID (env.getPubKey key)

/-- `EncryptSecret`; `SetKey` wants a master key of `WALLET_CRYPTO_KEY_SIZE`. -/
def encryptSecret (vMasterKey vchPlaintext : List UInt8) (nIV : UInt256) : Option (List UInt8) :=
  if vMasterKey.length ≠ 32 then none else env.aesEncrypt vMasterKey nIV vchPlaintext

/-- `DecryptSecret`. -/
def decryptSecret (vMasterKey vchCiphertext : List UInt8) (nIV : UInt256) : Option (List UInt8) :=
  if vMasterKey.length ≠ 32 then none else env.aesDecrypt vMasterKey nIV vchCiphertext

/-- The secret of a key under a master key. -/
def sealed (vMasterKey : List UInt8) (key : CKey) : Option (List UInt8) :=
  env.encryptSecret vMasterKey key.vch (env.getHash (env.getPubKey key))

/-- What another master key makes of a secret that was encrypted with the first. -/
def opened (vMasterKey vMasterKeyIn : List UInt8) (key : CKey) : Option (List UInt8) :=
  (env.sealed vMasterKey key).bind fun vchCryptedSecret =>
    env.decryptSecret vMasterKeyIn vchCryptedSecret (env.getHash (env.getPubKey key))

/-- The other master key reproduces a secret of the stored public key. -/
def Reproduces (vMasterKey vMasterKeyIn : List UInt8) (key : CKey) : Prop :=
  ∃ key', env.opened vMasterKey vMasterKeyIn key = some key'.vch ∧
    key'.fCompressed = (env.getPubKey key).isCompressed ∧ env.getPubKey key' = env.getPubKey key

/-- The other master key makes 32 bytes of a secret that are no secret at all. -/
def Garbles (vMasterKey vMasterKeyIn : List UInt8) (key : CKey) : Prop :=
  ∃ vchSecret, env.opened vMasterKey vMasterKeyIn key = some vchSecret ∧ vchSecret.length = 32 ∧
    eccryptoCheck vchSecret = false

/-- What the store relies on: decryption inverts encryption, and the length of a public key tells
whether it is compressed. -/
structure Laws : Prop where
  aesDecrypt_aesEncrypt : ∀ k nIV vchPlaintext vchCiphertext, k.length = 32 →
    env.aesEncrypt k nIV vchPlaintext = some vchCiphertext →
      env.aesDecrypt k nIV vchCiphertext = some vchPlaintext
  isCompressed_getPubKey : ∀ key, (env.getPubKey key).isCompressed = key.fCompressed

end KeyCrypto

/-! ## The store -/

/-- The members of `CBasicKeyStore` and `CCryptoKeyStore` that hold keys. -/
structure CCryptoKeyStore where
  mapKeys : Map UInt160 CKey := ∅
  mapCryptedKeys : Map UInt160 (CPubKey × List UInt8) := ∅
  vMasterKey : List UInt8 := []
  fUseCrypto : Bool := false
  fDecryptionThoroughlyChecked : Bool := false

/-- The assertions that `Unlock` can run into. -/
inductive KeyStoreFault
  /-- `assert(fValid)` of `CKey::GetPubKey`. -/
  | invalidKey
  /-- Some keys decrypt but not all. -/
  | corrupted
  deriving DecidableEq, Repr

namespace CCryptoKeyStore

variable (env : KeyCrypto) (s : CCryptoKeyStore)

/-- `IsCrypted`. -/
def isCrypted : Bool := s.fUseCrypto

/-- `IsLocked`. -/
def isLocked : Bool := if !s.isCrypted then false else s.vMasterKey.isEmpty

/-- `SetCrypted`. -/
def setCrypted : Bool × CCryptoKeyStore :=
  if s.fUseCrypto then (true, s)
  else if !s.mapKeys.entries.isEmpty then (false, s)
  else (true, { s with fUseCrypto := true })

/-- `Lock`. -/
def lock : Bool × CCryptoKeyStore :=
  match s.setCrypted with
  | (false, s) => (false, s)
  | (true, s) => (true, { s with vMasterKey := [] })

/-- The loop of `Unlock`: `keyPass` and `keyFail` when it is left. -/
def unlockLoop (vMasterKeyIn : List UInt8) (fDecryptionThoroughlyChecked : Bool) :
    List (UInt160 × CPubKey × List UInt8) → Bool → Except KeyStoreFault (Bool × Bool)
  | [], keyPass => .ok (keyPass, false)
  | (_, vchPubKey, vchCryptedSecret) :: mi, keyPass =>
      match env.decryptSecret vMasterKeyIn vchCryptedSecret (env.getHash vchPubKey) with
      | none => .ok (keyPass, true)
      | some vchSecret =>
          if vchSecret.length ≠ 32 then .ok (keyPass, true)
          else
            match CKey.set vchSecret vchPubKey.isCompressed with
            | none => .error .invalidKey
            | some key =>
                if env.getPubKey key ≠ vchPubKey then .ok (keyPass, true)
                else if fDecryptionThoroughlyChecked then .ok (true, false)
                else unlockLoop vMasterKeyIn fDecryptionThoroughlyChecked mi true

/-- `Unlock`. -/
def unlock (vMasterKeyIn : List UInt8) : Except KeyStoreFault (Bool × CCryptoKeyStore) :=
  match s.setCrypted with
  | (false, s) => .ok (false, s)
  | (true, s) =>
      match unlockLoop env vMasterKeyIn s.fDecryptionThoroughlyChecked
          (sortedEntries uint160Le s.mapCryptedKeys) false with
      | .error e => .error e
      | .ok (keyPass, keyFail) =>
          if keyPass && keyFail then .error .corrupted
          else if keyFail || !keyPass then .ok (false, s)
          else .ok (true, { s with
            vMasterKey := vMasterKeyIn
            fDecryptionThoroughlyChecked := true })

/-- `AddCryptedKey`. -/
def addCryptedKey (vchPubKey : CPubKey) (vchCryptedSecret : List UInt8) : Bool × CCryptoKeyStore :=
  match s.setCrypted with
  | (false, s) => (false, s)
  | (true, s) => (true, { s with
      mapCryptedKeys :=
        s.mapCryptedKeys.insert (env.getID vchPubKey) (vchPubKey, vchCryptedSecret) })

/-- `AddKeyPubKey`. -/
def addKeyPubKey (key : CKey) (pubkey : CPubKey) : Bool × CCryptoKeyStore :=
  if !s.isCrypted then (true, { s with mapKeys := s.mapKeys.insert (env.getID pubkey) key })
  else if s.isLocked then (false, s)
  else
    match env.encryptSecret s.vMasterKey key.vch (env.getHash pubkey) with
    | none => (false, s)
    | some vchCryptedSecret => s.addCryptedKey env pubkey vchCryptedSecret

/-- `HaveKey`. -/
def haveKey (address : UInt160) : Bool :=
  if !s.isCrypted then (s.mapKeys.lookup address).isSome
  else (s.mapCryptedKeys.lookup address).isSome

/-- `GetKey`: whether there is one, and the key that is handed out, which need not be valid. -/
def getKey (address : UInt160) : Option (Option CKey) :=
  if !s.isCrypted then (s.mapKeys.lookup address).map some
  else
    match s.mapCryptedKeys.lookup address with
    | none => none
    | some (vchPubKey, vchCryptedSecret) =>
        match env.decryptSecret s.vMasterKey vchCryptedSecret (env.getHash vchPubKey) with
        | none => none
        | some vchSecret =>
            if vchSecret.length ≠ 32 then none
            else some (CKey.set vchSecret vchPubKey.isCompressed)

/-- `GetPubKey`; `CKeyStore::GetPubKey` derives it from the key. -/
def getPubKey (address : UInt160) : Option CPubKey :=
  if !s.isCrypted then (s.mapKeys.lookup address).map env.getPubKey
  else (s.mapCryptedKeys.lookup address).map Prod.fst

/-- The loop of `EncryptKeys`. -/
def encryptLoop (vMasterKeyIn : List UInt8) :
    List (UInt160 × CKey) → CCryptoKeyStore → Bool × CCryptoKeyStore
  | [], s => (true, s)
  | (_, key) :: mKeys, s =>
      let vchPubKey := env.getPubKey key
      match env.encryptSecret vMasterKeyIn key.vch (env.getHash vchPubKey) with
      | none => (false, s)
      | some vchCryptedSecret =>
          match s.addCryptedKey env vchPubKey vchCryptedSecret with
          | (false, s) => (false, s)
          | (true, s) => encryptLoop vMasterKeyIn mKeys s

/-- `EncryptKeys`. -/
def encryptKeys (vMasterKeyIn : List UInt8) : Bool × CCryptoKeyStore :=
  if !s.mapCryptedKeys.entries.isEmpty || s.isCrypted then (false, s)
  else
    match encryptLoop env vMasterKeyIn (sortedEntries uint160Le s.mapKeys)
        { s with fUseCrypto := true } with
    | (false, s) => (false, s)
    | (true, s) => (true, { s with mapKeys := ∅ })

/-- `AddKey` of keys to a new store. -/
def ofKeys (keys : List CKey) : CCryptoKeyStore :=
  keys.foldl (fun s key => (s.addKeyPubKey env key (env.getPubKey key)).2) {}

end CCryptoKeyStore

/-! ## Runs -/

/-- The calls that change a store. -/
inductive KeyStoreOp where
  | lock
  | unlock (vMasterKeyIn : List UInt8)
  /-- `AddKey`: a key with its own public key. -/
  | addKey (key : CKey)

namespace CCryptoKeyStore

variable (env : KeyCrypto)

/-- One call. -/
def step (s : CCryptoKeyStore) : KeyStoreOp → Except KeyStoreFault (Bool × CCryptoKeyStore)
  | .lock => .ok s.lock
  | .unlock vMasterKeyIn => s.unlock env vMasterKeyIn
  | .addKey key => .ok (s.addKeyPubKey env key (env.getPubKey key))

/-- Calls one after the other, with what they return. -/
def runOps : CCryptoKeyStore → List KeyStoreOp → Except KeyStoreFault (List Bool × CCryptoKeyStore)
  | s, [] => .ok ([], s)
  | s, op :: ops =>
      match step env s op with
      | .error e => .error e
      | .ok (result, s) =>
          match runOps s ops with
          | .error e => .error e
          | .ok (results, s) => .ok (result :: results, s)

end CCryptoKeyStore

/-! ## The vault -/

/-- Keys under their addresses, that are handed out while the vault is unlocked. -/
structure Vault where
  keys : Map UInt160 CKey
  unlocked : Bool

namespace Vault

variable (env : KeyCrypto) (vMasterKey : List UInt8)

/-- A vault is locked at first. -/
def ofKeys (keys : List CKey) : Vault :=
  ⟨keys.foldl (fun m key => m.insert (env.keyID key) key) ∅, false⟩

/-- One call.  Only the master key unlocks the vault, and only a vault with keys; keys are added while
it is unlocked, if the cipher does not fail. -/
def step (v : Vault) : KeyStoreOp → Bool × Vault
  | .lock => (true, { v with unlocked := false })
  | .unlock vMasterKeyIn =>
      if vMasterKeyIn = vMasterKey ∧ ¬ v.keys.entries.isEmpty then
        (true, { v with unlocked := true })
      else (false, v)
  | .addKey key =>
      if v.unlocked ∧ (env.sealed vMasterKey key).isSome then
        (true, { v with keys := v.keys.insert (env.keyID key) key })
      else (false, v)

/-- Calls one after the other. -/
def runOps : Vault → List KeyStoreOp → List Bool × Vault
  | v, [] => ([], v)
  | v, op :: ops =>
      let r := v.step env vMasterKey op
      let rs := runOps r.2 ops
      (r.1 :: rs.1, rs.2)

end Vault

/-! ## What a store shows of a vault -/

/-- What is kept of a key: its public key, and its secret under the master key. -/
def HoldsSecret (env : KeyCrypto) (vMasterKey : List UInt8) (key : CKey)
    (e : CPubKey × List UInt8) : Prop :=
  e.1 = env.getPubKey key ∧ env.sealed vMasterKey key = some e.2

/-- **A store shows a vault.**  There is no key in the plain; the secrets are those of the vault's
keys under its master key, and that is there while the vault is unlocked. -/
structure Shows (env : KeyCrypto) (vMasterKey : List UInt8) (s : CCryptoKeyStore) (v : Vault) :
    Prop where
  fUseCrypto : s.fUseCrypto = true
  mapKeys : s.mapKeys = ∅
  masterKey : s.vMasterKey = if v.unlocked then vMasterKey else []
  size : v.unlocked = true → vMasterKey.length = 32
  mapCryptedKeys : ∀ address, Option.Rel (HoldsSecret env vMasterKey) (v.keys.lookup address)
    (s.mapCryptedKeys.lookup address)

/-- What is seen of a store: it keeps no key in the plain, only secrets under the master key, it
hands out the keys of the vault while that is unlocked and none else, and it always hands out their
public keys. -/
structure Mirrors (env : KeyCrypto) (vMasterKey : List UInt8) (s : CCryptoKeyStore) (v : Vault) :
    Prop where
  mapKeys : s.mapKeys = ∅
  mapCryptedKeys : ∀ address e, s.mapCryptedKeys.lookup address = some e →
    ∃ key, v.keys.lookup address = some key ∧ HoldsSecret env vMasterKey key e
  isCrypted : s.isCrypted = true
  isLocked : s.isLocked = !v.unlocked
  haveKey : ∀ address, s.haveKey address = (v.keys.lookup address).isSome
  getKey : ∀ address, s.getKey env address =
    if v.unlocked then (v.keys.lookup address).map some else none
  getPubKey : ∀ address, s.getPubKey env address = (v.keys.lookup address).map env.getPubKey

section Crypted

variable {env : KeyCrypto} {vMasterKey vMasterKeyIn : List UInt8} {s : CCryptoKeyStore} {v : Vault}
  {key : CKey}

theorem KeyCrypto.length_of_sealed {vchCryptedSecret : List UInt8}
    (h : env.sealed vMasterKey key = some vchCryptedSecret) : vMasterKey.length = 32 := by
  unfold KeyCrypto.sealed KeyCrypto.encryptSecret at h
  split at h
  · cases h
  · next hlen => exact not_not.1 hlen

/-- **The master key opens a secret.** -/
theorem KeyCrypto.Laws.decryptSecret (laws : env.Laws) {vchCryptedSecret : List UInt8}
    (h : env.sealed vMasterKey key = some vchCryptedSecret) :
    env.decryptSecret vMasterKey vchCryptedSecret (env.getHash (env.getPubKey key)) =
      some key.vch := by
  have hlen := KeyCrypto.length_of_sealed h
  unfold KeyCrypto.sealed KeyCrypto.encryptSecret at h
  rw [if_neg (not_not.2 hlen)] at h
  rw [KeyCrypto.decryptSecret, if_neg (not_not.2 hlen)]
  exact laws.aesDecrypt_aesEncrypt _ _ _ _ hlen h

/-! ## The loop of `Unlock` -/

/-- **The master key** passes every entry. -/
theorem unlockLoop_master (laws : env.Laws) {fChecked : Bool}
    {mi : List (UInt160 × CPubKey × List UInt8)}
    (h : ∀ e ∈ mi, ∃ key, HoldsSecret env vMasterKey key e.2) :
    ∀ keyPass, CCryptoKeyStore.unlockLoop env vMasterKey fChecked mi keyPass =
      .ok (keyPass || !mi.isEmpty, false) := by
  induction mi with
  | nil =>
    intro keyPass
    rw [CCryptoKeyStore.unlockLoop, List.isEmpty_nil, Bool.not_true, Bool.or_false]
  | cons e mi ih =>
    intro keyPass
    obtain ⟨address, vchPubKey, vchCryptedSecret⟩ := e
    obtain ⟨key, hpub, hsealed⟩ := h _ List.mem_cons_self
    have hpub' : vchPubKey = env.getPubKey key := hpub
    subst hpub'
    have hset : CKey.set key.vch (env.getPubKey key).isCompressed = some key := by
      rw [laws.isCompressed_getPubKey, key.set_eq]
    rw [CCryptoKeyStore.unlockLoop, laws.decryptSecret hsealed]
    simp only [key.size, hset]
    rw [if_neg (by simp), if_neg (by simp), ih fun e he => h e (List.mem_cons_of_mem _ he)]
    cases fChecked <;> simp

/-- **Another master key** fails at the first entry, if it passes the assertion of `GetPubKey`. -/
theorem unlockLoop_other (fChecked : Bool) (address : UInt160) {e : CPubKey × List UInt8}
    (mi : List (UInt160 × CPubKey × List UInt8)) (h : HoldsSecret env vMasterKey key e)
    (hother : ¬ env.Reproduces vMasterKey vMasterKeyIn key) :
    CCryptoKeyStore.unlockLoop env vMasterKeyIn fChecked ((address, e) :: mi) false =
        .ok (false, true) ∨
      (CCryptoKeyStore.unlockLoop env vMasterKeyIn fChecked ((address, e) :: mi) false =
        .error .invalidKey ∧ env.Garbles vMasterKey vMasterKeyIn key) := by
  obtain ⟨vchPubKey, vchCryptedSecret⟩ := e
  obtain ⟨hpub, hsealed⟩ := h
  have hpub' : vchPubKey = env.getPubKey key := hpub
  subst hpub'
  have hopened : env.opened vMasterKey vMasterKeyIn key =
      env.decryptSecret vMasterKeyIn vchCryptedSecret (env.getHash (env.getPubKey key)) := by
    rw [KeyCrypto.opened, hsealed, Option.bind_some]
  rw [CCryptoKeyStore.unlockLoop, ← hopened]
  cases hsecret : env.opened vMasterKey vMasterKeyIn key with
  | none => exact .inl rfl
  | some vchSecret =>
    simp only
    by_cases hlen : vchSecret.length = 32
    · rw [if_neg (not_not.2 hlen)]
      cases hset : CKey.set vchSecret (env.getPubKey key).isCompressed with
      | none =>
        refine .inr ⟨rfl, vchSecret, hsecret, hlen, ?_⟩
        rw [CKey.set, dif_pos hlen] at hset
        split at hset
        · cases hset
        · next hcheck => exact Bool.eq_false_iff.2 hcheck
      | some key' =>
        rw [CKey.set, dif_pos hlen] at hset
        split at hset
        · next hcheck =>
          obtain rfl := Option.some.inj hset
          left
          refine if_pos fun hsame => hother ⟨_, hsecret, rfl, hsame⟩
        · cases hset
    · rw [if_pos hlen]
      exact .inl rfl

/-! ## One call -/

namespace Shows

theorem isLocked (h : Shows env vMasterKey s v) : s.isLocked = !v.unlocked := by
  rw [CCryptoKeyStore.isLocked, CCryptoKeyStore.isCrypted, h.fUseCrypto, h.masterKey]
  cases hunlocked : v.unlocked with
  | false => rfl
  | true =>
    have hlen := h.size hunlocked
    cases vMasterKey with
    | nil => cases hlen
    | cons b k => rfl

theorem setCrypted (h : Shows env vMasterKey s v) : s.setCrypted = (true, s) := by
  rw [CCryptoKeyStore.setCrypted, if_pos h.fUseCrypto]

/-- An address is in neither, or there is a key in the vault and its secret in the store. -/
theorem lookup (h : Shows env vMasterKey s v) (address : UInt160) :
    (v.keys.lookup address = none ∧ s.mapCryptedKeys.lookup address = none) ∨
      ∃ key e, v.keys.lookup address = some key ∧ s.mapCryptedKeys.lookup address = some e ∧
        HoldsSecret env vMasterKey key e := by
  have hrel := h.mapCryptedKeys address
  generalize v.keys.lookup address = found at hrel ⊢
  generalize s.mapCryptedKeys.lookup address = stored at hrel ⊢
  cases hrel with
  | none => exact .inl ⟨rfl, rfl⟩
  | some hholds => exact .inr ⟨_, _, rfl, rfl, hholds⟩

/-- Every entry holds a key of the vault. -/
theorem holds (h : Shows env vMasterKey s v) {address : UInt160} {e : CPubKey × List UInt8}
    (he : s.mapCryptedKeys.lookup address = some e) :
    ∃ key, v.keys.lookup address = some key ∧ HoldsSecret env vMasterKey key e := by
  rcases h.lookup address with ⟨-, hnone⟩ | ⟨key, e', hkey, hstored, hholds⟩
  · cases hnone.symm.trans he
  · obtain rfl := Option.some.inj (hstored.symm.trans he)
    exact ⟨key, hkey, hholds⟩

/-- **What is seen.** -/
theorem mirrors (laws : env.Laws) (h : Shows env vMasterKey s v) : Mirrors env vMasterKey s v where
  mapKeys := h.mapKeys
  mapCryptedKeys _ _ he := h.holds he
  isCrypted := h.fUseCrypto
  isLocked := h.isLocked
  haveKey address := by
    rw [CCryptoKeyStore.haveKey, CCryptoKeyStore.isCrypted, h.fUseCrypto, if_neg (by simp)]
    rcases h.lookup address with ⟨hkey, hstored⟩ | ⟨key, e, hkey, hstored, -⟩
    · rw [hkey, hstored]
      rfl
    · rw [hkey, hstored]
      rfl
  getKey address := by
    rw [CCryptoKeyStore.getKey, CCryptoKeyStore.isCrypted, h.fUseCrypto, if_neg (by simp)]
    rcases h.lookup address with ⟨hkey, hstored⟩ | ⟨key, e, hkey, hstored, hholds⟩
    · rw [hkey, hstored]
      simp
    · obtain ⟨vchPubKey, vchCryptedSecret⟩ := e
      obtain ⟨hpub, hsealed⟩ := hholds
      have hpub' : vchPubKey = env.getPubKey key := hpub
      subst hpub'
      rw [hkey, hstored]
      simp only [h.masterKey]
      cases v.unlocked with
      | false => rfl
      | true =>
        have hset : CKey.set key.vch (env.getPubKey key).isCompressed = some key := by
          rw [laws.isCompressed_getPubKey, key.set_eq]
        simp only [if_true, laws.decryptSecret hsealed, hset]
        exact if_neg (not_not.2 key.size)
  getPubKey address := by
    rw [CCryptoKeyStore.getPubKey, CCryptoKeyStore.isCrypted, h.fUseCrypto, if_neg (by simp)]
    rcases h.lookup address with ⟨hkey, hstored⟩ | ⟨key, e, hkey, hstored, hholds⟩
    · rw [hkey, hstored]
      rfl
    · rw [hkey, hstored]
      exact congrArg some hholds.1

/-- **`Lock`** locks the vault. -/
theorem lock (h : Shows env vMasterKey s v) :
    s.lock.1 = true ∧ Shows env vMasterKey s.lock.2 { v with unlocked := false } := by
  rw [CCryptoKeyStore.lock, h.setCrypted]
  refine ⟨rfl, h.fUseCrypto, h.mapKeys, rfl, ?_, h.mapCryptedKeys⟩
  rintro ⟨⟩

/-- **`AddKeyPubKey`** of a key with its own public key. -/
theorem addKeyPubKey (h : Shows env vMasterKey s v) (key : CKey) :
    (s.addKeyPubKey env key (env.getPubKey key)).1 = (v.step env vMasterKey (.addKey key)).1 ∧
      Shows env vMasterKey (s.addKeyPubKey env key (env.getPubKey key)).2
        (v.step env vMasterKey (.addKey key)).2 := by
  rw [CCryptoKeyStore.addKeyPubKey, CCryptoKeyStore.isCrypted, h.fUseCrypto, if_neg (by simp),
    h.isLocked, Vault.step]
  cases hunlocked : v.unlocked with
  | false => exact ⟨rfl, h⟩
  | true =>
    have hkey : s.vMasterKey = vMasterKey := by rw [h.masterKey, hunlocked, if_pos rfl]
    rw [if_neg (by simp), hkey]
    cases hsealed : env.sealed vMasterKey key with
    | none =>
      have henc : env.encryptSecret vMasterKey key.vch (env.getHash (env.getPubKey key)) = none :=
        hsealed
      rw [henc]
      exact ⟨rfl, h⟩
    | some vchCryptedSecret =>
      have henc : env.encryptSecret vMasterKey key.vch (env.getHash (env.getPubKey key)) =
        some vchCryptedSecret := hsealed
      rw [henc, if_pos ⟨rfl, rfl⟩]
      simp only [CCryptoKeyStore.addCryptedKey, h.setCrypted]
      refine ⟨trivial, h.fUseCrypto, h.mapKeys, hkey, fun _ => h.size hunlocked, fun address => ?_⟩
      · show Option.Rel _ ((v.keys.insert (env.keyID key) key).lookup address) _
        rw [lookup_insert_eq, lookup_insert_eq]
        show Option.Rel _ (if address = env.keyID key then _ else _)
          (if address = env.keyID key then _ else _)
        split
        · exact .some ⟨rfl, hsealed⟩
        · exact h.mapCryptedKeys address

/-- A store has entries if the vault has keys. -/
theorem isEmpty_sortedEntries (h : Shows env vMasterKey s v) :
    (sortedEntries uint160Le s.mapCryptedKeys).isEmpty = v.keys.entries.isEmpty := by
  rw [Bool.eq_iff_iff, List.isEmpty_iff, List.isEmpty_iff, List.eq_nil_iff_forall_not_mem,
    List.eq_nil_iff_forall_not_mem]
  constructor
  · intro hnone e he
    have hkey := AList.mem_lookup_iff.2 he
    have hrel := h.mapCryptedKeys e.1
    rw [Option.mem_def.1 hkey] at hrel
    generalize hfound : s.mapCryptedKeys.lookup e.1 = found at hrel
    cases hrel with
    | some hholds => exact hnone ⟨_, _⟩ (mem_sortedEntries_iff.2 hfound)
  · intro hnone e he
    obtain ⟨key, hkey, -⟩ := h.holds (mem_sortedEntries he)
    exact hnone ⟨_, key⟩ (AList.mem_lookup_iff.1 hkey)

/-- **`Unlock`** with the master key, and with another key. -/
theorem unlock (laws : env.Laws) (h : Shows env vMasterKey s v)
    (hother : vMasterKeyIn ≠ vMasterKey → ∀ address key, v.keys.lookup address = some key →
      ¬ env.Reproduces vMasterKey vMasterKeyIn key) :
    (∃ t, s.unlock env vMasterKeyIn =
        .ok ((v.step env vMasterKey (.unlock vMasterKeyIn)).1, t) ∧
      Shows env vMasterKey t (v.step env vMasterKey (.unlock vMasterKeyIn)).2) ∨
    (s.unlock env vMasterKeyIn = .error .invalidKey ∧ vMasterKeyIn ≠ vMasterKey ∧
      ∃ address key, v.keys.lookup address = some key ∧
        env.Garbles vMasterKey vMasterKeyIn key) := by
  rw [CCryptoKeyStore.unlock, h.setCrypted, Vault.step, ← h.isEmpty_sortedEntries]
  simp only
  by_cases hkey : vMasterKeyIn = vMasterKey
  · subst hkey
    left
    have hholds : ∀ e ∈ sortedEntries uint160Le s.mapCryptedKeys,
        ∃ key, HoldsSecret env vMasterKeyIn key e.2 := by
      intro e he
      obtain ⟨key, -, hholds⟩ := h.holds (mem_sortedEntries he)
      exact ⟨key, hholds⟩
    rw [unlockLoop_master laws hholds]
    cases hes : sortedEntries uint160Le s.mapCryptedKeys with
    | nil =>
      rw [if_neg (by simp)]
      exact ⟨s, rfl, h⟩
    | cons e es =>
      rw [if_pos (by simp)]
      refine ⟨_, rfl, h.fUseCrypto, h.mapKeys, rfl, fun _ => ?_, h.mapCryptedKeys⟩
      obtain ⟨key, -, hsealed⟩ := hholds e (hes ▸ List.mem_cons_self)
      exact KeyCrypto.length_of_sealed hsealed
  · rw [if_neg fun hsame => hkey hsame.1]
    cases hes : sortedEntries uint160Le s.mapCryptedKeys with
    | nil => exact .inl ⟨s, rfl, h⟩
    | cons e es =>
      obtain ⟨address, e⟩ := e
      have he : s.mapCryptedKeys.lookup address = some e :=
        mem_sortedEntries (e := (address, e)) (hes ▸ List.mem_cons_self)
      obtain ⟨key, hfound, hholds⟩ := h.holds he
      rcases unlockLoop_other s.fDecryptionThoroughlyChecked address es hholds
        (hother hkey address key hfound) with hloop | ⟨hloop, hgarbles⟩
      · left
        rw [hloop]
        exact ⟨s, rfl, h⟩
      · right
        rw [hloop]
        exact ⟨rfl, hkey, address, key, hfound, hgarbles⟩

/-- **One call** does what it does to the vault, or the assertion of `GetPubKey` fails. -/
theorem step (laws : env.Laws) (h : Shows env vMasterKey s v) (op : KeyStoreOp)
    (hother : ∀ k, op = .unlock k → k ≠ vMasterKey → ∀ address key,
      v.keys.lookup address = some key → ¬ env.Reproduces vMasterKey k key) :
    (∃ t, s.step env op = .ok ((v.step env vMasterKey op).1, t) ∧
      Shows env vMasterKey t (v.step env vMasterKey op).2) ∨
    (s.step env op = .error .invalidKey ∧ ∃ k, op = .unlock k ∧ k ≠ vMasterKey ∧
      ∃ address key, v.keys.lookup address = some key ∧ env.Garbles vMasterKey k key) := by
  cases op with
  | lock =>
    left
    obtain ⟨hresult, hshows⟩ := h.lock
    refine ⟨s.lock.2, ?_, hshows⟩
    rw [CCryptoKeyStore.step, ← Prod.mk.eta (p := s.lock), hresult]
    rfl
  | addKey key =>
    left
    obtain ⟨hresult, hshows⟩ := h.addKeyPubKey key
    refine ⟨_, ?_, hshows⟩
    rw [CCryptoKeyStore.step, ← hresult]
  | unlock k =>
    rcases h.unlock laws (hother k rfl) with hok | ⟨herror, hne, hgarbles⟩
    · exact .inl hok
    · exact .inr ⟨herror, k, rfl, hne, hgarbles⟩

end Shows

/-! ## `EncryptKeys` -/

/-- A store of keys in the plain. -/
theorem ofKeys_eq (env : KeyCrypto) (keys : List CKey) :
    CCryptoKeyStore.ofKeys env keys = { mapKeys := (Vault.ofKeys env keys).keys } := by
  suffices hfold : ∀ m : Map UInt160 CKey,
      keys.foldl (fun s key => (s.addKeyPubKey env key (env.getPubKey key)).2)
        ({ mapKeys := m } : CCryptoKeyStore) =
      { mapKeys := keys.foldl (fun m key => m.insert (env.keyID key) key) m } from hfold ∅
  induction keys with
  | nil => exact fun _ => rfl
  | cons key keys ih => exact fun m => ih (m.insert (env.keyID key) key)

/-- Keys are under their own addresses, and are keys that were added. -/
theorem lookup_ofKeys {keys : List CKey} {address : UInt160}
    (h : (Vault.ofKeys env keys).keys.lookup address = some key) :
    address = env.keyID key ∧ key ∈ keys := by
  suffices hfold : ∀ m : Map UInt160 CKey,
      (keys.foldl (fun m key => m.insert (env.keyID key) key) m).lookup address = some key →
        m.lookup address = some key ∨ (address = env.keyID key ∧ key ∈ keys) by
    rcases hfold ∅ h with hnone | hkey
    · cases hnone
    · exact hkey
  clear h
  induction keys with
  | nil => exact fun m h => .inl h
  | cons k keys ih =>
    intro m h
    rcases ih _ h with hm | ⟨haddress, hmem⟩
    · rw [lookup_insert_eq] at hm
      split at hm
      · next haddress =>
        obtain rfl := Option.some.inj hm
        exact .inr ⟨haddress, List.mem_cons_self⟩
      · exact .inl hm
    · exact .inr ⟨haddress, List.mem_cons_of_mem _ hmem⟩

/-- The loop of `EncryptKeys`, when it succeeds: the secret of every key is stored. -/
theorem encryptLoop_spec {mKeys : List (UInt160 × CKey)}
    (haddress : ∀ e ∈ mKeys, e.1 = env.keyID e.2) (hnodup : (mKeys.map Prod.fst).Nodup) :
    ∀ {s : CCryptoKeyStore}, s.fUseCrypto = true →
      (CCryptoKeyStore.encryptLoop env vMasterKey mKeys s).1 = true →
      ∃ m, (CCryptoKeyStore.encryptLoop env vMasterKey mKeys s).2 = { s with mapCryptedKeys := m } ∧
        (∀ e ∈ mKeys, ∃ c, m.lookup e.1 = some (env.getPubKey e.2, c) ∧
          env.sealed vMasterKey e.2 = some c) ∧
        ∀ address, address ∉ mKeys.map Prod.fst →
          m.lookup address = s.mapCryptedKeys.lookup address := by
  induction mKeys with
  | nil =>
    intro s _ _
    exact ⟨s.mapCryptedKeys, rfl, fun e he => absurd he List.not_mem_nil, fun _ _ => rfl⟩
  | cons e mKeys ih =>
    intro s hcrypto hok
    obtain ⟨address, key⟩ := e
    obtain rfl : address = env.keyID key := haddress _ List.mem_cons_self
    rw [List.map_cons, List.nodup_cons] at hnodup
    rw [CCryptoKeyStore.encryptLoop] at hok ⊢
    cases hsealed : env.sealed vMasterKey key with
    | none =>
      have henc : env.encryptSecret vMasterKey key.vch (env.getHash (env.getPubKey key)) = none :=
        hsealed
      simp only [henc] at hok
      cases hok
    | some c =>
      have henc : env.encryptSecret vMasterKey key.vch (env.getHash (env.getPubKey key)) =
        some c := hsealed
      have hset : s.setCrypted = (true, s) := by rw [CCryptoKeyStore.setCrypted, if_pos hcrypto]
      simp only [henc, CCryptoKeyStore.addCryptedKey, hset] at hok ⊢
      obtain ⟨m, hm, hstored, hrest⟩ := ih (fun e he => haddress e (List.mem_cons_of_mem _ he))
        hnodup.2 (s := { s with
          mapCryptedKeys := s.mapCryptedKeys.insert (env.getID (env.getPubKey key))
            (env.getPubKey key, c) }) hcrypto hok
      refine ⟨m, hm, ?_, ?_⟩
      · intro e he
        rcases List.mem_cons.1 he with rfl | he
        · refine ⟨c, ?_, hsealed⟩
          rw [hrest _ hnodup.1, lookup_insert_eq]
          exact if_pos rfl
        · exact hstored e he
      · intro a ha
        rw [List.map_cons, List.mem_cons, not_or] at ha
        rw [hrest a ha.2, lookup_insert_eq]
        exact if_neg ha.1

/-- **`EncryptKeys`** makes a locked vault of the keys in the plain. -/
theorem encryptKeys_shows {keys : List CKey}
    (h : ((CCryptoKeyStore.ofKeys env keys).encryptKeys env vMasterKey).1 = true) :
    Shows env vMasterKey ((CCryptoKeyStore.ofKeys env keys).encryptKeys env vMasterKey).2
      (Vault.ofKeys env keys) := by
  rw [ofKeys_eq, CCryptoKeyStore.encryptKeys, if_neg (by simp [CCryptoKeyStore.isCrypted])] at h ⊢
  have hperm : (sortedEntries uint160Le (Vault.ofKeys env keys).keys).Perm _ :=
    List.mergeSort_perm _ _
  have hnodup : ((sortedEntries uint160Le (Vault.ofKeys env keys).keys).map Prod.fst).Nodup := by
    refine (hperm.map Prod.fst).nodup_iff.2 ?_
    rw [List.map_map]
    exact (Vault.ofKeys env keys).keys.nodupKeys
  have hspec := @encryptLoop_spec env vMasterKey _
    (fun e he => (lookup_ofKeys (mem_sortedEntries he)).1) hnodup
    ({ mapKeys := (Vault.ofKeys env keys).keys, fUseCrypto := true }) rfl
  generalize CCryptoKeyStore.encryptLoop env vMasterKey
    (sortedEntries uint160Le (Vault.ofKeys env keys).keys)
    { mapKeys := (Vault.ofKeys env keys).keys, fUseCrypto := true } = r at h hspec ⊢
  obtain ⟨ok, s⟩ := r
  cases ok with
  | false => cases h
  | true =>
    obtain ⟨m, rfl, hstored, hrest⟩ := hspec rfl
    refine ⟨rfl, rfl, rfl, ?_, fun address => ?_⟩
    · rintro ⟨⟩
    show Option.Rel _ _ (m.lookup address)
    cases hkey : (Vault.ofKeys env keys).keys.lookup address with
    | none =>
      have hnot : address ∉
          (sortedEntries uint160Le (Vault.ofKeys env keys).keys).map Prod.fst := by
        intro hmem
        obtain ⟨e, he, rfl⟩ := List.mem_map.1 hmem
        cases hkey.symm.trans (mem_sortedEntries he)
      rw [hrest address hnot]
      exact .none
    | some key =>
      obtain ⟨c, hc, hsealed⟩ := hstored (address, key) (mem_sortedEntries_iff.2 hkey)
      rw [hc]
      exact .some ⟨rfl, hsealed⟩

/-! ## Every run -/

/-- The keys of a vault are those it had and those that were added. -/
theorem lookup_step {op : KeyStoreOp} {address : UInt160}
    (h : (v.step env vMasterKey op).2.keys.lookup address = some key) :
    v.keys.lookup address = some key ∨ op = .addKey key := by
  cases op with
  | lock => exact .inl h
  | unlock k =>
    rw [Vault.step] at h
    split at h
    · exact .inl h
    · exact .inl h
  | addKey k =>
    rw [Vault.step] at h
    split at h
    · simp only [lookup_insert_eq] at h
      split at h
      · exact .inr (by rw [Option.some.inj h])
      · exact .inl h
    · exact .inl h

/-- **A run** of calls does what it does to the vault, or an assertion of `GetPubKey` ends it. -/
theorem Shows.runOps (laws : env.Laws) (added : CKey → Prop) {ops : List KeyStoreOp} :
    ∀ {s : CCryptoKeyStore} {v : Vault}, Shows env vMasterKey s v →
      (∀ address key, v.keys.lookup address = some key → added key) →
      (∀ key, .addKey key ∈ ops → added key) →
      (∀ k, .unlock k ∈ ops → k ≠ vMasterKey → ∀ key, added key →
        ¬ env.Reproduces vMasterKey k key) →
      (∃ t, s.runOps env ops = .ok ((v.runOps env vMasterKey ops).1, t) ∧
        Shows env vMasterKey t (v.runOps env vMasterKey ops).2) ∨
      (s.runOps env ops = .error .invalidKey ∧ ∃ k, .unlock k ∈ ops ∧ k ≠ vMasterKey ∧
        ∃ key, added key ∧ env.Garbles vMasterKey k key) := by
  induction ops with
  | nil => exact fun h _ _ _ => .inl ⟨_, rfl, h⟩
  | cons op ops ih =>
    intro s v h hkeys hadded hother
    rcases h.step laws op (fun k hk hne address key hkey =>
        hother k (hk ▸ List.mem_cons_self) hne key (hkeys address key hkey)) with
      ⟨t, hstep, ht⟩ | ⟨hstep, k, rfl, hne, address, key, hkey, hgarbles⟩
    · have hkeys' : ∀ address key,
          (v.step env vMasterKey op).2.keys.lookup address = some key → added key := by
        intro address key hkey
        rcases lookup_step hkey with hkey | rfl
        · exact hkeys address key hkey
        · exact hadded key List.mem_cons_self
      rcases ih ht hkeys' (fun key hmem => hadded key (List.mem_cons_of_mem _ hmem))
          (fun k hmem => hother k (List.mem_cons_of_mem _ hmem)) with
        ⟨t', hrun, ht'⟩ | ⟨hrun, k, hmem, hne, hgarbles⟩
      · left
        refine ⟨t', ?_, ht'⟩
        simp only [CCryptoKeyStore.runOps, hstep, hrun]
        rfl
      · right
        refine ⟨?_, k, List.mem_cons_of_mem _ hmem, hne, hgarbles⟩
        simp only [CCryptoKeyStore.runOps, hstep, hrun]
    · right
      refine ⟨?_, k, List.mem_cons_self, hne, key, hkeys address key hkey, hgarbles⟩
      simp only [CCryptoKeyStore.runOps, hstep]

/-- **The encrypted keystore.**  After a successful `EncryptKeys`, every run of `Lock`, `Unlock` and
`AddKeyPubKey` returns what the vault of the keys returns, and the store shows that vault: the master
key unlocks it unless it has no keys, any other key fails and changes nothing, and unlocked it hands
out the keys it was given, before and after.  No key is left in the plain and the assertion against
corruption never fails.  What can fail is the assertion of `GetPubKey`, when another key makes 32
bytes of a secret that are no secret. -/
theorem crypted_refines (laws : env.Laws) (vMasterKey : List UInt8) (keys : List CKey)
    (ops : List KeyStoreOp)
    (hencrypt : ((CCryptoKeyStore.ofKeys env keys).encryptKeys env vMasterKey).1 = true)
    (hother : ∀ k, .unlock k ∈ ops → k ≠ vMasterKey → ∀ key, key ∈ keys ∨ .addKey key ∈ ops →
      ¬ env.Reproduces vMasterKey k key) :
    (∃ t, ((CCryptoKeyStore.ofKeys env keys).encryptKeys env vMasterKey).2.runOps env ops =
        .ok (((Vault.ofKeys env keys).runOps env vMasterKey ops).1, t) ∧
      Mirrors env vMasterKey t ((Vault.ofKeys env keys).runOps env vMasterKey ops).2) ∨
    (((CCryptoKeyStore.ofKeys env keys).encryptKeys env vMasterKey).2.runOps env ops =
        .error .invalidKey ∧
      ∃ k, .unlock k ∈ ops ∧ k ≠ vMasterKey ∧ ∃ key, (key ∈ keys ∨ .addKey key ∈ ops) ∧
        env.Garbles vMasterKey k key) := by
  rcases (encryptKeys_shows hencrypt).runOps laws (fun key => key ∈ keys ∨ .addKey key ∈ ops)
      (fun address key hkey => .inl (lookup_ofKeys hkey).2) (fun key hmem => .inr hmem) hother with
    ⟨t, hrun, ht⟩ | hfault
  · exact .inl ⟨t, hrun, ht.mirrors laws⟩
  · exact .inr hfault

end Crypted

/-! ## A cipher to compute with -/

/-- A cipher that puts the master key before the plaintext, and makes nothing, or the same 32 bytes,
of what another key encrypted; a public key repeats its secret. -/
def plainKeyCrypto (garbled : Option (List UInt8)) : KeyCrypto where
  pubkeyCreate vch fCompressed :=
    if h : vch.length = 32 then
      if fCompressed then ⟨2 :: vch, .inl (by simp [isValidPubKey, h])⟩
      else ⟨4 :: (vch ++ vch), .inl (by simp [isValidPubKey, h])⟩
    else ⟨[], .inr rfl⟩
  getHash _ := 0
  getID pubkey := BitVec.ofNat 160 (pubkey.vch.foldl (fun n b => n * 256 + b.toNat) 0)
  aesEncrypt k _ vchPlaintext := some (k ++ vchPlaintext)
  aesDecrypt k _ vchCiphertext :=
    if vchCiphertext.take 32 = k then some (vchCiphertext.drop 32) else garbled

theorem plainKeyCrypto_laws (garbled : Option (List UInt8)) : (plainKeyCrypto garbled).Laws where
  aesDecrypt_aesEncrypt k nIV vchPlaintext vchCiphertext hlen h := by
    obtain rfl := Option.some.inj h
    show (if (k ++ vchPlaintext).take 32 = k then some ((k ++ vchPlaintext).drop 32)
      else garbled) = _
    rw [← hlen, List.take_left, if_pos rfl, List.drop_left]
  isCompressed_getPubKey key := by
    show CPubKey.isCompressed (if h : key.vch.length = 32 then _ else _) = _
    rw [dif_pos key.size]
    cases hc : key.fCompressed <;> simp [CPubKey.isCompressed, key.size]

/-- What another key makes of a secret. -/
theorem plainKeyCrypto_opened (garbled : Option (List UInt8)) {k vMasterKey : List UInt8}
    (key : CKey) (hne : k ≠ vMasterKey) : (plainKeyCrypto garbled).opened vMasterKey k key = none ∨
      (plainKeyCrypto garbled).opened vMasterKey k key = garbled := by
  unfold KeyCrypto.opened KeyCrypto.sealed KeyCrypto.encryptSecret
  split
  · exact .inl rfl
  · next hlen =>
    rw [not_not] at hlen
    show (plainKeyCrypto garbled).decryptSecret k (vMasterKey ++ key.vch) _ = none ∨
      (plainKeyCrypto garbled).decryptSecret k (vMasterKey ++ key.vch) _ = garbled
    unfold KeyCrypto.decryptSecret
    split
    · exact .inl rfl
    · right
      show (if (vMasterKey ++ key.vch).take 32 = k then _ else garbled) = garbled
      refine if_neg fun hsame => hne ?_
      rw [← hsame, ← hlen, List.take_left]

/-- A secret. -/
def plainKey : CKey := ⟨List.replicate 32 1, true, rfl, by decide⟩

/-- Another one. -/
def laterKey : CKey := ⟨List.replicate 32 2, false, rfl, by decide⟩

/-- A vault of one key is unlocked, takes another one, is locked, and opens for its own master key
only. -/
theorem crypted_refines_laterKey :
    ∃ t, ((CCryptoKeyStore.ofKeys (plainKeyCrypto none) [plainKey]).encryptKeys
        (plainKeyCrypto none) (List.replicate 32 7)).2.runOps (plainKeyCrypto none)
          [.unlock (List.replicate 32 7), .addKey laterKey, .lock, .unlock (List.replicate 32 8),
            .unlock (List.replicate 32 7)] = .ok ([true, true, true, false, true], t) ∧
      t.getKey (plainKeyCrypto none) ((plainKeyCrypto none).keyID laterKey) =
        some (some laterKey) := by
  have hnone : ∀ k key, k ≠ List.replicate 32 7 →
      (plainKeyCrypto none).opened (List.replicate 32 7) k key = none := by
    intro k key hne
    rcases plainKeyCrypto_opened none key hne with h | h
    · exact h
    · exact h
  rcases crypted_refines (plainKeyCrypto_laws none) (List.replicate 32 7) [plainKey]
      [.unlock (List.replicate 32 7), .addKey laterKey, .lock, .unlock (List.replicate 32 8),
        .unlock (List.replicate 32 7)] (by decide +kernel) (by
        rintro k _ hne key _ ⟨key', hopened, _⟩
        rw [hnone k key hne] at hopened
        cases hopened) with
    ⟨t, hrun, ht⟩ | ⟨_, k, _, hne, key, _, vchSecret, hopened, _⟩
  · refine ⟨t, hrun, ?_⟩
    rw [ht.getKey]
    rfl
  · rw [hnone k key hne] at hopened
    cases hopened

/-- **A store without keys** cannot be unlocked with its master key; and another master key that makes
32 zero bytes of a secret runs into the assertion of `GetPubKey`. -/
theorem unlock_noKeys_aborts :
    ((CCryptoKeyStore.ofKeys (plainKeyCrypto none) []).encryptKeys (plainKeyCrypto none)
        (List.replicate 32 7)).1 = true ∧
    (((CCryptoKeyStore.ofKeys (plainKeyCrypto none) []).encryptKeys (plainKeyCrypto none)
        (List.replicate 32 7)).2.unlock (plainKeyCrypto none) (List.replicate 32 7)).toOption.map
          Prod.fst = some false ∧
    (∀ key, ¬ (plainKeyCrypto (some (List.replicate 32 0))).Reproduces (List.replicate 32 7)
      (List.replicate 32 8) key) ∧
    (match ((CCryptoKeyStore.ofKeys (plainKeyCrypto (some (List.replicate 32 0)))
        [plainKey]).encryptKeys (plainKeyCrypto (some (List.replicate 32 0)))
          (List.replicate 32 7)).2.unlock (plainKeyCrypto (some (List.replicate 32 0)))
            (List.replicate 32 8) with
      | .error e => some e
      | .ok _ => none) = some .invalidKey := by
  refine ⟨by decide +kernel, by decide +kernel, ?_, by decide +kernel⟩
  rintro key ⟨key', hopened, _⟩
  have hvalid := key'.fValid
  rcases plainKeyCrypto_opened (some (List.replicate 32 0)) key
      (show List.replicate 32 (8 : UInt8) ≠ List.replicate 32 7 by decide) with h | h
  · cases h.symm.trans hopened
  · rw [← Option.some.inj (h.symm.trans hopened)] at hvalid
    exact absurd hvalid (by decide)

end FairCoin
