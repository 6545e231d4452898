import FairCoin.Signing
import FairCoin.StandardScripts
import FairCoin.Deliveries

/-!
# Block signatures

`SignBlock` and `CheckBlockSignature` of `src/primitives/block.cpp`: the signer and the checker find
the key of a block in the scripts of its outputs, each by its own rule.

* `CBlock.signBlock` — the loop over the outputs of the coinbase, and the coinstake's second output.
* `CBlock.checkSignature` — the checker, as it calls `Solver`; `checkSignature_eq` says it is
  `checkBlockSignature`.
* `signBlock_checked_iff` — **which signed blocks pass their own check**.
-/

namespace FairCoin

/-! ## The signer -/

/-- The exception of `base_uint(vch)`. -/
inductive UintError
  | wrongSize
  deriving DecidableEq, Repr

/-- `uint160(vch)`, as the twenty bytes it holds. -/
def uint160OfBytes (vch : Valtype) : Except UintError Valtype :=
  if vch.length = 20 then .ok vch else .error .wrongSize

namespace CBlock

variable {C : CryptoEnv} (blockHash : CBlockHeader → UInt256) (keystore : CKeyStore C)

/-- `GetKey`, then `Sign`: the return value and the block with `vchBlockSig`. -/
def signWith (block : CBlock) (keyID : Valtype) : Bool × CBlock :=
  match keystore.getKey keyID with
  | none => (false, block)
  | some key =>
      (true, { block with vchBlockSig := C.sign key (blockHash block.toCBlockHeader) })

/-- The loop of `SignBlock` over the outputs of the first transaction. -/
def signOutputs (block : CBlock) : List CTxOut → List Valtype → Except UintError (Bool × CBlock)
  | [], _ => .ok (false, block)
  | txout :: vout, vSolutions =>
      match solverRet txout.scriptPubKey vSolutions with
      | (false, _, vSolutions) => signOutputs block vout vSolutions
      | (true, whichType, vSolutions) =>
          if whichType = .pubkey then
            match uint160OfBytes (vSolutions.headD []) with
            | .error e => .error e
            | .ok keyID => .ok (signWith blockHash keystore block keyID)
          else signOutputs block vout vSolutions

/-- `vtx[1].vout[1]`. -/
def stakeOut (block : CBlock) : Option CTxOut :=
  match block.vtx with
  | _ :: tx :: _ => tx.vout[1]?
  | _ => none

/-- `SignBlock`; a proof-of-stake block has a second output of its second transaction. -/
def signBlock (block : CBlock) : Except UintError (Bool × CBlock) :=
  if !block.isProofOfStake then
    match block.vtx with
    | [] => .ok (false, block)
    | tx :: _ => signOutputs blockHash keystore block tx.vout []
  else
    match block.stakeOut with
    | none => .ok (false, block)
    | some txout =>
        match solverRet txout.scriptPubKey [] with
        | (false, _, _) => .ok (false, block)
        | (true, whichType, vSolutions) =>
            if whichType = .pubkeyhash then
              match uint160OfBytes (vSolutions.headD []) with
              | .error e => .error e
              | .ok keyID => .ok (signWith blockHash keystore block keyID)
            else if whichType = .pubkey then
              .ok (signWith blockHash keystore block (C.getID (vSolutions.headD [])))
            else .ok (false, block)

/-! ## The checker -/

/-- `CheckBlockSignature`. -/
def checkSignature (c : Crypto) (block : CBlock) : Bool :=
  if block.isProofOfWork then block.vchBlockSig.isEmpty
  else
    match block.stakeOut with
    | none => false
    | some txout =>
        match solverRet txout.scriptPubKey [] with
        | (false, _, _) => false
        | (true, whichType, vSolutions) =>
            if whichType = .pubkey ∨ whichType = .pubkeyhash then
              let vchPubKey := vSolutions.headD []
              if !isValidPubKey vchPubKey then false
              else if block.vchBlockSig.isEmpty then false
              else c.verify vchPubKey (c.blockHash block.toCBlockHeader) block.vchBlockSig
            else false

end CBlock

/-- The script of a public key. -/
theorem matchPubKey_iff {s : CScript} {vch : Valtype} :
    s.matchPubKey = some vch ↔ Shape s .pubkey [vch] := by
  constructor
  · intro h
    rw [CScript.matchPubKey] at h
    split at h
    · next opcode vch' rest hget =>
      split at h
      · cases h
      · next hsize =>
        split at h
        · next hrest =>
          cases h
          rw [Bool.or_eq_true, decide_eq_true_eq, decide_eq_true_eq, not_or] at hsize
          refine ⟨_, .cons hget (.cons ?_ (.refl [])), .pubkey ⟨by omega, by omega⟩⟩
          rw [hrest]
          rfl
        · cases h
    · cases h
  · rintro ⟨ops, hreads, htemplate⟩
    generalize hr : [vch] = r at htemplate
    cases htemplate with
    | pubkey hsize =>
      cases hr
      obtain ⟨s₁, h₁, hreads⟩ := Reads_cons hreads
      obtain ⟨s₂, h₂, hreads⟩ := Reads_cons hreads
      obtain rfl := Reads_nil hreads
      have hrest := eq_cons_of_getOp (by decide) h₂
      have := hsize.1
      have := hsize.2
      rw [CScript.matchPubKey, h₁]
      dsimp only
      rw [if_neg (by simp; omega), if_pos hrest]

theorem matchPubKeyHash_cons (s : CScript) :
    CScript.matchPubKeyHash (0x76 :: 0xa9 :: s) =
      match CScript.getOp s with
      | some (_, vch, s₂) => if vch.length ≠ 20 then none
          else if s₂ = [0x88, 0xac] then some vch else none
      | none => none := rfl

/-- The script of the hash of a public key. -/
theorem matchPubKeyHash_iff {s : CScript} {vch : Valtype} :
    s.matchPubKeyHash = some vch ↔ Shape s .pubkeyhash [vch] := by
  constructor
  · intro h
    unfold CScript.matchPubKeyHash at h
    split at h
    · split at h
      · next opcode vch' rest hget =>
        split at h
        · cases h
        · next hsize =>
          split at h
          · next hrest =>
            cases h
            refine ⟨_, .cons (getOp_of_gt (by decide) _) (.cons (getOp_of_gt (by decide) _)
              (.cons hget ?_)), .pubkeyhash (not_not.1 hsize)⟩
            rw [hrest]
            exact .cons (getOp_of_gt (by decide) _) (.cons (getOp_of_gt (by decide) _) (.refl []))
          · cases h
      · cases h
    · cases h
  · rintro ⟨ops, hreads, htemplate⟩
    generalize hr : [vch] = r at htemplate
    cases htemplate with
    | pubkeyhash hsize =>
      cases hr
      obtain ⟨s₁, h₁, hreads⟩ := Reads_cons hreads
      obtain ⟨s₂, h₂, hreads⟩ := Reads_cons hreads
      obtain ⟨s₃, h₃, hreads⟩ := Reads_cons hreads
      obtain ⟨s₄, h₄, hreads⟩ := Reads_cons hreads
      obtain ⟨s₅, h₅, hreads⟩ := Reads_cons hreads
      obtain rfl := Reads_nil hreads
      rw [eq_cons_of_getOp (by decide) h₁, eq_cons_of_getOp (by decide) h₂]
      rw [matchPubKeyHash_cons, h₃]
      dsimp only
      rw [if_neg (by simpa using hsize), if_pos]
      rw [eq_cons_of_getOp (by decide) h₄, eq_cons_of_getOp (by decide) h₅]

theorem shape_pubkey_eq {s : CScript} {r : List Valtype} (h : Shape s .pubkey r) :
    ∃ vch, r = [vch] ∧ KeySize vch := by
  obtain ⟨ops, -, htemplate⟩ := h
  cases htemplate with
  | pubkey hsize => exact ⟨_, rfl, hsize⟩

theorem shape_pubkeyhash_eq {s : CScript} {r : List Valtype} (h : Shape s .pubkeyhash r) :
    ∃ vch, r = [vch] ∧ vch.length = 20 := by
  obtain ⟨ops, -, htemplate⟩ := h
  cases htemplate with
  | pubkeyhash hsize => exact ⟨_, rfl, hsize⟩

/-- The key of the checker, by the solution of `Solver`. -/
theorem matchKey_eq (s : CScript) : (s.matchPubKey <|> s.matchPubKeyHash) =
    match solverRet s [] with
    | (false, _, _) => none
    | (true, whichType, vSolutions) =>
        if whichType = .pubkey ∨ whichType = .pubkeyhash then some (vSolutions.headD []) else none := by
  cases hkey : s.matchPubKey with
  | some vch =>
    rw [solverRet_true.2 (solver_iff.2 (matchPubKey_iff.1 hkey))]
    rfl
  | none =>
    cases hhash : s.matchPubKeyHash with
    | some vch =>
      rw [solverRet_true.2 (solver_iff.2 (matchPubKeyHash_iff.1 hhash))]
      rfl
    | none =>
      rcases hret : solverRet s [] with ⟨b, t, r⟩
      cases b with
      | false => rfl
      | true =>
        have hshape := solver_iff.1 (solverRet_true.1 hret)
        dsimp only
        rw [if_neg]
        · rfl
        · rintro (rfl | rfl)
          · obtain ⟨vch, rfl, -⟩ := shape_pubkey_eq hshape
            rw [matchPubKey_iff.2 hshape] at hkey
            cases hkey
          · obtain ⟨vch, rfl, -⟩ := shape_pubkeyhash_eq hshape
            rw [matchPubKeyHash_iff.2 hshape] at hhash
            cases hhash

/-- The checker is the one that blocks are accepted with. -/
theorem checkSignature_eq (c : Crypto) (block : CBlock) :
    block.checkSignature c = checkBlockSignature c block := by
  rw [CBlock.checkSignature, checkBlockSignature]
  split
  · rfl
  · rcases hvtx : block.vtx with _ | ⟨tx₀, _ | ⟨tx, vtx⟩⟩
    · simp [CBlock.stakeOut, hvtx]
    · simp [CBlock.stakeOut, hvtx]
    · rcases hvout : tx.vout with _ | ⟨o, _ | ⟨txout, vout⟩⟩
      · simp [CBlock.stakeOut, hvtx, hvout]
      · simp [CBlock.stakeOut, hvtx, hvout]
      · simp only [CBlock.stakeOut, hvtx, hvout, List.getElem?_cons_succ,
          List.getElem?_cons_zero, matchKey_eq]
        rcases solverRet txout.scriptPubKey [] with ⟨b, t, r⟩
        cases b with
        | false => rfl
        | true =>
          dsimp only
          split
          · dsimp only
            generalize isValidPubKey (r.headD []) = valid
            generalize block.vchBlockSig.isEmpty = empty
            cases valid <;> cases empty <;> simp
          · rfl

/-! ## Signed blocks -/

namespace CBlock

variable {C : CryptoEnv} {blockHash : CBlockHeader → UInt256} {keystore : CKeyStore C}

theorem signWith_true {block block' : CBlock} {keyID : Valtype}
    (h : signWith blockHash keystore block keyID = (true, block')) :
    ∃ key, keystore.getKey keyID = some key ∧
      block' = { block with vchBlockSig := C.sign key (blockHash block.toCBlockHeader) } := by
  unfold signWith at h
  cases hget : keystore.getKey keyID with
  | none => simp [hget] at h
  | some key =>
    rw [hget] at h
    exact ⟨key, rfl, (Prod.mk.inj h).2.symm⟩

/-- The solution of a public key does not depend on what was collected before the call. -/
theorem shape_of_solverRet {s : CScript} {vSolutions r : List Valtype}
    (h : solverRet s vSolutions = (true, .pubkey, r)) : Shape s .pubkey r := by
  rw [← solver_iff, ← solverRet_true]
  rw [solverRet] at h ⊢
  split at h
  · cases h
  next hp2sh =>
  rw [if_neg hp2sh]
  split at h
  · cases h
  next hret =>
  rw [if_neg hret]
  exact h

/-- A public key is no hash: the loop over the outputs of the coinbase never signs. -/
theorem signOutputs_ne_true (block block' : CBlock) (vout : List CTxOut) :
    ∀ vSolutions, signOutputs blockHash keystore block vout vSolutions ≠ .ok (true, block') := by
  induction vout with
  | nil => exact fun _ h => by cases h
  | cons txout vout ih =>
    intro vSolutions h
    rw [signOutputs] at h
    rcases hret : solverRet txout.scriptPubKey vSolutions with ⟨b, t, r⟩
    rw [hret] at h
    cases b with
    | false => exact ih r h
    | true =>
      dsimp only at h
      split at h
      · next ht =>
        subst ht
        obtain ⟨vch, rfl, hsize⟩ := shape_pubkey_eq (shape_of_solverRet hret)
        have hlen : ¬ vch.length = 20 := by
          have := hsize.1
          omega
        rw [uint160OfBytes, List.headD_cons, if_neg hlen] at h
        cases h
      · exact ih r h

/-- The key the keystore has for the output of a coinstake is the one the output pays to: no other
key has the same hash. -/
def KeyMatches (keystore : CKeyStore C) (block : CBlock) : Prop :=
  ∀ txout vch key, block.stakeOut = some txout → Shape txout.scriptPubKey .pubkey [vch] →
    keystore.mapKeys (C.getID vch) = some key → C.pubKey key = vch

/-- The keystore has the key of a coinstake that pays to the hash of a public key. -/
def StakesKeyHash (keystore : CKeyStore C) (block : CBlock) : Prop :=
  block.isProofOfStake = true ∧ ∃ txout vch, block.stakeOut = some txout ∧
    Shape txout.scriptPubKey .pubkeyhash [vch] ∧ (keystore.getKey vch).isSome = true

theorem isValidPubKey_of_encoding {vch : Valtype}
    (h : isCompressedOrUncompressedPubKey vch = true) : isValidPubKey vch = true := by
  unfold isCompressedOrUncompressedPubKey at h
  split at h
  · cases h
  · cases vch with
    | nil => simp at h
    | cons b vch =>
      simp only [List.head?_cons, Option.some.injEq] at h
      rw [isValidPubKey]
      split at h
      · next hb =>
        rw [hb, if_neg (by decide), if_pos (by decide)]
        exact h
      · split at h
        · next hb =>
          rw [if_pos hb]
          exact h
        · cases h

/-- What a signed block has: the key of its coinstake's output, unless the output pays to a hash. -/
theorem signBlock_true {block block' : CBlock}
    (h : signBlock blockHash keystore block = .ok (true, block')) :
    block.isProofOfStake = true ∧ ∃ txout vch key, block.stakeOut = some txout ∧
      block' = { block with vchBlockSig := C.sign key (blockHash block.toCBlockHeader) } ∧
      ((Shape txout.scriptPubKey .pubkeyhash [vch] ∧ keystore.getKey vch = some key) ∨
        (Shape txout.scriptPubKey .pubkey [vch] ∧ keystore.getKey (C.getID vch) = some key)) := by
  rw [signBlock] at h
  split at h
  · split at h
    · cases h
    · exact absurd h (signOutputs_ne_true _ _ _ _)
  · next hstake =>
    refine ⟨by simpa using hstake, ?_⟩
    cases hout : block.stakeOut with
    | none => simp [hout] at h
    | some txout =>
      rw [hout] at h
      dsimp only at h
      rcases hret : solverRet txout.scriptPubKey [] with ⟨b, t, r⟩
      rw [hret] at h
      cases b with
      | false => cases h
      | true =>
        have hshape := solver_iff.1 (solverRet_true.1 hret)
        dsimp only at h
        split at h
        · next ht =>
          subst ht
          obtain ⟨vch, rfl, hlen⟩ := shape_pubkeyhash_eq hshape
          rw [uint160OfBytes, List.headD_cons, if_pos hlen] at h
          obtain ⟨key, hget, hblock⟩ := signWith_true (Except.ok.inj h)
          exact ⟨txout, vch, key, rfl, hblock, .inl ⟨hshape, hget⟩⟩
        · split at h
          · next ht =>
            subst ht
            obtain ⟨vch, rfl, -⟩ := shape_pubkey_eq hshape
            obtain ⟨key, hget, hblock⟩ := signWith_true (Except.ok.inj h)
            exact ⟨txout, vch, key, rfl, hblock, .inr ⟨hshape, hget⟩⟩
          · cases h

/-- What the checker does with the signature of a coinstake's output. -/
theorem checkSignature_stake {c : Crypto} {block : CBlock} {sig : Valtype} {txout : CTxOut}
    {t : TxnOutType} {vch : Valtype} (hstake : block.isProofOfStake = true)
    (hout : block.stakeOut = some txout) (hshape : Shape txout.scriptPubKey t [vch])
    (ht : t = .pubkey ∨ t = .pubkeyhash) :
    checkSignature c { block with vchBlockSig := sig } =
      if !isValidPubKey vch then false
      else if sig.isEmpty then false
      else c.verify vch (c.blockHash block.toCBlockHeader) sig := by
  have hwork : isProofOfWork { block with vchBlockSig := sig } = false := by
    show (!block.isProofOfStake) = false
    rw [hstake]
    rfl
  have hout' : stakeOut { block with vchBlockSig := sig } = some txout := hout
  rw [checkSignature, hwork, hout', if_neg Bool.false_ne_true]
  dsimp only
  rw [solverRet_true.2 (solver_iff.2 hshape)]
  exact if_pos ht

/-- **Signed blocks.**  A block that `SignBlock` signs passes `CheckBlockSignature`, unless it is a
proof-of-stake block whose output pays to the hash of a public key and the keystore has that key:
the checker takes the hash for the key.  A proof-of-work block is never signed. -/
theorem signBlock_checked_iff (hC : C.Sound) {c : Crypto} (hverify : c.verify = C.verify)
    {block : CBlock} (hkey : KeyMatches keystore block) :
    (∀ block', signBlock c.blockHash keystore block = .ok (true, block') →
      block'.checkSignature c = true) ↔ ¬ StakesKeyHash keystore block := by
  constructor
  · rintro h ⟨hstake, txout, vch, hout, hshape, hhave⟩
    obtain ⟨key, hget⟩ := Option.isSome_iff_exists.1 hhave
    obtain ⟨vch', heq, hlen⟩ := shape_pubkeyhash_eq hshape
    obtain rfl : vch = vch' := by simpa using heq
    have hsign : signBlock c.blockHash keystore block =
        .ok (true, { block with vchBlockSig := C.sign key (c.blockHash block.toCBlockHeader) }) := by
      rw [signBlock, hstake, hout]
      dsimp only
      rw [solverRet_true.2 (solver_iff.2 hshape)]
      dsimp only
      rw [uint160OfBytes, List.headD_cons, if_pos hlen]
      dsimp only
      rw [signWith, hget]
      rfl
    have hcheck := h _ hsign
    have hinvalid : isValidPubKey vch = false := by
      rw [Bool.eq_false_iff]
      intro hvalid
      have := (KeySize.of_isValidPubKey hvalid).1
      omega
    rw [checkSignature_stake hstake hout hshape (.inr rfl), hinvalid] at hcheck
    cases hcheck
  · intro hhash block' h
    obtain ⟨hstake, txout, vch, key, hout, rfl, ⟨hshape, hget⟩ | ⟨hshape, hget⟩⟩ := signBlock_true h
    · exact absurd ⟨hstake, txout, vch, hout, hshape, by rw [hget]; rfl⟩ hhash
    · have hpub : C.pubKey key = vch := by
        refine hkey txout vch key hout hshape ?_
        rw [CKeyStore.getKey] at hget
        split at hget
        · cases hget
        · exact hget
      have hsig : (C.sign key (c.blockHash block.toCBlockHeader)).isEmpty = false := by
        have := hC.sign_encoding key (c.blockHash block.toCBlockHeader)
        cases hnil : C.sign key (c.blockHash block.toCBlockHeader) with
        | nil =>
          rw [hnil] at this
          exact absurd this (by decide)
        | cons b bs => rfl
      rw [checkSignature_stake hstake hout hshape (.inl rfl), ← hpub,
        isValidPubKey_of_encoding (hC.pubKey_encoding key), hsig, hverify, hC.verify_sign]
      rfl

end CBlock

/-! ## A block that fails its own check -/

/-- A single key. -/
def oneKey : CryptoEnv where
  Key := Unit
  pubKey _ := 2 :: List.replicate 32 1
  sign _ _ := [0x30, 6, 2, 1, 1, 2, 1, 1]
  verify _ _ _ := true
  ripemd160 vch := UInt8.ofNat vch.length :: List.replicate 19 0
  sha1 vch := vch
  sha256 vch := vch
  hashBytes _ := 0
  getHash _ := 0

theorem oneKey_sound : oneKey.Sound where
  pubKey_encoding _ := by
    show isCompressedOrUncompressedPubKey (2 :: List.replicate 32 1) = true
    decide
  sign_encoding _ _ := by
    show isValidSignatureEncoding ([0x30, 6, 2, 1, 1, 2, 1, 1] ++ [1]) = true
    decide
  verify_sign _ _ := rfl
  sign_ne_hash160 _ _ := by
    show [0x30, 6, 2, 1, 1, 2, 1, 1] ++ [1] ≠ (33 :: List.replicate 19 0 : Valtype)
    decide

/-- The identifier of that key. -/
def oneKeyID : Valtype := 33 :: List.replicate 19 0

/-- Its keystore. -/
def oneKeyStore : CKeyStore oneKey where
  mapKeys id := if id = oneKeyID then some () else none
  mapScripts _ := none
  setWatchOnly _ := false
  locked := false
  mapKeys_id id _ h := by
    split at h
    · next hid => exact hid
    · cases h
  mapScripts_id _ _ h := nomatch h

/-- Blocks are told apart by their nonce, and any signature verifies. -/
def oneKeyCrypto : Crypto where
  blockHash header := BitVec.ofNat 256 header.nNonce
  merkleHash a b := a + b
  verify _ _ _ := true

/-- A proof-of-stake block whose coinstake pays to a script. -/
def stakeTo (scriptPubKey : CScript) : CBlock where
  nVersion := 4
  hashPrevBlock := 0
  hashMerkleRoot := 0
  nTime := 0
  nBits := 0
  nNonce := 0
  vtx :=
    [{ hash := 1, vin := [], vout := [] },
      { hash := 2
        vin := [{ prevout := ⟨7, 0⟩ }]
        vout := [{ nValue := 0, scriptPubKey := [] }, { nValue := 1, scriptPubKey }] }]

/-- A block that pays to the public key is signed and passes the check. -/
theorem signBlock_checked_pubkey : ∃ block', CBlock.signBlock oneKeyCrypto.blockHash oneKeyStore
      (stakeTo (33 :: oneKey.pubKey () ++ [0xac])) = .ok (true, block') ∧
    block'.checkSignature oneKeyCrypto = true := by
  have hsigned : CBlock.signBlock oneKeyCrypto.blockHash oneKeyStore
      (stakeTo (33 :: oneKey.pubKey () ++ [0xac])) =
      .ok (true, { stakeTo (33 :: oneKey.pubKey () ++ [0xac]) with
        vchBlockSig := [0x30, 6, 2, 1, 1, 2, 1, 1] }) := by
    decide
  have hshape : Shape (33 :: oneKey.pubKey () ++ [0xac]) .pubkey [oneKey.pubKey ()] :=
    solver_iff.1 (by decide)
  have hout : (stakeTo (33 :: oneKey.pubKey () ++ [0xac])).stakeOut =
    some { nValue := 1, scriptPubKey := 33 :: oneKey.pubKey () ++ [0xac] } := rfl
  refine ⟨_, hsigned, (CBlock.signBlock_checked_iff oneKey_sound rfl ?_).2 ?_ _ hsigned⟩
  · intro txout vch key htxout hpub _
    cases hout.symm.trans htxout
    exact (List.cons.inj (hshape.unique hpub).2).1
  · rintro ⟨-, txout, vch, htxout, hhash, -⟩
    cases hout.symm.trans htxout
    exact absurd (hshape.unique hhash).1 (by decide)

/-- A block that pays to the hash of the public key is signed and fails the check. -/
theorem signBlock_fails_pubkeyhash : ¬ ∀ block', CBlock.signBlock oneKeyCrypto.blockHash oneKeyStore
      (stakeTo ([0x76, 0xa9, 0x14] ++ oneKeyID ++ [0x88, 0xac])) = .ok (true, block') →
    block'.checkSignature oneKeyCrypto = true := by
  intro h
  have hsigned : CBlock.signBlock oneKeyCrypto.blockHash oneKeyStore
      (stakeTo ([0x76, 0xa9, 0x14] ++ oneKeyID ++ [0x88, 0xac])) =
      .ok (true, { stakeTo ([0x76, 0xa9, 0x14] ++ oneKeyID ++ [0x88, 0xac]) with
        vchBlockSig := [0x30, 6, 2, 1, 1, 2, 1, 1] }) := by
    decide
  exact absurd (h _ hsigned) (by decide)

end FairCoin
