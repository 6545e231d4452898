import FairCoin.BlockSigning
import FairCoin.ScriptRuns

/-!
# What is spendable can be signed

`IsMine` and `SignSignature` side by side: two analyses of the same scripts over the same keystore.

* `sigHash_setScriptSig` — what is signed does not depend on the scripts of the inputs.
* `Owned` — a script whose keys the keystore has; `isMine_spendable` — the scripts called spendable.
* `Solution`, `exists_solution` — the pushes that solve an owned script, and their run.
* `CKeyStore.Redeems`, `isMine_terminates_iff` — the recursion through redeem scripts.
* `spendable_signs_iff` — **when a script that is called spendable can be signed**.
-/

namespace FairCoin

open Codec

/-! ## What is signed -/

section SigHash

theorem prevout_congr {tx tx' : CTransaction} (f : COutPoint × ℕ → Bytes) {j : ℕ}
    (h : (tx.vin[j]?).map (fun txin : CTxIn => (txin.prevout, txin.nSequence)) =
      (tx'.vin[j]?).map fun txin : CTxIn => (txin.prevout, txin.nSequence)) :
    (match tx.vin[j]? with | none => [] | some txin => f (txin.prevout, txin.nSequence)) =
      match tx'.vin[j]? with | none => [] | some txin => f (txin.prevout, txin.nSequence) := by
  cases hj : tx.vin[j]? with
  | none =>
    rw [hj] at h
    rw [Option.map_eq_none_iff.1 h.symm]
  | some txin =>
    rw [hj] at h
    obtain ⟨txin', hj', heq⟩ := Option.map_eq_some_iff.1 h.symm
    rw [hj']
    exact congrArg f heq.symm

/-- An input is serialized without its script. -/
theorem serializeInput_congr {tx tx' : CTransaction} (scriptCode : CScript) (nIn : ℕ)
    (fAnyoneCanPay fHashSingle fHashNone : Bool)
    (hvin : ∀ i : ℕ, (tx.vin[i]?).map (fun txin : CTxIn => (txin.prevout, txin.nSequence)) =
      (tx'.vin[i]?).map fun txin : CTxIn => (txin.prevout, txin.nSequence)) (nInput : ℕ) :
    (CTransactionSignatureSerializer.mk tx scriptCode nIn fAnyoneCanPay fHashSingle
        fHashNone).serializeInput nInput =
      (CTransactionSignatureSerializer.mk tx' scriptCode nIn fAnyoneCanPay fHashSingle
        fHashNone).serializeInput nInput := by
  exact prevout_congr (fun x => outPointFormat.put x.1 ++
    ((if (if fAnyoneCanPay then nIn else nInput) ≠ nIn then bytesFormat.put []
        else serializeScriptCode scriptCode) ++
      if (if fAnyoneCanPay then nIn else nInput) ≠ nIn ∧ (fHashSingle || fHashNone) then int32.put 0
      else (uint 4).put x.2)) (hvin (if fAnyoneCanPay then nIn else nInput))

variable (C : CryptoEnv)

/-- **The scripts of the inputs are not signed.** -/
theorem sigHash_setScriptSig (scriptCode : CScript) (txTo : CMutableTransaction) (nIn n : ℕ)
    (scriptSig : CScript) (nHashType : BitVec 32) :
    C.sigHash scriptCode (txTo.setScriptSig n scriptSig) nIn nHashType =
      C.sigHash scriptCode txTo nIn nHashType := by
  have hlen : (txTo.setScriptSig n scriptSig).vin.length = txTo.vin.length := List.length_modify ..
  have hvin : ∀ i : ℕ, ((txTo.setScriptSig n scriptSig).vin[i]?).map
      (fun txin : CTxIn => (txin.prevout, txin.nSequence)) =
        (txTo.vin[i]?).map fun txin : CTxIn => (txin.prevout, txin.nSequence) := by
    intro i
    simp only [CMutableTransaction.setScriptSig, List.getElem?_modify]
    cases txTo.vin[i]? with
    | none => rfl
    | some txin => by_cases hn : n = i <;> simp [hn]
  simp only [CryptoEnv.sigHash, signatureHash, CTransactionSignatureSerializer.serialize,
    CTransactionSignatureSerializer.ofHashType]
  rw [List.flatMap_congr fun i _ => @serializeInput_congr _
    (txTo.toTransaction (C.getHash txTo)) scriptCode nIn _ _ _ hvin i]
  simp only [CMutableTransaction.toTransaction, hlen]
  rfl

/-- The hash types the signer and the interpreter use. -/
theorem checkSig_sign {C : CryptoEnv} (hC : C.Sound) {scriptCode : CScript}
    {txTo tx : CMutableTransaction} {nIn : ℕ}
    (hsame : C.sigHash scriptCode tx nIn sighashAll = C.sigHash scriptCode txTo nIn sighashAll)
    (key : C.Key) :
    C.checkSig tx nIn (C.sign key (C.sigHash scriptCode txTo nIn sighashAll) ++ [1]) (C.pubKey key)
      scriptCode = true := by
  have hvalid := CBlock.isValidPubKey_of_encoding (hC.pubKey_encoding key)
  have hlast : (C.sign key (C.sigHash scriptCode txTo nIn sighashAll) ++ [1]).getLast? = some 1 := by
    simp
  rw [CryptoEnv.checkSig, hvalid, hlast]
  simp only [Bool.not_true, Bool.false_eq_true, if_false, List.dropLast_concat]
  have hhash : signatureHash C.hashBytes scriptCode (tx.toTransaction (C.getHash tx)) nIn
      (BitVec.ofNat 32 (1 : UInt8).toNat) = C.sigHash scriptCode txTo nIn sighashAll := hsame
  rw [hhash, hC.verify_sign]

end SigHash

/-! ## Signatures and keys of the keystore -/

section Keys

variable {C : CryptoEnv} (hC : C.Sound)
include hC

theorem sign_facts (key : C.Key) (hash : UInt256) :
    9 ≤ (C.sign key hash ++ [1]).length ∧ (C.sign key hash ++ [1]).length ≤ 73 ∧
      (C.sign key hash ++ [1]).head? = some 0x30 := by
  have h := hC.sign_encoding key hash
  simp only [isValidSignatureEncoding, Bool.and_eq_true, decide_eq_true_eq, beq_iff_eq] at h
  obtain ⟨⟨⟨⟨⟨⟨⟨⟨⟨⟨⟨⟨⟨h9, h73⟩, h0⟩, -⟩, -⟩, -⟩, -⟩, -⟩, -⟩, -⟩, -⟩, -⟩, -⟩, -⟩ := h
  refine ⟨h9, h73, ?_⟩
  generalize C.sign key hash ++ [1] = sig at h9 h0
  cases sig with
  | nil => exact absurd h9 (by decide)
  | cons b sig => exact congrArg some h0

theorem pubKey_facts (key : C.Key) : KeySize (C.pubKey key) ∧
    (C.pubKey key).head? ≠ some 0x30 := by
  refine ⟨KeySize.of_isValidPubKey (CBlock.isValidPubKey_of_encoding (hC.pubKey_encoding key)), ?_⟩
  intro hhead
  have h := hC.pubKey_encoding key
  unfold isCompressedOrUncompressedPubKey at h
  rw [hhead] at h
  simp at h

theorem checkEncodings_sign (key key' : C.Key) (hash : UInt256) :
    checkEncodings standardScriptVerifyFlags (C.sign key hash ++ [1]) (C.pubKey key') = .ok () := by
  have hne : C.sign key hash ++ [1] ≠ [] := by simp
  have htype : isDefinedHashtypeSignature (C.sign key hash ++ [1]) = true := by
    rw [isDefinedHashtypeSignature, List.getLast?_concat]
    decide
  have hsig : checkSignatureEncoding standardScriptVerifyFlags (C.sign key hash ++ [1]) = .ok () := by
    rw [checkSignatureEncoding, if_neg hne, hC.sign_encoding, htype]
    rfl
  have hkey : checkPubKeyEncoding standardScriptVerifyFlags (C.pubKey key') = .ok () := by
    rw [checkPubKeyEncoding, hC.pubKey_encoding]
    rfl
  rw [checkEncodings, hsig]
  exact hkey

/-- A signature is accepted for its key by a script that does not push it. -/
theorem accepts_sign {s : CScript} {ops : List (UInt8 × Valtype)} {txTo tx : CMutableTransaction}
    {nIn : ℕ} (hreads : s.Reads ops [])
    (hsame : C.sigHash s tx nIn sighashAll = C.sigHash s txTo nIn sighashAll) (key : C.Key)
    (hne : ∀ op ∈ ops, op.2 ≠ C.sign key (C.sigHash s txTo nIn sighashAll) ++ [1]) :
    Accepts (C.checker tx nIn) standardScriptVerifyFlags s
      (C.sign key (C.sigHash s txTo nIn sighashAll) ++ [1]) (C.pubKey key) where
  encodings := checkEncodings_sign hC key key _
  kept := findAndDelete_eq_self hreads ((sign_facts hC key _).2.1.trans (by decide)) hne
  checked := checkSig_sign hC hsame key

theorem pushable_sign (key : C.Key) (hash : UInt256) : Pushable (C.sign key hash ++ [1]) := by
  obtain ⟨h9, h73, -⟩ := sign_facts hC key hash
  exact ⟨h73.trans (by decide), by omega⟩

theorem pushable_pubKey (key : C.Key) : Pushable (C.pubKey key) := by
  obtain ⟨⟨hlo, hhi⟩, -⟩ := pubKey_facts hC key
  exact ⟨hhi.trans (by decide), by omega⟩

theorem pubKey_ne_sign (key key' : C.Key) (hash : UInt256) :
    C.pubKey key ≠ C.sign key' hash ++ [1] := by
  intro h
  exact (pubKey_facts hC key).2 (h ▸ (sign_facts hC key' hash).2.2)

end Keys

/-! ## Solutions -/

namespace CKeyStore

variable {C : CryptoEnv} (keystore : CKeyStore C)

/-- The keystore has the key with this public key. -/
def HasKey (vch : Valtype) : Prop :=
  ∃ key, keystore.mapKeys (C.getID vch) = some key ∧ vch = C.pubKey key

/-- The keystore has the keys of the script: its public key, the key of its hash, or all of its
public keys. -/
inductive Owned : TxnOutType → List Valtype → Prop
  | pubkey {vch : Valtype} (h : keystore.HasKey vch) : Owned .pubkey [vch]
  | pubkeyhash {hash : Valtype} (h : keystore.haveKey hash = true) : Owned .pubkeyhash [hash]
  | multisig {m n : Valtype} {keys : List Valtype} (h : ∀ vch ∈ keys, keystore.HasKey vch) :
      Owned .multisig (m :: (keys ++ [n]))

variable {keystore}

theorem sign1_eq (hunlocked : keystore.locked = false) {id : Valtype} {key : C.Key}
    (h : keystore.mapKeys id = some key) (hash : UInt256) (scriptSig : CScript) :
    keystore.sign1 id hash sighashAll scriptSig =
      some (scriptSig ++ CScript.pushData (C.sign key hash ++ [1])) := by
  rw [sign1, getKey, hunlocked, if_neg Bool.false_ne_true, h]
  rfl

/-- **`SignN` with all keys.**  It signs with the first ones. -/
theorem signLoop_eq (hunlocked : keystore.locked = false)
    {fits : Valtype → Valtype → Bool} {hash : UInt256}
    (hfits : ∀ key, fits (C.sign key hash ++ [1]) (C.pubKey key) = true) (nRequired : ℕ) :
    ∀ (keys : List Valtype) (nSigned : ℕ) (scriptSig : CScript), nSigned ≤ nRequired →
      (∀ vch ∈ keys, keystore.HasKey vch) →
      ∃ sigs : List Valtype, sigs.length = min (nRequired - nSigned) keys.length ∧
        Matches fits sigs keys ∧ (∀ sig ∈ sigs, ∃ key, sig = C.sign key hash ++ [1]) ∧
        keystore.signLoop hash sighashAll nRequired keys nSigned scriptSig =
          (nSigned + sigs.length, scriptSig ++ sigs.flatMap CScript.pushData)
  | [], nSigned, scriptSig, _, _ => by
      refine ⟨[], by simp, .nil _, by simp, ?_⟩
      simp [signLoop]
  | vch :: keys, nSigned, scriptSig, hle, howned => by
      by_cases hmore : nSigned < nRequired
      · obtain ⟨key, hkey, rfl⟩ := howned vch List.mem_cons_self
        obtain ⟨sigs, hlen, hmatch, hsigs, hrun⟩ := signLoop_eq hunlocked hfits nRequired
          keys (nSigned + 1) (scriptSig ++ CScript.pushData (C.sign key hash ++ [1])) hmore
          fun v hv => howned v (List.mem_cons_of_mem _ hv)
        refine ⟨(C.sign key hash ++ [1]) :: sigs, ?_, .fit (hfits key) hmatch, ?_, ?_⟩
        · rw [List.length_cons, List.length_cons, hlen]
          omega
        · intro sig hsig
          rcases List.mem_cons.1 hsig with rfl | hsig
          · exact ⟨key, rfl⟩
          · exact hsigs sig hsig
        · rw [signLoop, if_pos hmore, sign1_eq hunlocked hkey]
          dsimp only
          rw [hrun, List.length_cons, List.flatMap_cons, List.append_assoc, Nat.add_assoc,
            Nat.add_comm 1]
      · refine ⟨[], ?_, .nil _, by simp, ?_⟩
        · rw [List.length_nil]
          omega
        · rw [signLoop, if_neg hmore]
          simp

end CKeyStore

/-- What solves a script: vectors to push, with which it runs to true if its pushes are minimal. -/
structure Solution {C : CryptoEnv} (keystore : CKeyStore C) (s : CScript) (t : TxnOutType)
    (txTo tx : CMutableTransaction) (nIn : ℕ) (vs : List Valtype) : Prop where
  solved : keystore.solverSign s (C.sigHash s txTo nIn sighashAll) sighashAll =
    (true, vs.flatMap CScript.pushData, t)
  pushable : ∀ v ∈ vs, Pushable v
  length_le : vs.length ≤ 17
  runs : MinimalPushes s → ∃ n, Evals (C.checker tx nIn) standardScriptVerifyFlags s
    (running vs.reverse 0 s) (running [[1]] n s)

section Solutions

variable {C : CryptoEnv} {keystore : CKeyStore C} {s : CScript}
  {txTo tx : CMutableTransaction} {nIn : ℕ}

theorem solution_pubkey (hC : C.Sound) (hunlocked : keystore.locked = false)
    {opcode : UInt8} {vch : Valtype} (hreads : s.Reads [(opcode, vch), (0xac, [])] [])
    (hsize : KeySize vch) (h : keystore.HasKey vch)
    (hsame : C.sigHash s tx nIn sighashAll = C.sigHash s txTo nIn sighashAll) :
    ∃ vs, Solution keystore s .pubkey txTo tx nIn vs := by
  obtain ⟨key, hkey, rfl⟩ := h
  have hsolver := solver_iff.2 ⟨_, hreads, .pubkey hsize⟩
  refine ⟨[C.sign key (C.sigHash s txTo nIn sighashAll) ++ [1]], ?_, ?_, by simp, fun hmin => ?_⟩
  · rw [CKeyStore.solverSign, hsolver]
    dsimp only
    rw [List.headD_cons, CKeyStore.sign1_eq hunlocked hkey]
    simp
  · intro v hv
    rw [List.mem_singleton.1 hv]
    exact pushable_sign hC key _
  · have hne : C.pubKey key ≠ [] := by
      intro hnil
      rw [hnil] at hsize
      exact absurd hsize.1 (by decide)
    obtain ⟨s₁, hget, -⟩ := Reads_cons hreads
    refine ⟨1, evals_pubkey hreads hsize (hmin _ hreads _ List.mem_cons_self (le_of_pushes hget hne))
      (accepts_sign hC hreads hsame key ?_)⟩
    intro op hop
    rcases List.mem_cons.1 hop with rfl | hop
    · exact pubKey_ne_sign hC key key _
    · rw [List.mem_singleton.1 hop]
      simp

theorem solution_pubkeyhash (hC : C.Sound) (hunlocked : keystore.locked = false) {opcode : UInt8}
    {hash : Valtype}
    (hreads : s.Reads [(0x76, []), (0xa9, []), (opcode, hash), (0x88, []), (0xac, [])] [])
    (hsize : hash.length = 20) (h : keystore.haveKey hash = true)
    (hsame : C.sigHash s tx nIn sighashAll = C.sigHash s txTo nIn sighashAll) :
    ∃ vs, Solution keystore s .pubkeyhash txTo tx nIn vs := by
  obtain ⟨key, hkey⟩ := Option.isSome_iff_exists.1 h
  have hid := keystore.mapKeys_id _ _ hkey
  have hsolver := solver_iff.2 ⟨_, hreads, .pubkeyhash hsize⟩
  refine ⟨[C.sign key (C.sigHash s txTo nIn sighashAll) ++ [1], C.pubKey key], ?_, ?_, by simp,
    fun hmin => ?_⟩
  · rw [CKeyStore.solverSign, hsolver]
    dsimp only
    rw [List.headD_cons, CKeyStore.sign1_eq hunlocked hkey]
    simp [CKeyStore.getPubKey, hkey]
  · intro v hv
    rcases List.mem_cons.1 hv with rfl | hv
    · exact pushable_sign hC key _
    · rw [List.mem_singleton.1 hv]
      exact pushable_pubKey hC key
  · have hne : hash ≠ [] := by
      intro hnil
      rw [hnil] at hsize
      exact absurd hsize (by decide)
    obtain ⟨s₁, -, hreads₁⟩ := Reads_cons hreads
    obtain ⟨s₂, -, hreads₂⟩ := Reads_cons hreads₁
    obtain ⟨s₃, hget, -⟩ := Reads_cons hreads₂
    refine ⟨4, evals_pubkeyhash hreads hsize
      (hmin _ hreads (opcode, hash) (by simp) (le_of_pushes hget hne)) hid.symm
      (accepts_sign hC hreads hsame key ?_)⟩
    intro op hop
    simp only [List.mem_cons, List.not_mem_nil, or_false] at hop
    rcases hop with rfl | rfl | rfl | rfl | rfl
    · simp
    · simp
    · intro heq
      exact hC.sign_ne_hash160 key _ (heq.symm.trans hid)
    · simp
    · simp

theorem solution_multisig (hC : C.Sound) (hunlocked : keystore.locked = false) {m n : UInt8} {keys : List (UInt8 × Valtype)}
    (hreads : s.Reads ((m, []) :: (keys ++ [(n, []), (0xae, [])])) [])
    (hsize : ∀ key ∈ keys, KeySize key.2) (hm : 0x51 ≤ m) (hmn : m ≤ n) (hn : n ≤ 0x60)
    (hlen : 0x50 + keys.length = n.toNat)
    (h : ∀ vch ∈ keys.map Prod.snd, keystore.HasKey vch)
    (hsame : C.sigHash s tx nIn sighashAll = C.sigHash s txTo nIn sighashAll) :
    ∃ vs, Solution keystore s .multisig txTo tx nIn vs := by
  have hsolver := solver_iff.2 ⟨_, hreads, .multisig hsize hm hmn hn hlen⟩
  have hnat : n.toNat ≤ 0x60 := UInt8.le_iff_toNat_le.1 hn
  have hmnat : m.toNat ≤ n.toNat := UInt8.le_iff_toNat_le.1 hmn
  have hlow : 0x51 ≤ m.toNat := UInt8.le_iff_toNat_le.1 hm
  have hrequired : (m - 0x50).toNat = m.toNat - 0x50 :=
    UInt8.toNat_sub_of_le _ _ (UInt8.le_trans (by decide) hm)
  obtain ⟨sigs, hcount, hmatch, hsigs, hrun⟩ := @CKeyStore.signLoop_eq C keystore hunlocked
    (fun sig key => C.checkSig tx nIn sig key s) (C.sigHash s txTo nIn sighashAll)
    (fun key => checkSig_sign hC hsame key) (m - 0x50).toNat (keys.map Prod.snd) 0 [0]
    (Nat.zero_le _) h
  rw [hrequired, List.length_map, Nat.sub_zero, min_eq_left (by omega)] at hcount
  refine ⟨[] :: sigs, ?_, ?_, by rw [List.length_cons]; omega, fun hmin => ?_⟩
  · rw [CKeyStore.solverSign, hsolver]
    dsimp only
    have hkeys : (([m - 0x50] :: (keys.map Prod.snd ++ [[n - 0x50]])).drop 1).dropLast =
        keys.map Prod.snd := by
      show (keys.map Prod.snd ++ [[n - 0x50]]).dropLast = _
      rw [List.dropLast_concat]
    rw [CKeyStore.signN, hkeys]
    show (decide ((keystore.signLoop _ _ (m - 0x50).toNat _ 0 [0]).1 = (m - 0x50).toNat),
      (keystore.signLoop _ _ (m - 0x50).toNat _ 0 [0]).2, _) = _
    rw [hrun, hcount, Nat.zero_add, decide_eq_true (by omega)]
    rfl
  · intro v hv
    rcases List.mem_cons.1 hv with rfl | hv
    · exact ⟨by decide, by decide⟩
    · obtain ⟨key, rfl⟩ := hsigs v hv
      exact pushable_sign hC key _
  · have hpushed : ∀ key ∈ keys, checkMinimalPush key.2 key.1 = true := by
      intro key hkey
      obtain ⟨s₁, -, hreads₁⟩ := Reads_cons hreads
      obtain ⟨a, b, rfl⟩ := List.append_of_mem hkey
      rw [List.append_assoc] at hreads₁
      obtain ⟨s₂, -, hreads₂⟩ := Reads_append hreads₁
      obtain ⟨s₃, hget, -⟩ := Reads_cons hreads₂
      have hne : key.2 ≠ [] := by
        intro hnil
        have hk := (hsize key hkey).1
        rw [hnil] at hk
        exact absurd hk (by decide)
      exact hmin _ hreads key (List.mem_cons_of_mem _ (List.mem_append_left _ hkey))
        (le_of_pushes hget hne)
    have howned : ∀ key ∈ keys, ∃ k, key.2 = C.pubKey k := by
      intro key hkey
      obtain ⟨k, -, hk⟩ := h key.2 (List.mem_map_of_mem hkey)
      exact ⟨k, hk⟩
    rw [List.reverse_cons]
    refine ⟨_, evals_multisig hreads hsize hm hmn hn hlen (by omega) hpushed ?_ ?_ hmatch⟩
    · intro sig hsig key hkey
      obtain ⟨k, rfl⟩ := hsigs sig hsig
      obtain ⟨k', hk'⟩ := howned key hkey
      rw [hk']
      exact checkEncodings_sign hC k k' _
    · intro sig hsig
      obtain ⟨k, rfl⟩ := hsigs sig hsig
      refine findAndDelete_eq_self hreads ((sign_facts hC k _).2.1.trans (by decide)) ?_
      intro op hop
      rw [List.mem_cons, List.mem_append, List.mem_cons, List.mem_singleton] at hop
      rcases hop with rfl | hop | rfl | rfl
      · simp
      · obtain ⟨k', hk'⟩ := howned op hop
        rw [hk']
        exact pubKey_ne_sign hC k' k _
      · simp
      · simp

/-- **Every script whose keys are there has a solution**, unless the keystore is locked. -/
theorem exists_solution (hC : C.Sound) (hunlocked : keystore.locked = false) {t : TxnOutType} {r : List Valtype} (hshape : Shape s t r)
    (howned : keystore.Owned t r)
    (hsame : C.sigHash s tx nIn sighashAll = C.sigHash s txTo nIn sighashAll) :
    ∃ vs, Solution keystore s t txTo tx nIn vs := by
  obtain ⟨ops, hreads, htemplate⟩ := hshape
  cases howned with
  | pubkey h =>
    cases htemplate with
    | pubkey hsize => exact solution_pubkey hC hunlocked hreads hsize h hsame
  | pubkeyhash h =>
    cases htemplate with
    | pubkeyhash hsize => exact solution_pubkeyhash hC hunlocked hreads hsize h hsame
  | @multisig m n keys h =>
    generalize hr : m :: (keys ++ [n]) = r at htemplate
    cases htemplate with
    | @multisig m' n' keys' hsize hm hmn hn hlen =>
      rw [List.cons.injEq] at hr
      obtain ⟨rfl, -⟩ := List.append_inj' hr.2 rfl
      exact solution_multisig hC hunlocked hreads hsize hm hmn hn hlen h hsame

end Solutions

/-! ## Ownership -/

namespace CKeyStore

variable {C : CryptoEnv} (keystore : CKeyStore C)

/-- The keystore has the redeem script of the other. -/
def Redeems (sub s : CScript) : Prop :=
  ∃ r, solver s = some (.scripthash, r) ∧ keystore.getCScript (r.headD []) = some sub

/-- A key is found under the hash of a public key that is not its own. -/
def Collides (s : CScript) : Prop :=
  ∃ t r vch key, Shape s t r ∧ vch ∈ r ∧ KeySize vch ∧
    keystore.mapKeys (C.getID vch) = some key ∧ vch ≠ C.pubKey key

variable {keystore}

theorem Redeems.unique {sub sub' s : CScript} (h : keystore.Redeems sub s)
    (h' : keystore.Redeems sub' s) : sub = sub' := by
  obtain ⟨r, hr, hsub⟩ := h
  obtain ⟨r', hr', hsub'⟩ := h'
  cases hr.symm.trans hr'
  exact Option.some.inj (hsub.symm.trans hsub')

theorem isMine_of_redeems {sub s : CScript} (h : keystore.Redeems sub s) (n : ℕ) :
    keystore.isMine (n + 1) s = (keystore.isMine n sub).map fun ret =>
      if ret = .spendable then .spendable else keystore.watchOnlyOrNo s := by
  obtain ⟨r, hr, hsub⟩ := h
  rw [isMine, hr]
  dsimp only
  rw [hsub]
  dsimp only
  cases keystore.isMine n sub with
  | none => rfl
  | some ret => cases ret <;> rfl

theorem isMine_of_not_redeems {s : CScript} (h : ∀ sub, ¬ keystore.Redeems sub s) :
    ∃ ret, ∀ n, keystore.isMine (n + 1) s = some ret := by
  simp only [isMine]
  cases hs : solver s with
  | none => exact ⟨_, fun _ => rfl⟩
  | some x =>
    obtain ⟨whichType, r⟩ := x
    cases whichType with
    | nonstandard => exact ⟨_, fun _ => rfl⟩
    | nullData => exact ⟨_, fun _ => rfl⟩
    | pubkey =>
      dsimp only
      split
      · exact ⟨_, fun _ => rfl⟩
      · exact ⟨_, fun _ => rfl⟩
    | pubkeyhash =>
      dsimp only
      split
      · exact ⟨_, fun _ => rfl⟩
      · exact ⟨_, fun _ => rfl⟩
    | scripthash =>
      dsimp only
      cases hsub : keystore.getCScript (r.headD []) with
      | none => exact ⟨_, fun _ => rfl⟩
      | some sub => exact absurd ⟨r, hs, hsub⟩ (h sub)
    | multisig =>
      dsimp only
      split
      · exact ⟨_, fun _ => rfl⟩
      · exact ⟨_, fun _ => rfl⟩

/-- **The recursion of `IsMine` ends** if and only if the redeem scripts do. -/
theorem isMine_terminates_iff {s : CScript} :
    (∃ n ret, keystore.isMine n s = some ret) ↔ Acc keystore.Redeems s := by
  constructor
  · rintro ⟨n, ret, h⟩
    induction n generalizing s ret with
    | zero => cases h
    | succ n ih =>
      apply Acc.intro
      intro sub hsub
      rw [isMine_of_redeems hsub] at h
      obtain ⟨ret', hret', -⟩ := Option.map_eq_some_iff.1 h
      exact ih ret' hret'
  · intro h
    induction h with
    | intro s _ ih =>
      by_cases hsub : ∃ sub, keystore.Redeems sub s
      · obtain ⟨sub, hsub⟩ := hsub
        obtain ⟨n, ret, hret⟩ := ih sub hsub
        exact ⟨n + 1, _, by rw [isMine_of_redeems hsub, hret]; rfl⟩
      · obtain ⟨ret, hret⟩ := isMine_of_not_redeems fun sub h => hsub ⟨sub, h⟩
        exact ⟨1, ret, hret 0⟩

theorem watchOnlyOrNo_ne (s : CScript) : keystore.watchOnlyOrNo s ≠ .spendable := by
  rw [watchOnlyOrNo]
  split <;> decide

theorem hasKey_of_not_collides {s : CScript} {t : TxnOutType} {r : List Valtype} {vch : Valtype}
    (hcoll : ¬ keystore.Collides s) (hshape : Shape s t r) (hvch : vch ∈ r) (hsize : KeySize vch)
    (h : keystore.haveKey (C.getID vch) = true) : keystore.HasKey vch := by
  obtain ⟨key, hkey⟩ := Option.isSome_iff_exists.1 h
  refine ⟨key, hkey, ?_⟩
  by_contra hne
  exact hcoll ⟨t, r, vch, key, hshape, hvch, hsize, hkey, hne⟩

/-- **What is called spendable** is owned, or has a redeem script that is called spendable. -/
theorem isMine_spendable {n : ℕ} {s : CScript} (hcoll : ¬ keystore.Collides s)
    (h : keystore.isMine n s = some .spendable) :
    (∃ t r, Shape s t r ∧ keystore.Owned t r) ∨
      ∃ sub n', keystore.Redeems sub s ∧ keystore.isMine n' sub = some .spendable := by
  cases n with
  | zero => cases h
  | succ n =>
    have hno : some (keystore.watchOnlyOrNo s) ≠ some .spendable := fun heq =>
      watchOnlyOrNo_ne s (Option.some.inj heq)
    by_cases hsub : ∃ sub, keystore.Redeems sub s
    · obtain ⟨sub, hsub⟩ := hsub
      right
      rw [isMine_of_redeems hsub] at h
      obtain ⟨ret, hret, heq⟩ := Option.map_eq_some_iff.1 h
      split at heq
      · next hspend => exact ⟨sub, n, hsub, hspend ▸ hret⟩
      · exact absurd heq (watchOnlyOrNo_ne s)
    · left
      rw [isMine] at h
      cases hs : solver s with
      | none =>
        rw [hs] at h
        exact absurd h hno
      | some x =>
        obtain ⟨t, r⟩ := x
        rw [hs] at h
        have hshape := solver_iff.1 hs
        refine ⟨t, r, hshape, ?_⟩
        obtain ⟨ops, hreads, htemplate⟩ := id hshape
        cases htemplate with
        | @pubkey opcode vch hsize =>
          dsimp only at h
          split at h
          · next hkey =>
            exact .pubkey (hasKey_of_not_collides hcoll hshape List.mem_cons_self hsize hkey)
          · exact absurd h hno
        | @pubkeyhash opcode hash hsize =>
          dsimp only at h
          split at h
          · next hkey => exact .pubkeyhash hkey
          · exact absurd h hno
        | @scripthash hash hsize =>
          dsimp only at h
          split at h
          · exact absurd h hno
          · next sub hget => exact absurd ⟨sub, _, hs, hget⟩ hsub
        | @multisig m k keys hkeys hm hmn hn hlen =>
          have hdrop : (([m - 0x50] :: (keys.map Prod.snd ++ [[k - 0x50]])).drop 1).dropLast =
              keys.map Prod.snd := by
            show (keys.map Prod.snd ++ [[k - 0x50]]).dropLast = _
            rw [List.dropLast_concat]
          dsimp only at h
          rw [hdrop] at h
          split at h
          · next hall =>
            refine .multisig fun vch hvch => ?_
            obtain ⟨key, hkey, rfl⟩ := List.mem_map.1 hvch
            refine hasKey_of_not_collides hcoll hshape
              (List.mem_cons_of_mem _ (List.mem_append_left _ hvch)) (hkeys key hkey) ?_
            exact List.countP_eq_length.1 hall _ hvch
          · exact absurd h hno
        | nullData hops => exact absurd h hno

theorem Owned.ne {t : TxnOutType} {r : List Valtype} (h : keystore.Owned t r) :
    t ≠ .nullData ∧ t ≠ .scripthash := by
  cases h <;> decide

/-- `SignSignature` succeeds, and what it puts into the input passes `VerifyScript`. -/
def Signs (keystore : CKeyStore C) (s : CScript) (txTo : CMutableTransaction) (nIn : ℕ) : Prop :=
  (keystore.signSignature s txTo nIn sighashAll).1 = true ∧
    ∃ txin, (keystore.signSignature s txTo nIn sighashAll).2.vin[nIn]? = some txin ∧
      C.verifies txin.scriptSig s (keystore.signSignature s txTo nIn sighashAll).2 nIn = true

end CKeyStore

/-! ## Scripts that verify -/

section Verifies

variable {C : CryptoEnv} {keystore : CKeyStore C} {s sub : CScript} {t : TxnOutType}
  {r vs : List Valtype} {txTo tx : CMutableTransaction} {nIn : ℕ}

theorem Shape.isPayToScriptHash_iff (h : Shape s t r) :
    s.isPayToScriptHash = true ↔ t = .scripthash := by
  constructor
  · intro hp2sh
    obtain ⟨hash, hlen, rfl⟩ := (FairCoin.isPayToScriptHash_iff s).1 hp2sh
    exact (h.unique ⟨_, reads_scripthash hlen, .scripthash hlen⟩).1
  · rintro rfl
    obtain ⟨ops, hreads, htemplate⟩ := h
    cases htemplate with
    | @scripthash hash hsize =>
      exact (FairCoin.isPayToScriptHash_iff s).2 ⟨hash, hsize, eq_of_reads_scripthash hreads⟩

/-- The scripts that pay have no conditionals. -/
theorem Shape.minimalPushes_of_eval (h : Shape s t r) (ht : t ≠ .nullData) {env : ScriptEnv}
    {stack stack' : List Valtype}
    (heval : (evalScript env standardScriptVerifyFlags stack s).2 = .ok stack') :
    MinimalPushes s := by
  obtain ⟨ops, hreads, htemplate⟩ := h
  have hkey : ∀ {opcode : UInt8} {vch : Valtype}, vch ≠ [] →
      (∃ s₀ s₁ : CScript, s₀.getOp = some (opcode, vch, s₁)) → isConditional opcode = false := by
    rintro opcode vch hne ⟨s₀, s₁, hget⟩
    have hle := UInt8.le_iff_toNat_le.1 (le_of_pushes hget hne)
    have hall : ∀ b : UInt8, b.toNat ≤ 0x4e → isConditional b = false := by decide +kernel
    exact hall opcode hle
  refine FairCoin.minimalPushes_of_eval rfl hreads ?_ heval
  cases htemplate with
  | @pubkey opcode vch hsize =>
    obtain ⟨s₁, h₁, -⟩ := Reads_cons hreads
    have hne : vch ≠ [] := by
      rintro rfl
      exact absurd hsize.1 (by decide)
    intro op hop
    simp only [List.mem_cons, List.not_mem_nil, or_false] at hop
    rcases hop with rfl | rfl
    · exact hkey hne ⟨_, _, h₁⟩
    · rfl
  | @pubkeyhash opcode hash hsize =>
    obtain ⟨s₁, h₁, hreads⟩ := Reads_cons hreads
    obtain ⟨s₂, h₂, hreads⟩ := Reads_cons hreads
    obtain ⟨s₃, h₃, -⟩ := Reads_cons hreads
    have hne : hash ≠ [] := by
      rintro rfl
      exact absurd hsize (by decide)
    intro op hop
    simp only [List.mem_cons, List.not_mem_nil, or_false] at hop
    rcases hop with rfl | rfl | rfl | rfl | rfl
    · rfl
    · rfl
    · exact hkey hne ⟨_, _, h₃⟩
    · rfl
    · rfl
  | scripthash hsize =>
    intro op hop
    simp only [List.mem_cons, List.not_mem_nil, or_false] at hop
    rcases hop with rfl | rfl | rfl <;> rfl
  | @multisig m n keys hkeys hm hmn hn hlen =>
    have hnumber : ∀ b : UInt8, 0x51 ≤ b.toNat → b.toNat ≤ 0x60 → isConditional b = false := by
      decide +kernel
    have hlo := UInt8.le_iff_toNat_le.1 hm
    have hmid := UInt8.le_iff_toNat_le.1 hmn
    have hhi := UInt8.le_iff_toNat_le.1 hn
    obtain ⟨s₁, -, hreads⟩ := Reads_cons hreads
    intro op hop
    rw [List.mem_cons, List.mem_append, List.mem_cons, List.mem_singleton] at hop
    rcases hop with rfl | hop | rfl | rfl
    · exact hnumber m hlo (hmid.trans hhi)
    · have hne : op.2 ≠ [] := by
        intro hnil
        have hsize := (hkeys op hop).1
        rw [hnil] at hsize
        exact absurd hsize (by decide)
      obtain ⟨a, b, rfl⟩ := List.append_of_mem hop
      rw [List.append_assoc] at hreads
      obtain ⟨s₂, -, hreads⟩ := Reads_append hreads
      obtain ⟨s₃, hget, -⟩ := Reads_cons hreads
      exact hkey hne ⟨_, _, hget⟩
    · exact hnumber n (hlo.trans hmid) hhi
    · rfl
  | nullData hops => exact absurd rfl ht

theorem Solution.evalScript_eq (h : Solution keystore s t txTo tx nIn vs) (hshape : Shape s t r)
    (ht : t ≠ .nullData) (hmin : MinimalPushes s) :
    (evalScript (C.checker tx nIn) standardScriptVerifyFlags vs.reverse s).2 = .ok [[1]] := by
  obtain ⟨n, hrun⟩ := h.runs hmin
  exact evalScript_of_evals (hshape.length_le ht) hrun rfl

/-- **The solution of a script verifies** if and only if the script has minimal pushes. -/
theorem Solution.verifies_iff (h : Solution keystore s t txTo tx nIn vs) (hshape : Shape s t r)
    (ht : t ≠ .nullData) (hdirect : t ≠ .scripthash) :
    C.verifies (vs.flatMap CScript.pushData) s tx nIn = true ↔ MinimalPushes s := by
  have hp2sh : s.isPayToScriptHash = false := by
    rw [Bool.eq_false_iff]
    exact fun htrue => hdirect (hshape.isPayToScriptHash_iff.1 htrue)
  have hpush := @evalScript_pushAll (C.checker tx nIn) standardScriptVerifyFlags vs h.pushable
    (h.length_le.trans (by decide))
  constructor
  · intro hverifies
    cases heval : (evalScript (C.checker tx nIn) standardScriptVerifyFlags vs.reverse s).2 with
    | ok stack => exact hshape.minimalPushes_of_eval ht heval
    | error e =>
      rw [CryptoEnv.verifies, verifyScript] at hverifies
      dsimp only [standardScriptVerifyFlags] at hverifies hpush heval
      rw [hpush] at hverifies
      dsimp only at hverifies
      rw [heval] at hverifies
      cases hverifies
  · intro hmin
    have heval := h.evalScript_eq hshape ht hmin
    rw [CryptoEnv.verifies, verifyScript]
    dsimp only [standardScriptVerifyFlags] at hpush heval ⊢
    rw [hpush]
    dsimp only
    rw [heval, hp2sh]
    rfl

/-- **The solution of a redeem script**, followed by the script. -/
theorem Solution.verifies_scripthash_iff (h : Solution keystore sub t txTo tx nIn vs)
    (hshape : Shape sub t r) (ht : t ≠ .nullData) (hredeems : keystore.Redeems sub s) :
    C.verifies (vs.flatMap CScript.pushData ++ CScript.pushData sub) s tx nIn = true ↔
      MinimalPushes sub := by
  obtain ⟨rs, hsolver, hget⟩ := hredeems
  obtain ⟨ops, hreads, htemplate⟩ := solver_iff.1 hsolver
  cases htemplate with
  | @scripthash hash hsize =>
    obtain ⟨hid, hlen⟩ := keystore.mapScripts_id _ _ hget
    have hp2sh : s.isPayToScriptHash = true :=
      (FairCoin.isPayToScriptHash_iff s).2 ⟨hash, hsize, eq_of_reads_scripthash hreads⟩
    have hsub : Pushable sub := ⟨hlen, hshape.length_ne_one ht⟩
    have hall : ∀ v ∈ vs ++ [sub], Pushable v := by
      intro v hv
      rcases List.mem_append.1 hv with hv | hv
      · exact h.pushable v hv
      · rw [List.mem_singleton.1 hv]
        exact hsub
    have hflat : vs.flatMap CScript.pushData ++ CScript.pushData sub =
        (vs ++ [sub]).flatMap CScript.pushData := by simp
    have hpush := @evalScript_pushAll (C.checker tx nIn) standardScriptVerifyFlags (vs ++ [sub])
      hall (by rw [List.length_append, List.length_singleton]; have := h.length_le; omega)
    have hpushOnly := isPushOnly_pushAll hall
    have houter : (evalScript (C.checker tx nIn) standardScriptVerifyFlags
        (sub :: vs.reverse) s).2 = .ok ([1] :: vs.reverse) := by
      refine evalScript_of_evals
        ((show Shape s .scripthash [hash] from ⟨_, hreads, .scripthash hsize⟩).length_le (by simp))
        (evals_scripthash hreads hsize hid.symm ?_) rfl
      rw [List.length_reverse]
      have := h.length_le
      omega
    rw [List.reverse_append, List.reverse_singleton, List.singleton_append] at hpush
    rw [hflat]
    constructor
    · intro hverifies
      cases heval : (evalScript (C.checker tx nIn) standardScriptVerifyFlags vs.reverse
        sub).2 with
      | ok stack => exact hshape.minimalPushes_of_eval ht heval
      | error e =>
        rw [CryptoEnv.verifies, verifyScript] at hverifies
        dsimp only [standardScriptVerifyFlags] at hverifies hpush houter heval
        rw [hpush] at hverifies
        dsimp only at hverifies
        rw [houter, hp2sh] at hverifies
        dsimp only [Except.bind, checkTop] at hverifies
        rw [verifyScriptHash, hpushOnly] at hverifies
        dsimp only at hverifies
        rw [heval] at hverifies
        cases hverifies
    · intro hmin
      have heval := h.evalScript_eq hshape ht hmin
      rw [CryptoEnv.verifies, verifyScript]
      dsimp only [standardScriptVerifyFlags] at hpush houter heval ⊢
      rw [hpush]
      dsimp only
      rw [houter, hp2sh]
      dsimp only [Except.bind, checkTop]
      rw [verifyScriptHash, hpushOnly]
      dsimp only
      rw [heval]
      rfl

end Verifies

/-! ## `SignSignature` -/

namespace CKeyStore

variable {C : CryptoEnv} {keystore : CKeyStore C} {s sub : CScript} {t : TxnOutType}
  {r : List Valtype} {txTo tx : CMutableTransaction} {nIn : ℕ}

/-- The test of the solution is made on the script that is in the input. -/
theorem signs_iff_verifies {scriptSig : CScript}
    (h : keystore.signSignature s txTo nIn sighashAll = testSolution C s tx nIn scriptSig)
    (hnIn : nIn < tx.vin.length) :
    keystore.Signs s txTo nIn ↔
      C.verifies scriptSig s (tx.setScriptSig nIn scriptSig) nIn = true := by
  rw [Signs, h]
  constructor
  · exact fun hsigns => hsigns.1
  · intro hverifies
    refine ⟨hverifies, { tx.vin[nIn] with scriptSig := scriptSig }, ?_, hverifies⟩
    show (tx.vin.modify nIn _)[nIn]? = _
    rw [List.getElem?_modify_eq, List.getElem?_eq_getElem hnIn]
    rfl

/-- A locked keystore signs nothing. -/
theorem solverSign_locked (hlocked : keystore.locked = true) (hash : UInt256)
    (h : (keystore.solverSign s hash sighashAll).1 = true) :
    (keystore.solverSign s hash sighashAll).2.2 = .scripthash := by
  have hsign : ∀ id scriptSig, keystore.sign1 id hash sighashAll scriptSig = none := by
    intro id scriptSig
    rw [sign1, getKey, if_pos hlocked]
  have hloop : ∀ (nRequired : ℕ) (keys : List Valtype) (nSigned : ℕ) (scriptSig : CScript),
      (keystore.signLoop hash sighashAll nRequired keys nSigned scriptSig).1 = nSigned := by
    intro nRequired keys nSigned scriptSig
    induction keys with
    | nil => rfl
    | cons vch keys ih =>
      rw [signLoop, hsign]
      split
      · exact ih
      · rfl
  rw [solverSign] at h ⊢
  cases hs : solver s with
  | none =>
    rw [hs] at h
    cases h
  | some x =>
    obtain ⟨t, r⟩ := x
    rw [hs] at h
    obtain ⟨ops, -, htemplate⟩ := solver_iff.1 hs
    cases htemplate with
    | pubkey hsize =>
      dsimp only at h
      rw [hsign] at h
      cases h
    | pubkeyhash hsize =>
      dsimp only at h
      rw [hsign] at h
      cases h
    | scripthash hsize =>
      dsimp only
      split <;> rfl
    | @multisig m n keys hkeys hm hmn hn hlen =>
      have hlow : 0x51 ≤ m.toNat := UInt8.le_iff_toNat_le.1 hm
      have hrequired : (m - 0x50).toNat = m.toNat - 0x50 :=
        UInt8.toNat_sub_of_le _ _ (UInt8.le_trans (by decide) hm)
      have h : decide ((keystore.signLoop hash sighashAll (m - 0x50).toNat
          (([m - 0x50] :: (keys.map Prod.snd ++ [[n - 0x50]])).drop 1).dropLast 0 [0]).1 =
        (m - 0x50).toNat) = true := h
      rw [hloop, decide_eq_true_eq] at h
      omega
    | nullData hops => cases h

theorem solverSign_type (hs : solver s = some (t, r)) (hash : UInt256) :
    (keystore.solverSign s hash sighashAll).2.2 = t := by
  rw [solverSign, hs]
  cases t with
  | nonstandard => rfl
  | nullData => rfl
  | pubkey =>
    dsimp only
    split <;> rfl
  | pubkeyhash =>
    dsimp only
    split <;> rfl
  | scripthash =>
    dsimp only
    split <;> rfl
  | multisig => rfl

/-- A script that has no redeem script is signed and tested. -/
theorem signSignature_direct {scriptSig : CScript} (ht : t ≠ .scripthash)
    (h : keystore.solverSign s (C.sigHash s txTo nIn sighashAll) sighashAll =
      (true, scriptSig, t)) :
    keystore.signSignature s txTo nIn sighashAll =
      testSolution C s (txTo.setScriptSig nIn scriptSig) nIn scriptSig := by
  rw [signSignature]
  dsimp only
  rw [h]
  exact if_neg ht

theorem signSignature_fails
    (h : (keystore.solverSign s (C.sigHash s txTo nIn sighashAll) sighashAll).1 = false) :
    (keystore.signSignature s txTo nIn sighashAll).1 = false := by
  rw [signSignature]
  dsimp only
  generalize keystore.solverSign s (C.sigHash s txTo nIn sighashAll) sighashAll = x at h
  obtain ⟨ok, scriptSig, t⟩ := x
  cases h
  rfl

/-- A redeem script is signed in place of the script. -/
theorem signSignature_redeems (h : keystore.Redeems sub s) :
    keystore.signSignature s txTo nIn sighashAll =
      let r := keystore.solverSign sub
        (C.sigHash sub (txTo.setScriptSig nIn sub) nIn sighashAll) sighashAll
      let scriptSig := r.2.1 ++ CScript.pushData sub
      if !(r.1 && r.2.2 != .scripthash) then
        (false, (txTo.setScriptSig nIn sub).setScriptSig nIn scriptSig)
      else testSolution C s (txTo.setScriptSig nIn sub) nIn scriptSig := by
  obtain ⟨rs, hsolver, hget⟩ := h
  have hsolved : keystore.solverSign s (C.sigHash s txTo nIn sighashAll) sighashAll =
      (true, sub, .scripthash) := by
    rw [solverSign, hsolver]
    dsimp only
    rw [hget]
  rw [signSignature]
  dsimp only
  rw [hsolved]
  exact if_pos rfl

/-- **Owned scripts can be signed** unless the keystore is locked or a push is not minimal. -/
theorem owned_signs_iff (hC : C.Sound) (hnIn : nIn < txTo.vin.length) (hshape : Shape s t r)
    (howned : keystore.Owned t r) :
    keystore.Signs s txTo nIn ↔ keystore.locked = false ∧ MinimalPushes s := by
  obtain ⟨hnull, hdirect⟩ := howned.ne
  have htype := @solverSign_type C keystore s t r (solver_iff.2 hshape)
    (C.sigHash s txTo nIn sighashAll)
  cases hlocked : keystore.locked with
  | true =>
    refine ⟨fun hsigns => ?_, fun h => absurd h.1 (by decide)⟩
    cases hsolved : (keystore.solverSign s (C.sigHash s txTo nIn sighashAll) sighashAll).1 with
    | false =>
      have hfails := signSignature_fails hsolved
      rw [hsigns.1] at hfails
      cases hfails
    | true => exact absurd (htype.symm.trans (solverSign_locked hlocked _ hsolved)) hdirect
  | false =>
    obtain ⟨vs, hvs⟩ := exists_solution hC hlocked hshape howned
      (rfl : C.sigHash s txTo nIn sighashAll = _)
    obtain ⟨ws, hws⟩ := exists_solution hC hlocked hshape howned
      (show C.sigHash s ((txTo.setScriptSig nIn (vs.flatMap CScript.pushData)).setScriptSig nIn
        (vs.flatMap CScript.pushData)) nIn sighashAll = C.sigHash s txTo nIn sighashAll by
          rw [sigHash_setScriptSig, sigHash_setScriptSig])
    have hsame : ws.flatMap CScript.pushData = vs.flatMap CScript.pushData :=
      (Prod.mk.inj (Prod.mk.inj (hws.solved.symm.trans hvs.solved)).2).1
    rw [signs_iff_verifies (signSignature_direct hdirect hvs.solved)
      (by rwa [CMutableTransaction.setScriptSig, List.length_modify]), ← hsame]
    rw [← hsame] at hws
    rw [hws.verifies_iff hshape hnull hdirect]
    simp

/-- **Owned redeem scripts**, alike. -/
theorem redeems_signs_iff (hC : C.Sound) (hnIn : nIn < txTo.vin.length)
    (hredeems : keystore.Redeems sub s) (hshape : Shape sub t r) (howned : keystore.Owned t r) :
    keystore.Signs s txTo nIn ↔ keystore.locked = false ∧ MinimalPushes sub := by
  obtain ⟨hnull, hdirect⟩ := howned.ne
  have htype := @solverSign_type C keystore sub t r (solver_iff.2 hshape)
    (C.sigHash sub (txTo.setScriptSig nIn sub) nIn sighashAll)
  have hsign := @signSignature_redeems C keystore s sub txTo nIn hredeems
  cases hlocked : keystore.locked with
  | true =>
    refine ⟨fun hsigns => ?_, fun h => absurd h.1 (by decide)⟩
    cases hsolved : (keystore.solverSign sub
        (C.sigHash sub (txTo.setScriptSig nIn sub) nIn sighashAll) sighashAll).1 with
    | false =>
      have hfails := hsigns.1
      rw [hsign] at hfails
      simp only [hsolved, Bool.false_and, Bool.not_false, if_true] at hfails
      cases hfails
    | true => exact absurd (htype.symm.trans (solverSign_locked hlocked _ hsolved)) hdirect
  | false =>
    obtain ⟨vs, hvs⟩ := exists_solution hC hlocked hshape howned
      (rfl : C.sigHash sub (txTo.setScriptSig nIn sub) nIn sighashAll = _)
    obtain ⟨ws, hws⟩ := exists_solution hC hlocked hshape howned
      (sigHash_setScriptSig C sub (txTo.setScriptSig nIn sub) nIn nIn
        (vs.flatMap CScript.pushData ++ CScript.pushData sub) sighashAll)
    have hsame : ws.flatMap CScript.pushData = vs.flatMap CScript.pushData :=
      (Prod.mk.inj (Prod.mk.inj (hws.solved.symm.trans hvs.solved)).2).1
    have htest : keystore.signSignature s txTo nIn sighashAll = testSolution C s
        (txTo.setScriptSig nIn sub) nIn (vs.flatMap CScript.pushData ++ CScript.pushData sub) := by
      rw [hsign, hvs.solved]
      exact if_neg (by simpa using hdirect)
    rw [signs_iff_verifies htest (by rwa [CMutableTransaction.setScriptSig, List.length_modify]),
      ← hsame]
    rw [← hsame] at hws
    rw [hws.verifies_scripthash_iff hshape hnull hredeems]
    simp

/-- A redeem script with a redeem script is not signed. -/
theorem nested_not_signs (hredeems : keystore.Redeems sub s)
    (hnested : sub.isPayToScriptHash = true) : ¬ keystore.Signs s txTo nIn := by
  intro hsigns
  obtain ⟨hash, hlen, rfl⟩ := (FairCoin.isPayToScriptHash_iff sub).1 hnested
  have htype := @solverSign_type C keystore _ _ _
    (solver_iff.2 ⟨_, reads_scripthash hlen, .scripthash hlen⟩)
    (C.sigHash (0xa9 :: 0x14 :: (hash ++ [0x87]))
      (txTo.setScriptSig nIn (0xa9 :: 0x14 :: (hash ++ [0x87]))) nIn sighashAll)
  have hfails := hsigns.1
  rw [signSignature_redeems hredeems] at hfails
  simp [htype] at hfails

/-- **When what is called spendable can be signed.**  `IsMine` ends if and only if the redeem scripts
do not come back to a script; a script it calls spendable is signed, and the signature passes
`VerifyScript`, if and only if the keystore is not locked, the pushes of the script are minimal, and
its redeem script has minimal pushes and is not itself the script of a hash. -/
theorem spendable_signs_iff (hC : C.Sound) (hnIn : nIn < txTo.vin.length)
    (hcoll : ¬ keystore.Collides s)
    (hcollSub : ∀ sub, keystore.Redeems sub s → ¬ keystore.Collides sub) :
    ((∃ n ret, keystore.isMine n s = some ret) ↔ Acc keystore.Redeems s) ∧
      ∀ n, keystore.isMine n s = some .spendable →
        (keystore.Signs s txTo nIn ↔ keystore.locked = false ∧ MinimalPushes s ∧
          ∀ sub, keystore.Redeems sub s → sub.isPayToScriptHash = false ∧ MinimalPushes sub) := by
  refine ⟨isMine_terminates_iff, fun n hmine => ?_⟩
  rcases isMine_spendable hcoll hmine with ⟨t, r, hshape, howned⟩ | ⟨sub, n', hredeems, hsub⟩
  · rw [owned_signs_iff hC hnIn hshape howned]
    refine ⟨fun h => ⟨h.1, h.2, ?_⟩, fun h => ⟨h.1, h.2.1⟩⟩
    rintro sub ⟨r', hr', -⟩
    exact absurd (hshape.unique (solver_iff.1 hr')).1 howned.ne.2
  · have hminimal : MinimalPushes s := by
      obtain ⟨rs, hsolver, -⟩ := hredeems
      obtain ⟨ops, hreads, htemplate⟩ := solver_iff.1 hsolver
      cases htemplate with
      | @scripthash hash hsize =>
        apply MinimalPushes.of_reads hreads
        intro op hop hle
        simp only [List.mem_cons, List.not_mem_nil, or_false] at hop
        rcases hop with rfl | rfl | rfl
        · exact absurd hle (by decide)
        · have hpush : pushOpcode hash = 0x14 := by
            rw [pushOpcode, hsize]
            rfl
          exact hpush ▸ checkMinimalPush_pushOpcode (by rw [hsize]; decide)
        · exact absurd hle (by decide)
    rcases isMine_spendable (hcollSub sub hredeems) hsub with
      ⟨t, r, hshape, howned⟩ | ⟨sub', n'', hredeems', -⟩
    · have hdirect : sub.isPayToScriptHash = false := by
        rw [Bool.eq_false_iff]
        exact fun htrue => howned.ne.2 (hshape.isPayToScriptHash_iff.1 htrue)
      rw [redeems_signs_iff hC hnIn hredeems hshape howned]
      constructor
      · rintro ⟨hunlocked, hmin⟩
        refine ⟨hunlocked, hminimal, fun sub' hsub' => ?_⟩
        rw [hsub'.unique hredeems]
        exact ⟨hdirect, hmin⟩
      · rintro ⟨hunlocked, -, hall⟩
        exact ⟨hunlocked, (hall sub hredeems).2⟩
    · have hnested : sub.isPayToScriptHash = true := by
        obtain ⟨r', hr', -⟩ := hredeems'
        exact (solver_iff.1 hr').isPayToScriptHash_iff.2 rfl
      refine ⟨fun hsigns => absurd hsigns (nested_not_signs hredeems hnested), ?_⟩
      rintro ⟨-, -, hall⟩
      have hdirect := (hall sub hredeems).1
      rw [hnested] at hdirect
      cases hdirect

/-! ## A redeem script with a redeem script -/

/-- The script of that public key. -/
def oneKeyScript : CScript := 33 :: oneKey.pubKey () ++ [0xac]

/-- The script of the hash of a script. -/
def scriptHashOf (s : CScript) : CScript := 0xa9 :: 0x14 :: (oneKey.hash160 s ++ [0x87])

/-- A keystore that knows the script of its key and the script of that one's hash. -/
def nestedStore : CKeyStore oneKey where
  mapKeys := oneKeyStore.mapKeys
  mapScripts id :=
    if id = oneKey.hash160 oneKeyScript then some oneKeyScript
    else if id = oneKey.hash160 (scriptHashOf oneKeyScript) then some (scriptHashOf oneKeyScript)
    else none
  setWatchOnly _ := false
  locked := false
  mapKeys_id := oneKeyStore.mapKeys_id
  mapScripts_id id s h := by
    split at h
    · next hid =>
      cases h
      exact ⟨hid, by decide⟩
    · split at h
      · next hid =>
        cases h
        exact ⟨hid, by decide⟩
      · cases h

/-- A transaction with a single input. -/
def spendingTx : CMutableTransaction := { vin := [{ prevout := ⟨7, 0⟩ }], vout := [] }

theorem oneKeyScript_shape : Shape oneKeyScript .pubkey [oneKey.pubKey ()] :=
  solver_iff.1 (by decide)

/-- The script of the hash of the key's script is signed. -/
theorem scriptHash_signs : nestedStore.Signs (scriptHashOf oneKeyScript) spendingTx 0 := by
  have hsolver : solver (scriptHashOf oneKeyScript) =
      some (.scripthash, [oneKey.hash160 oneKeyScript]) := by
    decide
  have hredeems : nestedStore.Redeems oneKeyScript (scriptHashOf oneKeyScript) :=
    ⟨_, hsolver, rfl⟩
  refine ((spendable_signs_iff oneKey_sound (by decide) ?_ ?_).2 2 (by decide)).2
    ⟨rfl, ?_, ?_⟩
  · rintro ⟨t, r, vch, key, hshape, hvch, hsize, -⟩
    obtain ⟨-, rfl⟩ := hshape.unique (solver_iff.1 hsolver)
    rw [List.mem_singleton.1 hvch] at hsize
    exact absurd hsize.1 (by decide)
  · rintro sub hsub ⟨t, r, vch, key, hshape, hvch, -, -, hne⟩
    rw [hsub.unique hredeems] at hshape
    obtain ⟨-, rfl⟩ := hshape.unique oneKeyScript_shape
    exact hne (List.mem_singleton.1 hvch)
  · have hreads : (scriptHashOf oneKeyScript).Reads
        [(0xa9, []), (0x14, oneKey.hash160 oneKeyScript), (0x87, [])] [] :=
      reads_scripthash (by decide)
    exact MinimalPushes.of_reads hreads (by decide)
  · intro sub hsub
    rw [hsub.unique hredeems]
    have hreads : oneKeyScript.Reads [(33, oneKey.pubKey ()), (0xac, [])] [] :=
      .cons rfl (.cons rfl (.refl []))
    exact ⟨by decide, MinimalPushes.of_reads hreads (by decide)⟩

/-- **Spendable and not signed**: the script of the hash of a script of a hash. -/
theorem spendable_not_signed : ¬ ∀ (C : CryptoEnv) (keystore : CKeyStore C) (s : CScript)
    (txTo : CMutableTransaction) (nIn n : ℕ), C.Sound → nIn < txTo.vin.length →
    keystore.isMine n s = some .spendable → keystore.Signs s txTo nIn := by
  intro h
  have hredeems : nestedStore.Redeems (scriptHashOf oneKeyScript)
      (scriptHashOf (scriptHashOf oneKeyScript)) :=
    ⟨[oneKey.hash160 (scriptHashOf oneKeyScript)], by decide, by decide⟩
  exact nested_not_signs hredeems (by decide)
    (h oneKey nestedStore _ spendingTx 0 3 oneKey_sound (by decide) (by decide))

end CKeyStore

end FairCoin
