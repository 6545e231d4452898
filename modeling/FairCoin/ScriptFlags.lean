import FairCoin.Script

/-!
# Flags only restrict

A script that succeeds under some verification flags succeeds under fewer of them.  Flags are read
where encodings are checked, where numbers are read, at the upgradable `NOP`s, at the extra element
of `OP_CHECKMULTISIG` and in `VerifyScript`; elsewhere the two runs do the same.

* `Restricts` — whatever the second computation returns, the first one returns too.
* `evalStep_restricts`, `evalScript_restricts` — one opcode, and a whole script.
* `verifyScript_mono` — **flags only restrict**.
-/

namespace FairCoin

/-! ## Computations that return more -/

/-- What the second computation returns, the first one returns too. -/
def Restricts {α : Type} (x y : Except ScriptError α) : Prop := ∀ a, y = .ok a → x = .ok a

namespace Restricts

variable {α β : Type} {x y : Except ScriptError α}

theorem refl (x : Except ScriptError α) : Restricts x x := fun _ h => h

theorem of_error {e : ScriptError} : Restricts x (.error e) := fun _ h => absurd h (by simp)

theorem bind {f g : α → Except ScriptError β} (hxy : Restricts x y)
    (hfg : ∀ a, Restricts (f a) (g a)) : Restricts (x.bind f) (y.bind g) := by
  intro b hb
  cases hy : y with
  | error e =>
    rw [hy] at hb
    exact absurd hb (by simp [Except.bind])
  | ok a =>
    rw [hy] at hb
    rw [hxy a hy]
    exact hfg a b hb

/-- A test that the second computation makes more often. -/
theorem of_guard {p q : Bool} {e : ScriptError} (hpq : p = true → q = true)
    (hxy : Restricts x y) :
    Restricts (if p then .error e else x) (if q then .error e else y) := by
  intro a ha
  split at ha
  · exact absurd ha (by simp)
  · next hq =>
    rw [if_neg fun hp => hq (hpq hp)]
    exact hxy a ha

end Restricts

section Mono

variable {F G : VerifyFlags} (h : F ≤ G) (env : ScriptEnv)

include h

/-! ## One opcode -/

theorem readNum_restricts (vch : Valtype) : Restricts (readNum F vch) (readNum G vch) := by
  intro n hn
  rw [readNum, CScriptNum.read] at hn ⊢
  by_cases hlen : 4 < vch.length
  · rw [if_pos hlen] at hn
    exact absurd hn (by simp)
  · rw [if_neg hlen] at hn ⊢
    have hmin := h.minimalData
    cases hF : F.minimalData with
    | false =>
      simp only [Bool.false_and, Bool.false_eq_true, if_false]
      split at hn
      · next m hm =>
        split at hm
        · exact absurd hm (by simp)
        · cases hm
          exact hn
      · exact absurd hn (by simp)
    | true =>
      rw [hmin hF] at hn
      exact hn

theorem execPick_restricts (roll : Bool) (stack : List Valtype) :
    Restricts (execPick F roll stack) (execPick G roll stack) := by
  match stack with
  | [] => exact Restricts.of_error
  | [_] => exact Restricts.of_error
  | vch :: vch' :: below => exact (readNum_restricts h vch).bind fun _ => Restricts.refl _

theorem execUnary_restricts (op : UnaryOp) (stack : List Valtype) :
    Restricts (execUnary F op stack) (execUnary G op stack) := by
  match stack with
  | [] => exact Restricts.of_error
  | vch :: below => exact (readNum_restricts h vch).bind fun _ => Restricts.refl _

theorem execBinary_restricts (op : BinaryOp) (stack : List Valtype) :
    Restricts (execBinary F op stack) (execBinary G op stack) := by
  match stack with
  | [] => exact Restricts.of_error
  | [_] => exact Restricts.of_error
  | vch2 :: vch1 :: below =>
    apply (readNum_restricts h vch1).bind
    intro bn1
    exact (readNum_restricts h vch2).bind fun _ => Restricts.refl _

theorem execWithin_restricts (stack : List Valtype) :
    Restricts (execWithin F stack) (execWithin G stack) := by
  match stack with
  | [] => exact Restricts.of_error
  | [_] => exact Restricts.of_error
  | [_, _] => exact Restricts.of_error
  | vch3 :: vch2 :: vch1 :: below =>
    apply (readNum_restricts h vch1).bind
    intro bn1
    apply (readNum_restricts h vch2).bind
    intro bn2
    exact (readNum_restricts h vch3).bind fun _ => Restricts.refl _

theorem execStack_restricts (op : Opcode) (stack : List Valtype) :
    Restricts (execStack env F op stack) (execStack env G op stack) := by
  cases op with
  | pick roll => exact execPick_restricts h roll stack
  | unary op => exact execUnary_restricts h op stack
  | binary op => exact execBinary_restricts h op stack
  | within => exact execWithin_restricts h stack
  | verify =>
    cases stack with
    | nil => exact Restricts.refl _
    | cons vch stack => exact Restricts.refl _
  | hash op =>
    cases stack with
    | nil => exact Restricts.refl _
    | cons vch stack => exact Restricts.refl _
  | _ => exact Restricts.refl _

theorem execOnStack_restricts (op : Opcode) (st : EvalState) :
    Restricts
      (match execStack env F op st.stack with
        | .ok stack => .ok { st with stack := stack }
        | .error e => .error e)
      (match execStack env G op st.stack with
        | .ok stack => .ok { st with stack := stack }
        | .error e => .error e) := by
  intro st' hst'
  split at hst'
  · next stack hstack =>
    rw [execStack_restricts h env op st.stack stack hstack]
    exact hst'
  · exact absurd hst' (by simp)

theorem execPlain_restricts (op : Opcode) (pc : CScript) (st : EvalState) :
    Restricts (execPlain env F op pc st) (execPlain env G op pc st) := by
  have hother := execOnStack_restricts h env op st
  cases op with
  | upgradableNop => exact Restricts.of_guard h.discourageUpgradableNops (Restricts.refl _)
  | nop => exact Restricts.refl _
  | ifThen negated => exact Restricts.refl _
  | orElse => exact Restricts.refl _
  | endIf => exact Restricts.refl _
  | opReturn => exact Restricts.refl _
  | toAltStack => exact Restricts.refl _
  | fromAltStack => exact Restricts.refl _
  | codeSeparator => exact Restricts.refl _
  | _ => exact hother

/-! ## Signatures -/

theorem checkSignatureEncoding_restricts (vchSig : Valtype) :
    Restricts (checkSignatureEncoding F vchSig) (checkSignatureEncoding G vchSig) := by
  rw [checkSignatureEncoding, checkSignatureEncoding]
  by_cases hempty : vchSig = []
  · rw [if_pos hempty, if_pos hempty]
    exact Restricts.refl _
  · rw [if_neg hempty, if_neg hempty]
    apply Restricts.of_guard
    · have hder := h.derSig
      have hlow := h.lowS
      have hstrict := h.strictEnc
      simp only [Bool.and_eq_true, Bool.or_eq_true]
      rintro ⟨hflags, hinvalid⟩
      exact ⟨by tauto, hinvalid⟩
    · apply Restricts.of_guard
      · have hlow := h.lowS
        simp only [Bool.and_eq_true]
        exact fun hp => ⟨hlow hp.1, hp.2⟩
      · apply Restricts.of_guard
        · have hstrict := h.strictEnc
          simp only [Bool.and_eq_true]
          exact fun hp => ⟨hstrict hp.1, hp.2⟩
        · exact Restricts.refl _

theorem checkEncodings_restricts (vchSig vchPubKey : Valtype) :
    Restricts (checkEncodings F vchSig vchPubKey) (checkEncodings G vchSig vchPubKey) := by
  apply (checkSignatureEncoding_restricts h vchSig).bind
  intro _
  apply Restricts.of_guard
  · have hstrict := h.strictEnc
    simp only [Bool.and_eq_true]
    exact fun hp => ⟨hstrict hp.1, hp.2⟩
  · exact Restricts.refl _

theorem execCheckSig_restricts (verify : Bool) (st : EvalState) :
    Restricts (execCheckSig env F verify st).2 (execCheckSig env G verify st).2 := by
  intro st' hst'
  rw [execCheckSig] at hst' ⊢
  split at hst'
  · next vchPubKey vchSig stack hstack =>
    split at hst'
    · exact absurd hst' (by simp)
    · next u hu =>
      rw [checkEncodings_restricts h vchSig vchPubKey () hu]
      exact hst'
  · exact absurd hst' (by simp)

theorem multiSigLoop_restricts (scriptCode : CScript) (keys : List Valtype) :
    ∀ sigs : List Valtype, Restricts (multiSigLoop env F scriptCode sigs keys).2
      (multiSigLoop env G scriptCode sigs keys).2 := by
  induction keys with
  | nil =>
    intro sigs
    cases sigs with
    | nil => exact Restricts.refl _
    | cons vchSig sigs => exact Restricts.refl _
  | cons vchPubKey keys ih =>
    intro sigs
    cases sigs with
    | nil => exact Restricts.refl _
    | cons vchSig sigs =>
      intro fSuccess hs
      rw [multiSigLoop] at hs ⊢
      split at hs
      · exact absurd hs (by simp)
      · next u hu =>
        rw [checkEncodings_restricts h vchSig vchPubKey () hu]
        simp only at hs ⊢
        generalize (if env.checkSig vchSig vchPubKey scriptCode = true then sigs
          else vchSig :: sigs) = left at hs ⊢
        by_cases hfew : keys.length < left.length
        · rw [if_pos hfew] at hs ⊢
          exact hs
        · rw [if_neg hfew] at hs ⊢
          exact ih left fSuccess hs

theorem multiSigArgs_restricts (nOpCount : ℕ) (stack : List Valtype) :
    Restricts (multiSigArgs F nOpCount stack) (multiSigArgs G nOpCount stack) := by
  cases stack with
  | nil => exact Restricts.of_error
  | cons vch stack =>
    apply (readNum_restricts h vch).bind
    intro nKeysCount
    split
    · exact Restricts.refl _
    · split
      · exact Restricts.refl _
      · simp only
        split
        · exact Restricts.refl _
        · next vch below hdrop => exact (readNum_restricts h vch).bind fun _ => Restricts.refl _

theorem multiSigResult_restricts (verify : Bool) (st : EvalState) (below : List Valtype)
    (fSuccess : Bool) : Restricts (multiSigResult F verify st below fSuccess)
      (multiSigResult G verify st below fSuccess) := by
  cases below with
  | nil => exact Restricts.of_error
  | cons dummy stack =>
    apply Restricts.of_guard
    · have hnull := h.nullDummy
      simp only [Bool.and_eq_true]
      exact fun hp => ⟨hnull hp.1, hp.2⟩
    · exact Restricts.refl _

theorem execCheckMultiSig_restricts (verify : Bool) (st : EvalState) :
    Restricts (execCheckMultiSig env F verify st).2 (execCheckMultiSig env G verify st).2 := by
  intro st' hst'
  rw [execCheckMultiSig] at hst' ⊢
  split at hst'
  · exact absurd hst' (by simp)
  · next args hargs =>
    rw [multiSigArgs_restricts h st.nOpCount st.stack args hargs]
    simp only at hst' ⊢
    split at hst'
    · exact absurd hst' (by simp)
    · next fSuccess hloop =>
      rw [multiSigLoop_restricts h env _ args.keys args.sigs fSuccess hloop]
      exact multiSigResult_restricts h verify _ args.below fSuccess st' hst'

theorem exec_restricts (op : Opcode) (pc : CScript) (st : EvalState) :
    Restricts (exec env F op pc st).2 (exec env G op pc st).2 := by
  cases op with
  | checkSig verify => exact execCheckSig_restricts h env verify st
  | checkMultiSig verify => exact execCheckMultiSig_restricts h env verify st
  | _ =>
    simp only [exec]
    exact execPlain_restricts h env _ pc st

/-! ## Whole scripts -/

theorem execOpcode_restricts (opcode : UInt8) (vch : Valtype) (pc : CScript) (st : EvalState) :
    Restricts (execOpcode env F opcode vch pc st).2 (execOpcode env G opcode vch pc st).2 := by
  rw [execOpcode, execOpcode]
  split
  · apply Restricts.of_guard
    · have hmin := h.minimalData
      simp only [Bool.and_eq_true]
      exact fun hp => ⟨hmin hp.1, hp.2⟩
    · exact Restricts.refl _
  · split
    · exact exec_restricts h env _ pc st
    · exact Restricts.refl _

/-- **One opcode.**  What a round of the loop does under more flags it does under fewer. -/
theorem evalStep_restricts (opcode : UInt8) (vch : Valtype) (pc : CScript) (st : EvalState) :
    Restricts (evalStep env F opcode vch pc st).2 (evalStep env G opcode vch pc st).2 := by
  rw [evalStep, evalStep]
  split
  · exact Restricts.refl _
  · split
    · exact Restricts.refl _
    · split
      · exact Restricts.refl _
      · exact (execOpcode_restricts h env opcode vch pc _).bind fun _ => Restricts.refl _

theorem evalLoop_restricts (n : ℕ) : ∀ (pc : CScript) (st : EvalState),
    Restricts (evalLoop env F n pc st).2 (evalLoop env G n pc st).2 := by
  induction n with
  | zero => exact fun _ _ => Restricts.refl _
  | succ n ih =>
    intro pc st st' hst'
    cases pc with
    | nil => exact hst'
    | cons b pc =>
      rw [evalLoop] at hst' ⊢
      split at hst'
      · exact absurd hst' (by simp)
      · next opcode vch rest hop =>
        simp only at hst' ⊢
        split at hst'
        · exact absurd hst' (by simp)
        · next st₁ hst₁ =>
          rw [evalStep_restricts h env opcode vch rest st st₁ hst₁]
          exact ih rest st₁ st' hst'

/-- **A script.** -/
theorem evalScript_restricts (stack : List Valtype) (script : CScript) :
    Restricts (evalScript env F stack script).2 (evalScript env G stack script).2 := by
  rw [evalScript, evalScript]
  split
  · exact Restricts.refl _
  · exact (evalLoop_restricts h env _ _ _).bind fun _ => Restricts.refl _

theorem verifyScriptHash_restricts (scriptSig : CScript) (stackCopy : List Valtype) :
    Restricts (verifyScriptHash env F scriptSig stackCopy).2
      (verifyScriptHash env G scriptSig stackCopy).2 := by
  unfold verifyScriptHash
  split
  · exact Restricts.refl _
  · cases stackCopy with
    | nil => exact Restricts.refl _
    | cons pubKeySerialized stackCopy =>
      exact (evalScript_restricts h env stackCopy pubKeySerialized).bind fun _ => Restricts.refl _

theorem verifyScript_restricts (scriptSig scriptPubKey : CScript) :
    Restricts (verifyScript env F scriptSig scriptPubKey).2
      (verifyScript env G scriptSig scriptPubKey).2 := by
  intro u hu
  rw [verifyScript] at hu ⊢
  split at hu
  · exact absurd hu (by simp)
  · next hpush =>
    have hpushF : ¬(F.sigPushOnly && !scriptSig.isPushOnly) = true := by
      have hsub := h.sigPushOnly
      simp only [Bool.and_eq_true] at hpush ⊢
      exact fun hp => hpush ⟨hsub hp.1, hp.2⟩
    rw [if_neg hpushF]
    simp only at hu ⊢
    split at hu
    · exact absurd hu (by simp)
    · next stack hstack =>
      rw [evalScript_restricts h env [] scriptSig stack hstack]
      have htop := (evalScript_restricts h env stack scriptPubKey).bind
        fun a => Restricts.refl (checkTop a)
      simp only
      split at hu
      · exact absurd hu (by simp)
      · next v hv =>
        rw [htop () hv]
        simp only
        -- without the flag of the smaller set the second script is not evaluated at all
        cases hF : F.p2sh with
        | false => simp
        | true =>
          rw [h.p2sh hF] at hu
          split at hu
          · next hp2sh =>
            rw [if_pos hp2sh]
            exact verifyScriptHash_restricts h env scriptSig stack u hu
          · next hp2sh =>
            rw [if_neg hp2sh]

end Mono

/-- **Flags only restrict.**  For all scripts, and whatever the checker and the hash functions
answer, a script that is verified under some flags is verified under fewer; so the inputs of a
transaction that pass with the flags of the memory pool pass with those every block must meet.
An input is its own checker, its script and the script of the output it spends. -/
theorem verifyScript_mono :
    (∀ (env : ScriptEnv) (scriptSig scriptPubKey : CScript) (F G : VerifyFlags), F ≤ G →
      (verifyScript env G scriptSig scriptPubKey).2 = .ok () →
      (verifyScript env F scriptSig scriptPubKey).2 = .ok ()) ∧
    ∀ vin : List (ScriptEnv × CScript × CScript),
      (∀ txin ∈ vin, (verifyScript txin.1 .standard txin.2.1 txin.2.2).2 = .ok ()) →
      ∀ txin ∈ vin, (verifyScript txin.1 .mandatory txin.2.1 txin.2.2).2 = .ok () := by
  have hmono : ∀ (env : ScriptEnv) (scriptSig scriptPubKey : CScript) (F G : VerifyFlags), F ≤ G →
      (verifyScript env G scriptSig scriptPubKey).2 = .ok () →
      (verifyScript env F scriptSig scriptPubKey).2 = .ok () :=
    fun env scriptSig scriptPubKey F G h hG =>
      verifyScript_restricts h env scriptSig scriptPubKey () hG
  refine ⟨hmono, fun vin hvin txin htxin => hmono _ _ _ _ _ ?_ (hvin txin htxin)⟩
  constructor <;> simp [VerifyFlags.mandatory, VerifyFlags.standard]

/-- No signature of no key: `0 0 0` before `CHECKMULTISIG`. -/
theorem verifyScript_mono_of_no_signature :
    (verifyScript ⟨fun _ _ _ => false, id, id, id⟩ .standard [0x00, 0x00, 0x00] [0xae]).2
      = .ok () ∧
    (verifyScript ⟨fun _ _ _ => false, id, id, id⟩ .mandatory [0x00, 0x00, 0x00] [0xae]).2
      = .ok () :=
  have hstandard : (verifyScript ⟨fun _ _ _ => false, id, id, id⟩ .standard [0x00, 0x00, 0x00]
      [0xae]).2 = .ok () := by decide
  ⟨hstandard, verifyScript_mono.1 _ _ _ .mandatory .standard
    (by constructor <;> decide) hstandard⟩

end FairCoin
