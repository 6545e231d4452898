import FairCoin.ScriptAccess

/-!
# The script interpreter cannot be crashed

Every instruction of `FairCoin.ScriptMachine` against that of `FairCoin.Script`.

* `execStack_agrees`, `execCheckMultiSig_agrees`, `exec_agrees` — the instructions agree.
* `evalStep_agrees`, `evalLoop_agrees` — a round of the loop agrees and keeps the limits, and so does
  a run.
* `evalScript_eq`, `verifyScript_eq` — the machine returns what the interpreter returns.
* `interpreter_safe` — **no run halts on a defect**: every access is inside of its vector or of the
  script, no assertion fails and nothing overflows.
-/

namespace FairCoin

open Machine

/-! ## The stack alone -/

/-- What the interpreter makes of too few elements. -/
def orInvalid : Option (List Valtype) → Except ScriptError (List Valtype)
  | some stack => .ok stack
  | none => .error .invalidStackOperation

theorem execStackOp_agrees (op : StackOp) (stack : List Valtype) :
    Agrees Eq (execStackOp op stack) (orInvalid (op.exec stack)) := by
  have h₁ := @Agrees.error (List Valtype) (List Valtype) Eq .invalidStackOperation
  cases op with
  | twoDrop => rcases stack with _ | ⟨a, _ | ⟨b, st⟩⟩ <;> first | exact h₁ | exact Agrees.ok rfl
  | twoDup => rcases stack with _ | ⟨a, _ | ⟨b, st⟩⟩ <;> first | exact h₁ | exact Agrees.ok rfl
  | threeDup =>
    rcases stack with _ | ⟨a, _ | ⟨b, _ | ⟨c, st⟩⟩⟩ <;> first | exact h₁ | exact Agrees.ok rfl
  | twoOver =>
    rcases stack with _ | ⟨a, _ | ⟨b, _ | ⟨c, _ | ⟨d, st⟩⟩⟩⟩ <;>
      first | exact h₁ | exact Agrees.ok rfl
  | twoRot =>
    rcases stack with _ | ⟨a, _ | ⟨b, _ | ⟨c, _ | ⟨d, _ | ⟨e, _ | ⟨f, st⟩⟩⟩⟩⟩⟩ <;>
      first | exact h₁ | exact Agrees.ok rfl
  | twoSwap =>
    rcases stack with _ | ⟨a, _ | ⟨b, _ | ⟨c, _ | ⟨d, st⟩⟩⟩⟩ <;>
      first | exact h₁ | exact Agrees.ok rfl
  | ifDup => rcases stack with _ | ⟨a, st⟩ <;> first | exact h₁ | exact Agrees.ok rfl
  | depth =>
    have hget : getvch stack.length = .ok (CScriptNum.serialize stack.length) :=
      getvch_eq (by omega)
    simp only [execStackOp, hget]
    rcases stack with _ | ⟨a, st⟩ <;> exact Agrees.ok rfl
  | drop => rcases stack with _ | ⟨a, st⟩ <;> first | exact h₁ | exact Agrees.ok rfl
  | dup => rcases stack with _ | ⟨a, st⟩ <;> first | exact h₁ | exact Agrees.ok rfl
  | nip =>
    rcases stack with _ | ⟨a, _ | ⟨b, st⟩⟩
    · exact h₁
    · exact h₁
    · show Agrees Eq (eraseTop 2 (a :: b :: st)) (.ok (a :: st))
      rw [eraseTop, if_pos (by simp only [List.length_cons]; omega)]
      exact Agrees.ok rfl
  | «over» => rcases stack with _ | ⟨a, _ | ⟨b, st⟩⟩ <;> first | exact h₁ | exact Agrees.ok rfl
  | rot =>
    rcases stack with _ | ⟨a, _ | ⟨b, _ | ⟨c, st⟩⟩⟩ <;> first | exact h₁ | exact Agrees.ok rfl
  | swap => rcases stack with _ | ⟨a, _ | ⟨b, st⟩⟩ <;> first | exact h₁ | exact Agrees.ok rfl
  | tuck => rcases stack with _ | ⟨a, _ | ⟨b, st⟩⟩ <;> first | exact h₁ | exact Agrees.ok rfl
  | size =>
    rcases stack with _ | ⟨a, st⟩
    · exact h₁
    · have hget : getvch a.length = .ok (CScriptNum.serialize a.length) := getvch_eq (by omega)
      have hrun : execStackOp .size (a :: st) =
          (getvch a.length).bind fun vch => .ok (vch :: a :: st) := rfl
      rw [hrun, hget]
      exact Agrees.ok rfl

section Instructions

variable (env : ScriptEnv) (flags : VerifyFlags) {script : CScript}

theorem execUnary_agrees (op : UnaryOp) (stack : List Valtype) :
    Agrees Eq (Machine.execUnary flags op stack) (FairCoin.execUnary flags op stack) := by
  rcases stack with _ | ⟨vch, stack⟩
  · exact Agrees.error _
  · show Agrees Eq ((scriptNum flags vch).bind _) ((readNum flags vch).bind _)
    refine (scriptNum_agrees flags vch).bind ?_
    rintro n _ ⟨rfl, hn⟩
    rw [unary_eq op hn]
    show Agrees Eq ((getvch (op.apply n)).bind _) _
    rw [getvch_eq (unary_apply_range op hn)]
    exact Agrees.ok rfl

theorem execBinary_agrees (op : BinaryOp) (stack : List Valtype) :
    Agrees Eq (Machine.execBinary flags op stack) (FairCoin.execBinary flags op stack) := by
  rcases stack with _ | ⟨vch2, _ | ⟨vch1, stack⟩⟩
  · exact Agrees.error _
  · exact Agrees.error _
  · show Agrees Eq ((scriptNum flags vch1).bind _) ((readNum flags vch1).bind _)
    refine (scriptNum_agrees flags vch1).bind ?_
    rintro m _ ⟨rfl, hm⟩
    show Agrees Eq ((scriptNum flags vch2).bind _) ((readNum flags vch2).bind _)
    refine (scriptNum_agrees flags vch2).bind ?_
    rintro n _ ⟨rfl, hn⟩
    rw [binary_eq op hm hn]
    show Agrees Eq ((getvch (op.apply m n)).bind _) _
    rw [getvch_eq (binary_apply_range op hm hn)]
    by_cases hop : op = .numEqualVerify
    · simp only [if_pos hop]
      show Agrees Eq (if castToBool (CScriptNum.serialize (op.apply m n)) = true then _ else _) _
      split
      · exact Agrees.ok rfl
      · exact Agrees.error _
    · simp only [if_neg hop]
      exact Agrees.ok rfl

theorem execWithin_agrees (stack : List Valtype) :
    Agrees Eq (Machine.execWithin flags stack) (FairCoin.execWithin flags stack) := by
  rcases stack with _ | ⟨vch3, _ | ⟨vch2, _ | ⟨vch1, stack⟩⟩⟩
  · exact Agrees.error _
  · exact Agrees.error _
  · exact Agrees.error _
  · show Agrees Eq ((scriptNum flags vch1).bind _) ((readNum flags vch1).bind _)
    refine (scriptNum_agrees flags vch1).bind ?_
    rintro a _ ⟨rfl, -⟩
    show Agrees Eq ((scriptNum flags vch2).bind _) ((readNum flags vch2).bind _)
    refine (scriptNum_agrees flags vch2).bind ?_
    rintro b _ ⟨rfl, -⟩
    show Agrees Eq ((scriptNum flags vch3).bind _) ((readNum flags vch3).bind _)
    refine (scriptNum_agrees flags vch3).bind ?_
    rintro c _ ⟨rfl, -⟩
    exact Agrees.ok rfl

theorem execEqual_agrees (verify : Bool) (stack : List Valtype) :
    Agrees Eq (Machine.execEqual verify stack) (FairCoin.execEqual verify stack) := by
  rcases stack with _ | ⟨vch2, _ | ⟨vch1, stack⟩⟩
  · exact Agrees.error _
  · exact Agrees.error _
  · cases verify with
    | false => exact Agrees.ok rfl
    | true =>
      show Agrees Eq (if decide (vch1 = vch2) = true then _ else _) (if vch1 = vch2 then _ else _)
      by_cases h : vch1 = vch2
      · rw [if_pos (decide_eq_true h), if_pos h]
        exact Agrees.ok rfl
      · rw [if_neg (by simpa using h), if_neg h]
        exact Agrees.error _

theorem execPick_agrees (roll : Bool) {stack : List Valtype} (hsize : stack.length ≤ 1000) :
    Agrees Eq (Machine.execPick flags roll stack) (FairCoin.execPick flags roll stack) := by
  rcases stack with _ | ⟨vch, _ | ⟨vch', below⟩⟩
  · exact Agrees.error _
  · exact Agrees.error _
  · show Agrees Eq ((scriptNum flags vch).bind _) ((readNum flags vch).bind _)
    refine (scriptNum_agrees flags vch).bind ?_
    rintro n _ ⟨rfl, hn⟩
    have hwrap : wrap32 (vch' :: below).length = (vch' :: below).length := by
      rw [wrap32, Int.bmod_def]
      simp only [List.length_cons] at hsize ⊢
      omega
    show Agrees Eq (if getint n < 0 ∨ wrap32 (vch' :: below).length ≤ getint n then _ else _)
      (if n < 0 then _ else _)
    rw [getint_eq hn, hwrap]
    by_cases hneg : n < 0
    · rw [if_pos (.inl hneg), if_pos hneg]
      exact Agrees.error _
    · rw [if_neg hneg]
      by_cases hlarge : ((vch' :: below).length : ℤ) ≤ n
      · rw [if_pos (.inr hlarge), List.getElem?_eq_none (by omega)]
        exact Agrees.error _
      · have hlt : n.toNat < (vch' :: below).length := by omega
        rw [if_neg (by omega), List.getElem?_eq_getElem hlt]
        have htop := stacktop_eq (List.drop_eq_getElem_cons hlt) (i := -n - 1) (by omega)
        show Agrees Eq ((stacktop (vch' :: below) (-n - 1)).bind _) _
        rw [htop]
        cases roll with
        | false => exact Agrees.ok rfl
        | true =>
          have herase : eraseTop (n + 1) (vch' :: below) =
              .ok ((vch' :: below).eraseIdx n.toNat) := by
            rw [eraseTop, if_pos (by omega), show n + 1 - 1 = n by omega]
          show Agrees Eq ((eraseTop (n + 1) (vch' :: below)).bind _) _
          rw [herase]
          exact Agrees.ok rfl

theorem execStack_agrees (op : Opcode) {stack : List Valtype} (hsize : stack.length ≤ 1000)
    (hrange : ∀ n, op = .number n → -1 ≤ n) :
    Agrees Eq (Machine.execStack env flags op stack) (FairCoin.execStack env flags op stack) := by
  cases op with
  | number n =>
    show Agrees Eq ((getvch n).bind _) (.ok _)
    rw [getvch_eq (by have := hrange n rfl; omega)]
    exact Agrees.ok rfl
  | verify =>
    rcases stack with _ | ⟨vch, stack⟩
    · exact Agrees.error _
    · show Agrees Eq (if castToBool vch = true then _ else _) (if castToBool vch = true then _ else _)
      split
      · exact Agrees.ok rfl
      · exact Agrees.error _
  | stack op =>
    have h := execStackOp_agrees op stack
    show Agrees Eq (execStackOp op stack) (match op.exec stack with
      | some stack => .ok stack
      | none => .error .invalidStackOperation)
    cases hop : op.exec stack <;> rw [hop] at h <;> exact h
  | pick roll => exact execPick_agrees flags roll hsize
  | equal verify => exact execEqual_agrees verify stack
  | unary op => exact execUnary_agrees flags op stack
  | binary op => exact execBinary_agrees flags op stack
  | within => exact execWithin_agrees flags stack
  | hash op =>
    rcases stack with _ | ⟨vch, stack⟩
    · exact Agrees.error _
    · exact Agrees.ok rfl
  | _ => exact Agrees.error _

/-! ## Signatures -/

/-- The state of the machine is that of the interpreter, with a position in place of a suffix. -/
structure Same (script : CScript) (m : Machine.State) (st : EvalState) : Prop where
  stack : m.stack = st.stack
  altstack : m.altstack = st.altstack
  vfExec : m.vfExec = st.vfExec
  nOpCount : m.nOpCount = st.nOpCount
  codehash : script.drop m.pbegincodehash = st.codehash
  position : m.pbegincodehash ≤ script.length

variable {flags} in
theorem checkEncodings_of_error {vchSig vchPubKey : Valtype} {e : ScriptError}
    (h : FairCoin.checkEncodings flags vchSig vchPubKey = .error e) :
    Machine.checkEncodings flags vchSig vchPubKey = .error (.error e) := by
  rw [Machine.checkEncodings, h]

variable {flags} in
theorem checkEncodings_of_ok {vchSig vchPubKey : Valtype} {u : Unit}
    (h : FairCoin.checkEncodings flags vchSig vchPubKey = .ok u) :
    Machine.checkEncodings flags vchSig vchPubKey = .ok () := by
  rw [Machine.checkEncodings, h]

theorem scriptCode_eq {m : Machine.State} {st : EvalState} (hm : Same script m st) :
    scriptCode script m.pbegincodehash = .ok st.codehash := by
  rw [scriptCode, if_pos hm.position, hm.codehash]

theorem Same.length_codehash_le {m : Machine.State} {st : EvalState} (hm : Same script m st)
    (hlen : script.length ≤ 10000) : st.codehash.length ≤ 10000 := by
  rw [← hm.codehash, List.length_drop]
  omega

theorem execCheckSig_agrees (hlen : script.length ≤ 10000) (verify : Bool) {m : Machine.State}
    {st : EvalState} (hm : Same script m st) :
    Agrees (Same script) (Machine.execCheckSig env flags script verify m)
      (FairCoin.execCheckSig env flags verify st).2 := by
  have hstack := hm.stack
  unfold Machine.execCheckSig FairCoin.execCheckSig
  rcases hst : st.stack with _ | ⟨vchPubKey, _ | ⟨vchSig, stack⟩⟩
  · rw [hst] at hstack
    rw [hstack]
    exact Agrees.error _
  · rw [hst] at hstack
    rw [hstack]
    exact Agrees.error _
  · rw [hst] at hstack
    rw [hstack, scriptCode_eq hm]
    show Agrees (Same script) ((Machine.findAndDelete st.codehash (CScript.pushData vchSig)).bind _) _
    rw [findAndDelete_eq (hm.length_codehash_le hlen)]
    show Agrees (Same script) ((Machine.checkEncodings flags vchSig vchPubKey).bind _) _
    dsimp only
    generalize st.codehash.findAndDelete (CScript.pushData vchSig) = code
    cases henc : FairCoin.checkEncodings flags vchSig vchPubKey with
    | error e =>
      rw [checkEncodings_of_error henc]
      exact Agrees.error e
    | ok u =>
      rw [checkEncodings_of_ok henc]
      cases verify with
      | false =>
        exact Agrees.ok ⟨rfl, hm.altstack, hm.vfExec, hm.nOpCount, hm.codehash, hm.position⟩
      | true =>
        show Agrees (Same script) (if env.checkSig vchSig vchPubKey code = true then _ else _)
          (if env.checkSig vchSig vchPubKey code = true then _ else _)
        split
        · exact Agrees.ok ⟨rfl, hm.altstack, hm.vfExec, hm.nOpCount, hm.codehash, hm.position⟩
        · exact Agrees.error _

/-- The signatures are deleted from the script one after the other. -/
theorem deleteSigs_eq {stack rest : List Valtype} {isig : ℤ} (sigs : List Valtype) :
    ∀ (a k : ℕ) (code : CScript), code.length ≤ 10000 → stack.drop a = sigs ++ rest →
      (a : ℤ) + 1 = isig + k → deleteSigs stack isig sigs.length k code =
        .ok (sigs.foldl (fun code vchSig => code.findAndDelete (CScript.pushData vchSig)) code) := by
  induction sigs with
  | nil => exact fun _ _ _ _ _ _ => rfl
  | cons vchSig sigs ih =>
    intro a k code hlen hdrop hpos
    have htop : stacktop stack (-isig - k) = .ok vchSig := stacktop_eq hdrop (by omega)
    rw [List.length_cons, deleteSigs, htop]
    show Except.bind (Machine.findAndDelete code (CScript.pushData vchSig)) _ = _
    rw [findAndDelete_eq hlen]
    refine ih (a + 1) (k + 1) _ ((length_findAndDelete_le _ _).trans hlen) ?_ (by push_cast; omega)
    rw [← List.drop_drop, hdrop]
    rfl

/-- The loop over signatures and keys agrees with that on the two lists. -/
theorem checkSigs_agrees {stack : List Valtype} (code : CScript) (n : ℕ) :
    ∀ (a b : ℕ) (sigs keys rest₁ rest₂ : List Valtype), stack.drop a = sigs ++ rest₁ →
      stack.drop b = keys ++ rest₂ → sigs.length ≤ keys.length → keys.length < n →
      Agrees Eq (checkSigs env flags stack code n (a + 1) (b + 1) sigs.length keys.length true)
        (multiSigLoop env flags code sigs keys).2 := by
  induction n with
  | zero => exact fun _ _ _ _ _ _ _ _ _ h => absurd h (Nat.not_lt_zero _)
  | succ n ih =>
    intro a b sigs keys rest₁ rest₂ ha hb hle hfuel
    rcases sigs with _ | ⟨vchSig, sigs⟩
    · rw [multiSigLoop, checkSigs, if_neg (by simp)]
      exact Agrees.ok rfl
    rcases keys with _ | ⟨vchPubKey, keys⟩
    · simp at hle
    have htop₁ : stacktop stack (-((a : ℤ) + 1)) = .ok vchSig := stacktop_eq ha (by omega)
    have htop₂ : stacktop stack (-((b : ℤ) + 1)) = .ok vchPubKey := stacktop_eq hb (by omega)
    have hpos : (0 : ℤ) < (vchSig :: sigs).length := by simp only [List.length_cons]; omega
    have ha' : stack.drop (a + 1) = sigs ++ rest₁ := by
      rw [← List.drop_drop, ha]
      rfl
    have hb' : stack.drop (b + 1) = keys ++ rest₂ := by
      rw [← List.drop_drop, hb]
      rfl
    rw [checkSigs, if_pos ⟨rfl, hpos⟩, htop₁]
    show Agrees Eq ((stacktop stack (-((b : ℤ) + 1))).bind _) _
    rw [htop₂]
    show Agrees Eq ((Machine.checkEncodings flags vchSig vchPubKey).bind _) _
    rw [multiSigLoop]
    cases henc : FairCoin.checkEncodings flags vchSig vchPubKey with
    | error e =>
      rw [checkEncodings_of_error henc]
      exact Agrees.error e
    | ok u =>
      rw [checkEncodings_of_ok henc]
      simp only [List.length_cons] at hle hfuel
      -- a signature that does not fit is kept for the next key
      show Agrees Eq (checkSigs env flags stack code n
        (if env.checkSig vchSig vchPubKey code = true then (a : ℤ) + 1 + 1 else a + 1) (b + 1 + 1)
        (if env.checkSig vchSig vchPubKey code = true then ((vchSig :: sigs).length : ℤ) - 1
          else (vchSig :: sigs).length) ((vchPubKey :: keys).length - 1)
        (if ((vchPubKey :: keys).length : ℤ) - 1 <
          (if env.checkSig vchSig vchPubKey code = true then ((vchSig :: sigs).length : ℤ) - 1
            else (vchSig :: sigs).length) then false else true)) _
      have hkeys : ((vchPubKey :: keys).length : ℤ) - 1 = keys.length := by
        simp only [List.length_cons]
        push_cast
        omega
      have hb₁ : (b : ℤ) + 1 + 1 = (b + 1 : ℕ) + 1 := by push_cast; rfl
      rw [hkeys, hb₁]
      cases hfit : env.checkSig vchSig vchPubKey code with
      | true =>
        have hsigs : ((vchSig :: sigs).length : ℤ) - 1 = sigs.length := by
          simp only [List.length_cons]
          push_cast
          omega
        have ha₁ : (a : ℤ) + 1 + 1 = (a + 1 : ℕ) + 1 := by push_cast; rfl
        simp only [if_true, hsigs]
        rw [if_neg (by omega), if_neg (by omega), ha₁]
        exact ih (a + 1) (b + 1) sigs keys rest₁ rest₂ ha' hb' (by omega) (by omega)
      | false =>
        simp only [Bool.false_eq_true, if_false]
        by_cases hexit : keys.length < (vchSig :: sigs).length
        · rw [if_pos (by exact_mod_cast hexit), if_pos hexit]
          obtain ⟨n, rfl⟩ : ∃ n', n = n' + 1 := ⟨n - 1, by omega⟩
          rw [checkSigs, if_neg (by simp)]
          exact Agrees.ok rfl
        · rw [if_neg (by exact_mod_cast hexit), if_neg hexit]
          exact ih a (b + 1) (vchSig :: sigs) keys rest₁ rest₂ ha hb' (by omega) (by omega)

/-- `OP_CHECKMULTISIG` of the interpreter, as its parts one after the other. -/
theorem execCheckMultiSig_snd (verify : Bool) (st : EvalState) :
    (FairCoin.execCheckMultiSig env flags verify st).2 =
      (multiSigArgs flags st.nOpCount st.stack).bind fun args =>
        (multiSigLoop env flags (args.sigs.foldl
          (fun code vchSig => code.findAndDelete (CScript.pushData vchSig)) st.codehash)
            args.sigs args.keys).2.bind fun fSuccess =>
          multiSigResult flags verify { st with nOpCount := st.nOpCount + args.keys.length }
            args.below fSuccess := by
  unfold FairCoin.execCheckMultiSig
  cases multiSigArgs flags st.nOpCount st.stack with
  | error e => rfl
  | ok args =>
    dsimp only [Except.bind]
    cases (multiSigLoop env flags (args.sigs.foldl
      (fun code vchSig => code.findAndDelete (CScript.pushData vchSig)) st.codehash)
        args.sigs args.keys).2 <;> rfl

theorem except_bind_assoc {ε α β γ : Type} (x : Except ε α) (f : α → Except ε β)
    (g : β → Except ε γ) : (x.bind f).bind g = x.bind fun a => (f a).bind g := by
  cases x <;> rfl

/-- What is left to do when the arguments were counted: the signatures are deleted and checked, and
the arguments go. -/
theorem multiSigTail_agrees (hlen : script.length ≤ 10000) (verify : Bool) {m : Machine.State}
    {st : EvalState} (hm : Same script m st) {vch count dummy : Valtype}
    {keys sigs below : List Valtype}
    (hstack : m.stack = vch :: (keys ++ count :: (sigs ++ dummy :: below)))
    (hkeys : keys.length ≤ 20) (hle : sigs.length ≤ keys.length) (isig : ℤ)
    (hisig : isig = keys.length + 3) :
    Agrees (Same script)
      ((deleteSigs m.stack isig sigs.length 0 st.codehash).bind fun code =>
        (checkSigs env flags m.stack code 21 isig 2 sigs.length keys.length true).bind
          fun fSuccess =>
          (popMany (2 + keys.length + sigs.length) m.stack).bind fun stack =>
            (need 1 stack).bind fun _ =>
              (stacktop stack (-1)).bind fun dummy =>
                if flags.nullDummy && !dummy.isEmpty then .error (.error .sigNullDummy)
                else
                  (popstack stack).bind fun stack =>
                    if verify then
                      if fSuccess then
                        (popstack (vchBool fSuccess :: stack)).bind fun stack =>
                          .ok { m with stack := stack, nOpCount := m.nOpCount + keys.length }
                      else .error (.error .checkMultiSigVerify)
                    else
                      .ok { m with
                        stack := vchBool fSuccess :: stack
                        nOpCount := m.nOpCount + keys.length })
      ((multiSigLoop env flags (sigs.foldl
        (fun code vchSig => code.findAndDelete (CScript.pushData vchSig)) st.codehash)
          sigs keys).2.bind fun fSuccess =>
        multiSigResult flags verify { st with nOpCount := st.nOpCount + keys.length }
          (dummy :: below) fSuccess) := by
  have hsigs : m.stack.drop (keys.length + 2) = sigs ++ dummy :: below := by
    rw [hstack, List.drop_succ_cons, ← List.drop_drop, List.drop_left]
    rfl
  have hkeysdrop : m.stack.drop 1 = keys ++ count :: (sigs ++ dummy :: below) := by
    rw [hstack]
    rfl
  have hbelow : m.stack.drop (2 + keys.length + sigs.length) = dummy :: below := by
    rw [← List.drop_drop, Nat.add_comm 2, hsigs, List.drop_left]
  have hlength : 2 + keys.length + sigs.length ≤ m.stack.length := by
    rw [hstack]
    simp only [List.length_cons, List.length_append]
    omega
  rw [deleteSigs_eq sigs (keys.length + 2) 0 st.codehash (hm.length_codehash_le hlen) hsigs
    (by rw [hisig]; push_cast; omega)]
  show Agrees (Same script) ((checkSigs env flags m.stack _ 21 isig 2 _ _ true).bind _) _
  have hcheck := checkSigs_agrees env flags (sigs.foldl
    (fun code vchSig => code.findAndDelete (CScript.pushData vchSig)) st.codehash) 21
    (keys.length + 2) 1 sigs keys _ _ hsigs hkeysdrop hle (by omega)
  have hi₁ : ((keys.length + 2 : ℕ) : ℤ) + 1 = isig := by rw [hisig]; push_cast; omega
  rw [hi₁] at hcheck
  refine hcheck.bind ?_
  rintro fSuccess _ rfl
  rw [popMany_eq _ _ hlength, hbelow]
  show Agrees (Same script) (if (flags.nullDummy && !dummy.isEmpty) = true then _ else _)
    (if (flags.nullDummy && !dummy.isEmpty) = true then _ else _)
  have hcount : m.nOpCount + keys.length = (st.nOpCount + keys.length : ℕ) := by
    rw [hm.nOpCount]
    push_cast
    rfl
  split
  · exact Agrees.error _
  · cases verify with
    | false => exact Agrees.ok ⟨rfl, hm.altstack, hm.vfExec, hcount, hm.codehash, hm.position⟩
    | true =>
      cases fSuccess with
      | true => exact Agrees.ok ⟨rfl, hm.altstack, hm.vfExec, hcount, hm.codehash, hm.position⟩
      | false => exact Agrees.error _

theorem execCheckMultiSig_agrees (hlen : script.length ≤ 10000) (verify : Bool)
    {m : Machine.State} {st : EvalState} (hm : Same script m st) (hsize : m.stack.length ≤ 1000) :
    Agrees (Same script) (Machine.execCheckMultiSig env flags script verify m)
      (FairCoin.execCheckMultiSig env flags verify st).2 := by
  rw [execCheckMultiSig_snd, ← hm.stack]
  unfold Machine.execCheckMultiSig
  rcases hstack : m.stack with _ | ⟨vch, stack⟩
  · exact Agrees.error _
  rw [hstack] at hsize
  rw [needInt_of_le hsize (by simp only [List.length_cons]; push_cast; omega)]
  show Agrees (Same script) ((scriptNum flags vch).bind _) (((readNum flags vch).bind _).bind _)
  rw [except_bind_assoc]
  refine (scriptNum_agrees flags vch).bind ?_
  rintro nKeys _ ⟨rfl, hrange⟩
  rw [getint_eq hrange]
  by_cases hcount : nKeys < 0 ∨ 20 < nKeys
  · rw [if_pos hcount, if_pos hcount]
    exact Agrees.error _
  rw [if_neg hcount, if_neg hcount]
  have hops : 201 < m.nOpCount + nKeys ↔ 201 < st.nOpCount + nKeys.toNat := by
    rw [hm.nOpCount]
    omega
  by_cases hop : 201 < m.nOpCount + nKeys
  · rw [if_pos hop, if_pos (hops.1 hop)]
    exact Agrees.error _
  rw [if_neg hop, if_neg (fun h => hop (hops.2 h))]
  obtain ⟨k, rfl⟩ : ∃ k : ℕ, nKeys = k := ⟨nKeys.toNat, by omega⟩
  rw [Int.toNat_natCast]
  -- the count of the signatures is below the keys
  rcases hdrop : stack.drop k with _ | ⟨count, rest⟩
  · have hshort : stack.length ≤ k := List.drop_eq_nil_iff.1 hdrop
    show Agrees (Same script) ((needInt (2 + (k : ℤ)) (vch :: stack)).bind _) _
    rw [needInt_of_lt hsize (by simp only [List.length_cons]; push_cast; omega)]
    exact Agrees.error _
  have hk : k < stack.length := by
    by_contra hge
    rw [List.drop_eq_nil_of_le (not_lt.1 hge)] at hdrop
    cases hdrop
  show Agrees (Same script) ((needInt (2 + (k : ℤ)) (vch :: stack)).bind _) _
  rw [needInt_of_le hsize (by simp only [List.length_cons]; push_cast; omega)]
  have hdrop' : (vch :: stack).drop (k + 1) = count :: rest := hdrop
  have htop : stacktop (vch :: stack) (-(2 + (k : ℤ))) = .ok count :=
    stacktop_eq hdrop' (by push_cast; omega)
  show Agrees (Same script) ((stacktop (vch :: stack) (-(2 + (k : ℤ)))).bind _) _
  rw [htop]
  show Agrees (Same script) ((scriptNum flags count).bind _) (((readNum flags count).bind _).bind _)
  rw [except_bind_assoc]
  refine (scriptNum_agrees flags count).bind ?_
  rintro nSigs _ ⟨rfl, hrange'⟩
  rw [getint_eq hrange']
  by_cases hsigs : nSigs < 0 ∨ (k : ℤ) < nSigs
  · rw [if_pos hsigs, if_pos hsigs]
    exact Agrees.error _
  rw [if_neg hsigs, if_neg hsigs]
  obtain ⟨j, rfl⟩ : ∃ j : ℕ, nSigs = j := ⟨nSigs.toNat, by omega⟩
  rw [Int.toNat_natCast]
  have hrest : rest.length = stack.length - (k + 1) := by
    have h := congrArg List.length hdrop
    rw [List.length_drop, List.length_cons] at h
    omega
  have hlengths := Nat.lt_or_ge j rest.length
  apply Or.elim hlengths
  case right =>
    intro hshort
    show Agrees (Same script) ((needInt (2 + (k : ℤ) + 1 + j) (vch :: stack)).bind _) _
    rw [needInt_of_lt hsize (by simp only [List.length_cons]; push_cast; omega), if_pos hshort]
    exact Agrees.error _
  intro hlong
  have hshort := not_le.2 hlong
  show Agrees (Same script) ((needInt (2 + (k : ℤ) + 1 + j) (vch :: stack)).bind _) _
  rw [needInt_of_le hsize (by simp only [List.length_cons]; push_cast; omega), if_neg hshort,
    scriptCode_eq hm]
  -- the arguments, from the top
  obtain ⟨dummy, below, hbelow⟩ : ∃ dummy below, rest.drop j = dummy :: below := by
    rcases h : rest.drop j with _ | ⟨dummy, below⟩
    · exact absurd (List.drop_eq_nil_iff.1 h) hshort
    · exact ⟨dummy, below, rfl⟩
  have hkeys : (stack.take k).length = k := by rw [List.length_take]; omega
  have hsigs' : (rest.take j).length = j := by rw [List.length_take]; omega
  have hargs : m.stack = vch :: (stack.take k ++ count :: (rest.take j ++ dummy :: below)) := by
    rw [hstack, ← hbelow, List.take_append_drop, ← hdrop, List.take_append_drop]
  have htail := multiSigTail_agrees env flags hlen verify hm hargs (by omega) (by omega)
    (2 + (k : ℤ) + 1) (by rw [hkeys]; omega)
  rw [hkeys, hsigs', ← hm.stack, hstack] at htail
  have hpops : (2 + (k : ℤ) + 1 + j - 1).toNat = 2 + k + j := by omega
  rw [hbelow]
  show Agrees (Same script) ((deleteSigs (vch :: stack) (2 + (k : ℤ) + 1) j 0 st.codehash).bind _) _
  rw [hpops]
  show Agrees (Same script) _ ((multiSigLoop env flags _ (rest.take j) (stack.take k)).2.bind
    fun fSuccess => multiSigResult flags verify
      { st with stack := vch :: stack, nOpCount := st.nOpCount + (stack.take k).length }
      (dummy :: below) fSuccess)
  rw [hkeys]
  exact htail

/-! ## The loop -/

/-- An opcode that works on the stack alone. -/
theorem execOnStack_agrees (op : Opcode) {stack : List Valtype} (altstack : List Valtype)
    (vfExec : List Bool) {pos nOpCount' : ℕ} {nOpCount : ℤ} (hcount : nOpCount = nOpCount')
    (hpos : pos ≤ script.length) (hsize : stack.length ≤ 1000)
    (hrange : ∀ n, op = .number n → -1 ≤ n) :
    Agrees (Same script)
      ((Machine.execStack env flags op stack).bind fun stack =>
        .ok ⟨stack, altstack, vfExec, nOpCount, pos⟩)
      (match FairCoin.execStack env flags op stack with
        | .ok stack => .ok ⟨stack, altstack, vfExec, nOpCount', script.drop pos⟩
        | .error e => .error e) := by
  have hbind := (execStack_agrees env flags op hsize hrange).bind (S := Same script)
    (f := fun stack => .ok ⟨stack, altstack, vfExec, nOpCount, pos⟩)
    (g := fun stack => .ok ⟨stack, altstack, vfExec, nOpCount', script.drop pos⟩) (by
      rintro stack _ rfl
      exact Agrees.ok ⟨rfl, rfl, rfl, hcount, rfl, hpos⟩)
  cases hstack : FairCoin.execStack env flags op stack <;> rw [hstack] at hbind <;> exact hbind

theorem exec_agrees (hlen : script.length ≤ 10000) {pc : ℕ} (hpc : pc ≤ script.length)
    (op : Opcode) {m : Machine.State} {st : EvalState} (hm : Same script m st)
    (hsize : m.stack.length ≤ 1000) (hrange : ∀ n, op = .number n → -1 ≤ n) :
    Agrees (Same script) (Machine.exec env flags script op pc m)
      (FairCoin.exec env flags op (script.drop pc) st).2 := by
  have hcheckSig := fun verify => execCheckSig_agrees env flags hlen verify hm
  have hcheckMultiSig := fun verify => execCheckMultiSig_agrees env flags hlen verify hm hsize
  obtain ⟨stack, altstack, vfExec, nOpCount, pos⟩ := m
  obtain ⟨stack', altstack', vfExec', nOpCount', code⟩ := st
  obtain ⟨rfl, rfl, rfl, hcount, rfl, hpos⟩ := hm
  have lift := execOnStack_agrees env flags op altstack vfExec hcount hpos hsize hrange
  cases op with
  | nop => exact Agrees.ok ⟨rfl, rfl, rfl, hcount, rfl, hpos⟩
  | upgradableNop =>
    show Agrees (Same script) (if flags.discourageUpgradableNops = true then _ else _)
      (if flags.discourageUpgradableNops = true then _ else _)
    split
    · exact Agrees.error _
    · exact Agrees.ok ⟨rfl, rfl, rfl, hcount, rfl, hpos⟩
  | ifThen negated =>
    show Agrees (Same script) (if vfExec.all id = true then _ else _)
      (if vfExec.all id = true then _ else _)
    split
    · rcases stack with _ | ⟨vch, stack⟩
      · exact Agrees.error _
      · refine Agrees.ok ⟨rfl, rfl, ?_, hcount, rfl, hpos⟩
        show (if negated = true then !castToBool vch else castToBool vch) :: vfExec =
          (castToBool vch != negated) :: vfExec
        cases negated <;> cases castToBool vch <;> rfl
    · exact Agrees.ok ⟨rfl, rfl, rfl, hcount, rfl, hpos⟩
  | orElse =>
    rcases vfExec with _ | ⟨b, vfExec⟩
    · exact Agrees.error _
    · exact Agrees.ok ⟨rfl, rfl, rfl, hcount, rfl, hpos⟩
  | endIf =>
    rcases vfExec with _ | ⟨b, vfExec⟩
    · exact Agrees.error _
    · exact Agrees.ok ⟨rfl, rfl, rfl, hcount, rfl, hpos⟩
  | opReturn => exact Agrees.error _
  | toAltStack =>
    rcases stack with _ | ⟨vch, stack⟩
    · exact Agrees.error _
    · exact Agrees.ok ⟨rfl, rfl, rfl, hcount, rfl, hpos⟩
  | fromAltStack =>
    rcases altstack with _ | ⟨vch, altstack⟩
    · exact Agrees.error _
    · exact Agrees.ok ⟨rfl, rfl, rfl, hcount, rfl, hpos⟩
  | codeSeparator => exact Agrees.ok ⟨rfl, rfl, rfl, hcount, rfl, hpc⟩
  | checkSig verify => exact hcheckSig verify
  | checkMultiSig verify => exact hcheckMultiSig verify
  | _ => exact lift

/-- The numbers that opcodes push are not below `-1`. -/
theorem neg_one_le_of_ofByte {b : UInt8} {n : ℤ} (h : Opcode.ofByte b = .number n) : -1 ≤ n := by
  unfold Opcode.ofByte at h
  split at h
  · cases h
  split at h
  · cases h
    exact le_rfl
  split at h
  · next hb =>
    have := UInt8.le_iff_toNat_le.1 hb.1
    cases h
    rw [show (0x51 : UInt8).toNat = 0x51 from rfl] at this
    omega
  split at h
  · cases h
  · split at h <;> cases h

/-- The limit on the two stacks of the machine. -/
def Small (m : Machine.State) : Prop := m.stack.length + m.altstack.length ≤ 1000

/-- A round of the loop keeps the states the same and the stacks small. -/
theorem evalStep_agrees (hlen : script.length ≤ 10000) {pc : ℕ} (hpc : pc ≤ script.length)
    (opcode : UInt8) (vchPushValue : Valtype) {m : Machine.State} {st : EvalState}
    (hm : Same script m st) (hsmall : Small m) :
    Agrees (fun m' st' => Same script m' st' ∧ Small m')
      (Machine.evalStep env flags script opcode vchPushValue pc m)
      (FairCoin.evalStep env flags opcode vchPushValue (script.drop pc) st).2 := by
  unfold Machine.evalStep FairCoin.evalStep
  by_cases hpush : 520 < vchPushValue.length
  · rw [if_pos hpush, if_pos hpush]
    exact .error _
  rw [if_neg hpush, if_neg hpush]
  have hcounted : Same script
      (if 0x60 < opcode then { m with nOpCount := m.nOpCount + 1 } else m) (st.countOp opcode) := by
    unfold EvalState.countOp
    split
    · exact ⟨hm.stack, hm.altstack, hm.vfExec, by
        rw [hm.nOpCount]
        push_cast
        rfl, hm.codehash, hm.position⟩
    · exact hm
  have hstack : (if 0x60 < opcode then { m with nOpCount := m.nOpCount + 1 } else m).stack =
      m.stack := by split <;> rfl
  have hops : (0x60 < opcode ∧ 201 < (if 0x60 < opcode then { m with nOpCount := m.nOpCount + 1 }
      else m).nOpCount) ↔ (0x60 < opcode ∧ 200 < st.nOpCount) := by
    refine and_congr_right fun h => ?_
    rw [if_pos h]
    show 201 < m.nOpCount + 1 ↔ 200 < st.nOpCount
    rw [hm.nOpCount]
    omega
  dsimp only
  generalize (if 0x60 < opcode then { m with nOpCount := m.nOpCount + 1 } else m) = m'
    at hcounted hstack hops
  by_cases hcount : 0x60 < opcode ∧ 200 < st.nOpCount
  · rw [if_pos (hops.2 hcount), if_pos hcount]
    exact .error _
  rw [if_neg (fun h => hcount (hops.1 h)), if_neg hcount]
  by_cases hdisabled : Opcode.ofByte opcode = .disabled
  · rw [if_pos hdisabled, if_pos hdisabled]
    exact .error _
  rw [if_neg hdisabled, if_neg hdisabled]
  have hexec : (st.countOp opcode).fExec = m.vfExec.all id := by rw [hm.vfExec]; rfl
  have hlimit : ∀ m' st', Same script m' st' → Agrees (fun m' st' => Same script m' st' ∧ Small m')
      (if 1000 < m'.stack.length + m'.altstack.length then .error (.error .stackSize) else .ok m')
      (checkStackSize st') := by
    intro m' st' hm'
    unfold checkStackSize
    rw [← hm'.stack, ← hm'.altstack]
    by_cases hfull : 1000 < m'.stack.length + m'.altstack.length
    · rw [if_pos hfull, if_pos hfull]
      exact .error _
    · rw [if_neg hfull, if_neg hfull]
      exact .ok ⟨hm', not_lt.1 hfull⟩
  unfold execOpcode
  rw [hexec]
  split
  · unfold execPush
    split
    · exact .error _
    · exact hlimit _ _ ⟨by rw [hcounted.stack], hcounted.altstack, hcounted.vfExec,
        hcounted.nOpCount, hcounted.codehash, hcounted.position⟩
  · split
    · refine (exec_agrees env flags hlen hpc _ hcounted ?_ fun n => neg_one_le_of_ofByte).bind hlimit
      rw [hstack]
      exact (Nat.le_add_right _ _).trans hsmall
    · exact hlimit _ _ hcounted

/-- **A run of the loop agrees with the interpreter**, and leaves the stacks small. -/
theorem evalLoop_agrees (hlen : script.length ≤ 10000) (n : ℕ) :
    ∀ (k pc : ℕ) (m : Machine.State) (st : EvalState), pc ≤ script.length →
      script.length - pc < n → script.length - pc ≤ k → Same script m st → Small m →
      Agrees (fun m' st' => Same script m' st' ∧ Small m')
        (Machine.evalLoop env flags script n pc m)
        (FairCoin.evalLoop env flags k (script.drop pc) st).2 := by
  induction n with
  | zero => exact fun _ _ _ _ _ h => absurd h (Nat.not_lt_zero _)
  | succ n ih =>
    intro k pc m st hpc hn hk hm hsmall
    rw [Machine.evalLoop]
    by_cases hend : pc < script.length
    · obtain ⟨k, rfl⟩ : ∃ k', k = k' + 1 := ⟨k - 1, by omega⟩
      obtain ⟨b, rest, hdrop⟩ : ∃ b rest, script.drop pc = b :: rest := by
        cases h : script.drop pc with
        | nil => exact absurd (List.drop_eq_nil_iff.1 h) (not_le.2 hend)
        | cons b rest => exact ⟨b, rest, rfl⟩
      have hop := getOp2_spec hlen pc
      rw [if_pos hend]
      rw [hdrop] at hop ⊢
      rw [FairCoin.evalLoop]
      rcases hop with ⟨h₁, h₂⟩ | ⟨opcode, vch, pc', h₁, h₂, hlt, hle⟩
      · rw [h₁, h₂]
        exact .error _
      · rw [h₁, h₂]
        show Agrees _ ((Machine.evalStep env flags script opcode vch pc' m).bind _) _
        have hstep := evalStep_agrees env flags hlen hle opcode vch hm hsmall
        have hrun := hstep.bind (f := fun m => Machine.evalLoop env flags script n pc' m)
          (g := fun st => (FairCoin.evalLoop env flags k (script.drop pc') st).2) (by
            rintro m' st' ⟨hm', hsmall'⟩
            exact ih k pc' m' st' hle (by omega) (by omega) hm' hsmall')
        dsimp only
        cases hst : (FairCoin.evalStep env flags opcode vch (script.drop pc') st).2 <;>
          rw [hst] at hrun <;> exact hrun
    · rw [if_neg hend, List.drop_eq_nil_of_le (not_lt.1 hend)]
      cases k <;> exact .ok ⟨hm, hsmall⟩

/-! ## The whole script -/

theorem tryBlock_agrees {stack : List Valtype} (hsize : stack.length ≤ 1000) (script : CScript) :
    Agrees (fun m st => Same script m st ∧ Small m) (tryBlock env flags stack script)
      (if 10000 < script.length then .error .scriptSize
        else (FairCoin.evalLoop env flags script.length script
          { stack := stack, codehash := script }).2) := by
  unfold tryBlock
  split
  · exact .error _
  · next hlen =>
    exact evalLoop_agrees env flags (not_lt.1 hlen) _ script.length 0 _ _ (Nat.zero_le _)
      (Nat.lt_succ_self _) le_rfl ⟨rfl, rfl, rfl, rfl, rfl, Nat.zero_le _⟩ hsize

/-- What a caller sees of the interpreter. -/
def returned {α : Type} : Except ScriptError α → Except Halt α
  | .ok a => .ok a
  | .error e => .error (.error e)

/-- **The machine returns what the interpreter returns.** -/
theorem evalScript_eq {stack : List Valtype} (hsize : stack.length ≤ 1000) (script : CScript) :
    Machine.evalScript env flags stack script =
      returned (FairCoin.evalScript env flags stack script).2 := by
  have h := tryBlock_agrees env flags hsize script
  unfold Machine.evalScript FairCoin.evalScript
  by_cases hlen : 10000 < script.length
  · rw [tryBlock, if_pos hlen, if_pos hlen]
    rfl
  rw [if_neg hlen] at h ⊢
  dsimp only
  generalize tryBlock env flags stack script = x at h ⊢
  generalize (FairCoin.evalLoop env flags script.length script
    { stack := stack, codehash := script }).2 = y at h ⊢
  cases h with
  | ok h =>
    next m st =>
    obtain ⟨hm, -⟩ := h
    show (if (!m.vfExec.isEmpty) = true then _ else _) =
      returned (if st.vfExec = [] then .ok st.stack else .error .unbalancedConditional)
    rw [hm.vfExec, hm.stack]
    cases st.vfExec <;> rfl
  | error e => rfl
  | scriptNum => rfl

/-- What `EvalScript` leaves when it returns true. -/
theorem evalScript_ok {stack stack' : List Valtype} {script : CScript}
    (hsize : stack.length ≤ 1000)
    (h : Machine.evalScript env flags stack script = .ok stack') :
    ∃ m, tryBlock env flags stack script = .ok m ∧ m.stack = stack' ∧ m.vfExec = [] ∧
      m.stack.length + m.altstack.length ≤ 1000 := by
  have hagrees := tryBlock_agrees env flags hsize script
  unfold Machine.evalScript at h
  generalize tryBlock env flags stack script = x at h hagrees ⊢
  generalize (if 10000 < script.length then .error .scriptSize
    else (FairCoin.evalLoop env flags script.length script
      { stack := stack, codehash := script }).2) = y at hagrees
  cases hagrees with
  | ok hm =>
    next m st =>
    have hite : (if (!m.vfExec.isEmpty) = true then .error (.error .unbalancedConditional)
        else .ok m.stack : Except Halt (List Valtype)) = .ok stack' := h
    split at hite
    · cases hite
    · next hbalanced =>
      cases hite
      exact ⟨m, rfl, rfl, by simpa using hbalanced, hm.2⟩
  | error e => cases h
  | scriptNum => cases h

/-- A pay-to-script-hash script fails on an empty stack: there is nothing to hash. -/
theorem evalScript_p2sh_nil {script : CScript} (h : script.isPayToScriptHash = true) :
    ∃ e, (FairCoin.evalScript env flags [] script).2 = .error e := by
  simp only [CScript.isPayToScriptHash, Bool.and_eq_true, beq_iff_eq] at h
  obtain ⟨⟨⟨hlen, h₀⟩, -⟩, -⟩ := h
  rcases script with _ | ⟨b, rest⟩
  · cases h₀
  obtain rfl : b = 0xa9 := by simpa using h₀
  refine ⟨.invalidStackOperation, ?_⟩
  unfold FairCoin.evalScript
  rw [if_neg (by rw [hlen]; decide), hlen]
  rfl

/-- The stack that `EvalScript` leaves is small again. -/
theorem length_evalScript_le {stack stack' : List Valtype} {script : CScript}
    (hsize : stack.length ≤ 1000)
    (h : (FairCoin.evalScript env flags stack script).2 = .ok stack') : stack'.length ≤ 1000 := by
  have heval : Machine.evalScript env flags stack script = .ok stack' := by
    rw [evalScript_eq env flags hsize, h]
    rfl
  obtain ⟨m, -, rfl, -, hsmall⟩ := evalScript_ok env flags hsize heval
  exact (Nat.le_add_right _ _).trans hsmall

theorem checkTop_eq (stack : List Valtype) :
    Machine.checkTop stack = returned (FairCoin.checkTop stack) := by
  cases stack with
  | nil => rfl
  | cons vch stack =>
    show (if castToBool vch = true then _ else _) =
      returned (if castToBool vch = true then _ else _)
    split <;> rfl

theorem returned_bind {α β : Type} (x : Except ScriptError α) (f : α → Except ScriptError β) :
    returned (x.bind f) = (returned x).bind fun a => returned (f a) := by
  cases x <;> rfl

/-- A script is evaluated, and its top must be true. -/
theorem evalScript_checkTop {stack : List Valtype} (hsize : stack.length ≤ 1000)
    (script : CScript) :
    (Machine.evalScript env flags stack script).bind Machine.checkTop =
      returned ((FairCoin.evalScript env flags stack script).2.bind FairCoin.checkTop) := by
  rw [evalScript_eq env flags hsize, returned_bind]
  refine congrArg _ ?_
  funext stack
  exact checkTop_eq stack

/-- **`VerifyScript` returns what the interpreter returns**: its assertion never fails. -/
theorem verifyScript_eq (scriptSig scriptPubKey : CScript) :
    Machine.verifyScript env flags scriptSig scriptPubKey =
      returned (FairCoin.verifyScript env flags scriptSig scriptPubKey).2 := by
  unfold Machine.verifyScript FairCoin.verifyScript
  split
  · rfl
  have hnil : ([] : List Valtype).length ≤ 1000 := Nat.zero_le _
  rw [evalScript_eq env flags hnil scriptSig]
  dsimp only
  cases hfirst : (FairCoin.evalScript env flags [] scriptSig).2 with
  | error e => rfl
  | ok stack =>
    have hsize := length_evalScript_le env flags hnil hfirst
    have h₂ := evalScript_eq env flags hsize scriptPubKey
    show (Machine.evalScript env flags stack scriptPubKey).bind _ = _
    rw [h₂]
    dsimp only
    cases hsecond : (FairCoin.evalScript env flags stack scriptPubKey).2 with
    | error e => rfl
    | ok stack' =>
      show (Machine.checkTop stack').bind _ = _
      rw [checkTop_eq]
      simp only [Except.bind]
      cases htop : FairCoin.checkTop stack' with
      | error e => rfl
      | ok _ =>
        show (if (flags.p2sh && scriptPubKey.isPayToScriptHash) = true then _ else _) = _
        show _ = returned (if (flags.p2sh && scriptPubKey.isPayToScriptHash) = true then
          (_, (verifyScriptHash env flags scriptSig stack).2) else (_, .ok ())).2
        by_cases hp2sh : (flags.p2sh && scriptPubKey.isPayToScriptHash) = true
        · obtain ⟨hflag, hscript⟩ := Bool.and_eq_true_iff.1 hp2sh
          rw [if_pos hp2sh, if_pos hp2sh, if_pos hflag]
          unfold verifyScriptHash
          split
          · rfl
          rcases stack with _ | ⟨pubKeySerialized, stackCopy⟩
          · obtain ⟨e, herror⟩ := evalScript_p2sh_nil env flags hscript
            rw [herror] at hsecond
            cases hsecond
          · exact evalScript_checkTop env flags ((Nat.le_succ _).trans hsize) pubKeySerialized
        · rw [if_neg hp2sh, if_neg hp2sh]
          rfl

theorem returned_error {α : Type} {x : Except ScriptError α} {halt : Halt}
    (h : returned x = .error halt) : ∃ e, halt = .error e := by
  cases x with
  | ok a => cases h
  | error e =>
    cases h
    exact ⟨e, rfl⟩

/-- **The interpreter cannot be crashed.**  Whatever the script, the flags and the checker, and
however at most 1000 elements lie on the stack:

* before its `catch` clause a run halts with an error that it returns, or because a number is too long
  or not minimal; never because a vector or the script is accessed outside of its bounds, an assertion
  fails, an operand leaves its range or a result overflows, and never not at all;
* `EvalScript` itself halts with an error that it returns, and when it returns true, the two stacks
  hold at most 1000 elements and every conditional is closed;
* `VerifyScript` halts with an error that it returns, and not on its assertion. -/
theorem interpreter_safe {stack : List Valtype} (hsize : stack.length ≤ 1000)
    (script scriptSig scriptPubKey : CScript) :
    (∀ halt, tryBlock env flags stack script = .error halt →
      halt = .scriptNum ∨ ∃ e, halt = .error e) ∧
    (∀ halt, Machine.evalScript env flags stack script = .error halt → ∃ e, halt = .error e) ∧
    (∀ stack', Machine.evalScript env flags stack script = .ok stack' →
      ∃ m, tryBlock env flags stack script = .ok m ∧ m.stack = stack' ∧ m.vfExec = [] ∧
        m.stack.length + m.altstack.length ≤ 1000) ∧
    ∀ halt, Machine.verifyScript env flags scriptSig scriptPubKey = .error halt →
      ∃ e, halt = .error e := by
  refine ⟨?_, ?_, ?_, ?_⟩
  · intro halt h
    have hagrees := tryBlock_agrees env flags hsize script
    rw [h] at hagrees
    generalize (if 10000 < script.length then .error .scriptSize
      else (FairCoin.evalLoop env flags script.length script
        { stack := stack, codehash := script }).2) = y at hagrees
    cases hagrees with
    | error e => exact .inr ⟨e, rfl⟩
    | scriptNum => exact .inl rfl
  · intro halt h
    rw [evalScript_eq env flags hsize] at h
    exact returned_error h
  · intro stack' h
    exact evalScript_ok env flags hsize h
  · intro halt h
    rw [verifyScript_eq] at h
    exact returned_error h

end Instructions

/-- `OP_1 OP_IF OP_ROLL OP_ENDIF`: there is nothing to roll. -/
theorem interpreter_safe_roll :
    ([] : List Valtype).length ≤ 1000 ∧
    ∀ halt, Machine.evalScript ⟨fun _ _ _ => false, id, id, id⟩ {} [] [0x51, 0x63, 0x7a, 0x68] =
      .error halt → ∃ e, halt = .error e :=
  have hnil : ([] : List Valtype).length ≤ 1000 := by decide
  ⟨hnil, (interpreter_safe _ {} hnil [0x51, 0x63, 0x7a, 0x68] [] []).2.1⟩

end FairCoin
