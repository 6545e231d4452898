import FairCoin.Script

/-!
# Signature operations

`GetSigOpCount` scans a script and counts an `OP_CHECKMULTISIG` by the opcode before it, while the
interpreter takes the number of keys off the stack.  The two agree because an `OP_1` up to `OP_16`
that is executed leaves its number on top.

* `PushedBy` — the invariant of the loop: what the opcode before left on the stack.
* `evalStep_calls_le`, `evalLoop_calls_le` — one opcode, and a run of the loop.
* `TopIs` — the invariant of a script that only pushes: its last push is on top, or the top is no
  script with signatures.
* `verifyScript_calls_le` — **the count bounds the signatures that are checked**.
-/

namespace FairCoin

/-! ## Opcodes -/

theorem ofByte_number {b : UInt8} (hlo : 0x51 ≤ b) (hhi : b ≤ 0x60) :
    Opcode.ofByte b = .number ((b.toNat : ℤ) - 0x50) := by
  have hpush : ¬b ≤ 0x4e := by
    intro hb
    exact absurd (UInt8.le_trans hlo hb) (by decide)
  have hneg : b ≠ 0x4f := by
    rintro rfl
    exact absurd hlo (by decide)
  rw [Opcode.ofByte, if_neg hpush, if_neg hneg, if_pos ⟨hlo, hhi⟩]

/-- The conditionals check no signature. -/
theorem not_isConditional_of_checkMultiSig {b : UInt8} {verify : Bool}
    (hb : Opcode.ofByte b = .checkMultiSig verify) : isConditional b = false := by
  revert b verify
  decide +kernel

/-- The number an `OP_1` up to `OP_16` pushes is read back. -/
theorem readNum_serialize (flags : VerifyFlags) {b : UInt8} (hlo : 0x51 ≤ b) (hhi : b ≤ 0x60) :
    readNum flags (CScriptNum.serialize ((b.toNat : ℤ) - 0x50)) = .ok ((b.toNat : ℤ) - 0x50) := by
  have hread : ∀ b : UInt8, 0x51 ≤ b → b ≤ 0x60 → ∀ fRequireMinimal : Bool,
      CScriptNum.read fRequireMinimal (CScriptNum.serialize ((b.toNat : ℤ) - 0x50))
        = some ((b.toNat : ℤ) - 0x50) := by decide +kernel
  rw [readNum, hread b hlo hhi]

/-! ## The keys of `OP_CHECKMULTISIG` -/

section Calls

variable (env : ScriptEnv) (flags : VerifyFlags)

theorem multiSigLoop_calls_le (scriptCode : CScript) (keys : List Valtype) :
    ∀ sigs : List Valtype, (multiSigLoop env flags scriptCode sigs keys).1 ≤ keys.length := by
  induction keys with
  | nil =>
    intro sigs
    cases sigs <;> exact le_refl 0
  | cons vchPubKey keys ih =>
    intro sigs
    cases sigs with
    | nil => exact Nat.zero_le _
    | cons vchSig sigs =>
      rw [multiSigLoop]
      split
      · exact Nat.zero_le _
      · simp only
        generalize (if env.checkSig vchSig vchPubKey scriptCode = true then sigs
          else vchSig :: sigs) = left
        by_cases hfew : keys.length < left.length
        · rw [if_pos hfew, List.length_cons]
          exact Nat.le_add_left 1 _
        · rw [if_neg hfew, List.length_cons]
          exact Nat.succ_le_succ (ih left)

/-- The keys are as many as the top of the stack says, and at most twenty. -/
theorem multiSigArgs_keys {nOpCount : ℕ} {stack : List Valtype} {args : MultiSigArgs}
    (hargs : multiSigArgs flags nOpCount stack = .ok args) :
    ∃ vch below nKeysCount, stack = vch :: below ∧ readNum flags vch = .ok nKeysCount ∧
      args.keys.length ≤ nKeysCount.toNat ∧ nKeysCount ≤ 20 := by
  cases stack with
  | nil => exact absurd hargs (by simp [multiSigArgs])
  | cons vch below =>
    rw [multiSigArgs] at hargs
    cases hread : readNum flags vch with
    | error e =>
      rw [hread] at hargs
      exact absurd hargs (by simp [bind, Except.bind])
    | ok nKeysCount =>
      rw [hread] at hargs
      simp only [bind, Except.bind] at hargs
      refine ⟨vch, below, nKeysCount, rfl, hread, ?_⟩
      split at hargs
      · exact absurd hargs (by simp)
      next hcount =>
      split at hargs
      · exact absurd hargs (by simp)
      split at hargs
      · exact absurd hargs (by simp)
      split at hargs
      · exact absurd hargs (by simp)
      split at hargs
      · exact absurd hargs (by simp)
      split at hargs
      · exact absurd hargs (by simp)
      cases hargs
      exact ⟨List.length_take_le _ _, by omega⟩

theorem execCheckMultiSig_calls_le (verify : Bool) (st : EvalState) :
    (execCheckMultiSig env flags verify st).1 ≤ 20 ∧
    ∀ n below, st.stack = n :: below → ∀ nKeysCount, readNum flags n = .ok nKeysCount →
      (execCheckMultiSig env flags verify st).1 ≤ nKeysCount.toNat := by
  rw [execCheckMultiSig]
  split
  · exact ⟨Nat.zero_le _, fun _ _ _ _ _ => Nat.zero_le _⟩
  · next args hargs =>
    obtain ⟨vch, below, nKeysCount, hstack, hread, hkeys, htwenty⟩ := multiSigArgs_keys flags hargs
    have hloop := multiSigLoop_calls_le env flags (args.sigs.foldl
      (fun code vchSig => code.findAndDelete (CScript.pushData vchSig)) st.codehash) args.keys
      args.sigs
    refine ⟨by simp only; omega, ?_⟩
    intro n below' hstack' count hcount
    rw [hstack] at hstack'
    cases hstack'
    rw [hread] at hcount
    cases hcount
    exact hloop.trans hkeys

theorem execCheckSig_calls_le (verify : Bool) (st : EvalState) :
    (execCheckSig env flags verify st).1 ≤ 1 := by
  rw [execCheckSig]
  split
  · split
    · exact Nat.zero_le _
    · exact le_refl 1
  · exact Nat.zero_le _

/-! ## What the opcode before has left -/

/-- After an `OP_1` up to `OP_16` that was executed its number is on top of the stack. -/
def PushedBy (lastOpcode : UInt8) (st : EvalState) : Prop :=
  st.fExec = true → 0x51 ≤ lastOpcode → lastOpcode ≤ 0x60 →
    ∃ below, st.stack = CScriptNum.serialize ((lastOpcode.toNat : ℤ) - 0x50) :: below

/-- What a round does when it succeeds: the opcode is executed, and the stacks are small. -/
theorem evalStep_ok {opcode : UInt8} {vch : Valtype} {pc : CScript} {st st' : EvalState}
    (h : (evalStep env flags opcode vch pc st).2 = .ok st') :
    (execOpcode env flags opcode vch pc (st.countOp opcode)).2 = .ok st' := by
  rw [evalStep] at h
  split at h
  · exact absurd h (by simp)
  split at h
  · exact absurd h (by simp)
  split at h
  · exact absurd h (by simp)
  simp only at h
  cases hx : (execOpcode env flags opcode vch pc (st.countOp opcode)).2 with
  | error e =>
    rw [hx] at h
    exact absurd h (by simp [Except.bind])
  | ok st₁ =>
    rw [hx] at h
    simp only [Except.bind, checkStackSize] at h
    split at h
    · exact absurd h (by simp)
    · exact h

/-- A number is pushed where the branch is executed, and nothing happens elsewhere. -/
theorem execOpcode_number {opcode : UInt8} (hlo : 0x51 ≤ opcode) (hhi : opcode ≤ 0x60)
    (vch : Valtype) (pc : CScript) (st : EvalState) :
    execOpcode env flags opcode vch pc st =
      (0, .ok (if st.fExec then
        { st with stack := CScriptNum.serialize ((opcode.toNat : ℤ) - 0x50) :: st.stack }
        else st)) := by
  have hnotPush : ¬opcode ≤ 0x4e := fun hle => absurd (UInt8.le_trans hlo hle) (by decide)
  have hnotCond : isConditional opcode = false := by
    revert opcode
    decide +kernel
  rw [execOpcode, ofByte_number hlo hhi]
  cases hexec : st.fExec with
  | false => simp [hnotCond]
  | true => simp [hnotPush, exec, execPlain, execStack]

theorem evalStep_pushedBy {opcode : UInt8} {vch : Valtype} {pc : CScript} {st st' : EvalState}
    (h : (evalStep env flags opcode vch pc st).2 = .ok st') : PushedBy opcode st' := by
  intro hexec hlo hhi
  have hstep := evalStep_ok env flags h
  rw [execOpcode_number env flags hlo hhi] at hstep
  cases hstep
  by_cases hbefore : (st.countOp opcode).fExec = true
  · rw [if_pos hbefore]
    exact ⟨_, rfl⟩
  · rw [if_neg hbefore] at hexec
    exact absurd hexec hbefore

/-! ## The interpreter checks no more than is counted -/

theorem exec_calls_le {lastOpcode opcode : UInt8} {st : EvalState} (pc : CScript)
    (hlast : PushedBy lastOpcode st)
    (hexec : st.fExec = true ∨ isConditional opcode = true) :
    (exec env flags (Opcode.ofByte opcode) pc st).1 ≤ sigOps true lastOpcode opcode := by
  rw [sigOps]
  cases hop : Opcode.ofByte opcode with
  | checkSig verify => exact execCheckSig_calls_le env flags verify st
  | checkMultiSig verify =>
    have hbranch : st.fExec = true := by
      rcases hexec with hexec | hcond
      · exact hexec
      · rw [not_isConditional_of_checkMultiSig hop] at hcond
        exact absurd hcond (by simp)
    obtain ⟨htwenty, hcount⟩ := execCheckMultiSig_calls_le env flags verify st
    simp only [Bool.true_and, Bool.and_eq_true, decide_eq_true_eq]
    by_cases hnumber : 0x51 ≤ lastOpcode ∧ lastOpcode ≤ 0x60
    · rw [if_pos hnumber]
      obtain ⟨below, hstack⟩ := hlast hbranch hnumber.1 hnumber.2
      have hle := hcount _ _ hstack _ (readNum_serialize flags hnumber.1 hnumber.2)
      exact hle.trans (by omega)
    · rw [if_neg hnumber]
      exact htwenty
  | _ => exact Nat.zero_le _

/-- **One opcode.** -/
theorem evalStep_calls_le {lastOpcode : UInt8} {st : EvalState} (opcode : UInt8) (vch : Valtype)
    (pc : CScript) (hlast : PushedBy lastOpcode st) :
    (evalStep env flags opcode vch pc st).1 ≤ sigOps true lastOpcode opcode := by
  rw [evalStep]
  split
  · exact Nat.zero_le _
  split
  · exact Nat.zero_le _
  split
  · exact Nat.zero_le _
  simp only [execOpcode]
  split
  · exact Nat.zero_le _
  split
  · next hexec =>
    apply exec_calls_le env flags pc
    · exact hlast
    · simpa using hexec
  · exact Nat.zero_le _

/-- **A run of the loop.** -/
theorem evalLoop_calls_le (n : ℕ) : ∀ (lastOpcode : UInt8) (pc : CScript) (st : EvalState),
    PushedBy lastOpcode st →
    (evalLoop env flags n pc st).1 ≤ CScript.sigOpLoop true n lastOpcode pc := by
  induction n with
  | zero => exact fun _ _ _ _ => Nat.zero_le _
  | succ n ih =>
    intro lastOpcode pc st hlast
    cases pc with
    | nil => exact Nat.zero_le _
    | cons b pc =>
      rw [evalLoop, CScript.sigOpLoop]
      cases hop : CScript.getOp (b :: pc) with
      | none => exact Nat.zero_le _
      | some found =>
        obtain ⟨opcode, vch, rest⟩ := found
        have hstep := evalStep_calls_le env flags opcode vch rest hlast
        simp only
        split
        · exact hstep.trans (Nat.le_add_right _ _)
        · next st' hst' =>
          exact Nat.add_le_add hstep (ih opcode rest st' (evalStep_pushedBy env flags hst'))

theorem evalScript_calls_le (stack : List Valtype) (script : CScript) :
    (evalScript env flags stack script).1 ≤ script.getSigOpCount true := by
  rw [evalScript]
  split
  · exact Nat.zero_le _
  · apply evalLoop_calls_le
    intro _ _ hhi
    exact absurd hhi (by decide)

/-! ## Scripts that only push -/

/-- The top of the stack is what the script has pushed last, or else the one byte of an `OP_1` up
to `OP_16` or an `OP_1NEGATE`, which checks no signature when it is taken for a script. -/
def TopIs (data : Valtype) (stack : List Valtype) : Prop :=
  ∀ vch below, stack = vch :: below → vch = data ∨
    ∀ (env : ScriptEnv) (flags : VerifyFlags) (stack : List Valtype),
      (evalScript env flags stack vch).1 = 0

/-- A number that stands for a script checks no signature. -/
theorem evalScript_number_calls {opcode : UInt8} {n : ℤ} (hop : Opcode.ofByte opcode = .number n)
    (env : ScriptEnv) (flags : VerifyFlags) (stack : List Valtype) :
    (evalScript env flags stack (CScriptNum.serialize n)).1 = 0 := by
  have hcount : ∀ (opcode : UInt8), ∀ n ∈ (match Opcode.ofByte opcode with
      | .number n => some n
      | _ => none), CScript.getSigOpCount true (CScriptNum.serialize n) = 0 := by
    decide +kernel
  have hle := evalScript_calls_le env flags stack (CScriptNum.serialize n)
  rw [hcount opcode n (by rw [hop]; rfl)] at hle
  exact Nat.le_zero.1 hle

/-- The opcodes of a script that only pushes. -/
theorem ofByte_of_le {b : UInt8} (hb : b ≤ 0x60) :
    b ≤ 0x4e ∨ (∃ n, Opcode.ofByte b = .number n) ∨ Opcode.ofByte b = .bad := by
  have hall : ∀ b : UInt8, b ≤ 0x60 → b ≤ 0x4e ∨ (match Opcode.ofByte b with
      | .number _ => true
      | _ => false) = true ∨ Opcode.ofByte b = .bad := by decide +kernel
  rcases hall b hb with hpush | hnumber | hbad
  · exact .inl hpush
  · right
    left
    split at hnumber
    · next n hn => exact ⟨n, hn⟩
    · exact absurd hnumber (by simp)
  · exact .inr (.inr hbad)

/-- **One push.** -/
theorem evalStep_topIs {opcode : UInt8} {vch : Valtype} {pc : CScript} {st st' : EvalState}
    (hle : opcode ≤ 0x60) (hopen : st.vfExec = [])
    (h : (evalStep env flags opcode vch pc st).2 = .ok st') :
    st'.vfExec = [] ∧ TopIs vch st'.stack := by
  have hstep := evalStep_ok env flags h
  have hexec : (st.countOp opcode).fExec = true := by
    simp [EvalState.fExec, EvalState.countOp, hopen]
  rw [execOpcode, hexec] at hstep
  simp only [Bool.true_and, Bool.true_or, if_true, decide_eq_true_eq] at hstep
  by_cases hpush : opcode ≤ 0x4e
  · rw [if_pos hpush] at hstep
    simp only [execPush] at hstep
    split at hstep
    · exact absurd hstep (by simp)
    · cases hstep
      refine ⟨hopen, ?_⟩
      intro top below htop
      cases htop
      exact .inl rfl
  · rw [if_neg hpush] at hstep
    rcases ofByte_of_le hle with hpush' | ⟨n, hn⟩ | hbad
    · exact absurd hpush' hpush
    · rw [hn] at hstep
      cases hstep
      refine ⟨hopen, ?_⟩
      intro top below htop
      cases htop
      exact .inr (evalScript_number_calls hn)
    · rw [hbad] at hstep
      exact absurd hstep (by simp [exec, execPlain, execStack])

/-- **A script that only pushes.**  The top it leaves is the item that is counted. -/
theorem evalLoop_topIs (n : ℕ) : ∀ (data : Valtype) (pc : CScript) (st st' : EvalState),
    CScript.isPushOnlyLoop n pc = true → st.vfExec = [] → TopIs data st.stack →
    (evalLoop env flags n pc st).2 = .ok st' →
    ∃ last, CScript.lastPushLoop n data pc = some last ∧ TopIs last st'.stack := by
  induction n with
  | zero =>
    intro data pc st st' _ _ htop hrun
    cases hrun
    exact ⟨data, rfl, htop⟩
  | succ n ih =>
    intro data pc st st' honly hopen htop hrun
    cases pc with
    | nil =>
      cases hrun
      exact ⟨data, rfl, htop⟩
    | cons b pc =>
      rw [evalLoop] at hrun
      rw [CScript.isPushOnlyLoop] at honly
      rw [CScript.lastPushLoop]
      cases hop : CScript.getOp (b :: pc) with
      | none =>
        rw [hop] at honly
        exact absurd honly (by simp)
      | some found =>
        obtain ⟨opcode, vch, rest⟩ := found
        rw [hop] at hrun honly
        simp only at hrun honly ⊢
        split at honly
        · exact absurd honly (by simp)
        next hle =>
        rw [if_neg hle]
        split at hrun
        · exact absurd hrun (by simp)
        next st₁ hst₁ =>
        obtain ⟨hopen₁, htop₁⟩ :=
          evalStep_topIs env flags (UInt8.not_lt.1 hle) hopen hst₁
        exact ih vch rest st₁ st' honly hopen₁ htop₁ hrun

theorem verifyScriptHash_calls_le {scriptSig scriptPubKey : CScript} {stack : List Valtype}
    (hp2sh : scriptPubKey.isPayToScriptHash = true)
    (hstack : (evalScript env flags [] scriptSig).2 = .ok stack) :
    (verifyScriptHash env flags scriptSig stack).1 ≤
      scriptPubKey.getSigOpCountP2SH scriptSig := by
  unfold verifyScriptHash
  split
  · exact Nat.zero_le _
  next honly =>
  cases stack with
  | nil => exact Nat.zero_le _
  | cons pubKeySerialized stackCopy =>
    rw [evalScript] at hstack
    split at hstack
    · exact absurd hstack (by simp)
    simp only at hstack
    cases hrun : (evalLoop env flags scriptSig.length scriptSig
        { stack := [], codehash := scriptSig }).2 with
    | error e =>
      rw [hrun] at hstack
      exact absurd hstack (by simp [Except.bind])
    | ok st =>
      rw [hrun] at hstack
      simp only [Except.bind, checkBalanced] at hstack
      split at hstack
      · have hst : st.stack = pubKeySerialized :: stackCopy := by simpa using hstack
        have hpush : scriptSig.isPushOnly = true := by simpa using honly
        obtain ⟨last, hlast, htop⟩ := evalLoop_topIs env flags scriptSig.length [] scriptSig
          { stack := [], codehash := scriptSig } st hpush rfl
          (fun _ _ h => absurd h (by simp)) hrun
        rw [CScript.getSigOpCountP2SH, hp2sh, hlast]
        simp only
        rcases htop pubKeySerialized stackCopy hst with rfl | hnone
        · exact evalScript_calls_le env flags stackCopy _
        · rw [hnone]
          exact Nat.zero_le _
      · exact absurd hstack (by simp)

end Calls

/-! ## The count -/

theorem sigOps_le (lastOpcode opcode : UInt8) :
    sigOps true lastOpcode opcode ≤ sigOps false lastOpcode opcode ∧
      sigOps false lastOpcode opcode ≤ 20 := by
  rw [sigOps, sigOps]
  cases Opcode.ofByte opcode with
  | checkMultiSig verify =>
    simp only [Bool.true_and, Bool.false_and, Bool.and_eq_true, decide_eq_true_eq,
      Bool.false_eq_true, if_false]
    refine ⟨?_, le_refl 20⟩
    split
    · next hnumber =>
      have hhi : lastOpcode.toNat ≤ 0x60 := hnumber.2
      omega
    · exact le_refl 20
  | checkSig verify => exact ⟨le_refl 1, Nat.le_add_left 1 19⟩
  | _ => exact ⟨le_refl 0, Nat.zero_le 20⟩

theorem sigOpLoop_le (n : ℕ) : ∀ (lastOpcode : UInt8) (pc : CScript),
    CScript.sigOpLoop true n lastOpcode pc ≤ CScript.sigOpLoop false n lastOpcode pc ∧
      CScript.sigOpLoop false n lastOpcode pc ≤ 20 * n := by
  induction n with
  | zero => exact fun _ _ => ⟨le_refl 0, le_refl 0⟩
  | succ n ih =>
    intro lastOpcode pc
    cases pc with
    | nil => exact ⟨le_refl 0, Nat.zero_le _⟩
    | cons b pc =>
      rw [CScript.sigOpLoop, CScript.sigOpLoop]
      cases CScript.getOp (b :: pc) with
      | none => exact ⟨le_refl 0, Nat.zero_le _⟩
      | some found =>
        obtain ⟨opcode, vch, rest⟩ := found
        have hop := sigOps_le lastOpcode opcode
        have hrest := ih opcode rest
        simp only
        omega

/-- The counter of the source has 32 bits, which a script of at most `MAX_SIZE` bytes does not
exceed. -/
theorem getSigOpCount_lt {script : CScript} (hsize : script.length ≤ 0x02000000)
    (fAccurate : Bool) : script.getSigOpCount fAccurate < 2 ^ 32 := by
  have hle := sigOpLoop_le script.length 0xff script
  cases fAccurate with
  | false =>
    show CScript.sigOpLoop false script.length 0xff script < 2 ^ 32
    omega
  | true =>
    show CScript.sigOpLoop true script.length 0xff script < 2 ^ 32
    omega

/-- **The count bounds the signatures that are checked.**  Whatever the flags and the checker,
and whether the scripts succeed or not, `VerifyScript` asks the checker at most as often as the
accurate counts of the two scripts say, with the count of the script behind a script hash when
that script is looked at; and the accurate count is at most the other one. -/
theorem verifyScript_calls_le (env : ScriptEnv) (flags : VerifyFlags)
    (scriptSig scriptPubKey : CScript) :
    (verifyScript env flags scriptSig scriptPubKey).1 ≤
      scriptSig.getSigOpCount true + scriptPubKey.getSigOpCount true +
        (if flags.p2sh && scriptPubKey.isPayToScriptHash then
          scriptPubKey.getSigOpCountP2SH scriptSig else 0) ∧
    ∀ script : CScript, script.getSigOpCount true ≤ script.getSigOpCount false := by
  refine ⟨?_, fun script => (sigOpLoop_le script.length 0xff script).1⟩
  have hsig := evalScript_calls_le env flags [] scriptSig
  rw [verifyScript]
  split
  · exact Nat.zero_le _
  simp only
  split
  · exact hsig.trans (by omega)
  next stack hstack =>
  have hpub := evalScript_calls_le env flags stack scriptPubKey
  split
  · simp only
    omega
  by_cases hp2sh : (flags.p2sh && scriptPubKey.isPayToScriptHash) = true
  · rw [if_pos hp2sh, if_pos hp2sh]
    have hhash := verifyScriptHash_calls_le env flags (Bool.and_eq_true _ _ ▸ hp2sh).2 hstack
    simp only
    omega
  · rw [if_neg hp2sh, if_neg hp2sh]
    simp only
    omega

end FairCoin
