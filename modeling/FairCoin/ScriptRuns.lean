import FairCoin.Signing
import FairCoin.StandardScripts
import FairCoin.SigOps

/-!
# Running standard scripts

Rules for runs of the interpreter, and the runs of the standard scripts.

* `Evals` — a script is run from one state to another.
* `evals_pushAll` — a script that pushes.
* `findAndDelete_eq_self` — a signature that a script does not push is not deleted from it.
* `evals_pubkey`, `evals_pubkeyhash`, `evals_scripthash`, `evals_multisig` — the runs.
* `MinimalPushes`, `minimalPushes_of_eval` — **with `SCRIPT_VERIFY_MINIMALDATA`, a standard script that
  succeeds has minimal pushes only**.
-/

namespace FairCoin

/-! ## Rules -/

section Rules

variable (env : ScriptEnv) (flags : VerifyFlags)

/-- The script is run from one state to the other. -/
def Evals (script : CScript) (st st' : EvalState) : Prop :=
  ∀ n, script.length ≤ n → (evalLoop env flags n script st).2 = .ok st'

/-- A round of the loop, and the rest. -/
theorem evalLoop_cons {s rest : CScript} {opcode : UInt8} {vch : Valtype}
    (h : s.getOp = some (opcode, vch, rest)) (n : ℕ) (st : EvalState) :
    (evalLoop env flags (n + 1) s st).2 =
      (evalStep env flags opcode vch rest st).2.bind fun st => (evalLoop env flags n rest st).2 := by
  rcases s with _ | ⟨b, pc⟩
  · cases h
  · rw [evalLoop, h]
    dsimp only
    cases (evalStep env flags opcode vch rest st).2 <;> rfl

variable {env flags}

theorem Evals.nil (st : EvalState) : Evals env flags [] st st := by
  intro n _
  cases n <;> rfl

theorem Evals.cons {s rest : CScript} {opcode : UInt8} {vch : Valtype} {st st₁ st' : EvalState}
    (h : s.getOp = some (opcode, vch, rest))
    (hstep : (evalStep env flags opcode vch rest st).2 = .ok st₁)
    (hrest : Evals env flags rest st₁ st') : Evals env flags s st st' := by
  intro n hn
  have hlt := getOp_length_lt h
  obtain ⟨n, rfl⟩ : ∃ n', n = n' + 1 := ⟨n - 1, by omega⟩
  rw [evalLoop_cons env flags h, hstep]
  exact hrest n (by omega)

/-- A script that is run to a balanced state succeeds. -/
theorem evalScript_of_evals {script : CScript} {stack : List Valtype} {st' : EvalState}
    (hlen : script.length ≤ 10000)
    (h : Evals env flags script { stack := stack, codehash := script } st')
    (hbalanced : st'.vfExec = []) : (evalScript env flags stack script).2 = .ok st'.stack := by
  rw [evalScript, if_neg (not_lt.2 hlen)]
  dsimp only
  rw [h _ le_rfl]
  exact if_pos hbalanced

/-- A state in a branch that is executed, with nothing on the second stack. -/
def running (stack : List Valtype) (nOpCount : ℕ) (codehash : CScript) : EvalState :=
  { stack := stack, nOpCount := nOpCount, codehash := codehash }

/-- A push of the shortest form. -/
theorem evalStep_push {opcode : UInt8} {vch : Valtype} {pc code : CScript} {stack : List Valtype}
    {n : ℕ} (hop : opcode ≤ 0x4e) (hsize : vch.length ≤ 520)
    (hmin : checkMinimalPush vch opcode = true) (hstack : stack.length < 1000) :
    (evalStep env flags opcode vch pc (running stack n code)).2 =
      .ok (running (vch :: stack) n code) := by
  have hlo : ¬ 0x60 < opcode := fun h => absurd (UInt8.lt_of_lt_of_le h hop) (by decide)
  have hbyte : Opcode.ofByte opcode = .push := if_pos hop
  rw [evalStep, if_neg (not_lt.2 hsize), if_neg (fun h => hlo h.1), if_neg (by rw [hbyte]; simp)]
  have hcount : (running stack n code).countOp opcode = running stack n code := by
    rw [EvalState.countOp, if_neg hlo]
  rw [hcount]
  have hexec : ((running stack n code).fExec && decide (opcode ≤ 0x4e)) = true := by
    rw [decide_eq_true hop]
    rfl
  rw [execOpcode, if_pos hexec, execPush, hmin]
  simp only [Bool.not_true, Bool.and_false, Bool.false_eq_true, if_false, Except.bind,
    checkStackSize]
  rw [if_neg]
  · rfl
  · show ¬ 1000 < (vch :: stack).length + 0
    simp only [List.length_cons]
    omega

/-- An opcode that is no push, by what it does. -/
theorem evalStep_exec {opcode : UInt8} {vch : Valtype} {pc code : CScript}
    {stack stack' : List Valtype} {n n' : ℕ} (hop : 0x4e < opcode)
    (hsize : vch.length ≤ 520) (hn : n ≤ 200) (hdisabled : Opcode.ofByte opcode ≠ .disabled)
    (h : (exec env flags (Opcode.ofByte opcode) pc
      (running stack (if 0x60 < opcode then n + 1 else n) code)).2 = .ok (running stack' n' code))
    (hstack : stack'.length ≤ 1000) :
    (evalStep env flags opcode vch pc (running stack n code)).2 = .ok (running stack' n' code) := by
  have hnot : ¬ opcode ≤ 0x4e := UInt8.not_le.2 hop
  rw [evalStep, if_neg (not_lt.2 hsize), if_neg (fun h => absurd h.2 (not_lt.2 hn)),
    if_neg hdisabled]
  have hcount : (running stack n code).countOp opcode =
      running stack (if 0x60 < opcode then n + 1 else n) code := rfl
  rw [hcount, execOpcode, if_neg (by simp [hnot]), if_pos (by simp [running, EvalState.fExec])]
  dsimp only
  rw [h]
  show checkStackSize (running stack' n' code) = _
  rw [checkStackSize, if_neg]
  show ¬ 1000 < stack'.length + 0
  omega

end Rules

/-! ## Scripts that push -/

/-- What `operator<<` pushes is minimal, except for a single byte. -/
theorem checkMinimalPush_pushOpcode {vch : Valtype} (hone : vch.length ≠ 1) :
    checkMinimalPush vch (pushOpcode vch) = true := by
  unfold checkMinimalPush
  split
  · rfl
  · next b => exact absurd rfl hone
  · next hnil hsingle =>
    unfold pushOpcode
    by_cases h₁ : vch.length < 0x4c
    · rw [if_pos h₁, if_pos (by omega), ofNat_toNat_of_lt (by omega)]
      simp
    · rw [if_neg h₁, if_neg (by omega)]
      by_cases h₂ : vch.length ≤ 0xff
      · rw [if_pos h₂, if_pos h₂]
        rfl
      · rw [if_neg h₂, if_neg h₂]
        by_cases h₃ : vch.length ≤ 0xffff
        · rw [if_pos h₃, if_pos h₃]
          rfl
        · rw [if_neg h₃]

theorem pushOpcode_le (vch : Valtype) : pushOpcode vch ≤ 0x4e := by
  unfold pushOpcode
  split
  · next h =>
    rw [UInt8.le_iff_toNat_le, ofNat_toNat_of_lt (by omega)]
    show vch.length ≤ 0x4e
    omega
  · split
    · decide
    · split <;> decide

/-- What `operator<<` pushes as the interpreter wants it. -/
def Pushable (vch : Valtype) : Prop := vch.length ≤ 520 ∧ vch.length ≠ 1

theorem length_pushData_le (vch : Valtype) : (CScript.pushData vch).length ≤ vch.length + 5 := by
  unfold CScript.pushData
  split
  · simp only [List.length_cons]
    omega
  · split
    · simp only [List.length_cons]
      omega
    · split
      · simp only [List.length_cons]
        omega
      · simp only [List.length_cons]
        omega

theorem length_flatMap_pushData {vs : List Valtype} (h : ∀ v ∈ vs, Pushable v) :
    (vs.flatMap CScript.pushData).length ≤ 525 * vs.length := by
  induction vs with
  | nil => simp
  | cons v vs ih =>
    have hv := h v List.mem_cons_self
    have hpush := length_pushData_le v
    have hrest := ih fun w hw => h w (List.mem_cons_of_mem _ hw)
    have hsize := hv.1
    rw [List.flatMap_cons, List.length_append, List.length_cons]
    omega

/-- Such a script only pushes. -/
theorem isPushOnly_pushAll {vs : List Valtype} (h : ∀ v ∈ vs, Pushable v) :
    CScript.isPushOnly (vs.flatMap CScript.pushData) = true := by
  have hreads := reads_pushes vs [] fun v hv => (h v hv).1.trans (by decide)
  rw [List.append_nil] at hreads
  refine (isPushOnlyLoop_iff _ _ le_rfl).2 ⟨_, hreads, ?_⟩
  intro op hop
  obtain ⟨v, -, rfl⟩ := List.mem_map.1 hop
  exact UInt8.le_trans (pushOpcode_le v) (by decide)

/-- An opcode takes its operand and five bytes at most. -/
theorem length_getOp_le {s rest : CScript} {opcode : UInt8} {vch : Valtype}
    (h : s.getOp = some (opcode, vch, rest)) : s.length ≤ rest.length + vch.length + 5 := by
  have push : ∀ (b : UInt8) (nSize : ℕ) (l : CScript), (if l.length < nSize then none
      else some (b, l.take nSize, l.drop nSize)) = some (opcode, vch, rest) →
      l.length = rest.length + vch.length := by
    intro b nSize l hl
    split at hl
    · cases hl
    · cases hl
      rw [List.length_take, List.length_drop]
      omega
  rcases s with _ | ⟨b, pc⟩
  · cases h
  simp only [CScript.getOp] at h
  split at h
  · have := push b _ pc h
    simp only [List.length_cons]
    omega
  split at h
  · split at h
    · have := push b _ _ h
      simp only [List.length_cons]
      omega
    · cases h
  split at h
  · split at h
    · have := push b _ _ h
      simp only [List.length_cons]
      omega
    · cases h
  split at h
  · split at h
    · have := push b _ _ h
      simp only [List.length_cons]
      omega
    · cases h
  · cases h
    simp only [List.length_cons]
    omega

/-- A script whose operands are small. -/
theorem length_le_of_reads {s : CScript} {ops : List (UInt8 × Valtype)} (h : s.Reads ops [])
    (hsize : ∀ op ∈ ops, op.2.length ≤ 65) : s.length ≤ 70 * ops.length := by
  induction ops generalizing s with
  | nil =>
    rw [Reads_nil h]
    exact Nat.zero_le _
  | cons op ops ih =>
    obtain ⟨mid, hop, h⟩ := Reads_cons h
    have hlen := length_getOp_le hop
    have hrest := ih h fun o ho => hsize o (List.mem_cons_of_mem _ ho)
    have hop' := hsize op List.mem_cons_self
    rw [List.length_cons]
    omega

/-- Scripts that pay are short. -/
theorem Shape.length_le {s : CScript} {t : TxnOutType} {r : List Valtype} (h : Shape s t r)
    (ht : t ≠ .nullData) : s.length ≤ 10000 := by
  obtain ⟨ops, hreads, htemplate⟩ := h
  have hshort : (∀ op ∈ ops, op.2.length ≤ 65) ∧ ops.length ≤ 19 := by
    cases htemplate with
    | pubkey hsize => exact ⟨by simpa using hsize.2, by simp⟩
    | pubkeyhash hsize => exact ⟨by simp [hsize], by simp⟩
    | scripthash hsize => exact ⟨by simp [hsize], by simp⟩
    | @multisig m n keys hsize hm hmn hn hlen =>
      have hnat : n.toNat ≤ 0x60 := UInt8.le_iff_toNat_le.1 hn
      refine ⟨?_, ?_⟩
      · intro op hop
        rw [List.mem_cons, List.mem_append, List.mem_cons, List.mem_singleton] at hop
        rcases hop with rfl | hop | rfl | rfl
        · simp
        · exact (hsize op hop).2
        · simp
        · simp
      · simp only [List.length_cons, List.length_append, List.length_nil]
        omega
    | nullData hops => exact absurd rfl ht
  have hlen := length_le_of_reads hreads hshort.1
  have := hshort.2
  omega

/-- A script that is an instance of a template has two bytes at least. -/
theorem Shape.length_ne_one {s : CScript} {t : TxnOutType} {r : List Valtype} (h : Shape s t r)
    (ht : t ≠ .nullData) : s.length ≠ 1 := by
  obtain ⟨ops, hreads, htemplate⟩ := h
  obtain ⟨op, op', ops', rfl⟩ : ∃ op op' ops', ops = op :: op' :: ops' := by
    cases htemplate with
    | pubkey hsize => exact ⟨_, _, _, rfl⟩
    | pubkeyhash hsize => exact ⟨_, _, _, rfl⟩
    | scripthash hsize => exact ⟨_, _, _, rfl⟩
    | @multisig m n keys hsize hm hmn hn hlen =>
      cases keys with
      | nil => exact ⟨_, _, _, rfl⟩
      | cons key keys => exact ⟨_, _, _, rfl⟩
    | nullData hops => exact absurd rfl ht
  obtain ⟨s₁, h₁, hreads⟩ := Reads_cons hreads
  obtain ⟨s₂, h₂, hreads⟩ := Reads_cons hreads
  have hlt₁ := getOp_length_lt h₁
  have hlt₂ := getOp_length_lt h₂
  omega

section Runs

variable {env : ScriptEnv} {flags : VerifyFlags}

/-- **A script of pushes** leaves what it pushes. -/
theorem evals_pushAll {code : CScript} {n : ℕ} : ∀ (vs stack : List Valtype),
    (∀ v ∈ vs, Pushable v) → vs.length + stack.length ≤ 1000 →
    Evals env flags (vs.flatMap CScript.pushData) (running stack n code)
      (running (vs.reverse ++ stack) n code)
  | [], _, _, _ => Evals.nil _
  | v :: vs, stack, hvs, hlen => by
      have hv := hvs v List.mem_cons_self
      rw [List.length_cons] at hlen
      rw [List.flatMap_cons, List.reverse_cons, List.append_assoc]
      refine Evals.cons (getOp_pushData (hv.1.trans (by decide)) _)
        (evalStep_push (pushOpcode_le v) hv.1 (checkMinimalPush_pushOpcode hv.2) (by omega)) ?_
      exact evals_pushAll vs (v :: stack) (fun w hw => hvs w (List.mem_cons_of_mem _ hw))
        (by rw [List.length_cons]; omega)

/-- The script of a solution, evaluated. -/
theorem evalScript_pushAll {vs : List Valtype} (hvs : ∀ v ∈ vs, Pushable v) (hlen : vs.length ≤ 18) :
    (evalScript env flags [] (vs.flatMap CScript.pushData)).2 = .ok vs.reverse := by
  have hsize := length_flatMap_pushData hvs
  have hrun := @evals_pushAll env flags (vs.flatMap CScript.pushData) 0 vs [] hvs
    (by rw [List.length_nil]; omega)
  rw [List.append_nil] at hrun
  exact evalScript_of_evals (by omega) hrun rfl

/-- A push that a script does not make is not deleted from it. -/
theorem findAndDelete_eq_self {s : CScript} {ops : List (UInt8 × Valtype)} {vch : Valtype}
    (hreads : s.Reads ops []) (hsize : vch.length ≤ 0xffff) (hne : ∀ op ∈ ops, op.2 ≠ vch) :
    s.findAndDelete (CScript.pushData vch) = s := by
  have hloop : ∀ (n : ℕ) {s : CScript} {ops : List (UInt8 × Valtype)}, s.Reads ops [] →
      (∀ op ∈ ops, op.2 ≠ vch) → CScript.findAndDeleteLoop (CScript.pushData vch) n s = s := by
    intro n
    induction n with
    | zero => exact fun _ _ => rfl
    | succ n ih =>
      intro s ops hreads hne
      have hprefix : (CScript.pushData vch).isPrefixOf s = false := by
        rw [Bool.eq_false_iff]
        intro h
        obtain ⟨rest, hs⟩ := List.isPrefixOf_iff_prefix.1 h
        have hget := getOp_pushData hsize rest
        rw [hs] at hget
        cases hreads with
        | refl => cases hget
        | cons h₁ _ =>
          rw [hget] at h₁
          cases h₁
          exact hne _ List.mem_cons_self rfl
      rw [CScript.findAndDeleteLoop, hprefix, if_neg Bool.false_ne_true]
      cases hreads with
      | refl => rfl
      | @cons s mid rest opcode v ops h₁ hmid =>
        rw [h₁]
        dsimp only
        rw [ih hmid fun op hop => hne op (List.mem_cons_of_mem _ hop)]
        obtain ⟨l, rfl, -⟩ := getOp_eq_append h₁
        rw [← List.cons_append, List.length_append, Nat.add_sub_cancel, List.take_left]
  rw [CScript.findAndDelete]
  split
  · rfl
  · exact hloop _ hreads hne

/-! ## The runs of the templates -/

theorem le_of_pushes {s rest : CScript} {opcode : UInt8} {vch : Valtype}
    (h : s.getOp = some (opcode, vch, rest)) (hne : vch ≠ []) : opcode ≤ 0x4e :=
  UInt8.not_lt.1 fun hgt => hne (vch_eq_nil_of_gt h hgt)

/-- A signature that is accepted for a key. -/
structure Accepts (env : ScriptEnv) (flags : VerifyFlags) (code : CScript) (vchSig vch : Valtype) :
    Prop where
  encodings : checkEncodings flags vchSig vch = .ok ()
  kept : code.findAndDelete (CScript.pushData vchSig) = code
  checked : env.checkSig vchSig vch code = true

/-- `OP_CHECKSIG` with such a signature. -/
theorem evalStep_checkSig {pc code : CScript} {stack : List Valtype} {vchSig vch : Valtype} {n : ℕ}
    (h : Accepts env flags code vchSig vch) (hn : n ≤ 200) (hstack : stack.length < 1000) :
    (evalStep env flags 0xac [] pc (running (vch :: vchSig :: stack) n code)).2 =
      .ok (running ([1] :: stack) (n + 1) code) := by
  refine evalStep_exec (by decide) (by decide) hn (by decide) ?_ ?_
  · show (execCheckSig env flags false (running (vch :: vchSig :: stack) (n + 1) code)).2 = _
    simp only [execCheckSig, running, h.encodings, h.kept, h.checked]
    rfl
  · rw [List.length_cons]
    omega

/-- **`pubkey OP_CHECKSIG`.** -/
theorem evals_pubkey {s : CScript} {opcode : UInt8} {vch vchSig : Valtype}
    (hreads : s.Reads [(opcode, vch), (0xac, [])] []) (hsize : KeySize vch)
    (hmin : checkMinimalPush vch opcode = true) (h : Accepts env flags s vchSig vch) :
    Evals env flags s (running [vchSig] 0 s) (running [[1]] 1 s) := by
  obtain ⟨s₁, h₁, hreads⟩ := Reads_cons hreads
  obtain ⟨s₂, h₂, hreads⟩ := Reads_cons hreads
  obtain rfl := Reads_nil hreads
  have hne : vch ≠ [] := by
    rintro rfl
    exact absurd hsize.1 (by decide)
  refine Evals.cons h₁ (evalStep_push (le_of_pushes h₁ hne) (hsize.2.trans (by decide)) hmin
    (by simp)) (Evals.cons h₂ ?_ (Evals.nil _))
  exact evalStep_checkSig h (by decide) (by simp)

/-- `OP_HASH160` and the push of a hash. -/
theorem evalStep_hash160 {pc code : CScript} {stack : List Valtype} {vch : Valtype} {n : ℕ}
    (hn : n ≤ 200) (hstack : stack.length < 1000) :
    (evalStep env flags 0xa9 [] pc (running (vch :: stack) n code)).2 =
      .ok (running (env.ripemd160 (env.sha256 vch) :: stack) (n + 1) code) := by
  refine evalStep_exec (by decide) (by decide) hn (by decide) ?_ ?_
  · rfl
  · rw [List.length_cons]
    omega

/-- **`OP_DUP OP_HASH160 hash OP_EQUALVERIFY OP_CHECKSIG`.** -/
theorem evals_pubkeyhash {s : CScript} {opcode : UInt8} {hash vch vchSig : Valtype}
    (hreads : s.Reads [(0x76, []), (0xa9, []), (opcode, hash), (0x88, []), (0xac, [])] [])
    (hsize : hash.length = 20) (hmin : checkMinimalPush hash opcode = true)
    (hhash : env.ripemd160 (env.sha256 vch) = hash) (h : Accepts env flags s vchSig vch) :
    Evals env flags s (running [vch, vchSig] 0 s) (running [[1]] 4 s) := by
  obtain ⟨s₁, h₁, hreads⟩ := Reads_cons hreads
  obtain ⟨s₂, h₂, hreads⟩ := Reads_cons hreads
  obtain ⟨s₃, h₃, hreads⟩ := Reads_cons hreads
  obtain ⟨s₄, h₄, hreads⟩ := Reads_cons hreads
  obtain ⟨s₅, h₅, hreads⟩ := Reads_cons hreads
  obtain rfl := Reads_nil hreads
  have hne : hash ≠ [] := by
    rintro rfl
    exact absurd hsize (by decide)
  have hdup : (evalStep env flags 0x76 [] s₁ (running [vch, vchSig] 0 s)).2 =
      .ok (running [vch, vch, vchSig] 1 s) :=
    evalStep_exec (by decide) (by decide) (by decide) (by decide) rfl (by simp)
  have hequal : (evalStep env flags 0x88 [] s₄ (running [hash, hash, vch, vchSig] 2 s)).2 =
      .ok (running [vch, vchSig] 3 s) := by
    refine evalStep_exec (by decide) (by decide) (by decide) (by decide) ?_ (by simp)
    show (execPlain env flags (.equal true) s₄ (running [hash, hash, vch, vchSig] 3 s)) = _
    simp only [execPlain, execStack, execEqual, running, if_true]
  have hhash' : (evalStep env flags 0xa9 [] s₂ (running [vch, vch, vchSig] 1 s)).2 =
      .ok (running [hash, vch, vchSig] 2 s) :=
    hhash ▸ evalStep_hash160 (by decide) (by simp)
  have hpush : (evalStep env flags opcode hash s₃ (running [hash, vch, vchSig] 2 s)).2 =
      .ok (running [hash, hash, vch, vchSig] 2 s) :=
    evalStep_push (le_of_pushes h₃ hne) (hsize.trans_le (by decide)) hmin (by simp)
  exact Evals.cons h₁ hdup (Evals.cons h₂ hhash' (Evals.cons h₃ hpush (Evals.cons h₄ hequal
    (Evals.cons h₅ (evalStep_checkSig h (by decide) (by simp)) (Evals.nil _)))))

/-- **`OP_HASH160 hash OP_EQUAL`**, on the script with that hash. -/
theorem evals_scripthash {s : CScript} {hash script : Valtype} {stack : List Valtype}
    (hreads : s.Reads [(0xa9, []), (0x14, hash), (0x87, [])] []) (hsize : hash.length = 20)
    (hhash : env.ripemd160 (env.sha256 script) = hash) (hstack : stack.length < 999) :
    Evals env flags s (running (script :: stack) 0 s) (running ([1] :: stack) 2 s) := by
  obtain ⟨s₁, h₁, hreads⟩ := Reads_cons hreads
  obtain ⟨s₂, h₂, hreads⟩ := Reads_cons hreads
  obtain ⟨s₃, h₃, hreads⟩ := Reads_cons hreads
  obtain rfl := Reads_nil hreads
  have hmin : checkMinimalPush hash 0x14 = true := by
    match hash, hsize with
    | a :: b :: l, hsize =>
      simp only [checkMinimalPush]
      rw [hsize]
      rfl
  have hequal : (evalStep env flags 0x87 [] [] (running (hash :: hash :: stack) 1 s)).2 =
      .ok (running ([1] :: stack) 2 s) := by
    refine evalStep_exec (by decide) (by decide) (by decide) (by decide) ?_ ?_
    · show (execPlain env flags (.equal false) [] (running (hash :: hash :: stack) 2 s)) = _
      simp [execPlain, execStack, execEqual, running, vchBool]
    · rw [List.length_cons]
      omega
  have hhash' : (evalStep env flags 0xa9 [] s₁ (running (script :: stack) 0 s)).2 =
      .ok (running (hash :: stack) 1 s) :=
    hhash ▸ evalStep_hash160 (by decide) (by omega)
  have hpush : (evalStep env flags 0x14 hash s₂ (running (hash :: stack) 1 s)).2 =
      .ok (running (hash :: hash :: stack) 1 s) := by
    refine evalStep_push (by decide) (hsize.trans_le (by decide)) hmin ?_
    rw [List.length_cons]
    omega
  exact Evals.cons h₁ hhash' (Evals.cons h₂ hpush (Evals.cons h₃ hequal (Evals.nil _)))

/-! ## `OP_CHECKMULTISIG` -/

/-- The signatures are for some of the keys, in the same order. -/
inductive Matches (fits : Valtype → Valtype → Bool) : List Valtype → List Valtype → Prop
  | nil (keys : List Valtype) : Matches fits [] keys
  | skip {sigs keys : List Valtype} {key : Valtype} (h : Matches fits sigs keys) :
      Matches fits sigs (key :: keys)
  | fit {sigs keys : List Valtype} {sig key : Valtype} (hfit : fits sig key = true)
      (h : Matches fits sigs keys) : Matches fits (sig :: sigs) (key :: keys)

namespace Matches

variable {fits : Valtype → Valtype → Bool} {sig key : Valtype} {sigs keys : List Valtype}

theorem length_le (h : Matches fits sigs keys) : sigs.length ≤ keys.length := by
  induction h with
  | nil keys => exact Nat.zero_le _
  | skip h ih => exact ih.trans (Nat.le_succ _)
  | fit hfit h ih => exact Nat.succ_le_succ ih

theorem tail (h : Matches fits (sig :: sigs) keys) : Matches fits sigs keys := by
  generalize hs : sig :: sigs = s at h
  induction h with
  | nil keys => cases hs
  | skip h ih => exact .skip (ih hs)
  | fit hfit h ih =>
    cases hs
    exact .skip h

/-- The first key may be taken by the first signature that it fits. -/
theorem of_fit (h : Matches fits (sig :: sigs) (key :: keys)) : Matches fits sigs keys := by
  cases h with
  | skip h => exact h.tail
  | fit hfit h => exact h

theorem of_not_fit (h : Matches fits (sig :: sigs) (key :: keys)) (hno : fits sig key = false) :
    Matches fits (sig :: sigs) keys := by
  cases h with
  | skip h => exact h
  | fit hfit h => exact absurd hfit (by simp [hno])

theorem append_right (h : Matches fits sigs keys) (more : List Valtype) :
    Matches fits sigs (keys ++ more) := by
  induction h with
  | nil keys => exact .nil _
  | skip h ih => exact .skip ih
  | fit hfit h ih => exact .fit hfit ih

theorem skip_append (h : Matches fits sigs keys) (more : List Valtype) :
    Matches fits sigs (more ++ keys) := by
  induction more with
  | nil => exact h
  | cons key more ih => exact .skip ih

theorem concat (h : Matches fits sigs keys) (hfit : fits sig key = true) :
    Matches fits (sigs ++ [sig]) (keys ++ [key]) := by
  induction h with
  | nil keys => exact (Matches.fit hfit (.nil [])).skip_append keys
  | skip h ih => exact .skip ih
  | fit hfit' h ih => exact .fit hfit' ih

/-- The interpreter looks at both from the other end. -/
theorem reverse (h : Matches fits sigs keys) : Matches fits sigs.reverse keys.reverse := by
  induction h with
  | nil keys => exact .nil _
  | skip h ih =>
    rw [List.reverse_cons]
    exact ih.append_right _
  | fit hfit h ih =>
    rw [List.reverse_cons, List.reverse_cons]
    exact ih.concat hfit

end Matches

/-- **The loop finds a match if there is one.** -/
theorem multiSigLoop_ok {code : CScript} : ∀ {keys sigs : List Valtype},
    (∀ sig ∈ sigs, ∀ key ∈ keys, checkEncodings flags sig key = .ok ()) →
    Matches (fun sig key => env.checkSig sig key code) sigs keys →
    (multiSigLoop env flags code sigs keys).2 = .ok true
  | keys, [], _, _ => by rw [multiSigLoop]
  | [], sig :: sigs, _, h => by cases h
  | key :: keys, sig :: sigs, henc, h => by
      have hlen := h.length_le
      rw [multiSigLoop, henc sig List.mem_cons_self key List.mem_cons_self]
      dsimp only
      cases hfit : env.checkSig sig key code with
      | true =>
          have hrest := h.of_fit
          rw [if_pos rfl, if_neg (not_lt.2 hrest.length_le)]
          exact multiSigLoop_ok (fun sig' hsig' key' hkey' =>
            henc sig' (List.mem_cons_of_mem _ hsig') key' (List.mem_cons_of_mem _ hkey')) hrest
      | false =>
          have hrest := h.of_not_fit hfit
          rw [if_neg Bool.false_ne_true, if_neg (not_lt.2 hrest.length_le)]
          exact multiSigLoop_ok (fun sig' hsig' key' hkey' =>
            henc sig' hsig' key' (List.mem_cons_of_mem _ hkey')) hrest

theorem foldl_findAndDelete {code : CScript} {sigs : List Valtype}
    (h : ∀ sig ∈ sigs, code.findAndDelete (CScript.pushData sig) = code) :
    sigs.foldl (fun code vchSig => code.findAndDelete (CScript.pushData vchSig)) code = code := by
  induction sigs with
  | nil => rfl
  | cons sig sigs ih =>
    rw [List.foldl_cons, h sig List.mem_cons_self]
    exact ih fun sig' hsig' => h sig' (List.mem_cons_of_mem _ hsig')

/-- The pushes of the keys. -/
theorem evals_keys {code : CScript} {n : ℕ} : ∀ {keys : List (UInt8 × Valtype)} {s rest : CScript}
    {stack : List Valtype} {st' : EvalState}, s.Reads keys rest → (∀ key ∈ keys, KeySize key.2) →
    (∀ key ∈ keys, checkMinimalPush key.2 key.1 = true) → keys.length + stack.length ≤ 1000 →
    Evals env flags rest (running ((keys.map Prod.snd).reverse ++ stack) n code) st' →
    Evals env flags s (running stack n code) st'
  | [], s, rest, stack, st', hreads, _, _, _, hrest => by
      obtain rfl := Reads_nil hreads
      exact hrest
  | key :: keys, s, rest, stack, st', hreads, hsize, hmin, hlen, hrest => by
      obtain ⟨s₁, h₁, hreads⟩ := Reads_cons hreads
      have hkey := hsize key List.mem_cons_self
      have hne : key.2 ≠ [] := by
        intro hnil
        rw [hnil] at hkey
        exact absurd hkey.1 (by decide)
      rw [List.length_cons] at hlen
      refine Evals.cons h₁ (evalStep_push (le_of_pushes h₁ hne) (hkey.2.trans (by decide))
        (hmin key List.mem_cons_self) (by omega)) ?_
      refine evals_keys hreads (fun k hk => hsize k (List.mem_cons_of_mem _ hk))
        (fun k hk => hmin k (List.mem_cons_of_mem _ hk)) (by rw [List.length_cons]; omega) ?_
      rwa [List.map_cons, List.reverse_cons, List.append_assoc] at hrest

/-- `OP_1` up to `OP_16`. -/
theorem evalStep_number {opcode : UInt8} {pc code : CScript} {stack : List Valtype} {n : ℕ}
    (hlo : 0x51 ≤ opcode) (hhi : opcode ≤ 0x60) (hn : n ≤ 200) (hstack : stack.length < 1000) :
    (evalStep env flags opcode [] pc (running stack n code)).2 =
      .ok (running (CScriptNum.serialize ((opcode.toNat : ℤ) - 0x50) :: stack) n code) := by
  have hop := ofByte_number hlo hhi
  refine evalStep_exec (UInt8.lt_of_lt_of_le (by decide) hlo) (by simp) hn (by rw [hop]; simp) ?_ ?_
  · rw [hop, if_neg (UInt8.not_lt.2 hhi)]
    rfl
  · rw [List.length_cons]
    omega

/-- What `OP_CHECKMULTISIG` finds on the stack. -/
theorem multiSigArgs_eq {m n : UInt8} {keys sigs : List Valtype} {dummy : Valtype}
    (hm : 0x51 ≤ m) (hmn : m ≤ n) (hn : n ≤ 0x60) (hkeys : 0x50 + keys.length = n.toNat)
    (hsigs : 0x50 + sigs.length = m.toNat) :
    multiSigArgs flags 1 (CScriptNum.serialize ((n.toNat : ℤ) - 0x50) ::
        (keys ++ (CScriptNum.serialize ((m.toNat : ℤ) - 0x50) :: (sigs ++ [dummy])))) =
      .ok ⟨keys, sigs, [dummy]⟩ := by
  have hnat : n.toNat ≤ 0x60 := UInt8.le_iff_toNat_le.1 hn
  have hmnat : m.toNat ≤ n.toNat := UInt8.le_iff_toNat_le.1 hmn
  have hnum : ((n.toNat : ℤ) - 0x50).toNat = keys.length := by omega
  have hnum' : ((m.toNat : ℤ) - 0x50).toNat = sigs.length := by omega
  rw [multiSigArgs, readNum_serialize flags (UInt8.le_trans hm hmn) hn]
  show (if _ then _ else if _ then _ else _ : Except ScriptError MultiSigArgs) = _
  rw [if_neg (by omega), if_neg (by omega), hnum, List.take_left, List.drop_left]
  dsimp only
  rw [readNum_serialize flags hm (UInt8.le_trans hmn hn)]
  show (if _ then _ else if _ then _ else _ : Except ScriptError MultiSigArgs) = _
  rw [if_neg (by omega), hnum', if_neg (by simp), List.take_left, List.drop_left]

/-- **`m keys n OP_CHECKMULTISIG`.** -/
theorem evals_multisig {s : CScript} {m n : UInt8} {keys : List (UInt8 × Valtype)}
    {sigs : List Valtype} (hreads : s.Reads ((m, []) :: (keys ++ [(n, []), (0xae, [])])) [])
    (hsize : ∀ key ∈ keys, KeySize key.2) (hm : 0x51 ≤ m) (hmn : m ≤ n) (hn : n ≤ 0x60)
    (hlen : 0x50 + keys.length = n.toNat) (hsigs : 0x50 + sigs.length = m.toNat)
    (hmin : ∀ key ∈ keys, checkMinimalPush key.2 key.1 = true)
    (henc : ∀ sig ∈ sigs, ∀ key ∈ keys, checkEncodings flags sig key.2 = .ok ())
    (hkept : ∀ sig ∈ sigs, s.findAndDelete (CScript.pushData sig) = s)
    (hmatch : Matches (fun sig key => env.checkSig sig key s) sigs (keys.map Prod.snd)) :
    Evals env flags s (running (sigs.reverse ++ [[]]) 0 s)
      (running [[1]] (1 + keys.length) s) := by
  have hnat : n.toNat ≤ 0x60 := UInt8.le_iff_toNat_le.1 hn
  have hmnat : m.toNat ≤ n.toNat := UInt8.le_iff_toNat_le.1 hmn
  obtain ⟨s₁, h₁, hreads⟩ := Reads_cons hreads
  obtain ⟨s₂, hkeysRead, hreads⟩ := Reads_append hreads
  obtain ⟨s₃, h₃, hreads⟩ := Reads_cons hreads
  obtain ⟨s₄, h₄, hreads⟩ := Reads_cons hreads
  obtain rfl := Reads_nil hreads
  have hlow : ∀ l : List Valtype, (sigs.reverse ++ l).length = sigs.length + l.length := by simp
  refine Evals.cons h₁ (evalStep_number hm (UInt8.le_trans hmn hn) (by decide)
    (by rw [hlow]; simp only [List.length_cons, List.length_nil]; omega)) ?_
  refine evals_keys hkeysRead hsize hmin (by
    rw [List.length_cons, hlow]
    simp only [List.length_cons, List.length_nil]
    omega) ?_
  refine Evals.cons h₃ (evalStep_number (UInt8.le_trans hm hmn) hn (by decide) (by
    rw [List.length_append, List.length_cons, hlow, List.length_reverse, List.length_map]
    simp only [List.length_cons, List.length_nil]
    omega)) (Evals.cons h₄ ?_ (Evals.nil _))
  refine evalStep_exec (by decide) (by simp) (by decide) (by decide) ?_ (by simp)
  have hargs := @multiSigArgs_eq flags m n (keys.map Prod.snd).reverse sigs.reverse [] hm hmn hn
    (by rwa [List.length_reverse, List.length_map]) (by rwa [List.length_reverse])
  have hloop := @multiSigLoop_ok env flags s (keys.map Prod.snd).reverse sigs.reverse (by
    intro sig hsig key hkey
    rw [List.mem_reverse] at hsig hkey
    obtain ⟨key, hmem, rfl⟩ := List.mem_map.1 hkey
    exact henc sig hsig key hmem) hmatch.reverse
  have hcode := @foldl_findAndDelete s sigs.reverse fun sig hsig =>
    hkept sig (List.mem_reverse.1 hsig)
  show (execCheckMultiSig env flags false (running _ 1 s)).2 = _
  rw [execCheckMultiSig]
  simp only [running] at hargs ⊢
  rw [hargs]
  dsimp only
  rw [hcode, hloop]
  dsimp only
  rw [multiSigResult, List.length_reverse, List.length_map]
  simp [vchBool]

/-! ## Minimal pushes -/

/-- Every push is one that `SCRIPT_VERIFY_MINIMALDATA` lets through. -/
def MinimalPushes (s : CScript) : Prop :=
  ∀ ops, s.Reads ops [] → ∀ op ∈ ops, op.1 ≤ 0x4e → checkMinimalPush op.2 op.1 = true

theorem MinimalPushes.of_reads {s : CScript} {ops : List (UInt8 × Valtype)} (h : s.Reads ops [])
    (hops : ∀ op ∈ ops, op.1 ≤ 0x4e → checkMinimalPush op.2 op.1 = true) : MinimalPushes s := by
  intro ops' h'
  rw [h'.unique h]
  exact hops

/-- Only the conditionals change `vfExec`. -/
theorem execPlain_vfExec {op : Opcode} {pc : CScript} {st st' : EvalState}
    (h : execPlain env flags op pc st = .ok st')
    (hop : (∀ negated, op ≠ .ifThen negated) ∧ op ≠ .orElse ∧ op ≠ .endIf) :
    st'.vfExec = st.vfExec := by
  unfold execPlain at h
  split at h
  · cases h
    rfl
  · split at h
    · cases h
    · cases h
      rfl
  · exact absurd rfl (hop.1 _)
  · exact absurd rfl hop.2.1
  · exact absurd rfl hop.2.2
  · cases h
  · split at h
    · cases h
    · cases h
      rfl
  · split at h
    · cases h
    · cases h
      rfl
  · cases h
    rfl
  · split at h
    · cases h
      rfl
    · cases h

theorem exec_vfExec {op : Opcode} {pc : CScript} {st st' : EvalState}
    (h : (exec env flags op pc st).2 = .ok st')
    (hop : (∀ negated, op ≠ .ifThen negated) ∧ op ≠ .orElse ∧ op ≠ .endIf) :
    st'.vfExec = st.vfExec := by
  unfold exec at h
  split at h
  · unfold execCheckSig at h
    split at h
    · split at h
      · cases h
      · dsimp only at h
        split at h
        · split at h
          · cases h
            rfl
          · cases h
        · cases h
          rfl
    · cases h
  · unfold execCheckMultiSig at h
    split at h
    · cases h
    · dsimp only at h
      split at h
      · cases h
      · unfold multiSigResult at h
        split at h
        · cases h
        · split at h
          · cases h
          · split at h
            · split at h
              · cases h
                rfl
              · cases h
            · cases h
              rfl
  · exact execPlain_vfExec h hop

/-- A round outside of conditionals. -/
theorem evalStep_minimal (hflags : flags.minimalData = true) {opcode : UInt8} {vch : Valtype}
    {pc : CScript} {st st' : EvalState} (hst : st.vfExec = []) (hcond : isConditional opcode = false)
    (h : (evalStep env flags opcode vch pc st).2 = .ok st') :
    st'.vfExec = [] ∧ (opcode ≤ 0x4e → checkMinimalPush vch opcode = true) := by
  have hexec := evalStep_ok env flags h
  have hrun : (st.countOp opcode).fExec = true := by
    show st.vfExec.all id = true
    rw [hst]
    rfl
  have hkind : ∀ b : UInt8, isConditional b = false →
      (Opcode.ofByte b ≠ .ifThen false ∧ Opcode.ofByte b ≠ .ifThen true) ∧
        Opcode.ofByte b ≠ .orElse ∧ Opcode.ofByte b ≠ .endIf := by
    decide +kernel
  rw [execOpcode, hrun, Bool.true_and] at hexec
  by_cases hop : opcode ≤ 0x4e
  · rw [if_pos (decide_eq_true hop), execPush, hflags] at hexec
    cases hmin : checkMinimalPush vch opcode with
    | false =>
      rw [hmin] at hexec
      cases hexec
    | true =>
      rw [hmin] at hexec
      cases hexec
      exact ⟨hst, fun _ => rfl⟩
  · rw [if_neg (by rw [decide_eq_true_eq]; exact hop), Bool.true_or, if_pos rfl] at hexec
    obtain ⟨hif, hnot⟩ := hkind opcode hcond
    refine ⟨(exec_vfExec hexec ⟨?_, hnot⟩).trans hst, fun hle => absurd hle hop⟩
    intro negated
    cases negated with
    | false => exact hif.1
    | true => exact hif.2

theorem evalLoop_minimal (hflags : flags.minimalData = true) : ∀ (n : ℕ) {s : CScript}
    {ops : List (UInt8 × Valtype)} {st st' : EvalState}, s.length ≤ n → s.Reads ops [] →
    (∀ op ∈ ops, isConditional op.1 = false) → st.vfExec = [] →
    (evalLoop env flags n s st).2 = .ok st' →
    ∀ op ∈ ops, op.1 ≤ 0x4e → checkMinimalPush op.2 op.1 = true
  | n, s, [], _, _, _, _, _, _, _ => by simp
  | n, s, op :: ops, st, st', hn, hreads, hcond, hst, h => by
      obtain ⟨rest, hop, hreads⟩ := Reads_cons hreads
      have hlt := getOp_length_lt hop
      obtain ⟨n, rfl⟩ : ∃ n', n = n' + 1 := ⟨n - 1, by omega⟩
      rw [evalLoop_cons env flags hop] at h
      cases hstep : (evalStep env flags op.1 op.2 rest st).2 with
      | error e =>
        rw [hstep] at h
        cases h
      | ok st₁ =>
        rw [hstep] at h
        obtain ⟨hst₁, hmin⟩ :=
          evalStep_minimal hflags hst (hcond op List.mem_cons_self) hstep
        intro op' hop'
        rcases List.mem_cons.1 hop' with rfl | hop'
        · exact hmin
        · exact evalLoop_minimal hflags n (by omega) hreads
            (fun o ho => hcond o (List.mem_cons_of_mem _ ho)) hst₁ h op' hop'

/-- **A script without conditionals that succeeds has minimal pushes only.** -/
theorem minimalPushes_of_eval (hflags : flags.minimalData = true) {s : CScript}
    {ops : List (UInt8 × Valtype)} {stack stack' : List Valtype} (hreads : s.Reads ops [])
    (hcond : ∀ op ∈ ops, isConditional op.1 = false)
    (h : (evalScript env flags stack s).2 = .ok stack') : MinimalPushes s := by
  apply MinimalPushes.of_reads hreads
  rw [evalScript] at h
  split at h
  · cases h
  · dsimp only at h
    cases hloop : (evalLoop env flags s.length s { stack := stack, codehash := s }).2 with
    | error e =>
      rw [hloop] at h
      cases h
    | ok st' => exact evalLoop_minimal hflags s.length le_rfl hreads hcond rfl hloop

end Runs

end FairCoin
