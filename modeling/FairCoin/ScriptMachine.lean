import FairCoin.Script

/-!
# The script interpreter as a machine

`EvalScript` of `src/script/interpreter.cpp` once more, this time with everything that could go wrong
in it: vectors are read at computed positions, numbers are 64-bit words with the assertions of
`CScriptNum` (`src/script/script.h`), and the script is read through a position, as `GetOp2` and
`FindAndDelete` do.

* `Halt` — how a run ends early: with an error that is returned, with an exception, or with a defect.
* `Machine.stacktop`, `Machine.popstack`, `Machine.scriptNum` — the accesses, which may fail.
* `Machine.getOp2`, `Machine.findAndDelete` — the script is read and changed by position.
* `Machine.exec` — one case for each group of opcodes, in the words of the source.
* `Machine.evalScript`, `Machine.verifyScript` — the loop with its `try` block, and the assertion that
  the stack of the first script is not empty.

A stack is a list whose head is the top, so `stacktop(-1)` is the head.
-/

namespace FairCoin

/-- How a run of the interpreter ends early. -/
inductive Halt
  /-- `return set_error(serror, e)`. -/
  | error (e : ScriptError)
  /-- `scriptnum_error`: a number is too long, or not minimal. -/
  | scriptNum
  /-- `out_of_range`, thrown by `vector::at`. -/
  | outOfRange
  /-- `runtime_error`, thrown by `popstack`. -/
  | stackEmpty
  /-- A vector or the script is read or changed outside of its bounds, without a check. -/
  | outside
  /-- An assertion fails. -/
  | assertion
  /-- A signed 64-bit result overflows. -/
  | overflow
  /-- An operand leaves the range that the comment on `CScriptNum` gives. -/
  | operand
  /-- A loop is still running. -/
  | running
  deriving DecidableEq, Repr

namespace Machine

/-! ## Vectors -/

/-- `stacktop(i)`: `stack.at(stack.size()+(i))`.  The sum wraps when `i` reaches below the bottom. -/
def stacktop (stack : List Valtype) (i : ℤ) : Except Halt Valtype :=
  if i < 0 then
    match stack[(-i - 1).toNat]? with
    | some vch => .ok vch
    | none => .error .outOfRange
  else .error .outOfRange

/-- `popstack`. -/
def popstack : List Valtype → Except Halt (List Valtype)
  | [] => .error .stackEmpty
  | _ :: stack => .ok stack

/-- `stack.erase(stack.end()-n)`. -/
def eraseTop (n : ℤ) (stack : List Valtype) : Except Halt (List Valtype) :=
  if 1 ≤ n ∧ n ≤ stack.length then .ok (stack.eraseIdx (n - 1).toNat) else .error .outside

/-- `stack.erase(stack.end()-m, stack.end()-n)`. -/
def eraseRange (m n : ℕ) (stack : List Valtype) : Except Halt (List Valtype) :=
  if n ≤ m ∧ m ≤ stack.length then .ok (stack.take n ++ stack.drop m) else .error .outside

/-- `stack.insert(stack.end()-n, vch)`. -/
def insertTop (n : ℕ) (vch : Valtype) (stack : List Valtype) : Except Halt (List Valtype) :=
  if n ≤ stack.length then .ok (stack.take n ++ vch :: stack.drop n) else .error .outside

/-- `swap(stacktop(-m), stacktop(-n))`. -/
def swapTop (m n : ℕ) (stack : List Valtype) : Except Halt (List Valtype) := do
  let a ← stacktop stack (-m)
  let b ← stacktop stack (-n)
  .ok ((stack.set (m - 1) b).set (n - 1) a)

/-- `if (stack.size() < n) return set_error(serror, SCRIPT_ERR_INVALID_STACK_OPERATION)`. -/
def need (n : ℕ) (stack : List Valtype) : Except Halt Unit :=
  if stack.length < n then .error (.error .invalidStackOperation) else .ok ()

/-! ## Numbers -/

/-- `CScriptNum(vch, fRequireMinimal)`, with the range of operands its comment promises. -/
def scriptNum (flags : VerifyFlags) (vch : Valtype) : Except Halt ℤ :=
  match CScriptNum.read flags.minimalData vch with
  | none => .error .scriptNum
  | some n => if -2 ^ 31 + 1 ≤ n ∧ n ≤ 2 ^ 31 - 1 then .ok n else .error .operand

/-- The result of a 64-bit operation. -/
def int64 (n : ℤ) : Except Halt ℤ :=
  if -2 ^ 63 ≤ n ∧ n ≤ 2 ^ 63 - 1 then .ok n else .error .overflow

/-- `operator+=`. -/
def plusAssign (m rhs : ℤ) : Except Halt ℤ :=
  if rhs = 0 ∨ (0 < rhs ∧ m ≤ 2 ^ 63 - 1 - rhs) ∨ (rhs < 0 ∧ -2 ^ 63 - rhs ≤ m) then int64 (m + rhs)
  else .error .assertion

/-- `operator-=`. -/
def minusAssign (m rhs : ℤ) : Except Halt ℤ :=
  if rhs = 0 ∨ (0 < rhs ∧ -2 ^ 63 + rhs ≤ m) ∨ (rhs < 0 ∧ m ≤ 2 ^ 63 - 1 + rhs) then int64 (m - rhs)
  else .error .assertion

/-- The unary `operator-`. -/
def negate (m : ℤ) : Except Halt ℤ := if m ≠ -2 ^ 63 then int64 (-m) else .error .assertion

/-- `getint`. -/
def getint (m : ℤ) : ℤ :=
  if 2 ^ 31 - 1 < m then 2 ^ 31 - 1 else if m < -2 ^ 31 then -2 ^ 31 else m

/-- `getvch`; a number that is negative is negated on the way. -/
def getvch (m : ℤ) : Except Halt Valtype := do
  let _ ← if m < 0 then int64 (-m) else .ok m
  .ok (CScriptNum.serialize m)

/-- The operations on one number. -/
def unary : UnaryOp → ℤ → Except Halt ℤ
  | .add1, bn => plusAssign bn 1
  | .sub1, bn => minusAssign bn 1
  | .negate, bn => negate bn
  | .abs, bn => if bn < 0 then negate bn else .ok bn
  | .not, bn => .ok (if bn = 0 then 1 else 0)
  | .notEqual0, bn => .ok (if bn ≠ 0 then 1 else 0)

/-- The operations on two numbers. -/
def binary : BinaryOp → ℤ → ℤ → Except Halt ℤ
  | .add, bn1, bn2 => int64 (bn1 + bn2)
  | .sub, bn1, bn2 => int64 (bn1 - bn2)
  | op, bn1, bn2 => .ok (op.apply bn1 bn2)

/-! ## The script -/

/-- `*pc++`. -/
def readByte (script : CScript) (pc : ℕ) : Except Halt UInt8 :=
  match script[pc]? with
  | some b => .ok b
  | none => .error .outside

/-- `memcpy` of the bytes of a little-endian number. -/
def readNumber (script : CScript) (pc : ℕ) : ℕ → Except Halt ℕ
  | 0 => .ok 0
  | n + 1 => do
      let b ← readByte script pc
      let rest ← readNumber script (pc + 1) n
      .ok (b.toNat + 256 * rest)

/-- `pvchRet->assign(pc, pc + nSize)`. -/
def readRange (script : CScript) (pc nSize : ℕ) : Except Halt Valtype :=
  if pc + nSize ≤ script.length then .ok ((script.drop pc).take nSize) else .error .outside

/-- The end of `GetOp2`: the immediate operand of this size. -/
def getOperand (script : CScript) (opcode : UInt8) (pc nSize : ℕ) :
    Except Halt (Option (UInt8 × Valtype × ℕ)) :=
  if script.length < pc ∨ (script.length - pc) % 2 ^ 32 < nSize then .ok none
  else do
    let vch ← readRange script pc nSize
    .ok (some (opcode, vch, pc + nSize))

/-- `GetOp2`: `none` when it returns false. -/
def getOp2 (script : CScript) (pc : ℕ) : Except Halt (Option (UInt8 × Valtype × ℕ)) :=
  if script.length ≤ pc then .ok none
  else do
    let opcode ← readByte script pc
    let pc := pc + 1
    if opcode < 0x4c then getOperand script opcode pc opcode.toNat
    else if opcode = 0x4c then
      if script.length < pc + 1 then .ok none
      else do
        let nSize ← readNumber script pc 1
        getOperand script opcode (pc + 1) nSize
    else if opcode = 0x4d then
      if script.length < pc + 2 then .ok none
      else do
        let nSize ← readNumber script pc 2
        getOperand script opcode (pc + 2) nSize
    else if opcode = 0x4e then
      if script.length < pc + 4 then .ok none
      else do
        let nSize ← readNumber script pc 4
        getOperand script opcode (pc + 4) nSize
    else .ok (some (opcode, [], pc))

/-- The loops of `FindAndDelete`, with the position they are at. -/
def findAndDeleteLoop (b : CScript) : ℕ → CScript → ℕ → Except Halt CScript
  | 0, _, _ => .error .running
  | n + 1, script, pc =>
      if pc + b.length ≤ script.length ∧ (script.drop pc).take b.length = b then
        findAndDeleteLoop b n (script.take pc ++ script.drop (pc + b.length)) pc
      else do
        match ← getOp2 script pc with
        | none => .ok script
        | some (_, _, pc) => findAndDeleteLoop b n script pc

/-- `FindAndDelete`. -/
def findAndDelete (script b : CScript) : Except Halt CScript :=
  if b = [] then .ok script else findAndDeleteLoop b (script.length + 1) script 0

/-- `CScript(pbegincodehash, pend)`. -/
def scriptCode (script : CScript) (pbegincodehash : ℕ) : Except Halt CScript :=
  if pbegincodehash ≤ script.length then .ok (script.drop pbegincodehash) else .error .outside

/-! ## Opcodes -/

/-- The state of `EvalScript`; `pbegincodehash` is a position in the script. -/
structure State where
  stack : List Valtype
  altstack : List Valtype := []
  vfExec : List Bool := []
  nOpCount : ℤ := 0
  pbegincodehash : ℕ := 0

/-- The operations on the stack alone. -/
def execStackOp (op : StackOp) (stack : List Valtype) : Except Halt (List Valtype) :=
  match op with
  | .twoDrop => do
      need 2 stack
      let stack ← popstack stack
      popstack stack
  | .twoDup => do
      need 2 stack
      let vch1 ← stacktop stack (-2)
      let vch2 ← stacktop stack (-1)
      .ok (vch2 :: vch1 :: stack)
  | .threeDup => do
      need 3 stack
      let vch1 ← stacktop stack (-3)
      let vch2 ← stacktop stack (-2)
      let vch3 ← stacktop stack (-1)
      .ok (vch3 :: vch2 :: vch1 :: stack)
  | .twoOver => do
      need 4 stack
      let vch1 ← stacktop stack (-4)
      let vch2 ← stacktop stack (-3)
      .ok (vch2 :: vch1 :: stack)
  | .twoRot => do
      need 6 stack
      let vch1 ← stacktop stack (-6)
      let vch2 ← stacktop stack (-5)
      let stack ← eraseRange 6 4 stack
      .ok (vch2 :: vch1 :: stack)
  | .twoSwap => do
      need 4 stack
      let stack ← swapTop 4 2 stack
      swapTop 3 1 stack
  | .ifDup => do
      need 1 stack
      let vch ← stacktop stack (-1)
      .ok (if castToBool vch then vch :: stack else stack)
  | .depth => do
      let vch ← getvch stack.length
      .ok (vch :: stack)
  | .drop => do
      need 1 stack
      popstack stack
  | .dup => do
      need 1 stack
      let vch ← stacktop stack (-1)
      .ok (vch :: stack)
  | .nip => do
      need 2 stack
      eraseTop 2 stack
  | .over => do
      need 2 stack
      let vch ← stacktop stack (-2)
      .ok (vch :: stack)
  | .rot => do
      need 3 stack
      let stack ← swapTop 3 2 stack
      swapTop 2 1 stack
  | .swap => do
      need 2 stack
      swapTop 2 1 stack
  | .tuck => do
      need 2 stack
      let vch ← stacktop stack (-1)
      insertTop 2 vch stack
  | .size => do
      need 1 stack
      let top ← stacktop stack (-1)
      let vch ← getvch top.length
      .ok (vch :: stack)

section Instructions

variable (env : ScriptEnv) (flags : VerifyFlags) (script : CScript)

/-- `OP_PICK` and `OP_ROLL`. -/
def execPick (roll : Bool) (stack : List Valtype) : Except Halt (List Valtype) := do
  need 2 stack
  let top ← stacktop stack (-1)
  let bn ← scriptNum flags top
  let n := getint bn
  let stack ← popstack stack
  if n < 0 ∨ wrap32 stack.length ≤ n then .error (.error .invalidStackOperation)
  else do
    let vch ← stacktop stack (-n - 1)
    let stack ← if roll then eraseTop (n + 1) stack else .ok stack
    .ok (vch :: stack)

/-- `OP_EQUAL` and `OP_EQUALVERIFY`. -/
def execEqual (verify : Bool) (stack : List Valtype) : Except Halt (List Valtype) := do
  need 2 stack
  let vch1 ← stacktop stack (-2)
  let vch2 ← stacktop stack (-1)
  let fEqual := decide (vch1 = vch2)
  let stack ← popstack stack
  let stack ← popstack stack
  let stack := vchBool fEqual :: stack
  if verify then
    if fEqual then popstack stack else .error (.error .equalVerify)
  else .ok stack

/-- The operations on one number. -/
def execUnary (op : UnaryOp) (stack : List Valtype) : Except Halt (List Valtype) := do
  need 1 stack
  let top ← stacktop stack (-1)
  let bn ← scriptNum flags top
  let bn ← unary op bn
  let stack ← popstack stack
  let vch ← getvch bn
  .ok (vch :: stack)

/-- The operations on two numbers. -/
def execBinary (op : BinaryOp) (stack : List Valtype) : Except Halt (List Valtype) := do
  need 2 stack
  let vch1 ← stacktop stack (-2)
  let bn1 ← scriptNum flags vch1
  let vch2 ← stacktop stack (-1)
  let bn2 ← scriptNum flags vch2
  let bn ← binary op bn1 bn2
  let stack ← popstack stack
  let stack ← popstack stack
  let vch ← getvch bn
  let stack := vch :: stack
  if op = .numEqualVerify then do
    let top ← stacktop stack (-1)
    if castToBool top then popstack stack else .error (.error .numEqualVerify)
  else .ok stack

/-- `OP_WITHIN`. -/
def execWithin (stack : List Valtype) : Except Halt (List Valtype) := do
  need 3 stack
  let vch1 ← stacktop stack (-3)
  let bn1 ← scriptNum flags vch1
  let vch2 ← stacktop stack (-2)
  let bn2 ← scriptNum flags vch2
  let vch3 ← stacktop stack (-1)
  let bn3 ← scriptNum flags vch3
  let fValue := decide (bn2 ≤ bn1) && decide (bn1 < bn3)
  let stack ← popstack stack
  let stack ← popstack stack
  let stack ← popstack stack
  .ok (vchBool fValue :: stack)

/-- The hash operations. -/
def execHash (op : HashOp) (stack : List Valtype) : Except Halt (List Valtype) := do
  need 1 stack
  let vch ← stacktop stack (-1)
  let stack ← popstack stack
  .ok (op.apply env vch :: stack)

/-- `!CheckSignatureEncoding(...) || !CheckPubKeyEncoding(...)`. -/
def checkEncodings (vchSig vchPubKey : Valtype) : Except Halt Unit :=
  match FairCoin.checkEncodings flags vchSig vchPubKey with
  | .ok () => .ok ()
  | .error e => .error (.error e)

/-- `OP_CHECKSIG` and `OP_CHECKSIGVERIFY`. -/
def execCheckSig (verify : Bool) (st : State) : Except Halt State := do
  need 2 st.stack
  let vchSig ← stacktop st.stack (-2)
  let vchPubKey ← stacktop st.stack (-1)
  let code ← scriptCode script st.pbegincodehash
  let code ← findAndDelete code (CScript.pushData vchSig)
  checkEncodings flags vchSig vchPubKey
  let fSuccess := env.checkSig vchSig vchPubKey code
  let stack ← popstack st.stack
  let stack ← popstack stack
  let stack := vchBool fSuccess :: stack
  if verify then
    if fSuccess then do
      let stack ← popstack stack
      .ok { st with stack := stack }
    else .error (.error .checkSigVerify)
  else .ok { st with stack := stack }

/-- `FindAndDelete` of the signatures `k`, `k + 1`, ... of `OP_CHECKMULTISIG`; `n` are left. -/
def deleteSigs (stack : List Valtype) (isig : ℤ) : ℕ → ℕ → CScript → Except Halt CScript
  | 0, _, code => .ok code
  | n + 1, k, code => do
      let vchSig ← stacktop stack (-isig - k)
      let code ← findAndDelete code (CScript.pushData vchSig)
      deleteSigs stack isig n (k + 1) code

/-- The loop over signatures and keys. -/
def checkSigs (stack : List Valtype) (code : CScript) :
    ℕ → ℤ → ℤ → ℤ → ℤ → Bool → Except Halt Bool
  | 0, _, _, _, _, _ => .error .running
  | n + 1, isig, ikey, nSigsCount, nKeysCount, fSuccess =>
      if fSuccess = true ∧ 0 < nSigsCount then do
        let vchSig ← stacktop stack (-isig)
        let vchPubKey ← stacktop stack (-ikey)
        checkEncodings flags vchSig vchPubKey
        let fOk := env.checkSig vchSig vchPubKey code
        let isig := if fOk then isig + 1 else isig
        let nSigsCount := if fOk then nSigsCount - 1 else nSigsCount
        let ikey := ikey + 1
        let nKeysCount := nKeysCount - 1
        let fSuccess := if nKeysCount < nSigsCount then false else fSuccess
        checkSigs stack code n isig ikey nSigsCount nKeysCount fSuccess
      else .ok fSuccess

/-- `while (i-- > 1) popstack(stack)`. -/
def popMany : ℕ → List Valtype → Except Halt (List Valtype)
  | 0, stack => .ok stack
  | n + 1, stack => do
      let stack ← popstack stack
      popMany n stack

/-- `if ((int)stack.size() < i) return set_error(serror, SCRIPT_ERR_INVALID_STACK_OPERATION)`. -/
def needInt (i : ℤ) (stack : List Valtype) : Except Halt Unit :=
  if wrap32 stack.length < i then .error (.error .invalidStackOperation) else .ok ()

/-- `OP_CHECKMULTISIG` and `OP_CHECKMULTISIGVERIFY`. -/
def execCheckMultiSig (verify : Bool) (st : State) : Except Halt State := do
  needInt 1 st.stack
  let top ← stacktop st.stack (-1)
  let bn ← scriptNum flags top
  let nKeysCount := getint bn
  if nKeysCount < 0 ∨ 20 < nKeysCount then .error (.error .pubkeyCount)
  else do
    let nOpCount := st.nOpCount + nKeysCount
    if 201 < nOpCount then .error (.error .opCount)
    else do
      let ikey := 2
      let i := 2 + nKeysCount
      needInt i st.stack
      let count ← stacktop st.stack (-i)
      let bn ← scriptNum flags count
      let nSigsCount := getint bn
      if nSigsCount < 0 ∨ nKeysCount < nSigsCount then .error (.error .sigCount)
      else do
        let isig := i + 1
        let i := i + 1 + nSigsCount
        needInt i st.stack
        let code ← scriptCode script st.pbegincodehash
        let code ← deleteSigs st.stack isig nSigsCount.toNat 0 code
        let fSuccess ← checkSigs env flags st.stack code 21 isig ikey nSigsCount nKeysCount true
        let stack ← popMany (i - 1).toNat st.stack
        -- the extra element
        need 1 stack
        let dummy ← stacktop stack (-1)
        if flags.nullDummy && !dummy.isEmpty then .error (.error .sigNullDummy)
        else do
          let stack ← popstack stack
          let stack := vchBool fSuccess :: stack
          if verify then
            if fSuccess then do
              let stack ← popstack stack
              .ok { st with stack := stack, nOpCount := nOpCount }
            else .error (.error .checkMultiSigVerify)
          else .ok { st with stack := stack, nOpCount := nOpCount }

/-- `vfExec.back()`. -/
def back : List Bool → Except Halt Bool
  | [] => .error .outside
  | b :: _ => .ok b

/-- `vfExec.pop_back()`. -/
def popBack : List Bool → Except Halt (List Bool)
  | [] => .error .outside
  | _ :: vfExec => .ok vfExec

/-- `altstacktop(-1)` is pushed to the stack. -/
def fromAltStack (st : State) : Except Halt State :=
  if st.altstack.length < 1 then .error (.error .invalidAltStackOperation)
  else do
    let vch ← stacktop st.altstack (-1)
    let altstack ← popstack st.altstack
    .ok { st with stack := vch :: st.stack, altstack := altstack }

/-- The opcodes that change the stack only. -/
def execStack (op : Opcode) (stack : List Valtype) : Except Halt (List Valtype) :=
  match op with
  | .number n => do
      let vch ← getvch n
      .ok (vch :: stack)
  | .verify => do
      need 1 stack
      let top ← stacktop stack (-1)
      if castToBool top then popstack stack else .error (.error .verify)
  | .stack op => execStackOp op stack
  | .pick roll => execPick flags roll stack
  | .equal verify => execEqual verify stack
  | .unary op => execUnary flags op stack
  | .binary op => execBinary flags op stack
  | .within => execWithin flags stack
  | .hash op => execHash env op stack
  | _ => .error (.error .badOpcode)

/-- The switch over the opcode; `pc` is the position after it. -/
def exec (op : Opcode) (pc : ℕ) (st : State) : Except Halt State :=
  match op with
  | .nop => .ok st
  | .upgradableNop =>
      if flags.discourageUpgradableNops then .error (.error .discourageUpgradableNops) else .ok st
  | .ifThen negated =>
      if st.vfExec.all id then
        if st.stack.length < 1 then .error (.error .unbalancedConditional)
        else do
          let vch ← stacktop st.stack (-1)
          let fValue := castToBool vch
          let fValue := if negated then !fValue else fValue
          let stack ← popstack st.stack
          .ok { st with stack := stack, vfExec := fValue :: st.vfExec }
      else .ok { st with vfExec := false :: st.vfExec }
  | .orElse =>
      if st.vfExec.isEmpty then .error (.error .unbalancedConditional)
      else do
        let b ← back st.vfExec
        let vfExec ← popBack st.vfExec
        .ok { st with vfExec := (!b) :: vfExec }
  | .endIf =>
      if st.vfExec.isEmpty then .error (.error .unbalancedConditional)
      else do
        let vfExec ← popBack st.vfExec
        .ok { st with vfExec := vfExec }
  | .opReturn => .error (.error .opReturn)
  | .toAltStack => do
      need 1 st.stack
      let vch ← stacktop st.stack (-1)
      let stack ← popstack st.stack
      .ok { st with stack := stack, altstack := vch :: st.altstack }
  | .fromAltStack => fromAltStack st
  | .codeSeparator => .ok { st with pbegincodehash := pc }
  | .checkSig verify => execCheckSig env flags script verify st
  | .checkMultiSig verify => execCheckMultiSig env flags script verify st
  | op => do
      let stack ← execStack env flags op st.stack
      .ok { st with stack := stack }

/-! ## The loop -/

/-- A round of the loop, for an opcode, the bytes it pushes and the position after it. -/
def evalStep (opcode : UInt8) (vchPushValue : Valtype) (pc : ℕ) (st : State) : Except Halt State := do
  let fExec := st.vfExec.all id
  if 520 < vchPushValue.length then .error (.error .pushSize)
  else do
    let st := if 0x60 < opcode then { st with nOpCount := st.nOpCount + 1 } else st
    if 0x60 < opcode ∧ 201 < st.nOpCount then .error (.error .opCount)
    else if Opcode.ofByte opcode = .disabled then .error (.error .disabledOpcode)
    else do
      let st ←
        if fExec && decide (opcode ≤ 0x4e) then
          if flags.minimalData && !checkMinimalPush vchPushValue opcode then
            .error (.error .minimalData)
          else .ok { st with stack := vchPushValue :: st.stack }
        else if fExec || isConditional opcode then
          exec env flags script (Opcode.ofByte opcode) pc st
        else .ok st
      if 1000 < st.stack.length + st.altstack.length then .error (.error .stackSize) else .ok st

/-- `while (pc < pend)`. -/
def evalLoop : ℕ → ℕ → State → Except Halt State
  | 0, _, _ => .error .running
  | n + 1, pc, st =>
      if pc < script.length then do
        match ← getOp2 script pc with
        | none => .error (.error .badOpcode)
        | some (opcode, vchPushValue, pc) => do
            let st ← evalStep env flags script opcode vchPushValue pc st
            evalLoop n pc st
      else .ok st

end Instructions

/-- What `EvalScript` does before its `catch` clause. -/
def tryBlock (env : ScriptEnv) (flags : VerifyFlags) (stack : List Valtype) (script : CScript) :
    Except Halt State :=
  if 10000 < script.length then .error (.error .scriptSize)
  else evalLoop env flags script (script.length + 1) 0 { stack := stack }

/-- `catch (...)`: an exception becomes the error it started with. -/
def catchAll {α : Type} : Except Halt α → Except Halt α
  | .error .scriptNum => .error (.error .unknownError)
  | .error .outOfRange => .error (.error .unknownError)
  | .error .stackEmpty => .error (.error .unknownError)
  | r => r

/-- `EvalScript`: the stack it leaves. -/
def evalScript (env : ScriptEnv) (flags : VerifyFlags) (stack : List Valtype) (script : CScript) :
    Except Halt (List Valtype) := do
  let st ← catchAll (tryBlock env flags stack script)
  if !st.vfExec.isEmpty then .error (.error .unbalancedConditional) else .ok st.stack

/-- `if (stack.empty() || !CastToBool(stack.back())) return set_error(serror, SCRIPT_ERR_EVAL_FALSE)`. -/
def checkTop : List Valtype → Except Halt Unit
  | [] => .error (.error .evalFalse)
  | vch :: _ => if castToBool vch then .ok () else .error (.error .evalFalse)

/-- `VerifyScript`. -/
def verifyScript (env : ScriptEnv) (flags : VerifyFlags) (scriptSig scriptPubKey : CScript) :
    Except Halt Unit :=
  if flags.sigPushOnly && !scriptSig.isPushOnly then .error (.error .sigPushOnly)
  else do
    let stack ← evalScript env flags [] scriptSig
    let stackCopy := if flags.p2sh then stack else []
    let stack ← evalScript env flags stack scriptPubKey
    checkTop stack
    if flags.p2sh && scriptPubKey.isPayToScriptHash then
      if !scriptSig.isPushOnly then .error (.error .sigPushOnly)
      else
        match stackCopy with
        | [] => .error .assertion
        | pubKeySerialized :: stackCopy => do
            let stack ← evalScript env flags stackCopy pubKeySerialized
            checkTop stack
    else .ok ()

end Machine

end FairCoin
