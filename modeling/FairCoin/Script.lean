import FairCoin.Index

/-!
# Scripts

The stack machine of `src/script/interpreter.cpp`: `EvalScript` and `VerifyScript`, with the
encoding checks they make and the numbers of `src/script/script.h`.

* `VerifyFlags` — the `SCRIPT_VERIFY_*` bits; `F ≤ G` when every bit of `F` is in `G`.
* `ScriptEnv` — the signature checker, which a script only asks, and the hash functions.
* `Opcode` — what the bytes of a script stand for; bytes without a meaning are `bad`.
* `evalScript`, `verifyScript` — the result, with the number of calls of `CheckSig` made on the
  way, whether the script succeeds or not.

A stack is a list whose head is the top.  An exception inside the interpreter is caught there and
is the error `unknownError`.
-/

namespace FairCoin

/-- An element of the stack. -/
abbrev Valtype := List UInt8

/-- `ScriptError`. -/
inductive ScriptError
  | unknownError
  | evalFalse
  | scriptSize
  | pushSize
  | opCount
  | stackSize
  | sigCount
  | pubkeyCount
  | verify
  | equalVerify
  | checkMultiSigVerify
  | checkSigVerify
  | numEqualVerify
  | badOpcode
  | disabledOpcode
  | invalidStackOperation
  | invalidAltStackOperation
  | unbalancedConditional
  | opReturn
  | sigHashType
  | sigDer
  | minimalData
  | sigPushOnly
  | sigHighS
  | sigNullDummy
  | pubkeyType
  | discourageUpgradableNops
  deriving DecidableEq, Repr

/-! ## Flags -/

/-- The `SCRIPT_VERIFY_*` flags. -/
structure VerifyFlags where
  p2sh : Bool := false
  strictEnc : Bool := false
  derSig : Bool := false
  lowS : Bool := false
  nullDummy : Bool := false
  sigPushOnly : Bool := false
  minimalData : Bool := false
  discourageUpgradableNops : Bool := false
  deriving DecidableEq, Repr

namespace VerifyFlags

/-- Every flag of the one set is in the other. -/
structure Subset (F G : VerifyFlags) : Prop where
  p2sh : F.p2sh = true → G.p2sh = true
  strictEnc : F.strictEnc = true → G.strictEnc = true
  derSig : F.derSig = true → G.derSig = true
  lowS : F.lowS = true → G.lowS = true
  nullDummy : F.nullDummy = true → G.nullDummy = true
  sigPushOnly : F.sigPushOnly = true → G.sigPushOnly = true
  minimalData : F.minimalData = true → G.minimalData = true
  discourageUpgradableNops : F.discourageUpgradableNops = true →
    G.discourageUpgradableNops = true

instance : LE VerifyFlags := ⟨Subset⟩

/-- `MANDATORY_SCRIPT_VERIFY_FLAGS`. -/
def mandatory : VerifyFlags := { p2sh := true }

/-- `STANDARD_SCRIPT_VERIFY_FLAGS`. -/
def standard : VerifyFlags :=
  { mandatory with
    derSig := true
    strictEnc := true
    minimalData := true
    nullDummy := true
    discourageUpgradableNops := true }

end VerifyFlags

/-! ## Numbers and truth values -/

/-- `CastToBool`: zero and negative zero are false. -/
def castToBool : Valtype → Bool
  | [] => false
  | [b] => b != 0 && b != 0x80
  | b :: rest => if b != 0 then true else castToBool rest

namespace CScriptNum

/-- `CScriptNum::set_vch`. -/
def setVch (vch : Valtype) : ℤ :=
  let result := Nat.ofDigits 256 (vch.map UInt8.toNat)
  match vch.getLast? with
  | none => 0
  | some b => if 0x80 ≤ b then -((result : ℤ) - 0x80 * 256 ^ (vch.length - 1)) else result

/-- `CScriptNum::serialize`. -/
def serialize (value : ℤ) : Valtype :=
  let neg := decide (value < 0)
  let result := (Nat.digits 256 value.natAbs).map UInt8.ofNat
  match result.getLast? with
  | none => []
  | some b =>
      if 0x80 ≤ b then result ++ [if neg then 0x80 else 0]
      else if neg then result.dropLast ++ [b ||| 0x80]
      else result

/-- The number takes no byte more than it needs. -/
def isMinimal (vch : Valtype) : Bool :=
  match vch.reverse with
  | [] => true
  | [b] => b &&& 0x7f != 0
  | b :: c :: _ => b &&& 0x7f != 0 || c &&& 0x80 != 0

/-- `CScriptNum(vch, fRequireMinimal)`; `none` when it throws. -/
def read (fRequireMinimal : Bool) (vch : Valtype) : Option ℤ :=
  if 4 < vch.length then none
  else if fRequireMinimal && !isMinimal vch then none
  else some (setVch vch)

end CScriptNum

/-! ## Encodings -/

/-- `IsCompressedOrUncompressedPubKey`. -/
def isCompressedOrUncompressedPubKey (vchPubKey : Valtype) : Bool :=
  if vchPubKey.length < 33 then false
  else if vchPubKey.head? = some 0x04 then vchPubKey.length == 65
  else if vchPubKey.head? = some 0x02 ∨ vchPubKey.head? = some 0x03 then vchPubKey.length == 33
  else false

/-- `IsValidSignatureEncoding`. -/
def isValidSignatureEncoding (sig : Valtype) : Bool :=
  let byte (i : ℕ) : UInt8 := sig.getD i 0
  let lenR := (byte 3).toNat
  let lenS := (byte (5 + lenR)).toNat
  decide (9 ≤ sig.length) && decide (sig.length ≤ 73) && byte 0 == 0x30 &&
    (byte 1).toNat == sig.length - 3 && decide (5 + lenR < sig.length) &&
    lenR + lenS + 7 == sig.length && byte 2 == 0x02 && lenR != 0 && byte 4 &&& 0x80 == 0 &&
    !(decide (1 < lenR) && byte 4 == 0 && byte 5 &&& 0x80 == 0) && byte (lenR + 4) == 0x02 &&
    lenS != 0 && byte (lenR + 6) &&& 0x80 == 0 &&
    !(decide (1 < lenS) && byte (lenR + 6) == 0 && byte (lenR + 7) &&& 0x80 == 0)

/-- `vchMaxModHalfOrder`. -/
def maxModHalfOrder : ℕ := 0x7FFFFFFFFFFFFFFFFFFFFFFFFFFFFFFF5D576E7357A4501DDFE92F46681B20A0

/-- `IsLowDERSignature`, for a signature that is validly encoded: the second element is positive
and at most half the order. -/
def isLowS (sig : Valtype) : Bool :=
  let lenR := (sig.getD 3 0).toNat
  let lenS := (sig.getD (5 + lenR) 0).toNat
  let s := Nat.ofDigits 256 (((sig.drop (6 + lenR)).take lenS).reverse.map UInt8.toNat)
  decide (0 < s) && decide (s ≤ maxModHalfOrder)

/-- `IsDefinedHashtypeSignature`. -/
def isDefinedHashtypeSignature (sig : Valtype) : Bool :=
  match sig.getLast? with
  | none => false
  | some b => decide (1 ≤ b &&& 0x7f) && decide (b &&& 0x7f ≤ 3)

/-- `CheckSignatureEncoding`. -/
def checkSignatureEncoding (flags : VerifyFlags) (vchSig : Valtype) : Except ScriptError Unit :=
  if vchSig = [] then .ok ()
  else if (flags.derSig || flags.lowS || flags.strictEnc) && !isValidSignatureEncoding vchSig then
    .error .sigDer
  else if flags.lowS && !isLowS vchSig then .error .sigHighS
  else if flags.strictEnc && !isDefinedHashtypeSignature vchSig then .error .sigHashType
  else .ok ()

/-- `CheckPubKeyEncoding`. -/
def checkPubKeyEncoding (flags : VerifyFlags) (vchPubKey : Valtype) : Except ScriptError Unit :=
  if flags.strictEnc && !isCompressedOrUncompressedPubKey vchPubKey then .error .pubkeyType
  else .ok ()

/-- `CheckMinimalPush`. -/
def checkMinimalPush (data : Valtype) (opcode : UInt8) : Bool :=
  match data with
  | [] => opcode == 0
  | [b] =>
      if 1 ≤ b ∧ b ≤ 16 then opcode == 0x51 + (b - 1)
      else if b = 0x81 then opcode == 0x4f
      else opcode == 1
  | _ =>
      if data.length ≤ 75 then opcode.toNat == data.length
      else if data.length ≤ 255 then opcode == 0x4c
      else if data.length ≤ 65535 then opcode == 0x4d
      else true

/-! ## Opcodes -/

/-- The operations on the stack alone. -/
inductive StackOp
  | twoDrop
  | twoDup
  | threeDup
  | twoOver
  | twoRot
  | twoSwap
  | ifDup
  | depth
  | drop
  | dup
  | nip
  | over
  | rot
  | swap
  | tuck
  | size
  deriving DecidableEq, Repr

/-- The operations on one number. -/
inductive UnaryOp
  | add1
  | sub1
  | negate
  | abs
  | not
  | notEqual0
  deriving DecidableEq, Repr

/-- The operations on two numbers. -/
inductive BinaryOp
  | add
  | sub
  | boolAnd
  | boolOr
  | numEqual
  | numEqualVerify
  | numNotEqual
  | lessThan
  | greaterThan
  | lessThanOrEqual
  | greaterThanOrEqual
  | min
  | max
  deriving DecidableEq, Repr

/-- The hash operations. -/
inductive HashOp
  | ripemd160
  | sha1
  | sha256
  | hash160
  | hash256
  deriving DecidableEq, Repr

/-- What a byte of a script stands for. -/
inductive Opcode
  | push
  | number (n : ℤ)
  | nop
  | upgradableNop
  | ifThen (negated : Bool)
  | orElse
  | endIf
  | verify
  | opReturn
  | toAltStack
  | fromAltStack
  | stack (op : StackOp)
  | pick (roll : Bool)
  | equal (verify : Bool)
  | unary (op : UnaryOp)
  | binary (op : BinaryOp)
  | within
  | hash (op : HashOp)
  | codeSeparator
  | checkSig (verify : Bool)
  | checkMultiSig (verify : Bool)
  | disabled
  | bad
  deriving DecidableEq, Repr

/-- The opcodes of `script.h`. -/
def Opcode.ofByte (b : UInt8) : Opcode :=
  if b ≤ 0x4e then .push
  else if b = 0x4f then .number (-1)
  else if 0x51 ≤ b ∧ b ≤ 0x60 then .number ((b.toNat : ℤ) - 0x50)
  else if 0xb0 ≤ b ∧ b ≤ 0xb9 then .upgradableNop
  else
    match b.toNat with
    | 0x61 => .nop
    | 0x63 => .ifThen false
    | 0x64 => .ifThen true
    | 0x67 => .orElse
    | 0x68 => .endIf
    | 0x69 => .verify
    | 0x6a => .opReturn
    | 0x6b => .toAltStack
    | 0x6c => .fromAltStack
    | 0x6d => .stack .twoDrop
    | 0x6e => .stack .twoDup
    | 0x6f => .stack .threeDup
    | 0x70 => .stack .twoOver
    | 0x71 => .stack .twoRot
    | 0x72 => .stack .twoSwap
    | 0x73 => .stack .ifDup
    | 0x74 => .stack .depth
    | 0x75 => .stack .drop
    | 0x76 => .stack .dup
    | 0x77 => .stack .nip
    | 0x78 => .stack .over
    | 0x79 => .pick false
    | 0x7a => .pick true
    | 0x7b => .stack .rot
    | 0x7c => .stack .swap
    | 0x7d => .stack .tuck
    | 0x7e | 0x7f | 0x80 | 0x81 => .disabled
    | 0x82 => .stack .size
    | 0x83 | 0x84 | 0x85 | 0x86 => .disabled
    | 0x87 => .equal false
    | 0x88 => .equal true
    | 0x8b => .unary .add1
    | 0x8c => .unary .sub1
    | 0x8d | 0x8e => .disabled
    | 0x8f => .unary .negate
    | 0x90 => .unary .abs
    | 0x91 => .unary .not
    | 0x92 => .unary .notEqual0
    | 0x93 => .binary .add
    | 0x94 => .binary .sub
    | 0x95 | 0x96 | 0x97 | 0x98 | 0x99 => .disabled
    | 0x9a => .binary .boolAnd
    | 0x9b => .binary .boolOr
    | 0x9c => .binary .numEqual
    | 0x9d => .binary .numEqualVerify
    | 0x9e => .binary .numNotEqual
    | 0x9f => .binary .lessThan
    | 0xa0 => .binary .greaterThan
    | 0xa1 => .binary .lessThanOrEqual
    | 0xa2 => .binary .greaterThanOrEqual
    | 0xa3 => .binary .min
    | 0xa4 => .binary .max
    | 0xa5 => .within
    | 0xa6 => .hash .ripemd160
    | 0xa7 => .hash .sha1
    | 0xa8 => .hash .sha256
    | 0xa9 => .hash .hash160
    | 0xaa => .hash .hash256
    | 0xab => .codeSeparator
    | 0xac => .checkSig false
    | 0xad => .checkSig true
    | 0xae => .checkMultiSig false
    | 0xaf => .checkMultiSig true
    | _ => .bad

/-- The byte of `OP_IF <= opcode && opcode <= OP_ENDIF`. -/
def isConditional (b : UInt8) : Bool := decide (0x63 ≤ b) && decide (b ≤ 0x68)

/-- The truth values a script pushes. -/
def vchBool (b : Bool) : Valtype := if b then [1] else []

/-- The stack after an operation on the stack alone; `none` when it has too few elements. -/
def StackOp.exec : StackOp → List Valtype → Option (List Valtype)
  | .twoDrop, _ :: _ :: st => some st
  | .twoDup, b :: a :: st => some (b :: a :: b :: a :: st)
  | .threeDup, c :: b :: a :: st => some (c :: b :: a :: c :: b :: a :: st)
  | .twoOver, d :: c :: b :: a :: st => some (b :: a :: d :: c :: b :: a :: st)
  | .twoRot, f :: e :: d :: c :: b :: a :: st => some (b :: a :: f :: e :: d :: c :: st)
  | .twoSwap, d :: c :: b :: a :: st => some (b :: a :: d :: c :: st)
  | .ifDup, a :: st => some (if castToBool a then a :: a :: st else a :: st)
  | .depth, st => some (CScriptNum.serialize st.length :: st)
  | .drop, _ :: st => some st
  | .dup, a :: st => some (a :: a :: st)
  | .nip, b :: _ :: st => some (b :: st)
  | .over, b :: a :: st => some (a :: b :: a :: st)
  | .rot, c :: b :: a :: st => some (a :: c :: b :: st)
  | .swap, b :: a :: st => some (a :: b :: st)
  | .tuck, b :: a :: st => some (b :: a :: b :: st)
  | .size, a :: st => some (CScriptNum.serialize a.length :: a :: st)
  | _, _ => none

/-- The result of an operation on one number. -/
def UnaryOp.apply : UnaryOp → ℤ → ℤ
  | .add1, n => n + 1
  | .sub1, n => n - 1
  | .negate, n => -n
  | .abs, n => if n < 0 then -n else n
  | .not, n => if n = 0 then 1 else 0
  | .notEqual0, n => if n ≠ 0 then 1 else 0

/-- The result of an operation on two numbers. -/
def BinaryOp.apply : BinaryOp → ℤ → ℤ → ℤ
  | .add, a, b => a + b
  | .sub, a, b => a - b
  | .boolAnd, a, b => if a ≠ 0 ∧ b ≠ 0 then 1 else 0
  | .boolOr, a, b => if a ≠ 0 ∨ b ≠ 0 then 1 else 0
  | .numEqual, a, b => if a = b then 1 else 0
  | .numEqualVerify, a, b => if a = b then 1 else 0
  | .numNotEqual, a, b => if a ≠ b then 1 else 0
  | .lessThan, a, b => if a < b then 1 else 0
  | .greaterThan, a, b => if b < a then 1 else 0
  | .lessThanOrEqual, a, b => if a ≤ b then 1 else 0
  | .greaterThanOrEqual, a, b => if b ≤ a then 1 else 0
  | .min, a, b => if a < b then a else b
  | .max, a, b => if b < a then a else b

/-! ## The interpreter -/

/-- What a script asks: whether a signature fits a key and a script, and the hash functions. -/
structure ScriptEnv where
  checkSig : Valtype → Valtype → CScript → Bool
  ripemd160 : Valtype → Valtype
  sha1 : Valtype → Valtype
  sha256 : Valtype → Valtype

/-- The hash an operation computes. -/
def HashOp.apply (env : ScriptEnv) : HashOp → Valtype → Valtype
  | .ripemd160, vch => env.ripemd160 vch
  | .sha1, vch => env.sha1 vch
  | .sha256, vch => env.sha256 vch
  | .hash160, vch => env.ripemd160 (env.sha256 vch)
  | .hash256, vch => env.sha256 (env.sha256 vch)

/-- The state of `EvalScript`; `codehash` is the script from `pbegincodehash` on. -/
structure EvalState where
  stack : List Valtype
  altstack : List Valtype := []
  vfExec : List Bool := []
  nOpCount : ℕ := 0
  codehash : CScript
  deriving DecidableEq, Repr

/-- The number of calls of `CheckSig`, and the outcome. -/
abbrev Counted (α : Type) := ℕ × Except ScriptError α

/-- The branch the script is in is executed. -/
def EvalState.fExec (st : EvalState) : Bool := st.vfExec.all id

/-- `CScript << vch`: the bytes that push `vch`. -/
def CScript.pushData (vch : Valtype) : CScript :=
  if vch.length < 0x4c then UInt8.ofNat vch.length :: vch
  else if vch.length ≤ 0xff then 0x4c :: UInt8.ofNat vch.length :: vch
  else if vch.length ≤ 0xffff then
    0x4d :: UInt8.ofNat vch.length :: UInt8.ofNat (vch.length / 256) :: vch
  else
    0x4e :: UInt8.ofNat vch.length :: UInt8.ofNat (vch.length / 256) ::
      UInt8.ofNat (vch.length / 65536) :: UInt8.ofNat (vch.length / 16777216) :: vch

/-- The loop of `FindAndDelete`: at every opcode the pattern is removed as often as it occurs. -/
def CScript.findAndDeleteLoop (b : CScript) : ℕ → CScript → CScript
  | 0, pc => pc
  | n + 1, pc =>
      if b.isPrefixOf pc then findAndDeleteLoop b n (pc.drop b.length)
      else
        match pc.getOp with
        | none => pc
        | some (_, _, rest) => pc.take (pc.length - rest.length) ++ findAndDeleteLoop b n rest

/-- `CScript::FindAndDelete`. -/
def CScript.findAndDelete (script b : CScript) : CScript :=
  if b = [] then script else findAndDeleteLoop b (script.length + 1) script

section Interpreter

variable (env : ScriptEnv) (flags : VerifyFlags)

/-- `CScriptNum(stacktop(i), fRequireMinimal)`. -/
def readNum (vch : Valtype) : Except ScriptError ℤ :=
  match CScriptNum.read flags.minimalData vch with
  | some n => .ok n
  | none => .error .unknownError

/-- `OP_PICK` and `OP_ROLL`. -/
def execPick (roll : Bool) : List Valtype → Except ScriptError (List Valtype)
  | vch :: vch' :: below => do
      let stack := vch' :: below
      let n ← readNum flags vch
      if n < 0 then .error .invalidStackOperation
      else
        match stack[n.toNat]? with
        | none => .error .invalidStackOperation
        | some x => .ok (x :: if roll then stack.eraseIdx n.toNat else stack)
  | _ => .error .invalidStackOperation

/-- The operations on numbers. -/
def execUnary (op : UnaryOp) : List Valtype → Except ScriptError (List Valtype)
  | vch :: stack => do
      let bn ← readNum flags vch
      .ok (CScriptNum.serialize (op.apply bn) :: stack)
  | _ => .error .invalidStackOperation

@[inherit_doc execUnary]
def execBinary (op : BinaryOp) : List Valtype → Except ScriptError (List Valtype)
  | vch2 :: vch1 :: stack => do
      let bn1 ← readNum flags vch1
      let bn2 ← readNum flags vch2
      let result := CScriptNum.serialize (op.apply bn1 bn2)
      if op = .numEqualVerify then
        if castToBool result then .ok stack else .error .numEqualVerify
      else .ok (result :: stack)
  | _ => .error .invalidStackOperation

@[inherit_doc execUnary]
def execWithin : List Valtype → Except ScriptError (List Valtype)
  | vch3 :: vch2 :: vch1 :: stack => do
      let bn1 ← readNum flags vch1
      let bn2 ← readNum flags vch2
      let bn3 ← readNum flags vch3
      .ok (vchBool (decide (bn2 ≤ bn1) && decide (bn1 < bn3)) :: stack)
  | _ => .error .invalidStackOperation

/-- `OP_EQUAL` and `OP_EQUALVERIFY`. -/
def execEqual (verify : Bool) : List Valtype → Except ScriptError (List Valtype)
  | vch2 :: vch1 :: stack =>
      if verify then if vch1 = vch2 then .ok stack else .error .equalVerify
      else .ok (vchBool (decide (vch1 = vch2)) :: stack)
  | _ => .error .invalidStackOperation

/-- The operations that change the stack only. -/
def execStack : Opcode → List Valtype → Except ScriptError (List Valtype)
  | .number n, stack => .ok (CScriptNum.serialize n :: stack)
  | .verify, vch :: stack => if castToBool vch then .ok stack else .error .verify
  | .stack op, stack =>
      match op.exec stack with
      | some stack => .ok stack
      | none => .error .invalidStackOperation
  | .pick roll, stack => execPick flags roll stack
  | .equal verify, stack => execEqual verify stack
  | .unary op, stack => execUnary flags op stack
  | .binary op, stack => execBinary flags op stack
  | .within, stack => execWithin flags stack
  | .hash op, vch :: stack => .ok (op.apply env vch :: stack)
  | .verify, [] => .error .invalidStackOperation
  | .hash _, [] => .error .invalidStackOperation
  | _, _ => .error .badOpcode

/-- The operations without signatures; `pc` is the rest of the script. -/
def execPlain (op : Opcode) (pc : CScript) (st : EvalState) : Except ScriptError EvalState :=
  match op with
  | .nop => .ok st
  | .upgradableNop =>
      if flags.discourageUpgradableNops then .error .discourageUpgradableNops else .ok st
  | .ifThen negated =>
      if st.fExec then
        match st.stack with
        | [] => .error .unbalancedConditional
        | vch :: stack =>
            .ok { st with stack := stack, vfExec := (castToBool vch != negated) :: st.vfExec }
      else .ok { st with vfExec := false :: st.vfExec }
  | .orElse =>
      match st.vfExec with
      | [] => .error .unbalancedConditional
      | b :: vfExec => .ok { st with vfExec := (!b) :: vfExec }
  | .endIf =>
      match st.vfExec with
      | [] => .error .unbalancedConditional
      | _ :: vfExec => .ok { st with vfExec := vfExec }
  | .opReturn => .error .opReturn
  | .toAltStack =>
      match st.stack with
      | [] => .error .invalidStackOperation
      | vch :: stack => .ok { st with stack := stack, altstack := vch :: st.altstack }
  | .fromAltStack =>
      match st.altstack with
      | [] => .error .invalidAltStackOperation
      | vch :: altstack => .ok { st with stack := vch :: st.stack, altstack := altstack }
  | .codeSeparator => .ok { st with codehash := pc }
  | op =>
      match execStack env flags op st.stack with
      | .ok stack => .ok { st with stack := stack }
      | .error e => .error e

/-- `!CheckSignatureEncoding(...) || !CheckPubKeyEncoding(...)`. -/
def checkEncodings (vchSig vchPubKey : Valtype) : Except ScriptError Unit := do
  checkSignatureEncoding flags vchSig
  checkPubKeyEncoding flags vchPubKey

/-- `OP_CHECKSIG` and `OP_CHECKSIGVERIFY`. -/
def execCheckSig (verify : Bool) (st : EvalState) : Counted EvalState :=
  match st.stack with
  | vchPubKey :: vchSig :: stack =>
      match checkEncodings flags vchSig vchPubKey with
      | .error e => (0, .error e)
      | .ok () =>
          -- a signature cannot sign itself
          let scriptCode := st.codehash.findAndDelete (CScript.pushData vchSig)
          let fSuccess := env.checkSig vchSig vchPubKey scriptCode
          (1, if verify then
              if fSuccess then .ok { st with stack := stack } else .error .checkSigVerify
            else .ok { st with stack := vchBool fSuccess :: stack })
  | _ => (0, .error .invalidStackOperation)

/-- The loop over signatures and keys of `OP_CHECKMULTISIG`. -/
def multiSigLoop (scriptCode : CScript) : List Valtype → List Valtype → Counted Bool
  | [], _ => (0, .ok true)
  | _ :: _, [] => (0, .ok false)
  | vchSig :: sigs, vchPubKey :: keys =>
      match checkEncodings flags vchSig vchPubKey with
      | .error e => (0, .error e)
      | .ok () =>
          let left := if env.checkSig vchSig vchPubKey scriptCode then sigs else vchSig :: sigs
          -- more signatures left than keys: too many have failed
          if keys.length < left.length then (1, .ok false)
          else
            let rest := multiSigLoop scriptCode left keys
            (rest.1 + 1, rest.2)

/-- What `OP_CHECKMULTISIG` takes off the stack: the keys, the signatures and what is below. -/
structure MultiSigArgs where
  keys : List Valtype
  sigs : List Valtype
  below : List Valtype

/-- The counts and the arguments of `OP_CHECKMULTISIG`. -/
def multiSigArgs (nOpCount : ℕ) : List Valtype → Except ScriptError MultiSigArgs
  | [] => .error .invalidStackOperation
  | vch :: stack => do
      let nKeysCount ← readNum flags vch
      if nKeysCount < 0 ∨ 20 < nKeysCount then .error .pubkeyCount
      else if 201 < nOpCount + nKeysCount.toNat then .error .opCount
      else
        let keys := stack.take nKeysCount.toNat
        match stack.drop nKeysCount.toNat with
        | [] => .error .invalidStackOperation
        | vch :: stack => do
            let nSigsCount ← readNum flags vch
            if nSigsCount < 0 ∨ nKeysCount < nSigsCount then .error .sigCount
            else if stack.length ≤ nSigsCount.toNat then .error .invalidStackOperation
            else .ok ⟨keys, stack.take nSigsCount.toNat, stack.drop nSigsCount.toNat⟩

/-- The end of `OP_CHECKMULTISIG`: the extra element goes, the result comes. -/
def multiSigResult (verify : Bool) (st : EvalState) (below : List Valtype) (fSuccess : Bool) :
    Except ScriptError EvalState :=
  match below with
  | [] => .error .invalidStackOperation
  | dummy :: stack =>
      if flags.nullDummy && !dummy.isEmpty then .error .sigNullDummy
      else if verify then
        if fSuccess then .ok { st with stack := stack } else .error .checkMultiSigVerify
      else .ok { st with stack := vchBool fSuccess :: stack }

/-- `OP_CHECKMULTISIG` and `OP_CHECKMULTISIGVERIFY`. -/
def execCheckMultiSig (verify : Bool) (st : EvalState) : Counted EvalState :=
  match multiSigArgs flags st.nOpCount st.stack with
  | .error e => (0, .error e)
  | .ok args =>
      let scriptCode := args.sigs.foldl
        (fun code vchSig => code.findAndDelete (CScript.pushData vchSig)) st.codehash
      let checked := multiSigLoop env flags scriptCode args.sigs args.keys
      (checked.1, match checked.2 with
        | .error e => .error e
        | .ok fSuccess =>
            multiSigResult flags verify { st with nOpCount := st.nOpCount + args.keys.length }
              args.below fSuccess)

/-- The instruction, in a branch that is executed or for a conditional. -/
def exec (op : Opcode) (pc : CScript) (st : EvalState) : Counted EvalState :=
  match op with
  | .checkSig verify => execCheckSig env flags verify st
  | .checkMultiSig verify => execCheckMultiSig env flags verify st
  | op => (0, execPlain env flags op pc st)

/-- The limit on the two stacks. -/
def checkStackSize (st : EvalState) : Except ScriptError EvalState :=
  if 1000 < st.stack.length + st.altstack.length then .error .stackSize else .ok st

/-- `++nOpCount` for the opcodes that are not pushes. -/
def EvalState.countOp (opcode : UInt8) (st : EvalState) : EvalState :=
  { st with nOpCount := if 0x60 < opcode then st.nOpCount + 1 else st.nOpCount }

/-- `OP_0` up to `OP_PUSHDATA4` in a branch that is executed. -/
def execPush (opcode : UInt8) (vchPushValue : Valtype) (st : EvalState) :
    Except ScriptError EvalState :=
  if flags.minimalData && !checkMinimalPush vchPushValue opcode then .error .minimalData
  else .ok { st with stack := vchPushValue :: st.stack }

/-- What an opcode does: nothing in a branch that is not executed, but for the conditionals. -/
def execOpcode (opcode : UInt8) (vchPushValue : Valtype) (pc : CScript) (st : EvalState) :
    Counted EvalState :=
  if st.fExec && decide (opcode ≤ 0x4e) then (0, execPush flags opcode vchPushValue st)
  else if st.fExec || isConditional opcode then exec env flags (Opcode.ofByte opcode) pc st
  else (0, .ok st)

/-- A round of the loop of `EvalScript`, for an opcode, the bytes it pushes and the rest. -/
def evalStep (opcode : UInt8) (vchPushValue : Valtype) (pc : CScript) (st : EvalState) :
    Counted EvalState :=
  if 520 < vchPushValue.length then (0, .error .pushSize)
  else if 0x60 < opcode ∧ 200 < st.nOpCount then (0, .error .opCount)
  else if Opcode.ofByte opcode = .disabled then (0, .error .disabledOpcode)
  else
    let executed := execOpcode env flags opcode vchPushValue pc (st.countOp opcode)
    (executed.1, executed.2.bind checkStackSize)

/-- The loop of `EvalScript`; every round reads a byte at least. -/
def evalLoop : ℕ → CScript → EvalState → Counted EvalState
  | 0, _, st => (0, .ok st)
  | _ + 1, [], st => (0, .ok st)
  | n + 1, b :: pc, st =>
      match CScript.getOp (b :: pc) with
      | none => (0, .error .badOpcode)
      | some (opcode, vchPushValue, rest) =>
          let first := evalStep env flags opcode vchPushValue rest st
          match first.2 with
          | .error e => (first.1, .error e)
          | .ok st =>
              let others := evalLoop n rest st
              (first.1 + others.1, others.2)

/-- The end of `EvalScript`: every conditional is closed. -/
def checkBalanced (st : EvalState) : Except ScriptError (List Valtype) :=
  if st.vfExec = [] then .ok st.stack else .error .unbalancedConditional

/-- `EvalScript`. -/
def evalScript (stack : List Valtype) (script : CScript) : Counted (List Valtype) :=
  if 10000 < script.length then (0, .error .scriptSize)
  else
    let r := evalLoop env flags script.length script { stack := stack, codehash := script }
    (r.1, r.2.bind checkBalanced)

end Interpreter

/-- The loop of `IsPushOnly`. -/
def CScript.isPushOnlyLoop : ℕ → CScript → Bool
  | 0, _ => true
  | _ + 1, [] => true
  | n + 1, b :: pc =>
      match CScript.getOp (b :: pc) with
      | none => false
      | some (opcode, _, rest) => if 0x60 < opcode then false else isPushOnlyLoop n rest

/-- `CScript::IsPushOnly`. -/
def CScript.isPushOnly (script : CScript) : Bool := isPushOnlyLoop script.length script

/-- The top of the stack is true. -/
def checkTop (stack : List Valtype) : Except ScriptError Unit :=
  match stack with
  | [] => .error .evalFalse
  | vch :: _ => if castToBool vch then .ok () else .error .evalFalse

/-- The part of `VerifyScript` for a script hash; `stackCopy` is the stack the first script left.
It is not empty, as the script that hashes its top was evaluated on it. -/
def verifyScriptHash (env : ScriptEnv) (flags : VerifyFlags) (scriptSig : CScript)
    (stackCopy : List Valtype) : Counted Unit :=
  if !scriptSig.isPushOnly then (0, .error .sigPushOnly)
  else
    match stackCopy with
    | [] => (0, .error .unknownError)
    | pubKeySerialized :: stackCopy =>
        let r := evalScript env flags stackCopy pubKeySerialized
        (r.1, r.2.bind checkTop)

/-- `VerifyScript`. -/
def verifyScript (env : ScriptEnv) (flags : VerifyFlags) (scriptSig scriptPubKey : CScript) :
    Counted Unit :=
  if flags.sigPushOnly && !scriptSig.isPushOnly then (0, .error .sigPushOnly)
  else
    let r₁ := evalScript env flags [] scriptSig
    match r₁.2 with
    | .error e => (r₁.1, .error e)
    | .ok stack =>
        let r₂ := evalScript env flags stack scriptPubKey
        match r₂.2.bind checkTop with
        | .error e => (r₁.1 + r₂.1, .error e)
        | .ok () =>
            if flags.p2sh && scriptPubKey.isPayToScriptHash then
              let r₃ := verifyScriptHash env flags scriptSig stack
              (r₁.1 + r₂.1 + r₃.1, r₃.2)
            else (r₁.1 + r₂.1, .ok ())

/-! ## Signature operations -/

/-- The signature operations an opcode counts for, after the opcode before it. -/
def sigOps (fAccurate : Bool) (lastOpcode opcode : UInt8) : ℕ :=
  match Opcode.ofByte opcode with
  | .checkSig _ => 1
  | .checkMultiSig _ =>
      if fAccurate && decide (0x51 ≤ lastOpcode) && decide (lastOpcode ≤ 0x60) then
        lastOpcode.toNat - 0x50
      else 20
  | _ => 0

/-- The loop of `GetSigOpCount`. -/
def CScript.sigOpLoop (fAccurate : Bool) : ℕ → UInt8 → CScript → ℕ
  | 0, _, _ => 0
  | _ + 1, _, [] => 0
  | n + 1, lastOpcode, b :: pc =>
      match CScript.getOp (b :: pc) with
      | none => 0
      | some (opcode, _, rest) =>
          sigOps fAccurate lastOpcode opcode + sigOpLoop fAccurate n opcode rest

/-- `CScript::GetSigOpCount(bool)`. -/
def CScript.getSigOpCount (fAccurate : Bool) (script : CScript) : ℕ :=
  sigOpLoop fAccurate script.length 0xff script

/-- The loop of `GetSigOpCount(scriptSig)`: the last item a script pushes; `none` when it does
more than push. -/
def CScript.lastPushLoop : ℕ → Valtype → CScript → Option Valtype
  | 0, data, _ => some data
  | _ + 1, data, [] => some data
  | n + 1, _, b :: pc =>
      match CScript.getOp (b :: pc) with
      | none => none
      | some (opcode, data, rest) => if 0x60 < opcode then none else lastPushLoop n data rest

/-- `CScript::GetSigOpCount(const CScript&)`. -/
def CScript.getSigOpCountP2SH (scriptPubKey scriptSig : CScript) : ℕ :=
  if !scriptPubKey.isPayToScriptHash then scriptPubKey.getSigOpCount true
  else
    match lastPushLoop scriptSig.length [] scriptSig with
    | none => 0
    | some subscript => CScript.getSigOpCount true subscript

end FairCoin
