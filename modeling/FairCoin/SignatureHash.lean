import FairCoin.Production
import FairCoin.WireForm
import FairCoin.ScriptAccess

/-!
# The signature hash

`SignatureHash` of `src/script/interpreter.cpp`, which serializes a transaction with the changes for
the hash type made on the way, and `SignatureHashOld` of `src/test/sighash_tests.cpp`, which makes
them on a copy.

* `CTransactionSignatureSerializer` — the wrapper, with its three flags.
* `serializeScriptCode` — the script without its code separators: a length counted in a first pass,
  then the slices between them.
* `signatureHashOld` — the copy is changed, then serialized.
* `serializeScriptCode_eq` — on a script that parses, the slices are what `FindAndDelete` leaves.
* `signatureSerializer_eq` — **the same bytes, and the same hash**.
-/

namespace FairCoin

open Codec

/-! ## The scripts -/

/-- The script parses completely into opcodes. -/
inductive CScript.Parses : CScript → Prop
  | nil : CScript.Parses []
  | cons {script rest : CScript} {opcode : UInt8} {vch : Valtype}
      (h : script.getOp = some (opcode, vch, rest)) (hrest : CScript.Parses rest) :
      CScript.Parses script

/-- Where `GetOp` leaves its iterator: past the opcode, and past the size when there is one. -/
def CScript.afterOp (it : CScript) : CScript :=
  match it.getOp with
  | some (_, _, rest) => rest
  | none =>
      match it with
      | [] => []
      | opcode :: pc =>
          let nBytes := if opcode = 0x4c then 1 else if opcode = 0x4d then 2
            else if opcode = 0x4e then 4 else 0
          if pc.length < nBytes then pc else pc.drop nBytes

/-- `nCodeSeparators`: the first loop of `SerializeScriptCode`. -/
def codeSeparators : ℕ → CScript → ℕ
  | 0, _ => 0
  | n + 1, it =>
      match it.getOp with
      | none => 0
      | some (opcode, _, rest) => (if opcode = 0xab then 1 else 0) + codeSeparators n rest

/-- The second loop of `SerializeScriptCode`, with `itBegin` and `it`: the slices it writes. -/
def writeSlices : ℕ → CScript → CScript → Bytes
  | 0, _, _ => []
  | n + 1, itBegin, it =>
      match it.getOp with
      | none =>
          if itBegin = [] then [] else itBegin.take (itBegin.length - it.afterOp.length)
      | some (opcode, _, rest) =>
          if opcode = 0xab then
            itBegin.take (itBegin.length - rest.length - 1) ++ writeSlices n rest rest
          else writeSlices n itBegin rest

/-- `SerializeScriptCode`. -/
def serializeScriptCode (scriptCode : CScript) : Bytes :=
  let nCodeSeparators := codeSeparators (scriptCode.length + 1) scriptCode
  putCompactSize (scriptCode.length - nCodeSeparators) ++
    writeSlices (scriptCode.length + 1) scriptCode scriptCode

/-! ## The wrapper -/

/-- `SIGHASH_ALL`. -/
def sighashAll : BitVec 32 := 1

/-- `SIGHASH_NONE`. -/
def sighashNone : BitVec 32 := 2

/-- `SIGHASH_SINGLE`. -/
def sighashSingle : BitVec 32 := 3

/-- `SIGHASH_ANYONECANPAY`. -/
def sighashAnyoneCanPay : BitVec 32 := 0x80

/-- `CTransactionSignatureSerializer`. -/
structure CTransactionSignatureSerializer where
  txTo : CTransaction
  scriptCode : CScript
  nIn : ℕ
  fAnyoneCanPay : Bool
  fHashSingle : Bool
  fHashNone : Bool

namespace CTransactionSignatureSerializer

/-- The constructor. -/
def ofHashType (txTo : CTransaction) (scriptCode : CScript) (nIn : ℕ) (nHashType : BitVec 32) :
    CTransactionSignatureSerializer where
  txTo := txTo
  scriptCode := scriptCode
  nIn := nIn
  fAnyoneCanPay := decide (nHashType &&& sighashAnyoneCanPay ≠ 0)
  fHashSingle := decide (nHashType &&& 0x1f = sighashSingle)
  fHashNone := decide (nHashType &&& 0x1f = sighashNone)

variable (s : CTransactionSignatureSerializer)

/-- `SerializeInput`. -/
def serializeInput (nInput : ℕ) : Bytes :=
  -- only the input that is signed is serialized
  let nInput := if s.fAnyoneCanPay then s.nIn else nInput
  match s.txTo.vin[nInput]? with
  | none => []
  | some txin =>
      outPointFormat.put txin.prevout ++
        ((if nInput ≠ s.nIn then bytesFormat.put [] else serializeScriptCode s.scriptCode) ++
          if nInput ≠ s.nIn ∧ (s.fHashSingle || s.fHashNone) then int32.put 0
          else (uint 4).put txin.nSequence)

/-- `SerializeOutput`. -/
def serializeOutput (nOutput : ℕ) : Bytes :=
  if s.fHashSingle ∧ nOutput ≠ s.nIn then txOutFormat.put CTxOut.null
  else
    match s.txTo.vout[nOutput]? with
    | none => []
    | some txout => txOutFormat.put txout

/-- `Serialize`. -/
def serialize : Bytes :=
  let nInputs := if s.fAnyoneCanPay then 1 else s.txTo.vin.length
  let nOutputs :=
    if s.fHashNone then 0 else if s.fHashSingle then s.nIn + 1 else s.txTo.vout.length
  int32.put s.txTo.nVersion ++
    ((putCompactSize nInputs ++ (List.range nInputs).flatMap s.serializeInput) ++
      ((putCompactSize nOutputs ++ (List.range nOutputs).flatMap s.serializeOutput) ++
        (uint 4).put s.txTo.nLockTime))

end CTransactionSignatureSerializer

section Hashes

variable (L : Layout) (hashBytes : Bytes → UInt256)

/-- `SignatureHash`. -/
def signatureHash (scriptCode : CScript) (txTo : CTransaction) (nIn : ℕ) (nHashType : BitVec 32) :
    UInt256 :=
  if txTo.vin.length ≤ nIn then 1
  else if nHashType &&& 0x1f = sighashSingle ∧ txTo.vout.length ≤ nIn then 1
  else
    let txTmp := CTransactionSignatureSerializer.ofHashType txTo scriptCode nIn nHashType
    hashBytes (txTmp.serialize ++ (uint 4).put nHashType.toNat)

/-! ## The old algorithm -/

/-- The scripts of the inputs are blanked, but for the one that is signed. -/
def blankScripts (scriptCode : CScript) (nIn : ℕ) (vin : List CTxIn) : List CTxIn :=
  (vin.map fun txin => { txin with scriptSig := [] }).modify nIn fun txin =>
    { txin with scriptSig := scriptCode }

/-- Let the others update at will. -/
def blankSequences (nIn : ℕ) (vin : List CTxIn) : List CTxIn :=
  vin.mapIdx fun i txin => if i ≠ nIn then { txin with nSequence := 0 } else txin

/-- `txTmp.vout.resize(nOut+1)`, and the outputs before it are null. -/
def blankOutputs (nOut : ℕ) (vout : List CTxOut) : List CTxOut :=
  (vout.take (nOut + 1)).mapIdx fun i txout => if i < nOut then CTxOut.null else txout

/-- `txTmp.vin[0] = txTmp.vin[nIn]; txTmp.vin.resize(1)`. -/
def cutInputs (nIn : ℕ) (vin : List CTxIn) : List CTxIn :=
  match vin[nIn]? with
  | none => vin
  | some txin => (vin.set 0 txin).take 1

/-- The copy `SignatureHashOld` makes; `none` when it returns 1. -/
def modifiedCopy (scriptCode : CScript) (txTo : CTransaction) (nIn : ℕ) (nHashType : BitVec 32) :
    Option CMutableTransaction :=
  if txTo.vin.length ≤ nIn then none
  else
    let scriptCode := scriptCode.findAndDelete [0xab]
    let txTmp : CMutableTransaction :=
      { nVersion := txTo.nVersion
        vin := blankScripts scriptCode nIn txTo.vin
        vout := txTo.vout
        nLockTime := txTo.nLockTime }
    let blanked : Option CMutableTransaction :=
      if nHashType &&& 0x1f = sighashNone then
        some { txTmp with vout := [], vin := blankSequences nIn txTmp.vin }
      else if nHashType &&& 0x1f = sighashSingle then
        if txTmp.vout.length ≤ nIn then none
        else some { txTmp with
          vout := blankOutputs nIn txTmp.vout
          vin := blankSequences nIn txTmp.vin }
      else some txTmp
    blanked.map fun txTmp =>
      if nHashType &&& sighashAnyoneCanPay ≠ 0 then { txTmp with vin := cutInputs nIn txTmp.vin }
      else txTmp

/-- `CMutableTransaction::SerializationOp`. -/
def CMutableTransaction.serialize (tx : CMutableTransaction) : Bytes :=
  (txFields L).put (tx.nVersion, tx.vin, tx.vout, tx.nLockTime)

/-- `SignatureHashOld`. -/
def signatureHashOld (scriptCode : CScript) (txTo : CTransaction) (nIn : ℕ)
    (nHashType : BitVec 32) : UInt256 :=
  match modifiedCopy scriptCode txTo nIn nHashType with
  | none => 1
  | some txTmp => hashBytes (txTmp.serialize L ++ (uint 4).put nHashType.toNat)

end Hashes

/-! ## The script without its code separators -/

/-- What `GetOp` reads starts with the opcode; only opcodes up to `OP_PUSHDATA4` have operands. -/
theorem getOp_eq_append {it rest : CScript} {opcode : UInt8} {vch : Valtype}
    (h : it.getOp = some (opcode, vch, rest)) :
    ∃ l, it = opcode :: (l ++ rest) ∧ (0x4e < opcode → l = []) := by
  have push : ∀ (b : UInt8) (nSize : ℕ) (l : CScript), (if l.length < nSize then none
      else some (b, l.take nSize, l.drop nSize)) = some (opcode, vch, rest) →
      b = opcode ∧ l = l.take nSize ++ rest := by
    intro b nSize l hl
    split at hl
    · cases hl
    · cases hl
      exact ⟨rfl, (List.take_append_drop _ _).symm⟩
  rcases it with _ | ⟨b, pc⟩
  · cases h
  simp only [CScript.getOp] at h
  split at h
  · next hlt =>
    obtain ⟨rfl, hpc⟩ := push b _ pc h
    exact ⟨_, congrArg _ hpc, fun hgt => absurd (UInt8.lt_trans hgt hlt) (by decide)⟩
  split at h
  · next hb =>
    split at h
    · next a pc =>
      obtain ⟨rfl, hpc⟩ := push b _ pc h
      exact ⟨a :: _, by rw [List.cons_append, ← hpc], fun hgt => absurd hgt (by rw [hb]; decide)⟩
    · cases h
  split at h
  · next hb =>
    split at h
    · next a₁ a₂ pc =>
      obtain ⟨rfl, hpc⟩ := push b _ pc h
      exact ⟨a₁ :: a₂ :: _, by rw [List.cons_append, List.cons_append, ← hpc],
        fun hgt => absurd hgt (by rw [hb]; decide)⟩
    · cases h
  split at h
  · next hb =>
    split at h
    · next a₁ a₂ a₃ a₄ pc =>
      obtain ⟨rfl, hpc⟩ := push b _ pc h
      exact ⟨a₁ :: a₂ :: a₃ :: a₄ :: _, by
        rw [List.cons_append, List.cons_append, List.cons_append, List.cons_append, ← hpc],
        fun hgt => absurd hgt (by rw [hb]; decide)⟩
    · cases h
  · cases h
    exact ⟨[], rfl, fun _ => rfl⟩

/-- `FindAndDelete` of a code separator at an opcode: the opcode goes, or it stays. -/
theorem deleteSeparator_cons {it rest : CScript} {opcode : UInt8} {vch : Valtype}
    (h : it.getOp = some (opcode, vch, rest)) (k : ℕ) :
    CScript.findAndDeleteLoop [0xab] (k + 1) it =
      if opcode = 0xab then CScript.findAndDeleteLoop [0xab] k rest
      else it.take (it.length - rest.length) ++ CScript.findAndDeleteLoop [0xab] k rest := by
  obtain ⟨l, rfl, hl⟩ := getOp_eq_append h
  have hsame : List.isPrefixOf [0xab] (opcode :: (l ++ rest)) = true ↔ opcode = 0xab := by
    rw [List.isPrefixOf_iff_prefix, List.cons_prefix_cons]
    exact ⟨fun h => h.1.symm, fun h => ⟨h.symm, List.nil_prefix⟩⟩
  rw [CScript.findAndDeleteLoop, h]
  by_cases hop : opcode = 0xab
  · rw [if_pos (hsame.2 hop), if_pos hop, hl (by rw [hop]; decide)]
    rfl
  · rw [if_neg (fun h => hop (hsame.1 h)), if_neg hop]

/-- The slices are what `FindAndDelete` leaves; `used` was read since the last separator. -/
theorem writeSlices_eq {it : CScript} (h : it.Parses) : ∀ (n k : ℕ) (used : CScript),
    it.length < n → it.length < k →
    writeSlices n (used ++ it) it = used ++ CScript.findAndDeleteLoop [0xab] k it := by
  induction h with
  | nil =>
    intro n k used hn hk
    obtain ⟨n, rfl⟩ : ∃ n', n = n' + 1 := ⟨n - 1, by omega⟩
    obtain ⟨k, rfl⟩ : ∃ k', k = k' + 1 := ⟨k - 1, by omega⟩
    rw [List.append_nil, writeSlices]
    show (if used = [] then [] else used.take used.length) = used ++ []
    split
    · next hused => rw [hused, List.append_nil]
    · rw [List.take_length, List.append_nil]
  | @cons script rest opcode vch h hrest ih =>
    intro n k used hn hk
    have hlt := getOp_length_lt h
    obtain ⟨n, rfl⟩ : ∃ n', n = n' + 1 := ⟨n - 1, by omega⟩
    obtain ⟨k, rfl⟩ : ∃ k', k = k' + 1 := ⟨k - 1, by omega⟩
    rw [deleteSeparator_cons h, writeSlices, h]
    dsimp only
    obtain ⟨l, hscript, hl⟩ := getOp_eq_append h
    split
    · next hop =>
      have hone : script = 0xab :: rest := by
        rw [hscript, hl (by rw [hop]; decide), hop]
        rfl
      have hslice : (used ++ script).length - rest.length - 1 = used.length := by
        rw [hone, List.length_append, List.length_cons]
        omega
      have hfresh := ih n k [] (by omega) (by omega)
      rw [List.nil_append, List.nil_append] at hfresh
      rw [hslice, List.take_left, hfresh]
    · have hsplit : script = script.take (script.length - rest.length) ++ rest := by
        have hlen : (opcode :: (l ++ rest)).length - rest.length = (opcode :: l).length := by
          simp only [List.length_cons, List.length_append]
          omega
        rw [hscript, hlen, ← List.cons_append, List.take_left]
      have hused : used ++ script =
          (used ++ script.take (script.length - rest.length)) ++ rest := by
        rw [List.append_assoc, ← hsplit]
      rw [hused, ih n k _ (by omega) (by omega), List.append_assoc]

/-- The separators that are counted are those that are missing. -/
theorem codeSeparators_add {it : CScript} (h : it.Parses) : ∀ n k : ℕ, it.length < n →
    it.length < k →
    codeSeparators n it + (CScript.findAndDeleteLoop [0xab] k it).length = it.length := by
  induction h with
  | nil =>
    intro n k hn hk
    obtain ⟨n, rfl⟩ : ∃ n', n = n' + 1 := ⟨n - 1, by omega⟩
    obtain ⟨k, rfl⟩ : ∃ k', k = k' + 1 := ⟨k - 1, by omega⟩
    rfl
  | @cons script rest opcode vch h hrest ih =>
    intro n k hn hk
    have hlt := getOp_length_lt h
    obtain ⟨n, rfl⟩ : ∃ n', n = n' + 1 := ⟨n - 1, by omega⟩
    obtain ⟨k, rfl⟩ : ∃ k', k = k' + 1 := ⟨k - 1, by omega⟩
    have hsum := ih n k (by omega) (by omega)
    rw [deleteSeparator_cons h, codeSeparators, h]
    dsimp only
    obtain ⟨l, hscript, hl⟩ := getOp_eq_append h
    split
    · next hop =>
      have hone : script.length = rest.length + 1 := by
        rw [hscript, hl (by rw [hop]; decide)]
        rfl
      omega
    · rw [List.length_append, List.length_take]
      omega

/-- **On a script that parses, the slices are the script without its code separators.** -/
theorem serializeScriptCode_eq {scriptCode : CScript} (h : scriptCode.Parses) :
    serializeScriptCode scriptCode = bytesFormat.put (scriptCode.findAndDelete [0xab]) := by
  have hslices := writeSlices_eq h (scriptCode.length + 1) (scriptCode.length + 1) []
    (Nat.lt_succ_self _) (Nat.lt_succ_self _)
  have hcount := codeSeparators_add h (scriptCode.length + 1) (scriptCode.length + 1)
    (Nat.lt_succ_self _) (Nat.lt_succ_self _)
  have hput : ∀ l : List UInt8, bytesFormat.put l = putCompactSize l.length ++ l := by
    intro l
    show putCompactSize l.length ++ l.flatMap (fun b => [b]) = _
    rw [List.flatMap_singleton']
  have hdelete : scriptCode.findAndDelete [0xab] =
      CScript.findAndDeleteLoop [0xab] (scriptCode.length + 1) scriptCode := if_neg (by simp)
  have hsize : scriptCode.length - codeSeparators (scriptCode.length + 1) scriptCode =
      (CScript.findAndDeleteLoop [0xab] (scriptCode.length + 1) scriptCode).length := by omega
  rw [hput, hdelete, serializeScriptCode, hsize]
  exact congrArg _ hslices

/-! ## The inputs and the outputs -/

/-- Writing by position what another list has there. -/
theorem flatMap_range_eq {α : Type} {l : List α} {n : ℕ} {f : ℕ → Bytes} {g : α → Bytes}
    (hlen : l.length = n) (hget : ∀ (i : ℕ) (hi : i < l.length), f i = g l[i]) :
    (List.range n).flatMap f = l.flatMap g := by
  have hmap : (List.range n).map f = l.map g := by
    refine List.ext_getElem (by simp [hlen]) fun i hi₁ hi₂ => ?_
    rw [List.length_map] at hi₂
    simpa using hget i hi₂
  rw [List.flatMap_def, List.flatMap_def, hmap]

theorem length_blankScripts (scriptCode : CScript) (nIn : ℕ) (vin : List CTxIn) :
    (blankScripts scriptCode nIn vin).length = vin.length := by
  rw [blankScripts, List.length_modify, List.length_map]

theorem length_blankSequences (nIn : ℕ) (vin : List CTxIn) :
    (blankSequences nIn vin).length = vin.length := by
  rw [blankSequences, List.length_mapIdx]

theorem take_one_set {α : Type} {l : List α} (h : 0 < l.length) (a : α) :
    (l.set 0 a).take 1 = [a] := by
  cases l with
  | nil => exact absurd h (Nat.not_lt_zero _)
  | cons b l => rfl

namespace CTransactionSignatureSerializer

variable (s : CTransactionSignatureSerializer)

/-- The inputs of the copy before they are cut. -/
def copiedInputs : List CTxIn :=
  let vin := blankScripts (s.scriptCode.findAndDelete [0xab]) s.nIn s.txTo.vin
  if s.fHashSingle || s.fHashNone then blankSequences s.nIn vin else vin

/-- The outputs of the copy. -/
def copiedOutputs : List CTxOut :=
  if s.fHashNone then [] else if s.fHashSingle then blankOutputs s.nIn s.txTo.vout else s.txTo.vout

variable {s}

theorem length_copiedInputs : s.copiedInputs.length = s.txTo.vin.length := by
  rw [copiedInputs]
  split
  · rw [length_blankSequences, length_blankScripts]
  · rw [length_blankScripts]

theorem getElem_copiedInputs {i : ℕ} (h : i < s.copiedInputs.length)
    (hi : i < s.txTo.vin.length) : s.copiedInputs[i] =
      { prevout := s.txTo.vin[i].prevout
        scriptSig := if i ≠ s.nIn then [] else s.scriptCode.findAndDelete [0xab]
        nSequence :=
          if i ≠ s.nIn ∧ (s.fHashSingle || s.fHashNone) then 0 else s.txTo.vin[i].nSequence } := by
  have hscripts : ∀ h : i < (blankScripts (s.scriptCode.findAndDelete [0xab]) s.nIn
      s.txTo.vin).length, (blankScripts (s.scriptCode.findAndDelete [0xab]) s.nIn s.txTo.vin)[i] =
      { s.txTo.vin[i] with
        scriptSig := if i ≠ s.nIn then [] else s.scriptCode.findAndDelete [0xab] } := by
    intro h
    simp only [blankScripts, List.getElem_modify, List.getElem_map]
    by_cases hnIn : s.nIn = i
    · rw [if_pos hnIn, if_neg (not_not.2 hnIn.symm)]
    · rw [if_neg hnIn, if_pos (Ne.symm hnIn)]
  cases hblank : (s.fHashSingle || s.fHashNone) with
  | false =>
    simp only [copiedInputs, hblank, Bool.false_eq_true, if_false, and_false]
    exact hscripts _
  | true =>
    simp only [copiedInputs, hblank, if_true, and_true, blankSequences, List.getElem_mapIdx]
    rw [hscripts]
    split <;> rfl

/-- An input is written as the copy has it. -/
theorem serializeInput_eq (hparse : s.scriptCode.Parses) {nInput i : ℕ}
    (h : i < s.copiedInputs.length) (hi : i = if s.fAnyoneCanPay then s.nIn else nInput) :
    s.serializeInput nInput = wireTxInFormat.put s.copiedInputs[i] := by
  have hlt : i < s.txTo.vin.length := by rwa [length_copiedInputs] at h
  rw [getElem_copiedInputs h hlt]
  unfold serializeInput
  rw [← hi]
  dsimp only
  rw [List.getElem?_eq_getElem hlt]
  have hzero : int32.put 0 = (uint 4).put 0 := rfl
  show _ = outPointFormat.put s.txTo.vin[i].prevout ++ (bytesFormat.put
    (if i ≠ s.nIn then [] else s.scriptCode.findAndDelete [0xab]) ++ (uint 4).put
    (if i ≠ s.nIn ∧ (s.fHashSingle || s.fHashNone) then 0 else s.txTo.vin[i].nSequence))
  dsimp only
  rw [serializeScriptCode_eq hparse, hzero, apply_ite bytesFormat.put, apply_ite (uint 4).put]

/-- An output is written as the copy has it. -/
theorem serializeOutput_eq {nOutput : ℕ} (h : nOutput < s.copiedOutputs.length) :
    s.serializeOutput nOutput = txOutFormat.put s.copiedOutputs[nOutput] := by
  unfold serializeOutput
  cases hnone : s.fHashNone with
  | true =>
    simp only [copiedOutputs, hnone, if_true, List.length_nil] at h
    exact absurd h (Nat.not_lt_zero _)
  | false =>
    cases hsingle : s.fHashSingle with
    | false =>
      simp only [copiedOutputs, hnone, hsingle, Bool.false_eq_true, if_false, false_and] at h ⊢
      rw [List.getElem?_eq_getElem h]
    | true =>
      simp only [copiedOutputs, hnone, hsingle, Bool.false_eq_true, if_false, if_true, blankOutputs,
        List.length_mapIdx, List.length_take] at h
      have hlt : nOutput < s.txTo.vout.length := by omega
      simp only [copiedOutputs, hnone, hsingle, Bool.false_eq_true, if_false, if_true, blankOutputs,
        List.getElem_mapIdx, List.getElem_take, true_and]
      by_cases hself : nOutput = s.nIn
      · rw [if_neg (not_not.2 hself), if_neg (by omega), List.getElem?_eq_getElem hlt]
      · rw [if_pos hself, if_pos (by omega)]

variable (s)

/-- The copy, once the input and the output it needs are there. -/
def copy : CMutableTransaction where
  nVersion := s.txTo.nVersion
  vin := if s.fAnyoneCanPay then cutInputs s.nIn s.copiedInputs else s.copiedInputs
  vout := s.copiedOutputs
  nLockTime := s.txTo.nLockTime

variable {s}

theorem serializeInputs_eq (hparse : s.scriptCode.Parses) (hnIn : s.nIn < s.txTo.vin.length) :
    putCompactSize (if s.fAnyoneCanPay then 1 else s.txTo.vin.length) ++
        (List.range (if s.fAnyoneCanPay then 1 else s.txTo.vin.length)).flatMap s.serializeInput =
      putCompactSize s.copy.vin.length ++ s.copy.vin.flatMap wireTxInFormat.put := by
  have hlen := length_copiedInputs (s := s)
  cases hany : s.fAnyoneCanPay with
  | false =>
    have hvin : s.copy.vin = s.copiedInputs := by simp [copy, hany]
    rw [hvin, hlen, if_neg Bool.false_ne_true]
    refine congrArg _ (flatMap_range_eq hlen fun i hi => ?_)
    apply serializeInput_eq hparse hi
    rw [hany, if_neg Bool.false_ne_true]
  | true =>
    have hlt : s.nIn < s.copiedInputs.length := by rwa [hlen]
    have hvin : s.copy.vin = [s.copiedInputs[s.nIn]] := by
      simp only [copy, hany, if_true, cutInputs, List.getElem?_eq_getElem hlt]
      exact take_one_set (by omega) _
    rw [hvin, if_pos rfl]
    refine congrArg _ (flatMap_range_eq rfl fun i hi => ?_)
    obtain rfl : i = 0 := by simpa using hi
    apply serializeInput_eq hparse hlt
    rw [hany, if_pos rfl]

theorem serializeOutputs_eq (hnOut : s.fHashSingle → s.nIn < s.txTo.vout.length) :
    putCompactSize (if s.fHashNone then 0 else if s.fHashSingle then s.nIn + 1
        else s.txTo.vout.length) ++
        (List.range (if s.fHashNone then 0 else if s.fHashSingle then s.nIn + 1
          else s.txTo.vout.length)).flatMap s.serializeOutput =
      putCompactSize s.copy.vout.length ++ s.copy.vout.flatMap txOutFormat.put := by
  have hlen : s.copy.vout.length =
      if s.fHashNone then 0 else if s.fHashSingle then s.nIn + 1 else s.txTo.vout.length := by
    show s.copiedOutputs.length = _
    rw [copiedOutputs]
    split
    · rfl
    split
    · next hsingle =>
      rw [blankOutputs, List.length_mapIdx, List.length_take]
      have := hnOut hsingle
      omega
    · rfl
  rw [← hlen]
  refine congrArg _ (flatMap_range_eq rfl fun i hi => ?_)
  exact serializeOutput_eq hi

/-- **The bytes are those of the copy.** -/
theorem serialize_eq (L : Layout) (hparse : s.scriptCode.Parses)
    (hnIn : s.nIn < s.txTo.vin.length) (hnOut : s.fHashSingle → s.nIn < s.txTo.vout.length) :
    s.serialize = s.copy.serialize L := by
  unfold serialize
  dsimp only
  rw [serializeInputs_eq hparse hnIn, serializeOutputs_eq hnOut]
  rfl

end CTransactionSignatureSerializer

open CTransactionSignatureSerializer in
/-- The old algorithm returns 1, or makes this copy. -/
theorem modifiedCopy_eq (scriptCode : CScript) (txTo : CTransaction) (nIn : ℕ)
    (nHashType : BitVec 32) : modifiedCopy scriptCode txTo nIn nHashType =
      if txTo.vin.length ≤ nIn ∨
          (nHashType &&& 0x1f = sighashSingle ∧ txTo.vout.length ≤ nIn) then none
      else some (ofHashType txTo scriptCode nIn nHashType).copy := by
  have hcut : ∀ txTmp : CMutableTransaction, (if nHashType &&& sighashAnyoneCanPay ≠ 0 then
      { txTmp with vin := cutInputs nIn txTmp.vin } else txTmp) =
      { txTmp with
        vin := if (ofHashType txTo scriptCode nIn nHashType).fAnyoneCanPay then
          cutInputs nIn txTmp.vin else txTmp.vin } := by
    intro txTmp
    have hflag : (ofHashType txTo scriptCode nIn nHashType).fAnyoneCanPay =
        decide (nHashType &&& sighashAnyoneCanPay ≠ 0) := rfl
    rw [hflag]
    by_cases hany : nHashType &&& sighashAnyoneCanPay ≠ 0
    · rw [if_pos hany, if_pos (decide_eq_true hany)]
    · rw [if_neg hany, if_neg (by rwa [decide_eq_true_eq])]
  unfold modifiedCopy
  by_cases hnIn : txTo.vin.length ≤ nIn
  · rw [if_pos hnIn, if_pos (.inl hnIn)]
  rw [if_neg hnIn]
  simp only [hcut]
  by_cases hnone : nHashType &&& 0x1f = sighashNone
  · have hsingle : ¬ nHashType &&& 0x1f = sighashSingle := by rw [hnone]; decide
    rw [if_pos hnone, if_neg (fun h => h.elim hnIn fun h => hsingle h.1)]
    simp only [copy, copiedInputs, copiedOutputs, ofHashType, hnone, decide_true, Bool.or_true,
      if_true, Option.map_some]
  by_cases hsingle : nHashType &&& 0x1f = sighashSingle
  · rw [if_neg hnone, if_pos hsingle]
    by_cases hnOut : txTo.vout.length ≤ nIn
    · rw [if_pos hnOut, if_pos (.inr ⟨hsingle, hnOut⟩)]
      rfl
    · rw [if_neg hnOut, if_neg (fun h => h.elim hnIn fun h => hnOut h.2)]
      have hne : ¬ sighashSingle = sighashNone := by decide
      simp only [copy, copiedInputs, copiedOutputs, ofHashType, hsingle, hne, decide_true,
        decide_false, Bool.true_or, Bool.false_eq_true, if_true, if_false, Option.map_some]
  · rw [if_neg hnone, if_neg hsingle, if_neg (fun h => h.elim hnIn fun h => hsingle h.1)]
    simp only [copy, copiedInputs, copiedOutputs, ofHashType, hsingle, hnone, decide_false,
      Bool.or_false, Bool.false_eq_true, if_false, Option.map_some]

/-- **The serializer in place and the copy agree.**  For every transaction, input, hash type and
script that parses, the wrapper writes the bytes of the copy whenever the old algorithm makes one,
and the two hashes are equal, whatever the hash function; both are 1 without a copy. -/
theorem signatureSerializer_eq (L : Layout) (scriptCode : CScript) (hparse : scriptCode.Parses)
    (txTo : CTransaction) (nIn : ℕ) (nHashType : BitVec 32) :
    (∀ txTmp, modifiedCopy scriptCode txTo nIn nHashType = some txTmp →
      (CTransactionSignatureSerializer.ofHashType txTo scriptCode nIn nHashType).serialize =
        txTmp.serialize L) ∧
    ∀ hashBytes : Bytes → UInt256, signatureHash hashBytes scriptCode txTo nIn nHashType =
      signatureHashOld L hashBytes scriptCode txTo nIn nHashType := by
  have hbytes : ∀ txTmp, modifiedCopy scriptCode txTo nIn nHashType = some txTmp →
      (CTransactionSignatureSerializer.ofHashType txTo scriptCode nIn nHashType).serialize =
        txTmp.serialize L := by
    intro txTmp h
    rw [modifiedCopy_eq] at h
    split at h
    · cases h
    · next hrange =>
      cases h
      rw [not_or, not_le] at hrange
      apply CTransactionSignatureSerializer.serialize_eq L hparse hrange.1
      intro hsingle
      by_contra hnOut
      exact hrange.2 ⟨of_decide_eq_true hsingle, not_lt.1 hnOut⟩
  refine ⟨hbytes, fun hashBytes => ?_⟩
  unfold signatureHash signatureHashOld
  by_cases hnIn : txTo.vin.length ≤ nIn
  · rw [if_pos hnIn, modifiedCopy_eq, if_pos (.inl hnIn)]
  rw [if_neg hnIn]
  by_cases hnOut : nHashType &&& 0x1f = sighashSingle ∧ txTo.vout.length ≤ nIn
  · rw [if_pos hnOut, modifiedCopy_eq, if_pos (.inr hnOut)]
  rw [if_neg hnOut]
  have hcopy := modifiedCopy_eq scriptCode txTo nIn nHashType
  rw [if_neg (fun h => h.elim hnIn hnOut)] at hcopy
  rw [hcopy]
  dsimp only
  rw [hbytes _ hcopy]

/-- Three inputs and two outputs, and a script with a separator at its end. -/
def sampleTransaction : CTransaction where
  hash := 0
  vin := [⟨⟨0, 0⟩, [0x51], 7⟩, ⟨⟨0, 1⟩, [0x52], 8⟩, ⟨⟨0, 2⟩, [], 9⟩]
  vout := [⟨5, [0x51], 0⟩, ⟨6, [0x52], 0⟩]

/-- `SIGHASH_SINGLE` for the second input: the first output is null, and the separators are gone. -/
theorem signatureSerializer_eq_single :
    CScript.Parses [0x51, 0xab, 0x01, 0xab, 0xab] ∧
    (CTransactionSignatureSerializer.ofHashType sampleTransaction [0x51, 0xab, 0x01, 0xab, 0xab] 1
      sighashSingle).serialize = (CTransactionSignatureSerializer.ofHashType sampleTransaction
        [0x51, 0xab, 0x01, 0xab, 0xab] 1 sighashSingle).copy.serialize Layout.lp64 := by
  have hparse : CScript.Parses [0x51, 0xab, 0x01, 0xab, 0xab] :=
    .cons rfl (.cons rfl (.cons rfl (.cons rfl .nil)))
  refine ⟨hparse, (signatureSerializer_eq Layout.lp64 _ hparse sampleTransaction 1
    sighashSingle).1 _ ?_⟩
  decide

end FairCoin
