import FairCoin.SignatureHash

/-!
# The standard scripts

`Solver` of `src/script/standard.cpp`: a script is compared with three templates, opcode by opcode;
the opcodes `OP_PUBKEY`, `OP_PUBKEYS`, `OP_PUBKEYHASH` and `OP_SMALLINTEGER` of a template stand for
what is collected.

* `TxnOutType` — the kinds of scripts.
* `matchTemplate`, `Solver` — the loop over a template, and the shortcuts before it.
* `CScript.Reads` — the opcodes of a script with the bytes they push.
* `Template`, `solver_shape` — **what a script of each kind reads as**.
-/

namespace FairCoin

/-- `txnouttype`. -/
inductive TxnOutType
  | nonstandard
  | pubkey
  | pubkeyhash
  | scripthash
  | multisig
  | nullData
  deriving DecidableEq, Repr

/-! ## The templates -/

/-- `OP_SMALLINTEGER`. -/
def opSmallInteger : UInt8 := 0xfa

/-- `OP_PUBKEYS`. -/
def opPubKeys : UInt8 := 0xfb

/-- `OP_PUBKEYHASH`. -/
def opPubKeyHash : UInt8 := 0xfd

/-- `OP_PUBKEY`. -/
def opPubKey : UInt8 := 0xfe

/-- `OP_INVALIDOPCODE`, what `GetOp` leaves when it fails. -/
def opInvalidOpcode : UInt8 := 0xff

/-- `mTemplates`, in the order of the map. -/
def templates : List (TxnOutType × CScript) :=
  [(.pubkey, [opPubKey, 0xac]),
   (.pubkeyhash, [0x76, 0xa9, opPubKeyHash, 0x88, 0xac]),
   (.multisig, [opSmallInteger, opPubKeys, opSmallInteger, 0xae])]

/-- `DecodeOP_N`. -/
def decodeOpN (opcode : UInt8) : UInt8 := if opcode = 0 then 0 else opcode - 0x50

/-- The loop that collects public keys; a failure of `GetOp` ends it. -/
def takePubKeys : ℕ → UInt8 → Valtype → CScript → List Valtype →
    UInt8 × Valtype × CScript × List Valtype
  | 0, opcode1, vch1, pc1, vSolutions => (opcode1, vch1, pc1, vSolutions)
  | n + 1, opcode1, vch1, pc1, vSolutions =>
      if 33 ≤ vch1.length ∧ vch1.length ≤ 65 then
        match pc1.getOp with
        | none => (opInvalidOpcode, [], pc1.afterOp, vSolutions ++ [vch1])
        | some (opcode, vch, rest) => takePubKeys n opcode vch rest (vSolutions ++ [vch1])
      else (opcode1, vch1, pc1, vSolutions)

/-- An opcode of the script against one of the template. -/
def matchOpcode (opcode1 : UInt8) (vch1 : Valtype) (opcode2 : UInt8) (vch2 : Valtype)
    (vSolutions : List Valtype) : Option (List Valtype) :=
  if opcode2 = opPubKey then
    if vch1.length < 33 ∨ 65 < vch1.length then none else some (vSolutions ++ [vch1])
  else if opcode2 = opPubKeyHash then
    if vch1.length ≠ 20 then none else some (vSolutions ++ [vch1])
  else if opcode2 = opSmallInteger then
    if opcode1 = 0 ∨ (0x51 ≤ opcode1 ∧ opcode1 ≤ 0x60) then
      some (vSolutions ++ [[decodeOpN opcode1]])
    else none
  else if opcode1 ≠ opcode2 ∨ vch1 ≠ vch2 then none
  else some vSolutions

/-- The loop over a template: what it collects when it comes to both ends. -/
def matchTemplate : ℕ → CScript → CScript → List Valtype → Option (List Valtype)
  | 0, _, _, _ => none
  | n + 1, pc1, pc2, vSolutions =>
      if pc1 = [] ∧ pc2 = [] then some vSolutions
      else
        match pc1.getOp, pc2.getOp with
        | some (opcode1, vch1, pc1), some (opcode2, vch2, pc2) =>
            if opcode2 = opPubKeys then
              let r := takePubKeys (pc1.length + 1) opcode1 vch1 pc1 vSolutions
              match pc2.getOp with
              | none => none
              | some (opcode2, vch2, pc2) =>
                  match matchOpcode r.1 r.2.1 opcode2 vch2 r.2.2.2 with
                  | none => none
                  | some vSolutions => matchTemplate n r.2.2.1 pc2 vSolutions
            else
              match matchOpcode opcode1 vch1 opcode2 vch2 vSolutions with
              | none => none
              | some vSolutions => matchTemplate n pc1 pc2 vSolutions
        | _, _ => none

/-- The additional checks for `TX_MULTISIG`. -/
def multisigOk (vSolutions : List Valtype) : Bool :=
  let m := (vSolutions.headD []).headD 0
  let n := (vSolutions.getLastD []).headD 0
  !(decide (m < 1) || decide (n < 1) || decide (n < m) || vSolutions.length - 2 != n.toNat)

/-- The scan of the templates; the first that matches decides. -/
def scanTemplates (script1 : CScript) :
    List (TxnOutType × CScript) → Option (TxnOutType × List Valtype)
  | [] => none
  | (t, script2) :: rest =>
      match matchTemplate (script2.length + 1) script1 script2 [] with
      | none => scanTemplates script1 rest
      | some vSolutions =>
          if t = .multisig ∧ multisigOk vSolutions = false then none else some (t, vSolutions)

/-- `Solver`: the type and the solutions; `none` when it returns false. -/
def solver (scriptPubKey : CScript) : Option (TxnOutType × List Valtype) :=
  if scriptPubKey.isPayToScriptHash then
    some (.scripthash, [(scriptPubKey.drop 2).take 20])
  else if scriptPubKey.head? = some 0x6a ∧
      CScript.isPushOnlyLoop scriptPubKey.length (scriptPubKey.drop 1) then
    some (.nullData, [])
  else scanTemplates scriptPubKey templates

/-! ## What a script reads as -/

/-- `GetOp` reads these opcodes, with the bytes they push, and leaves the rest. -/
inductive CScript.Reads : CScript → List (UInt8 × Valtype) → CScript → Prop
  | refl (s : CScript) : CScript.Reads s [] s
  | cons {s mid rest : CScript} {opcode : UInt8} {vch : Valtype} {ops : List (UInt8 × Valtype)}
      (h : s.getOp = some (opcode, vch, mid)) (hmid : CScript.Reads mid ops rest) :
      CScript.Reads s ((opcode, vch) :: ops) rest

theorem CScript.Reads.append {s mid rest : CScript} {ops ops' : List (UInt8 × Valtype)}
    (h : s.Reads ops mid) (h' : mid.Reads ops' rest) : s.Reads (ops ++ ops') rest := by
  induction h with
  | refl s => exact h'
  | cons h hmid ih => exact .cons h (ih h')

/-- Reading is a function of the script. -/
theorem CScript.Reads.unique {s : CScript} {ops ops' : List (UInt8 × Valtype)}
    (h : s.Reads ops []) (h' : s.Reads ops' []) : ops = ops' := by
  generalize hrest : ([] : CScript) = rest at h
  induction h generalizing ops' with
  | refl s =>
    subst hrest
    cases h' with
    | refl => rfl
    | cons h => cases h
  | @cons s mid rest opcode vch ops h hmid ih =>
    subst hrest
    cases h' with
    | refl => cases h
    | cons h₁ hmid' =>
      rw [h] at h₁
      cases h₁
      rw [ih hmid' rfl]

theorem getOp_of_gt {b : UInt8} (hb : 0x4e < b) (pc : CScript) :
    CScript.getOp (b :: pc) = some (b, [], pc) := by
  have h₁ : ¬ b < 0x4c := fun h => absurd (UInt8.lt_trans hb h) (by decide)
  have h₂ : b ≠ 0x4c := by rintro rfl; exact absurd hb (by decide)
  have h₃ : b ≠ 0x4d := by rintro rfl; exact absurd hb (by decide)
  have h₄ : b ≠ 0x4e := by rintro rfl; exact absurd hb (by decide)
  simp only [CScript.getOp, if_neg h₁, if_neg h₂, if_neg h₃, if_neg h₄]

/-- The end of a template is the end of the script. -/
theorem matchTemplate_nil {n : ℕ} {s : CScript} {vSolutions r : List Valtype}
    (h : matchTemplate n s [] vSolutions = some r) : s = [] ∧ r = vSolutions := by
  cases n with
  | zero => cases h
  | succ n =>
    rw [matchTemplate] at h
    split at h
    · next hs =>
      cases h
      exact ⟨hs.1, rfl⟩
    · simp [CScript.getOp] at h

/-- An opcode of a template stands for one of the script. -/
theorem matchTemplate_cons {n : ℕ} {s t : CScript} {b : UInt8} {vSolutions r : List Valtype}
    (hb : 0x4e < b) (hkeys : b ≠ opPubKeys)
    (h : matchTemplate n s (b :: t) vSolutions = some r) :
    ∃ n' opcode vch rest vSolutions', s.getOp = some (opcode, vch, rest) ∧
      matchOpcode opcode vch b [] vSolutions = some vSolutions' ∧
      matchTemplate n' rest t vSolutions' = some r := by
  cases n with
  | zero => cases h
  | succ n =>
    rw [matchTemplate, if_neg (by simp), getOp_of_gt hb] at h
    cases hs : s.getOp with
    | none =>
      rw [hs] at h
      cases h
    | some x =>
      obtain ⟨opcode, vch, rest⟩ := x
      rw [hs] at h
      dsimp only at h
      rw [if_neg hkeys] at h
      cases hop : matchOpcode opcode vch b [] vSolutions with
      | none =>
        rw [hop] at h
        cases h
      | some vSolutions' =>
        rw [hop] at h
        exact ⟨n, opcode, vch, rest, vSolutions', rfl, hop, h⟩

/-- The sizes a pushed public key may have. -/
def KeySize (vch : Valtype) : Prop := 33 ≤ vch.length ∧ vch.length ≤ 65

/-- The public keys are read one after the other, up to an opcode that is none, or to the end. -/
theorem takePubKeys_spec (n : ℕ) : ∀ (s pc : CScript) (opcode : UInt8) (vch : Valtype)
    (vSolutions : List Valtype), s.getOp = some (opcode, vch, pc) → pc.length < n →
    ∃ keys : List (UInt8 × Valtype), (∀ key ∈ keys, KeySize key.2) ∧
      (takePubKeys n opcode vch pc vSolutions).2.2.2 = vSolutions ++ keys.map Prod.snd ∧
      ((takePubKeys n opcode vch pc vSolutions).1 = opInvalidOpcode ∨
        ∃ mid, s.Reads keys mid ∧ mid.getOp = some
          ((takePubKeys n opcode vch pc vSolutions).1, (takePubKeys n opcode vch pc vSolutions).2.1,
            (takePubKeys n opcode vch pc vSolutions).2.2.1)) := by
  induction n with
  | zero => exact fun _ _ _ _ _ _ h => absurd h (Nat.not_lt_zero _)
  | succ n ih =>
    intro s pc opcode vch vSolutions hs hlen
    rw [takePubKeys]
    split
    · next hsize =>
      cases hop : pc.getOp with
      | none => exact ⟨[(opcode, vch)], by simpa [KeySize] using hsize, rfl, .inl rfl⟩
      | some x =>
        obtain ⟨opcode', vch', rest⟩ := x
        have hlt := getOp_length_lt hop
        obtain ⟨keys, hkeys, hsol, hread⟩ := ih pc rest opcode' vch' (vSolutions ++ [vch]) hop
          (by omega)
        refine ⟨(opcode, vch) :: keys, ?_, ?_, ?_⟩
        · intro key hkey
          rcases List.mem_cons.1 hkey with rfl | hkey
          · exact hsize
          · exact hkeys key hkey
        · rw [hsol, List.append_assoc]
          rfl
        · rcases hread with hinvalid | ⟨mid, hmid, hget⟩
          · exact .inl hinvalid
          · exact .inr ⟨mid, .cons hs hmid, hget⟩
    · exact ⟨[], by simp, by simp, .inr ⟨s, .refl s, hs⟩⟩

/-- The public keys of a template, and the opcode after them. -/
theorem matchTemplate_pubKeys {n : ℕ} {s t : CScript} {b : UInt8} {vSolutions r : List Valtype}
    (hb : 0x4e < b) (h : matchTemplate n s (opPubKeys :: b :: t) vSolutions = some r) :
    ∃ (n' : ℕ) (keys : List (UInt8 × Valtype)) (opcode : UInt8) (vch : Valtype) (rest : CScript)
      (vSolutions' : List Valtype), (∀ key ∈ keys, KeySize key.2) ∧
      (opcode = opInvalidOpcode ∨ ∃ mid, s.Reads keys mid ∧ mid.getOp = some (opcode, vch, rest)) ∧
      matchOpcode opcode vch b [] (vSolutions ++ keys.map Prod.snd) = some vSolutions' ∧
      matchTemplate n' rest t vSolutions' = some r := by
  cases n with
  | zero => cases h
  | succ n =>
    rw [matchTemplate, if_neg (by simp), getOp_of_gt (by decide)] at h
    cases hs : s.getOp with
    | none =>
      rw [hs] at h
      cases h
    | some x =>
      obtain ⟨opcode, vch, pc⟩ := x
      rw [hs] at h
      dsimp only at h
      rw [if_pos rfl, getOp_of_gt hb] at h
      dsimp only at h
      obtain ⟨keys, hkeys, hsol, hread⟩ := takePubKeys_spec (pc.length + 1) s pc opcode vch
        vSolutions hs (Nat.lt_succ_self _)
      rw [hsol] at h
      cases hop : matchOpcode (takePubKeys (pc.length + 1) opcode vch pc vSolutions).1
          (takePubKeys (pc.length + 1) opcode vch pc vSolutions).2.1 b []
          (vSolutions ++ keys.map Prod.snd) with
      | none =>
        rw [hop] at h
        cases h
      | some vSolutions' =>
        rw [hop] at h
        exact ⟨n, keys, _, _, _, vSolutions', hkeys, hread, hop, h⟩

section Opcodes

variable {opcode b : UInt8} {vch : Valtype} {vSolutions r : List Valtype}

theorem matchOpcode_pubKey (h : matchOpcode opcode vch opPubKey [] vSolutions = some r) :
    KeySize vch ∧ r = vSolutions ++ [vch] := by
  rw [matchOpcode, if_pos rfl] at h
  split at h
  · cases h
  · next hsize =>
    cases h
    rw [not_or, not_lt, not_lt] at hsize
    exact ⟨hsize, rfl⟩

theorem matchOpcode_pubKeyHash (h : matchOpcode opcode vch opPubKeyHash [] vSolutions = some r) :
    vch.length = 20 ∧ r = vSolutions ++ [vch] := by
  rw [matchOpcode, if_neg (by decide), if_pos rfl] at h
  split at h
  · cases h
  · next hsize =>
    cases h
    exact ⟨not_not.1 hsize, rfl⟩

theorem matchOpcode_smallInteger
    (h : matchOpcode opcode vch opSmallInteger [] vSolutions = some r) :
    (opcode = 0 ∨ (0x51 ≤ opcode ∧ opcode ≤ 0x60)) ∧
      r = vSolutions ++ [[decodeOpN opcode]] := by
  rw [matchOpcode, if_neg (by decide), if_neg (by decide), if_pos rfl] at h
  split at h
  · next hop =>
    cases h
    exact ⟨hop, rfl⟩
  · cases h

theorem matchOpcode_other (hb : b ≠ opPubKey ∧ b ≠ opPubKeyHash ∧ b ≠ opSmallInteger)
    (h : matchOpcode opcode vch b [] vSolutions = some r) :
    opcode = b ∧ vch = [] ∧ r = vSolutions := by
  rw [matchOpcode, if_neg hb.1, if_neg hb.2.1, if_neg hb.2.2] at h
  split at h
  · cases h
  · next hop =>
    cases h
    rw [not_or, not_not, not_not] at hop
    exact ⟨hop.1, hop.2, rfl⟩

end Opcodes

/-- A script of pushes, as it reads. -/
theorem isPushOnlyLoop_iff (n : ℕ) : ∀ s : CScript, s.length ≤ n →
    (CScript.isPushOnlyLoop n s = true ↔ ∃ ops, s.Reads ops [] ∧ ∀ op ∈ ops, op.1 ≤ 0x60) := by
  induction n with
  | zero =>
    intro s hs
    rw [List.eq_nil_of_length_eq_zero (Nat.le_zero.1 hs)]
    exact ⟨fun _ => ⟨[], .refl [], by simp⟩, fun _ => rfl⟩
  | succ n ih =>
    intro s hs
    cases s with
    | nil => exact ⟨fun _ => ⟨[], .refl [], by simp⟩, fun _ => rfl⟩
    | cons b pc =>
      rw [CScript.isPushOnlyLoop]
      cases hget : CScript.getOp (b :: pc) with
      | none =>
        refine ⟨fun h => absurd h Bool.false_ne_true, fun ⟨ops, hreads, _⟩ => ?_⟩
        cases hreads with
        | cons h => rw [hget] at h; cases h
      | some x =>
        obtain ⟨opcode, vch, rest⟩ := x
        have hlt := getOp_length_lt hget
        dsimp only
        constructor
        · intro h
          split at h
          · cases h
          · next hop =>
            obtain ⟨ops, hreads, hops⟩ := (ih rest (by omega)).1 h
            refine ⟨(opcode, vch) :: ops, .cons hget hreads, fun op hmem => ?_⟩
            rcases List.mem_cons.1 hmem with rfl | hmem
            · exact UInt8.not_lt.1 hop
            · exact hops op hmem
        · rintro ⟨ops, hreads, hops⟩
          cases hreads with
          | cons h hmid =>
            rw [hget] at h
            cases h
            rw [if_neg (UInt8.not_lt.2 (hops _ List.mem_cons_self))]
            exact (ih rest (by omega)).2 ⟨_, hmid, fun op hmem => hops op (List.mem_cons_of_mem _ hmem)⟩

/-- The script of a script hash, as it reads. -/
theorem isPayToScriptHash_iff (s : CScript) : s.isPayToScriptHash = true ↔
    ∃ h : Valtype, h.length = 20 ∧ s = 0xa9 :: 0x14 :: (h ++ [0x87]) := by
  simp only [CScript.isPayToScriptHash, Bool.and_eq_true, beq_iff_eq]
  constructor
  · rintro ⟨⟨⟨hlen, h₀⟩, h₁⟩, h₂₂⟩
    rcases s with _ | ⟨a, _ | ⟨b, t⟩⟩
    · cases hlen
    · cases hlen
    · simp only [List.length_cons] at hlen
      cases h₀
      cases h₁
      refine ⟨t.take 20, by rw [List.length_take]; omega, ?_⟩
      have hlast : t.drop 20 = [0x87] := by
        have hget : t[20]? = some 0x87 := h₂₂
        have hdrop : t.drop 20 = 0x87 :: t.drop 21 := by
          obtain ⟨hlt, hget⟩ := List.getElem?_eq_some_iff.1 hget
          rw [List.drop_eq_getElem_cons hlt, hget]
        rw [hdrop, List.drop_eq_nil_of_le (by omega)]
      rw [← hlast, List.take_append_drop]
  · rintro ⟨h, hlen, rfl⟩
    refine ⟨⟨⟨?_, rfl⟩, rfl⟩, ?_⟩
    · simp only [List.length_cons, List.length_append, List.length_nil, hlen]
    · show (h ++ [0x87])[20]? = some 0x87
      rw [List.getElem?_append_right (by omega), hlen]
      rfl

theorem reads_scripthash {h : Valtype} (hlen : h.length = 20) :
    CScript.Reads (0xa9 :: 0x14 :: (h ++ [0x87])) [(0xa9, []), (0x14, h), (0x87, [])] [] := by
  have hend : CScript.Reads [0x87] [(0x87, [])] [] := .cons rfl (.refl [])
  refine .cons (getOp_of_gt (by decide) _) (.cons ?_ hend)
  have hnat : (0x14 : UInt8).toNat = h.length := hlen.symm
  simp only [CScript.getOp, if_pos (show (0x14 : UInt8) < 0x4c by decide), hnat]
  rw [if_neg (by simp), List.take_left, List.drop_left]

/-- `GetOp` returns the first byte. -/
theorem getOp_head {b opcode : UInt8} {pc rest : CScript} {vch : Valtype}
    (h : CScript.getOp (b :: pc) = some (opcode, vch, rest)) : opcode = b := by
  have hpush : ∀ (n : ℕ) (pc : CScript), (if pc.length < n then none
      else some (b, pc.take n, pc.drop n)) = some (opcode, vch, rest) → opcode = b := by
    intro n pc h
    split at h
    · cases h
    · cases h
      rfl
  unfold CScript.getOp at h
  dsimp only at h
  split at h
  · exact hpush _ _ h
  split at h
  · split at h
    · exact hpush _ _ h
    · cases h
  split at h
  · split at h
    · exact hpush _ _ h
    · cases h
  split at h
  · split at h
    · exact hpush _ _ h
    · cases h
  · cases h
    rfl

/-- An opcode above `OP_PUSHDATA4` pushes nothing. -/
theorem vch_eq_nil_of_gt {s rest : CScript} {opcode : UInt8} {vch : Valtype}
    (h : s.getOp = some (opcode, vch, rest)) (hop : 0x4e < opcode) : vch = [] := by
  obtain ⟨b, pc, rfl⟩ : ∃ b pc, s = b :: pc := by
    cases s with
    | nil => cases h
    | cons b pc => exact ⟨b, pc, rfl⟩
  have hb := getOp_head h
  subst hb
  rw [getOp_of_gt hop] at h
  cases h
  rfl

/-- The instances of the templates, and what is collected from each. -/
inductive Template : List (UInt8 × Valtype) → TxnOutType → List Valtype → Prop
  | pubkey {opcode : UInt8} {vch : Valtype} (hsize : KeySize vch) :
      Template [(opcode, vch), (0xac, [])] .pubkey [vch]
  | pubkeyhash {opcode : UInt8} {vch : Valtype} (hsize : vch.length = 20) :
      Template [(0x76, []), (0xa9, []), (opcode, vch), (0x88, []), (0xac, [])] .pubkeyhash [vch]
  | scripthash {h : Valtype} (hsize : h.length = 20) :
      Template [(0xa9, []), (0x14, h), (0x87, [])] .scripthash [h]
  | multisig {m n : UInt8} {keys : List (UInt8 × Valtype)} (hkeys : ∀ key ∈ keys, KeySize key.2)
      (hm : 0x51 ≤ m) (hmn : m ≤ n) (hn : n ≤ 0x60) (hlen : 0x50 + keys.length = n.toNat) :
      Template ((m, []) :: (keys ++ [(n, []), (0xae, [])])) .multisig
        ([m - 0x50] :: (keys.map Prod.snd ++ [[n - 0x50]]))
  | nullData {ops : List (UInt8 × Valtype)} (hops : ∀ op ∈ ops, op.1 ≤ 0x60) :
      Template ((0x6a, []) :: ops) .nullData []

/-- The script reads as an instance of a template. -/
def Shape (s : CScript) (t : TxnOutType) (r : List Valtype) : Prop :=
  ∃ ops, s.Reads ops [] ∧ Template ops t r

theorem shape_pubkey {k : ℕ} {s : CScript} {r : List Valtype}
    (h : matchTemplate k s [opPubKey, 0xac] [] = some r) : Shape s .pubkey r := by
  obtain ⟨k₁, opcode, vch, s₁, r₁, h₁, hop₁, h⟩ := matchTemplate_cons (by decide) (by decide) h
  obtain ⟨k₂, opcode₂, vch₂, s₂, r₂, h₂, hop₂, h⟩ := matchTemplate_cons (by decide) (by decide) h
  obtain ⟨rfl, rfl⟩ := matchTemplate_nil h
  obtain ⟨hsize, rfl⟩ := matchOpcode_pubKey hop₁
  obtain ⟨rfl, rfl, rfl⟩ := matchOpcode_other (by decide) hop₂
  exact ⟨_, .cons h₁ (.cons h₂ (.refl [])), .pubkey hsize⟩

theorem shape_pubkeyhash {k : ℕ} {s : CScript} {r : List Valtype}
    (h : matchTemplate k s [0x76, 0xa9, opPubKeyHash, 0x88, 0xac] [] = some r) :
    Shape s .pubkeyhash r := by
  obtain ⟨k₁, _, _, s₁, r₁, h₁, hop₁, h⟩ := matchTemplate_cons (by decide) (by decide) h
  obtain ⟨k₂, _, _, s₂, r₂, h₂, hop₂, h⟩ := matchTemplate_cons (by decide) (by decide) h
  obtain ⟨k₃, opcode, vch, s₃, r₃, h₃, hop₃, h⟩ := matchTemplate_cons (by decide) (by decide) h
  obtain ⟨k₄, _, _, s₄, r₄, h₄, hop₄, h⟩ := matchTemplate_cons (by decide) (by decide) h
  obtain ⟨k₅, _, _, s₅, r₅, h₅, hop₅, h⟩ := matchTemplate_cons (by decide) (by decide) h
  obtain ⟨rfl, rfl⟩ := matchTemplate_nil h
  obtain ⟨rfl, rfl, rfl⟩ := matchOpcode_other (by decide) hop₁
  obtain ⟨rfl, rfl, rfl⟩ := matchOpcode_other (by decide) hop₂
  obtain ⟨hsize, rfl⟩ := matchOpcode_pubKeyHash hop₃
  obtain ⟨rfl, rfl, rfl⟩ := matchOpcode_other (by decide) hop₄
  obtain ⟨rfl, rfl, rfl⟩ := matchOpcode_other (by decide) hop₅
  exact ⟨_, .cons h₁ (.cons h₂ (.cons h₃ (.cons h₄ (.cons h₅ (.refl []))))), .pubkeyhash hsize⟩

/-- `OP_0` and `OP_1` up to `OP_16`. -/
def SmallInteger (b : UInt8) : Prop := b = 0 ∨ (0x51 ≤ b ∧ b ≤ 0x60)

theorem decodeOpN_of_range {b : UInt8} (h : 0x51 ≤ b ∧ b ≤ 0x60) : decodeOpN b = b - 0x50 := by
  rw [decodeOpN, if_neg]
  rintro rfl
  exact absurd h.1 (by decide)

/-- The number an opcode stands for. -/
theorem decodeOpN_toNat {b : UInt8} (h : SmallInteger b) :
    (decodeOpN b).toNat = b.toNat - 0x50 := by
  rcases h with rfl | h
  · rfl
  · rw [decodeOpN_of_range h, UInt8.toNat_sub_of_le _ _ (UInt8.le_trans (by decide) h.1)]
    rfl

theorem SmallInteger.range {b : UInt8} (h : SmallInteger b) (hpos : 1 ≤ decodeOpN b) :
    0x51 ≤ b ∧ b ≤ 0x60 := by
  rcases h with rfl | h
  · exact absurd hpos (by decide)
  · exact h

/-- A small integer is an opcode that pushes nothing, or nothing but the empty vector. -/
theorem smallInteger_vch {s rest : CScript} {opcode : UInt8} {vch : Valtype}
    (h : s.getOp = some (opcode, vch, rest)) (hop : SmallInteger opcode) : vch = [] := by
  rcases hop with rfl | hop
  · cases s with
    | nil => cases h
    | cons b pc =>
      obtain rfl := getOp_head h
      have hzero : CScript.getOp (0 :: pc) = some (0, [], pc) := by
        simp [CScript.getOp]
      rw [hzero] at h
      cases h
      rfl
  · exact vch_eq_nil_of_gt h (UInt8.lt_of_lt_of_le (by decide) hop.1)

/-- What a script that matches the template of `OP_CHECKMULTISIG` reads as, whatever it counts. -/
structure MultisigForm (ops : List (UInt8 × Valtype)) (m n : UInt8) (keys : List (UInt8 × Valtype)) :
    Prop where
  ops_eq : ops = (m, []) :: (keys ++ [(n, []), (0xae, [])])
  keySize : ∀ key ∈ keys, KeySize key.2
  small_m : SmallInteger m
  small_n : SmallInteger n

/-- What is collected from such a script. -/
def multisigSolutions (m n : UInt8) (keys : List (UInt8 × Valtype)) : List Valtype :=
  [decodeOpN m] :: (keys.map Prod.snd ++ [[decodeOpN n]])

theorem multisigOk_iff (dm dn : UInt8) (keys : List Valtype) :
    multisigOk ([dm] :: (keys ++ [[dn]])) = true ↔
      1 ≤ dm ∧ 1 ≤ dn ∧ dm.toNat ≤ dn.toNat ∧ keys.length = dn.toNat := by
  have hlast : ([dm] :: (keys ++ [[dn]])).getLastD [] = [dn] := by
    rw [List.getLastD_eq_getLast?, ← List.cons_append, List.getLast?_append]
    rfl
  have hlen : ([dm] :: (keys ++ [[dn]])).length - 2 = keys.length := by
    simp only [List.length_append, List.length_cons, List.length_nil]
    omega
  rw [multisigOk, hlast, hlen]
  show (!(decide (dm < 1) || decide (dn < 1) || decide (dn < dm) ||
    keys.length != dn.toNat)) = true ↔ _
  simp only [Bool.not_eq_true', Bool.or_eq_false_iff, decide_eq_false_iff_not, UInt8.not_lt,
    bne_eq_false_iff_eq, UInt8.le_iff_toNat_le, and_assoc]

/-- The counts are right when the form is an instance of the template. -/
theorem MultisigForm.template {ops keys : List (UInt8 × Valtype)} {m n : UInt8}
    (h : MultisigForm ops m n keys) (hok : multisigOk (multisigSolutions m n keys) = true) :
    Template ops .multisig (multisigSolutions m n keys) := by
  obtain ⟨hdm, hdn, hmn, hlen⟩ := (multisigOk_iff _ _ _).1 hok
  have hm := h.small_m.range hdm
  have hn := h.small_n.range hdn
  rw [decodeOpN_toNat h.small_m, decodeOpN_toNat h.small_n] at hmn
  rw [decodeOpN_toNat h.small_n, List.length_map] at hlen
  have hlo := UInt8.le_iff_toNat_le.1 hm.1
  have hlo' := UInt8.le_iff_toNat_le.1 hn.1
  rw [show (0x51 : UInt8).toNat = 0x51 from rfl] at hlo hlo'
  rw [h.ops_eq, multisigSolutions, decodeOpN_of_range hm, decodeOpN_of_range hn]
  exact .multisig h.keySize hm.1 (UInt8.le_iff_toNat_le.2 (by omega)) hn.2 (by omega)

theorem form_multisig {k : ℕ} {s : CScript} {r : List Valtype}
    (h : matchTemplate k s [opSmallInteger, opPubKeys, opSmallInteger, 0xae] [] = some r) :
    ∃ ops m n keys, s.Reads ops [] ∧ MultisigForm ops m n keys ∧ r = multisigSolutions m n keys := by
  obtain ⟨k₁, m, vchM, s₁, r₁, h₁, hop₁, h⟩ := matchTemplate_cons (by decide) (by decide) h
  obtain ⟨k₂, keys, n, vchN, s₂, r₂, hkeys, hread, hop₂, h⟩ := matchTemplate_pubKeys (by decide) h
  obtain ⟨k₃, _, _, s₃, r₃, h₃, hop₃, h⟩ := matchTemplate_cons (by decide) (by decide) h
  obtain ⟨rfl, rfl⟩ := matchTemplate_nil h
  obtain ⟨hm, rfl⟩ := matchOpcode_smallInteger hop₁
  obtain ⟨hn, rfl⟩ := matchOpcode_smallInteger hop₂
  obtain ⟨rfl, rfl, rfl⟩ := matchOpcode_other (by decide) hop₃
  rcases hread with hinvalid | ⟨mid, hmid, hget⟩
  · rw [hinvalid] at hn
    exact absurd hn (by decide)
  · obtain rfl := smallInteger_vch h₁ hm
    obtain rfl := smallInteger_vch hget hn
    exact ⟨_, m, n, keys, .cons h₁ (hmid.append (.cons hget (.cons h₃ (.refl [])))),
      ⟨rfl, hkeys, hm, hn⟩, by rw [multisigSolutions, List.nil_append, List.append_assoc]; rfl⟩

/-- **What `Solver` accepts** reads as an instance of a template. -/
theorem solver_shape {s : CScript} {t : TxnOutType} {r : List Valtype}
    (h : solver s = some (t, r)) : Shape s t r := by
  rw [solver] at h
  split at h
  · next hp2sh =>
    cases h
    obtain ⟨h, hlen, rfl⟩ := (isPayToScriptHash_iff s).1 hp2sh
    have hhash : ((0xa9 :: 0x14 :: (h ++ [0x87]) : CScript).drop 2).take 20 = h := by
      show (h ++ [0x87]).take 20 = h
      rw [← hlen, List.take_left]
    rw [hhash]
    exact ⟨_, reads_scripthash hlen, .scripthash hlen⟩
  split at h
  · next hret =>
    cases h
    obtain ⟨hhead, hpush⟩ := hret
    cases s with
    | nil => cases hhead
    | cons b rest =>
      cases hhead
      obtain ⟨ops, hreads, hops⟩ := (isPushOnlyLoop_iff _ rest (Nat.le_succ _)).1 hpush
      exact ⟨_, .cons (getOp_of_gt (by decide) _) hreads, .nullData hops⟩
  simp only [templates, scanTemplates] at h
  split at h
  · split at h
    · split at h
      · cases h
      · next r' hmatch =>
        split at h
        · cases h
        · next hok =>
          cases h
          obtain ⟨ops, m, n, keys, hreads, hform, rfl⟩ := form_multisig hmatch
          exact ⟨ops, hreads, hform.template (by simpa using hok)⟩
    · next r' hmatch =>
      rw [if_neg (by simp)] at h
      cases h
      exact shape_pubkeyhash hmatch
  · next r' hmatch =>
    rw [if_neg (by simp)] at h
    cases h
    exact shape_pubkey hmatch

end FairCoin
