import FairCoin.Solver
import FairCoin.Lib.Canonical

/-!
# Standard scripts and their builders

The outputs of `Solver` of `src/script/standard.cpp` on every exit, the scripts that
`GetScriptForDestination` and `GetScriptForMultisig` build, and `ExtractDestination`.

* `solverRet` — `Solver` with its return value, `typeRet` and `vSolutionsRet`.
* `solver_iff` — **`Solver` accepts the instances of its templates**, and nothing else.
* `extractDestination_getScriptForDestination`, `solver_getScriptForMultisig` — the builders are
  inverted.
* `solverRet_false` — the exits with `false`; one of them does not clear what was collected.
-/

namespace FairCoin

open Codec

/-! ## The outputs -/

/-- The scan of the templates, with the outputs of `Solver`. -/
def scanTemplatesRet (script1 : CScript) :
    List (TxnOutType × CScript) → Bool × TxnOutType × List Valtype
  | [] => (false, .nonstandard, [])
  | (t, script2) :: rest =>
      match matchTemplate (script2.length + 1) script1 script2 [] with
      | none => scanTemplatesRet script1 rest
      | some vSolutions =>
          if t = .multisig ∧ multisigOk vSolutions = false then (false, t, vSolutions)
          else (true, t, vSolutions)

/-- `Solver`: the return value, `typeRet` and `vSolutionsRet`. -/
def solverRet (scriptPubKey : CScript) (vSolutionsRet : List Valtype) :
    Bool × TxnOutType × List Valtype :=
  if scriptPubKey.isPayToScriptHash then
    (true, .scripthash, vSolutionsRet ++ [(scriptPubKey.drop 2).take 20])
  else if scriptPubKey.head? = some 0x6a ∧
      CScript.isPushOnlyLoop scriptPubKey.length (scriptPubKey.drop 1) then
    (true, .nullData, vSolutionsRet)
  else scanTemplatesRet scriptPubKey templates

theorem scanTemplatesRet_true {s : CScript} {t : TxnOutType} {r : List Valtype}
    (ts : List (TxnOutType × CScript)) :
    scanTemplatesRet s ts = (true, t, r) ↔ scanTemplates s ts = some (t, r) := by
  induction ts with
  | nil => simp [scanTemplatesRet, scanTemplates]
  | cons x ts ih =>
    obtain ⟨t', script2⟩ := x
    rw [scanTemplatesRet, scanTemplates]
    cases matchTemplate (script2.length + 1) s script2 [] with
    | none => exact ih
    | some vSolutions =>
      dsimp only
      split <;> simp

/-- `Solver` on vectors that are empty before the call. -/
theorem solverRet_true {s : CScript} {t : TxnOutType} {r : List Valtype} :
    solverRet s [] = (true, t, r) ↔ solver s = some (t, r) := by
  rw [solverRet, solver]
  split
  · simp
  split
  · simp
  · exact scanTemplatesRet_true templates

/-! ## Instances of the templates -/

/-- A round of the loop over a template. -/
theorem matchTemplate_step {n : ℕ} {s rest t : CScript} {opcode b : UInt8} {vch : Valtype}
    {vSolutions vSolutions' : List Valtype} (hs : s.getOp = some (opcode, vch, rest))
    (hb : 0x4e < b) (hkeys : b ≠ opPubKeys)
    (hop : matchOpcode opcode vch b [] vSolutions = some vSolutions') :
    matchTemplate (n + 1) s (b :: t) vSolutions = matchTemplate n rest t vSolutions' := by
  rw [matchTemplate, if_neg (by simp), getOp_of_gt hb, hs]
  dsimp only
  rw [if_neg hkeys, hop]

/-- Public keys are collected up to an opcode that pushes none. -/
theorem takePubKeys_run {s mid rest : CScript} {keys : List (UInt8 × Valtype)} {op' : UInt8}
    (hreads : s.Reads keys mid) (hmid : mid.getOp = some (op', [], rest)) :
    ∀ (n : ℕ) (opcode : UInt8) (vch : Valtype) (pc : CScript) (vSolutions : List Valtype),
      (∀ key ∈ keys, KeySize key.2) → s.getOp = some (opcode, vch, pc) → pc.length < n →
      takePubKeys n opcode vch pc vSolutions = (op', [], rest, vSolutions ++ keys.map Prod.snd) := by
  induction hreads with
  | refl s =>
    intro n opcode vch pc vSolutions _ hs hn
    rw [hmid] at hs
    cases hs
    obtain ⟨n, rfl⟩ : ∃ n', n = n' + 1 := ⟨n - 1, by omega⟩
    rw [takePubKeys, if_neg (by simp), List.map_nil, List.append_nil]
  | @cons s s₁ mid opcode₁ vch₁ keys hget hreads ih =>
    intro n opcode vch pc vSolutions hkeys hs hn
    rw [hget] at hs
    cases hs
    obtain ⟨n, rfl⟩ : ∃ n', n = n' + 1 := ⟨n - 1, by omega⟩
    obtain ⟨⟨opcode₂, vch₂, pc₂⟩, hget₂⟩ : ∃ x, s₁.getOp = some x := by
      cases hreads with
      | refl => exact ⟨_, hmid⟩
      | cons h => exact ⟨_, h⟩
    have hlt := getOp_length_lt hget₂
    have hsize : 33 ≤ vch₁.length ∧ vch₁.length ≤ 65 := hkeys _ List.mem_cons_self
    rw [takePubKeys, if_pos hsize, hget₂]
    dsimp only
    rw [ih hmid n opcode₂ vch₂ pc₂ _ (fun key h => hkeys key (List.mem_cons_of_mem _ h)) hget₂
      (by omega), List.append_assoc]
    rfl

theorem Reads_cons {s rest : CScript} {op : UInt8 × Valtype} {ops : List (UInt8 × Valtype)}
    (h : s.Reads (op :: ops) rest) :
    ∃ mid, s.getOp = some (op.1, op.2, mid) ∧ mid.Reads ops rest := by
  cases h with
  | cons hget hmid => exact ⟨_, hget, hmid⟩

theorem Reads_append {s rest : CScript} {ops ops' : List (UInt8 × Valtype)} :
    s.Reads (ops ++ ops') rest → ∃ mid, s.Reads ops mid ∧ mid.Reads ops' rest := by
  induction ops generalizing s with
  | nil => exact fun h => ⟨s, .refl s, h⟩
  | cons op ops ih =>
    intro h
    obtain ⟨mid, hget, hmid⟩ := Reads_cons h
    obtain ⟨mid', hops, hops'⟩ := ih hmid
    exact ⟨mid', .cons hget hops, hops'⟩

theorem Reads_nil {s rest : CScript} (h : s.Reads [] rest) : s = rest := by
  cases h
  rfl

/-- A script of the form matches the template of `OP_CHECKMULTISIG`. -/
theorem MultisigForm.matchTemplate {s : CScript} {ops keys : List (UInt8 × Valtype)} {m n : UInt8}
    (h : MultisigForm ops m n keys) (hreads : s.Reads ops []) (k : ℕ) :
    FairCoin.matchTemplate (k + 4) s [opSmallInteger, opPubKeys, opSmallInteger, 0xae] [] =
      some (multisigSolutions m n keys) := by
  rw [h.ops_eq] at hreads
  obtain ⟨s₁, h₁, hreads⟩ := Reads_cons hreads
  obtain ⟨mid, hkeys, hreads⟩ := Reads_append hreads
  obtain ⟨s₂, h₂, hreads⟩ := Reads_cons hreads
  obtain ⟨s₃, h₃, hreads⟩ := Reads_cons hreads
  obtain rfl := Reads_nil hreads
  have hsmall : ∀ (b : UInt8) (vSolutions : List Valtype), SmallInteger b →
      matchOpcode b [] opSmallInteger [] vSolutions = some (vSolutions ++ [[decodeOpN b]]) := by
    intro b vSolutions hb
    rw [matchOpcode, if_neg (by decide), if_neg (by decide), if_pos rfl]
    exact if_pos hb
  have hlast : ∀ vSolutions : List Valtype,
      matchOpcode 0xae [] 0xae [] vSolutions = some vSolutions := by
    intro vSolutions
    rw [matchOpcode, if_neg (by decide), if_neg (by decide), if_neg (by decide), if_neg (by simp)]
  obtain ⟨⟨opcode, vch, pc⟩, hget⟩ : ∃ x, s₁.getOp = some x := by
    cases hkeys with
    | refl => exact ⟨_, h₂⟩
    | cons hget => exact ⟨_, hget⟩
  rw [matchTemplate_step h₁ (by decide) (by decide) (hsmall m [] h.small_m), FairCoin.matchTemplate,
    if_neg (by simp), getOp_of_gt (by decide), hget]
  dsimp only
  rw [if_pos rfl, getOp_of_gt (by decide),
    takePubKeys_run hkeys h₂ (pc.length + 1) opcode vch pc _ h.keySize hget (Nat.lt_succ_self _)]
  dsimp only
  rw [hsmall n _ h.small_n]
  dsimp only
  rw [matchTemplate_step h₃ (by decide) (by decide) (hlast _), multisigSolutions, List.append_assoc]
  rfl

/-- An opcode that pushes nothing is its byte. -/
theorem eq_cons_of_getOp {b : UInt8} {s rest : CScript} {vch : Valtype} (hb : 0x4e < b)
    (hget : s.getOp = some (b, vch, rest)) : s = b :: rest := by
  cases s with
  | nil => cases hget
  | cons c pc =>
    obtain rfl := getOp_head hget
    rw [getOp_of_gt hb] at hget
    cases hget
    rfl

/-- The bytes of a script of a script hash. -/
theorem eq_of_reads_scripthash {s : CScript} {h : Valtype}
    (hreads : s.Reads [(0xa9, []), (0x14, h), (0x87, [])] []) :
    s = 0xa9 :: 0x14 :: (h ++ [0x87]) := by
  obtain ⟨s₁, h₁, hreads⟩ := Reads_cons hreads
  obtain ⟨s₂, h₂, hreads⟩ := Reads_cons hreads
  obtain ⟨s₃, h₃, hreads⟩ := Reads_cons hreads
  obtain rfl := Reads_nil hreads
  have hpush : s₁ = 0x14 :: (h ++ s₂) := by
    cases s₁ with
    | nil => cases h₂
    | cons c pc =>
      obtain rfl := getOp_head h₂
      simp only [CScript.getOp, if_pos (show (0x14 : UInt8) < 0x4c by decide)] at h₂
      split at h₂
      · cases h₂
      · cases h₂
        rw [List.take_append_drop]
  rw [eq_cons_of_getOp (by decide) h₁, hpush, eq_cons_of_getOp (by decide) h₃]

/-- `Solver` is true when a template matches, with the right counts. -/
theorem solver_isSome {s : CScript}
    (h : (∃ r, matchTemplate 3 s [opPubKey, 0xac] [] = some r) ∨
      (∃ r, matchTemplate 6 s [0x76, 0xa9, opPubKeyHash, 0x88, 0xac] [] = some r) ∨
      ∃ r, matchTemplate 5 s [opSmallInteger, opPubKeys, opSmallInteger, 0xae] [] = some r ∧
        multisigOk r = true) : ∃ x, solver s = some x := by
  rw [solver]
  split
  · exact ⟨_, rfl⟩
  split
  · exact ⟨_, rfl⟩
  simp only [templates, scanTemplates, List.length_cons, List.length_nil]
  split
  · next h₁ =>
    split
    · next h₂ =>
      rcases h with ⟨r, h⟩ | ⟨r, h⟩ | ⟨r, h, hok⟩
      · exact absurd (h₁.symm.trans h) (by simp)
      · exact absurd (h₂.symm.trans h) (by simp)
      · rw [h]
        dsimp only
        rw [if_neg (by simp [hok])]
        exact ⟨_, rfl⟩
    · exact ⟨_, if_neg (by simp)⟩
  · exact ⟨_, if_neg (by simp)⟩

/-- The kind of an instance of a template. -/
def kindOf (ops : List (UInt8 × Valtype)) : TxnOutType :=
  if ops.head? = some (0x6a, []) then .nullData
  else if ops.getLast? = some (0x87, []) then .scripthash
  else if ops.getLast? = some (0xae, []) then .multisig
  else if ops.length = 2 then .pubkey
  else .pubkeyhash

/-- What is collected from an instance of a template of this kind. -/
def solutionsOf (ops : List (UInt8 × Valtype)) : TxnOutType → List Valtype
  | .pubkey => (ops.take 1).map Prod.snd
  | .pubkeyhash => ((ops.drop 2).take 1).map Prod.snd
  | .scripthash => ((ops.drop 1).take 1).map Prod.snd
  | .multisig =>
      (ops.take 1).map (fun op => [op.1 - 0x50]) ++ (ops.tail.dropLast.dropLast.map Prod.snd ++
        (ops.dropLast.getLast?.toList.map fun op => [op.1 - 0x50]))
  | _ => []

theorem Template.kindOf_eq {ops : List (UInt8 × Valtype)} {t : TxnOutType} {r : List Valtype}
    (h : Template ops t r) : kindOf ops = t ∧ solutionsOf ops t = r := by
  cases h with
  | @pubkey opcode vch hsize =>
    refine ⟨?_, rfl⟩
    have hne : vch ≠ [] := by
      rintro rfl
      exact absurd hsize.1 (by simp)
    simp [kindOf, hne]
  | pubkeyhash hsize => exact ⟨by simp [kindOf], rfl⟩
  | scripthash hsize => exact ⟨by simp [kindOf], rfl⟩
  | @multisig m n keys hkeys hm hmn hn hlen =>
    have hret : m ≠ 0x6a := by
      rintro rfl
      exact absurd (UInt8.le_trans hmn hn) (by decide)
    have hlast : ((m, []) :: (keys ++ [(n, []), (0xae, [])])).getLast? = some (0xae, []) := by
      rw [← List.cons_append, List.getLast?_append]
      rfl
    refine ⟨?_, ?_⟩
    · rw [kindOf, hlast]
      simp [hret]
    · have htwo : keys ++ [(n, []), (0xae, [])] = keys ++ [(n, [])] ++ [(0xae, [])] := by
        rw [List.append_assoc]
        rfl
      have hn : ((m, []) :: (keys ++ [(n, ([] : Valtype))])).getLast? = some (n, []) := by
        rw [← List.cons_append, List.getLast?_append]
        rfl
      have hdrop : ((m, []) :: (keys ++ [(n, []), (0xae, ([] : Valtype))])).dropLast =
          (m, []) :: (keys ++ [(n, [])]) := by
        rw [htwo, ← List.cons_append, List.dropLast_concat]
      rw [solutionsOf, hdrop, hn, List.tail_cons, htwo, List.dropLast_concat, List.dropLast_concat]
      rfl
  | nullData hops => exact ⟨by simp [kindOf], rfl⟩

/-- A script is an instance of one template, in one way. -/
theorem Shape.unique {s : CScript} {t t' : TxnOutType} {r r' : List Valtype} (h : Shape s t r)
    (h' : Shape s t' r') : t = t' ∧ r = r' := by
  obtain ⟨ops, hreads, htemplate⟩ := h
  obtain ⟨ops', hreads', htemplate'⟩ := h'
  obtain rfl := hreads.unique hreads'
  obtain ⟨rfl, rfl⟩ := htemplate.kindOf_eq
  obtain ⟨rfl, rfl⟩ := htemplate'.kindOf_eq
  exact ⟨rfl, rfl⟩

/-- `Solver` is true of every instance. -/
theorem Shape.isSome {s : CScript} {t : TxnOutType} {r : List Valtype} (h : Shape s t r) :
    ∃ x, solver s = some x := by
  obtain ⟨ops, hreads, htemplate⟩ := h
  have hother : ∀ (b : UInt8) (vSolutions : List Valtype),
      b ≠ opPubKey ∧ b ≠ opPubKeyHash ∧ b ≠ opSmallInteger →
      matchOpcode b [] b [] vSolutions = some vSolutions := by
    intro b vSolutions hb
    rw [matchOpcode, if_neg hb.1, if_neg hb.2.1, if_neg hb.2.2, if_neg (by simp)]
  cases htemplate with
  | @pubkey opcode vch hsize =>
    obtain ⟨s₁, h₁, hreads⟩ := Reads_cons hreads
    obtain ⟨s₂, h₂, hreads⟩ := Reads_cons hreads
    obtain rfl := Reads_nil hreads
    have hkey : matchOpcode opcode vch opPubKey [] [] = some [vch] := by
      have := hsize.1
      have := hsize.2
      rw [matchOpcode, if_pos rfl, if_neg (by omega)]
      rfl
    refine solver_isSome (.inl ⟨[vch], ?_⟩)
    rw [matchTemplate_step h₁ (by decide) (by decide) hkey,
      matchTemplate_step h₂ (by decide) (by decide) (hother 0xac _ (by decide))]
    rfl
  | @pubkeyhash opcode vch hsize =>
    obtain ⟨s₁, h₁, hreads⟩ := Reads_cons hreads
    obtain ⟨s₂, h₂, hreads⟩ := Reads_cons hreads
    obtain ⟨s₃, h₃, hreads⟩ := Reads_cons hreads
    obtain ⟨s₄, h₄, hreads⟩ := Reads_cons hreads
    obtain ⟨s₅, h₅, hreads⟩ := Reads_cons hreads
    obtain rfl := Reads_nil hreads
    have hhash : matchOpcode opcode vch opPubKeyHash [] [] = some [vch] := by
      rw [matchOpcode, if_neg (by decide), if_pos rfl, if_neg (by simp [hsize])]
      rfl
    refine solver_isSome (.inr (.inl ⟨[vch], ?_⟩))
    rw [matchTemplate_step h₁ (by decide) (by decide) (hother 0x76 _ (by decide)),
      matchTemplate_step h₂ (by decide) (by decide) (hother 0xa9 _ (by decide)),
      matchTemplate_step h₃ (by decide) (by decide) hhash,
      matchTemplate_step h₄ (by decide) (by decide) (hother 0x88 _ (by decide)),
      matchTemplate_step h₅ (by decide) (by decide) (hother 0xac _ (by decide))]
    rfl
  | scripthash hsize =>
    have hp2sh := (isPayToScriptHash_iff s).2 ⟨_, hsize, eq_of_reads_scripthash hreads⟩
    exact ⟨_, by rw [solver, if_pos hp2sh]⟩
  | @multisig m n keys hkeys hm hmn hn hlen =>
    have hform : MultisigForm ((m, []) :: (keys ++ [(n, []), (0xae, [])])) m n keys :=
      ⟨rfl, hkeys, .inr ⟨hm, UInt8.le_trans hmn hn⟩, .inr ⟨UInt8.le_trans hm hmn, hn⟩⟩
    refine solver_isSome (.inr (.inr ⟨_, hform.matchTemplate hreads 1, ?_⟩))
    have hm' := UInt8.le_iff_toNat_le.1 hm
    have hmn' := UInt8.le_iff_toNat_le.1 hmn
    rw [show (0x51 : UInt8).toNat = 0x51 from rfl] at hm'
    rw [multisigSolutions, multisigOk_iff, UInt8.le_iff_toNat_le, UInt8.le_iff_toNat_le,
      decodeOpN_toNat hform.small_m, decodeOpN_toNat hform.small_n, List.length_map]
    show 1 ≤ _ ∧ 1 ≤ _ ∧ _
    omega
  | nullData hops =>
    obtain ⟨s₁, h₁, hrest⟩ := Reads_cons hreads
    rw [solver]
    split
    · exact ⟨_, rfl⟩
    · cases s with
      | nil => cases h₁
      | cons b pc =>
        obtain rfl := getOp_head h₁
        rw [getOp_of_gt (by decide)] at h₁
        cases h₁
        have hpush := (isPushOnlyLoop_iff (s₁.length + 1) s₁ (Nat.le_succ _)).2 ⟨_, hrest, hops⟩
        exact ⟨_, if_pos ⟨rfl, hpush⟩⟩

/-- **`Solver` accepts the instances of its templates**, with what is collected in order. -/
theorem solver_iff {s : CScript} {t : TxnOutType} {r : List Valtype} :
    solver s = some (t, r) ↔ Shape s t r := by
  refine ⟨solver_shape, fun h => ?_⟩
  obtain ⟨⟨t', r'⟩, hsolver⟩ := h.isSome
  obtain ⟨rfl, rfl⟩ := h.unique (solver_shape hsolver)
  exact hsolver

/-! ## Builders -/

/-- The opcode of `operator<<`. -/
def pushOpcode (vch : Valtype) : UInt8 :=
  if vch.length < 0x4c then UInt8.ofNat vch.length
  else if vch.length ≤ 0xff then 0x4c else if vch.length ≤ 0xffff then 0x4d else 0x4e

theorem ofNat_toNat_of_lt {n : ℕ} (h : n < 256) : (UInt8.ofNat n).toNat = n := by
  rw [UInt8.toNat_ofNat']
  exact Nat.mod_eq_of_lt h

theorem getOp_pushData {vch : Valtype} (hsize : vch.length ≤ 0xffff) (rest : CScript) :
    CScript.getOp (CScript.pushData vch ++ rest) = some (pushOpcode vch, vch, rest) := by
  have htake : ∀ (b : UInt8) (nSize : ℕ), nSize = vch.length →
      (if (vch ++ rest).length < nSize then none
        else some (b, (vch ++ rest).take nSize, (vch ++ rest).drop nSize)) =
        some (b, vch, rest) := by
    rintro b _ rfl
    rw [if_neg (by simp), List.take_left, List.drop_left]
  unfold CScript.pushData pushOpcode
  split
  · next h₁ =>
    have hnat := ofNat_toNat_of_lt (n := vch.length) (by omega)
    have hlt : UInt8.ofNat vch.length < 0x4c := by
      rw [UInt8.lt_iff_toNat_lt, hnat]
      exact h₁
    simp only [List.cons_append, CScript.getOp, if_pos hlt]
    exact htake _ _ hnat
  split
  · next h₁ h₂ =>
    have hnat := ofNat_toNat_of_lt (n := vch.length) (by omega)
    simp only [List.cons_append, CScript.getOp, if_neg (show ¬ (0x4c : UInt8) < 0x4c by decide),
      if_true]
    exact htake _ _ hnat
  · next h₁ h₂ =>
    have hlow : (UInt8.ofNat vch.length).toNat = vch.length % 256 := UInt8.toNat_ofNat'
    have hhigh := ofNat_toNat_of_lt (n := vch.length / 256) (by omega)
    simp only [List.cons_append, CScript.getOp, if_neg (show ¬ (0x4d : UInt8) < 0x4c by decide),
      if_neg (show ¬ (0x4d : UInt8) = 0x4c by decide), if_true]
    exact htake _ _ (by rw [hlow, hhigh]; omega)

/-- `EncodeOP_N`. -/
def encodeOpN (n : ℕ) : UInt8 := if n = 0 then 0 else UInt8.ofNat (0x51 + n - 1)

/-- A public key: the bytes from `begin()` to `end()`, none if it is not valid. -/
structure CPubKey where
  vch : Valtype
  valid_or_nil : isValidPubKey vch = true ∨ vch = []

/-- `CTxDestination`, without `CNoDestination`, which `ExtractDestination` never returns. -/
inductive CTxDestination where
  | keyID (h : UInt160)
  | scriptID (h : UInt160)
  deriving DecidableEq, Repr

/-- The bytes of a `uint160`. -/
def uint160Bytes (id : UInt160) : Valtype := putLE 20 id.toNat

/-- `GetScriptForDestination`. -/
def getScriptForDestination : CTxDestination → CScript
  | .keyID id => [0x76, 0xa9] ++ CScript.pushData (uint160Bytes id) ++ [0x88, 0xac]
  | .scriptID id => [0xa9] ++ CScript.pushData (uint160Bytes id) ++ [0x87]

/-- `GetScriptForMultisig`. -/
def getScriptForMultisig (nRequired : ℕ) (keys : List CPubKey) : CScript :=
  [encodeOpN nRequired] ++ keys.flatMap (fun key => CScript.pushData key.vch) ++
    [encodeOpN keys.length, 0xae]

/-- `ExtractDestination`; `hash160` is the hash of a public key. -/
def extractDestination (hash160 : Valtype → UInt160) (scriptPubKey : CScript) :
    Option CTxDestination :=
  match solverRet scriptPubKey [] with
  | (false, _, _) => none
  | (true, whichType, vSolutions) =>
      match whichType with
      | .pubkey =>
          if isValidPubKey (vSolutions.headD []) then some (.keyID (hash160 (vSolutions.headD [])))
          else none
      | .pubkeyhash => some (.keyID (bytesToUInt160 (vSolutions.headD [])))
      | .scripthash => some (.scriptID (bytesToUInt160 (vSolutions.headD [])))
      | _ => none

theorem foldr_putLE (k : ℕ) : ∀ n : ℕ, n < 256 ^ k →
    (putLE k n).foldr (fun b acc => b.toNat + 256 * acc) 0 = n := by
  induction k with
  | zero =>
    intro n hn
    rw [pow_zero] at hn
    rw [putLE, List.foldr_nil]
    omega
  | succ k ih =>
    intro n hn
    have hdiv : n / 256 < 256 ^ k := by
      rw [Nat.div_lt_iff_lt_mul (by norm_num), ← pow_succ]
      exact hn
    rw [putLE, List.foldr_cons, ih _ hdiv, ofNat_toNat_of_lt (Nat.mod_lt _ (by norm_num)),
      Nat.mod_add_div]

theorem bytesToUInt160_uint160Bytes (id : UInt160) : bytesToUInt160 (uint160Bytes id) = id := by
  rw [bytesToUInt160, uint160Bytes, foldr_putLE 20 _ (by simpa using id.isLt)]
  exact BitVec.ofNat_toNat _ _ ▸ by simp

/-- **`ExtractDestination` inverts `GetScriptForDestination`.** -/
theorem extractDestination_getScriptForDestination (hash160 : Valtype → UInt160)
    (d : CTxDestination) :
    extractDestination hash160 (getScriptForDestination d) = some d := by
  have hlen : ∀ id : UInt160, (uint160Bytes id).length = 20 := fun id => length_putLE 20 _
  have hget : ∀ (id : UInt160) (rest : CScript),
      CScript.getOp (CScript.pushData (uint160Bytes id) ++ rest) =
        some (0x14, uint160Bytes id, rest) := by
    intro id rest
    rw [getOp_pushData (by rw [hlen]; decide), pushOpcode, hlen]
    rfl
  cases d with
  | keyID id =>
    have hshape : Shape (getScriptForDestination (.keyID id)) .pubkeyhash [uint160Bytes id] := by
      refine ⟨_, ?_, @Template.pubkeyhash 0x14 _ (hlen id)⟩
      refine .cons (getOp_of_gt (by decide) _) (.cons (getOp_of_gt (by decide) _)
        (.cons (hget id _) (.cons (getOp_of_gt (by decide) _)
          (.cons (getOp_of_gt (by decide) _) (.refl [])))))
    rw [extractDestination, solverRet_true.2 (solver_iff.2 hshape)]
    dsimp only
    rw [List.headD_cons, bytesToUInt160_uint160Bytes]
  | scriptID id =>
    have hshape : Shape (getScriptForDestination (.scriptID id)) .scripthash [uint160Bytes id] := by
      refine ⟨_, ?_, .scripthash (hlen id)⟩
      exact .cons (getOp_of_gt (by decide) _) (.cons (hget id _)
        (.cons (getOp_of_gt (by decide) _) (.refl [])))
    rw [extractDestination, solverRet_true.2 (solver_iff.2 hshape)]
    dsimp only
    rw [List.headD_cons, bytesToUInt160_uint160Bytes]

/-- The pushes of a list of vectors, as they read. -/
theorem reads_pushes (vs : List Valtype) (rest : CScript) (hsize : ∀ v ∈ vs, v.length ≤ 0xffff) :
    CScript.Reads (vs.flatMap CScript.pushData ++ rest) (vs.map fun v => (pushOpcode v, v)) rest := by
  induction vs with
  | nil => exact .refl rest
  | cons v vs ih =>
    rw [List.flatMap_cons, List.append_assoc]
    exact .cons (getOp_pushData (hsize v List.mem_cons_self) _)
      (ih fun w hw => hsize w (List.mem_cons_of_mem _ hw))

theorem KeySize.of_isValidPubKey {vch : Valtype} (h : isValidPubKey vch = true) : KeySize vch := by
  unfold isValidPubKey at h
  split at h
  · cases h
  · split at h
    · exact ⟨by rw [beq_iff_eq.1 h], by rw [beq_iff_eq.1 h]; decide⟩
    · split at h
      · exact ⟨by rw [beq_iff_eq.1 h]; decide, by rw [beq_iff_eq.1 h]⟩
      · cases h

theorem CPubKey.length_le (key : CPubKey) : key.vch.length ≤ 65 := by
  rcases key.valid_or_nil with h | h
  · exact (KeySize.of_isValidPubKey h).2
  · rw [h]
    exact Nat.zero_le _

theorem encodeOpN_eq {n : ℕ} (hpos : 1 ≤ n) (hn : n ≤ 16) :
    (encodeOpN n).toNat = 0x50 + n ∧ encodeOpN n - 0x50 = UInt8.ofNat n := by
  rw [encodeOpN, if_neg (by omega)]
  interval_cases n <;> exact ⟨rfl, rfl⟩

/-- The opcodes of `GetScriptForMultisig`. -/
def multisigOps (nRequired : ℕ) (keys : List CPubKey) : List (UInt8 × Valtype) :=
  (encodeOpN nRequired, []) :: (keys.map (fun key => (pushOpcode key.vch, key.vch)) ++
    [(encodeOpN keys.length, []), (0xae, [])])

theorem reads_getScriptForMultisig {m : ℕ} {keys : List CPubKey} (hm : 1 ≤ m)
    (hmn : m ≤ keys.length) (hn : keys.length ≤ 16) :
    (getScriptForMultisig m keys).Reads (multisigOps m keys) [] := by
  have hgt : ∀ k, 1 ≤ k → k ≤ 16 → 0x4e < encodeOpN k := by
    intro k hk hk'
    rw [UInt8.lt_iff_toNat_lt, (encodeOpN_eq hk hk').1]
    show 0x4e < _
    omega
  have hkeys := reads_pushes (keys.map CPubKey.vch) [encodeOpN keys.length, 0xae] (by
    intro v hv
    obtain ⟨key, -, rfl⟩ := List.mem_map.1 hv
    exact key.length_le.trans (by decide))
  rw [List.flatMap_map, List.map_map] at hkeys
  rw [getScriptForMultisig, List.append_assoc]
  exact .cons (getOp_of_gt (hgt m hm (by omega)) _) (hkeys.append
    (.cons (getOp_of_gt (hgt _ (by omega) hn) _) (.cons (getOp_of_gt (by decide) _) (.refl []))))

/-- **`Solver` recovers the keys of `GetScriptForMultisig`**, exactly when all of them are valid. -/
theorem solver_getScriptForMultisig {m : ℕ} {keys : List CPubKey} (hm : 1 ≤ m)
    (hmn : m ≤ keys.length) (hn : keys.length ≤ 16) :
    solver (getScriptForMultisig m keys) = some (.multisig, [UInt8.ofNat m] ::
        (keys.map CPubKey.vch ++ [[UInt8.ofNat keys.length]])) ↔
      ∀ key ∈ keys, isValidPubKey key.vch = true := by
  have hreads := reads_getScriptForMultisig hm hmn hn
  obtain ⟨hm₁, hm₂⟩ := encodeOpN_eq hm (by omega)
  obtain ⟨hn₁, hn₂⟩ := encodeOpN_eq (show 1 ≤ keys.length by omega) hn
  rw [solver_iff]
  constructor
  · rintro ⟨ops, hreads', htemplate⟩ key hkey
    obtain rfl := hreads.unique hreads'
    generalize hops : multisigOps m keys = ops at htemplate
    generalize [UInt8.ofNat m] :: (keys.map CPubKey.vch ++ [[UInt8.ofNat keys.length]]) = r
      at htemplate
    cases htemplate with
    | multisig hkeys =>
      rw [multisigOps, List.cons.injEq] at hops
      obtain ⟨hops, -⟩ := List.append_inj' hops.2 rfl
      have hsize := hkeys (pushOpcode key.vch, key.vch)
        (hops ▸ List.mem_map.2 ⟨key, hkey, rfl⟩)
      refine key.valid_or_nil.resolve_right fun hnil => ?_
      rw [hnil] at hsize
      exact absurd hsize.1 (by decide)
  · intro hvalid
    refine ⟨_, hreads, ?_⟩
    have h := @Template.multisig (encodeOpN m) (encodeOpN keys.length)
      (keys.map fun key => (pushOpcode key.vch, key.vch)) (by
        intro op hop
        obtain ⟨key, hkey, rfl⟩ := List.mem_map.1 hop
        exact KeySize.of_isValidPubKey (hvalid key hkey))
      (by rw [UInt8.le_iff_toNat_le, hm₁]; show 0x51 ≤ _; omega)
      (by rw [UInt8.le_iff_toNat_le, hm₁, hn₁]; omega)
      (by rw [UInt8.le_iff_toNat_le, hn₁]; show _ ≤ 0x60; omega)
      (by rw [List.length_map, hn₁])
    rw [hm₂, hn₂, List.map_map] at h
    exact h

/-! ## Failures -/

/-- The script is a small integer, public keys, a small integer and `OP_CHECKMULTISIG`, and the
integers do not fit the keys. -/
def Miscounted (s : CScript) : Prop :=
  ∃ ops m n keys, s.Reads ops [] ∧ MultisigForm ops m n keys ∧
    ¬ (1 ≤ decodeOpN m ∧ decodeOpN m ≤ decodeOpN n ∧ keys.length = (decodeOpN n).toNat)

theorem multisigOk_solutions (m n : UInt8) (keys : List (UInt8 × Valtype)) :
    multisigOk (multisigSolutions m n keys) = true ↔
      1 ≤ decodeOpN m ∧ decodeOpN m ≤ decodeOpN n ∧ keys.length = (decodeOpN n).toNat := by
  rw [multisigSolutions, multisigOk_iff, List.length_map, ← UInt8.le_iff_toNat_le]
  exact ⟨fun h => ⟨h.1, h.2.2.1, h.2.2.2⟩, fun h => ⟨h.1, UInt8.le_trans h.1 h.2.1, h.2.1, h.2.2⟩⟩

/-- A script of the form is an instance of no other template, and of that of `OP_CHECKMULTISIG` only
with the right counts. -/
theorem MultisigForm.of_template {ops keys : List (UInt8 × Valtype)} {m n : UInt8}
    (h : MultisigForm ops m n keys) {t : TxnOutType} {r : List Valtype} (ht : Template ops t r) :
    multisigOk (multisigSolutions m n keys) = true := by
  have hkind : kindOf ops = .multisig := by
    have hret : m ≠ 0x6a := by
      rintro rfl
      exact absurd h.small_m (by unfold SmallInteger; decide)
    have hlast : ((m, []) :: (keys ++ [(n, []), (0xae, [])])).getLast? = some (0xae, []) := by
      rw [← List.cons_append, List.getLast?_append]
      rfl
    rw [h.ops_eq, kindOf, hlast]
    simp [hret]
  obtain rfl := hkind.symm.trans ht.kindOf_eq.1
  generalize hops : ops = ops' at ht
  cases ht with
  | @multisig m' n' keys' hkeys hm hmn hn hlen =>
    rw [h.ops_eq, List.cons.injEq, Prod.mk.injEq] at hops
    obtain ⟨hkeys, hend⟩ := List.append_inj' hops.2 rfl
    obtain rfl := hops.1.1
    simp only [List.cons.injEq, Prod.mk.injEq, and_true] at hend
    obtain rfl := hend
    subst hkeys
    have hm' := UInt8.le_iff_toNat_le.1 hm
    rw [show (0x51 : UInt8).toNat = 0x51 from rfl] at hm'
    have hmn' := UInt8.le_iff_toNat_le.1 hmn
    rw [multisigOk_solutions, UInt8.le_iff_toNat_le, UInt8.le_iff_toNat_le,
      decodeOpN_toNat h.small_m, decodeOpN_toNat h.small_n]
    show 1 ≤ _ ∧ _
    omega

/-- What `Solver` leaves when a script does not fit its counts. -/
theorem solverRet_miscounted {s : CScript} {ops keys : List (UInt8 × Valtype)} {m n : UInt8}
    (hreads : s.Reads ops []) (hform : MultisigForm ops m n keys)
    (hbad : multisigOk (multisigSolutions m n keys) = false) :
    solverRet s [] = (false, .multisig, multisigSolutions m n keys) := by
  have hnone : ∀ t r, ¬ Shape s t r := by
    rintro t r ⟨ops', hreads', ht⟩
    obtain rfl := hreads.unique hreads'
    exact absurd (hform.of_template ht) (by simp [hbad])
  rw [solverRet]
  split
  · next h => exact absurd (solver_iff.1 (by rw [solver, if_pos h])) (hnone _ _)
  next hp2sh =>
  split
  · next h => exact absurd (solver_iff.1 (by rw [solver, if_neg hp2sh, if_pos h])) (hnone _ _)
  simp only [templates, scanTemplatesRet, List.length_cons, List.length_nil]
  split
  · split
    · rw [hform.matchTemplate hreads 1]
      exact if_pos ⟨trivial, hbad⟩
    · next r h => exact absurd (shape_pubkeyhash h) (hnone _ _)
  · next r h => exact absurd (shape_pubkey h) (hnone _ _)

/-- **The exits of `Solver` with `false`**: one leaves the type and what was collected. -/
theorem solverRet_false {s : CScript} :
    (∀ t r, solverRet s [] = (false, t, r) → t = .nonstandard ∧ r = []) ↔ ¬ Miscounted s := by
  constructor
  · rintro h ⟨ops, m, n, keys, hreads, hform, hbad⟩
    rw [← multisigOk_solutions, Bool.not_eq_true] at hbad
    exact absurd (h _ _ (solverRet_miscounted hreads hform hbad)).1 (by simp)
  · intro hcounts t r h
    rw [solverRet] at h
    split at h
    · cases h
    split at h
    · cases h
    simp only [templates, scanTemplatesRet, List.length_cons, List.length_nil] at h
    split at h
    · split at h
      · split at h
        · cases h
          exact ⟨rfl, rfl⟩
        · next r' hmatch =>
          split at h
          · next hbad =>
            obtain ⟨ops, m, n, keys, hreads, hform, rfl⟩ := form_multisig hmatch
            refine absurd ⟨ops, m, n, keys, hreads, hform, fun hok => ?_⟩ hcounts
            exact absurd ((multisigOk_solutions m n keys).2 hok) (by simp [hbad.2])
          · cases h
      · rw [if_neg (by simp)] at h
        cases h
    · rw [if_neg (by simp)] at h
      cases h

/-- **`Solver` and its builders.**  It accepts the instances of its templates, with the solutions in
order; `ExtractDestination` inverts `GetScriptForDestination`; the keys of `GetScriptForMultisig` are
recovered when they are valid; and when it fails it leaves nothing, unless the script is one for
`OP_CHECKMULTISIG` whose integers do not fit its keys. -/
theorem solver_exact (s : CScript) :
    (∀ t r, solverRet s [] = (true, t, r) ↔ Shape s t r) ∧
    (∀ hash160 d, extractDestination hash160 (getScriptForDestination d) = some d) ∧
    (∀ (m : ℕ) (keys : List CPubKey), 1 ≤ m → m ≤ keys.length → keys.length ≤ 16 →
      (solverRet (getScriptForMultisig m keys) [] = (true, .multisig, [UInt8.ofNat m] ::
          (keys.map CPubKey.vch ++ [[UInt8.ofNat keys.length]])) ↔
        ∀ key ∈ keys, isValidPubKey key.vch = true)) ∧
    ((∀ t r, solverRet s [] = (false, t, r) → t = .nonstandard ∧ r = []) ↔ ¬ Miscounted s) := by
  refine ⟨fun t r => solverRet_true.trans solver_iff, extractDestination_getScriptForDestination,
    fun m keys hm hmn hn => ?_, solverRet_false⟩
  rw [solverRet_true]
  exact solver_getScriptForMultisig hm hmn hn

/-- A destination, and a script of one key. -/
theorem solver_exact_one :
    extractDestination (fun _ => 0) (getScriptForDestination (.scriptID 7)) = some (.scriptID 7) ∧
    solverRet (getScriptForMultisig 1 [⟨2 :: List.replicate 32 1, .inl (by decide)⟩]) [] =
      (true, .multisig, [[1], 2 :: List.replicate 32 1, [1]]) :=
  ⟨(solver_exact []).2.1 _ _, ((solver_exact []).2.2.1 1 _ (by decide) (by decide) (by decide)).2
    (by decide)⟩

/-- `1 1 OP_CHECKMULTISIG`, a script without keys. -/
theorem solver_leaves_multisig : ¬ ∀ s t r, solverRet s [] = (false, t, r) →
    t = .nonstandard ∧ r = [] := by
  intro h
  exact absurd (h [0x51, 0x51, 0xae] .multisig [[1], [1]] (by decide)).1 (by decide)

end FairCoin
