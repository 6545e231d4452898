import FairCoin.ScriptMachine

/-!
# What the script machine reads

The accesses of `FairCoin.ScriptMachine` against the interpreter of `FairCoin.Script`, which has
neither positions nor exceptions.

* `Agrees` — the machine ends as the interpreter does, and of the ways to halt early it uses only the
  errors that are returned and `scriptnum_error`.
* `read_range` — a number that is read is in the range that the comment on `CScriptNum` gives, so
  nothing overflows (`unary_eq`, `binary_eq`).
* `getOp2_spec`, `findAndDelete_eq` — `GetOp2` and `FindAndDelete` stay inside of the script.
-/

namespace FairCoin

open Machine

/-! ## Agreement -/

/-- The machine ends as the interpreter does, and not on a defect. -/
inductive Agrees {α β : Type} (R : α → β → Prop) : Except Halt α → Except ScriptError β → Prop
  | ok {a : α} {b : β} (h : R a b) : Agrees R (.ok a) (.ok b)
  | error (e : ScriptError) : Agrees R (.error (.error e)) (.error e)
  | scriptNum : Agrees R (.error .scriptNum) (.error .unknownError)

namespace Agrees

variable {α β γ δ : Type} {R : α → β → Prop} {S : γ → δ → Prop}

theorem bind {x : Except Halt α} {y : Except ScriptError β} (h : Agrees R x y)
    {f : α → Except Halt γ} {g : β → Except ScriptError δ}
    (hfg : ∀ a b, R a b → Agrees S (f a) (g b)) : Agrees S (x.bind f) (y.bind g) := by
  cases h with
  | ok h => exact hfg _ _ h
  | error e => exact .error e
  | scriptNum => exact .scriptNum

theorem mono {x : Except Halt α} {y : Except ScriptError β} {T : α → β → Prop} (h : Agrees R x y)
    (hRT : ∀ a b, R a b → T a b) : Agrees T x y := by
  cases h with
  | ok h => exact .ok (hRT _ _ h)
  | error e => exact .error e
  | scriptNum => exact .scriptNum

end Agrees

/-! ## Numbers -/

theorem ofDigits_bytes_lt (l : List UInt8) :
    Nat.ofDigits 256 (l.map UInt8.toNat) < 256 ^ l.length := by
  have h := Nat.ofDigits_lt_base_pow_length (b := 256) (l := l.map UInt8.toNat) (by decide)
    fun x hx => by
      obtain ⟨b, -, rfl⟩ := List.mem_map.1 hx
      exact b.toNat_lt
  rwa [List.length_map] at h

/-- A number of so many bytes, the last of which has the sign. -/
theorem setVch_concat (l : List UInt8) (b : UInt8) :
    |CScriptNum.setVch (l ++ [b])| < 0x80 * 256 ^ l.length := by
  have hb : b.toNat < 256 := b.toNat_lt
  have hnat : Nat.ofDigits 256 ((l ++ [b]).map UInt8.toNat) =
      Nat.ofDigits 256 (l.map UInt8.toNat) + 256 ^ l.length * b.toNat := by
    rw [List.map_append, Nat.ofDigits_append, List.length_map]
    simp [Nat.ofDigits_singleton]
  have hval : Nat.ofDigits (256 : ℤ) ((l ++ [b]).map UInt8.toNat) =
      (Nat.ofDigits 256 (l.map UInt8.toNat) : ℕ) + 256 ^ l.length * b.toNat := by
    have h := congrArg (Nat.cast : ℕ → ℤ) hnat
    push_cast [Nat.coe_ofDigits] at h ⊢
    exact h
  have hl : ((Nat.ofDigits 256 (l.map UInt8.toNat) : ℕ) : ℤ) < 256 ^ l.length := by
    exact_mod_cast ofDigits_bytes_lt l
  simp only [CScriptNum.setVch, List.getLast?_append, List.getLast?_singleton, Option.some_or,
    hval, List.length_append, List.length_singleton, Nat.add_sub_cancel]
  generalize Nat.ofDigits 256 (l.map UInt8.toNat) = o at hl
  have hpow : (0 : ℤ) < 256 ^ l.length := by positivity
  split
  · next hge =>
    have hge' : 128 ≤ b.toNat := UInt8.le_iff_toNat_le.1 hge
    rw [abs_neg, abs_lt]
    constructor <;> nlinarith
  · next hlt =>
    have hlt' : b.toNat < 128 := not_le.1 fun h => hlt (UInt8.le_iff_toNat_le.2 h)
    rw [abs_lt]
    constructor <;> nlinarith

/-- **Operands are in the range that the comment on `CScriptNum` gives.** -/
theorem read_range {f : Bool} {vch : Valtype} {n : ℤ} (h : CScriptNum.read f vch = some n) :
    -2 ^ 31 + 1 ≤ n ∧ n ≤ 2 ^ 31 - 1 := by
  unfold CScriptNum.read at h
  split at h
  · cases h
  · next hlen =>
    split at h
    · cases h
    · cases h
      rcases List.eq_nil_or_concat vch with rfl | ⟨l, b, rfl⟩
      · decide
      · rw [List.concat_eq_append] at hlen ⊢
        have habs := abs_lt.1 (setVch_concat l b)
        have hle : l.length ≤ 3 := by
          rw [List.length_append, List.length_singleton] at hlen
          omega
        have hpow : (256 : ℤ) ^ l.length ≤ 256 ^ 3 := pow_le_pow_right₀ (by norm_num) hle
        constructor <;> linarith

/-- In the range of operands. -/
def IsOperand (n : ℤ) : Prop := -2 ^ 31 + 1 ≤ n ∧ n ≤ 2 ^ 31 - 1

theorem scriptNum_agrees (flags : VerifyFlags) (vch : Valtype) :
    Agrees (fun a b => a = b ∧ IsOperand a) (scriptNum flags vch) (readNum flags vch) := by
  unfold scriptNum readNum
  cases h : CScriptNum.read flags.minimalData vch with
  | none => exact .scriptNum
  | some n =>
    dsimp only
    rw [if_pos (read_range h)]
    exact .ok ⟨rfl, read_range h⟩

theorem int64_eq {n : ℤ} (h : -2 ^ 63 ≤ n ∧ n ≤ 2 ^ 63 - 1) : int64 n = .ok n := if_pos h

theorem getvch_eq {n : ℤ} (h : -2 ^ 32 ≤ n) : getvch n = .ok (CScriptNum.serialize n) := by
  unfold getvch
  split
  · rw [int64_eq (by omega)]
    rfl
  · rfl

theorem unary_eq (op : UnaryOp) {n : ℤ} (h : IsOperand n) : unary op n = .ok (op.apply n) := by
  obtain ⟨hlo, hhi⟩ := h
  have hneg : negate n = .ok (-n) := by
    rw [negate, if_pos (by omega), int64_eq (by omega)]
  cases op with
  | add1 => exact (if_pos (by omega)).trans (int64_eq (by omega))
  | sub1 => exact (if_pos (by omega)).trans (int64_eq (by omega))
  | negate => exact hneg
  | abs =>
    show (if n < 0 then negate n else .ok n) = .ok (if n < 0 then -n else n)
    rw [hneg]
    split <;> rfl
  | not => rfl
  | notEqual0 => rfl

theorem binary_eq (op : BinaryOp) {m n : ℤ} (hm : IsOperand m) (hn : IsOperand n) :
    binary op m n = .ok (op.apply m n) := by
  obtain ⟨hm₁, hm₂⟩ := hm
  obtain ⟨hn₁, hn₂⟩ := hn
  cases op with
  | add => exact int64_eq (by omega)
  | sub => exact int64_eq (by omega)
  | _ => rfl

theorem unary_apply_range (op : UnaryOp) {n : ℤ} (h : IsOperand n) : -2 ^ 32 ≤ op.apply n := by
  obtain ⟨hlo, hhi⟩ := h
  cases op <;> simp only [UnaryOp.apply] <;> (try split) <;> omega

theorem binary_apply_range (op : BinaryOp) {m n : ℤ} (hm : IsOperand m) (hn : IsOperand n) :
    -2 ^ 32 ≤ op.apply m n := by
  obtain ⟨hm₁, hm₂⟩ := hm
  obtain ⟨hn₁, hn₂⟩ := hn
  cases op <;> simp only [BinaryOp.apply] <;> (try split) <;> omega

theorem getint_eq {n : ℤ} (h : IsOperand n) : getint n = n := by
  obtain ⟨hlo, hhi⟩ := h
  rw [getint, if_neg (by omega), if_neg (by omega)]

/-! ## Vectors -/

theorem stacktop_eq {stack rest : List Valtype} {a : ℕ} {vch : Valtype}
    (h : stack.drop a = vch :: rest) {i : ℤ} (hi : i = -a - 1) : stacktop stack i = .ok vch := by
  have hget : stack[a]? = some vch := by
    have hdrop : (stack.drop a)[0]? = stack[a + 0]? := List.getElem?_drop
    rw [h] at hdrop
    exact hdrop.symm
  have hpos : (-i - 1).toNat = a := by omega
  rw [stacktop, if_pos (by omega), hpos, hget]

theorem popMany_eq (n : ℕ) : ∀ stack : List Valtype, n ≤ stack.length →
    popMany n stack = .ok (stack.drop n) := by
  induction n with
  | zero => exact fun _ _ => rfl
  | succ n ih =>
    intro stack h
    cases stack with
    | nil => simp at h
    | cons vch stack => exact ih stack (Nat.le_of_succ_le_succ h)

theorem needInt_of_le {i : ℤ} {stack : List Valtype} (hsize : stack.length ≤ 1000)
    (h : i ≤ stack.length) : needInt i stack = .ok () := by
  rw [needInt, wrap32, Int.bmod_def, if_neg (by omega)]

theorem needInt_of_lt {i : ℤ} {stack : List Valtype} (hsize : stack.length ≤ 1000)
    (h : stack.length < i) : needInt i stack = .error (.error .invalidStackOperation) := by
  rw [needInt, wrap32, Int.bmod_def, if_pos (by omega)]

/-! ## Positions in the script -/

section Positions

variable {script : CScript}

theorem readByte_eq {pc : ℕ} {b : UInt8} {rest : CScript} (h : script.drop pc = b :: rest) :
    readByte script pc = .ok b := by
  have hget : script[pc]? = some b := by
    have hdrop : (script.drop pc)[0]? = script[pc + 0]? := List.getElem?_drop
    rw [h] at hdrop
    exact hdrop.symm
  rw [readByte, hget]

theorem drop_succ {pc : ℕ} {b : UInt8} {rest : CScript} (h : script.drop pc = b :: rest) :
    script.drop (pc + 1) = rest := by
  rw [← List.drop_drop, h]
  rfl

theorem lt_length_of_drop {pc : ℕ} {b : UInt8} {rest : CScript} (h : script.drop pc = b :: rest) :
    pc < script.length := by
  by_contra hge
  rw [List.drop_eq_nil_of_le (not_lt.1 hge)] at h
  cases h

/-- The result of `GetOp` on a suffix, as `GetOp2` gives it on a position. -/
def AtPosition (script : CScript) (pc : ℕ) (r : Except Halt (Option (UInt8 × Valtype × ℕ)))
    (op : Option (UInt8 × List UInt8 × CScript)) : Prop :=
  (r = .ok none ∧ op = none) ∨
  ∃ opcode vch pc', r = .ok (some (opcode, vch, pc')) ∧ op = some (opcode, vch, script.drop pc') ∧
    pc < pc' ∧ pc' ≤ script.length

/-- The immediate operand is read inside of the script. -/
theorem getOperand_spec (hlen : script.length ≤ 10000) (opcode : UInt8) {pc₀ pc nSize : ℕ}
    (hpc₀ : pc₀ < pc) (hpc : pc ≤ script.length) :
    AtPosition script pc₀ (getOperand script opcode pc nSize)
      (if (script.drop pc).length < nSize then none
        else some (opcode, (script.drop pc).take nSize, (script.drop pc).drop nSize)) := by
  rw [getOperand, List.length_drop, Nat.mod_eq_of_lt (by omega)]
  by_cases h : script.length - pc < nSize
  · rw [if_pos (.inr h), if_pos h]
    exact .inl ⟨rfl, rfl⟩
  · rw [if_neg (by omega), if_neg h, readRange, if_pos (by omega), List.drop_drop]
    exact .inr ⟨opcode, _, pc + nSize, rfl, rfl, by omega, by omega⟩

theorem getOp2_spec (hlen : script.length ≤ 10000) (pc : ℕ) :
    AtPosition script pc (getOp2 script pc) (CScript.getOp (script.drop pc)) := by
  rw [getOp2]
  by_cases hend : script.length ≤ pc
  · rw [if_pos hend, List.drop_eq_nil_of_le hend]
    exact .inl ⟨rfl, rfl⟩
  rw [if_neg hend]
  have hlt := not_le.1 hend
  obtain ⟨opcode, rest, hdrop⟩ : ∃ b rest, script.drop pc = b :: rest := by
    cases h : script.drop pc with
    | nil =>
      have := List.length_drop (i := pc) (l := script)
      rw [h, List.length_nil] at this
      omega
    | cons b rest => exact ⟨b, rest, rfl⟩
  have hrest := drop_succ hdrop
  have hrestlen : rest.length = script.length - (pc + 1) := by rw [← hrest, List.length_drop]
  rw [readByte_eq hdrop, hdrop]
  show AtPosition script pc (if opcode < 0x4c then _ else _) (CScript.getOp (opcode :: rest))
  simp only [CScript.getOp]
  by_cases h₁ : opcode < 0x4c
  · rw [if_pos h₁, if_pos h₁, ← hrest]
    exact getOperand_spec hlen opcode (Nat.lt_succ_self pc) hlt
  rw [if_neg h₁, if_neg h₁]
  by_cases h₂ : opcode = 0x4c
  · rw [if_pos h₂, if_pos h₂]
    rcases rest with _ | ⟨a, rest⟩
    · rw [if_pos (by simp at hrestlen; omega)]
      exact .inl ⟨rfl, rfl⟩
    · rw [if_neg (by simp at hrestlen; omega)]
      have hn : readNumber script (pc + 1) 1 = .ok (a.toNat + 256 * 0) := by
        rw [readNumber, readByte_eq hrest]
        rfl
      rw [hn, ← drop_succ hrest]
      exact getOperand_spec hlen opcode (by omega) (by simp at hrestlen; omega)
  rw [if_neg h₂, if_neg h₂]
  by_cases h₃ : opcode = 0x4d
  · rw [if_pos h₃, if_pos h₃]
    rcases rest with _ | ⟨a, _ | ⟨b, rest⟩⟩
    · rw [if_pos (by simp at hrestlen; omega)]
      exact .inl ⟨rfl, rfl⟩
    · rw [if_pos (by simp at hrestlen; omega)]
      exact .inl ⟨rfl, rfl⟩
    · rw [if_neg (by simp at hrestlen; omega)]
      have hn : readNumber script (pc + 1) 2 = .ok (a.toNat + 256 * b.toNat) := by
        rw [readNumber, readByte_eq hrest, readNumber, readByte_eq (drop_succ hrest)]
        rfl
      rw [hn, ← drop_succ (drop_succ hrest)]
      exact getOperand_spec hlen opcode (by omega) (by simp at hrestlen; omega)
  rw [if_neg h₃, if_neg h₃]
  by_cases h₄ : opcode = 0x4e
  · rw [if_pos h₄, if_pos h₄]
    rcases rest with _ | ⟨a, _ | ⟨b, _ | ⟨c, _ | ⟨d, rest⟩⟩⟩⟩
    iterate 4
      · rw [if_pos (by simp at hrestlen; omega)]
        exact .inl ⟨rfl, rfl⟩
    · rw [if_neg (by simp at hrestlen; omega)]
      have hrest₃ := drop_succ (drop_succ (drop_succ hrest))
      have hn : readNumber script (pc + 1) 4 =
          .ok (a.toNat + 256 * b.toNat + 65536 * c.toNat + 16777216 * d.toNat) := by
        rw [readNumber, readByte_eq hrest, readNumber, readByte_eq (drop_succ hrest), readNumber,
          readByte_eq (drop_succ (drop_succ hrest)), readNumber, readByte_eq hrest₃]
        refine congrArg Except.ok ?_
        show a.toNat + 256 * (b.toNat + 256 * (c.toNat + 256 * (d.toNat + 256 * 0))) = _
        omega
      rw [hn, ← drop_succ hrest₃]
      exact getOperand_spec hlen opcode (by omega) (by simp at hrestlen; omega)
  rw [if_neg h₄, if_neg h₄, ← hrest]
  exact .inr ⟨opcode, [], pc + 1, rfl, rfl, Nat.lt_succ_self pc, hlt⟩

end Positions

/-! ## Deleting from the script -/

/-- The loop of `FindAndDelete` at a position agrees with that on the rest of the script. -/
theorem findAndDeleteLoop_eq {b : CScript} (hb : b ≠ []) (n : ℕ) : ∀ (script : CScript) (pc : ℕ),
    script.length ≤ 10000 → pc ≤ script.length → script.length - pc < n →
    Machine.findAndDeleteLoop b n script pc =
      .ok (script.take pc ++ CScript.findAndDeleteLoop b n (script.drop pc)) := by
  induction n with
  | zero => exact fun _ _ _ _ h => absurd h (Nat.not_lt_zero _)
  | succ n ih =>
    intro script pc hlen hpc hfuel
    have hblen : 0 < b.length := List.length_pos_iff.2 hb
    rw [Machine.findAndDeleteLoop, CScript.findAndDeleteLoop]
    by_cases hpre : pc + b.length ≤ script.length ∧ (script.drop pc).take b.length = b
    · have hprefix : b.isPrefixOf (script.drop pc) = true := by
        rw [List.isPrefixOf_iff_prefix]
        exact ⟨(script.drop pc).drop b.length, by
          conv_lhs => rw [← hpre.2, List.length_take, List.length_drop]
          rw [Nat.min_eq_left (by omega)]
          exact List.take_append_drop _ _⟩
      have hpos : (script.take pc ++ script.drop (pc + b.length)).length =
          script.length - b.length := by
        rw [List.length_append, List.length_take, List.length_drop]
        omega
      rw [if_pos hpre, if_pos hprefix, ih _ _ (by omega) (by omega) (by omega),
        List.take_append_of_le_length (by rw [List.length_take]; omega),
        List.take_take, Nat.min_self, List.drop_append_of_le_length (by rw [List.length_take]; omega),
        List.drop_eq_nil_of_le (by rw [List.length_take]; omega), List.nil_append, List.drop_drop]
    · have hnot : ¬ b.isPrefixOf (script.drop pc) = true := by
        rw [List.isPrefixOf_iff_prefix]
        rintro ⟨rest, hrest⟩
        have hl := congrArg List.length hrest
        rw [List.length_append, List.length_drop] at hl
        refine hpre ⟨by omega, ?_⟩
        rw [← hrest]
        exact List.take_left
      rw [if_neg hpre, if_neg hnot]
      rcases getOp2_spec hlen pc with ⟨h₁, h₂⟩ | ⟨opcode, vch, pc', h₁, h₂, hlt, hle⟩
      · rw [h₁, h₂]
        show Except.ok script = .ok (script.take pc ++ script.drop pc)
        rw [List.take_append_drop]
      · rw [h₁, h₂]
        show Machine.findAndDeleteLoop b n script pc' = .ok (script.take pc ++
          ((script.drop pc).take ((script.drop pc).length - (script.drop pc').length) ++
            CScript.findAndDeleteLoop b n (script.drop pc')))
        rw [ih script pc' hlen hle (by omega), ← List.append_assoc]
        refine congrArg (fun l => Except.ok (l ++ _)) ?_
        rw [List.length_drop, List.length_drop, ← List.take_add]
        congr 1
        omega

theorem findAndDelete_eq {script : CScript} (hlen : script.length ≤ 10000) (b : CScript) :
    Machine.findAndDelete script b = .ok (script.findAndDelete b) := by
  rw [Machine.findAndDelete, CScript.findAndDelete]
  split
  · rfl
  · next hb =>
    rw [findAndDeleteLoop_eq hb _ script 0 hlen (Nat.zero_le _) (by omega)]
    rfl

/-- Every opcode takes a byte at least. -/
theorem getOp_length_lt {pc rest : CScript} {opcode : UInt8} {vch : Valtype}
    (h : CScript.getOp pc = some (opcode, vch, rest)) : rest.length < pc.length := by
  have push : ∀ (b : UInt8) (nSize : ℕ) (l : CScript), (if l.length < nSize then none
      else some (b, l.take nSize, l.drop nSize)) = some (opcode, vch, rest) →
      rest.length ≤ l.length := by
    intro b nSize l hl
    split at hl
    · cases hl
    · cases hl
      rw [List.length_drop]
      omega
  cases pc with
  | nil => cases h
  | cons b pc =>
    rw [List.length_cons, Nat.lt_succ_iff]
    simp only [CScript.getOp] at h
    split at h
    · exact push b _ pc h
    split at h
    · split at h
      · next a pc =>
        have := push b _ pc h
        simp only [List.length_cons]
        omega
      · cases h
    split at h
    · split at h
      · next a₁ a₂ pc =>
        have := push b _ pc h
        simp only [List.length_cons]
        omega
      · cases h
    split at h
    · split at h
      · next a₁ a₂ a₃ a₄ pc =>
        have := push b _ pc h
        simp only [List.length_cons]
        omega
      · cases h
    · cases h
      exact le_rfl

/-- Deleting makes no script longer. -/
theorem length_findAndDeleteLoop_le (b : CScript) (n : ℕ) : ∀ pc : CScript,
    (CScript.findAndDeleteLoop b n pc).length ≤ pc.length := by
  induction n with
  | zero => exact fun _ => le_rfl
  | succ n ih =>
    intro pc
    rw [CScript.findAndDeleteLoop]
    split
    · exact (ih _).trans (by rw [List.length_drop]; omega)
    · split
      · exact le_rfl
      · next rest hop =>
        have hle := ih rest
        rw [List.length_append, List.length_take]
        have : rest.length ≤ pc.length := by
          exact (getOp_length_lt hop).le
        omega

theorem length_findAndDelete_le (script b : CScript) :
    (script.findAndDelete b).length ≤ script.length := by
  rw [CScript.findAndDelete]
  split
  · exact le_rfl
  · exact length_findAndDeleteLoop_le b _ script

end FairCoin
