import FairCoin.ScriptRuns

/-!
# Script numbers and pushes

`CScriptNum`, `CScript::push_int64` and `CScript::operator<<` of `src/script/script.h`, and
`CastToBool` of `src/script/interpreter.cpp`.

* `setVch_concat_eq`, `isMinimal_concat` — a number by its last byte, which has the sign.
* `setVch_serialize`, `serialize_setVch` — the two directions between numbers and minimal bytes.
* `castToBool_iff` — truth is not being zero, for every encoding.
* `getOp_pushData_all` — a push of any length is read back.
* `scriptNumbers_canonical` — **numbers and pushes are canonical**.
-/

namespace FairCoin

/-! ## The last byte -/

/-- The number of the bytes before the last one. -/
def lowPart (l : List UInt8) : ℕ := Nat.ofDigits 256 (l.map UInt8.toNat)

theorem lowPart_concat (l : List UInt8) (b : UInt8) :
    lowPart (l ++ [b]) = lowPart l + 256 ^ l.length * b.toNat := by
  rw [lowPart, List.map_append, Nat.ofDigits_append, List.length_map]
  simp [lowPart, Nat.ofDigits_singleton]

theorem lowPart_eq_zero : ∀ {l : List UInt8}, lowPart l = 0 ↔ ∀ b ∈ l, b = 0 := by
  intro l
  induction l with
  | nil => simp [lowPart]
  | cons b l ih =>
    have hcons : lowPart (b :: l) = b.toNat + 256 * lowPart l := by
      simp [lowPart, Nat.ofDigits_cons]
    rw [hcons, List.forall_mem_cons, ← ih, ← UInt8.toNat_inj]
    show _ ↔ b.toNat = 0 ∧ _
    omega

theorem lowPart_pos (l : List UInt8) {b : UInt8} (hb : b ≠ 0) : 0 < lowPart (l ++ [b]) := by
  refine Nat.pos_of_ne_zero fun h0 => hb ?_
  exact lowPart_eq_zero.1 h0 b (by simp)

/-- A number by its last byte: seven bits of it count, and the eighth is the sign. -/
theorem setVch_concat_eq (l : List UInt8) (b : UInt8) : CScriptNum.setVch (l ++ [b]) =
    if 128 ≤ b.toNat then -((lowPart l + 256 ^ l.length * (b.toNat - 128) : ℕ) : ℤ)
    else ((lowPart l + 256 ^ l.length * b.toNat : ℕ) : ℤ) := by
  have hval : Nat.ofDigits (256 : ℤ) ((l ++ [b]).map UInt8.toNat) =
      ((lowPart l + 256 ^ l.length * b.toNat : ℕ) : ℤ) := by
    rw [← lowPart_concat, lowPart, Nat.coe_ofDigits]
    rfl
  simp only [CScriptNum.setVch, List.getLast?_append, List.getLast?_singleton, Option.some_or,
    hval, List.length_append, List.length_singleton, Nat.add_sub_cancel, UInt8.le_iff_toNat_le]
  have h128 : (0x80 : UInt8).toNat = 128 := rfl
  rw [h128]
  split
  · next hge =>
    push_cast [Nat.cast_sub hge]
    ring
  · rfl

set_option maxRecDepth 4096 in
theorem and_0x7f (b : UInt8) : b &&& 0x7f ≠ 0 ↔ b.toNat % 128 ≠ 0 := by
  have hall : ∀ n : Fin 256, UInt8.ofNat n &&& 0x7f ≠ 0 ↔ n.val % 128 ≠ 0 := by decide
  have h := hall ⟨b.toNat, b.toNat_lt⟩
  rwa [UInt8.ofNat_toNat] at h

set_option maxRecDepth 4096 in
theorem and_0x80 (b : UInt8) : b &&& 0x80 ≠ 0 ↔ 128 ≤ b.toNat := by
  have hall : ∀ n : Fin 256, UInt8.ofNat n &&& 0x80 ≠ 0 ↔ 128 ≤ n.val := by decide
  have h := hall ⟨b.toNat, b.toNat_lt⟩
  rwa [UInt8.ofNat_toNat] at h

set_option maxRecDepth 4096 in
theorem toNat_or_0x80 {b : UInt8} (hb : b.toNat < 128) : (b ||| 0x80).toNat = b.toNat + 128 := by
  have hall : ∀ n : Fin 256, n.val < 128 → (UInt8.ofNat n ||| 0x80).toNat = n.val + 128 := by decide
  have h := hall ⟨b.toNat, b.toNat_lt⟩ hb
  rwa [UInt8.ofNat_toNat] at h

/-- A number is minimal if its last byte counts, or the sign had no place in the byte before. -/
theorem isMinimal_concat (l : List UInt8) (b : UInt8) : CScriptNum.isMinimal (l ++ [b]) = true ↔
    b.toNat % 128 ≠ 0 ∨ ∃ c, l.getLast? = some c ∧ 128 ≤ c.toNat := by
  rcases List.eq_nil_or_concat l with rfl | ⟨l, c, rfl⟩
  · simp [CScriptNum.isMinimal, ← and_0x7f]
  · rw [List.concat_eq_append]
    simp [CScriptNum.isMinimal, ← and_0x7f, ← and_0x80]

/-! ## Numbers and bytes -/

/-- What `serialize` makes of the bytes of an absolute value. -/
theorem serialize_eq {n : ℤ} {l : List UInt8} {d : UInt8} (hd : d ≠ 0)
    (hn : n.natAbs = lowPart (l ++ [d])) : CScriptNum.serialize n =
      if 128 ≤ d.toNat then l ++ [d] ++ [if n < 0 then 0x80 else 0]
      else if n < 0 then l ++ [d ||| 0x80] else l ++ [d] := by
  have hdigits : (Nat.digits 256 n.natAbs).map UInt8.ofNat = l ++ [d] := by
    rw [hn, lowPart, Nat.digits_ofDigits 256 (by decide), List.map_map]
    · have hid : UInt8.ofNat ∘ UInt8.toNat = id := funext fun b => UInt8.ofNat_toNat
      rw [hid, List.map_id]
    · intro x hx
      obtain ⟨b, -, rfl⟩ := List.mem_map.1 hx
      exact b.toNat_lt
    · intro hne
      simp only [List.map_append, List.map_singleton, List.getLast_append_singleton]
      intro h0
      exact hd (UInt8.toNat_inj.1 h0)
  have hle : (0x80 : UInt8) ≤ d ↔ 128 ≤ d.toNat := UInt8.le_iff_toNat_le
  simp only [CScriptNum.serialize, hdigits, List.getLast?_append, List.getLast?_singleton,
    Option.some_or, hle, decide_eq_true_eq, List.dropLast_concat]

/-- The bytes of the absolute value of a number that is not zero. -/
theorem exists_bytes {n : ℤ} (hn : n ≠ 0) :
    ∃ (l : List UInt8) (d : UInt8), d ≠ 0 ∧ n.natAbs = lowPart (l ++ [d]) := by
  have habs : n.natAbs ≠ 0 := Int.natAbs_ne_zero.2 hn
  have hne : Nat.digits 256 n.natAbs ≠ [] := Nat.digits_ne_nil_iff_ne_zero.2 habs
  have hlast := Nat.getLast_digit_ne_zero 256 habs
  have hlt : ∀ x ∈ Nat.digits 256 n.natAbs, x < 256 := fun x hx =>
    Nat.digits_lt_base (by decide) hx
  have hback : ((Nat.digits 256 n.natAbs).map UInt8.ofNat).map UInt8.toNat =
      Nat.digits 256 n.natAbs := by
    rw [List.map_map]
    refine (List.map_congr_left fun x hx => ?_).trans (List.map_id _)
    exact ofNat_toNat_of_lt (hlt x hx)
  obtain ⟨D, x, hD⟩ := (List.eq_nil_or_concat (Nat.digits 256 n.natAbs)).resolve_left hne
  rw [List.concat_eq_append] at hD
  refine ⟨D.map UInt8.ofNat, UInt8.ofNat x, fun h0 => ?_, ?_⟩
  · have hx : x < 256 := hlt x (by rw [hD]; simp)
    have hx0 : (UInt8.ofNat x).toNat = 0 := by rw [h0]; rfl
    rw [ofNat_toNat_of_lt hx] at hx0
    simp only [hD, List.getLast_append_singleton] at hlast
    exact hlast hx0
  · have hmap : D.map UInt8.ofNat ++ [UInt8.ofNat x] =
        (Nat.digits 256 n.natAbs).map UInt8.ofNat := by rw [hD, List.map_append, List.map_singleton]
    rw [hmap, lowPart, hback, Nat.ofDigits_digits]

/-- **A number comes back**, and its bytes are minimal. -/
theorem setVch_serialize (n : ℤ) : CScriptNum.setVch (CScriptNum.serialize n) = n ∧
    CScriptNum.isMinimal (CScriptNum.serialize n) = true := by
  by_cases hn : n = 0
  · subst hn
    decide
  · obtain ⟨l, d, hd, habs⟩ := exists_bytes hn
    have hdpos : d.toNat ≠ 0 := fun h0 => hd (UInt8.toNat_inj.1 h0)
    rw [serialize_eq hd habs]
    split
    · next hge =>
      rw [setVch_concat_eq, isMinimal_concat, ← habs]
      refine ⟨?_, .inr ⟨d, by simp, hge⟩⟩
      by_cases hneg : n < 0
      · have h0 : (0x80 : UInt8).toNat - 128 = 0 := rfl
        rw [if_pos hneg, if_pos (by decide), h0, Nat.mul_zero, Nat.add_zero]
        omega
      · have h0 : (0 : UInt8).toNat = 0 := rfl
        rw [if_neg hneg, if_neg (by decide), h0, Nat.mul_zero, Nat.add_zero]
        omega
    · next hlt =>
      rw [lowPart_concat] at habs
      split
      · next hneg =>
        have hor := toNat_or_0x80 (b := d) (by omega)
        rw [setVch_concat_eq, isMinimal_concat, hor, if_pos (by omega), Nat.add_sub_cancel, ← habs]
        exact ⟨by omega, .inl (by omega)⟩
      · next hpos =>
        rw [setVch_concat_eq, isMinimal_concat, if_neg (by omega), ← habs]
        exact ⟨by omega, .inl (by omega)⟩

/-- **Minimal bytes come back.** -/
theorem serialize_setVch {v : Valtype} (h : CScriptNum.isMinimal v = true) :
    CScriptNum.serialize (CScriptNum.setVch v) = v := by
  rcases List.eq_nil_or_concat v with rfl | ⟨l, b, rfl⟩
  · decide
  · rw [List.concat_eq_append] at h ⊢
    have hb := b.toNat_lt
    have hval := setVch_concat_eq l b
    by_cases hm : b.toNat % 128 = 0
    · -- the last byte has the sign only
      obtain ⟨c, hc, hge⟩ := ((isMinimal_concat l b).1 h).resolve_left (not_not.2 hm)
      obtain ⟨l', rfl⟩ : ∃ l', l = l' ++ [c] := List.getLast?_eq_some_iff.1 hc
      have hc0 : c ≠ 0 := by
        rintro rfl
        exact absurd hge (by decide)
      have hpos : 0 < lowPart (l' ++ [c]) := lowPart_pos l' hc0
      by_cases hneg : 128 ≤ b.toNat
      · have h0 : b.toNat - 128 = 0 := by omega
        have hb' : b = 0x80 := UInt8.toNat_inj.1 (by show b.toNat = 128; omega)
        rw [if_pos hneg, h0, Nat.mul_zero, Nat.add_zero] at hval
        rw [hval, serialize_eq (l := l') hc0 (by omega), if_pos hge, if_pos (by omega), hb']
      · have h0 : b.toNat = 0 := by omega
        have hb' : b = 0 := UInt8.toNat_inj.1 h0
        rw [if_neg hneg, h0, Nat.mul_zero, Nat.add_zero] at hval
        rw [hval, serialize_eq (l := l') hc0 (by omega), if_pos hge, if_neg (by omega), hb']
    · have hd0 : ∀ d : UInt8, d.toNat = b.toNat % 128 → d ≠ 0 := by
        rintro d hd rfl
        exact hm hd.symm
      by_cases hneg : 128 ≤ b.toNat
      · obtain ⟨d, hd⟩ : ∃ d : UInt8, d.toNat = b.toNat - 128 :=
          ⟨UInt8.ofNat (b.toNat - 128), ofNat_toNat_of_lt (by omega)⟩
        have hor : d ||| 0x80 = b := UInt8.toNat_inj.1 (by rw [toNat_or_0x80 (by omega)]; omega)
        have hlow := lowPart_concat l d
        rw [if_pos hneg, ← hd, ← hlow] at hval
        have hpos : 0 < lowPart (l ++ [d]) := lowPart_pos l (hd0 d (by omega))
        rw [hval, serialize_eq (l := l) (hd0 d (by omega)) (by omega),
          if_neg (by omega), if_pos (by omega), hor]
      · have hlow := lowPart_concat l b
        rw [if_neg hneg, ← hlow] at hval
        rw [hval, serialize_eq (l := l) (hd0 b (by omega)) (by omega),
          if_neg (by omega), if_neg (by omega)]

/-- The size of a number. -/
theorem length_serialize_le {n : ℤ} {k : ℕ} (hn : n.natAbs < 256 ^ k * 128) :
    (CScriptNum.serialize n).length ≤ k + 1 := by
  by_cases h0 : n = 0
  · rw [h0]
    exact Nat.zero_le _
  · obtain ⟨l, d, hd, habs⟩ := exists_bytes h0
    have hdpos : d.toNat ≠ 0 := fun h0 => hd (UInt8.toNat_inj.1 h0)
    rw [serialize_eq hd habs]
    rw [habs, lowPart_concat] at hn
    split
    · next hge =>
      have hlt : l.length < k := by
        by_contra hge'
        have hpow := Nat.pow_le_pow_right (show 0 < 256 by decide) (Nat.le_of_not_lt hge')
        have := Nat.mul_le_mul hpow hge
        omega
      simp only [List.length_append, List.length_singleton]
      omega
    · have hle : l.length ≤ k := by
        by_contra hgt
        have hpow := Nat.pow_le_pow_right (show 0 < 256 by decide) (Nat.lt_of_not_le hgt)
        have := Nat.mul_le_mul_left (256 ^ l.length) (Nat.pos_of_ne_zero hdpos)
        rw [pow_succ] at hpow
        omega
      split <;>
      · simp only [List.length_append, List.length_singleton]
        omega

/-- A number that is read in its minimal form. -/
theorem read_serialize {n : ℤ} (hn : |n| < 2 ^ 31) :
    CScriptNum.read true (CScriptNum.serialize n) = some n := by
  obtain ⟨hval, hmin⟩ := setVch_serialize n
  rw [Int.abs_eq_natAbs] at hn
  have hlen : (CScriptNum.serialize n).length ≤ 4 := length_serialize_le (k := 3) (by omega)
  rw [CScriptNum.read, if_neg (by omega), hmin, hval]
  rfl

theorem isMinimal_iff (v : Valtype) :
    CScriptNum.isMinimal v = true ↔ v = CScriptNum.serialize (CScriptNum.setVch v) := by
  refine ⟨fun h => (serialize_setVch h).symm, fun h => ?_⟩
  rw [h]
  exact (setVch_serialize _).2

/-! ## Truth -/

theorem castToBool_concat (b : UInt8) : ∀ l : List UInt8,
    castToBool (l ++ [b]) = true ↔ (∃ c ∈ l, c ≠ 0) ∨ (b ≠ 0 ∧ b ≠ 0x80) := by
  intro l
  induction l with
  | nil => simp [castToBool]
  | cons c l ih =>
    have hcons : castToBool (c :: l ++ [b]) = if c != 0 then true else castToBool (l ++ [b]) := by
      cases l <;> rfl
    rw [hcons]
    by_cases hc : c = 0
    · rw [hc]
      simp [ih]
    · simp [hc]

/-- **Truth is not being zero.** -/
theorem castToBool_iff (v : Valtype) : castToBool v = true ↔ CScriptNum.setVch v ≠ 0 := by
  rcases List.eq_nil_or_concat v with rfl | ⟨l, b, rfl⟩
  · decide
  · rw [List.concat_eq_append, castToBool_concat, setVch_concat_eq]
    have hzero : b ≠ 0 ↔ b.toNat ≠ 0 := not_congr UInt8.toNat_inj.symm
    have hsign : b ≠ 0x80 ↔ b.toNat ≠ 128 := not_congr UInt8.toNat_inj.symm
    have hlow : (∃ c ∈ l, c ≠ 0) ↔ lowPart l ≠ 0 := by
      simp [lowPart_eq_zero]
    have hsum : ∀ x : ℕ, ((lowPart l + 256 ^ l.length * x : ℕ) : ℤ) ≠ 0 ↔
        ¬(lowPart l = 0 ∧ x = 0) := by
      intro x
      have hpow : 256 ^ l.length ≠ 0 := by positivity
      rw [Nat.cast_ne_zero]
      refine not_congr (Nat.add_eq_zero_iff.trans (and_congr_right fun _ => ?_))
      rw [Nat.mul_eq_zero, or_iff_right hpow]
    rw [hlow, hzero, hsign]
    split
    · next hge =>
      rw [neg_ne_zero, hsum]
      omega
    · next hlt =>
      rw [hsum]
      omega

/-! ## Pushes -/

/-- **A push of any length is read back**, below the lengths that four bytes can say. -/
theorem getOp_pushData_all {vch : Valtype} (hsize : vch.length < 2 ^ 32) (rest : CScript) :
    CScript.getOp (CScript.pushData vch ++ rest) = some (pushOpcode vch, vch, rest) := by
  by_cases hsmall : vch.length ≤ 0xffff
  · exact getOp_pushData hsmall rest
  · have htake : ∀ nSize : ℕ, nSize = vch.length →
        (if (vch ++ rest).length < nSize then none
          else some ((0x4e : UInt8), (vch ++ rest).take nSize, (vch ++ rest).drop nSize)) =
          some (0x4e, vch, rest) := by
      rintro _ rfl
      rw [if_neg (by simp), List.take_left, List.drop_left]
    have h₀ : (UInt8.ofNat vch.length).toNat = vch.length % 256 := UInt8.toNat_ofNat'
    have h₁ : (UInt8.ofNat (vch.length / 256)).toNat = vch.length / 256 % 256 := UInt8.toNat_ofNat'
    have h₂ : (UInt8.ofNat (vch.length / 65536)).toNat = vch.length / 65536 % 256 :=
      UInt8.toNat_ofNat'
    have h₃ := ofNat_toNat_of_lt (n := vch.length / 16777216) (by omega)
    unfold CScript.pushData pushOpcode
    rw [if_neg (by omega), if_neg (by omega), if_neg hsmall, if_neg (by omega), if_neg (by omega),
      if_neg hsmall]
    simp only [List.cons_append, CScript.getOp, if_neg (show ¬ (0x4e : UInt8) < 0x4c by decide),
      if_neg (show ¬ (0x4e : UInt8) = 0x4c by decide),
      if_neg (show ¬ (0x4e : UInt8) = 0x4d by decide), if_true]
    exact htake _ (by rw [h₀, h₁, h₂, h₃]; omega)

/-- `push_int64`, on an empty script. -/
def CScript.pushInt64 (n : ℤ) : CScript :=
  if n = -1 ∨ (1 ≤ n ∧ n ≤ 16) then [UInt8.ofNat (n + 0x50).toNat]
  else if n = 0 then [0]
  else CScript.pushData (CScriptNum.serialize n)

/-- The boundaries of one byte, and of the direct opcodes. -/
example : [-1, 0, 16, 17, 127, 128, -128, 255].map CScript.pushInt64 =
    [[0x4f], [0], [0x60], [1, 17], [1, 127], [2, 128, 0], [2, 128, 128], [2, 255, 0]] := by decide

/-- A number without an opcode of its own is not one of the bytes that have one. -/
theorem checkMinimalPush_serialize {n : ℤ} (hsmall : ¬(n = -1 ∨ (1 ≤ n ∧ n ≤ 16))) :
    checkMinimalPush (CScriptNum.serialize n) (pushOpcode (CScriptNum.serialize n)) = true := by
  by_cases hone : (CScriptNum.serialize n).length = 1
  · obtain ⟨b, hb⟩ := List.length_eq_one_iff.1 hone
    have hval := (setVch_serialize n).1
    rw [hb] at hval ⊢
    have hn : n = if 128 ≤ b.toNat then -((b.toNat - 128 : ℕ) : ℤ) else (b.toNat : ℤ) := by
      have h := setVch_concat_eq [] b
      have h0 : lowPart [] = 0 := rfl
      rw [List.nil_append, hval] at h
      simpa only [h0, List.length_nil, pow_zero, one_mul, zero_add] using h
    rw [checkMinimalPush, if_neg, if_neg]
    · rfl
    · rintro rfl
      exact hsmall (.inl hn)
    · rintro ⟨hlo, hhi⟩
      rw [UInt8.le_iff_toNat_le] at hlo hhi
      have hlo' : 1 ≤ b.toNat := hlo
      have hhi' : b.toNat ≤ 16 := hhi
      rw [if_neg (by omega)] at hn
      exact hsmall (.inr (by omega))
  · exact checkMinimalPush_pushOpcode hone

section Run

variable {env : ScriptEnv} {flags : VerifyFlags}

/-- A script of one operation leaves one element. -/
theorem evalScript_one {s : CScript} {opcode : UInt8} {vch top : Valtype}
    (h : s.getOp = some (opcode, vch, [])) (hlen : s.length ≤ 10000)
    (hstep : (evalStep env flags opcode vch [] (running [] 0 s)).2 = .ok (running [top] 0 s)) :
    (evalScript env flags [] s).2 = .ok [top] :=
  evalScript_of_evals hlen (Evals.cons h hstep (Evals.nil _)) rfl

/-- **A number that is pushed** is one operation, in its minimal form, and leaves its bytes. -/
theorem pushInt64_spec {n : ℤ} (hlo : -2 ^ 63 < n) (hhi : n < 2 ^ 63) :
    ∃ opcode vch, (CScript.pushInt64 n).getOp = some (opcode, vch, []) ∧
      (opcode ≤ 0x4e → vch = CScriptNum.serialize n) ∧
      checkMinimalPush (CScriptNum.serialize n) opcode = true ∧
      (evalScript env flags [] (CScript.pushInt64 n)).2 = .ok [CScriptNum.serialize n] := by
  unfold CScript.pushInt64
  split
  · next hsmall =>
    obtain ⟨b, hb, hop, hmin, hget, hnot⟩ : ∃ b : UInt8, UInt8.ofNat (n + 0x50).toNat = b ∧
        Opcode.ofByte b = .number n ∧ checkMinimalPush (CScriptNum.serialize n) b = true ∧
          0x4e < b ∧ ¬ 0x60 < b := by
      refine ⟨_, rfl, ?_⟩
      rcases hsmall with rfl | ⟨h1, h16⟩
      · decide
      · interval_cases n <;> decide
    rw [hb]
    refine ⟨b, [], getOp_of_gt hget _, fun hle => absurd hle (UInt8.not_le.2 hget), hmin, ?_⟩
    refine evalScript_one (getOp_of_gt hget _) (by simp) ?_
    refine evalStep_exec hget (by simp) (by decide) (by rw [hop]; simp) ?_ (by simp)
    rw [hop, if_neg hnot]
    rfl
  · next hsmall =>
    have hpush : (if n = 0 then [0] else CScript.pushData (CScriptNum.serialize n)) =
        CScript.pushData (CScriptNum.serialize n) := by
      split
      · next h0 =>
        subst h0
        rfl
      · rfl
    have hlen : (CScriptNum.serialize n).length ≤ 8 := length_serialize_le (k := 7) (by omega)
    have hsize : (CScriptNum.serialize n).length < 2 ^ 32 := by omega
    have hget := getOp_pushData_all hsize []
    rw [List.append_nil] at hget
    have hdata := length_pushData_le (CScriptNum.serialize n)
    rw [hpush]
    refine ⟨_, _, hget, fun _ => rfl, checkMinimalPush_serialize hsmall, ?_⟩
    refine evalScript_one hget (by omega) (evalStep_push (pushOpcode_le _) (by omega)
      (checkMinimalPush_serialize hsmall) (by simp))

end Run

/-- **Script numbers and pushes are canonical.**  A 64-bit number, other than the least one, is
pushed by one operation in its minimal form that leaves its bytes; a number below `2 ^ 31` is read
back; short bytes are minimal exactly if they are those of their number, and true exactly if it is
not zero; and a vector that is pushed behind a script is read at its end. -/
theorem scriptNumbers_canonical (env : ScriptEnv) (flags : VerifyFlags) :
    (∀ n : ℤ, -2 ^ 63 < n → n < 2 ^ 63 → ∃ opcode vch,
      (CScript.pushInt64 n).getOp = some (opcode, vch, []) ∧
        (opcode ≤ 0x4e → vch = CScriptNum.serialize n) ∧
        checkMinimalPush (CScriptNum.serialize n) opcode = true ∧
        (evalScript env flags [] (CScript.pushInt64 n)).2 = .ok [CScriptNum.serialize n]) ∧
      (∀ n : ℤ, |n| < 2 ^ 31 → CScriptNum.read true (CScriptNum.serialize n) = some n) ∧
      (∀ vch : Valtype, vch.length ≤ 4 →
        ((CScriptNum.read true vch).isSome ↔ vch = CScriptNum.serialize (CScriptNum.setVch vch)) ∧
          (castToBool vch = true ↔ CScriptNum.setVch vch ≠ 0)) ∧
      ∀ (s : CScript) (vch : Valtype), vch.length < 2 ^ 32 → ∃ opcode,
        CScript.getOp ((s ++ CScript.pushData vch).drop s.length) = some (opcode, vch, []) := by
  refine ⟨fun n hlo hhi => pushInt64_spec hlo hhi, fun n hn => read_serialize hn,
    fun vch hlen => ⟨?_, castToBool_iff vch⟩, fun s vch hlen => ⟨pushOpcode vch, ?_⟩⟩
  · rw [← isMinimal_iff, CScriptNum.read, if_neg (by omega)]
    cases CScriptNum.isMinimal vch <;> simp
  · have h := getOp_pushData_all hlen []
    rw [List.append_nil] at h
    rw [List.drop_left]
    exact h

/-- A number on a boundary, two short vectors and a push of three bytes. -/
theorem scriptNumbers_boundary :
    (∃ opcode vch, (CScript.pushInt64 128).getOp = some (opcode, vch, []) ∧
      (opcode ≤ 0x4e → vch = CScriptNum.serialize 128) ∧
      checkMinimalPush (CScriptNum.serialize 128) opcode = true ∧
      (evalScript ⟨fun _ _ _ => false, id, id, id⟩ VerifyFlags.standard []
        (CScript.pushInt64 128)).2 = .ok [CScriptNum.serialize 128]) ∧
      CScriptNum.read true (CScriptNum.serialize (-255)) = some (-255) ∧
      (((CScriptNum.read true [0x80]).isSome ↔
          ([0x80] : Valtype) = CScriptNum.serialize (CScriptNum.setVch [0x80])) ∧
        (castToBool [0x80] = true ↔ CScriptNum.setVch [0x80] ≠ 0)) ∧
      ∃ opcode, CScript.getOp ((([0x51] : CScript) ++ CScript.pushData [1, 2, 3]).drop 1) =
        some (opcode, [1, 2, 3], []) := by
  obtain ⟨hnum, hread, hshort, hpush⟩ :=
    scriptNumbers_canonical ⟨fun _ _ _ => false, id, id, id⟩ VerifyFlags.standard
  exact ⟨hnum 128 (by decide) (by decide), hread (-255) (by decide), hshort [0x80] (by decide),
    hpush [0x51] [1, 2, 3] (by decide)⟩

end FairCoin
