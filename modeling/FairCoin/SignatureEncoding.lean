import FairCoin.Script

/-!
# The encoding of signatures

`IsValidSignatureEncoding` of `src/script/interpreter.cpp`, with every read of the vector checked:
the length fields are the sender's, and they are read before all of them are known to fit.

* `readSignatureEncoding` — the function, undefined when it reads past the end.
* `SignatureEncoding` — **the grammar** its comment gives.
* `readSignatureEncoding_eq` — no read is past the end.
* `isValidSignatureEncoding_iff` — the function accepts the grammar and nothing else.
-/

namespace FairCoin

/-! ## The function with its reads -/

/-- `if (c) return false;`, before the rest of the function. -/
def rejectIf (c : Option Bool) (rest : Option Bool) : Option Bool :=
  match c with
  | none => none
  | some true => some false
  | some false => rest

/-- `sig[i] & 0x80`. -/
def readNegative (sig : Valtype) (i : ℕ) : Option Bool :=
  match sig[i]? with
  | none => none
  | some b => some (b &&& 0x80 != 0)

/-- `len > 1 && (sig[i] == 0x00) && !(sig[i + 1] & 0x80)`, evaluated from the left. -/
def readPadded (sig : Valtype) (len i : ℕ) : Option Bool :=
  if 1 < len then
    match sig[i]? with
    | none => none
    | some b => if b = 0 then (readNegative sig (i + 1)).map (!·) else some false
  else some false

/-- `IsValidSignatureEncoding`; `none` when it reads past the end of the vector. -/
def readSignatureEncoding (sig : Valtype) : Option Bool :=
  rejectIf (some (decide (sig.length < 9))) <|
  rejectIf (some (decide (73 < sig.length))) <|
  rejectIf (sig[0]?.map (· != 0x30)) <|
  rejectIf (sig[1]?.map (·.toNat != sig.length - 3)) <|
  match sig[3]? with
  | none => none
  | some lenR =>
      rejectIf (some (decide (sig.length ≤ 5 + lenR.toNat))) <|
      match sig[5 + lenR.toNat]? with
      | none => none
      | some lenS =>
          rejectIf (some (lenR.toNat + lenS.toNat + 7 != sig.length)) <|
          rejectIf (sig[2]?.map (· != 0x02)) <|
          rejectIf (some (lenR.toNat == 0)) <|
          rejectIf (readNegative sig 4) <|
          rejectIf (readPadded sig lenR.toNat 4) <|
          rejectIf (sig[lenR.toNat + 4]?.map (· != 0x02)) <|
          rejectIf (some (lenS.toNat == 0)) <|
          rejectIf (readNegative sig (lenR.toNat + 6)) <|
          rejectIf (readPadded sig lenS.toNat (lenR.toNat + 6)) (some true)

/-! ## Reads within the vector -/

theorem getElem?_of_lt {sig : Valtype} {i : ℕ} (hi : i < sig.length) :
    sig[i]? = some (sig.getD i 0) := by
  rw [List.getD_eq_getElem?_getD, List.getElem?_eq_getElem hi, Option.getD_some]

theorem readNegative_of_lt {sig : Valtype} {i : ℕ} (hi : i < sig.length) :
    readNegative sig i = some (sig.getD i 0 &&& 0x80 != 0) := by
  rw [readNegative, getElem?_of_lt hi]

theorem readPadded_of_lt {sig : Valtype} {len i : ℕ} (hi : 1 < len → i + 1 < sig.length) :
    readPadded sig len i = some (decide (1 < len) && sig.getD i 0 == 0 &&
      sig.getD (i + 1) 0 &&& 0x80 == 0) := by
  unfold readPadded
  split
  · next hlen =>
    have hlt := hi hlen
    rw [getElem?_of_lt (show i < sig.length by omega), readNegative_of_lt hlt]
    generalize sig.getD i 0 = b
    generalize sig.getD (i + 1) 0 &&& 0x80 = c
    dsimp only
    split
    · next hzero => simp [hlen, hzero, bne]
    · next hzero => simp [hlen, hzero]
  · next hlen => simp [hlen]

@[simp] theorem rejectIf_some (b r : Bool) : rejectIf (some b) (some r) = some (!b && r) := by
  cases b <;> rfl

/-- **No read is past the end of the vector.** -/
theorem readSignatureEncoding_eq (sig : Valtype) :
    readSignatureEncoding sig = some (isValidSignatureEncoding sig) := by
  unfold readSignatureEncoding
  by_cases h9 : sig.length < 9
  · have hinvalid : isValidSignatureEncoding sig = false := by
      simp [isValidSignatureEncoding, h9]
    rw [hinvalid, decide_eq_true h9]
    rfl
  rw [getElem?_of_lt (show 0 < sig.length by omega), getElem?_of_lt (show 1 < sig.length by omega),
    getElem?_of_lt (show 2 < sig.length by omega), getElem?_of_lt (show 3 < sig.length by omega),
    readNegative_of_lt (show 4 < sig.length by omega)]
  dsimp only
  rw [readPadded_of_lt (fun _ => show 4 + 1 < sig.length by omega)]
  by_cases h5 : sig.length ≤ 5 + (sig.getD 3 0).toNat
  · have hinvalid : isValidSignatureEncoding sig = false := by
      simp [isValidSignatureEncoding, Nat.not_lt.2 h5, -List.getD_eq_getElem?_getD]
    rw [hinvalid, decide_eq_true h5, rejectIf]
    simp only [Option.map_some, rejectIf_some, Bool.and_false]
  rw [getElem?_of_lt (show 5 + (sig.getD 3 0).toNat < sig.length by omega)]
  dsimp only
  by_cases hsum : (sig.getD 3 0).toNat + (sig.getD (5 + (sig.getD 3 0).toNat) 0).toNat + 7
      = sig.length
  · rw [getElem?_of_lt (show (sig.getD 3 0).toNat + 4 < sig.length by omega),
      readNegative_of_lt (show (sig.getD 3 0).toNat + 6 < sig.length by omega),
      readPadded_of_lt (fun _ => show (sig.getD 3 0).toNat + 6 + 1 < sig.length by omega)]
    simp only [Option.map_some, rejectIf_some, isValidSignatureEncoding, bne, Bool.not_not,
      Bool.and_true, Bool.and_assoc, ← decide_not, Nat.not_lt, Nat.not_le, Nat.add_assoc,
      Nat.reduceAdd]
  · have hinvalid : isValidSignatureEncoding sig = false := by
      simp [isValidSignatureEncoding, hsum, -List.getD_eq_getElem?_getD]
    rw [hinvalid, show _ = true from bne_iff_ne.2 hsum, rejectIf]
    simp only [Option.map_some, rejectIf_some, Bool.and_false]

/-! ## The grammar -/

/-- A number of the signature: its bytes are there, it is not negative, and it does not start with
a zero byte, unless the number would be negative without it. -/
structure IsDerInteger (x : Valtype) : Prop where
  nonempty : x ≠ []
  nonnegative : x.headD 0 &&& 0x80 = 0
  minimal : ∀ b rest, x = 0 :: b :: rest → b &&& 0x80 ≠ 0

/-- `0x30 [total-length] 0x02 [R-length] [R] 0x02 [S-length] [S] [sighash]`. -/
def derSignature (totalLength lenR lenS hashtype : UInt8) (R S : Valtype) : Valtype :=
  0x30 :: totalLength :: 0x02 :: lenR :: (R ++ 0x02 :: lenS :: (S ++ [hashtype]))

/-- **The grammar of signatures.** -/
def SignatureEncoding (sig : Valtype) : Prop :=
  ∃ totalLength lenR lenS hashtype R S, sig = derSignature totalLength lenR lenS hashtype R S ∧
    totalLength.toNat = (0x02 :: lenR :: (R ++ 0x02 :: lenS :: S)).length ∧
    lenR.toNat = R.length ∧ lenS.toNat = S.length ∧ IsDerInteger R ∧ IsDerInteger S ∧
    9 ≤ sig.length ∧ sig.length ≤ 73

/-- The checks of a number, by its first two bytes. -/
def derIntegerOk (x : Valtype) (b₀ b₁ : UInt8) : Bool :=
  x.length != 0 && b₀ &&& 0x80 == 0 && !(decide (1 < x.length) && b₀ == 0 && b₁ &&& 0x80 == 0)

theorem derIntegerOk_iff (x rest : Valtype) :
    derIntegerOk x ((x ++ rest).getD 0 0) ((x ++ rest).getD 1 0) = true ↔ IsDerInteger x := by
  constructor
  · intro h
    match x with
    | [] => simp [derIntegerOk] at h
    | [b] =>
      refine ⟨by simp, by simpa [derIntegerOk] using h, fun c r hx => by simp at hx⟩
    | b :: c :: r =>
      simp [derIntegerOk] at h
      refine ⟨by simp, h.1, fun c' r' hx => ?_⟩
      simp only [List.cons.injEq] at hx
      exact hx.2.1 ▸ h.2.resolve_left (not_not_intro hx.1)
  · intro h
    match x with
    | [] => exact absurd rfl h.nonempty
    | [b] => simpa [derIntegerOk] using h.nonnegative
    | b :: c :: r =>
      have hmin : b = 0 → ¬ c &&& 0x80 = 0 := fun hb => h.minimal c r (by rw [hb])
      simpa [derIntegerOk] using ⟨h.nonnegative, imp_iff_not_or.1 hmin⟩

/-- The function on a vector laid out as the grammar says. -/
theorem isValidSignatureEncoding_der {totalLength lenR lenS hashtype b₀ b₂ b₃ : UInt8}
    {R S : Valtype} (hR : lenR.toNat = R.length) (hS : lenS.toNat = S.length) {sig : Valtype}
    (hsig : sig = b₀ :: totalLength :: b₂ :: lenR :: (R ++ b₃ :: lenS :: (S ++ [hashtype]))) :
    isValidSignatureEncoding sig = true ↔ (9 ≤ sig.length ∧ sig.length ≤ 73) ∧ b₀ = 0x30 ∧
      totalLength.toNat = sig.length - 3 ∧ b₂ = 0x02 ∧ b₃ = 0x02 ∧
      derIntegerOk R (sig.getD 4 0) (sig.getD 5 0) = true ∧
      derIntegerOk S (sig.getD (R.length + 6) 0) (sig.getD (R.length + 7) 0) = true := by
  have hlen : sig.length = R.length + S.length + 7 := by
    rw [hsig]
    simp only [List.length_cons, List.length_append, List.length_nil]
    omega
  have h0 : sig.getD 0 0 = b₀ := by rw [hsig]; rfl
  have h1 : sig.getD 1 0 = totalLength := by rw [hsig]; rfl
  have h2 : sig.getD 2 0 = b₂ := by rw [hsig]; rfl
  have h3 : sig.getD 3 0 = lenR := by rw [hsig]; rfl
  have hb₃ : sig.getD (R.length + 4) 0 = b₃ := by
    rw [hsig]
    simp [List.getElem?_append_right]
  have hlenS : sig.getD (5 + R.length) 0 = lenS := by
    rw [hsig, Nat.add_comm]
    simp [List.getElem?_append_right]
  unfold isValidSignatureEncoding derIntegerOk
  dsimp only
  simp only [h0, h1, h2, h3, hR, hb₃, hlenS, hS, Bool.and_eq_true, decide_eq_true_eq, beq_iff_eq,
    bne_iff_ne, ne_eq]
  clear h0 h1 h2 h3 hlenS
  constructor
  · rintro ⟨⟨⟨⟨⟨⟨⟨⟨⟨⟨⟨⟨⟨h9, h73⟩, hb₀⟩, htotal⟩, -⟩, -⟩, hb₂⟩, hR₀⟩, hRneg⟩, hRpad⟩, hb₃⟩, hS₀⟩, hSneg⟩, hSpad⟩
    exact ⟨⟨h9, h73⟩, hb₀, htotal, hb₂, hb₃, ⟨⟨hR₀, hRneg⟩, hRpad⟩, ⟨hS₀, hSneg⟩, hSpad⟩
  · rintro ⟨⟨h9, h73⟩, hb₀, htotal, hb₂, hb₃, ⟨⟨hR₀, hRneg⟩, hRpad⟩, ⟨hS₀, hSneg⟩, hSpad⟩
    exact ⟨⟨⟨⟨⟨⟨⟨⟨⟨⟨⟨⟨⟨h9, h73⟩, hb₀⟩, htotal⟩, by omega⟩, by omega⟩, hb₂⟩, hR₀⟩, hRneg⟩, hRpad⟩,
      hb₃⟩, hS₀⟩, hSneg⟩, hSpad⟩

/-- A vector whose length fields fit is laid out as the grammar says. -/
theorem exists_layout {sig : Valtype} (h9 : 9 ≤ sig.length)
    (h5 : 5 + (sig.getD 3 0).toNat < sig.length)
    (hsum : (sig.getD 3 0).toNat + (sig.getD (5 + (sig.getD 3 0).toNat) 0).toNat + 7 = sig.length) :
    ∃ b₀ totalLength b₂ lenR b₃ lenS hashtype R S, lenR.toNat = R.length ∧ lenS.toNat = S.length ∧
      sig = b₀ :: totalLength :: b₂ :: lenR :: (R ++ b₃ :: lenS :: (S ++ [hashtype])) := by
  match sig, h9 with
  | b₀ :: totalLength :: b₂ :: lenR :: rest, h9 =>
    simp only [List.getD_cons_succ, List.getD_cons_zero, List.length_cons, Nat.add_comm 5] at h5 hsum
    obtain ⟨R, rest, rfl, hR⟩ : ∃ R rest', rest = R ++ rest' ∧ R.length = lenR.toNat :=
      ⟨rest.take lenR.toNat, rest.drop lenR.toNat, (List.take_append_drop _ _).symm,
        List.length_take_of_le (by omega)⟩
    rw [← hR, List.length_append] at h5 hsum
    have htwo : 2 ≤ rest.length := by omega
    match rest, htwo with
    | b₃ :: lenS :: rest, _ =>
      have hlenS : (R ++ b₃ :: lenS :: rest).getD (R.length + 1) 0 = lenS := by simp
      rw [hlenS, List.length_cons, List.length_cons] at hsum
      obtain ⟨hashtype, hlast⟩ : ∃ b, rest.drop lenS.toNat = [b] := by
        apply List.length_eq_one_iff.1
        rw [List.length_drop]
        omega
      refine ⟨b₀, totalLength, b₂, lenR, b₃, lenS, hashtype, R, rest.take lenS.toNat, hR.symm,
        (List.length_take_of_le (by omega)).symm, ?_⟩
      rw [← hlast, List.take_append_drop]

/-- The first two bytes of the numbers of a vector laid out as the grammar says. -/
theorem layout_getD {totalLength lenR lenS hashtype b₀ b₂ b₃ : UInt8} {R S sig : Valtype}
    (hsig : sig = b₀ :: totalLength :: b₂ :: lenR :: (R ++ b₃ :: lenS :: (S ++ [hashtype]))) :
    (derIntegerOk R (sig.getD 4 0) (sig.getD 5 0) = true ↔ IsDerInteger R) ∧
      (derIntegerOk S (sig.getD (R.length + 6) 0) (sig.getD (R.length + 7) 0) = true ↔
        IsDerInteger S) := by
  have hS : ∀ k, sig.getD (R.length + 6 + k) 0 = (S ++ [hashtype]).getD k 0 := by
    intro k
    have hk : R.length + 6 + k = R.length + (k + 2) + 4 := by omega
    rw [hsig, hk]
    show (R ++ b₃ :: lenS :: (S ++ [hashtype])).getD (R.length + (k + 2)) 0 = _
    rw [List.getD_append_right _ _ _ _ (Nat.le_add_right _ _), Nat.add_sub_cancel_left]
    rfl
  have hR := derIntegerOk_iff R (b₃ :: lenS :: (S ++ [hashtype]))
  have hS' := derIntegerOk_iff S [hashtype]
  rw [← hS 0, ← hS 1] at hS'
  refine ⟨?_, hS'⟩
  rw [hsig]
  exact hR

/-- **The function accepts the grammar and nothing else.** -/
theorem isValidSignatureEncoding_iff (sig : Valtype) :
    isValidSignatureEncoding sig = true ↔ SignatureEncoding sig := by
  constructor
  · intro h
    have hfits : 9 ≤ sig.length ∧ 5 + (sig.getD 3 0).toNat < sig.length ∧
        (sig.getD 3 0).toNat + (sig.getD (5 + (sig.getD 3 0).toNat) 0).toNat + 7 = sig.length := by
      simp only [isValidSignatureEncoding, Bool.and_eq_true, decide_eq_true_eq, beq_iff_eq] at h
      tauto
    obtain ⟨b₀, totalLength, b₂, lenR, b₃, lenS, hashtype, R, S, hR, hS, hsig⟩ :=
      exists_layout hfits.1 hfits.2.1 hfits.2.2
    obtain ⟨hsize, hb₀, htotal, hb₂, hb₃, hRok, hSok⟩ :=
      (isValidSignatureEncoding_der hR hS hsig).1 h
    obtain ⟨hRiff, hSiff⟩ := layout_getD hsig
    subst hb₀ hb₂ hb₃
    refine ⟨totalLength, lenR, lenS, hashtype, R, S, hsig, ?_, hR, hS, hRiff.1 hRok, hSiff.1 hSok,
      hsize⟩
    rw [htotal, hsig]
    simp only [List.length_cons, List.length_append, List.length_nil]
    omega
  · rintro ⟨totalLength, lenR, lenS, hashtype, R, S, hsig, htotal, hR, hS, hRok, hSok, hsize⟩
    obtain ⟨hRiff, hSiff⟩ := layout_getD hsig
    refine (isValidSignatureEncoding_der hR hS hsig).2
      ⟨hsize, rfl, ?_, rfl, rfl, hRiff.2 hRok, hSiff.2 hSok⟩
    rw [htotal, hsig]
    simp only [derSignature, List.length_cons, List.length_append, List.length_nil]
    omega

/-- **`IsValidSignatureEncoding` accepts exactly its grammar, and never reads past the end.** -/
theorem signature_encoding_exact (sig : Valtype) :
    ∃ b, readSignatureEncoding sig = some b ∧ (b = true ↔ SignatureEncoding sig) :=
  ⟨_, readSignatureEncoding_eq sig, isValidSignatureEncoding_iff sig⟩

end FairCoin
