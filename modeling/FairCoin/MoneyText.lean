import FairCoin.Lib.CString
import FairCoin.Lib.Radix
import FairCoin.Validation

/-!
# Amounts as texts

`FormatMoney` and `ParseMoney` of `src/utilmoneystr.cpp`.  A `std::string` is a list of bytes; the
parser reads it through `c_str()`, so up to its first NUL.

* `MoneyText` — **the texts of amounts**: white space, whole digits, a point, decimals, white space.
* `parseMoneyC_iff` — the parser accepts these texts and returns what they denote.
* `denotes_formatMoney` — the formatter writes such a text.
* `parseMoney_exact_iff` — **when the parser of a `std::string` is exact**.
-/

namespace FairCoin

open CString Radix

/-! ## The parser -/

/-- The decimal point. -/
def decimalPoint : UInt8 := 46

/-- `atoi64` of a string of digits: `strtoll` stops at the largest value. -/
def atoi64 (str : List UInt8) : ℤ :=
  min (value 10 (str.map digitOf) : ℤ) 9223372036854775807

/-- The digits after the point, until the multiplier is used up. -/
def unitsLoop (nUnits nMult : ℤ) : List UInt8 → ℤ × List UInt8
  | [] => (nUnits, [])
  | c :: p =>
      if isdigit c = true ∧ 0 < nMult then
        unitsLoop (wrap64 (nUnits + nMult * digitOf c)) (nMult.tdiv 10) p
      else (nUnits, c :: p)

/-- The loop over the text: the whole digits, the units, and what is left; `none` where the source
returns false. -/
def wholeLoop (strWhole : List UInt8) : List UInt8 → Option (List UInt8 × ℤ × List UInt8)
  | [] => some (strWhole, 0, [])
  | c :: p =>
      if c = decimalPoint then some (strWhole, unitsLoop 0 (cent * 10) p)
      else if isspace c then some (strWhole, 0, c :: p)
      else if ¬ isdigit c then none
      else wholeLoop (strWhole ++ [c]) p

/-- `ParseMoney` of a `char*`. -/
def parseMoneyC (pszIn : List UInt8) : Option ℤ :=
  match wholeLoop [] (pszIn.dropWhile isspace) with
  | none => none
  | some (strWhole, nUnits, p) =>
      if ¬ p.all isspace then none
      -- guard against 63 bit overflow
      else if 10 < strWhole.length then none
      else if nUnits < 0 ∨ coin < nUnits then none
      else
        let nWhole := atoi64 strWhole
        some (wrap64 (wrap64 (nWhole * coin) + nUnits))

/-- `ParseMoney` of a `std::string`. -/
def parseMoney (str : List UInt8) : Option ℤ := parseMoneyC (cStr str)

/-! ## The formatter -/

/-- The text of a number, `0` for zero. -/
def decimalText (n : ℕ) : List UInt8 :=
  if n = 0 then [digitChar 0] else (numeral 10 n).map digitChar

/-- `%d`. -/
def formatD (n : ℤ) : List UInt8 :=
  if n < 0 then 45 :: decimalText n.natAbs else decimalText n.natAbs

/-- Zeros to the left, up to a width. -/
def zeroPadded (width : ℕ) (text : List UInt8) : List UInt8 :=
  List.replicate (width - text.length) (digitChar 0) ++ text

/-- `%08d`. -/
def format08D (n : ℤ) : List UInt8 :=
  if n < 0 then 45 :: zeroPadded 7 (decimalText n.natAbs) else zeroPadded 8 (decimalText n.natAbs)

/-- `nTrim`, from an index down: zeros with a digit two places before.  The point stops the loop with
two decimals left, so index 0 is not reached. -/
def trimLoop (str : List UInt8) : ℕ → ℕ
  | 0 => 0
  | i + 1 =>
      if str[i + 1]? = some (digitChar 0) ∧ (str[i - 1]?).any isdigit = true then
        trimLoop str i + 1
      else 0

/-- `FormatMoney`. -/
def formatMoney (n : ℤ) (fPlus : Bool) : List UInt8 :=
  let n_abs := if 0 < n then n else wrap64 (-n)
  let quotient := n_abs.tdiv coin
  let remainder := n_abs.tmod coin
  let str := formatD quotient ++ decimalPoint :: format08D remainder
  let nTrim := trimLoop str (str.length - 1)
  let str := str.take (str.length - nTrim)
  if n < 0 then 45 :: str else if fPlus = true ∧ 0 < n then 43 :: str else str

/-! ## The texts of amounts -/

/-- **The text of an amount**, in its parts. -/
structure MoneyText where
  leading : List UInt8
  whole : List UInt8
  /-- The decimals, if there is a point. -/
  fraction : Option (List UInt8)
  trailing : List UInt8
  leading_space : ∀ c ∈ leading, isspace c = true
  whole_digit : ∀ c ∈ whole, isdigit c = true
  whole_length : whole.length ≤ 10
  fraction_digit : ∀ f ∈ fraction, ∀ c ∈ f, isdigit c = true
  fraction_length : ∀ f ∈ fraction, f.length ≤ 8
  trailing_space : ∀ c ∈ trailing, isspace c = true

namespace MoneyText

/-- The part from the point on. -/
def tail (m : MoneyText) : List UInt8 :=
  match m.fraction with
  | none => m.trailing
  | some f => decimalPoint :: (f ++ m.trailing)

/-- The characters. -/
def text (m : MoneyText) : List UInt8 := m.leading ++ (m.whole ++ m.tail)

/-- The decimals of an amount, in units. -/
def decimals (f : List UInt8) : ℕ := value 10 (f.map digitOf) * 10 ^ (8 - f.length)

/-- **The denoted number** of smallest units. -/
def units (m : MoneyText) : ℕ :=
  value 10 (m.whole.map digitOf) * 10 ^ 8 + decimals (m.fraction.getD [])

end MoneyText

/-- A text that denotes a number of units. -/
def Denotes (s : List UInt8) (n : ℕ) : Prop := ∃ m : MoneyText, m.text = s ∧ m.units = n

theorem value_digits_lt {l : List UInt8} (h : ∀ c ∈ l, isdigit c = true) :
    value 10 (l.map digitOf) < 10 ^ l.length := by
  have hlt := @value_lt 10 (l.map digitOf) (by
    intro d hd
    obtain ⟨c, hc, rfl⟩ := List.mem_map.1 hd
    exact digitOf_lt (h c hc))
  rwa [List.length_map] at hlt

theorem decimals_lt {f : List UInt8} (h : ∀ c ∈ f, isdigit c = true) (hlen : f.length ≤ 8) :
    MoneyText.decimals f < 10 ^ 8 := by
  calc value 10 (f.map digitOf) * 10 ^ (8 - f.length)
      < 10 ^ f.length * 10 ^ (8 - f.length) :=
        Nat.mul_lt_mul_of_pos_right (value_digits_lt h) (by positivity)
    _ = 10 ^ 8 := by rw [← pow_add, Nat.add_sub_of_le hlen]

theorem value_whole_lt {w : List UInt8} (h : ∀ c ∈ w, isdigit c = true) (hlen : w.length ≤ 10) :
    value 10 (w.map digitOf) < 10 ^ 10 :=
  (value_digits_lt h).trans_le (Nat.pow_le_pow_right (by decide) hlen)

/-- No amount of the form overflows. -/
theorem MoneyText.units_lt (m : MoneyText) : m.units < 10 ^ 18 := by
  have hwhole := value_whole_lt m.whole_digit m.whole_length
  have hfraction : decimals (m.fraction.getD []) < 10 ^ 8 := by
    cases hf : m.fraction with
    | none => decide
    | some f => exact decimals_lt (m.fraction_digit f hf) (m.fraction_length f hf)
  unfold units
  omega

/-! ## The loops of the parser -/

theorem unitsLoop_zero (nUnits : ℤ) (p : List UInt8) : unitsLoop nUnits 0 p = (nUnits, p) := by
  cases p with
  | nil => rfl
  | cons c p => rw [unitsLoop, if_neg fun h => absurd h.2 (lt_irrefl 0)]

/-- One digit of the decimals. -/
theorem unitsLoop_digit {k : ℕ} (hk : k ≤ 7) {nUnits : ℤ} (h0 : 0 ≤ nUnits)
    (h1 : nUnits ≤ 10 ^ 9) {c : UInt8} (hc : isdigit c = true) (p : List UInt8) :
    unitsLoop nUnits ((10 ^ k : ℕ) : ℤ) (c :: p) =
      unitsLoop (nUnits + (digitOf c * 10 ^ k : ℕ)) (((10 ^ k : ℕ) : ℤ).tdiv 10) p := by
  have hpow : (10 : ℕ) ^ k ≤ 10 ^ 7 := Nat.pow_le_pow_right (by decide) hk
  have hpos : 0 < 10 ^ k := Nat.pow_pos (by decide)
  have hd := digitOf_lt hc
  have hmul : digitOf c * 10 ^ k ≤ 9 * 10 ^ 7 := Nat.mul_le_mul (by omega) hpow
  have hswap : ((10 ^ k : ℕ) : ℤ) * (digitOf c : ℤ) = ((digitOf c * 10 ^ k : ℕ) : ℤ) := by
    rw [Nat.cast_mul, mul_comm]
  rw [unitsLoop, if_pos ⟨hc, by omega⟩, hswap, wrap64_of_lt (by omega) (by omega)]

/-- **The decimals**: at most as many digits as the multiplier allows. -/
theorem unitsLoop_eq {k : ℕ} (hk : k ≤ 7) : ∀ {nUnits : ℤ} (p : List UInt8), 0 ≤ nUnits →
    nUnits + (10 ^ (k + 1) : ℕ) ≤ 10 ^ 9 →
      unitsLoop nUnits ((10 ^ k : ℕ) : ℤ) p =
        (nUnits + (value 10 (((p.takeWhile isdigit).take (k + 1)).map digitOf) *
            10 ^ (k + 1 - ((p.takeWhile isdigit).take (k + 1)).length) : ℕ),
          p.drop ((p.takeWhile isdigit).take (k + 1)).length) := by
  induction k with
  | zero =>
    intro nUnits p h0 h1
    cases p with
    | nil => simp [unitsLoop]
    | cons c p =>
      by_cases hc : isdigit c = true
      · rw [unitsLoop_digit hk h0 (by omega) hc, List.takeWhile_cons_of_pos hc]
        rw [show (((10 ^ 0 : ℕ) : ℤ).tdiv 10) = 0 by rfl, unitsLoop_zero]
        simp [value_cons]
      · rw [unitsLoop, if_neg fun h => hc h.1, List.takeWhile_cons_of_neg hc]
        simp
  | succ k ih =>
    intro nUnits p h0 h1
    cases p with
    | nil => simp [unitsLoop]
    | cons c p =>
      by_cases hc : isdigit c = true
      · have hd := digitOf_lt hc
        have hmul : digitOf c * 10 ^ (k + 1) ≤ 9 * 10 ^ (k + 1) :=
          Nat.mul_le_mul_right _ (by omega)
        have hsplit : 10 ^ (k + 1 + 1) = 10 * 10 ^ (k + 1) := pow_succ' 10 (k + 1)
        have hdiv : (((10 ^ (k + 1) : ℕ) : ℤ).tdiv 10) = ((10 ^ k : ℕ) : ℤ) := by
          rw [pow_succ, Nat.cast_mul]
          exact Int.mul_tdiv_cancel _ (by decide)
        have hlen : ((p.takeWhile isdigit).take (k + 1)).length ≤ k + 1 :=
          List.length_take_le _ _
        rw [unitsLoop_digit hk h0 (by omega) hc, hdiv,
          ih (by omega) p (by omega) (by omega), List.takeWhile_cons_of_pos hc,
          List.take_succ_cons, List.map_cons, value_cons, List.length_map, List.length_cons,
          List.drop_succ_cons]
        congr 1
        generalize ((p.takeWhile isdigit).take (k + 1)) = ds at hlen ⊢
        rw [show k + 1 + 1 - (ds.length + 1) = k + 1 - ds.length by omega, Nat.add_mul, mul_assoc,
          ← pow_add, Nat.add_sub_of_le hlen]
        push_cast
        ring
      · rw [unitsLoop, if_neg fun h => hc h.1, List.takeWhile_cons_of_neg hc]
        simp

/-- The loop over the whole digits stops at the first other character. -/
theorem wholeLoop_eq (p : List UInt8) : ∀ strWhole : List UInt8, wholeLoop strWhole p =
    match p.dropWhile isdigit with
    | [] => some (strWhole ++ p.takeWhile isdigit, 0, [])
    | c :: q =>
        if c = decimalPoint then
          some (strWhole ++ p.takeWhile isdigit, unitsLoop 0 (cent * 10) q)
        else if isspace c then some (strWhole ++ p.takeWhile isdigit, 0, c :: q)
        else none := by
  induction p with
  | nil =>
    intro strWhole
    simp [wholeLoop]
  | cons c p ih =>
    intro strWhole
    by_cases hc : isdigit c = true
    · have hpoint : c ≠ decimalPoint := by
        rintro rfl
        exact absurd hc (by decide)
      rw [wholeLoop, if_neg hpoint, isspace_of_isdigit hc, if_neg (by decide), if_neg (not_not.2 hc),
        ih, List.takeWhile_cons_of_pos hc, List.dropWhile_cons_of_pos hc]
      simp only [List.append_assoc, List.singleton_append]
    · rw [List.takeWhile_cons_of_neg hc, List.dropWhile_cons_of_neg hc, wholeLoop, List.append_nil]
      dsimp only
      rw [if_pos hc]

/-! ## The parser is exact -/

/-- The conversion of the parts does not overflow. -/
theorem parts_toUnits {w : List UInt8} (hw : ∀ c ∈ w, isdigit c = true) (hlen : w.length ≤ 10)
    {u : ℕ} (hu : u < 10 ^ 8) :
    wrap64 (wrap64 (atoi64 w * coin) + u) =
      ((value 10 (w.map digitOf) * 10 ^ 8 + u : ℕ) : ℤ) := by
  have hvalue := value_whole_lt hw hlen
  have hatoi : atoi64 w = (value 10 (w.map digitOf) : ℤ) := min_eq_left (by omega)
  have hmul : wrap64 ((value 10 (w.map digitOf) : ℤ) * 10 ^ 8) =
      (value 10 (w.map digitOf) : ℤ) * 10 ^ 8 := wrap64_of_lt (by omega) (by omega)
  rw [hatoi, show coin = 10 ^ 8 by rfl, hmul, wrap64_of_lt (by omega) (by omega)]
  push_cast
  rfl

/-- The checks after the loop. -/
theorem parseMoneyC_of_loop {s w p : List UInt8} {u : ℕ} {f : List UInt8}
    (hloop : wholeLoop [] (s.dropWhile isspace) = some (w, (u : ℤ), p))
    (hw : ∀ c ∈ w, isdigit c = true) (hu : u = MoneyText.decimals f)
    (hf : ∀ c ∈ f, isdigit c = true) (hflen : f.length ≤ 8) :
    parseMoneyC s = if p.all isspace = true ∧ w.length ≤ 10 then
      some ((value 10 (w.map digitOf) * 10 ^ 8 + u : ℕ) : ℤ) else none := by
  have hlt := decimals_lt hf hflen
  rw [← hu] at hlt
  rw [parseMoneyC, hloop]
  dsimp only
  by_cases hspace : p.all isspace = true
  · by_cases hlen : w.length ≤ 10
    · rw [if_neg (not_not.2 hspace), if_neg (not_lt.2 hlen), if_neg, if_pos ⟨hspace, hlen⟩,
        parts_toUnits hw hlen hlt]
      rw [show coin = 10 ^ 8 by rfl]
      omega
    · rw [if_neg (not_not.2 hspace), if_pos (not_le.1 hlen), if_neg fun h => hlen h.2]
  · rw [if_pos hspace, if_neg fun h => hspace h.1]

/-- **The text of an amount is accepted** with the number it denotes. -/
theorem MoneyText.parse (m : MoneyText) : parseMoneyC m.text = some (m.units : ℤ) := by
  have htrailing : m.trailing.all isspace = true := List.all_eq_true.2 m.trailing_space
  cases hf : m.fraction with
  | none =>
    have htail : m.tail = m.trailing := by rw [tail, hf]
    have hdigits := span_append (p := isdigit) (t := m.trailing) m.whole_digit (by
      intro c hc
      by_contra hd
      have hspace := m.trailing_space c (List.mem_of_mem_head? hc)
      rw [isspace_of_isdigit (by simpa using hd)] at hspace
      cases hspace)
    -- the whole digits, or nothing but white space
    obtain ⟨p, hp, hloop⟩ : ∃ p, p.all isspace = true ∧
        wholeLoop [] (m.text.dropWhile isspace) = some (m.whole, ((0 : ℕ) : ℤ), p) := by
      cases hw : m.whole with
      | nil =>
        refine ⟨[], rfl, ?_⟩
        rw [text, hw, htail, List.nil_append, List.dropWhile_eq_nil_iff.2]
        · rfl
        · intro c hc
          rcases List.mem_append.1 hc with hc | hc
          · exact m.leading_space c hc
          · exact m.trailing_space c hc
      | cons d w =>
        have hdrop := span_append (p := isspace) (t := m.whole ++ m.trailing) m.leading_space (by
          intro c hc
          rw [hw] at hc
          obtain rfl := Option.some.inj hc
          exact isspace_of_isdigit (m.whole_digit d (hw ▸ List.mem_cons_self)))
        refine ⟨m.trailing, htrailing, ?_⟩
        rw [text, htail, hdrop.2, wholeLoop_eq, hdigits.1, hdigits.2, hw]
        cases ht : m.trailing with
        | nil => rfl
        | cons c q =>
          have hc := m.trailing_space c (ht ▸ List.mem_cons_self)
          have hpoint : c ≠ decimalPoint := by
            rintro rfl
            exact absurd hc (by decide)
          dsimp only
          rw [if_neg hpoint, if_pos hc]
          rfl
    rw [parseMoneyC_of_loop hloop m.whole_digit (f := []) rfl (fun c hc => nomatch hc)
      (Nat.zero_le _), if_pos ⟨hp, m.whole_length⟩, units, hf]
    rfl
  | some f =>
    have htail : m.tail = decimalPoint :: (f ++ m.trailing) := by rw [tail, hf]
    have hfdigit := m.fraction_digit f hf
    have hflen := m.fraction_length f hf
    have hwhole := span_append (p := isdigit) (t := m.tail) m.whole_digit (by
      intro c hc
      rw [htail] at hc
      obtain rfl := Option.some.inj hc
      rfl)
    have hdrop := span_append (p := isspace) (t := m.whole ++ m.tail) m.leading_space (by
      intro c hc
      cases hw : m.whole with
      | nil =>
        rw [hw, htail] at hc
        obtain rfl := Option.some.inj hc
        rfl
      | cons d w =>
        rw [hw] at hc
        obtain rfl := Option.some.inj hc
        exact isspace_of_isdigit (m.whole_digit d (hw ▸ List.mem_cons_self)))
    have hfraction := span_append (p := isdigit) (t := m.trailing) hfdigit (by
      intro c hc
      by_contra hd
      have hspace := m.trailing_space c (List.mem_of_mem_head? hc)
      rw [isspace_of_isdigit (by simpa using hd)] at hspace
      cases hspace)
    have hunits := @unitsLoop_eq 7 (by decide) 0 (f ++ m.trailing) le_rfl
      (by decide)
    rw [hfraction.1, List.take_of_length_le hflen, List.drop_left, zero_add] at hunits
    have hloop : wholeLoop [] (m.text.dropWhile isspace) =
        some (m.whole, (decimals f : ℤ), m.trailing) := by
      rw [text, hdrop.2, wholeLoop_eq, hwhole.1, hwhole.2, htail]
      dsimp only
      rw [if_pos rfl, show cent * 10 = ((10 ^ 7 : ℕ) : ℤ) by rfl, hunits]
      rfl
    rw [parseMoneyC_of_loop hloop m.whole_digit rfl hfdigit hflen,
      if_pos ⟨htrailing, m.whole_length⟩, units, hf]
    rfl

/-- **An accepted text is that of an amount.** -/
theorem exists_moneyText {s : List UInt8} {v : ℤ} (h : parseMoneyC s = some v) :
    ∃ m : MoneyText, m.text = s ∧ v = m.units := by
  obtain ⟨p, hp⟩ : ∃ p, p = s.dropWhile isspace := ⟨_, rfl⟩
  have hs : s = s.takeWhile isspace ++ p := by rw [hp, List.takeWhile_append_dropWhile]
  have hsplit : p = p.takeWhile isdigit ++ p.dropWhile isdigit :=
    List.takeWhile_append_dropWhile.symm
  have hwhole : ∀ c ∈ p.takeWhile isdigit, isdigit c = true := fun c hc => of_mem_takeWhile hc
  have hloop := wholeLoop_eq p []
  rw [List.nil_append] at hloop
  -- a text without a point
  have hplain : ∀ rest : List UInt8, wholeLoop [] p = some (p.takeWhile isdigit, 0, rest) →
      p.dropWhile isdigit = rest → ∃ m : MoneyText, m.text = s ∧ v = m.units := by
    intro rest hrun hrest
    rw [hp] at hrun
    rw [parseMoneyC_of_loop (u := 0) hrun (hp ▸ hwhole) rfl (List.forall_mem_nil _)
      (Nat.zero_le _), ← hp] at h
    split at h
    · next hcond =>
      refine ⟨⟨s.takeWhile isspace, p.takeWhile isdigit, none, rest,
        fun c hc => of_mem_takeWhile hc, hwhole, hcond.2, (fun f hf => nomatch hf),
        (fun f hf => nomatch hf), List.all_eq_true.1 hcond.1⟩, ?_, ?_⟩
      · rw [MoneyText.text, MoneyText.tail]
        dsimp only
        rw [← hrest, ← hsplit, ← hs]
      · rw [← Option.some.inj h, MoneyText.units, Option.getD_none,
          show MoneyText.decimals [] = 0 from Nat.zero_mul _]
    · cases h
  cases hrest : p.dropWhile isdigit with
  | nil =>
    rw [hrest] at hloop
    exact hplain [] hloop hrest
  | cons c q =>
    rw [hrest] at hloop
    dsimp only at hloop
    by_cases hpoint : c = decimalPoint
    · rw [if_pos hpoint, show cent * 10 = ((10 ^ 7 : ℕ) : ℤ) by rfl,
        unitsLoop_eq (by decide) q le_rfl (by decide), zero_add] at hloop
      obtain ⟨f, hf⟩ : ∃ f, f = (q.takeWhile isdigit).take 8 := ⟨_, rfl⟩
      have hfdigit : ∀ x ∈ f, isdigit x = true := by
        intro x hx
        rw [hf] at hx
        exact of_mem_takeWhile (List.mem_of_mem_take hx)
      have hflen : f.length ≤ 8 := by
        rw [hf]
        exact List.length_take_le _ _
      have hq : q = f ++ q.drop f.length := by
        have hprefix : f <+: q := by
          rw [hf]
          exact (List.take_prefix _ _).trans (List.takeWhile_prefix _)
        exact (List.prefix_iff_eq_append.1 hprefix).symm
      rw [← hf, hp] at hloop
      rw [parseMoneyC_of_loop hloop (hp ▸ hwhole) rfl hfdigit hflen, ← hp] at h
      split at h
      · next hcond =>
        refine ⟨⟨s.takeWhile isspace, p.takeWhile isdigit, some f, q.drop f.length,
          fun c hc => of_mem_takeWhile hc, hwhole, hcond.2, ?_, ?_,
          List.all_eq_true.1 hcond.1⟩, ?_, ?_⟩
        · intro f' hf'
          obtain rfl := Option.some.inj hf'
          exact hfdigit
        · intro f' hf'
          obtain rfl := Option.some.inj hf'
          exact hflen
        · rw [MoneyText.text, MoneyText.tail]
          dsimp only
          rw [← hq, ← hpoint, ← hrest, ← hsplit, ← hs]
        · exact (Option.some.inj h).symm
      · cases h
    · rw [if_neg hpoint] at hloop
      split at hloop
      · exact hplain (c :: q) hloop hrest
      · rw [parseMoneyC, ← hp, hloop] at h
        cases h

/-- **`ParseMoney` of a `char*`** accepts the texts of amounts and returns what they denote. -/
theorem parseMoneyC_iff (s : List UInt8) (v : ℤ) :
    parseMoneyC s = some v ↔ ∃ n : ℕ, Denotes s n ∧ v = n := by
  constructor
  · intro h
    obtain ⟨m, hm, hv⟩ := exists_moneyText h
    exact ⟨m.units, ⟨m, hm, rfl⟩, hv⟩
  · rintro ⟨n, ⟨m, rfl, rfl⟩, rfl⟩
    exact m.parse

/-! ## The formatter writes the text of its amount -/

theorem isdigit_decimalText (n : ℕ) : ∀ c ∈ decimalText n, isdigit c = true := by
  intro c hc
  rw [decimalText] at hc
  split at hc
  · rw [List.mem_singleton.1 hc]
    rfl
  · obtain ⟨d, hd, rfl⟩ := List.mem_map.1 hc
    exact isdigit_digitChar (lt_of_mem_numeral (by decide) hd)

theorem value_decimalText (n : ℕ) : value 10 ((decimalText n).map digitOf) = n := by
  rw [decimalText]
  split
  · next h =>
    rw [h]
    rfl
  · have hmap : ((numeral 10 n).map digitChar).map digitOf = numeral 10 n := by
      rw [List.map_map]
      refine (List.map_congr_left fun d hd => ?_).trans (List.map_id _)
      exact digitOf_digitChar (lt_of_mem_numeral (by decide) hd)
    rw [hmap, value_numeral]

theorem length_decimalText_le {n k : ℕ} (hk : 0 < k) (h : n < 10 ^ k) :
    (decimalText n).length ≤ k := by
  rw [decimalText]
  split
  · exact hk
  · rw [List.length_map]
    exact length_numeral_le (by decide) h

theorem isdigit_zeroPadded {width : ℕ} {text : List UInt8} (h : ∀ c ∈ text, isdigit c = true) :
    ∀ c ∈ zeroPadded width text, isdigit c = true := by
  intro c hc
  rcases List.mem_append.1 hc with hc | hc
  · rw [List.eq_of_mem_replicate hc]
    rfl
  · exact h c hc

theorem value_zeroPadded (width : ℕ) (text : List UInt8) :
    value 10 ((zeroPadded width text).map digitOf) = value 10 (text.map digitOf) := by
  rw [zeroPadded, List.map_append, List.map_replicate, show digitOf (digitChar 0) = 0 by rfl,
    value_append, value_replicate_zero, Nat.zero_mul, Nat.zero_add]

theorem length_zeroPadded {width : ℕ} {text : List UInt8} (h : text.length ≤ width) :
    (zeroPadded width text).length = width := by
  rw [zeroPadded, List.length_append, List.length_replicate]
  omega

/-- **The trimmed characters** are zeros behind the second decimal. -/
theorem trimLoop_spec {str : List UInt8} {L : ℕ} (hpoint : str[L]? = some decimalPoint) :
    ∀ i, L + 2 ≤ i → L + 2 + trimLoop str i ≤ i ∧
      ∀ j, i < j + trimLoop str i → j ≤ i → str[j]? = some (digitChar 0) := by
  intro i
  induction i with
  | zero =>
    intro hi
    exact absurd hi (by omega)
  | succ i ih =>
    intro hi
    rw [trimLoop]
    split
    · next hcond =>
      obtain ⟨hzero, hdigit⟩ := hcond
      have hbelow : L + 2 ≤ i := by
        by_contra hlt
        rw [show i - 1 = L by omega, hpoint] at hdigit
        exact absurd hdigit (by decide)
      obtain ⟨hle, hall⟩ := ih hbelow
      refine ⟨by omega, fun j hj hji => ?_⟩
      rcases hji.eq_or_lt with rfl | hlt
      · exact hzero
      · exact hall j (by omega) (by omega)
    · exact ⟨by omega, fun j hj hji => absurd hj (by omega)⟩

/-- Decimals without zeros at their end. -/
theorem decimals_take {f : List UInt8} {t : ℕ} (hlen : f.length = 8) (ht : t ≤ 8)
    (hzero : ∀ j, 8 ≤ j + t → j < 8 → f[j]? = some (digitChar 0)) :
    MoneyText.decimals (f.take (8 - t)) = value 10 (f.map digitOf) := by
  have hdrop : f.drop (8 - t) = List.replicate t (digitChar 0) := by
    rw [List.eq_replicate_iff]
    refine ⟨by rw [List.length_drop]; omega, fun c hc => ?_⟩
    obtain ⟨j, hj⟩ := List.mem_iff_getElem?.1 hc
    rw [List.getElem?_drop] at hj
    have hlt := (List.getElem?_eq_some_iff.1 hj).1
    rw [hzero _ (by omega) (by omega)] at hj
    exact (Option.some.inj hj).symm
  have hsplit : f.map digitOf = (f.take (8 - t)).map digitOf ++ List.replicate t 0 := by
    conv_lhs => rw [← List.take_append_drop (8 - t) f]
    rw [hdrop, List.map_append, List.map_replicate, show digitOf (digitChar 0) = 0 by rfl]
  rw [hsplit, value_append, value_replicate_zero, List.length_replicate, Nat.add_zero,
    MoneyText.decimals, List.length_take, hlen, show 8 - min (8 - t) 8 = t by omega]

/-- **The formatter** writes the text of an amount. -/
theorem denotes_formatMoney {n : ℕ} (h : n < 10 ^ 18) : Denotes (formatMoney n false) n := by
  obtain ⟨q, hq⟩ : ∃ q, q = n / 10 ^ 8 := ⟨_, rfl⟩
  obtain ⟨r, hr⟩ : ∃ r, r = n % 10 ^ 8 := ⟨_, rfl⟩
  obtain ⟨f, hf⟩ : ∃ f, f = zeroPadded 8 (decimalText r) := ⟨_, rfl⟩
  obtain ⟨str, hstr⟩ : ∃ str, str = decimalText q ++ decimalPoint :: f := ⟨_, rfl⟩
  have hflen : f.length = 8 := by
    rw [hf]
    exact length_zeroPadded (length_decimalText_le (by decide) (by omega))
  have hpoint : str[(decimalText q).length]? = some decimalPoint := by
    rw [hstr, List.getElem?_append_right le_rfl, Nat.sub_self]
    rfl
  have hsize : str.length = (decimalText q).length + 9 := by
    rw [hstr, List.length_append, List.length_cons, hflen]
  obtain ⟨ht, hzero⟩ := trimLoop_spec hpoint (str.length - 1) (by omega)
  generalize htrim : trimLoop str (str.length - 1) = t at ht hzero
  have hformat : formatMoney n false = decimalText q ++ decimalPoint :: f.take (8 - t) := by
    have habs : (if 0 < (n : ℤ) then (n : ℤ) else wrap64 (-n)) = n := by
      split
      · rfl
      · next h0 =>
        obtain rfl : n = 0 := by omega
        rfl
    have hquotient : (n : ℤ).tdiv coin = (q : ℤ) := by
      rw [hq]
      rfl
    have hremainder : (n : ℤ).tmod coin = (r : ℤ) := by
      rw [hr]
      rfl
    have hwhole : formatD (q : ℤ) = decimalText q := by
      rw [formatD, if_neg (by omega), Int.natAbs_natCast]
    have hpadded : format08D (r : ℤ) = f := by
      rw [format08D, if_neg (by omega), Int.natAbs_natCast, hf]
    rw [formatMoney, habs, hquotient, hremainder, hwhole, hpadded, ← hstr]
    rw [if_neg (by omega), if_neg (fun h => absurd h.1 (by decide)), htrim, hsize, hstr,
      List.take_append, List.take_of_length_le (by omega),
      show (decimalText q).length + 9 - t - (decimalText q).length = (8 - t) + 1 by omega,
      List.take_succ_cons]
  have hdecimals : MoneyText.decimals (f.take (8 - t)) = r := by
    rw [decimals_take hflen (by omega), hf, value_zeroPadded, value_decimalText]
    intro j hj hlt
    have hchar := hzero ((decimalText q).length + 1 + j) (by omega) (by omega)
    rw [hstr, List.getElem?_append_right (by omega),
      show (decimalText q).length + 1 + j - (decimalText q).length = j + 1 by omega,
      List.getElem?_cons_succ] at hchar
    exact hchar
  have hfdigit : ∀ c ∈ f, isdigit c = true := by
    rw [hf]
    exact isdigit_zeroPadded (isdigit_decimalText r)
  refine ⟨⟨[], decimalText q, some (f.take (8 - t)), [], List.forall_mem_nil _,
    isdigit_decimalText q, length_decimalText_le (by decide) (by omega), ?_, ?_,
    List.forall_mem_nil _⟩, ?_, ?_⟩
  · intro f' hf' c hc
    obtain rfl := Option.some.inj hf'
    exact hfdigit c (List.mem_of_mem_take hc)
  · intro f' hf'
    obtain rfl := Option.some.inj hf'
    rw [List.length_take]
    omega
  · rw [hformat, MoneyText.text, MoneyText.tail]
    simp only [List.nil_append, List.append_nil]
  · rw [MoneyText.units, Option.getD_some, hdecimals, value_decimalText]
    omega

/-! ## The parser of a `std::string` -/

/-- A text that denotes an amount has no NUL. -/
theorem Denotes.zero_notMem {s : List UInt8} {n : ℕ} (h : Denotes s n) : (0 : UInt8) ∉ s := by
  obtain ⟨m, rfl, -⟩ := h
  have htail : (0 : UInt8) ∉ m.tail := by
    rw [MoneyText.tail]
    split
    · intro h0
      exact absurd (m.trailing_space 0 h0) (by decide)
    · next f hf =>
      intro h0
      rcases List.mem_cons.1 h0 with h0 | h0
      · exact absurd h0 (by decide)
      · rcases List.mem_append.1 h0 with h0 | h0
        · exact absurd (m.fraction_digit f hf 0 h0) (by decide)
        · exact absurd (m.trailing_space 0 h0) (by decide)
  intro h0
  rcases List.mem_append.1 h0 with h0 | h0
  · exact absurd (m.leading_space 0 h0) (by decide)
  · rcases List.mem_append.1 h0 with h0 | h0
    · exact absurd (m.whole_digit 0 h0) (by decide)
    · exact htail h0

/-- **Amounts as texts.**  Formatted amounts are read back; nothing that is read overflows; and the
parser accepts exactly the texts of amounts, with the number they denote, on the strings without a NUL
and on those whose part before it is refused, and on no others. -/
theorem parseMoney_exact_iff (s : List UInt8) :
    (∀ n : ℤ, 0 ≤ n → n < 10 ^ 10 * coin → parseMoney (formatMoney n false) = some n) ∧
    (∀ v, parseMoney s = some v → 0 ≤ v ∧ v < 10 ^ 18) ∧
    ((∀ v, parseMoney s = some v ↔ ∃ n : ℕ, Denotes s n ∧ v = n) ↔
      (0 : UInt8) ∉ s ∨ ¬ ∃ n, Denotes (cStr s) n) := by
  refine ⟨fun n h0 hn => ?_, fun v h => ?_, fun h => ?_, fun h v => ?_⟩
  · obtain ⟨n, rfl⟩ := Int.eq_ofNat_of_zero_le h0
    have hdenotes := @denotes_formatMoney n (by rw [show coin = 10 ^ 8 by rfl] at hn; omega)
    rw [parseMoney, cStr_eq_self hdenotes.zero_notMem, parseMoneyC_iff]
    exact ⟨n, hdenotes, rfl⟩
  · obtain ⟨n, ⟨m, -, rfl⟩, rfl⟩ := (parseMoneyC_iff _ v).1 h
    have := m.units_lt
    omega
  · by_contra hnot
    obtain ⟨hmem, hprefix⟩ := not_or.1 hnot
    obtain ⟨n, hn⟩ := not_not.1 hprefix
    obtain ⟨n', hn', -⟩ := (h n).1 ((parseMoneyC_iff _ _).2 ⟨n, hn, rfl⟩)
    exact hmem hn'.zero_notMem
  · rw [parseMoney, parseMoneyC_iff]
    by_cases hmem : (0 : UInt8) ∈ s
    · have hnone := h.resolve_left (not_not.2 hmem)
      constructor
      · rintro ⟨n, hn, -⟩
        exact absurd ⟨n, hn⟩ hnone
      · rintro ⟨n, hn, -⟩
        exact absurd hmem hn.zero_notMem
    · rw [cStr_eq_self hmem]

/-- **Behind a NUL anything is accepted**: `1`, a NUL and an `x` are read as one coin. -/
theorem parseMoney_embeddedNul :
    parseMoney [49, 0, 120] = some coin ∧ ¬ ∃ n, Denotes [49, 0, 120] n := by
  refine ⟨by decide, ?_⟩
  rintro ⟨n, hn⟩
  exact hn.zero_notMem (by decide)

end FairCoin
