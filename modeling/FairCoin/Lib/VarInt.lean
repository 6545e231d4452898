import FairCoin.Lib.Canonical

/-!
# Variable-length integers, and formats that can lose a value

Numbers in base 128, the most significant digit first.  A digit with its high bit set is followed
by another one, and one is subtracted from the number before each further digit is split off, so
every number has one form.

* `putVarInt`, `getVarInt`, `sizeOfVarInt` — the writer, the reader into an unsigned type of `w`
  bits, and the number of bytes.
* `getVarInt_putVarInt` — **the round trip**, and `length_putVarInt`, the size.
* `sizeOfVarInt_eq_iff` — two numbers take the same number of bytes iff they lie between the same
  thresholds.
* `Faithful`, `Lossy` — a value that comes back, and one that never does.  `Exact c` says that
  `c.fits` tells the two apart; `exact_pair` and `exact_flatMap` carry this to pairs and lists.
-/

namespace Codec

/-! ## Digits -/

/-- A digit; the high bit is set when it is not the last one. -/
def varDigit (last : Bool) (n : ℕ) : UInt8 := UInt8.ofNat (n % 128 + if last then 0 else 128)

/-- Split digits off the end of a number; `tmp` has the ones found so far. -/
def putVarIntLoop : ℕ → ℕ → Bytes → Bytes
  | 0, _, tmp => tmp
  | k + 1, n, tmp =>
      let tmp' := varDigit tmp.isEmpty n :: tmp
      if n ≤ 0x7f then tmp' else putVarIntLoop k (n / 128 - 1) tmp'

/-- Write a number of `w` bits. -/
def putVarInt (w n : ℕ) : Bytes := putVarIntLoop ((w + 6) / 7) n []

/-- Read digits into an unsigned number of `w` bits, which wraps. -/
def getVarIntLoop (w : ℕ) : ℕ → Bytes → Option (ℕ × Bytes)
  | _, [] => none
  | n, b :: bs =>
      let n' := (n * 128 + b.toNat % 128) % 2 ^ w
      if 128 ≤ b.toNat then getVarIntLoop w ((n' + 1) % 2 ^ w) bs else some (n', bs)

/-- Read a number of `w` bits. -/
def getVarInt (w : ℕ) (bs : Bytes) : Option (ℕ × Bytes) := getVarIntLoop w 0 bs

/-- Count the digits of a number. -/
def sizeOfVarIntLoop : ℕ → ℕ → ℕ
  | 0, _ => 0
  | k + 1, n => 1 + if n ≤ 0x7f then 0 else sizeOfVarIntLoop k (n / 128 - 1)

/-- The bytes a number of `w` bits takes. -/
def sizeOfVarInt (w n : ℕ) : ℕ := sizeOfVarIntLoop ((w + 6) / 7) n

theorem length_putVarIntLoop (k n : ℕ) (tmp : Bytes) :
    (putVarIntLoop k n tmp).length = sizeOfVarIntLoop k n + tmp.length := by
  induction k generalizing n tmp with
  | zero => simp [putVarIntLoop, sizeOfVarIntLoop]
  | succ k ih =>
    rw [putVarIntLoop, sizeOfVarIntLoop]
    split
    · rw [List.length_cons]
      omega
    · rw [ih, List.length_cons]
      omega

/-- **The size is the number of bytes written.** -/
theorem length_putVarInt (w n : ℕ) : (putVarInt w n).length = sizeOfVarInt w n := by
  rw [putVarInt, length_putVarIntLoop]
  rfl

/-- Reading a digit that another one follows. -/
theorem getVarIntLoop_more {w m n : ℕ} (bs : Bytes) (hm : m * 128 + n % 128 + 1 < 2 ^ w) :
    getVarIntLoop w m (varDigit false n :: bs) = getVarIntLoop w (m * 128 + n % 128 + 1) bs := by
  have hdigit : (varDigit false n).toNat = n % 128 + 128 :=
    Nat.mod_eq_of_lt (show n % 128 + 128 < 256 by omega)
  have hlow : (n % 128 + 128) % 128 = n % 128 := by omega
  have hhigh : 128 ≤ n % 128 + 128 := by omega
  have hlt : (m * 128 + n % 128) % 2 ^ w = m * 128 + n % 128 := Nat.mod_eq_of_lt (by omega)
  rw [getVarIntLoop, hdigit, hlow, if_pos hhigh, hlt, Nat.mod_eq_of_lt hm]

/-- Reading the last digit. -/
theorem getVarIntLoop_last {w m n : ℕ} (bs : Bytes) (hm : m * 128 + n % 128 < 2 ^ w) :
    getVarIntLoop w m (varDigit true n :: bs) = some (m * 128 + n % 128, bs) := by
  have hdigit : (varDigit true n).toNat = n % 128 :=
    Nat.mod_eq_of_lt (show n % 128 + 0 < 256 by omega)
  have hhigh : ¬128 ≤ n % 128 := by omega
  rw [getVarIntLoop, hdigit, if_neg hhigh, Nat.mod_mod, Nat.mod_eq_of_lt hm]

/-- Reading the digits in front of `tmp` leaves their number plus one to go on with. -/
theorem getVarIntLoop_append {w k : ℕ} : ∀ {n : ℕ} {tmp : Bytes} (rest : Bytes), tmp ≠ [] →
    n < 128 ^ (k + 1) → n + 1 < 2 ^ w →
    getVarIntLoop w 0 (putVarIntLoop (k + 1) n tmp ++ rest) =
      getVarIntLoop w (n + 1) (tmp ++ rest) := by
  induction k with
  | zero =>
    intro n tmp rest htmp hn hw
    have hempty : tmp.isEmpty = false := by simpa using htmp
    have hsmall : n ≤ 0x7f := by omega
    have hmod : n % 128 = n := by omega
    rw [putVarIntLoop, hempty, if_pos hsmall, List.cons_append,
      getVarIntLoop_more _ (by omega), Nat.zero_mul, Nat.zero_add, hmod]
  | succ k ih =>
    intro n tmp rest htmp hn hw
    have hempty : tmp.isEmpty = false := by simpa using htmp
    rw [putVarIntLoop, hempty]
    split
    · next hsmall =>
      have hmod : n % 128 = n := by omega
      rw [List.cons_append, getVarIntLoop_more _ (by omega), Nat.zero_mul, Nat.zero_add, hmod]
    · next hlarge =>
      have hdiv : n / 128 < 128 ^ (k + 1) := by
        rw [Nat.div_lt_iff_lt_mul (by norm_num), ← pow_succ]
        exact hn
      have hsucc : n / 128 - 1 + 1 = n / 128 := by omega
      have hn' : n / 128 * 128 + n % 128 = n := by omega
      rw [ih rest (List.cons_ne_nil _ _) (by omega) (by omega), hsucc, List.cons_append,
        getVarIntLoop_more _ (by omega), hn']

/-- **The round trip**: reading what was written gives the number and the rest. -/
theorem getVarInt_putVarInt {w n : ℕ} (rest : Bytes) (hw : 0 < w) (hn : n < 2 ^ w) :
    getVarInt w (putVarInt w n ++ rest) = some (n, rest) := by
  rw [getVarInt, putVarInt]
  cases hk : (w + 6) / 7 with
  | zero => omega
  | succ k =>
    have hcap : 2 ^ w ≤ 128 ^ (k + 1) := by
      rw [show 128 = 2 ^ 7 from rfl, ← pow_mul]
      exact Nat.pow_le_pow_right (by norm_num) (by omega)
    rw [putVarIntLoop, List.isEmpty_nil]
    split
    · next hsmall =>
      have hmod : n % 128 = n := by omega
      rw [List.cons_append, getVarIntLoop_last _ (by omega), Nat.zero_mul, Nat.zero_add, hmod]
      rfl
    · next hlarge =>
      cases k with
      | zero => omega
      | succ k =>
        have hdiv : n / 128 < 128 ^ (k + 1) := by
          rw [Nat.div_lt_iff_lt_mul (by norm_num), ← pow_succ]
          omega
        have hsucc : n / 128 - 1 + 1 = n / 128 := by omega
        have hn' : n / 128 * 128 + n % 128 = n := by omega
        rw [getVarIntLoop_append rest (List.cons_ne_nil _ _) (by omega) (by omega), hsucc,
          List.cons_append, getVarIntLoop_last _ (by omega), hn']
        rfl

/-! ## Thresholds -/

/-- The numbers below `varIntLimit j` take at most `j` bytes. -/
def varIntLimit : ℕ → ℕ
  | 0 => 0
  | j + 1 => 128 * (varIntLimit j + 1)

theorem sizeOfVarIntLoop_le_iff {k : ℕ} : ∀ {n j : ℕ}, j < k →
    (sizeOfVarIntLoop k n ≤ j ↔ n < varIntLimit j) := by
  induction k with
  | zero => exact fun h => absurd h (Nat.not_lt_zero _)
  | succ k ih =>
    intro n j hj
    rw [sizeOfVarIntLoop]
    cases j with
    | zero => simp [varIntLimit]
    | succ j =>
      rw [varIntLimit]
      split
      · next hsmall =>
        constructor
        · intro _
          omega
        · intro _
          omega
      · next hlarge =>
        have hrec := ih (n := n / 128 - 1) (Nat.lt_of_succ_lt_succ hj)
        constructor
        · intro h
          have hlt := hrec.1 (by omega)
          omega
        · intro h
          have hle := hrec.2 (by omega)
          omega

theorem sizeOfVarIntLoop_le (k n : ℕ) : sizeOfVarIntLoop k n ≤ k := by
  induction k generalizing n with
  | zero => exact Nat.le_refl 0
  | succ k ih =>
    have := ih (n / 128 - 1)
    rw [sizeOfVarIntLoop]
    split <;> omega

/-- The size grows at the thresholds only. -/
theorem sizeOfVarInt_le_of {w a b : ℕ}
    (h : ∀ j < (w + 6) / 7, b < varIntLimit j → a < varIntLimit j) :
    sizeOfVarInt w a ≤ sizeOfVarInt w b := by
  unfold sizeOfVarInt
  rcases Nat.lt_or_ge (sizeOfVarIntLoop ((w + 6) / 7) b) ((w + 6) / 7) with hlt | hge
  · rw [sizeOfVarIntLoop_le_iff hlt]
    exact h _ hlt ((sizeOfVarIntLoop_le_iff hlt).1 (Nat.le_refl _))
  · exact (sizeOfVarIntLoop_le _ _).trans hge

theorem sizeOfVarInt_mono {w a b : ℕ} (h : a ≤ b) : sizeOfVarInt w a ≤ sizeOfVarInt w b :=
  sizeOfVarInt_le_of fun _ _ hb => h.trans_lt hb

/-- Two numbers take the same number of bytes iff no threshold lies between them. -/
theorem sizeOfVarInt_eq_iff {w a b : ℕ} : sizeOfVarInt w a = sizeOfVarInt w b ↔
    ∀ j < (w + 6) / 7, a < varIntLimit j ↔ b < varIntLimit j := by
  constructor
  · intro h j hj
    rw [← sizeOfVarIntLoop_le_iff hj, ← sizeOfVarIntLoop_le_iff hj, ← sizeOfVarInt, h,
      ← sizeOfVarInt]
  · intro h
    exact Nat.le_antisymm (sizeOfVarInt_le_of fun j hj => (h j hj).2)
      (sizeOfVarInt_le_of fun j hj => (h j hj).1)

/-! ## Values that come back -/

/-- Reading what was written gives the value and leaves the rest. -/
def Faithful {α : Type} (c : Format α) (a : α) : Prop :=
  ∀ rest, c.get (c.put a ++ rest) = some (a, rest)

/-- Reading what was written never gives the value. -/
def Lossy {α : Type} (c : Format α) (a : α) : Prop :=
  ∀ rest x, c.get (c.put a ++ rest) = some x → x.1 ≠ a

/-- Of the values with `P`, those that fit come back and the others never do. -/
def Exact {α : Type} (c : Format α) (P : α → Prop) : Prop :=
  ∀ a, P a → (c.fits a = true → Faithful c a) ∧ (c.fits a = false → Lossy c a)

theorem Exact.faithful_iff {α : Type} {c : Format α} {P : α → Prop} (hc : Exact c P) {a : α}
    (ha : P a) : Faithful c a ↔ c.fits a = true := by
  obtain ⟨hfits, hlost⟩ := hc a ha
  constructor
  · intro h
    apply Bool.of_not_eq_false
    intro hf
    exact hlost hf [] (a, []) (h []) rfl
  · exact hfits

theorem exact_pair {α β : Type} {c : Format α} {d : Format β} {P : α → Prop} {Q : β → Prop}
    (hc : Exact c P) (hd : Exact d Q) : Exact (pair c d) fun x => P x.1 ∧ Q x.2 := by
  rintro ⟨a, b⟩ ⟨ha, hb⟩
  obtain ⟨hca, hca'⟩ := hc a ha
  obtain ⟨hdb, hdb'⟩ := hd b hb
  have hget : ∀ rest, (pair c d).get ((pair c d).put (a, b) ++ rest) =
      (c.get (c.put a ++ (d.put b ++ rest))).bind fun x =>
        (d.get x.2).map fun y => ((x.1, y.1), y.2) := by
    intro rest
    rw [← List.append_assoc]
    rfl
  constructor
  · intro hfits rest
    obtain ⟨ha', hb'⟩ := Bool.and_eq_true_iff.1 hfits
    rw [hget, hca ha', Option.bind_some, hdb hb']
    rfl
  · intro hfits rest x hx
    rw [hget] at hx
    obtain ⟨x₁, hx₁, hx₂⟩ := Option.bind_eq_some_iff.1 hx
    obtain ⟨x₂, hget₂, rfl⟩ := Option.map_eq_some_iff.1 hx₂
    intro heq
    obtain ⟨h₁, h₂⟩ := Prod.mk.inj heq
    cases hfa : c.fits a with
    | false => exact hca' hfa _ _ hx₁ h₁
    | true =>
      obtain rfl : (a, d.put b ++ rest) = x₁ := Option.some.inj ((hca hfa _).symm.trans hx₁)
      have hfb : d.fits b = false := by simpa [pair, hfa] using hfits
      exact hdb' hfb _ _ hget₂ h₂

/-- A format through a change of type; a value that the change does not give back does not fit. -/
def imapFits {α β : Type} [DecidableEq α] (c : Format β) (enc : α → β) (dec : β → α) : Format α :=
  { imap c enc dec with fits := fun a => c.fits (enc a) && decide (dec (enc a) = a) }

theorem imapFits_iff {α β : Type} [DecidableEq α] {c : Format β} {enc : α → β} {dec : β → α}
    (a : α) : (imapFits c enc dec).fits a = true ↔ c.fits (enc a) = true ∧ dec (enc a) = a := by
  simp [imapFits]

theorem faithful_imapFits {α β : Type} [DecidableEq α] {c : Format β} {enc : α → β} {dec : β → α}
    {a : α} (hc : Faithful c (enc a)) (rest : Bytes) :
    (imapFits c enc dec).get ((imapFits c enc dec).put a ++ rest) = some (dec (enc a), rest) := by
  change ((c.get (c.put (enc a) ++ rest)).map fun x => (dec x.1, x.2)) = _
  rw [hc rest]
  rfl

/-- The change of type may lose values when the format itself loses none. -/
theorem exact_imap_of_faithful {α β : Type} [DecidableEq α] {c : Format β} {enc : α → β}
    {dec : β → α} {P : α → Prop}
    (hc : ∀ a, P a → c.fits (enc a) = true ∧ Faithful c (enc a)) :
    Exact (imapFits c enc dec) P := by
  intro a ha
  obtain ⟨hfits, hback⟩ := hc a ha
  constructor
  · intro h rest
    rw [faithful_imapFits hback, ((imapFits_iff a).1 h).2]
  · intro h rest x hx heq
    rw [faithful_imapFits hback] at hx
    have hdec : dec (enc a) = a := (congrArg Prod.fst (Option.some.inj hx)).trans heq
    rw [(imapFits_iff a).2 ⟨hfits, hdec⟩] at h
    cases h

/-- The format may lose values when the change of type loses nothing that is read. -/
theorem exact_imap {α β : Type} [DecidableEq α] {c : Format β} {P : β → Prop} (hc : Exact c P)
    {enc : α → β} {dec : β → α} (hdec : ∀ b, enc (dec b) = b) :
    Exact (imapFits c enc dec) fun a => P (enc a) := by
  intro a ha
  obtain ⟨hfaithful, hlost⟩ := hc (enc a) ha
  constructor
  · intro h rest
    obtain ⟨h₁, h₂⟩ := (imapFits_iff a).1 h
    rw [faithful_imapFits (hfaithful h₁), h₂]
  · intro h rest x hx heq
    obtain ⟨y, hy, rfl⟩ := Option.map_eq_some_iff.1 hx
    have hback : y.1 = enc a := by rw [← heq, hdec]
    cases h₁ : c.fits (enc a) with
    | false => exact hlost h₁ _ _ hy hback
    | true =>
      have h₂ : dec (enc a) = a := by
        rw [← hback]
        exact heq
      rw [(imapFits_iff a).2 ⟨h₁, h₂⟩] at h
      cases h

/-- Numbers of `w` bits. -/
def varInt (w : ℕ) : Format ℕ where
  put := putVarInt w
  get := getVarInt w
  fits _ := true

theorem faithful_varInt {w n : ℕ} (hw : 0 < w) (hn : n < 2 ^ w) : Faithful (varInt w) n :=
  fun rest => getVarInt_putVarInt rest hw hn

end Codec
