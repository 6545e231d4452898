import FairCoin.Bloom
import FairCoin.Lib.CString
import FairCoin.Lib.Radix

/-!
# Base58

`EncodeBase58`, `DecodeBase58` and `DecodeBase58Check` of `src/base58.cpp`.  The buffers are lists of
digits, the most significant first; a carry that is left, and a count of leading zeros that leaves an
`int`, are faults.

* `Base58Text` — **the texts in base 58**: white space, characters of the alphabet, white space.
* `decodeLoop_eq`, `encodeLoop_eq` — the loops convert between the bases; the estimates of the sizes are
  large enough for every length.
* `Base58Text.decode`, `exists_base58Text` — the decoder accepts these texts and no others.
* `base58_exact_iff` — **when encoder and decoder are inverse to each other**.
-/

namespace FairCoin

open CString Radix

/-! ## The code -/

/-- `pszBase58`. -/
def pszBase58 : List UInt8 :=
  ['1', '2', '3', '4', '5', '6', '7', '8', '9', 'A', 'B', 'C', 'D', 'E', 'F', 'G', 'H', 'J', 'K', 'L',
    'M', 'N', 'P', 'Q', 'R', 'S', 'T', 'U', 'V', 'W', 'X', 'Y', 'Z', 'a', 'b', 'c', 'd', 'e', 'f', 'g',
    'h', 'i', 'j', 'k', 'm', 'n', 'o', 'p', 'q', 'r', 's', 't', 'u', 'v', 'w', 'x', 'y', 'z'].map
    fun c => UInt8.ofNat c.toNat

/-- The first character of the alphabet, `1`. -/
def base58Zero : UInt8 := 49

/-- How a conversion goes wrong: an assertion on the carry, or the counter of leading zeros. -/
inductive Base58Fault where
  | carry
  | zeroes
  deriving DecidableEq, Repr

/-- The characters up to the next white space, into the buffer; `none` where the source returns
false. -/
def decodeLoop (b256 : List ℕ) :
    List UInt8 → Except Base58Fault (Option (List ℕ × List UInt8))
  | [] => .ok (some (b256, []))
  | c :: psz =>
      if isspace c then .ok (some (b256, c :: psz))
      else if c ∉ pszBase58 then .ok none
      else
        let product := mulAdd 256 58 b256 (pszBase58.idxOf c)
        if product.2 ≠ 0 then .error .carry else decodeLoop product.1 psz

/-- `DecodeBase58` of a `char*`: the result, and `vch` after the call. -/
def decodeBase58C (psz vch : List UInt8) : Except Base58Fault (Bool × List UInt8) :=
  let psz := psz.dropWhile isspace
  let zeroes := (psz.takeWhile (· == base58Zero)).length
  let psz := psz.dropWhile (· == base58Zero)
  if 2 ^ 31 ≤ zeroes then .error .zeroes
  else
    match decodeLoop (List.replicate (psz.length * 733 / 1000 + 1) 0) psz with
    | .error fault => .error fault
    | .ok none => .ok (false, vch)
    | .ok (some (b256, psz)) =>
        if psz.dropWhile isspace ≠ [] then .ok (false, vch)
        else .ok (true, List.replicate zeroes 0 ++ (b256.dropWhile (· == 0)).map UInt8.ofNat)

/-- The bytes, into the buffer. -/
def encodeLoop (b58 : List ℕ) : List UInt8 → Except Base58Fault (List ℕ)
  | [] => .ok b58
  | c :: p =>
      let product := mulAdd 58 256 b58 c.toNat
      if product.2 ≠ 0 then .error .carry else encodeLoop product.1 p

/-- `EncodeBase58`. -/
def encodeBase58 (vch : List UInt8) : Except Base58Fault (List UInt8) :=
  let zeroes := (vch.takeWhile (· == 0)).length
  let p := vch.dropWhile (· == 0)
  if 2 ^ 31 ≤ zeroes then .error .zeroes
  else
    match encodeLoop (List.replicate (p.length * 138 / 100 + 1) 0) p with
    | .error fault => .error fault
    | .ok b58 => .ok (List.replicate zeroes base58Zero ++
        (b58.dropWhile (· == 0)).map fun d => pszBase58.getD d 0)

/-- `DecodeBase58` of a `std::string`. -/
def decodeBase58 (str vch : List UInt8) : Except Base58Fault (Bool × List UInt8) :=
  decodeBase58C (cStr str) vch

section Check

variable (hash : List UInt8 → UInt256)

/-- The 4-byte checksum of a string of bytes. -/
def base58Checksum (vch : List UInt8) : List UInt8 := (uint256Bytes (hash vch)).take 4

/-- `EncodeBase58Check`. -/
def encodeBase58Check (vchIn : List UInt8) : Except Base58Fault (List UInt8) :=
  encodeBase58 (vchIn ++ base58Checksum hash vchIn)

/-- `DecodeBase58Check` of a `char*`. -/
def decodeBase58CheckC (psz vchRet : List UInt8) : Except Base58Fault (Bool × List UInt8) :=
  match decodeBase58C psz vchRet with
  | .error fault => .error fault
  | .ok (false, _) => .ok (false, [])
  | .ok (true, vchRet) =>
      if vchRet.length < 4 then .ok (false, [])
      else if base58Checksum hash (vchRet.take (vchRet.length - 4)) ≠
          vchRet.drop (vchRet.length - 4) then .ok (false, [])
      else .ok (true, vchRet.take (vchRet.length - 4))

/-- `DecodeBase58Check` of a `std::string`. -/
def decodeBase58Check (str vchRet : List UInt8) : Except Base58Fault (Bool × List UInt8) :=
  decodeBase58CheckC hash (cStr str) vchRet

end Check

/-! ## The alphabet -/

theorem pszBase58_nodup : pszBase58.Nodup := by
  have hsorted : (pszBase58.map UInt8.toNat).IsChain (· < ·) := by decide +kernel
  exact List.Nodup.of_map _ ((List.isChain_iff_pairwise.1 hsorted).imp fun h => ne_of_lt h)

theorem pszBase58_length : pszBase58.length = 58 := rfl

theorem isspace_pszBase58 : ∀ c ∈ pszBase58, isspace c = false := by
  have hall : (pszBase58.all fun c => !isspace c) = true := by decide
  intro c hc
  simpa using List.all_eq_true.1 hall c hc

theorem base58Zero_mem : base58Zero ∈ pszBase58 := by decide

theorem idxOf_lt {c : UInt8} (h : c ∈ pszBase58) : pszBase58.idxOf c < 58 :=
  List.idxOf_lt_length_of_mem h

theorem idxOf_eq_zero {c : UInt8} : pszBase58.idxOf c = 0 ↔ c = base58Zero := by
  constructor
  · intro h
    have hmem : c ∈ pszBase58 := by
      rw [← List.idxOf_lt_length_iff, h]
      decide
    have hget := List.getElem_idxOf (List.idxOf_lt_length_of_mem hmem)
    rw [← hget]
    simp only [h]
    rfl
  · rintro rfl
    rfl

/-- The character of an index of a character. -/
theorem getD_idxOf {c : UInt8} (h : c ∈ pszBase58) : pszBase58.getD (pszBase58.idxOf c) 0 = c := by
  have hlt := List.idxOf_lt_length_of_mem h
  rw [List.getD_eq_getElem _ _ hlt]
  exact List.getElem_idxOf hlt

/-- The index of a character of an index. -/
theorem idxOf_getD {d : ℕ} (h : d < 58) : pszBase58.idxOf (pszBase58.getD d 0) = d := by
  have hlt : d < pszBase58.length := h
  rw [List.getD_eq_getElem _ _ hlt]
  exact pszBase58_nodup.idxOf_getElem d hlt

theorem getD_mem {d : ℕ} (h : d < 58) : pszBase58.getD d 0 ∈ pszBase58 := by
  have hlt : d < pszBase58.length := h
  rw [List.getD_eq_getElem _ _ hlt]
  exact List.getElem_mem hlt

/-! ## The sizes of the buffers -/

/-- **`733 / 1000`** is above the logarithm of 58 to 256. -/
theorem b256_size (n : ℕ) : 58 ^ n < 256 ^ (n * 733 / 1000 + 1) :=
  pow_lt_pow_of_ratio (by decide) (by decide) (by decide +kernel) n

/-- **`138 / 100`** is above the logarithm of 256 to 58. -/
theorem b58_size (n : ℕ) : 256 ^ n < 58 ^ (n * 138 / 100 + 1) :=
  pow_lt_pow_of_ratio (by decide) (by decide) (by decide) n

/-! ## The loops -/

/-- The characters before the next white space. -/
def word (psz : List UInt8) : List UInt8 := psz.takeWhile (fun c => !isspace c)

/-- The next white space, and what follows it. -/
def afterWord (psz : List UInt8) : List UInt8 := psz.dropWhile (fun c => !isspace c)

/-- **The loop of the decoder.**  In a buffer with room for all characters it stops at the first that
is not in the alphabet, and otherwise converts the word. -/
theorem decodeLoop_eq {psz : List UInt8} : ∀ {b256 : List ℕ}, (∀ d ∈ b256, d < 256) →
    (value 256 b256 + 1) * 58 ^ psz.length ≤ 256 ^ b256.length →
      ((∀ c ∈ word psz, c ∈ pszBase58) → ∃ b, horner 256 58 b256 ((word psz).map pszBase58.idxOf) =
          some b ∧ decodeLoop b256 psz = .ok (some (b, afterWord psz))) ∧
      (¬ (∀ c ∈ word psz, c ∈ pszBase58) → decodeLoop b256 psz = .ok none) := by
  induction psz with
  | nil =>
    intro b256 _ _
    exact ⟨fun _ => ⟨b256, rfl, rfl⟩, fun h => absurd (List.forall_mem_nil _) h⟩
  | cons c psz ih =>
    intro b256 hdigits hfits
    by_cases hspace : isspace c = true
    · have hword : word (c :: psz) = [] := List.takeWhile_cons_of_neg (by simp [hspace])
      have hafter : afterWord (c :: psz) = c :: psz := List.dropWhile_cons_of_neg (by simp [hspace])
      rw [hword, hafter, decodeLoop, if_pos hspace]
      exact ⟨fun _ => ⟨b256, rfl, rfl⟩, fun h => absurd (List.forall_mem_nil _) h⟩
    · have hword : word (c :: psz) = c :: word psz := List.takeWhile_cons_of_pos (by simp [hspace])
      have hafter : afterWord (c :: psz) = afterWord psz :=
        List.dropWhile_cons_of_pos (by simp [hspace])
      rw [hword, hafter, decodeLoop, if_neg hspace, List.forall_mem_cons]
      by_cases hmem : c ∈ pszBase58
      · -- the invariant: the buffer has room for the characters that are left
        have hidx := idxOf_lt hmem
        have hroom : (58 * value 256 b256 + pszBase58.idxOf c + 1) * 58 ^ psz.length ≤
            256 ^ b256.length := by
          refine le_trans ?_ hfits
          rw [List.length_cons, pow_succ', ← mul_assoc]
          apply Nat.mul_le_mul_right
          omega
        have hpos : 0 < 58 ^ psz.length := by positivity
        have hstep := Nat.le_mul_of_pos_right (58 * value 256 b256 + pszBase58.idxOf c + 1) hpos
        have hcarry := mulAdd_carry (b := 256) (m := 58) (l := b256) (c := pszBase58.idxOf c)
          (by omega)
        have hvalue := mulAdd_value 256 58 b256 (pszBase58.idxOf c)
        rw [hcarry, Nat.mul_zero, Nat.add_zero] at hvalue
        obtain ⟨hgood, hbad⟩ := ih (fun d hd => lt_of_mem_mulAdd (by decide) hd)
          (by rw [hvalue, length_mulAdd]; exact hroom)
        rw [if_neg (not_not.2 hmem)]
        dsimp only
        rw [if_neg (not_not.2 hcarry), List.map_cons, horner, if_pos hcarry]
        exact ⟨fun h => hgood h.2, fun h => hbad fun hall => h ⟨hmem, hall⟩⟩
      · rw [if_pos hmem]
        exact ⟨fun h => absurd h.1 hmem, fun _ => rfl⟩

/-- **The loop of the encoder** converts the bytes. -/
theorem encodeLoop_eq {p : List UInt8} : ∀ {b58 b : List ℕ},
    horner 58 256 b58 (p.map UInt8.toNat) = some b → encodeLoop b58 p = .ok b := by
  induction p with
  | nil =>
    intro b58 b h
    rw [encodeLoop, Option.some.inj h]
  | cons c p ih =>
    intro b58 b h
    rw [List.map_cons, horner] at h
    split at h
    · next hcarry =>
      rw [encodeLoop]
      rw [if_neg (not_not.2 hcarry)]
      exact ih h
    · cases h

theorem value_bytes_lt (p : List UInt8) : value 256 (p.map UInt8.toNat) < 256 ^ p.length := by
  have h := @value_lt 256 (p.map UInt8.toNat) (by
    intro d hd
    obtain ⟨c, -, rfl⟩ := List.mem_map.1 hd
    exact c.toNat_lt)
  rwa [List.length_map] at h

theorem value_characters_lt {t : List UInt8} (h : ∀ c ∈ t, c ∈ pszBase58) :
    value 58 (t.map pszBase58.idxOf) < 58 ^ t.length := by
  have hlt := @value_lt 58 (t.map pszBase58.idxOf) (by
    intro d hd
    obtain ⟨c, hc, rfl⟩ := List.mem_map.1 hd
    exact idxOf_lt (h c hc))
  rwa [List.length_map] at hlt

/-! ## The encoder -/

/-- The zero bytes that a string starts with. -/
def leadingZeros (vch : List UInt8) : ℕ := (vch.takeWhile (· == 0)).length

/-- The characters of a number. -/
def base58Numeral (n : ℕ) : List UInt8 := (numeral 58 n).map fun d => pszBase58.getD d 0

/-- **What the encoder returns.** -/
theorem encodeBase58_eq {vch : List UInt8} (h : leadingZeros vch < 2 ^ 31) :
    encodeBase58 vch = .ok (List.replicate (leadingZeros vch) base58Zero ++
      base58Numeral (value 256 ((vch.dropWhile (· == 0)).map UInt8.toNat))) := by
  obtain ⟨b58, hrun, hnumeral⟩ := horner_replicate (b := 58) (m := 256)
    (l := (vch.dropWhile (· == 0)).map UInt8.toNat) (by decide) (by decide)
    ((value_bytes_lt _).trans (b58_size _))
  have hcount : ¬ 2 ^ 31 ≤ (vch.takeWhile (· == 0)).length := not_le.2 h
  rw [encodeBase58, if_neg hcount, encodeLoop_eq hrun]
  dsimp only
  rw [hnumeral]
  rfl

theorem encodeBase58_zeroes {vch : List UInt8} (h : 2 ^ 31 ≤ leadingZeros vch) :
    encodeBase58 vch = .error .zeroes := if_pos h

/-! ## The decoder -/

/-- **A text in base 58**, in its parts. -/
structure Base58Text where
  leading : List UInt8
  body : List UInt8
  trailing : List UInt8
  leading_space : ∀ c ∈ leading, isspace c = true
  body_mem : ∀ c ∈ body, c ∈ pszBase58
  trailing_space : ∀ c ∈ trailing, isspace c = true

/-- The characters `1` that a text starts with. -/
def leadingOnes (body : List UInt8) : ℕ := (body.takeWhile (· == base58Zero)).length

/-- The bytes of a body. -/
def base58Bytes (body : List UInt8) : List UInt8 :=
  List.replicate (leadingOnes body) 0 ++ (numeral 256 (value 58
    ((body.dropWhile (· == base58Zero)).map pszBase58.idxOf))).map UInt8.ofNat

namespace Base58Text

/-- The characters. -/
def text (m : Base58Text) : List UInt8 := m.leading ++ (m.body ++ m.trailing)

theorem trimmed_text (m : Base58Text) : trimmed m.text = m.body :=
  trimmed_append m.leading_space m.trailing_space fun c hc => isspace_pszBase58 c (m.body_mem c hc)

theorem zero_notMem (m : Base58Text) : (0 : UInt8) ∉ m.text := by
  intro h
  rcases List.mem_append.1 h with h | h
  · exact absurd (m.leading_space 0 h) (by decide)
  · rcases List.mem_append.1 h with h | h
    · exact absurd (m.body_mem 0 h) (by decide)
    · exact absurd (m.trailing_space 0 h) (by decide)

/-- The text behind the leading white space; nothing is left of white space alone. -/
theorem dropWhile_text (m : Base58Text) : ∃ post : List UInt8, (∀ c ∈ post, isspace c = true) ∧
    m.text.dropWhile isspace = m.body ++ post := by
  cases hb : m.body with
  | nil =>
    refine ⟨[], List.forall_mem_nil _, ?_⟩
    rw [text, hb, List.nil_append, List.nil_append, List.dropWhile_eq_nil_iff]
    intro c hc
    rcases List.mem_append.1 hc with hc | hc
    · exact m.leading_space c hc
    · exact m.trailing_space c hc
  | cons d w =>
    have hdrop := span_append (p := isspace) (t := m.body ++ m.trailing) m.leading_space (by
      intro c hc
      rw [hb] at hc
      obtain rfl := Option.some.inj hc
      exact isspace_pszBase58 d (m.body_mem d (hb ▸ List.mem_cons_self)))
    exact ⟨m.trailing, m.trailing_space, by rw [text, hdrop.2, hb]⟩

end Base58Text

/-- White space, and what is no white space, is no `1`. -/
theorem base58Zero_split {body post : List UInt8} (hpost : ∀ c ∈ post, isspace c = true) :
    (body ++ post).takeWhile (· == base58Zero) = body.takeWhile (· == base58Zero) ∧
      (body ++ post).dropWhile (· == base58Zero) = body.dropWhile (· == base58Zero) ++ post := by
  have hhead : ∀ c ∈ (body.dropWhile (· == base58Zero) ++ post).head?, (c == base58Zero) = false := by
    intro c hc
    cases hrest : body.dropWhile (· == base58Zero) with
    | nil =>
      rw [hrest] at hc
      have hspace := hpost c (List.mem_of_mem_head? hc)
      refine beq_eq_false_iff_ne.2 ?_
      rintro rfl
      exact absurd hspace (by decide)
    | cons d w =>
      rw [hrest] at hc
      obtain rfl := Option.some.inj hc
      exact head?_dropWhile d (by rw [hrest]; rfl)
  have h := span_append (s := body.takeWhile (· == base58Zero)) (fun c hc => of_mem_takeWhile hc) hhead
  rwa [← List.append_assoc, List.takeWhile_append_dropWhile] at h

/-- **The decoder reads a text in base 58.** -/
theorem Base58Text.decode (m : Base58Text) (vch : List UInt8) :
    decodeBase58C m.text vch = if 2 ^ 31 ≤ leadingOnes m.body then .error .zeroes
      else .ok (true, base58Bytes m.body) := by
  obtain ⟨post, hpost, hdrop⟩ := m.dropWhile_text
  obtain ⟨hones, hrest⟩ := @base58Zero_split m.body post hpost
  obtain ⟨t, ht⟩ : ∃ t, t = m.body.dropWhile (· == base58Zero) := ⟨_, rfl⟩
  have hmem : ∀ c ∈ t, c ∈ pszBase58 := by
    intro c hc
    rw [ht] at hc
    exact m.body_mem c ((List.dropWhile_sublist _).subset hc)
  have hsplit := span_append (p := fun c => !isspace c) (s := t) (t := post)
    (fun c hc => by rw [isspace_pszBase58 c (hmem c hc)]; rfl)
    (fun c hc => by rw [hpost c (List.mem_of_mem_head? hc)]; rfl)
  have hword : word (t ++ post) = t := hsplit.1
  have hafter : afterWord (t ++ post) = post := hsplit.2
  rw [decodeBase58C]
  rw [hdrop, hones, hrest, ← ht]
  by_cases hmany : 2 ^ 31 ≤ (m.body.takeWhile (· == base58Zero)).length
  · rw [if_pos hmany]
    exact (if_pos hmany).symm
  · have hbuffer : ∀ d ∈ List.replicate ((t ++ post).length * 733 / 1000 + 1) 0, d < 256 := by
      intro d hd
      rw [List.eq_of_mem_replicate hd]
      decide
    have hsize := b256_size (t ++ post).length
    obtain ⟨b, hrun, hloop⟩ := (@decodeLoop_eq (t ++ post) _ hbuffer (by
      rw [value_replicate_zero, List.length_replicate]
      omega)).1 (by rwa [hword])
    rw [hword] at hrun
    obtain ⟨b', hrun', hnumeral⟩ := horner_replicate (b := 256) (m := 58)
      (k := (t ++ post).length * 733 / 1000 + 1) (l := t.map pszBase58.idxOf) (by decide) (by decide)
      (((value_characters_lt hmem).trans_le (Nat.pow_le_pow_right (by decide)
        (by rw [List.length_append]; omega))).trans hsize)
    obtain rfl : b' = b := Option.some.inj (hrun'.symm.trans hrun)
    rw [if_neg hmany, hloop, hafter]
    dsimp only
    rw [List.dropWhile_eq_nil_iff.2 hpost, if_neg (not_not.2 rfl), hnumeral, base58Bytes, ← ht]
    exact (if_neg hmany).symm

/-- **What the decoder accepts is a text in base 58**, and its assertion never fails. -/
theorem decodeBase58C_cases (psz vch : List UInt8) :
    (∃ m : Base58Text, m.text = psz) ∨ decodeBase58C psz vch = .error .zeroes ∨
      decodeBase58C psz vch = .ok (false, vch) := by
  obtain ⟨p, hp⟩ : ∃ p, p = psz.dropWhile isspace := ⟨_, rfl⟩
  obtain ⟨q, hq⟩ : ∃ q, q = p.dropWhile (· == base58Zero) := ⟨_, rfl⟩
  have hpsz : psz.takeWhile isspace ++ p = psz := by rw [hp, List.takeWhile_append_dropWhile]
  have hones : p.takeWhile (· == base58Zero) ++ q = p := by
    rw [hq, List.takeWhile_append_dropWhile]
  have hword : word q ++ afterWord q = q := List.takeWhile_append_dropWhile
  rw [decodeBase58C, ← hp, ← hq]
  by_cases hmany : 2 ^ 31 ≤ (p.takeWhile (· == base58Zero)).length
  · rw [if_pos hmany]
    exact .inr (.inl rfl)
  · have hbuffer : ∀ d ∈ List.replicate (q.length * 733 / 1000 + 1) 0, d < 256 := by
      intro d hd
      rw [List.eq_of_mem_replicate hd]
      decide
    have hsize := b256_size q.length
    obtain ⟨hgood, hbad⟩ := @decodeLoop_eq q _ hbuffer (by
      rw [value_replicate_zero, List.length_replicate]
      omega)
    rw [if_neg hmany]
    by_cases hall : ∀ c ∈ word q, c ∈ pszBase58
    · obtain ⟨b, -, hloop⟩ := hgood hall
      rw [hloop]
      dsimp only
      by_cases hrest : (afterWord q).dropWhile isspace = []
      · left
        refine ⟨⟨psz.takeWhile isspace, p.takeWhile (· == base58Zero) ++ word q, afterWord q,
          fun c hc => of_mem_takeWhile hc, ?_, List.dropWhile_eq_nil_iff.1 hrest⟩, ?_⟩
        · intro c hc
          rcases List.mem_append.1 hc with hc | hc
          · have hc := of_mem_takeWhile hc
            rw [beq_iff_eq.1 hc]
            exact base58Zero_mem
          · exact hall c hc
        · rw [Base58Text.text]
          dsimp only
          rw [List.append_assoc, hword, hones, hpsz]
      · rw [if_pos hrest]
        exact .inr (.inr rfl)
    · rw [hbad hall]
      exact .inr (.inr rfl)

/-- **The texts that are accepted**, with the bytes they stand for. -/
theorem decodeBase58C_iff (psz vch r : List UInt8) : decodeBase58C psz vch = .ok (true, r) ↔
    ∃ m : Base58Text, m.text = psz ∧ leadingOnes m.body < 2 ^ 31 ∧ r = base58Bytes m.body := by
  constructor
  · intro h
    rcases decodeBase58C_cases psz vch with ⟨m, rfl⟩ | hfault | hfalse
    · rw [m.decode] at h
      split at h
      · cases h
      · next hmany =>
        refine ⟨m, rfl, not_le.1 hmany, ?_⟩
        cases h
        rfl
    · rw [hfault] at h
      cases h
    · rw [hfalse] at h
      cases h
  · rintro ⟨m, rfl, hlt, rfl⟩
    rw [m.decode, if_neg (not_le.2 hlt)]

/-- No assertion of the decoder fails. -/
theorem decodeBase58C_ne_carry (psz vch : List UInt8) :
    decodeBase58C psz vch ≠ .error .carry := by
  intro h
  rcases decodeBase58C_cases psz vch with ⟨m, rfl⟩ | hfault | hfalse
  · rw [m.decode] at h
    split at h <;> cases h
  · rw [hfault] at h
    cases h
  · rw [hfalse] at h
    cases h

/-- No assertion of the encoder fails. -/
theorem encodeBase58_ne_carry (vch : List UInt8) : encodeBase58 vch ≠ .error .carry := by
  intro h
  rcases Nat.lt_or_ge (leadingZeros vch) (2 ^ 31) with hlt | hge
  · rw [encodeBase58_eq hlt] at h
    cases h
  · rw [encodeBase58_zeroes hge] at h
    cases h

/-! ## Round trips -/

/-- What starts with no more than the repeated element. -/
theorem split_replicate {α : Type*} [BEq α] [LawfulBEq α] {x : α} {n : ℕ} {ys : List α}
    (h : ys.head? ≠ some x) : (List.replicate n x ++ ys).takeWhile (· == x) = List.replicate n x ∧
      (List.replicate n x ++ ys).dropWhile (· == x) = ys := by
  apply span_append
  · intro c hc
    rw [List.eq_of_mem_replicate hc]
    exact beq_self_eq_true x
  · intro c hc
    refine beq_eq_false_iff_ne.2 ?_
    rintro rfl
    exact h hc

/-- The elements that are dropped are all the same. -/
theorem replicate_append_dropWhile {α : Type*} [BEq α] [LawfulBEq α] (x : α) (l : List α) :
    List.replicate (l.takeWhile (· == x)).length x ++ l.dropWhile (· == x) = l := by
  have h : l.takeWhile (· == x) = List.replicate (l.takeWhile (· == x)).length x := by
    rw [List.eq_replicate_iff]
    refine ⟨rfl, fun c hc => ?_⟩
    have heq : (c == x) = true := @of_mem_takeWhile _ (· == x) _ _ hc
    exact beq_iff_eq.1 heq
  rw [← h, List.takeWhile_append_dropWhile]

theorem head?_map_ne {f : ℕ → UInt8} {x : UInt8} {ds : List ℕ} (h : ds.head? ≠ some 0)
    (hf : ∀ d ∈ ds, f d = x → d = 0) : (ds.map f).head? ≠ some x := by
  cases ds with
  | nil => exact fun h => nomatch h
  | cons d ds =>
    intro hx
    have hd := hf d List.mem_cons_self (Option.some.inj hx)
    exact h (congrArg some hd)

theorem base58Numeral_head (n : ℕ) : (base58Numeral n).head? ≠ some base58Zero := by
  apply head?_map_ne (head?_numeral 58 n)
  intro d hd h
  have hlt := lt_of_mem_numeral (by decide) hd
  rw [← idxOf_getD hlt, h]
  rfl

theorem base58Numeral_mem (n : ℕ) : ∀ c ∈ base58Numeral n, c ∈ pszBase58 := by
  intro c hc
  obtain ⟨d, hd, rfl⟩ := List.mem_map.1 hc
  exact getD_mem (lt_of_mem_numeral (by decide) hd)

theorem base58Numeral_map (n : ℕ) : (base58Numeral n).map pszBase58.idxOf = numeral 58 n := by
  rw [base58Numeral, List.map_map]
  refine (List.map_congr_left fun d hd => ?_).trans (List.map_id _)
  exact idxOf_getD (lt_of_mem_numeral (by decide) hd)

/-- Bytes without leading zeros are those of their number. -/
theorem numeral_bytes {l : List UInt8} (h : l.head? ≠ some 0) :
    (numeral 256 (value 256 (l.map UInt8.toNat))).map UInt8.ofNat = l := by
  have hstart : (l.map UInt8.toNat).dropWhile (· == 0) = l.map UInt8.toNat := by
    cases l with
    | nil => rfl
    | cons c l =>
      rw [List.map_cons, List.dropWhile_cons_of_neg]
      intro hc
      exact h (congrArg some (UInt8.toNat_inj.1 (beq_iff_eq.1 hc)))
  rw [numeral_value (by decide), hstart, List.map_map]
  · exact (List.map_congr_left fun c _ => UInt8.ofNat_toNat).trans (List.map_id _)
  · intro d hd
    obtain ⟨c, -, rfl⟩ := List.mem_map.1 hd
    exact c.toNat_lt

/-- Characters without leading `1`s are those of their number. -/
theorem base58Numeral_characters {t : List UInt8} (ht : ∀ c ∈ t, c ∈ pszBase58)
    (h : t.head? ≠ some base58Zero) : base58Numeral (value 58 (t.map pszBase58.idxOf)) = t := by
  have hstart : (t.map pszBase58.idxOf).dropWhile (· == 0) = t.map pszBase58.idxOf := by
    cases t with
    | nil => rfl
    | cons c t =>
      rw [List.map_cons, List.dropWhile_cons_of_neg]
      intro hc
      exact h (congrArg some (idxOf_eq_zero.1 (beq_iff_eq.1 hc)))
  rw [base58Numeral, numeral_value (by decide), hstart, List.map_map]
  · refine (List.map_congr_left fun c hc => ?_).trans (List.map_id _)
    exact getD_idxOf (ht c hc)
  · intro d hd
    obtain ⟨c, hc, rfl⟩ := List.mem_map.1 hd
    exact idxOf_lt (ht c hc)

theorem head?_dropWhile_ne {α : Type*} [BEq α] [LawfulBEq α] (x : α) (l : List α) :
    (l.dropWhile (· == x)).head? ≠ some x := by
  intro h
  have := head?_dropWhile x h
  rw [beq_self_eq_true] at this
  cases this

/-- **Bytes, encoded and decoded.** -/
theorem decodeBase58_encodeBase58 {v : List UInt8} (h : leadingZeros v < 2 ^ 31)
    (vch : List UInt8) :
    ∃ text, encodeBase58 v = .ok text ∧ decodeBase58 text vch = .ok (true, v) := by
  obtain ⟨n, hn⟩ : ∃ n, n = value 256 ((v.dropWhile (· == 0)).map UInt8.toNat) := ⟨_, rfl⟩
  have hencode := encodeBase58_eq h
  rw [← hn] at hencode
  refine ⟨_, hencode, ?_⟩
  obtain ⟨hones, hrest⟩ := split_replicate (n := leadingZeros v) (base58Numeral_head n)
  obtain ⟨m, hm⟩ : ∃ m : Base58Text, m = ⟨[], List.replicate (leadingZeros v) base58Zero ++
      base58Numeral n, [], List.forall_mem_nil _, by
        intro c hc
        rcases List.mem_append.1 hc with hc | hc
        · rw [List.eq_of_mem_replicate hc]
          exact base58Zero_mem
        · exact base58Numeral_mem n c hc, List.forall_mem_nil _⟩ := ⟨_, rfl⟩
  have hbody : m.body = List.replicate (leadingZeros v) base58Zero ++ base58Numeral n := by rw [hm]
  have htext : m.text = List.replicate (leadingZeros v) base58Zero ++ base58Numeral n := by
    rw [hm, Base58Text.text]
    simp only [List.nil_append, List.append_nil]
  have hcount : leadingOnes m.body = leadingZeros v := by
    rw [leadingOnes, hbody, hones, List.length_replicate]
  rw [decodeBase58, ← htext, cStr_eq_self m.zero_notMem, decodeBase58C_iff]
  refine ⟨m, rfl, by rwa [hcount], ?_⟩
  rw [base58Bytes, hcount, hbody, hrest, base58Numeral_map, value_numeral, hn,
    numeral_bytes (head?_dropWhile_ne 0 v)]
  exact (replicate_append_dropWhile 0 v).symm

/-- **A text, decoded and encoded.** -/
theorem Base58Text.encode (m : Base58Text) (h : leadingOnes m.body < 2 ^ 31) :
    encodeBase58 (base58Bytes m.body) = .ok m.body := by
  obtain ⟨t, ht⟩ : ∃ t, t = m.body.dropWhile (· == base58Zero) := ⟨_, rfl⟩
  obtain ⟨n, hn⟩ : ∃ n, n = value 58 (t.map pszBase58.idxOf) := ⟨_, rfl⟩
  have hmem : ∀ c ∈ t, c ∈ pszBase58 := by
    intro c hc
    rw [ht] at hc
    exact m.body_mem c ((List.dropWhile_sublist _).subset hc)
  have hhead : ((numeral 256 n).map UInt8.ofNat).head? ≠ some 0 := by
    apply head?_map_ne (head?_numeral 256 n)
    intro d hd h
    have hlt := lt_of_mem_numeral (by decide) hd
    have hnat := congrArg UInt8.toNat h
    rwa [UInt8.toNat_ofNat', Nat.mod_eq_of_lt hlt] at hnat
  have hbytes : base58Bytes m.body =
      List.replicate (leadingOnes m.body) 0 ++ (numeral 256 n).map UInt8.ofNat := by
    rw [base58Bytes, ← ht, ← hn]
  obtain ⟨hzeros, hrest⟩ := split_replicate (n := leadingOnes m.body) hhead
  have hcount : leadingZeros (base58Bytes m.body) = leadingOnes m.body := by
    rw [leadingZeros, hbytes, hzeros, List.length_replicate]
  have hdigits : ((numeral 256 n).map UInt8.ofNat).map UInt8.toNat = numeral 256 n := by
    rw [List.map_map]
    refine (List.map_congr_left fun d hd => ?_).trans (List.map_id _)
    have hlt : d < 256 := lt_of_mem_numeral (by decide) hd
    exact UInt8.toNat_ofNat_of_lt hlt
  rw [encodeBase58_eq (by rwa [hcount]), hcount, hbytes, hrest, hdigits, value_numeral, hn,
    base58Numeral_characters hmem (by rw [ht]; exact head?_dropWhile_ne base58Zero m.body), ht]
  exact congrArg _ (replicate_append_dropWhile base58Zero m.body)

/-! ## The checksum -/

section Check

variable {hash : List UInt8 → UInt256}

theorem length_base58Checksum (vch : List UInt8) : (base58Checksum hash vch).length = 4 := by
  have h : (uint256Bytes (hash vch)).length = 32 := Codec.length_putLE 32 _
  rw [base58Checksum, List.length_take, h]
  rfl

/-- **`DecodeBase58Check`** accepts where the decoding ends with the checksum of the rest. -/
theorem decodeBase58CheckC_iff (psz vchRet rest : List UInt8) :
    decodeBase58CheckC hash psz vchRet = .ok (true, rest) ↔
      decodeBase58C psz vchRet = .ok (true, rest ++ base58Checksum hash rest) := by
  rw [decodeBase58CheckC]
  rcases decodeBase58C psz vchRet with fault | ⟨⟨⟩ | ⟨⟩, vch⟩
  · exact iff_of_false (fun h => nomatch h) (fun h => nomatch h)
  · exact iff_of_false (fun h => nomatch h) (fun h => nomatch h)
  · dsimp only
    constructor
    · intro h
      split at h
      · cases h
      · split at h
        · cases h
        · next hsum =>
          cases h
          rw [not_not.1 hsum, List.take_append_drop]
    · intro h
      obtain rfl : vch = rest ++ base58Checksum hash rest := by
        cases h
        rfl
      have hlen : (rest ++ base58Checksum hash rest).length = rest.length + 4 := by
        rw [List.length_append, length_base58Checksum]
      rw [hlen, Nat.add_sub_cancel, List.take_left, List.drop_left, if_neg (by omega),
        if_neg (not_not.2 rfl)]

/-- **Checked bytes, encoded and decoded.** -/
theorem decodeBase58Check_encodeBase58Check {v : List UInt8}
    (h : leadingZeros (v ++ base58Checksum hash v) < 2 ^ 31) (vchRet : List UInt8) :
    ∃ text, encodeBase58Check hash v = .ok text ∧
      decodeBase58Check hash text vchRet = .ok (true, v) := by
  obtain ⟨text, hencode, hdecode⟩ := decodeBase58_encodeBase58 h vchRet
  exact ⟨text, hencode, (decodeBase58CheckC_iff _ _ _).2 hdecode⟩

end Check

/-! ## The strings -/

/-- A string of bytes comes back from its text. -/
def Base58RoundTrips (v vch : List UInt8) : Prop :=
  ∃ text, encodeBase58 v = .ok text ∧ decodeBase58 text vch = .ok (true, v)

/-- A string that is accepted comes back from its bytes, without the white space around it. -/
def DecodesExactly (s vch : List UInt8) : Prop :=
  ∀ r, decodeBase58 s vch = .ok (true, r) → encodeBase58 r = .ok (trimmed s)

/-- A text in base 58 with a count of leading `1`s that an `int` holds. -/
def IsBase58 (s : List UInt8) : Prop :=
  ∃ m : Base58Text, m.text = s ∧ leadingOnes m.body < 2 ^ 31

/-- **Base 58.**  Bytes come back from their text if and only if the count of their leading zeros fits
an `int`.  A string that is accepted comes back from its bytes if it has no NUL, or if the part before
it is refused, and only then.  No assertion on a carry ever fails, and the checked decoder accepts
where the decoding ends with the checksum of the rest. -/
theorem base58_exact_iff (hash : List UInt8 → UInt256) (v s vch : List UInt8) :
    (Base58RoundTrips v vch ↔ leadingZeros v < 2 ^ 31) ∧
    (DecodesExactly s vch ↔ (0 : UInt8) ∉ s ∨ ¬ IsBase58 (cStr s)) ∧
    encodeBase58 v ≠ .error .carry ∧ decodeBase58 s vch ≠ .error .carry ∧
    ∀ rest, decodeBase58Check hash s vch = .ok (true, rest) ↔
      decodeBase58 s vch = .ok (true, rest ++ base58Checksum hash rest) := by
  refine ⟨⟨fun h => ?_, fun h => decodeBase58_encodeBase58 h vch⟩, ⟨fun h => ?_, fun h r hr => ?_⟩,
    encodeBase58_ne_carry v, decodeBase58C_ne_carry _ vch, decodeBase58CheckC_iff _ vch⟩
  · obtain ⟨text, hencode, -⟩ := h
    by_contra hge
    rw [encodeBase58_zeroes (not_lt.1 hge)] at hencode
    cases hencode
  · by_contra hnot
    obtain ⟨hmem, hprefix⟩ := not_or.1 hnot
    obtain ⟨m, hm, hlt⟩ := not_not.1 hprefix
    -- the text of the decoded part has no NUL, the string has one
    have hencode := h _ ((decodeBase58C_iff _ _ _).2 ⟨m, hm, hlt, rfl⟩)
    rw [m.encode hlt] at hencode
    have hbody : m.body = trimmed s := Except.ok.inj hencode
    have hzero := mem_trimmed isspace_zero (not_not.1 hmem)
    rw [← hbody] at hzero
    exact absurd (m.body_mem 0 hzero) (by decide)
  · obtain ⟨m, hm, hlt, rfl⟩ := (decodeBase58C_iff _ _ _).1 hr
    have hmem : (0 : UInt8) ∉ s := h.resolve_right (not_not.2 ⟨m, hm, hlt⟩)
    rw [cStr_eq_self hmem] at hm
    rw [m.encode hlt, ← hm, m.trimmed_text]

/-- **Behind a NUL anything is accepted**: `2`, a NUL and a `0` are decoded as the byte 1, whose text
is `2` alone. -/
theorem decodeBase58_embeddedNul :
    decodeBase58 [50, 0, 48] [] = .ok (true, [1]) ∧ encodeBase58 [1] = .ok [50] ∧
    trimmed [50, 0, 48] = [50, 0, 48] ∧ ¬ DecodesExactly [50, 0, 48] [] := by
  have hdecode : decodeBase58 [50, 0, 48] [] = .ok (true, [1]) := by decide
  have hencode : encodeBase58 [1] = .ok [50] := by decide
  have htrimmed : trimmed [50, 0, 48] = [50, 0, 48] := by decide
  refine ⟨hdecode, hencode, htrimmed, fun h => ?_⟩
  have hback := h [1] hdecode
  rw [hencode, htrimmed] at hback
  cases hback

end FairCoin
