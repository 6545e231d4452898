import FairCoin.Lib.Repack

/-!
# Base64 and Base32

`EncodeBase64`, `DecodeBase64`, `EncodeBase32` and `DecodeBase32` of `src/utilstrencodings.cpp`.

* `encodeBase64`, `encodeBase32` — machines of three and five modes that put out characters.
* `decodeBase64`, `decodeBase32` — machines of four and eight modes that stop at the first foreign
  character, and the test of what follows it.
* `Encoding`, `Decoding` — in every mode the machine holds some bits; the rest has been repacked.
* `encode_decode`, `decode_encode` — the two directions, for both codes at once.
* `baseDecoders_exact_iff` — **the round trip, and which strings that pass are encodings**.
-/

namespace FairCoin

open Radix

/-! ## Encoders -/

/-- The variables of an encoder. -/
structure EncodeState where
  strRet : List UInt8 := []
  mode : ℕ := 0
  left : ℕ := 0
  deriving DecidableEq, Repr

/-- `pbase64`. -/
def pbase64 : List UInt8 :=
  ['A', 'B', 'C', 'D', 'E', 'F', 'G', 'H', 'I', 'J', 'K', 'L', 'M', 'N', 'O', 'P', 'Q', 'R',
    'S', 'T', 'U', 'V', 'W', 'X', 'Y', 'Z', 'a', 'b', 'c', 'd', 'e', 'f', 'g', 'h', 'i', 'j',
    'k', 'l', 'm', 'n', 'o', 'p', 'q', 'r', 's', 't', 'u', 'v', 'w', 'x', 'y', 'z', '0', '1',
    '2', '3', '4', '5', '6', '7', '8', '9', '+', '/'].map fun c => UInt8.ofNat c.toNat

/-- `pbase32`. -/
def pbase32 : List UInt8 :=
  ['a', 'b', 'c', 'd', 'e', 'f', 'g', 'h', 'i', 'j', 'k', 'l', 'm', 'n', 'o', 'p', 'q', 'r',
    's', 't', 'u', 'v', 'w', 'x', 'y', 'z', '2', '3', '4', '5', '6',
    '7'].map fun c => UInt8.ofNat c.toNat

/-- The padding character, `=`. -/
def padChar : UInt8 := 61

/-- The `switch` of `EncodeBase64`. -/
def encode64Step (s : EncodeState) (enc : ℕ) : EncodeState :=
  match s.mode with
  | 0 => -- we have no bits
      { strRet := s.strRet ++ [pbase64.getD (enc >>> 2) 0], left := (enc &&& 3) <<< 4, mode := 1 }
  | 1 => -- we have two bits
      { strRet := s.strRet ++ [pbase64.getD (s.left ||| enc >>> 4) 0], left := (enc &&& 15) <<< 2
        mode := 2 }
  | 2 => -- we have four bits
      { s with
        strRet := s.strRet ++ [pbase64.getD (s.left ||| enc >>> 6) 0, pbase64.getD (enc &&& 63) 0]
        mode := 0 }
  | _ => s

/-- `EncodeBase64`. -/
def encodeBase64 (pch : List UInt8) : List UInt8 :=
  let s := pch.foldl (fun s c => encode64Step s c.toNat) {}
  if s.mode = 0 then s.strRet
  else s.strRet ++ [pbase64.getD s.left 0] ++ [padChar] ++ if s.mode = 1 then [padChar] else []

/-- The `switch` of `EncodeBase32`. -/
def encode32Step (s : EncodeState) (enc : ℕ) : EncodeState :=
  match s.mode with
  | 0 => -- we have no bits
      { strRet := s.strRet ++ [pbase32.getD (enc >>> 3) 0], left := (enc &&& 7) <<< 2, mode := 1 }
  | 1 => -- we have three bits
      { strRet := s.strRet ++
          [pbase32.getD (s.left ||| enc >>> 6) 0, pbase32.getD ((enc >>> 1) &&& 31) 0]
        left := (enc &&& 1) <<< 4, mode := 2 }
  | 2 => -- we have one bit
      { strRet := s.strRet ++ [pbase32.getD (s.left ||| enc >>> 4) 0], left := (enc &&& 15) <<< 1
        mode := 3 }
  | 3 => -- we have four bits
      { strRet := s.strRet ++
          [pbase32.getD (s.left ||| enc >>> 7) 0, pbase32.getD ((enc >>> 2) &&& 31) 0]
        left := (enc &&& 3) <<< 3, mode := 4 }
  | 4 => -- we have two bits
      { s with
        strRet := s.strRet ++ [pbase32.getD (s.left ||| enc >>> 5) 0, pbase32.getD (enc &&& 31) 0]
        mode := 0 }
  | _ => s

/-- `nPadding`. -/
def nPadding : List ℕ := [0, 6, 4, 3, 1]

/-- `EncodeBase32`. -/
def encodeBase32 (pch : List UInt8) : List UInt8 :=
  let s := pch.foldl (fun s c => encode32Step s c.toNat) {}
  if s.mode = 0 then s.strRet
  else s.strRet ++ [pbase32.getD s.left 0] ++ List.replicate (nPadding.getD s.mode 0) padChar

/-! ## Decoders -/

/-- The variables of a decoder. -/
structure DecodeState where
  vchRet : List UInt8 := []
  mode : ℕ := 0
  left : ℕ := 0
  deriving DecidableEq, Repr

/-- `decode64_table`; `none` stands for `-1`. -/
def decode64Table : List (Option ℕ) :=
  List.replicate 43 none ++ [some 62] ++ List.replicate 3 none ++ [some 63] ++
    (List.range 10).map (fun i => some (52 + i)) ++ List.replicate 7 none ++
    (List.range 26).map some ++ List.replicate 6 none ++
    (List.range 26).map (fun i => some (26 + i)) ++ List.replicate 133 none

/-- `decode32_table`; `none` stands for `-1`. -/
def decode32Table : List (Option ℕ) :=
  List.replicate 50 none ++ (List.range 6).map (fun i => some (26 + i)) ++ List.replicate 9 none ++
    (List.range 26).map some ++ List.replicate 6 none ++ (List.range 26).map some ++
    List.replicate 133 none

/-- A look into `decode64_table`. -/
def decode64 (c : UInt8) : Option ℕ := decode64Table.getD c.toNat none

/-- A look into `decode32_table`. -/
def decode32 (c : UInt8) : Option ℕ := decode32Table.getD c.toNat none

/-- The loop of a decoder, up to the first foreign character or the NUL. -/
def decodeBaseLoop (table : UInt8 → Option ℕ) (step : DecodeState → ℕ → DecodeState) :
    List UInt8 → DecodeState → List UInt8 × DecodeState
  | [], s => ([], s)
  | c :: p, s =>
      match table c with
      | none => (c :: p, s)
      | some dec => decodeBaseLoop table step p (step s dec)

/-- The `switch` of `DecodeBase64`. -/
def decode64Step (s : DecodeState) (dec : ℕ) : DecodeState :=
  match s.mode with
  | 0 => -- we have no bits and get 6
      { s with left := dec, mode := 1 }
  | 1 => -- we have 6 bits and keep 4
      { vchRet := s.vchRet ++ [UInt8.ofNat (s.left <<< 2 ||| dec >>> 4)], left := dec &&& 15
        mode := 2 }
  | 2 => -- we have 4 bits and get 6, we keep 2
      { vchRet := s.vchRet ++ [UInt8.ofNat (s.left <<< 4 ||| dec >>> 2)], left := dec &&& 3
        mode := 3 }
  | 3 => -- we have 2 bits and get 6
      { s with vchRet := s.vchRet ++ [UInt8.ofNat (s.left <<< 6 ||| dec)], mode := 0 }
  | _ => s

/-- The padding that a mode asks for: at the character after the loop stand that many padding
characters, and no digit after them. -/
def padded (table : UInt8 → Option ℕ) (n : ℕ) (p : List UInt8) : Bool :=
  ((List.range n).all fun i => p.getD i 0 == padChar) && (table (p.getD n 0)).isNone

/-- `DecodeBase64`: the bytes, and `*pfInvalid`. -/
def decodeBase64 (p : List UInt8) : List UInt8 × Bool :=
  let (p, s) := decodeBaseLoop decode64 decode64Step p {}
  (s.vchRet,
    match s.mode with
    | 0 => false -- 4n base64 characters processed: ok
    | 1 => true -- 4n+1 base64 character processed: impossible
    | 2 => s.left != 0 || !padded decode64 2 p
    | 3 => s.left != 0 || !padded decode64 1 p
    | _ => false)

/-- The `switch` of `DecodeBase32`. -/
def decode32Step (s : DecodeState) (dec : ℕ) : DecodeState :=
  match s.mode with
  | 0 => -- we have no bits and get 5
      { s with left := dec, mode := 1 }
  | 1 => -- we have 5 bits and keep 2
      { vchRet := s.vchRet ++ [UInt8.ofNat (s.left <<< 3 ||| dec >>> 2)], left := dec &&& 3
        mode := 2 }
  | 2 => -- we have 2 bits and keep 7
      { s with left := s.left <<< 5 ||| dec, mode := 3 }
  | 3 => -- we have 7 bits and keep 4
      { vchRet := s.vchRet ++ [UInt8.ofNat (s.left <<< 1 ||| dec >>> 4)], left := dec &&& 15
        mode := 4 }
  | 4 => -- we have 4 bits, and keep 1
      { vchRet := s.vchRet ++ [UInt8.ofNat (s.left <<< 4 ||| dec >>> 1)], left := dec &&& 1
        mode := 5 }
  | 5 => -- we have 1 bit, and keep 6
      { s with left := s.left <<< 5 ||| dec, mode := 6 }
  | 6 => -- we have 6 bits, and keep 3
      { vchRet := s.vchRet ++ [UInt8.ofNat (s.left <<< 2 ||| dec >>> 3)], left := dec &&& 7
        mode := 7 }
  | 7 => -- we have 3 bits, and keep 0
      { s with vchRet := s.vchRet ++ [UInt8.ofNat (s.left <<< 5 ||| dec)], mode := 0 }
  | _ => s

/-- `DecodeBase32`: the bytes, and `*pfInvalid`. -/
def decodeBase32 (p : List UInt8) : List UInt8 × Bool :=
  let (p, s) := decodeBaseLoop decode32 decode32Step p {}
  (s.vchRet,
    match s.mode with
    | 0 => false -- 8n base32 characters processed: ok
    | 1 | 3 | 6 => true -- 8n+1, +3, +6 base32 characters processed: impossible
    | 2 => s.left != 0 || !padded decode32 6 p
    | 4 => s.left != 0 || !padded decode32 4 p
    | 5 => s.left != 0 || !padded decode32 3 p
    | 7 => s.left != 0 || !padded decode32 1 p
    | _ => false)

/-- The test vector of `foob`. -/
example : encodeBase64 [102, 111, 111, 98] = [90, 109, 57, 118, 89, 103, 61, 61] := by decide

/-! ## Alphabets -/

theorem decode64_pbase64 : ∀ d < 64, decode64 (pbase64.getD d 0) = some d := by decide

theorem decode32_pbase32 : ∀ d < 32, decode32 (pbase32.getD d 0) = some d := by decide

/-- `tolower` of an ASCII character. -/
def toLower (c : UInt8) : UInt8 := if 65 ≤ c ∧ c ≤ 90 then c + 32 else c

set_option maxRecDepth 4096 in
theorem pbase64_decode64 {c : UInt8} {d : ℕ} (h : decode64 c = some d) :
    d < 64 ∧ pbase64.getD d 0 = c := by
  have hall : ∀ n : Fin 256, ((decode64Table.getD n none).all fun d =>
      decide (d < 64) && (pbase64.getD d 0 == UInt8.ofNat n)) = true := by decide
  have hc := hall ⟨c.toNat, c.toNat_lt⟩
  rw [decode64] at h
  rw [h, Option.all_some, Bool.and_eq_true, decide_eq_true_iff, beq_iff_eq] at hc
  rw [hc.2]
  exact ⟨hc.1, UInt8.ofNat_toNat⟩

set_option maxRecDepth 4096 in
theorem pbase32_decode32 {c : UInt8} {d : ℕ} (h : decode32 c = some d) :
    d < 32 ∧ pbase32.getD d 0 = toLower c := by
  have hall : ∀ n : Fin 256, ((decode32Table.getD n none).all fun d =>
      decide (d < 32) && (pbase32.getD d 0 == toLower (UInt8.ofNat n))) = true := by decide
  have hc := hall ⟨c.toNat, c.toNat_lt⟩
  rw [decode32] at h
  rw [h, Option.all_some, Bool.and_eq_true, decide_eq_true_iff, beq_iff_eq] at hc
  rw [hc.2]
  exact ⟨hc.1, congrArg toLower UInt8.ofNat_toNat⟩

/-! ## Bits that are held -/

/-- A number shifted over another one. -/
theorem shiftLeft_or {x y k : ℕ} (hy : y < 2 ^ k) : x <<< k ||| y = x * 2 ^ k + y := by
  rw [Nat.shiftLeft_eq, mul_comm, Nat.two_pow_add_eq_or_of_lt hy]

/-- An encoder in a mode: the bytes so far are the characters put out and some bits, which are kept
in the place they will have in the next character. -/
structure Encoding (b : ℕ) (char : ℕ → UInt8) (heldOf : ℕ → ℕ) (bytes : List UInt8)
    (s : EncodeState) (digits : List ℕ) (bits : ℕ) : Prop where
  strRet : s.strRet = digits.map char
  repacked : Repacked 8 b (bytes.map UInt8.toNat) digits (heldOf s.mode) bits
  left : s.mode ≠ 0 → s.left = bits <<< (b - heldOf s.mode)

/-- A decoder in a mode: the characters so far are the bytes put out and some bits. -/
structure Decoding (b : ℕ) (heldOf : ℕ → ℕ) (digits : List ℕ) (s : DecodeState) (bits : ℕ) :
    Prop where
  repacked : Repacked b 8 digits (s.vchRet.map UInt8.toNat) (heldOf s.mode) bits
  left : s.mode ≠ 0 → s.left = bits

/-- A byte comes in and a character goes out. -/
theorem Encoding.one {b : ℕ} {char : ℕ → UInt8} {heldOf : ℕ → ℕ} {bytes : List UInt8}
    {s s' : EncodeState} {digits : List ℕ} {bits x : ℕ}
    (h : Encoding b char heldOf bytes s digits bits) (c : UInt8)
    (hb : b ≤ heldOf s.mode + 8) (hheld : heldOf s'.mode = heldOf s.mode + 8 - b)
    (hstr : s'.strRet = s.strRet ++ [char x])
    (hx : x = (bits * 2 ^ 8 + c.toNat) / 2 ^ heldOf s'.mode)
    (hleft : s'.mode ≠ 0 → s'.left =
      ((bits * 2 ^ 8 + c.toNat) % 2 ^ heldOf s'.mode) <<< (b - heldOf s'.mode)) :
    Encoding b char heldOf (bytes ++ [c]) s' (digits ++ [x])
      ((bits * 2 ^ 8 + c.toNat) % 2 ^ heldOf s'.mode) := by
  refine ⟨?_, ?_, hleft⟩
  · rw [hstr, h.strRet, List.map_append]
    rfl
  · have hemit := (h.repacked.take c.toNat_lt).emit hb
    rw [← hheld, ← hx] at hemit
    rw [List.map_append]
    exact hemit

/-- A byte comes in and two characters go out. -/
theorem Encoding.two {b : ℕ} {char : ℕ → UInt8} {heldOf : ℕ → ℕ} {bytes : List UInt8}
    {s s' : EncodeState} {digits : List ℕ} {bits x y : ℕ}
    (h : Encoding b char heldOf bytes s digits bits) (c : UInt8)
    (hb : b + b ≤ heldOf s.mode + 8) (hheld : heldOf s'.mode = heldOf s.mode + 8 - b - b)
    (hstr : s'.strRet = s.strRet ++ [char x, char y])
    (hx : x = (bits * 2 ^ 8 + c.toNat) / 2 ^ (heldOf s.mode + 8 - b))
    (hy : y = (bits * 2 ^ 8 + c.toNat) % 2 ^ (heldOf s.mode + 8 - b) / 2 ^ heldOf s'.mode)
    (hleft : s'.mode ≠ 0 → s'.left =
      ((bits * 2 ^ 8 + c.toNat) % 2 ^ (heldOf s.mode + 8 - b) % 2 ^ heldOf s'.mode) <<<
        (b - heldOf s'.mode)) :
    Encoding b char heldOf (bytes ++ [c]) s' (digits ++ [x] ++ [y])
      ((bits * 2 ^ 8 + c.toNat) % 2 ^ (heldOf s.mode + 8 - b) % 2 ^ heldOf s'.mode) := by
  refine ⟨?_, ?_, hleft⟩
  · rw [hstr, h.strRet, List.append_assoc, List.map_append]
    rfl
  · have hemit := ((h.repacked.take c.toNat_lt).emit (by omega)).emit (by omega)
    rw [← hheld, ← hx, ← hy] at hemit
    rw [List.map_append]
    exact hemit

/-- A character comes in and no byte goes out. -/
theorem Decoding.keep {b : ℕ} {heldOf : ℕ → ℕ} {digits : List ℕ} {s s' : DecodeState} {bits dec : ℕ}
    (h : Decoding b heldOf digits s bits) (hdec : dec < 2 ^ b)
    (hheld : heldOf s'.mode = heldOf s.mode + b) (hvch : s'.vchRet = s.vchRet)
    (hleft : s'.mode ≠ 0 → s'.left = bits * 2 ^ b + dec) :
    Decoding b heldOf (digits ++ [dec]) s' (bits * 2 ^ b + dec) := by
  refine ⟨?_, hleft⟩
  rw [hvch, hheld]
  exact h.repacked.take hdec

/-- A character comes in and a byte goes out. -/
theorem Decoding.one {b : ℕ} {heldOf : ℕ → ℕ} {digits : List ℕ} {s s' : DecodeState} {bits dec : ℕ}
    (h : Decoding b heldOf digits s bits) (hdec : dec < 2 ^ b) (hb : 8 ≤ heldOf s.mode + b)
    (hheld : heldOf s'.mode = heldOf s.mode + b - 8) {x : ℕ}
    (hvch : s'.vchRet = s.vchRet ++ [UInt8.ofNat x])
    (hx : x = (bits * 2 ^ b + dec) / 2 ^ heldOf s'.mode)
    (hleft : s'.mode ≠ 0 → s'.left = (bits * 2 ^ b + dec) % 2 ^ heldOf s'.mode) :
    Decoding b heldOf (digits ++ [dec]) s' ((bits * 2 ^ b + dec) % 2 ^ heldOf s'.mode) := by
  refine ⟨?_, hleft⟩
  have hemit := (h.repacked.take hdec).emit hb
  rw [← hheld, ← hx] at hemit
  have hlt : x < 256 := hemit.digits x (by simp)
  have hbyte : (UInt8.ofNat x).toNat = x := Nat.mod_eq_of_lt hlt
  rw [hvch, List.map_append, List.map_singleton, hbyte]
  exact hemit

/-- The bits that `EncodeBase64` holds in a mode. -/
def encode64Held : ℕ → ℕ
  | 1 => 2
  | 2 => 4
  | _ => 0

/-- The bits that `DecodeBase64` holds in a mode. -/
def decode64Held : ℕ → ℕ
  | 1 => 6
  | 2 => 4
  | 3 => 2
  | _ => 0

/-- The bits that `EncodeBase32` holds in a mode. -/
def encode32Held : ℕ → ℕ
  | 1 => 3
  | 2 => 1
  | 3 => 4
  | 4 => 2
  | _ => 0

/-- The bits that `DecodeBase32` holds in a mode. -/
def decode32Held : ℕ → ℕ
  | 1 => 5
  | 2 => 2
  | 3 => 7
  | 4 => 4
  | 5 => 1
  | 6 => 6
  | 7 => 3
  | _ => 0

/-! ## One step -/

theorem encode64Step_encoding {bytes : List UInt8} {s : EncodeState} {digits : List ℕ} {bits : ℕ}
    (hmode : s.mode < 3) (h : Encoding 6 (pbase64.getD · 0) encode64Held bytes s digits bits)
    (c : UInt8) : (encode64Step s c.toNat).mode < 3 ∧ ∃ digits' bits',
      Encoding 6 (pbase64.getD · 0) encode64Held (bytes ++ [c]) (encode64Step s c.toNat) digits'
        bits' := by
  have hc := c.toNat_lt
  have hbound := h.repacked.bound
  have hleft := h.left
  have h3 : c.toNat &&& 3 = c.toNat % 4 := Nat.and_two_pow_sub_one_eq_mod _ 2
  have h15 : c.toNat &&& 15 = c.toNat % 16 := Nat.and_two_pow_sub_one_eq_mod _ 4
  have h63 : c.toNat &&& 63 = c.toNat % 64 := Nat.and_two_pow_sub_one_eq_mod _ 6
  unfold encode64Step
  rw [h3, h15, h63]
  split
  · next hm =>
    rw [hm] at hbound
    refine ⟨Nat.lt_of_sub_eq_succ rfl, _, _, h.one c ?_ ?_ rfl ?_ fun _ => ?_⟩
    · rw [hm]; decide
    · rw [hm]; rfl
    · simp only [encode64Held, Nat.shiftRight_eq_div_pow] at hbound ⊢
      omega
    · simp only [encode64Held] at hbound ⊢
      congr 1
      omega
  · next hm =>
    rw [hm] at hbound hleft
    have hl := hleft (by decide)
    refine ⟨Nat.lt_of_sub_eq_succ rfl, _, _, h.one c ?_ ?_ rfl ?_ fun _ => ?_⟩
    · rw [hm]; decide
    · rw [hm]; rfl
    · simp only [encode64Held, Nat.shiftRight_eq_div_pow] at hl hbound ⊢
      rw [hl, shiftLeft_or (by omega)]
      omega
    · simp only [encode64Held] at hbound ⊢
      congr 1
      omega
  · next hm =>
    rw [hm] at hbound hleft
    have hl := hleft (by decide)
    refine ⟨Nat.lt_of_sub_eq_succ rfl, _, _, h.two c ?_ ?_ rfl ?_ ?_ fun hne => absurd rfl hne⟩
    · rw [hm]; decide
    · rw [hm]; rfl
    · rw [hm]
      simp only [encode64Held, Nat.shiftRight_eq_div_pow] at hl hbound ⊢
      rw [hl, shiftLeft_or (by omega)]
      omega
    · rw [hm]
      simp only [encode64Held] at hbound ⊢
      omega
  · simp only [imp_false] at *
    omega

theorem encode32Step_encoding {bytes : List UInt8} {s : EncodeState} {digits : List ℕ} {bits : ℕ}
    (hmode : s.mode < 5) (h : Encoding 5 (pbase32.getD · 0) encode32Held bytes s digits bits)
    (c : UInt8) : (encode32Step s c.toNat).mode < 5 ∧ ∃ digits' bits',
      Encoding 5 (pbase32.getD · 0) encode32Held (bytes ++ [c]) (encode32Step s c.toNat) digits'
        bits' := by
  have hc := c.toNat_lt
  have hbound := h.repacked.bound
  have hleft := h.left
  have h1 : c.toNat &&& 1 = c.toNat % 2 := Nat.and_two_pow_sub_one_eq_mod _ 1
  have h3 : c.toNat &&& 3 = c.toNat % 4 := Nat.and_two_pow_sub_one_eq_mod _ 2
  have h7 : c.toNat &&& 7 = c.toNat % 8 := Nat.and_two_pow_sub_one_eq_mod _ 3
  have h15 : c.toNat &&& 15 = c.toNat % 16 := Nat.and_two_pow_sub_one_eq_mod _ 4
  have h31 : ∀ n, n &&& 31 = n % 32 := fun n => Nat.and_two_pow_sub_one_eq_mod _ 5
  unfold encode32Step
  rw [h1, h3, h7, h15, h31, h31, h31]
  split
  · next hm =>
    rw [hm] at hbound
    refine ⟨Nat.lt_of_sub_eq_succ rfl, _, _, h.one c ?_ ?_ rfl ?_ fun _ => ?_⟩
    · rw [hm]; decide
    · rw [hm]; rfl
    · simp only [encode32Held, Nat.shiftRight_eq_div_pow] at hbound ⊢
      omega
    · simp only [encode32Held] at hbound ⊢
      congr 1
      omega
  · next hm =>
    rw [hm] at hbound hleft
    have hl := hleft (by decide)
    refine ⟨Nat.lt_of_sub_eq_succ rfl, _, _, h.two c ?_ ?_ rfl ?_ ?_ fun _ => ?_⟩
    · rw [hm]; decide
    · rw [hm]; rfl
    · rw [hm]
      simp only [encode32Held, Nat.shiftRight_eq_div_pow] at hl hbound ⊢
      rw [hl, shiftLeft_or (by omega)]
      omega
    · rw [hm]
      simp only [encode32Held, Nat.shiftRight_eq_div_pow] at hbound ⊢
      omega
    · rw [hm]
      simp only [encode32Held] at hbound ⊢
      congr 1
      omega
  · next hm =>
    rw [hm] at hbound hleft
    have hl := hleft (by decide)
    refine ⟨Nat.lt_of_sub_eq_succ rfl, _, _, h.one c ?_ ?_ rfl ?_ fun _ => ?_⟩
    · rw [hm]; decide
    · rw [hm]; rfl
    · simp only [encode32Held, Nat.shiftRight_eq_div_pow] at hl hbound ⊢
      rw [hl, shiftLeft_or (by omega)]
      omega
    · simp only [encode32Held] at hbound ⊢
      congr 1
      omega
  · next hm =>
    rw [hm] at hbound hleft
    have hl := hleft (by decide)
    refine ⟨Nat.lt_of_sub_eq_succ rfl, _, _, h.two c ?_ ?_ rfl ?_ ?_ fun _ => ?_⟩
    · rw [hm]; decide
    · rw [hm]; rfl
    · rw [hm]
      simp only [encode32Held, Nat.shiftRight_eq_div_pow] at hl hbound ⊢
      rw [hl, shiftLeft_or (by omega)]
      omega
    · rw [hm]
      simp only [encode32Held, Nat.shiftRight_eq_div_pow] at hbound ⊢
      omega
    · rw [hm]
      simp only [encode32Held] at hbound ⊢
      congr 1
      omega
  · next hm =>
    rw [hm] at hbound hleft
    have hl := hleft (by decide)
    refine ⟨Nat.lt_of_sub_eq_succ rfl, _, _, h.two c ?_ ?_ rfl ?_ ?_ fun hne => absurd rfl hne⟩
    · rw [hm]; decide
    · rw [hm]; rfl
    · rw [hm]
      simp only [encode32Held, Nat.shiftRight_eq_div_pow] at hl hbound ⊢
      rw [hl, shiftLeft_or (by omega)]
      omega
    · rw [hm]
      simp only [encode32Held] at hbound ⊢
      omega
  · simp only [imp_false] at *
    omega

theorem decode64Step_decoding {digits : List ℕ} {s : DecodeState} {bits dec : ℕ}
    (hmode : s.mode < 4) (h : Decoding 6 decode64Held digits s bits) (hdec : dec < 2 ^ 6) :
    (decode64Step s dec).mode < 4 ∧ ∃ bits',
      Decoding 6 decode64Held (digits ++ [dec]) (decode64Step s dec) bits' := by
  have hbound := h.repacked.bound
  have hleft := h.left
  have h3 : dec &&& 3 = dec % 4 := Nat.and_two_pow_sub_one_eq_mod _ 2
  have h15 : dec &&& 15 = dec % 16 := Nat.and_two_pow_sub_one_eq_mod _ 4
  unfold decode64Step
  rw [h3, h15]
  split
  · next hm =>
    rw [hm] at hbound
    refine ⟨Nat.lt_of_sub_eq_succ rfl, _, h.keep hdec ?_ rfl fun _ => ?_⟩
    · rw [hm]; rfl
    · simp only [decode64Held] at hbound ⊢
      omega
  · next hm =>
    rw [hm] at hbound hleft
    have hl := hleft (by decide)
    refine ⟨Nat.lt_of_sub_eq_succ rfl, _, h.one hdec ?_ ?_ rfl ?_ fun _ => ?_⟩
    · rw [hm]; decide
    · rw [hm]; rfl
    · simp only [decode64Held, Nat.shiftRight_eq_div_pow] at hbound ⊢
      rw [hl, shiftLeft_or (by omega)]
      omega
    · simp only [decode64Held] at hbound ⊢
      omega
  · next hm =>
    rw [hm] at hbound hleft
    have hl := hleft (by decide)
    refine ⟨Nat.lt_of_sub_eq_succ rfl, _, h.one hdec ?_ ?_ rfl ?_ fun _ => ?_⟩
    · rw [hm]; decide
    · rw [hm]; rfl
    · simp only [decode64Held, Nat.shiftRight_eq_div_pow] at hbound ⊢
      rw [hl, shiftLeft_or (by omega)]
      omega
    · simp only [decode64Held] at hbound ⊢
      omega
  · next hm =>
    rw [hm] at hbound hleft
    have hl := hleft (by decide)
    refine ⟨Nat.lt_of_sub_eq_succ rfl, _, h.one hdec ?_ ?_ rfl ?_ fun hne => absurd rfl hne⟩
    · rw [hm]; decide
    · rw [hm]; rfl
    · simp only [decode64Held] at hbound ⊢
      rw [hl, shiftLeft_or hdec]
      omega
  · simp only [imp_false] at *
    omega

theorem decode32Step_decoding {digits : List ℕ} {s : DecodeState} {bits dec : ℕ}
    (hmode : s.mode < 8) (h : Decoding 5 decode32Held digits s bits) (hdec : dec < 2 ^ 5) :
    (decode32Step s dec).mode < 8 ∧ ∃ bits',
      Decoding 5 decode32Held (digits ++ [dec]) (decode32Step s dec) bits' := by
  have hbound := h.repacked.bound
  have hleft := h.left
  have h1 : dec &&& 1 = dec % 2 := Nat.and_two_pow_sub_one_eq_mod _ 1
  have h3 : dec &&& 3 = dec % 4 := Nat.and_two_pow_sub_one_eq_mod _ 2
  have h7 : dec &&& 7 = dec % 8 := Nat.and_two_pow_sub_one_eq_mod _ 3
  have h15 : dec &&& 15 = dec % 16 := Nat.and_two_pow_sub_one_eq_mod _ 4
  unfold decode32Step
  rw [h1, h3, h7, h15]
  split
  · next hm =>
    rw [hm] at hbound
    refine ⟨Nat.lt_of_sub_eq_succ rfl, _, h.keep hdec ?_ rfl fun _ => ?_⟩
    · rw [hm]; rfl
    · simp only [decode32Held] at hbound ⊢
      omega
  · next hm =>
    rw [hm] at hbound hleft
    have hl := hleft (by decide)
    refine ⟨Nat.lt_of_sub_eq_succ rfl, _, h.one hdec ?_ ?_ rfl ?_ fun _ => ?_⟩
    · rw [hm]; decide
    · rw [hm]; rfl
    · simp only [decode32Held, Nat.shiftRight_eq_div_pow] at hbound ⊢
      rw [hl, shiftLeft_or (by omega)]
      omega
    · simp only [decode32Held] at hbound ⊢
      omega
  · next hm =>
    rw [hm] at hleft
    refine ⟨Nat.lt_of_sub_eq_succ rfl, _, h.keep hdec ?_ rfl fun _ => ?_⟩
    · rw [hm]; rfl
    · rw [hleft (by decide)]
      exact shiftLeft_or hdec
  · next hm =>
    rw [hm] at hbound hleft
    have hl := hleft (by decide)
    refine ⟨Nat.lt_of_sub_eq_succ rfl, _, h.one hdec ?_ ?_ rfl ?_ fun _ => ?_⟩
    · rw [hm]; decide
    · rw [hm]; rfl
    · simp only [decode32Held, Nat.shiftRight_eq_div_pow] at hbound ⊢
      rw [hl, shiftLeft_or (by omega)]
      omega
    · simp only [decode32Held] at hbound ⊢
      omega
  · next hm =>
    rw [hm] at hbound hleft
    have hl := hleft (by decide)
    refine ⟨Nat.lt_of_sub_eq_succ rfl, _, h.one hdec ?_ ?_ rfl ?_ fun _ => ?_⟩
    · rw [hm]; decide
    · rw [hm]; rfl
    · simp only [decode32Held, Nat.shiftRight_eq_div_pow] at hbound ⊢
      rw [hl, shiftLeft_or (by omega)]
      omega
    · simp only [decode32Held] at hbound ⊢
      omega
  · next hm =>
    rw [hm] at hleft
    refine ⟨Nat.lt_of_sub_eq_succ rfl, _, h.keep hdec ?_ rfl fun _ => ?_⟩
    · rw [hm]; rfl
    · rw [hleft (by decide)]
      exact shiftLeft_or hdec
  · next hm =>
    rw [hm] at hbound hleft
    have hl := hleft (by decide)
    refine ⟨Nat.lt_of_sub_eq_succ rfl, _, h.one hdec ?_ ?_ rfl ?_ fun _ => ?_⟩
    · rw [hm]; decide
    · rw [hm]; rfl
    · simp only [decode32Held, Nat.shiftRight_eq_div_pow] at hbound ⊢
      rw [hl, shiftLeft_or (by omega)]
      omega
    · simp only [decode32Held] at hbound ⊢
      omega
  · next hm =>
    rw [hm] at hbound hleft
    have hl := hleft (by decide)
    refine ⟨Nat.lt_of_sub_eq_succ rfl, _, h.one hdec ?_ ?_ rfl ?_ fun hne => absurd rfl hne⟩
    · rw [hm]; decide
    · rw [hm]; rfl
    · simp only [decode32Held] at hbound ⊢
      rw [hl, shiftLeft_or hdec]
      omega
  · simp only [imp_false] at *
    omega

/-! ## Runs -/

/-- A machine that keeps its bits keeps them over a whole input. -/
theorem encoding_run {b n : ℕ} {char : ℕ → UInt8} {heldOf : ℕ → ℕ}
    {step : EncodeState → ℕ → EncodeState} (hn : 0 < n) (h0 : heldOf 0 = 0)
    (hstep : ∀ bytes s digits bits, s.mode < n → Encoding b char heldOf bytes s digits bits →
      ∀ c : UInt8, (step s c.toNat).mode < n ∧ ∃ digits' bits',
        Encoding b char heldOf (bytes ++ [c]) (step s c.toNat) digits' bits') (pch : List UInt8) :
    (pch.foldl (fun s c => step s c.toNat) {}).mode < n ∧ ∃ digits bits,
      Encoding b char heldOf pch (pch.foldl (fun s c => step s c.toNat) {}) digits bits := by
  induction pch using List.reverseRecOn with
  | nil =>
    refine ⟨hn, [], 0, rfl, ?_, fun hne => absurd rfl hne⟩
    show Repacked 8 b [] [] (heldOf 0) 0
    rw [h0]
    exact Repacked.nil
  | append_singleton pch c ih =>
    obtain ⟨hmode, digits, bits, h⟩ := ih
    rw [List.foldl_append]
    exact hstep pch _ digits bits hmode h c

theorem decoding_run {b n : ℕ} {heldOf : ℕ → ℕ} {step : DecodeState → ℕ → DecodeState}
    (hn : 0 < n) (h0 : heldOf 0 = 0)
    (hstep : ∀ digits s bits dec, s.mode < n → Decoding b heldOf digits s bits → dec < 2 ^ b →
      (step s dec).mode < n ∧ ∃ bits', Decoding b heldOf (digits ++ [dec]) (step s dec) bits')
    (digits : List ℕ) (hdigits : ∀ d ∈ digits, d < 2 ^ b) :
    (digits.foldl step {}).mode < n ∧
      ∃ bits, Decoding b heldOf digits (digits.foldl step {}) bits := by
  induction digits using List.reverseRecOn with
  | nil =>
    refine ⟨hn, 0, ?_, fun hne => absurd rfl hne⟩
    show Repacked b 8 [] [] (heldOf 0) 0
    rw [h0]
    exact Repacked.nil
  | append_singleton digits dec ih =>
    obtain ⟨hmode, bits, h⟩ := ih fun d hd => hdigits d (List.mem_append_left _ hd)
    rw [List.foldl_append]
    exact hstep digits _ bits dec hmode h (hdigits dec (by simp))

/-- The loop of a decoder takes the characters of the alphabet that stand in front. -/
theorem decodeBaseLoop_append {table : UInt8 → Option ℕ} {step : DecodeState → ℕ → DecodeState}
    {q : List UInt8} (hq : ∀ c ∈ q.head?, table c = none) :
    ∀ {chars : List UInt8} {digits : List ℕ}, chars.map table = digits.map some →
      ∀ s, decodeBaseLoop table step (chars ++ q) s = (q, digits.foldl step s) := by
  intro chars
  induction chars with
  | nil =>
    intro digits hdigits s
    rw [List.map_eq_nil_iff.1 hdigits.symm]
    cases q with
    | nil => rfl
    | cons c q =>
      rw [List.nil_append, decodeBaseLoop, hq c rfl]
      rfl
  | cons c chars ih =>
    intro digits hdigits s
    cases digits with
    | nil => cases hdigits
    | cons d digits =>
      obtain ⟨hc, hrest⟩ := List.cons.inj hdigits
      rw [List.cons_append, decodeBaseLoop, hc]
      exact ih hrest _

/-- Every string is some characters of the alphabet and a string that does not start with one. -/
theorem exists_chars (table : UInt8 → Option ℕ) : ∀ p : List UInt8,
    ∃ (chars : List UInt8) (digits : List ℕ) (q : List UInt8),
      p = chars ++ q ∧ chars.map table = digits.map some ∧ ∀ c ∈ q.head?, table c = none := by
  intro p
  induction p with
  | nil => exact ⟨[], [], [], rfl, rfl, fun c hc => by cases hc⟩
  | cons c p ih =>
    cases hc : table c with
    | none =>
      refine ⟨[], [], c :: p, rfl, rfl, fun c' hc' => ?_⟩
      cases hc'
      exact hc
    | some d =>
      obtain ⟨chars, digits, q, rfl, hdigits, hq⟩ := ih
      refine ⟨c :: chars, d :: digits, q, rfl, ?_, hq⟩
      rw [List.map_cons, List.map_cons, hc, hdigits]

theorem padded_iff {table : UInt8 → Option ℕ} (hnul : table 0 = none) : ∀ {n : ℕ} {q : List UInt8},
    padded table n q = true ↔
      ∃ rest, q = List.replicate n padChar ++ rest ∧ ∀ c ∈ rest.head?, table c = none := by
  intro n
  induction n with
  | zero =>
    intro q
    cases q with
    | nil => simp [padded, hnul]
    | cons c q => simp [padded]
  | succ n ih =>
    intro q
    cases q with
    | nil => simp [padded, padChar, List.replicate_succ, List.range_succ_eq_map]
    | cons c q =>
      have hstep : padded table (n + 1) (c :: q) = ((c == padChar) && padded table n q) := by
        simp [padded, List.range_succ_eq_map, List.all_map, Function.comp_def, Bool.and_assoc]
      rw [hstep, Bool.and_eq_true, ih, beq_iff_eq]
      simp [List.replicate_succ, and_assoc]

/-! ## One code -/

/-- The padding after a number of characters. -/
def padding (block n : ℕ) : ℕ := (block - n % block) % block

/-- A code of `b` bits a character, in blocks: what its encoder writes, and what its decoder takes.
Letters count up to `norm`. -/
structure BaseCode (b block : ℕ) (char : ℕ → UInt8) (table : UInt8 → Option ℕ)
    (norm : UInt8 → UInt8) (encode : List UInt8 → List UInt8)
    (decode : List UInt8 → List UInt8 × Bool) : Prop where
  bits : b ≤ 8
  table_char : ∀ d < 2 ^ b, table (char d) = some d
  char_table : ∀ c d, table c = some d → d < 2 ^ b ∧ char d = norm c
  table_pad : table padChar = none
  table_nul : table 0 = none
  norm_pad : norm padChar = padChar
  encode_spec : ∀ v, ∃ digits held bits, Repacked 8 b (v.map UInt8.toNat) digits held bits ∧
    held < b ∧ encode v = (flush b digits held bits).map char ++
      List.replicate (padding block (flush b digits held bits).length) padChar
  decode_spec : ∀ chars digits q, chars.map table = digits.map some →
    (∀ c ∈ q.head?, table c = none) → ∃ held bits,
      Repacked b 8 digits ((decode (chars ++ q)).1.map UInt8.toNat) held bits ∧ held < 8 ∧
        ((decode (chars ++ q)).2 = false ↔
          held < b ∧ bits = 0 ∧ padded table (padding block digits.length) q = true)

section Code

variable {b block : ℕ} {char : ℕ → UInt8} {table : UInt8 → Option ℕ} {norm : UInt8 → UInt8}
  {encode : List UInt8 → List UInt8} {decode : List UInt8 → List UInt8 × Bool}

/-- The bytes of a list are determined by their numbers. -/
theorem map_toNat_inj {v w : List UInt8} (h : v.map UInt8.toNat = w.map UInt8.toNat) : v = w :=
  List.map_injective_iff.2 (fun _ _ => UInt8.toNat_inj.1) h

/-- **The round trip.**  What was encoded is decoded, and it is valid. -/
theorem BaseCode.decode_encode (h : BaseCode b block char table norm encode decode)
    (v : List UInt8) : decode (encode v) = (v, false) := by
  obtain ⟨digits, held, bits, hrep, hheld, henc⟩ := h.encode_spec v
  obtain ⟨pad, -, -, -, hdigits⟩ := hrep.flush hheld
  have hmap : ((flush b digits held bits).map char).map table =
      (flush b digits held bits).map some := by
    rw [List.map_map]
    exact List.map_congr_left fun d hd => h.table_char d (hdigits d hd)
  have hforeign : ∀ n, ∀ c ∈ (List.replicate n padChar).head?, table c = none := by
    intro n c hc
    rw [List.eq_of_mem_replicate (List.mem_of_mem_head? hc)]
    exact h.table_pad
  obtain ⟨held', bits', hrep', hheld', hvalid⟩ := h.decode_spec _ _ _ hmap (hforeign _)
  have hin : ∀ d ∈ v.map UInt8.toNat, d < 2 ^ 8 := by
    intro d hd
    obtain ⟨c, -, rfl⟩ := List.mem_map.1 hd
    exact c.toNat_lt
  obtain ⟨hbytes, hbits, hheld''⟩ := unpack_pack h.bits hin hrep hheld hrep' hheld'
  rw [henc]
  refine Prod.ext (map_toNat_inj hbytes) (hvalid.2 ⟨hheld'', hbits, ?_⟩)
  rw [padded_iff h.table_nul]
  exact ⟨[], (List.append_nil _).symm, fun c hc => by cases hc⟩

/-- Some characters of the alphabet that leave less than a character and only zeros, their padding,
and after it a foreign character. -/
def Trailed (b block : ℕ) (table : UInt8 → Option ℕ) (s : List UInt8) : Prop :=
  ∃ chars digits c rest, chars.map table = digits.map some ∧ digits.length * b % 8 < b ∧
    value (2 ^ b) digits % 2 ^ (digits.length * b % 8) = 0 ∧ table c = none ∧
    s = chars ++ (List.replicate (padding block digits.length) padChar ++ c :: rest)

/-- Characters of the alphabet are those of their digits. -/
theorem BaseCode.digits_chars (h : BaseCode b block char table norm encode decode) :
    ∀ {chars : List UInt8} {digits : List ℕ}, chars.map table = digits.map some →
      digits.map char = chars.map norm ∧ ∀ d ∈ digits, d < 2 ^ b := by
  intro chars
  induction chars with
  | nil =>
    intro digits hmap
    rw [List.map_eq_nil_iff.1 hmap.symm]
    exact ⟨rfl, fun d hd => by cases hd⟩
  | cons c chars ih =>
    intro digits hmap
    cases digits with
    | nil => cases hmap
    | cons d digits =>
      obtain ⟨hc, hrest⟩ := List.cons.inj hmap
      obtain ⟨hchars, hbound⟩ := ih hrest
      obtain ⟨hd, hchar⟩ := h.char_table c d hc
      refine ⟨?_, List.forall_mem_cons.2 ⟨hd, hbound⟩⟩
      rw [List.map_cons, List.map_cons, hchar, hchars]

/-- The bits that are left over are the lowest ones of all digits. -/
theorem held_bits {digits output : List ℕ} {held bits : ℕ}
    (h : Repacked b 8 digits output held bits) (hheld : held < 8) :
    held = digits.length * b % 8 ∧ bits = value (2 ^ b) digits % 2 ^ held := by
  have hlen := h.length
  have hval := h.value
  refine ⟨by omega, ?_⟩
  rw [← hval, Nat.mul_comm, Nat.mul_add_mod, Nat.mod_eq_of_lt h.bound]

/-- **What passes.**  A string that passes is the encoding of what is returned if and only if it is
not an encoding that something follows. -/
theorem BaseCode.encode_decode_iff (h : BaseCode b block char table norm encode decode)
    (s : List UInt8) : ((decode s).2 = false → encode (decode s).1 = s.map norm) ↔
      ¬ Trailed b block table s := by
  -- what passes is encoded again as its digits and their padding
  have hagain : ∀ {chars : List UInt8} {digits : List ℕ} {q : List UInt8},
      chars.map table = digits.map some → (∀ c ∈ q.head?, table c = none) →
      (decode (chars ++ q)).2 = false → encode (decode (chars ++ q)).1 =
        chars.map norm ++ List.replicate (padding block digits.length) padChar := by
    intro chars digits q hmap hq hvalid
    obtain ⟨hchars, hbound⟩ := h.digits_chars hmap
    obtain ⟨held, bits, hrep, -, hiff⟩ := h.decode_spec chars digits q hmap hq
    obtain ⟨hheld, rfl, -⟩ := hiff.1 hvalid
    obtain ⟨digits', held', bits', hrep', hheld', henc⟩ := h.encode_spec (decode (chars ++ q)).1
    rw [henc, pack_unpack hbound hrep hheld hrep' hheld', hchars]
  constructor
  · rintro hpass ⟨chars, digits, c, rest, hmap, hheld, hbits, hc, rfl⟩
    have hq : ∀ c' ∈ (List.replicate (padding block digits.length) padChar ++ c :: rest).head?,
        table c' = none := by
      intro c' hc'
      cases hn : padding block digits.length with
      | zero =>
        rw [hn] at hc'
        cases hc'
        exact hc
      | succ n =>
        rw [hn] at hc'
        cases hc'
        exact h.table_pad
    obtain ⟨held, bits, hrep, hlt, hiff⟩ := h.decode_spec chars digits _ hmap hq
    obtain ⟨rfl, rfl⟩ := held_bits hrep hlt
    have hvalid := hiff.2 ⟨hheld, hbits, (padded_iff h.table_nul).2 ⟨c :: rest, rfl, ?_⟩⟩
    · have hlen := congrArg List.length ((hagain hmap hq hvalid).symm.trans (hpass hvalid))
      simp only [List.length_append, List.length_map, List.length_cons] at hlen
      omega
    · intro c' hc'
      cases hc'
      exact hc
  · intro htrail hvalid
    obtain ⟨chars, digits, q, rfl, hmap, hq⟩ := exists_chars table s
    obtain ⟨held, bits, hrep, hlt, hiff⟩ := h.decode_spec chars digits q hmap hq
    obtain ⟨hheld, hbits, hpad⟩ := hiff.1 hvalid
    obtain ⟨rfl, rfl⟩ := held_bits hrep hlt
    obtain ⟨rest, rfl, hrest⟩ := (padded_iff h.table_nul).1 hpad
    rw [hagain hmap hq hvalid, List.map_append, List.map_append, List.map_replicate, h.norm_pad]
    cases rest with
    | nil => rw [List.map_nil, List.append_nil]
    | cons c rest =>
      exact absurd ⟨chars, digits, c, rest, hmap, hheld, hbits, hrest c rfl, rfl⟩ htrail

end Code

/-! ## Both codes -/

/-- What an encoder writes at the end: the bits that are held, and the padding. -/
theorem Encoding.flush {b block n : ℕ} {char : ℕ → UInt8} {heldOf : ℕ → ℕ} {bytes : List UInt8}
    {s : EncodeState} {digits : List ℕ} {bits : ℕ}
    (h : Encoding b char heldOf bytes s digits bits) (hmode : s.mode ≠ 0)
    (hheld : heldOf s.mode ≠ 0) (hpad : padding block (digits.length + 1) = n) :
    s.strRet ++ [char s.left] ++ List.replicate n padChar =
      (Radix.flush b digits (heldOf s.mode) bits).map char ++ List.replicate
        (padding block (Radix.flush b digits (heldOf s.mode) bits).length) padChar := by
  have hflush : Radix.flush b digits (heldOf s.mode) bits =
      digits ++ [bits * 2 ^ (b - heldOf s.mode)] := if_neg hheld
  rw [hflush, List.length_append, List.length_singleton, hpad, h.strRet, h.left hmode,
    Nat.shiftLeft_eq, List.map_append, List.map_singleton]

theorem encodeBase64_spec (v : List UInt8) : ∃ digits held bits,
    Repacked 8 6 (v.map UInt8.toNat) digits held bits ∧ held < 6 ∧
      encodeBase64 v = (flush 6 digits held bits).map (pbase64.getD · 0) ++
        List.replicate (padding 4 (flush 6 digits held bits).length) padChar := by
  obtain ⟨hmode, digits, bits, h⟩ := encoding_run (n := 3) (by decide) rfl
    (fun _ _ _ _ hm he c => encode64Step_encoding hm he c) v
  simp only [encodeBase64]
  generalize v.foldl (fun s c => encode64Step s c.toNat) {} = s at hmode h
  have hlen := h.repacked.length
  refine ⟨digits, _, bits, h.repacked, ?_, ?_⟩
  · unfold encode64Held
    split <;> decide
  · obtain hm | hm | hm : s.mode = 0 ∨ s.mode = 1 ∨ s.mode = 2 := by omega
    · have hpad : padding 4 digits.length = 0 := by
        simp only [hm, encode64Held] at hlen
        unfold padding
        omega
      rw [if_pos hm, hm]
      show s.strRet = digits.map _ ++ List.replicate (padding 4 digits.length) padChar
      rw [hpad, List.replicate_zero, List.append_nil, h.strRet]
    · have hpad : padding 4 (digits.length + 1) = 2 := by
        simp only [hm, encode64Held] at hlen
        unfold padding
        omega
      rw [← h.flush (by omega) (by rw [hm]; decide) hpad, if_neg (by omega), if_pos hm,
        List.append_assoc _ [padChar]]
      rfl
    · have hpad : padding 4 (digits.length + 1) = 1 := by
        simp only [hm, encode64Held] at hlen
        unfold padding
        omega
      rw [← h.flush (by omega) (by rw [hm]; decide) hpad, if_neg (by omega), if_neg (by omega),
        List.append_nil]
      rfl

theorem encodeBase32_spec (v : List UInt8) : ∃ digits held bits,
    Repacked 8 5 (v.map UInt8.toNat) digits held bits ∧ held < 5 ∧
      encodeBase32 v = (flush 5 digits held bits).map (pbase32.getD · 0) ++
        List.replicate (padding 8 (flush 5 digits held bits).length) padChar := by
  obtain ⟨hmode, digits, bits, h⟩ := encoding_run (n := 5) (by decide) rfl
    (fun _ _ _ _ hm he c => encode32Step_encoding hm he c) v
  simp only [encodeBase32]
  generalize v.foldl (fun s c => encode32Step s c.toNat) {} = s at hmode h
  have hlen := h.repacked.length
  refine ⟨digits, _, bits, h.repacked, ?_, ?_⟩
  · unfold encode32Held
    split <;> decide
  · by_cases hm : s.mode = 0
    · have hpad : padding 8 digits.length = 0 := by
        simp only [hm, encode32Held] at hlen
        unfold padding
        omega
      rw [if_pos hm, hm]
      show s.strRet = digits.map _ ++ List.replicate (padding 8 digits.length) padChar
      rw [hpad, List.replicate_zero, List.append_nil, h.strRet]
    · have hpad : encode32Held s.mode ≠ 0 ∧
          padding 8 (digits.length + 1) = nPadding.getD s.mode 0 := by
        unfold padding
        obtain hm | hm | hm | hm : s.mode = 1 ∨ s.mode = 2 ∨ s.mode = 3 ∨ s.mode = 4 := by omega
        all_goals
          simp only [hm, encode32Held] at hlen
          simp only [hm, encode32Held, nPadding, List.getD_cons_succ, List.getD_cons_zero]
          omega
      rw [← h.flush hm hpad.1 hpad.2, if_neg hm]

theorem decodeBase64_spec (chars : List UInt8) (digits : List ℕ) (q : List UInt8)
    (hmap : chars.map decode64 = digits.map some) (hq : ∀ c ∈ q.head?, decode64 c = none) :
    ∃ held bits, Repacked 6 8 digits ((decodeBase64 (chars ++ q)).1.map UInt8.toNat) held bits ∧
      held < 8 ∧ ((decodeBase64 (chars ++ q)).2 = false ↔
        held < 6 ∧ bits = 0 ∧ padded decode64 (padding 4 digits.length) q = true) := by
  have hdigits : ∀ d ∈ digits, d < 2 ^ 6 := by
    intro d hd
    obtain ⟨c, -, hc⟩ := List.mem_map.1 (hmap ▸ List.mem_map_of_mem hd)
    exact (pbase64_decode64 hc).1
  obtain ⟨hmode, bits, h⟩ := decoding_run (n := 4) (by decide) rfl
    (fun _ _ _ _ hm he hd => decode64Step_decoding hm he hd) digits hdigits
  simp only [decodeBase64, decodeBaseLoop_append hq hmap]
  generalize digits.foldl decode64Step {} = s at hmode h
  have hlen := h.repacked.length
  have hbound := h.repacked.bound
  have hleft := h.left
  refine ⟨_, bits, h.repacked, ?_, ?_⟩
  · unfold decode64Held
    split <;> decide
  · obtain hm | hm | hm | hm : s.mode = 0 ∨ s.mode = 1 ∨ s.mode = 2 ∨ s.mode = 3 := by omega
    · have hpad : padding 4 digits.length = 0 := by
        simp only [hm, decode64Held] at hlen
        unfold padding
        omega
      simp only [hm, decode64Held, pow_zero] at hbound ⊢
      rw [hpad, padded_iff (by decide)]
      exact ⟨fun _ => ⟨by decide, by omega, q, rfl, hq⟩, fun _ => trivial⟩
    · simp only [hm, decode64Held]
      exact ⟨fun hvalid => (nomatch hvalid), fun hvalid => absurd hvalid.1 (by decide)⟩
    · have hpad : padding 4 digits.length = 2 := by
        simp only [hm, decode64Held] at hlen
        unfold padding
        omega
      simp only [hm, decode64Held, hpad, hleft (by omega)]
      simp
    · have hpad : padding 4 digits.length = 1 := by
        simp only [hm, decode64Held] at hlen
        unfold padding
        omega
      simp only [hm, decode64Held, hpad, hleft (by omega)]
      simp

theorem decodeBase32_spec (chars : List UInt8) (digits : List ℕ) (q : List UInt8)
    (hmap : chars.map decode32 = digits.map some) (hq : ∀ c ∈ q.head?, decode32 c = none) :
    ∃ held bits, Repacked 5 8 digits ((decodeBase32 (chars ++ q)).1.map UInt8.toNat) held bits ∧
      held < 8 ∧ ((decodeBase32 (chars ++ q)).2 = false ↔
        held < 5 ∧ bits = 0 ∧ padded decode32 (padding 8 digits.length) q = true) := by
  have hdigits : ∀ d ∈ digits, d < 2 ^ 5 := by
    intro d hd
    obtain ⟨c, -, hc⟩ := List.mem_map.1 (hmap ▸ List.mem_map_of_mem hd)
    exact (pbase32_decode32 hc).1
  obtain ⟨hmode, bits, h⟩ := decoding_run (n := 8) (by decide) rfl
    (fun _ _ _ _ hm he hd => decode32Step_decoding hm he hd) digits hdigits
  simp only [decodeBase32, decodeBaseLoop_append hq hmap]
  generalize digits.foldl decode32Step {} = s at hmode h
  have hlen := h.repacked.length
  have hbound := h.repacked.bound
  have hleft := h.left
  refine ⟨_, bits, h.repacked, ?_, ?_⟩
  · unfold decode32Held
    split <;> decide
  · obtain hm | (hm | hm | hm) | hm | hm | hm | hm :
        s.mode = 0 ∨ (s.mode = 1 ∨ s.mode = 3 ∨ s.mode = 6) ∨ s.mode = 2 ∨ s.mode = 4 ∨
          s.mode = 5 ∨ s.mode = 7 := by omega
    · have hpad : padding 8 digits.length = 0 := by
        simp only [hm, decode32Held] at hlen
        unfold padding
        omega
      simp only [hm, decode32Held, pow_zero] at hbound ⊢
      rw [hpad, padded_iff (by decide)]
      exact ⟨fun _ => ⟨by decide, by omega, q, rfl, hq⟩, fun _ => trivial⟩
    · simp only [hm, decode32Held]
      exact ⟨fun hvalid => (nomatch hvalid), fun hvalid => absurd hvalid.1 (by decide)⟩
    · simp only [hm, decode32Held]
      exact ⟨fun hvalid => (nomatch hvalid), fun hvalid => absurd hvalid.1 (by decide)⟩
    · simp only [hm, decode32Held]
      exact ⟨fun hvalid => (nomatch hvalid), fun hvalid => absurd hvalid.1 (by decide)⟩
    · have hpad : padding 8 digits.length = 6 := by
        simp only [hm, decode32Held] at hlen
        unfold padding
        omega
      simp only [hm, decode32Held, hpad, hleft (by omega)]
      simp
    · have hpad : padding 8 digits.length = 4 := by
        simp only [hm, decode32Held] at hlen
        unfold padding
        omega
      simp only [hm, decode32Held, hpad, hleft (by omega)]
      simp
    · have hpad : padding 8 digits.length = 3 := by
        simp only [hm, decode32Held] at hlen
        unfold padding
        omega
      simp only [hm, decode32Held, hpad, hleft (by omega)]
      simp
    · have hpad : padding 8 digits.length = 1 := by
        simp only [hm, decode32Held] at hlen
        unfold padding
        omega
      simp only [hm, decode32Held, hpad, hleft (by omega)]
      simp

theorem baseCode64 : BaseCode 6 4 (pbase64.getD · 0) decode64 id encodeBase64 decodeBase64 where
  bits := by decide
  table_char := decode64_pbase64
  char_table _ _ h := pbase64_decode64 h
  table_pad := by decide
  table_nul := by decide
  norm_pad := rfl
  encode_spec := encodeBase64_spec
  decode_spec := decodeBase64_spec

theorem baseCode32 :
    BaseCode 5 8 (pbase32.getD · 0) decode32 toLower encodeBase32 decodeBase32 where
  bits := by decide
  table_char := decode32_pbase32
  char_table _ _ h := pbase32_decode32 h
  table_pad := by decide
  table_nul := by decide
  norm_pad := by decide
  encode_spec := encodeBase32_spec
  decode_spec := decodeBase32_spec

/-- **The decoders do not look at the end of the string.**  What was encoded is decoded and valid.
A string that passes is the encoding of the returned bytes, up to the case of Base32's letters, if
and only if it is not an encoding behind which a foreign character stands. -/
theorem baseDecoders_exact_iff (v s : List UInt8) :
    decodeBase64 (encodeBase64 v) = (v, false) ∧ decodeBase32 (encodeBase32 v) = (v, false) ∧
      (((decodeBase64 s).2 = false → encodeBase64 (decodeBase64 s).1 = s) ↔
        ¬ Trailed 6 4 decode64 s) ∧
      (((decodeBase32 s).2 = false → encodeBase32 (decodeBase32 s).1 = s.map toLower) ↔
        ¬ Trailed 5 8 decode32 s) := by
  refine ⟨baseCode64.decode_encode v, baseCode32.decode_encode v, ?_,
    baseCode32.encode_decode_iff s⟩
  have h := baseCode64.encode_decode_iff s
  rwa [List.map_id] at h

/-- Three zeros, and something that is no encoding. -/
theorem decodeBase64_trailing : (decodeBase64 [65, 65, 65, 65, 33]).2 = false ∧
    ∀ v, encodeBase64 v ≠ [65, 65, 65, 65, 33] := by
  refine ⟨by decide, fun v hv => ?_⟩
  have h := baseCode64.decode_encode v
  have hlen : encodeBase64 (decodeBase64 [65, 65, 65, 65, 33]).1 ≠ [65, 65, 65, 65, 33] := by decide
  rw [hv] at h
  rw [h] at hlen
  exact hlen hv

end FairCoin
