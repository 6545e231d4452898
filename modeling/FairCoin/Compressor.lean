import FairCoin.Primitives
import FairCoin.Params
import FairCoin.Lib.Scaled
import FairCoin.Lib.VarInt

/-!
# Compressed outputs

`CTxOutCompressor` and `CScriptCompressor` of `src/compressor.h` and `src/compressor.cpp`: the form
in which outputs are kept in the coin database and in undo files.

* `compressAmount`, `decompressAmount` — amounts, in 64-bit arithmetic; over the natural numbers
  they are the codes of `Lib.Scaled`.
* `amount_roundTrip` — **amounts come back** up to `MaxMoneyOut`.
* `CScriptCompressor` — scripts: six special forms share the size field with the general one.  The
  curve is a parameter; `CurveOps.Sound` says that a valid key comes back from half of its bytes.
* `script_roundTrip` — **scripts come back** below `2 ^ 32 - 6` bytes, and `script_lost` says that
  no longer one does: the size is computed in 32 bits.
* `diskTxOut` — outputs; `exact_txOut` tells exactly which come back.
-/

namespace FairCoin

open Codec

/-! ## Amounts -/

namespace CTxOutCompressor

/-- `CTxOutCompressor::CompressAmount`, in `uint64_t`. -/
def compressAmount (n : ℕ) : ℕ :=
  if n = 0 then 0
  else
    -- at most nine zeros are taken off
    let (n, e) := Scaled.strip 10 9 n
    if e < 9 then
      let d := n % 10
      let n := n / 10
      (1 + (n * 9 + d - 1) * 10 + e) % 2 ^ 64
    else (1 + (n - 1) * 10 + 9) % 2 ^ 64

/-- `CTxOutCompressor::DecompressAmount`, in `uint64_t`. -/
def decompressAmount (x : ℕ) : ℕ :=
  if x = 0 then 0
  else
    let x := x - 1
    let e := x % 10
    let x := x / 10
    let n :=
      if e < 9 then
        let d := x % 9 + 1
        let x := x / 9
        x * 10 + d
      else x + 1
    (n * 10 ^ e) % 2 ^ 64

/-- The code of an amount before it is cut to 64 bits. -/
def amountCode (n : ℕ) : ℕ := Scaled.code 10 9 n

theorem compressAmount_eq (n : ℕ) : compressAmount n = amountCode n % 2 ^ 64 := by
  rw [compressAmount, amountCode, Scaled.code, Scaled.pack]
  split
  · rfl
  · simp only
    split <;> rfl

theorem decompressAmount_eq (x : ℕ) : decompressAmount x = Scaled.decode 10 9 x % 2 ^ 64 := by
  rw [decompressAmount, Scaled.decode, Scaled.mantissa]
  split <;> rfl

/-- A code that fits in 64 bits gives the amount back. -/
theorem decompressAmount_compressAmount {n : ℕ} (hn : n < 2 ^ 64) (hcode : amountCode n < 2 ^ 64) :
    decompressAmount (compressAmount n) = n := by
  rw [compressAmount_eq, Nat.mod_eq_of_lt hcode, decompressAmount_eq, amountCode,
    Scaled.decode_code (by norm_num), Nat.mod_eq_of_lt hn]

/-- Amounts up to `MaxMoneyOut` have codes that fit. -/
theorem amountCode_lt {net : Network} {n : ℕ} (hn : (n : ℤ) ≤ net.maxMoneyOut) :
    amountCode n < 2 ^ 64 := by
  have hcode := Scaled.code_le (b := 10) (by norm_num) 9 n
  rw [Network.maxMoneyOut_eq] at hn
  unfold amountCode
  omega

theorem decompressAmount_of_money {net : Network} {n : ℕ} (hn : (n : ℤ) ≤ net.maxMoneyOut) :
    decompressAmount (compressAmount n) = n := by
  apply decompressAmount_compressAmount _ (amountCode_lt hn)
  rw [Network.maxMoneyOut_eq] at hn
  omega

/-- **Amounts come back**: up to `MaxMoneyOut` the code is computed without overflow and gives the
amount back, a code in the image is the code of its amount, and different amounts have different
codes. -/
theorem amount_roundTrip (net : Network) :
    (∀ n : ℕ, (n : ℤ) ≤ net.maxMoneyOut →
      compressAmount n = amountCode n ∧ decompressAmount (compressAmount n) = n) ∧
    (∀ x ∈ compressAmount '' {n : ℕ | (n : ℤ) ≤ net.maxMoneyOut},
      compressAmount (decompressAmount x) = x) ∧
    Set.InjOn compressAmount {n : ℕ | (n : ℤ) ≤ net.maxMoneyOut} := by
  refine ⟨?_, ?_, ?_⟩
  · intro n hn
    refine ⟨?_, decompressAmount_of_money hn⟩
    rw [compressAmount_eq, Nat.mod_eq_of_lt (amountCode_lt hn)]
  · rintro x ⟨n, hn, rfl⟩
    rw [decompressAmount_of_money hn]
  · intro m hm n hn h
    rw [← decompressAmount_of_money hm, h, decompressAmount_of_money hn]

theorem amount_roundTrip_coins :
    compressAmount 2100000000000000 = 0x1406f40 ∧
    decompressAmount (compressAmount 2100000000000000) = 2100000000000000 ∧
    compressAmount (decompressAmount 50) = 50 := by
  obtain ⟨hback, himage, -⟩ := amount_roundTrip .main
  refine ⟨by decide, (hback 2100000000000000 (by decide)).2, ?_⟩
  exact himage 50 ⟨5000000000, by show (_ : ℤ) ≤ _; decide, by decide⟩

end CTxOutCompressor

/-! ## Scripts -/

/-- `CPubKey::IsFullyValid` and `CPubKey::Decompress`, on the bytes of a key. -/
structure CurveOps where
  isFullyValid : Bytes → Bool
  decompress : Bytes → Option Bytes
  /-- The size that `CScriptCompressor::Decompress` asserts. -/
  size_decompress : ∀ vch key, decompress vch = some key → key.length = 65

/-- A fully valid uncompressed key is what its first coordinate and its parity decompress to. -/
def CurveOps.Sound (ops : CurveOps) : Prop :=
  ∀ key : Bytes, key.length = 65 → key[0]? = some 4 → ops.isFullyValid key = true →
    ops.decompress ((2 + key.getD 64 0 % 2) :: (key.drop 1).take 32) = some key

namespace CScriptCompressor

/-- The number of special forms. -/
def nSpecialScripts : ℕ := 6

/-- `CScriptCompressor::IsToKeyID`: the hash. -/
def isToKeyID (script : CScript) : Option Bytes :=
  if script.length = 25 ∧ script[0]? = some 0x76 ∧ script[1]? = some 0xa9 ∧ script[2]? = some 20 ∧
      script[23]? = some 0x88 ∧ script[24]? = some 0xac then
    some ((script.drop 3).take 20)
  else none

/-- `CScriptCompressor::IsToScriptID`: the hash. -/
def isToScriptID (script : CScript) : Option Bytes :=
  if script.length = 23 ∧ script[0]? = some 0xa9 ∧ script[1]? = some 20 ∧
      script[22]? = some 0x87 then
    some ((script.drop 2).take 20)
  else none

/-- `CScriptCompressor::IsToPubKey`: the key. -/
def isToPubKey (ops : CurveOps) (script : CScript) : Option Bytes :=
  if script.length = 35 ∧ script[0]? = some 33 ∧ script[34]? = some 0xac ∧
      (script[1]? = some 2 ∨ script[1]? = some 3) then
    some ((script.drop 1).take 33)
  else if script.length = 67 ∧ script[0]? = some 65 ∧ script[66]? = some 0xac ∧
      script[1]? = some 4 then
    -- a key that is not fully valid cannot be compressed
    if ops.isFullyValid ((script.drop 1).take 65) then some ((script.drop 1).take 65) else none
  else none

/-- `CScriptCompressor::Compress`. -/
def compress (ops : CurveOps) (script : CScript) : Option Bytes :=
  match isToKeyID script with
  | some keyID => some (0 :: keyID)
  | none =>
    match isToScriptID script with
    | some scriptID => some (1 :: scriptID)
    | none =>
      match isToPubKey ops script with
      | some pubkey =>
          if pubkey[0]? = some 2 ∨ pubkey[0]? = some 3 then
            some (pubkey.getD 0 0 :: (pubkey.drop 1).take 32)
          else if pubkey[0]? = some 4 then
            some ((4 ||| (pubkey.getD 64 0 &&& 1)) :: (pubkey.drop 1).take 32)
          else none
      | none => none

/-- `CScriptCompressor::GetSpecialSize`. -/
def getSpecialSize (nSize : ℕ) : ℕ :=
  if nSize = 0 ∨ nSize = 1 then 20
  else if nSize = 2 ∨ nSize = 3 ∨ nSize = 4 ∨ nSize = 5 then 32
  else 0

/-- `CScriptCompressor::Decompress`; `none` when it returns false. -/
def decompress (ops : CurveOps) (nSize : ℕ) (vch : Bytes) : Option CScript :=
  match nSize with
  | 0 => some ([0x76, 0xa9, 20] ++ vch ++ [0x88, 0xac])
  | 1 => some ([0xa9, 20] ++ vch ++ [0x87])
  | 2 => some (33 :: 2 :: vch ++ [0xac])
  | 3 => some (33 :: 3 :: vch ++ [0xac])
  | 4 => (ops.decompress (2 :: vch)).map fun pubkey => 65 :: pubkey ++ [0xac]
  | 5 => (ops.decompress (3 :: vch)).map fun pubkey => 65 :: pubkey ++ [0xac]
  | _ => none

/-- The size field of a script that has no special form, in `unsigned int`. -/
def generalSize (script : CScript) : ℕ := (script.length + nSpecialScripts) % 2 ^ 32

/-- `CScriptCompressor::GetSerializeSize`. -/
def getSerializeSize (ops : CurveOps) (script : CScript) : ℕ :=
  match compress ops script with
  | some compr => compr.length
  | none => (script.length + sizeOfVarInt 32 (generalSize script)) % 2 ^ 32

/-- `CScriptCompressor::Serialize`. -/
def serialize (ops : CurveOps) (script : CScript) : Bytes :=
  match compress ops script with
  | some compr => compr
  | none => putVarInt 32 (generalSize script) ++ script

/-- Read a number of bytes. -/
def readBytes (n : ℕ) (s : Bytes) : Option (Bytes × Bytes) :=
  if n ≤ s.length then some (s.take n, s.drop n) else none

/-- `CScriptCompressor::Unserialize` into a script; the script stays as it is when the key of a
special form cannot be decompressed. -/
def unserialize (ops : CurveOps) (script : CScript) (s : Bytes) : Option (CScript × Bytes) :=
  (getVarInt 32 s).bind fun (nSize, s) =>
    if nSize < nSpecialScripts then
      (readBytes (getSpecialSize nSize) s).map fun (vch, s) =>
        ((decompress ops nSize vch).getD script, s)
    else readBytes (nSize - nSpecialScripts) s

/-! ### Special forms -/

theorem drop_eq_cons {s : Bytes} {i : ℕ} {b : UInt8} (h : s[i]? = some b) :
    s.drop i = b :: s.drop (i + 1) := by
  obtain ⟨hi, hb⟩ := List.getElem?_eq_some_iff.1 h
  rw [List.drop_eq_getElem_cons hi, hb]

theorem drop_split (s : Bytes) (i n : ℕ) : s.drop i = (s.drop i).take n ++ s.drop (i + n) := by
  rw [← List.drop_drop, List.take_append_drop]

/-- What a special form stands for: its tag, the bytes after it, and the script they decompress
to. -/
structure Special (ops : CurveOps) (script : CScript) (compr : Bytes) (nSize : ℕ) (vch : Bytes) :
    Prop where
  tag : nSize < nSpecialScripts
  bytes : compr = UInt8.ofNat nSize :: vch
  size : vch.length = getSpecialSize nSize
  back : decompress ops nSize vch = some script

theorem special_keyID {ops : CurveOps} {script : CScript} {keyID : Bytes}
    (h : isToKeyID script = some keyID) : Special ops script (0 :: keyID) 0 keyID := by
  unfold isToKeyID at h
  split at h
  · next hshape =>
    obtain ⟨hlen, h0, h1, h2, h23, h24⟩ := hshape
    cases h
    refine ⟨by decide, rfl, ?_, ?_⟩
    · rw [List.length_take, List.length_drop, hlen]
      rfl
    · have hend : script.drop 25 = [] := List.drop_eq_nil_of_le hlen.le
      apply congrArg some
      calc [0x76, 0xa9, 20] ++ (script.drop 3).take 20 ++ [0x88, 0xac]
          = 0x76 :: 0xa9 :: 20 :: ((script.drop 3).take 20 ++ script.drop 23) := by
            rw [drop_eq_cons h23, drop_eq_cons h24, hend]
            simp
        _ = script.drop 0 := by
            rw [drop_eq_cons h0, drop_eq_cons h1, drop_eq_cons h2, ← drop_split script 3 20]
        _ = script := List.drop_zero
  · cases h

theorem special_scriptID {ops : CurveOps} {script : CScript} {scriptID : Bytes}
    (h : isToScriptID script = some scriptID) : Special ops script (1 :: scriptID) 1 scriptID := by
  unfold isToScriptID at h
  split at h
  · next hshape =>
    obtain ⟨hlen, h0, h1, h22⟩ := hshape
    cases h
    refine ⟨by decide, rfl, ?_, ?_⟩
    · rw [List.length_take, List.length_drop, hlen]
      rfl
    · have hend : script.drop 23 = [] := List.drop_eq_nil_of_le hlen.le
      apply congrArg some
      calc [0xa9, 20] ++ (script.drop 2).take 20 ++ [0x87]
          = 0xa9 :: 20 :: ((script.drop 2).take 20 ++ script.drop 22) := by
            rw [drop_eq_cons h22, hend]
            simp
        _ = script.drop 0 := by
            rw [drop_eq_cons h0, drop_eq_cons h1, ← drop_split script 2 20]
        _ = script := List.drop_zero
  · cases h

/-- The script that pushes a key of `n` bytes and checks a signature. -/
theorem pushKey_eq {script : CScript} {n : ℕ} {b : UInt8} (hlen : script.length = n + 2)
    (h0 : script[0]? = some b) (hn : script[n + 1]? = some 0xac) :
    b :: (script.drop 1).take n ++ [0xac] = script := by
  have hend : script.drop (n + 2) = [] := List.drop_eq_nil_of_le hlen.le
  calc b :: (script.drop 1).take n ++ [0xac]
      = b :: ((script.drop 1).take n ++ script.drop (1 + n)) := by
        rw [Nat.add_comm 1 n, drop_eq_cons hn, hend]
        rfl
    _ = script.drop 0 := by rw [drop_eq_cons h0, ← drop_split script 1 n]
    _ = script := List.drop_zero

theorem length_key {script : CScript} {n : ℕ} (hlen : script.length = n + 2) :
    ((script.drop 1).take n).length = n := by
  rw [List.length_take, List.length_drop, hlen]
  omega

/-- A key that starts with its parity. -/
theorem special_compressed {ops : CurveOps} {script : CScript} {b : UInt8} {n : ℕ}
    (hb : b = UInt8.ofNat n) (hn : n = 2 ∨ n = 3) (hlen : script.length = 35)
    (h0 : script[0]? = some 33) (h34 : script[34]? = some 0xac) (h1 : script[1]? = some b) :
    Special ops script (((script.drop 1).take 33).getD 0 0 ::
      (((script.drop 1).take 33).drop 1).take 32) n ((((script.drop 1).take 33).drop 1).take 32) := by
  have hkey : (script.drop 1).take 33 = b :: (((script.drop 1).take 33).drop 1).take 32 := by
    rw [drop_eq_cons h1]
    simp [List.take_take]
  have hscript := pushKey_eq hlen h0 h34
  rw [hkey] at hscript
  refine ⟨by rcases hn with rfl | rfl <;> decide, ?_, ?_, ?_⟩
  · conv_lhs => rw [hkey]
    simp [hb]
  · have hlen' := length_key (n := 33) hlen
    rw [List.length_take, List.length_drop, hlen']
    rcases hn with rfl | rfl <;> rfl
  · rcases hn with rfl | rfl <;> subst hb <;> exact congrArg some hscript

/-- The tag of an uncompressed key. -/
theorem parity_tag (b : UInt8) : (4 ||| (b &&& 1) = UInt8.ofNat 4 ∧ 2 + b % 2 = 2) ∨
    (4 ||| (b &&& 1) = UInt8.ofNat 5 ∧ 2 + b % 2 = 3) := by
  revert b
  decide +kernel

/-- A fully valid uncompressed key. -/
theorem special_uncompressed {ops : CurveOps} (hops : ops.Sound) {script : CScript}
    (hlen : script.length = 67) (h0 : script[0]? = some 65) (h66 : script[66]? = some 0xac)
    (h1 : script[1]? = some 4) (hvalid : ops.isFullyValid ((script.drop 1).take 65) = true) :
    ∃ n, Special ops script ((4 ||| (((script.drop 1).take 65).getD 64 0 &&& 1)) ::
      (((script.drop 1).take 65).drop 1).take 32) n
      ((((script.drop 1).take 65).drop 1).take 32) := by
  have hscript := pushKey_eq hlen h0 h66
  have hlen' := length_key (n := 65) hlen
  have hhead : ((script.drop 1).take 65)[0]? = some 4 := by
    rw [drop_eq_cons h1]
    rfl
  have hback := hops _ hlen' hhead hvalid
  generalize (script.drop 1).take 65 = key at hscript hlen' hback
  have hsize : ((key.drop 1).take 32).length = 32 := by
    rw [List.length_take, List.length_drop, hlen']
    rfl
  rcases parity_tag (key.getD 64 0) with ⟨htag, hpar⟩ | ⟨htag, hpar⟩
  · rw [hpar] at hback
    refine ⟨4, by decide, by rw [htag], hsize, ?_⟩
    rw [decompress, hback, Option.map_some, hscript]
  · rw [hpar] at hback
    refine ⟨5, by decide, by rw [htag], hsize, ?_⟩
    rw [decompress, hback, Option.map_some, hscript]

theorem special_pubKey {ops : CurveOps} (hops : ops.Sound) {script : CScript} {pubkey compr : Bytes}
    (h : isToPubKey ops script = some pubkey)
    (hcompr : (if pubkey[0]? = some 2 ∨ pubkey[0]? = some 3 then
        some (pubkey.getD 0 0 :: (pubkey.drop 1).take 32)
      else if pubkey[0]? = some 4 then
        some ((4 ||| (pubkey.getD 64 0 &&& 1)) :: (pubkey.drop 1).take 32)
      else none) = some compr) :
    ∃ n vch, Special ops script compr n vch := by
  unfold isToPubKey at h
  split at h
  · next hshape =>
    obtain ⟨hlen, h0, h34, h1⟩ := hshape
    cases h
    have hhead : ((script.drop 1).take 33)[0]? = script[1]? := by
      rw [List.getElem?_take_of_lt (by norm_num), List.getElem?_drop]
    rw [hhead, if_pos h1] at hcompr
    cases hcompr
    rcases h1 with h1 | h1
    · exact ⟨2, _, special_compressed rfl (.inl rfl) hlen h0 h34 h1⟩
    · exact ⟨3, _, special_compressed rfl (.inr rfl) hlen h0 h34 h1⟩
  · split at h
    · next hshape =>
      obtain ⟨hlen, h0, h66, h1⟩ := hshape
      split at h
      · next hvalid =>
        cases h
        have hhead : ((script.drop 1).take 65)[0]? = some 4 := by
          rw [List.getElem?_take_of_lt (by norm_num), List.getElem?_drop]
          exact h1
        rw [hhead, if_neg (by decide), if_pos rfl] at hcompr
        cases hcompr
        obtain ⟨n, hn⟩ := special_uncompressed hops hlen h0 h66 h1 hvalid
        exact ⟨n, _, hn⟩
      · cases h
    · cases h

/-- **Whatever is compressed is restored by `Decompress`.** -/
theorem special_of_compress {ops : CurveOps} (hops : ops.Sound) {script : CScript} {compr : Bytes}
    (h : compress ops script = some compr) : ∃ n vch, Special ops script compr n vch := by
  unfold compress at h
  split at h
  · next keyID hkey =>
    cases h
    exact ⟨0, keyID, special_keyID hkey⟩
  · split at h
    · next scriptID hscript =>
      cases h
      exact ⟨1, scriptID, special_scriptID hscript⟩
    · split at h
      · next pubkey hpub => exact special_pubKey hops hpub h
      · cases h

/-! ### The round trip -/

theorem readBytes_append {n : ℕ} {vch : Bytes} (hn : vch.length = n) (rest : Bytes) :
    readBytes n (vch ++ rest) = some (vch, rest) := by
  subst hn
  rw [readBytes, if_pos (by simp), List.take_left, List.drop_left]

/-- Reading a special form. -/
theorem unserialize_special {ops : CurveOps} {script : CScript} {compr : Bytes} {n : ℕ}
    {vch : Bytes} (h : Special ops script compr n vch) (script₀ : CScript) (rest : Bytes) :
    unserialize ops script₀ (compr ++ rest) = some (script, rest) := by
  obtain ⟨htag, rfl, hsize, hback⟩ := h
  have htag' : n < 6 := htag
  have hone : UInt8.ofNat n :: vch = putVarInt 32 n ++ vch := by
    interval_cases n <;> rfl
  rw [unserialize, hone, List.append_assoc,
    getVarInt_putVarInt _ (by norm_num) (by omega), Option.bind_some]
  simp only [if_pos htag, readBytes_append hsize, hback, Option.map_some, Option.getD_some]

/-- Reading a script that is shorter than `2 ^ 32 - 6` bytes. -/
theorem unserialize_serialize {ops : CurveOps} (hops : ops.Sound) {script : CScript}
    (hlen : script.length + 6 < 2 ^ 32) (script₀ : CScript) (rest : Bytes) :
    unserialize ops script₀ (serialize ops script ++ rest) = some (script, rest) := by
  unfold serialize
  split
  · next compr hcompr =>
    obtain ⟨n, vch, hspecial⟩ := special_of_compress hops hcompr
    exact unserialize_special hspecial script₀ rest
  · have hsize : generalSize script = script.length + 6 := Nat.mod_eq_of_lt hlen
    rw [unserialize, List.append_assoc, getVarInt_putVarInt _ (by norm_num) (by omega),
      Option.bind_some, hsize]
    have hgeneral : ¬script.length + 6 < nSpecialScripts := Nat.not_lt.2 (Nat.le_add_left 6 _)
    have hrest : script.length = script.length + 6 - nSpecialScripts :=
      (Nat.add_sub_cancel _ 6).symm
    simp only [if_neg hgeneral, readBytes_append hrest]

/-- The size function agrees with the writer. -/
theorem getSerializeSize_eq {ops : CurveOps} {script : CScript}
    (hlen : script.length + 6 < 2 ^ 32) :
    getSerializeSize ops script = (serialize ops script).length := by
  unfold serialize getSerializeSize
  split
  · rfl
  · have hle : sizeOfVarInt 32 (generalSize script) ≤ 5 := sizeOfVarIntLoop_le _ _
    rw [List.length_append, length_putVarInt, Nat.mod_eq_of_lt (by omega), Nat.add_comm]

/-- **Scripts come back**: a script shorter than `2 ^ 32 - 6` bytes is read back from its
compressed form, the rest of the stream is left, and the size function agrees with the writer. -/
theorem script_roundTrip {ops : CurveOps} (hops : ops.Sound) {script : CScript}
    (hlen : script.length + 6 < 2 ^ 32) :
    (∀ script₀ rest, unserialize ops script₀ (serialize ops script ++ rest) = some (script, rest)) ∧
    getSerializeSize ops script = (serialize ops script).length :=
  ⟨unserialize_serialize hops hlen, getSerializeSize_eq hlen⟩

/-- The generator of the curve, uncompressed. -/
def generatorKey : Bytes :=
  [0x04,
    0x79, 0xbe, 0x66, 0x7e, 0xf9, 0xdc, 0xbb, 0xac, 0x55, 0xa0, 0x62, 0x95, 0xce, 0x87, 0x0b, 0x07,
    0x02, 0x9b, 0xfc, 0xdb, 0x2d, 0xce, 0x28, 0xd9, 0x59, 0xf2, 0x81, 0x5b, 0x16, 0xf8, 0x17, 0x98,
    0x48, 0x3a, 0xda, 0x77, 0x26, 0xa3, 0xc4, 0x65, 0x5d, 0xa4, 0xfb, 0xfc, 0x0e, 0x11, 0x08, 0xa8,
    0xfd, 0x17, 0xb4, 0x48, 0xa6, 0x85, 0x54, 0x19, 0x9c, 0x47, 0xd0, 0x8f, 0xfb, 0x10, 0xd4, 0xb8]

/-- The curve operations as far as they concern the generator. -/
def generatorOps : CurveOps where
  isFullyValid key := key == generatorKey
  decompress vch := if vch = 2 :: (generatorKey.drop 1).take 32 then some generatorKey else none
  size_decompress := by
    intro vch key h
    split at h
    · cases h
      rfl
    · cases h

theorem generatorOps_sound : generatorOps.Sound := by
  intro key _ _ hvalid
  obtain rfl : key = generatorKey := by simpa [generatorOps] using hvalid
  decide

theorem script_roundTrip_generator :
    (∀ script₀ rest, unserialize generatorOps script₀
      (serialize generatorOps (65 :: generatorKey ++ [0xac]) ++ rest) =
        some (65 :: generatorKey ++ [0xac], rest)) ∧
    getSerializeSize generatorOps (65 :: generatorKey ++ [0xac]) =
      (serialize generatorOps (65 :: generatorKey ++ [0xac])).length :=
  script_roundTrip generatorOps_sound (by decide)

/-- The scripts that `Decompress` builds are short. -/
theorem length_decompress {ops : CurveOps} {n : ℕ} {vch : Bytes} {script : CScript}
    (hvch : vch.length ≤ 32) (h : decompress ops n vch = some script) : script.length ≤ 67 := by
  unfold decompress at h
  split at h
  · cases h
    simp
    omega
  · cases h
    simp
    omega
  · cases h
    simp
    omega
  · cases h
    simp
    omega
  · obtain ⟨key, hkey, rfl⟩ := Option.map_eq_some_iff.1 h
    have := ops.size_decompress _ _ hkey
    simp [this]
  · obtain ⟨key, hkey, rfl⟩ := Option.map_eq_some_iff.1 h
    have := ops.size_decompress _ _ hkey
    simp [this]
  · cases h

theorem length_readBytes {n : ℕ} {s : Bytes} {x : Bytes × Bytes} (h : readBytes n s = some x) :
    x.1.length = n := by
  unfold readBytes at h
  split at h
  · next hn =>
    cases h
    exact List.length_take_of_le hn
  · cases h

/-- Long scripts have no special form. -/
theorem compress_eq_none {ops : CurveOps} {script : CScript} (hlen : 67 < script.length) :
    compress ops script = none := by
  have hkey : isToKeyID script = none := if_neg fun h => by omega
  have hscript : isToScriptID script = none := if_neg fun h => by omega
  have hpub : isToPubKey ops script = none := by
    rw [isToPubKey, if_neg fun h => by omega, if_neg fun h => by omega]
  rw [compress, hkey, hscript, hpub]

/-- **A script of `2 ^ 32 - 6` bytes or more never comes back**: its size field has wrapped. -/
theorem script_lost {ops : CurveOps} {script : CScript} (hlen : 2 ^ 32 ≤ script.length + 6)
    {rest : Bytes} {x : CScript × Bytes}
    (h : unserialize ops [] (serialize ops script ++ rest) = some x) : x.1 ≠ script := by
  have hsize : generalSize script < 2 ^ 32 := Nat.mod_lt _ (by norm_num)
  have hshort : x.1.length + 6 < 2 ^ 32 := by
    rw [serialize, compress_eq_none (by omega), unserialize, List.append_assoc,
      getVarInt_putVarInt _ (by norm_num) hsize, Option.bind_some] at h
    simp only at h
    split at h
    · obtain ⟨⟨vch, s⟩, hread, rfl⟩ := Option.map_eq_some_iff.1 h
      have hvch : vch.length ≤ 32 := by
        rw [length_readBytes hread, getSpecialSize]
        split
        · omega
        · split <;> omega
      cases hback : decompress ops (generalSize script) vch with
      | none => simp
      | some script' =>
        have := length_decompress hvch hback
        simp only [Option.getD_some]
        omega
    · have := length_readBytes h
      unfold nSpecialScripts at this
      omega
  intro heq
  rw [heq] at hshort
  omega

theorem script_lost_zeros :
    generatorOps.Sound ∧
    ¬∀ script : CScript, unserialize generatorOps [] (serialize generatorOps script ++ []) =
      some (script, []) := by
  refine ⟨generatorOps_sound, fun h => ?_⟩
  -- a script of zeros whose size field wraps to zero, and reads as a hash
  obtain ⟨script, hscript⟩ : ∃ script : CScript, script = List.replicate (2 ^ 32 - 6) 0 := ⟨_, rfl⟩
  have hlen : 2 ^ 32 ≤ script.length + 6 := by
    rw [hscript, List.length_replicate]
    norm_num
  exact script_lost hlen (h script) rfl

end CScriptCompressor

/-! ## Outputs -/

/-- The code that is stored for an amount, a `CAmount` taken as `uint64_t`. -/
def storedAmount (v : ℤ) : ℕ := CTxOutCompressor.compressAmount (v % 2 ^ 64).toNat

/-- The amount that a stored code gives. -/
def loadedAmount (x : ℕ) : ℤ := wrap64 (CTxOutCompressor.decompressAmount x)

/-- Amounts as `CTxOutCompressor` writes and reads them. -/
def diskAmount : Format ℤ := imapFits (varInt 64) storedAmount loadedAmount

theorem storedAmount_lt (v : ℤ) : storedAmount v < 2 ^ 64 := by
  rw [storedAmount, CTxOutCompressor.compressAmount_eq]
  exact Nat.mod_lt _ (by norm_num)

theorem exact_amount : Exact diskAmount fun _ => True :=
  exact_imap_of_faithful fun v _ => ⟨rfl, faithful_varInt (by norm_num) (storedAmount_lt v)⟩

/-- Amounts in the money range come back. -/
theorem amountFits_of_money {net : Network} {v : ℤ} (h0 : 0 ≤ v) (hmax : v ≤ net.maxMoneyOut) :
    diskAmount.fits v = true := by
  obtain ⟨n, rfl⟩ := Int.eq_ofNat_of_zero_le h0
  have hn : n < 2 ^ 63 := by
    rw [Network.maxMoneyOut_eq] at hmax
    omega
  have hmod : ((n : ℤ) % 2 ^ 64).toNat = n := by omega
  have hback : loadedAmount (storedAmount n) = n := by
    rw [storedAmount, hmod, loadedAmount, CTxOutCompressor.decompressAmount_of_money hmax, wrap64,
      Int.bmod_def]
    omega
  exact (imapFits_iff _).2 ⟨rfl, hback⟩

/-- Scripts as `CScriptCompressor` writes them and reads them into an empty script. -/
def diskScript (ops : CurveOps) : Format CScript where
  put := CScriptCompressor.serialize ops
  get := CScriptCompressor.unserialize ops []
  fits script := decide (script.length + 6 < 2 ^ 32)

theorem exact_script {ops : CurveOps} (hops : ops.Sound) :
    Exact (diskScript ops) fun _ => True := by
  intro script _
  constructor
  · intro hfits
    exact CScriptCompressor.unserialize_serialize hops (of_decide_eq_true hfits) []
  · intro hfits rest x hx
    exact CScriptCompressor.script_lost (Nat.not_lt.1 (of_decide_eq_false hfits)) hx

/-- `CTxOutCompressor`, reading into a default `CTxOut`; `nRounds` is not stored. -/
def diskTxOut (ops : CurveOps) : Format CTxOut :=
  imapFits (pair diskAmount (diskScript ops)) (fun o : CTxOut => (o.nValue, o.scriptPubKey))
    fun x => { nValue := x.1, scriptPubKey := x.2, nRounds := -10 }

/-- **Exactly the outputs that fit come back**. -/
theorem exact_txOut {ops : CurveOps} (hops : ops.Sound) :
    Exact (diskTxOut ops) fun _ => True := by
  intro o _
  exact exact_imap (exact_pair exact_amount (exact_script hops)) (fun _ => rfl) o
    ⟨trivial, trivial⟩

/-- The outputs that fit: the amount is one that its code gives back, the script is shorter than
`2 ^ 32 - 6` bytes, and `nRounds` has its default. -/
theorem txOutFits_iff (ops : CurveOps) (o : CTxOut) : (diskTxOut ops).fits o = true ↔
    diskAmount.fits o.nValue = true ∧ o.scriptPubKey.length + 6 < 2 ^ 32 ∧ o.nRounds = -10 := by
  obtain ⟨nValue, scriptPubKey, nRounds⟩ := o
  have hscript : (diskScript ops).fits scriptPubKey = true ↔
      scriptPubKey.length + 6 < 2 ^ 32 := by
    simp only [diskScript, decide_eq_true_eq]
  have hpair : (pair diskAmount (diskScript ops)).fits (nValue, scriptPubKey) = true ↔
      diskAmount.fits nValue = true ∧ (diskScript ops).fits scriptPubKey = true := by
    simp only [pair, Bool.and_eq_true]
  simp only [diskTxOut, imapFits_iff, hpair, hscript, CTxOut.mk.injEq, true_and, and_assoc,
    eq_comm (a := nRounds)]

end FairCoin
