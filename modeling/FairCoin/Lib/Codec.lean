import Mathlib.Data.List.Basic
import Mathlib.Data.BitVec
import Mathlib.Tactic.Ring
import Mathlib.Tactic.Linarith

/-!
# Byte formats with size limits

A format writes values as bytes and reads them back from the front of a stream.  A reader may
refuse what the writer wrote when a size is above the limit it enforces, so a format also says
which values its reader takes (`fits`).

* `Lawful c P` — **the round trip**: on values with `P`, reading what was written gives the value
  and the rest of the stream when the value fits, and fails when it does not.
* `uint`, `int32`, `bitVec`, `byte` — fixed-width integers, least significant byte first.
* `compactSize` — the variable-length sizes of a container, refused above a limit.
* `pair`, `imap`, `vec` — pairs, a format through a change of type, and vectors.
-/

namespace Codec

abbrev Bytes := List UInt8

/-- A writer, a reader that can fail, and the values the reader takes. -/
structure Format (α : Type) where
  put : α → Bytes
  get : Bytes → Option (α × Bytes)
  fits : α → Bool

/-- On values with `P`, reading undoes writing as long as the value fits, and fails otherwise. -/
def Lawful {α : Type} (c : Format α) (P : α → Prop) : Prop :=
  ∀ a rest, P a → c.get (c.put a ++ rest) = if c.fits a then some (a, rest) else none

/-! ## Integers -/

/-- The low `k` bytes of a number, least significant first. -/
def putLE : ℕ → ℕ → Bytes
  | 0, _ => []
  | k + 1, n => UInt8.ofNat (n % 256) :: putLE k (n / 256)

/-- Read `k` bytes, least significant first. -/
def getLE : ℕ → Bytes → Option (ℕ × Bytes)
  | 0, bs => some (0, bs)
  | _ + 1, [] => none
  | k + 1, b :: bs => (getLE k bs).map fun x => (b.toNat + 256 * x.1, x.2)

theorem getLE_putLE {k : ℕ} : ∀ {n : ℕ} (rest : Bytes), n < 256 ^ k →
    getLE k (putLE k n ++ rest) = some (n, rest) := by
  induction k with
  | zero =>
    intro n rest hn
    obtain rfl : n = 0 := by simpa using hn
    rfl
  | succ k ih =>
    intro n rest hn
    have hdiv : n / 256 < 256 ^ k := by
      rw [Nat.div_lt_iff_lt_mul (by norm_num), ← pow_succ]
      exact hn
    have hbyte : (UInt8.ofNat (n % 256)).toNat = n % 256 := by
      rw [UInt8.toNat_ofNat']
      exact Nat.mod_eq_of_lt (Nat.mod_lt _ (by norm_num))
    rw [putLE, List.cons_append, getLE, ih rest hdiv, Option.map_some, hbyte, Nat.mod_add_div]

/-- Unsigned integers of `k` bytes. -/
def uint (k : ℕ) : Format ℕ where
  put := putLE k
  get := getLE k
  fits _ := true

theorem lawful_uint (k : ℕ) : Lawful (uint k) (· < 256 ^ k) :=
  fun _ rest hn => getLE_putLE rest hn

/-- A format through a change of type. -/
def imap {α β : Type} (c : Format β) (enc : α → β) (dec : β → α) : Format α where
  put a := c.put (enc a)
  get bs := (c.get bs).map fun x => (dec x.1, x.2)
  fits a := c.fits (enc a)

theorem lawful_imap {α β : Type} {c : Format β} {P : β → Prop} (hc : Lawful c P) {enc : α → β}
    {dec : β → α} {Q : α → Prop} (hQ : ∀ a, Q a → P (enc a) ∧ dec (enc a) = a) :
    Lawful (imap c enc dec) Q := by
  intro a rest ha
  obtain ⟨hP, hdec⟩ := hQ a ha
  change ((c.get (c.put (enc a) ++ rest)).map fun x => (dec x.1, x.2)) = if c.fits (enc a) then _ else _
  rw [hc _ rest hP]
  split
  · rw [Option.map_some, hdec]
  · rfl

/-- A 32-bit signed integer. -/
def int32 : Format ℤ := imap (uint 4) (fun x => (x % 2 ^ 32).toNat) fun n => (n : ℤ).bmod (2 ^ 32)

theorem lawful_int32 : Lawful int32 fun x => -2 ^ 31 ≤ x ∧ x < 2 ^ 31 := by
  refine lawful_imap (lawful_uint 4) fun x hx => ⟨?_, ?_⟩
  · have := Int.emod_lt_of_pos x (by norm_num : (0 : ℤ) < 2 ^ 32)
    omega
  · have hnonneg := Int.emod_nonneg x (by norm_num : (2 ^ 32 : ℤ) ≠ 0)
    rw [Int.toNat_of_nonneg hnonneg, Int.bmod_def]
    omega

/-- A word of `k` bytes. -/
def bitVec (k : ℕ) : Format (BitVec (8 * k)) := imap (uint k) BitVec.toNat (BitVec.ofNat (8 * k))

theorem lawful_bitVec (k : ℕ) : Lawful (bitVec k) fun _ => True := by
  refine lawful_imap (lawful_uint k) fun x _ => ⟨?_, by simp⟩
  have := x.isLt
  rwa [pow_mul] at this

/-- One byte. -/
def byte : Format UInt8 where
  put b := [b]
  get
    | [] => none
    | b :: bs => some (b, bs)
  fits _ := true

theorem lawful_byte : Lawful byte fun _ => True := fun _ _ _ => rfl

/-! ## Pairs -/

/-- One value after the other. -/
def pair {α β : Type} (c : Format α) (d : Format β) : Format (α × β) where
  put x := c.put x.1 ++ d.put x.2
  get bs := (c.get bs).bind fun x => (d.get x.2).map fun y => ((x.1, y.1), y.2)
  fits x := c.fits x.1 && d.fits x.2

theorem lawful_pair {α β : Type} {c : Format α} {d : Format β} {P : α → Prop} {Q : β → Prop}
    (hc : Lawful c P) (hd : Lawful d Q) : Lawful (pair c d) fun x => P x.1 ∧ Q x.2 := by
  rintro ⟨a, b⟩ rest ⟨ha, hb⟩
  change ((c.get (c.put a ++ d.put b ++ rest)).bind fun x => (d.get x.2).map fun y =>
    ((x.1, y.1), y.2)) = if c.fits a && d.fits b then _ else _
  rw [List.append_assoc, hc a _ ha]
  cases c.fits a with
  | false => rfl
  | true =>
    change ((d.get (d.put b ++ rest)).map fun y => ((a, y.1), y.2)) = if d.fits b then _ else _
    rw [hd b rest hb]
    cases d.fits b <;> rfl

/-! ## Sizes and vectors -/

/-- Write a size. -/
def putCompactSize (n : ℕ) : Bytes :=
  if n < 253 then putLE 1 n
  else if n ≤ 0xffff then 253 :: putLE 2 n
  else if n ≤ 0xffffffff then 254 :: putLE 4 n
  else 255 :: putLE 8 n

/-- Read a size; an encoding that is longer than it has to be and a size above the limit are
refused. -/
def getCompactSize (limit : ℕ) : Bytes → Option (ℕ × Bytes)
  | [] => none
  | b :: bs =>
      let read :=
        if b < 253 then some (b.toNat, bs)
        else if b = 253 then (getLE 2 bs).filter fun x => decide (253 ≤ x.1)
        else if b = 254 then (getLE 4 bs).filter fun x => decide (0x10000 ≤ x.1)
        else (getLE 8 bs).filter fun x => decide (0x100000000 ≤ x.1)
      read.filter fun x => decide (x.1 ≤ limit)

/-- The sizes of containers. -/
def compactSize (limit : ℕ) : Format ℕ where
  put := putCompactSize
  get := getCompactSize limit
  fits n := decide (n ≤ limit)

theorem filter_some_eq {α : Type} {p : α → Bool} (a : α) :
    (some a).filter p = if p a then some a else none := by
  cases h : p a <;> simp [Option.filter, h]

theorem lawful_compactSize (limit : ℕ) : Lawful (compactSize limit) (· < 2 ^ 64) := by
  intro n rest hn
  change getCompactSize limit (putCompactSize n ++ rest) = if decide (n ≤ limit) then _ else _
  rw [putCompactSize]
  split
  · next h =>
    have hb : (UInt8.ofNat (n % 256)).toNat = n := by
      rw [UInt8.toNat_ofNat']
      omega
    have hlt : UInt8.ofNat (n % 256) < 253 := by
      rw [UInt8.lt_iff_toNat_lt, hb]
      exact h
    simp only [putLE, List.cons_append, List.nil_append, getCompactSize, if_pos hlt, hb,
      filter_some_eq]
  · split
    · next h h' =>
      have hget := getLE_putLE (k := 2) rest (show n < 256 ^ 2 by omega)
      have hcanon : 253 ≤ n := by omega
      simp only [List.cons_append, getCompactSize, hget, filter_some_eq]
      simp [hcanon, filter_some_eq]
    · split
      · next h h' h'' =>
        have hget := getLE_putLE (k := 4) rest (show n < 256 ^ 4 by omega)
        have hcanon : 0x10000 ≤ n := by omega
        simp only [List.cons_append, getCompactSize, hget, filter_some_eq]
        simp [hcanon, filter_some_eq]
      · next h h' h'' =>
        have hget := getLE_putLE (k := 8) rest (show n < 256 ^ 8 by omega)
        have hcanon : 0x100000000 ≤ n := by omega
        simp only [List.cons_append, getCompactSize, hget, filter_some_eq]
        simp [hcanon, filter_some_eq]

/-- Read `n` values, one after the other. -/
def getMany {α : Type} (c : Format α) : ℕ → Bytes → Option (List α × Bytes)
  | 0, bs => some ([], bs)
  | n + 1, bs => (c.get bs).bind fun x => (getMany c n x.2).map fun y => (x.1 :: y.1, y.2)

theorem getMany_flatMap {α : Type} {c : Format α} {P : α → Prop} (hc : Lawful c P) {as : List α} :
    ∀ rest, (∀ a ∈ as, P a) → getMany c as.length (as.flatMap c.put ++ rest) =
      if as.all c.fits then some (as, rest) else none := by
  induction as with
  | nil => exact fun _ _ => rfl
  | cons a as ih =>
    intro rest has
    rw [List.flatMap_cons, List.append_assoc, List.length_cons, getMany,
      hc a _ (has a (by simp)), List.all_cons]
    cases c.fits a with
    | false => rfl
    | true =>
      change ((getMany c as.length (as.flatMap c.put ++ rest)).map fun y => (a :: y.1, y.2)) =
        if as.all c.fits then _ else _
      rw [ih rest fun b hb => has b (by simp [hb])]
      cases as.all c.fits <;> rfl

/-- A vector: its size, then its elements. -/
def vec {α : Type} (limit : ℕ) (c : Format α) : Format (List α) where
  put as := putCompactSize as.length ++ as.flatMap c.put
  get bs := (getCompactSize limit bs).bind fun x => getMany c x.1 x.2
  fits as := decide (as.length ≤ limit) && as.all c.fits

theorem lawful_vec {α : Type} (limit : ℕ) {c : Format α} {P : α → Prop} (hc : Lawful c P) :
    Lawful (vec limit c) fun as => as.length < 2 ^ 64 ∧ ∀ a ∈ as, P a := by
  rintro as rest ⟨hlen, has⟩
  change ((getCompactSize limit (putCompactSize as.length ++ as.flatMap c.put ++ rest)).bind
    fun x => getMany c x.1 x.2) = if decide (as.length ≤ limit) && as.all c.fits then _ else _
  have hsize : getCompactSize limit (putCompactSize as.length ++ (as.flatMap c.put ++ rest)) =
      if decide (as.length ≤ limit) then some (as.length, as.flatMap c.put ++ rest) else none :=
    lawful_compactSize limit as.length (as.flatMap c.put ++ rest) hlen
  rw [List.append_assoc, hsize]
  cases decide (as.length ≤ limit) with
  | false => rfl
  | true => exact getMany_flatMap hc rest has

end Codec
