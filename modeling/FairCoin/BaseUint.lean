import FairCoin.Lib.Digits
import FairCoin.Primitives

/-!
# Arithmetic in words

The operators of `base_uint<BITS>` of `src/uint256.cpp` and `src/uint256.h`, over an array of 32-bit
words of any width.

* `BaseUint` — the array; `word` and `set` read and write it, `value` is its number.
* `shlAssign`, `shrAssign`, `mulAssign32`, `mulAssign`, `addAssign`, `subAssign`, `divAssign` — the
  operators, `bits` and `compareTo` — the two measures.
* `Operand` — an argument is another object or the object itself.
* `baseUint_exact_iff` — **all of them are exact, but for a product with itself**.
-/

namespace FairCoin

open Digits

/-- `base_uint<32 * WIDTH>`. -/
structure BaseUint (WIDTH : ℕ) where
  pn : Vector UInt32 WIDTH
  deriving DecidableEq, Repr

namespace BaseUint

variable {WIDTH : ℕ}

/-- `pn[i]`. -/
def word (u : BaseUint WIDTH) (i : ℕ) : ℕ := (u.pn[i]?.getD 0).toNat

/-- `pn[i] = x`, cut to a word. -/
def set (u : BaseUint WIDTH) (i x : ℕ) : BaseUint WIDTH := ⟨u.pn.setIfInBounds i (UInt32.ofNat x)⟩

/-- `pn[i] |= x`. -/
def orAt (u : BaseUint WIDTH) (i x : ℕ) : BaseUint WIDTH := u.set i (u.word i ||| x)

/-- All words zero: `*this = 0`, for two words and more. -/
def zero (WIDTH : ℕ) : BaseUint WIDTH := ⟨Vector.replicate WIDTH 0⟩

/-- The number that the words stand for. -/
def value (u : BaseUint WIDTH) : ℕ := sum (2 ^ 32) u.word WIDTH

/-! ## Words -/

theorem word_lt (u : BaseUint WIDTH) (i : ℕ) : u.word i < 2 ^ 32 := UInt32.toNat_lt _

theorem word_set (u : BaseUint WIDTH) (i x j : ℕ) :
    (u.set i x).word j = if j = i ∧ i < WIDTH then x % 2 ^ 32 else u.word j := by
  rw [word, set, Vector.getElem?_setIfInBounds]
  split
  · next hij =>
    subst hij
    split
    · next hlt =>
      rw [if_pos ⟨rfl, hlt⟩]
      rfl
    · next hlt =>
      rw [if_neg fun h => hlt h.2, word, Vector.getElem?_eq_none (Nat.le_of_not_lt hlt)]
  · next hij =>
    rw [if_neg fun h => hij h.1.symm]
    rfl

@[simp] theorem word_zero (i : ℕ) : (zero WIDTH).word i = 0 := by
  rw [word, zero, Vector.getElem?_replicate]
  split
  · rfl
  · rfl

theorem value_lt (u : BaseUint WIDTH) : u.value < (2 ^ 32) ^ WIDTH :=
  sum_lt fun i _ => u.word_lt i

theorem value_zero : (zero WIDTH).value = 0 := by
  simp [value, sum]

/-- What a write changes. -/
theorem value_set (u : BaseUint WIDTH) {i x : ℕ} (hi : i < WIDTH) (hx : x < 2 ^ 32) :
    (u.set i x).value + u.word i * (2 ^ 32) ^ i = u.value + x * (2 ^ 32) ^ i := by
  have hwrite := sum_write (B := 2 ^ 32) (f := u.word) (g := (u.set i x).word) hi fun j hj => by
    rw [word_set, if_neg fun h => hj h.1]
  rw [word_set, if_pos ⟨rfl, hi⟩, Nat.mod_eq_of_lt hx] at hwrite
  exact hwrite

/-- A word is cut out of the number. -/
theorem word_eq (u : BaseUint WIDTH) {i : ℕ} (hi : i < WIDTH) :
    u.word i = u.value / (2 ^ 32) ^ i % 2 ^ 32 :=
  (digit_eq (fun j _ => u.word_lt j) hi).symm

/-- A word above the number is zero, and one that the number ends in is small. -/
theorem word_small (u : BaseUint WIDTH) {i m : ℕ} (hi : i < WIDTH)
    (h : u.value < 2 ^ m * (2 ^ 32) ^ i) : u.word i < 2 ^ m := by
  rw [u.word_eq hi]
  exact (Nat.mod_le _ _).trans_lt (Nat.div_lt_of_lt_mul (by rwa [mul_comm]))

/-- Bits that are written beside other ones are added. -/
theorem value_orAt (u : BaseUint WIDTH) {i x : ℕ} (hi : i < WIDTH) (hx : x < 2 ^ 32)
    (hor : u.word i ||| x = u.word i + x) :
    (u.orAt i x).value = u.value + x * (2 ^ 32) ^ i := by
  have hset := u.value_set hi (Nat.or_lt_two_pow (u.word_lt i) hx)
  rw [hor, Nat.add_mul] at hset
  rw [orAt, hor]
  omega

theorem word_orAt (u : BaseUint WIDTH) {i j : ℕ} (x : ℕ) (hij : j ≠ i) :
    (u.orAt i x).word j = u.word j := by
  rw [orAt, word_set, if_neg fun h => hij h.1]

/-! ## Shifts -/

/-- `operator<<=`. -/
def shlAssign (a : BaseUint WIDTH) (shift : ℕ) : BaseUint WIDTH :=
  let k := shift / 32
  let shift := shift % 32
  upTo (fun pn i =>
    let pn := if i + k + 1 < WIDTH ∧ shift ≠ 0 then pn.orAt (i + k + 1) (a.word i >>> (32 - shift))
      else pn
    if i + k < WIDTH then pn.orAt (i + k) ((a.word i <<< shift) % 2 ^ 32) else pn)
    (zero WIDTH) WIDTH

/-- `operator>>=`. -/
def shrAssign (a : BaseUint WIDTH) (shift : ℕ) : BaseUint WIDTH :=
  let k := shift / 32
  let shift := shift % 32
  upTo (fun pn i =>
    let pn := if i ≥ k + 1 ∧ shift ≠ 0 then
        pn.orAt (i - k - 1) ((a.word i <<< (32 - shift)) % 2 ^ 32)
      else pn
    if i ≥ k then pn.orAt (i - k) (a.word i >>> shift) else pn)
    (zero WIDTH) WIDTH

/-- What a shift by less than a word makes of one: a part that stays and a part that goes on. -/
theorem shift_split {x sh : ℕ} (hx : x < 2 ^ 32) (hsh : sh ≤ 32) :
    2 ^ sh ∣ (x <<< sh) % 2 ^ 32 ∧ x >>> (32 - sh) < 2 ^ sh ∧
      (x <<< sh) % 2 ^ 32 + x >>> (32 - sh) * 2 ^ 32 = x * 2 ^ sh := by
  have hpow : 2 ^ 32 = 2 ^ (32 - sh) * 2 ^ sh := by
    rw [← pow_add, Nat.sub_add_cancel hsh]
  rw [Nat.shiftLeft_eq, Nat.shiftRight_eq_div_pow]
  refine ⟨?_, ?_, ?_⟩
  · rw [hpow, Nat.mul_mod_mul_right]
    exact Dvd.intro_left _ rfl
  · rw [Nat.div_lt_iff_lt_mul (Nat.two_pow_pos _), mul_comm, ← hpow]
    exact hx
  · have hdiv : x / 2 ^ (32 - sh) = x * 2 ^ sh / 2 ^ 32 := by
      rw [hpow, Nat.mul_div_mul_right _ _ (Nat.two_pow_pos _)]
    rw [hdiv, mul_comm (x * 2 ^ sh / 2 ^ 32), Nat.mod_add_div]

theorem value_shlAssign (a : BaseUint WIDTH) (shift : ℕ) :
    (a.shlAssign shift).value = a.value * 2 ^ shift % (2 ^ 32) ^ WIDTH := by
  set k := shift / 32 with hk
  set sh := shift % 32 with hsh
  have hpow : 2 ^ shift = (2 ^ 32) ^ k * 2 ^ sh := by
    rw [← pow_mul, ← pow_add]
    congr 1
    omega
  refine upTo_invariant (I := fun i (pn : BaseUint WIDTH) =>
    pn.value = sum (2 ^ 32) a.word i * 2 ^ shift % (2 ^ 32) ^ WIDTH)
    (by rw [value_zero, sum_zero, zero_mul, Nat.zero_mod]) fun i hi pn hpn => ?_
  have hA : sum (2 ^ 32) a.word i < (2 ^ 32) ^ i := sum_lt fun j _ => a.word_lt j
  obtain ⟨hdvd, hhi, hsplit⟩ := shift_split (a.word_lt i) (show sh ≤ 32 by omega)
  rw [sum_succ]
  generalize sum (2 ^ 32) a.word i = A at hpn hA ⊢
  have hgoal : (A + a.word i * (2 ^ 32) ^ i) * 2 ^ shift =
      A * 2 ^ shift + (a.word i * 2 ^ sh) * (2 ^ 32) ^ (i + k) := by
    rw [hpow, pow_add]
    ring
  rw [hgoal, ← hsplit]
  simp only
  have hlo : (a.word i <<< sh) % 2 ^ 32 < 2 ^ 32 := Nat.mod_lt _ (Nat.two_pow_pos 32)
  have hsh32 : 2 ^ sh ≤ 2 ^ 32 := Nat.pow_le_pow_right (by decide) (by omega)
  generalize (a.word i <<< sh) % 2 ^ 32 = lo at hdvd hlo ⊢
  generalize a.word i >>> (32 - sh) = hi' at hhi ⊢
  by_cases hik : i + k < WIDTH
  · -- what has been written so far ends in the lower bits of this word
    have hV : A * 2 ^ shift < 2 ^ sh * (2 ^ 32) ^ (i + k) := by
      calc A * 2 ^ shift < (2 ^ 32) ^ i * 2 ^ shift :=
            Nat.mul_lt_mul_of_pos_right hA (Nat.two_pow_pos _)
        _ = 2 ^ sh * (2 ^ 32) ^ (i + k) := by
            rw [hpow, pow_add]
            ring
    have hV' : A * 2 ^ shift < (2 ^ 32) ^ (i + k + 1) := by
      refine hV.trans_le ?_
      rw [pow_succ, mul_comm]
      exact Nat.mul_le_mul_left _ hsh32
    have hexact : pn.value = A * 2 ^ shift := by
      rw [hpn, Nat.mod_eq_of_lt]
      exact hV'.trans_le (Nat.pow_le_pow_right (by decide) hik)
    have hor : pn.word (i + k) ||| lo = pn.word (i + k) + lo := by
      rw [Nat.or_comm, or_eq_add hdvd (pn.word_small hik (by rwa [hexact])), add_comm]
    by_cases hnext : i + k + 1 < WIDTH ∧ sh ≠ 0
    · have hzero : pn.word (i + k + 1) = 0 := by
        have := pn.word_small (m := 0) hnext.1 (by rwa [hexact, pow_zero, one_mul])
        omega
      have h₁ := pn.value_orAt hnext.1 (hhi.trans_le hsh32) (by rw [hzero, Nat.zero_or, zero_add])
      have h₂ := (pn.orAt (i + k + 1) hi').value_orAt hik hlo
        (by rw [pn.word_orAt hi' (by omega)]; exact hor)
      rw [if_pos hnext, if_pos hik, ← Nat.mod_eq_of_lt (value_lt _), h₂, h₁, hexact]
      congr 1
      ring
    · have h₂ := pn.value_orAt hik hlo hor
      rw [if_neg hnext, if_pos hik, ← Nat.mod_eq_of_lt (value_lt _), h₂, hexact]
      by_cases h0 : sh = 0
      · have hhi0 : hi' = 0 := by
          rw [h0] at hhi
          omega
        rw [hhi0, zero_mul, add_zero]
      · -- the next word is beyond the array
        have hW : WIDTH = i + k + 1 := by
          by_contra hne
          exact hnext ⟨by omega, h0⟩
        rw [hW, Nat.add_mul, ← Nat.add_assoc, mul_assoc, ← pow_succ', Nat.add_mul_mod_self_right]
  · have hdvd' : (2 ^ 32) ^ WIDTH ∣ (2 ^ 32) ^ (i + k) := pow_dvd_pow _ (by omega)
    have hnext : ¬(i + k + 1 < WIDTH ∧ sh ≠ 0) := fun h => hik (by omega)
    rw [if_neg hnext, if_neg hik, hpn, Nat.add_mod,
      Nat.mod_eq_zero_of_dvd (hdvd'.mul_left _), add_zero, Nat.mod_mod]

theorem value_shrAssign (a : BaseUint WIDTH) (shift : ℕ) :
    (a.shrAssign shift).value = a.value / 2 ^ shift := by
  set k := shift / 32 with hk
  set sh := shift % 32 with hsh
  have hpow : 2 ^ shift = (2 ^ 32) ^ k * 2 ^ sh := by
    rw [← pow_mul, ← pow_add]
    congr 1
    omega
  refine upTo_invariant (I := fun i (pn : BaseUint WIDTH) =>
    pn.value = sum (2 ^ 32) a.word i / 2 ^ shift)
    (by rw [value_zero, sum_zero, Nat.zero_div]) fun i hi pn hpn => ?_
  have hA : sum (2 ^ 32) a.word i < (2 ^ 32) ^ i := sum_lt fun j _ => a.word_lt j
  have hnew : sum (2 ^ 32) a.word (i + 1) < (2 ^ 32) ^ (i + 1) := sum_lt fun j _ => a.word_lt j
  have hx := a.word_lt i
  rw [sum_succ] at hnew ⊢
  generalize sum (2 ^ 32) a.word i = A at hpn hA hnew ⊢
  simp only
  by_cases hik : i < k
  · -- no word has come down yet
    have hle : (2 ^ 32) ^ (i + 1) ≤ 2 ^ shift := by
      rw [hpow]
      exact (Nat.pow_le_pow_right (by decide) hik).trans (Nat.le_mul_of_pos_right _ (by positivity))
    rw [if_neg (by omega), if_neg (by omega), hpn, Nat.div_eq_of_lt (hnew.trans_le hle),
      Nat.div_eq_of_lt ((Nat.le_add_right A _).trans_lt (hnew.trans_le hle))]
  · obtain ⟨t, rfl⟩ : ∃ t, i = k + t := ⟨i - k, by omega⟩
    have hA' : A / (2 ^ 32) ^ k < (2 ^ 32) ^ t := Nat.div_lt_of_lt_mul (by rwa [← pow_add])
    have hgoal : (A + a.word (k + t) * (2 ^ 32) ^ (k + t)) / 2 ^ shift =
        (A / (2 ^ 32) ^ k + a.word (k + t) * (2 ^ 32) ^ t) / 2 ^ sh := by
      rw [hpow, ← Nat.div_div_eq_div_mul, pow_add, mul_left_comm,
        Nat.add_mul_div_left _ _ (by positivity)]
    rw [hpow, ← Nat.div_div_eq_div_mul] at hpn
    rw [hgoal, if_pos (show k + t ≥ k by omega), show k + t - k = t by omega]
    generalize A / (2 ^ 32) ^ k = A' at hpn hA' ⊢
    generalize a.word (k + t) = x at hx ⊢
    have hshift : x >>> sh < 2 ^ 32 := by
      rw [Nat.shiftRight_eq_div_pow]
      exact (Nat.div_le_self _ _).trans_lt hx
    cases t with
    | zero =>
      have h0 : A' = 0 := by simpa using hA'
      have hzero : pn.value = 0 := by rw [hpn, h0, Nat.zero_div]
      have hword : pn.word 0 = 0 := by rw [pn.word_eq (by omega), hzero, Nat.zero_div, Nat.zero_mod]
      rw [if_neg (by omega), pn.value_orAt (by omega) hshift (by rw [hword, Nat.zero_or, zero_add]),
        hzero, h0, Nat.shiftRight_eq_div_pow]
      simp
    | succ t =>
      obtain ⟨hdvd, hhi, hsplit⟩ := shift_split hx (show 32 - sh ≤ 32 by omega)
      rw [show 32 - (32 - sh) = sh by omega] at hhi hsplit
      have hB : 2 ^ 32 = 2 ^ (32 - sh) * 2 ^ sh := by rw [← pow_add, Nat.sub_add_cancel (by omega)]
      have hV : pn.value < 2 ^ (32 - sh) * (2 ^ 32) ^ t := by
        rw [hpn]
        refine Nat.div_lt_of_lt_mul (hA'.trans_le (le_of_eq ?_))
        rw [pow_succ]
        nth_rewrite 2 [hB]
        ring
      have hsum : (A' + x * (2 ^ 32) ^ (t + 1)) / 2 ^ sh =
          pn.value + x * 2 ^ (32 - sh) * (2 ^ 32) ^ t := by
        have hterm : x * (2 ^ 32) ^ (t + 1) = 2 ^ sh * (x * 2 ^ (32 - sh) * (2 ^ 32) ^ t) := by
          rw [pow_succ]
          nth_rewrite 2 [hB]
          ring
        rw [hterm, Nat.add_mul_div_left _ _ (Nat.two_pow_pos _), hpn]
      have hlo : (x <<< (32 - sh)) % 2 ^ 32 < 2 ^ 32 := Nat.mod_lt _ (Nat.two_pow_pos 32)
      have hzero : pn.word (t + 1) = 0 := by
        have hV' : pn.value < 2 ^ 0 * (2 ^ 32) ^ (t + 1) := by
          rw [pow_zero, one_mul, pow_succ, mul_comm]
          exact hV.trans_le (Nat.mul_le_mul_right _ (Nat.pow_le_pow_right (by decide) (by omega)))
        have := pn.word_small (by omega) hV'
        omega
      have hor : pn.word t ||| (x <<< (32 - sh)) % 2 ^ 32 =
          pn.word t + (x <<< (32 - sh)) % 2 ^ 32 := by
        rw [Nat.or_comm, or_eq_add hdvd (pn.word_small (by omega) hV), add_comm]
      rw [hsum, ← hsplit, Nat.add_sub_cancel]
      by_cases h0 : sh = 0
      · have hlo0 : (x <<< (32 - sh)) % 2 ^ 32 = 0 := by
          rw [h0, Nat.shiftLeft_eq, Nat.sub_zero, Nat.mul_mod_left]
        rw [if_neg fun h => h.2 h0, hlo0, pn.value_orAt (by omega) hshift
          (by rw [hzero, Nat.zero_or, zero_add])]
        ring
      · have h₁ := pn.value_orAt (i := t) (by omega) hlo hor
        rw [if_pos ⟨by omega, h0⟩, value_orAt _ (by omega) hshift
          (by rw [pn.word_orAt _ (by omega), hzero, Nat.zero_or, zero_add]), h₁]
        ring

/-! ## Carries -/

/-- A word and the carry that goes on from it: `pn[i] = n & 0xffffffff; carry = n >> 32;`. -/
theorem value_carry (u : BaseUint WIDTH) {i : ℕ} (hi : i < WIDTH) (n : ℕ) :
    (u.set i (n &&& 0xffffffff)).value + (n >>> 32) * (2 ^ 32) ^ (i + 1) + u.word i * (2 ^ 32) ^ i =
      u.value + n * (2 ^ 32) ^ i := by
  have hmask : n &&& 0xffffffff = n % 2 ^ 32 := Nat.and_two_pow_sub_one_eq_mod n 32
  have hset := u.value_set hi (Nat.mod_lt n (Nat.two_pow_pos 32))
  have hn : n % 2 ^ 32 * (2 ^ 32) ^ i + n / 2 ^ 32 * (2 ^ 32) ^ (i + 1) = n * (2 ^ 32) ^ i := by
    rw [pow_succ (2 ^ 32) i, mul_comm ((2 ^ 32) ^ i) (2 ^ 32), ← mul_assoc, ← Nat.add_mul,
      mul_comm (n / 2 ^ 32), Nat.mod_add_div]
  rw [hmask, Nat.shiftRight_eq_div_pow]
  omega

theorem carry_lt {n : ℕ} (hn : n < 2 ^ 64) : n >>> 32 < 2 ^ 32 := by
  rw [Nat.shiftRight_eq_div_pow]
  omega

/-- A loop that puts a term at every word from `j` on, with a carry: `n = carry + term`, and then
`pn[i + j] = n & 0xffffffff; carry = n >> 32;`. -/
def carryLoop (j : ℕ) (term : BaseUint WIDTH → ℕ → ℕ) (pn : BaseUint WIDTH) (turns : ℕ) :
    BaseUint WIDTH × ℕ :=
  upTo (fun (s : BaseUint WIDTH × ℕ) i =>
    let n := (s.2 + term s.1 i) % 2 ^ 64
    (s.1.set (i + j) (n &&& 0xffffffff), n >>> 32)) (pn, 0) turns

/-- `operator*=(uint32_t)`. -/
def mulAssign32 (pn : BaseUint WIDTH) (b32 : UInt32) : BaseUint WIDTH :=
  (carryLoop 0 (fun pn i => b32.toNat * pn.word i) pn WIDTH).1

/-- `operator+=(const base_uint&)`. -/
def addAssign (pn b : BaseUint WIDTH) : BaseUint WIDTH :=
  (carryLoop 0 (fun pn i => pn.word i + b.word i) pn WIDTH).1

/-- The argument of an operator is another object or the object itself. -/
inductive Operand (WIDTH : ℕ) where
  | self
  | other (b : BaseUint WIDTH)
  deriving DecidableEq, Repr

/-- The object that an argument is, where `pn` is the object itself. -/
def Operand.get (b : Operand WIDTH) (pn : BaseUint WIDTH) : BaseUint WIDTH :=
  match b with
  | .self => pn
  | .other b => b

/-- `operator*=(const base_uint&)`. -/
def mulAssign (pn : BaseUint WIDTH) (b : Operand WIDTH) : BaseUint WIDTH :=
  let a := pn
  upTo (fun pn j =>
    (carryLoop j (fun pn i => pn.word (i + j) + a.word j * (b.get pn).word i) pn (WIDTH - j)).1)
    (zero WIDTH) WIDTH

/-- **The carry.**  What a loop writes and what it carries out are what was there before and the
terms. -/
theorem carryLoop_spec (pn : BaseUint WIDTH) (j turns : ℕ) (term : BaseUint WIDTH → ℕ → ℕ)
    (t : ℕ → ℕ) (hturns : turns + j ≤ WIDTH) (ht : ∀ i < turns, t i ≤ (2 ^ 32 - 1) * 2 ^ 32)
    (hterm : ∀ i < turns, ∀ u : BaseUint WIDTH,
      (∀ l, i + j ≤ l → u.word l = pn.word l) → term u i = t i) :
    (carryLoop j term pn turns).1.value +
        (carryLoop j term pn turns).2 * (2 ^ 32) ^ (turns + j) +
        sum (2 ^ 32) (fun i => pn.word (i + j)) turns * (2 ^ 32) ^ j =
      pn.value + sum (2 ^ 32) t turns * (2 ^ 32) ^ j := by
  refine (upTo_invariant (n := turns) (I := fun i (s : BaseUint WIDTH × ℕ) =>
    s.1.value + s.2 * (2 ^ 32) ^ (i + j) +
        sum (2 ^ 32) (fun i => pn.word (i + j)) i * (2 ^ 32) ^ j =
      pn.value + sum (2 ^ 32) t i * (2 ^ 32) ^ j ∧ s.2 < 2 ^ 32 ∧
      ∀ l, i + j ≤ l → s.1.word l = pn.word l)
    ⟨by simp, Nat.two_pow_pos 32, fun _ _ => rfl⟩ ?_).1
  rintro i hi ⟨u, carry⟩ ⟨hval, hcarry, hrest⟩
  have hti := ht i hi
  simp only at hval hcarry hrest
  have hn : carry + t i < 2 ^ 64 := by omega
  simp only [hterm i hi u hrest, Nat.mod_eq_of_lt hn]
  refine ⟨?_, carry_lt hn, fun l hl => ?_⟩
  · have hstep := u.value_carry (i := i + j) (by omega) (carry + t i)
    rw [hrest (i + j) le_rfl, Nat.add_mul] at hstep
    rw [sum_succ, sum_succ, Nat.add_mul, Nat.add_mul, mul_assoc, mul_assoc, ← pow_add,
      Nat.add_right_comm i 1 j]
    omega
  · rw [word_set, if_neg (by omega)]
    exact hrest l (by omega)

/-- What is carried out of the array is lost. -/
theorem eq_mod_of_carry {u : BaseUint WIDTH} {carry x : ℕ}
    (h : u.value + carry * (2 ^ 32) ^ WIDTH = x) : u.value = x % (2 ^ 32) ^ WIDTH := by
  rw [← h, Nat.add_mul_mod_self_right, Nat.mod_eq_of_lt u.value_lt]

theorem value_mulAssign32 (a : BaseUint WIDTH) (b32 : UInt32) :
    (a.mulAssign32 b32).value = a.value * b32.toNat % (2 ^ 32) ^ WIDTH := by
  have h := a.carryLoop_spec 0 WIDTH (fun pn i => b32.toNat * pn.word i)
    (fun i => b32.toNat * a.word i) le_rfl
    (fun i _ => (Nat.mul_le_mul (Nat.le_sub_one_of_lt b32.toNat_lt) (a.word_lt i).le))
    fun i _ u hu => by rw [hu i le_rfl]
  rw [sum_mul_left, pow_zero, mul_one, mul_one, add_zero] at h
  refine eq_mod_of_carry (Nat.add_right_cancel (h.trans ?_))
  rw [mul_comm a.value, add_comm]
  rfl

theorem value_addAssign (a b : BaseUint WIDTH) :
    (a.addAssign b).value = (a.value + b.value) % (2 ^ 32) ^ WIDTH := by
  have h := a.carryLoop_spec 0 WIDTH (fun pn i => pn.word i + b.word i)
    (fun i => a.word i + b.word i) le_rfl
    (fun i _ => by
      have := a.word_lt i
      have := b.word_lt i
      omega)
    fun i _ u hu => by rw [hu i le_rfl]
  rw [sum_add, pow_zero, mul_one, mul_one, add_zero] at h
  refine eq_mod_of_carry (Nat.add_right_cancel (h.trans ?_))
  rw [add_comm]
  rfl

theorem value_mulAssign (a b : BaseUint WIDTH) :
    (a.mulAssign (.other b)).value = a.value * b.value % (2 ^ 32) ^ WIDTH := by
  refine upTo_invariant (I := fun j (pn : BaseUint WIDTH) =>
    pn.value = sum (2 ^ 32) a.word j * b.value % (2 ^ 32) ^ WIDTH)
    (by rw [value_zero, sum_zero, zero_mul, Nat.zero_mod]) fun j hj pn hpn => ?_
  have h := pn.carryLoop_spec j (WIDTH - j)
    (fun pn i => pn.word (i + j) + a.word j * ((Operand.other b).get pn).word i)
    (fun i => pn.word (i + j) + a.word j * b.word i) (by omega)
    (fun i _ => by
      have h₁ := pn.word_lt (i + j)
      have h₂ : a.word j * b.word i ≤ (2 ^ 32 - 1) * (2 ^ 32 - 1) :=
        Nat.mul_le_mul (Nat.le_sub_one_of_lt (a.word_lt j)) (Nat.le_sub_one_of_lt (b.word_lt i))
      omega)
    fun i _ u hu => by
      rw [hu (i + j) le_rfl]
      rfl
  rw [sum_add, sum_mul_left, Nat.sub_add_cancel hj.le, Nat.add_mul] at h
  set row := carryLoop j
    (fun pn i => pn.word (i + j) + a.word j * ((Operand.other b).get pn).word i) pn (WIDTH - j)
    with hrow
  have hcarry : row.1.value + row.2 * (2 ^ 32) ^ WIDTH =
      pn.value + a.word j * sum (2 ^ 32) b.word (WIDTH - j) * (2 ^ 32) ^ j := by omega
  have hlow : b.value * (2 ^ 32) ^ j ≡
      sum (2 ^ 32) b.word (WIDTH - j) * (2 ^ 32) ^ j [MOD (2 ^ 32) ^ WIDTH] := by
    have h := (sum_modEq (B := 2 ^ 32) (f := b.word) (Nat.sub_le WIDTH j)).mul_right' ((2 ^ 32) ^ j)
    rwa [← pow_add, Nat.sub_add_cancel hj.le] at h
  have hpn' : pn.value ≡ sum (2 ^ 32) a.word j * b.value [MOD (2 ^ 32) ^ WIDTH] := by
    rw [hpn]
    exact Nat.mod_modEq _ _
  show row.1.value = _
  rw [eq_mod_of_carry hcarry, sum_succ, Nat.add_mul, mul_assoc, mul_assoc (a.word j),
    mul_comm ((2 ^ 32) ^ j)]
  exact hpn'.add (hlow.symm.mul_left (a.word j))

/-- A product with the object itself is read from words that are zero already. -/
theorem value_mulAssign_self (a : BaseUint WIDTH) : (a.mulAssign .self).value = 0 := by
  have hzero : ∀ u : BaseUint WIDTH, (∀ l, u.word l = 0) → u.value = 0 := by
    intro u hu
    simp [value, sum, hu]
  apply hzero
  refine upTo_invariant (I := fun _ (pn : BaseUint WIDTH) => ∀ l, pn.word l = 0) word_zero
    fun j hj pn hpn => ?_
  refine (upTo_invariant (I := fun _ (s : BaseUint WIDTH × ℕ) => s.2 = 0 ∧ ∀ l, s.1.word l = 0)
    ⟨rfl, hpn⟩ ?_).2
  rintro i hi ⟨u, carry⟩ ⟨rfl, hu⟩
  have hn : 0 + (u.word (i + j) + a.word j * (Operand.self.get u).word i) = 0 := by
    simp only [Operand.get]
    rw [hu, hu]
    rfl
  simp only [hn]
  refine ⟨rfl, fun l => ?_⟩
  rw [word_set]
  split
  · rfl
  · exact hu l

/-! ## Differences -/

/-- The loop of `operator++`: `while (++pn[i] == 0 && i < WIDTH - 1) i++;`. -/
def incLoop : ℕ → BaseUint WIDTH → ℕ → BaseUint WIDTH
  | 0, pn, _ => pn
  | turns + 1, pn, i =>
      let pn := pn.set i ((pn.word i + 1) % 2 ^ 32)
      if pn.word i = 0 ∧ i < WIDTH - 1 then incLoop turns pn (i + 1) else pn

/-- `operator++`. -/
def inc (pn : BaseUint WIDTH) : BaseUint WIDTH := incLoop WIDTH pn 0

/-- `operator~`. -/
def compl (pn : BaseUint WIDTH) : BaseUint WIDTH :=
  upTo (fun ret i => ret.set i (2 ^ 32 - 1 - pn.word i)) (zero WIDTH) WIDTH

/-- `operator-`. -/
def neg (pn : BaseUint WIDTH) : BaseUint WIDTH := pn.compl.inc

/-- `operator-=(const base_uint&)`. -/
def subAssign (pn b : BaseUint WIDTH) : BaseUint WIDTH := pn.addAssign b.neg

theorem value_incLoop : ∀ {turns i : ℕ} (pn : BaseUint WIDTH), turns + i = WIDTH →
    (incLoop turns pn i).value = if turns = 0 then pn.value
      else (pn.value + (2 ^ 32) ^ i) % (2 ^ 32) ^ WIDTH := by
  intro turns
  induction turns with
  | zero => exact fun _ _ => rfl
  | succ turns ih =>
    intro i pn hi
    have hword := pn.word_lt i
    have hset := pn.value_set (i := i) (by omega) (Nat.mod_lt (pn.word i + 1) (Nat.two_pow_pos 32))
    have hnew : (pn.set i ((pn.word i + 1) % 2 ^ 32)).word i = (pn.word i + 1) % 2 ^ 32 := by
      rw [word_set, if_pos ⟨rfl, by omega⟩, Nat.mod_mod]
    rw [if_neg (Nat.succ_ne_zero turns), incLoop]
    simp only [hnew]
    by_cases hlast : pn.word i + 1 = 2 ^ 32
    · -- the word runs over: what is left is a one for the next word
      have hrun : (pn.set i ((pn.word i + 1) % 2 ^ 32)).value + (2 ^ 32) ^ (i + 1) =
          pn.value + (2 ^ 32) ^ i := by
        rw [hlast, Nat.mod_self, zero_mul, add_zero] at hset
        have hpow : (2 ^ 32) ^ (i + 1) = pn.word i * (2 ^ 32) ^ i + (2 ^ 32) ^ i := by
          rw [pow_succ (2 ^ 32) i, ← Nat.succ_mul, Nat.succ_eq_add_one, hlast, mul_comm]
        rw [hlast, Nat.mod_self]
        omega
      rw [hlast, Nat.mod_self] at hrun ⊢
      by_cases hi' : i < WIDTH - 1
      · rw [if_pos ⟨rfl, hi'⟩, ih _ (by omega), if_neg (by omega), hrun]
      · rw [if_neg fun h => hi' h.2]
        have hpow : (2 ^ 32) ^ WIDTH = (2 ^ 32) ^ (i + 1) := congrArg _ (by omega)
        have hout : (pn.set i 0).value + 1 * (2 ^ 32) ^ WIDTH = pn.value + (2 ^ 32) ^ i := by
          rw [one_mul, ← hrun, hpow]
        exact eq_mod_of_carry hout
    · have hkeep : (pn.word i + 1) % 2 ^ 32 = pn.word i + 1 := Nat.mod_eq_of_lt (by omega)
      rw [hkeep] at hset ⊢
      rw [if_neg fun h => absurd h.1 (Nat.succ_ne_zero _), ← Nat.mod_eq_of_lt (value_lt _)]
      congr 1
      rw [Nat.add_mul] at hset
      omega

theorem word_compl (u : BaseUint WIDTH) {i : ℕ} (hi : i < WIDTH) :
    u.compl.word i = 2 ^ 32 - 1 - u.word i := by
  have h : ∀ i < WIDTH, u.compl.word i = 2 ^ 32 - 1 - u.word i :=
    upTo_invariant
      (I := fun n (ret : BaseUint WIDTH) => ∀ i < n, ret.word i = 2 ^ 32 - 1 - u.word i)
      (fun i hi => absurd hi (Nat.not_lt_zero i)) fun n hn ret hret i hi => by
      rw [word_set]
      split
      · next heq =>
        rw [heq.1]
        exact Nat.mod_eq_of_lt (by omega)
      · next hne => exact hret i (by omega)
  exact h i hi

theorem value_compl (u : BaseUint WIDTH) : u.compl.value + u.value + 1 = (2 ^ 32) ^ WIDTH := by
  have h : ∀ n ≤ WIDTH, sum (2 ^ 32) u.compl.word n + sum (2 ^ 32) u.word n + 1 = (2 ^ 32) ^ n := by
    intro n
    induction n with
    | zero => exact fun _ => rfl
    | succ n ih =>
      intro hn
      have hword := u.word_lt n
      have hsum : (2 ^ 32 - 1 - u.word n) * (2 ^ 32) ^ n + u.word n * (2 ^ 32) ^ n + (2 ^ 32) ^ n =
          (2 ^ 32) ^ (n + 1) := by
        rw [← Nat.add_mul, ← Nat.succ_mul, pow_succ (2 ^ 32) n, mul_comm ((2 ^ 32) ^ n)]
        congr 1
        omega
      have := ih (by omega)
      rw [sum_succ, sum_succ, u.word_compl hn]
      omega
  exact h WIDTH le_rfl

theorem value_neg (u : BaseUint WIDTH) :
    u.neg.value = ((2 ^ 32) ^ WIDTH - u.value) % (2 ^ 32) ^ WIDTH := by
  have hcompl := u.value_compl
  rw [neg, inc, value_incLoop _ (Nat.add_zero _)]
  split
  · next h0 =>
    subst h0
    have := u.compl.value_lt
    rw [pow_zero] at this ⊢
    omega
  · rw [pow_zero]
    congr 1
    omega

theorem value_subAssign {a b : BaseUint WIDTH} (h : b.value ≤ a.value) :
    (a.subAssign b).value = a.value - b.value := by
  have ha := a.value_lt
  rw [subAssign, value_addAssign, value_neg, Nat.add_mod_mod]
  have hsum : a.value + ((2 ^ 32) ^ WIDTH - b.value) = a.value - b.value + (2 ^ 32) ^ WIDTH := by
    omega
  rw [hsum, Nat.add_mod_right, Nat.mod_eq_of_lt (by omega)]

/-! ## Sizes and order -/

/-- The inner loop of `bits`: the place of the highest bit of a word, and one. -/
def bitLoop (w : ℕ) : ℕ → ℕ
  | 0 => 1
  | bits + 1 => if w &&& (1 <<< (bits + 1)) ≠ 0 then bits + 2 else bitLoop w bits

/-- The outer loop of `bits`, down from a word. -/
def bitsLoop (pn : BaseUint WIDTH) : ℕ → ℕ
  | 0 => 0
  | pos + 1 => if pn.word pos ≠ 0 then 32 * pos + bitLoop (pn.word pos) 31 else bitsLoop pn pos

/-- `bits`. -/
def bits (pn : BaseUint WIDTH) : ℕ := bitsLoop pn WIDTH

/-- The loop of `CompareTo`, down from a word. -/
def compareLoop (a b : BaseUint WIDTH) : ℕ → ℤ
  | 0 => 0
  | i + 1 =>
      if a.word i < b.word i then -1
      else if a.word i > b.word i then 1
      else compareLoop a b i

/-- `CompareTo`. -/
def compareTo (a b : BaseUint WIDTH) : ℤ := compareLoop a b WIDTH

theorem bitLoop_spec {w : ℕ} (hw : w ≠ 0) : ∀ {n : ℕ}, w < 2 ^ (n + 1) →
    ∃ m, bitLoop w n = m + 1 ∧ 2 ^ m ≤ w ∧ w < 2 ^ (m + 1) := by
  intro n
  induction n with
  | zero => exact fun hlt => ⟨0, rfl, Nat.pos_of_ne_zero hw, hlt⟩
  | succ n ih =>
    intro hlt
    have hbit : w &&& 1 <<< (n + 1) = (w.testBit (n + 1)).toNat * 2 ^ (n + 1) := by
      rw [Nat.one_shiftLeft, Nat.and_two_pow]
    rw [bitLoop, hbit]
    by_cases hle : 2 ^ (n + 1) ≤ w
    · have htest : w.testBit (n + 1) = true := by
        rw [Nat.testBit_eq_decide_div_mod_eq, decide_eq_true_iff]
        have hdiv : w / 2 ^ (n + 1) = 1 := by
          refine Nat.div_eq_of_lt_le (by omega) ?_
          rw [pow_succ] at hlt
          omega
        rw [hdiv]
      rw [htest, if_pos (by simp)]
      exact ⟨n + 1, rfl, hle, hlt⟩
    · rw [Nat.testBit_lt_two_pow (Nat.lt_of_not_le hle), if_neg (by simp)]
      exact ih (Nat.lt_of_not_le hle)

/-- `bits` is the place of the highest bit, and one; of zero it is zero. -/
theorem bits_spec (u : BaseUint WIDTH) : (u.bits = 0 ∧ u.value = 0) ∨
    ∃ m, u.bits = m + 1 ∧ 2 ^ m ≤ u.value ∧ u.value < 2 ^ (m + 1) := by
  have h : ∀ n, (bitsLoop u n = 0 ∧ sum (2 ^ 32) u.word n = 0) ∨
      ∃ m, bitsLoop u n = m + 1 ∧ 2 ^ m ≤ sum (2 ^ 32) u.word n ∧
        sum (2 ^ 32) u.word n < 2 ^ (m + 1) := by
    intro n
    induction n with
    | zero => exact .inl ⟨rfl, rfl⟩
    | succ n ih =>
      have hlow : sum (2 ^ 32) u.word n < (2 ^ 32) ^ n := sum_lt fun i _ => u.word_lt i
      rw [bitsLoop, sum_succ]
      by_cases hword : u.word n = 0
      · rw [if_neg (by simpa using hword), hword, zero_mul, add_zero]
        exact ih
      · obtain ⟨m, hm, hge, hlt⟩ := bitLoop_spec hword (u.word_lt n)
        rw [if_pos hword, hm]
        refine .inr ⟨32 * n + m, by omega, ?_, ?_⟩
        · rw [pow_add, pow_mul, mul_comm]
          exact (Nat.mul_le_mul_right _ hge).trans (Nat.le_add_left _ _)
        · have hnext : (u.word n + 1) * (2 ^ 32) ^ n ≤ 2 ^ (m + 1) * (2 ^ 32) ^ n :=
            Nat.mul_le_mul_right _ hlt
          rw [Nat.add_assoc, pow_add, pow_mul, mul_comm ((2 ^ 32) ^ n)]
          rw [Nat.add_mul, one_mul] at hnext
          omega
  exact h WIDTH

/-- **The size.**  It is the least number of bits that the number fits in. -/
theorem bits_isLeast (u : BaseUint WIDTH) : IsLeast {k | u.value < 2 ^ k} u.bits := by
  rcases u.bits_spec with ⟨hbits, hval⟩ | ⟨m, hbits, hge, hlt⟩
  · rw [hbits]
    exact ⟨by simp [hval], fun k _ => Nat.zero_le k⟩
  · rw [hbits]
    refine ⟨hlt, fun k hk => ?_⟩
    exact (Nat.pow_lt_pow_iff_right (by decide)).1 (hge.trans_lt hk)

/-- **The order** is that of the numbers. -/
theorem compareTo_eq (a b : BaseUint WIDTH) : a.compareTo b =
    if a.value < b.value then -1 else if b.value < a.value then 1 else 0 := by
  have h : ∀ n, compareLoop a b n =
      if sum (2 ^ 32) a.word n < sum (2 ^ 32) b.word n then -1
      else if sum (2 ^ 32) b.word n < sum (2 ^ 32) a.word n then 1 else 0 := by
    intro n
    induction n with
    | zero => rfl
    | succ n ih =>
      have ha : sum (2 ^ 32) a.word n < (2 ^ 32) ^ n := sum_lt fun i _ => a.word_lt i
      have hb : sum (2 ^ 32) b.word n < (2 ^ 32) ^ n := sum_lt fun i _ => b.word_lt i
      -- a higher word outweighs all lower ones
      have hout : ∀ x y s t : ℕ, s < (2 ^ 32) ^ n → x < y →
          s + x * (2 ^ 32) ^ n < t + y * (2 ^ 32) ^ n := by
        intro x y s t hs hxy
        have := Nat.mul_le_mul_right ((2 ^ 32) ^ n) (Nat.succ_le_of_lt hxy)
        rw [Nat.succ_mul] at this
        omega
      rw [compareLoop, sum_succ, sum_succ]
      rcases lt_trichotomy (a.word n) (b.word n) with hlt | heq | hgt
      · rw [if_pos hlt, if_pos (hout _ _ _ _ ha hlt)]
      · rw [if_neg (by omega), if_neg (by omega), ih, heq]
        simp only [Nat.add_lt_add_iff_right]
      · have := hout _ _ (sum (2 ^ 32) b.word n) (sum (2 ^ 32) a.word n) hb hgt
        rw [if_neg (by omega), if_pos hgt, if_neg (by omega), if_pos this]
  exact h WIDTH

/-! ## Quotients -/

/-- The loop of `operator/=`, from `shift` down, with the quotient, `num` and `div`. -/
def divLoop : ℕ → BaseUint WIDTH → BaseUint WIDTH → BaseUint WIDTH → BaseUint WIDTH
  | 0, pn, _, _ => pn
  | shift + 1, pn, num, div =>
      if num.compareTo div ≥ 0 then
        divLoop shift (pn.orAt (shift / 32) (1 <<< (shift &&& 31))) (num.subAssign div)
          (div.shrAssign 1)
      else divLoop shift pn num (div.shrAssign 1)

/-- `operator/=(const base_uint&)`. -/
def divAssign (pn : BaseUint WIDTH) (b : Operand WIDTH) : Except String (BaseUint WIDTH) :=
  let div := b.get pn
  let num := pn
  let num_bits := num.bits
  let div_bits := div.bits
  if div_bits = 0 then .error "Division by zero"
  else if div_bits > num_bits then .ok (zero WIDTH)
  else
    let shift := num_bits - div_bits
    .ok (divLoop (shift + 1) (zero WIDTH) num (div.shlAssign shift))

theorem compareTo_nonneg (a b : BaseUint WIDTH) : a.compareTo b ≥ 0 ↔ b.value ≤ a.value := by
  rw [compareTo_eq]
  split
  · simp
    omega
  · split
    · simp
      omega
    · simp
      omega

/-- A bit that is set below all bits of a number is added. -/
theorem value_setBit {q : BaseUint WIDTH} {shift : ℕ} (hshift : shift < 32 * WIDTH)
    (hdvd : 2 ^ (shift + 1) ∣ q.value) :
    (q.orAt (shift / 32) (1 <<< (shift &&& 31))).value = q.value + 2 ^ shift := by
  have hand : shift &&& 31 = shift % 32 := Nat.and_two_pow_sub_one_eq_mod shift 5
  have hi : shift / 32 < WIDTH := by omega
  have hmod : shift % 32 < 32 := Nat.mod_lt _ (by decide)
  have hpow : 2 ^ shift = 2 ^ (shift % 32) * (2 ^ 32) ^ (shift / 32) := by
    rw [← pow_mul, ← pow_add]
    congr 1
    omega
  have hword : 2 ^ (shift % 32 + 1) ∣ q.word (shift / 32) := by
    rw [q.word_eq hi]
    refine (Nat.dvd_mod_iff (pow_dvd_pow 2 (by omega))).2 ?_
    rw [pow_succ, hpow, mul_right_comm, ← pow_succ] at hdvd
    exact Nat.dvd_div_of_mul_dvd (by rwa [mul_comm])
  have hbit : 2 ^ (shift % 32) < 2 ^ 32 := Nat.pow_lt_pow_right (by decide) hmod
  rw [hand, Nat.one_shiftLeft, q.value_orAt hi hbit
    (or_eq_add hword (Nat.pow_lt_pow_right (by decide) (Nat.lt_succ_self _))), hpow]

/-- **The long division.**  What is subtracted from the dividend is put into the quotient. -/
theorem value_divLoop {a b : ℕ} (hb : 0 < b) : ∀ {n : ℕ} {q num div : BaseUint WIDTH},
    n ≤ 32 * WIDTH → q.value * b + num.value = a → 2 ^ n ∣ q.value → num.value < b * 2 ^ n →
      (n ≠ 0 → div.value = b * 2 ^ (n - 1)) → (divLoop n q num div).value = a / b := by
  intro n
  induction n with
  | zero =>
    intro q num div _ hsum _ hnum _
    rw [pow_zero, mul_one] at hnum
    rw [divLoop, ← hsum, mul_comm, Nat.mul_add_div hb, Nat.div_eq_of_lt hnum, add_zero]
  | succ shift ih =>
    intro q num div hn hsum hdvd hnum hdiv
    have hdiv' : div.value = b * 2 ^ shift := hdiv (Nat.succ_ne_zero shift)
    have hback : shift ≠ 0 → (div.shrAssign 1).value = b * 2 ^ (shift - 1) := by
      intro h0
      obtain ⟨m, rfl⟩ := Nat.exists_eq_succ_of_ne_zero h0
      rw [value_shrAssign, hdiv', Nat.succ_sub_one, pow_succ, ← mul_assoc, pow_one,
        Nat.mul_div_cancel _ (by decide)]
    rw [divLoop]
    split
    · next hge =>
      have hle := (compareTo_nonneg num div).1 hge
      rw [hdiv'] at hle
      have hq := value_setBit (q := q) (by omega) hdvd
      have hsub := value_subAssign (a := num) (b := div) (by rwa [hdiv'])
      rw [pow_succ, ← mul_assoc, mul_two] at hnum
      refine ih (by omega) ?_ ?_ ?_ hback
      · rw [hq, hsub, hdiv', Nat.add_mul, mul_comm (2 ^ shift)]
        omega
      · rw [hq]
        exact ((pow_dvd_pow 2 (Nat.le_succ shift)).trans hdvd).add (dvd_refl _)
      · rw [hsub, hdiv']
        omega
    · next hlt =>
      have hlt' : num.value < div.value :=
        Nat.lt_of_not_le fun hle => hlt ((compareTo_nonneg num div).2 hle)
      rw [hdiv'] at hlt'
      exact ih (by omega) hsum ((pow_dvd_pow 2 (Nat.le_succ shift)).trans hdvd) hlt' hback

/-- **Quotients.**  A division throws exactly where the divisor is zero. -/
theorem value_divAssign (a : BaseUint WIDTH) (b : Operand WIDTH) :
    if (b.get a).value = 0 then a.divAssign b = .error "Division by zero"
    else ∃ q, a.divAssign b = .ok q ∧ q.value = a.value / (b.get a).value := by
  simp only [divAssign]
  generalize b.get a = d
  rcases d.bits_spec with ⟨hbits, hval⟩ | ⟨m, hbits, hge, hlt⟩
  · rw [if_pos hval, if_pos hbits]
  · have hpos : 0 < d.value := (Nat.two_pow_pos m).trans_le hge
    have hbound : a.value < 2 ^ a.bits := a.bits_isLeast.1
    rw [if_neg hpos.ne', if_neg (by omega)]
    split
    · next hmore =>
      refine ⟨_, rfl, ?_⟩
      have hsmall : a.value < d.value :=
        (hbound.trans_le (Nat.pow_le_pow_right (by decide) (by omega))).trans_le hge
      rw [value_zero, Nat.div_eq_of_lt hsmall]
    · next hle =>
      have hwidth : a.bits ≤ 32 * WIDTH := by
        refine a.bits_isLeast.2 ?_
        show a.value < 2 ^ (32 * WIDTH)
        rw [pow_mul]
        exact a.value_lt
      obtain ⟨shift, hshift⟩ : ∃ shift, a.bits = m + 1 + shift := ⟨a.bits - (m + 1), by omega⟩
      have hs : a.bits - d.bits = shift := by omega
      refine ⟨_, rfl, value_divLoop hpos (by omega) ?_ ?_ ?_ fun _ => ?_⟩
      · rw [value_zero, zero_mul, zero_add]
      · rw [value_zero]
        exact dvd_zero _
      · rw [hs]
        refine hbound.trans_le ?_
        rw [hshift, show m + 1 + shift = m + (shift + 1) by omega, pow_add]
        exact Nat.mul_le_mul_right _ hge
      · rw [hs, value_shlAssign, Nat.add_sub_cancel, Nat.mod_eq_of_lt]
        calc d.value * 2 ^ shift < 2 ^ (m + 1) * 2 ^ shift :=
              Nat.mul_lt_mul_of_pos_right hlt (Nat.two_pow_pos _)
          _ = 2 ^ a.bits := by rw [← pow_add, hshift]
          _ ≤ (2 ^ 32) ^ WIDTH := by
              rw [← pow_mul]
              exact Nat.pow_le_pow_right (by decide) hwidth

/-! ## 256 bits -/

/-- The number of an object of eight words, as the rest of the node is modelled with it. -/
def toUInt256 (u : BaseUint 8) : UInt256 := BitVec.ofNat 256 u.value

theorem toNat_toUInt256 (u : BaseUint 8) : u.toUInt256.toNat = u.value := by
  rw [toUInt256, BitVec.toNat_ofNat]
  exact Nat.mod_eq_of_lt u.value_lt

theorem width_eq : (2 ^ 32) ^ 8 = 2 ^ 256 := (pow_mul 2 32 8).symm

end BaseUint

/-- **The words refine the numbers.**  On eight words the operators, between two objects, are those
of 256-bit numbers. -/
theorem baseUint_refines (a b : BaseUint 8) (b32 : UInt32) (shift : ℕ) :
    (a.shlAssign shift).toUInt256 = a.toUInt256 <<< shift ∧
      (a.shrAssign shift).toUInt256 = a.toUInt256 >>> shift ∧
      (a.mulAssign32 b32).toUInt256 = a.toUInt256 * BitVec.ofNat 256 b32.toNat ∧
      (a.mulAssign (.other b)).toUInt256 = a.toUInt256 * b.toUInt256 ∧
      (a.addAssign b).toUInt256 = a.toUInt256 + b.toUInt256 ∧
      a.neg.toUInt256 = -a.toUInt256 ∧
      (a.subAssign b).toUInt256 = a.toUInt256 - b.toUInt256 ∧
      (b.toUInt256 ≠ 0 →
        ∃ q, a.divAssign (.other b) = .ok q ∧ q.toUInt256 = a.toUInt256 / b.toUInt256) ∧
      (a.compareTo b < 0 ↔ a.toUInt256 < b.toUInt256) := by
  have hneg : ∀ u : BaseUint 8, u.neg.toUInt256 = -u.toUInt256 := by
    intro u
    apply BitVec.eq_of_toNat_eq
    rw [BaseUint.toNat_toUInt256, BitVec.toNat_neg, BaseUint.toNat_toUInt256, BaseUint.value_neg,
      BaseUint.width_eq]
  have hadd : ∀ u v : BaseUint 8, (u.addAssign v).toUInt256 = u.toUInt256 + v.toUInt256 := by
    intro u v
    apply BitVec.eq_of_toNat_eq
    rw [BaseUint.toNat_toUInt256, BitVec.toNat_add, BaseUint.toNat_toUInt256,
      BaseUint.toNat_toUInt256, BaseUint.value_addAssign, BaseUint.width_eq]
  refine ⟨?_, ?_, ?_, ?_, hadd a b, hneg a, ?_, fun hb => ?_, ?_⟩
  · apply BitVec.eq_of_toNat_eq
    rw [BaseUint.toNat_toUInt256, BitVec.toNat_shiftLeft, BaseUint.toNat_toUInt256,
      BaseUint.value_shlAssign, BaseUint.width_eq, Nat.shiftLeft_eq]
  · apply BitVec.eq_of_toNat_eq
    rw [BaseUint.toNat_toUInt256, BitVec.toNat_ushiftRight, BaseUint.toNat_toUInt256,
      BaseUint.value_shrAssign, Nat.shiftRight_eq_div_pow]
  · apply BitVec.eq_of_toNat_eq
    have hb32 : b32.toNat < 2 ^ 256 :=
      b32.toNat_lt.trans (Nat.pow_lt_pow_right (by decide) (by decide))
    rw [BaseUint.toNat_toUInt256, BitVec.toNat_mul, BaseUint.toNat_toUInt256, BitVec.toNat_ofNat,
      Nat.mod_eq_of_lt hb32, BaseUint.value_mulAssign32, BaseUint.width_eq]
  · apply BitVec.eq_of_toNat_eq
    rw [BaseUint.toNat_toUInt256, BitVec.toNat_mul, BaseUint.toNat_toUInt256,
      BaseUint.toNat_toUInt256, BaseUint.value_mulAssign, BaseUint.width_eq]
  · rw [BaseUint.subAssign, hadd, hneg, ← BitVec.sub_eq_add_neg]
  · have hne : (BaseUint.Operand.get (.other b) a).value ≠ 0 := by
      intro h0
      apply hb
      apply BitVec.eq_of_toNat_eq
      rw [BaseUint.toNat_toUInt256]
      exact h0
    have hdiv := a.value_divAssign (.other b)
    rw [if_neg hne] at hdiv
    obtain ⟨q, hq, hval⟩ := hdiv
    refine ⟨q, hq, BitVec.eq_of_toNat_eq ?_⟩
    rw [BaseUint.toNat_toUInt256, BitVec.toNat_udiv, BaseUint.toNat_toUInt256,
      BaseUint.toNat_toUInt256]
    exact hval
  · rw [BitVec.lt_def, BaseUint.toNat_toUInt256, BaseUint.toNat_toUInt256, BaseUint.compareTo_eq]
    split
    · next hlt => simp [hlt]
    · next hge =>
      split
      · simp [hge]
      · simp [hge]

/-- **Arithmetic in words is exact**, modulo the width, for arrays of any width and all operands;
but a product with the object itself is zero, because the words are cleared before they are read. -/
theorem baseUint_exact_iff {WIDTH : ℕ} (a : BaseUint WIDTH) (b : BaseUint.Operand WIDTH)
    (b32 : UInt32) (shift : ℕ) :
    ((a.shlAssign shift).value = a.value * 2 ^ shift % 2 ^ (32 * WIDTH) ∧
      (a.shrAssign shift).value = a.value / 2 ^ shift ∧
      (a.mulAssign32 b32).value = a.value * b32.toNat % 2 ^ (32 * WIDTH) ∧
      (a.mulAssign b).value = a.value * (b.get a).value % 2 ^ (32 * WIDTH) ∧
      (if (b.get a).value = 0 then a.divAssign b = .error "Division by zero"
        else ∃ q, a.divAssign b = .ok q ∧ q.value = a.value / (b.get a).value) ∧
      IsLeast {k | a.value < 2 ^ k} a.bits ∧
      a.compareTo (b.get a) = if a.value < (b.get a).value then -1
        else if (b.get a).value < a.value then 1 else 0) ↔
      (b = .self → 2 ^ (32 * WIDTH) ∣ a.value * a.value) := by
  rw [pow_mul]
  constructor
  · rintro ⟨-, -, -, hmul, -⟩ rfl
    rw [a.value_mulAssign_self] at hmul
    exact Nat.dvd_of_mod_eq_zero hmul.symm
  · intro hself
    refine ⟨a.value_shlAssign shift, a.value_shrAssign shift, a.value_mulAssign32 b32, ?_,
      a.value_divAssign b, a.bits_isLeast, a.compareTo_eq _⟩
    cases b with
    | self =>
      rw [a.value_mulAssign_self]
      exact (Nat.mod_eq_zero_of_dvd (hself rfl)).symm
    | other b => exact a.value_mulAssign b

/-- One times itself. -/
theorem mulAssign_aliased : ¬∀ (a : BaseUint 8) (b : BaseUint.Operand 8),
    (a.mulAssign b).value = a.value * (b.get a).value % 2 ^ 256 := by
  intro h
  have hone := h ⟨#v[1, 0, 0, 0, 0, 0, 0, 0]⟩ .self
  rw [BaseUint.value_mulAssign_self] at hone
  have hval : (⟨#v[1, 0, 0, 0, 0, 0, 0, 0]⟩ : BaseUint 8).value = 1 := by decide
  rw [BaseUint.Operand.get, hval] at hone
  exact absurd hone (by decide)

end FairCoin
