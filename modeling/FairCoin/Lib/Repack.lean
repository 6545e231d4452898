import FairCoin.Lib.Radix

/-!
# Repacking digits

Digits of `a` bits are turned into digits of `b` bits: bits are collected, and a digit is put out
whenever there are enough of them.

* `Repacked` — what has come in is what has gone out and some bits that are held.
* `Repacked.take`, `Repacked.emit` — a digit comes in, a digit goes out.
* `flush` — the last digit, filled up with zeros.
* `unpack_pack` — **the round trip**: what was flushed gives the digits back, and only zeros are
  held.
* `pack_unpack` — what leaves only zeros, and fewer than a digit of them, is what a flush writes.
-/

namespace Radix

/-- Digits of one length and one value are the same. -/
theorem value_inj {b : ℕ} : ∀ {xs ys : List ℕ}, xs.length = ys.length → (∀ d ∈ xs, d < b) →
    (∀ d ∈ ys, d < b) → value b xs = value b ys → xs = ys := by
  intro xs
  induction xs with
  | nil =>
    intro ys hlen _ _ _
    exact (List.length_eq_zero_iff.1 hlen.symm).symm
  | cons x xs ih =>
    intro ys hlen hx hy hval
    cases ys with
    | nil => cases hlen
    | cons y ys =>
      have hlen' : xs.length = ys.length := Nat.succ.inj hlen
      have hxs := fun d hd => hx d (List.mem_cons_of_mem x hd)
      have hys := fun d hd => hy d (List.mem_cons_of_mem y hd)
      have hltx := value_lt hxs
      have hlty := value_lt hys
      rw [value_cons, value_cons, hlen'] at hval
      rw [hlen'] at hltx
      have hpos : 0 < b ^ ys.length := by omega
      have hhead : x = y := by
        have hdiv : ∀ z r, r < b ^ ys.length → (z * b ^ ys.length + r) / b ^ ys.length = z := by
          intro z r hr
          rw [Nat.mul_comm, Nat.mul_add_div hpos, Nat.div_eq_of_lt hr, Nat.add_zero]
        rw [← hdiv x _ hltx, hval, hdiv y _ hlty]
      subst hhead
      rw [ih hlen' hxs hys (by omega)]

/-- What has come in, as digits of `a` bits, is what has gone out, as digits of `b` bits, and the
bits that are held. -/
structure Repacked (a b : ℕ) (input output : List ℕ) (held left : ℕ) : Prop where
  value : value (2 ^ b) output * 2 ^ held + left = value (2 ^ a) input
  bound : left < 2 ^ held
  length : output.length * b + held = input.length * a
  digits : ∀ d ∈ output, d < 2 ^ b

variable {a b : ℕ} {input output : List ℕ} {held left : ℕ}

theorem Repacked.nil : Repacked a b [] [] 0 0 := ⟨rfl, by simp, by simp, by simp⟩

/-- A digit comes in. -/
theorem Repacked.take (h : Repacked a b input output held left) {d : ℕ} (hd : d < 2 ^ a) :
    Repacked a b (input ++ [d]) output (held + a) (left * 2 ^ a + d) := by
  refine ⟨?_, ?_, ?_, h.digits⟩
  · rw [value_concat, ← h.value, pow_add]
    ring
  · have := h.bound
    calc left * 2 ^ a + d < left * 2 ^ a + 2 ^ a := by omega
      _ = (left + 1) * 2 ^ a := (Nat.succ_mul _ _).symm
      _ ≤ 2 ^ held * 2 ^ a := Nat.mul_le_mul_right _ this
      _ = 2 ^ (held + a) := (pow_add _ _ _).symm
  · rw [List.length_append, List.length_singleton, Nat.add_mul, one_mul, ← h.length]
    omega

/-- A digit goes out. -/
theorem Repacked.emit (h : Repacked a b input output held left) (hb : b ≤ held) :
    Repacked a b input (output ++ [left / 2 ^ (held - b)]) (held - b) (left % 2 ^ (held - b)) := by
  have hpow : 2 ^ held = 2 ^ b * 2 ^ (held - b) := by rw [← pow_add, Nat.add_sub_of_le hb]
  have hpos : 0 < 2 ^ (held - b) := Nat.two_pow_pos _
  refine ⟨?_, Nat.mod_lt _ hpos, ?_, fun d hd => ?_⟩
  · rw [value_concat, ← h.value, Nat.add_mul, hpow, ← mul_assoc, Nat.add_assoc,
      Nat.mul_comm (left / _), Nat.div_add_mod]
  · have := h.length
    rw [List.length_append, List.length_singleton, Nat.add_mul, one_mul]
    omega
  · rcases List.mem_append.1 hd with hd | hd
    · exact h.digits d hd
    · rw [List.mem_singleton.1 hd, Nat.div_lt_iff_lt_mul hpos, ← hpow]
      exact h.bound

/-- The last digit, filled up with zeros. -/
def flush (b : ℕ) (output : List ℕ) (held left : ℕ) : List ℕ :=
  if held = 0 then output else output ++ [left * 2 ^ (b - held)]

/-- A flush is the whole input and some zeros. -/
theorem Repacked.flush (h : Repacked a b input output held left) (hb : held < b) :
    ∃ pad < b, Radix.value (2 ^ b) (Radix.flush b output held left) =
        Radix.value (2 ^ a) input * 2 ^ pad ∧
      (Radix.flush b output held left).length * b = input.length * a + pad ∧
      ∀ d ∈ Radix.flush b output held left, d < 2 ^ b := by
  have hval := h.value
  have hlen := h.length
  unfold Radix.flush
  split
  · next h0 =>
    have hleft : left = 0 := by
      have := h.bound
      rw [h0, pow_zero] at this
      omega
    rw [h0, hleft, pow_zero, mul_one, add_zero] at hval
    exact ⟨0, by omega, by rw [hval, pow_zero, mul_one], by omega, h.digits⟩
  · next h0 =>
    have hpow : 2 ^ b = 2 ^ held * 2 ^ (b - held) := by
      rw [← pow_add, Nat.add_sub_of_le hb.le]
    refine ⟨b - held, by omega, ?_, ?_, fun d hd => ?_⟩
    · rw [value_concat, ← hval, hpow]
      ring
    · rw [List.length_append, List.length_singleton, Nat.add_mul, one_mul]
      omega
    · rcases List.mem_append.1 hd with hd | hd
      · exact h.digits d hd
      · rw [List.mem_singleton.1 hd, hpow]
        exact Nat.mul_lt_mul_of_pos_right h.bound (Nat.two_pow_pos _)

/-- **The round trip.**  Digits that were packed into smaller ones come back, and only zeros are
held. -/
theorem unpack_pack (hba : b ≤ a) (hin : ∀ d ∈ input, d < 2 ^ a)
    (h : Repacked a b input output held left) (hb : held < b) {output' : List ℕ} {held' left' : ℕ}
    (h' : Repacked b a (flush b output held left) output' held' left') (ha : held' < a) :
    output' = input ∧ left' = 0 ∧ held' < b := by
  obtain ⟨pad, hpad, hval, hlen, -⟩ := h.flush hb
  have hval' := h'.value
  have hlen' := h'.length
  rw [hlen] at hlen'
  rw [hval] at hval'
  -- the two remainders are those of one number of bits
  have hmod : held' % a = pad % a := by
    have h₁ := Nat.mul_add_mod_self_right output'.length a held'
    have h₂ := Nat.mul_add_mod_self_right input.length a pad
    rw [← h₁, hlen', h₂]
  rw [Nat.mod_eq_of_lt ha, Nat.mod_eq_of_lt (hpad.trans_le hba)] at hmod
  subst hmod
  have hcount : output'.length = input.length :=
    Nat.eq_of_mul_eq_mul_right (by omega : 0 < a) (by omega)
  have hleft : left' = 0 := by
    have h₁ := Nat.mul_add_mod_self_right (value (2 ^ a) output') (2 ^ held') left'
    rw [hval', Nat.mul_mod_left, Nat.mod_eq_of_lt h'.bound] at h₁
    exact h₁.symm
  rw [hleft, add_zero] at hval'
  exact ⟨value_inj hcount h'.digits hin
    (Nat.eq_of_mul_eq_mul_right (Nat.two_pow_pos held') hval'), hleft, hpad⟩

/-- **The way back.**  Small digits that leave only zeros, and fewer than one digit has, are those
that a flush of what they give writes. -/
theorem pack_unpack (hin : ∀ d ∈ input, d < 2 ^ b) (h : Repacked b a input output held 0)
    (hheld : held < b) {output' : List ℕ} {held' left' : ℕ}
    (h' : Repacked a b output output' held' left') (hb : held' < b) :
    flush b output' held' left' = input := by
  obtain ⟨pad, hpad, hval, hlen, hdigits⟩ := h'.flush hb
  have hval₀ := h.value
  have hlen₀ := h.length
  have hmod : held % b = pad % b := by
    have h₁ : (output.length * a + held) % b = 0 := by rw [hlen₀, Nat.mul_mod_left]
    have h₂ : (output.length * a + pad) % b = 0 := by rw [← hlen, Nat.mul_mod_left]
    have h₃ := Nat.ModEq.add_left_cancel' (output.length * a) (h₁.trans h₂.symm)
    exact h₃
  rw [Nat.mod_eq_of_lt hheld, Nat.mod_eq_of_lt hpad] at hmod
  subst hmod
  rw [hlen₀] at hlen
  rw [add_zero] at hval₀
  exact value_inj (Nat.eq_of_mul_eq_mul_right (by omega : 0 < b) hlen) hdigits hin
    (hval.trans hval₀)

end Radix
