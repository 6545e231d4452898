import FairCoin.Lib.Slots
import FairCoin.Lib.VarInt

/-!
# Vectors with vacant slots, as bytes

A vector some of whose slots are vacant is written as one bit for each slot, eight to a byte, and
then the values of the occupied slots.  The reader of the bits is told how many of their bytes are
not zero and stops after the last one of them.

* `byteOf`, `bitsOf` — eight bits in a byte, and back.
* `readMask` — reading bytes until `k` of them were not zero; `readMask_append` is the round trip,
  and `count_lt_of_readMask` says that a smaller count misses a bit.
* `putSparse`, `getSparse` — the values of the occupied slots.
* `getSparse_putSparse`, `lossy_getSparse` — **the vector comes back exactly when every occupied
  slot holds a value that does**.
-/

namespace Codec

/-! ## Bits -/

/-- Bit `i` of the byte is `f i`. -/
def byteOf (f : ℕ → Bool) : UInt8 :=
  (List.range 8).foldl (fun ch i => if f i then ch ||| (1 <<< UInt8.ofNat i) else ch) 0

/-- The bits of a byte, the lowest first. -/
def bitsOf (ch : UInt8) : List Bool :=
  (List.range 8).map fun p => ch &&& (1 <<< UInt8.ofNat p) != 0

theorem bitsOf_byteOf (f : ℕ → Bool) : bitsOf (byteOf f) = (List.range 8).map f := by
  change (List.range 8).map (fun p => _) = [f 0, f 1, f 2, f 3, f 4, f 5, f 6, f 7]
  simp only [byteOf, List.range, List.range.loop, List.foldl]
  generalize f 0 = b0, f 1 = b1, f 2 = b2, f 3 = b3, f 4 = b4, f 5 = b5, f 6 = b6, f 7 = b7
  revert b0 b1 b2 b3 b4 b5 b6 b7
  decide

@[simp] theorem length_bitsOf (ch : UInt8) : (bitsOf ch).length = 8 := by simp [bitsOf]

/-- A byte with no bit set is zero, and only that one. -/
theorem count_bitsOf_eq_zero_iff (ch : UInt8) : (bitsOf ch).count true = 0 ↔ ch = 0 := by
  revert ch
  decide +kernel

theorem byteOf_eq_zero_iff (f : ℕ → Bool) :
    byteOf f = 0 ↔ (List.range 8).all (fun i => !f i) = true := by
  rw [← count_bitsOf_eq_zero_iff, bitsOf_byteOf, List.count_eq_zero, List.all_eq_true]
  simp

/-! ## Masks -/

/-- Read bytes until `k` of them were not zero, and collect their bits. -/
def readMask : ℕ → Bytes → Option (List Bool × Bytes)
  | 0, bs => some ([], bs)
  | _ + 1, [] => none
  | k + 1, ch :: bs =>
      (readMask (if ch != 0 then k else k + 1) bs).map fun x => (bitsOf ch ++ x.1, x.2)

/-- The number of bytes that are not zero. -/
def nonzero (bs : Bytes) : ℕ := bs.countP (· != 0)

theorem nonzero_cons (ch : UInt8) (bs : Bytes) :
    nonzero (ch :: bs) = nonzero bs + if ch != 0 then 1 else 0 := List.countP_cons

theorem nonzero_pos_iff {bs : Bytes} : 0 < nonzero bs ↔ ∃ ch ∈ bs, ch ≠ 0 := by
  simp [nonzero, List.countP_pos_iff]

/-- **The round trip** of a mask that does not end in a zero byte. -/
theorem readMask_append {bs : Bytes} (hlast : bs.getLast? ≠ some 0) (rest : Bytes) :
    readMask (nonzero bs) (bs ++ rest) = some (bs.flatMap bitsOf, rest) := by
  induction bs with
  | nil => simp [nonzero, readMask]
  | cons ch bs ih =>
    have hpos : 0 < nonzero (ch :: bs) := by
      rw [nonzero_pos_iff]
      refine ⟨_, List.getLast_mem (List.cons_ne_nil ch bs), fun h => hlast ?_⟩
      rw [List.getLast?_eq_some_getLast (List.cons_ne_nil _ _), h]
    obtain ⟨k, hk⟩ : ∃ k, nonzero (ch :: bs) = k + 1 := ⟨_, (Nat.succ_pred hpos.ne').symm⟩
    have hlast' : bs.getLast? ≠ some 0 := by
      cases bs with
      | nil => simp
      | cons b bs => simpa [List.getLast?_cons_cons] using hlast
    have hcount : (if ch != 0 then k else k + 1) = nonzero bs := by
      rw [nonzero_cons] at hk
      split
      · next h =>
        rw [if_pos h] at hk
        omega
      · next h =>
        rw [if_neg h] at hk
        omega
    rw [hk, List.cons_append, readMask, hcount, ih hlast', Option.map_some, List.flatMap_cons]

/-- A count that is too small misses a bit. -/
theorem count_lt_of_readMask {bs rest : Bytes} : ∀ {k : ℕ} {x : List Bool × Bytes},
    k < nonzero bs → readMask k (bs ++ rest) = some x →
    x.1.count true < (bs.flatMap bitsOf).count true := by
  induction bs with
  | nil => exact fun h => absurd h (Nat.not_lt_zero _)
  | cons ch bs ih =>
    intro k x hk hread
    rw [nonzero_cons] at hk
    rw [List.flatMap_cons, List.count_append]
    cases k with
    | zero =>
      cases hread
      obtain ⟨b, hb, hne⟩ := nonzero_pos_iff.1 (show 0 < nonzero (ch :: bs) by
        rw [nonzero_cons]
        exact hk)
      have htrue : true ∈ bitsOf b := by
        rw [← List.count_pos_iff, Nat.pos_iff_ne_zero, Ne, count_bitsOf_eq_zero_iff]
        exact hne
      have hpos : 0 < ((ch :: bs).flatMap bitsOf).count true :=
        List.count_pos_iff.2 (List.mem_flatMap.2 ⟨b, hb, htrue⟩)
      rw [List.flatMap_cons, List.count_append] at hpos
      rw [List.count_nil]
      exact hpos
    | succ k =>
      rw [List.cons_append, readMask] at hread
      obtain ⟨y, hy, rfl⟩ := Option.map_eq_some_iff.1 hread
      have hlt := ih (by split at hk <;> split <;> simp_all <;> omega) hy
      rw [List.count_append]
      omega

/-! ## Values -/

section

variable {α : Type} (c : Format α) (vacant : α → Bool) (null : α)

/-- The values of the occupied slots. -/
def putSparse (as : List α) : Bytes := as.flatMap fun a => if vacant a then [] else c.put a

/-- Read a value for each bit that is set. -/
def getSparse : List Bool → Bytes → Option (List α × Bytes)
  | [], bs => some ([], bs)
  | true :: avail, bs =>
      (c.get bs).bind fun x => (getSparse avail x.2).map fun y => (x.1 :: y.1, y.2)
  | false :: avail, bs => (getSparse avail bs).map fun y => (null :: y.1, y.2)

/-- One bit for each slot, and `k` more. -/
def availBits (as : List α) (k : ℕ) : List Bool :=
  as.map (fun a => !vacant a) ++ List.replicate k false

variable {c vacant null}

theorem putSparse_cons (a : α) (as : List α) :
    putSparse c vacant (a :: as) = (if vacant a then [] else c.put a) ++ putSparse c vacant as :=
  List.flatMap_cons

theorem availBits_cons (a : α) (as : List α) (k : ℕ) :
    availBits vacant (a :: as) k = (!vacant a) :: availBits vacant as k := rfl

theorem getSparse_replicate (k : ℕ) (bs : Bytes) :
    getSparse c null (List.replicate k false) bs = some (List.replicate k null, bs) := by
  induction k with
  | zero => rfl
  | succ k ih => rw [List.replicate_succ, getSparse, ih, Option.map_some, List.replicate_succ]

/-- **The round trip**: when the values of the occupied slots come back, the vector does, with
`null` in the vacant slots. -/
theorem getSparse_putSparse {as : List α} (k : ℕ) (rest : Bytes)
    (h : ∀ a ∈ as, vacant a = false → Faithful c a) :
    getSparse c null (availBits vacant as k) (putSparse c vacant as ++ rest) =
      some (as.map (fun a => if vacant a then null else a) ++ List.replicate k null, rest) := by
  induction as with
  | nil => exact getSparse_replicate k rest
  | cons a as ih =>
    have hrec := ih fun b hb => h b (List.mem_cons_of_mem _ hb)
    rw [availBits_cons, putSparse_cons, List.append_assoc, List.map_cons, List.cons_append]
    cases ha : vacant a with
    | true =>
      rw [if_pos rfl, if_pos rfl, List.nil_append, Bool.not_true, getSparse, hrec, Option.map_some]
    | false =>
      rw [if_neg Bool.false_ne_true, if_neg Bool.false_ne_true, Bool.not_false, getSparse,
        h a List.mem_cons_self ha, Option.bind_some, hrec, Option.map_some]

/-- **A value that is lost is missed**: some occupied slot comes back with another value. -/
theorem lossy_getSparse {as : List α} {k : ℕ} : ∀ {rest : Bytes} {x : List α × Bytes},
    (∀ a ∈ as, vacant a = false → Faithful c a ∨ Lossy c a) →
    (∃ a ∈ as, vacant a = false ∧ Lossy c a) →
    getSparse c null (availBits vacant as k) (putSparse c vacant as ++ rest) = some x →
    ∃ (i : ℕ) (a : α), as[i]? = some a ∧ vacant a = false ∧ x.1[i]? ≠ some a := by
  induction as with
  | nil => exact fun _ ⟨a, ha, _⟩ => absurd ha List.not_mem_nil
  | cons a as ih =>
    intro rest x h hlost hget
    rw [availBits_cons, putSparse_cons, List.append_assoc] at hget
    have hrest : ∀ b ∈ as, vacant b = false → Faithful c b ∨ Lossy c b :=
      fun b hb => h b (List.mem_cons_of_mem _ hb)
    have hshift : ∀ {y : List α × Bytes} {v : α}, x.1 = v :: y.1 →
        (∃ b ∈ as, vacant b = false ∧ Lossy c b) →
        getSparse c null (availBits vacant as k) (putSparse c vacant as ++ rest) = some y →
        ∃ (i : ℕ) (b : α), (a :: as)[i]? = some b ∧ vacant b = false ∧ x.1[i]? ≠ some b := by
      intro y v hx hl hy
      obtain ⟨i, b, hb, hv, hne⟩ := ih hrest hl hy
      refine ⟨i + 1, b, by simpa using hb, hv, ?_⟩
      rw [hx]
      simpa using hne
    have htail : ¬(vacant a = false ∧ Lossy c a) → ∃ b ∈ as, vacant b = false ∧ Lossy c b := by
      intro hne
      obtain ⟨b, hb, hbl⟩ := hlost
      rcases List.mem_cons.1 hb with rfl | hb
      · exact absurd hbl hne
      · exact ⟨b, hb, hbl⟩
    cases ha : vacant a with
    | true =>
      rw [ha, Bool.not_true, if_pos rfl, List.nil_append, getSparse] at hget
      obtain ⟨y, hy, rfl⟩ := Option.map_eq_some_iff.1 hget
      apply hshift rfl (htail _) hy
      rw [ha]
      exact fun h => Bool.noConfusion h.1
    | false =>
      rw [ha, Bool.not_false, if_neg Bool.false_ne_true, getSparse] at hget
      obtain ⟨z, hz, hget'⟩ := Option.bind_eq_some_iff.1 hget
      obtain ⟨y, hy, rfl⟩ := Option.map_eq_some_iff.1 hget'
      rcases h a List.mem_cons_self ha with hf | hl
      · rw [hf] at hz
        obtain rfl : (a, putSparse c vacant as ++ rest) = z := Option.some.inj hz
        by_cases hla : Lossy c a
        · exact absurd rfl (hla _ _ (hf []))
        · exact hshift rfl (htail fun h => hla h.2) hy
      · refine ⟨0, a, rfl, ha, ?_⟩
        simpa using hl _ _ hz

/-- No more slots are occupied than bits are set. -/
theorem occupied_le_count (hnull : vacant null = true) {avail : List Bool} :
    ∀ {bs : Bytes} {x : List α × Bytes}, getSparse c null avail bs = some x →
    x.1.countP (fun a => !vacant a) ≤ avail.count true := by
  induction avail with
  | nil =>
    intro bs x h
    cases h
    exact Nat.le_refl 0
  | cons b avail ih =>
    intro bs x h
    cases b with
    | true =>
      obtain ⟨z, -, h⟩ := Option.bind_eq_some_iff.1 h
      obtain ⟨y, hy, rfl⟩ := Option.map_eq_some_iff.1 h
      have := ih hy
      rw [List.countP_cons, List.count_cons_self]
      split <;> omega
    | false =>
      obtain ⟨y, hy, rfl⟩ := Option.map_eq_some_iff.1 h
      have := ih hy
      rw [List.countP_cons, hnull]
      simpa using this

end

end Codec
