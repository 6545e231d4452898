import FairCoin.Lib.Codec

/-!
# Canonical byte formats

The other half of a round trip: whatever a reader takes, the writer writes again.  A format with
both halves has one byte form for each value.

* `Canonical c P` — **what was read is what would be written**, and the value has `P`.
* `canonical_uint`, `canonical_imap`, `canonical_pair`, `canonical_compactSize`, `canonical_vec` —
  the formats of `Lib.Codec` are canonical when their parts are.
* `int64` — 64-bit signed integers.
* `getChunks` — a vector read in chunks, which is the vector read at once.
* `trailing` — a last field that is there only when the fields before it say so.
-/

namespace Codec

/-- The bytes a reader takes are the bytes of the value it returns, which has `P`. -/
def Canonical {α : Type} (c : Format α) (P : α → Prop) : Prop :=
  ∀ bs a rest, c.get bs = some (a, rest) → bs = c.put a ++ rest ∧ P a

/-! ## Integers -/

theorem length_putLE (k n : ℕ) : (putLE k n).length = k := by
  induction k generalizing n with
  | zero => rfl
  | succ k ih => rw [putLE, List.length_cons, ih]

theorem putLE_of_getLE {k : ℕ} : ∀ {bs rest : Bytes} {n : ℕ}, getLE k bs = some (n, rest) →
    bs = putLE k n ++ rest ∧ n < 256 ^ k := by
  induction k with
  | zero =>
    intro bs rest n h
    cases h
    exact ⟨rfl, Nat.one_pos⟩
  | succ k ih =>
    intro bs rest n h
    cases bs with
    | nil => exact absurd h (by simp [getLE])
    | cons b bs =>
      rw [getLE] at h
      obtain ⟨⟨m, rest'⟩, hget, hm⟩ := Option.map_eq_some_iff.1 h
      cases hm
      obtain ⟨hbs, hlt⟩ := ih hget
      have hb : b.toNat < 256 := b.toNat_lt
      have hmod : (b.toNat + 256 * m) % 256 = b.toNat := by omega
      have hdiv : (b.toNat + 256 * m) / 256 = m := by omega
      refine ⟨?_, ?_⟩
      · rw [putLE, hmod, hdiv, UInt8.ofNat_toNat, List.cons_append, ← hbs]
      · rw [pow_succ]
        omega

theorem canonical_uint (k : ℕ) : Canonical (uint k) (· < 256 ^ k) :=
  fun _ _ _ h => putLE_of_getLE h

theorem canonical_imap {α β : Type} {c : Format β} {P : β → Prop} (hc : Canonical c P)
    {enc : α → β} {dec : β → α} {Q : α → Prop} (hQ : ∀ b, P b → Q (dec b) ∧ enc (dec b) = b) :
    Canonical (imap c enc dec) Q := by
  intro bs a rest h
  obtain ⟨⟨b, rest'⟩, hget, hb⟩ := Option.map_eq_some_iff.1 h
  cases hb
  obtain ⟨hbs, hP⟩ := hc bs b rest' hget
  obtain ⟨hdec, henc⟩ := hQ b hP
  refine ⟨?_, hdec⟩
  show bs = c.put (enc (dec b)) ++ rest'
  rw [henc]
  exact hbs

theorem canonical_int32 : Canonical int32 fun x => -2 ^ 31 ≤ x ∧ x < 2 ^ 31 := by
  refine canonical_imap (canonical_uint 4) fun n hn => ?_
  simp only [Int.bmod_def]
  refine ⟨?_, ?_⟩ <;> omega

/-- A 64-bit signed integer. -/
def int64 : Format ℤ := imap (uint 8) (fun x => (x % 2 ^ 64).toNat) fun n => (n : ℤ).bmod (2 ^ 64)

theorem lawful_int64 : Lawful int64 fun x => -2 ^ 63 ≤ x ∧ x < 2 ^ 63 := by
  refine lawful_imap (lawful_uint 8) fun x hx => ⟨?_, ?_⟩
  · have := Int.emod_lt_of_pos x (by norm_num : (0 : ℤ) < 2 ^ 64)
    omega
  · have hnonneg := Int.emod_nonneg x (by norm_num : (2 ^ 64 : ℤ) ≠ 0)
    rw [Int.toNat_of_nonneg hnonneg, Int.bmod_def]
    omega

theorem canonical_int64 : Canonical int64 fun x => -2 ^ 63 ≤ x ∧ x < 2 ^ 63 := by
  refine canonical_imap (canonical_uint 8) fun n hn => ?_
  simp only [Int.bmod_def]
  refine ⟨?_, ?_⟩ <;> omega

theorem canonical_bitVec (k : ℕ) : Canonical (bitVec k) fun _ => True := by
  refine canonical_imap (canonical_uint k) fun n hn => ⟨trivial, ?_⟩
  rw [BitVec.toNat_ofNat, Nat.mod_eq_of_lt]
  rw [pow_mul]
  exact hn

theorem canonical_byte : Canonical byte fun _ => True := by
  intro bs a rest h
  cases bs with
  | nil => exact absurd h (by simp [byte])
  | cons b bs =>
    cases h
    exact ⟨rfl, trivial⟩

/-! ## Pairs, sizes and vectors -/

theorem canonical_pair {α β : Type} {c : Format α} {d : Format β} {P : α → Prop} {Q : β → Prop}
    (hc : Canonical c P) (hd : Canonical d Q) : Canonical (pair c d) fun x => P x.1 ∧ Q x.2 := by
  intro bs x rest h
  obtain ⟨⟨a, mid⟩, hget, h⟩ := Option.bind_eq_some_iff.1 h
  obtain ⟨⟨b, rest'⟩, hget', h⟩ := Option.map_eq_some_iff.1 h
  cases h
  obtain ⟨hbs, ha⟩ := hc bs a mid hget
  obtain ⟨hmid, hb⟩ := hd mid b rest' hget'
  refine ⟨?_, ha, hb⟩
  show bs = c.put a ++ d.put b ++ rest'
  rw [List.append_assoc, ← hmid]
  exact hbs

theorem length_putCompactSize (n : ℕ) : (putCompactSize n).length =
    if n < 253 then 1 else if n ≤ 0xffff then 3 else if n ≤ 0xffffffff then 5 else 9 := by
  rw [putCompactSize]
  split
  · rw [length_putLE]
  · split
    · rw [List.length_cons, length_putLE]
    · split
      · rw [List.length_cons, length_putLE]
      · rw [List.length_cons, length_putLE]

theorem canonical_compactSize (limit : ℕ) : Canonical (compactSize limit) (· ≤ limit) := by
  intro bs n rest h
  change getCompactSize limit bs = some (n, rest) at h
  cases bs with
  | nil => exact absurd h (by simp [getCompactSize])
  | cons b bs =>
    rw [getCompactSize] at h
    obtain ⟨hread, hlimit⟩ := Option.filter_eq_some_iff.1 h
    refine ⟨?_, of_decide_eq_true hlimit⟩
    show b :: bs = putCompactSize n ++ rest
    rw [putCompactSize]
    split at hread
    · next hb =>
      cases hread
      have hlt : b.toNat < 253 := hb
      have hmod : b.toNat % 256 = b.toNat := by omega
      rw [if_pos hlt, putLE, putLE, hmod, UInt8.ofNat_toNat, List.singleton_append]
    · split at hread
      · next hb =>
        obtain ⟨hget, hcanon⟩ := Option.filter_eq_some_iff.1 hread
        obtain ⟨hbs, hn⟩ := putLE_of_getLE hget
        have hge : 253 ≤ n := of_decide_eq_true hcanon
        rw [if_neg (by omega), if_pos (by omega), List.cons_append, ← hbs, hb]
      · split at hread
        · next hb =>
          obtain ⟨hget, hcanon⟩ := Option.filter_eq_some_iff.1 hread
          obtain ⟨hbs, hn⟩ := putLE_of_getLE hget
          have hge : 0x10000 ≤ n := of_decide_eq_true hcanon
          rw [if_neg (by omega), if_neg (by omega), if_pos (by omega), List.cons_append, ← hbs, hb]
        · next h253 h254 h255 =>
          obtain ⟨hget, hcanon⟩ := Option.filter_eq_some_iff.1 hread
          obtain ⟨hbs, hn⟩ := putLE_of_getLE hget
          have hge : 0x100000000 ≤ n := of_decide_eq_true hcanon
          have hb : b = 255 := by
            have hlt : ¬b.toNat < 253 := h253
            have hne253 : b.toNat ≠ 253 := fun h => h254 (UInt8.toNat_inj.1 h)
            have hne254 : b.toNat ≠ 254 := fun h => h255 (UInt8.toNat_inj.1 h)
            have hle := b.toNat_lt
            exact UInt8.toNat_inj.1 (show b.toNat = 255 by omega)
          rw [if_neg (by omega), if_neg (by omega), if_neg (by omega), List.cons_append, ← hbs, hb]

theorem getMany_canonical {α : Type} {c : Format α} {P : α → Prop} (hc : Canonical c P) {n : ℕ} :
    ∀ {bs rest : Bytes} {as : List α}, getMany c n bs = some (as, rest) →
      bs = as.flatMap c.put ++ rest ∧ as.length = n ∧ ∀ a ∈ as, P a := by
  induction n with
  | zero =>
    intro bs rest as h
    cases h
    exact ⟨rfl, rfl, by simp⟩
  | succ n ih =>
    intro bs rest as h
    rw [getMany] at h
    obtain ⟨⟨a, mid⟩, hget, h⟩ := Option.bind_eq_some_iff.1 h
    obtain ⟨⟨as', rest'⟩, hget', h⟩ := Option.map_eq_some_iff.1 h
    cases h
    obtain ⟨hbs, ha⟩ := hc bs a mid hget
    obtain ⟨hmid, hlen, has⟩ := ih hget'
    refine ⟨?_, by rw [List.length_cons, hlen], ?_⟩
    · rw [List.flatMap_cons, List.append_assoc, ← hmid]
      exact hbs
    · intro x hx
      rcases List.mem_cons.1 hx with rfl | hx
      · exact ha
      · exact has x hx

theorem canonical_vec {α : Type} (limit : ℕ) {c : Format α} {P : α → Prop} (hc : Canonical c P) :
    Canonical (vec limit c) fun as => as.length ≤ limit ∧ ∀ a ∈ as, P a := by
  intro bs as rest h
  obtain ⟨⟨n, mid⟩, hsize, hmany⟩ := Option.bind_eq_some_iff.1 h
  obtain ⟨hbs, hn⟩ := canonical_compactSize limit bs n mid hsize
  obtain ⟨hmid, hlen, has⟩ := getMany_canonical hc hmany
  refine ⟨?_, by omega, has⟩
  show bs = putCompactSize as.length ++ as.flatMap c.put ++ rest
  rw [List.append_assoc, ← hmid, hlen]
  exact hbs

/-! ## Vectors in chunks -/

/-- Read `n` values, at most `chunk` of them in a round. -/
def getChunks {α : Type} (chunk : ℕ) (c : Format α) :
    ℕ → ℕ → Bytes → Option (List α × Bytes)
  | 0, _, bs => some ([], bs)
  | _ + 1, 0, bs => some ([], bs)
  | rounds + 1, n + 1, bs =>
      (getMany c (min chunk (n + 1)) bs).bind fun x =>
        (getChunks chunk c rounds (n + 1 - min chunk (n + 1)) x.2).map fun y => (x.1 ++ y.1, y.2)

theorem getMany_add {α : Type} (c : Format α) (m n : ℕ) : ∀ bs, getMany c (m + n) bs =
    (getMany c m bs).bind fun x => (getMany c n x.2).map fun y => (x.1 ++ y.1, y.2) := by
  induction m with
  | zero =>
    intro bs
    simp [getMany]
  | succ m ih =>
    intro bs
    rw [Nat.succ_add, getMany, getMany, Option.bind_assoc]
    congr 1
    funext x
    rw [ih]
    cases getMany c m x.2 with
    | none => rfl
    | some y =>
      simp only [Option.bind_some, Option.map_some, Option.map_map]
      rfl

/-- **Chunks do not matter.** -/
theorem getChunks_eq_getMany {α : Type} {chunk : ℕ} (hchunk : 0 < chunk) (c : Format α)
    (rounds : ℕ) : ∀ n bs, n ≤ rounds → getChunks chunk c rounds n bs = getMany c n bs := by
  induction rounds with
  | zero =>
    intro n bs hn
    obtain rfl : n = 0 := by omega
    rfl
  | succ rounds ih =>
    intro n bs hn
    cases n with
    | zero => rfl
    | succ n =>
      have hsplit : min chunk (n + 1) + (n + 1 - min chunk (n + 1)) = n + 1 := by omega
      have hadd := getMany_add c (min chunk (n + 1)) (n + 1 - min chunk (n + 1)) bs
      rw [hsplit] at hadd
      rw [getChunks, hadd]
      congr 1
      funext x
      rw [ih _ _ (by omega)]

/-- A vector that is read in chunks. -/
def chunkedVec {α : Type} (chunk limit : ℕ) (c : Format α) : Format (List α) where
  put as := putCompactSize as.length ++ as.flatMap c.put
  get bs := (getCompactSize limit bs).bind fun x => getChunks chunk c x.1 x.1 x.2
  fits as := decide (as.length ≤ limit) && as.all c.fits

theorem chunkedVec_eq_vec {α : Type} {chunk : ℕ} (hchunk : 0 < chunk) (limit : ℕ)
    (c : Format α) : chunkedVec chunk limit c = vec limit c := by
  rw [chunkedVec, vec]
  congr 1
  funext bs
  congr 1
  funext x
  exact getChunks_eq_getMany hchunk c x.1 x.1 x.2 (le_refl _)

/-! ## A trailing field -/

/-- A value, and after it another one when the first says so. -/
def trailing {α β : Type} (c : Format α) (p : α → Bool) (d : Format β) (absent : β) :
    Format (α × β) where
  put x := c.put x.1 ++ if p x.1 then d.put x.2 else []
  get bs := (c.get bs).bind fun x =>
    if p x.1 then (d.get x.2).map fun y => ((x.1, y.1), y.2) else some ((x.1, absent), x.2)
  fits x := c.fits x.1 && (!p x.1 || d.fits x.2)

theorem lawful_trailing {α β : Type} {c : Format α} {d : Format β} {P : α → Prop} {Q : β → Prop}
    (hc : Lawful c P) (p : α → Bool) (hd : Lawful d Q) (absent : β) :
    Lawful (trailing c p d absent)
      fun x => P x.1 ∧ Q x.2 ∧ (p x.1 = false → x.2 = absent) := by
  rintro ⟨a, b⟩ rest ⟨ha, hb, habsent⟩
  change ((c.get (c.put a ++ (if p a then d.put b else []) ++ rest)).bind fun x =>
    if p x.1 then (d.get x.2).map fun y => ((x.1, y.1), y.2) else some ((x.1, absent), x.2)) =
      if c.fits a && (!p a || d.fits b) then _ else _
  rw [List.append_assoc, hc a _ ha]
  cases c.fits a with
  | false => rfl
  | true =>
    cases hp : p a with
    | false =>
      obtain rfl : b = absent := habsent hp
      simp [hp]
    | true =>
      simp only [if_true, Option.bind_some, hp, Bool.true_and, Bool.not_true, Bool.false_or]
      rw [hd b rest hb]
      cases d.fits b <;> rfl

theorem canonical_trailing {α β : Type} {c : Format α} {d : Format β} {P : α → Prop}
    {Q : β → Prop} (hc : Canonical c P) (p : α → Bool) (hd : Canonical d Q) (absent : β) :
    Canonical (trailing c p d absent) fun x => P x.1 ∧ (p x.1 = true → Q x.2) ∧
      (p x.1 = false → x.2 = absent) := by
  intro bs x rest h
  obtain ⟨⟨a, mid⟩, hget, h⟩ := Option.bind_eq_some_iff.1 h
  obtain ⟨hbs, ha⟩ := hc bs a mid hget
  cases hp : p a with
  | false =>
    simp only [hp, Bool.false_eq_true, if_false, Option.some.injEq] at h
    cases h
    refine ⟨?_, ha, fun h => absurd (hp.symm.trans h) (by simp), fun _ => rfl⟩
    show bs = c.put a ++ (if p a then d.put absent else []) ++ rest
    simpa [hp] using hbs
  | true =>
    simp only [hp, if_true] at h
    obtain ⟨⟨b, rest'⟩, hget', h⟩ := Option.map_eq_some_iff.1 h
    cases h
    obtain ⟨hmid, hb⟩ := hd mid b rest' hget'
    refine ⟨?_, ha, fun _ => hb, fun h => absurd (hp.symm.trans h) (by simp)⟩
    show bs = c.put a ++ (if p a then d.put b else []) ++ rest'
    rw [hp, if_pos rfl, List.append_assoc, ← hmid]
    exact hbs

end Codec
