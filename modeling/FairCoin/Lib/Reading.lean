import FairCoin.Lib.Canonical

/-!
# Reading a stream piece by piece

A byte format says what is read from a string; a reader says in which pieces.  The pieces matter
where a stream refuses some of them: beyond a limit, too long for its buffer, or past its end.

* `Reader` — reads of given lengths, each depending on the bytes of those before.
* `Reader.get` — what it makes of a string; `Implements` — the reader of a format.
* `Reader.attempt` — where it stops on a stream with a limit, and why.
* `attempt_of_get` — **what can be read from a string is read from the stream**, within the limits.
-/

namespace Reading

open Codec

/-- Reads one after the other, until there is a value or what was read is refused. -/
inductive Reader (α : Type) where
  | done (a : α)
  | fail
  | read (n : ℕ) (k : Bytes → Reader α)

/-- Where a reader stops: with a value, refused, or at the end of the stream. -/
inductive Outcome (α : Type) where
  | done (a : α) (pos : ℕ)
  | failed (pos : ℕ)
  | eof

namespace Reader

variable {α β : Type}

/-- One reader after the other. -/
def bind : Reader α → (α → Reader β) → Reader β
  | done a, f => f a
  | fail, _ => fail
  | read n k, f => read n fun bs => (k bs).bind f

/-- A reader through a function. -/
def map (f : α → β) (p : Reader α) : Reader β := p.bind fun a => done (f a)

/-- What is read from the front of a string. -/
def get : Reader α → Bytes → Option (α × Bytes)
  | done a, bs => some (a, bs)
  | fail, _ => none
  | read n k, bs => if n ≤ bs.length then (k (bs.take n)).get (bs.drop n) else none

/-- Where a reader stops that starts at `pos`, before the bytes `bs`: no read may go beyond `limit`
or be longer than `maxRead`. -/
def attempt (limit maxRead : ℕ) : Reader α → ℕ → Bytes → Outcome α
  | done a, pos, _ => .done a pos
  | fail, pos, _ => .failed pos
  | read n k, pos, bs =>
      if limit < n + pos ∨ maxRead < n then .failed pos
      else if n ≤ bs.length then (k (bs.take n)).attempt limit maxRead (pos + n) (bs.drop n)
      else .eof

/-! ## Strings -/

theorem get_bind (p : Reader α) (f : α → Reader β) (bs : Bytes) :
    (p.bind f).get bs = (p.get bs).bind fun x => (f x.1).get x.2 := by
  induction p generalizing bs with
  | done a => rfl
  | fail => rfl
  | read n k ih =>
    simp only [bind, get]
    split
    · exact ih _ _
    · rfl

theorem get_map (f : α → β) (p : Reader α) (bs : Bytes) :
    (p.map f).get bs = (p.get bs).map fun x => (f x.1, x.2) := by
  rw [map, get_bind]
  cases p.get bs <;> rfl

/-- What is left is an end of the string. -/
theorem suffix_of_get {p : Reader α} {bs rest : Bytes} {a : α} (h : p.get bs = some (a, rest)) :
    rest <:+ bs := by
  induction p generalizing bs with
  | done b =>
    obtain ⟨-, rfl⟩ := Prod.mk.inj (Option.some.inj h)
    exact List.suffix_rfl
  | fail => cases h
  | read n k ih =>
    rw [get] at h
    split at h
    · exact (ih _ h).trans (List.drop_suffix n bs)
    · cases h

/-! ## Streams -/

variable {limit maxRead : ℕ}

/-- **What can be read from a string is read from the stream**, where the limits allow it. -/
theorem attempt_of_get {p : Reader α} {bs rest : Bytes} {a : α} (h : p.get bs = some (a, rest))
    {pos : ℕ} (hlimit : pos + (bs.length - rest.length) ≤ limit)
    (hread : bs.length - rest.length ≤ maxRead) :
    p.attempt limit maxRead pos bs = .done a (pos + (bs.length - rest.length)) := by
  induction p generalizing bs pos with
  | done b =>
    obtain ⟨rfl, rfl⟩ := Prod.mk.inj (Option.some.inj h)
    rw [attempt, Nat.sub_self, Nat.add_zero]
  | fail => cases h
  | read n k ih =>
    rw [get] at h
    split at h
    · next hn =>
      have hle := (suffix_of_get h).length_le
      rw [List.length_drop] at hle
      have hlen : (bs.drop n).length = bs.length - n := List.length_drop
      rw [attempt, if_neg (by omega), if_pos hn, ih _ h (by omega) (by omega), hlen]
      congr 1
      omega
    · cases h

/-- A reader does not go back. -/
theorem le_of_attempt {p : Reader α} {pos t : ℕ} {bs : Bytes} {a : α}
    (h : p.attempt limit maxRead pos bs = .done a t) : pos ≤ t ∧ t ≤ pos + bs.length := by
  induction p generalizing bs pos with
  | done b =>
    obtain ⟨-, rfl⟩ := Outcome.done.inj h
    exact ⟨le_rfl, Nat.le_add_right _ _⟩
  | fail => cases h
  | read n k ih =>
    rw [attempt] at h
    split at h
    · cases h
    · split at h
      · next hn =>
        have hle := ih _ h
        rw [List.length_drop] at hle
        omega
      · cases h

/-- **One reader after the other** on a stream. -/
theorem attempt_bind (p : Reader α) (f : α → Reader β) (pos : ℕ) (bs : Bytes) :
    (p.bind f).attempt limit maxRead pos bs =
      match p.attempt limit maxRead pos bs with
      | .done a t => (f a).attempt limit maxRead t (bs.drop (t - pos))
      | .failed t => .failed t
      | .eof => .eof := by
  induction p generalizing bs pos with
  | done a =>
    show (f a).attempt limit maxRead pos bs = (f a).attempt limit maxRead pos (bs.drop (pos - pos))
    rw [Nat.sub_self, List.drop_zero]
  | fail => rfl
  | read n k ih =>
    rw [bind, attempt, attempt]
    split
    · rfl
    · split
      · rw [ih]
        cases hk : (k (bs.take n)).attempt limit maxRead (pos + n) (bs.drop n) with
        | done a t =>
          have hle := (le_of_attempt hk).1
          simp only [List.drop_drop]
          congr 2
          omega
        | failed t => rfl
        | eof => rfl
      · rfl

end Reader

/-! ## Readers of formats -/

/-- The reader takes from every string what the format does. -/
def Implements {α : Type} (p : Reader α) (c : Format α) : Prop := ∀ bs, p.get bs = c.get bs

/-- The number of some bytes, least significant first. -/
def fromLE : Bytes → ℕ
  | [] => 0
  | b :: bs => b.toNat + 256 * fromLE bs

theorem getLE_eq (k : ℕ) : ∀ bs : Bytes, getLE k bs =
    if k ≤ bs.length then some (fromLE (bs.take k), bs.drop k) else none := by
  induction k with
  | zero => exact fun bs => (if_pos (Nat.zero_le _)).symm
  | succ k ih =>
    intro bs
    cases bs with
    | nil => rfl
    | cons b bs =>
      rw [getLE, ih, List.length_cons]
      by_cases hk : k ≤ bs.length
      · rw [if_pos hk, if_pos (Nat.succ_le_succ hk)]
        rfl
      · rw [if_neg hk, if_neg fun h => hk (Nat.le_of_succ_le_succ h)]
        rfl

/-- An unsigned integer of `k` bytes. -/
def readLE (k : ℕ) : Reader ℕ := .read k fun bs => .done (fromLE bs)

theorem get_readLE (k : ℕ) (bs : Bytes) : (readLE k).get bs = getLE k bs := by
  rw [getLE_eq, readLE, Reader.get]
  rfl

theorem implements_uint (k : ℕ) : Implements (readLE k) (uint k) := get_readLE k

theorem implements_imap {α β : Type} {p : Reader β} {c : Format β} (h : Implements p c)
    (enc : α → β) (dec : β → α) : Implements (p.map dec) (imap c enc dec) := by
  intro bs
  rw [Reader.get_map, h]
  rfl

/-- One value after the other. -/
def readPair {α β : Type} (p : Reader α) (q : Reader β) : Reader (α × β) :=
  p.bind fun a => q.map fun b => (a, b)

theorem implements_pair {α β : Type} {p : Reader α} {q : Reader β} {c : Format α} {d : Format β}
    (hp : Implements p c) (hq : Implements q d) : Implements (readPair p q) (pair c d) := by
  intro bs
  rw [readPair, Reader.get_bind, hp]
  show _ = (c.get bs).bind fun x => (d.get x.2).map fun y => ((x.1, y.1), y.2)
  congr 1
  funext x
  rw [Reader.get_map, hq]

/-- A value, and after it another one when the first says so. -/
def readTrailing {α β : Type} (p : Reader α) (b : α → Bool) (q : Reader β) (absent : β) :
    Reader (α × β) :=
  p.bind fun a => if b a then q.map fun y => (a, y) else .done (a, absent)

theorem implements_trailing {α β : Type} {p : Reader α} {q : Reader β} {c : Format α}
    {d : Format β} (hp : Implements p c) (b : α → Bool) (hq : Implements q d) (absent : β) :
    Implements (readTrailing p b q absent) (trailing c b d absent) := by
  intro bs
  rw [readTrailing, Reader.get_bind, hp]
  show _ = (c.get bs).bind fun x =>
    if b x.1 then (d.get x.2).map fun y => ((x.1, y.1), y.2) else some ((x.1, absent), x.2)
  congr 1
  funext x
  split
  · rw [Reader.get_map, hq]
  · rfl

/-- A size is refused that could be encoded shorter, or is above the limit. -/
def checkSize (limit least n : ℕ) : Reader ℕ :=
  if least ≤ n then if n ≤ limit then .done n else .fail else .fail

/-- A size, by its first byte. -/
def readSizeFrom (limit : ℕ) (chSize : UInt8) : Reader ℕ :=
  if chSize < 253 then checkSize limit 0 chSize.toNat
  else if chSize = 253 then (readLE 2).bind (checkSize limit 253)
  else if chSize = 254 then (readLE 4).bind (checkSize limit 0x10000)
  else (readLE 8).bind (checkSize limit 0x100000000)

/-- The size of a container. -/
def readSize (limit : ℕ) : Reader ℕ := .read 1 fun bs => readSizeFrom limit (bs.headD 0)

theorem get_checkSize (limit least : ℕ) (r : Option (ℕ × Bytes)) :
    (r.bind fun x => (checkSize limit least x.1).get x.2) =
      (r.filter fun x => decide (least ≤ x.1)).filter fun x => decide (x.1 ≤ limit) := by
  cases r with
  | none => rfl
  | some x =>
    rw [Option.bind_some, filter_some_eq, checkSize]
    by_cases hleast : least ≤ x.1
    · rw [if_pos hleast, decide_eq_true hleast, if_pos rfl, filter_some_eq]
      by_cases hlimit : x.1 ≤ limit
      · rw [if_pos hlimit, decide_eq_true hlimit]
        rfl
      · rw [if_neg hlimit, decide_eq_false hlimit]
        rfl
    · rw [if_neg hleast, decide_eq_false hleast]
      rfl

theorem implements_compactSize (limit : ℕ) : Implements (readSize limit) (compactSize limit) := by
  intro bs
  show _ = getCompactSize limit bs
  cases bs with
  | nil => rfl
  | cons b bs =>
    show (readSizeFrom limit b).get bs = _
    rw [readSizeFrom, getCompactSize]
    by_cases h253 : b < 253
    · have h := get_checkSize limit 0 (some (b.toNat, bs))
      rw [Option.bind_some] at h
      rw [if_pos h253, if_pos h253, h]
      rfl
    · rw [if_neg h253, if_neg h253]
      split
      · rw [Reader.get_bind, get_readLE, get_checkSize]
      · split
        · rw [Reader.get_bind, get_readLE, get_checkSize]
        · rw [Reader.get_bind, get_readLE, get_checkSize]

/-- `n` values, one after the other. -/
def readMany {α : Type} (p : Reader α) : ℕ → Reader (List α)
  | 0 => .done []
  | n + 1 => p.bind fun a => (readMany p n).map fun as => a :: as

theorem get_readMany {α : Type} {p : Reader α} {c : Format α} (h : Implements p c) (n : ℕ) :
    ∀ bs, (readMany p n).get bs = getMany c n bs := by
  induction n with
  | zero => exact fun _ => rfl
  | succ n ih =>
    intro bs
    rw [readMany, Reader.get_bind, h, getMany]
    congr 1
    funext x
    rw [Reader.get_map, ih]

/-- A vector: its size, then its elements. -/
def readVec {α : Type} (limit : ℕ) (p : Reader α) : Reader (List α) :=
  (readSize limit).bind (readMany p)

theorem implements_vec {α : Type} (limit : ℕ) {p : Reader α} {c : Format α} (h : Implements p c) :
    Implements (readVec limit p) (vec limit c) := by
  intro bs
  rw [readVec, Reader.get_bind, implements_compactSize limit]
  show _ = (getCompactSize limit bs).bind fun x => getMany c x.1 x.2
  congr 1
  funext x
  rw [get_readMany h]

/-- `n` bytes, in reads of at most `chunk`. -/
def readChunks (chunk : ℕ) : ℕ → ℕ → Reader Bytes
  | 0, _ => .done []
  | fuel + 1, n =>
      if n = 0 then .done []
      else .read (min n chunk) fun bs =>
        (readChunks chunk fuel (n - min n chunk)).map fun rest => bs ++ rest

theorem getMany_byte (n : ℕ) : ∀ bs : Bytes, getMany byte n bs =
    if n ≤ bs.length then some (bs.take n, bs.drop n) else none := by
  induction n with
  | zero => exact fun bs => (if_pos (Nat.zero_le _)).symm
  | succ n ih =>
    intro bs
    cases bs with
    | nil => rfl
    | cons b bs =>
      show ((getMany byte n bs).map fun y => (b :: y.1, y.2)) = _
      rw [ih, List.length_cons]
      by_cases hn : n ≤ bs.length
      · rw [if_pos hn, if_pos (Nat.succ_le_succ hn)]
        rfl
      · rw [if_neg hn, if_neg fun h => hn (Nat.le_of_succ_le_succ h)]
        rfl

theorem get_readChunks {chunk : ℕ} (hchunk : 0 < chunk) (fuel : ℕ) : ∀ (n : ℕ) (bs : Bytes),
    n ≤ fuel → (readChunks chunk fuel n).get bs = getMany byte n bs := by
  induction fuel with
  | zero =>
    intro n bs hn
    obtain rfl := Nat.le_zero.1 hn
    rfl
  | succ fuel ih =>
    intro n bs hn
    rw [readChunks]
    split
    · next hzero =>
      subst hzero
      rfl
    · next hpos =>
      have hm : 0 < min n chunk := by omega
      have hmn : min n chunk ≤ n := Nat.min_le_left _ _
      generalize min n chunk = m at hm hmn ⊢
      rw [Reader.get, getMany_byte]
      by_cases hle : n ≤ bs.length
      · rw [if_pos (hmn.trans hle), Reader.get_map, ih _ _ (by omega), getMany_byte,
          if_pos (by rw [List.length_drop]; omega), if_pos hle, Option.map_some, List.drop_drop]
        have hsplit : bs.take m ++ (bs.drop m).take (n - m) = bs.take n := by
          rw [← List.take_add, Nat.add_sub_cancel' hmn]
        rw [hsplit, Nat.add_sub_cancel' hmn]
      · rw [if_neg hle]
        split
        · next hread =>
          rw [Reader.get_map, ih _ _ (by omega), getMany_byte,
            if_neg (by rw [List.length_drop]; omega)]
          rfl
        · rfl

/-- A vector of bytes: its size, then the bytes in reads of at most `chunk`. -/
def readBytes (limit chunk : ℕ) : Reader Bytes :=
  (readSize limit).bind fun n => readChunks chunk n n

theorem implements_bytes (limit : ℕ) {chunk : ℕ} (hchunk : 0 < chunk) :
    Implements (readBytes limit chunk) (vec limit byte) := by
  intro bs
  rw [readBytes, Reader.get_bind, implements_compactSize limit]
  show _ = (getCompactSize limit bs).bind fun x => getMany byte x.1 x.2
  congr 1
  funext x
  rw [get_readChunks hchunk _ _ _ le_rfl]

end Reading
