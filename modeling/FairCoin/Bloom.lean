import FairCoin.Solver
import FairCoin.Lib.BitTable
import FairCoin.Lib.Run

/-!
# Bloom filters

`CBloomFilter` of `src/bloom.cpp`, with `MurmurHash3` of `src/hash.cpp`, and the messages
`filterload` and `filteradd` of `src/main.cpp`.

* `insert`, `contains` — the flags `isFull` and `isEmpty` go before the bits.
* `isRelevantAndUpdate` — the transactions a peer is told of; outputs that match are added.
* `CBloomFilter.Sound` — **what a loaded filter keeps**: it is full, or it has bytes and is only
  empty while no key was inserted.
* `bloom_filter_never_misses` — the runs of a loaded filter.
-/

namespace FairCoin

open Codec

/-! ## The hash -/

/-- `ROTL32`. -/
def rotl32 (x : UInt32) (r : UInt32) : UInt32 := (x <<< r) ||| (x >>> (32 - r))

/-- The mixing of a word in `MurmurHash3`. -/
def murmurWord (k1 : UInt32) : UInt32 := rotl32 (k1 * 0xcc9e2d51) 15 * 0x1b873593

/-- The loop over the blocks of four bytes, and the bytes left after it. -/
def murmurBlocks : UInt32 → List UInt8 → UInt32 × List UInt8
  | h1, a :: b :: c :: d :: rest =>
      let k1 := a.toUInt32 ||| (b.toUInt32 <<< 8) ||| (c.toUInt32 <<< 16) ||| (d.toUInt32 <<< 24)
      murmurBlocks (rotl32 (h1 ^^^ murmurWord k1) 13 * 5 + 0xe6546b64) rest
  | h1, tail => (h1, tail)

/-- The bytes after the last block. -/
def murmurTail (h1 : UInt32) (tail : List UInt8) : UInt32 :=
  match tail with
  | [] => h1
  | _ =>
      let k1 := ((tail.getD 2 0).toUInt32 <<< 16) ^^^ ((tail.getD 1 0).toUInt32 <<< 8)
        ^^^ (tail.getD 0 0).toUInt32
      h1 ^^^ murmurWord k1

/-- `MurmurHash3`, with the words of a little-endian machine. -/
def murmurHash3 (nHashSeed : UInt32) (vDataToHash : List UInt8) : UInt32 :=
  let r := murmurBlocks nHashSeed vDataToHash
  let h1 := murmurTail r.1 r.2
  let h1 := h1 ^^^ UInt32.ofNat vDataToHash.length
  let h1 := (h1 ^^^ (h1 >>> 16)) * 0x85ebca6b
  let h1 := (h1 ^^^ (h1 >>> 13)) * 0xc2b2ae35
  h1 ^^^ (h1 >>> 16)

example : murmurHash3 0xFBA4C795 [0xff - 0xff] = 0xea3f0b17 ∧
    murmurHash3 0 [0x00, 0x11, 0x22, 0x33, 0x44, 0x55, 0x66, 0x77, 0x88] = 0xb4698def := by
  decide

/-! ## The filter -/

/-- `MAX_BLOOM_FILTER_SIZE`. -/
def maxBloomFilterSize : ℕ := 36000

/-- `MAX_HASH_FUNCS`. -/
def maxHashFuncs : UInt32 := 50

/-- `CBloomFilter`; the defaults are those of its constructor. -/
structure CBloomFilter where
  vData : List UInt8 := []
  isFull : Bool := true
  isEmpty : Bool := false
  nHashFuncs : UInt32 := 0
  nTweak : UInt32 := 0
  nFlags : UInt8 := 0
  deriving DecidableEq, Repr

/-- What the language leaves undefined in the methods of the filter. -/
inductive BloomFault
  | moduloZero
  | outOfRange
  deriving DecidableEq, Repr

/-- The bytes an outpoint is streamed to. -/
def COutPoint.stream (outpoint : COutPoint) : List UInt8 := outPointFormat.put outpoint

/-- The bytes of a `uint256`. -/
def uint256Bytes (hash : UInt256) : List UInt8 := (bitVec 32).put hash

namespace CBloomFilter

section Methods

-- `MurmurHash3`, or any other function in its place
variable (murmur : UInt32 → List UInt8 → UInt32)

/-- `Hash`. -/
def hash (f : CBloomFilter) (nHashNum : UInt32) (vDataToHash : List UInt8) :
    Except BloomFault ℕ :=
  if f.vData.length * 8 = 0 then .error .moduloZero
  else .ok ((murmur (nHashNum * 0xFBA4C795 + f.nTweak) vDataToHash).toNat
    % (f.vData.length * 8))

/-- The loop of `insert`, from hash function `i`; `n` are left. -/
def insertLoop (vKey : List UInt8) : ℕ → UInt32 → CBloomFilter → Except BloomFault CBloomFilter
  | 0, _, f => .ok f
  | n + 1, i, f =>
      match f.hash murmur i vKey with
      | .error e => .error e
      | .ok nIndex =>
          if nIndex / 8 < f.vData.length then
            insertLoop vKey n (i + 1) { f with vData := BitTable.mark f.vData nIndex }
          else .error .outOfRange

/-- `insert`. -/
def insert (f : CBloomFilter) (vKey : List UInt8) : Except BloomFault CBloomFilter :=
  if f.isFull then .ok f
  else
    match insertLoop murmur vKey f.nHashFuncs.toNat 0 f with
    | .error e => .error e
    | .ok f => .ok { f with isEmpty := false }

/-- The loop of `contains`, from hash function `i`; `n` are left. -/
def containsLoop (f : CBloomFilter) (vKey : List UInt8) : ℕ → UInt32 → Except BloomFault Bool
  | 0, _ => .ok true
  | n + 1, i =>
      match f.hash murmur i vKey with
      | .error e => .error e
      | .ok nIndex =>
          if nIndex / 8 < f.vData.length then
            if BitTable.test f.vData nIndex = false then .ok false
            else containsLoop f vKey n (i + 1)
          else .error .outOfRange

/-- `contains`. -/
def contains (f : CBloomFilter) (vKey : List UInt8) : Except BloomFault Bool :=
  if f.isFull then .ok true
  else if f.isEmpty then .ok false
  else f.containsLoop murmur vKey f.nHashFuncs.toNat 0

/-- `IsWithinSizeConstraints`. -/
def isWithinSizeConstraints (f : CBloomFilter) : Bool :=
  decide (f.vData.length ≤ maxBloomFilterSize ∧ f.nHashFuncs ≤ maxHashFuncs)

/-- `UpdateEmptyFull`. -/
def updateEmptyFull (f : CBloomFilter) : CBloomFilter :=
  { f with isFull := f.vData.all (· == 0xff), isEmpty := f.vData.all (· == 0) }

/-! ## Transactions -/

/-- The loop over the data elements of a script; a failure of `GetOp` ends it. -/
def containsElement (f : CBloomFilter) : ℕ → CScript → Except BloomFault Bool
  | 0, _ => .ok false
  | n + 1, pc =>
      match pc.getOp with
      | none => .ok false
      | some (_, data, pc) =>
          if data ≠ [] then
            match f.contains murmur data with
            | .error e => .error e
            | .ok true => .ok true
            | .ok false => containsElement f n pc
          else containsElement f n pc

/-- The rule of `nFlags`: whether an output with this script is added when it matches. -/
def updates (f : CBloomFilter) (scriptPubKey : CScript) : Bool :=
  if f.nFlags &&& 3 = 1 then true
  else if f.nFlags &&& 3 = 2 then
    match solver scriptPubKey with
    | some (type, _) => type == .pubkey || type == .multisig
    | none => false
  else false

/-- The body of the loop over the outputs: the filter, and whether the output matched. -/
def outputStep (f : CBloomFilter) (outpoint : COutPoint) (txout : CTxOut) :
    Except BloomFault (CBloomFilter × Bool) :=
  match f.containsElement murmur txout.scriptPubKey.length txout.scriptPubKey with
  | .error e => .error e
  | .ok false => .ok (f, false)
  | .ok true =>
      if f.updates txout.scriptPubKey then
        match f.insert murmur outpoint.stream with
        | .error e => .error e
        | .ok f => .ok (f, true)
      else .ok (f, true)

/-- The loop over the outputs, from output `i`. -/
def outputLoop (hash : UInt256) : ℕ → List CTxOut → CBloomFilter × Bool →
    Except BloomFault (CBloomFilter × Bool)
  | _, [], r => .ok r
  | i, txout :: vout, r =>
      match r.1.outputStep murmur ⟨hash, i⟩ txout with
      | .error e => .error e
      | .ok r' => outputLoop hash (i + 1) vout (r'.1, r.2 || r'.2)

/-- The loop over the inputs. -/
def inputLoop (f : CBloomFilter) : List CTxIn → Except BloomFault Bool
  | [] => .ok false
  | txin :: vin =>
      match f.contains murmur txin.prevout.stream with
      | .error e => .error e
      | .ok true => .ok true
      | .ok false =>
          match f.containsElement murmur txin.scriptSig.length txin.scriptSig with
          | .error e => .error e
          | .ok true => .ok true
          | .ok false => inputLoop f vin

/-- `IsRelevantAndUpdate`. -/
def isRelevantAndUpdate (f : CBloomFilter) (tx : CTransaction) :
    Except BloomFault (CBloomFilter × Bool) :=
  if f.isFull then .ok (f, true)
  else if f.isEmpty then .ok (f, false)
  else
    match f.contains murmur (uint256Bytes tx.hash) with
    | .error e => .error e
    | .ok fFound =>
        match outputLoop murmur tx.hash 0 tx.vout (f, fFound) with
        | .error e => .error e
        | .ok (f, true) => .ok (f, true)
        | .ok (f, false) =>
            match f.inputLoop murmur tx.vin with
            | .error e => .error e
            | .ok found => .ok (f, found)

end Methods

end CBloomFilter

/-! ## Messages -/

/-- `filterload`: the filter a peer sends, when it is within the limits. -/
def filterLoad (vData : List UInt8) (nHashFuncs nTweak : UInt32) (nFlags : UInt8) :
    Option CBloomFilter :=
  let filter : CBloomFilter := { vData, nHashFuncs, nTweak, nFlags }
  if filter.isWithinSizeConstraints then some filter.updateEmptyFull else none

/-- What happens to a loaded filter: a `filteradd`, a transaction asked about, an insertion. -/
inductive BloomEvent
  | filterAdd (vData : List UInt8)
  | relevant (tx : CTransaction)
  | insert (vKey : List UInt8)
  deriving DecidableEq, Repr

/-- A step of a loaded filter. -/
def bloomStep (murmur : UInt32 → List UInt8 → UInt32) (f : CBloomFilter) : BloomEvent → Except BloomFault CBloomFilter
  | .filterAdd vData => if 520 < vData.length then .ok f else f.insert murmur vData
  | .relevant tx =>
      match f.isRelevantAndUpdate murmur tx with
      | .error e => .error e
      | .ok r => .ok r.1
  | .insert vKey => f.insert murmur vKey


/-! ## The bits of a key -/

section Keys

variable (murmur : UInt32 → List UInt8 → UInt32)

namespace CBloomFilter

/-- The bit of a key under a hash function. -/
def position (f : CBloomFilter) (vKey : List UInt8) (i : UInt32) : ℕ :=
  (murmur (i * 0xFBA4C795 + f.nTweak) vKey).toNat % (f.vData.length * 8)

/-- The bits of a key, from hash function `i`. -/
def positions (f : CBloomFilter) (vKey : List UInt8) : ℕ → UInt32 → List ℕ
  | 0, _ => []
  | n + 1, i => f.position murmur vKey i :: positions f vKey n (i + 1)

variable {murmur}

/-- The filter with other bytes. -/
def withData (f : CBloomFilter) (vData : List UInt8) : CBloomFilter := { f with vData }

@[simp] theorem withData_vData (f : CBloomFilter) (v : List UInt8) : (f.withData v).vData = v := rfl

@[simp] theorem withData_nTweak (f : CBloomFilter) (v : List UInt8) :
    (f.withData v).nTweak = f.nTweak := rfl

theorem position_congr {f f' : CBloomFilter} (hlen : f'.vData.length = f.vData.length)
    (htweak : f'.nTweak = f.nTweak) (vKey : List UInt8) (i : UInt32) :
    f'.position murmur vKey i = f.position murmur vKey i := by
  rw [position, position, hlen, htweak]

theorem positions_congr {f f' : CBloomFilter} (hlen : f'.vData.length = f.vData.length)
    (htweak : f'.nTweak = f.nTweak) (vKey : List UInt8) (n : ℕ) (i : UInt32) :
    f'.positions murmur vKey n i = f.positions murmur vKey n i := by
  induction n generalizing i with
  | zero => rfl
  | succ n ih => rw [positions, positions, ih, position_congr hlen htweak]

theorem hash_eq {f : CBloomFilter} (hf : 0 < f.vData.length) (i : UInt32) (vKey : List UInt8) :
    f.hash murmur i vKey = .ok (f.position murmur vKey i) := by
  rw [hash, if_neg (by omega), position]

theorem position_lt {f : CBloomFilter} (hf : 0 < f.vData.length) (vKey : List UInt8) (i : UInt32) :
    f.position murmur vKey i / 8 < f.vData.length := by
  unfold position
  generalize (murmur (i * 0xFBA4C795 + f.nTweak) vKey).toNat = x
  have := Nat.mod_lt x (show 0 < f.vData.length * 8 by omega)
  omega

theorem positions_lt {f : CBloomFilter} (hf : 0 < f.vData.length) (vKey : List UInt8) (n : ℕ)
    (i : UInt32) : ∀ p ∈ f.positions murmur vKey n i, p / 8 < f.vData.length := by
  induction n generalizing i with
  | zero => exact fun p hp => absurd hp (by simp [positions])
  | succ n ih =>
    intro p hp
    rw [positions] at hp
    rcases List.mem_cons.1 hp with rfl | hp
    · exact position_lt hf vKey i
    · exact ih (i + 1) p hp

/-- A round of `insert`, with the bit a variable: the hash is not to be run. -/
theorem insertLoop_succ {f : CBloomFilter} {vKey : List UInt8} {i : UInt32} {p : ℕ}
    (hp : p / 8 < f.vData.length) (hh : f.hash murmur i vKey = .ok p) (n : ℕ) :
    insertLoop murmur vKey (n + 1) i f =
      insertLoop murmur vKey n (i + 1) (f.withData (BitTable.mark f.vData p)) := by
  rw [insertLoop, hh]
  exact if_pos hp

/-- A round of `contains`. -/
theorem containsLoop_succ {f : CBloomFilter} {vKey : List UInt8} {i : UInt32} {p : ℕ}
    (hp : p / 8 < f.vData.length) (hh : f.hash murmur i vKey = .ok p) (n : ℕ) :
    f.containsLoop murmur vKey (n + 1) i =
      if BitTable.test f.vData p = false then .ok false else f.containsLoop murmur vKey n (i + 1) := by
  rw [containsLoop, hh]
  exact if_pos hp

/-- The loop of `insert` sets the bits of the key. -/
theorem insertLoop_eq (vKey : List UInt8) (n : ℕ) : ∀ (i : UInt32) (f : CBloomFilter),
    0 < f.vData.length → insertLoop murmur vKey n i f =
      .ok (f.withData (BitTable.markAll f.vData (f.positions murmur vKey n i))) := by
  induction n with
  | zero => exact fun _ _ _ => rfl
  | succ n ih =>
    intro i f hf
    have hlen : (f.withData (BitTable.mark f.vData (f.position murmur vKey i))).vData.length
        = f.vData.length := BitTable.length_mark _ _
    rw [insertLoop_succ (position_lt hf vKey i) (hash_eq hf i vKey), ih _ _ (by rwa [hlen]),
      positions_congr hlen (withData_nTweak _ _), positions, BitTable.markAll_cons]
    rfl

/-- The loop of `contains` tests them. -/
theorem containsLoop_eq {f : CBloomFilter} (hf : 0 < f.vData.length) (vKey : List UInt8) (n : ℕ) :
    ∀ i : UInt32, f.containsLoop murmur vKey n i =
      .ok ((f.positions murmur vKey n i).all (BitTable.test f.vData)) := by
  induction n with
  | zero => exact fun _ => rfl
  | succ n ih =>
    intro i
    rw [containsLoop_succ (position_lt hf vKey i) (hash_eq hf i vKey), positions, List.all_cons, ih]
    cases BitTable.test f.vData (f.position murmur vKey i) <;> rfl

/-! ## Filters that grow -/

/-- The filter can be asked: it is full, or it has bytes. -/
def Sound (f : CBloomFilter) : Prop := f.isFull = true ∨ 0 < f.vData.length

/-- A later state of the filter. -/
structure Grows (f f' : CBloomFilter) : Prop where
  isFull : f'.isFull = f.isFull
  isEmpty : f'.isEmpty = true → f.isEmpty = true
  length : f'.vData.length = f.vData.length
  nHashFuncs : f'.nHashFuncs = f.nHashFuncs
  nTweak : f'.nTweak = f.nTweak
  nFlags : f'.nFlags = f.nFlags
  bits : ∀ i, BitTable.test f.vData i = true → BitTable.test f'.vData i = true

theorem Grows.refl (f : CBloomFilter) : f.Grows f := ⟨rfl, id, rfl, rfl, rfl, rfl, fun _ => id⟩

theorem Grows.trans {f g h : CBloomFilter} (h₁ : f.Grows g) (h₂ : g.Grows h) : f.Grows h where
  isFull := h₂.isFull.trans h₁.isFull
  isEmpty := h₁.isEmpty ∘ h₂.isEmpty
  length := h₂.length.trans h₁.length
  nHashFuncs := h₂.nHashFuncs.trans h₁.nHashFuncs
  nTweak := h₂.nTweak.trans h₁.nTweak
  nFlags := h₂.nFlags.trans h₁.nFlags
  bits i := h₂.bits i ∘ h₁.bits i

theorem Grows.sound {f f' : CBloomFilter} (h : f.Grows f') (hf : f.Sound) : f'.Sound := by
  rcases hf with hfull | hlen
  · exact .inl (h.isFull.trans hfull)
  · exact .inr (h.length ▸ hlen)

variable (murmur) in
/-- `contains` is defined. -/
theorem Sound.contains {f : CBloomFilter} (hf : f.Sound) (vKey : List UInt8) :
    ∃ b, f.contains murmur vKey = .ok b := by
  unfold CBloomFilter.contains
  split
  · exact ⟨_, rfl⟩
  · next hfull =>
    split
    · exact ⟨_, rfl⟩
    · exact ⟨_, containsLoop_eq (hf.resolve_left hfull) vKey _ _⟩

/-- A key that is found is found later. -/
theorem Grows.contains {f f' : CBloomFilter} (h : f.Grows f') (hf : f.Sound) {vKey : List UInt8}
    (hk : f.contains murmur vKey = .ok true) : f'.contains murmur vKey = .ok true := by
  unfold CBloomFilter.contains at hk ⊢
  rw [h.isFull]
  split at hk
  · next hfull => rw [if_pos hfull]
  · next hfull =>
    have hlen := hf.resolve_left hfull
    split at hk
    · cases hk
    · next hempty =>
      rw [if_neg hfull, if_neg fun he => hempty (h.isEmpty he),
        containsLoop_eq (h.length ▸ hlen), positions_congr h.length h.nTweak, h.nHashFuncs]
      rw [containsLoop_eq hlen] at hk
      have hall := List.all_eq_true.1 (Except.ok.inj hk)
      exact congrArg Except.ok (List.all_eq_true.2 fun p hp => h.bits p (hall p hp))

variable (murmur) in
/-- **An insertion.**  It is defined, loses no bit, and the key is found after it. -/
theorem Sound.insert {f : CBloomFilter} (hf : f.Sound) (vKey : List UInt8) :
    ∃ f', f.insert murmur vKey = .ok f' ∧ f.Grows f' ∧ f'.contains murmur vKey = .ok true := by
  unfold CBloomFilter.insert
  split
  · next hfull => exact ⟨f, rfl, Grows.refl f, if_pos hfull⟩
  · next hfull =>
    have hlen := hf.resolve_left hfull
    have hpos := @positions_lt murmur f hlen vKey f.nHashFuncs.toNat 0
    rw [insertLoop_eq vKey _ 0 f hlen]
    generalize hf' : { f.withData (BitTable.markAll f.vData
      (f.positions murmur vKey f.nHashFuncs.toNat 0)) with isEmpty := false } = f'
    have hbits : ∀ i, BitTable.test f'.vData i = (BitTable.test f.vData i ||
        decide (i ∈ f.positions murmur vKey f.nHashFuncs.toNat 0)) := by
      subst hf'
      exact BitTable.test_markAll hpos
    have hgrows : f.Grows f' := by
      subst hf'
      exact { isFull := rfl
              isEmpty := fun h => nomatch h
              length := BitTable.length_markAll _ _
              nHashFuncs := rfl
              nTweak := rfl
              nFlags := rfl
              bits := fun i hi => by rw [hbits, hi, Bool.true_or] }
    have hempty : ¬ f'.isEmpty = true := by
      subst hf'
      exact Bool.false_ne_true
    refine ⟨f', congrArg Except.ok hf', hgrows, ?_⟩
    unfold CBloomFilter.contains
    rw [hgrows.isFull, if_neg hfull, if_neg hempty, containsLoop_eq (hgrows.length ▸ hlen),
      positions_congr hgrows.length hgrows.nTweak, hgrows.nHashFuncs]
    refine congrArg Except.ok (List.all_eq_true.2 fun p hp => ?_)
    rw [hbits, decide_eq_true hp, Bool.or_true]

/-! ## Scripts and transactions -/

variable (murmur) in
/-- The filter contains a data element of the script, one that `GetOp` comes to. -/
def Matches (f : CBloomFilter) (s : CScript) : Prop :=
  ∃ ops rest, s.Reads ops rest ∧ ∃ op ∈ ops, op.2 ≠ [] ∧ f.contains murmur op.2 = .ok true

theorem not_matches_of_getOp {f : CBloomFilter} {s : CScript} (h : s.getOp = none) :
    ¬ f.Matches murmur s := by
  rintro ⟨ops, rest, hreads, op, hop, -⟩
  cases hreads with
  | refl => exact absurd hop (by simp)
  | cons hget => rw [h] at hget; cases hget

theorem matches_cons {f : CBloomFilter} {s rest : CScript} {opcode : UInt8} {data : Valtype}
    (h : s.getOp = some (opcode, data, rest)) :
    f.Matches murmur s ↔ (data ≠ [] ∧ f.contains murmur data = .ok true) ∨ f.Matches murmur rest := by
  constructor
  · rintro ⟨ops, r, hreads, op, hop, hmatch⟩
    cases hreads with
    | refl => exact absurd hop (by simp)
    | cons hget hmid =>
      rw [h] at hget
      cases hget
      rcases List.mem_cons.1 hop with rfl | hop
      · exact .inl hmatch
      · exact .inr ⟨_, r, hmid, op, hop, hmatch⟩
  · rintro (hmatch | ⟨ops, r, hreads, op, hop, hmatch⟩)
    · exact ⟨_, rest, .cons h (.refl rest), _, List.mem_cons_self, hmatch⟩
    · exact ⟨_, r, .cons h hreads, op, List.mem_cons_of_mem _ hop, hmatch⟩

variable (murmur) in
/-- The loop over a script decides whether it matches. -/
theorem containsElement_spec {f : CBloomFilter} (hf : f.Sound) (n : ℕ) : ∀ s : CScript,
    s.length ≤ n → ∃ b, f.containsElement murmur n s = .ok b ∧ (b = true ↔ f.Matches murmur s) := by
  induction n with
  | zero =>
    intro s hs
    obtain rfl := List.eq_nil_of_length_eq_zero (Nat.le_zero.1 hs)
    exact ⟨false, rfl, by simpa using not_matches_of_getOp rfl⟩
  | succ n ih =>
    intro s hs
    rw [containsElement]
    cases hget : s.getOp with
    | none => exact ⟨false, rfl, by simpa using not_matches_of_getOp hget⟩
    | some x =>
      obtain ⟨opcode, data, rest⟩ := x
      have hlt := getOp_length_lt hget
      obtain ⟨b, hb, hiff⟩ := ih rest (by omega)
      rw [matches_cons hget]
      dsimp only
      split
      · next hdata =>
        obtain ⟨c, hc⟩ := hf.contains murmur data
        rw [hc]
        cases c with
        | true => exact ⟨true, rfl, by simp [hdata]⟩
        | false => exact ⟨b, hb, by simp [hiff]⟩
      · next hdata => exact ⟨b, hb, by simp [hdata, hiff]⟩

variable (murmur) in
/-- What an output does to the filter. -/
theorem outputStep_spec {f : CBloomFilter} (hf : f.Sound) (o : COutPoint) (txout : CTxOut) :
    ∃ r, f.outputStep murmur o txout = .ok r ∧ f.Grows r.1 ∧
      (f.Matches murmur txout.scriptPubKey → f.updates txout.scriptPubKey = true →
        r.1.contains murmur o.stream = .ok true) := by
  obtain ⟨b, hb, hiff⟩ := containsElement_spec murmur hf _ txout.scriptPubKey le_rfl
  unfold outputStep
  rw [hb]
  cases b with
  | false => exact ⟨_, rfl, Grows.refl f, fun h => absurd (hiff.2 h) (by decide)⟩
  | true =>
    dsimp only
    split
    · obtain ⟨f', hins, hgrows, hcontains⟩ := hf.insert murmur o.stream
      rw [hins]
      exact ⟨_, rfl, hgrows, fun _ _ => hcontains⟩
    · next hup => exact ⟨_, rfl, Grows.refl f, fun _ h => absurd h hup⟩

variable (murmur) in
theorem outputLoop_ok (hash : UInt256) (vout : List CTxOut) : ∀ (i : ℕ) (r : CBloomFilter × Bool),
    r.1.Sound → ∃ r', outputLoop murmur hash i vout r = .ok r' ∧ r.1.Grows r'.1 := by
  induction vout with
  | nil => exact fun i r _ => ⟨r, rfl, Grows.refl _⟩
  | cons txout vout ih =>
    intro i r hr
    obtain ⟨r₁, h₁, hgrows, -⟩ := outputStep_spec murmur hr ⟨hash, i⟩ txout
    obtain ⟨r', h', hgrows'⟩ := ih (i + 1) (r₁.1, r.2 || r₁.2) (hgrows.sound hr)
    refine ⟨r', ?_, hgrows.trans hgrows'⟩
    rw [outputLoop, h₁]
    exact h'

theorem outputLoop_append (hash : UInt256) (vout vout' : List CTxOut) :
    ∀ (i : ℕ) (r r₁ : CBloomFilter × Bool), outputLoop murmur hash i vout r = .ok r₁ →
      outputLoop murmur hash i (vout ++ vout') r = outputLoop murmur hash (i + vout.length) vout' r₁ := by
  induction vout with
  | nil =>
    intro i r r₁ h
    cases h
    rfl
  | cons txout vout ih =>
    intro i r r₁ h
    rw [outputLoop] at h
    rw [List.cons_append, outputLoop]
    split at h
    · cases h
    · rw [ih _ _ _ h, List.length_cons]
      congr 1
      omega

/-- An output that matches and is to be added is found after the loop. -/
theorem outputLoop_contains {hash : UInt256} {vout : List CTxOut} {i : ℕ} {txout : CTxOut}
    {f fi f' : CBloomFilter} {b b' c : Bool} (hf : f.Sound) (hi : vout[i]? = some txout)
    (hfi : outputLoop murmur hash 0 (vout.take i) (f, b) = .ok (fi, b'))
    (hmatch : fi.Matches murmur txout.scriptPubKey) (hup : fi.updates txout.scriptPubKey = true)
    (h : outputLoop murmur hash 0 vout (f, b) = .ok (f', c)) :
    f'.contains murmur (COutPoint.stream ⟨hash, i⟩) = .ok true := by
  obtain ⟨hlt, hget⟩ := List.getElem?_eq_some_iff.1 hi
  have hsplit : vout = vout.take i ++ txout :: vout.drop (i + 1) := by
    rw [← hget, List.getElem_cons_drop, List.take_append_drop]
  obtain ⟨_, hok, hgrows⟩ := outputLoop_ok murmur hash (vout.take i) 0 (f, b) hf
  rw [hfi] at hok
  cases hok
  have hfi' := hgrows.sound hf
  rw [hsplit, outputLoop_append _ _ _ _ _ _ hfi, List.length_take, Nat.min_eq_left hlt.le,
    Nat.zero_add] at h
  obtain ⟨r₁, h₁, hgrows₁, hcontains⟩ := outputStep_spec murmur hfi' ⟨hash, i⟩ txout
  obtain ⟨r₂, h₂, hgrows₂⟩ := outputLoop_ok murmur hash (vout.drop (i + 1)) (i + 1)
    (r₁.1, b' || r₁.2) (hgrows₁.sound hfi')
  rw [outputLoop, h₁] at h
  dsimp only at h
  rw [h₂] at h
  cases h
  exact hgrows₂.contains (hgrows₁.sound hfi') (hcontains hmatch hup)

variable (murmur) in
theorem inputLoop_ok {f : CBloomFilter} (hf : f.Sound) (vin : List CTxIn) :
    ∃ b, f.inputLoop murmur vin = .ok b := by
  induction vin with
  | nil => exact ⟨false, rfl⟩
  | cons txin vin ih =>
    obtain ⟨b, hb⟩ := hf.contains murmur txin.prevout.stream
    obtain ⟨c, hc, -⟩ := containsElement_spec murmur hf _ txin.scriptSig le_rfl
    rw [inputLoop, hb]
    cases b with
    | true => exact ⟨true, rfl⟩
    | false =>
      dsimp only
      rw [hc]
      cases c with
      | true => exact ⟨true, rfl⟩
      | false => exact ih

/-- An input that spends a known outpoint is found. -/
theorem inputLoop_true {f : CBloomFilter} (hf : f.Sound) {vin : List CTxIn} {txin : CTxIn}
    (hin : txin ∈ vin) (hk : f.contains murmur txin.prevout.stream = .ok true) :
    f.inputLoop murmur vin = .ok true := by
  induction vin with
  | nil => exact absurd hin (by simp)
  | cons i vin ih =>
    rw [inputLoop]
    obtain ⟨b, hb⟩ := hf.contains murmur i.prevout.stream
    obtain ⟨c, hc, -⟩ := containsElement_spec murmur hf _ i.scriptSig le_rfl
    rcases List.mem_cons.1 hin with rfl | hin
    · rw [hk]
    · rw [hb]
      cases b with
      | true => rfl
      | false =>
        dsimp only
        rw [hc]
        cases c with
        | true => rfl
        | false => exact ih hin

variable (murmur) in
/-- `IsRelevantAndUpdate` is defined and loses no bit. -/
theorem isRelevantAndUpdate_ok {f : CBloomFilter} (hf : f.Sound) (tx : CTransaction) :
    ∃ r, f.isRelevantAndUpdate murmur tx = .ok r ∧ f.Grows r.1 := by
  unfold isRelevantAndUpdate
  split
  · exact ⟨_, rfl, Grows.refl f⟩
  · split
    · exact ⟨_, rfl, Grows.refl f⟩
    · obtain ⟨b, hb⟩ := hf.contains murmur (uint256Bytes tx.hash)
      obtain ⟨⟨f', c⟩, hloop, hgrows⟩ := outputLoop_ok murmur tx.hash tx.vout 0 (f, b) hf
      rw [hb]
      dsimp only
      rw [hloop]
      cases c with
      | true => exact ⟨_, rfl, hgrows⟩
      | false =>
        obtain ⟨c, hc⟩ := inputLoop_ok murmur (hgrows.sound hf) tx.vin
        dsimp only
        rw [hc]
        exact ⟨_, rfl, hgrows⟩

/-- What the outputs do to the filter does not depend on what was found before them. -/
theorem outputLoop_found (hash : UInt256) (b : Bool) (vout : List CTxOut) :
    ∀ (i : ℕ) (f : CBloomFilter) (c : Bool), outputLoop murmur hash i vout (f, b || c) =
      (outputLoop murmur hash i vout (f, c)).map fun r => (r.1, b || r.2) := by
  induction vout with
  | nil => exact fun _ _ _ => rfl
  | cons txout vout ih =>
    intro i f c
    rw [outputLoop, outputLoop]
    dsimp only
    split
    · rfl
    · rw [Bool.or_assoc]
      exact ih _ _ _

/-- An empty filter matches nothing. -/
theorem not_matches_of_isEmpty {f : CBloomFilter} (hfull : ¬ f.isFull = true)
    (hempty : f.isEmpty = true) (s : CScript) : ¬ f.Matches murmur s := by
  rintro ⟨ops, rest, -, op, -, -, hk⟩
  rw [CBloomFilter.contains, if_neg hfull, if_pos hempty] at hk
  cases hk

theorem outputLoop_of_isEmpty {f : CBloomFilter} (hf : f.Sound) (hfull : ¬ f.isFull = true)
    (hempty : f.isEmpty = true) (hash : UInt256) (vout : List CTxOut) :
    ∀ i : ℕ, outputLoop murmur hash i vout (f, false) = .ok (f, false) := by
  induction vout with
  | nil => exact fun _ => rfl
  | cons txout vout ih =>
    intro i
    obtain ⟨b, hb, hiff⟩ := containsElement_spec murmur hf _ txout.scriptPubKey le_rfl
    cases b with
    | true => exact absurd (hiff.1 rfl) (not_matches_of_isEmpty hfull hempty _)
    | false =>
      rw [outputLoop, outputStep, hb]
      exact ih (i + 1)

/-- The outputs that match and are to be added are found after `IsRelevantAndUpdate`. -/
theorem isRelevantAndUpdate_contains {f fi f' : CBloomFilter} {tx : CTransaction} {i : ℕ}
    {txout : CTxOut} {b c : Bool} (hf : f.Sound) (hi : tx.vout[i]? = some txout)
    (hfi : outputLoop murmur tx.hash 0 (tx.vout.take i) (f, false) = .ok (fi, b))
    (hmatch : fi.Matches murmur txout.scriptPubKey) (hup : fi.updates txout.scriptPubKey = true)
    (h : f.isRelevantAndUpdate murmur tx = .ok (f', c)) :
    f'.contains murmur (COutPoint.stream ⟨tx.hash, i⟩) = .ok true := by
  unfold isRelevantAndUpdate at h
  split at h
  · next hfull =>
    cases h
    exact if_pos hfull
  · next hfull =>
    split at h
    · next hempty =>
      rw [outputLoop_of_isEmpty hf hfull hempty] at hfi
      cases hfi
      exact absurd hmatch (not_matches_of_isEmpty hfull hempty _)
    · obtain ⟨d, hd⟩ := hf.contains murmur (uint256Bytes tx.hash)
      obtain ⟨⟨f₁, e⟩, hloop, hgrows⟩ := outputLoop_ok murmur tx.hash tx.vout 0 (f, d) hf
      have hfi' : outputLoop murmur tx.hash 0 (tx.vout.take i) (f, d) = .ok (fi, d || b) := by
        have := @outputLoop_found murmur tx.hash d (tx.vout.take i) 0 f false
        rw [hfi, Bool.or_false] at this
        exact this
      have hcontains := outputLoop_contains hf hi hfi' hmatch hup hloop
      rw [hd] at h
      dsimp only at h
      rw [hloop] at h
      cases e with
      | true =>
        cases h
        exact hcontains
      | false =>
        obtain ⟨c, hc⟩ := inputLoop_ok murmur (hgrows.sound hf) tx.vin
        dsimp only at h
        rw [hc] at h
        cases h
        exact hcontains

/-- A transaction that spends a known outpoint is relevant. -/
theorem isRelevantAndUpdate_spends {f : CBloomFilter} {tx : CTransaction} {txin : CTxIn}
    (hf : f.Sound) (hin : txin ∈ tx.vin) (hk : f.contains murmur txin.prevout.stream = .ok true) :
    ∃ f', f.isRelevantAndUpdate murmur tx = .ok (f', true) := by
  unfold isRelevantAndUpdate
  split
  · exact ⟨f, rfl⟩
  · next hfull =>
    split
    · next hempty =>
      rw [CBloomFilter.contains, if_neg hfull, if_pos hempty] at hk
      cases hk
    · obtain ⟨b, hb⟩ := hf.contains murmur (uint256Bytes tx.hash)
      obtain ⟨⟨f', c⟩, hloop, hgrows⟩ := outputLoop_ok murmur tx.hash tx.vout 0 (f, b) hf
      rw [hb]
      dsimp only
      rw [hloop]
      cases c with
      | true => exact ⟨f', rfl⟩
      | false =>
        dsimp only
        rw [inputLoop_true (hgrows.sound hf) hin (hgrows.contains hf hk)]
        exact ⟨f', rfl⟩

end CBloomFilter

/-! ## Runs -/

/-- The keys an event inserts. -/
inductive BloomEvent.Inserts (f : CBloomFilter) : BloomEvent → List UInt8 → Prop
  | filterAdd {vData : List UInt8} (hsize : vData.length ≤ 520) :
      BloomEvent.Inserts f (.filterAdd vData) vData
  | insert (vKey : List UInt8) : BloomEvent.Inserts f (.insert vKey) vKey
  | output {tx : CTransaction} {i : ℕ} {txout : CTxOut} {fi : CBloomFilter} {b : Bool}
      (hi : tx.vout[i]? = some txout)
      (hfi : CBloomFilter.outputLoop murmur tx.hash 0 (tx.vout.take i) (f, false) = .ok (fi, b))
      (hmatch : fi.Matches murmur txout.scriptPubKey) (hup : fi.updates txout.scriptPubKey = true) :
      BloomEvent.Inserts f (.relevant tx) (COutPoint.stream ⟨tx.hash, i⟩)

variable {murmur}

/-- A loaded filter can be asked: without bytes it is full. -/
theorem filterLoad_sound {vData : List UInt8} {nHashFuncs nTweak : UInt32} {nFlags : UInt8}
    {f : CBloomFilter} (h : filterLoad vData nHashFuncs nTweak nFlags = some f) :
    f.Sound ∧ f.nFlags = nFlags := by
  unfold filterLoad at h
  dsimp only at h
  split at h
  · cases h
    refine ⟨?_, rfl⟩
    cases vData with
    | nil => exact .inl rfl
    | cons b vData => exact .inr (Nat.succ_pos _)
  · cases h

/-- A step is defined, loses no bit, and what it inserts is found after it. -/
theorem bloomStep_spec {f : CBloomFilter} (hf : f.Sound) (e : BloomEvent) :
    ∃ f', bloomStep murmur f e = .ok f' ∧ f.Grows f' ∧
      ∀ k, e.Inserts murmur f k → f'.contains murmur k = .ok true := by
  cases e with
  | filterAdd vData =>
    rw [bloomStep]
    split
    · next hsize =>
      refine ⟨f, rfl, .refl f, fun k hk => ?_⟩
      cases hk with
      | filterAdd hle => exact absurd hsize (Nat.not_lt.2 hle)
    · obtain ⟨f', hins, hgrows, hcontains⟩ := hf.insert murmur vData
      refine ⟨f', hins, hgrows, fun k hk => ?_⟩
      cases hk
      exact hcontains
  | insert vKey =>
    obtain ⟨f', hins, hgrows, hcontains⟩ := hf.insert murmur vKey
    refine ⟨f', hins, hgrows, fun k hk => ?_⟩
    cases hk
    exact hcontains
  | relevant tx =>
    obtain ⟨r, hr, hgrows⟩ := CBloomFilter.isRelevantAndUpdate_ok murmur hf tx
    refine ⟨r.1, by rw [bloomStep, hr], hgrows, fun k hk => ?_⟩
    cases hk with
    | output hi hfi hmatch hup =>
      exact CBloomFilter.isRelevantAndUpdate_contains hf hi hfi hmatch hup hr

/-- A run is defined and loses no bit. -/
theorem bloomRun_spec (es : List BloomEvent) : ∀ {f : CBloomFilter}, f.Sound →
    ∃ f', Run.run (bloomStep murmur) f es = .ok f' ∧ f.Grows f' := by
  induction es with
  | nil => exact fun {f} _ => ⟨f, rfl, .refl f⟩
  | cons e es ih =>
    intro f hf
    obtain ⟨f₁, h₁, hgrows, -⟩ := bloomStep_spec hf e
    obtain ⟨f', h', hgrows'⟩ := ih (hgrows.sound hf)
    exact ⟨f', Run.run_cons h₁ h', hgrows.trans hgrows'⟩

/-- What an event of a run inserts is found at the end of the run. -/
theorem bloomRun_contains {f₀ f f' : CBloomFilter} {es es' : List BloomEvent} {e : BloomEvent}
    {k : List UInt8} (hf : f₀.Sound) (h : Run.run (bloomStep murmur) f₀ es = .ok f) (hk : e.Inserts murmur f k)
    (h' : Run.run (bloomStep murmur) f₀ (es ++ e :: es') = .ok f') : f'.contains murmur k = .ok true := by
  obtain ⟨_, hrun, hgrows⟩ := bloomRun_spec es hf
  rw [h] at hrun
  cases hrun
  rw [Run.run_append h] at h'
  obtain ⟨f₁, h₁, hgrows₁, hcontains⟩ := bloomStep_spec (hgrows.sound hf) e
  obtain ⟨_, hrun, hgrows₂⟩ := bloomRun_spec es' (hgrows₁.sound (hgrows.sound hf))
  obtain ⟨_, hstep, h₂⟩ := Run.run_cons_eq_ok h'
  rw [h₁] at hstep
  cases hstep
  rw [h₂] at hrun
  cases hrun
  exact hgrows₂.contains (hgrows₁.sound (hgrows.sound hf)) (hcontains k hk)

end Keys

/-- **Filters never miss.**  Whatever a loaded filter is told and asked, and whatever the hash, it
is never undefined, so no hash is taken modulo zero; what was inserted since the load is found; and
with `BLOOM_UPDATE_ALL` a transaction that spends an output that matched is relevant. -/
theorem bloom_filter_never_misses (murmur : UInt32 → List UInt8 → UInt32) {vData : List UInt8} {nHashFuncs nTweak : UInt32}
    {nFlags : UInt8} {f₀ : CBloomFilter}
    (hload : filterLoad vData nHashFuncs nTweak nFlags = some f₀) :
    (∀ es, ∃ f, Run.run (bloomStep murmur) f₀ es = .ok f ∧ (∀ k, ∃ b, f.contains murmur k = .ok b) ∧
      ∀ tx, ∃ r, f.isRelevantAndUpdate murmur tx = .ok r) ∧
    (∀ es e es' f f' k, Run.run (bloomStep murmur) f₀ es = .ok f → BloomEvent.Inserts murmur f e k →
      Run.run (bloomStep murmur) f₀ (es ++ e :: es') = .ok f' → f'.contains murmur k = .ok true) ∧
    (nFlags &&& 3 = 1 → ∀ es tx es' f f' i txout fi b tx' txin,
      Run.run (bloomStep murmur) f₀ es = .ok f → tx.vout[i]? = some txout →
      CBloomFilter.outputLoop murmur tx.hash 0 (tx.vout.take i) (f, false) = .ok (fi, b) →
      fi.Matches murmur txout.scriptPubKey → Run.run (bloomStep murmur) f₀ (es ++ .relevant tx :: es') = .ok f' →
      txin ∈ tx'.vin → txin.prevout = ⟨tx.hash, i⟩ →
      ∃ f'', f'.isRelevantAndUpdate murmur tx' = .ok (f'', true)) := by
  obtain ⟨hf, hflags⟩ := filterLoad_sound hload
  refine ⟨fun es => ?_, ?_, ?_⟩
  · obtain ⟨f, hrun, hgrows⟩ := bloomRun_spec es hf
    have hsound := hgrows.sound hf
    exact ⟨f, hrun, hsound.contains murmur, fun tx =>
      (CBloomFilter.isRelevantAndUpdate_ok murmur hsound tx).imp fun _ h => h.1⟩
  · intro es e es' f f' k h hk h'
    exact bloomRun_contains hf h hk h'
  · intro hall es tx es' f f' i txout fi b tx' txin h hi hfi hmatch h' hin hprev
    obtain ⟨_, hrun, hgrows⟩ := bloomRun_spec es hf
    rw [h] at hrun
    cases hrun
    obtain ⟨_, hloop, hgrows'⟩ := CBloomFilter.outputLoop_ok murmur tx.hash (tx.vout.take i) 0 (f, false)
      (hgrows.sound hf)
    rw [hfi] at hloop
    cases hloop
    have hup : fi.updates txout.scriptPubKey = true :=
      if_pos (by rw [hgrows'.nFlags, hgrows.nFlags, hflags, hall])
    obtain ⟨_, hrun, hgrows₂⟩ := bloomRun_spec (es ++ .relevant tx :: es') hf
    rw [h'] at hrun
    cases hrun
    refine CBloomFilter.isRelevantAndUpdate_spends (hgrows₂.sound hf) hin ?_
    rw [hprev]
    exact bloomRun_contains hf h (.output hi hfi hmatch hup) h'

/-- A key that is inserted, a transaction that pays to it, and one that spends that output. -/
theorem bloom_filter_finds_spend :
    ∃ f₀ f f', filterLoad [0, 0, 0] 3 5 1 = some f₀ ∧
      Run.run (bloomStep murmurHash3) f₀ [.insert [7], .relevant
        { hash := 1, vin := [], vout := [{ nValue := 0, scriptPubKey := [1, 7] }] }] = .ok f ∧
      f.isRelevantAndUpdate murmurHash3
        { hash := 2, vin := [{ prevout := ⟨1, 0⟩, scriptSig := [] }], vout := [] }
        = .ok (f', true) := by
  have hload : filterLoad [0, 0, 0] 3 5 1 = some ⟨[0, 0, 0], false, true, 3, 5, 1⟩ := by decide
  obtain ⟨hruns, hfound, hspent⟩ := bloom_filter_never_misses murmurHash3 hload
  obtain ⟨f₁, h₁, -, -⟩ := hruns [.insert [7]]
  obtain ⟨f, h, -, -⟩ := hruns [.insert [7], .relevant
    { hash := 1, vin := [], vout := [{ nValue := 0, scriptPubKey := [1, 7] }] }]
  have hkey : f₁.contains murmurHash3 [7] = .ok true :=
    hfound [] (.insert [7]) [] _ f₁ [7] rfl (.insert [7]) h₁
  obtain ⟨f', hspend⟩ := hspent (by decide) [.insert [7]] _ [] f₁ f 0
    { nValue := 0, scriptPubKey := [1, 7] } f₁ false
    { hash := 2, vin := [{ prevout := ⟨1, 0⟩, scriptSig := [] }], vout := [] }
    { prevout := ⟨1, 0⟩, scriptSig := [] } h₁ rfl rfl
    ⟨[(1, [7])], [], .cons rfl (.refl []), _, List.mem_cons_self, by simp, hkey⟩ h
    List.mem_cons_self rfl
  exact ⟨_, f, f', hload, h, hspend⟩

end FairCoin
