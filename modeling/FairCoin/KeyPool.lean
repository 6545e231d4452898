import FairCoin.Lib.Run
import FairCoin.Lib.Store
import Mathlib.Data.Finset.Max
import Mathlib.Order.Interval.Finset.Basic
import Mathlib.Data.Int.Interval

/-!
# The key pool of the wallet

`NewKeyPool`, `TopUpKeyPool`, `ReserveKeyFromKeyPool`, `KeepKey`, `ReturnKey`, `GetKeyFromPool` of
`src/wallet.cpp` and the `CReserveKey` objects that hold keys of the pool.

* `nEnd` — the index `TopUpKeyPool` gives to a new key: one more than the greatest index in the
  set, or 1 when the set is empty.  Indexes of reserved keys are not in the set.
* `PoolInv` — reserved indexes are apart from each other and from the set, and every index leads to
  its own key.
* `keys_handed_out_once` — **no key is handed out twice** in any run in which new keys are never
  written over a reserved index.
-/

namespace FairCoin

open Store

/-! ## State -/

variable {K : Type}

/-- The `-keypool` argument, and the keys that `GenerateNewKey` draws, one after the other. -/
structure KeyPoolEnv (K : Type) where
  keypool : ℤ := 1000
  generateNewKey : ℕ → K
  generateNewKey_injective : Function.Injective generateNewKey

/-- `CReserveKey`; an invalid public key is `none`. -/
structure CReserveKey (K : Type) where
  nIndex : ℤ := -1
  vchPubKey : Option K := none

/-- The pool: the set of free indexes, the records in the database, the objects that hold keys, the
public keys that were handed out for good, and the exceptions thrown so far. -/
structure KeyPoolState (K : Type) where
  isLocked : Bool := false
  setKeyPool : Finset ℤ := ∅
  pool : Map ℤ K := ∅
  nGenerated : ℕ := 0
  holders : ℕ → CReserveKey K := fun _ => {}
  kept : List K := []
  thrown : List String := []

namespace KeyPoolState

variable (E : KeyPoolEnv K)

/-! ## Filling the pool -/

/-- A new key is written to the pool. -/
def addKey (s : KeyPoolState K) (nIndex : ℤ) : KeyPoolState K :=
  { s with
    pool := s.pool.insert nIndex (E.generateNewKey s.nGenerated)
    setKeyPool := insert nIndex s.setKeyPool
    nGenerated := s.nGenerated + 1 }

/-- The index of the next new key. -/
def nEnd (setKeyPool : Finset ℤ) : ℤ :=
  if h : setKeyPool.Nonempty then setKeyPool.max' h + 1 else 1

/-- The loop of `TopUpKeyPool`. -/
def addKeys : ℕ → KeyPoolState K → KeyPoolState K
  | 0, s => s
  | n + 1, s => addKeys n (s.addKey E (nEnd s.setKeyPool))

/-- How many keys `TopUpKeyPool` adds; sizes are unsigned. -/
def missing (s : KeyPoolState K) (kpSize : ℕ) : ℕ :=
  let nTargetSize := if 0 < kpSize then kpSize % 2 ^ 32 else (max E.keypool 0).toNat % 2 ^ 32
  (nTargetSize + 1) % 2 ^ 32 - s.setKeyPool.card

/-- `TopUpKeyPool`. -/
def topUpKeyPool (kpSize : ℕ) (s : KeyPoolState K) : KeyPoolState K :=
  if s.isLocked then s else addKeys E (s.missing E kpSize) s

/-- How many keys `NewKeyPool` writes. -/
def nKeys : ℕ := (max E.keypool 0).toNat

/-- `NewKeyPool`: the records of the free keys go even when the wallet is locked. -/
def newKeyPool (s : KeyPoolState K) : KeyPoolState K :=
  let s₁ := { s with
    pool := (s.setKeyPool.sort (· ≤ ·)).foldl (fun pool nIndex => pool.erase nIndex) s.pool
    setKeyPool := ∅ }
  if s₁.isLocked then s₁
  else (List.range (nKeys E)).foldl (fun s i => s.addKey E (i + 1)) s₁

/-! ## Taking keys from the pool -/

variable [DecidableEq K]

/-- `HaveKey`: the wallet has the keys it generated. -/
def haveKey (s : KeyPoolState K) (vchPubKey : K) : Bool :=
  (List.range s.nGenerated).any fun i => E.generateNewKey i = vchPubKey

/-- `ReserveKeyFromKeyPool`: the index, or -1 for an empty pool, and the public key, which is
missing when an exception is thrown. -/
def reserveKeyFromKeyPool (s : KeyPoolState K) : CReserveKey K × KeyPoolState K :=
  let s := s.topUpKeyPool E 0
  if h : s.setKeyPool.Nonempty then
    let nIndex := s.setKeyPool.min' h
    let s := { s with setKeyPool := s.setKeyPool.erase nIndex }
    match s.pool.lookup nIndex with
    | none =>
        ({ nIndex }, { s with
          thrown := "ReserveKeyFromKeyPool() : read failed" :: s.thrown })
    | some vchPubKey =>
        if s.haveKey E vchPubKey then ({ nIndex, vchPubKey := some vchPubKey }, s)
        else ({ nIndex }, { s with
          thrown := "ReserveKeyFromKeyPool() : unknown key in key pool" :: s.thrown })
  else ({}, s)

/-- `GetKeyFromPool`. -/
def getKeyFromPool (s : KeyPoolState K) : KeyPoolState K :=
  match s.reserveKeyFromKeyPool E with
  | ({ nIndex, vchPubKey := some vchPubKey }, s) =>
      { s with pool := s.pool.erase nIndex, kept := vchPubKey :: s.kept }
  | ({ nIndex, vchPubKey := none }, s) =>
      if nIndex = -1 ∧ !s.isLocked then
        { s with
          kept := E.generateNewKey s.nGenerated :: s.kept
          nGenerated := s.nGenerated + 1 }
      else s

/-- `CReserveKey::GetReservedKey`. -/
def getReservedKey (id : ℕ) (s : KeyPoolState K) : KeyPoolState K :=
  if (s.holders id).nIndex = -1 then
    let r := s.reserveKeyFromKeyPool E
    { r.2 with holders := Function.update r.2.holders id r.1 }
  else s

/-- `CReserveKey::KeepKey`. -/
def keepKey (id : ℕ) (s : KeyPoolState K) : KeyPoolState K :=
  let s₁ :=
    if (s.holders id).nIndex ≠ -1 then
      { s with
        pool := s.pool.erase (s.holders id).nIndex
        kept := (s.holders id).vchPubKey.toList ++ s.kept }
    else s
  { s₁ with holders := Function.update s₁.holders id {} }

/-- `CReserveKey::ReturnKey`, which also runs when the object is destroyed. -/
def returnKey (id : ℕ) (s : KeyPoolState K) : KeyPoolState K :=
  let s₁ :=
    if (s.holders id).nIndex ≠ -1 then
      { s with setKeyPool := insert (s.holders id).nIndex s.setKeyPool }
    else s
  { s₁ with holders := Function.update s₁.holders id {} }

end KeyPoolState

/-! ## Runs -/

/-- What can happen to the pool. -/
inductive KeyPoolOp where
  | topUpKeyPool (kpSize : ℕ)
  | newKeyPool
  | getKeyFromPool
  | getReservedKey (id : ℕ)
  | keepKey (id : ℕ)
  | returnKey (id : ℕ)
  | lock
  | unlock

/-- One step. -/
def keyPoolStep [DecidableEq K] (E : KeyPoolEnv K) (s : KeyPoolState K) : KeyPoolOp → KeyPoolState K
  | .topUpKeyPool kpSize => s.topUpKeyPool E kpSize
  | .newKeyPool => s.newKeyPool E
  | .getKeyFromPool => s.getKeyFromPool E
  | .getReservedKey id => s.getReservedKey E id
  | .keepKey id => s.keepKey id
  | .returnKey id => s.returnKey id
  | .lock => { s with isLocked := true }
  | .unlock => { s with isLocked := false }

namespace KeyPoolState

variable (E : KeyPoolEnv K)

/-- `TopUpKeyPool` is about to write an index. -/
def TopUpWrites (s : KeyPoolState K) (kpSize : ℕ) (i : ℤ) : Prop :=
  s.isLocked = false ∧ nEnd s.setKeyPool ≤ i ∧ i < nEnd s.setKeyPool + s.missing E kpSize

/-- A step is about to write an index. -/
def Writes (s : KeyPoolState K) (op : KeyPoolOp) (i : ℤ) : Prop :=
  match op with
  | .topUpKeyPool kpSize => s.TopUpWrites E kpSize i
  | .newKeyPool => s.isLocked = false ∧ 1 ≤ i ∧ i < 1 + nKeys E
  | .getKeyFromPool => s.TopUpWrites E 0 i
  | .getReservedKey id => (s.holders id).nIndex = -1 ∧ s.TopUpWrites E 0 i
  | _ => False

/-- New keys are not written over the index of a reserved key. -/
def NoClash (s : KeyPoolState K) (op : KeyPoolOp) : Prop :=
  ∀ id, (s.holders id).nIndex ≠ -1 → ¬s.Writes E op (s.holders id).nIndex

end KeyPoolState

/-! ## The invariant -/

section Invariant

open KeyPoolState

variable {E : KeyPoolEnv K} {s : KeyPoolState K}

/-- A key that has been generated. -/
def Generated (E : KeyPoolEnv K) (s : KeyPoolState K) (k : K) : Prop :=
  ∃ n < s.nGenerated, E.generateNewKey n = k

/-- Reserved indexes are apart from each other and from the set, every index of either kind has a
record, different records have different keys, and keys that were kept have none. -/
structure PoolInv (E : KeyPoolEnv K) (s : KeyPoolState K) : Prop where
  free : ∀ a, (s.holders a).nIndex = -1 → (s.holders a).vchPubKey = none
  held : ∀ a, (s.holders a).nIndex ≠ -1 → 1 ≤ (s.holders a).nIndex ∧
    (s.holders a).nIndex ∉ s.setKeyPool ∧ (s.holders a).vchPubKey.isSome = true ∧
      s.pool.lookup (s.holders a).nIndex = (s.holders a).vchPubKey
  apart : ∀ a b, a ≠ b → (s.holders a).nIndex ≠ -1 → (s.holders a).nIndex ≠ (s.holders b).nIndex
  record : ∀ i ∈ s.setKeyPool, 1 ≤ i ∧ (s.pool.lookup i).isSome = true
  distinct : ∀ i j k, s.pool.lookup i = some k → s.pool.lookup j = some k → i = j
  generated : ∀ i k, s.pool.lookup i = some k → Generated E s k
  kept : ∀ k ∈ s.kept, Generated E s k ∧ ∀ i, s.pool.lookup i ≠ some k
  kept_nodup : s.kept.Nodup
  thrown : s.thrown = []

theorem nEnd_notMem (t : Finset ℤ) : nEnd t ∉ t := by
  intro h
  unfold nEnd at h
  split at h
  · next hne =>
    have := t.le_max' _ h
    omega
  · next hne => exact hne ⟨_, h⟩

theorem one_le_nEnd {t : Finset ℤ} (ht : ∀ i ∈ t, 1 ≤ i) : 1 ≤ nEnd t := by
  unfold nEnd
  split
  · next hne =>
    have := ht _ (t.max'_mem hne)
    omega
  · exact le_rfl

/-- The next index after a new key. -/
theorem nEnd_insert_nEnd (t : Finset ℤ) : nEnd (insert (nEnd t) t) = nEnd t + 1 := by
  have hne : (insert (nEnd t) t).Nonempty := ⟨_, Finset.mem_insert_self _ _⟩
  have hmax : (insert (nEnd t) t).max' hne = nEnd t := by
    refine le_antisymm (Finset.max'_le _ _ _ fun i hi => ?_)
      (Finset.le_max' _ _ (Finset.mem_insert_self _ _))
    rcases Finset.mem_insert.1 hi with rfl | hi
    · exact le_rfl
    · have := t.le_max' i hi
      unfold nEnd
      rw [dif_pos ⟨i, hi⟩]
      omega
  rw [nEnd, dif_pos hne, hmax]

/-- A key that is about to be generated is new. -/
theorem not_generated_next : ¬Generated E s (E.generateNewKey s.nGenerated) := by
  rintro ⟨n, hn, heq⟩
  have := E.generateNewKey_injective heq
  omega

theorem Generated.mono {s' : KeyPoolState K} {k : K} (h : Generated E s k)
    (hn : s.nGenerated ≤ s'.nGenerated) : Generated E s' k := by
  obtain ⟨n, hlt, heq⟩ := h
  exact ⟨n, hlt.trans_le hn, heq⟩

/-- A new key goes to an index that nobody holds. -/
theorem PoolInv.addKey (hI : PoolInv E s) {i : ℤ} (hi : 1 ≤ i)
    (hfree : ∀ a, (s.holders a).nIndex ≠ i) : PoolInv E (s.addKey E i) := by
  have hlookup : ∀ j, (s.addKey E i).pool.lookup j =
      if j = i then some (E.generateNewKey s.nGenerated) else s.pool.lookup j :=
    fun j => lookup_insert_eq _ _ _ _
  have hgen : ∀ k, Generated E s k → Generated E (s.addKey E i) k :=
    fun k h => h.mono (Nat.le_succ _)
  refine ⟨hI.free, fun a ha => ?_, hI.apart, fun j hj => ?_, fun j j' k hj hj' => ?_,
    fun j k hj => ?_, fun k hk => ⟨hgen k (hI.kept k hk).1, fun j hj => ?_⟩, hI.kept_nodup,
    hI.thrown⟩
  · obtain ⟨hpos, hnot, hsome, hrec⟩ := hI.held a ha
    refine ⟨hpos, fun hmem => ?_, hsome, ?_⟩
    · rcases Finset.mem_insert.1 hmem with heq | hmem
      · exact hfree a heq
      · exact hnot hmem
    · rw [hlookup]
      show (if (s.holders a).nIndex = i then _ else _) = _
      rw [if_neg (hfree a)]
      exact hrec
  · rw [hlookup]
    rcases Finset.mem_insert.1 hj with rfl | hj
    · exact ⟨hi, by rw [if_pos rfl]; rfl⟩
    · refine ⟨(hI.record j hj).1, ?_⟩
      split
      · rfl
      · exact (hI.record j hj).2
  · rw [hlookup] at hj hj'
    split at hj
    · next h₁ =>
      split at hj'
      · next h₂ => rw [h₁, h₂]
      · rw [← Option.some.inj hj] at hj'
        exact absurd (hI.generated _ _ hj') not_generated_next
    · split at hj'
      · rw [← Option.some.inj hj'] at hj
        exact absurd (hI.generated _ _ hj) not_generated_next
      · exact hI.distinct j j' k hj hj'
  · rw [hlookup] at hj
    split at hj
    · exact ⟨s.nGenerated, Nat.lt_succ_self _, Option.some.inj hj⟩
    · exact hgen k (hI.generated j k hj)
  · rw [hlookup] at hj
    split at hj
    · rw [← Option.some.inj hj] at hk
      exact not_generated_next (hI.kept _ hk).1
    · exact (hI.kept k hk).2 j hj

/-- `TopUpKeyPool` keeps the invariant when it writes no reserved index. -/
theorem PoolInv.addKeys (n : ℕ) : ∀ {s : KeyPoolState K}, PoolInv E s →
    (∀ a, (s.holders a).nIndex ≠ -1 → ¬(nEnd s.setKeyPool ≤ (s.holders a).nIndex ∧
      (s.holders a).nIndex < nEnd s.setKeyPool + n)) →
    PoolInv E (KeyPoolState.addKeys E n s) := by
  induction n with
  | zero => exact fun hI _ => hI
  | succ n ih =>
    intro s hI hclash
    rw [KeyPoolState.addKeys]
    have hpos := one_le_nEnd fun i hi => (hI.record i hi).1
    refine ih (hI.addKey hpos fun a heq => ?_) fun a ha => ?_
    · exact hclash a (by omega) (by omega)
    · show ¬(nEnd (insert (nEnd s.setKeyPool) s.setKeyPool) ≤ (s.holders a).nIndex ∧
        (s.holders a).nIndex < nEnd (insert (nEnd s.setKeyPool) s.setKeyPool) + n)
      rw [nEnd_insert_nEnd]
      have := hclash a ha
      push_cast at this
      omega

theorem PoolInv.topUpKeyPool (hI : PoolInv E s) {kpSize : ℕ}
    (hclash : ∀ a, (s.holders a).nIndex ≠ -1 → ¬s.TopUpWrites E kpSize (s.holders a).nIndex) :
    PoolInv E (s.topUpKeyPool E kpSize) := by
  unfold KeyPoolState.topUpKeyPool
  split
  · exact hI
  · next hlock =>
    refine hI.addKeys _ fun a ha hin => ?_
    exact hclash a ha ⟨by simpa using hlock, hin⟩

/-- `NewKeyPool` keeps the invariant when it writes no reserved index. -/
theorem PoolInv.newKeyPool (hI : PoolInv E s)
    (hclash : s.isLocked = false → ∀ a, (s.holders a).nIndex ≠ -1 →
      ¬(1 ≤ (s.holders a).nIndex ∧ (s.holders a).nIndex < 1 + nKeys E)) :
    PoolInv E (s.newKeyPool E) := by
  set s₁ : KeyPoolState K := { s with
    pool := (s.setKeyPool.sort (· ≤ ·)).foldl (fun pool nIndex => pool.erase nIndex) s.pool
    setKeyPool := ∅ } with hs₁
  have hlookup : ∀ i k, s₁.pool.lookup i = some k → s.pool.lookup i = some k := by
    intro i k h
    exact ((lookup_foldl_erase id _ s.pool i k).1 h).1
  have hI₁ : PoolInv E s₁ := by
    refine ⟨hI.free, fun a ha => ?_, hI.apart, by simp [hs₁], fun i j k hi hj =>
      hI.distinct i j k (hlookup i k hi) (hlookup j k hj), fun i k hi =>
      hI.generated i k (hlookup i k hi), fun k hk => ⟨(hI.kept k hk).1, fun i hi =>
      (hI.kept k hk).2 i (hlookup i k hi)⟩, hI.kept_nodup, hI.thrown⟩
    obtain ⟨hpos, hnot, hsome, hrec⟩ := hI.held a ha
    refine ⟨hpos, by simp [hs₁], hsome, ?_⟩
    obtain ⟨k, hk⟩ := Option.isSome_iff_exists.1 hsome
    show s₁.pool.lookup (s.holders a).nIndex = (s.holders a).vchPubKey
    rw [hk] at hrec ⊢
    refine (lookup_foldl_erase id _ s.pool _ k).2 ⟨hrec, fun hmem => hnot ?_⟩
    rwa [List.map_id, Finset.mem_sort] at hmem
  have hfold : ∀ (l : List ℕ) (t : KeyPoolState K), PoolInv E t →
      (∀ i ∈ l, ∀ a, (t.holders a).nIndex ≠ (i : ℤ) + 1) →
      PoolInv E (l.foldl (fun s i => s.addKey E (i + 1)) t) := by
    intro l
    induction l with
    | nil => exact fun t ht _ => ht
    | cons i l ih =>
      intro t ht hl
      refine ih _ (ht.addKey (by omega) (hl i (by simp))) fun j hj => ?_
      exact hl j (by simp [hj])
  unfold KeyPoolState.newKeyPool
  rw [← hs₁]
  simp only
  split
  · exact hI₁
  · next hlock =>
    refine hfold _ _ hI₁ fun i hi a heq => ?_
    rw [List.mem_range] at hi
    have heq' : (s.holders a).nIndex = (i : ℤ) + 1 := heq
    exact hclash (by simpa using hlock) a (by omega) (by omega)

/-- A key that leaves the pool for good. -/
theorem PoolInv.take (hI : PoolInv E s) {i : ℤ} {k : K} (hk : s.pool.lookup i = some k)
    (hfree : ∀ a, (s.holders a).nIndex ≠ i) (t : Finset ℤ) (ht : t ⊆ s.setKeyPool.erase i) :
    PoolInv E { s with setKeyPool := t, pool := s.pool.erase i, kept := k :: s.kept } := by
  have hlookup : ∀ j, (s.pool.erase i).lookup j = if j = i then none else s.pool.lookup j :=
    fun j => lookup_erase_eq _ _ _
  have hsub : ∀ j k, (s.pool.erase i).lookup j = some k → s.pool.lookup j = some k ∧ j ≠ i := by
    intro j k h
    rw [hlookup] at h
    split at h
    · exact absurd h (by simp)
    · next hne => exact ⟨h, hne⟩
  refine ⟨hI.free, fun a ha => ?_, hI.apart, fun j hj => ?_, fun j j' k hj hj' =>
    hI.distinct j j' k (hsub j k hj).1 (hsub j' k hj').1, fun j k hj =>
    hI.generated j k (hsub j k hj).1, fun k' hk' => ?_, ?_, hI.thrown⟩
  · obtain ⟨hpos, hnot, hsome, hrec⟩ := hI.held a ha
    refine ⟨hpos, fun hmem => hnot (Finset.mem_of_mem_erase (ht hmem)), hsome, ?_⟩
    show (s.pool.erase i).lookup (s.holders a).nIndex = _
    rw [hlookup, if_neg (hfree a)]
    exact hrec
  · obtain ⟨hne, hmem⟩ := Finset.mem_erase.1 (ht hj)
    refine ⟨(hI.record j hmem).1, ?_⟩
    show ((s.pool.erase i).lookup j).isSome = true
    rw [hlookup, if_neg hne]
    exact (hI.record j hmem).2
  · rcases List.mem_cons.1 hk' with rfl | hk'
    · refine ⟨hI.generated i k' hk, fun j hj => ?_⟩
      obtain ⟨hj, hne⟩ := hsub j k' hj
      exact hne (hI.distinct j i k' hj hk)
    · exact ⟨(hI.kept k' hk').1, fun j hj => (hI.kept k' hk').2 j (hsub j k' hj).1⟩
  · exact List.nodup_cons.2 ⟨fun hmem => (hI.kept k hmem).2 i hk, hI.kept_nodup⟩

/-- A key that is generated and handed out at once. -/
theorem PoolInv.generate (hI : PoolInv E s) :
    PoolInv E { s with
      kept := E.generateNewKey s.nGenerated :: s.kept
      nGenerated := s.nGenerated + 1 } := by
  have hgen : ∀ k, Generated E s k → Generated E { s with
      kept := E.generateNewKey s.nGenerated :: s.kept
      nGenerated := s.nGenerated + 1 } k := fun k h => h.mono (Nat.le_succ _)
  refine ⟨hI.free, hI.held, hI.apart, hI.record, hI.distinct,
    fun i k h => hgen k (hI.generated i k h), fun k hk => ?_, ?_, hI.thrown⟩
  · rcases List.mem_cons.1 hk with rfl | hk
    · exact ⟨⟨s.nGenerated, Nat.lt_succ_self _, rfl⟩,
        fun i hi => not_generated_next (hI.generated i _ hi)⟩
    · exact ⟨hgen k (hI.kept k hk).1, (hI.kept k hk).2⟩
  · exact List.nodup_cons.2 ⟨fun h => not_generated_next (hI.kept _ h).1, hI.kept_nodup⟩

/-- An object lets go of its index. -/
theorem PoolInv.release (hI : PoolInv E s) (id : ℕ) :
    PoolInv E { s with holders := Function.update s.holders id {} } ∧
      ∀ a, (s.holders id).nIndex ≠ -1 →
        (Function.update s.holders id {} a).nIndex ≠ (s.holders id).nIndex := by
  have hcases : ∀ a, Function.update s.holders id {} a = {} ∨
      a ≠ id ∧ Function.update s.holders id {} a = s.holders a := by
    intro a
    by_cases ha : a = id
    · subst ha
      exact .inl (Function.update_self ..)
    · exact .inr ⟨ha, Function.update_of_ne ha ..⟩
  generalize Function.update s.holders id {} = holders at hcases ⊢
  refine ⟨⟨fun a => ?_, fun a => ?_, fun a b hab => ?_, hI.record, hI.distinct, hI.generated,
    hI.kept, hI.kept_nodup, hI.thrown⟩, fun a hne => ?_⟩
  · show (holders a).nIndex = -1 → (holders a).vchPubKey = none
    rcases hcases a with h | ⟨-, h⟩
    · rw [h]
      exact fun _ => rfl
    · rw [h]
      exact hI.free a
  · show (holders a).nIndex ≠ -1 → 1 ≤ (holders a).nIndex ∧ (holders a).nIndex ∉ s.setKeyPool ∧
      (holders a).vchPubKey.isSome = true ∧
        s.pool.lookup (holders a).nIndex = (holders a).vchPubKey
    rcases hcases a with h | ⟨-, h⟩
    · rw [h]
      exact fun hne => absurd rfl hne
    · rw [h]
      exact hI.held a
  · show (holders a).nIndex ≠ -1 → (holders a).nIndex ≠ (holders b).nIndex
    rcases hcases a with h | ⟨-, h⟩
    · rw [h]
      exact fun hne => absurd rfl hne
    · rw [h]
      rcases hcases b with h' | ⟨-, h'⟩
      · rw [h']
        exact fun hne => hne
      · rw [h']
        exact hI.apart a b hab
  · rcases hcases a with h | ⟨hne', h⟩
    · rw [h]
      exact hne.symm
    · rw [h]
      exact (hI.apart id a hne'.symm hne).symm

/-- A free index goes to an object. -/
theorem PoolInv.hold (hI : PoolInv E s) {i : ℤ} {k : K} (hi : i ∈ s.setKeyPool)
    (hk : s.pool.lookup i = some k) (id : ℕ) : PoolInv E { s with
      setKeyPool := s.setKeyPool.erase i
      holders := Function.update s.holders id { nIndex := i, vchPubKey := some k } } := by
  have hpos := (hI.record i hi).1
  have hfree : ∀ a, (s.holders a).nIndex ≠ i := by
    intro a heq
    refine (hI.held a (by omega)).2.1 ?_
    rwa [heq]
  have hself : Function.update s.holders id { nIndex := i, vchPubKey := some k } id =
      { nIndex := i, vchPubKey := some k } := Function.update_self ..
  have hother : ∀ a, a ≠ id →
      Function.update s.holders id { nIndex := i, vchPubKey := some k } a = s.holders a :=
    fun a ha => Function.update_of_ne ha ..
  generalize Function.update s.holders id { nIndex := i, vchPubKey := some k } = holders
    at hself hother ⊢
  refine ⟨fun a => ?_, fun a => ?_, fun a b hab => ?_, fun j hj =>
    hI.record j (Finset.mem_of_mem_erase hj), hI.distinct, hI.generated, hI.kept, hI.kept_nodup,
    hI.thrown⟩
  · show (holders a).nIndex = -1 → (holders a).vchPubKey = none
    by_cases haid : a = id
    · rw [haid, hself]
      intro heq
      have : i = -1 := heq
      omega
    · rw [hother a haid]
      exact hI.free a
  · show (holders a).nIndex ≠ -1 → 1 ≤ (holders a).nIndex ∧
      (holders a).nIndex ∉ s.setKeyPool.erase i ∧ (holders a).vchPubKey.isSome = true ∧
        s.pool.lookup (holders a).nIndex = (holders a).vchPubKey
    by_cases haid : a = id
    · rw [haid, hself]
      exact fun _ => ⟨hpos, Finset.notMem_erase i _, rfl, hk⟩
    · rw [hother a haid]
      intro ha
      obtain ⟨h₁, h₂, h₃, h₄⟩ := hI.held a ha
      exact ⟨h₁, fun h => h₂ (Finset.mem_of_mem_erase h), h₃, h₄⟩
  · show (holders a).nIndex ≠ -1 → (holders a).nIndex ≠ (holders b).nIndex
    by_cases haid : a = id
    · rw [haid, hself, hother b fun h => hab (haid.trans h.symm)]
      exact fun _ => (hfree b).symm
    · rw [hother a haid]
      by_cases hbid : b = id
      · rw [hbid, hself]
        exact fun _ => hfree a
      · rw [hother b hbid]
        exact hI.apart a b hab

/-- An index with a record goes back to the set. -/
theorem PoolInv.putBack (hI : PoolInv E s) {i : ℤ} (hpos : 1 ≤ i)
    (hrec : (s.pool.lookup i).isSome = true) (hfree : ∀ a, (s.holders a).nIndex ≠ i) :
    PoolInv E { s with setKeyPool := insert i s.setKeyPool } := by
  refine ⟨hI.free, fun a ha => ?_, hI.apart, fun j hj => ?_, hI.distinct, hI.generated, hI.kept,
    hI.kept_nodup, hI.thrown⟩
  · obtain ⟨h₁, h₂, h₃, h₄⟩ := hI.held a ha
    refine ⟨h₁, fun hmem => ?_, h₃, h₄⟩
    rcases Finset.mem_insert.1 hmem with heq | hmem
    · exact hfree a heq
    · exact h₂ hmem
  · rcases Finset.mem_insert.1 hj with rfl | hj
    · exact ⟨hpos, hrec⟩
    · exact hI.record j hj

/-- What the pool owes its users: no two objects hold the same key, a key that was kept is not
handed out again, every free index has its record, and no exception was thrown. -/
structure HandedOutOnce (s : KeyPoolState K) : Prop where
  holders : ∀ a b k, (s.holders a).vchPubKey = some k → (s.holders b).vchPubKey = some k → a = b
  kept : ∀ a k, (s.holders a).vchPubKey = some k → k ∉ s.kept
  kept_nodup : s.kept.Nodup
  record : ∀ i ∈ s.setKeyPool, (s.pool.lookup i).isSome = true
  thrown : s.thrown = []

theorem PoolInv.handedOutOnce (hI : PoolInv E s) : HandedOutOnce s := by
  have hheld : ∀ a k, (s.holders a).vchPubKey = some k →
      (s.holders a).nIndex ≠ -1 ∧ s.pool.lookup (s.holders a).nIndex = some k := by
    intro a k h
    have hne : (s.holders a).nIndex ≠ -1 := fun hfree => by
      rw [hI.free a hfree] at h
      exact absurd h (by simp)
    exact ⟨hne, by rw [(hI.held a hne).2.2.2, h]⟩
  refine ⟨fun a b k ha hb => ?_, fun a k ha hk => ?_, hI.kept_nodup,
    fun i hi => (hI.record i hi).2, hI.thrown⟩
  · obtain ⟨hne, hka⟩ := hheld a k ha
    obtain ⟨-, hkb⟩ := hheld b k hb
    by_contra hab
    exact hI.apart a b hab hne (hI.distinct _ _ k hka hkb)
  · exact (hI.kept k hk).2 _ (hheld a k ha).2

end Invariant

/-! ## Runs of the pool -/

section Runs

open KeyPoolState

variable [DecidableEq K] {E : KeyPoolEnv K} {s : KeyPoolState K}

/-- What `ReserveKeyFromKeyPool` does when new keys miss the reserved indexes: it fails only on an
empty pool, and otherwise hands out the key of the least free index. -/
theorem PoolInv.reserve (hI : PoolInv E s)
    (hclash : ∀ a, (s.holders a).nIndex ≠ -1 → ¬s.TopUpWrites E 0 (s.holders a).nIndex) :
    ∃ s₁, PoolInv E s₁ ∧
      ((s.reserveKeyFromKeyPool E = ({}, s₁)) ∨
        ∃ i ∈ s₁.setKeyPool, ∃ k, s₁.pool.lookup i = some k ∧ s.reserveKeyFromKeyPool E =
          ({ nIndex := i, vchPubKey := some k },
            { s₁ with setKeyPool := s₁.setKeyPool.erase i })) := by
  have hI₁ := hI.topUpKeyPool hclash
  refine ⟨s.topUpKeyPool E 0, hI₁, ?_⟩
  unfold reserveKeyFromKeyPool
  set s₁ := s.topUpKeyPool E 0
  by_cases hne : s₁.setKeyPool.Nonempty
  · obtain ⟨k, hk⟩ := Option.isSome_iff_exists.1 (hI₁.record _ (s₁.setKeyPool.min'_mem hne)).2
    refine .inr ⟨_, s₁.setKeyPool.min'_mem hne, k, hk, ?_⟩
    obtain ⟨n, hn, hgen⟩ := hI₁.generated _ k hk
    have hhave : haveKey E { s₁ with
        setKeyPool := s₁.setKeyPool.erase (s₁.setKeyPool.min' hne) } k = true :=
      List.any_eq_true.2 ⟨n, List.mem_range.2 hn, by simpa using hgen⟩
    simp only [dif_pos hne, hk, hhave, if_true]
  · exact .inl (dif_neg hne)

/-- **A step keeps the invariant** when it writes no reserved index. -/
theorem PoolInv.step (hI : PoolInv E s) {op : KeyPoolOp} (hclash : s.NoClash E op) :
    PoolInv E (keyPoolStep E s op) := by
  cases op with
  | topUpKeyPool kpSize => exact hI.topUpKeyPool hclash
  | newKeyPool =>
    exact hI.newKeyPool fun hlock a ha hin => hclash a ha ⟨hlock, hin⟩
  | getKeyFromPool =>
    show PoolInv E (s.getKeyFromPool E)
    unfold KeyPoolState.getKeyFromPool
    obtain ⟨s₁, hI₁, hempty | ⟨i, hi, k, hk, hres⟩⟩ := hI.reserve hclash
    · rw [hempty]
      simp only
      split
      · exact hI₁.generate
      · exact hI₁
    · rw [hres]
      refine hI₁.take hk (fun a heq => ?_) _ (Finset.Subset.refl _)
      have hpos := (hI₁.record i hi).1
      refine (hI₁.held a (by omega)).2.1 ?_
      rwa [heq]
  | getReservedKey id =>
    show PoolInv E (s.getReservedKey E id)
    unfold KeyPoolState.getReservedKey
    split
    · next hid =>
      obtain ⟨s₁, hI₁, hempty | ⟨i, hi, k, hk, hres⟩⟩ :=
        hI.reserve fun a ha hw => hclash a ha ⟨hid, hw⟩
      · rw [hempty]
        exact (hI₁.release id).1
      · rw [hres]
        exact hI₁.hold hi hk id
    · exact hI
  | keepKey id =>
    show PoolInv E (s.keepKey id)
    unfold KeyPoolState.keepKey
    obtain ⟨hI₁, hfree⟩ := hI.release id
    by_cases hid : (s.holders id).nIndex ≠ -1
    · obtain ⟨hpos, hnot, hsome, hrec⟩ := hI.held id hid
      obtain ⟨k, hk⟩ := Option.isSome_iff_exists.1 hsome
      rw [hk] at hrec
      simp only [if_pos hid, hk]
      exact hI₁.take hrec (fun a => hfree a hid) s.setKeyPool
        (by rw [Finset.erase_eq_of_notMem hnot])
    · simp only [if_neg hid]
      exact hI₁
  | returnKey id =>
    show PoolInv E (s.returnKey id)
    unfold KeyPoolState.returnKey
    obtain ⟨hI₁, hfree⟩ := hI.release id
    by_cases hid : (s.holders id).nIndex ≠ -1
    · obtain ⟨hpos, hnot, hsome, hrec⟩ := hI.held id hid
      simp only [if_pos hid]
      exact hI₁.putBack hpos (by rw [← hrec] at hsome; exact hsome) fun a => hfree a hid
    · simp only [if_neg hid]
      exact hI₁
  | lock => exact ⟨hI.free, hI.held, hI.apart, hI.record, hI.distinct, hI.generated, hI.kept,
      hI.kept_nodup, hI.thrown⟩
  | unlock => exact ⟨hI.free, hI.held, hI.apart, hI.record, hI.distinct, hI.generated, hI.kept,
      hI.kept_nodup, hI.thrown⟩

/-- **Keys are handed out once.**  In every run from an empty pool in which no step writes a new
key over the index of a reserved one. -/
theorem keys_handed_out_once (E : KeyPoolEnv K) (ops : List KeyPoolOp)
    (h : Run.AlongFold (keyPoolStep E) (NoClash E) {} ops) :
    HandedOutOnce (ops.foldl (keyPoolStep E) {}) := by
  have hstart : PoolInv E ({} : KeyPoolState K) := by
    constructor <;> simp
  exact (Run.foldl_invariant (fun s op hI hop => hI.step hop) hstart h).handedOutOnce

/-- A wallet with `-keypool=0`, whose pool holds one key at a time. -/
def tinyPool : KeyPoolEnv ℕ where
  keypool := 0
  generateNewKey := id
  generateNewKey_injective := Function.injective_id

/-- A wallet with `-keypool=2`. -/
def smallPool : KeyPoolEnv ℕ := { tinyPool with keypool := 2 }

/-- Two keys are reserved and one of them is kept: the new key of the second reservation goes to an
index above the first. -/
theorem keys_handed_out_once_small : HandedOutOnce
    ([.getReservedKey 0, .getReservedKey 1, .keepKey 0].foldl (keyPoolStep smallPool) {}) := by
  refine keys_handed_out_once smallPool _
    ⟨fun id hid => absurd rfl hid, fun id _ hw => ?_, fun id _ hw => hw, trivial⟩
  have hend : nEnd (keyPoolStep smallPool {} (.getReservedKey 0)).setKeyPool = 4 := by
    decide
  have hidx : ((keyPoolStep smallPool {} (.getReservedKey 0)).holders id).nIndex ≤ 1 := by
    by_cases hid : id = 0
    · subst hid
      decide
    · show (Function.update (fun _ => ({} : CReserveKey ℕ)) 0 _ id).nIndex ≤ 1
      rw [Function.update_of_ne hid]
      decide
  have hle := hw.2.2.1
  rw [hend] at hle
  omega

/-- **Two objects hold one key, and a record is missing.**  With one key in the pool, the second
reservation empties the set again and takes index 1 for its new key.  If the first object gives its
index back, the third reservation reads the key of the second; if it keeps its key, the record of
the second is gone, and once that is given back the next reservation throws. -/
theorem key_pool_reuses_index :
    let s := [.getReservedKey 0, .getReservedKey 1, .returnKey 0, .getReservedKey 2].foldl
      (keyPoolStep tinyPool) {}
    let s' := [.getReservedKey 0, .getReservedKey 1, .keepKey 0, .returnKey 1].foldl
      (keyPoolStep tinyPool) {}
    ((s.holders 1).vchPubKey = some 1 ∧ (s.holders 2).vchPubKey = some 1) ∧
      1 ∈ s'.setKeyPool ∧ s'.pool.lookup 1 = none ∧
      (keyPoolStep tinyPool s' (.getReservedKey 2)).thrown =
        ["ReserveKeyFromKeyPool() : read failed"] := by
  decide

end Runs

end FairCoin
