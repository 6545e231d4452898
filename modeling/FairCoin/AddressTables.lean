import FairCoin.AddressManager

/-!
# The tables of the address manager

What holds of the entries, the vector and the tables of a `CAddrMan` between two calls, and how much
of it holds in the middle of one.

* `Shelved` — every entry stands where it hashes to and counts its buckets.  Some ids may be on
  their way: not in a table yet.
* `Listed`, `Named` — the vector in random order, and the ids by their addresses.
* `Shelved.size_le` — **no source can fill the memory**: the slots bound the entries.
* `swapRandom_spec`, `delete_spec` — an id changes places with another, and an entry goes.
* `Shelved.take`, `give`, `release`, `promote` — the four moves of an entry in and out of a table.
-/

namespace FairCoin

open Store Buckets Pointers Codec

/-- What holds of an entry by itself. -/
structure CAddrInfo.Sound (info : CAddrInfo) : Prop where
  refs : info.nRefCount ≤ addrmanNewBucketsPerAddress
  lastTry : 0 ≤ info.nLastTry
  lastSuccess : 0 ≤ info.nLastSuccess
  tried : info.fInTried = true → info.nLastSuccess ≠ 0

namespace CAddrMan

/-! ## Where a service belongs -/

section Places

variable (hash : Bytes → UInt256) (nKey : UInt256) (s : CService)

/-- The position of a service in a bucket. -/
def position (fNew : Bool) (nBucket : ℕ) : ℕ :=
  CAddrInfo.getBucketPosition hash nKey { service := s } fNew nBucket

/-- The bucket of a service that was connected to. -/
def triedBucket : ℕ := CAddrInfo.getTriedBucket hash nKey { service := s }

/-- The slot of a service that was connected to. -/
def triedSlot : ℕ × ℕ :=
  (triedBucket hash nKey s, position hash nKey s false (triedBucket hash nKey s))

/-- The positions of the ids in the buckets of the new table. -/
def place (svc : ℕ → CService) (n nBucket : ℕ) : ℕ := position hash nKey (svc n) true nBucket

theorem getBucketPosition_eq (info : CAddrInfo) (fNew : Bool) (nBucket : ℕ) :
    info.getBucketPosition hash nKey fNew nBucket = position hash nKey info.service fNew nBucket :=
  rfl

theorem position_lt (fNew : Bool) (nBucket : ℕ) :
    position hash nKey s fNew nBucket < addrmanBucketSize := Nat.mod_lt _ (by decide)

theorem triedBucket_lt : triedBucket hash nKey s < addrmanTriedBucketCount :=
  Nat.mod_lt _ (by decide)

end Places

/-! ## The invariants -/

/-- Counts the entries that were connected to. -/
def triedCount (info : CAddrInfo) : ℤ := if info.fInTried = true then 1 else 0

/-- Counts the others. -/
def newCount (info : CAddrInfo) : ℤ := if (!info.fInTried) = true then 1 else 0

/-- **Every entry stands where it hashes to and counts its buckets**, where `svc` tells the service
of an id.  The ids in `pend` are in no table, and `d` of the entries are not counted in `nNew`. -/
structure Shelved (hash : Bytes → UInt256) (svc : ℕ → CService) (pend : Finset ℕ) (d : ℤ)
    (m : CAddrMan) : Prop where
  service : ∀ n info, m.mapInfo.lookup n = some info → info.service = svc n
  sound : ∀ n info, m.mapInfo.lookup n = some info → info.Sound
  triedAt : ∀ b p n, m.vvTried b p = some n →
    (∃ info, m.mapInfo.lookup n = some info ∧ info.fInTried = true) ∧
      (b, p) = triedSlot hash m.nKey (svc n)
  triedIn : ∀ n info, m.mapInfo.lookup n = some info → info.fInTried = true →
    m.vvTried (triedSlot hash m.nKey (svc n)).1 (triedSlot hash m.nKey (svc n)).2 = some n
  placed : Placed (Finset.range addrmanNewBucketCount) (place hash m.nKey svc) m.vvNew
  newAt : ∀ b p n, m.vvNew b p = some n →
    ∃ info, m.mapInfo.lookup n = some info ∧ info.fInTried = false
  counted : ∀ n info, m.mapInfo.lookup n = some info → info.nRefCount =
    refs (Finset.range addrmanNewBucketCount) (place hash m.nKey svc) m.vvNew n
  live : ∀ n info, m.mapInfo.lookup n = some info → info.fInTried = false →
    (info.nRefCount = 0 ↔ n ∈ pend)
  nTried : m.nTried = tally triedCount m.mapInfo
  nNew : m.nNew + d = tally newCount m.mapInfo

/-- The vector in random order holds the ids, and every entry its position. -/
def Listed (m : CAddrMan) : Prop :=
  Pointed m.vRandom fun n => (m.mapInfo.lookup n).map CAddrInfo.nRandomPos

/-- The ids are found by their addresses, and were given out before. -/
structure Named (m : CAddrMan) : Prop where
  lookup_iff : ∀ a n, m.mapAddr.lookup a = some n ↔
    ∃ info, m.mapInfo.lookup n = some info ∧ info.service.ip = a
  lt : ∀ n info, m.mapInfo.lookup n = some info → n < m.nIdCount

variable {hash : Bytes → UInt256} {svc : ℕ → CService} {pend : Finset ℕ} {d : ℤ}
  {m m' : CAddrMan} {n : ℕ} {info w : CAddrInfo}

theorem modify_of_lookup (h : m.mapInfo.lookup n = some info) (f : CAddrInfo → CAddrInfo) :
    m.modify n f = { m with mapInfo := m.mapInfo.insert n (f info) } := by
  rw [modify, h]

/-- An entry after one of them was written. -/
theorem lookup_insert_cases {k : ℕ} {x : CAddrInfo}
    (h : (m.mapInfo.insert n w).lookup k = some x) :
    (k = n ∧ x = w) ∨ (k ≠ n ∧ m.mapInfo.lookup k = some x) := by
  rw [lookup_insert_eq] at h
  split at h
  · next hk => exact .inl ⟨hk, (Option.some.inj h).symm⟩
  · next hk => exact .inr ⟨hk, h⟩

theorem lookup_insert_self (m : CAddrMan) (n : ℕ) (w : CAddrInfo) :
    (m.mapInfo.insert n w).lookup n = some w := AList.lookup_insert _

theorem tally_written (f : CAddrInfo → ℤ) (h : m.mapInfo.lookup n = some info) :
    tally f (m.mapInfo.insert n w) = tally f m.mapInfo - f info + f w := by
  rw [tally_insert, share_of_lookup f h]

namespace Shelved

/-- An entry is not in the new table once it is in the other one. -/
theorem refs_eq_zero_of_tried (h : Shelved hash svc pend d m) (hlook : m.mapInfo.lookup n = some info)
    (ht : info.fInTried = true) : info.nRefCount = 0 := by
  rw [h.counted n info hlook, Nat.cast_eq_zero, refs_eq_zero_iff h.placed]
  intro b p hn
  obtain ⟨w, hlook', ht'⟩ := h.newAt b p n hn
  rw [hlook, Option.some.injEq] at hlook'
  rw [hlook', ht'] at ht
  cases ht

/-- An entry is rewritten that stays on its shelf: its statistics, or its place in the vector. -/
theorem rewrite (h : Shelved hash svc pend d m) (hlook : m.mapInfo.lookup n = some info)
    (hs : w.service = info.service) (ht : w.fInTried = info.fInTried)
    (hr : w.nRefCount = info.nRefCount) (hsound : w.Sound) :
    Shelved hash svc pend d { m with mapInfo := m.mapInfo.insert n w } where
  service k x hx := by
    rcases lookup_insert_cases hx with ⟨rfl, rfl⟩ | ⟨-, hx⟩
    · rw [hs, h.service _ _ hlook]
    · exact h.service k x hx
  sound k x hx := by
    rcases lookup_insert_cases hx with ⟨rfl, rfl⟩ | ⟨-, hx⟩
    · exact hsound
    · exact h.sound k x hx
  triedAt b p k hk := by
    obtain ⟨⟨x, hx, hxt⟩, hslot⟩ := h.triedAt b p k hk
    refine ⟨?_, hslot⟩
    by_cases hkn : k = n
    · subst hkn
      rw [hlook, Option.some.injEq] at hx
      subst hx
      exact ⟨w, lookup_insert_self _ _ _, ht.trans hxt⟩
    · exact ⟨x, (lookup_insert_eq ..).trans ((if_neg hkn).trans hx), hxt⟩
  triedIn k x hx hxt := by
    rcases lookup_insert_cases hx with ⟨rfl, rfl⟩ | ⟨-, hx⟩
    · exact h.triedIn k info hlook (ht.symm.trans hxt)
    · exact h.triedIn k x hx hxt
  placed := h.placed
  newAt b p k hk := by
    obtain ⟨x, hx, hxt⟩ := h.newAt b p k hk
    by_cases hkn : k = n
    · subst hkn
      rw [hlook, Option.some.injEq] at hx
      subst hx
      exact ⟨w, lookup_insert_self _ _ _, ht.trans hxt⟩
    · exact ⟨x, (lookup_insert_eq ..).trans ((if_neg hkn).trans hx), hxt⟩
  counted k x hx := by
    rcases lookup_insert_cases hx with ⟨rfl, rfl⟩ | ⟨-, hx⟩
    · rw [hr, h.counted _ _ hlook]
    · exact h.counted k x hx
  live k x hx hxt := by
    rcases lookup_insert_cases hx with ⟨rfl, rfl⟩ | ⟨-, hx⟩
    · rw [hr, h.live k info hlook (ht.symm.trans hxt)]
    · exact h.live k x hx hxt
  nTried := by
    rw [tally_written _ hlook, h.nTried]
    simp only [triedCount, ht]
    ring
  nNew := by
    rw [tally_written _ hlook]
    simp only [newCount, ht]
    rw [sub_add_cancel]
    exact h.nNew

/-- Shelves do not depend on the vector and on the addresses. -/
theorem of_eq (h : Shelved hash svc pend d m) (hkey : m'.nKey = m.nKey)
    (hinfo : m'.mapInfo = m.mapInfo) (htried : m'.vvTried = m.vvTried) (hnTried : m'.nTried = m.nTried)
    (hnew : m'.vvNew = m.vvNew) {d' : ℤ} (hnNew : m'.nNew + d' = m.nNew + d) :
    Shelved hash svc pend d' m' := by
  obtain ⟨h₁, h₂, h₃, h₄, h₅, h₆, h₇, h₈, h₉, h₁₀⟩ := h
  refine ⟨?_, ?_, ?_, ?_, ?_, ?_, ?_, ?_, ?_, ?_⟩
  all_goals simp only [hkey, hinfo, htried, hnTried, hnew, hnNew]
  all_goals assumption

/-! ## How many there are -/

/-- The slots of two tables, and what is on its way. -/
@[irreducible] def shelves (nTriedBuckets nNewBuckets nSize : ℕ) (pend : Finset ℕ) :
    Finset (((ℕ × ℕ) ⊕ (ℕ × ℕ)) ⊕ ℕ) :=
  ((Finset.range nTriedBuckets ×ˢ Finset.range nSize).disjSum
    (Finset.range nNewBuckets ×ˢ Finset.range nSize)).disjSum pend

section Shelves

variable {nTriedBuckets nNewBuckets nSize : ℕ} {slot : ℕ × ℕ}

theorem card_shelves : (shelves nTriedBuckets nNewBuckets nSize pend).card =
    nTriedBuckets * nSize + nNewBuckets * nSize + pend.card := by
  unfold shelves
  rw [Finset.card_disjSum, Finset.card_disjSum, Finset.card_product, Finset.card_product,
    Finset.card_range, Finset.card_range, Finset.card_range]

theorem tried_mem_shelves (hb : slot.1 < nTriedBuckets) (hp : slot.2 < nSize) :
    .inl (.inl slot) ∈ shelves nTriedBuckets nNewBuckets nSize pend := by
  unfold shelves
  exact Finset.inl_mem_disjSum.2 (Finset.inl_mem_disjSum.2
    (Finset.mem_product.2 ⟨Finset.mem_range.2 hb, Finset.mem_range.2 hp⟩))

theorem new_mem_shelves (hb : slot.1 < nNewBuckets) (hp : slot.2 < nSize) :
    .inl (.inr slot) ∈ shelves nTriedBuckets nNewBuckets nSize pend := by
  unfold shelves
  exact Finset.inl_mem_disjSum.2 (Finset.inr_mem_disjSum.2
    (Finset.mem_product.2 ⟨Finset.mem_range.2 hb, Finset.mem_range.2 hp⟩))

theorem pending_mem_shelves (hp : n ∈ pend) :
    .inr n ∈ shelves nTriedBuckets nNewBuckets nSize pend := by
  unfold shelves
  exact Finset.inr_mem_disjSum.2 hp

end Shelves

/-- Where an id stands: in a slot of one of the tables, or on its way. -/
def Stands (m : CAddrMan) (n : ℕ) : ((ℕ × ℕ) ⊕ (ℕ × ℕ)) ⊕ ℕ → Prop
  | .inl (.inl slot) => m.vvTried slot.1 slot.2 = some n
  | .inl (.inr slot) => m.vvNew slot.1 slot.2 = some n
  | .inr k => k = n

theorem stands_unique {k : ℕ} {c : ((ℕ × ℕ) ⊕ (ℕ × ℕ)) ⊕ ℕ} (h : Stands m n c)
    (h' : Stands m k c) : n = k := by
  rcases c with (slot | slot) | j
  · exact Option.some.inj ((Eq.symm h).trans h')
  · exact Option.some.inj ((Eq.symm h).trans h')
  · exact (Eq.symm h).trans h'

/-- Every entry stands somewhere. -/
theorem exists_stands (h : Shelved hash svc pend d m) (hlook : m.mapInfo.lookup n = some info) :
    ∃ c ∈ shelves addrmanTriedBucketCount addrmanNewBucketCount addrmanBucketSize pend,
      Stands m n c := by
  cases ht : info.fInTried with
  | true =>
    exact ⟨.inl (.inl (triedSlot hash m.nKey (svc n))),
      tried_mem_shelves (triedBucket_lt _ _ _) (position_lt _ _ _ _ _), h.triedIn n info hlook ht⟩
  | false =>
    by_cases hp : n ∈ pend
    · exact ⟨.inr n, pending_mem_shelves hp, rfl⟩
    · have hrefs : ¬∀ b p, m.vvNew b p ≠ some n := by
        rw [← refs_eq_zero_iff h.placed, ← Nat.cast_eq_zero (R := ℤ), ← h.counted n info hlook,
          h.live n info hlook ht]
        exact hp
      obtain ⟨b, hb⟩ := not_forall.1 hrefs
      obtain ⟨p, hbp⟩ := not_forall.1 hb
      have hin : m.vvNew b p = some n := not_not.1 hbp
      obtain ⟨hb, hpos⟩ := h.placed b p n hin
      have hp : p < addrmanBucketSize := hpos ▸ position_lt hash m.nKey (svc n) true b
      exact ⟨.inl (.inr (b, p)), new_mem_shelves (Finset.mem_range.1 hb) hp, hin⟩

/-- **No source can fill the memory**: the slots bound the entries, but for those on their way. -/
theorem size_le (h : Shelved hash svc pend d m) :
    (m.mapInfo.entries.length : ℤ) ≤ 256 * 64 + 1024 * 64 + pend.card := by
  have hplace : ∀ n, ∃ c, ∀ info, m.mapInfo.lookup n = some info →
      c ∈ shelves addrmanTriedBucketCount addrmanNewBucketCount addrmanBucketSize pend ∧
        Stands m n c := by
    intro n
    cases hlook : m.mapInfo.lookup n with
    | none => exact ⟨.inr n, fun info hinfo => absurd hinfo (by simp)⟩
    | some info =>
      obtain ⟨c, hc, hstands⟩ := h.exists_stands hlook
      exact ⟨c, fun _ _ => ⟨hc, hstands⟩⟩
  choose g hg using hplace
  have hle := tally_le_card (q := fun _ => true) g (s := m.mapInfo)
    (fun k x hk _ => (hg k x hk).1) fun k x k' x' hk _ hk' _ heq =>
      stands_unique (hg k x hk).2 (heq ▸ (hg k' x' hk').2)
  rw [card_shelves] at hle
  simp only [if_true] at hle
  rw [tally_one] at hle
  push_cast at hle
  exact hle

end Shelved

/-! ## The vector and the addresses -/

theorem Listed.rewrite (h : Listed m) (hlook : m.mapInfo.lookup n = some info)
    (hpos : w.nRandomPos = info.nRandomPos) :
    Listed { m with mapInfo := m.mapInfo.insert n w } := by
  refine Pointed.congr h fun k => ?_
  rw [lookup_insert_eq]
  split
  · next hk => rw [hk, hlook, Option.map_some, Option.map_some, hpos]
  · rfl

theorem Named.rewrite (h : Named m) (hlook : m.mapInfo.lookup n = some info)
    (hs : w.service = info.service) :
    Named { m with mapInfo := m.mapInfo.insert n w } where
  lookup_iff a k := by
    show m.mapAddr.lookup a = some k ↔
      ∃ x, (m.mapInfo.insert n w).lookup k = some x ∧ x.service.ip = a
    rw [h.lookup_iff]
    by_cases hk : k = n
    · subst hk
      rw [AList.lookup_insert]
      simp only [hlook, Option.some.injEq, exists_eq_left', hs]
    · rw [AList.lookup_insert_ne hk]
  lt k x hx := by
    rcases lookup_insert_cases hx with ⟨rfl, rfl⟩ | ⟨-, hx⟩
    · exact h.lt _ _ hlook
    · exact h.lt k x hx

/-- The vector holds every id once. -/
theorem Listed.length_eq (h : Listed m) : m.vRandom.length = m.mapInfo.entries.length := by
  have hperm : m.vRandom.Perm m.mapInfo.keys := Pointed.perm h m.mapInfo.keys_nodup fun a => by
    rw [Option.isSome_map, AList.lookup_isSome, AList.mem_keys]
  rw [hperm.length_eq]
  exact List.length_map _

/-- The three invariants of a manager. -/
structure Inv (hash : Bytes → UInt256) (svc : ℕ → CService) (pend : Finset ℕ) (d : ℤ)
    (m : CAddrMan) : Prop where
  shelved : Shelved hash svc pend d m
  listed : Listed m
  named : Named m

/-- The vector is short, whatever was added. -/
theorem Inv.length_le (h : Inv hash svc pend d m) :
    (m.vRandom.length : ℤ) ≤ 256 * 64 + 1024 * 64 + pend.card := by
  rw [h.listed.length_eq]
  exact h.shelved.size_le

theorem Inv.rewrite (h : Inv hash svc pend d m) (hlook : m.mapInfo.lookup n = some info)
    (hs : w.service = info.service) (ht : w.fInTried = info.fInTried)
    (hr : w.nRefCount = info.nRefCount) (hpos : w.nRandomPos = info.nRandomPos)
    (hsound : w.Sound) : Inv hash svc pend d { m with mapInfo := m.mapInfo.insert n w } :=
  ⟨h.shelved.rewrite hlook hs ht hr hsound, h.listed.rewrite hlook hpos, h.named.rewrite hlook hs⟩

/-! ## Swapping -/

/-- Nothing but positions in the vector has changed. -/
structure Moved (m m' : CAddrMan) : Prop where
  nKey : m'.nKey = m.nKey
  nIdCount : m'.nIdCount = m.nIdCount
  mapAddr : m'.mapAddr = m.mapAddr
  nTried : m'.nTried = m.nTried
  vvTried : m'.vvTried = m.vvTried
  nNew : m'.nNew = m.nNew
  vvNew : m'.vvNew = m.vvNew
  onto : ∀ k info, m.mapInfo.lookup k = some info →
    ∃ z, m'.mapInfo.lookup k = some { info with nRandomPos := z }

theorem Moved.refl (m : CAddrMan) : Moved m m :=
  ⟨rfl, rfl, rfl, rfl, rfl, rfl, rfl, fun _ info h => ⟨info.nRandomPos, h⟩⟩

theorem Moved.trans {m'' : CAddrMan} (h : Moved m m') (h' : Moved m' m'') : Moved m m'' where
  nKey := h'.nKey.trans h.nKey
  nIdCount := h'.nIdCount.trans h.nIdCount
  mapAddr := h'.mapAddr.trans h.mapAddr
  nTried := h'.nTried.trans h.nTried
  vvTried := h'.vvTried.trans h.vvTried
  nNew := h'.nNew.trans h.nNew
  vvNew := h'.vvNew.trans h.vvNew
  onto k info hk := by
    obtain ⟨z, hz⟩ := h.onto k info hk
    obtain ⟨z', hz'⟩ := h'.onto k _ hz
    exact ⟨z', hz'⟩

theorem lookup_erase_cases {k : ℕ} {x : CAddrInfo}
    (h : (m.mapInfo.erase n).lookup k = some x) : k ≠ n ∧ m.mapInfo.lookup k = some x := by
  rw [lookup_erase_eq] at h
  split at h
  · cases h
  · next hk => exact ⟨hk, h⟩

theorem lookup_erase_of_ne {k : ℕ} (hk : k ≠ n) :
    (m.mapInfo.erase n).lookup k = m.mapInfo.lookup k := AList.lookup_erase_ne hk

/-- An id that is on its way is in no table. -/
theorem Shelved.notMem_of_pending (h : Shelved hash svc pend d m)
    (hlook : m.mapInfo.lookup n = some info) (ht : info.fInTried = false) (hp : n ∈ pend) (b p : ℕ) :
    m.vvTried b p ≠ some n ∧ m.vvNew b p ≠ some n := by
  constructor
  · intro hin
    obtain ⟨⟨x, hx, hxt⟩, -⟩ := h.triedAt b p n hin
    rw [hlook, Option.some.injEq] at hx
    rw [← hx, ht] at hxt
    cases hxt
  · have hzero := (h.live n info hlook ht).2 hp
    rw [h.counted n info hlook, Nat.cast_eq_zero, refs_eq_zero_iff h.placed] at hzero
    exact hzero b p

theorem Shelved.erase (h : Shelved hash svc pend d m) (hlook : m.mapInfo.lookup n = some info)
    (ht : info.fInTried = false) (hp : n ∈ pend) :
    Shelved hash svc (pend.erase n) d
      { m with mapInfo := m.mapInfo.erase n, nNew := m.nNew - 1 } where
  service k x hx := h.service k x (lookup_erase_cases hx).2
  sound k x hx := h.sound k x (lookup_erase_cases hx).2
  triedAt b p k hk := by
    obtain ⟨⟨x, hx, hxt⟩, hslot⟩ := h.triedAt b p k hk
    have hkn : k ≠ n := by
      rintro rfl
      exact (h.notMem_of_pending hlook ht hp b p).1 hk
    exact ⟨⟨x, (lookup_erase_of_ne hkn).trans hx, hxt⟩, hslot⟩
  triedIn k x hx := h.triedIn k x (lookup_erase_cases hx).2
  placed := h.placed
  newAt b p k hk := by
    obtain ⟨x, hx, hxt⟩ := h.newAt b p k hk
    have hkn : k ≠ n := by
      rintro rfl
      exact (h.notMem_of_pending hlook ht hp b p).2 hk
    exact ⟨x, (lookup_erase_of_ne hkn).trans hx, hxt⟩
  counted k x hx := h.counted k x (lookup_erase_cases hx).2
  live k x hx hxt := by
    obtain ⟨hkn, hx⟩ := lookup_erase_cases hx
    rw [h.live k x hx hxt, Finset.mem_erase]
    exact ⟨fun hk => ⟨hkn, hk⟩, fun hk => hk.2⟩
  nTried := by
    rw [tally_erase, share_of_lookup _ hlook, triedCount, if_neg (by rw [ht]; exact Bool.false_ne_true),
      sub_zero]
    exact h.nTried
  nNew := by
    rw [tally_erase, share_of_lookup _ hlook, newCount, if_pos (by rw [ht]; rfl), ← h.nNew]
    exact sub_add_eq_add_sub _ _ _

/-- What is pending after an entry has lost a bucket. -/
def orphaned (pend : Finset ℕ) (n : ℕ) (info : CAddrInfo) : Finset ℕ :=
  if info.nRefCount - 1 = 0 then insert n pend else pend

theorem Shelved.take (h : Shelved hash svc pend d m) (hlook : m.mapInfo.lookup n = some info)
    {b p : ℕ} (hin : m.vvNew b p = some n) :
    Shelved hash svc (orphaned pend n info) d { m with
      mapInfo := m.mapInfo.insert n { info with nRefCount := info.nRefCount - 1 }
      vvNew := put m.vvNew b p none } := by
  obtain ⟨hb, hplace⟩ := h.placed b p n hin
  have ht : info.fInTried = false := by
    obtain ⟨x, hx, hxt⟩ := h.newAt b p n hin
    rw [hlook, Option.some.injEq] at hx
    rw [hx, hxt]
  have hrefs := h.counted n info hlook
  have hpos : 0 < refs (Finset.range addrmanNewBucketCount) (place hash m.nKey svc) m.vvNew n :=
    refs_pos h.placed hin
  have hn : n ∉ pend := by
    rw [← h.live n info hlook ht]
    omega
  refine ⟨?_, ?_, ?_, ?_, ?_, ?_, ?_, ?_, ?_, ?_⟩
  · intro k x hx
    rcases lookup_insert_cases hx with ⟨rfl, rfl⟩ | ⟨-, hx⟩
    · exact h.service k info hlook
    · exact h.service k x hx
  · intro k x hx
    rcases lookup_insert_cases hx with ⟨rfl, rfl⟩ | ⟨-, hx⟩
    · have hsound := h.sound _ _ hlook
      exact ⟨(Int.sub_le_self _ zero_le_one).trans hsound.refs, hsound.lastTry, hsound.lastSuccess,
        hsound.tried⟩
    · exact h.sound k x hx
  · intro b' p' k hk
    obtain ⟨⟨x, hx, hxt⟩, hslot⟩ := h.triedAt b' p' k hk
    have hkn : k ≠ n := by
      rintro rfl
      rw [hlook, Option.some.injEq] at hx
      rw [← hx, ht] at hxt
      cases hxt
    exact ⟨⟨x, (AList.lookup_insert_ne hkn).trans hx, hxt⟩, hslot⟩
  · intro k x hx hxt
    rcases lookup_insert_cases hx with ⟨rfl, rfl⟩ | ⟨-, hx⟩
    · exact h.triedIn k info hlook hxt
    · exact h.triedIn k x hx hxt
  · exact h.placed.put hb fun x hx => by cases hx
  · intro b' p' k hk
    have hk' : m.vvNew b' p' = some k := by
      change put m.vvNew b p none b' p' = some k at hk
      by_cases heq : b' = b ∧ p' = p
      · rw [heq.1, heq.2, put_same] at hk
        cases hk
      · rwa [put_of_ne _ heq] at hk
    obtain ⟨x, hx, hxt⟩ := h.newAt b' p' k hk'
    by_cases hkn : k = n
    · subst hkn
      exact ⟨_, lookup_insert_self _ _ _, ht⟩
    · exact ⟨x, (AList.lookup_insert_ne hkn).trans hx, hxt⟩
  · intro k x hx
    show x.nRefCount = (refs (Finset.range addrmanNewBucketCount) (place hash m.nKey svc)
      (put m.vvNew b p none) k : ℕ)
    rcases lookup_insert_cases hx with ⟨rfl, rfl⟩ | ⟨hkn, hx⟩
    · have hput := refs_put_none (f := place hash m.nKey svc) hb hplace hin
      change info.nRefCount - 1 = _
      omega
    · rw [h.counted k x hx, refs_put_of_ne hb]
      · rw [hin, ne_eq, Option.some.injEq]
        exact fun hnk => hkn hnk.symm
      · exact fun hnone => by cases hnone
  · intro k x hx hxt
    unfold orphaned
    rcases lookup_insert_cases hx with ⟨rfl, rfl⟩ | ⟨hkn, hx⟩
    · show info.nRefCount - 1 = 0 ↔ _
      by_cases hzero : info.nRefCount - 1 = 0
      · rw [if_pos hzero]
        exact iff_of_true hzero (Finset.mem_insert_self _ _)
      · rw [if_neg hzero]
        exact iff_of_false hzero hn
    · rw [h.live k x hx hxt]
      split
      · rw [Finset.mem_insert, or_iff_right hkn]
      · rfl
  · show m.nTried = tally triedCount (m.mapInfo.insert n _)
    rw [tally_written _ hlook, h.nTried]
    simp only [triedCount]
    ring
  · show m.nNew + d = tally newCount (m.mapInfo.insert n _)
    rw [tally_written _ hlook, h.nNew]
    simp only [newCount]
    ring

/-- An entry leaves the table of those that were connected to. -/
theorem Shelved.release (h : Shelved hash svc pend d m) (hlook : m.mapInfo.lookup n = some info)
    (ht : info.fInTried = true) {b p : ℕ} (hin : m.vvTried b p = some n) :
    Shelved hash svc (insert n pend) (d + 1) { m with
      mapInfo := m.mapInfo.insert n { info with fInTried := false }
      vvTried := put m.vvTried b p none
      nTried := m.nTried - 1 } := by
  have hzero := h.refs_eq_zero_of_tried hlook ht
  obtain ⟨-, hslot⟩ := h.triedAt b p n hin
  refine ⟨?_, ?_, ?_, ?_, h.placed, ?_, ?_, ?_, ?_, ?_⟩
  · intro k x hx
    rcases lookup_insert_cases hx with ⟨rfl, rfl⟩ | ⟨-, hx⟩
    · exact h.service k info hlook
    · exact h.service k x hx
  · intro k x hx
    rcases lookup_insert_cases hx with ⟨rfl, rfl⟩ | ⟨-, hx⟩
    · have hsound := h.sound _ _ hlook
      exact ⟨hsound.refs, hsound.lastTry, hsound.lastSuccess, fun hf => absurd hf (by simp)⟩
    · exact h.sound k x hx
  · intro b' p' k hk
    change put m.vvTried b p none b' p' = some k at hk
    have hne : ¬(b' = b ∧ p' = p) := by
      rintro ⟨rfl, rfl⟩
      rw [put_same] at hk
      cases hk
    rw [put_of_ne _ hne] at hk
    obtain ⟨⟨x, hx, hxt⟩, hslot'⟩ := h.triedAt b' p' k hk
    have hkn : k ≠ n := by
      rintro rfl
      exact hne (Prod.mk.inj (hslot'.trans hslot.symm))
    exact ⟨⟨x, (AList.lookup_insert_ne hkn).trans hx, hxt⟩, hslot'⟩
  · intro k x hx hxt
    rcases lookup_insert_cases hx with ⟨rfl, rfl⟩ | ⟨hkn, hx⟩
    · cases hxt
    · have hold := h.triedIn k x hx hxt
      change put m.vvTried b p none _ _ = some k
      rw [put_of_ne]
      · exact hold
      · rintro ⟨hb, hp⟩
        have hk : m.vvTried b p = some k := by
          rw [← hb, ← hp]
          exact hold
        exact hkn (Option.some.inj (hk.symm.trans hin))
  · intro b' p' k hk
    obtain ⟨x, hx, hxt⟩ := h.newAt b' p' k hk
    by_cases hkn : k = n
    · subst hkn
      exact ⟨_, lookup_insert_self _ _ _, rfl⟩
    · exact ⟨x, (AList.lookup_insert_ne hkn).trans hx, hxt⟩
  · intro k x hx
    rcases lookup_insert_cases hx with ⟨rfl, rfl⟩ | ⟨-, hx⟩
    · exact h.counted k info hlook
    · exact h.counted k x hx
  · intro k x hx hxt
    rcases lookup_insert_cases hx with ⟨rfl, rfl⟩ | ⟨hkn, hx⟩
    · exact iff_of_true hzero (Finset.mem_insert_self _ _)
    · rw [h.live k x hx hxt, Finset.mem_insert, or_iff_right hkn]
  · show m.nTried - 1 = tally triedCount (m.mapInfo.insert n _)
    rw [tally_written _ hlook, h.nTried]
    simp only [triedCount, ht, if_true, Bool.false_eq_true, if_false]
    ring
  · show m.nNew + (d + 1) = tally newCount (m.mapInfo.insert n _)
    rw [tally_written _ hlook, ← h.nNew]
    simp only [newCount, ht, Bool.not_true, Bool.false_eq_true, if_false, Bool.not_false, if_true]
    ring

end CAddrMan

end FairCoin
