import FairCoin.AddressQueries

/-!
# Scans of an address index

`ReadAddressUnspentIndex` and `ReadAddressIndex` of `src/txdb.cpp`, for one address and a range of
heights.  A scan seeks to the first key of the range and goes on while the hash is that of the address
and the end of the range is not passed.

* `walk_range` — **a scan of a range** meets the entries of the address from the seek to the end, and
  goes on behind them if it did not stop before.
* `scans_iff` — **when the scans are exact**: the first key behind the range is not of the same hash
  under the other type, and no start is given without an end.
-/

namespace FairCoin

open Store

/-- A range of heights of `ReadAddressIndex`; a bound that is not positive is no bound. -/
structure ScanRange where
  start : ℤ
  stop : ℤ
  start_fits : start < 2 ^ 31

namespace ScanRange

/-- The height is in the range. -/
def Covers (r : ScanRange) (height : ℤ) : Prop :=
  (0 < r.start → r.start ≤ height) ∧ (0 < r.stop → height ≤ r.stop)

instance (r : ScanRange) (height : ℤ) : Decidable (r.Covers height) :=
  inferInstanceAs (Decidable (_ ∧ _))

/-- The seek of the scan is behind the height. -/
def Skips (r : ScanRange) (height : ℤ) : Prop := (0 < r.start ∧ 0 < r.stop) ∧ height < r.start

instance (r : ScanRange) (height : ℤ) : Decidable (r.Skips height) :=
  inferInstanceAs (Decidable (_ ∧ _))

/-- The scan stops at the height. -/
def Stops (r : ScanRange) (height : ℤ) : Prop := 0 < r.stop ∧ r.stop < height

instance (r : ScanRange) (height : ℤ) : Decidable (r.Stops height) :=
  inferInstanceAs (Decidable (_ ∧ _))

theorem Skips.mono {r : ScanRange} {h h' : ℤ} (hle : h ≤ h') (hskips : r.Skips h') : r.Skips h :=
  ⟨hskips.1, hle.trans_lt hskips.2⟩

theorem Stops.mono {r : ScanRange} {h h' : ℤ} (hle : h ≤ h') (hstops : r.Stops h) : r.Stops h' :=
  ⟨hstops.1, hstops.2.trans_le hle⟩

/-- With an end, what is neither skipped nor stopped at is the range. -/
theorem covers_iff {r : ScanRange} (hstop : 0 < r.stop) (height : ℤ) :
    r.Covers height ↔ ¬ r.Skips height ∧ ¬ r.Stops height := by
  unfold Covers Skips Stops
  omega

end ScanRange

namespace AddressKeys

variable {K V : Type} [DecidableEq K] {ks : AddressKeys K} {m : Map K V}

/-- The entries behind those of an address. -/
def behind (ks : AddressKeys K) (m : Map K V) (a : IndexAddress) : List (K × V) :=
  (ks.entries m).filter fun e => decide (addressPlace a.type a.hashBytes <
    addressPlace (ks.type e.1) (ks.hashBytes e.1))

/-- From an address on there are its entries and those behind it. -/
theorem entries_from (hfits : ∀ e ∈ ks.entries m, ks.type e.1 < 256) (a : IndexAddress) :
    (ks.entries m).filter (fun e => !decide (addressPlace (ks.type e.1) (ks.hashBytes e.1) <
      addressPlace a.type a.hashBytes)) = ks.own m a ++ ks.behind m a := by
  have htype : a.type < 256 := by
    have := a.type_valid
    omega
  have hown : ks.own m a = (ks.entries m).filter fun e => decide
      (addressPlace (ks.type e.1) (ks.hashBytes e.1) = addressPlace a.type a.hashBytes) := by
    apply List.filter_congr
    intro e he
    rw [decide_eq_decide, addressPlace_inj (hfits e he) htype]
  rw [ByteOrder.filter_not_lt (entries_sorted ks m), hown]
  rfl

end AddressKeys

namespace IndexContent

variable {c : IndexContent} {a : IndexAddress} {r : ScanRange}

/-- The deltas behind those of an address. -/
def behindDeltas (c : IndexContent) (a : IndexAddress) : List (CAddressIndexKey × ℤ) :=
  addressIndexKeys.behind c.db.addressIndex a

/-- The deltas of an address. -/
def ownDeltas (c : IndexContent) (a : IndexAddress) : List (CAddressIndexKey × ℤ) :=
  addressIndexKeys.own c.db.addressIndex a

/-- The unspent outputs of an address. -/
def ownUnspent (c : IndexContent) (a : IndexAddress) :
    List (CAddressUnspentKey × CAddressUnspentValue) :=
  addressUnspentKeys.own c.db.addressUnspentIndex a

/-- **The scans are exact**: the unspent outputs of the address, and its deltas in the range, in the
order of the keys. -/
structure ScansExactly (c : IndexContent) (a : IndexAddress) (r : ScanRange) : Prop where
  unspent : c.db.readAddressUnspentIndex a = c.ownUnspent a
  deltas : c.db.readAddressIndex a r.start r.stop =
    (c.ownDeltas a).filter fun e => decide (r.Covers e.1.blockHeight)

/-- **The scan runs past its range**: no delta of the address is behind the end, and the first delta
behind the address has its hash and is not behind the end either. -/
def RunsPast (c : IndexContent) (a : IndexAddress) (r : ScanRange) : Prop :=
  (∀ e ∈ c.ownDeltas a, r.Stops e.1.blockHeight → r.Skips e.1.blockHeight) ∧
    ∃ e, (c.behindDeltas a).head? = some e ∧ e.1.hashBytes = a.hashBytes ∧
      ¬ r.Stops e.1.blockHeight

/-- **A scan that is exact**: what is behind the address, or behind the range, has another hash, and a
start without an end leaves nothing out. -/
structure Scannable (c : IndexContent) (a : IndexAddress) (r : ScanRange) : Prop where
  unspent : ¬ addressUnspentKeys.RunsOn c.db.addressUnspentIndex a
  deltas : ¬ c.RunsPast a r
  start : 0 < r.start → r.stop ≤ 0 → ∀ e ∈ c.ownDeltas a, r.start ≤ e.1.blockHeight

/-! ## The seek -/

theorem toNat_ofInt_height {n : ℤ} (hn : 0 ≤ n) (hn' : n < 2 ^ 31) :
    (BitVec.ofInt 32 n).toNat = n.toNat := by
  rw [BitVec.toNat_ofInt]
  omega

/-- **The seek of a range** is behind the keys of smaller addresses, and behind the smaller heights of
its own. -/
theorem lt_seek_height {key : CAddressIndexKey} (hfits : key.type < 256 ∧ 0 ≤ key.blockHeight ∧
    key.blockHeight < 2 ^ 31) (hstart : 0 < r.start) :
    ByteOrder.lt (addressIndexKeys.bytes key)
        (addressIndexKeys.index :: (addressPrefix a.type a.hashBytes ++ putInt32BE r.start)) =
      decide (AddressKeys.addressPlace key.type key.hashBytes <
          AddressKeys.addressPlace a.type a.hashBytes ∨
        (key.type = a.type ∧ key.hashBytes = a.hashBytes) ∧ key.blockHeight < r.start) := by
  obtain ⟨htype, hlo, hhi⟩ := hfits
  have hatype : a.type < 256 := by
    have := a.type_valid
    omega
  have hheight : ByteOrder.lt (addressIndexKeys.place key) (putInt32BE r.start) = true ↔
      key.blockHeight < r.start := by
    have hnum : (BitVec.ofInt 32 key.blockHeight).toNat < (BitVec.ofInt 32 r.start).toNat ↔
        key.blockHeight < r.start := by
      rw [toNat_ofInt_height hlo hhi, toNat_ofInt_height hstart.le r.start_fits]
      omega
    have h := ByteOrder.lt_putBE_append (k := 4) (ByteOrder.putBE 4 key.txindex ++
      (Codec.putLE 32 key.txhash.toNat ++
        (Codec.putLE 4 key.index ++ [if key.spending then 1 else 0]))) []
      (BitVec.isLt (BitVec.ofInt 32 key.blockHeight)) (BitVec.isLt (BitVec.ofInt 32 r.start))
    rw [List.append_nil, ByteOrder.lt_nil, hnum] at h
    exact h.trans ⟨fun hcase => hcase.resolve_right fun hnil => (nomatch hnil.2), .inl⟩
  have h := ByteOrder.lt_append_of_length (addressIndexKeys.place key) (putInt32BE r.start)
    ((length_addressPrefix key.type key.hashBytes).trans
      (length_addressPrefix a.type a.hashBytes).symm)
  rw [hheight] at h
  rw [AddressKeys.bytes, lt_cons, Bool.eq_iff_iff, decide_eq_true_eq]
  refine h.trans (or_congr Iff.rfl (and_congr ⟨addressPrefix_injective htype hatype, ?_⟩ Iff.rfl))
  rintro ⟨h₁, h₂⟩
  rw [h₁, h₂]

/-- What the seek of a scan passes. -/
theorem lt_seek_iff {key : CAddressIndexKey} (hfits : key.type < 256 ∧ 0 ≤ key.blockHeight ∧
    key.blockHeight < 2 ^ 31) : ByteOrder.lt (addressIndexKeys.bytes key) (addressIndexKeys.index ::
        if 0 < r.start ∧ 0 < r.stop then addressPrefix a.type a.hashBytes ++ putInt32BE r.start
        else addressPrefix a.type a.hashBytes) = true ↔
      AddressKeys.addressPlace key.type key.hashBytes <
          AddressKeys.addressPlace a.type a.hashBytes ∨
        (key.type = a.type ∧ key.hashBytes = a.hashBytes) ∧ r.Skips key.blockHeight := by
  unfold ScanRange.Skips
  by_cases hboth : 0 < r.start ∧ 0 < r.stop
  · rw [if_pos hboth, lt_seek_height hfits hboth.1, decide_eq_true_eq]
    simp only [hboth, and_self, true_and]
  · rw [if_neg hboth, show addressIndexKeys.index = addressIndexKeys.index from rfl,
      AddressKeys.lt_seek, decide_eq_true_eq]
    exact ⟨.inl, fun h => h.resolve_right fun hown => hboth hown.2.1⟩

/-! ## What a scan meets -/

/-- The test that a scan goes on with. -/
def goesOn (a : IndexAddress) (r : ScanRange) (e : CAddressIndexKey × ℤ) : Bool :=
  decide (e.1.hashBytes = a.hashBytes) && !decide (r.Stops e.1.blockHeight)

/-- The deltas of an address that the seek does not pass, and those behind the address. -/
theorem readAddressIndex_eq (c : IndexContent) (a : IndexAddress) (r : ScanRange) :
    c.db.readAddressIndex a r.start r.stop =
      (((c.ownDeltas a).filter fun e => !decide (r.Skips e.1.blockHeight)) ++
        c.behindDeltas a).takeWhile (goesOn a r) := by
  have hfits := c.deltas_fit
  have hsorted := AddressKeys.entries_keyLe addressIndexKeys c.db.addressIndex
  have hfrom := AddressKeys.entries_from (fun e he => (hfits e he).1) a
  unfold CBlockTreeDB.readAddressIndex AddressKeys.walk
  rw [ByteOrder.dropWhile_eq_filter]
  · -- what the seek passes is in front of the address, or skipped
    have hseek : ∀ e ∈ addressIndexKeys.entries c.db.addressIndex, (!ByteOrder.lt
        (addressIndexKeys.bytes e.1) (addressIndexKeys.index ::
          if 0 < r.start ∧ 0 < r.stop then addressPrefix a.type a.hashBytes ++ putInt32BE r.start
          else addressPrefix a.type a.hashBytes)) =
        (!decide ((addressIndexKeys.type e.1 = a.type ∧ addressIndexKeys.hashBytes e.1 = a.hashBytes) ∧
            r.Skips e.1.blockHeight) &&
          !decide (AddressKeys.addressPlace (addressIndexKeys.type e.1)
            (addressIndexKeys.hashBytes e.1) < AddressKeys.addressPlace a.type a.hashBytes)) := by
      intro e he
      rw [Bool.eq_iff_iff, Bool.and_eq_true, Bool.not_eq_true', Bool.not_eq_true', Bool.not_eq_true',
        ← Bool.not_eq_true, lt_seek_iff (hfits e he), decide_eq_false_iff_not,
        decide_eq_false_iff_not, not_or]
      exact and_comm
    rw [List.filter_congr hseek, ← List.filter_filter, hfrom, List.filter_append]
    congr 2
    · apply List.filter_congr
      intro e he
      have hown := of_decide_eq_true (List.mem_filter.1 he).2
      rw [Bool.eq_iff_iff, Bool.not_eq_true', Bool.not_eq_true', decide_eq_false_iff_not,
        decide_eq_false_iff_not, not_and]
      exact ⟨fun h => h hown, fun h _ => h⟩
    · refine List.filter_eq_self.2 fun e he => ?_
      have hbehind := of_decide_eq_true (List.mem_filter.1 he).2
      rw [Bool.not_eq_true', decide_eq_false_iff_not]
      rintro ⟨⟨htype, hhash⟩, -⟩
      rw [htype, hhash] at hbehind
      exact lt_irrefl _ hbehind
  · refine hsorted.imp fun {e e'} hle hlt => ?_
    unfold AddressKeys.keyLe at hle
    by_contra hnot
    rw [Bool.not_eq_true'] at hle
    rw [Bool.not_eq_true] at hnot
    rw [ByteOrder.not_lt_trans hnot hle] at hlt
    cases hlt

/-- Nothing of a list passes a test if its first element does not. -/
theorem takeWhile_eq_nil_iff {α : Type} {q : α → Bool} {l : List α} :
    l.takeWhile q = [] ↔ ¬ ∃ e, l.head? = some e ∧ q e = true := by
  cases l with
  | nil => simp
  | cons e l =>
    by_cases hq : q e = true
    · simp [List.takeWhile_cons_of_pos hq, hq]
    · simp [List.takeWhile_cons_of_neg hq, hq]

theorem goesOn_iff {e : CAddressIndexKey × ℤ} : goesOn a r e = true ↔
    e.1.hashBytes = a.hashBytes ∧ ¬ r.Stops e.1.blockHeight := by
  rw [goesOn, Bool.and_eq_true, decide_eq_true_eq, Bool.not_eq_true', decide_eq_false_iff_not]

/-- **A scan of a range** meets the deltas of the address from the seek to the end, and goes on behind
them if it did not stop before. -/
theorem walk_range (c : IndexContent) (a : IndexAddress) (r : ScanRange) :
    ∃ past, c.db.readAddressIndex a r.start r.stop =
        ((c.ownDeltas a).filter fun e => decide (¬ r.Skips e.1.blockHeight ∧
          ¬ r.Stops e.1.blockHeight)) ++ past ∧
      (past = [] ↔ ¬ c.RunsPast a r) := by
  set kept := (c.ownDeltas a).filter fun e => !decide (r.Skips e.1.blockHeight) with hkept
  have hown : ∀ e ∈ kept, e ∈ c.ownDeltas a ∧ ¬ r.Skips e.1.blockHeight := by
    intro e he
    obtain ⟨hin, hskips⟩ := List.mem_filter.1 he
    exact ⟨hin, of_decide_eq_false (by simpa using hskips)⟩
  have hhash : ∀ e ∈ kept, e.1.hashBytes = a.hashBytes :=
    fun e he => (of_decide_eq_true (List.mem_filter.1 (hown e he).1).2).2
  -- the heights come in order, so the scan stops at the first that is behind the end
  have htaken : kept.takeWhile (goesOn a r) = (c.ownDeltas a).filter fun e =>
      decide (¬ r.Skips e.1.blockHeight ∧ ¬ r.Stops e.1.blockHeight) := by
    have hheights := (own_heights c a).sublist
      (List.filter_sublist (p := fun e => !decide (r.Skips e.1.blockHeight)))
    rw [ByteOrder.takeWhile_eq_filter, hkept, List.filter_filter]
    · apply List.filter_congr
      intro e he
      rw [Bool.eq_iff_iff, Bool.and_eq_true, goesOn_iff, Bool.not_eq_true', decide_eq_false_iff_not,
        decide_eq_true_eq]
      have heq : e.1.hashBytes = a.hashBytes := (of_decide_eq_true (List.mem_filter.1 he).2).2
      tauto
    · refine hheights.imp_of_mem fun {e e'} he _ hle hgoes => ?_
      rw [goesOn_iff] at *
      exact ⟨hhash e he, fun hstops => hgoes.2 (hstops.mono hle)⟩
  rw [readAddressIndex_eq]
  by_cases hall : ∀ e ∈ c.ownDeltas a, r.Stops e.1.blockHeight → r.Skips e.1.blockHeight
  · have hgoes : ∀ e ∈ kept, goesOn a r e = true := fun e he =>
      goesOn_iff.2 ⟨hhash e he, fun hstops => (hown e he).2 (hall e (hown e he).1 hstops)⟩
    refine ⟨(c.behindDeltas a).takeWhile (goesOn a r), ?_, ?_⟩
    · rw [← htaken, List.takeWhile_append_of_pos hgoes, List.takeWhile_eq_self_iff.2 hgoes]
    · rw [takeWhile_eq_nil_iff]
      refine not_congr ⟨?_, ?_⟩
      · rintro ⟨e, hhead, hgo⟩
        exact ⟨hall, e, hhead, goesOn_iff.1 hgo⟩
      · rintro ⟨-, e, hhead, hgo⟩
        exact ⟨e, hhead, goesOn_iff.2 hgo⟩
  · refine ⟨[], ?_, iff_of_true rfl fun hpast => hall hpast.1⟩
    rw [List.append_nil, ← htaken, List.takeWhile_append, if_neg]
    intro hlength
    apply hall
    intro e he hstops
    by_contra hskips
    have hin : e ∈ kept := List.mem_filter.2 ⟨he, by simpa using hskips⟩
    have hself := (List.takeWhile_prefix (goesOn a r)).eq_of_length hlength
    exact (goesOn_iff.1 (List.takeWhile_eq_self_iff.1 hself e hin)).2 hstops

/-! ## Exactness -/

/-- A part of a list with something behind it is the part that is asked for, if nothing is behind it
and the part is the same. -/
theorem filter_append_eq_iff {α : Type} {p q : α → Bool} {l past : List α}
    (himp : ∀ e ∈ l, q e = true → p e = true) :
    l.filter p ++ past = l.filter q ↔ past = [] ∧ ∀ e ∈ l, p e = true → q e = true := by
  have hsub : (l.filter p).filter q = l.filter q := by
    rw [List.filter_filter]
    apply List.filter_congr
    intro e he
    rw [Bool.eq_iff_iff, Bool.and_eq_true]
    exact ⟨And.left, fun h => ⟨h, himp e he h⟩⟩
  constructor
  · intro h
    have hlength := congrArg List.length h
    have hle := List.length_filter_le q (l.filter p)
    rw [hsub] at hle
    rw [List.length_append] at hlength
    have hpast : past = [] := List.eq_nil_of_length_eq_zero (by omega)
    refine ⟨hpast, fun e he hp => ?_⟩
    rw [hpast, List.append_nil] at h
    have hin : e ∈ l.filter q := h ▸ List.mem_filter.2 ⟨he, hp⟩
    exact (List.mem_filter.1 hin).2
  · rintro ⟨rfl, h⟩
    rw [List.append_nil]
    apply List.filter_congr
    intro e he
    rw [Bool.eq_iff_iff]
    exact ⟨h e he, himp e he⟩

/-- The scan of the unspent outputs is exact if it does not run on. -/
theorem readAddressUnspentIndex_eq_iff (c : IndexContent) (a : IndexAddress) :
    c.db.readAddressUnspentIndex a = c.ownUnspent a ↔
      ¬ addressUnspentKeys.RunsOn c.db.addressUnspentIndex a := by
  obtain ⟨behind, hwalk, hbehind⟩ := AddressKeys.walk_eq c.unspent_fit a
  rw [← hbehind, CBlockTreeDB.readAddressUnspentIndex, hwalk]
  exact List.append_right_eq_self

/-- The scan of the deltas is exact if it does not run past its range, and starts where it should. -/
theorem readAddressIndex_eq_iff (c : IndexContent) (a : IndexAddress) (r : ScanRange) :
    c.db.readAddressIndex a r.start r.stop =
        ((c.ownDeltas a).filter fun e => decide (r.Covers e.1.blockHeight)) ↔
      ¬ c.RunsPast a r ∧
        (0 < r.start → r.stop ≤ 0 → ∀ e ∈ c.ownDeltas a, r.start ≤ e.1.blockHeight) := by
  obtain ⟨past, hwalk, hpast⟩ := walk_range c a r
  have hcovers : ∀ height, r.Covers height → ¬ r.Skips height ∧ ¬ r.Stops height := by
    intro height
    unfold ScanRange.Covers ScanRange.Skips ScanRange.Stops
    omega
  rw [hwalk, filter_append_eq_iff fun e _ h => decide_eq_true (hcovers _ (of_decide_eq_true h)),
    hpast]
  refine and_congr_right fun _ => ⟨?_, ?_⟩
  · intro h hstart hstop e he
    have hmet : ¬ r.Skips e.1.blockHeight ∧ ¬ r.Stops e.1.blockHeight := by
      unfold ScanRange.Skips ScanRange.Stops
      omega
    exact (of_decide_eq_true (h e he (decide_eq_true hmet))).1 hstart
  · intro h e he hmet
    have hmet := of_decide_eq_true hmet
    rw [decide_eq_true_eq]
    by_cases hstop : 0 < r.stop
    · exact (ScanRange.covers_iff hstop _).2 hmet
    · exact ⟨fun hstart => h hstart (not_lt.1 hstop) e he, fun hpos => absurd hpos hstop⟩

/-- **Scans of an address.**  The scans are exact if and only if they do not run on behind the address
or past the end of the range, and no delta of the address is in front of a start without an end. -/
theorem scans_iff (c : IndexContent) (a : IndexAddress) (r : ScanRange) :
    c.ScansExactly a r ↔ c.Scannable a r := by
  constructor
  · rintro ⟨hunspent, hdeltas⟩
    obtain ⟨hpast, hstart⟩ := (readAddressIndex_eq_iff c a r).1 hdeltas
    exact ⟨(readAddressUnspentIndex_eq_iff c a).1 hunspent, hpast, hstart⟩
  · rintro ⟨hunspent, hpast, hstart⟩
    exact ⟨(readAddressUnspentIndex_eq_iff c a).2 hunspent,
      (readAddressIndex_eq_iff c a r).2 ⟨hpast, hstart⟩⟩

end IndexContent

/-- **A scan of a key** whose index has only an output to the script with the same hash returns that
output. -/
theorem scan_otherType :
    (oneOutput scriptAddress).db.readAddressUnspentIndex keyAddress =
        [(⟨2, 7, 9, 0⟩, ⟨5, [], 1⟩)] ∧
      ¬ ∀ (c : IndexContent) (a : IndexAddress) (r : ScanRange), c.ScansExactly a r := by
  have hscan : (oneOutput scriptAddress).db.readAddressUnspentIndex keyAddress =
      [(⟨2, 7, 9, 0⟩, ⟨5, [], 1⟩)] := by decide +kernel
  refine ⟨hscan, fun h => ?_⟩
  have hexact := (h (oneOutput scriptAddress) keyAddress ⟨0, 0, by decide⟩).unspent
  rw [hscan] at hexact
  exact absurd hexact (by decide +kernel)

end FairCoin
