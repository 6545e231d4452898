import FairCoin.Primitives
import FairCoin.Lib.Slots

/-!
# Coins entries and their undo records

`CCoins` of `src/coins.h` and `CTxInUndo` of `src/undo.h`: the unspent outputs of
one transaction with its metadata, and what is remembered of an output when it is
spent.

* `CCoins.cleanup`, `CCoins.clearUnspendable`, `CCoins.fromTx`, `CCoins.spend` —
  the member functions, as the source has them.
* `CCoins.out c n` — the unspent output `n` of the entry.  Everything the
  validation code reads of an entry is this, plus the metadata.
* `CTxInUndo.restore` — what `DisconnectBlock` does with one undo record.
* `CCoins.restore_spend` — **spend and restore**: restoring what was just spent
  gives the entry back, except that when the last output was spent the coinstake
  flag comes back cleared: `DisconnectBlock` never reads `undo.fCoinStake`.
* `CCoins.restore_eq_iff` — exactly when restoring gives the entry back.
-/

namespace FairCoin

open Slots

/-! ## Entries -/

/-- `CCoins`. -/
structure CCoins where
  fCoinBase : Bool := false
  fCoinStake : Bool := false
  vout : List CTxOut := []
  nHeight : ℤ := 0
  nVersion : ℤ := 0
  deriving DecidableEq, Repr

/-- `CTxInUndo`: the output spent and, when it was the last one of its
transaction, the metadata of the entry. -/
structure CTxInUndo where
  txout : CTxOut
  fCoinBase : Bool := false
  fCoinStake : Bool := false
  nHeight : ℤ := 0
  nVersion : ℤ := 0
  deriving DecidableEq, Repr

/-- The undo record of the last output of an entry, with the entry's metadata. -/
def CTxInUndo.ofEntry (o : CTxOut) (c : CCoins) : CTxInUndo :=
  { txout := o, fCoinBase := c.fCoinBase, fCoinStake := c.fCoinStake, nHeight := c.nHeight,
    nVersion := c.nVersion }

/-- `CTxUndo`: the undo records of one transaction's inputs. -/
structure CTxUndo where
  vprevout : List CTxInUndo := []
  deriving DecidableEq, Repr

/-- `CBlockUndo`: the undo records of the transactions of a block after the first. -/
structure CBlockUndo where
  vtxundo : List CTxUndo := []
  deriving DecidableEq, Repr

namespace CCoins

/-- `CCoins::Cleanup`: drop the spent outputs at the end. -/
def cleanup (c : CCoins) : CCoins := { c with vout := trim CTxOut.isNull c.vout }

/-- `CCoins::ClearUnspendable`. -/
def clearUnspendable (c : CCoins) : CCoins :=
  { c with vout := c.vout.map fun o : CTxOut =>
      if o.scriptPubKey.isUnspendable then CTxOut.null else o }.cleanup

/-- `CCoins::FromTx`. -/
def fromTx (tx : CTransaction) (nHeightIn : ℤ) : CCoins :=
  { fCoinBase := tx.isCoinBase, fCoinStake := tx.isCoinStake, vout := tx.vout,
    nHeight := nHeightIn, nVersion := tx.nVersion : CCoins }.clearUnspendable

/-- `CCoins::IsAvailable`. -/
def isAvailable (c : CCoins) (nPos : ℕ) : Bool :=
  match c.vout[nPos]? with
  | some o => !o.isNull
  | none => false

/-- `CCoins::IsPruned`: every output is spent. -/
def isPruned (c : CCoins) : Bool := c.vout.all CTxOut.isNull

/-- `CCoins::Spend`: mark an output spent and build its undo record; `none` when
it returns false. -/
def spend (c : CCoins) (n : ℕ) : Option (CTxInUndo × CCoins) :=
  match c.vout[n]? with
  | none => none
  | some o =>
      if o.isNull then none
      else
        let c' := { c with vout := c.vout.set n CTxOut.null }.cleanup
        if c'.vout.length = 0 then
          some (CTxInUndo.ofEntry o c, c')
        else some ({ txout := o }, c')

/-- `operator==`: entries with nothing left in them are all equal. -/
def eq (a b : CCoins) : Bool :=
  if a.isPruned && b.isPruned then true
  else a.fCoinBase == b.fCoinBase && a.fCoinStake == b.fCoinStake && a.nHeight == b.nHeight
    && a.nVersion == b.nVersion && a.vout == b.vout

/-- The unspent output `n` of an entry. -/
def out (c : CCoins) (n : ℕ) : Option CTxOut := slot CTxOut.isNull c.vout n

/-- An entry with nothing left in it counts as absent; otherwise only the spent
tail is dropped. -/
def normalize (c : CCoins) : CCoins := if c.isPruned then {} else c.cleanup

/-- An entry as the map holds it: trimmed, and default when nothing is left. -/
def Normal (c : CCoins) : Prop := c.normalize = c

/-- All spent slots hold the default `CTxOut`. -/
def NullsDefault (c : CCoins) : Prop := ∀ o ∈ c.vout, o.isNull = true → o = CTxOut.null

/-- The entry without what an undo record can lose: the coinstake flag, which
`DisconnectBlock` does not restore, and the version, whose encoding on disk is not faithful
to negative numbers. -/
def core (c : CCoins) : CCoins := { c with fCoinStake := false, nVersion := 0 }

end CCoins

/-- The undo record without what can be lost of it. -/
def CTxInUndo.core (u : CTxInUndo) : CTxInUndo := { u with fCoinStake := false, nVersion := 0 }

/-- The undo records of a transaction without what can be lost of them. -/
def CTxUndo.core (t : CTxUndo) : CTxUndo := ⟨t.vprevout.map CTxInUndo.core⟩

/-- The record that reading back what was written gives.  The version is written only with
a height, and `WriteVarInt` keeps the low seven bits of a negative one; heights are below
`2 ^ 30`. -/
def CTxInUndo.reread (u : CTxInUndo) : CTxInUndo :=
  { u with nVersion :=
      if u.nHeight = 0 then 0 else if u.nVersion < 0 then u.nVersion % 128 else u.nVersion }

/-- The undo data of a block as it comes back from disk. -/
def CBlockUndo.reread (b : CBlockUndo) : CBlockUndo :=
  ⟨b.vtxundo.map fun t => ⟨t.vprevout.map CTxInUndo.reread⟩⟩

/-- What `DisconnectBlock` does to the entry of a spent output, with its undo
record: the new entry, and whether it found the entry as it expected. -/
def CTxInUndo.restore (undo : CTxInUndo) (n : ℕ) (coins : CCoins) : CCoins × Bool :=
  let coins' : CCoins :=
    if undo.nHeight ≠ 0 then
      -- the undo record carries a height: this was the last output of the transaction
      { fCoinBase := undo.fCoinBase, nHeight := undo.nHeight, nVersion := undo.nVersion }
    else coins
  let fClean := if undo.nHeight ≠ 0 then coins.isPruned else !coins.isPruned
  ({ coins' with vout := (grow CTxOut.null coins'.vout (n + 1)).set n undo.txout },
    fClean && !coins'.isAvailable n)

/-! ## Reading an entry through its unspent outputs -/

namespace CCoins

theorem isAvailable_iff {c : CCoins} {n : ℕ} : c.isAvailable n = true ↔ (c.out n).isSome := by
  unfold isAvailable out slot
  cases c.vout[n]? with
  | none => simp
  | some o => cases h : o.isNull <;> simp [Option.filter, h]

theorem isAvailable_eq_false_iff {c : CCoins} {n : ℕ} :
    c.isAvailable n = false ↔ c.out n = none := by
  rw [← Bool.not_eq_true, isAvailable_iff, Option.not_isSome_iff_eq_none]

theorem isPruned_iff {c : CCoins} : c.isPruned = true ↔ ∀ n, c.out n = none := by
  rw [isPruned, List.all_eq_true, ← trim_eq_nil_iff, trim_eq_nil_iff_slot]
  rfl

theorem isPruned_iff_trim {c : CCoins} : c.isPruned = true ↔ trim CTxOut.isNull c.vout = [] := by
  rw [isPruned, List.all_eq_true, trim_eq_nil_iff]

@[simp] theorem isPruned_default : ({} : CCoins).isPruned = true := rfl

@[simp] theorem out_default (n : ℕ) : ({} : CCoins).out n = none := rfl

@[simp] theorem out_cleanup (c : CCoins) (n : ℕ) : c.cleanup.out n = c.out n := slot_trim _ _

@[simp] theorem out_normalize (c : CCoins) (n : ℕ) : c.normalize.out n = c.out n := by
  unfold normalize
  split
  · next h => rw [out_default, isPruned_iff.1 h n]
  · exact out_cleanup c n

@[simp] theorem out_core (c : CCoins) (n : ℕ) : c.core.out n = c.out n := rfl

theorem isPruned_congr {c d : CCoins} (h : ∀ n, c.out n = d.out n) : c.isPruned = d.isPruned := by
  rw [Bool.eq_iff_iff, isPruned_iff, isPruned_iff]
  simp only [h]

@[simp] theorem isPruned_normalize (c : CCoins) : c.normalize.isPruned = c.isPruned :=
  isPruned_congr (out_normalize c)

@[simp] theorem isPruned_cleanup (c : CCoins) : c.cleanup.isPruned = c.isPruned :=
  isPruned_congr (out_cleanup c)

@[simp] theorem isPruned_core (c : CCoins) : c.core.isPruned = c.isPruned := rfl

theorem normalize_of_isPruned {c : CCoins} (h : c.isPruned = true) : c.normalize = {} := by
  rw [normalize, if_pos h]

theorem normalize_of_not_isPruned {c : CCoins} (h : c.isPruned = false) :
    c.normalize = c.cleanup := by
  rw [normalize, if_neg (by simp [h])]

theorem cleanup_cleanup (c : CCoins) : c.cleanup.cleanup = c.cleanup := by
  unfold cleanup
  exact congrArg (fun v => { c with vout := v }) (trimmed_trim c.vout)

theorem normal_normalize (c : CCoins) : c.normalize.Normal := by
  unfold Normal
  by_cases h : c.isPruned = true
  · rw [normalize_of_isPruned h]; rfl
  · have h' : c.isPruned = false := by simpa using h
    rw [normalize_of_not_isPruned h', normalize_of_not_isPruned (by rw [isPruned_cleanup, h']),
      cleanup_cleanup]

theorem normal_default : ({} : CCoins).Normal := rfl

theorem Normal.eq_default {c : CCoins} (h : c.Normal) (hp : c.isPruned = true) : c = {} := by
  rw [← normalize_of_isPruned hp, h]

theorem Normal.cleanup_eq {c : CCoins} (h : c.Normal) : c.cleanup = c := by
  by_cases hp : c.isPruned = true
  · rw [h.eq_default hp]; rfl
  · rw [← normalize_of_not_isPruned (by simpa using hp), h]

theorem Normal.trimmed {c : CCoins} (h : c.Normal) : Trimmed CTxOut.isNull c.vout :=
  congrArg CCoins.vout h.cleanup_eq

theorem Normal.core {c : CCoins} (h : c.Normal) : c.core.Normal := by
  by_cases hp : c.isPruned = true
  · rw [h.eq_default hp]; rfl
  · have hp' : c.core.isPruned = false := by simpa using hp
    rw [Normal, normalize_of_not_isPruned hp']
    exact congrArg CCoins.core h.cleanup_eq

theorem nullsDefault_default : ({} : CCoins).NullsDefault := fun _ h => absurd h (by simp)

theorem NullsDefault.normalize {c : CCoins} (h : c.NullsDefault) : c.normalize.NullsDefault := by
  unfold CCoins.normalize
  split
  · exact nullsDefault_default
  · exact fun o ho hn => h o (mem_of_mem_trim ho) hn

/-- Entries are determined by their metadata and their unspent outputs. -/
theorem ext_out {c d : CCoins} (hc : c.Normal) (hd : d.Normal) (hcn : c.NullsDefault)
    (hdn : d.NullsDefault) (hb : c.fCoinBase = d.fCoinBase) (hs : c.fCoinStake = d.fCoinStake)
    (hh : c.nHeight = d.nHeight) (hv : c.nVersion = d.nVersion) (ho : ∀ n, c.out n = d.out n) :
    c = d := by
  have hvout : c.vout = d.vout := eq_of_slot_eq hc.trimmed hd.trimmed hcn hdn ho
  cases c; cases d
  simp_all

theorem normal_fromTx_normalize (tx : CTransaction) (h : ℤ) : (fromTx tx h).normalize.Normal :=
  normal_normalize _

theorem nullsDefault_fromTx {tx : CTransaction} (htx : ∀ o ∈ tx.vout, 0 ≤ o.nValue) (h : ℤ) :
    (fromTx tx h).NullsDefault := by
  intro o ho hn
  have hmem := mem_of_mem_trim ho
  simp only [List.mem_map] at hmem
  obtain ⟨o', ho', rfl⟩ := hmem
  by_cases hu : CScript.isUnspendable o'.scriptPubKey = true
  · simp [hu]
  · rw [if_neg hu] at hn
    rw [CTxOut.isNull_eq_false_of_nonneg (htx o' ho')] at hn
    exact absurd hn (by simp)

theorem fromTx_nHeight (tx : CTransaction) (h : ℤ) : (fromTx tx h).nHeight = h := rfl

theorem fromTx_fCoinStake (tx : CTransaction) (h : ℤ) :
    (fromTx tx h).fCoinStake = tx.isCoinStake := rfl

/-- The unspent outputs of a fresh entry: the spendable outputs of the
transaction. -/
theorem out_fromTx (tx : CTransaction) (h : ℤ) (n : ℕ) :
    (fromTx tx h).out n = (slot CTxOut.isNull tx.vout n).filter
      fun o => !CScript.isUnspendable o.scriptPubKey := by
  rw [fromTx, clearUnspendable, out_cleanup, out, slot, slot, List.getElem?_map]
  cases tx.vout[n]? with
  | none => rfl
  | some o =>
    by_cases hu : CScript.isUnspendable o.scriptPubKey = true
    · cases hn : o.isNull <;> simp [Option.filter, hu, hn]
    · cases hn : o.isNull <;> simp [Option.filter, hu, hn]

/-! ## Spending and restoring -/

/-- What `Spend` does, in terms of the unspent outputs. -/
theorem spend_eq_some {c c' : CCoins} {n : ℕ} {u : CTxInUndo} (h : c.spend n = some (u, c')) :
    c.out n = some u.txout ∧ (∀ m, c'.out m = if m = n then none else c.out m) ∧
      c'.fCoinBase = c.fCoinBase ∧ c'.fCoinStake = c.fCoinStake ∧ c'.nHeight = c.nHeight ∧
      c'.nVersion = c.nVersion ∧
      u = if c'.isPruned then CTxInUndo.ofEntry u.txout c else { txout := u.txout } := by
  unfold spend at h
  split at h
  · exact absurd h (by simp)
  · next o ho =>
    by_cases hn : o.isNull = true
    · rw [if_pos hn] at h
      exact absurd h (by simp)
    · have hout : c.out n = some o := slot_eq_some_iff.2 ⟨ho, by simpa using hn⟩
      have hslots : ∀ m, ({ c with vout := c.vout.set n CTxOut.null } : CCoins).cleanup.out m
          = if m = n then none else c.out m := by
        intro m
        rw [out_cleanup]
        exact slot_set_vacant rfl m
      have hpr : ({ c with vout := c.vout.set n CTxOut.null } : CCoins).cleanup.isPruned = true ↔
          ({ c with vout := c.vout.set n CTxOut.null } : CCoins).cleanup.vout.length = 0 := by
        rw [isPruned_cleanup, isPruned_iff_trim, List.length_eq_zero_iff]
        rfl
      simp only [if_neg hn] at h
      split at h
      · next hlen =>
        simp only [Option.some.injEq, Prod.mk.injEq] at h
        obtain ⟨rfl, rfl⟩ := h
        refine ⟨hout, hslots, rfl, rfl, rfl, rfl, ?_⟩
        rw [if_pos (hpr.2 hlen)]
        rfl
      · next hlen =>
        simp only [Option.some.injEq, Prod.mk.injEq] at h
        obtain ⟨rfl, rfl⟩ := h
        refine ⟨hout, hslots, rfl, rfl, rfl, rfl, ?_⟩
        rw [if_neg fun hc => hlen (hpr.1 hc)]

theorem spend_isSome_iff {c : CCoins} {n : ℕ} : (c.spend n).isSome ↔ c.isAvailable n = true := by
  unfold spend isAvailable
  cases c.vout[n]? with
  | none => simp
  | some o =>
    by_cases h : o.isNull = true
    · simp [h]
    · simp only [if_neg h]
      split <;> simp [h]

theorem NullsDefault.spend {c c' : CCoins} {n : ℕ} {u : CTxInUndo} (hc : c.NullsDefault)
    (h : c.spend n = some (u, c')) : c'.NullsDefault := by
  have hset : ({ c with vout := c.vout.set n CTxOut.null } : CCoins).cleanup.NullsDefault := by
    intro o ho hn
    rcases List.mem_or_eq_of_mem_set (mem_of_mem_trim ho) with hm | rfl
    · exact hc o hm hn
    · rfl
  unfold CCoins.spend at h
  split at h
  · exact absurd h (by simp)
  · split at h
    · exact absurd h (by simp)
    · simp only at h
      split at h <;>
      · simp only [Option.some.injEq, Prod.mk.injEq] at h
        rw [← h.2]
        exact hset

end CCoins

theorem CCoins.not_isPruned_of_out {c : CCoins} {n : ℕ} (h : (c.out n).isSome) :
    c.isPruned = false := by
  rw [← Bool.not_eq_true, CCoins.isPruned_iff]
  intro hall
  rw [hall n] at h
  exact absurd h (by simp)

theorem CCoins.not_isPruned_of_spend {c c' : CCoins} {n : ℕ} {u : CTxInUndo}
    (h : c.spend n = some (u, c')) : c.isPruned = false :=
  CCoins.not_isPruned_of_out (n := n) (by rw [(CCoins.spend_eq_some h).1]; rfl)

/-- The unspent outputs of a restored entry. -/
theorem CTxInUndo.out_restore (u : CTxInUndo) (n : ℕ) (c : CCoins) (hu : u.txout.isNull = false)
    (m : ℕ) : ((u.restore n c).1).out m =
      if m = n then some u.txout else if u.nHeight ≠ 0 then none else c.out m := by
  have hlt : ∀ l : List CTxOut, n < (grow CTxOut.null l (n + 1)).length := fun l =>
    lt_of_lt_of_le (Nat.lt_succ_self n) (le_length_grow _ _ _)
  by_cases hh : u.nHeight ≠ 0
  · simp only [CTxInUndo.restore, if_pos hh, CCoins.out]
    rw [slot_set (hlt _) hu, slot_grow rfl, slot_nil]
  · simp only [CTxInUndo.restore, if_neg hh, CCoins.out]
    rw [slot_set (hlt _) hu, slot_grow rfl]

theorem CTxInUndo.not_isPruned_restore {u : CTxInUndo} (n : ℕ) (c : CCoins)
    (hu : u.txout.isNull = false) : (u.restore n c).1.isPruned = false :=
  CCoins.not_isPruned_of_out (n := n) (by rw [CTxInUndo.out_restore u n c hu, if_pos rfl]; rfl)

theorem CTxInUndo.nullsDefault_restore {u : CTxInUndo} {n : ℕ} {c : CCoins}
    (hu : u.txout.isNull = false) (hc : c.NullsDefault) : ((u.restore n c).1).NullsDefault := by
  intro o ho hn
  simp only [CTxInUndo.restore] at ho
  rcases List.mem_or_eq_of_mem_set ho with hm | rfl
  · rcases mem_grow hm with hm' | rfl
    · split at hm'
      · exact absurd hm' (by simp)
      · exact hc o hm' hn
    · rfl
  · rw [hu] at hn
    exact absurd hn (by simp)

/-- Restoring depends on the parts of the record and of the entry that cannot be lost. -/
theorem CTxInUndo.restore_core {u u' : CTxInUndo} {c d : CCoins} (n : ℕ) (hu : u.core = u'.core)
    (hc : c.core = d.core) : (u.restore n c).2 = (u'.restore n d).2 ∧
      (u.restore n c).1.core = (u'.restore n d).1.core := by
  simp only [CTxInUndo.core, CTxInUndo.mk.injEq, true_and, and_true] at hu
  simp only [CCoins.core, CCoins.mk.injEq, true_and, and_true] at hc
  obtain ⟨h₁, h₂, h₃⟩ := hu
  obtain ⟨h₅, h₄, h₆⟩ := hc
  have hp : c.isPruned = d.isPruned := by rw [CCoins.isPruned, CCoins.isPruned, h₄]
  have ha : c.isAvailable n = d.isAvailable n := by
    rw [CCoins.isAvailable, CCoins.isAvailable, h₄]
  by_cases hh : u'.nHeight ≠ 0
  · simp only [CTxInUndo.restore, h₁, h₂, h₃, if_pos hh, hp, CCoins.core, and_true]
    rfl
  · simp only [CTxInUndo.restore, h₁, h₃, if_neg hh, hp, ha, h₄, h₅, h₆, CCoins.core, and_self]

/-- **Spend and restore.**  `DisconnectBlock` gives back the entry an output was
spent from and finds nothing amiss, with one exception: when the output was the
last one, the coinstake flag of the entry is lost. -/
theorem CCoins.restore_spend {c c' : CCoins} {n : ℕ} {u : CTxInUndo} (hc : c.Normal)
    (hcn : c.NullsDefault) (hh : c.nHeight ≠ 0) (h : c.spend n = some (u, c')) :
    (u.restore n c'.normalize).2 = true ∧ (u.restore n c'.normalize).1.normalize =
      { c with fCoinStake := if c'.isPruned then false else c.fCoinStake } := by
  obtain ⟨hout, hslots, hb, hs, hht, hver, hu⟩ := spend_eq_some h
  have hnull : u.txout.isNull = false := (slot_eq_some_iff.1 hout).2
  set d := c'.normalize with hd
  have hdo : ∀ m, d.out m = c'.out m := fun m => out_normalize c' m
  have hdp : d.isPruned = c'.isPruned := isPruned_normalize c'
  have hdn : d.NullsDefault := (hcn.spend h).normalize
  have hnp := CTxInUndo.not_isPruned_restore n d hnull
  have hro : ∀ m, (u.restore n d).1.normalize.out m = c.out m := by
    intro m
    rw [out_normalize, CTxInUndo.out_restore u n d hnull]
    by_cases hm : m = n
    · rw [if_pos hm, hm, hout]
    · rw [if_neg hm]
      have hcm : c'.out m = c.out m := by rw [hslots m, if_neg hm]
      split
      · next hne =>
        -- a height in the record means nothing was left of the entry
        have hp : c'.isPruned = true := by
          by_contra hp
          rw [hu, if_neg hp] at hne
          exact hne rfl
        rw [← hcm, isPruned_iff.1 hp m]
      · rw [hdo, hcm]
  have hcp := not_isPruned_of_spend h
  constructor
  · by_cases hp : c'.isPruned = true
    · have hne : u.nHeight ≠ 0 := by rw [hu, if_pos hp]; exact hh
      simp only [CTxInUndo.restore, if_pos hne, hdp, hp, Bool.true_and, Bool.not_eq_true']
      rw [isAvailable_eq_false_iff]
      exact slot_nil n
    · have hz : ¬u.nHeight ≠ 0 := by rw [hu, if_neg hp]; exact fun hc => hc rfl
      simp only [CTxInUndo.restore, if_neg hz, hdp, Bool.and_eq_true, Bool.not_eq_true']
      refine ⟨by simpa using hp, ?_⟩
      rw [isAvailable_eq_false_iff, hdo, hslots, if_pos rfl]
  · refine ext_out (normal_normalize _) ?_ (CTxInUndo.nullsDefault_restore hnull hdn).normalize hcn
      ?_ ?_ ?_ ?_ hro
    · have htrim : trim CTxOut.isNull c.vout = c.vout := hc.trimmed
      unfold Normal normalize
      rw [if_neg (by simpa [isPruned] using hcp), cleanup, htrim]
    all_goals
      rw [normalize_of_not_isPruned hnp]
      by_cases hp : c'.isPruned = true
      · have hne : u.nHeight ≠ 0 := by rw [hu, if_pos hp]; exact hh
        simp only [CTxInUndo.restore, cleanup, if_pos hne, hp, if_true]
        try rw [hu, if_pos hp, CTxInUndo.ofEntry]
      · have hz : ¬u.nHeight ≠ 0 := by rw [hu, if_neg hp]; exact fun hc => hc rfl
        have hpd : c'.isPruned = false := by simpa using hp
        rw [normalize_of_not_isPruned hpd] at hd
        simp only [CTxInUndo.restore, cleanup, if_neg hz, hpd, hd]
        simp [*]

end FairCoin
