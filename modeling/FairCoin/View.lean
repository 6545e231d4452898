import FairCoin.Coins

/-!
# Connecting and disconnecting transactions

The coins view as the plain map a stack of caches stands for (`CoinsView`), and what
`UpdateCoins` and the inner loops of `DisconnectBlock` do to it.

* `updateCoins`, `updateCoinsAll` — spend the inputs of a transaction and add its
  outputs; the same for the transactions of a block in order.
* `disconnectCoins`, `disconnectCoinsAll` — remove the outputs and restore the inputs,
  from the last transaction to the first.
* `disconnectCoinsAll_eq_iff` — **the round trip, exactly**: disconnecting what was
  connected is clean and gives the view back iff no transaction overwrote an entry and
  no coinstake entry was emptied (`Restorable`).
-/

namespace FairCoin

open Slots

/-! ## The view -/

/-- The coins view: an entry for every transaction, absent ones default, and the best
block. -/
@[ext]
structure CoinsView where
  coins : UInt256 → CCoins
  hashBlock : UInt256
  normal : ∀ t, (coins t).Normal

namespace CoinsView

/-- The view with nothing in it. -/
def empty : CoinsView := ⟨fun _ => {}, 0, fun _ => CCoins.normal_default⟩

/-- `ModifyCoins`: the entry of `t` becomes `c`, dropped when nothing is left in it. -/
def set (v : CoinsView) (t : UInt256) (c : CCoins) : CoinsView where
  coins := Function.update v.coins t c.normalize
  hashBlock := v.hashBlock
  normal := fun x => by
    by_cases hx : x = t
    · rw [hx, Function.update_self]
      exact CCoins.normal_normalize c
    · rw [Function.update_of_ne hx]
      exact v.normal x

/-- `SetBestBlock`. -/
def setBestBlock (v : CoinsView) (h : UInt256) : CoinsView := { v with hashBlock := h }

/-- The unspent output at an outpoint. -/
def outputAt (v : CoinsView) (o : COutPoint) : Option CTxOut := (v.coins o.hash).out o.n

/-- The set of unspent outpoints. -/
def unspent (v : CoinsView) : Set COutPoint := {o | (v.outputAt o).isSome}

/-- What every entry of a coins view satisfies: spent slots hold the default output, no
unspendable output is kept, and heights are positive. -/
structure WellFormed (v : CoinsView) : Prop where
  nulls : ∀ t, (v.coins t).NullsDefault
  spendable : ∀ t, ∀ o ∈ (v.coins t).vout, CScript.isUnspendable o.scriptPubKey = false
  height : ∀ t, (v.coins t).isPruned = false → 1 ≤ (v.coins t).nHeight

theorem set_coins (v : CoinsView) (t x : UInt256) (c : CCoins) :
    (v.set t c).coins x = if x = t then c.normalize else v.coins x := Function.update_apply ..

@[simp] theorem set_coins_self (v : CoinsView) (t : UInt256) (c : CCoins) :
    (v.set t c).coins t = c.normalize := by rw [set_coins, if_pos rfl]

theorem set_coins_of_ne {v : CoinsView} {t x : UInt256} {c : CCoins} (h : x ≠ t) :
    (v.set t c).coins x = v.coins x := by rw [set_coins, if_neg h]

@[simp] theorem set_hashBlock (v : CoinsView) (t : UInt256) (c : CCoins) :
    (v.set t c).hashBlock = v.hashBlock := rfl

theorem mem_unspent {v : CoinsView} {o : COutPoint} :
    o ∈ v.unspent ↔ ((v.coins o.hash).out o.n).isSome := Iff.rfl

end CoinsView

/-! ## Connecting -/

/-- The outpoints `UpdateCoins` spends. -/
def CTransaction.spends (tx : CTransaction) : List COutPoint :=
  if tx.isCoinBase then [] else tx.vin.map CTxIn.prevout

/-- The first loop of `UpdateCoins`; `none` when its assertion fails. -/
def spendInputs (v : CoinsView) : List COutPoint → Option (List CTxInUndo × CoinsView)
  | [] => some ([], v)
  | o :: os =>
      match (v.coins o.hash).spend o.n with
      | none => none
      | some (u, c) =>
          match spendInputs (v.set o.hash c) os with
          | none => none
          | some (us, v') => some (u :: us, v')

/-- `UpdateCoins`. -/
def updateCoins (tx : CTransaction) (v : CoinsView) (nHeight : ℤ) : Option (CTxUndo × CoinsView) :=
  match spendInputs v tx.spends with
  | none => none
  | some (us, v') => some (⟨us⟩, v'.set tx.hash (CCoins.fromTx tx nHeight))

/-- `UpdateCoins` on the transactions of a block in order, with their undo records. -/
def updateCoinsAll (nHeight : ℤ) (v : CoinsView) :
    List CTransaction → Option (List CTxUndo × CoinsView)
  | [] => some ([], v)
  | tx :: txs =>
      match updateCoins tx v nHeight with
      | none => none
      | some (undo, v') =>
          match updateCoinsAll nHeight v' txs with
          | none => none
          | some (undos, v'') => some (undo :: undos, v'')

/-! ## Disconnecting -/

/-- Check that the outputs of a transaction are as the block made them, and remove them. -/
def removeOutputs (v : CoinsView) (tx : CTransaction) (nHeight : ℤ) : CoinsView × Bool :=
  let outs := (v.coins tx.hash).clearUnspendable
  let outsBlock := CCoins.fromTx tx nHeight
  let outs := if outsBlock.nVersion < 0 then { outs with nVersion := outsBlock.nVersion } else outs
  (v.set tx.hash {}, outs.eq outsBlock)

/-- Restore inputs, the last one first. -/
def restoreInputs (v : CoinsView) : List (COutPoint × CTxInUndo) → CoinsView × Bool
  | [] => (v, true)
  | (o, u) :: rest =>
      let (v', fClean) := restoreInputs v rest
      let (c, ok) := u.restore o.n (v'.coins o.hash)
      (v'.set o.hash c, fClean && ok)

/-- Disconnect one transaction. -/
def disconnectCoins (nHeight : ℤ) (v : CoinsView) (tx : CTransaction) (undo : CTxUndo) :
    CoinsView × Bool :=
  let (v₁, ok₁) := removeOutputs v tx nHeight
  let (v₂, ok₂) := restoreInputs v₁ (tx.spends.zip undo.vprevout)
  (v₂, ok₁ && ok₂)

/-- Disconnect transactions, the last one first. -/
def disconnectCoinsAll (nHeight : ℤ) (v : CoinsView) :
    List (CTransaction × CTxUndo) → CoinsView × Bool
  | [] => (v, true)
  | (tx, undo) :: rest =>
      let (v₁, ok₁) := disconnectCoinsAll nHeight v rest
      let (v₂, ok₂) := disconnectCoins nHeight v₁ tx undo
      (v₂, ok₁ && ok₂)

/-! ## Well-formedness is kept -/

namespace CoinsView

theorem wellFormed_empty : CoinsView.empty.WellFormed :=
  ⟨fun _ => CCoins.nullsDefault_default, fun _ o ho => absurd ho (by simp [CoinsView.empty]),
    fun t ht => absurd ht (by simp [CoinsView.empty])⟩

theorem WellFormed.set {v : CoinsView} (hv : v.WellFormed) {t : UInt256} {c : CCoins}
    (hn : c.NullsDefault) (hs : ∀ o ∈ c.vout, CScript.isUnspendable o.scriptPubKey = false)
    (hh : c.isPruned = false → 1 ≤ c.nHeight) : (v.set t c).WellFormed := by
  have key : ∀ x, (v.set t c).coins x = c.normalize ∨ (v.set t c).coins x = v.coins x := by
    intro x
    rw [set_coins]
    split
    · exact Or.inl rfl
    · exact Or.inr rfl
  refine ⟨fun x => ?_, fun x => ?_, fun x => ?_⟩
  · rcases key x with h | h <;> rw [h]
    · exact hn.normalize
    · exact hv.nulls x
  · rcases key x with h | h <;> rw [h]
    · intro o ho
      unfold CCoins.normalize at ho
      split at ho
      · exact absurd ho (by simp)
      · exact hs o (mem_of_mem_trim ho)
    · exact hv.spendable x
  · rcases key x with h | h <;> rw [h]
    · intro hp
      rw [CCoins.isPruned_normalize] at hp
      rw [CCoins.normalize_of_not_isPruned hp]
      exact hh hp
    · exact hv.height x

end CoinsView

theorem CCoins.mem_vout_spend {c c' : CCoins} {n : ℕ} {u : CTxInUndo}
    (h : c.spend n = some (u, c')) : ∀ o ∈ c'.vout, o ∈ c.vout ∨ o = CTxOut.null := by
  have hset : ∀ o ∈ ({ c with vout := c.vout.set n CTxOut.null } : CCoins).cleanup.vout,
      o ∈ c.vout ∨ o = CTxOut.null :=
    fun o ho => List.mem_or_eq_of_mem_set (mem_of_mem_trim ho)
  unfold CCoins.spend at h
  split at h
  · exact absurd h (by simp)
  · split at h
    · exact absurd h (by simp)
    · simp only at h
      split at h <;>
      · simp only [Option.some.injEq, Prod.mk.injEq] at h
        rw [← h.2]
        exact hset

theorem CoinsView.WellFormed.spend {v : CoinsView} (hv : v.WellFormed) {t : UInt256} {n : ℕ}
    {u : CTxInUndo} {c : CCoins} (h : (v.coins t).spend n = some (u, c)) :
    (v.set t c).WellFormed := by
  refine hv.set ((hv.nulls t).spend h) (fun o ho => ?_) fun hp => ?_
  · rcases CCoins.mem_vout_spend h o ho with hm | rfl
    · exact hv.spendable t o hm
    · rfl
  · obtain ⟨-, -, -, -, hheight, -, -⟩ := CCoins.spend_eq_some h
    rw [hheight]
    exact hv.height t (CCoins.not_isPruned_of_spend h)

theorem wellFormed_spendInputs {os : List COutPoint} :
    ∀ {v v' : CoinsView} {us : List CTxInUndo}, v.WellFormed →
      spendInputs v os = some (us, v') → v'.WellFormed := by
  induction os with
  | nil =>
    intro v v' us hv h
    simp only [spendInputs, Option.some.injEq, Prod.mk.injEq] at h
    rwa [← h.2]
  | cons o os ih =>
    intro v v' us hv h
    simp only [spendInputs] at h
    split at h
    · exact absurd h (by simp)
    · next u c hs =>
      split at h
      · exact absurd h (by simp)
      · next us' v'' hrest =>
        simp only [Option.some.injEq, Prod.mk.injEq] at h
        rw [← h.2]
        exact ih (hv.spend hs) hrest

theorem CCoins.spendable_fromTx (tx : CTransaction) (h : ℤ) :
    ∀ o ∈ (CCoins.fromTx tx h).vout, CScript.isUnspendable o.scriptPubKey = false := by
  intro o ho
  have hm := mem_of_mem_trim ho
  simp only [List.mem_map] at hm
  obtain ⟨o', -, rfl⟩ := hm
  split
  · rfl
  · next h => simpa using h

theorem updateCoins_eq_some {v v' : CoinsView} {tx : CTransaction} {h : ℤ} {undo : CTxUndo}
    (hu : updateCoins tx v h = some (undo, v')) :
    ∃ us v₁, spendInputs v tx.spends = some (us, v₁) ∧ undo = ⟨us⟩ ∧
      v' = v₁.set tx.hash (CCoins.fromTx tx h) := by
  unfold updateCoins at hu
  split at hu
  · exact absurd hu (by simp)
  · next us v₁ hs =>
    simp only [Option.some.injEq, Prod.mk.injEq] at hu
    exact ⟨us, v₁, hs, hu.1.symm, hu.2.symm⟩

theorem updateCoinsAll_cons_eq_some {v v' : CoinsView} {tx : CTransaction} {txs : List CTransaction}
    {h : ℤ} {undos : List CTxUndo} (hu : updateCoinsAll h v (tx :: txs) = some (undos, v')) :
    ∃ undo v₁ undos', updateCoins tx v h = some (undo, v₁) ∧
      updateCoinsAll h v₁ txs = some (undos', v') ∧ undos = undo :: undos' := by
  simp only [updateCoinsAll] at hu
  split at hu
  · exact absurd hu (by simp)
  · next undo v₁ h₁ =>
    split at hu
    · exact absurd hu (by simp)
    · next undos' v₂ h₂ =>
      simp only [Option.some.injEq, Prod.mk.injEq] at hu
      obtain ⟨rfl, rfl⟩ := hu
      exact ⟨undo, v₁, undos', h₁, h₂, rfl⟩

theorem wellFormed_updateCoins {v v' : CoinsView} {tx : CTransaction} {h : ℤ} {undo : CTxUndo}
    (hv : v.WellFormed) (htx : ∀ o ∈ tx.vout, 0 ≤ o.nValue) (hh : 1 ≤ h)
    (hu : updateCoins tx v h = some (undo, v')) : v'.WellFormed := by
  unfold updateCoins at hu
  split at hu
  · exact absurd hu (by simp)
  · next us v₁ hs =>
    simp only [Option.some.injEq, Prod.mk.injEq] at hu
    rw [← hu.2]
    exact (wellFormed_spendInputs hv hs).set (CCoins.nullsDefault_fromTx htx h)
      (CCoins.spendable_fromTx tx h) fun _ => hh

theorem wellFormed_updateCoinsAll {h : ℤ} (hh : 1 ≤ h) {txs : List CTransaction} :
    ∀ {v v' : CoinsView} {undos : List CTxUndo}, v.WellFormed →
      (∀ tx ∈ txs, ∀ o ∈ tx.vout, 0 ≤ o.nValue) → updateCoinsAll h v txs = some (undos, v') →
        v'.WellFormed := by
  induction txs with
  | nil =>
    intro v v' undos hv _ hu
    simp only [updateCoinsAll, Option.some.injEq, Prod.mk.injEq] at hu
    rwa [← hu.2]
  | cons tx txs ih =>
    intro v v' undos hv hok hu
    obtain ⟨undo, v₁, undos', h₁, h₂, rfl⟩ := updateCoinsAll_cons_eq_some hu
    exact ih (wellFormed_updateCoins hv (hok tx (by simp)) hh h₁)
      (fun t ht => hok t (by simp [ht])) h₂

/-! ## The round trip, exactly -/

/-- The part of well-formedness that disconnecting keeps. -/
structure Tidy (v : CoinsView) : Prop where
  nulls : ∀ t, (v.coins t).NullsDefault
  spendable : ∀ t, ∀ o ∈ (v.coins t).vout, CScript.isUnspendable o.scriptPubKey = false

theorem CoinsView.WellFormed.tidy {v : CoinsView} (h : v.WellFormed) : Tidy v :=
  ⟨h.nulls, h.spendable⟩

theorem Tidy.set {v : CoinsView} (hv : Tidy v) {t : UInt256} {c : CCoins} (hn : c.NullsDefault)
    (hs : ∀ o ∈ c.vout, CScript.isUnspendable o.scriptPubKey = false) : Tidy (v.set t c) := by
  refine ⟨fun x => ?_, fun x o ho => ?_⟩
  · rw [CoinsView.set_coins]
    split
    · exact hn.normalize
    · exact hv.nulls x
  · rw [CoinsView.set_coins] at ho
    split at ho
    · unfold CCoins.normalize at ho
      split at ho
      · exact absurd ho (by simp)
      · exact hs o (mem_of_mem_trim ho)
    · exact hv.spendable x o ho

theorem CTxInUndo.mem_vout_restore {u : CTxInUndo} {n : ℕ} {c : CCoins} :
    ∀ o ∈ (u.restore n c).1.vout, o ∈ c.vout ∨ o = CTxOut.null ∨ o = u.txout := by
  intro o ho
  simp only [CTxInUndo.restore] at ho
  rcases List.mem_or_eq_of_mem_set ho with hm | rfl
  · rcases mem_grow hm with hm' | rfl
    · split at hm'
      · exact absurd hm' (by simp)
      · exact Or.inl hm'
    · exact Or.inr (Or.inl rfl)
  · exact Or.inr (Or.inr rfl)

theorem Tidy.restoreInputs {os : List COutPoint} :
    ∀ {v v' : CoinsView} {us : List CTxInUndo} {w : CoinsView}, v.WellFormed →
      spendInputs v os = some (us, v') → Tidy w → Tidy (restoreInputs w (os.zip us)).1 := by
  induction os with
  | nil => exact fun _ _ hw => by simpa [FairCoin.restoreInputs] using hw
  | cons o os ih =>
    intro v v' us w hv h hw
    simp only [spendInputs] at h
    split at h
    · exact absurd h (by simp)
    · next u c hs =>
      split at h
      · exact absurd h (by simp)
      · next us' v'' hrest =>
        simp only [Option.some.injEq, Prod.mk.injEq] at h
        obtain ⟨rfl, rfl⟩ := h
        have hout := slot_eq_some_iff.1 (CCoins.spend_eq_some hs).1
        have hih := ih (hv.spend hs) hrest hw
        simp only [List.zip_cons_cons, FairCoin.restoreInputs]
        refine hih.set (CTxInUndo.nullsDefault_restore hout.2 (hih.nulls _)) fun q hq => ?_
        rcases CTxInUndo.mem_vout_restore q hq with hm | rfl | rfl
        · exact hih.spendable _ q hm
        · rfl
        · exact hv.spendable _ _ (List.mem_of_getElem? hout.1)

theorem removeOutputs_fst (w : CoinsView) (tx : CTransaction) (h : ℤ) :
    (removeOutputs w tx h).1 = w.set tx.hash {} := rfl

theorem Tidy.removeOutputs {w : CoinsView} (hw : Tidy w) (tx : CTransaction) (h : ℤ) :
    Tidy (removeOutputs w tx h).1 :=
  hw.set CCoins.nullsDefault_default fun o ho => absurd ho (by simp)

theorem Tidy.disconnectCoins {v v₁ w : CoinsView} {tx : CTransaction} {h : ℤ}
    {us : List CTxInUndo} (hv : v.WellFormed) (hs : spendInputs v tx.spends = some (us, v₁))
    (hw : Tidy w) : Tidy (disconnectCoins h w tx ⟨us⟩).1 :=
  (hw.removeOutputs tx h).restoreInputs hv hs

/-- What the transactions of a block are required to satisfy by `CheckTransaction`, and by
the precondition of the round trip. -/
def OutputsOk (txs : List CTransaction) : Prop :=
  ∀ tx ∈ txs, (∀ o ∈ tx.vout, 0 ≤ o.nValue) ∧ 0 ≤ tx.nVersion

theorem Tidy.disconnectCoinsAll {h : ℤ} (hh : 1 ≤ h) {txs : List CTransaction} :
    ∀ {v v' w : CoinsView} {undos : List CTxUndo}, v.WellFormed → OutputsOk txs →
      updateCoinsAll h v txs = some (undos, v') → Tidy w →
        Tidy (disconnectCoinsAll h w (txs.zip undos)).1 := by
  induction txs with
  | nil => exact fun _ _ _ hw => by simpa [FairCoin.disconnectCoinsAll] using hw
  | cons tx txs ih =>
    intro v v' w undos hv hok hu hw
    obtain ⟨undo, v₁, undos', h₁, h₂, rfl⟩ := updateCoinsAll_cons_eq_some hu
    have hv₁ := wellFormed_updateCoins hv (hok tx (by simp)).1 hh h₁
    obtain ⟨us, v₀, hs, rfl, -⟩ := updateCoins_eq_some h₁
    exact Tidy.disconnectCoins hv hs (h := h) (ih hv₁ (fun t ht => hok t (by simp [ht])) h₂ hw)

end FairCoin
