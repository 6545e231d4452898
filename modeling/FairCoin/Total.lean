import FairCoin.Reward

/-!
# The value of the coins view

The total of the unspent outputs and how connecting a block changes it.

* `CoinsView.total` — the sum over all entries.
* `CTransaction.dropped` — the value of the outputs `FromTx` drops as unspendable.
* `total_updateCoins` — a transaction moves what it spends to what it creates.
* `total_updateCoinsAll` — **conservation**: over a block that overwrites nothing, the total
  and what was dropped grow by the exact mint of the block.
* `noOverwrite_of_bip30` — a block that passes the BIP30 test, and whose transaction ids stand
  for one transaction each, overwrites nothing.
-/

namespace FairCoin

open Slots

/-! ## Entries -/

/-- The value of an output slot; a spent one is worth nothing. -/
def CTxOut.worth (o : CTxOut) : ℤ := if o.isNull then 0 else o.nValue

/-- The value of the unspent outputs of an entry. -/
def CCoins.value (c : CCoins) : ℤ := (c.vout.map CTxOut.worth).sum

/-- The outputs of a transaction that can never be spent. -/
def CTransaction.dropped (tx : CTransaction) : ℤ :=
  (tx.vout.map fun o => if o.scriptPubKey.isUnspendable then o.nValue else 0).sum

/-- The value of the unspendable outputs of a block. -/
def droppedAll (txs : List CTransaction) : ℤ := (txs.map CTransaction.dropped).sum

theorem sum_trim_worth (l : List CTxOut) :
    ((trim CTxOut.isNull l).map CTxOut.worth).sum = (l.map CTxOut.worth).sum := by
  induction l using List.reverseRecOn with
  | nil => simp
  | append_singleton l o ih =>
    rw [trim_concat]
    split
    · next ho =>
      rw [ih]
      simp [CTxOut.worth, ho]
    · rfl

namespace CCoins

@[simp] theorem value_cleanup (c : CCoins) : c.cleanup.value = c.value := sum_trim_worth c.vout

@[simp] theorem value_default : ({} : CCoins).value = 0 := rfl

theorem value_of_isPruned {c : CCoins} (h : c.isPruned = true) : c.value = 0 := by
  rw [CCoins.isPruned, List.all_eq_true] at h
  refine List.sum_eq_zero fun x hx => ?_
  obtain ⟨o, ho, rfl⟩ := List.mem_map.1 hx
  rw [CTxOut.worth, if_pos (h o ho)]

@[simp] theorem value_normalize (c : CCoins) : c.normalize.value = c.value := by
  by_cases hp : c.isPruned = true
  · rw [normalize_of_isPruned hp, value_default, value_of_isPruned hp]
  · rw [normalize_of_not_isPruned (by simpa using hp), value_cleanup]

theorem value_core (c : CCoins) : c.core.value = c.value := rfl

/-- Spending an output takes its value away. -/
theorem value_spend {c c' : CCoins} {n : ℕ} {u : CTxInUndo} (h : c.spend n = some (u, c')) :
    c'.value = c.value - u.txout.nValue := by
  have hset : ∀ o, c.vout[n]? = some o → o.isNull = false →
      ({ c with vout := c.vout.set n CTxOut.null } : CCoins).cleanup.value = c.value - o.nValue := by
    intro o ho hn
    obtain ⟨hlt, hget⟩ := List.getElem?_eq_some_iff.1 ho
    rw [value_cleanup, CCoins.value, List.map_set, List.sum_set']
    simp only [List.length_map, hlt, dif_pos, List.getElem_map, hget]
    simp only [CTxOut.worth, CTxOut.isNull_null, hn, if_true, Bool.false_eq_true, if_false, CCoins.value]
    ring
  unfold CCoins.spend at h
  split at h
  · exact absurd h (by simp)
  · next o ho =>
    split at h
    · exact absurd h (by simp)
    · next hn =>
      simp only at h
      split at h <;>
      · simp only [Option.some.injEq, Prod.mk.injEq] at h
        obtain ⟨rfl, rfl⟩ := h
        exact hset o ho (by simpa using hn)

/-- A new entry is worth the outputs that can be spent. -/
theorem value_fromTx {tx : CTransaction} (h : ∀ o ∈ tx.vout, 0 ≤ o.nValue) (nHeight : ℤ) :
    (CCoins.fromTx tx nHeight).value = tx.valueOut - tx.dropped := by
  rw [CCoins.fromTx, CCoins.clearUnspendable, value_cleanup, CCoins.value, CTransaction.valueOut,
    CTransaction.dropped, List.map_map]
  simp only
  generalize tx.vout = vout at h
  induction vout with
  | nil => simp
  | cons o os ih =>
    have hrest := ih fun q hq => h q (by simp [hq])
    have ho := CTxOut.isNull_eq_false_of_nonneg (h o (by simp))
    simp only [List.map_cons, List.sum_cons, hrest, Function.comp_apply]
    cases hu : CScript.isUnspendable o.scriptPubKey
    · simp only [Bool.false_eq_true, if_false, CTxOut.worth, ho]
      ring
    · simp only [if_true, CTxOut.worth, CTxOut.isNull_null]
      ring

end CCoins

/-! ## The view -/

/-- The value of all unspent outputs. -/
noncomputable def CoinsView.total (v : CoinsView) : ℤ := ∑ᶠ t, (v.coins t).value

theorem CoinsView.total_empty : CoinsView.empty.total = 0 := by
  rw [CoinsView.total]
  exact finsum_eq_zero_of_forall_eq_zero fun t => rfl

theorem CoinsView.total_setBestBlock (v : CoinsView) (h : UInt256) :
    (v.setBestBlock h).total = v.total := rfl

/-- Hashes are finite in number. -/
theorem finite_uint256 : Finite UInt256 :=
  Finite.of_injective (fun t : UInt256 => t.toFin) fun _ _ h => BitVec.eq_of_toFin_eq h

/-- Replacing an entry changes the total by the difference. -/
theorem CoinsView.total_set (v : CoinsView) (t : UInt256) (c : CCoins) :
    (v.set t c).total = v.total - (v.coins t).value + c.value := by
  classical
  have := finite_uint256
  have := Fintype.ofFinite UInt256
  rw [CoinsView.total, CoinsView.total, finsum_eq_sum_of_fintype, finsum_eq_sum_of_fintype,
    ← Finset.add_sum_erase _ _ (Finset.mem_univ t), ← Finset.add_sum_erase _ _ (Finset.mem_univ t),
    CoinsView.set_coins_self, CCoins.value_normalize]
  have hrest : ∑ x ∈ Finset.univ.erase t, ((v.set t c).coins x).value =
      ∑ x ∈ Finset.univ.erase t, (v.coins x).value :=
    Finset.sum_congr rfl fun x hx => by
      rw [CoinsView.set_coins_of_ne (Finset.ne_of_mem_erase hx)]
  rw [hrest]
  ring

theorem CoinsView.Same.total {v w : CoinsView} (h : v.Same w) : v.total = w.total := by
  rw [CoinsView.total, CoinsView.total]
  exact finsum_congr fun t => by rw [← CCoins.value_core, h t, CCoins.value_core]

theorem CoinsView.total_nonneg {v : CoinsView} (h : ∀ t, ∀ o ∈ (v.coins t).vout, 0 ≤ o.worth) :
    0 ≤ v.total :=
  finsum_nonneg fun t => List.sum_nonneg fun x hx => by
    obtain ⟨o, ho, rfl⟩ := List.mem_map.1 hx
    exact h t o ho

/-! ## Conservation -/

theorem valueAt_of_spend {v : CoinsView} {o : COutPoint} {u : CTxInUndo} {c : CCoins}
    (hs : (v.coins o.hash).spend o.n = some (u, c)) : valueAt v o = u.txout.nValue := by
  rw [valueAt, CoinsView.outputAt, (CCoins.spend_eq_some hs).1]
  rfl

theorem total_spendInputs {os : List COutPoint} :
    ∀ {v v' : CoinsView} {us : List CTxInUndo}, spendInputs v os = some (us, v') →
      v'.total = v.total - (os.map (valueAt v)).sum := by
  induction os with
  | nil =>
    intro v v' us h
    simp only [spendInputs, Option.some.injEq, Prod.mk.injEq] at h
    simp [h.2]
  | cons o os ih =>
    intro v v' us h
    have hnd := (mem_unspent_of_spendInputs h).1
    obtain ⟨u, c, us', hs, hrest, rfl⟩ := spendInputs_cons_eq_some h
    -- the other outputs keep their value when the first is spent
    have hmap : os.map (valueAt (v.set o.hash c)) = os.map (valueAt v) := by
      refine List.map_congr_left fun q hq => ?_
      have hne : q ≠ o := fun he => (List.nodup_cons.1 hnd).1 (he ▸ hq)
      rw [valueAt, valueAt, out_spend_set hs, if_neg hne]
    rw [ih hrest, hmap, CoinsView.total_set, CCoins.value_spend hs, List.map_cons, List.sum_cons,
      valueAt_of_spend hs]
    ring

/-- A transaction that overwrites nothing moves what it spends to what it creates. -/
theorem total_updateCoins {v v₁ : CoinsView} {tx : CTransaction} {us : List CTxInUndo}
    (hs : spendInputs v tx.spends = some (us, v₁)) (hp : (v₁.coins tx.hash).isPruned = true)
    (hpos : ∀ o ∈ tx.vout, 0 ≤ o.nValue) (h : ℤ) :
    (v₁.set tx.hash (CCoins.fromTx tx h)).total =
      v.total - tx.valueIn v + (tx.valueOut - tx.dropped) := by
  rw [CoinsView.total_set, total_spendInputs hs, CCoins.value_of_isPruned hp,
    CCoins.value_fromTx hpos, CTransaction.valueIn]
  ring

/-- **Conservation.**  The total and what is dropped grow by the mint of the block. -/
theorem total_updateCoinsAll {h : ℤ} {txs : List CTransaction} :
    ∀ {v v' : CoinsView} {undos : List CTxUndo}, updateCoinsAll h v txs = some (undos, v') →
      (∀ tx ∈ txs, ∀ o ∈ tx.vout, 0 ≤ o.nValue) → NoOverwrite v.unspent txs →
        v'.total + droppedAll txs = v.total + blockMint h v txs := by
  induction txs with
  | nil =>
    intro v v' undos hu _ _
    simp only [updateCoinsAll, Option.some.injEq, Prod.mk.injEq] at hu
    rw [← hu.2]
    rfl
  | cons tx txs ih =>
    intro v v' undos hu hpos hno
    obtain ⟨undo, v₂, undos', h₁, h₂, rfl⟩ := updateCoinsAll_cons_eq_some hu
    rw [blockMint_cons h₁]
    obtain ⟨us, v₁, hs, rfl, rfl⟩ := updateCoins_eq_some h₁
    have hpr := (isPruned_iff_forall_unspent hs).2 hno.1
    have hno₂ : NoOverwrite (v₁.set tx.hash (CCoins.fromTx tx h)).unspent txs := by
      rw [unspent_updateCoins hs hpr]
      exact hno.2
    have hih := ih h₂ (fun t ht => hpos t (by simp [ht])) hno₂
    rw [total_updateCoins hs hpr (hpos tx (by simp)) h] at hih
    rw [droppedAll] at hih
    rw [droppedAll, List.map_cons, List.sum_cons]
    linarith

/-! ## Blocks that pass BIP30 -/

/-- Transaction ids stand for one transaction each. -/
def HashInjective (txs : List CTransaction) : Prop :=
  ∀ tx ∈ txs, ∀ tx' ∈ txs, tx.hash = tx'.hash → tx = tx'

/-- Where the outputs that are unspent in the middle of a block come from. -/
theorem mem_unspent_updateCoins {v v' : CoinsView} {tx : CTransaction} {h : ℤ} {undo : CTxUndo}
    (hu : updateCoins tx v h = some (undo, v')) {o : COutPoint} (ho : o ∈ v'.unspent) :
    o.hash = tx.hash ∨ (o ∈ v.unspent ∧ o ∉ tx.spends) := by
  obtain ⟨us, v₁, hs, -, rfl⟩ := updateCoins_eq_some hu
  by_cases hh : o.hash = tx.hash
  · exact .inl hh
  · right
    rw [CoinsView.mem_unspent, CoinsView.set_coins_of_ne hh] at ho
    have : o ∈ v₁.unspent := ho
    rw [unspent_spendInputs hs] at this
    exact this

/-- The hashes of the transactions still to come are new, as long as what was spent so far
cannot come back. -/
theorem nodup_hash_aux {h : ℤ} {U : Set COutPoint} {all : List CTransaction}
    (hinj : HashInjective all) (hfresh : ∀ tx ∈ all, ∀ o ∈ U, o.hash ≠ tx.hash)
    {txs : List CTransaction} : ∀ (before : List CTransaction) {v v' : CoinsView}
      {undos : List CTxUndo}, before ++ txs = all → updateCoinsAll h v txs = some (undos, v') →
      (∀ tx ∈ txs, tx.spends ≠ [] ∨ before = []) → (∀ tx ∈ txs.tail, tx.spends ≠ []) →
      (before.map CTransaction.hash).Nodup →
      (∀ o ∈ v.unspent, o ∈ U ∨ o.hash ∈ before.map CTransaction.hash) →
      (∀ tx ∈ before, ∀ o ∈ tx.spends, o ∉ v.unspent ∧
        (o ∈ U ∨ o.hash ∈ before.map CTransaction.hash)) →
        (all.map CTransaction.hash).Nodup := by
  induction txs with
  | nil =>
    intro before v v' undos hall _ _ _ hnd _ _
    rw [← hall, List.append_nil]
    exact hnd
  | cons tx txs ih =>
    intro before v v' undos hall hu hfirst htail hnd horigin hspent
    obtain ⟨undo, v₁, undos', h₁, h₂, rfl⟩ := updateCoinsAll_cons_eq_some hu
    have htx : tx ∈ all := by rw [← hall]; simp
    have hbefore : ∀ t ∈ before, t ∈ all := fun t ht => by rw [← hall]; simp [ht]
    have hin : ∀ o ∈ tx.spends, o ∈ v.unspent := by
      obtain ⟨us, v₀, hs, -, -⟩ := updateCoins_eq_some h₁
      exact (mem_unspent_of_spendInputs hs).2
    -- a second copy would have to spend what the first one spent
    have hnew : tx.hash ∉ before.map CTransaction.hash := by
      intro hmem
      obtain ⟨t, ht, hth⟩ := List.mem_map.1 hmem
      obtain rfl := hinj t (hbefore t ht) tx htx hth
      rcases hfirst t (by simp) with hne | hnil
      · obtain ⟨o, ho⟩ := List.exists_mem_of_ne_nil _ hne
        exact (hspent t ht o ho).1 (hin o ho)
      · rw [hnil] at ht
        exact absurd ht (by simp)
    have hother : ∀ o, (o ∈ U ∨ o.hash ∈ before.map CTransaction.hash) → o.hash ≠ tx.hash := by
      rintro o (ho | ho) he
      · exact hfresh tx htx o ho he
      · exact hnew (he ▸ ho)
    have hmap : (before ++ [tx]).map CTransaction.hash =
        before.map CTransaction.hash ++ [tx.hash] := by simp
    refine ih (before ++ [tx]) (by rw [← hall]; simp) h₂
      (fun t ht => .inl (htail t (by simpa using ht)))
      (fun t ht => htail t (by simpa using List.mem_of_mem_tail ht)) ?_ ?_ ?_
    · rw [hmap]
      exact List.nodup_append.2 ⟨hnd, by simp, by simpa using fun a ha he => hnew (by
        rw [← he]; exact List.mem_map.2 ⟨a, ha, rfl⟩)⟩
    · intro o ho
      rw [hmap]
      rcases mem_unspent_updateCoins h₁ ho with hh | ⟨ho', -⟩
      · right
        simp [hh]
      · rcases horigin o ho' with hU | hb
        · exact .inl hU
        · exact .inr (List.mem_append_left _ hb)
    · intro t ht o ho
      rw [hmap]
      have hsrc : (o ∈ U ∨ o.hash ∈ before.map CTransaction.hash) ∧
          (o ∈ v.unspent → o ∈ tx.spends) := by
        rcases List.mem_append.1 ht with ht | ht
        · obtain ⟨hgone, hsrc⟩ := hspent t ht o ho
          exact ⟨hsrc, fun h => absurd h hgone⟩
        · obtain rfl : t = tx := by simpa using ht
          exact ⟨horigin o (hin o ho), fun _ => ho⟩
      refine ⟨fun hun => ?_, hsrc.1.imp_right fun hb => List.mem_append_left _ hb⟩
      rcases mem_unspent_updateCoins h₁ hun with hh | ⟨hun', hns⟩
      · exact hother o hsrc.1 hh
      · exact hns (hsrc.2 hun')

/-- **BIP30 is enough.**  A block whose ids stand for one transaction each, and are not in
use in the view, overwrites nothing. -/
theorem noOverwrite_of_bip30 {h : ℤ} {v v' : CoinsView} {undos : List CTxUndo}
    {txs : List CTransaction} (hu : updateCoinsAll h v txs = some (undos, v'))
    (hbip30 : ∀ tx ∈ txs, (v.coins tx.hash).isPruned = true) (hinj : HashInjective txs)
    (hspends : ∀ tx ∈ txs.tail, tx.spends ≠ []) : NoOverwrite v.unspent txs := by
  have hfresh : ∀ tx ∈ txs, ∀ o ∈ v.unspent, o.hash ≠ tx.hash := by
    intro tx htx o ho he
    rw [CoinsView.mem_unspent, he, CCoins.isPruned_iff.1 (hbip30 tx htx)] at ho
    exact absurd ho (by simp)
  exact noOverwrite_of_fresh hfresh (nodup_hash_aux hinj hfresh [] rfl hu
    (fun _ _ => .inr rfl) hspends List.nodup_nil (fun o ho => .inl ho)
    fun t ht => absurd ht (by simp))

end FairCoin
