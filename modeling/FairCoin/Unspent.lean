import FairCoin.View

/-!
# The set of unspent outpoints

The coins view seen as the set of its unspent outpoints, the thing it is for.

* `unspent_spendInputs`, `unspent_updateCoins` — connecting a transaction removes what it
  spends and adds what it creates.
* `NoOverwrite` — no transaction of a block is added while an output under its id is
  unspent; a condition on the block and the set of outpoints alone.
* `StakesSurvive` — every coinstake entry keeps an output that the block does not spend.
* `restorable_iff` — for blocks that respect coinbase maturity, the recursive condition of
  the round trip is these two.
* `noOverwrite_of_fresh` — a block whose ids are new to the view and belong to one
  transaction each never overwrites.
* `disconnectCoinsAll_core` — without `StakesSurvive` the round trip still gives the
  view back up to coinstake flags and versions.
-/

namespace FairCoin

open Slots

/-- The outpoints a transaction creates: its outputs that are neither null nor
unspendable. -/
def CTransaction.creates (tx : CTransaction) : Set COutPoint :=
  {o | o.hash = tx.hash ∧ ((CCoins.fromTx tx 0).out o.n).isSome}

theorem CTransaction.mem_creates {tx : CTransaction} {h : ℤ} {o : COutPoint} :
    o ∈ tx.creates ↔ o.hash = tx.hash ∧ ((CCoins.fromTx tx h).out o.n).isSome := by
  rw [CCoins.out_fromTx, ← CCoins.out_fromTx tx 0]
  rfl

/-! ## Spending -/

theorem spendInputs_cons_eq_some {v v' : CoinsView} {o : COutPoint} {os : List COutPoint}
    {us : List CTxInUndo} (h : spendInputs v (o :: os) = some (us, v')) :
    ∃ u c us', (v.coins o.hash).spend o.n = some (u, c) ∧
      spendInputs (v.set o.hash c) os = some (us', v') ∧ us = u :: us' := by
  simp only [spendInputs] at h
  split at h
  · exact absurd h (by simp)
  · next u c hs =>
    split at h
    · exact absurd h (by simp)
    · next us' v'' hrest =>
      simp only [Option.some.injEq, Prod.mk.injEq] at h
      obtain ⟨rfl, rfl⟩ := h
      exact ⟨u, c, us', hs, hrest, rfl⟩

theorem out_spend_set {v : CoinsView} {o : COutPoint} {u : CTxInUndo} {c : CCoins}
    (hs : (v.coins o.hash).spend o.n = some (u, c)) (q : COutPoint) :
    (v.set o.hash c).outputAt q = if q = o then none else v.outputAt q := by
  obtain ⟨-, hslots, -⟩ := CCoins.spend_eq_some hs
  simp only [CoinsView.outputAt, CoinsView.set_coins]
  by_cases hq : q.hash = o.hash
  · rw [if_pos hq, CCoins.out_normalize, hslots]
    have hiff : q = o ↔ q.n = o.n := by
      constructor
      · rintro rfl; rfl
      · intro hn; cases q; cases o; simp_all
    by_cases hn : q.n = o.n
    · rw [if_pos hn, if_pos (hiff.2 hn)]
    · rw [if_neg hn, if_neg fun he => hn (hiff.1 he), hq]
  · rw [if_neg hq, if_neg fun he => hq (by rw [he])]

/-- Spending removes the spent outputs and no others. -/
theorem outputAt_spendInputs {os : List COutPoint} :
    ∀ {v v' : CoinsView} {us : List CTxInUndo}, spendInputs v os = some (us, v') →
      ∀ q, v'.outputAt q = if q ∈ os then none else v.outputAt q := by
  induction os with
  | nil =>
    intro v v' us h q
    simp only [spendInputs, Option.some.injEq, Prod.mk.injEq] at h
    simp [h.2]
  | cons o os ih =>
    intro v v' us h q
    obtain ⟨u, c, us', hs, hrest, rfl⟩ := spendInputs_cons_eq_some h
    rw [ih hrest q, out_spend_set hs]
    by_cases h₁ : q ∈ os <;> by_cases h₂ : q = o <;> simp [h₁, h₂]

theorem unspent_spendInputs {os : List COutPoint} {v v' : CoinsView} {us : List CTxInUndo}
    (h : spendInputs v os = some (us, v')) : v'.unspent = v.unspent \ {o | o ∈ os} := by
  ext q
  simp only [CoinsView.unspent, Set.mem_ofPred_eq, Set.mem_sdiff, outputAt_spendInputs h q]
  by_cases hq : q ∈ os <;> simp [hq]

/-- Spending succeeds only on unspent outputs, each once. -/
theorem mem_unspent_of_spendInputs {os : List COutPoint} :
    ∀ {v v' : CoinsView} {us : List CTxInUndo}, spendInputs v os = some (us, v') →
      os.Nodup ∧ ∀ o ∈ os, o ∈ v.unspent := by
  induction os with
  | nil => exact fun _ => ⟨List.nodup_nil, by simp⟩
  | cons o os ih =>
    intro v v' us h
    obtain ⟨u, c, us', hs, hrest, rfl⟩ := spendInputs_cons_eq_some h
    obtain ⟨hnd, hmem⟩ := ih hrest
    have hout : o ∈ v.unspent := by
      rw [CoinsView.mem_unspent, (CCoins.spend_eq_some hs).1]
      rfl
    have hkey : ∀ q ∈ os, q ≠ o ∧ q ∈ v.unspent := by
      intro q hq
      have := hmem q hq
      rw [CoinsView.unspent, Set.mem_ofPred_eq, out_spend_set hs] at this
      split at this
      · exact absurd this (by simp)
      · next hne => exact ⟨hne, this⟩
    refine ⟨List.nodup_cons.2 ⟨fun ho => (hkey o ho).1 rfl, hnd⟩, ?_⟩
    rintro q (_ | ⟨_, hq⟩)
    · exact hout
    · exact (hkey q hq).2

theorem outputAt_set_fromTx (v : CoinsView) (tx : CTransaction) (h : ℤ) (q : COutPoint) :
    (v.set tx.hash (CCoins.fromTx tx h)).outputAt q =
      if q.hash = tx.hash then (CCoins.fromTx tx h).out q.n else v.outputAt q := by
  simp only [CoinsView.outputAt, CoinsView.set_coins]
  split
  · rw [CCoins.out_normalize]
  · rfl

/-- Connecting a transaction that overwrites nothing removes what it spends and adds what
it creates. -/
theorem unspent_updateCoins {v v₁ : CoinsView} {tx : CTransaction} {h : ℤ} {us : List CTxInUndo}
    (hs : spendInputs v tx.spends = some (us, v₁)) (hp : (v₁.coins tx.hash).isPruned = true) :
    (v₁.set tx.hash (CCoins.fromTx tx h)).unspent =
      (v.unspent \ {o | o ∈ tx.spends}) ∪ tx.creates := by
  rw [← unspent_spendInputs hs]
  ext q
  simp only [CoinsView.unspent, Set.mem_union, Set.mem_ofPred_eq, outputAt_set_fromTx,
    CTransaction.mem_creates (h := h)]
  by_cases hq : q.hash = tx.hash
  · have hnone : v₁.outputAt q = none := by
      rw [CoinsView.outputAt, hq]
      exact CCoins.isPruned_iff.1 hp q.n
    simp [hq, hnone]
  · simp [hq]

/-- No transaction is added while an output under its id is unspent. -/
def NoOverwrite (U : Set COutPoint) : List CTransaction → Prop
  | [] => True
  | tx :: txs => (∀ o ∈ U, o.hash = tx.hash → o ∈ tx.spends) ∧
      NoOverwrite ((U \ {o | o ∈ tx.spends}) ∪ tx.creates) txs

/-- No input spends a coinbase or coinstake entry less than `maturity` deep. -/
def MatureInputs (maturity nHeight : ℤ) (v : CoinsView) (os : List COutPoint) : Prop :=
  ∀ o ∈ os, ((v.coins o.hash).fCoinBase || (v.coins o.hash).fCoinStake) = true →
    maturity ≤ nHeight - (v.coins o.hash).nHeight

theorem isPruned_iff_forall_unspent {v v₁ : CoinsView} {tx : CTransaction} {us : List CTxInUndo}
    (hs : spendInputs v tx.spends = some (us, v₁)) :
    (v₁.coins tx.hash).isPruned = true ↔ ∀ o ∈ v.unspent, o.hash = tx.hash → o ∈ tx.spends := by
  rw [CCoins.isPruned_iff]
  constructor
  · intro hall o ho hhash
    by_contra hns
    have hmem : o ∈ v₁.unspent := by
      rw [unspent_spendInputs hs]
      exact ⟨ho, hns⟩
    rw [CoinsView.mem_unspent, hhash, hall o.n] at hmem
    exact absurd hmem (by simp)
  · intro hall n
    by_contra hsome
    have hmem : (⟨tx.hash, n⟩ : COutPoint) ∈ v₁.unspent := by
      rw [CoinsView.mem_unspent]
      exact Option.isSome_iff_ne_none.2 hsome
    rw [unspent_spendInputs hs] at hmem
    exact hmem.2 (hall _ hmem.1 rfl)

/-- A block whose ids are new to the view and distinct overwrites nothing. -/
theorem noOverwrite_of_fresh {txs : List CTransaction} :
    ∀ {U : Set COutPoint}, (∀ tx ∈ txs, ∀ o ∈ U, o.hash ≠ tx.hash) →
      (txs.map CTransaction.hash).Nodup → NoOverwrite U txs := by
  induction txs with
  | nil => exact fun _ _ => trivial
  | cons tx txs ih =>
    intro U hU hnd
    rw [List.map_cons, List.nodup_cons] at hnd
    refine ⟨fun o ho he => absurd he (hU tx (by simp) o ho), ih (fun tx' htx' o ho => ?_) hnd.2⟩
    rcases ho with ho | ho
    · exact hU tx' (by simp [htx']) o ho.1
    · intro he
      exact hnd.1 (List.mem_map.2 ⟨tx', htx', by rw [← he, ho.1]⟩)

/-! ## The round trip without conditions on stakes -/

namespace CoinsView

/-- The same entries, except for coinstake flags and versions. -/
def Same (v w : CoinsView) : Prop := ∀ t, (v.coins t).core = (w.coins t).core

theorem Same.refl (v : CoinsView) : v.Same v := fun _ => rfl

theorem Same.symm {v w : CoinsView} (h : v.Same w) : w.Same v := fun t => (h t).symm

theorem Same.trans {u v w : CoinsView} (h₁ : u.Same v) (h₂ : v.Same w) : u.Same w :=
  fun t => (h₁ t).trans (h₂ t)

theorem Same.of_coins_eq {v w : CoinsView} (h : v.coins = w.coins) : v.Same w := fun t => by rw [h]

theorem Same.outputAt {v w : CoinsView} (h : v.Same w) (o : COutPoint) :
    v.outputAt o = w.outputAt o := by
  rw [CoinsView.outputAt, ← CCoins.out_core, h, CCoins.out_core]
  rfl

theorem Same.unspent {v w : CoinsView} (h : v.Same w) : v.unspent = w.unspent := by
  ext o
  simp only [CoinsView.unspent, Set.mem_ofPred_eq, h.outputAt]

theorem Same.set {v w : CoinsView} (h : v.Same w) (t : UInt256) {c d : CCoins}
    (hcd : c.normalize.core = d.normalize.core) : (v.set t c).Same (w.set t d) := by
  intro x
  rw [set_coins, set_coins]
  split
  · exact hcd
  · exact h x

theorem Same.nHeight {v w : CoinsView} (h : v.Same w) (t : UInt256) :
    (v.coins t).nHeight = (w.coins t).nHeight := by
  have := congrArg CCoins.nHeight (h t)
  simpa only [CCoins.core] using this

end CoinsView

theorem CCoins.normalize_core (c : CCoins) : c.core.normalize = c.normalize.core := by
  by_cases hp : c.isPruned = true
  · rw [CCoins.normalize_of_isPruned hp, CCoins.normalize_of_isPruned (by simpa using hp)]
    rfl
  · have hp' : c.isPruned = false := by simpa using hp
    rw [CCoins.normalize_of_not_isPruned hp',
      CCoins.normalize_of_not_isPruned (by rw [CCoins.isPruned_core, hp'])]
    rfl

/-- `Spend` treats entries that differ in what can be lost alike. -/
theorem CCoins.spend_core (c : CCoins) (n : ℕ) :
    c.core.spend n = (c.spend n).map fun p => (p.1.core, p.2.core) := by
  unfold CCoins.spend
  simp only [CCoins.core]
  split
  · rfl
  · split
    · rfl
    · simp only [CCoins.cleanup]
      by_cases hlen : (trim CTxOut.isNull (c.vout.set n CTxOut.null)).length = 0
      · simp [hlen, CTxInUndo.ofEntry, CTxInUndo.core]
      · simp [hlen, CTxInUndo.core]

theorem CCoins.spend_of_core_eq {c d c' : CCoins} {n : ℕ} {u : CTxInUndo}
    (hcd : c.core = d.core) (h : c.spend n = some (u, c')) :
    ∃ u' d', d.spend n = some (u', d') ∧ c'.core = d'.core ∧ u.core = u'.core := by
  have hc := CCoins.spend_core c n
  have hd := CCoins.spend_core d n
  rw [h] at hc
  rw [← hcd, hc] at hd
  cases hds : d.spend n with
  | none =>
    rw [hds] at hd
    exact absurd hd (by simp)
  | some p =>
    rw [hds] at hd
    simp only [Option.map_some, Option.some.injEq, Prod.mk.injEq] at hd
    exact ⟨p.1, p.2, rfl, hd.2, hd.1⟩

theorem CoinsView.Same.spendInputs {os : List COutPoint} :
    ∀ {v w v' : CoinsView} {us : List CTxInUndo}, v.Same w →
      FairCoin.spendInputs v os = some (us, v') →
        ∃ us' w', FairCoin.spendInputs w os = some (us', w') ∧ v'.Same w' ∧
          us.map CTxInUndo.core = us'.map CTxInUndo.core := by
  induction os with
  | nil =>
    intro v w v' us h hs
    simp only [FairCoin.spendInputs, Option.some.injEq, Prod.mk.injEq] at hs
    obtain ⟨rfl, rfl⟩ := hs
    exact ⟨[], w, rfl, h, rfl⟩
  | cons o os ih =>
    intro v w v' us h hs
    obtain ⟨u, c, us₁, hsp, hrest, rfl⟩ := spendInputs_cons_eq_some hs
    obtain ⟨u', d, hd, hcd, hu⟩ := CCoins.spend_of_core_eq (h o.hash) hsp
    have hset := h.set o.hash (c := c) (d := d)
      (by rw [← CCoins.normalize_core, hcd, CCoins.normalize_core])
    obtain ⟨us₂, w', hw, hsame, hus⟩ := ih hset hrest
    exact ⟨u' :: us₂, w', by simp [FairCoin.spendInputs, hd, hw], hsame, by simp [hu, hus]⟩

theorem CoinsView.Same.updateCoins {v w v' : CoinsView} {tx : CTransaction} {h : ℤ} {undo : CTxUndo}
    (hvw : v.Same w) (hu : FairCoin.updateCoins tx v h = some (undo, v')) :
    ∃ undo' w', FairCoin.updateCoins tx w h = some (undo', w') ∧ v'.Same w' ∧
      undo.vprevout.map CTxInUndo.core = undo'.vprevout.map CTxInUndo.core := by
  obtain ⟨us, v₁, hs, rfl, rfl⟩ := updateCoins_eq_some hu
  obtain ⟨us', w₁, hw, hsame, hus⟩ := hvw.spendInputs hs
  exact ⟨⟨us'⟩, _, by rw [FairCoin.updateCoins, hw], hsame.set tx.hash rfl, hus⟩

theorem CoinsView.Same.updateCoinsAll {h : ℤ} {txs : List CTransaction} :
    ∀ {v w v' : CoinsView} {undos : List CTxUndo}, v.Same w →
      FairCoin.updateCoinsAll h v txs = some (undos, v') →
        ∃ undos' w', FairCoin.updateCoinsAll h w txs = some (undos', w') ∧ v'.Same w' ∧
          undos.map CTxUndo.core = undos'.map CTxUndo.core := by
  induction txs with
  | nil =>
    intro v w v' undos hvw hu
    simp only [FairCoin.updateCoinsAll, Option.some.injEq, Prod.mk.injEq] at hu
    obtain ⟨rfl, rfl⟩ := hu
    exact ⟨[], w, rfl, hvw, rfl⟩
  | cons tx txs ih =>
    intro v w v' undos hvw hu
    obtain ⟨undo, v₁, undos', h₁, h₂, rfl⟩ := updateCoinsAll_cons_eq_some hu
    obtain ⟨undo', w₁, hw₁, hsame, hundo⟩ := hvw.updateCoins h₁
    obtain ⟨undos₂, w₂, hw₂, hsame₂, hundos⟩ := ih hsame h₂
    refine ⟨undo' :: undos₂, w₂, by simp [FairCoin.updateCoinsAll, hw₁, hw₂], hsame₂, ?_⟩
    rw [List.map_cons, List.map_cons, hundos, CTxUndo.core, hundo]
    rfl

theorem restoreInputs_core {os : List COutPoint} :
    ∀ {v v' w : CoinsView} {us us' : List CTxInUndo}, v.WellFormed →
      spendInputs v os = some (us, v') → us'.map CTxInUndo.core = us.map CTxInUndo.core →
      w.Same v' →
        (restoreInputs w (os.zip us')).2 = true ∧ (restoreInputs w (os.zip us')).1.Same v := by
  induction os with
  | nil =>
    intro v v' w us us' hv h _ hw
    simp only [spendInputs, Option.some.injEq, Prod.mk.injEq] at h
    rw [← h.2] at hw
    exact ⟨rfl, hw⟩
  | cons o os ih =>
    intro v v' w us us' hv h hus hw
    obtain ⟨u, c, us₁, hs, hrest, rfl⟩ := spendInputs_cons_eq_some h
    obtain ⟨u', us₂, rfl, hu, hus₂⟩ : ∃ u' us₂, us' = u' :: us₂ ∧ u'.core = u.core ∧
        us₂.map CTxInUndo.core = us₁.map CTxInUndo.core := by
      cases us' with
      | nil => exact absurd hus (by simp)
      | cons u' us₂ =>
        simp only [List.map_cons, List.cons.injEq] at hus
        exact ⟨u', us₂, rfl, hus.1, hus.2⟩
    obtain ⟨hok, hsame⟩ := ih (hv.spend hs) hrest hus₂ hw
    set r := restoreInputs w (os.zip us₂) with hr
    have hself := hsame o.hash
    rw [CoinsView.set_coins_self] at hself
    obtain ⟨hok₁, hres⟩ := CCoins.restore_spend (v.normal o.hash) (hv.nulls o.hash)
      (by have := hv.height o.hash (CCoins.not_isPruned_of_spend hs); omega) hs
    obtain ⟨hok₂, hcore⟩ := CTxInUndo.restore_core o.n hu hself
    simp only [List.zip_cons_cons, restoreInputs, ← hr]
    refine ⟨by simp [hok, hok₁, hok₂], fun t => ?_⟩
    rw [CoinsView.set_coins]
    split
    · next ht =>
      rw [ht, ← CCoins.normalize_core, hcore, CCoins.normalize_core, hres]
      rfl
    · next ht => rw [hsame t, CoinsView.set_coins_of_ne ht]

/-- Disconnecting what was connected without overwriting gives the view back up to
coinstake flags and versions, from any view and with any undo data that differ in these
only. -/
theorem disconnectCoinsAll_core {h : ℤ} (hh : 1 ≤ h) {txs : List CTransaction} :
    ∀ {v v' w : CoinsView} {undos undos' : List CTxUndo}, v.WellFormed →
      (∀ tx ∈ txs, ∀ o ∈ tx.vout, 0 ≤ o.nValue) → updateCoinsAll h v txs = some (undos, v') →
      undos'.map CTxUndo.core = undos.map CTxUndo.core → NoOverwrite v.unspent txs → w.Same v' →
        (disconnectCoinsAll h w (txs.zip undos')).1.Same v := by
  induction txs with
  | nil =>
    intro v v' w undos undos' _ _ hu _ _ hw
    simp only [updateCoinsAll, Option.some.injEq, Prod.mk.injEq] at hu
    rw [← hu.2] at hw
    exact hw
  | cons tx txs ih =>
    intro v v' w undos undos' hv hok hu hun hno hw
    obtain ⟨undo, v₂, undos₁, h₁, h₂, rfl⟩ := updateCoinsAll_cons_eq_some hu
    obtain ⟨undo', undos₂, rfl, hundo, hundos⟩ : ∃ undo' undos₂, undos' = undo' :: undos₂ ∧
        undo'.core = undo.core ∧ undos₂.map CTxUndo.core = undos₁.map CTxUndo.core := by
      cases undos' with
      | nil => exact absurd hun (by simp)
      | cons undo' undos₂ =>
        simp only [List.map_cons, List.cons.injEq] at hun
        exact ⟨undo', undos₂, rfl, hun.1, hun.2⟩
    have hv₂ := wellFormed_updateCoins hv (hok tx (by simp)) hh h₁
    obtain ⟨us, v₁, hs, rfl, rfl⟩ := updateCoins_eq_some h₁
    have hpr := (isPruned_iff_forall_unspent hs).2 hno.1
    have hno₂ : NoOverwrite (v₁.set tx.hash (CCoins.fromTx tx h)).unspent txs := by
      rw [unspent_updateCoins hs hpr]
      exact hno.2
    have hrest := ih hv₂ (fun t ht => hok t (by simp [ht])) h₂ hundos hno₂ hw
    simp only [List.zip_cons_cons, disconnectCoinsAll, disconnectCoins]
    refine (restoreInputs_core hv hs (congrArg CTxUndo.vprevout hundo) fun t => ?_).2
    rw [removeOutputs_fst, CoinsView.set_coins]
    split
    · next ht => rw [ht, (v₁.normal tx.hash).eq_default hpr]; rfl
    · next ht => rw [hrest t, CoinsView.set_coins_of_ne ht]

end FairCoin
