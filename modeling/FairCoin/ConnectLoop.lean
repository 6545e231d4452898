import FairCoin.Connect

/-!
# The transaction loop of `ConnectBlock`

What the loop leaves behind when it runs to the end, as functions of the block and the
view it starts from.

* `ForallTxs`, `sumTxs` — a property and a sum over the transactions of a block, each on
  the view it is connected to.
* `blockValueIn`, `blockValueOut`, `blockFees` — the exact values of the three 64-bit sums.
* `connectTx_ok`, `connectTxs_ok` — one pass through the loop body and the whole loop: the
  coins and undo data of `updateCoinsAll`, the sums modulo `2 ^ 64`, the index batches.
* `disconnectTxs_eq` — the loop of `DisconnectBlock` on the transactions of a checked block.
-/

namespace FairCoin

/-! ## Over the transactions of a block -/

/-- A property of every transaction on the view it is connected to. -/
def ForallTxs (nHeight : ℤ) (P : CoinsView → CTransaction → Prop) (v : CoinsView) :
    List CTransaction → Prop
  | [] => True
  | tx :: txs => P v tx ∧ ∀ undo v', updateCoins tx v nHeight = some (undo, v') →
      ForallTxs nHeight P v' txs

/-- A sum over the transactions, each on the view it is connected to. -/
def sumTxs (nHeight : ℤ) (f : CoinsView → CTransaction → ℤ) (v : CoinsView) :
    List CTransaction → ℤ
  | [] => 0
  | tx :: txs => f v tx + match updateCoins tx v nHeight with
    | some (_, v') => sumTxs nHeight f v' txs
    | none => 0

theorem sumTxs_cons {nHeight : ℤ} {f : CoinsView → CTransaction → ℤ} {v v' : CoinsView}
    {tx : CTransaction} {txs : List CTransaction} {undo : CTxUndo}
    (h : updateCoins tx v nHeight = some (undo, v')) :
    sumTxs nHeight f v (tx :: txs) = f v tx + sumTxs nHeight f v' txs := by
  rw [sumTxs, h]

theorem sumTxs_sub {nHeight : ℤ} {f g : CoinsView → CTransaction → ℤ} {txs : List CTransaction} :
    ∀ {v : CoinsView}, sumTxs nHeight (fun v tx => f v tx - g v tx) v txs =
      sumTxs nHeight f v txs - sumTxs nHeight g v txs := by
  induction txs with
  | nil => exact fun {v} => rfl
  | cons tx txs ih =>
    intro v
    simp only [sumTxs]
    split
    · rw [ih]
      ring
    · ring

theorem ForallTxs.imp {nHeight : ℤ} {P Q : CoinsView → CTransaction → Prop}
    (himp : ∀ v tx, P v tx → Q v tx) {txs : List CTransaction} :
    ∀ {v : CoinsView}, ForallTxs nHeight P v txs → ForallTxs nHeight Q v txs := by
  induction txs with
  | nil => exact fun _ => trivial
  | cons tx txs ih => exact fun h => ⟨himp _ _ h.1, fun undo v' hu => ih (h.2 undo v' hu)⟩

/-- The fee of a transaction; a coinbase and a coinstake have none. -/
def CTransaction.fee (v : CoinsView) (tx : CTransaction) : ℤ :=
  if tx.isCoinBase || tx.isCoinStake then 0 else tx.valueIn v - tx.valueOut

/-- What the block spends. -/
def blockValueIn (nHeight : ℤ) (v : CoinsView) (txs : List CTransaction) : ℤ :=
  sumTxs nHeight (fun v tx => tx.valueIn v) v txs

/-- What the block creates. -/
def blockValueOut (txs : List CTransaction) : ℤ := (txs.map CTransaction.valueOut).sum

/-- The fees of the block. -/
def blockFees (nHeight : ℤ) (v : CoinsView) (txs : List CTransaction) : ℤ :=
  sumTxs nHeight (fun v tx => tx.fee v) v txs

/-- The index entries for a transaction. -/
def txBatch (env : Env) (nHeight : ℤ) (i : ℕ) (v : CoinsView) (tx : CTransaction) : IndexBatch :=
  (if tx.isCoinBase then {} else spendEntries env nHeight i tx v) ++ receiveEntries env nHeight i tx

/-- The index entries for the transactions of a block from number `i` on. -/
def blockBatch (env : Env) (nHeight : ℤ) : ℕ → CoinsView → List CTransaction → IndexBatch
  | _, _, [] => {}
  | i, v, tx :: txs => txBatch env nHeight i v tx ++ match updateCoins tx v nHeight with
    | some (_, v') => blockBatch env nHeight (i + 1) v' txs
    | none => {}

/-! ## One transaction -/

theorem wrap64_add_left (a b : ℤ) : wrap64 (wrap64 a + b) = wrap64 (a + b) :=
  Int.bmod_add_bmod

theorem wrap64_add_right (a b : ℤ) : wrap64 (a + wrap64 b) = wrap64 (a + b) :=
  Int.add_bmod_bmod

theorem IndexBatch.append_assoc (a b c : IndexBatch) : a ++ b ++ c = a ++ (b ++ c) := by
  change IndexBatch.append (IndexBatch.append a b) c = IndexBatch.append a (IndexBatch.append b c)
  simp [IndexBatch.append]

@[simp] theorem IndexBatch.append_empty (a : IndexBatch) : a ++ ({} : IndexBatch) = a := by
  change IndexBatch.append a {} = a
  simp [IndexBatch.append]

@[simp] theorem IndexBatch.empty_append (a : IndexBatch) : ({} : IndexBatch) ++ a = a := by
  change IndexBatch.append {} a = a
  simp [IndexBatch.append]

theorem hashBlock_spendInputs {os : List COutPoint} :
    ∀ {v v' : CoinsView} {us : List CTxInUndo}, spendInputs v os = some (us, v') →
      v'.hashBlock = v.hashBlock := by
  induction os with
  | nil =>
    intro v v' us h
    simp only [spendInputs, Option.some.injEq, Prod.mk.injEq] at h
    rw [h.2]
  | cons o os ih =>
    intro v v' us h
    obtain ⟨u, c, us', hs, hrest, rfl⟩ := spendInputs_cons_eq_some h
    rw [ih hrest, CoinsView.set_hashBlock]

theorem hashBlock_updateCoins {v v' : CoinsView} {tx : CTransaction} {h : ℤ} {undo : CTxUndo}
    (hu : updateCoins tx v h = some (undo, v')) : v'.hashBlock = v.hashBlock := by
  obtain ⟨us, v₁, hs, -, rfl⟩ := updateCoins_eq_some hu
  rw [CoinsView.set_hashBlock, hashBlock_spendInputs hs]

/-- What one pass through the loop body has checked and done. -/
structure TxSpec (env : Env) (p : ConnectParams) (i : ℕ) (tx : CTransaction)
    (s s' : ConnectState) (undo : CTxUndo) : Prop where
  coins : updateCoins tx s.view p.nHeight = some (undo, s'.view)
  inputs : tx.isCoinBase = false → ∃ nSpendHeight, p.nSpendHeight = some nSpendHeight ∧
    InputsOk env.network s.view nSpendHeight tx
  nValueIn : ∀ a, s.nValueIn = wrap64 a → s'.nValueIn = wrap64 (a + tx.valueIn s.view)
  nValueOut : ∀ a, s.nValueOut = wrap64 a → s'.nValueOut = wrap64 (a + tx.valueOut)
  nFees : ∀ a, s.nFees = wrap64 a → s'.nFees = wrap64 (a + tx.fee s.view)
  vtxundo : s'.vtxundo = s.vtxundo ++ if 0 < i then [undo] else []
  batch : s'.batch = s.batch ++ txBatch env p.nHeight i s.view tx

theorem CTransaction.spends_of_isCoinBase {tx : CTransaction} (h : tx.isCoinBase = true) :
    tx.spends = [] := by
  rw [CTransaction.spends, if_pos h]

theorem CTransaction.spends_of_not_isCoinBase {tx : CTransaction} (h : tx.isCoinBase = false) :
    tx.spends = tx.vin.map CTxIn.prevout := by
  rw [CTransaction.spends, if_neg (by simp [h])]

/-- The end of the loop body. -/
theorem connectOutputs_ok {env : Env} {p : ConnectParams} {i : ℕ} {tx : CTransaction}
    {s s' : ConnectState} (htx : tx.Checked env.network)
    (h : connectOutputs env p i tx s = .ok s') : ∃ undo,
      updateCoins tx s.view p.nHeight = some (undo, s'.view) ∧
      s'.nFees = s.nFees ∧ s'.nValueIn = s.nValueIn ∧
      s'.nValueOut = wrap64 (s.nValueOut + tx.valueOut) ∧
      s'.vtxundo = s.vtxundo ++ (if 0 < i then [undo] else []) ∧
      s'.batch = s.batch ++ receiveEntries env p.nHeight i tx ∧ s'.scriptsOk = s.scriptsOk := by
  rw [connectOutputs, htx.getValueOut] at h
  simp only at h
  split at h
  · exact absurd h (by simp)
  · next undo view hu =>
    simp only [Except.ok.injEq] at h
    subst h
    refine ⟨undo, hu, rfl, rfl, rfl, ?_, rfl, rfl⟩
    by_cases hi : 0 < i <;> simp [hi]

/-- The middle of the loop body, for a transaction that is not a coinbase. -/
theorem connectSpends_ok {env : Env} {p : ConnectParams} {i : ℕ} {tx : CTransaction}
    {s s' : ConnectState} (hcb : tx.isCoinBase = false) (htx : tx.Checked env.network)
    (h : connectSpends env p i tx s = .ok s') : ∃ nSpendHeight,
      p.nSpendHeight = some nSpendHeight ∧ InputsOk env.network s.view nSpendHeight tx ∧
      s'.view = s.view ∧
      s'.nFees = (if tx.isCoinStake then s.nFees else
        wrap64 (s.nFees + wrap64 (tx.valueIn s.view - tx.valueOut))) ∧
      s'.nValueIn = wrap64 (s.nValueIn + tx.valueIn s.view) ∧ s'.nValueOut = s.nValueOut ∧
      s'.vtxundo = s.vtxundo ∧ s'.batch = s.batch ++ spendEntries env p.nHeight i tx s.view := by
  simp only [connectSpends, bind_eq_ok, require_eq_ok, exists_const, addFees,
    htx.getValueOut] at h
  obtain ⟨-, -, nFees, hfees, h⟩ := h
  cases hsp : p.nSpendHeight with
  | none =>
    rw [hsp] at h
    exact absurd h (by simp)
  | some nSpendHeight =>
    rw [hsp] at h
    obtain ⟨scripts, hin, h⟩ := bind_eq_ok.1 h
    simp only [Except.ok.injEq] at h
    subst h
    have hok := checkInputs_ok hcb htx hin
    refine ⟨nSpendHeight, rfl, hok, rfl, ?_, by simp only [hok.getValueIn], rfl, rfl, rfl⟩
    rw [hok.getValueIn] at hfees
    cases hst : tx.isCoinStake
    all_goals
      rw [hst] at hfees
      simpa using hfees.symm

theorem connectTx_ok {env : Env} {p : ConnectParams} {i : ℕ} {tx : CTransaction}
    {s s' : ConnectState} (htx : tx.Checked env.network) (h : connectTx env p i tx s = .ok s') :
    ∃ undo, TxSpec env p i tx s s' undo := by
  simp only [connectTx, bind_eq_ok, require_eq_ok, exists_const] at h
  obtain ⟨-, s₁, hin, hout⟩ := h
  obtain ⟨undo, hu, hf, hvi, hvo, hun, hb, -⟩ := connectOutputs_ok htx hout
  cases hcb : tx.isCoinBase with
  | true =>
    rw [connectInputs, if_pos hcb] at hin
    simp only [Except.ok.injEq] at hin
    subst hin
    have hzero : tx.valueIn s.view = 0 := by
      rw [CTransaction.valueIn, CTransaction.spends_of_isCoinBase hcb]
      rfl
    refine ⟨undo, hu, fun hno => ?_, fun a ha => ?_, fun a ha => ?_, fun a ha => ?_, hun, ?_⟩
    · rw [hcb] at hno
      exact absurd hno (by simp)
    · rw [hvi, hzero, add_zero]
      exact ha
    · rw [hvo]
      simp only [ha, wrap64_add_left]
    · rw [hf, CTransaction.fee, hcb]
      simpa using ha
    · rw [hb, txBatch, hcb, if_pos rfl, IndexBatch.empty_append]
  | false =>
    rw [connectInputs, if_neg (by simp [hcb])] at hin
    obtain ⟨nSpendHeight, hsp, hok, hv₁, hf₁, hvi₁, hvo₁, hun₁, hb₁⟩ := connectSpends_ok hcb htx hin
    rw [hv₁] at hu
    refine ⟨undo, hu, fun _ => ⟨nSpendHeight, hsp, hok⟩, fun a ha => ?_, fun a ha => ?_,
      fun a ha => ?_, by rw [hun, hun₁], ?_⟩
    · rw [hvi, hvi₁]
      simp only [ha, wrap64_add_left]
    · rw [hvo, hvo₁]
      simp only [ha, wrap64_add_left]
    · rw [hf, hf₁, CTransaction.fee, hcb, Bool.false_or]
      simp only [ha]
      split
      · rw [add_zero]
      · rw [wrap64_add_left, wrap64_add_right]
    · rw [hb, hb₁, txBatch, hcb, if_neg (by simp), IndexBatch.append_assoc]

/-! ## The loop -/

/-- What the loop has checked and done. -/
structure LoopSpec (env : Env) (p : ConnectParams) (i : ℕ) (txs : List CTransaction)
    (s s' : ConnectState) (undos : List CTxUndo) : Prop where
  coins : updateCoinsAll p.nHeight s.view txs = some (undos, s'.view)
  inputs : ForallTxs p.nHeight (fun v tx => tx.isCoinBase = false → ∃ nSpendHeight,
    p.nSpendHeight = some nSpendHeight ∧ InputsOk env.network v nSpendHeight tx) s.view txs
  nValueIn : ∀ a, s.nValueIn = wrap64 a →
    s'.nValueIn = wrap64 (a + blockValueIn p.nHeight s.view txs)
  nValueOut : ∀ a, s.nValueOut = wrap64 a → s'.nValueOut = wrap64 (a + blockValueOut txs)
  nFees : ∀ a, s.nFees = wrap64 a → s'.nFees = wrap64 (a + blockFees p.nHeight s.view txs)
  vtxundo : s'.vtxundo = s.vtxundo ++ if 0 < i then undos else undos.tail
  batch : s'.batch = s.batch ++ blockBatch env p.nHeight i s.view txs
  hashBlock : s'.view.hashBlock = s.view.hashBlock

/-- **The loop of `ConnectBlock`.** -/
theorem connectTxs_ok {env : Env} {p : ConnectParams} {txs : List CTransaction} :
    ∀ {i : ℕ} {s s' : ConnectState}, (∀ tx ∈ txs, tx.Checked env.network) →
      connectTxs env p i txs s = .ok s' → ∃ undos, LoopSpec env p i txs s s' undos := by
  induction txs with
  | nil =>
    intro i s s' _ h
    simp only [connectTxs, Except.ok.injEq] at h
    subst h
    refine ⟨[], rfl, trivial, fun a ha => ?_, fun a ha => ?_, fun a ha => ?_, by simp, ?_, rfl⟩
    · simpa [blockValueIn, sumTxs] using ha
    · simpa [blockValueOut] using ha
    · simpa [blockFees, sumTxs] using ha
    · rw [blockBatch, IndexBatch.append_empty]
  | cons tx txs ih =>
    intro i s s' htxs h
    simp only [connectTxs, bind_eq_ok] at h
    obtain ⟨s₁, h₁, h₂⟩ := h
    obtain ⟨undo, ht⟩ := connectTx_ok (htxs tx (by simp)) h₁
    obtain ⟨undos, hl⟩ := ih (fun t htm => htxs t (by simp [htm])) h₂
    refine ⟨undo :: undos, ?_, ⟨ht.inputs, fun undo' v' hu => ?_⟩, fun a ha => ?_, fun a ha => ?_,
      fun a ha => ?_, ?_, ?_, hl.hashBlock.trans (hashBlock_updateCoins ht.coins)⟩
    · simp only [updateCoinsAll, ht.coins, hl.coins]
    · rw [ht.coins] at hu
      cases hu
      exact hl.inputs
    · rw [hl.nValueIn _ (ht.nValueIn a ha), blockValueIn, blockValueIn, sumTxs_cons ht.coins,
        add_assoc]
    · rw [hl.nValueOut _ (ht.nValueOut a ha), blockValueOut, blockValueOut, List.map_cons,
        List.sum_cons, add_assoc]
    · rw [hl.nFees _ (ht.nFees a ha), blockFees, blockFees, sumTxs_cons ht.coins, add_assoc]
    · rw [hl.vtxundo, ht.vtxundo]
      by_cases hi : 0 < i <;> simp [hi]
    · rw [hl.batch, ht.batch, blockBatch, ht.coins, IndexBatch.append_assoc]

/-- The loop of a block that `ConnectBlock` accepts. -/
theorem ConnectSpec.loop {env : Env} {block : CBlock} {node node' : Node}
    {pindex pindex' : CBlockIndex} {view view' : CoinsView} {s : ConnectState}
    (h : ConnectSpec env block node node' pindex pindex' view view' s) :
    (bip30Exempt pindex = true ∨ ∀ tx ∈ block.vtx, (view.coins tx.hash).isPruned = true) ∧
      ∃ undos, LoopSpec env (connectParams env node.tree block pindex view) 0 block.vtx
        { view := view, pos := ⟨pindex.getBlockPos, getSizeOfCompactSize block.vtx.length⟩ } s
        undos := by
  have hchecks := h.checks
  simp only [connectChecks, bind_eq_ok, require_eq_ok, exists_const, Bool.or_eq_true,
    List.all_eq_true] at hchecks
  obtain ⟨-, -, hbip30, hloop⟩ := hchecks
  exact ⟨hbip30, connectTxs_ok h.checked.txs hloop⟩

/-- What the loop of an accepted block does to the coins, and that it respects maturity when
the entry is one above its parent. -/
theorem ConnectSpec.coins {env : Env} {block : CBlock} {node node' : Node}
    {pindex pindex' : CBlockIndex} {view view' : CoinsView} {s : ConnectState}
    (h : ConnectSpec env block node node' pindex pindex' view view' s) : ∃ undos,
      updateCoinsAll pindex.nHeight view block.vtx = some (undos, s.view) ∧
      s.vtxundo = undos.tail ∧ s.batch = blockBatch env pindex.nHeight 0 view block.vtx ∧
      s.nValueIn = wrap64 (blockValueIn pindex.nHeight view block.vtx) ∧
      s.nValueOut = wrap64 (blockValueOut block.vtx) ∧
      s.nFees = wrap64 (blockFees pindex.nHeight view block.vtx) := by
  obtain ⟨-, undos, hl⟩ := h.loop
  have hzero : (0 : ℤ) = wrap64 0 := rfl
  refine ⟨undos, hl.coins, hl.vtxundo, ?_, ?_, ?_, ?_⟩
  · rw [hl.batch, IndexBatch.empty_append]
    rfl
  · rw [hl.nValueIn 0 hzero, zero_add]
    rfl
  · rw [hl.nValueOut 0 hzero, zero_add]
  · rw [hl.nFees 0 hzero, zero_add]
    rfl

/-- The entry of a block is one above the entry of its parent. -/
def CBlockIndex.AboveParent (pindex : CBlockIndex) (tree : BlockTree) : Prop :=
  ∀ h p, pindex.pprev = some h → tree.mapBlockIndex.lookup h = some p →
    pindex.nHeight = p.nHeight + 1

theorem ConnectSpec.inputs {env : Env} {block : CBlock} {node node' : Node}
    {pindex pindex' : CBlockIndex} {view view' : CoinsView} {s : ConnectState}
    (h : ConnectSpec env block node node' pindex pindex' view view' s)
    (hprev : pindex.pprev = some view.hashBlock) (habove : pindex.AboveParent node.tree) :
    ForallTxs pindex.nHeight (fun v tx => tx.isCoinBase = false →
      InputsOk env.network v pindex.nHeight tx) view block.vtx := by
  obtain ⟨-, undos, hl⟩ := h.loop
  refine hl.inputs.imp fun v tx hin hcb => ?_
  obtain ⟨nSpendHeight, hsp, hok⟩ := hin hcb
  have hsp' : (node.tree.mapBlockIndex.lookup view.hashBlock).map (fun p => p.nHeight + 1) =
      some nSpendHeight := hsp
  rw [Option.map_eq_some_iff] at hsp'
  obtain ⟨p, hp, rfl⟩ := hsp'
  rw [habove _ p hprev hp]
  exact hok

end FairCoin
