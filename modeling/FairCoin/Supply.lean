import FairCoin.Ledger

/-!
# The money supply

`nMoneySupply` of the tip against the coins that exist.

* `Ledger.total_nonneg` — the coins of a replay and what it dropped are worth at least zero.
* `SupplyInv` — every entry of the active chain carries the total of its ledger and what was
  dropped on the way, and that is within the limits.
* `Fits` — the supply of the parent and what the coinbase and the coinstakes of the block take
  stay below `2 ^ 63`.
* `supply_run` — in every run whose connected blocks fit, `SupplyInv` holds and the 64-bit
  sums are exact.
-/

namespace FairCoin

open Store Slots

/-! ## No output is negative -/

/-- Every unspent output is worth at least zero. -/
def NonnegValues (v : CoinsView) : Prop := ∀ t, ∀ o ∈ (v.coins t).vout, 0 ≤ o.worth

theorem worth_null : CTxOut.null.worth = 0 := rfl

theorem NonnegValues.set {v : CoinsView} (hv : NonnegValues v) (t : UInt256) {c : CCoins}
    (hc : ∀ o ∈ c.vout, 0 ≤ o.worth) : NonnegValues (v.set t c) := by
  intro x o ho
  rw [CoinsView.set_coins] at ho
  split at ho
  · unfold CCoins.normalize at ho
    split at ho
    · exact absurd ho (by simp)
    · exact hc o (mem_of_mem_trim ho)
  · exact hv x o ho

theorem nonnegValues_spendInputs {os : List COutPoint} :
    ∀ {v v' : CoinsView} {us : List CTxInUndo}, NonnegValues v →
      spendInputs v os = some (us, v') → NonnegValues v' := by
  induction os with
  | nil =>
    intro v v' us hv h
    simp only [spendInputs, Option.some.injEq, Prod.mk.injEq] at h
    rwa [← h.2]
  | cons o os ih =>
    intro v v' us hv h
    obtain ⟨u, c, us', hs, hrest, rfl⟩ := spendInputs_cons_eq_some h
    refine ih (hv.set o.hash fun q hq => ?_) hrest
    rcases CCoins.mem_vout_spend hs q hq with hm | rfl
    · exact hv o.hash q hm
    · exact worth_null.ge

theorem nonneg_fromTx {tx : CTransaction} (h : ∀ o ∈ tx.vout, 0 ≤ o.nValue) (nHeight : ℤ) :
    ∀ o ∈ (CCoins.fromTx tx nHeight).vout, 0 ≤ o.worth := by
  intro o ho
  obtain ⟨o', ho', rfl⟩ := List.mem_map.1 (mem_of_mem_trim ho)
  split
  · exact worth_null.ge
  · unfold CTxOut.worth
    split
    · exact le_rfl
    · exact h o' ho'

theorem nonnegValues_updateCoinsAll {h : ℤ} {txs : List CTransaction} :
    ∀ {v v' : CoinsView} {undos : List CTxUndo}, NonnegValues v →
      (∀ tx ∈ txs, ∀ o ∈ tx.vout, 0 ≤ o.nValue) → updateCoinsAll h v txs = some (undos, v') →
        NonnegValues v' := by
  induction txs with
  | nil =>
    intro v v' undos hv _ hu
    simp only [updateCoinsAll, Option.some.injEq, Prod.mk.injEq] at hu
    rwa [← hu.2]
  | cons tx txs ih =>
    intro v v' undos hv hok hu
    obtain ⟨undo, v₁, undos', h₁, h₂, rfl⟩ := updateCoinsAll_cons_eq_some hu
    obtain ⟨us, v₀, hs, -, rfl⟩ := updateCoins_eq_some h₁
    exact ih ((nonnegValues_spendInputs hv hs).set tx.hash (nonneg_fromTx (hok tx (by simp)) h))
      (fun t ht => hok t (by simp [ht])) h₂

theorem droppedAll_nonneg {txs : List CTransaction}
    (h : ∀ tx ∈ txs, ∀ o ∈ tx.vout, 0 ≤ o.nValue) : 0 ≤ droppedAll txs := by
  refine List.sum_nonneg fun x hx => ?_
  obtain ⟨tx, htx, rfl⟩ := List.mem_map.1 hx
  refine List.sum_nonneg fun y hy => ?_
  obtain ⟨o, ho, rfl⟩ := List.mem_map.1 hy
  split
  · exact h tx htx o ho
  · exact le_rfl

namespace Ledger

variable {net : Network} {B : UInt256 → Option TreeBlock} {h : UInt256} {v : CoinsView} {d : ℤ}

theorem nonnegValues (hl : Ledger net B h v d) : NonnegValues v ∧ 0 ≤ d := by
  induction hl with
  | genesis => exact ⟨fun t o ho => absurd ho (by simp [CoinsView.empty]), le_rfl⟩
  | next _ _ _ _ hc _ hu ih =>
    have hpos := fun tx htx => (hc.txs tx htx).nonneg
    exact ⟨nonnegValues_updateCoinsAll ih.1 hpos hu, add_nonneg ih.2 (droppedAll_nonneg hpos)⟩

/-- The coins of a chain and what it dropped are worth at least zero. -/
theorem total_nonneg (hl : Ledger net B h v d) : 0 ≤ v.total ∧ 0 ≤ d :=
  ⟨CoinsView.total_nonneg hl.nonnegValues.1, hl.nonnegValues.2⟩

end Ledger

/-! ## What was dropped in the active chain -/

/-- The value of the unspendable outputs of the block of a hash. -/
def ChainState.droppedAt (st : ChainState) (h : UInt256) : ℤ :=
  ((st.blockAt h).map fun b => droppedAll b.block.vtx).getD 0

/-- The value of the unspendable outputs of the active chain; genesis contributes nothing. -/
def ChainState.dropped (st : ChainState) : ℤ := (st.chain.tail.map st.droppedAt).sum

theorem pprev_of_blockAt {st : ChainState} {h : UInt256} {p : CBlockIndex} {b : TreeBlock}
    (hp : st.entry h = some p) (hb : st.blockAt h = some b) : b.pprev = p.pprev := by
  rw [ChainState.blockAt, hp, Option.bind_some, Option.map_eq_some_iff] at hb
  obtain ⟨blk, -, rfl⟩ := hb
  rfl

/-- A ledger goes one block down the active chain. -/
theorem ledger_down {w : World} {st : ChainState} (hinv : ChainInv w st) {l r : List UInt256}
    {h h' : UInt256} {v : CoinsView} {d : ℤ} (hchain : st.chain = l ++ h' :: h :: r)
    (hl : Ledger w.network st.blockAt h v d) :
    ∃ v₀ d₀, Ledger w.network st.blockAt h' v₀ d₀ ∧ d = d₀ + st.droppedAt h := by
  obtain ⟨p, hp, hpp⟩ := hinv.linked (l ++ [h']) h r (by rw [hchain]; simp)
  rw [List.getLast?_concat] at hpp
  cases hl with
  | genesis =>
    have := (hinv.tree.root _ p hp).2 rfl
    rw [hpp] at this
    exact absurd this (by simp)
  | next hl₀ hb hprev _ _ _ _ =>
    rw [pprev_of_blockAt hp hb, hpp] at hprev
    cases hprev
    exact ⟨_, _, hl₀, by rw [ChainState.droppedAt, hb]; rfl⟩

/-- Every block of the active chain has a ledger. -/
theorem ledger_of_mem_chain {w : World} {st : ChainState} (hinv : ChainInv w st)
    {r : List UInt256} : ∀ {l : List UInt256} {h : UInt256}, st.chain = l ++ h :: r →
      ∃ v d, Ledger w.network st.blockAt h v d := by
  induction r with
  | nil =>
    intro l h hchain
    obtain ⟨-, v, d, hl, -⟩ := hinv.tip h (by rw [hchain, List.getLast?_concat])
    exact ⟨v, d, hl⟩
  | cons h₁ r ih =>
    intro l h hchain
    obtain ⟨v, d, hl⟩ := ih (l := l ++ [h]) (h := h₁) (by rw [hchain]; simp)
    obtain ⟨v₀, d₀, hl₀, -⟩ := ledger_down hinv hchain hl
    exact ⟨v₀, d₀, hl₀⟩

/-- The dropped value of a ledger is the one of the blocks below it. -/
theorem dropped_of_ledger {w : World} {st : ChainState} (hinv : ChainInv w st) {l : List UInt256} :
    ∀ {h : UInt256} {r : List UInt256} {v : CoinsView} {d : ℤ}, st.chain = l ++ h :: r →
      Ledger w.network st.blockAt h v d → d = ((l ++ [h]).tail.map st.droppedAt).sum := by
  induction l using List.reverseRecOn with
  | nil =>
    intro h r v d hchain hl
    obtain ⟨p, hp, hpp⟩ := hinv.linked [] h r hchain
    cases hl with
    | genesis => rfl
    | next _ hb hprev _ _ _ _ =>
      rw [pprev_of_blockAt hp hb, hpp] at hprev
      exact absurd hprev (by simp)
  | append_singleton l h' ih =>
    intro h r v d hchain hl
    have hchain' : st.chain = l ++ h' :: h :: r := by rw [hchain]; simp
    obtain ⟨v₀, d₀, hl₀, rfl⟩ := ledger_down hinv hchain' hl
    rw [ih hchain' hl₀]
    cases l with
    | nil => simp
    | cons a l => simp [add_assoc]

/-! ## The invariant -/

/-- Every entry of the active chain carries its supply: the coins that exist after its block
and what was dropped so far, at most the maximum amount of money.  Genesis has none. -/
structure SupplyInv (w : World) (st : ChainState) : Prop where
  genesis : ∀ p, st.entry w.network.hashGenesisBlock = some p → p.nMoneySupply = 0
  chain : ∀ h ∈ st.chain, ∀ p v d, st.entry h = some p → Ledger w.network st.blockAt h v d →
    p.nMoneySupply = v.total + d ∧ p.nMoneySupply ≤ w.network.maxMoneyOut

/-- What the coinbase and the coinstakes of the block take fits in 64 bits together with the
supply of its parent. -/
def Fits (st : ChainState) : Op → Prop
  | .connect _ hash => ∀ p b, st.entry hash = some p → st.blockAt hash = some b →
      p.supplyPrev st.node.tree + blockReward p.nHeight st.view b.block.vtx < 2 ^ 63
  | _ => True

/-- The mint and the fees of an accepted block are within 64 bits. -/
theorem mint_bounds {w : World} {env : Env} {st : ChainState} {p p' : CBlockIndex} {block : CBlock}
    {view : CoinsView} {node : Node} {s : ConnectState} {hp : UInt256} {v v' : CoinsView} {d S : ℤ}
    {undos : List CTxUndo} (hc : ConnectSpec env block st.node node p p' st.view view s)
    (hl : LedgerStep w st p block view s.vtxundo hp v v' d undos) (hS : S = v.total + d)
    (hmax : S ≤ w.network.maxMoneyOut)
    (hfits : S + blockReward p.nHeight st.view block.vtx < 2 ^ 63) :
    v'.total + (d + droppedAll block.vtx) = S + blockMint p.nHeight st.view block.vtx ∧
      0 ≤ blockFees p.nHeight st.view block.vtx ∧ blockFees p.nHeight st.view block.vtx < 2 ^ 63 ∧
      -2 ^ 63 ≤ blockMint p.nHeight st.view block.vtx ∧
      blockMint p.nHeight st.view block.vtx < 2 ^ 63 ∧
      0 ≤ S + blockMint p.nHeight st.view block.vtx ∧
      S + blockMint p.nHeight st.view block.vtx < 2 ^ 63 := by
  obtain ⟨undos₀, hu₀, -⟩ := hc.coins
  have hno : NoOverwrite st.view.unspent block.vtx := by rw [hl.same.unspent]; exact hl.noOverwrite
  have hpos := fun tx htx => (hl.checked.txs tx htx).nonneg
  have hprev : p.pprev = some st.view.hashBlock := by rw [hl.pprev, hl.best]
  have hin := hc.inputs hprev hl.above
  have hfees := blockFees_nonneg hu₀ hin
  have hmint := blockMint_eq hu₀
  have hcons := total_updateCoinsAll hu₀ hpos hno
  have hview : view.Same s.view := by rw [hc.view_eq]; exact fun t => rfl
  rw [hl.same.total, ← hview.total, hl.same'.total] at hcons
  -- the total afterwards is at least zero, which bounds the mint from below
  have htotal : 0 ≤ v'.total := CoinsView.total_nonneg
    (nonnegValues_updateCoinsAll hl.ledger.nonnegValues.1 hpos hl.coins)
  have hdrop := droppedAll_nonneg hpos
  have hv := hl.ledger.total_nonneg
  have hmoney := w.network.maxMoneyOut_eq
  refine ⟨by omega, hfees, ?_, ?_, ?_, ?_, ?_⟩ <;> omega

/-- **The sums are exact.**  Connecting a block that fits leaves the exact supply in its entry,
and the accumulators of `ConnectBlock` are the exact mint and fees. -/
theorem exact_connected {w : World} {env : Env} {hash : UInt256} {st : ChainState}
    {p p' : CBlockIndex} {block : CBlock} {view : CoinsView} {node : Node} {s : ConnectState}
    {hp : UInt256} {v v' : CoinsView} {d : ℤ} {undos : List CTxUndo} (hinv : ChainInv w st)
    (hsup : SupplyInv w st) (hw : env.In w) (hentry : st.entry hash = some p)
    (hprev : p.pprev = st.chain.getLast?)
    (hblock : st.blockAt hash = some ⟨p.pprev, p.nHeight, block⟩)
    (hfits : Fits st (.connect env hash))
    (hc : ConnectSpec env block st.node node p p' st.view view s)
    (hl : LedgerStep w st p block view s.vtxundo hp v v' d undos) :
    p'.nMoneySupply = v'.total + (d + droppedAll block.vtx) ∧
      p'.nMoneySupply ≤ w.network.maxMoneyOut ∧
      wrap64 (s.nValueOut - s.nValueIn) = blockMint p.nHeight st.view block.vtx ∧
      s.nFees = blockFees p.nHeight st.view block.vtx := by
  obtain ⟨q, hq, -⟩ := hinv.tree.parent hash p hp hentry hl.pprev
  have hmem : hp ∈ st.chain := List.mem_of_getLast? (hprev.symm.trans hl.pprev)
  obtain ⟨hS, hmax⟩ := hsup.chain hp hmem q v d hq hl.ledger
  have hprevSupply : p.supplyPrev st.node.tree = q.nMoneySupply := by
    have hq' : st.node.tree.mapBlockIndex.lookup hp = some q := hq
    rw [CBlockIndex.supplyPrev, hl.pprev, Option.bind_some, hq']
    rfl
  have hfit := hfits p _ hentry hblock
  rw [hprevSupply] at hfit
  obtain ⟨htotal, hf₀, hf₁, hm₀, hm₁, hs₀, hs₁⟩ := mint_bounds hc hl hS hmax hfit
  have hsupply : p'.nMoneySupply = v'.total + (d + droppedAll block.vtx) := by
    rw [hc.pindex_eq, (CBlockIndex.withUndo_nMint _ _).2, (mint_connected hc).2, hprevSupply, htotal]
    exact wrap64_of_lt (by omega) hs₁
  obtain ⟨undos₀, -, -, -, hin, hout, hfees⟩ := hc.coins
  refine ⟨hsupply, ?_, ?_, ?_⟩
  · have hreward := hc.reward
    simp only [checkReward, bind_eq_ok, require_eq_ok, exists_const, decide_eq_true_eq] at hreward
    rw [← hw.1, hc.pindex_eq, (CBlockIndex.withUndo_nMint _ _).2]
    exact hreward.2.1
  · rw [hin, hout, wrap64_sub_left, wrap64_sub_right]
    exact wrap64_of_lt hm₀ hm₁
  · rw [hfees]
    exact wrap64_of_lt (by omega) hf₁

/-! ## Steps -/

theorem supplyInv_accept {w : World} {env : Env} {block : CBlock} {pos : CDiskBlockPos}
    {base : CBlockIndex} {st st' : ChainState} (hinv : ChainInv w st) (hsup : SupplyInv w st)
    (hstep : acceptBlock env block pos base st = .ok st') :
    SupplyInv w st' := by
  obtain ⟨hnew, hfree, pprev, nHeight, hplace, hst'⟩ := acceptBlock_ok hstep
  have hentry : ∀ h, st'.entry h = if h = env.blockHash block.toCBlockHeader then
      some (newEntry (env.blockHash block.toCBlockHeader) pprev nHeight block pos base)
      else st.entry h := fun h => by rw [hst']; exact ChainState.entry_setEntry ..
  have hchain : st'.chain = st.chain := by rw [hst']; rfl
  refine ⟨fun p hp => ?_, fun h hh p v d hp hl => ?_⟩
  · rw [hentry] at hp
    split at hp
    · cases hp
      rfl
    · exact hsup.genesis p hp
  · rw [hchain] at hh
    obtain ⟨l, r, hlr⟩ := List.append_of_mem hh
    obtain ⟨q, hq, -⟩ := hinv.linked l h r hlr
    obtain ⟨v₀, d₀, hl₀⟩ := ledger_of_mem_chain hinv hlr
    have hmono := hl₀.mono (blockAt_accept hstep)
    obtain ⟨rfl, rfl⟩ := hmono.unique hl
    rw [hentry, if_neg] at hp
    · exact hsup.chain h hh p _ _ hp hl₀
    · rintro rfl
      rw [hnew] at hq
      exact absurd hq (by simp)

theorem supplyInv_connect {w : World} {env : Env} {hash : UInt256} {st st' : ChainState}
    (hinv : ChainInv w st) (hsup : SupplyInv w st) (hlawful : Lawful w st (.connect env hash))
    (hfits : Fits st (.connect env hash)) (hstep : connectTip env hash st = .ok st') :
    SupplyInv w st' := by
  obtain ⟨p, p', block, hf, hcase⟩ := connectTip_cases hinv hlawful hstep
  refine ⟨fun q hq => ?_, fun h hh q v₁ d₁ hq hl₁ => ?_⟩
  · rw [hf.entries] at hq
    split at hq
    · next hgen =>
      rcases hcase with ⟨-, hg⟩ | ⟨hgen', -⟩
      · cases hq
        rw [hg.entry]
        exact hsup.genesis p (hgen ▸ hf.entry)
      · exact absurd hgen.symm hgen'
    · exact hsup.genesis q hq
  · rw [hf.blocks] at hl₁
    rw [hf.entries] at hq
    split at hq
    · next hh' =>
      cases hq
      subst hh'
      rcases hcase with ⟨hgen, hg⟩ | ⟨hgen, node, s, hp₀, v, v', d, undos, hb⟩
      · have hroot := (hinv.tree.root h p hf.entry).2 hgen
        subst hgen
        obtain ⟨rfl, rfl⟩ := (Ledger.genesis hf.stored hroot).unique hl₁
        have hzero := hsup.genesis p hf.entry
        rw [hg.entry, hzero, CoinsView.total_empty]
        have := w.network.maxMoneyOut_eq
        omega
      · have hl := Ledger.next hb.ledger.ledger hf.stored hb.ledger.pprev hb.ledger.height
          hb.ledger.checked hb.ledger.noOverwrite hb.ledger.coins
        obtain ⟨rfl, rfl⟩ := hl.unique hl₁
        obtain ⟨hsupply, hmax, -, -⟩ := exact_connected hinv hsup hlawful.1 hf.entry hf.prev
          hf.stored hfits hb.spec hb.ledger
        exact ⟨hsupply, hmax⟩
    · next hne =>
      refine hsup.chain h ?_ q v₁ d₁ hq hl₁
      rw [hf.chain, List.mem_append, List.mem_singleton] at hh
      exact hh.resolve_right hne

theorem supplyInv_disconnect {w : World} {env : Env} {st st' : ChainState} (hinv : ChainInv w st)
    (hsup : SupplyInv w st) (hstep : disconnectTip env st = .ok st') : SupplyInv w st' := by
  obtain ⟨hash, p, block, hp, v, v', d, undos, us, hd⟩ := unledgerStep_disconnected hinv hstep
  refine ⟨fun q hq => hsup.genesis q (hd.entries ▸ hq), fun h hh q v₁ d₁ hq hl₁ => ?_⟩
  rw [hd.entries] at hq
  rw [hd.blocks] at hl₁
  rw [hd.chain'] at hh
  exact hsup.chain h (List.mem_of_mem_dropLast hh) q v₁ d₁ hq hl₁

theorem supplyInv_step {w : World} {st st' : ChainState} {op : Op} (hinv : ChainInv w st)
    (hsup : SupplyInv w st) (hlawful : Lawful w st op) (hfits : Fits st op)
    (hstep : step st op = .ok st') : SupplyInv w st' := by
  cases op with
  | accept env block pos base =>
    exact supplyInv_accept hinv hsup hstep
  | connect env hash => exact supplyInv_connect hinv hsup hlawful hfits hstep
  | disconnect env => exact supplyInv_disconnect hinv hsup hstep

/-- A new node. -/
theorem supplyInv_start (w : World) : SupplyInv w {} :=
  ⟨fun _ hp => (Option.some_ne_none _ hp.symm).elim, fun _ hh => absurd hh (List.not_mem_nil)⟩

/-- The condition of a run: lawful steps that connect blocks that fit. -/
def SupplyStep (w : World) (st : ChainState) (op : Op) : Prop := Lawful w st op ∧ Fits st op

/-- **The money supply.**  After every run from an empty node whose steps are lawful and whose
connected blocks fit, `nMoneySupply` of the tip is the total of the coins view and of the
outputs dropped as unspendable in the active chain, between zero and the maximum amount of
money; and whenever a further block is connected, the 64-bit sums of `ConnectBlock` give its
exact mint and fees. -/
theorem supply_run {w : World} {ops : List Op} {st : ChainState}
    (hcond : Run.Along step (SupplyStep w) {} ops) (hrun : Run.run step {} ops = .ok st) :
    (∀ h p, st.chain.getLast? = some h → st.entry h = some p →
      p.nMoneySupply = st.view.total + st.dropped ∧ 0 ≤ p.nMoneySupply ∧
        p.nMoneySupply ≤ w.network.maxMoneyOut) ∧
    ∀ env hash st' p b s, SupplyStep w st (.connect env hash) → hash ≠ w.network.hashGenesisBlock →
      step st (.connect env hash) = .ok st' → st.entry hash = some p → st.blockAt hash = some b →
      connectChecks env st.node.tree b.block p st.view = .ok s →
        wrap64 (s.nValueOut - s.nValueIn) =
          blockValueOut b.block.vtx - blockValueIn p.nHeight st.view b.block.vtx ∧
        s.nFees = blockFees p.nHeight st.view b.block.vtx := by
  have hboth : ChainInv w st ∧ SupplyInv w st :=
    Run.run_invariant (I := fun st => ChainInv w st ∧ SupplyInv w st)
      (fun _ _ _ hI hC hs => ⟨chainInv_step hI.1 hC.1 hs, supplyInv_step hI.1 hI.2 hC.1 hC.2 hs⟩)
      ⟨chainInv_start w, supplyInv_start w⟩ hcond hrun
  obtain ⟨hinv, hsup⟩ := hboth
  refine ⟨fun h p htip hp => ?_, fun env hash st' p b s hC hgen hstep hp hb hs => ?_⟩
  · obtain ⟨-, v, d, hl, hsame⟩ := hinv.tip h htip
    have hchain := List.dropLast_append_getLast? h htip
    obtain ⟨hsupply, hmax⟩ := hsup.chain h (List.mem_of_getLast? htip) p v d hp hl
    have hd := dropped_of_ledger hinv hchain.symm hl
    rw [hchain] at hd
    have hpos := hl.total_nonneg
    rw [hsame.total, hsupply, ChainState.dropped, ← hd]
    rw [hsupply] at hmax
    exact ⟨rfl, by omega, hmax⟩
  · obtain ⟨q, p', block, hf, hcase⟩ := connectTip_cases hinv hC.1 hstep
    rw [hf.entry] at hp
    cases hp
    rw [hf.stored] at hb
    cases hb
    rcases hcase with ⟨hgen', -⟩ | ⟨-, node, s', hp₀, v, v', d, undos, hb⟩
    · exact absurd hgen' hgen
    · have hs' := hb.spec.checks
      rw [hs] at hs'
      cases hs'
      obtain ⟨-, -, hmint, hfees⟩ := exact_connected hinv hsup hC.1.1 hf.entry hf.prev hf.stored hC.2
        hb.spec hb.ledger
      exact ⟨hmint, hfees⟩

/-! ## Coinstakes in a proof-of-work block -/

namespace MintExample

/-- A synchronised node on the regression test network. -/
abbrev env : Env := .quiet .regtest false

/-- The world of the example. -/
def world : World := ⟨.regtest, env.blockHash⟩

/-- An output of no value that anyone can spend. -/
def zeroOut : CTxOut := ⟨0, [0x51], -10⟩

/-- The coinbase of the block at a height. -/
def coinbase (n : ℕ) : CTransaction :=
  { hash := BitVec.ofNat 256 (100 + n),
    vin := [{ prevout := ⟨0, 4294967295⟩, scriptSig := [1, 1] }], vout := [⟨10 * coin, [0x51], -10⟩] }

/-- The id of `split`. -/
def splitHash : UInt256 := 0x50#256

/-- A transaction that spends the first coinbase and has many outputs of no value. -/
def split : CTransaction :=
  { hash := splitHash, vin := [{ prevout := ⟨101, 0⟩ }], vout := List.replicate 2795 zeroOut }

/-- A transaction with the shape of a coinstake that spends output `k` of it and mints as much
as a transaction can. -/
def stake (k : ℕ) : CTransaction :=
  { hash := BitVec.ofNat 256 (1000 + k), vin := [{ prevout := ⟨splitHash, k⟩ }],
    vout := [⟨0, [], -10⟩, ⟨33000000 * coin, [0x51], -10⟩] }

theorem isCoinBase_stake (k : ℕ) : (stake k).isCoinBase = false := rfl

theorem isCoinStake_stake (k : ℕ) : (stake k).isCoinStake = true := rfl

theorem vin_stake (k : ℕ) : (stake k).vin = [{ prevout := ⟨splitHash, k⟩ }] := rfl

theorem checked_stake (k : ℕ) : (stake k).Checked .regtest := checkTransaction_ok rfl

/-- Where the loop stands before the coinstakes from number `k` on. -/
structure Ready (k : ℕ) (a b : ℤ) (s : ConnectState) : Prop where
  sigOps : s.nSigOps = 0
  scripts : s.scriptsOk = true
  fees : s.nFees = 10 * coin
  valueIn : s.nValueIn = wrap64 a
  valueOut : s.nValueOut = wrap64 b
  plain : (s.view.coins splitHash).fCoinBase = false ∧ (s.view.coins splitHash).fCoinStake = false
  outputs : ∀ j, k ≤ j → j < 2795 → s.view.outputAt ⟨splitHash, j⟩ = some zeroOut

theorem stake_hash_ne {k : ℕ} (hk : k < 2795) : splitHash ≠ (stake k).hash := by
  intro h
  have := congrArg BitVec.toNat h
  simp only [stake, splitHash, BitVec.toNat_ofNat] at this
  omega

/-- Spending an output leaves the flags of an entry, or nothing. -/
theorem plain_set {v : CoinsView} {c : CCoins} {t : UInt256} (hb : c.fCoinBase = false)
    (hs : c.fCoinStake = false) :
    ((v.set t c).coins t).fCoinBase = false ∧ ((v.set t c).coins t).fCoinStake = false := by
  rw [CoinsView.set_coins_self, CCoins.normalize]
  split
  · exact ⟨rfl, rfl⟩
  · exact ⟨hb, hs⟩

/-- Each of the coinstakes is accepted and mints its output. -/
theorem connectTx_stake {p : ConnectParams} {i k : ℕ} {a b nSpendHeight : ℤ} {s : ConnectState}
    (hsp : p.nSpendHeight = some nSpendHeight) (hk : k < 2795) (h : Ready k a b s) :
    ∃ s', connectTx env p i (stake k) s = .ok s' ∧
      Ready (k + 1) a (b + 3300000000000000) s' := by
  have hout := h.outputs k le_rfl hk
  have havail : (s.view.coins splitHash).isAvailable k = true := CCoins.isAvailable_iff.2 (by
    rw [show (s.view.coins splitHash).out k = some zeroOut from hout]
    rfl)
  have hvalue : valueAt s.view ⟨splitHash, k⟩ = 0 := by rw [valueAt, hout]; rfl
  have hhave : haveInputs s.view (stake k) = true := by
    simp [haveInputs, vin_stake, havail]
  have hscript : ∀ flags j, scriptCheck env s.view (stake k) flags j { prevout := ⟨splitHash, k⟩ } =
      true := by
    intro flags j
    rw [scriptCheck, hout]
    rfl
  have hvalues : checkInputValues .regtest s.view nSpendHeight 0 (stake k).vin = .ok 0 := by
    simp only [vin_stake, checkInputValues, h.plain.1, h.plain.2, hvalue]
    rfl
  have hinputs : checkInputs env s.view (stake k) nSpendHeight p.fScriptChecks p.flags = .ok true := by
    simp only [checkInputs, isCoinBase_stake, Bool.false_eq_true, if_false, bind_eq_ok, require_eq_ok,
      exists_const]
    refine ⟨hhave, 0, hvalues, (), by simp [checkFee, isCoinStake_stake], ?_⟩
    split
    · rw [if_neg (by decide), bind_eq_ok]
      refine ⟨(), ?_, rfl⟩
      simp [vin_stake, checkScripts, List.zipIdx, hscript]
    · rfl
  obtain ⟨⟨u, c⟩, hspend⟩ := Option.isSome_iff_exists.1 (CCoins.spend_isSome_iff.2 havail)
  obtain ⟨-, -, hcb, hcs, -⟩ := CCoins.spend_eq_some hspend
  have hupdate : updateCoins (stake k) s.view p.nHeight = some (⟨[u]⟩,
      (s.view.set splitHash c).set (stake k).hash (CCoins.fromTx (stake k) p.nHeight)) := by
    have hspends : spendInputs s.view (stake k).spends = some ([u], s.view.set splitHash c) := by
      rw [CTransaction.spends_of_not_isCoinBase (isCoinBase_stake k), vin_stake]
      simp [spendInputs, hspend]
    rw [updateCoins, hspends]
  have hsigops : decide ((0 : ℕ) + 0 ≤ maxBlockSigOps) = true := by decide
  -- the inputs leave the view alone, the outputs only change the coins
  have hspends : ∃ s₁, connectSpends env p i (stake k) { s with nSigOps := 0 } = .ok s₁ ∧
      s₁.view = s.view ∧ s₁.nSigOps = 0 ∧ s₁.scriptsOk = true ∧ s₁.nFees = s.nFees := by
    simp only [connectSpends, bind_eq_ok, require_eq_ok, exists_const, addFees, isCoinStake_stake,
      if_true, hsp]
    refine ⟨_, ⟨hhave, ?_, s.nFees, rfl, true, hinputs, rfl⟩, rfl, ?_, ?_, rfl⟩
    · split
      · exact hsigops
      · exact hsigops
    · simp only
      split <;> rfl
    · simp only [h.scripts, Bool.and_true]
  have hok : ∃ s', connectTx env p i (stake k) s = .ok s' ∧ s'.nSigOps = 0 ∧
      s'.scriptsOk = true ∧ s'.nFees = s.nFees := by
    obtain ⟨s₁, h₁, hv₁, hsig₁, hok₁, hf₁⟩ := hspends
    have houtputs : ∃ s', connectOutputs env p i (stake k) s₁ = .ok s' ∧ s'.nSigOps = s₁.nSigOps ∧
        s'.scriptsOk = s₁.scriptsOk ∧ s'.nFees = s₁.nFees := by
      rw [connectOutputs, (checked_stake k).getValueOut, hv₁, hupdate]
      exact ⟨_, rfl, rfl, rfl, rfl⟩
    obtain ⟨s', h', hsig, hscripts, hf⟩ := houtputs
    simp only [connectTx, bind_eq_ok, require_eq_ok, exists_const, connectInputs, isCoinBase_stake,
      Bool.false_eq_true, if_false, h.sigOps]
    exact ⟨s', ⟨hsigops, s₁, h₁, h'⟩, hsig.trans hsig₁, hscripts.trans hok₁, hf.trans hf₁⟩
  obtain ⟨s', hs', hsig, hscripts, hfees⟩ := hok
  obtain ⟨undo, ht⟩ := connectTx_ok (checked_stake k) hs'
  have hview := ht.coins
  rw [hupdate] at hview
  simp only [Option.some.injEq, Prod.mk.injEq] at hview
  have hcoins : s'.view.coins splitHash = (s.view.set splitHash c).coins splitHash := by
    rw [← hview.2, CoinsView.set_coins_of_ne (stake_hash_ne hk)]
  have hzero : (stake k).valueIn s.view = 0 := by
    rw [CTransaction.valueIn, CTransaction.spends_of_not_isCoinBase (isCoinBase_stake k), vin_stake]
    simp [hvalue]
  refine ⟨s', hs', hsig, hscripts, by rw [hfees, h.fees], ?_, ht.nValueOut b h.valueOut, ?_,
    fun j hj hj' => ?_⟩
  · rw [ht.nValueIn a h.valueIn, hzero, add_zero]
  · rw [hcoins]
    exact plain_set (hcb.trans h.plain.1) (hcs.trans h.plain.2)
  · rw [CoinsView.outputAt, hcoins]
    change (s.view.set splitHash c).outputAt ⟨splitHash, j⟩ = _
    have hne : (⟨splitHash, j⟩ : COutPoint) ≠ ⟨splitHash, k⟩ := by
      intro he
      have := congrArg COutPoint.n he
      simp only at this
      omega
    rw [out_spend_set (o := ⟨splitHash, k⟩) hspend, if_neg hne]
    exact h.outputs j (by omega) hj'

/-- The loop over the coinstakes. -/
theorem connectTxs_stakes {p : ConnectParams} {nSpendHeight : ℤ}
    (hsp : p.nSpendHeight = some nSpendHeight) {m : ℕ} :
    ∀ {i k : ℕ} {a b : ℤ} {s : ConnectState}, k + m = 2795 → Ready k a b s →
      ∃ s', connectTxs env p i ((List.range' k m).map stake) s = .ok s' ∧
        Ready 2795 a (b + m * 3300000000000000) s' := by
  induction m with
  | zero =>
    intro i k a b s hk h
    obtain rfl : k = 2795 := by omega
    exact ⟨s, rfl, by simpa using h⟩
  | succ m ih =>
    intro i k a b s hk h
    obtain ⟨s₁, h₁, hr⟩ := connectTx_stake (i := i) hsp (by omega) h
    obtain ⟨s', h₂, hr'⟩ := ih (i := i + 1) (by omega) hr
    refine ⟨s', ?_, ?_⟩
    · rw [List.range'_succ, List.map_cons, connectTxs, h₁]
      exact h₂
    · rw [show b + ((m + 1 : ℕ) : ℤ) * 3300000000000000 = b + 3300000000000000 + m * 3300000000000000 by
        push_cast; ring]
      exact hr'

/-- The hash of the block at a height. -/
def blockHash (n : ℕ) : UInt256 :=
  if n = 0 then Network.regtest.hashGenesisBlock else BitVec.ofNat 256 n

/-- The block at a height, with these transactions after the coinbase. -/
def block (n : ℕ) (txs : List CTransaction) : CBlock :=
  { hashPrevBlock := if n = 0 then 0 else blockHash (n - 1), nTime := 1500000000,
    nNonce := (blockHash n).toNat, vtx := coinbase n :: txs }

/-- The coinstakes. -/
def stakes : List CTransaction := (List.range' 0 2795).map stake

/-- The block with the coinstakes. -/
def bigBlock : CBlock := block 16 (split :: stakes)

/-- Genesis and fifteen blocks with a coinbase each. -/
def before : List Op := (List.range 16).flatMap fun n =>
  [.accept env (block n []) ⟨0, n⟩ {}, .connect env (blockHash n)]

/-- The node before the last block. -/
def st₀ : ChainState := (Run.run step {} before).toOption.getD {}

theorem run_before : Run.run step {} before = .ok st₀ := by
  have h : (Run.run step {} before).toOption.isSome = true := by decide
  obtain ⟨st, hst⟩ := Option.isSome_iff_exists.1 h
  rw [st₀, hst]
  exact eq_ok_of_toOption hst

/-- The entry of the last block. -/
def pindex : CBlockIndex := newEntry (blockHash 16) (some (blockHash 15)) 16 bigBlock ⟨0, 16⟩ {}

/-- The node after the last block has arrived. -/
def st₁ : ChainState :=
  ({ st₀ with node := { st₀.node with
    blockFiles := Function.update st₀.node.blockFiles ⟨0, 16⟩ (some bigBlock) } } :
      ChainState).setEntry (blockHash 16) pindex

theorem accept_bigBlock : acceptBlock env bigBlock ⟨0, 16⟩ {} st₀ = .ok st₁ := by
  have hhash : env.blockHash bigBlock.toCBlockHeader = blockHash 16 := by decide
  have hnew : (st₀.entry (blockHash 16)).isNone = true := by decide
  have hfree : (st₀.node.blockFiles ⟨0, 16⟩).isNone = true := by decide
  have hprev : ∃ q, st₀.entry (blockHash 15) = some q ∧ q.nHeight = 15 := by
    have h : (st₀.entry (blockHash 15)).map CBlockIndex.nHeight = some 15 := by decide
    exact Option.map_eq_some_iff.1 h
  obtain ⟨q, hq, hheight⟩ := hprev
  have hq' : st₀.entry bigBlock.hashPrevBlock = some q := hq
  have hgen : blockHash 16 ≠ env.network.hashGenesisBlock := by decide
  simp only [acceptBlock, bind_eq_ok, require_eq_ok, exists_const, hhash]
  refine ⟨hnew, hfree, ?_⟩
  rw [if_neg hgen, hq']
  simp only [hheight]
  rfl

theorem entry_pindex : st₁.entry (blockHash 16) = some pindex := by
  rw [st₁, ChainState.entry_setEntry, if_pos rfl]

theorem read_pindex : st₁.node.readBlockFromDisk env pindex = some bigBlock := by
  have hfile : pindex.getBlockPos.bind st₁.node.blockFiles = some bigBlock := by
    have hpos : pindex.getBlockPos = some ⟨0, 16⟩ := rfl
    rw [hpos, Option.bind_some]
    have hfiles : st₁.node.blockFiles =
      Function.update st₀.node.blockFiles ⟨0, 16⟩ (some bigBlock) := rfl
    rw [hfiles, Function.update_self]
  rw [Node.readBlockFromDisk, hfile]
  rfl

theorem prev_pindex : pindex.pprev = st₁.chain.getLast? := by decide

/-! ### Ids that were never used -/

/-- Every stored block only has ids of `H`, and only entries under ids of `H` are in use. -/
structure UsesOnly (H : Set UInt256) (st : ChainState) : Prop where
  files : ∀ pos b, st.node.blockFiles pos = some b → ∀ tx ∈ b.vtx, tx.hash ∈ H
  coins : ∀ t, t ∉ H → (st.view.coins t).isPruned = true

/-- The step takes nothing off the chain and brings only ids of `H`. -/
def BringsOnly (H : Set UInt256) (_ : ChainState) : Op → Prop
  | .accept _ block _ _ => ∀ tx ∈ block.vtx, tx.hash ∈ H
  | .connect _ _ => True
  | .disconnect _ => False

theorem isPruned_updateCoinsAll {t : UInt256} {h : ℤ} {txs : List CTransaction} :
    ∀ {v v' : CoinsView} {undos : List CTxUndo}, updateCoinsAll h v txs = some (undos, v') →
      (∀ tx ∈ txs, t ≠ tx.hash) → (v.coins t).isPruned = true → (v'.coins t).isPruned = true := by
  induction txs with
  | nil =>
    intro v v' undos hu _ hp
    simp only [updateCoinsAll, Option.some.injEq, Prod.mk.injEq] at hu
    rwa [← hu.2]
  | cons tx txs ih =>
    intro v v' undos hu hne hp
    obtain ⟨undo, v₁, undos', h₁, h₂, rfl⟩ := updateCoinsAll_cons_eq_some hu
    refine ih h₂ (fun tx htx => hne tx (by simp [htx])) (CCoins.isPruned_iff.2 fun n => ?_)
    by_contra hsome
    have hmem : (⟨t, n⟩ : COutPoint) ∈ v₁.unspent := Option.isSome_iff_ne_none.2 hsome
    rcases mem_unspent_updateCoins h₁ hmem with hh | ⟨hv, -⟩
    · exact hne tx (by simp) hh
    · have hnone : v.outputAt ⟨t, n⟩ = none := CCoins.isPruned_iff.1 hp n
      exact absurd hv (by rw [CoinsView.unspent, Set.mem_ofPred_eq, hnone]; simp)

theorem usesOnly_step {H : Set UInt256} {st st' : ChainState} {op : Op} (h : UsesOnly H st)
    (hop : BringsOnly H st op) (hstep : step st op = .ok st') : UsesOnly H st' := by
  cases op with
  | accept env block pos base =>
    obtain ⟨-, -, pprev, nHeight, -, rfl⟩ := acceptBlock_ok hstep
    refine ⟨fun pos' b hb => ?_, h.coins⟩
    change Function.update st.node.blockFiles pos (some block) pos' = some b at hb
    rw [Function.update_apply] at hb
    split at hb
    · cases hb
      exact hop
    · exact h.files pos' b hb
  | connect env hash =>
    obtain ⟨p, block, view, node, p', hp, -, hread, hconnect, rfl⟩ := connectTip_ok hstep
    obtain ⟨pos, -, hfile⟩ := Option.bind_eq_some_iff.1 (readBlockFromDisk_eq_some hread).1
    by_cases hgen : env.blockHash block.toCBlockHeader = env.network.hashGenesisBlock
    · obtain ⟨rfl, rfl, rfl⟩ := connectBlock_genesis hconnect hgen
      exact ⟨h.files, h.coins⟩
    · obtain ⟨s, hc⟩ := connectBlock_ok hconnect hgen
      obtain ⟨undos, hu, -⟩ := hc.coins
      obtain ⟨-, hfiles⟩ := node_connected hc
      refine ⟨fun pos' b hb => h.files pos' b (by rw [← hfiles]; exact hb), fun t ht => ?_⟩
      have hview : view.coins = s.view.coins := by rw [hc.view_eq]; rfl
      change (view.coins t).isPruned = true
      rw [hview]
      exact isPruned_updateCoinsAll hu (fun tx htx he => ht (he ▸ h.files pos block hfile tx htx))
        (h.coins t ht)
  | disconnect env => exact hop.elim

/-- Only the ids of the coinbases are in use before the last block. -/
theorem usesOnly_st₀ : UsesOnly {t | 100 ≤ t.toNat ∧ t.toNat ≤ 115} st₀ := by
  refine Run.run_invariant (fun _ _ _ hI hC hs => usesOnly_step hI hC hs) ?_ ?_ run_before
  · exact ⟨fun _ _ hb => absurd hb (by simp), fun _ _ => rfl⟩
  · refine Run.along_of_checkAlong (c := fun _ _ => true) (fun st op hop _ => ?_) (by decide)
    obtain ⟨n, hn, hop⟩ := List.mem_flatMap.1 hop
    rw [List.mem_range] at hn
    simp only [List.mem_cons, List.not_mem_nil, or_false] at hop
    rcases hop with rfl | rfl
    · intro tx htx
      obtain rfl : tx = coinbase n := by simpa [block] using htx
      simp only [coinbase, Set.mem_ofPred_eq, BitVec.toNat_ofNat]
      omega
    · trivial

theorem bip30_bigBlock : (bigBlock.vtx.all fun tx => (st₁.view.coins tx.hash).isPruned) = true := by
  rw [List.all_eq_true]
  have hvtx : bigBlock.vtx = coinbase 16 :: split :: stakes := rfl
  rw [hvtx]
  simp only [List.mem_cons]
  rintro tx (rfl | rfl | htx)
  · exact usesOnly_st₀.coins _ (by decide)
  · exact usesOnly_st₀.coins _ (by decide)
  · obtain ⟨k, hk, rfl⟩ := List.mem_map.1 htx
    rw [List.mem_range'_1] at hk
    refine usesOnly_st₀.coins _ ?_
    simp only [stake, Set.mem_ofPred_eq, BitVec.toNat_ofNat]
    omega

/-! ### The checks of the last block -/

theorem forM_ok {f : CTransaction → Except Failure Unit} {l : List CTransaction}
    (h : ∀ tx ∈ l, f tx = .ok ()) : l.forM f = .ok () := by
  induction l with
  | nil => rfl
  | cons tx l ih => exact bind_eq_ok.2 ⟨(), h tx (by simp), ih fun t ht => h t (by simp [ht])⟩

theorem forall_stakes {P : CTransaction → Prop} (h : ∀ k, P (stake k)) : ∀ tx ∈ stakes, P tx := by
  intro tx htx
  obtain ⟨k, -, rfl⟩ := List.mem_map.1 htx
  exact h k

theorem sum_stakes {f : CTransaction → ℕ} {c : ℕ} (h : ∀ k, f (stake k) = c) :
    (stakes.map f).sum = 2795 * c := by
  have hmap : stakes.map f = List.replicate 2795 c := by
    rw [stakes, List.map_map, List.eq_replicate_iff]
    refine ⟨by simp, fun x hx => ?_⟩
    obtain ⟨k, -, rfl⟩ := List.mem_map.1 hx
    exact h k
  rw [hmap, List.sum_replicate, smul_eq_mul]

theorem check_bigBlock : checkBlock env st₁.node.tree bigBlock true = .ok () := by
  have hvtx : bigBlock.vtx = coinbase 16 :: split :: stakes := rfl
  have hpos : bigBlock.isProofOfStake = false := rfl
  simp only [checkBlock, bind_eq_ok, require_eq_ok, exists_const]
  have hsize : bigBlock.serializeSize ≤ maxBlockSize := by
    have hsplit : split.serializeSize = 28003 := by decide +kernel
    have hcount : getSizeOfCompactSize (coinbase 16 :: split :: stakes).length ≤ 9 := by
      unfold getSizeOfCompactSize
      (repeat' split) <;> omega
    rw [CBlock.serializeSize, hpos, hvtx, List.map_cons, List.map_cons, List.sum_cons, List.sum_cons,
      hsplit, sum_stakes (c := 70) fun k => rfl]
    have hcoinbase : (coinbase 16).serializeSize ≤ 100 := by decide
    have hmax : maxBlockSize = 1000000 := rfl
    rw [if_neg (by simp), hmax]
    generalize getSizeOfCompactSize (coinbase 16 :: split :: stakes).length = n at hcount
    generalize (coinbase 16).serializeSize = m at hcoinbase
    omega
  have hcheck : ∀ tx ∈ bigBlock.vtx, checkTransaction env.network tx = .ok () := by
    rw [hvtx]
    simp only [List.mem_cons]
    rintro tx (rfl | rfl | htx)
    · exact eq_ok_of_toOption (by decide)
    · exact eq_ok_of_toOption (by decide +kernel)
    · exact forall_stakes (P := fun tx => checkTransaction .regtest tx = .ok ()) (fun k => rfl) tx htx
  refine ⟨?_, ?_, (), ?_, ?_, ?_, ?_, (), ?_, (), ?_, (), ?_, (), forM_ok hcheck, ?_⟩
  · rfl
  · decide
  · rfl
  · simp only [Bool.and_eq_true, decide_eq_true_eq]
    exact ⟨⟨rfl, by rw [hvtx]; simp [stakes, maxBlockSize]⟩, hsize⟩
  · rfl
  · rw [hvtx, List.tail_cons, List.all_cons, Bool.and_eq_true, List.all_eq_true]
    exact ⟨rfl, forall_stakes fun k => rfl⟩
  · rfl
  · rfl
  · exact eq_ok_of_toOption (by decide)
  · rw [decide_eq_true_eq, hvtx, List.map_cons, List.map_cons, List.sum_cons, List.sum_cons,
      sum_stakes (f := env.getLegacySigOpCount) (c := 0) fun k => rfl]
    decide

/-! ### The loop of the last block -/

/-- What stays fixed during the loop of the last block. -/
def params : ConnectParams := connectParams env st₁.node.tree bigBlock pindex st₁.view

/-- The position of the first transaction. -/
def startPos : CDiskTxPos := ⟨pindex.getBlockPos, getSizeOfCompactSize bigBlock.vtx.length⟩

/-- The state after the coinbase. -/
def s₁ : Option ConnectState :=
  (connectTx env params 0 (coinbase 16) { view := st₁.view, pos := startPos }).toOption

/-- The state after `split`. -/
def s₂ : Option ConnectState := s₁.bind fun s => (connectTx env params 1 split s).toOption

/-- What the coinstakes read of the state, as a test. -/
def readyTest (s : ConnectState) : Bool :=
  s.nSigOps == 0 && s.scriptsOk && s.nFees == 10 * coin && s.nValueIn == 10 * coin &&
    s.nValueOut == 10 * coin && !(s.view.coins splitHash).fCoinBase &&
    !(s.view.coins splitHash).fCoinStake &&
    decide ((s.view.coins splitHash).vout = List.replicate 2795 zeroOut)

theorem readyTest_s₂ : s₂.any readyTest = true := by decide +kernel

theorem exists_ready : ∃ s s',
    connectTx env params 0 (coinbase 16) { view := st₁.view, pos := startPos } = .ok s ∧
    connectTx env params 1 split s = .ok s' ∧ Ready 0 (10 * coin) (10 * coin) s' := by
  have htest := readyTest_s₂
  rw [Option.any_eq_true] at htest
  obtain ⟨s', hs', htest⟩ := htest
  rw [s₂, Option.bind_eq_some_iff] at hs'
  obtain ⟨s, hs, hs'⟩ := hs'
  rw [s₁] at hs
  refine ⟨s, s', eq_ok_of_toOption hs, eq_ok_of_toOption hs', ?_⟩
  simp only [readyTest, Bool.and_eq_true, beq_iff_eq, Bool.not_eq_true', decide_eq_true_eq] at htest
  obtain ⟨⟨⟨⟨⟨⟨⟨hsig, hscripts⟩, hfees⟩, hin⟩, hout⟩, hcb⟩, hcs⟩, hvout⟩ := htest
  refine ⟨hsig, hscripts, hfees, by rw [hin]; rfl, by rw [hout]; rfl, ⟨hcb, hcs⟩, fun j _ hj => ?_⟩
  rw [CoinsView.outputAt, CCoins.out, slot_eq_some_iff, hvout, List.getElem?_replicate, if_pos hj]
  exact ⟨rfl, rfl⟩

/-- The loop runs to its end, with the outputs of all coinstakes in the sum. -/
theorem connectChecks_bigBlock : ∃ s, connectChecks env st₁.node.tree bigBlock pindex st₁.view = .ok s ∧
    Ready 2795 (10 * coin) (10 * coin + (2795 : ℕ) * 3300000000000000) s := by
  have hheight : ∃ nSpendHeight, params.nSpendHeight = some nSpendHeight :=
    Option.isSome_iff_exists.1 (by decide)
  obtain ⟨nSpendHeight, hsp⟩ := hheight
  obtain ⟨s, s', h₁, h₂, hready⟩ := exists_ready
  obtain ⟨s'', h₃, hready'⟩ := connectTxs_stakes (i := 0 + 1 + 1) (m := 2795) hsp (by omega) hready
  rw [← stakes] at h₃
  refine ⟨s'', ?_, hready'⟩
  simp only [connectChecks, bind_eq_ok, require_eq_ok, exists_const]
  refine ⟨rfl, by decide, by rw [bip30_bigBlock, Bool.or_true], ?_⟩
  change connectTxs env params 0 (coinbase 16 :: split :: stakes) _ = _
  rw [connectTxs, bind_eq_ok]
  refine ⟨s, h₁, ?_⟩
  rw [connectTxs, bind_eq_ok]
  exact ⟨s', h₂, h₃⟩

/-- The supply that `ConnectBlock` works out for the last block. -/
theorem supply_bigBlock {s : ConnectState}
    (h : Ready 2795 (10 * coin) (10 * coin + (2795 : ℕ) * 3300000000000000) s) :
    (pindex.withSupply st₁.node.tree s).nMoneySupply = -9223244058709551616 ∧
      (pindex.withSupply st₁.node.tree s).nMint = -9223244073709551616 := by
  have hprev : ((pindex.pprev.bind st₁.node.tree.mapBlockIndex.lookup).map
      CBlockIndex.nMoneySupply).getD 0 = 150 * coin := by decide
  simp only [CBlockIndex.withSupply, hprev, h.valueIn, h.valueOut]
  decide

/-- The run that ends with the block of coinstakes. -/
def ops : List Op := before ++ [.accept env bigBlock ⟨0, 16⟩ {}, .connect env (blockHash 16)]

theorem connect_bigBlock : ∃ st p, connectTip env (blockHash 16) st₁ = .ok st ∧
    st.chain.getLast? = some (blockHash 16) ∧ st.entry (blockHash 16) = some p ∧
    p.nMoneySupply = -9223244058709551616 := by
  obtain ⟨s, hs, hready⟩ := connectChecks_bigBlock
  obtain ⟨hsupply, hmint⟩ := supply_bigBlock hready
  have hgen : env.blockHash bigBlock.toCBlockHeader ≠ env.network.hashGenesisBlock := by
    decide
  have hreward : checkReward env st₁.node.tree bigBlock (pindex.withSupply st₁.node.tree s) s =
      .ok () := by
    simp only [checkReward, bind_eq_ok, require_eq_ok, exists_const, hsupply, hmint, hready.fees]
    refine ⟨?_, by decide, hready.scripts⟩
    change isBlockValueValid env st₁.node.tree bigBlock (expectedMint bigBlock 16 (10 * coin))
      (-9223244073709551616) = true
    decide
  have hparent : pindex.pprev.getD 0 = st₁.view.hashBlock := by decide
  obtain ⟨view, ⟨node, p⟩, hconnect⟩ := connectBlock_of_checks (fun _ => rfl) check_bigBlock hparent
    hgen hs hreward
  obtain ⟨s', hc⟩ := connectBlock_ok hconnect hgen
  have hs' := hc.checks
  rw [hs] at hs'
  cases hs'
  obtain ⟨st, hst, htip, hentry⟩ :=
    connectTip_of_connectBlock entry_pindex prev_pindex read_pindex hconnect
  refine ⟨st, p, hst, htip, hentry, ?_⟩
  rw [hc.pindex_eq, (CBlockIndex.withUndo_nMint _ _).2, hsupply]

theorem hashInjective_bigBlock : HashInjective bigBlock.vtx := by
  have hvtx : bigBlock.vtx = coinbase 16 :: split :: stakes := rfl
  -- the ids are different numbers, so a transaction can be read off its id
  have hid : ∀ tx ∈ bigBlock.vtx, tx = if tx.hash.toNat = 116 then coinbase 16
      else if tx.hash.toNat = 80 then split else stake (tx.hash.toNat - 1000) := by
    rw [hvtx]
    simp only [List.mem_cons]
    rintro tx (rfl | rfl | htx)
    · rw [if_pos (by decide)]
    · rw [if_neg (by decide), if_pos (by decide)]
    · obtain ⟨k, hk, rfl⟩ := List.mem_map.1 htx
      rw [List.mem_range'_1] at hk
      have hnat : (stake k).hash.toNat = 1000 + k := by
        rw [stake, BitVec.toNat_ofNat]
        omega
      rw [hnat, if_neg (by omega), if_neg (by omega), Nat.add_sub_cancel_left]
  intro tx htx tx' htx' he
  rw [hid tx htx, hid tx' htx', he]

theorem in_before {op : Op} (hop : op ∈ before) : op.env.In world := by
  obtain ⟨n, -, hop⟩ := List.mem_flatMap.1 hop
  simp only [List.mem_cons, List.not_mem_nil, or_false] at hop
  rcases hop with rfl | rfl <;> exact ⟨rfl, rfl⟩

/-- The steps of the run are lawful. -/
theorem lawful_ops : Run.Along step (Lawful world) {} ops := by
  refine Run.along_append (Run.along_of_checkAlong (c := lawfulTest) (fun st op hop h => ?_)
    (by decide)) run_before ?_
  · exact lawful_of_test (in_before hop) h
  · refine ⟨⟨rfl, rfl⟩, fun st hst => ⟨⟨⟨rfl, rfl⟩, fun p b hp hb => ?_⟩, fun _ _ => trivial⟩⟩
    rw [step, accept_bigBlock] at hst
    cases hst
    rw [entry_pindex] at hp
    cases hp
    rw [blockAt_of_read entry_pindex read_pindex] at hb
    cases hb
    exact ⟨hashInjective_bigBlock, by decide⟩

end MintExample

namespace MintExample

/-- A test for `Fits`. -/
def fitsTest (st : ChainState) : Op → Bool
  | .connect _ hash =>
      match st.entry hash, st.blockAt hash with
      | some p, some b => decide (p.supplyPrev st.node.tree +
          blockReward p.nHeight st.view b.block.vtx < 2 ^ 63)
      | _, _ => true
  | _ => true

theorem fits_of_test {st : ChainState} {op : Op} (h : fitsTest st op = true) : Fits st op := by
  cases op with
  | accept env block pos base => trivial
  | disconnect env => trivial
  | connect env hash =>
    intro p b hp hb
    simp only [fitsTest, hp, hb, decide_eq_true_eq] at h
    exact h

theorem supplyStep_before : Run.Along step (SupplyStep world) {} before := by
  refine Run.along_of_checkAlong (c := fun st op => lawfulTest st op && fitsTest st op)
    (fun st op hop h => ?_) (by decide)
  rw [Bool.and_eq_true] at h
  exact ⟨lawful_of_test (in_before hop) h.1, fits_of_test h.2⟩

end MintExample

deriving instance DecidableEq for TreeBlock

namespace MintExample

/-- Genesis and the block after it. -/
def direct : List Op := (List.range 2).flatMap fun n =>
  [.accept env (block n []) ⟨0, n⟩ {}, .connect env (blockHash n)]

/-- The last block is taken off and put back. -/
def detour : List Op := direct ++ [.disconnect env, .connect env (blockHash 1)]

/-- The node after the direct run. -/
def stDirect : ChainState := (Run.run step {} direct).toOption.getD {}

/-- The node after the detour. -/
def stDetour : ChainState := (Run.run step {} detour).toOption.getD {}

theorem run_direct : Run.run step {} direct = .ok stDirect := by
  have h : (Run.run step {} direct).toOption.isSome = true := by decide
  obtain ⟨st, hst⟩ := Option.isSome_iff_exists.1 h
  rw [stDirect, hst]
  exact eq_ok_of_toOption hst

theorem run_detour : Run.run step {} detour = .ok stDetour := by
  have h : (Run.run step {} detour).toOption.isSome = true := by decide
  obtain ⟨st, hst⟩ := Option.isSome_iff_exists.1 h
  rw [stDetour, hst]
  exact eq_ok_of_toOption hst

theorem in_direct {op : Op} (h : op ∈ direct) : op ∈ before := by
  simp only [direct, List.mem_flatMap, List.mem_range] at h
  obtain ⟨n, hn, hop⟩ := h
  simp only [before, List.mem_flatMap, List.mem_range]
  exact ⟨n, by omega, hop⟩

theorem lawful_direct : Run.Along step (Lawful world) {} direct :=
  Run.along_of_checkAlong (c := lawfulTest)
    (fun _ _ hop h => lawful_of_test (in_before (in_direct hop)) h) (by decide)

theorem lawful_detour : Run.Along step (Lawful world) {} detour := by
  refine Run.along_of_checkAlong (c := lawfulTest) (fun st op hop h => ?_) (by decide)
  refine lawful_of_test ?_ h
  rcases List.mem_append.1 hop with hop | hop
  · exact in_before (in_direct hop)
  · simp only [List.mem_cons, List.not_mem_nil, or_false] at hop
    rcases hop with rfl | rfl <;> exact ⟨rfl, rfl⟩

theorem chain_direct : stDirect.chain = [blockHash 0, blockHash 1] := by decide

theorem chain_detour : stDetour.chain = [blockHash 0, blockHash 1] := by decide

theorem blockAt_detour {h : UInt256} (hh : h ∈ stDetour.chain) :
    stDetour.blockAt h = stDirect.blockAt h := by
  rw [chain_detour] at hh
  simp only [List.mem_cons, List.not_mem_nil, or_false] at hh
  rcases hh with rfl | rfl
  · decide +kernel
  · decide +kernel

theorem chain_detour_direct : stDetour.chain = stDirect.chain :=
  chain_detour.trans chain_direct.symm

end MintExample

open MintExample in
/-- Taking the last block off and connecting it again leaves the coins as they were. -/
theorem coins_of_detour : stDetour.view.Same stDirect.view :=
  coins_of_chain lawful_detour run_detour lawful_direct run_direct chain_detour_direct
    fun _ hh => blockAt_detour hh

open MintExample in
/-- After fifteen coinbases of 10 the coins are worth 150. -/
theorem supply_before : st₀.view.total + st₀.dropped = 150 * coin := by
  obtain ⟨p, hp, hsupply⟩ : ∃ p, st₀.entry (blockHash 15) = some p ∧ p.nMoneySupply = 150 * coin :=
    Option.map_eq_some_iff.1 (by decide)
  have htip : st₀.chain.getLast? = some (blockHash 15) := by decide
  rw [← ((supply_run supplyStep_before run_before).1 _ p htip hp).1, hsupply]

open MintExample in
/-- A proof-of-work block may hold any number of transactions with the shape of a coinstake.
With 2795 of them, each minting the maximum amount of money, the supply wraps around and the
block is accepted with a negative one. -/
theorem supply_wraps : ∃ st h p, Run.Along step (Lawful world) {} ops ∧
    Run.run step {} ops = .ok st ∧ st.chain.getLast? = some h ∧ st.entry h = some p ∧
    p.nMoneySupply < 0 := by
  obtain ⟨st, p, hst, htip, hp, hneg⟩ := connect_bigBlock
  refine ⟨st, blockHash 16, p, lawful_ops, ?_, htip, hp, by rw [hneg]; decide⟩
  rw [ops, Run.run_append run_before]
  exact Run.run_cons accept_bigBlock (Run.run_cons hst rfl)

end FairCoin
