import FairCoin.Chain
import FairCoin.Total

/-!
# The ledger of a chain

What the coins view of the tip has to be, and that it is that in every run.

* `Ledger` — the coins and the dropped value after the blocks from genesis to a given one,
  replayed without reorganisations.  This is what the coins view is for.
* `ChainInv` — the index entries form a tree, the undo data of every block that was ever
  connected is the one of its replay, and the coins view of the tip is its ledger up to
  coinstake flags and versions.
* `chainInv_step`, `chainInv_run` — every step of the node keeps `ChainInv`, when
  transaction ids stand for one transaction each.
* `coins_of_chain` — **no history is left in the coins**: runs that end on one chain have one view.
-/

namespace FairCoin

open Store

/-! ## Replaying a chain -/

/-- A stored block with its place in the tree. -/
structure TreeBlock where
  pprev : Option UInt256
  nHeight : ℤ
  block : CBlock

/-- The stored block of a hash. -/
def ChainState.blockAt (st : ChainState) (hash : UInt256) : Option TreeBlock :=
  (st.entry hash).bind fun p => (p.getBlockPos.bind st.node.blockFiles).map fun b =>
    ⟨p.pprev, p.nHeight, b⟩

/-- The coins after the chain that ends in a block, and the value of the unspendable outputs
dropped on the way.  Genesis leaves no coins. -/
inductive Ledger (net : Network) (B : UInt256 → Option TreeBlock) : UInt256 → CoinsView → ℤ → Prop
  | genesis {b : TreeBlock} : B net.hashGenesisBlock = some b → b.pprev = none →
      Ledger net B net.hashGenesisBlock .empty 0
  | next {hp h : UInt256} {b : TreeBlock} {v v' : CoinsView} {undos : List CTxUndo} {d : ℤ} :
      Ledger net B hp v d → B h = some b → b.pprev = some hp → 1 ≤ b.nHeight →
      b.block.Checked net → NoOverwrite v.unspent b.block.vtx →
      updateCoinsAll b.nHeight v b.block.vtx = some (undos, v') →
      Ledger net B h v' (d + droppedAll b.block.vtx)

namespace Ledger

variable {net : Network} {B B' : UInt256 → Option TreeBlock}

/-- A ledger only depends on the blocks it replays. -/
theorem mono (hB : ∀ h b, B h = some b → B' h = some b) {h : UInt256} {v : CoinsView} {d : ℤ}
    (hl : Ledger net B h v d) : Ledger net B' h v d := by
  induction hl with
  | genesis hb hroot => exact .genesis (hB _ _ hb) hroot
  | next _ hb hp hn hc hno hu ih => exact .next ih (hB _ _ hb) hp hn hc hno hu

/-- It only depends on those that lead back from its last block. -/
theorem congr_on {S : UInt256 → Prop}
    (hparent : ∀ h b hp, S h → B h = some b → b.pprev = some hp → S hp)
    (hB : ∀ h, S h → B h = B' h) {h : UInt256} {v : CoinsView} {d : ℤ}
    (hl : Ledger net B h v d) (hS : S h) : Ledger net B' h v d := by
  induction hl with
  | genesis hb hroot => exact .genesis ((hB _ hS).symm.trans hb) hroot
  | next _ hb hp hn hc hno hu ih =>
    exact .next (ih (hparent _ _ _ hS hb hp)) ((hB _ hS).symm.trans hb) hp hn hc hno hu

/-- The last block of a ledger. -/
theorem inv_next {h hp : UInt256} {b : TreeBlock} {v' : CoinsView} {d' : ℤ}
    (hl : Ledger net B h v' d') (hb : B h = some b) (hp' : b.pprev = some hp) :
    ∃ v undos d, Ledger net B hp v d ∧ 1 ≤ b.nHeight ∧ b.block.Checked net ∧
      NoOverwrite v.unspent b.block.vtx ∧
      updateCoinsAll b.nHeight v b.block.vtx = some (undos, v') ∧
      d' = d + droppedAll b.block.vtx := by
  cases hl with
  | genesis hb₀ hroot =>
    rw [hb₀] at hb
    cases hb
    rw [hroot] at hp'
    exact absurd hp' (by simp)
  | next hl₀ hb₀ hp₀ hn hc hno hu =>
    rw [hb₀] at hb
    cases hb
    rw [hp₀] at hp'
    cases hp'
    exact ⟨_, _, _, hl₀, hn, hc, hno, hu, rfl⟩

/-- A block has one ledger. -/
theorem unique {h : UInt256} {v : CoinsView} {d : ℤ} (hl : Ledger net B h v d) :
    ∀ {v' : CoinsView} {d' : ℤ}, Ledger net B h v' d' → v = v' ∧ d = d' := by
  induction hl with
  | genesis hb hroot =>
    intro v' d' hl'
    cases hl' with
    | genesis => exact ⟨rfl, rfl⟩
    | next _ hb' hp' _ _ _ _ =>
      rw [hb] at hb'
      cases hb'
      rw [hroot] at hp'
      exact absurd hp' (by simp)
  | next _ hb hp _ _ _ hu ih =>
    intro v' d' hl'
    obtain ⟨v₀, undos₀, d₀, hl₀, -, -, -, hu₀, rfl⟩ := hl'.inv_next hb hp
    obtain ⟨rfl, rfl⟩ := ih hl₀
    rw [hu] at hu₀
    cases hu₀
    exact ⟨rfl, rfl⟩

theorem wellFormed {h : UInt256} {v : CoinsView} {d : ℤ} (hl : Ledger net B h v d) :
    v.WellFormed := by
  induction hl with
  | genesis => exact CoinsView.wellFormed_empty
  | next _ _ _ hn hc _ hu ih =>
    exact wellFormed_updateCoinsAll hn ih (fun tx htx => (hc.txs tx htx).nonneg) hu

end Ledger

/-! ## The invariant -/

/-- What does not change during a run: the network and the hash function. -/
structure World where
  network : Network
  blockHash : CBlockHeader → UInt256

/-- The environment belongs to this world. -/
def Env.In (env : Env) (w : World) : Prop := env.network = w.network ∧ env.blockHash = w.blockHash

/-- The undo data at a position is the one of replaying the block, except for what can be
lost. -/
def UndoAt (net : Network) (st : ChainState) (h : UInt256) (pos : CDiskBlockPos) : Prop :=
  ∃ b hp v d undos v' us, st.blockAt h = some b ∧ b.pprev = some hp ∧
    Ledger net st.blockAt hp v d ∧ 1 ≤ b.nHeight ∧ b.block.Checked net ∧
    NoOverwrite v.unspent b.block.vtx ∧
    updateCoinsAll b.nHeight v b.block.vtx = some (undos, v') ∧
    st.node.undoFiles pos = some (hp, ⟨us⟩) ∧ us.map CTxUndo.core = undos.tail.map CTxUndo.core

/-- The index entries form a tree: each is filed under its hash, only genesis has no parent,
and every other one is one above its parent. -/
structure TreeInv (w : World) (entry : UInt256 → Option CBlockIndex) : Prop where
  hash : ∀ h p, entry h = some p → p.phashBlock = some h
  root : ∀ h p, entry h = some p → (p.pprev = none ↔ h = w.network.hashGenesisBlock)
  height : ∀ h p, entry h = some p → 0 ≤ p.nHeight
  parent : ∀ h p hp, entry h = some p → p.pprev = some hp →
    ∃ q, entry hp = some q ∧ p.nHeight = q.nHeight + 1

/-- **The invariant of a node.**  The entries form a tree; the undo data of a block lies below
the end of its file and is the one of the block; the active chain is a path; the coins view is
the ledger of the tip. -/
structure ChainInv (w : World) (st : ChainState) : Prop where
  tree : TreeInv w st.entry
  undo : ∀ h p pos, st.entry h = some p → p.getUndoPos = some pos →
    pos.nPos < st.node.nUndoSize pos.nFile ∧ UndoAt w.network st h pos
  linked : ∀ l h r, st.chain = l ++ h :: r → ∃ p, st.entry h = some p ∧ p.pprev = l.getLast?
  start : st.chain = [] → st.view = .empty
  tip : ∀ h, st.chain.getLast? = some h → st.view.hashBlock = h ∧
    ∃ v d, Ledger w.network st.blockAt h v d ∧ st.view.Same v

/-- A new node satisfies it. -/
theorem chainInv_start (w : World) : ChainInv w {} := by
  have hnone : ∀ h p, ({} : ChainState).entry h ≠ some p := fun h p hp => by cases hp
  have hnil : ({} : ChainState).chain = [] := rfl
  refine ⟨⟨fun h p hp => absurd hp (hnone h p), fun h p hp => absurd hp (hnone h p),
    fun h p hp => absurd hp (hnone h p), fun h p _ hp => absurd hp (hnone h p)⟩,
    fun h p _ hp => absurd hp (hnone h p), fun l h r hl => ?_, fun _ => rfl, fun h hh => ?_⟩
  · rw [hnil] at hl
    exact absurd hl (by simp)
  · rw [hnil] at hh
    exact absurd hh (by simp)

/-- The steps a run may take: in this world, and connecting blocks whose transaction ids
stand for one transaction each and which are not exempt from BIP30. -/
def Lawful (w : World) (st : ChainState) : Op → Prop
  | .connect env hash => env.In w ∧ ∀ p b, st.entry hash = some p → st.blockAt hash = some b →
      HashInjective b.block.vtx ∧ bip30Exempt p = false
  | .accept env _ _ _ => env.In w
  | .disconnect env => env.In w

/-- A test for `Lawful`, apart from the world. -/
def lawfulTest (st : ChainState) : Op → Bool
  | .connect _ hash =>
      match st.entry hash, st.blockAt hash with
      | some p, some b => decide (∀ tx ∈ b.block.vtx, ∀ tx' ∈ b.block.vtx, tx.hash = tx'.hash →
          tx = tx') && !bip30Exempt p
      | _, _ => true
  | _ => true

theorem lawful_of_test {w : World} {st : ChainState} {op : Op} (hw : op.env.In w)
    (h : lawfulTest st op = true) : Lawful w st op := by
  cases op with
  | accept env block pos base => exact hw
  | disconnect env => exact hw
  | connect env hash =>
    refine ⟨hw, fun p b hp hb => ?_⟩
    simp only [lawfulTest, hp, hb, Bool.and_eq_true, decide_eq_true_eq, Bool.not_eq_true'] at h
    exact h

/-! ## Frame facts -/

theorem ChainState.entry_setEntry (st : ChainState) (hash h : UInt256) (p : CBlockIndex) :
    (st.setEntry hash p).entry h = if h = hash then some p else st.entry h :=
  lookup_insert_eq ..

theorem node_connected {env : Env} {block : CBlock} {node node' : Node}
    {pindex pindex' : CBlockIndex} {view view' : CoinsView} {s : ConnectState}
    (hc : ConnectSpec env block node node' pindex pindex' view view' s) :
    node'.tree = node.tree ∧ node'.blockFiles = node.blockFiles := by
  rw [hc.node_eq]
  unfold Node.withUndo
  split <;> exact ⟨rfl, rfl⟩

/-- Where the undo data of a connected block is. -/
theorem undo_connected {env : Env} {block : CBlock} {node node' : Node}
    {pindex pindex' : CBlockIndex} {view view' : CoinsView} {s : ConnectState}
    (hc : ConnectSpec env block node node' pindex pindex' view view' s) :
    (∃ pos, pindex.getUndoPos = some pos ∧ pindex'.getUndoPos = some pos ∧
      node'.undoFiles = node.undoFiles ∧ node'.nUndoSize = node.nUndoSize) ∨
    (pindex'.getUndoPos = some ⟨pindex.nFile, node.nUndoSize pindex.nFile + 8⟩ ∧
      node'.undoFiles = Function.update node.undoFiles ⟨pindex.nFile, node.nUndoSize pindex.nFile + 8⟩
        (some (pindex.pprev.getD 0, CBlockUndo.reread ⟨s.vtxundo⟩)) ∧
      node'.nUndoSize = Function.update node.nUndoSize pindex.nFile
        (node.nUndoSize pindex.nFile + (env.undoSerializeSize ⟨s.vtxundo⟩ + 40))) := by
  rw [hc.node_eq, hc.pindex_eq]
  have hpos : (pindex.withSupply node.tree s).getUndoPos = pindex.getUndoPos := rfl
  unfold Node.withUndo CBlockIndex.withUndo CBlockIndex.raiseValidity
  rw [hpos]
  cases hp : pindex.getUndoPos with
  | some pos =>
    left
    refine ⟨pos, rfl, ?_, rfl, rfl⟩
    have hsome : ∀ q : CBlockIndex, q.nFile = pindex.nFile → q.nUndoPos = pindex.nUndoPos →
        q.nStatus.haveUndo = pindex.nStatus.haveUndo → q.getUndoPos = some pos := by
      intro q h₁ h₂ h₃
      rw [← hp, CBlockIndex.getUndoPos, CBlockIndex.getUndoPos, h₁, h₂, h₃]
    simp only
    (repeat' split) <;> exact hsome _ rfl rfl rfl
  | none =>
    right
    refine ⟨?_, rfl, rfl⟩
    simp only
    (repeat' split) <;> rfl

/-- An entry of the same block in the place of another changes no stored block. -/
theorem blockAt_congr {st st' : ChainState} {hash : UInt256} {p p' : CBlockIndex}
    (hp : st.entry hash = some p)
    (hentry : ∀ h, st'.entry h = if h = hash then some p' else st.entry h)
    (hsame : p'.SameBlock p) (hfiles : st'.node.blockFiles = st.node.blockFiles) :
    st'.blockAt = st.blockAt := by
  funext h
  unfold ChainState.blockAt
  rw [hentry, hfiles]
  split
  · next hh =>
    rw [hh, hp]
    simp only [Option.bind_some, hsame.getBlockPos, hsame.pprev, hsame.nHeight]
  · rfl

theorem UndoAt.congr {net : Network} {st st' : ChainState} {h : UInt256} {pos : CDiskBlockPos}
    (hu : UndoAt net st h pos) (hB : ∀ h b, st.blockAt h = some b → st'.blockAt h = some b)
    (hfile : st'.node.undoFiles pos = st.node.undoFiles pos) : UndoAt net st' h pos := by
  obtain ⟨b, hp, v, d, undos, v', us, hb, hpp, hl, hn, hc, hno, hup, hus, hcore⟩ := hu
  exact ⟨b, hp, v, d, undos, v', us, hB h b hb, hpp, hl.mono hB, hn, hc, hno, hup,
    by rw [hfile, hus], hcore⟩

/-! ## Entries that change -/

section Entries

variable {w : World} {e e' : UInt256 → Option CBlockIndex} {hash : UInt256} {p p' : CBlockIndex}

/-- Another entry of the same block. -/
theorem TreeInv.replace (ht : TreeInv w e) (hp : e hash = some p) (hsb : p'.SameBlock p)
    (he : ∀ h, e' h = if h = hash then some p' else e h) : TreeInv w e' := by
  -- an entry of the new map is an entry of the same block in the old one
  have hold : ∀ h q, e' h = some q → ∃ q₀, e h = some q₀ ∧ q.SameBlock q₀ := by
    intro h q hq
    rw [he] at hq
    split at hq
    · next hh =>
      cases hq
      exact ⟨p, by rw [hh, hp], hsb⟩
    · exact ⟨q, hq, rfl, rfl, rfl, rfl, rfl⟩
  have hnew : ∀ h q₀, e h = some q₀ → ∃ q, e' h = some q ∧ q.nHeight = q₀.nHeight := by
    intro h q₀ hq₀
    rw [he]
    split
    · next hh =>
      rw [hh, hp] at hq₀
      cases hq₀
      exact ⟨p', rfl, hsb.nHeight⟩
    · exact ⟨q₀, hq₀, rfl⟩
  refine ⟨fun h q hq => ?_, fun h q hq => ?_, fun h q hq => ?_, fun h q hp' hq hpp => ?_⟩
  all_goals obtain ⟨q₀, hq₀, hs⟩ := hold h q hq
  · rw [hs.phashBlock]
    exact ht.hash h q₀ hq₀
  · rw [hs.pprev]
    exact ht.root h q₀ hq₀
  · rw [hs.nHeight]
    exact ht.height h q₀ hq₀
  · obtain ⟨r₀, hr₀, hht⟩ := ht.parent h q₀ hp' hq₀ (by rw [← hs.pprev, hpp])
    obtain ⟨r, hr, hrr⟩ := hnew hp' r₀ hr₀
    exact ⟨r, hr, by rw [hs.nHeight, hht, hrr]⟩

/-- A new entry above its parent. -/
theorem TreeInv.add (ht : TreeInv w e) (hnew : e hash = none) (hphash : p.phashBlock = some hash)
    (hplace : hash = w.network.hashGenesisBlock ∧ p.pprev = none ∧ p.nHeight = 0 ∨
      hash ≠ w.network.hashGenesisBlock ∧ ∃ hp q, p.pprev = some hp ∧ e hp = some q ∧
        p.nHeight = q.nHeight + 1)
    (he : ∀ h, e' h = if h = hash then some p else e h) : TreeInv w e' := by
  have hkeep : ∀ h q, e h = some q → e' h = some q := by
    intro h q hq
    rw [he, if_neg, hq]
    rintro rfl
    rw [hnew] at hq
    exact absurd hq (by simp)
  have hcase : ∀ h q, e' h = some q → (h = hash ∧ q = p) ∨ e h = some q := by
    intro h q hq
    rw [he] at hq
    split at hq
    · next hh => exact .inl ⟨hh, (Option.some.inj hq).symm⟩
    · exact .inr hq
  refine ⟨fun h q hq => ?_, fun h q hq => ?_, fun h q hq => ?_, fun h q hp' hq hpp => ?_⟩
  all_goals rcases hcase h q hq with ⟨rfl, rfl⟩ | hq
  · exact hphash
  · exact ht.hash h q hq
  · rcases hplace with ⟨hgen, hroot, -⟩ | ⟨hgen, hp', q', hpp, -⟩
    · simp [hgen, hroot]
    · simp [hgen, hpp]
  · exact ht.root h q hq
  · rcases hplace with ⟨-, -, hht⟩ | ⟨-, hp', q', -, hq', hht⟩
    · rw [hht]
    · have := ht.height hp' q' hq'
      omega
  · exact ht.height h q hq
  · rcases hplace with ⟨-, hroot, -⟩ | ⟨-, hp'', q', hpp', hq', hht⟩
    · rw [hroot] at hpp
      exact absurd hpp (by simp)
    · rw [hpp'] at hpp
      cases hpp
      exact ⟨q', hkeep _ q' hq', hht⟩
  · obtain ⟨q', hq', hht⟩ := ht.parent h q hp' hq hpp
    exact ⟨q', hkeep _ q' hq', hht⟩

/-- The active chain stays a path when a block is put on top of it. -/
theorem linked_concat {chain : List UInt256}
    (hlinked : ∀ l h r, chain = l ++ h :: r → ∃ q, e h = some q ∧ q.pprev = l.getLast?)
    (hp : e hash = some p) (hprev : p.pprev = chain.getLast?) (hsb : p'.SameBlock p)
    (he : ∀ h, e' h = if h = hash then some p' else e h) :
    ∀ l h r, chain ++ [hash] = l ++ h :: r → ∃ q, e' h = some q ∧ q.pprev = l.getLast? := by
  intro l h r hl
  have hlast : l = chain → h = hash → ∃ q, e' h = some q ∧ q.pprev = l.getLast? := by
    rintro rfl rfl
    exact ⟨p', by rw [he, if_pos rfl], by rw [hsb.pprev, hprev]⟩
  rcases List.append_eq_append_iff.1 hl with ⟨m, hm, hr⟩ | ⟨m, hm, hr⟩
  · cases m with
    | nil =>
      simp only [List.nil_append, List.cons.injEq] at hr
      exact hlast (by simpa using hm) hr.1.symm
    | cons a m =>
      have := congrArg List.length hr
      simp at this
  · cases m with
    | nil =>
      simp only [List.nil_append, List.cons.injEq] at hr
      exact hlast (by simpa using hm.symm) hr.1
    | cons a m =>
      simp only [List.cons_append, List.cons.injEq] at hr
      obtain ⟨rfl, -⟩ := hr
      obtain ⟨q, hq, hql⟩ := hlinked l h m hm
      rw [he]
      split
      · next hh =>
        rw [hh, hp] at hq
        cases hq
        exact ⟨p', rfl, by rw [hsb.pprev, hql]⟩
      · exact ⟨q, hq, hql⟩

end Entries

/-! ## Accepting a block -/

/-- A new block is not stored over an old one. -/
theorem blockAt_accept {env : Env} {block : CBlock} {pos : CDiskBlockPos} {base : CBlockIndex}
    {st st' : ChainState} (hstep : acceptBlock env block pos base st = .ok st') :
    ∀ h b, st.blockAt h = some b → st'.blockAt h = some b := by
  obtain ⟨hnew, hfree, pprev, nHeight, -, hst'⟩ := acceptBlock_ok hstep
  intro h b hb
  unfold ChainState.blockAt at hb ⊢
  obtain ⟨q, hq, hb⟩ := Option.bind_eq_some_iff.1 hb
  obtain ⟨blk, hblk, rfl⟩ := Option.map_eq_some_iff.1 hb
  obtain ⟨pos', hpos', hfile⟩ := Option.bind_eq_some_iff.1 hblk
  have hne : pos' ≠ pos := by
    rintro rfl
    rw [hfree] at hfile
    exact absurd hfile (by simp)
  have hfile' : st'.node.blockFiles pos' = some blk := by
    rw [hst', ← hfile]
    exact Function.update_of_ne hne _ _
  have hq' : st'.entry h = some q := by
    rw [hst', ChainState.entry_setEntry, if_neg]
    · exact hq
    · rintro rfl
      rw [hnew] at hq
      exact absurd hq (by simp)
  rw [hq']
  simp [hpos', hfile']

theorem chainInv_accept {w : World} {env : Env} {block : CBlock} {pos : CDiskBlockPos}
    {base : CBlockIndex} {st st' : ChainState} (hinv : ChainInv w st) (hw : env.In w)
    (hstep : acceptBlock env block pos base st = .ok st') : ChainInv w st' := by
  have hblock := blockAt_accept hstep
  obtain ⟨hnew, -, pprev, nHeight, hplace, rfl⟩ := acceptBlock_ok hstep
  set hash := env.blockHash block.toCBlockHeader with hhash
  set p := newEntry hash pprev nHeight block pos base with hp
  set st' := ({ st with node := { st.node with
    blockFiles := Function.update st.node.blockFiles pos (some block) } } : ChainState).setEntry
      hash p with hst'
  have hentry : ∀ h, st'.entry h = if h = hash then some p else st.entry h := fun h =>
    ChainState.entry_setEntry _ hash h p
  have hold : ∀ h q, st.entry h = some q → st'.entry h = some q := by
    intro h q hq
    rw [hentry, if_neg, hq]
    rintro rfl
    rw [hnew] at hq
    exact absurd hq (by simp)
  refine ⟨hinv.tree.add hnew rfl ?_ hentry, fun h q pos' hq hpos' => ?_, fun l h r hl => ?_,
    fun hnil => hinv.start hnil, fun h hh => ?_⟩
  · rw [← hw.1]
    rcases hplace with ⟨hgen, rfl, rfl⟩ | ⟨hgen, prev, rfl, hprev, rfl⟩
    · exact .inl ⟨hgen, rfl, rfl⟩
    · exact .inr ⟨hgen, _, prev, rfl, hprev, rfl⟩
  · rw [hentry] at hq
    split at hq
    · cases hq
      exact absurd hpos' (by simp [hp, newEntry, CBlockIndex.getUndoPos])
    · obtain ⟨hlt, hundo⟩ := hinv.undo h q pos' hq hpos'
      exact ⟨hlt, hundo.congr hblock rfl⟩
  · obtain ⟨q, hq, hl'⟩ := hinv.linked l h r hl
    exact ⟨q, hold h q hq, hl'⟩
  · obtain ⟨hbest, v, d, hl, hsame⟩ := hinv.tip h hh
    exact ⟨hbest, v, d, hl.mono hblock, hsame⟩

/-! ## Connecting a block -/

/-- The block that `ConnectTip` and `DisconnectTip` read is the one of the tree. -/
theorem blockAt_of_read {env : Env} {st : ChainState} {hash : UInt256} {p : CBlockIndex}
    {block : CBlock} (hp : st.entry hash = some p)
    (hread : st.node.readBlockFromDisk env p = some block) :
    st.blockAt hash = some ⟨p.pprev, p.nHeight, block⟩ := by
  rw [ChainState.blockAt, hp, Option.bind_some, (readBlockFromDisk_eq_some hread).1]
  rfl

theorem CTxInUndo.core_reread (u : CTxInUndo) : u.reread.core = u.core := rfl

theorem core_reread (undos : List CTxUndo) :
    (CBlockUndo.reread ⟨undos⟩).vtxundo.map CTxUndo.core = undos.map CTxUndo.core := by
  simp only [CBlockUndo.reread, List.map_map]
  refine List.map_congr_left fun t _ => ?_
  simp only [Function.comp_apply, CTxUndo.core, List.map_map]
  rfl

theorem CBlock.Checked.spends_ne_nil {net : Network} {b : CBlock} (h : b.Checked net) :
    ∀ tx ∈ b.vtx.tail, tx.spends ≠ [] := by
  obtain ⟨tx₀, txs, hv, -, hrest⟩ := h.shape
  intro tx htx
  have htx' : tx ∈ txs := by simpa [hv] using htx
  rw [CTransaction.spends_of_not_isCoinBase (hrest tx htx')]
  simpa using (h.txs tx (by rw [hv]; exact List.mem_cons_of_mem _ htx')).vin_ne_nil

/-- What connecting a block to the tip means for the ledger. -/
structure LedgerStep (w : World) (st : ChainState) (p : CBlockIndex) (block : CBlock)
    (view : CoinsView) (vtxundo : List CTxUndo) (hp : UInt256) (v v' : CoinsView) (d : ℤ)
    (undos : List CTxUndo) : Prop where
  pprev : p.pprev = some hp
  best : st.view.hashBlock = hp
  height : 1 ≤ p.nHeight
  above : p.AboveParent st.node.tree
  ledger : Ledger w.network st.blockAt hp v d
  same : st.view.Same v
  checked : block.Checked w.network
  noOverwrite : NoOverwrite v.unspent block.vtx
  coins : updateCoinsAll p.nHeight v block.vtx = some (undos, v')
  same' : view.Same v'
  undo : vtxundo.map CTxUndo.core = undos.tail.map CTxUndo.core

theorem ledgerStep_connected {w : World} {env : Env} {hash : UInt256} {st : ChainState}
    {p p' : CBlockIndex} {block : CBlock} {view : CoinsView} {node : Node} {s : ConnectState}
    (hinv : ChainInv w st) (hw : env.In w) (hp : st.entry hash = some p)
    (hprev : p.pprev = st.chain.getLast?) (hinj : HashInjective block.vtx)
    (hexempt : bip30Exempt p = false) (hgen : hash ≠ w.network.hashGenesisBlock)
    (hc : ConnectSpec env block st.node node p p' st.view view s) :
    ∃ hp v v' d undos, LedgerStep w st p block view s.vtxundo hp v v' d undos := by
  obtain ⟨hp₀, hpp⟩ : ∃ hp₀, p.pprev = some hp₀ :=
    Option.ne_none_iff_exists'.1 fun hnone => hgen ((hinv.tree.root hash p hp).1 hnone)
  rw [hpp] at hprev
  obtain ⟨hbest, v, d, hl, hsame⟩ := hinv.tip hp₀ hprev.symm
  obtain ⟨q, hq, hht⟩ := hinv.tree.parent hash p hp₀ hp hpp
  have habove : p.AboveParent st.node.tree := by
    intro h₁ q₁ hh₁ hq₁
    rw [hpp] at hh₁
    cases hh₁
    have : st.entry hp₀ = some q₁ := hq₁
    rw [hq] at this
    cases this
    exact hht
  obtain ⟨hbip30, -⟩ := hc.loop
  obtain ⟨undos₀, hu₀, htail, -⟩ := hc.coins
  have hno : NoOverwrite st.view.unspent block.vtx := by
    refine noOverwrite_of_bip30 hu₀ (hbip30.resolve_left ?_) hinj hc.checked.spends_ne_nil
    rw [hexempt]
    simp
  obtain ⟨undos, v', hu, hsame', hcore⟩ := hsame.updateCoinsAll hu₀
  have hview : view.Same s.view := by rw [hc.view_eq]; exact fun t => rfl
  refine ⟨hp₀, v, v', d, undos, hpp, hbest, ?_, habove, hl, hsame, ?_, ?_, hu, hview.trans hsame', ?_⟩
  · have := hinv.tree.height hp₀ q hq
    omega
  · rw [← hw.1]
    exact hc.checked
  · rw [← hsame.unspent]
    exact hno
  · rw [htail, List.map_tail, hcore, List.map_tail]

/-- The undo data after a block was connected: the positions in use lie below the end of the
file, and the new one, if any, just above it. -/
theorem undo_step {w : World} {env : Env} {hash : UInt256} {st st' : ChainState}
    {p p' : CBlockIndex} {block : CBlock} {view : CoinsView} {node : Node} {s : ConnectState}
    {hp₀ : UInt256} {v v' : CoinsView} {d : ℤ} {undos : List CTxUndo} (hinv : ChainInv w st)
    (hp : st.entry hash = some p) (hc : ConnectSpec env block st.node node p p' st.view view s)
    (hl : LedgerStep w st p block view s.vtxundo hp₀ v v' d undos)
    (hblock : st.blockAt hash = some ⟨p.pprev, p.nHeight, block⟩) (hblocks : st'.blockAt = st.blockAt)
    (hentry : ∀ h, st'.entry h = if h = hash then some p' else st.entry h)
    (hfiles : st'.node.undoFiles = node.undoFiles) (hsizes : st'.node.nUndoSize = node.nUndoSize) :
    ∀ h q pos, st'.entry h = some q → q.getUndoPos = some pos →
      pos.nPos < st'.node.nUndoSize pos.nFile ∧ UndoAt w.network st' h pos := by
  intro h q pos hq hpos
  rw [hentry] at hq
  have hkeep : ∀ q₀, st.entry h = some q₀ → q₀.getUndoPos = some pos →
      node.undoFiles pos = st.node.undoFiles pos → UndoAt w.network st' h pos := by
    intro q₀ hq₀ hpos₀ hfile
    exact (hinv.undo h q₀ pos hq₀ hpos₀).2.congr (fun h b hb => by rw [hblocks, hb])
      (by rw [hfiles, hfile])
  rw [hsizes]
  rcases undo_connected hc with ⟨pos₀, hpos₀, hpos₀', hfile, hsize⟩ | ⟨hpos₀', hfile, hsize⟩
  · rw [hsize]
    split at hq
    · next hh =>
      cases hq
      rw [hpos₀'] at hpos
      cases hpos
      exact ⟨(hinv.undo hash p pos hp hpos₀).1, hkeep p (hh ▸ hp) hpos₀ (by rw [hfile])⟩
    · exact ⟨(hinv.undo h q pos hq hpos).1, hkeep q hq hpos (by rw [hfile])⟩
  · rw [hsize]
    split at hq
    · next hh =>
      cases hq
      rw [hpos₀'] at hpos
      cases hpos
      refine ⟨by simp only [Function.update_self]; omega, ?_⟩
      refine ⟨_, hp₀, v, d, undos, v', _, by rw [hblocks, hh]; exact hblock, hl.pprev,
        by rw [hblocks]; exact hl.ledger, hl.height, hl.checked, hl.noOverwrite, hl.coins, ?_,
        (core_reread s.vtxundo).trans hl.undo⟩
      rw [hfiles, hfile, Function.update_self, hl.pprev]
      rfl
    · have hlt := (hinv.undo h q pos hq hpos).1
      refine ⟨?_, hkeep q hq hpos ?_⟩
      · rw [Function.update_apply]
        split
        · next hf => rw [hf] at hlt; omega
        · exact hlt
      · rw [hfile, Function.update_of_ne]
        rintro rfl
        simp only at hlt
        omega

/-- What every connected block has in common: its entry is replaced by one of the same block
and its hash goes on top of the active chain. -/
structure ConnectFrame (env : Env) (st st' : ChainState) (hash : UInt256) (p p' : CBlockIndex)
    (block : CBlock) : Prop where
  entry : st.entry hash = some p
  prev : p.pprev = st.chain.getLast?
  read : st.node.readBlockFromDisk env p = some block
  same : p'.SameBlock p
  entries : ∀ h, st'.entry h = if h = hash then some p' else st.entry h
  files : st'.node.blockFiles = st.node.blockFiles
  chain : st'.chain = st.chain ++ [hash]

namespace ConnectFrame

variable {env : Env} {st st' : ChainState} {hash : UInt256} {p p' : CBlockIndex} {block : CBlock}

theorem stored (hf : ConnectFrame env st st' hash p p' block) :
    st.blockAt hash = some ⟨p.pprev, p.nHeight, block⟩ := blockAt_of_read hf.entry hf.read

theorem blocks (hf : ConnectFrame env st st' hash p p' block) : st'.blockAt = st.blockAt :=
  blockAt_congr hf.entry hf.entries hf.same hf.files

end ConnectFrame

/-- What connecting genesis does. -/
structure GenesisStep (st st' : ChainState) (hash : UInt256) (p p' : CBlockIndex) : Prop where
  entry : p' = p
  view : st'.view = st.view.setBestBlock hash
  undoFiles : st'.node.undoFiles = st.node.undoFiles
  nUndoSize : st'.node.nUndoSize = st.node.nUndoSize
  blocktree : st'.node.blocktree = st.node.blocktree

/-- What connecting another block does. -/
structure BlockStep (w : World) (env : Env) (st st' : ChainState) (p p' : CBlockIndex)
    (block : CBlock) (node : Node) (s : ConnectState) (hp : UInt256) (v v' : CoinsView) (d : ℤ)
    (undos : List CTxUndo) : Prop where
  spec : ConnectSpec env block st.node node p p' st.view st'.view s
  ledger : LedgerStep w st p block st'.view s.vtxundo hp v v' d undos
  undoFiles : st'.node.undoFiles = node.undoFiles
  nUndoSize : st'.node.nUndoSize = node.nUndoSize
  blocktree : st'.node.blocktree = node.blocktree

/-- **Connecting a block**, taken apart. -/
theorem connectTip_cases {w : World} {env : Env} {hash : UInt256} {st st' : ChainState}
    (hinv : ChainInv w st) (hlawful : Lawful w st (.connect env hash))
    (hstep : connectTip env hash st = .ok st') :
    ∃ p p' block, ConnectFrame env st st' hash p p' block ∧
      (hash = w.network.hashGenesisBlock ∧ GenesisStep st st' hash p p' ∨
        hash ≠ w.network.hashGenesisBlock ∧ ∃ node s hp v v' d undos,
          BlockStep w env st st' p p' block node s hp v v' d undos) := by
  obtain ⟨p, block, view, node, p', hp, hprev, hread, hconnect, rfl⟩ := connectTip_ok hstep
  obtain ⟨hw, hcond⟩ := hlawful
  obtain ⟨hinj, hexempt⟩ := hcond p _ hp (blockAt_of_read hp hread)
  have hphash : p.getBlockHash = hash := by
    rw [CBlockIndex.getBlockHash, hinv.tree.hash hash p hp]
    rfl
  have hbhash := (readBlockFromDisk_eq_some hread).2
  rw [hphash] at hbhash
  have hentry : ∀ h, ((({ node := node, view := view } : ChainState).setEntry hash p').setChain
      (st.chain ++ [hash])).entry h = if h = hash then some p' else node.tree.mapBlockIndex.lookup h :=
    fun h => ChainState.entry_setEntry _ hash h p'
  refine ⟨p, p', block, ?_⟩
  by_cases hgen : hash = w.network.hashGenesisBlock
  · obtain ⟨rfl, rfl, rfl⟩ := connectBlock_genesis hconnect (by rw [hbhash, hgen, hw.1])
    exact ⟨⟨hp, hprev, hread, ⟨rfl, rfl, rfl, rfl, rfl⟩, hentry, rfl, rfl⟩,
      .inl ⟨hgen, rfl, by rw [hphash]; rfl, rfl, rfl, rfl⟩⟩
  · obtain ⟨s, hc⟩ := connectBlock_ok hconnect (by rw [hbhash, hw.1]; exact hgen)
    obtain ⟨hp₀, v, v', d, undos, hl⟩ := ledgerStep_connected hinv hw hp hprev hinj hexempt hgen hc
    obtain ⟨htree, hfiles⟩ := node_connected hc
    refine ⟨⟨hp, hprev, hread, sameBlock_connected hc, ?_, hfiles, rfl⟩,
      .inr ⟨hgen, node, s, hp₀, v, v', d, undos, hc, hl, rfl, rfl, rfl⟩⟩
    rw [htree] at hentry
    exact hentry

theorem chainInv_connect {w : World} {env : Env} {hash : UInt256} {st st' : ChainState}
    (hinv : ChainInv w st) (hlawful : Lawful w st (.connect env hash))
    (hstep : connectTip env hash st = .ok st') : ChainInv w st' := by
  obtain ⟨p, p', block, hf, hcase⟩ := connectTip_cases hinv hlawful hstep
  have htree := hinv.tree.replace hf.entry hf.same hf.entries
  have hlinked := linked_concat hinv.linked hf.entry hf.prev hf.same hf.entries
  rw [← hf.chain] at hlinked
  have hnotnil : st'.chain ≠ [] := by simp [hf.chain]
  have htop : ∀ h, st'.chain.getLast? = some h → h = hash := by
    intro h hh
    simpa [hf.chain] using hh.symm
  rcases hcase with ⟨hgen, hg⟩ | ⟨hgen, node, s, hp₀, v, v', d, undos, hb⟩
  · have hroot : p.pprev = none := (hinv.tree.root hash p hf.entry).2 hgen
    have hnil : st.chain = [] := List.getLast?_eq_none_iff.1 (hf.prev.symm.trans hroot)
    refine ⟨htree, fun h q pos hq hpos => ?_, hlinked, fun hc => absurd hc hnotnil, fun h hh => ?_⟩
    · have hq' : st.entry h = some q := by
        rw [hf.entries, hg.entry] at hq
        split at hq
        · next hh => rw [hh, hf.entry, hq]
        · exact hq
      obtain ⟨hlt, hundo⟩ := hinv.undo h q pos hq' hpos
      exact ⟨by rw [hg.nUndoSize]; exact hlt,
        hundo.congr (fun h b hb => by rw [hf.blocks, hb]) (by rw [hg.undoFiles])⟩
    · obtain rfl := htop h hh
      refine ⟨by rw [hg.view]; rfl, .empty, 0, ?_, ?_⟩
      · have hblock := hf.stored
        rw [hgen] at hblock
        rw [hf.blocks, hgen]
        exact .genesis hblock hroot
      · rw [hg.view]
        exact CoinsView.Same.of_coins_eq (by rw [hinv.start hnil]; rfl)
  · refine ⟨htree, ?_, hlinked, fun hc => absurd hc hnotnil, fun h hh => ?_⟩
    · exact undo_step hinv hf.entry hb.spec hb.ledger hf.stored hf.blocks hf.entries hb.undoFiles
        hb.nUndoSize
    · obtain rfl := htop h hh
      refine ⟨?_, v', d + droppedAll block.vtx, ?_, hb.ledger.same'⟩
      · rw [hb.spec.view_eq]
        change p.getBlockHash = h
        rw [CBlockIndex.getBlockHash, hinv.tree.hash h p hf.entry]
        rfl
      · rw [hf.blocks]
        exact .next hb.ledger.ledger hf.stored hb.ledger.pprev hb.ledger.height hb.ledger.checked
          hb.ledger.noOverwrite hb.ledger.coins

/-! ## Disconnecting the tip -/

/-- The record of the first transaction of a block is empty. -/
theorem CBlock.Checked.undos_eq_cons {net : Network} {b : CBlock} (hb : b.Checked net) {h : ℤ}
    {v v' : CoinsView} {undos : List CTxUndo} (hu : updateCoinsAll h v b.vtx = some (undos, v')) :
    undos = {} :: undos.tail := by
  obtain ⟨tx₀, txs, hvtx, hcb, -⟩ := hb.shape
  rw [hvtx] at hu
  obtain ⟨undo, v₁, undos', h₁, -, rfl⟩ := updateCoinsAll_cons_eq_some hu
  obtain ⟨us, v₀, hs, rfl, -⟩ := updateCoins_eq_some h₁
  have hus := length_spendInputs hs
  rw [CTransaction.spends_of_isCoinBase hcb, List.length_nil, List.length_eq_zero_iff] at hus
  rw [hus, List.tail_cons]

/-- Undo records that agree up to what can be lost fit the same transactions. -/
theorem UndoFits.of_core {txs : List CTransaction} {undos : List CTxUndo} (hfit : UndoFits txs undos) :
    ∀ {undos' : List CTxUndo}, undos'.map CTxUndo.core = undos.map CTxUndo.core →
      UndoFits txs undos' := by
  induction hfit with
  | nil =>
    intro undos' h
    rw [List.map_nil, List.map_eq_nil_iff] at h
    rw [h]
    exact .nil
  | cons hlen _ ih =>
    intro undos' h
    cases undos' with
    | nil => exact absurd h (by simp)
    | cons u us =>
      simp only [List.map_cons, List.cons.injEq] at h
      refine .cons ?_ (ih h.2)
      have := congrArg (fun t : CTxUndo => t.vprevout.length) h.1
      simp only [CTxUndo.core, List.length_map] at this
      rw [this, hlen]

/-- What taking the tip off means for the ledger: `undos` are the records of the replay, `us`
the ones on disk. -/
structure UnledgerStep (w : World) (env : Env) (st st' : ChainState) (hash : UInt256)
    (p : CBlockIndex) (block : CBlock) (hp : UInt256) (v v' : CoinsView) (d : ℤ)
    (undos us : List CTxUndo) : Prop where
  chain : st.chain = st.chain.dropLast ++ [hash]
  tip : st.chain.dropLast.getLast? = some hp
  entry : st.entry hash = some p
  pprev : p.pprev = some hp
  stored : st.blockAt hash = some ⟨p.pprev, p.nHeight, block⟩
  height : 1 ≤ p.nHeight
  ledger : Ledger w.network st.blockAt hp v d
  checked : block.Checked w.network
  noOverwrite : NoOverwrite v.unspent block.vtx
  coins : updateCoinsAll p.nHeight v block.vtx = some (undos, v')
  same : st.view.Same v'
  undo : us.map CTxUndo.core = undos.map CTxUndo.core
  disk : ∃ pos, p.getUndoPos = some pos ∧ st.node.undoFiles pos = some (hp, ⟨us.tail⟩)
  same' : st'.view.Same v
  best : st'.view.hashBlock = hp
  node : st'.node = { st.node.onBlockTree (CBlockTreeDB.withoutIndexes env
      (undoBatch env p.nHeight 0 (block.vtx.zip us))) with
    tree := { st.node.tree with chainActive := st.chain.dropLast } }

theorem unledgerStep_disconnected {w : World} {env : Env} {st st' : ChainState}
    (hinv : ChainInv w st) (hstep : disconnectTip env st = .ok st') :
    ∃ hash p block hp v v' d undos us,
      UnledgerStep w env st st' hash p block hp v v' d undos us := by
  obtain ⟨hash, p, block, view, node, p', htip, hp, hread, hdis, rfl⟩ := disconnectTip_ok hstep
  obtain ⟨-, rfl, batch, hspec⟩ := disconnectBlock_eq_ok.1 hdis
  obtain ⟨-, pos, hp₀, blockUndo, view₁, hpos, hpp, hundo, -, htxs, rfl⟩ :=
    disconnectChecks_ok hspec.checks
  have hblock := blockAt_of_read hp hread
  have hchain : st.chain = st.chain.dropLast ++ [hash] :=
    (List.dropLast_append_getLast? hash htip).symm
  -- the parent is the block before in the active chain
  have hprev : st.chain.dropLast.getLast? = some hp₀ := by
    obtain ⟨q, hq, hql⟩ := hinv.linked st.chain.dropLast hash [] hchain
    rw [hp] at hq
    cases hq
    rw [← hql, hpp]
  obtain ⟨-, b, hp₁, v, d, undos, v', us, hb, hpp₁, hl, hn, hc, hno, hu, hus, hcore⟩ :=
    hinv.undo hash p pos hp hpos
  rw [hblock] at hb
  cases hb
  rw [hpp] at hpp₁
  cases hpp₁
  -- the view of the tip is the one of the replay
  obtain ⟨-, v₁, d₁, hl₁, hsame⟩ := hinv.tip hash htip
  obtain ⟨rfl, -⟩ := hl₁.unique (.next hl hblock hpp hn hc hno hu)
  have hread' : blockUndo = ⟨us⟩ := by
    rw [Node.readUndoFromDisk, hus] at hundo
    simpa using hundo.symm
  have hundos := hc.undos_eq_cons hu
  have hcore' : ({} :: us).map CTxUndo.core = undos.map CTxUndo.core := by
    rw [hundos, List.map_cons, List.map_cons, hcore]
  have hfit := (undoFits_updateCoinsAll hu).of_core hcore'
  rw [hread'] at htxs
  rw [disconnectTxs_eq hfit hc.shapeFrom] at htxs
  simp only [Except.ok.injEq, Prod.mk.injEq] at htxs
  obtain ⟨rfl, -, rfl⟩ := htxs
  refine ⟨hash, p, block, hp₀, v, v₁, d, undos, {} :: us, hchain, hprev, hp, hpp, hblock, hn, hl, hc,
    hno, hu, hsame, hcore', ⟨pos, hpos, hus⟩, ?_, rfl, ?_⟩
  · exact disconnectCoinsAll_core hn hl.wellFormed (fun tx htx => (hc.txs tx htx).nonneg) hu hcore'
      hno hsame
  · rw [hspec.node_eq]
    rfl

namespace UnledgerStep

variable {w : World} {env : Env} {st st' : ChainState} {hash : UInt256} {p : CBlockIndex}
  {block : CBlock} {hp : UInt256} {v v' : CoinsView} {d : ℤ} {undos us : List CTxUndo}

theorem entries (hd : UnledgerStep w env st st' hash p block hp v v' d undos us) :
    st'.entry = st.entry := by
  funext h
  rw [ChainState.entry, hd.node]
  rfl

theorem blocks (hd : UnledgerStep w env st st' hash p block hp v v' d undos us) :
    st'.blockAt = st.blockAt := by
  funext h
  rw [ChainState.blockAt, hd.entries, hd.node]
  rfl

theorem chain' (hd : UnledgerStep w env st st' hash p block hp v v' d undos us) :
    st'.chain = st.chain.dropLast := by rw [ChainState.chain, hd.node]

end UnledgerStep

theorem chainInv_disconnect {w : World} {env : Env} {st st' : ChainState} (hinv : ChainInv w st)
    (hstep : disconnectTip env st = .ok st') : ChainInv w st' := by
  obtain ⟨hash, p, block, hp, v, v', d, undos, us, hd⟩ := unledgerStep_disconnected hinv hstep
  refine ⟨by rw [hd.entries]; exact hinv.tree, fun h q pos hq hpos => ?_, fun l h r hl => ?_,
    fun hnil => ?_, fun h hh => ?_⟩
  · rw [hd.entries] at hq
    obtain ⟨hlt, hundo⟩ := hinv.undo h q pos hq hpos
    have hfiles : st'.node.undoFiles = st.node.undoFiles ∧ st'.node.nUndoSize = st.node.nUndoSize := by
      rw [hd.node]
      exact ⟨rfl, rfl⟩
    exact ⟨by rw [hfiles.2]; exact hlt,
      hundo.congr (fun h b hb => by rw [hd.blocks, hb]) (by rw [hfiles.1])⟩
  · rw [hd.chain'] at hl
    rw [hd.entries]
    exact hinv.linked l h (r ++ [hash]) (by rw [hd.chain, hl]; simp)
  · have := hd.tip
    rw [← hd.chain', hnil] at this
    exact absurd this (by simp)
  · rw [hd.chain', hd.tip] at hh
    cases hh
    exact ⟨hd.best, v, d, by rw [hd.blocks]; exact hd.ledger, hd.same'⟩

/-! ## Runs -/

/-- Every step of the node keeps the invariant. -/
theorem chainInv_step {w : World} {st st' : ChainState} {op : Op} (hinv : ChainInv w st)
    (hlawful : Lawful w st op) (hstep : step st op = .ok st') : ChainInv w st' := by
  cases op with
  | accept env block pos base => exact chainInv_accept hinv hlawful hstep
  | connect env hash => exact chainInv_connect hinv hlawful hstep
  | disconnect env => exact chainInv_disconnect hinv hstep

/-- **The coins view is the ledger of the tip** after every run from an empty node. -/
theorem chainInv_run {w : World} {ops : List Op} {st : ChainState}
    (hlawful : Run.Along step (Lawful w) {} ops) (hrun : Run.run step {} ops = .ok st) :
    ChainInv w st :=
  Run.run_invariant (fun _ _ _ hinv hl hs => chainInv_step hinv hl hs) (chainInv_start w) hlawful
    hrun

/-- The parents of the active chain are on it. -/
theorem ChainInv.parent_mem {w : World} {st : ChainState} (hinv : ChainInv w st)
    {h hp : UInt256} {b : TreeBlock} (hmem : h ∈ st.chain) (hb : st.blockAt h = some b)
    (hprev : b.pprev = some hp) : hp ∈ st.chain := by
  obtain ⟨l, r, hchain⟩ := List.append_of_mem hmem
  obtain ⟨p, hp', hlast⟩ := hinv.linked l h r hchain
  rw [ChainState.blockAt, hp', Option.bind_some, Option.map_eq_some_iff] at hb
  obtain ⟨block, -, rfl⟩ := hb
  rw [hchain]
  exact List.mem_append_left _ (List.mem_of_getLast? (hlast.symm.trans hprev))

/-- **No history is left in the coins.**  Two runs from an empty node that end on the same active
chain, with the same blocks stored for it, have the same coins, whatever other branches they
accepted, connected and disconnected on the way, and in what order. -/
theorem coins_of_chain {w : World} {ops ops' : List Op} {st st' : ChainState}
    (hlawful : Run.Along step (Lawful w) {} ops) (hrun : Run.run step {} ops = .ok st)
    (hlawful' : Run.Along step (Lawful w) {} ops') (hrun' : Run.run step {} ops' = .ok st')
    (hchain : st.chain = st'.chain) (hblocks : ∀ h ∈ st.chain, st.blockAt h = st'.blockAt h) :
    st.view.Same st'.view := by
  have hinv := chainInv_run hlawful hrun
  have hinv' := chainInv_run hlawful' hrun'
  rcases List.eq_nil_or_concat st.chain with hnil | ⟨l, h, hconcat⟩
  · rw [hinv.start hnil, hinv'.start (hchain ▸ hnil)]
    exact .refl _
  · have hlast : st.chain.getLast? = some h := by
      rw [hconcat, List.concat_eq_append, List.getLast?_concat]
    obtain ⟨-, v, d, hledger, hsame⟩ := hinv.tip h hlast
    obtain ⟨-, v', d', hledger', hsame'⟩ := hinv'.tip h (hchain ▸ hlast)
    have hmoved := hledger.congr_on (fun _ _ _ hmem => hinv.parent_mem hmem) hblocks
      (List.mem_of_getLast? hlast)
    obtain ⟨rfl, -⟩ := hmoved.unique hledger'
    exact hsame.trans hsame'.symm

end FairCoin
