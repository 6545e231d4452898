import FairCoin.Budget
import FairCoin.Reward

/-!
# What a superblock can mint

At a budget height `IsBlockValueValid` lets every mint through, with the remark that the value
of the block is evaluated in `CheckBlock`.  `CheckBlock` looks for one output that pays a
budget and does not look at the others.

* `Env.withBudget` — the checks of a block, on the tables of the budget manager.
* `CBlock.Satisfies` — the budget payments that the reward transaction of a block makes.
* `superblock_mint` — **what is left of the limit**: only the maximum money supply bounds the
  mint, so that the budget bounds it exactly when the supply left is within the budget.
-/

namespace FairCoin

open Store CBudgetManager

/-- A node whose budget manager has these finalized budgets and `nEnabled` masternodes. -/
def Env.withBudget (env : Env) (mapFinalizedBudgets : FinalizedBudgets) (nEnabled : ℕ) : Env :=
  { env with
    isBudgetPaymentBlock := isBudgetPaymentBlock mapFinalizedBudgets nEnabled
    budgetIsTransactionValid := isTransactionValid mapFinalizedBudgets nEnabled }

/-- The transaction whose outputs `IsBlockPayeeValid` looks at. -/
def CBlock.rewardTx (block : CBlock) (net : Network) (nBlockHeight : ℤ) : Option CTransaction :=
  if net.lastPowBlock < nBlockHeight then block.vtx[1]? else block.vtx[0]?

/-- The block makes this payment of a budget that `IsTransactionValid` takes payments of. -/
def CBlock.Satisfies (block : CBlock) (net : Network) (mapFinalizedBudgets : FinalizedBudgets)
    (nEnabled : ℕ) (nBlockHeight : ℤ) (p : CTxBudgetPayment) : Prop :=
  ∃ tx ∈ block.rewardTx net nBlockHeight, ∃ b ∈ budgets mapFinalizedBudgets,
    withinTenth mapFinalizedBudgets nEnabled nBlockHeight b = true ∧
      b.getBudgetPaymentByBlock nBlockHeight = some p ∧
      ∃ out ∈ tx.vout, p.payee = out.scriptPubKey ∧ p.nAmount = out.nValue

/-- What the budget grants: the block value, the fees in a proof-of-work block, and the amount
of the payment. -/
def budgetBound (block : CBlock) (nHeight fees nAmount : ℤ) : ℤ :=
  (if block.isProofOfStake then getBlockValue nHeight else getBlockValue nHeight + fees) + nAmount

/-! ## The checks -/

/-- A connected block has passed the payee test of `CheckBlock`. -/
theorem checkPayee_of_connectBlock {env : Env} {block : CBlock} {node node' : Node}
    {pindex pindex' : CBlockIndex} {view view' : CoinsView}
    (h : connectBlock env block view false (node, pindex) = .ok view' (node', pindex')) :
    checkPayee env node.tree block = .ok () := by
  obtain ⟨_, _, hget, h⟩ := ConnectM.bind_eq_ok.1 h
  obtain ⟨rfl, rfl⟩ := ConnectM.get_eq_ok.1 hget
  obtain ⟨_, _, h₁, -⟩ := ConnectM.bind_eq_ok.1 h
  obtain ⟨hblock, -⟩ := ConnectM.check_eq_ok.1 h₁
  simp only [checkBlock, bind_eq_ok, require_eq_ok, exists_const] at hblock
  obtain ⟨-, -, _, -, -, -, -, _, -, _, -, _, hpayee, -⟩ := hblock
  exact hpayee

/-- With the budget enforced, a block at a budget height makes a payment of a budget. -/
theorem exists_satisfies {env : Env} {tree : BlockTree} {block : CBlock} {m : FinalizedBudgets}
    {nEnabled : ℕ} {h : ℤ} (hpayee : checkPayee (env.withBudget m nEnabled) tree block = .ok ())
    (hheight : tree.heightFor block = some h) (hpos : h ≠ 0)
    (hsync : env.masternodeSynced = true) (hdownload : env.isInitialBlockDownload = false)
    (hsuper : env.superblocks = true) (henforced : env.budgetEnforcement = true)
    (hbudget : isBudgetPaymentBlock m nEnabled h = true) :
    ∃ p, block.Satisfies env.network m nEnabled h p := by
  have hdownload' : (env.withBudget m nEnabled).isInitialBlockDownload = false := hdownload
  have hif : h ≠ 0 ∧ (!(env.withBudget m nEnabled).isInitialBlockDownload) = true := by
    simp [hpos, hdownload']
  simp only [checkPayee, hheight, if_pos hif, bind_eq_ok, require_eq_ok] at hpayee
  obtain ⟨ok, hvalid, rfl⟩ := hpayee
  have hsync' : (env.withBudget m nEnabled).masternodeSynced = true := hsync
  have hsuper' : (env.withBudget m nEnabled).superblocks = true := hsuper
  have henforced' : (env.withBudget m nEnabled).budgetEnforcement = true := henforced
  have hbudget' : (env.withBudget m nEnabled).isBudgetPaymentBlock h = true := hbudget
  simp only [isBlockPayeeValid, hsync', hsuper', hbudget', henforced', Bool.not_true,
    Bool.false_eq_true, if_false, Bool.and_self, if_true] at hvalid
  split at hvalid
  · exact absurd hvalid (by simp)
  · next tx htx =>
    split at hvalid
    · next htaken =>
      obtain ⟨-, b, hb, hwithin, hb'⟩ := isTransactionValid_iff.1 htaken
      obtain ⟨p, hp, hout⟩ := CFinalizedBudget.isTransactionValid_iff.1 hb'
      exact ⟨p, tx, htx, b, hb, hwithin, hp, hout⟩
    · exact absurd hvalid (by simp)

/-- At a budget height every mint passes the value check. -/
theorem isBlockValueValid_budget {env : Env} {tree : BlockTree} {block : CBlock}
    {m : FinalizedBudgets} {nEnabled : ℕ} {h : ℤ} (hheight : tree.heightFor block = some h)
    (hsync : env.masternodeSynced = true) (hsuper : env.superblocks = true)
    (hbudget : isBudgetPaymentBlock m nEnabled h = true) (x nMint : ℤ) :
    isBlockValueValid (env.withBudget m nEnabled) tree block x nMint = true := by
  have hsync' : (env.withBudget m nEnabled).masternodeSynced = true := hsync
  have hsuper' : (env.withBudget m nEnabled).superblocks = true := hsuper
  have hbudget' : (env.withBudget m nEnabled).isBudgetPaymentBlock h = true := hbudget
  simp [isBlockValueValid, hheight, hsync', hsuper', hbudget']

/-- A value that is below the range limit and wraps to at most `M` is at most `M`. -/
theorem le_of_wrap64_le {x M : ℤ} (hx : x < 9223372036854775808) (hM : 0 ≤ M)
    (hle : wrap64 x ≤ M) : x ≤ M := by
  by_cases hlo : -9223372036854775808 ≤ x
  · rwa [wrap64_of_lt hlo hx] at hle
  · omega

/-! ## The bound -/

/-- **What a superblock can mint.**  On a synchronised node with superblocks and budget
enforcement, a block connected at a budget height makes a payment of a budget.  It mints no
more than the budget grants when the money supply left before it is no more than that and fewer
than 2794 of its transactions have the shape of a coinbase or coinstake.  The checks let every
mint up to the money supply left through. -/
theorem superblock_mint {env : Env} {m : FinalizedBudgets} {nEnabled : ℕ} {block : CBlock}
    {node node' : Node} {pindex pindex' : CBlockIndex} {view view' : CoinsView}
    (hconnect : connectBlock (env.withBudget m nEnabled) block view false (node, pindex) =
      .ok view' (node', pindex'))
    (hgenesis : env.blockHash block.toCBlockHeader ≠ env.network.hashGenesisBlock)
    (hprev : pindex.pprev = some view.hashBlock) (habove : pindex.AboveParent node.tree)
    (hheight : node.tree.heightFor block = some pindex.nHeight) (hpos : pindex.nHeight ≠ 0)
    (hsync : env.masternodeSynced = true) (hdownload : env.isInitialBlockDownload = false)
    (hsuper : env.superblocks = true) (henforced : env.budgetEnforcement = true)
    (hbudget : isBudgetPaymentBlock m nEnabled pindex.nHeight = true) :
    (∃ p, block.Satisfies env.network m nEnabled pindex.nHeight p) ∧
    (∀ p, block.Satisfies env.network m nEnabled pindex.nHeight p →
      pindex.supplyPrev node.tree ≤ env.network.maxMoneyOut → rewardCount block.vtx < 2794 →
      env.network.maxMoneyOut - pindex.supplyPrev node.tree ≤
        budgetBound block pindex.nHeight (blockFees pindex.nHeight view block.vtx) p.nAmount →
      blockMint pindex.nHeight view block.vtx ≤
        budgetBound block pindex.nHeight (blockFees pindex.nHeight view block.vtx) p.nAmount) ∧
    ∀ supplyPrev fees nAmount,
      ((∀ nMint, isBlockValueValid (env.withBudget m nEnabled) node.tree block
            (expectedMint block pindex.nHeight fees) nMint = true →
          supplyPrev + nMint ≤ env.network.maxMoneyOut →
          nMint ≤ budgetBound block pindex.nHeight fees nAmount) ↔
        env.network.maxMoneyOut - supplyPrev ≤ budgetBound block pindex.nHeight fees nAmount) := by
  obtain ⟨s, hc⟩ := connectBlock_ok hconnect hgenesis
  have hmax : env.network.maxMoneyOut = 3300000000000000 := env.network.maxMoneyOut_eq
  refine ⟨exists_satisfies (checkPayee_of_connectBlock hconnect) hheight hpos hsync hdownload
    hsuper henforced hbudget, fun p _ hsupply hcount hroom => ?_, fun supplyPrev fees nAmount => ?_⟩
  · obtain ⟨undos, hu, -⟩ := hc.coins
    have hin := hc.inputs hprev habove
    obtain ⟨-, hhi⟩ := blockReward_bounds hu hc.checked.txs hin
    have hfees := blockFees_nonneg hu hin
    have hmint := blockMint_eq hu
    have hlimit := hc.reward
    simp only [checkReward, bind_eq_ok, require_eq_ok, exists_const, decide_eq_true_eq] at hlimit
    have hle := hlimit.2.1
    rw [(mint_connected hc).2] at hle
    change wrap64 _ ≤ env.network.maxMoneyOut at hle
    change _ ≤ rewardCount block.vtx * env.network.maxMoneyOut at hhi
    rw [hmax] at hhi hsupply hle
    have hexact := le_of_wrap64_le (by omega) (by decide) hle
    rw [hmax] at hroom
    omega
  · simp only [isBlockValueValid_budget hheight hsync hsuper hbudget, forall_true_left]
    constructor
    · intro hall
      exact hall _ (by omega)
    · intro hroom nMint hle
      omega

/-! ## A superblock above its budget -/

namespace SuperblockExample

/-- A node with superblocks and budget enforcement. -/
def env : Env := { Env.quiet .regtest false with superblocks := true, budgetEnforcement := true }

/-- A view with two plain outputs of 100. -/
def view : CoinsView := FeeExample.view

/-- The entry of the block at height 300. -/
def pindex : CBlockIndex := FeeExample.pindex 300

/-- A proof-of-stake block whose coinstake pays the budget and takes `reward` beside it. -/
def stakeBlock (reward : ℤ) : CBlock :=
  { hashPrevBlock := 0x50, nTime := 1500000000, nNonce := 0x51,
    vtx := [StakeExample.coinbase,
      { hash := 0x22, vin := [{ prevout := ⟨0x12, 0⟩ }],
        vout := [⟨0, [], -10⟩, ⟨100 * coin + reward, [0x51], -10⟩, ⟨5 * coin, [0x52], -10⟩] }] }

/-- A node whose tip is at height 299, with this money supply. -/
def node (nMoneySupply : ℤ) : Node :=
  { tree := { mapBlockIndex := (∅ : Map UInt256 CBlockIndex).insert 0x50
                { phashBlock := some 0x50, nHeight := 299, nMoneySupply := nMoneySupply }
              chainActive := [0x50] } }

/-- Whether the block is connected at height 300, on a node with ten masternodes. -/
def accepted (block : CBlock) (nMoneySupply : ℤ) : Bool :=
  match connectBlock (env.withBudget oneVoteBudget 10) block view false
    (node nMoneySupply, pindex) with
  | .ok _ _ => true
  | .error _ _ => false

theorem exists_of_accepted (block : CBlock) {x : ℤ} (h : accepted block x = true) :
    ∃ view' node' pindex', connectBlock (env.withBudget oneVoteBudget 10) block view
      false (node x, pindex) = .ok view' (node', pindex') := by
  unfold accepted at h
  split at h
  · next view' s hc => exact ⟨view', s.1, s.2, hc⟩
  · exact absurd h (by simp)

theorem aboveParent (x : ℤ) : pindex.AboveParent (node x).tree := by
  intro h p hh hp
  cases hh
  simp only [node, AList.lookup_insert, Option.some.injEq] at hp
  rw [← hp]
  simp [pindex, FeeExample.pindex]

end SuperblockExample

open SuperblockExample in
/-- The budget for height 300 is one payment of 5 and the block value is 10.  A block that
mints 1005 is connected there. -/
theorem superblock_above_budget :
    (∃ view' node' pindex', connectBlock (env.withBudget oneVoteBudget 10)
        (stakeBlock (1000 * coin)) view false (node (1000 * coin), pindex) =
      .ok view' (node', pindex')) ∧
    isBudgetPaymentBlock oneVoteBudget 10 300 = true ∧
    (∀ p, (stakeBlock (1000 * coin)).Satisfies .regtest oneVoteBudget 10 300 p →
      p.nAmount = 5 * coin) ∧
    blockFees 300 view (stakeBlock (1000 * coin)).vtx = 0 ∧
    budgetBound (stakeBlock (1000 * coin)) 300 0 (5 * coin) = 15 * coin ∧
    blockMint 300 view (stakeBlock (1000 * coin)).vtx = 1005 * coin := by
  refine ⟨exists_of_accepted _ (by decide +kernel), by decide +kernel, ?_, by decide,
    by decide, by decide⟩
  rintro p ⟨tx, -, b, hb, -, hp, -⟩
  have hb : b = oneVote := by
    obtain ⟨hash, hlookup⟩ := mem_budgets.1 hb
    rw [oneVoteBudget, lookup_insert_eq] at hlookup
    split at hlookup
    · exact (Option.some.inj hlookup).symm
    · exact absurd hlookup (by simp)
  have hone : oneVote.getBudgetPaymentByBlock 300 =
      some { nProposalHash := 0xa1, payee := [0x52], nAmount := 5 * coin } := by decide
  rw [hb, hone] at hp
  rw [← Option.some.inj hp]

open SuperblockExample in
/-- With no more than 15 left under the maximum money supply, a superblock keeps to its
budget. -/
theorem superblock_mint_near_limit :
    blockMint 300 view (stakeBlock (10 * coin)).vtx ≤
      budgetBound (stakeBlock (10 * coin)) 300 (blockFees 300 view (stakeBlock (10 * coin)).vtx)
        (5 * coin) := by
  obtain ⟨view', node', pindex', hc⟩ := exists_of_accepted (stakeBlock (10 * coin))
    (x := Network.regtest.maxMoneyOut - 15 * coin) (by decide +kernel)
  refine (superblock_mint hc (by decide) rfl (aboveParent _) (by decide)
    (by decide) rfl rfl rfl rfl (by decide +kernel)).2.1
      { nProposalHash := 0xa1, payee := [0x52], nAmount := 5 * coin } ?_ (by decide)
      (by decide) (by decide)
  refine ⟨_, rfl, oneVote, mem_budgets.2 ⟨0xf1, AList.lookup_insert _⟩, by decide +kernel,
    by decide, ?_⟩
  exact ⟨⟨5 * coin, [0x52], -10⟩, by decide, rfl, rfl⟩

end FairCoin
