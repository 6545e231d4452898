import FairCoin.RoundTrip

/-!
# The reward of a block

What the value check of `ConnectBlock` says about the coinbase and the coinstake.

* `blockMint` — the exact value a block adds to the supply: what its coinbase and
  coinstakes take (`blockReward`) less the fees of the other transactions.
* `mint_connected` — `nMint` is that value modulo `2 ^ 64`.
* `RewardRule` — the rule the comments of `ConnectBlock` state: the coinbase of a
  proof-of-work block takes the block value and the fees, the coinstake of a proof-of-stake
  block the block value.
* `rewardRule_connected` — the check enforces the rule when the block has no fees; a block
  with fees `F` may take `F` more than the rule allows, in either phase.
-/

namespace FairCoin

open Store

/-! ## What a block mints -/

/-- What a coinbase or a coinstake takes. -/
def CTransaction.reward (v : CoinsView) (tx : CTransaction) : ℤ :=
  if tx.isCoinBase || tx.isCoinStake then tx.valueOut - tx.valueIn v else 0

/-- What the coinbase and the coinstakes of a block take. -/
def blockReward (nHeight : ℤ) (v : CoinsView) (txs : List CTransaction) : ℤ :=
  sumTxs nHeight (fun v tx => tx.reward v) v txs

/-- What a block adds to the supply. -/
def blockMint (nHeight : ℤ) (v : CoinsView) (txs : List CTransaction) : ℤ :=
  blockValueOut txs - blockValueIn nHeight v txs

/-- The number of transactions with the shape of a coinbase or a coinstake. -/
def rewardCount (txs : List CTransaction) : ℤ :=
  (txs.countP fun tx => tx.isCoinBase || tx.isCoinStake : ℕ)

theorem blockMint_eq {h : ℤ} {txs : List CTransaction} :
    ∀ {v v' : CoinsView} {undos : List CTxUndo}, updateCoinsAll h v txs = some (undos, v') →
      blockMint h v txs = blockReward h v txs - blockFees h v txs := by
  induction txs with
  | nil =>
    intro v v' undos _
    rfl
  | cons tx txs ih =>
    intro v v' undos hu
    obtain ⟨undo, v₁, undos', h₁, h₂, rfl⟩ := updateCoinsAll_cons_eq_some hu
    have hih := ih h₂
    simp only [blockMint, blockReward, blockFees, blockValueIn, blockValueOut, List.map_cons,
      List.sum_cons, sumTxs_cons h₁] at hih ⊢
    have htx : tx.valueOut - tx.valueIn v = tx.reward v - tx.fee v := by
      unfold CTransaction.reward CTransaction.fee
      split <;> ring
    linarith

/-- Inputs in range, for the transactions of an accepted block. -/
abbrev InputsAll (net : Network) (h : ℤ) : CoinsView → List CTransaction → Prop :=
  ForallTxs h fun v tx => tx.isCoinBase = false → InputsOk net v h tx

theorem blockFees_nonneg {net : Network} {h : ℤ} {txs : List CTransaction} :
    ∀ {v v' : CoinsView} {undos : List CTxUndo}, updateCoinsAll h v txs = some (undos, v') →
      InputsAll net h v txs → 0 ≤ blockFees h v txs := by
  induction txs with
  | nil => exact fun _ _ => le_rfl
  | cons tx txs ih =>
    intro v v' undos hu hin
    obtain ⟨undo, v₁, undos', h₁, h₂, rfl⟩ := updateCoinsAll_cons_eq_some hu
    have hrest := ih h₂ (hin.2 _ _ h₁)
    rw [blockFees, sumTxs_cons h₁]
    have hfee : 0 ≤ tx.fee v := by
      unfold CTransaction.fee
      cases hcb : tx.isCoinBase <;> cases hst : tx.isCoinStake
      · have := (hin.1 hcb).fee hst
        simp only [Bool.or_self, Bool.false_eq_true, if_false]
        omega
      all_goals simp
    exact add_nonneg hfee hrest

/-- A coinbase or coinstake takes or gives at most the maximum amount of money. -/
theorem reward_bounds {net : Network} {h : ℤ} {v : CoinsView} {tx : CTransaction}
    (htx : tx.Checked net) (hin : tx.isCoinBase = false → InputsOk net v h tx) :
    -net.maxMoneyOut ≤ tx.valueOut - tx.valueIn v ∧ tx.valueOut - tx.valueIn v ≤ net.maxMoneyOut := by
  have h₀ := htx.valueOut_nonneg
  have h₁ := htx.total
  cases hcb : tx.isCoinBase with
  | true =>
    have hzero : tx.valueIn v = 0 := by
      rw [CTransaction.valueIn, CTransaction.spends_of_isCoinBase hcb]
      rfl
    have := net.maxMoneyOut_eq
    omega
  | false =>
    have h₂ := (hin hcb).nonneg
    have h₃ := (hin hcb).total
    omega

/-- The rewards of a block are bounded by the number of transactions that can take one. -/
theorem blockReward_bounds {net : Network} {h : ℤ} {txs : List CTransaction} :
    ∀ {v v' : CoinsView} {undos : List CTxUndo}, updateCoinsAll h v txs = some (undos, v') →
      (∀ tx ∈ txs, tx.Checked net) → InputsAll net h v txs →
        -(rewardCount txs * net.maxMoneyOut) ≤ blockReward h v txs ∧
          blockReward h v txs ≤ rewardCount txs * net.maxMoneyOut := by
  induction txs with
  | nil =>
    intro v v' undos _ _ _
    simp [rewardCount, blockReward, sumTxs]
  | cons tx txs ih =>
    intro v v' undos hu hok hin
    obtain ⟨undo, v₁, undos', h₁, h₂, rfl⟩ := updateCoinsAll_cons_eq_some hu
    obtain ⟨hlo, hhi⟩ := ih h₂ (fun t ht => hok t (by simp [ht])) (hin.2 _ _ h₁)
    obtain ⟨hrlo, hrhi⟩ := reward_bounds (hok tx (by simp)) hin.1
    rw [blockReward] at hlo hhi
    rw [blockReward, sumTxs_cons h₁, CTransaction.reward, rewardCount, List.countP_cons]
    rw [rewardCount] at hlo hhi
    split
    · push_cast
      constructor <;> nlinarith
    · simpa using ⟨hlo, hhi⟩

/-! ## The accumulators -/

theorem wrap64_sub_left (a b : ℤ) : wrap64 (wrap64 a - b) = wrap64 (a - b) :=
  Int.bmod_sub_bmod

theorem wrap64_sub_right (a b : ℤ) : wrap64 (a - wrap64 b) = wrap64 (a - b) :=
  Int.sub_bmod_bmod

/-- The money supply of the parent. -/
def CBlockIndex.supplyPrev (pindex : CBlockIndex) (tree : BlockTree) : ℤ :=
  ((pindex.pprev.bind tree.mapBlockIndex.lookup).map CBlockIndex.nMoneySupply).getD 0

/-- **The accumulators are exact modulo `2 ^ 64`.**  Whatever the sums of inputs and outputs
wrap to, the supply is off by the exact mint of the block. -/
theorem mint_connected {env : Env} {block : CBlock} {node node' : Node}
    {pindex pindex' : CBlockIndex} {view view' : CoinsView} {s : ConnectState}
    (hc : ConnectSpec env block node node' pindex pindex' view view' s) :
    (pindex.withSupply node.tree s).nMint = wrap64 (blockMint pindex.nHeight view block.vtx) ∧
      (pindex.withSupply node.tree s).nMoneySupply =
        wrap64 (pindex.supplyPrev node.tree + blockMint pindex.nHeight view block.vtx) := by
  obtain ⟨undos, -, -, -, hin, hout, -⟩ := hc.coins
  have hsupply : (pindex.withSupply node.tree s).nMoneySupply =
      wrap64 (pindex.supplyPrev node.tree + blockMint pindex.nHeight view block.vtx) := by
    change wrap64 (wrap64 (pindex.supplyPrev node.tree + s.nValueOut) - s.nValueIn) = _
    rw [hin, hout, wrap64_sub_left, wrap64_sub_right, add_sub_right_comm, wrap64_add_right, blockMint,
      sub_add_eq_add_sub, add_sub_assoc]
  refine ⟨?_, hsupply⟩
  change wrap64 ((pindex.withSupply node.tree s).nMoneySupply - pindex.supplyPrev node.tree) = _
  rw [hsupply, wrap64_sub_left, add_sub_cancel_left]

/-! ## The rule -/

/-- The rule of the comments: the coinbase of a proof-of-work block takes at most the block
value and what the other transactions leave; the coinstake of a proof-of-stake block takes at
most the block value, so that fees are destroyed. -/
def RewardRule (nHeight : ℤ) (view : CoinsView) (block : CBlock) : Prop :=
  ∀ tx₀ txs undo v₁, block.vtx = tx₀ :: txs → updateCoins tx₀ view nHeight = some (undo, v₁) →
    if block.isProofOfStake then
      ∀ tx₁ ∈ txs.head?, tx₁.valueOut - tx₁.valueIn v₁ ≤ getBlockValue nHeight
    else tx₀.valueOut ≤ getBlockValue nHeight +
      sumTxs nHeight (fun v tx => tx.valueIn v - tx.valueOut) v₁ txs

/-- The most the mint of a block can be under the rule, given its fees. -/
def ruleMint (block : CBlock) (nHeight fees : ℤ) : ℤ :=
  if block.isProofOfStake then getBlockValue nHeight - fees else getBlockValue nHeight

theorem blockMint_cons {h : ℤ} {v v₁ : CoinsView} {tx : CTransaction} {txs : List CTransaction}
    {undo : CTxUndo} (h₁ : updateCoins tx v h = some (undo, v₁)) :
    blockMint h v (tx :: txs) = tx.valueOut - tx.valueIn v + blockMint h v₁ txs := by
  simp only [blockMint, blockValueIn, blockValueOut, List.map_cons, List.sum_cons, sumTxs_cons h₁]
  ring

theorem sumTxs_eq_neg_blockMint {h : ℤ} {txs : List CTransaction} :
    ∀ {v v' : CoinsView} {undos : List CTxUndo}, updateCoinsAll h v txs = some (undos, v') →
      sumTxs h (fun v tx => tx.valueIn v - tx.valueOut) v txs = -blockMint h v txs := by
  induction txs with
  | nil => exact fun _ => rfl
  | cons tx txs ih =>
    intro v v' undos hu
    obtain ⟨undo, v₁, undos', h₁, h₂, rfl⟩ := updateCoinsAll_cons_eq_some hu
    rw [sumTxs_cons h₁, ih h₂, blockMint_cons h₁]
    ring

/-- Transactions that are neither coinbase nor coinstake take no reward. -/
theorem blockReward_eq_zero {h : ℤ} {txs : List CTransaction} :
    ∀ {v : CoinsView}, (∀ tx ∈ txs, tx.isCoinBase = false ∧ tx.isCoinStake = false) →
      blockReward h v txs = 0 := by
  induction txs with
  | nil => exact fun _ => rfl
  | cons tx txs ih =>
    intro v hno
    obtain ⟨hcb, hst⟩ := hno tx (by simp)
    rw [blockReward, sumTxs, CTransaction.reward, hcb, hst, if_neg (by simp), zero_add]
    split
    · exact ih fun t ht => hno t (by simp [ht])
    · rfl

theorem CTxOut.isEmpty_iff {o : CTxOut} : o.isEmpty = true ↔ o.nValue = 0 ∧ o.scriptPubKey = [] := by
  simp [CTxOut.isEmpty]

/-- The rule, in terms of the mint of the block. -/
theorem rewardRule_iff {net : Network} {block : CBlock} {h : ℤ} {v v' : CoinsView}
    {undos : List CTxUndo} (hb : block.Checked net)
    (hu : updateCoinsAll h v block.vtx = some (undos, v')) :
    RewardRule h v block ↔
      blockMint h v block.vtx ≤ ruleMint block h (blockFees h v block.vtx) := by
  obtain ⟨tx₀, txs, hvtx, hcb, hrest⟩ := hb.shape
  rw [hvtx] at hu
  obtain ⟨undo, v₁, undos', h₁, h₂, rfl⟩ := updateCoinsAll_cons_eq_some hu
  have hrule : RewardRule h v block ↔
      if block.isProofOfStake then ∀ tx₁ ∈ txs.head?, tx₁.valueOut - tx₁.valueIn v₁ ≤ getBlockValue h
      else tx₀.valueOut ≤ getBlockValue h +
        sumTxs h (fun v tx => tx.valueIn v - tx.valueOut) v₁ txs := by
    constructor
    · exact fun hall => hall tx₀ txs undo v₁ hvtx h₁
    · intro hone t₀ ts u w hv hw
      rw [hvtx] at hv
      cases hv
      rw [h₁] at hw
      cases hw
      exact hone
  have hin₀ : tx₀.valueIn v = 0 := by
    rw [CTransaction.valueIn, CTransaction.spends_of_isCoinBase hcb]
    rfl
  rw [hrule, hvtx, blockMint_cons h₁, hin₀, ruleMint, sumTxs_eq_neg_blockMint h₂, blockFees,
    sumTxs_cons h₁]
  cases hpos : block.isProofOfStake with
  | false =>
    simp only [Bool.false_eq_true, if_false]
    constructor <;> intro hle <;> linarith
  | true =>
    simp only [if_true]
    -- the coinbase takes nothing and the other transactions take no reward
    have hstake := hb.stake
    have hfee₀ : tx₀.fee v = 0 := by rw [CTransaction.fee, hcb]; rfl
    rw [CBlock.isProofOfStake, hvtx] at hpos
    cases txs with
    | nil => exact absurd hpos (by simp)
    | cons tx₁ txs =>
      obtain ⟨undo₁, v₂, undos₂, hu₁, hu₂, rfl⟩ := updateCoinsAll_cons_eq_some h₂
      simp only at hpos
      have hpos' : block.isProofOfStake = true := by rw [CBlock.isProofOfStake, hvtx]; exact hpos
      simp only [checkStakeShape, hpos', if_true, hvtx, bind_eq_ok, require_eq_ok, exists_const,
        List.drop_succ_cons, List.drop_zero, List.all_eq_true] at hstake
      obtain ⟨hempty, hone⟩ := hstake
      have hout₀ : tx₀.valueOut = 0 := by
        rw [CTransaction.valueOut]
        split at hempty
        · next o ho =>
          rw [ho]
          simpa using (CTxOut.isEmpty_iff.1 hempty).1
        · exact absurd hempty (by simp)
      have hzero : blockReward h v₂ txs = 0 := blockReward_eq_zero fun t ht =>
        ⟨hrest t (by simp [ht]), by simpa using hone t ht⟩
      have hfee₁ : tx₁.fee v₁ = 0 := by rw [CTransaction.fee, hpos, Bool.or_true]; rfl
      have hmint := blockMint_eq hu₂
      rw [hzero, blockFees] at hmint
      rw [blockMint_cons hu₁, sumTxs_cons hu₁, hmint, hout₀, hfee₀, hfee₁]
      simp only [List.head?_cons, Option.mem_some_iff, forall_eq']
      constructor <;> intro hle <;> linarith

/-! ## The check -/

/-- On a synchronised node and at a height that is not a budget payment height the value
check compares the mint with what is expected. -/
theorem isBlockValueValid_iff {env : Env} {tree : BlockTree} {block : CBlock} {nHeight x m : ℤ}
    (hsync : env.masternodeSynced = true) (hheight : tree.heightFor block = some nHeight)
    (hbudget : env.isBudgetPaymentBlock nHeight = false) :
    isBlockValueValid env tree block x m = true ↔ m ≤ x := by
  rw [isBlockValueValid, hheight]
  simp [hsync, hbudget]

theorem expectedMint_eq {block : CBlock} {h fees : ℤ} (h₀ : 0 ≤ fees)
    (h₁ : fees ≤ 3300000000000000) : expectedMint block h fees =
      if block.isProofOfStake then getBlockValue h else getBlockValue h + fees := by
  have hlo : 0 < getBlockValue h := getBlockValue_pos h
  have hhi : getBlockValue h ≤ 500000000000000 := getBlockValue_le h
  rw [expectedMint, CBlock.isProofOfWork]
  cases block.isProofOfStake
  · exact wrap64_of_lt (by omega) (by omega)
  · rfl

/-- **The reward of a block.**  On a synchronised node, at a height that is not a budget
payment height, a block that `ConnectBlock` accepts and whose transactions pay no fees keeps
the reward rule, and the supply grows by at most the block value, as long as fewer than 2795
of its transactions have the shape of a coinbase or coinstake.  With fees the check does not
give the rule: every mint it lets through keeps the rule only when the fees are zero. -/
theorem rewardRule_connected {env : Env} {block : CBlock} {node node' : Node}
    {pindex pindex' : CBlockIndex} {view view' : CoinsView}
    (hconnect : connectBlock env block view false (node, pindex) = .ok view' (node', pindex'))
    (hgenesis : env.blockHash block.toCBlockHeader ≠ env.network.hashGenesisBlock)
    (hprev : pindex.pprev = some view.hashBlock) (habove : pindex.AboveParent node.tree)
    (hsync : env.masternodeSynced = true) (hheight : node.tree.heightFor block = some pindex.nHeight)
    (hbudget : env.isBudgetPaymentBlock pindex.nHeight = false) :
    (blockFees pindex.nHeight view block.vtx = 0 → rewardCount block.vtx < 2795 →
      RewardRule pindex.nHeight view block ∧ pindex'.nMint ≤ getBlockValue pindex.nHeight) ∧
    ∀ fees, 0 ≤ fees → fees ≤ env.network.maxMoneyOut →
      ((∀ nMint, isBlockValueValid env node.tree block (expectedMint block pindex.nHeight fees)
          nMint = true → nMint ≤ ruleMint block pindex.nHeight fees) ↔ fees = 0) := by
  obtain ⟨s, hc⟩ := connectBlock_ok hconnect hgenesis
  obtain ⟨undos, hu, -, -, -, -, hfees⟩ := hc.coins
  have hvalid := fun x m => isBlockValueValid_iff (x := x) (m := m) hsync hheight hbudget
  have hmax := env.network.maxMoneyOut_eq
  refine ⟨fun hzero hcount => ?_, fun fees h₀ h₁ => ?_⟩
  · have hin := hc.inputs hprev habove
    obtain ⟨hlo, hhi⟩ := blockReward_bounds hu hc.checked.txs hin
    have hmint := blockMint_eq hu
    rw [hzero, sub_zero] at hmint
    have hcount₀ : 0 ≤ rewardCount block.vtx := Int.natCast_nonneg _
    have hwrap : wrap64 (blockMint pindex.nHeight view block.vtx) =
        blockMint pindex.nHeight view block.vtx := by
      rw [hmint]
      rw [hmax] at hlo hhi
      exact wrap64_of_lt (by omega) (by omega)
    have hreward := hc.reward
    simp only [checkReward, bind_eq_ok, require_eq_ok, exists_const, hvalid] at hreward
    have hle := hreward.1
    change (pindex.withSupply node.tree s).nMint ≤ expectedMint block pindex.nHeight s.nFees at hle
    have hval : expectedMint block pindex.nHeight s.nFees = getBlockValue pindex.nHeight := by
      rw [hfees, hzero]
      change expectedMint block pindex.nHeight 0 = _
      rw [expectedMint_eq le_rfl (by decide)]
      simp
    rw [hval] at hle
    refine ⟨(rewardRule_iff hc.checked hu).2 ?_, ?_⟩
    · rw [(mint_connected hc).1, hwrap] at hle
      rw [hzero, ruleMint]
      simpa using hle
    · rw [hc.pindex_eq, (CBlockIndex.withUndo_nMint _ _).1]
      exact hle
  · rw [hmax] at h₁
    simp only [hvalid, expectedMint_eq h₀ h₁, ruleMint]
    constructor
    · intro hall
      have := hall _ le_rfl
      split at this <;> omega
    · rintro rfl m hm
      split at hm <;> simpa using hm

/-! ## Fees taken twice -/

namespace FeeExample

/-- A view with two plain outputs of 100. -/
def view : CoinsView :=
  ((CoinsView.empty.set 0x11 { vout := [⟨100 * coin, [0x51], -10⟩], nHeight := 50, nVersion := 1 }).set
    0x12 { vout := [⟨100 * coin, [0x51], -10⟩], nHeight := 50, nVersion := 1 }).setBestBlock 0x50

/-- A transaction that spends the first output and pays a fee. -/
def payment (fee : ℤ) : CTransaction :=
  { hash := 0x23, vin := [{ prevout := ⟨0x11, 0⟩ }], vout := [⟨100 * coin - fee, [0x51], -10⟩] }

/-- A proof-of-work block with the payment in it, whose coinbase takes `reward`. -/
def workBlock (fee reward : ℤ) : CBlock :=
  { hashPrevBlock := 0x50, nTime := 1500000000, nNonce := 0x51,
    vtx := [{ StakeExample.coinbase with vout := [⟨reward, [0x51], -10⟩] }, payment fee] }

/-- A proof-of-stake block with the payment in it, whose coinstake takes `reward`. -/
def stakeBlock (fee reward : ℤ) : CBlock :=
  { hashPrevBlock := 0x50, nTime := 1500000000, nNonce := 0x51,
    vtx := [StakeExample.coinbase,
      { hash := 0x22, vin := [{ prevout := ⟨0x12, 0⟩ }],
        vout := [⟨0, [], -10⟩, ⟨100 * coin + reward, [0x51], -10⟩] }, payment fee] }

/-- The entry of a block at a height. -/
def pindex (nHeight : ℤ) : CBlockIndex :=
  { phashBlock := some 0x51, pprev := some 0x50, nHeight := nHeight, nTime := 1500000000 }

/-- A node whose tip is at the height before. -/
def node (nHeight : ℤ) : Node :=
  { tree := { mapBlockIndex := (∅ : Map UInt256 CBlockIndex).insert 0x50
                { phashBlock := some 0x50, nHeight := nHeight - 1, nMoneySupply := 1000 * coin }
              chainActive := [0x50] } }

/-- Whether the block is accepted. -/
def accepted (block : CBlock) (nHeight : ℤ) : Bool :=
  match connectBlock (.quiet .regtest false) block view false (node nHeight, pindex nHeight) with
  | .ok _ _ => true
  | .error _ _ => false

theorem exists_of_accepted {block : CBlock} {nHeight : ℤ} (h : accepted block nHeight = true) :
    ∃ view' node' pindex', connectBlock (.quiet .regtest false) block view false
      (node nHeight, pindex nHeight) = .ok view' (node', pindex') := by
  unfold accepted at h
  split at h
  · next view' s hc => exact ⟨view', s.1, s.2, hc⟩
  · exact absurd h (by simp)

theorem aboveParent (nHeight : ℤ) : (pindex nHeight).AboveParent (node nHeight).tree := by
  intro h p hh hp
  cases hh
  simp only [node, AList.lookup_insert, Option.some.injEq] at hp
  rw [← hp]
  simp [pindex]

/-- The rule is broken when the mint is above what it allows. -/
theorem not_rewardRule {block : CBlock} {nHeight : ℤ} (h : accepted block nHeight = true)
    (hgenesis : (Env.quiet .regtest false).blockHash block.toCBlockHeader ≠
      Network.regtest.hashGenesisBlock)
    (hlt : ruleMint block nHeight (blockFees nHeight view block.vtx) <
      blockMint nHeight view block.vtx) : ¬RewardRule nHeight view block := by
  obtain ⟨view', node', pindex', hc⟩ := exists_of_accepted h
  obtain ⟨s, hs⟩ := connectBlock_ok hc hgenesis
  obtain ⟨undos, hu, -⟩ := hs.coins
  exact fun hrule => not_le.2 hlt ((rewardRule_iff hs.checked hu).1 hrule)

end FeeExample

open FeeExample in
/-- With a fee of 1, a coinbase of 12 at height 100 and a coinstake that takes 11 at height
300 are accepted, where the block value is 10: the fee is taken twice in the proof-of-work
phase and not destroyed in the proof-of-stake phase. -/
theorem fee_taken_twice :
    (∃ view' node' pindex', connectBlock (.quiet .regtest false) (workBlock coin (12 * coin)) view
        false (node 100, pindex 100) = .ok view' (node', pindex')) ∧
      ¬RewardRule 100 view (workBlock coin (12 * coin)) ∧
    (∃ view' node' pindex', connectBlock (.quiet .regtest false) (stakeBlock coin (11 * coin)) view
        false (node 300, pindex 300) = .ok view' (node', pindex')) ∧
      ¬RewardRule 300 view (stakeBlock coin (11 * coin)) ∧
    getBlockValue 100 = 10 * coin ∧ getBlockValue 300 = 10 * coin := by
  have hwork : accepted (workBlock coin (12 * coin)) 100 = true := by decide
  have hstake : accepted (stakeBlock coin (11 * coin)) 300 = true := by decide
  exact ⟨exists_of_accepted hwork, not_rewardRule hwork (by decide) (by decide),
    exists_of_accepted hstake, not_rewardRule hstake (by decide) (by decide),
    by decide, by decide⟩

open FeeExample in
/-- Without a fee the coinbase of an accepted block keeps the rule. -/
theorem rewardRule_without_fee : RewardRule 100 view (workBlock 0 (10 * coin)) := by
  have h : accepted (workBlock 0 (10 * coin)) 100 = true := by decide
  obtain ⟨view', node', pindex', hc⟩ := exists_of_accepted h
  exact ((rewardRule_connected hc (by decide) rfl (aboveParent 100) rfl (by decide)
    rfl).1 (by decide) (by decide)).1

end FairCoin
