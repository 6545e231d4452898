import FairCoin.Index
import FairCoin.Payments
import FairCoin.Unspent

/-!
# Context-free and input checks

`CheckTransaction`, `CheckBlock`, `CheckInputs`, `IsBlockValueValid` and
`IsBlockPayeeValid` of `src/main.cpp` and `src/masternode-payments.cpp`, with every test
in the order of the source and the reject reason it leaves in `CValidationState`.

* `Env` — what these functions read of the rest of the node, and the leaf computations
  that are taken as given: header hash, proof-of-work test, merkle tree, signature
  operation counts, script verification, sporks, budget and masternode synchronisation.
* `Failure` — how a call can fail.
* `checkTransaction_ok`, `checkBlock_ok`, `checkInputs_ok` — what success means; later
  modules use these and never unfold the checks.

The log lines, the table of rejected blocks and the misbehaviour scores of peers are not
modelled.
-/

namespace FairCoin

open Store

/-! ## Failures -/

/-- The reject codes the modelled checks use. -/
inductive RejectCode
  | none
  | invalid
  | nonstandard
  deriving DecidableEq, Repr

/-- How a validation call fails. -/
inductive Failure
  /-- `CValidationState` is invalid, with the DoS level, reject code, reason and whether the
  block may have been corrupted in transit. -/
  | invalid (nDoS : ℕ) (code : RejectCode) (reason : String) (corruption : Bool)
  /-- `state.Abort` or `state.Error`. -/
  | abort (reason : String)
  /-- `return error(...)` without a change of the state. -/
  | error (reason : String)
  /-- An assertion fails or an exception leaves the function. -/
  | crash (reason : String)
  deriving DecidableEq, Repr

/-- `state.DoS(100, ..., REJECT_INVALID, reason)`. -/
def Failure.dos (reason : String) : Failure := .invalid 100 .invalid reason false

/-- Go on when the test holds, fail otherwise. -/
def require (b : Bool) (f : Failure) : Except Failure Unit := if b then .ok () else .error f

@[simp] theorem require_eq_ok {b : Bool} {f : Failure} {u : Unit} :
    require b f = .ok u ↔ b = true := by
  cases b <;> simp [require]

theorem bind_eq_ok {α β : Type} {x : Except Failure α} {f : α → Except Failure β} {b : β} :
    (x >>= f) = .ok b ↔ ∃ a, x = .ok a ∧ f a = .ok b := by
  cases x <;> simp [bind, Except.bind]

theorem bind_eq_error {α β : Type} {x : Except Failure α} {f : α → Except Failure β} {e : Failure} :
    (x >>= f) = .error e ↔ x = .error e ∨ ∃ a, x = .ok a ∧ f a = .error e := by
  cases x <;> simp [bind, Except.bind]

theorem require_eq_error {b : Bool} {f e : Failure} :
    require b f = .error e ↔ b = false ∧ f = e := by
  cases b <;> simp [require]

theorem eq_ok_of_toOption {α : Type} {x : Except Failure α} {a : α} (h : x.toOption = some a) :
    x = .ok a := by
  cases x with
  | ok b => exact congrArg Except.ok (Option.some.inj h)
  | error f => exact absurd h (by simp [Except.toOption])

/-! ## The environment -/

/-- The script verification flags `ConnectBlock` uses. -/
structure ScriptFlags where
  p2sh : Bool
  dersig : Bool
  deriving DecidableEq, Repr

/-- The places where a write to disk can fail. -/
inductive DbWrite
  | blockIndex
  | undoSpace
  | undoData
  | txIndex
  | addressIndex
  | addressUnspentIndex
  | spentIndex
  | timestampIndex
  deriving DecidableEq, Repr

/-- What validation reads of the rest of the node. -/
structure Env extends PaymentTables where
  blockHash : CBlockHeader → UInt256
  checkProofOfWork : UInt256 → ℕ → Bool
  buildMerkleTree : List UInt256 → UInt256 × Bool
  getAdjustedTime : ℤ
  swiftTxBlockFiltering : Bool
  budgetEnforcement : Bool
  mapLockedInputs : COutPoint → Option UInt256
  isInitialBlockDownload : Bool
  masternodeSynced : Bool
  budgetIsTransactionValid : CTransaction → ℤ → Bool
  getLegacySigOpCount : CTransaction → ℕ
  getP2SHSigOpCount : CTransaction → List CTxOut → ℕ
  verifyScript : CTransaction → ℕ → CTxOut → ScriptFlags → Bool
  nScriptCheckThreads : Bool
  hash160 : List UInt8 → UInt160
  fTxIndex : Bool
  fAddressIndex : Bool
  fSpentIndex : Bool
  fTimestampIndex : Bool
  undoSerializeSize : CBlockUndo → ℕ
  writeOk : DbWrite → Bool

/-- A synchronised node without payment votes, locks, superblocks or failing writes, for
blocks whose scripts and proof of work are in order.  Blocks are named by their nonce and
merkle roots are zero. -/
def Env.quiet (network : Network) (fIndexes : Bool) : Env where
  network := network
  seesaw := fun blockValue _ => blockValue / 2
  counts := ⟨false, 0, 0⟩
  payments := .empty
  superblocks := false
  isBudgetPaymentBlock := fun _ => false
  blockHash := fun header => BitVec.ofNat 256 header.nNonce
  checkProofOfWork := fun _ _ => true
  buildMerkleTree := fun _ => (0, false)
  getAdjustedTime := 1500000000
  swiftTxBlockFiltering := false
  budgetEnforcement := false
  mapLockedInputs := fun _ => none
  isInitialBlockDownload := false
  masternodeSynced := true
  budgetIsTransactionValid := fun _ _ => true
  getLegacySigOpCount := fun _ => 0
  getP2SHSigOpCount := fun _ _ => 0
  verifyScript := fun _ _ _ _ => true
  nScriptCheckThreads := false
  hash160 := fun _ => 0
  fTxIndex := fIndexes
  fAddressIndex := fIndexes
  fSpentIndex := fIndexes
  fTimestampIndex := fIndexes
  undoSerializeSize := fun _ => 100
  writeOk := fun _ => true

/-- The block tree in memory and the active chain, by hash from genesis to tip. -/
structure BlockTree where
  mapBlockIndex : Map UInt256 CBlockIndex := ∅
  chainActive : List UInt256 := []

/-- `chainActive.Tip()`. -/
def BlockTree.tip (t : BlockTree) : Option CBlockIndex :=
  t.chainActive.getLast?.bind t.mapBlockIndex.lookup

/-- The height `CheckBlock` and `IsBlockValueValid` work out for a block: one above its
parent, or zero when the parent is not known; `none` when there is no tip. -/
def BlockTree.heightFor (t : BlockTree) (block : CBlock) : Option ℤ :=
  match t.tip with
  | none => none
  | some pindexPrev =>
      if pindexPrev.getBlockHash = block.hashPrevBlock then some (pindexPrev.nHeight + 1)
      else
        match t.mapBlockIndex.lookup block.hashPrevBlock with
        | some p => some (p.nHeight + 1)
        | none => some 0

/-! ## Transactions -/

/-- The output loop of `CheckTransaction`. -/
def checkOutputs (net : Network) (tx : CTransaction) (nValueOut : ℤ) :
    List CTxOut → Except Failure Unit
  | [] => .ok ()
  | txout :: rest => do
      require (!(txout.isEmpty && !tx.isCoinBase && !tx.isCoinStake)) (.invalid 100 .none "" false)
      require (decide (0 ≤ txout.nValue)) (.dos "bad-txns-vout-negative")
      require (decide (txout.nValue ≤ net.maxMoneyOut)) (.dos "bad-txns-vout-toolarge")
      require (moneyRange net (wrap64 (nValueOut + txout.nValue)))
        (.dos "bad-txns-txouttotal-toolarge")
      checkOutputs net tx (wrap64 (nValueOut + txout.nValue)) rest

/-- `CheckTransaction`. -/
def checkTransaction (net : Network) (tx : CTransaction) : Except Failure Unit := do
  require (!tx.vin.isEmpty) (.invalid 10 .invalid "bad-txns-vin-empty" false)
  require (!tx.vout.isEmpty) (.invalid 10 .invalid "bad-txns-vout-empty" false)
  require (decide (tx.serializeSize ≤ maxBlockSize)) (.dos "bad-txns-oversize")
  checkOutputs net tx 0 tx.vout
  require (decide (tx.vin.map CTxIn.prevout).Nodup) (.dos "bad-txns-inputs-duplicate")
  if tx.isCoinBase then
    require (tx.vin.all fun i => decide (2 ≤ i.scriptSig.length) && decide (i.scriptSig.length ≤ 150))
      (.dos "bad-cb-length")
  else
    require (tx.vin.all fun i => !i.prevout.isNull)
      (.invalid 10 .invalid "bad-txns-prevout-null" false)

/-- `LOCKTIME_THRESHOLD`: below it a lock time is a height. -/
def locktimeThreshold : ℕ := 500000000

/-- `CTxIn::IsFinal`. -/
def CTxIn.isFinal (i : CTxIn) : Bool := i.nSequence == 4294967295

/-- `IsFinalTx`, with the height of the active chain and the adjusted time, which stand in for a
height and a time that are zero. -/
def isFinalTx (chainHeight adjustedTime : ℤ) (tx : CTransaction) (nBlockHeight nBlockTime : ℤ) :
    Bool :=
  let nBlockHeight := if nBlockHeight = 0 then chainHeight else nBlockHeight
  let nBlockTime := if nBlockTime = 0 then adjustedTime else nBlockTime
  tx.nLockTime == 0 ||
    decide ((tx.nLockTime : ℤ) <
      if tx.nLockTime < locktimeThreshold then nBlockHeight else nBlockTime) ||
    tx.vin.all CTxIn.isFinal

/-! ## Blocks -/

/-- `IsBlockPayeeValid`. -/
def isBlockPayeeValid (env : Env) (block : CBlock) (nBlockHeight : ℤ) : Except Failure Bool :=
  if !env.masternodeSynced then .ok true
  else
    let txNew? := if env.network.lastPowBlock < nBlockHeight then block.vtx[1]? else block.vtx[0]?
    match txNew? with
    | none => .error (.crash "block.vtx[1]")
    | some txNew =>
        if env.superblocks && env.isBudgetPaymentBlock nBlockHeight then
          if env.budgetIsTransactionValid txNew nBlockHeight then .ok true
          else .ok !env.budgetEnforcement
        else if env.payments.isTransactionValid env.network env.seesaw env.counts txNew nBlockHeight
        then .ok true
        else .ok !env.counts.paymentEnforcement

/-- `IsBlockValueValid`. -/
def isBlockValueValid (env : Env) (tree : BlockTree) (block : CBlock)
    (nExpectedValue nMinted : ℤ) : Bool :=
  match tree.heightFor block with
  | none => true
  | some nHeight =>
      if !env.masternodeSynced then
        if nHeight % env.network.budgetPaymentCycleBlocks < 100 then true
        else decide (nMinted ≤ nExpectedValue)
      else if !env.superblocks then decide (nMinted ≤ nExpectedValue)
      else if env.isBudgetPaymentBlock nHeight then true
      else decide (nMinted ≤ nExpectedValue)

/-- The proof-of-stake shape tests of `CheckBlock`. -/
def checkStakeShape (block : CBlock) : Except Failure Unit :=
  if block.isProofOfStake then do
    require (match block.vtx with
      | tx :: _ => (match tx.vout with
        | [o] => o.isEmpty
        | _ => false)
      | [] => false) (.invalid 100 .none "" false)
    require ((block.vtx.drop 2).all fun tx => !tx.isCoinStake) (.invalid 100 .none "" false)
  else .ok ()

/-- The transaction-lock scan of `CheckBlock`. -/
def checkLocks (env : Env) (block : CBlock) : Except Failure Unit :=
  require (!env.swiftTxBlockFiltering || block.vtx.all fun tx => tx.isCoinBase ||
    tx.vin.all fun i => match env.mapLockedInputs i.prevout with
      | some h => h == tx.hash
      | none => true) (.invalid 0 .invalid "conflicting-tx-ix" false)

/-- The payee test of `CheckBlock`. -/
def checkPayee (env : Env) (tree : BlockTree) (block : CBlock) : Except Failure Unit :=
  match tree.heightFor block with
  | none => .ok ()
  | some nHeight =>
      if nHeight ≠ 0 ∧ !env.isInitialBlockDownload then do
        let ok ← isBlockPayeeValid env block nHeight
        require ok (.invalid 0 .invalid "bad-cb-payee" false)
      else .ok ()

/-- The merkle root test of `CheckBlock`. -/
def checkMerkleRoot (env : Env) (block : CBlock) (fCheckMerkleRoot : Bool) : Except Failure Unit :=
  if fCheckMerkleRoot then do
    let (root, mutated) := env.buildMerkleTree (block.vtx.map CTransaction.hash)
    require (block.hashMerkleRoot == root) (.invalid 100 .invalid "bad-txnmrklroot" true)
    require (!mutated) (.invalid 100 .invalid "bad-txns-duplicate" true)
  else .ok ()

/-- `CheckBlock`. -/
def checkBlock (env : Env) (tree : BlockTree) (block : CBlock) (fCheckMerkleRoot : Bool) :
    Except Failure Unit := do
  require (!block.isProofOfWork || env.checkProofOfWork (env.blockHash block.toCBlockHeader) block.nBits)
    (.invalid 150 .invalid "bad-header" true)
  require (decide ((block.nTime : ℤ) ≤
      env.getAdjustedTime + if block.isProofOfStake then 180 else 7200))
    (.invalid 0 .invalid "time-too-new" false)
  checkMerkleRoot env block fCheckMerkleRoot
  require (!block.vtx.isEmpty && decide (block.vtx.length ≤ maxBlockSize) &&
    decide (block.serializeSize ≤ maxBlockSize)) (.dos "bad-blk-length")
  require (match block.vtx with
    | tx :: _ => tx.isCoinBase
    | [] => false) (.dos "bad-cb-missing")
  require (block.vtx.tail.all fun tx => !tx.isCoinBase) (.dos "bad-cb-multiple")
  checkStakeShape block
  checkLocks env block
  checkPayee env tree block
  block.vtx.forM (checkTransaction env.network)
  require (decide ((block.vtx.map env.getLegacySigOpCount).sum ≤ maxBlockSigOps))
    (.invalid 100 .invalid "bad-blk-sigops" true)

/-! ## Inputs -/

/-- `CCoinsViewCache::HaveInputs`. -/
def haveInputs (v : CoinsView) (tx : CTransaction) : Bool :=
  tx.isCoinBase || tx.vin.all fun i => (v.coins i.prevout.hash).isAvailable i.prevout.n

/-- The value of an unspent output; the source asserts that there is one. -/
def valueAt (v : CoinsView) (o : COutPoint) : ℤ := ((v.outputAt o).map CTxOut.nValue).getD 0

/-- `CCoinsViewCache::GetValueIn`. -/
def getValueIn (v : CoinsView) (tx : CTransaction) : ℤ :=
  if tx.isCoinBase then 0
  else tx.vin.foldl (fun nResult i => wrap64 (nResult + valueAt v i.prevout)) 0

/-- The first loop of `CheckInputs`: the total of the inputs. -/
def checkInputValues (net : Network) (v : CoinsView) (nSpendHeight : ℤ) (nValueIn : ℤ) :
    List CTxIn → Except Failure ℤ
  | [] => .ok nValueIn
  | i :: rest => do
      let coins := v.coins i.prevout.hash
      require (!(coins.fCoinBase || coins.fCoinStake) ||
          decide (net.coinbaseMaturity ≤ nSpendHeight - coins.nHeight))
        (.invalid 0 .invalid "bad-txns-premature-spend-of-coinbase" false)
      let value := valueAt v i.prevout
      let nValueIn := wrap64 (nValueIn + value)
      require (moneyRange net value && moneyRange net nValueIn)
        (.dos "bad-txns-inputvalues-outofrange")
      checkInputValues net v nSpendHeight nValueIn rest

/-- The fee tests of `CheckInputs`, which a coinstake is exempt from. -/
def checkFee (net : Network) (tx : CTransaction) (nValueIn : ℤ) : Except Failure Unit :=
  if tx.isCoinStake then .ok ()
  else
    match tx.getValueOut with
    | none => .error (.crash "CTransaction::GetValueOut() : value out of range")
    | some nValueOut => do
        require (decide (nValueOut ≤ nValueIn)) (.dos "bad-txns-in-belowout")
        let nTxFee := wrap64 (nValueIn - nValueOut)
        require (decide (0 ≤ nTxFee)) (.dos "bad-txns-fee-negative")
        require (moneyRange net nTxFee) (.dos "bad-txns-fee-outofrange")

/-- One script check of a transaction's input `i` against the output it spends. -/
def scriptCheck (env : Env) (v : CoinsView) (tx : CTransaction) (flags : ScriptFlags) (i : ℕ)
    (txin : CTxIn) : Bool :=
  match v.outputAt txin.prevout with
  | some o => env.verifyScript tx i o flags
  | none => false

/-- The script loop of `CheckInputs` without worker threads. -/
def checkScripts (env : Env) (v : CoinsView) (tx : CTransaction) (flags : ScriptFlags) :
    List (CTxIn × ℕ) → Except Failure Unit
  | [] => .ok ()
  | (txin, i) :: rest =>
      if scriptCheck env v tx flags i txin then checkScripts env v tx flags rest
      else if flags.dersig && scriptCheck env v tx { flags with dersig := false } i txin then
        .error (.invalid 0 .nonstandard "non-mandatory-script-verify-flag" false)
      else .error (.dos "mandatory-script-verify-flag-failed")

/-- `CheckInputs` on a view whose best block has height `nSpendHeight - 1`.  The result is
whether the script checks handed to the worker threads pass. -/
def checkInputs (env : Env) (v : CoinsView) (tx : CTransaction) (nSpendHeight : ℤ)
    (fScriptChecks : Bool) (flags : ScriptFlags) : Except Failure Bool :=
  if tx.isCoinBase then .ok true
  else do
    require (haveInputs v tx) (.invalid 0 .none "" false)
    let nValueIn ← checkInputValues env.network v nSpendHeight 0 tx.vin
    checkFee env.network tx nValueIn
    if fScriptChecks then
      if env.nScriptCheckThreads then
        .ok (tx.vin.zipIdx.all fun p => scriptCheck env v tx flags p.2 p.1)
      else do
        checkScripts env v tx flags tx.vin.zipIdx
        .ok true
    else .ok true

/-! ## Sums that do not wrap -/

theorem wrap64_of_lt {x : ℤ} (h₁ : -9223372036854775808 ≤ x) (h₂ : x < 9223372036854775808) :
    wrap64 x = x := by
  rw [wrap64, Int.bmod_eq_of_le] <;> omega

/-- The total of the outputs. -/
def CTransaction.valueOut (tx : CTransaction) : ℤ := (tx.vout.map CTxOut.nValue).sum

/-- The total of what the transaction spends of a view. -/
def CTransaction.valueIn (v : CoinsView) (tx : CTransaction) : ℤ :=
  (tx.spends.map (valueAt v)).sum

theorem getValueOutLoop_eq {vout : List CTxOut} :
    ∀ {acc : ℤ}, 0 ≤ acc → (∀ o ∈ vout, 0 ≤ o.nValue) →
      acc + (vout.map CTxOut.nValue).sum < 9223372036854775808 →
        CTransaction.getValueOutLoop acc vout = some (acc + (vout.map CTxOut.nValue).sum) := by
  induction vout with
  | nil =>
    intro acc _ _ _
    simp [CTransaction.getValueOutLoop]
  | cons o os ih =>
    intro acc h₀ hpos hsum
    have ho : 0 ≤ o.nValue := hpos o (by simp)
    have hos : 0 ≤ (os.map CTxOut.nValue).sum :=
      List.sum_nonneg fun x hx => by
        obtain ⟨q, hq, rfl⟩ := List.mem_map.1 hx
        exact hpos q (by simp [hq])
    simp only [List.map_cons, List.sum_cons] at hsum ⊢
    have hw : wrap64 (acc + o.nValue) = acc + o.nValue := wrap64_of_lt (by omega) (by omega)
    rw [CTransaction.getValueOutLoop, if_neg (by omega), hw, if_neg (by omega),
      ih (by omega) (fun q hq => hpos q (by simp [hq])) (by omega)]
    congr 1
    omega

/-! ## What success means -/

/-- What `CheckTransaction` accepts. -/
structure CTransaction.Checked (net : Network) (tx : CTransaction) : Prop where
  vin_ne_nil : tx.vin ≠ []
  vout_ne_nil : tx.vout ≠ []
  nonneg : ∀ o ∈ tx.vout, 0 ≤ o.nValue
  total : tx.valueOut ≤ net.maxMoneyOut
  nodup : (tx.vin.map CTxIn.prevout).Nodup
  prevouts : tx.isCoinBase = false → ∀ i ∈ tx.vin, i.prevout.isNull = false

theorem checkOutputs_ok {net : Network} {tx : CTransaction} {vout : List CTxOut} :
    ∀ {acc : ℤ}, 0 ≤ acc → acc ≤ net.maxMoneyOut → checkOutputs net tx acc vout = .ok () →
      (∀ o ∈ vout, 0 ≤ o.nValue) ∧ acc + (vout.map CTxOut.nValue).sum ≤ net.maxMoneyOut := by
  induction vout with
  | nil =>
    intro acc _ h₁ _
    simpa using h₁
  | cons o os ih =>
    intro acc h₀ h₁ h
    simp only [checkOutputs, bind_eq_ok, require_eq_ok, exists_const, decide_eq_true_eq,
      moneyRange_iff] at h
    obtain ⟨-, hpos, hle, ⟨hlo, hhi⟩, hrest⟩ := h
    rw [net.maxMoneyOut_eq] at h₁ hle
    have hw : wrap64 (acc + o.nValue) = acc + o.nValue := wrap64_of_lt (by omega) (by omega)
    rw [hw] at hlo hhi hrest
    obtain ⟨hall, hsum⟩ := ih hlo (by rw [net.maxMoneyOut_eq]; exact hhi) hrest
    refine ⟨?_, by simpa [add_assoc] using hsum⟩
    rintro q (_ | ⟨_, hq⟩)
    · exact hpos
    · exact hall q hq

theorem checkTransaction_ok {net : Network} {tx : CTransaction}
    (h : checkTransaction net tx = .ok ()) : tx.Checked net := by
  simp only [checkTransaction, bind_eq_ok, require_eq_ok, exists_const, decide_eq_true_eq] at h
  obtain ⟨hvin, hvout, -, _, hout, hnd, hlast⟩ := h
  obtain ⟨hpos, hsum⟩ := checkOutputs_ok le_rfl (by rw [net.maxMoneyOut_eq]; decide) hout
  refine ⟨by simpa using hvin, by simpa using hvout, hpos, by simpa [CTransaction.valueOut] using hsum,
    hnd, fun hcb i hi => ?_⟩
  rw [if_neg (by simp [hcb])] at hlast
  simpa using List.all_eq_true.1 (require_eq_ok.1 hlast) i hi

theorem CTransaction.Checked.getValueOut {net : Network} {tx : CTransaction} (h : tx.Checked net) :
    tx.getValueOut = some tx.valueOut := by
  have htotal := h.total
  rw [net.maxMoneyOut_eq, CTransaction.valueOut] at htotal
  rw [CTransaction.getValueOut, getValueOutLoop_eq le_rfl h.nonneg (by omega), zero_add]
  rfl

theorem CTransaction.Checked.valueOut_nonneg {net : Network} {tx : CTransaction}
    (h : tx.Checked net) : 0 ≤ tx.valueOut :=
  List.sum_nonneg fun x hx => by
    obtain ⟨q, hq, rfl⟩ := List.mem_map.1 hx
    exact h.nonneg q hq

/-- What `CheckBlock` accepts. -/
structure CBlock.Checked (net : Network) (b : CBlock) : Prop where
  shape : ∃ tx₀ txs, b.vtx = tx₀ :: txs ∧ tx₀.isCoinBase = true ∧ ∀ tx ∈ txs, tx.isCoinBase = false
  txs : ∀ tx ∈ b.vtx, tx.Checked net
  size : b.serializeSize ≤ maxBlockSize
  stake : checkStakeShape b = .ok ()

theorem forM_eq_ok {α : Type} {f : α → Except Failure Unit} {l : List α} {u : Unit}
    (h : l.forM f = .ok u) : ∀ a ∈ l, f a = .ok () := by
  induction l with
  | nil => simp
  | cons a l ih =>
    obtain ⟨_, ha, hl⟩ := bind_eq_ok.1 h
    rintro b (_ | ⟨_, hb⟩)
    · exact ha
    · exact ih hl b hb

theorem checkBlock_ok {env : Env} {tree : BlockTree} {block : CBlock} {fCheckMerkleRoot : Bool}
    (h : checkBlock env tree block fCheckMerkleRoot = .ok ()) : block.Checked env.network := by
  simp only [checkBlock, bind_eq_ok, require_eq_ok, exists_const] at h
  obtain ⟨-, -, _, -, hlen, hcb, hmulti, _, hstake, _, -, _, -, _, htxs, -⟩ := h
  refine ⟨?_, fun tx htx => checkTransaction_ok (forM_eq_ok htxs tx htx), ?_, hstake⟩
  · cases hv : block.vtx with
    | nil => simp [hv] at hcb
    | cons tx₀ txs =>
      rw [hv] at hcb hmulti
      exact ⟨tx₀, txs, rfl, hcb, fun tx htx => by simpa using List.all_eq_true.1 hmulti tx htx⟩
  · simp only [Bool.and_eq_true, decide_eq_true_eq] at hlen
    exact hlen.2

/-- What `CheckInputs` accepts of a transaction that is not a coinbase. -/
structure InputsOk (net : Network) (v : CoinsView) (nSpendHeight : ℤ) (tx : CTransaction) :
    Prop where
  available : ∀ o ∈ tx.spends, o ∈ v.unspent
  mature : MatureInputs net.coinbaseMaturity nSpendHeight v tx.spends
  nonneg : 0 ≤ tx.valueIn v
  total : tx.valueIn v ≤ net.maxMoneyOut
  getValueIn : getValueIn v tx = tx.valueIn v
  fee : tx.isCoinStake = false → tx.valueOut ≤ tx.valueIn v

theorem checkInputValues_ok {net : Network} {v : CoinsView} {nSpendHeight : ℤ} {vin : List CTxIn} :
    ∀ {acc total : ℤ}, 0 ≤ acc → acc ≤ net.maxMoneyOut →
      checkInputValues net v nSpendHeight acc vin = .ok total →
        MatureInputs net.coinbaseMaturity nSpendHeight v (vin.map CTxIn.prevout) ∧
        total = acc + ((vin.map CTxIn.prevout).map (valueAt v)).sum ∧ 0 ≤ total ∧
        total ≤ net.maxMoneyOut ∧
        vin.foldl (fun nResult i => wrap64 (nResult + valueAt v i.prevout)) acc = total := by
  induction vin with
  | nil =>
    intro acc total h₀ h₁ h
    simp only [checkInputValues, Except.ok.injEq] at h
    subst h
    refine ⟨fun o ho => absurd ho (by simp), by simp, h₀, h₁, rfl⟩
  | cons i rest ih =>
    intro acc total h₀ h₁ h
    simp only [checkInputValues, bind_eq_ok, require_eq_ok, exists_const, Bool.and_eq_true,
      moneyRange_iff] at h
    obtain ⟨hmat, ⟨⟨hv₀, hv₁⟩, ha₀, ha₁⟩, hrest⟩ := h
    rw [net.maxMoneyOut_eq] at h₁
    have hw : wrap64 (acc + valueAt v i.prevout) = acc + valueAt v i.prevout :=
      wrap64_of_lt (by omega) (by omega)
    rw [hw] at ha₀ ha₁ hrest
    obtain ⟨hm, ht, h0, h1, hf⟩ := ih ha₀ (by rw [net.maxMoneyOut_eq]; exact ha₁) hrest
    refine ⟨?_, by simpa [add_assoc] using ht, h0, h1, by rw [List.foldl_cons, hw, hf]⟩
    intro o ho hflag
    rcases List.mem_map.1 ho with ⟨j, hj, rfl⟩
    rcases List.mem_cons.1 hj with rfl | hj
    · rw [hflag] at hmat
      simpa using hmat
    · exact hm _ (List.mem_map.2 ⟨j, hj, rfl⟩) hflag

theorem checkInputs_ok {env : Env} {v : CoinsView} {tx : CTransaction} {nSpendHeight : ℤ}
    {fScriptChecks : Bool} {flags : ScriptFlags} {scripts : Bool} (hcb : tx.isCoinBase = false)
    (htx : tx.Checked env.network)
    (h : checkInputs env v tx nSpendHeight fScriptChecks flags = .ok scripts) :
    InputsOk env.network v nSpendHeight tx := by
  simp only [checkInputs, hcb, Bool.false_eq_true, if_false, bind_eq_ok, require_eq_ok,
    exists_const] at h
  obtain ⟨havail, total, hvalues, _, hfee, -⟩ := h
  have hspends : tx.spends = tx.vin.map CTxIn.prevout := by
    rw [CTransaction.spends, if_neg (by simp [hcb])]
  obtain ⟨hmat, htot, h₀, h₁, hfold⟩ :=
    checkInputValues_ok le_rfl (by rw [env.network.maxMoneyOut_eq]; decide) hvalues
  have hval : tx.valueIn v = total := by rw [CTransaction.valueIn, hspends, htot, zero_add]
  refine ⟨fun o ho => ?_, by rwa [hspends], by rwa [hval], by rwa [hval], ?_, fun hst => ?_⟩
  · rw [hspends] at ho
    obtain ⟨i, hi, rfl⟩ := List.mem_map.1 ho
    rw [haveInputs, hcb, Bool.false_or] at havail
    exact CCoins.isAvailable_iff.1 (List.all_eq_true.1 havail i hi)
  · rw [FairCoin.getValueIn, if_neg (by simp [hcb]), hfold, hval]
  · simp only [checkFee, hst, Bool.false_eq_true, if_false, htx.getValueOut, bind_eq_ok,
      require_eq_ok, exists_const, decide_eq_true_eq] at hfee
    rw [hval]
    exact hfee.1

end FairCoin
