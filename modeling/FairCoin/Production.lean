import FairCoin.Payments

/-!
# Block production against block validation

The reward transactions a producer builds on a tip, and the limits validation puts
on them at the next height.

* `fillBlockPayee`, `createCoinStake`, `createNewBlock` — `FillBlockPayee`, the
  amounts of `CWallet::CreateCoinStake`, and the coinbase of `CreateNewBlock`.
* `RewardAgrees` — what validation asks of a reward transaction at height `h`: it
  mints no more than `ConnectBlock` allows, its masternode output is what
  `IsTransactionValid` requires, and no output is negative.
* `stake_rewardAgrees_iff`, `work_rewardAgrees_iff` — exactly when the producer's
  transaction meets them.  The producer reads the emission schedule at the height of
  the parent and validation at the height of the block, so they part wherever the
  schedule steps down.
-/

namespace FairCoin

open CMasternodeBlockPayees (requiredMasternodePayment)

/-! ## The producer -/

/-- `CMutableTransaction`. -/
structure CMutableTransaction where
  nVersion : ℤ := 1
  vin : List CTxIn := []
  vout : List CTxOut := []
  nLockTime : ℕ := 0
  deriving DecidableEq, Repr

/-- The immutable transaction, once its hash is known. -/
def CMutableTransaction.toTransaction (tx : CMutableTransaction) (hash : UInt256) : CTransaction :=
  { hash := hash, nVersion := tx.nVersion, vin := tx.vin, vout := tx.vout,
    nLockTime := tx.nLockTime }

/-- The payment tables of a producer.  `winningNode` is the collateral script of
`GetCurrentMasterNode(1)`; `budgetFill` is `CBudgetManager::FillBlockPayee`. -/
structure PaymentEnv extends PaymentTables where
  winningNode : Option CScript
  budgetFill : CMutableTransaction → CMutableTransaction

namespace PaymentEnv

variable (env : PaymentEnv)

/-- The script `CMasternodePayments::FillBlockPayee` pays on a tip of this height. -/
def payee (nHeight : ℤ) : Option CScript :=
  match env.payments.getBlockPayee (nHeight + 1) with
  | some p => some p
  | none => env.winningNode

/-- `GetMasternodePayment` as `FillBlockPayee` calls it on a tip of this height. -/
def tipPayment (nHeight : ℤ) : ℤ :=
  getMasternodePayment env.network env.seesaw nHeight (getBlockValue nHeight)

/-- The payment validation requires at this height. -/
def requiredPayment (nHeight : ℤ) : ℤ :=
  requiredMasternodePayment env.network env.seesaw env.counts nHeight

end PaymentEnv

/-- `CMasternodePayments::FillBlockPayee` on a tip of height `nHeight`. -/
def masternodeFillBlockPayee (env : PaymentEnv) (nHeight : ℤ) (txNew : CMutableTransaction)
    (fProofOfStake : Bool) : CMutableTransaction :=
  match env.payee nHeight with
  | none => txNew
  | some p =>
      let masternodePayment := env.tipPayment nHeight
      if fProofOfStake then
        -- the masternode output is appended, and paid for by the output before it
        { txNew with
          vout := txNew.vout.modify (txNew.vout.length - 1)
              (fun o => { o with nValue := o.nValue - masternodePayment })
            ++ [{ nValue := masternodePayment, scriptPubKey := p }] }
      else
        { txNew with
          vout := [{ (txNew.vout.headD CTxOut.null) with
                      nValue := getBlockValue nHeight - masternodePayment },
                   { nValue := masternodePayment, scriptPubKey := p }] }

/-- `FillBlockPayee`. -/
def fillBlockPayee (env : PaymentEnv) (nHeight : ℤ) (txNew : CMutableTransaction)
    (fProofOfStake : Bool) : CMutableTransaction :=
  if env.superblocks && env.isBudgetPaymentBlock (nHeight + 1) then env.budgetFill txNew
  else masternodeFillBlockPayee env nHeight txNew fProofOfStake

/-- The coin whose kernel `CheckStakeKernelHash` accepted, and the script its stake
is paid back to. -/
structure StakeKernel where
  prevout : COutPoint
  nValue : ℤ
  scriptPubKeyOut : CScript
  deriving DecidableEq, Repr

/-- The wallet settings `CreateCoinStake` reads. -/
structure StakeWallet where
  nBalance : ℤ
  nReserveBalance : ℤ
  nStakeSplitThreshold : ℕ
  getMinimumFee : ℕ → ℤ

/-- Whether the stake is split in two outputs: an unsigned 64-bit comparison. -/
def StakeWallet.splits (w : StakeWallet) (k : StakeKernel) (nHeight : ℤ) : Bool :=
  let nTotalSize := ((k.nValue + getBlockValue nHeight) % 2 ^ 64).toNat
  decide ((w.nStakeSplitThreshold * coin.toNat) % 2 ^ 64 < nTotalSize / 2)

/-- The outputs of the coinstake before their values are set. -/
def stakeOutputs (split : Bool) (scriptPubKeyOut : CScript) : List CTxOut :=
  let marker : CTxOut := { nValue := 0, scriptPubKey := [] }
  let out : CTxOut := { nValue := 0, scriptPubKey := scriptPubKeyOut }
  if split then [marker, out, out] else [marker, out]

/-- One pass of "set output amount". -/
def setStakeAmounts (nCredit nMinFee : ℤ) (vout : List CTxOut) : List CTxOut :=
  match vout with
  | [m, o₁, o₂] =>
      let first := ((nCredit - nMinFee).tdiv 2).tdiv cent * cent
      [m, { o₁ with nValue := first }, { o₂ with nValue := nCredit - nMinFee - first }]
  | m :: o₁ :: os => m :: { o₁ with nValue := nCredit - nMinFee } :: os
  | os => os

/-- The `while (true)` loop of `CreateCoinStake`: raise the fee until it is enough.
`none` when the size limit is exceeded, or when the fuel runs out. -/
def stakeFeeLoop (w : StakeWallet) (nCredit : ℤ) (txNew : CMutableTransaction) :
    ℕ → ℤ → Option (CMutableTransaction × ℤ)
  | 0, _ => none
  | fuel + 1, nMinFee =>
      let txNew' := { txNew with vout := setStakeAmounts nCredit nMinFee txNew.vout }
      let nBytes := (txNew'.toTransaction 0).serializeSize
      if defaultBlockMaxSize / 5 ≤ nBytes then none
      else if nMinFee < w.getMinimumFee nBytes then
        stakeFeeLoop w nCredit txNew fuel (w.getMinimumFee nBytes)
      else some (txNew', nMinFee)

/-- `CWallet::CreateCoinStake` on a tip of height `nHeight`, once the kernel search
has ended with `kernel`, up to the signature. -/
def createCoinStake (env : PaymentEnv) (w : StakeWallet) (nHeight : ℤ)
    (kernel : Option StakeKernel) : Option CMutableTransaction :=
  if w.nBalance ≤ w.nReserveBalance then none
  else
    match kernel with
    | none => none
    | some k =>
        if k.nValue = 0 ∨ w.nBalance - w.nReserveBalance < k.nValue then none
        else
          let txNew : CMutableTransaction :=
            { vin := [{ prevout := k.prevout }], vout := stakeOutputs (w.splits k nHeight) k.scriptPubKeyOut }
          let nCredit := k.nValue + getBlockValue nHeight
          -- the size of the transaction does not depend on its amounts, so the
          -- second pass of the loop is the last
          match stakeFeeLoop w nCredit txNew 2 0 with
          | none => none
          | some (txNew', _) => some (fillBlockPayee env nHeight txNew' true)

/-- The coinbase of `CreateNewBlock` for a proof-of-work block on a tip of height
`nHeight`. -/
def createNewBlock (env : PaymentEnv) (nHeight : ℤ) (scriptPubKeyIn : CScript) :
    CMutableTransaction :=
  fillBlockPayee env nHeight
    { vin := [{ prevout := { hash := 0, n := 4294967295 } }],
      vout := [{ nValue := getBlockValue (nHeight + 1), scriptPubKey := scriptPubKeyIn }] } false

/-! ## What validation asks of the reward -/

/-- The total of a list of outputs. -/
def valueOf (vout : List CTxOut) : ℤ := (vout.map CTxOut.nValue).sum

/-- The reward transaction `vout`, spending `nValueIn` in a block whose other
transactions pay `nFees`, agrees with validation at height `h`: the block mints at
most `nExpectedMint`, the last output pays the masternode what is required, and no
output is negative. -/
structure RewardAgrees (env : PaymentEnv) (h nExpectedMint nValueIn nFees : ℤ)
    (vout : List CTxOut) : Prop where
  mint : valueOf vout - nValueIn - nFees ≤ nExpectedMint
  masternode : h ≤ 9999998 → ∀ p, env.payee (h - 1) = some p →
    ∃ o, vout.getLast? = some o ∧ o.scriptPubKey = p ∧ env.requiredPayment h ≤ o.nValue
  nonneg : ∀ o ∈ vout, 0 ≤ o.nValue

/-- The fee `CreateCoinStake` settles on. -/
def coinStakeFee (w : StakeWallet) (k : StakeKernel) (nHeight : ℤ) : ℤ :=
  max 0 (w.getMinimumFee
    (({ vin := [{ prevout := k.prevout }], vout := stakeOutputs (w.splits k nHeight) k.scriptPubKeyOut } :
      CMutableTransaction).toTransaction 0).serializeSize)

/-- The part of `x` that goes to the first of two stake outputs. -/
def splitPart (split : Bool) (x : ℤ) : ℤ :=
  if split then (x.tdiv 2).tdiv cent * cent else 0

/-! ## The fee loop -/

theorem serializeSize_setStakeAmounts (nCredit fee : ℤ) (tx : CMutableTransaction) (hash : UInt256) :
    (({ tx with vout := setStakeAmounts nCredit fee tx.vout } : CMutableTransaction).toTransaction
      hash).serializeSize = (tx.toTransaction hash).serializeSize := by
  unfold setStakeAmounts
  split <;> simp_all [CTransaction.serializeSize, CMutableTransaction.toTransaction,
    CTxOut.serializeSize]

/-- The loop ends within two passes, with the larger of zero and the minimum fee. -/
theorem stakeFeeLoop_eq_some {w : StakeWallet} {nCredit : ℤ} {tx tx' : CMutableTransaction}
    {fee : ℤ} (h : stakeFeeLoop w nCredit tx 2 0 = some (tx', fee)) :
    fee = max 0 (w.getMinimumFee (tx.toTransaction 0).serializeSize) ∧
      tx' = { tx with vout := setStakeAmounts nCredit fee tx.vout } := by
  simp only [stakeFeeLoop, serializeSize_setStakeAmounts] at h
  split_ifs at h with h₁ h₂ h₃
  · simp only [Option.some.injEq, Prod.mk.injEq] at h
    obtain ⟨rfl, rfl⟩ := h
    exact ⟨(max_eq_right h₂.le).symm, rfl⟩
  · simp only [Option.some.injEq, Prod.mk.injEq] at h
    obtain ⟨rfl, rfl⟩ := h
    exact ⟨(max_eq_left (not_lt.1 h₂)).symm, rfl⟩

/-! ## The outputs of the reward transactions -/

theorem splitPart_nonneg {split : Bool} {x : ℤ} (hx : 0 ≤ x) : 0 ≤ splitPart split x := by
  unfold splitPart
  split
  · exact mul_nonneg (Int.tdiv_nonneg (Int.tdiv_nonneg hx (by norm_num)) (by decide)) (by decide)
  · exact le_rfl

/-- The masternode payment the producer makes on a tip of height `nHeight`: nothing
when there is no payee. -/
def PaymentEnv.paid (env : PaymentEnv) (nHeight : ℤ) : ℤ :=
  if (env.payee nHeight).isSome then env.tipPayment nHeight else 0

theorem PaymentEnv.paid_nonneg {env : PaymentEnv} (hs : ∀ bv n, 0 ≤ bv → 0 ≤ env.seesaw bv n)
    (n : ℤ) : 0 ≤ env.paid n := by
  unfold paid tipPayment getMasternodePayment
  have hpos := (getBlockValue_pos n).le
  split_ifs
  · exact le_rfl
  · exact Int.tdiv_nonneg hpos (by norm_num)
  · exact hs _ _ hpos
  · exact le_rfl

/-- The coinstake before the masternode output. -/
theorem createCoinStake_eq_some {env : PaymentEnv} {w : StakeWallet} {n : ℤ} {k : StakeKernel}
    {tx : CMutableTransaction} (h : createCoinStake env w n (some k) = some tx)
    (hb : (env.superblocks && env.isBudgetPaymentBlock (n + 1)) = false) :
    ∃ base : CMutableTransaction,
      base.vout = setStakeAmounts (k.nValue + getBlockValue n) (coinStakeFee w k n)
        (stakeOutputs (w.splits k n) k.scriptPubKeyOut) ∧ tx = masternodeFillBlockPayee env n base true := by
  simp only [createCoinStake] at h
  split_ifs at h with h₁ h₂
  split at h
  · exact absurd h (by simp)
  · next base fee hloop =>
    obtain ⟨rfl, hbase⟩ := stakeFeeLoop_eq_some hloop
    refine ⟨base, by rw [hbase]; rfl, ?_⟩
    rw [fillBlockPayee, hb] at h
    exact (Option.some.inj h).symm

/-- What the comparison with validation reads of a list of outputs, after the
masternode payment `pay` is moved from its last output to a new one. -/
theorem outputs_append_payment (os : List CTxOut) (o : CTxOut) (pay : ℤ) (p : CScript) :
    valueOf ((os ++ [o]).modify ((os ++ [o]).length - 1) (fun o => { o with nValue := o.nValue - pay })
        ++ [{ nValue := pay, scriptPubKey := p }]) = valueOf (os ++ [o]) ∧
      ((∀ q ∈ (os ++ [o]).modify ((os ++ [o]).length - 1)
          (fun o => { o with nValue := o.nValue - pay }) ++ [{ nValue := pay, scriptPubKey := p }],
        0 ≤ q.nValue) ↔ (∀ q ∈ os, 0 ≤ q.nValue) ∧ pay ≤ o.nValue ∧ 0 ≤ pay) := by
  have hmod : (os ++ [o]).modify ((os ++ [o]).length - 1)
      (fun o => { o with nValue := o.nValue - pay }) = os ++ [{ o with nValue := o.nValue - pay }] := by
    simp [List.modify_eq_set_getElem?]
  rw [hmod]
  constructor
  · simp [valueOf]
  · simp only [List.mem_append, List.mem_singleton, or_imp, forall_and, forall_eq, sub_nonneg]
    tauto

theorem stakeOutputs_split (split : Bool) (script : CScript) (nCredit fee : ℤ) :
    ∃ os o, setStakeAmounts nCredit fee (stakeOutputs split script) = os ++ [o] ∧
      valueOf (os ++ [o]) = nCredit - fee ∧
      o.nValue = nCredit - fee - splitPart split (nCredit - fee) ∧
      ((∀ q ∈ os, 0 ≤ q.nValue) ↔ 0 ≤ splitPart split (nCredit - fee)) := by
  cases split with
  | true => exact ⟨[_, _], _, rfl, by simp [valueOf], rfl, by simp [splitPart]⟩
  | false => exact ⟨[_], _, rfl, by simp [valueOf], (sub_zero _).symm, by simp [splitPart]⟩

/-- Everything the comparison with validation reads of the coinstake: its total, its
last output, and when no output is negative. -/
theorem stake_outputs {env : PaymentEnv} {w : StakeWallet} {n x : ℤ} {k : StakeKernel}
    {base : CMutableTransaction}
    (hbase : base.vout = setStakeAmounts (k.nValue + getBlockValue n) (coinStakeFee w k n)
      (stakeOutputs (w.splits k n) k.scriptPubKeyOut)) (hx : x = k.nValue + getBlockValue n - coinStakeFee w k n)
    (hpaid : 0 ≤ env.paid n) :
    valueOf (masternodeFillBlockPayee env n base true).vout = x ∧
      (∀ p, env.payee n = some p → (masternodeFillBlockPayee env n base true).vout.getLast? =
        some { nValue := env.tipPayment n, scriptPubKey := p }) ∧
      ((∀ o ∈ (masternodeFillBlockPayee env n base true).vout, 0 ≤ o.nValue) ↔
        0 ≤ x ∧ env.paid n + splitPart (w.splits k n) x ≤ x) := by
  have hsplit : 0 ≤ x → 0 ≤ splitPart (w.splits k n) x := splitPart_nonneg
  obtain ⟨os, o, hos, hval, ho, hnn⟩ :=
    stakeOutputs_split (w.splits k n) k.scriptPubKeyOut (k.nValue + getBlockValue n)
      (coinStakeFee w k n)
  rw [hos] at hbase
  rw [← hx] at hval ho hnn
  unfold masternodeFillBlockPayee
  cases hp : env.payee n with
  | none =>
    have hz : env.paid n = 0 := by simp [PaymentEnv.paid, hp]
    simp only [hbase, hz]
    refine ⟨hval, by simp, ?_⟩
    simp only [List.mem_append, List.mem_singleton, or_imp, forall_and, forall_eq, hnn, ho]
    constructor
    · rintro ⟨h₁, h₂⟩
      exact ⟨by omega, by omega⟩
    · rintro ⟨h₁, h₂⟩
      exact ⟨hsplit h₁, by omega⟩
  | some p =>
    have hz : env.paid n = env.tipPayment n := by simp [PaymentEnv.paid, hp]
    rw [hz] at hpaid ⊢
    obtain ⟨hv, hall⟩ := outputs_append_payment os o (env.tipPayment n) p
    simp only [hbase, if_true]
    refine ⟨hv.trans hval, by simp, hall.trans ?_⟩
    rw [hnn, ho]
    constructor
    · rintro ⟨h₁, h₂, -⟩
      exact ⟨by omega, by omega⟩
    · rintro ⟨h₁, h₂⟩
      exact ⟨hsplit h₁, by omega, hpaid⟩

/-- Everything the comparison with validation reads of the coinbase. -/
theorem work_outputs {env : PaymentEnv} {n : ℤ} (script : CScript)
    (hb : (env.superblocks && env.isBudgetPaymentBlock (n + 1)) = false)
    (hpaid : 0 ≤ env.paid n) (hle : env.paid n ≤ getBlockValue n) :
    valueOf (createNewBlock env n script).vout =
        (if (env.payee n).isSome then getBlockValue n else getBlockValue (n + 1)) ∧
      (∀ p, env.payee n = some p → (createNewBlock env n script).vout.getLast? =
        some { nValue := env.tipPayment n, scriptPubKey := p }) ∧
      ∀ o ∈ (createNewBlock env n script).vout, 0 ≤ o.nValue := by
  rw [createNewBlock, fillBlockPayee, hb, masternodeFillBlockPayee]
  have hpos := (getBlockValue_pos (n + 1)).le
  cases hp : env.payee n with
  | none => simpa [valueOf] using hpos
  | some p =>
    have hz : env.paid n = env.tipPayment n := by simp [PaymentEnv.paid, hp]
    rw [hz] at hpaid hle
    simp [valueOf, hpaid, hle]

/-! ## Agreement -/

/-- The payment made on a tip covers the payment required at the next height, except
at the first testnet height that has masternode payments at all. -/
theorem requiredPayment_le_tipPayment_iff {env : PaymentEnv} {h : ℤ} (h2 : 2 ≤ h)
    (hmax : h ≤ 9999998) :
    env.requiredPayment h ≤ env.tipPayment (h - 1) ↔ ¬(env.network = .testnet ∧ h = 200) := by
  have hanti : getBlockValue h ≤ getBlockValue (h - 1) :=
    getBlockValue_anti (by omega) (by omega) (by omega) (by omega)
  have htdiv : (getBlockValue h).tdiv 2 ≤ (getBlockValue (h - 1)).tdiv 2 :=
    Int.tdiv_le_tdiv (by norm_num) hanti
  have hpos : ∀ m, 0 < (getBlockValue m).tdiv 2 := by
    intro m
    have := getBlockValue_pos m
    have hb : 125000000 ≤ getBlockValue m := by
      by_cases h1 : m = 1
      · subst h1; decide
      · exact (getBlockValue_bounds h1).1
    rw [Int.tdiv_eq_ediv_of_nonneg this.le]
    omega
  simp only [PaymentEnv.requiredPayment, requiredMasternodePayment, PaymentEnv.tipPayment,
    getMasternodePayment]
  rw [if_pos hmax, if_pos (by omega : h - 1 ≤ 9999998)]
  have hp1 := hpos h
  by_cases hn : env.network = .testnet
  · simp only [hn, true_and]
    split_ifs <;> omega
  · simp only [hn, false_and, not_false_eq_true, iff_true, if_false]
    exact htdiv

/-- The part of the agreement that concerns the masternode output. -/
theorem masternode_agrees_iff {env : PaymentEnv} {h : ℤ} {vout : List CTxOut} (h2 : 2 ≤ h)
    (hlast : ∀ p, env.payee (h - 1) = some p →
      vout.getLast? = some { nValue := env.tipPayment (h - 1), scriptPubKey := p }) :
    (h ≤ 9999998 → ∀ p, env.payee (h - 1) = some p →
        ∃ o, vout.getLast? = some o ∧ o.scriptPubKey = p ∧ env.requiredPayment h ≤ o.nValue) ↔
      (h ≤ 9999998 → (env.payee (h - 1)).isSome → ¬(env.network = .testnet ∧ h = 200)) := by
  refine imp_congr_right fun hmax => ?_
  rw [← requiredPayment_le_tipPayment_iff h2 hmax]
  cases hp : env.payee (h - 1) with
  | none => simp
  | some p =>
    have hl := hlast p hp
    constructor
    · intro hall _
      obtain ⟨o, ho, -, hle⟩ := hall p rfl
      rw [hl] at ho
      cases ho
      exact hle
    · intro hle q hq
      cases hq
      exact ⟨_, hl, rfl, hle rfl⟩

/-- The producer's proof-of-stake reward agrees with validation at height `h`
exactly when the schedule did not step down by more than the fees since the parent,
`h` is not the first testnet height with masternode payments, and the coinstake fee
leaves the last stake output enough for the masternode payment. -/
theorem stake_rewardAgrees_iff {env : PaymentEnv} {w : StakeWallet} {k : StakeKernel}
    {h nFees : ℤ} {tx : CMutableTransaction} (h2 : 2 ≤ h)
    (hb : (env.superblocks && env.isBudgetPaymentBlock h) = false)
    (hs : ∀ bv n, 0 ≤ bv → 0 ≤ env.seesaw bv n)
    (hcs : createCoinStake env w (h - 1) (some k) = some tx) :
    RewardAgrees env h (getBlockValue h) k.nValue nFees tx.vout ↔
      getBlockValue (h - 1) ≤ getBlockValue h + coinStakeFee w k (h - 1) + nFees ∧
      (h ≤ 9999998 → (env.payee (h - 1)).isSome → ¬(env.network = .testnet ∧ h = 200)) ∧
      0 ≤ k.nValue + getBlockValue (h - 1) - coinStakeFee w k (h - 1) ∧
      env.paid (h - 1) + splitPart (w.splits k (h - 1))
        (k.nValue + getBlockValue (h - 1) - coinStakeFee w k (h - 1)) ≤
          k.nValue + getBlockValue (h - 1) - coinStakeFee w k (h - 1) := by
  obtain ⟨base, hbase, rfl⟩ := createCoinStake_eq_some hcs (by rw [sub_add_cancel]; exact hb)
  obtain ⟨hval, hlast, hnn⟩ := stake_outputs hbase rfl (PaymentEnv.paid_nonneg hs (h - 1))
  rw [← masternode_agrees_iff h2 hlast, ← hnn]
  constructor
  · rintro ⟨hm, hmn, hn⟩
    rw [hval] at hm
    exact ⟨by omega, hmn, hn⟩
  · rintro ⟨hm, hmn, hn⟩
    exact ⟨by rw [hval]; omega, hmn, hn⟩

/-- The producer's coinbase agrees with validation at height `h` exactly when it has
no masternode to pay, or the schedule did not step down by more than twice the fees
and `h` is not the first testnet height with masternode payments. -/
theorem work_rewardAgrees_iff {env : PaymentEnv} {h nFees : ℤ} {script : CScript} (h2 : 2 ≤ h)
    (hb : (env.superblocks && env.isBudgetPaymentBlock h) = false)
    (hs : ∀ bv n, 0 ≤ bv → 0 ≤ env.seesaw bv n ∧ env.seesaw bv n ≤ bv) (hf : 0 ≤ nFees) :
    RewardAgrees env h (getBlockValue h + nFees) 0 nFees
        (createNewBlock env (h - 1) script).vout ↔
      ((env.payee (h - 1)).isSome → getBlockValue (h - 1) ≤ getBlockValue h + 2 * nFees) ∧
      (h ≤ 9999998 → (env.payee (h - 1)).isSome → ¬(env.network = .testnet ∧ h = 200)) := by
  have hpos := (getBlockValue_pos (h - 1)).le
  have hle : env.paid (h - 1) ≤ getBlockValue (h - 1) := by
    have htdiv : (getBlockValue (h - 1)).tdiv 2 ≤ getBlockValue (h - 1) :=
      Int.tdiv_le_self _ hpos
    unfold PaymentEnv.paid PaymentEnv.tipPayment getMasternodePayment
    split_ifs
    · exact hpos
    · exact htdiv
    · exact (hs _ _ hpos).2
    · exact hpos
  obtain ⟨hval, hlast, hnn⟩ := work_outputs script (by rw [sub_add_cancel]; exact hb)
    (PaymentEnv.paid_nonneg (fun bv n hbv => (hs bv n hbv).1) (h - 1)) hle
  rw [← masternode_agrees_iff h2 hlast]
  rw [sub_add_cancel] at hval
  constructor
  · rintro ⟨hm, hmn, -⟩
    refine ⟨fun hp => ?_, hmn⟩
    rw [hval, if_pos hp] at hm
    omega
  · rintro ⟨hm, hmn⟩
    refine ⟨?_, hmn, hnn⟩
    rw [hval]
    split_ifs with hp
    · have := hm hp
      omega
    · omega

/-- A reward transaction that agrees with validation passes the masternode check. -/
theorem RewardAgrees.isTransactionValid {env : PaymentEnv} {h m v f : ℤ} {tx : CTransaction}
    (ha : RewardAgrees env h m v f tx.vout) (hmax : h ≤ 9999998) :
    env.payments.isTransactionValid env.network env.seesaw env.counts tx h = true := by
  unfold CMasternodePayments.isTransactionValid
  split
  · next b hbk =>
    refine CMasternodeBlockPayees.isTransactionValid_of_pays fun p hp => ?_
    have hpayee : env.payee (h - 1) = some p := by
      simp [PaymentEnv.payee, CMasternodePayments.getBlockPayee, hbk, hp]
    obtain ⟨o, ho, hos, hov⟩ := ha.masternode hmax p hpayee
    rw [env.payments.filed h b hbk]
    exact ⟨o, List.mem_of_getLast? ho, hos, hov⟩
  · rfl

/-- **Producer against validator.**  For every tip, stake, wallet and set of votes,
both block kinds: the reward built on the tip agrees with validation at the next
height exactly under the conditions below. -/
theorem production_agrees_iff (env : PaymentEnv) (w : StakeWallet) (k : StakeKernel)
    (script : CScript) {h nFees : ℤ} (h2 : 2 ≤ h)
    (hb : (env.superblocks && env.isBudgetPaymentBlock h) = false)
    (hs : ∀ bv n, 0 ≤ bv → 0 ≤ env.seesaw bv n ∧ env.seesaw bv n ≤ bv) (hf : 0 ≤ nFees) :
    (∀ tx, createCoinStake env w (h - 1) (some k) = some tx →
      (RewardAgrees env h (getBlockValue h) k.nValue nFees tx.vout ↔
        getBlockValue (h - 1) ≤ getBlockValue h + coinStakeFee w k (h - 1) + nFees ∧
        (h ≤ 9999998 → (env.payee (h - 1)).isSome → ¬(env.network = .testnet ∧ h = 200)) ∧
        0 ≤ k.nValue + getBlockValue (h - 1) - coinStakeFee w k (h - 1) ∧
        env.paid (h - 1) + splitPart (w.splits k (h - 1))
          (k.nValue + getBlockValue (h - 1) - coinStakeFee w k (h - 1)) ≤
            k.nValue + getBlockValue (h - 1) - coinStakeFee w k (h - 1))) ∧
    (RewardAgrees env h (getBlockValue h + nFees) 0 nFees
        (createNewBlock env (h - 1) script).vout ↔
      ((env.payee (h - 1)).isSome → getBlockValue (h - 1) ≤ getBlockValue h + 2 * nFees) ∧
      (h ≤ 9999998 → (env.payee (h - 1)).isSome → ¬(env.network = .testnet ∧ h = 200))) :=
  ⟨fun _ hcs => stake_rewardAgrees_iff h2 hb (fun bv n hbv => (hs bv n hbv).1) hcs,
    work_rewardAgrees_iff h2 hb hs hf⟩

/-- A mainnet node with no masternodes and no superblocks. -/
def plainPaymentEnv : PaymentEnv where
  network := .main
  seesaw := fun bv _ => bv.tdiv 2
  counts := { paymentEnforcement := false, stableSize := 0, size := 0 }
  payments := CMasternodePayments.empty
  winningNode := none
  superblocks := false
  isBudgetPaymentBlock := fun _ => false
  budgetFill := id

/-- A wallet with 1000 coins that pays 0.0001 for its coinstake. -/
def plainStakeWallet : StakeWallet where
  nBalance := 1000 * coin
  nReserveBalance := 0
  nStakeSplitThreshold := 2000
  getMinimumFee := fun _ => 10000

/-- A stake of 100 coins. -/
def plainStakeKernel : StakeKernel where
  prevout := { hash := 1, n := 0 }
  nValue := 100 * coin
  scriptPubKeyOut := [0x51]

theorem plainPaymentEnv_seesaw (bv n : ℤ) (hbv : 0 ≤ bv) :
    0 ≤ plainPaymentEnv.seesaw bv n ∧ plainPaymentEnv.seesaw bv n ≤ bv :=
  ⟨Int.tdiv_nonneg hbv (by norm_num), Int.tdiv_le_self _ hbv⟩

/-- Away from the steps of the schedule both kinds of reward agree with validation. -/
theorem production_agrees_at_20000 :
    (∃ tx, createCoinStake plainPaymentEnv plainStakeWallet (20000 - 1) (some plainStakeKernel) =
        some tx ∧ RewardAgrees plainPaymentEnv 20000 (getBlockValue 20000) (100 * coin) 0 tx.vout) ∧
      RewardAgrees plainPaymentEnv 20000 (getBlockValue 20000 + 0) 0 0
        (createNewBlock plainPaymentEnv (20000 - 1) [0x51]).vout := by
  have h := @production_agrees_iff plainPaymentEnv plainStakeWallet plainStakeKernel [0x51]
    20000 0 (by norm_num) rfl plainPaymentEnv_seesaw le_rfl
  exact ⟨⟨_, rfl, (h.1 _ rfl).2 (by decide)⟩, h.2.2 (by decide)⟩

/-- At the last block before the first halving the coinstake takes the old value,
and the block mints more than validation allows at the next height. -/
theorem stake_reward_exceeds_at_halving :
    ∃ tx, createCoinStake plainPaymentEnv plainStakeWallet (525600 - 1) (some plainStakeKernel) =
        some tx ∧
      ¬RewardAgrees plainPaymentEnv 525600 (getBlockValue 525600) (100 * coin) 0 tx.vout := by
  refine ⟨{ vin := [{ prevout := { hash := 1, n := 0 } }],
            vout := [{ nValue := 0, scriptPubKey := [] },
                     { nValue := 10999990000, scriptPubKey := [0x51] }] }, by decide, fun h => ?_⟩
  exact absurd h.mint (by decide)

end FairCoin
