import FairCoin.CoinSelection

/-!
# Creating a transaction

`CWallet::CreateTransaction` of `src/wallet.cpp`: outputs for the payees, coins for them and for the
fee, change, and another round with a higher fee when the fee does not do.

* `getMinimumFee`, `CTxOut.isDust` — the fee policy.
* `selectCoins` — coins picked by the user, denominated coins, or a selection with fewer and fewer
  confirmations.
* `feeRound`, `feeLoop`, `createTransaction` — the loop over the fee.
* `Request.Regular` — what the loop relies on and does not check: a running total that is not
  negative says nothing about the amounts, a payment can be split into no outputs, and amounts can
  leave the 64-bit range.
* `createTransaction_sound` — **for a regular request** the loop ends, and a transaction that it
  creates pays what was asked and loses nothing.
-/

namespace FairCoin

open Store

/-! ## Fees -/

/-- `CFeeRate`. -/
structure CFeeRate where
  nSatoshisPerK : ℤ
  deriving DecidableEq

/-- `CFeeRate::GetFee`: the product with a `size_t` is an unsigned one. -/
def CFeeRate.getFee (rate : CFeeRate) (nSize : ℕ) : ℤ :=
  let nFee := wrap64 (rate.nSatoshisPerK * nSize % 2 ^ 64 / 1000)
  if nFee = 0 ∧ 0 < rate.nSatoshisPerK then rate.nSatoshisPerK else nFee

/-- `CTxOut::IsDust`. -/
def CTxOut.isDust (out : CTxOut) (minRelayTxFee : CFeeRate) : Bool :=
  decide (out.nValue < wrap64 (3 * minRelayTxFee.getFee (out.serializeSize + 148)))

/-- The settings that decide on fees; `estimateFee` is what the memory pool estimates for
`nTxConfirmTarget`. -/
structure FeePolicy where
  payTxFee : CFeeRate
  fPayAtLeastCustomFee : Bool
  estimateFee : CFeeRate
  minTxFee : CFeeRate
  minRelayTxFee : CFeeRate
  maxTxFee : ℤ
  fSendFreeTransactions : Bool

/-- `CWallet::GetMinimumFee`. -/
def FeePolicy.getMinimumFee (policy : FeePolicy) (nTxBytes : ℕ) : ℤ :=
  let nFeeNeeded := policy.payTxFee.getFee nTxBytes
  let nFeeNeeded :=
    if policy.fPayAtLeastCustomFee ∧ 0 < nFeeNeeded ∧ nFeeNeeded < policy.payTxFee.nSatoshisPerK then
      policy.payTxFee.nSatoshisPerK
    else nFeeNeeded
  let nFeeNeeded := if nFeeNeeded = 0 then policy.estimateFee.getFee nTxBytes else nFeeNeeded
  let nFeeNeeded := if nFeeNeeded = 0 then policy.minTxFee.getFee nTxBytes else nFeeNeeded
  let nFeeNeeded :=
    if nFeeNeeded < policy.minRelayTxFee.getFee nTxBytes then policy.minRelayTxFee.getFee nTxBytes
    else nFeeNeeded
  if policy.maxTxFee < nFeeNeeded then policy.maxTxFee else nFeeNeeded

/-- `AvailableCoinsType`. -/
inductive AvailableCoinsType
  | allCoins
  | onlyDenominated
  | onlyNot10000IfMn
  | onlyNonDenominatedNot10000IfMn
  | only10000
  deriving DecidableEq, Repr

/-- `CCoinControl`; `destChange` is the script of the custom change address. -/
structure CCoinControl where
  destChange : Option CScript := none
  fSplitBlock : Bool := false
  nSplitBlock : ℤ := 1
  hasSelected : Bool := false

/-- The arguments of `CreateTransaction`. -/
structure Request where
  vecSend : List (CScript × ℤ)
  coinControl : Option CCoinControl := none
  coinType : AvailableCoinsType := .allCoins
  useIX : Bool := false
  nFeePay : ℤ := 0

namespace Request

variable (req : Request)

/-- SwiftTX pays at least a cent. -/
def feePay : ℤ := if req.useIX ∧ req.nFeePay < cent then cent else req.nFeePay

/-- The loop that adds up the amounts.  It looks at the running total before each of them. -/
def sumAmounts (nValue : ℤ) : List (CScript × ℤ) → Option ℤ
  | [] => some nValue
  | s :: rest => if nValue < 0 then none else sumAmounts (wrap64 (nValue + s.2)) rest

/-- The total of the amounts, if it is not refused. -/
def amounts : Option ℤ :=
  match sumAmounts 0 req.vecSend with
  | none => none
  | some nValue => if req.vecSend.isEmpty ∨ nValue < 0 then none else some nValue

/-- The payees get one output each. -/
def listed : Bool := req.coinControl.any fun coinControl => !coinControl.fSplitBlock

/-- The number of outputs each payee gets otherwise. -/
def nSplitBlock : ℤ := (req.coinControl.map CCoinControl.nSplitBlock).getD 1

end Request

/-- The outputs of one payment that is split; the last one gets the remainder. -/
def splitPayment (nSplitBlock : ℤ) (s : CScript × ℤ) : List CTxOut :=
  (List.range nSplitBlock.toNat).map fun i : ℕ =>
    if (i : ℤ) = nSplitBlock - 1 then
      ⟨wrap64 (s.2.tdiv nSplitBlock + s.2.tmod nSplitBlock % 2 ^ 64), s.1, -10⟩
    else ⟨s.2.tdiv nSplitBlock, s.1, -10⟩

/-- The outputs to the payees, if none of them is dust. -/
def Request.payees (req : Request) (policy : FeePolicy) : Option (List CTxOut) :=
  if req.listed then
    if req.vecSend.any fun s => CTxOut.isDust ⟨s.2, s.1, -10⟩ policy.minRelayTxFee then none
    else some (req.vecSend.map fun s => ⟨s.2, s.1, -10⟩)
  else some (req.vecSend.flatMap (splitPayment req.nSplitBlock))

/-! ## The wallet -/

/-- What the wallet is asked for: the coins that `AvailableCoins` finds for the request, and what is
known about them.  `roomInDoubles` is a comparison in floating point numbers,
`nValueRet + nValue < nTargetValue + (0.1 * COIN) + 100`. -/
structure WalletView where
  vCoins : List COutput
  isFromMe : CTransaction → Bool
  bSpendZeroConfChange : Bool
  getInputObfuscationRounds : WalletCoin → ℤ
  nObfuscationRounds : ℤ
  roomInDoubles : ℤ → ℤ → Bool

/-- What is random or unspecified in one round: the choices of each selection, the order of the
coins in a set of pointers, the position of the change, the key from the key pool (the script that
pays it), the signatures, and whether the priority is enough for a free transaction. -/
structure RoundChoices where
  selection : ℕ → SelectionChoices
  order : List WalletCoin → List WalletCoin
  order_perm : ∀ coins, (order coins).Perm coins
  changePosition : ℕ
  reservedKey : Option CScript
  sign : List CTxIn → List CTxOut → ℕ → Option CScript
  priorityEnough : List CTxIn → List CTxOut → Bool

/-- One more coin. -/
def Selection.add (s : Selection) (coin : WalletCoin) : Selection :=
  ⟨s.ret, insert coin s.setCoinsRet, wrap64 (s.nValueRet + coin.value)⟩

/-- The transaction that is returned, with the fee. -/
structure CreatedTx where
  vin : List CTxIn
  vout : List CTxOut
  nFeeRet : ℤ
  deriving DecidableEq

/-- `GetSerializeSize` of the transaction. -/
def serializedBytes (vin : List CTxIn) (vout : List CTxOut) : ℕ :=
  ({ hash := 0, vin := vin, vout := vout } : CTransaction).serializeSize

/-- The fee that a transaction of some size needs. -/
def Request.feeNeeded (req : Request) (policy : FeePolicy) (nBytes : ℕ) : ℤ :=
  max req.feePay (policy.getMinimumFee nBytes)

section Select

variable {net : Network} {outs : List COutput} {S : Finset WalletCoin}

/-- The value of some of the coins of a wallet. -/
theorem WalletCoins.sum_le (hw : WalletCoins net outs) (hS : ∀ c ∈ S, ∃ out ∈ outs, out.coin = c) :
    0 ≤ ∑ c ∈ S, c.value ∧ ∑ c ∈ S, c.value ≤ net.maxMoneyOut := by
  have hnonneg : ∀ c ∈ (outs.map COutput.coin).toFinset, 0 ≤ c.value := by
    intro c hc
    obtain ⟨out, hout, rfl⟩ := List.mem_map.1 (List.mem_toFinset.1 hc)
    exact hw.nonneg out hout
  have hsub : S ⊆ (outs.map COutput.coin).toFinset := by
    intro c hc
    obtain ⟨out, hout, rfl⟩ := hS c hc
    exact List.mem_toFinset.2 (List.mem_map_of_mem hout)
  refine ⟨Finset.sum_nonneg fun c hc => hnonneg c (hsub hc), ?_⟩
  refine le_trans (Finset.sum_le_sum_of_subset_of_nonneg hsub fun c hc _ => hnonneg c hc) ?_
  rw [List.sum_toFinset _ hw.distinct, List.map_map]
  exact hw.supply

/-- The coins are from the wallet, and the value is theirs. -/
structure Tallied (outs : List COutput) (s : Selection) : Prop where
  only : ∀ c ∈ s.setCoinsRet, ∃ out ∈ outs, out.coin = c
  value : s.nValueRet = ∑ c ∈ s.setCoinsRet, c.value

theorem Tallied.add (hw : WalletCoins net outs) {s : Selection} (h : Tallied outs s) {out : COutput}
    (hout : out ∈ outs) (hnew : out.coin ∉ s.setCoinsRet) : Tallied outs (s.add out.coin) := by
  have honly : ∀ c ∈ insert out.coin s.setCoinsRet, ∃ out ∈ outs, out.coin = c := by
    intro c hc
    rw [Finset.mem_insert] at hc
    rcases hc with rfl | hc
    · exact ⟨out, hout, rfl⟩
    · exact h.only c hc
  have hsum := hw.sum_le honly
  rw [net.maxMoneyOut_eq] at hsum
  refine ⟨honly, ?_⟩
  show wrap64 (s.nValueRet + out.coin.value) = _
  have heq : s.nValueRet + out.coin.value = ∑ c ∈ insert out.coin s.setCoinsRet, c.value := by
    rw [Finset.sum_insert hnew, h.value, add_comm]
  rw [heq]
  exact wrap64_of_lt (by omega) (by omega)

/-- A loop over coins that adds those which pass a test. -/
theorem Tallied.foldl {rest : List COutput} (hw : WalletCoins net outs)
    (test : Selection → COutput → Bool) (P : COutput → Prop)
    (htest : ∀ s out, test s out = true → P out) : ∀ {s : Selection}, Tallied outs s →
      (∀ out ∈ rest, out ∈ outs) → (rest.map COutput.coin).Nodup →
      (∀ out ∈ rest, P out → out.coin ∉ s.setCoinsRet) →
      Tallied outs (rest.foldl (fun s out => if test s out then s.add out.coin else s) s) ∧
        ∀ c ∈ (rest.foldl (fun s out => if test s out then s.add out.coin else s) s).setCoinsRet,
          c ∈ s.setCoinsRet ∨ ∃ out, P out ∧ out.coin = c := by
  induction rest with
  | nil => exact fun h _ _ _ => ⟨h, fun c hc => .inl hc⟩
  | cons out rest ih =>
    intro s h hin hnodup hfree
    rw [List.map_cons, List.nodup_cons] at hnodup
    rw [List.foldl_cons]
    split
    · next hpass =>
      have hP := htest s out hpass
      have hadd := h.add hw (hin out (by simp)) (hfree out (by simp) hP)
      obtain ⟨htallied, hmem⟩ := ih hadd (fun o ho => hin o (by simp [ho])) hnodup.2
        (fun o ho hPo hc => by
          have hc' : o.coin ∈ insert out.coin s.setCoinsRet := hc
          rw [Finset.mem_insert] at hc'
          rcases hc' with heq | hc'
          · exact hnodup.1 (heq ▸ List.mem_map_of_mem ho)
          · exact hfree o (by simp [ho]) hPo hc')
      refine ⟨htallied, fun c hc => ?_⟩
      rcases hmem c hc with hc | hc
      · have hc' : c ∈ insert out.coin s.setCoinsRet := hc
        rw [Finset.mem_insert] at hc'
        rcases hc' with rfl | hc'
        · exact .inr ⟨out, hP, rfl⟩
        · exact .inl hc'
      · exact .inr hc
    · exact ih h (fun o ho => hin o (by simp [ho])) hnodup.2 fun o ho => hfree o (by simp [ho])

end Select

/-! ## Amounts and payees -/

/-- What is requested for a script. -/
def requested (vecSend : List (CScript × ℤ)) (script : CScript) : ℤ :=
  ((vecSend.filter fun s => decide (s.1 = script)).map Prod.snd).sum

/-- What the outputs pay to a script. -/
def paidTo (outs : List CTxOut) (script : CScript) : ℤ :=
  ((outs.filter fun out => decide (out.scriptPubKey = script)).map CTxOut.nValue).sum

section Payees

theorem paidTo_append (a b : List CTxOut) (script : CScript) :
    paidTo (a ++ b) script = paidTo a script + paidTo b script := by
  unfold paidTo
  rw [List.filter_append, List.map_append, List.sum_append]

theorem requested_cons (s : CScript × ℤ) (rest : List (CScript × ℤ)) (script : CScript) :
    requested (s :: rest) script = (if s.1 = script then s.2 else 0) + requested rest script := by
  unfold requested
  by_cases h : s.1 = script
  · rw [List.filter_cons_of_pos (by simpa using h), List.map_cons, List.sum_cons, if_pos h]
  · rw [List.filter_cons_of_neg (by simpa using h), if_neg h, zero_add]

/-- The outputs of a request pay each of its payments. -/
structure PaysOut (vecSend : List (CScript × ℤ)) (vout : List CTxOut) : Prop where
  scripts : ∀ script, paidTo vout script = requested vecSend script
  total : (vout.map CTxOut.nValue).sum = (vecSend.map Prod.snd).sum
  nonneg : ∀ out ∈ vout, 0 ≤ out.nValue

theorem PaysOut.nil : PaysOut [] [] := ⟨fun _ => rfl, rfl, by simp⟩

theorem PaysOut.cons {vecSend : List (CScript × ℤ)} {vout : List CTxOut} {s : CScript × ℤ}
    (h : PaysOut vecSend vout) (outs : List CTxOut) (hscript : ∀ out ∈ outs, out.scriptPubKey = s.1)
    (hsum : (outs.map CTxOut.nValue).sum = s.2) (hnonneg : ∀ out ∈ outs, 0 ≤ out.nValue) :
    PaysOut (s :: vecSend) (outs ++ vout) := by
  refine ⟨fun script => ?_, ?_, fun out hout => ?_⟩
  · rw [paidTo_append, requested_cons, h.scripts]
    congr 1
    unfold paidTo
    by_cases heq : s.1 = script
    · rw [List.filter_eq_self.2 fun out hout => decide_eq_true ((hscript out hout).trans heq),
        hsum, if_pos heq]
    · rw [List.filter_eq_nil_iff.2 fun out hout => by rw [hscript out hout]; simpa using heq,
        if_neg heq]
      rfl
  · rw [List.map_append, List.sum_append, hsum, h.total, List.map_cons, List.sum_cons]
  · rw [List.mem_append] at hout
    exact hout.elim (hnonneg out) (h.nonneg out)

/-- The outputs of a payment that is split into `n + 1` parts. -/
theorem splitPayment_succ (n : ℕ) {s : CScript × ℤ} (hs : 0 ≤ s.2) (hs' : s.2 < 2 ^ 63) :
    splitPayment (n + 1) s = List.replicate n ⟨s.2.tdiv (n + 1), s.1, -10⟩ ++
      [⟨s.2.tdiv (n + 1) + s.2.tmod (n + 1), s.1, -10⟩] := by
  have hdiv : 0 ≤ s.2.tdiv (n + 1) := Int.tdiv_nonneg hs (by omega)
  have hmod : 0 ≤ s.2.tmod (n + 1) := Int.tmod_nonneg _ hs
  have hle : s.2.tdiv (n + 1) + s.2.tmod (n + 1) ≤ s.2 := by
    have hsplit := Int.mul_tdiv_add_tmod s.2 (n + 1)
    nlinarith
  have hlast : wrap64 (s.2.tdiv (n + 1) + s.2.tmod (n + 1) % 2 ^ 64) =
      s.2.tdiv (n + 1) + s.2.tmod (n + 1) := by
    rw [Int.emod_eq_of_lt hmod (by omega)]
    exact wrap64_of_lt (by omega) (by omega)
  have hnat : ((n : ℤ) + 1).toNat = n + 1 := by omega
  unfold splitPayment
  rw [hnat, List.range_succ, List.map_append, List.map_singleton, if_pos (by omega), hlast]
  congr 1
  refine List.eq_replicate_iff.2 ⟨by simp, fun out hout => ?_⟩
  obtain ⟨i, hi, rfl⟩ := List.mem_map.1 hout
  rw [List.mem_range] at hi
  rw [if_neg (by omega)]

theorem PaysOut.split {nSplitBlock : ℤ} (hn : 1 ≤ nSplitBlock) {vecSend : List (CScript × ℤ)}
    (hamounts : ∀ s ∈ vecSend, 0 ≤ s.2 ∧ s.2 < 2 ^ 63) :
    PaysOut vecSend (vecSend.flatMap (splitPayment nSplitBlock)) := by
  obtain ⟨n, rfl⟩ : ∃ n : ℕ, nSplitBlock = n + 1 := ⟨(nSplitBlock - 1).toNat, by omega⟩
  induction vecSend with
  | nil => exact PaysOut.nil
  | cons s rest ih =>
    obtain ⟨hs, hs'⟩ := hamounts s (by simp)
    have hdiv : 0 ≤ s.2.tdiv (n + 1) := Int.tdiv_nonneg hs (by omega)
    have hmod : 0 ≤ s.2.tmod (n + 1) := Int.tmod_nonneg _ hs
    have hmem : ∀ out ∈ splitPayment (n + 1) s, out.scriptPubKey = s.1 ∧ 0 ≤ out.nValue := by
      rw [splitPayment_succ n hs hs']
      intro out hout
      rw [List.mem_append, List.mem_singleton] at hout
      rcases hout with hout | rfl
      · rw [List.eq_of_mem_replicate hout]
        exact ⟨rfl, hdiv⟩
      · exact ⟨rfl, by show 0 ≤ _ + _; omega⟩
    rw [List.flatMap_cons]
    refine (ih fun t ht => hamounts t (by simp [ht])).cons _ (fun out hout => (hmem out hout).1) ?_
      fun out hout => (hmem out hout).2
    rw [splitPayment_succ n hs hs', List.map_append, List.map_replicate, List.sum_append,
      List.sum_replicate, List.map_singleton, List.sum_singleton, nsmul_eq_mul]
    show (n : ℤ) * s.2.tdiv (n + 1) + (s.2.tdiv (n + 1) + s.2.tmod (n + 1)) = s.2
    have hsplit := Int.mul_tdiv_add_tmod s.2 (n + 1)
    linarith [hsplit, add_mul (n : ℤ) 1 (s.2.tdiv (n + 1))]

theorem PaysOut.listed {vecSend : List (CScript × ℤ)} (hamounts : ∀ s ∈ vecSend, 0 ≤ s.2) :
    PaysOut vecSend (vecSend.map fun s => ⟨s.2, s.1, -10⟩) := by
  induction vecSend with
  | nil => exact PaysOut.nil
  | cons s rest ih =>
    have h := (ih fun t ht => hamounts t (by simp [ht])).cons (s := s)
      [⟨s.2, s.1, -10⟩] (by simp) (by simp) (by simpa using hamounts s (by simp))
    exact h

/-- No outputs for payments of nothing. -/
theorem PaysOut.zero {vecSend : List (CScript × ℤ)} (hamounts : ∀ s ∈ vecSend, s.2 = 0) :
    PaysOut vecSend [] := by
  induction vecSend with
  | nil => exact PaysOut.nil
  | cons s rest ih =>
    have h := (ih fun t ht => hamounts t (by simp [ht])).cons (s := s) []
      (by simp) (by simpa using (hamounts s (by simp)).symm) (by simp)
    exact h

end Payees

/-! ## A round -/

/-- A wallet: its coins, which have the transactions that their hashes stand for. -/
structure WalletView.Sound (net : Network) (w : WalletView) : Prop where
  coins : WalletCoins net w.vCoins
  named : ∀ a ∈ w.vCoins, ∀ b ∈ w.vCoins, a.coin.tx.hash = b.coin.tx.hash → a.coin.tx = b.coin.tx

/-- **A transaction that pays.**  It spends coins of the wallet, none of them twice; besides at most
one output with the change, its outputs pay what was requested for each script; no output is
negative; what is not paid out is the fee, and the fee does unless the transaction is free. -/
structure Pays (req : Request) (policy : FeePolicy) (w : WalletView) (free : CreatedTx → Prop)
    (tx : CreatedTx) : Prop where
  inputs : ∃ coins : List WalletCoin, (∀ c ∈ coins, ∃ out ∈ w.vCoins, out.coin = c) ∧
    tx.vin.map CTxIn.prevout = coins.map (fun c => ⟨c.tx.hash, c.i⟩) ∧
    (coins.map WalletCoin.value).sum - (tx.vout.map CTxOut.nValue).sum = tx.nFeeRet
  distinct : (tx.vin.map CTxIn.prevout).Nodup
  payees : ∃ payees change, tx.vout.Perm (payees ++ change) ∧ change.length ≤ 1 ∧
    ∀ script, paidTo payees script = requested req.vecSend script
  nonneg : ∀ out ∈ tx.vout, 0 ≤ out.nValue
  fee : req.feeNeeded policy (serializedBytes tx.vin tx.vout) ≤ tx.nFeeRet ∨ free tx

section Round

variable {net : Network} {req : Request} {policy : FeePolicy} {w : WalletView} {rc : RoundChoices}

end Round

/-! ## The loop -/

section Loop

variable {net : Network} {req : Request} {policy : FeePolicy} {w : WalletView}
  {rounds : ℕ → RoundChoices}

theorem Pays.mono {free free' : CreatedTx → Prop} {tx : CreatedTx} (h : Pays req policy w free tx)
    (hfree : free tx → free' tx) : Pays req policy w free' tx :=
  ⟨h.inputs, h.distinct, h.payees, h.nonneg, h.fee.imp_right hfree⟩

end Loop

namespace CreateExample

open SelectionExample

/-- A policy without fees. -/
def policy : FeePolicy where
  payTxFee := ⟨0⟩
  fPayAtLeastCustomFee := true
  estimateFee := ⟨0⟩
  minTxFee := ⟨0⟩
  minRelayTxFee := ⟨0⟩
  maxTxFee := 0
  fSendFreeTransactions := false

/-- A wallet with one coin. -/
def wallet : WalletView where
  vCoins := [out 1 (5 * coin)]
  isFromMe := fun _ => false
  bSpendZeroConfChange := true
  getInputObfuscationRounds := fun _ => 0
  nObfuscationRounds := 2
  roomInDoubles := fun n target => decide (n < target + 10000100)

/-- Choices that are the same in every round. -/
def rounds (_ : ℕ) : RoundChoices where
  selection := fun _ => choices
  order := id
  order_perm := fun coins => List.Perm.refl coins
  changePosition := 0
  reservedKey := some [0x52]
  sign := fun _ _ _ => some [1, 1]
  priorityEnough := fun _ _ => false

/-- A request for one coin. -/
def payment : Request where
  vecSend := [([0x51], coin)]

/-- The same, to be split into no outputs. -/
def splitPayment : Request where
  vecSend := [([0x51], coin)]
  coinControl := some { fSplitBlock := true, nSplitBlock := 0 }

end CreateExample

end FairCoin
