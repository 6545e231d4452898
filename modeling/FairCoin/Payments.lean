import FairCoin.Params

/-!
# Block rewards and masternode payments

`GetBlockValue` and `GetMasternodePayment` of `src/main.cpp`, and the payment
tables of `src/masternode-payments.cpp`: which script the masternode votes select
for a block (`CMasternodeBlockPayees.getPayee`), and whether a reward transaction
pays it (`CMasternodeBlockPayees.isTransactionValid`).

* `getBlockValue_two_le`, `getBlockValue_le_of_le` — the emission schedule: the
  premine at height one, then a value that never rises on the heights where the
  halving count fits a shift.
* `CMasternodeBlockPayees.getPayee_spec` — the payee has the most votes.
* `CMasternodeBlockPayees.isTransactionValid_of_pays` — a transaction that pays the
  selected payee enough is valid.
-/

namespace FairCoin

/-! ## Emission -/

/-- `GetBlockValue`.  A shift count of 64 or more is undefined in the source's
language; the machine instruction takes the count modulo 64, and so does this. -/
def getBlockValue (nHeight : ℤ) : ℤ :=
  if nHeight = 1 then 5000000 * coin
  else
    let halvings := nHeight.tdiv 525600
    let nSubsidy := 10 * coin / 2 ^ (halvings % 64).toNat
    if nSubsidy < 125000000 then 125000000 else nSubsidy

/-- `GetMasternodePayment`.  From height 9999999 on the source computes a share of
`blockValue` in floating point from the money supply and the masternode count;
`seesaw blockValue nMasternodeCount` stands for it. -/
def getMasternodePayment (net : Network) (seesaw : ℤ → ℤ → ℤ) (nHeight blockValue : ℤ)
    (nMasternodeCount : ℤ := 0) : ℤ :=
  if net = .testnet ∧ nHeight < 200 then 0
  else if nHeight ≤ 9999998 then blockValue.tdiv 2
  else seesaw blockValue nMasternodeCount

theorem getBlockValue_one : getBlockValue 1 = 5000000 * coin := rfl

theorem getBlockValue_bounds {h : ℤ} (h1 : h ≠ 1) :
    125000000 ≤ getBlockValue h ∧ getBlockValue h ≤ 10 * coin := by
  have hdiv : 10 * coin / 2 ^ (h.tdiv 525600 % 64).toNat ≤ 10 * coin := by
    refine Int.ediv_le_self _ ?_
    decide
  have hc : (125000000 : ℤ) ≤ 10 * coin := by decide
  simp only [getBlockValue, if_neg h1]
  split <;> constructor <;> omega

theorem getBlockValue_pos (h : ℤ) : 0 < getBlockValue h := by
  by_cases h1 : h = 1
  · subst h1; decide
  · have := (getBlockValue_bounds h1).1
    omega

theorem getBlockValue_le (h : ℤ) : getBlockValue h ≤ 5000000 * coin := by
  by_cases h1 : h = 1
  · subst h1; decide
  · have hb := (getBlockValue_bounds h1).2
    have hc : 10 * coin ≤ 5000000 * coin := by decide
    omega

/-- Past the premine and as long as the halving count is a shift count, a later
block is worth no more than an earlier one. -/
theorem getBlockValue_anti {a b : ℤ} (ha : 0 ≤ a) (hab : a ≤ b) (hb : b < 64 * 525600)
    (hb1 : b ≠ 1) : getBlockValue b ≤ getBlockValue a := by
  by_cases ha1 : a = 1
  · rw [ha1, getBlockValue_one]
    exact getBlockValue_le b
  have htd : ∀ x : ℤ, 0 ≤ x → x < 64 * 525600 → (x.tdiv 525600 % 64).toNat = (x / 525600).toNat := by
    intro x h0 hx
    have hx' : x.tdiv 525600 = x / 525600 := Int.tdiv_eq_ediv_of_nonneg h0
    rw [hx']
    congr 1
    omega
  have hpow : (2 : ℤ) ^ (a / 525600).toNat ≤ 2 ^ (b / 525600).toNat := by
    refine pow_le_pow_right₀ (by norm_num) ?_
    have := Int.ediv_le_ediv (by norm_num : (0 : ℤ) < 525600) hab
    omega
  have hle : 10 * coin / 2 ^ (b / 525600).toNat ≤ 10 * coin / 2 ^ (a / 525600).toNat :=
    Int.le_ediv_of_mul_le (by positivity) <|
      (Int.mul_le_mul_of_nonneg_left hpow (Int.ediv_nonneg (by decide) (by positivity))).trans
        (Int.ediv_mul_le _ (by positivity))
  simp only [getBlockValue, if_neg ha1, if_neg hb1, htd a ha (lt_of_le_of_lt hab hb),
    htd b (ha.trans hab) hb]
  split <;> split <;> omega

/-! ## Payment votes -/

/-- `CMasternodePayee`. -/
structure CMasternodePayee where
  scriptPubKey : CScript
  nVotes : ℤ
  deriving DecidableEq, Repr

/-- `CMasternodeBlockPayees`: the votes for the payee of one block. -/
structure CMasternodeBlockPayees where
  nBlockHeight : ℤ
  vecPayments : List CMasternodePayee := []
  deriving DecidableEq, Repr

/-- `MNPAYMENTS_SIGNATURES_REQUIRED`. -/
def mnpaymentsSignaturesRequired : ℤ := 6

namespace CMasternodeBlockPayees

/-- `CMasternodeBlockPayees::AddPayee`. -/
def addPayee (b : CMasternodeBlockPayees) (payeeIn : CScript) (nIncrement : ℤ) :
    CMasternodeBlockPayees :=
  let rec go : List CMasternodePayee → List CMasternodePayee
    | [] => [⟨payeeIn, nIncrement⟩]
    | p :: ps =>
        if p.scriptPubKey = payeeIn then { p with nVotes := p.nVotes + nIncrement } :: ps
        else p :: go ps
  { b with vecPayments := go b.vecPayments }

/-- The loop of `CMasternodeBlockPayees::GetPayee`: the payee so far and its votes. -/
def getPayeeLoop (best : CScript × ℤ) : List CMasternodePayee → CScript × ℤ
  | [] => best
  | p :: ps => getPayeeLoop (if best.2 < p.nVotes then (p.scriptPubKey, p.nVotes) else best) ps

/-- `CMasternodeBlockPayees::GetPayee`. -/
def getPayee (b : CMasternodeBlockPayees) : Option CScript :=
  let best := getPayeeLoop ([], -1) b.vecPayments
  if -1 < best.2 then some best.1 else none

/-- The masternode counts `CMasternodeBlockPayees::IsTransactionValid` reads, with
the spork that chooses between them. -/
structure MasternodeCounts where
  paymentEnforcement : Bool
  stableSize : ℤ
  size : ℤ
  deriving DecidableEq, Repr

/-- The payment a block at `nBlockHeight` must make. -/
def requiredMasternodePayment (net : Network) (seesaw : ℤ → ℤ → ℤ) (counts : MasternodeCounts)
    (nBlockHeight : ℤ) : ℤ :=
  let nMasternode_Drift_Count :=
    if counts.paymentEnforcement then counts.stableSize + net.masternodeCountDrift
    else counts.size + net.masternodeCountDrift
  getMasternodePayment net seesaw nBlockHeight (getBlockValue nBlockHeight)
    nMasternode_Drift_Count

/-- The loop that finds the largest number of votes, counting only payees with
enough signatures. -/
def maxSignatures (nMaxSignatures : ℤ) : List CMasternodePayee → ℤ
  | [] => nMaxSignatures
  | p :: ps =>
      maxSignatures
        (if nMaxSignatures ≤ p.nVotes ∧ mnpaymentsSignaturesRequired ≤ p.nVotes then p.nVotes
         else nMaxSignatures) ps

/-- `CMasternodeBlockPayees::IsTransactionValid`: some payee with enough votes is
paid enough, or no payee has enough votes. -/
def isTransactionValid (net : Network) (seesaw : ℤ → ℤ → ℤ) (counts : MasternodeCounts)
    (b : CMasternodeBlockPayees) (txNew : CTransaction) : Bool :=
  let required := requiredMasternodePayment net seesaw counts b.nBlockHeight
  if maxSignatures 0 b.vecPayments < mnpaymentsSignaturesRequired then true
  else b.vecPayments.any fun p =>
    decide (mnpaymentsSignaturesRequired ≤ p.nVotes) &&
      txNew.vout.any fun o => o.scriptPubKey == p.scriptPubKey && decide (required ≤ o.nValue)

theorem getPayeeLoop_le (best : CScript × ℤ) (ps : List CMasternodePayee) :
    best.2 ≤ (getPayeeLoop best ps).2 ∧ ∀ p ∈ ps, p.nVotes ≤ (getPayeeLoop best ps).2 := by
  induction ps generalizing best with
  | nil => exact ⟨le_rfl, fun p hp => absurd hp (by simp)⟩
  | cons q qs ih =>
    obtain ⟨h₁, h₂⟩ := ih (if best.2 < q.nVotes then (q.scriptPubKey, q.nVotes) else best)
    simp only [getPayeeLoop, List.mem_cons, forall_eq_or_imp]
    refine ⟨?_, ?_, h₂⟩
    · refine le_trans ?_ h₁
      split_ifs with hq
      · exact hq.le
      · exact le_rfl
    · refine le_trans ?_ h₁
      split_ifs with hq
      · exact le_rfl
      · exact not_lt.1 hq

theorem getPayeeLoop_mem (best : CScript × ℤ) (ps : List CMasternodePayee) :
    getPayeeLoop best ps = best ∨
      ∃ p ∈ ps, getPayeeLoop best ps = (p.scriptPubKey, p.nVotes) := by
  induction ps generalizing best with
  | nil => exact Or.inl rfl
  | cons q qs ih =>
    rcases ih (if best.2 < q.nVotes then (q.scriptPubKey, q.nVotes) else best) with h | ⟨p, hp, h⟩
    · by_cases hq : best.2 < q.nVotes
      · rw [if_pos hq] at h
        exact Or.inr ⟨q, by simp, by rw [getPayeeLoop, if_pos hq, h]⟩
      · rw [if_neg hq] at h
        exact Or.inl (by rw [getPayeeLoop, if_neg hq, h])
    · exact Or.inr ⟨p, by simp [hp], by rw [getPayeeLoop, h]⟩

/-- **The payee has the most votes.** -/
theorem getPayee_spec {b : CMasternodeBlockPayees} {payee : CScript}
    (h : b.getPayee = some payee) :
    ∃ p ∈ b.vecPayments, p.scriptPubKey = payee ∧ ∀ q ∈ b.vecPayments, q.nVotes ≤ p.nVotes := by
  simp only [getPayee] at h
  split at h
  · next hv =>
    cases h
    rcases getPayeeLoop_mem ([], -1) b.vecPayments with he | ⟨p, hp, he⟩
    · rw [he] at hv
      exact absurd hv (lt_irrefl _)
    · refine ⟨p, hp, by rw [he], fun q hq => ?_⟩
      have := (getPayeeLoop_le ([], -1) b.vecPayments).2 q hq
      rwa [he] at this
  · exact absurd h (by simp)

theorem getPayee_eq_none {b : CMasternodeBlockPayees} (h : b.getPayee = none) :
    ∀ p ∈ b.vecPayments, p.nVotes ≤ -1 := by
  simp only [getPayee] at h
  split at h
  · exact absurd h (by simp)
  · next hv =>
    intro p hp
    have := (getPayeeLoop_le ([], -1) b.vecPayments).2 p hp
    omega

/-- The largest vote counted is either the starting value or that of a payee with
enough signatures. -/
theorem maxSignatures_mem (n : ℤ) (ps : List CMasternodePayee) :
    maxSignatures n ps = n ∨ ∃ p ∈ ps, mnpaymentsSignaturesRequired ≤ p.nVotes := by
  induction ps generalizing n with
  | nil => exact Or.inl rfl
  | cons q qs ih =>
    rw [maxSignatures]
    split
    · next h => exact Or.inr ⟨q, by simp, h.2⟩
    · rcases ih n with h | ⟨p, hp, hpv⟩
      · exact Or.inl h
      · exact Or.inr ⟨p, by simp [hp], hpv⟩

/-- **Paying the selected payee is enough.** -/
theorem isTransactionValid_of_pays {net : Network} {seesaw : ℤ → ℤ → ℤ}
    {counts : MasternodeCounts} {b : CMasternodeBlockPayees} {txNew : CTransaction}
    (h : ∀ payee, b.getPayee = some payee → ∃ o ∈ txNew.vout, o.scriptPubKey = payee ∧
      requiredMasternodePayment net seesaw counts b.nBlockHeight ≤ o.nValue) :
    isTransactionValid net seesaw counts b txNew = true := by
  unfold isTransactionValid
  simp only
  split
  · rfl
  · next hmax =>
    rcases maxSignatures_mem 0 b.vecPayments with h0 | ⟨q, hq, hqv⟩
    · rw [h0] at hmax
      exact absurd (by decide) hmax
    cases hp : b.getPayee with
    | none =>
      have := getPayee_eq_none hp q hq
      simp only [mnpaymentsSignaturesRequired] at hqv
      omega
    | some payee =>
      obtain ⟨p, hpm, hps, hpmax⟩ := getPayee_spec hp
      obtain ⟨o, ho, hos, hov⟩ := h payee hp
      refine List.any_eq_true.2 ⟨p, hpm, ?_⟩
      rw [Bool.and_eq_true, decide_eq_true_iff]
      refine ⟨hqv.trans (hpmax q hq), List.any_eq_true.2 ⟨o, ho, ?_⟩⟩
      rw [Bool.and_eq_true, decide_eq_true_iff, beq_iff_eq]
      exact ⟨by rw [hos, hps], hov⟩

end CMasternodeBlockPayees

/-- `CMasternodePayments`: the votes of every height.  The table of a height is
filed under that height, as `AddWinningMasternode` does. -/
structure CMasternodePayments where
  mapMasternodeBlocks : ℤ → Option CMasternodeBlockPayees
  filed : ∀ h b, mapMasternodeBlocks h = some b → b.nBlockHeight = h

namespace CMasternodePayments

/-- `CMasternodePayments::GetBlockPayee`. -/
def getBlockPayee (m : CMasternodePayments) (nBlockHeight : ℤ) : Option CScript :=
  (m.mapMasternodeBlocks nBlockHeight).bind CMasternodeBlockPayees.getPayee

/-- `CMasternodePayments::IsTransactionValid`. -/
def isTransactionValid (net : Network) (seesaw : ℤ → ℤ → ℤ)
    (counts : CMasternodeBlockPayees.MasternodeCounts) (m : CMasternodePayments)
    (txNew : CTransaction) (nBlockHeight : ℤ) : Bool :=
  match m.mapMasternodeBlocks nBlockHeight with
  | some b => b.isTransactionValid net seesaw counts txNew
  | none => true

/-- No votes at all. -/
def empty : CMasternodePayments := ⟨fun _ => none, fun _ _ h => absurd h (by simp)⟩

end CMasternodePayments

/-- What block production and block validation read of the payment tables.
`superblocks` is whether `SPORK_13_ENABLE_SUPERBLOCKS` is active, and
`isBudgetPaymentBlock` the height test of the budget manager. -/
structure PaymentTables where
  network : Network
  seesaw : ℤ → ℤ → ℤ
  counts : CMasternodeBlockPayees.MasternodeCounts
  payments : CMasternodePayments
  superblocks : Bool
  isBudgetPaymentBlock : ℤ → Bool

end FairCoin
