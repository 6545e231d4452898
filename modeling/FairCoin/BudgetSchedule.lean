import FairCoin.BudgetVotes
import FairCoin.PaymentFile
import FairCoin.Superblock

/-!
# What a cycle may pay, and which cycles a proposal asks for

The schedule of `src/masternode-budget.cpp`: the amount of a cycle (`GetTotalBudget`), the heights
of a proposal (`CBudgetProposalBroadcast`, `GetTotalPaymentCount`) and the checks of a finalized
budget that comes from the network (`CFinalizedBudget::IsValid`).

* `totalBudget_le_tenth_iff` — **a tenth of the coins created** bounds the budget of a cycle only
  between heights 172800 and 302400, where the budget is zero.
* `proposal_cycles_iff` — **a proposal is paid for the cycles it asked for** as long as its last
  height fits an `int`.
* `finalizedBudget_paysWithin_iff` — **a finalized budget that is accepted** pays within the budget
  exactly when no amount is negative and the exact total fits an `int64_t`.
-/

namespace FairCoin

open Store

/-! ## The amount of a cycle -/

/-- The subsidy `GetTotalBudget` computes with. -/
def budgetSubsidy (net : Network) (nHeight : ℤ) : ℤ :=
  if nHeight ≤ net.lastPowBlock ∧ 2000 ≤ nHeight then 50 * coin
  else if nHeight ≤ 172000 ∧ net.lastPowBlock < nHeight then 45 * coin
  else if nHeight ≤ 345599 ∧ 302400 ≤ nHeight then 42 * coin
  else if nHeight ≤ 388799 ∧ 345600 ≤ nHeight then 40 * coin
  else if nHeight ≤ 431999 ∧ 388800 ≤ nHeight then 39 * coin
  else if nHeight ≤ 475199 ∧ 432000 ≤ nHeight then 38 * coin
  else if nHeight ≤ 518399 ∧ 475200 ≤ nHeight then 38 * coin
  else if nHeight ≤ 561599 ∧ 518400 ≤ nHeight then 37 * coin
  else if nHeight ≤ 604799 ∧ 561600 ≤ nHeight then 36 * coin
  else if nHeight ≤ 647999 ∧ 604800 ≤ nHeight then 35 * coin
  else if 648000 ≤ nHeight then 35 * coin
  else 0 * coin

/-- `CBudgetManager::GetTotalBudget`; `tip` is the height of the tip, when there is one. -/
def getTotalBudget (net : Network) (tip : Option ℤ) (nHeight : ℤ) : ℤ :=
  match tip with
  | none => 0
  | some _ =>
      if net = .testnet then (500 * coin).tdiv 100 * 10 * 146
      else if nHeight ≤ 172800 then 648000 * coin
      else (budgetSubsidy net nHeight).tdiv 100 * 10 * 1440 * 30

theorem getTotalBudget_main (t nHeight : ℤ) : getTotalBudget .main (some t) nHeight =
    if nHeight ≤ 172800 then 648000 * coin
    else (budgetSubsidy .main nHeight).tdiv 100 * 10 * 1440 * 30 := by
  unfold getTotalBudget
  rw [if_neg (by decide)]

/-- The subsidy is at most 50 coins. -/
theorem budgetSubsidy_bounds (net : Network) (nHeight : ℤ) :
    0 ≤ budgetSubsidy net nHeight ∧ budgetSubsidy net nHeight ≤ 5000000000 := by
  unfold budgetSubsidy
  constructor
  · repeat refine iteInduction (motive := (0 ≤ ·)) (fun _ => by decide) fun _ => ?_
    decide
  · repeat refine iteInduction (motive := (· ≤ 5000000000)) (fun _ => by decide) fun _ => ?_
    decide

/-- Past height 302400 the subsidy is at least 35 coins. -/
theorem le_budgetSubsidy (net : Network) {nHeight : ℤ} (h : 302400 ≤ nHeight) :
    3500000000 ≤ budgetSubsidy net nHeight := by
  have hpow : net.lastPowBlock ≤ 10000 := by cases net <;> decide
  unfold budgetSubsidy
  repeat refine iteInduction (fun _ => by first | decide | omega) fun _ => ?_
  omega

theorem budgetSubsidy_eq_zero {net : Network} {nHeight : ℤ} (h₁ : 172800 < nHeight)
    (h₂ : nHeight < 302400) : budgetSubsidy net nHeight = 0 := by
  have hpow : net.lastPowBlock ≤ 10000 := by cases net <;> decide
  unfold budgetSubsidy
  repeat rw [if_neg (by omega)]
  rfl

/-- No cycle has more than 648000 coins. -/
theorem getTotalBudget_bounds (net : Network) (tip : Option ℤ) (nHeight : ℤ) :
    0 ≤ getTotalBudget net tip nHeight ∧ getTotalBudget net tip nHeight ≤ 648000 * coin := by
  unfold getTotalBudget
  split
  · exact ⟨le_rfl, by decide⟩
  · split
    · decide
    · split
      · exact ⟨by decide, le_rfl⟩
      · obtain ⟨hlo, hhi⟩ := budgetSubsidy_bounds net nHeight
        rw [Int.tdiv_eq_ediv_of_nonneg hlo]
        unfold coin
        omega

/-! ## A tenth of the coins created -/

/-- The coins created by the blocks of the cycle that starts at a height. -/
def cycleValue (net : Network) (nHeight : ℤ) : ℤ :=
  ∑ i ∈ Finset.range net.budgetPaymentCycleBlocks.toNat, getBlockValue (nHeight + i)

theorem cycleValue_nonneg (net : Network) (h : ℤ) : 0 ≤ cycleValue net h :=
  Finset.sum_nonneg fun _ _ => (getBlockValue_pos _).le

/-- A cycle creates at most ten coins per block, and the premine. -/
theorem cycleValue_le (net : Network) (h : ℤ) :
    cycleValue net h ≤ 10 * coin * net.budgetPaymentCycleBlocks.toNat + 5000000 * coin := by
  have hterm : ∀ i ∈ Finset.range net.budgetPaymentCycleBlocks.toNat, getBlockValue (h + (i : ℤ)) ≤
      10 * coin + if (1 - h).toNat = i then 5000000 * coin else 0 := by
    intro i _
    by_cases h1 : h + (i : ℤ) = 1
    · rw [h1, getBlockValue_one, if_pos (by omega)]
      exact le_add_of_nonneg_left (by decide)
    · have hle := (getBlockValue_bounds h1).2
      split
      · exact le_add_of_le_of_nonneg hle (by decide)
      · rwa [add_zero]
  refine (Finset.sum_le_sum hterm).trans ?_
  rw [Finset.sum_add_distrib, Finset.sum_const, Finset.card_range, Finset.sum_ite_eq]
  refine add_le_add (by rw [nsmul_eq_mul, mul_comm]) ?_
  split
  · exact le_rfl
  · decide

/-- After the premine a cycle creates at most ten coins per block. -/
theorem cycleValue_le_of_lt (net : Network) {h : ℤ} (h1 : 1 < h) :
    cycleValue net h ≤ 10 * coin * net.budgetPaymentCycleBlocks.toNat := by
  refine (Finset.sum_le_card_nsmul _ _ (10 * coin) fun i _ => ?_).trans ?_
  · exact (getBlockValue_bounds (by omega)).2
  · rw [Finset.card_range, nsmul_eq_mul, mul_comm]

/-- **The budget and the coins created.**  On the main network the budget of a cycle is at most a
tenth of the coins its blocks create if and only if there is no tip, or the cycle starts above
height 172800 and below 302400. -/
theorem totalBudget_le_tenth_iff (tip : Option ℤ) (h : ℤ) :
    10 * getTotalBudget .main tip h ≤ cycleValue .main h ↔
      tip = none ∨ (172800 < h ∧ h < 302400) := by
  have hblocks : (Network.main.budgetPaymentCycleBlocks.toNat : ℤ) = 43200 := rfl
  cases tip with
  | none =>
    simp only [getTotalBudget, mul_zero, true_or, iff_true]
    exact cycleValue_nonneg _ h
  | some t =>
    simp only [getTotalBudget_main, reduceCtorEq, false_or]
    constructor
    · intro hle
      by_contra hout
      by_cases hlow : h ≤ 172800
      · rw [if_pos hlow] at hle
        have := cycleValue_le .main h
        rw [hblocks] at this
        unfold coin at hle this
        omega
      · have hhigh : 302400 ≤ h := by omega
        have hsub := le_budgetSubsidy .main hhigh
        rw [if_neg hlow, Int.tdiv_eq_ediv_of_nonneg (by omega)] at hle
        have := cycleValue_le_of_lt .main (h := h) (by omega)
        rw [hblocks] at this
        unfold coin at this
        omega
    · rintro ⟨hlow, hhigh⟩
      rw [if_neg (by omega), budgetSubsidy_eq_zero hlow hhigh, Int.zero_tdiv]
      simpa using cycleValue_nonneg .main h

/-- At the first cycle of the main network the budget is 648000 coins, more than a tenth of what
its blocks create. -/
theorem totalBudget_above_tenth :
    getTotalBudget .main (some 0) 0 = 648000 * coin ∧
      ¬10 * getTotalBudget .main (some 0) 0 ≤ cycleValue .main 0 := by
  refine ⟨rfl, fun hle => ?_⟩
  have hmost := cycleValue_le .main 0
  have htotal : getTotalBudget .main (some 0) 0 = 64800000000000 := rfl
  have hbound : 10 * coin * Network.main.budgetPaymentCycleBlocks.toNat + 5000000 * coin =
      543200000000000 := rfl
  omega

/-! ## The cycles of a proposal -/

/-- The constructor of `CBudgetProposalBroadcast`, with the end of the proposal computed in an
`int`. -/
def CBudgetProposal.broadcast (net : Network) (strProposalName strURL : String) (nPaymentCount : ℤ)
    (address : CScript) (nAmount nBlockStart : ℤ) (nFeeTXHash : UInt256) : CBudgetProposal :=
  let nCycleStart := nBlockStart - nBlockStart.tmod net.budgetPaymentCycleBlocks
  { strProposalName := strProposalName
    strURL := strURL
    nBlockStart := nBlockStart
    -- half a cycle more: the proposal is removed well after its last payment
    nBlockEnd := wrap32 (wrap32 (nCycleStart + wrap32 (net.budgetPaymentCycleBlocks * nPaymentCount)) +
      net.budgetPaymentCycleBlocks.tdiv 2)
    nAmount := nAmount
    address := address
    nFeeTXHash := nFeeTXHash }

namespace CBudgetProposal

variable (net : Network) (p : CBudgetProposal)

/-- `CBudgetProposal::GetBlockStartCycle`. -/
def getBlockStartCycle : ℤ := p.nBlockStart - p.nBlockStart.tmod net.budgetPaymentCycleBlocks

/-- `CBudgetProposal::GetBlockEndCycle`. -/
def getBlockEndCycle : ℤ := wrap32 (p.nBlockEnd - net.budgetPaymentCycleBlocks.tdiv 2)

/-- `CBudgetProposal::GetTotalPaymentCount`. -/
def getTotalPaymentCount : ℤ :=
  (wrap32 (p.getBlockEndCycle net - p.getBlockStartCycle net)).tdiv net.budgetPaymentCycleBlocks

/-- The period test of `CBudgetManager::GetBudget` for the cycle that starts at a height. -/
def coversCycle (nBlockStart : ℤ) : Bool :=
  decide (p.nBlockStart ≤ nBlockStart) &&
    decide (nBlockStart + net.budgetPaymentCycleBlocks - 1 ≤ p.nBlockEnd)

/-- The proposal covers the `n` cycles from its start on and no other, and it counts `n` payments. -/
structure PaidFor (n : ℤ) : Prop where
  cycles : ∀ c, net.budgetPaymentCycleBlocks ∣ c →
    (p.coversCycle net c = true ↔
      ∃ k, 0 ≤ k ∧ k < n ∧ c = p.nBlockStart + net.budgetPaymentCycleBlocks * k)
  count : p.getTotalPaymentCount net = n

end CBudgetProposal

theorem wrap32_of_lt {x : ℤ} (h₁ : -2147483648 ≤ x) (h₂ : x < 2147483648) : wrap32 x = x := by
  rw [wrap32, Int.bmod_eq_of_le] <;> omega

theorem wrap32_add_left (a b : ℤ) : wrap32 (wrap32 a + b) = wrap32 (a + b) := Int.bmod_add_bmod

theorem wrap32_add_right (a b : ℤ) : wrap32 (a + wrap32 b) = wrap32 (a + b) := Int.add_bmod_bmod

/-- A value above the range of an `int` wraps to less by 2^32 at least. -/
theorem wrap32_le {x : ℤ} (h : 2147483648 ≤ x) : wrap32 x ≤ x - 4294967296 := by
  unfold wrap32
  rw [Int.bmod_def]
  omega

/-- The last height of a proposal that starts on a boundary. -/
theorem nBlockEnd_broadcast {net : Network} {s : ℤ} (hs : net.budgetPaymentCycleBlocks ∣ s)
    (name url : String) (n : ℤ) (address : CScript) (nAmount : ℤ) (fee : UInt256) :
    (CBudgetProposal.broadcast net name url n address nAmount s fee).nBlockEnd =
      wrap32 (s + net.budgetPaymentCycleBlocks * n + net.budgetPaymentCycleBlocks.tdiv 2) := by
  show wrap32 (wrap32 (s - s.tmod net.budgetPaymentCycleBlocks +
    wrap32 (net.budgetPaymentCycleBlocks * n)) + net.budgetPaymentCycleBlocks.tdiv 2) = _
  rw [Int.tmod_eq_zero_of_dvd hs, sub_zero, wrap32_add_right, wrap32_add_left]

/-- **The cycles of a proposal.**  A proposal for `n` payments that starts on a cycle boundary is
covered for exactly `n` cycles from there on and counts `n` payments, if and only if its last height
fits an `int`. -/
theorem proposal_cycles_iff (net : Network) (name url : String) (n : ℤ) (address : CScript)
    (nAmount s : ℤ) (fee : UInt256) (hn : 1 ≤ n) (hstart : 0 ≤ s ∧ s < 2147483648)
    (hs : net.budgetPaymentCycleBlocks ∣ s) :
    (CBudgetProposal.broadcast net name url n address nAmount s fee).PaidFor net n ↔
      s + net.budgetPaymentCycleBlocks * n + net.budgetPaymentCycleBlocks.tdiv 2 < 2147483648 := by
  have hend := nBlockEnd_broadcast hs name url n address nAmount fee
  generalize hp : CBudgetProposal.broadcast net name url n address nAmount s fee = p at hend ⊢
  have hbegin : p.nBlockStart = s := by rw [← hp]; rfl
  -- the cycle has at least four blocks, so half a cycle is not a cycle less one
  obtain ⟨c, hc, hcycle, hhalf, hhalf'⟩ : ∃ c, net.budgetPaymentCycleBlocks = c ∧ 4 ≤ c ∧
      0 ≤ c.tdiv 2 ∧ c.tdiv 2 + 1 < c := by
    refine ⟨_, rfl, ?_⟩
    cases net <;> decide
  rw [hc] at hs hend ⊢
  have hcn : c ≤ c * n := le_mul_of_one_le_right (by omega) hn
  constructor
  · intro hpaid
    by_contra hbig
    have hle := wrap32_le (x := s + c * n + c.tdiv 2) (by omega)
    rw [← hend] at hle
    have hlast := (hpaid.cycles (s + c * (n - 1)) (by rw [hc]; exact hs.add (dvd_mul_right c _))).2
      ⟨n - 1, by omega, by omega, by rw [hbegin, hc]⟩
    simp only [CBudgetProposal.coversCycle, hc, Bool.and_eq_true, decide_eq_true_eq] at hlast
    have hcalc : s + c * (n - 1) + c - 1 = s + c * n - 1 := by ring
    rw [hcalc] at hlast
    have hsmall : c ≤ 43200 := by
      rw [← hc]
      cases net <;> decide
    omega
  · intro hfit
    rw [wrap32_of_lt (by omega) hfit] at hend
    constructor
    · intro b hb
      rw [hc] at hb
      simp only [CBudgetProposal.coversCycle, hc, Bool.and_eq_true, decide_eq_true_eq, hbegin, hend]
      obtain ⟨k, hk⟩ : c ∣ b - s := dvd_sub hb hs
      have hb' : b = s + c * k := by omega
      have hcpos : 0 < c := by omega
      constructor
      · rintro ⟨hlo, hhi⟩
        refine ⟨k, ?_, ?_, hb'⟩
        · have h0 : 0 ≤ c * k := by omega
          exact nonneg_of_mul_nonneg_right h0 hcpos
        · have hlt : c * k < c * n := by omega
          exact lt_of_mul_lt_mul_left hlt hcpos.le
      · rintro ⟨k', hk0, hkn, hb''⟩
        have hle : c * k' ≤ c * (n - 1) := mul_le_mul_of_nonneg_left (by omega) hcpos.le
        have h0 : 0 ≤ c * k' := mul_nonneg hcpos.le hk0
        rw [mul_sub, mul_one] at hle
        omega
    · have hstartCycle : p.getBlockStartCycle net = s := by
        rw [CBudgetProposal.getBlockStartCycle, hbegin, hc, Int.tmod_eq_zero_of_dvd hs, sub_zero]
      have hendCycle : p.getBlockEndCycle net = s + c * n := by
        rw [CBudgetProposal.getBlockEndCycle, hend, hc, add_sub_cancel_right,
          wrap32_of_lt (by omega) (by omega)]
      rw [CBudgetProposal.getTotalPaymentCount, hstartCycle, hendCycle, hc, add_sub_cancel_left,
        wrap32_of_lt (by omega) (by omega), Int.mul_tdiv_cancel_left _ (by omega)]

/-- Three monthly payments from height 86400 on. -/
theorem proposal_cycles_three :
    (CBudgetProposal.broadcast .main "road" "" 3 [0x52] (20 * coin) 86400 0xb1).PaidFor .main 3 :=
  (proposal_cycles_iff .main "road" "" 3 [0x52] (20 * coin) 86400 0xb1 (by decide) (by decide)
    (by decide)).2 (by decide)

/-- 99421 payments: the end wraps to a height before the end of the first cycle. -/
theorem proposal_end_wraps :
    (CBudgetProposal.broadcast .main "road" "" 99421 [0x52] (20 * coin) 43200 0xb1).nBlockEnd = 84704 ∧
      ¬(CBudgetProposal.broadcast .main "road" "" 99421 [0x52] (20 * coin) 43200 0xb1).PaidFor .main
        99421 := by
  have hend : (CBudgetProposal.broadcast .main "road" "" 99421 [0x52] (20 * coin) 43200 0xb1).nBlockEnd =
      84704 := by decide
  refine ⟨hend, fun h => ?_⟩
  have hfirst := (h.cycles 43200 (by decide)).2 ⟨0, by decide, by decide, by decide⟩
  simp only [CBudgetProposal.coversCycle, hend] at hfirst
  exact absurd hfirst (by decide)

/-! ## Finalized budgets from the network -/

/-- Return false with an error. -/
def failIf (c : Prop) [Decidable c] (strError : String) : Except String Unit :=
  if c then .error strError else .ok ()

theorem of_failIf_bind {c : Prop} [Decidable c] {strError : String}
    {k : Unit → Except String Unit} (h : (failIf c strError >>= k) = .ok ()) :
    ¬c ∧ k () = .ok () := by
  unfold failIf at h
  split at h
  · exact absurd h (by simp [bind, Except.bind])
  · next hc => exact ⟨hc, h⟩

namespace CFinalizedBudget

variable (b : CFinalizedBudget)

/-- `CFinalizedBudget::GetBlockEnd` in the integers of the source: the size is unsigned, and what
is taken from it is cast to an `int`. -/
def getBlockEndInt : ℤ := wrap32 (b.nBlockStart + wrap32 ((b.vecBudgetPayments.length : ℤ) - 1))

/-- `CFinalizedBudget::GetTotalPayout`. -/
def getTotalPayout : ℤ :=
  b.vecBudgetPayments.foldl (fun ret payment => wrap64 (ret + payment.nAmount)) 0

/-- `CFinalizedBudget::IsValid`; the error is `strError`, and `collateral` is what
`IsBudgetCollateralValid` says when it is asked. -/
def isValid (net : Network) (tip : Option ℤ) (fCheckCollateral : Bool)
    (collateral : Except String Unit) : Except String Unit := do
  failIf (b.nBlockStart.tmod net.budgetPaymentCycleBlocks ≠ 0) "Invalid BlockStart"
  failIf (100 < wrap32 (b.getBlockEndInt - b.nBlockStart)) "Invalid BlockEnd"
  failIf (100 < wrap32 b.vecBudgetPayments.length) "Invalid budget payments count (too many)"
  failIf (b.strBudgetName = "") "Invalid Budget Name"
  failIf (b.nBlockStart = 0) "Invalid BlockStart == 0"
  failIf (b.nFeeTXHash = 0) "Invalid FeeTx == 0"
  failIf (getTotalBudget net tip b.nBlockStart < b.getTotalPayout) "Invalid Payout (more than max)"
  if fCheckCollateral then collateral.mapError fun strError2 => "Invalid Collateral : " ++ strError2
  match tip with
  | none => pure ()
  | some nHeight => failIf (b.nBlockStart < nHeight - 100) "Older than current blockHeight"

/-- A budget that `fbs` has brought: the fields are the integers of the wire, and the vector has at
most `MAX_SIZE` elements. -/
structure Received : Prop where
  nBlockStart : -2147483648 ≤ b.nBlockStart ∧ b.nBlockStart < 2147483648
  nAmount : ∀ payment ∈ b.vecBudgetPayments,
    -9223372036854775808 ≤ payment.nAmount ∧ payment.nAmount < 9223372036854775808
  size : b.vecBudgetPayments.length ≤ maxSize

/-- The exact total of the payments. -/
def exactPayout : ℤ := (b.vecBudgetPayments.map CTxBudgetPayment.nAmount).sum

/-- The budget pays within what its cycle may pay: each payment, their exact total, at most a
hundred of them, and each of them at one height. -/
structure PaysWithin (net : Network) (tip : Option ℤ) : Prop where
  amount : ∀ payment ∈ b.vecBudgetPayments,
    0 ≤ payment.nAmount ∧ payment.nAmount ≤ getTotalBudget net tip b.nBlockStart
  total : b.exactPayout ≤ getTotalBudget net tip b.nBlockStart
  count : b.vecBudgetPayments.length ≤ 100
  due : ∀ (i : ℕ) payment, b.vecBudgetPayments[i]? = some payment →
    ∃! h, (b.nBlockStart ≤ h ∧ h ≤ b.getBlockEndInt) ∧ h - b.nBlockStart = i ∧
      b.getBudgetPaymentByBlock h = some payment

variable {b}

/-- The checks that bear on what the budget pays. -/
theorem of_isValid {net : Network} {tip : Option ℤ} {fCheckCollateral : Bool}
    {collateral : Except String Unit} (h : b.isValid net tip fCheckCollateral collateral = .ok ()) :
    net.budgetPaymentCycleBlocks ∣ b.nBlockStart ∧ wrap32 b.vecBudgetPayments.length ≤ 100 ∧
      b.getTotalPayout ≤ getTotalBudget net tip b.nBlockStart := by
  unfold isValid at h
  obtain ⟨hstart, h⟩ := of_failIf_bind h
  obtain ⟨-, h⟩ := of_failIf_bind h
  obtain ⟨hsize, h⟩ := of_failIf_bind h
  obtain ⟨-, h⟩ := of_failIf_bind h
  obtain ⟨-, h⟩ := of_failIf_bind h
  obtain ⟨-, h⟩ := of_failIf_bind h
  obtain ⟨hpay, -⟩ := of_failIf_bind h
  exact ⟨Int.dvd_of_tmod_eq_zero (not_not.1 hstart), not_lt.1 hsize, not_lt.1 hpay⟩

/-- The total of the source is the exact one, wrapped. -/
theorem getTotalPayout_eq : b.getTotalPayout = wrap64 b.exactPayout := by
  have hfold : ∀ (l : List CTxBudgetPayment) (x : ℤ),
      l.foldl (fun ret payment => wrap64 (ret + payment.nAmount)) (wrap64 x) =
        wrap64 (x + (l.map CTxBudgetPayment.nAmount).sum) := by
    intro l
    induction l with
    | nil => simp
    | cons a l ih =>
      intro x
      rw [List.foldl_cons, wrap64_add_left, ih, List.map_cons, List.sum_cons, add_assoc]
  have h := hfold b.vecBudgetPayments 0
  rw [zero_add] at h
  exact h

/-- A boundary of a cycle leaves room for a hundred heights in an `int`. -/
theorem getBlockEndInt_eq {net : Network} (hr : b.Received)
    (hstart : net.budgetPaymentCycleBlocks ∣ b.nBlockStart)
    (hsize : b.vecBudgetPayments.length ≤ 100) : b.getBlockEndInt = b.getBlockEnd := by
  obtain ⟨hlo, hhi⟩ := hr.nBlockStart
  have hdvd : (144 : ℤ) ∣ b.nBlockStart := dvd_trans (by cases net <;> decide) hstart
  unfold getBlockEndInt getBlockEnd
  rw [wrap32_of_lt (x := (b.vecBudgetPayments.length : ℤ) - 1) (by omega) (by omega)]
  exact wrap32_of_lt (by omega) (by omega)

/-- **What an accepted budget pays.**  A finalized budget from the network that `IsValid` accepts
pays within the budget of its cycle if and only if none of its amounts is negative and their exact
total is less than 2^63. -/
theorem paysWithin_iff {net : Network} {tip : Option ℤ} {fCheckCollateral : Bool}
    {collateral : Except String Unit} (hr : b.Received)
    (hvalid : b.isValid net tip fCheckCollateral collateral = .ok ()) :
    b.PaysWithin net tip ↔ (∀ payment ∈ b.vecBudgetPayments, 0 ≤ payment.nAmount) ∧
      b.exactPayout < 9223372036854775808 := by
  obtain ⟨hstart, hsize, hpay⟩ := of_isValid hvalid
  obtain ⟨hmin, hmax⟩ := getTotalBudget_bounds net tip b.nBlockStart
  have hcoins : (648000 * coin : ℤ) < 9223372036854775808 := by decide
  have hcount : b.vecBudgetPayments.length ≤ 100 := by
    have hlen := hr.size
    unfold maxSize at hlen
    rw [wrap32_of_lt (by omega) (by omega)] at hsize
    omega
  constructor
  · intro hp
    exact ⟨fun payment h => (hp.amount payment h).1, hp.total.trans_lt (hmax.trans_lt hcoins)⟩
  · rintro ⟨hnonneg, hfits⟩
    rw [getTotalPayout_eq] at hpay
    have htotal := le_of_wrap64_le hfits hmin hpay
    refine ⟨fun payment h => ⟨hnonneg payment h, ?_⟩, htotal, hcount, fun i payment hi => ?_⟩
    · refine le_trans ?_ htotal
      refine List.single_le_sum (fun x hx => ?_) _ (List.mem_map_of_mem h)
      obtain ⟨q, hq, rfl⟩ := List.mem_map.1 hx
      exact hnonneg q hq
    · obtain ⟨hlt, -⟩ := List.getElem?_eq_some_iff.1 hi
      rw [getBlockEndInt_eq hr hstart hcount, getBlockEnd]
      refine ⟨b.nBlockStart + i, ⟨⟨by omega, by omega⟩, by omega, ?_⟩, ?_⟩
      · simp only [getBudgetPaymentByBlock, add_sub_cancel_left, Int.toNat_natCast]
        rw [if_neg (by omega), if_neg (by omega), hi]
      · rintro h ⟨-, hh, -⟩
        omega

/-- A budget of the cycle at height 43200 with these amounts. -/
def paying (amounts : List ℤ) : CFinalizedBudget where
  strBudgetName := "main"
  nBlockStart := 43200
  vecBudgetPayments := amounts.map fun nAmount => { payee := [0x52], nAmount := nAmount }
  nFeeTXHash := 0xb1

theorem received_paying {amounts : List ℤ} (hsize : amounts.length ≤ maxSize)
    (h : ∀ x ∈ amounts, -9223372036854775808 ≤ x ∧ x < 9223372036854775808) :
    (paying amounts).Received where
  nBlockStart := ⟨by norm_num [paying], by norm_num [paying]⟩
  nAmount := by
    intro payment hp
    obtain ⟨x, hx, rfl⟩ := List.mem_map.1 hp
    exact h x hx
  size := by
    rw [paying, List.length_map]
    exact hsize

/-- Two payments of five coins each are accepted and within the budget. -/
theorem paysWithin_two : (paying [5 * coin, 5 * coin]).PaysWithin .main (some 43000) := by
  have hvalid : (paying [5 * coin, 5 * coin]).isValid .main (some 43000) true (.ok ()) = .ok () := by
    decide
  refine (paysWithin_iff (received_paying (by decide) (by decide)) hvalid).2 ⟨?_, by decide⟩
  intro payment hp
  obtain ⟨x, hx, rfl⟩ := List.mem_map.1 hp
  revert x
  decide

/-- A negative amount is accepted, and so are two amounts whose sum leaves the range of an
`int64_t`. -/
theorem overpaying_accepted :
    ((paying [-1]).Received ∧ (paying [-1]).isValid .main (some 43000) true (.ok ()) = .ok () ∧
      ¬(paying [-1]).PaysWithin .main (some 43000)) ∧
    ((paying [9223372036854775807, 9223372036854775807]).Received ∧
      (paying [9223372036854775807, 9223372036854775807]).isValid .main (some 43000) true (.ok ()) =
        .ok () ∧
      ¬(paying [9223372036854775807, 9223372036854775807]).PaysWithin .main (some 43000)) := by
  refine ⟨⟨received_paying (by decide) (by decide), by decide, fun h => ?_⟩,
    received_paying (by decide) (by decide), by decide, fun h => ?_⟩
  · have hneg := (h.amount _ (List.mem_singleton.2 rfl)).1
    exact absurd hneg (by decide)
  · exact absurd h.total (by decide)

end CFinalizedBudget

end FairCoin
