import FairCoin.Production
import FairCoin.Lib.Store

/-!
# Budget payments

The finalized budgets of `src/masternode-budget.cpp`: which payment a budget makes at a height,
how the producer of a block picks one (`CBudgetManager::FillBlockPayee`), when a height is a
budget height (`IsBudgetPaymentBlock`) and which transactions validation takes there
(`IsTransactionValid`).

* `highestCount_spec` — the scan that all three share: the most votes among the budgets that
  cover the height.
* `fillLoop_spec` — the payment the producer makes is one of a budget with the most votes.
* `budget_agrees_iff` — **producer and validation agree** exactly when at least ten masternodes
  are enabled.  Validation asks for more votes than the best budget has less a tenth of the
  masternodes, and with fewer than ten of them the tenth is zero.
-/

namespace FairCoin

open Store

/-! ## Finalized budgets -/

/-- `CFinalizedBudgetVote`. -/
structure CFinalizedBudgetVote where
  vin : CTxIn
  nBudgetHash : UInt256
  nTime : ℤ
  vchSig : List UInt8 := []
  deriving DecidableEq, Repr

/-- `CTxBudgetPayment`. -/
structure CTxBudgetPayment where
  nProposalHash : UInt256 := 0
  payee : CScript := []
  nAmount : ℤ := 0
  deriving DecidableEq, Repr

/-- `CFinalizedBudget`: payments for consecutive heights, and the votes for them. -/
structure CFinalizedBudget where
  strBudgetName : String := ""
  nBlockStart : ℤ
  vecBudgetPayments : List CTxBudgetPayment := []
  nFeeTXHash : UInt256 := 0
  mapVotes : Map UInt256 CFinalizedBudgetVote := ∅

/-- `mapFinalizedBudgets` of `CBudgetManager`. -/
abbrev FinalizedBudgets := Map UInt256 CFinalizedBudget

namespace CFinalizedBudget

variable (b : CFinalizedBudget)

/-- `CFinalizedBudget::GetBlockEnd`. -/
def getBlockEnd : ℤ := b.nBlockStart + ((b.vecBudgetPayments.length : ℤ) - 1)

/-- `CFinalizedBudget::GetVoteCount`. -/
def getVoteCount : ℤ := (b.mapVotes.entries.length : ℤ)

/-- The height is between `GetBlockStart` and `GetBlockEnd`. -/
def covers (nBlockHeight : ℤ) : Bool :=
  decide (b.nBlockStart ≤ nBlockHeight) && decide (nBlockHeight ≤ b.getBlockEnd)

/-- `CFinalizedBudget::GetBudgetPaymentByBlock`. -/
def getBudgetPaymentByBlock (nBlockHeight : ℤ) : Option CTxBudgetPayment :=
  let i := nBlockHeight - b.nBlockStart
  if i < 0 then none
  else if (b.vecBudgetPayments.length : ℤ) - 1 < i then none
  else b.vecBudgetPayments[i.toNat]?

/-- `CFinalizedBudget::GetPayeeAndAmount`. -/
def getPayeeAndAmount (nBlockHeight : ℤ) : Option (CScript × ℤ) :=
  (b.getBudgetPaymentByBlock nBlockHeight).map fun p => (p.payee, p.nAmount)

/-- `CFinalizedBudget::IsTransactionValid`: one output is the payment for the height. -/
def isTransactionValid (txNew : CTransaction) (nBlockHeight : ℤ) : Bool :=
  match b.getBudgetPaymentByBlock nBlockHeight with
  | none => false
  | some p => txNew.vout.any fun out =>
      decide (p.payee = out.scriptPubKey) && decide (p.nAmount = out.nValue)

variable {b}

theorem getBudgetPaymentByBlock_isSome_iff {h : ℤ} :
    (b.getBudgetPaymentByBlock h).isSome = true ↔ b.covers h = true := by
  simp only [getBudgetPaymentByBlock, covers, Bool.and_eq_true, decide_eq_true_eq]
  rw [getBlockEnd]
  split
  · next h₀ =>
    simp only [Option.isSome_none, Bool.false_eq_true, false_iff, not_and]
    intro hle
    omega
  · split
    · simp only [Option.isSome_none, Bool.false_eq_true, false_iff, not_and]
      intro hle
      omega
    · next h₀ h₁ =>
      have hlt : (h - b.nBlockStart).toNat < b.vecBudgetPayments.length := by omega
      simp only [List.getElem?_eq_getElem hlt, Option.isSome_some, true_iff]
      constructor <;> omega

theorem isTransactionValid_iff {tx : CTransaction} {h : ℤ} :
    b.isTransactionValid tx h = true ↔
      ∃ p, b.getBudgetPaymentByBlock h = some p ∧
        ∃ out ∈ tx.vout, p.payee = out.scriptPubKey ∧ p.nAmount = out.nValue := by
  unfold isTransactionValid
  cases b.getBudgetPaymentByBlock h <;> simp

end CFinalizedBudget

/-! ## The budget manager -/

namespace CBudgetManager

variable (mapFinalizedBudgets : FinalizedBudgets)

/-- The finalized budgets in the order of the map. -/
def budgets : List CFinalizedBudget := (sortedEntries uint256Le mapFinalizedBudgets).map Prod.snd

/-- "Grab The Highest Count": the votes of the best budget that covers the height, or
`nHighestCount` when none has more. -/
def highestCount (nBlockHeight nHighestCount : ℤ) (bs : List CFinalizedBudget) : ℤ :=
  bs.foldl (fun n b => if n < b.getVoteCount ∧ b.covers nBlockHeight then b.getVoteCount else n)
    nHighestCount

/-- `CBudgetManager::IsBudgetPaymentBlock`, with `nEnabled` masternodes enabled. -/
def isBudgetPaymentBlock (nEnabled : ℕ) (nBlockHeight : ℤ) : Bool :=
  decide (((nEnabled / 20 : ℕ) : ℤ) < highestCount nBlockHeight (-1) (budgets mapFinalizedBudgets))

/-- The budgets `CBudgetManager::IsTransactionValid` takes payments of: those that cover the
height with more votes than the best one less a tenth of the masternodes. -/
def withinTenth (nEnabled : ℕ) (nBlockHeight : ℤ) (b : CFinalizedBudget) : Bool :=
  decide (highestCount nBlockHeight 0 (budgets mapFinalizedBudgets) - ((nEnabled / 10 : ℕ) : ℤ) <
    b.getVoteCount) && b.covers nBlockHeight

/-- `CBudgetManager::IsTransactionValid`. -/
def isTransactionValid (nEnabled : ℕ) (txNew : CTransaction) (nBlockHeight : ℤ) : Bool :=
  if highestCount nBlockHeight 0 (budgets mapFinalizedBudgets) < ((nEnabled / 20 : ℕ) : ℤ) then false
  else (budgets mapFinalizedBudgets).any fun b =>
    withinTenth mapFinalizedBudgets nEnabled nBlockHeight b && b.isTransactionValid txNew nBlockHeight

/-- The highest count so far, with the payee and the amount that came with it. -/
structure FillState where
  nHighestCount : ℤ := 0
  payee : CScript := []
  nAmount : ℤ := 0

/-- One round of the loop of `CBudgetManager::FillBlockPayee`. -/
def fillStep (nBlockHeight : ℤ) (s : FillState) (b : CFinalizedBudget) : FillState :=
  if s.nHighestCount < b.getVoteCount ∧ b.covers nBlockHeight then
    match b.getPayeeAndAmount nBlockHeight with
    | some (payee, nAmount) => ⟨b.getVoteCount, payee, nAmount⟩
    | none => s
  else s

/-- `vout.resize(n)`. -/
def resize (n : ℕ) (vout : List CTxOut) : List CTxOut :=
  (vout ++ List.replicate (n - vout.length) CTxOut.null).take n

/-- `CBudgetManager::FillBlockPayee` on a tip of height `nHeight`.  The source writes to
`vout[0]`, which its callers have put there. -/
def fillBlockPayee (nHeight : ℤ) (txNew : CMutableTransaction) (fProofOfStake : Bool) :
    CMutableTransaction :=
  let s := (budgets mapFinalizedBudgets).foldl (fillStep (nHeight + 1)) {}
  if fProofOfStake then
    if 0 < s.nHighestCount then
      { txNew with
        vout := (resize (txNew.vout.length + 1) txNew.vout).modify txNew.vout.length
          fun o => { o with scriptPubKey := s.payee, nValue := s.nAmount } }
    else txNew
  else
    -- miners get the full amount on these blocks
    let vout := txNew.vout.modify 0 fun o => { o with nValue := getBlockValue nHeight }
    if 0 < s.nHighestCount then
      { txNew with
        vout := (resize 2 vout).modify 1
          fun o => { o with scriptPubKey := s.payee, nValue := s.nAmount } }
    else { txNew with vout := vout }

/-! ## The scans -/

variable {mapFinalizedBudgets}

theorem mem_budgets {b : CFinalizedBudget} :
    b ∈ budgets mapFinalizedBudgets ↔ ∃ hash, mapFinalizedBudgets.lookup hash = some b := by
  simp [budgets, List.mem_map, mem_sortedEntries_iff]

/-- **The scan.**  No covering budget has more votes than the result, and the result is the
count of a covering budget unless it is what the scan started from. -/
theorem highestCount_spec (h : ℤ) (bs : List CFinalizedBudget) (n : ℤ) :
    n ≤ highestCount h n bs ∧
      (∀ b ∈ bs, b.covers h = true → b.getVoteCount ≤ highestCount h n bs) ∧
      (n < highestCount h n bs →
        ∃ b ∈ bs, b.covers h = true ∧ b.getVoteCount = highestCount h n bs) := by
  induction bs generalizing n with
  | nil => simp [highestCount]
  | cons b bs ih =>
    have hcons : highestCount h n (b :: bs) = highestCount h
        (if n < b.getVoteCount ∧ b.covers h then b.getVoteCount else n) bs := rfl
    rw [hcons]
    obtain ⟨hle, hmax, hex⟩ := ih (if n < b.getVoteCount ∧ b.covers h then b.getVoteCount else n)
    generalize hr : highestCount h (if n < b.getVoteCount ∧ b.covers h then b.getVoteCount else n)
      bs = r at hle hmax hex ⊢
    split at hle
    · next hb =>
      rw [if_pos hb] at hex
      refine ⟨by omega, ?_, fun _ => ?_⟩
      · rintro b' (_ | ⟨_, hb'⟩) hc
        · exact hle
        · exact hmax b' hb' hc
      · rcases hle.lt_or_eq with hlt | heq
        · obtain ⟨b', hb', h'⟩ := hex hlt
          exact ⟨b', by simp [hb'], h'⟩
        · exact ⟨b, by simp, hb.2, heq⟩
    · next hb =>
      rw [if_neg hb] at hex
      refine ⟨hle, ?_, fun hlt => ?_⟩
      · rintro b' (_ | ⟨_, hb'⟩) hc
        · by_contra hgt
          exact hb ⟨by omega, hc⟩
        · exact hmax b' hb' hc
      · obtain ⟨b', hb', h'⟩ := hex hlt
        exact ⟨b', by simp [hb'], h'⟩

/-- A scan that ends above zero ends there from zero as well. -/
theorem highestCount_zero {h n : ℤ} {bs : List CFinalizedBudget} (hn : n ≤ 0)
    (hpos : 0 < highestCount h n bs) : highestCount h 0 bs = highestCount h n bs := by
  obtain ⟨hle₀, hmax₀, hex₀⟩ := highestCount_spec h bs 0
  obtain ⟨-, hmax, hex⟩ := highestCount_spec h bs n
  obtain ⟨b, hb, hc, hcount⟩ := hex (by omega)
  have hge := hmax₀ b hb hc
  obtain ⟨b', hb', hc', hcount'⟩ := hex₀ (by omega)
  have hle := hmax b' hb' hc'
  omega

/-- The state of the producer's loop: its count, if above zero, is of a covering budget of
the list, whose payment it has taken. -/
def FillState.Of (h : ℤ) (bs : List CFinalizedBudget) (s : FillState) : Prop :=
  0 < s.nHighestCount → ∃ b ∈ bs, b.covers h = true ∧ b.getVoteCount = s.nHighestCount ∧
    ∃ p, b.getBudgetPaymentByBlock h = some p ∧ p.payee = s.payee ∧ p.nAmount = s.nAmount

theorem fillStep_spec {h : ℤ} {bs : List CFinalizedBudget} {s : FillState} {b : CFinalizedBudget}
    (hs : s.Of h bs) (hb : b ∈ bs) :
    (fillStep h s b).Of h bs ∧ (fillStep h s b).nHighestCount =
      if s.nHighestCount < b.getVoteCount ∧ b.covers h then b.getVoteCount
      else s.nHighestCount := by
  unfold fillStep
  split
  · next hif =>
    obtain ⟨p, hp⟩ := Option.isSome_iff_exists.1
      (CFinalizedBudget.getBudgetPaymentByBlock_isSome_iff.2 hif.2)
    simp only [CFinalizedBudget.getPayeeAndAmount, hp, Option.map_some]
    exact ⟨fun _ => ⟨b, hb, hif.2, rfl, p, hp, rfl, rfl⟩, trivial⟩
  · exact ⟨hs, rfl⟩

/-- **The producer's loop** ends with the highest count and a payment that has it. -/
theorem fillLoop_spec (h : ℤ) (bs : List CFinalizedBudget) :
    (bs.foldl (fillStep h) {}).Of h bs ∧
      (bs.foldl (fillStep h) {}).nHighestCount = highestCount h 0 bs := by
  suffices hgen : ∀ (l : List CFinalizedBudget) (s : FillState), (∀ b ∈ l, b ∈ bs) → s.Of h bs →
      (l.foldl (fillStep h) s).Of h bs ∧
        (l.foldl (fillStep h) s).nHighestCount = highestCount h s.nHighestCount l by
    exact hgen bs {} (fun _ hb => hb) fun hpos => absurd hpos (lt_irrefl _)
  intro l
  induction l with
  | nil => exact fun s _ hs => ⟨hs, rfl⟩
  | cons b l ih =>
    intro s hl hs
    obtain ⟨hof, hcount⟩ := fillStep_spec hs (hl b (by simp))
    obtain ⟨hof', hcount'⟩ := ih (fillStep h s b) (fun b' hb' => hl b' (by simp [hb'])) hof
    refine ⟨hof', ?_⟩
    rw [List.foldl_cons, hcount', hcount]
    rfl

/-! ## The payment is in the transaction -/

theorem length_resize (n : ℕ) (vout : List CTxOut) : (resize n vout).length = n := by
  simp only [resize, List.length_take, List.length_append, List.length_replicate]
  omega

theorem exists_mem_modify_resize {n i : ℕ} (vout : List CTxOut) (payee : CScript) (nAmount : ℤ)
    (hi : i < n) : ∃ out ∈ (resize n vout).modify i
        (fun o => { o with scriptPubKey := payee, nValue := nAmount }),
      payee = out.scriptPubKey ∧ nAmount = out.nValue := by
  have hlt : i < (resize n vout).length := by rwa [length_resize]
  refine ⟨{ (resize n vout)[i] with scriptPubKey := payee, nValue := nAmount }, ?_, rfl, rfl⟩
  refine List.mem_of_getElem? (i := i) ?_
  rw [List.getElem?_modify, List.getElem?_eq_getElem hlt]
  simp

/-- When some covering budget has votes, the filled transaction has an output for a covering
budget with the most votes. -/
theorem exists_payment_fillBlockPayee (nHeight : ℤ) (txNew : CMutableTransaction)
    (fProofOfStake : Bool) (hash : UInt256)
    (hpos : 0 < highestCount (nHeight + 1) 0 (budgets mapFinalizedBudgets)) :
    ∃ b ∈ budgets mapFinalizedBudgets, b.covers (nHeight + 1) = true ∧
      b.getVoteCount = highestCount (nHeight + 1) 0 (budgets mapFinalizedBudgets) ∧
      b.isTransactionValid ((fillBlockPayee mapFinalizedBudgets nHeight txNew
        fProofOfStake).toTransaction hash) (nHeight + 1) = true := by
  obtain ⟨hof, hcount⟩ := fillLoop_spec (nHeight + 1) (budgets mapFinalizedBudgets)
  rw [← hcount] at hpos ⊢
  obtain ⟨b, hb, hc, hvotes, p, hp, hpayee, hamount⟩ := hof hpos
  refine ⟨b, hb, hc, hvotes, CFinalizedBudget.isTransactionValid_iff.2 ⟨p, hp, ?_⟩⟩
  rw [hpayee, hamount]
  unfold fillBlockPayee
  simp only [if_pos hpos, CMutableTransaction.toTransaction]
  cases fProofOfStake with
  | true => exact exists_mem_modify_resize txNew.vout _ _ (Nat.lt_succ_self _)
  | false => exact exists_mem_modify_resize _ _ _ (by decide)

theorem isTransactionValid_iff {nEnabled : ℕ} {tx : CTransaction} {h : ℤ} :
    isTransactionValid mapFinalizedBudgets nEnabled tx h = true ↔
      ((nEnabled / 20 : ℕ) : ℤ) ≤ highestCount h 0 (budgets mapFinalizedBudgets) ∧
        ∃ b ∈ budgets mapFinalizedBudgets, withinTenth mapFinalizedBudgets nEnabled h b = true ∧
          b.isTransactionValid tx h = true := by
  unfold isTransactionValid
  split
  · next hlt =>
    constructor
    · intro hfalse
      exact absurd hfalse (by simp)
    · rintro ⟨hle, -⟩
      omega
  · next hlt =>
    simp only [List.any_eq_true, Bool.and_eq_true, not_lt.1 hlt, true_and]

/-- With fewer than ten masternodes no budget has enough votes. -/
theorem not_withinTenth {nEnabled : ℕ} {h : ℤ} {b : CFinalizedBudget} (hten : nEnabled < 10)
    (hb : b ∈ budgets mapFinalizedBudgets) :
    withinTenth mapFinalizedBudgets nEnabled h b = false := by
  have hzero : nEnabled / 10 = 0 := Nat.div_eq_of_lt hten
  obtain ⟨-, hmax, -⟩ := highestCount_spec h (budgets mapFinalizedBudgets) 0
  by_contra hne
  simp only [withinTenth, hzero, Bool.not_eq_false, Bool.and_eq_true, decide_eq_true_eq] at hne
  have := hmax b hb hne.2
  omega

/-- **Producer and validation.**  At a budget height the transaction `FillBlockPayee` fills on
the tip below is one that `IsTransactionValid` takes exactly when ten masternodes are enabled. -/
theorem budget_agrees_iff (nEnabled : ℕ) (h : ℤ) (txNew : CMutableTransaction) (hash : UInt256)
    (fProofOfStake : Bool) (hbudget : isBudgetPaymentBlock mapFinalizedBudgets nEnabled h = true) :
    isTransactionValid mapFinalizedBudgets nEnabled
        ((fillBlockPayee mapFinalizedBudgets (h - 1) txNew fProofOfStake).toTransaction hash) h =
      true ↔ 10 ≤ nEnabled := by
  rw [isTransactionValid_iff]
  constructor
  · rintro ⟨-, b, hb, hwithin, -⟩
    by_contra hlt
    rw [not_withinTenth (not_le.1 hlt) hb] at hwithin
    exact absurd hwithin (by simp)
  · intro hten
    simp only [isBudgetPaymentBlock, decide_eq_true_eq] at hbudget
    have hpos : 0 < highestCount h (-1) (budgets mapFinalizedBudgets) := by omega
    rw [← highestCount_zero (by decide) hpos] at hbudget hpos
    have hh : h - 1 + 1 = h := by omega
    obtain ⟨b, hb, hc, hvotes, hvalid⟩ := exists_payment_fillBlockPayee (h - 1)
      txNew fProofOfStake hash (by rwa [hh])
    rw [hh] at hc hvotes hvalid
    refine ⟨hbudget.le, b, hb, ?_, hvalid⟩
    simp only [withinTenth, hvotes, hc, Bool.and_true, decide_eq_true_eq]
    have htenth : 1 ≤ nEnabled / 10 := by omega
    omega

/-- A budget that starts at height 300, pays once and has one vote. -/
def oneVote : CFinalizedBudget where
  nBlockStart := 300
  vecBudgetPayments := [{ nProposalHash := 0xa1, payee := [0x52], nAmount := 5 * coin }]
  mapVotes := (∅ : Map UInt256 CFinalizedBudgetVote).insert 0xc1
    { vin := { prevout := ⟨0x31, 0⟩ }, nBudgetHash := 0xf1, nTime := 1500000000 }

/-- A node that knows this budget only. -/
def oneVoteBudget : FinalizedBudgets := (∅ : FinalizedBudgets).insert 0xf1 oneVote

/-- Ten masternodes: the coinstake pays the budget and is taken. -/
theorem budget_agrees_ten : isTransactionValid oneVoteBudget 10
    ((fillBlockPayee oneVoteBudget (300 - 1)
      { vout := [⟨0, [], -10⟩, ⟨110 * coin, [0x51], -10⟩] } true).toTransaction 0x22) 300 = true :=
  (budget_agrees_iff 10 300 _ _ _ (by decide +kernel)).2 le_rfl

/-- Nine masternodes: height 300 is a budget height, and the coinstake that pays the only
budget there is refused. -/
theorem budget_refused_nine :
    isBudgetPaymentBlock oneVoteBudget 9 300 = true ∧
      isTransactionValid oneVoteBudget 9
        ((fillBlockPayee oneVoteBudget (300 - 1)
          { vout := [⟨0, [], -10⟩, ⟨110 * coin, [0x51], -10⟩] } true).toTransaction 0x22) 300 =
        false := by
  decide +kernel

end CBudgetManager

end FairCoin
