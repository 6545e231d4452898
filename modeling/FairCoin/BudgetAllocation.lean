import FairCoin.BudgetSchedule
import FairCoin.Lib.Greedy

/-!
# The proposals of the next cycle

`CBudgetManager::GetBudget`: the proposals are sorted by votes, and each eligible one whose amount
still fits the budget of the next cycle is granted it.

* `Grabbed.run` — the loop is the greedy choice among the eligible proposals.
* `soundAllocation_iff` — **the allocation is sound from any prior state** exactly when no proposal
  that is not eligible has an amount left from before: only eligible proposals are reset.
-/

namespace FairCoin

open Store

/-! ## Proposals -/

/-- A proposal in `mapProposals`, with the members that are not part of its hash: whether it was
found valid, the time of its collateral, and the amount it has been allotted. -/
structure BudgetEntry extends CBudgetProposal where
  fValid : Bool := true
  nTime : ℤ
  nAlloted : ℤ

/-- What `GetBudget` reads of the rest of the node: the height of the tip, the masternodes that are
known and the number that are enabled, and the clock. -/
structure BudgetView where
  net : Network
  tip : Option ℤ
  countEnabled : ℕ
  find : COutPoint → Bool
  now : ℤ

namespace BudgetEntry

variable (view : BudgetView) (p : BudgetEntry)

/-- The votes of one kind.  `CleanAndRemove(false)` has marked those valid whose masternode is
known. -/
def countVotes (nVote : ℤ) : ℤ :=
  ((p.mapVotes.entries.filter fun e => e.2.nVote == nVote && view.find e.2.vin.prevout).length : ℤ)

/-- `CBudgetProposal::GetYeas`. -/
def getYeas : ℤ := p.countVotes view 1

/-- `CBudgetProposal::GetNays`. -/
def getNays : ℤ := p.countVotes view 2

/-- `CBudgetProposal::IsEstablished`. -/
def isEstablished : Bool :=
  if view.net = .main then decide (p.nTime < view.now - 60 * 60 * 24)
  else decide (p.nTime < view.now - 60 * 5)

/-- `CBudgetProposal::IsValid`; the error is `strError`, and `collateral` is what
`IsBudgetCollateralValid` says when it is asked. -/
def isValid (fCheckCollateral collateral : Bool) : Except String Unit := do
  failIf (((view.countEnabled / 10 : ℕ) : ℤ) < p.getNays view - p.getYeas view) "Active removal"
  failIf (p.nBlockStart < 0) "Invalid Proposal"
  failIf (p.nBlockEnd < p.nBlockStart) "Invalid nBlockEnd (end before start)"
  failIf (p.nAmount < 10 * coin) "Invalid nAmount"
  failIf (p.address = []) "Invalid Payment Address"
  failIf (fCheckCollateral = true ∧ collateral = false) "Invalid collateral"
  failIf (CScript.isPayToScriptHash p.address = true) "Multisig is not currently supported."
  failIf (getTotalBudget view.net view.tip p.nBlockStart < p.nAmount) "Payment more than max"
  match view.tip with
  | none => pure ()
  | some nHeight =>
      failIf (p.nBlockEnd < nHeight - view.net.budgetPaymentCycleBlocks.tdiv 2)
        "Invalid nBlockEnd (end too early)"

end BudgetEntry

/-- `sortProposalsByVotes`: the first of two proposals has more net votes, or as many and the
higher fee transaction. -/
def sortProposalsByVotes (view : BudgetView) (left right : BudgetEntry) : Bool :=
  if left.getYeas view - left.getNays view ≠ right.getYeas view - right.getNays view then
    decide (right.getYeas view - right.getNays view < left.getYeas view - left.getNays view)
  else decide (right.nFeeTXHash < left.nFeeTXHash)

/-- `mapProposals`.  Every proposal has been through `IsValid` on its way in, and its amount does
not change. -/
structure Proposals where
  mapProposals : Map UInt256 BudgetEntry := ∅
  amounts : ∀ hash p, mapProposals.lookup hash = some p →
    10 * coin ≤ p.nAmount ∧ p.nAmount ≤ 648000 * coin

/-- The amounts that `IsValid` lets through. -/
theorem BudgetEntry.amounts_of_isValid {view : BudgetView} {p : BudgetEntry}
    {fCheckCollateral collateral : Bool}
    (h : p.isValid view fCheckCollateral collateral = .ok ()) :
    10 * coin ≤ p.nAmount ∧ p.nAmount ≤ 648000 * coin := by
  unfold BudgetEntry.isValid at h
  obtain ⟨-, h⟩ := of_failIf_bind h
  obtain ⟨-, h⟩ := of_failIf_bind h
  obtain ⟨-, h⟩ := of_failIf_bind h
  obtain ⟨hmin, h⟩ := of_failIf_bind h
  obtain ⟨-, h⟩ := of_failIf_bind h
  obtain ⟨-, h⟩ := of_failIf_bind h
  obtain ⟨-, h⟩ := of_failIf_bind h
  obtain ⟨hmax, -⟩ := of_failIf_bind h
  exact ⟨not_lt.1 hmin, (not_lt.1 hmax).trans (getTotalBudget_bounds _ _ _).2⟩

/-- `CBudgetManager::AddProposal`, for a proposal that `IsValid` takes. -/
def Proposals.addProposal (s : Proposals) (hash : UInt256) (p : BudgetEntry) {view : BudgetView}
    {fCheckCollateral collateral : Bool}
    (h : p.isValid view fCheckCollateral collateral = .ok ()) : Proposals where
  mapProposals := insertNew s.mapProposals hash p
  amounts k q hq := by
    rcases lookup_insertNew_cases hq with hq | ⟨-, -, rfl⟩
    · exact s.amounts k q hq
    · exact BudgetEntry.amounts_of_isValid h

/-! ## `GetBudget` -/

/-- The start of the next cycle. -/
def BudgetView.nextCycle (view : BudgetView) : Option ℤ :=
  view.tip.map fun nHeight => nHeight - nHeight.tmod view.net.budgetPaymentCycleBlocks +
    view.net.budgetPaymentCycleBlocks

/-- The test of `GetBudget`: valid, in the next cycle, with net votes above a tenth of the enabled
masternodes, and established. -/
def BudgetEntry.isEligible (view : BudgetView) (p : BudgetEntry) : Bool :=
  match view.nextCycle with
  | none => false
  | some nBlockStart =>
      p.fValid && p.coversCycle view.net nBlockStart &&
        decide (((view.countEnabled / 10 : ℕ) : ℤ) < p.getYeas view - p.getNays view) &&
        p.isEstablished view

/-- The variables of the loop of `GetBudget`. -/
structure GrabState where
  mapProposals : Map UInt256 BudgetEntry
  nBudgetAllocated : ℤ := 0
  vBudgetProposalsRet : List UInt256 := []

/-- One round of the loop. -/
def grabStep (view : BudgetView) (nTotalBudget : ℤ) (s : GrabState) (e : UInt256 × BudgetEntry) :
    GrabState :=
  if e.2.isEligible view then
    if wrap64 (e.2.nAmount + s.nBudgetAllocated) ≤ nTotalBudget then
      { mapProposals := s.mapProposals.insert e.1 { e.2 with nAlloted := e.2.nAmount }
        nBudgetAllocated := wrap64 (s.nBudgetAllocated + e.2.nAmount)
        vBudgetProposalsRet := s.vBudgetProposalsRet ++ [e.1] }
    else { s with mapProposals := s.mapProposals.insert e.1 { e.2 with nAlloted := 0 } }
  else s

/-- `vBudgetPorposalsSort` after the sort: the entries of `mapProposals`, none of them after one
that belongs before it.  Entries that compare equal may come in either order. -/
structure SortedByVotes (view : BudgetView) (mapProposals : Map UInt256 BudgetEntry)
    (order : List (UInt256 × BudgetEntry)) : Prop where
  perm : order.Perm (sortedEntries uint256Le mapProposals)
  sorted : order.Pairwise fun a b => sortProposalsByVotes view b.2 a.2 = false

/-- The budget of the next cycle. -/
def BudgetView.nTotalBudget (view : BudgetView) : ℤ :=
  match view.nextCycle with
  | none => 0
  | some nBlockStart => getTotalBudget view.net view.tip nBlockStart

/-- `CBudgetManager::GetBudget`, given the outcome of the sort: the proposals with what they are
allotted, and the proposals returned. -/
def getBudget (view : BudgetView) (order : List (UInt256 × BudgetEntry))
    (mapProposals : Map UInt256 BudgetEntry) : Map UInt256 BudgetEntry × List UInt256 :=
  match view.tip with
  | none => (mapProposals, [])
  | some _ =>
      let s := order.foldl (grabStep view view.nTotalBudget) { mapProposals := mapProposals }
      (s.mapProposals, s.vBudgetProposalsRet)

/-! ## The loop is a greedy choice -/

/-- What a proposal costs. -/
def cost (e : UInt256 × BudgetEntry) : ℤ := e.2.nAmount

/-- The proposals that are granted their amount, out of those considered. -/
def granted (view : BudgetView) (nTotalBudget : ℤ) (order : List (UInt256 × BudgetEntry)) :
    List (UInt256 × BudgetEntry) :=
  Greedy.pick cost nTotalBudget 0 (order.filter fun e => e.2.isEligible view)

/-- The loop after some of the entries: what it has allocated, what it will return, and what each
proposal is allotted. -/
structure Grabbed (view : BudgetView) (nTotalBudget : ℤ) (mapProposals : Map UInt256 BudgetEntry)
    (seen : List (UInt256 × BudgetEntry)) (s : GrabState) : Prop where
  allocated : s.nBudgetAllocated = Greedy.total cost (granted view nTotalBudget seen)
  returned : s.vBudgetProposalsRet = (granted view nTotalBudget seen).map Prod.fst
  alloted : ∀ hash, s.mapProposals.lookup hash = (mapProposals.lookup hash).map fun p =>
    if hash ∈ seen.map Prod.fst ∧ p.isEligible view = true then
      { p with
        nAlloted := if hash ∈ (granted view nTotalBudget seen).map Prod.fst then p.nAmount else 0 }
    else p

theorem granted_sublist (view : BudgetView) (nTotalBudget : ℤ)
    (order : List (UInt256 × BudgetEntry)) : (granted view nTotalBudget order).Sublist order :=
  (Greedy.pick_sublist _ _).trans List.filter_sublist

theorem isEligible_of_mem_granted {view : BudgetView} {nTotalBudget : ℤ}
    {order : List (UInt256 × BudgetEntry)} {e : UInt256 × BudgetEntry}
    (h : e ∈ granted view nTotalBudget order) : e.2.isEligible view = true :=
  (List.mem_filter.1 ((Greedy.pick_sublist _ _).subset h)).2

/-- One more entry is considered. -/
theorem granted_concat (view : BudgetView) (nTotalBudget : ℤ)
    (seen : List (UInt256 × BudgetEntry)) (e : UInt256 × BudgetEntry) :
    granted view nTotalBudget (seen ++ [e]) = granted view nTotalBudget seen ++
      if e.2.isEligible view = true ∧
        e.2.nAmount + Greedy.total cost (granted view nTotalBudget seen) ≤ nTotalBudget then [e]
      else [] := by
  unfold granted
  rw [List.filter_append, Greedy.pick_append, zero_add]
  congr 1
  by_cases he : e.2.isEligible view = true
  · rw [List.filter_cons, if_pos he, List.filter_nil, Greedy.pick]
    simp only [he, true_and]
    rfl
  · rw [List.filter_cons, if_neg he, List.filter_nil]
    simp [he, Greedy.pick]

section Loop

variable {view : BudgetView} {nTotalBudget : ℤ} {s : Proposals}

/-- The amounts granted are within the budget. -/
theorem total_granted_le (hbudget : 0 ≤ nTotalBudget) (order : List (UInt256 × BudgetEntry)) :
    Greedy.total cost (granted view nTotalBudget order) ≤ nTotalBudget := by
  have hle : 0 + Greedy.total cost (granted view nTotalBudget order) ≤ nTotalBudget :=
    Greedy.sum_pick_le (order.filter fun e => e.2.isEligible view) hbudget
  rwa [zero_add] at hle

theorem total_granted_nonneg {order : List (UInt256 × BudgetEntry)}
    (hmem : ∀ e ∈ order, s.mapProposals.lookup e.1 = some e.2) :
    0 ≤ Greedy.total cost (granted view nTotalBudget order) := by
  refine List.sum_nonneg fun x hx => ?_
  obtain ⟨e, he, rfl⟩ := List.mem_map.1 hx
  have := (s.amounts e.1 e.2 (hmem e ((granted_sublist view nTotalBudget order).subset he))).1
  unfold coin at this
  unfold cost
  omega

/-- **One round** keeps the description of the loop. -/
theorem Grabbed.step {seen : List (UInt256 × BudgetEntry)} {g : GrabState}
    (hg : Grabbed view nTotalBudget s.mapProposals seen g) {e : UInt256 × BudgetEntry}
    (hbudget : 0 ≤ nTotalBudget ∧ nTotalBudget ≤ 648000 * coin)
    (hmem : ∀ e' ∈ seen ++ [e], s.mapProposals.lookup e'.1 = some e'.2)
    (hnew : e.1 ∉ seen.map Prod.fst) :
    Grabbed view nTotalBudget s.mapProposals (seen ++ [e]) (grabStep view nTotalBudget g e) := by
  have he := hmem e (by simp)
  obtain ⟨hmin, hmax⟩ := s.amounts e.1 e.2 he
  have hnonneg : 0 ≤ Greedy.total cost (granted view nTotalBudget seen) := total_granted_nonneg
    fun e' he' => hmem e' (List.mem_append_left _ he')
  have hle : Greedy.total cost (granted view nTotalBudget seen) ≤ nTotalBudget :=
    total_granted_le hbudget.1 seen
  have hnotgranted : e.1 ∉ (granted view nTotalBudget seen).map Prod.fst :=
    fun h => hnew (((granted_sublist view nTotalBudget seen).map _).subset h)
  have hwrap : wrap64 (e.2.nAmount + g.nBudgetAllocated) =
      e.2.nAmount + Greedy.total cost (granted view nTotalBudget seen) := by
    rw [hg.allocated]
    unfold coin at hbudget hmin hmax
    exact wrap64_of_lt (by omega) (by omega)
  -- what the other proposals are allotted does not change
  have hother : ∀ hash p, hash ≠ e.1 → s.mapProposals.lookup hash = some p →
      ((hash ∈ (seen ++ [e]).map Prod.fst ↔ hash ∈ seen.map Prod.fst) ∧
        (hash ∈ (granted view nTotalBudget (seen ++ [e])).map Prod.fst ↔
          hash ∈ (granted view nTotalBudget seen).map Prod.fst)) := by
    intro hash p hne _
    refine ⟨by simp [hne], ?_⟩
    rw [granted_concat]
    split <;> simp [hne]
  by_cases helig : e.2.isEligible view = true
  · by_cases hfit : e.2.nAmount + Greedy.total cost (granted view nTotalBudget seen) ≤ nTotalBudget
    · have hgranted : granted view nTotalBudget (seen ++ [e]) =
          granted view nTotalBudget seen ++ [e] := by
        rw [granted_concat, if_pos ⟨helig, hfit⟩]
      have hstep : grabStep view nTotalBudget g e =
          { mapProposals := g.mapProposals.insert e.1 { e.2 with nAlloted := e.2.nAmount }
            nBudgetAllocated := wrap64 (g.nBudgetAllocated + e.2.nAmount)
            vBudgetProposalsRet := g.vBudgetProposalsRet ++ [e.1] } := by
        rw [grabStep, if_pos helig, hwrap, if_pos hfit]
      rw [hstep]
      refine ⟨?_, ?_, fun hash => ?_⟩
      · rw [hgranted, add_comm g.nBudgetAllocated, hwrap, add_comm]
        simp [Greedy.total, cost]
      · rw [hgranted, hg.returned, List.map_append]
        rfl
      · show (g.mapProposals.insert e.1 { e.2 with nAlloted := e.2.nAmount }).lookup hash = _
        rw [lookup_insert_eq]
        split
        · next hk =>
          subst hk
          rw [he, Option.map_some, if_pos ⟨by simp, helig⟩, if_pos (by rw [hgranted]; simp)]
        · next hk =>
          rw [hg.alloted]
          cases hp : s.mapProposals.lookup hash with
          | none => rfl
          | some p => simp only [Option.map_some, hother hash p hk hp]
    · have hgranted : granted view nTotalBudget (seen ++ [e]) = granted view nTotalBudget seen := by
        rw [granted_concat, if_neg fun h => hfit h.2, List.append_nil]
      have hstep : grabStep view nTotalBudget g e =
          { g with mapProposals := g.mapProposals.insert e.1 { e.2 with nAlloted := 0 } } := by
        rw [grabStep, if_pos helig, hwrap, if_neg hfit]
      rw [hstep]
      refine ⟨by rw [hgranted]; exact hg.allocated, by rw [hgranted]; exact hg.returned,
        fun hash => ?_⟩
      show (g.mapProposals.insert e.1 { e.2 with nAlloted := 0 }).lookup hash = _
      rw [lookup_insert_eq]
      split
      · next hk =>
        subst hk
        rw [he, Option.map_some, if_pos ⟨by simp, helig⟩, if_neg (by rwa [hgranted])]
      · next hk =>
        rw [hg.alloted]
        cases hp : s.mapProposals.lookup hash with
        | none => rfl
        | some p => simp only [Option.map_some, hother hash p hk hp]
  · have hgranted : granted view nTotalBudget (seen ++ [e]) = granted view nTotalBudget seen := by
      rw [granted_concat, if_neg fun h => helig h.1, List.append_nil]
    rw [grabStep, if_neg helig]
    refine ⟨by rw [hgranted]; exact hg.allocated, by rw [hgranted]; exact hg.returned,
      fun hash => ?_⟩
    rw [hg.alloted]
    cases hp : s.mapProposals.lookup hash with
    | none => rfl
    | some p =>
      by_cases hk : hash = e.1
      · subst hk
        obtain rfl : p = e.2 := Option.some.inj (hp.symm.trans he)
        simp [helig]
      · simp only [Option.map_some, hother hash p hk hp]

/-- **The whole loop**, over any split of the entries. -/
theorem Grabbed.run {order : List (UInt256 × BudgetEntry)}
    (hbudget : 0 ≤ nTotalBudget ∧ nTotalBudget ≤ 648000 * coin)
    (hmem : ∀ e ∈ order, s.mapProposals.lookup e.1 = some e.2)
    (hnodup : (order.map Prod.fst).Nodup) : ∀ (rest seen : List (UInt256 × BudgetEntry))
      (g : GrabState), seen ++ rest = order → Grabbed view nTotalBudget s.mapProposals seen g →
      Grabbed view nTotalBudget s.mapProposals order (rest.foldl (grabStep view nTotalBudget) g) := by
  intro rest
  induction rest with
  | nil =>
    intro seen g hsplit hg
    rw [List.append_nil] at hsplit
    exact hsplit ▸ hg
  | cons e rest ih =>
    intro seen g hsplit hg
    have hsplit' : (seen ++ [e]) ++ rest = order := by simpa using hsplit
    refine ih (seen ++ [e]) _ hsplit' (hg.step hbudget (fun e' he' => hmem e' ?_) fun hin => ?_)
    · rw [← hsplit']
      exact List.mem_append_left _ he'
    · rw [← hsplit, List.map_append, List.map_cons] at hnodup
      exact (List.nodup_append.1 hnodup).2.2 _ hin _ List.mem_cons_self rfl

end Loop

/-! ## Soundness -/

/-- The amount of a proposal, by its hash. -/
def amountOf (mapProposals : Map UInt256 BudgetEntry) (hash : UInt256) : ℤ :=
  ((mapProposals.lookup hash).map fun p => p.nAmount).getD 0

/-- **A sound allocation** of the budget of the next cycle by a call of `GetBudget`. -/
structure SoundAllocation (view : BudgetView) (order : List (UInt256 × BudgetEntry))
    (mapProposals : Map UInt256 BudgetEntry) : Prop where
  eligible : ∀ hash ∈ (getBudget view order mapProposals).2,
    ∃ p, mapProposals.lookup hash = some p ∧ p.isEligible view = true
  ordered : (getBudget view order mapProposals).2.Pairwise fun a b => ∀ p q,
    mapProposals.lookup a = some p → mapProposals.lookup b = some q →
      sortProposalsByVotes view q p = false
  within : ((getBudget view order mapProposals).2.map (amountOf mapProposals)).sum ≤
    view.nTotalBudget
  leftOut : ∀ before hash p after, order = before ++ (hash, p) :: after →
    p.isEligible view = true → hash ∉ (getBudget view order mapProposals).2 →
    view.nTotalBudget < p.nAmount + (((getBudget view order mapProposals).2.filter
      fun k => k ∈ before.map Prod.fst).map (amountOf mapProposals)).sum
  cleared : ∀ hash p, (getBudget view order mapProposals).1.lookup hash = some p →
    hash ∉ (getBudget view order mapProposals).2 → p.nAlloted = 0
  allotted : ((getBudget view order mapProposals).1.entries.map fun e => e.2.nAlloted).sum ≤
    view.nTotalBudget

theorem nTotalBudget_bounds (view : BudgetView) :
    0 ≤ view.nTotalBudget ∧ view.nTotalBudget ≤ 648000 * coin := by
  unfold BudgetView.nTotalBudget
  split
  · exact ⟨le_rfl, by decide⟩
  · exact getTotalBudget_bounds _ _ _

section Sound

variable {view : BudgetView} {order : List (UInt256 × BudgetEntry)} {s : Proposals}

theorem SortedByVotes.lookup (h : SortedByVotes view s.mapProposals order)
    {e : UInt256 × BudgetEntry} (he : e ∈ order) : s.mapProposals.lookup e.1 = some e.2 :=
  mem_sortedEntries (h.perm.mem_iff.1 he)

theorem SortedByVotes.nodup (h : SortedByVotes view s.mapProposals order) :
    (order.map Prod.fst).Nodup := by
  refine (h.perm.map Prod.fst).nodup_iff.2 ?_
  refine ((List.mergeSort_perm _ _).map Prod.fst).nodup_iff.2 ?_
  rw [List.map_map]
  exact s.mapProposals.nodupKeys

theorem SortedByVotes.mem_keys (h : SortedByVotes view s.mapProposals order) {hash : UInt256}
    {p : BudgetEntry} (hp : s.mapProposals.lookup hash = some p) : (hash, p) ∈ order :=
  h.perm.mem_iff.2 (mem_sortedEntries_iff.2 hp)

/-- Without a tip nothing is eligible. -/
theorem isEligible_of_no_tip (htip : view.tip = none) (p : BudgetEntry) :
    p.isEligible view = false := by
  unfold BudgetEntry.isEligible BudgetView.nextCycle
  rw [htip]
  rfl

/-- **What a call returns and leaves**: the greedy choice among the eligible proposals, and each
eligible proposal with its amount or nothing. -/
theorem getBudget_spec (h : SortedByVotes view s.mapProposals order) :
    (getBudget view order s.mapProposals).2 =
        (granted view view.nTotalBudget order).map Prod.fst ∧
      ∀ hash, (getBudget view order s.mapProposals).1.lookup hash =
        (s.mapProposals.lookup hash).map fun p =>
          if p.isEligible view = true then
            { p with
              nAlloted := if hash ∈ (granted view view.nTotalBudget order).map Prod.fst
                then p.nAmount else 0 }
          else p := by
  cases htip : view.tip with
  | none =>
    have hempty : granted view view.nTotalBudget order = [] := by
      unfold granted
      rw [List.filter_eq_nil_iff.2 fun e _ => by simp [isEligible_of_no_tip htip]]
      rfl
    have hcall : getBudget view order s.mapProposals = (s.mapProposals, []) := by
      rw [getBudget, htip]
    rw [hcall, hempty]
    refine ⟨rfl, fun hash => ?_⟩
    cases s.mapProposals.lookup hash <;> simp [isEligible_of_no_tip htip]
  | some nHeight =>
    have hstart : Grabbed view view.nTotalBudget s.mapProposals []
        { mapProposals := s.mapProposals } :=
      ⟨rfl, rfl, fun hash => by cases s.mapProposals.lookup hash <;> simp⟩
    have hrun := Grabbed.run (nTotalBudget_bounds view) (fun e he => h.lookup he) h.nodup order []
      _ rfl hstart
    have hcall : getBudget view order s.mapProposals =
        ((order.foldl (grabStep view view.nTotalBudget)
            { mapProposals := s.mapProposals }).mapProposals,
          (order.foldl (grabStep view view.nTotalBudget)
            { mapProposals := s.mapProposals }).vBudgetProposalsRet) := by
      rw [getBudget, htip]
    rw [hcall]
    refine ⟨hrun.returned, fun hash => ?_⟩
    rw [hrun.alloted]
    cases hp : s.mapProposals.lookup hash with
    | none => rfl
    | some p =>
      have hin : hash ∈ order.map Prod.fst := List.mem_map.2 ⟨_, h.mem_keys hp, rfl⟩
      simp only [Option.map_some, hin, true_and]

/-- The amounts of entries of the map, by their hashes. -/
theorem sum_amountOf {l : List (UInt256 × BudgetEntry)}
    (hl : ∀ e ∈ l, s.mapProposals.lookup e.1 = some e.2) :
    ((l.map Prod.fst).map (amountOf s.mapProposals)).sum = Greedy.total cost l := by
  unfold Greedy.total
  rw [List.map_map]
  congr 1
  refine List.map_congr_left fun e he => ?_
  simp [amountOf, hl e he, cost]

/-- The hashes that are returned are different. -/
theorem nodup_granted (h : SortedByVotes view s.mapProposals order) :
    ((granted view view.nTotalBudget order).map Prod.fst).Nodup :=
  h.nodup.sublist ((granted_sublist view view.nTotalBudget order).map _)

theorem lookup_of_mem_granted (h : SortedByVotes view s.mapProposals order)
    {e : UInt256 × BudgetEntry} (he : e ∈ granted view view.nTotalBudget order) :
    s.mapProposals.lookup e.1 = some e.2 :=
  h.lookup ((granted_sublist view view.nTotalBudget order).subset he)

/-- A sum over a list that counts only the members of another is a sum over those. -/
theorem sum_map_ite_mem (l ret : List UInt256) (f : UInt256 → ℤ) :
    (l.map fun k => if k ∈ ret then f k else 0).sum = ((l.filter fun k => k ∈ ret).map f).sum := by
  induction l with
  | nil => rfl
  | cons k l ih =>
    rw [List.map_cons, List.sum_cons, ih]
    by_cases hk : k ∈ ret
    · rw [if_pos hk, List.filter_cons, if_pos (by simpa using hk), List.map_cons, List.sum_cons]
    · rw [if_neg hk, List.filter_cons, if_neg (by simpa using hk), zero_add]

/-- When each proposal has its amount if it is granted and nothing otherwise, the amounts allotted
are those granted. -/
theorem sum_alloted (h : SortedByVotes view s.mapProposals order)
    (hclear : ∀ hash p, s.mapProposals.lookup hash = some p → p.isEligible view = false →
      p.nAlloted = 0) :
    ((getBudget view order s.mapProposals).1.entries.map fun e => e.2.nAlloted).sum =
      Greedy.total cost (granted view view.nTotalBudget order) := by
  obtain ⟨-, hlookup⟩ := getBudget_spec h
  set m := (getBudget view order s.mapProposals).1 with hm
  set ret := (granted view view.nTotalBudget order).map Prod.fst with hret
  -- each entry has the amount of its proposal if it is returned, and nothing otherwise
  have hentry : ∀ e ∈ m.entries,
      e.2.nAlloted = if e.1 ∈ ret then amountOf s.mapProposals e.1 else 0 := by
    intro e he
    have hl : m.lookup e.1 = some e.2 := AList.mem_lookup_iff.2 he
    rw [hlookup] at hl
    obtain ⟨p, hp, hpe⟩ := Option.map_eq_some_iff.1 hl
    rw [← hpe, amountOf, hp]
    split
    · rfl
    · next helig =>
      have hnot : e.1 ∉ ret := by
        intro hin
        obtain ⟨e', he', hkey⟩ := List.mem_map.1 hin
        have hl' := lookup_of_mem_granted h he'
        rw [hkey, hp] at hl'
        exact helig (Option.some.inj hl' ▸ isEligible_of_mem_granted he')
      rw [if_neg hnot]
      exact hclear e.1 p hp (by simpa using helig)
  have hkeys : (m.keys.filter fun k => k ∈ ret).Perm ret := by
    refine (List.perm_ext_iff_of_nodup (m.nodupKeys.filter _) (nodup_granted h)).2 fun k => ?_
    rw [List.mem_filter, decide_eq_true_eq]
    refine ⟨fun hk => hk.2, fun hk => ⟨?_, hk⟩⟩
    obtain ⟨e, he, rfl⟩ := List.mem_map.1 hk
    show e.1 ∈ m.keys
    rw [← AList.mem_keys, ← AList.lookup_isSome, hlookup, lookup_of_mem_granted h he]
    rfl
  calc (m.entries.map fun e => e.2.nAlloted).sum
      = (m.keys.map fun k => if k ∈ ret then amountOf s.mapProposals k else 0).sum := by
        rw [AList.keys, List.keys, List.map_map]
        congr 1
        exact List.map_congr_left hentry
    _ = ((m.keys.filter fun k => k ∈ ret).map (amountOf s.mapProposals)).sum :=
        sum_map_ite_mem _ _ _
    _ = (ret.map (amountOf s.mapProposals)).sum := (hkeys.map _).sum_eq
    _ = Greedy.total cost (granted view view.nTotalBudget order) :=
        sum_amountOf fun e he => lookup_of_mem_granted h he

/-- A proposal that was left out did not fit on top of the returned ones before it. -/
theorem lt_of_leftOut (h : SortedByVotes view s.mapProposals order)
    {before after : List (UInt256 × BudgetEntry)} {hash : UInt256} {p : BudgetEntry}
    (hsplit : order = before ++ (hash, p) :: after) (helig : p.isEligible view = true)
    (hout : hash ∉ (granted view view.nTotalBudget order).map Prod.fst) :
    view.nTotalBudget < p.nAmount + ((((granted view view.nTotalBudget order).map Prod.fst).filter
      fun k => k ∈ before.map Prod.fst).map (amountOf s.mapProposals)).sum := by
  have hfilter : order.filter (fun e => e.2.isEligible view) =
      before.filter (fun e => e.2.isEligible view) ++
        (hash, p) :: after.filter (fun e => e.2.isEligible view) := by
    rw [hsplit, List.filter_append, List.filter_cons, if_pos helig]
  have hskip : (hash, p) ∉ Greedy.pick cost view.nTotalBudget 0
      (before.filter (fun e => e.2.isEligible view) ++
        (hash, p) :: after.filter (fun e => e.2.isEligible view)) := by
    rw [← hfilter]
    exact fun hin => hout (List.mem_map.2 ⟨_, hin, rfl⟩)
  have hlt := Greedy.lt_of_skipped hskip
  rw [zero_add] at hlt
  -- the returned proposals before it are those that were granted when its turn came
  have hbefore : ((granted view view.nTotalBudget order).map Prod.fst).filter
      (fun k => k ∈ before.map Prod.fst) =
        (granted view view.nTotalBudget before).map Prod.fst := by
    have hgranted : granted view view.nTotalBudget order = granted view view.nTotalBudget before ++
        Greedy.pick cost view.nTotalBudget (0 + Greedy.total cost (granted view view.nTotalBudget
          before)) ((hash, p) :: after.filter fun e => e.2.isEligible view) := by
      rw [granted, hfilter, Greedy.pick_append]
      rfl
    rw [hgranted, List.map_append, List.filter_append, List.filter_eq_self.2, List.filter_eq_nil_iff.2,
      List.append_nil]
    · intro k hk
      obtain ⟨e, he, rfl⟩ := List.mem_map.1 hk
      have hin : e ∈ (hash, p) :: after := by
        have := (Greedy.pick_sublist _ _).subset he
        rcases List.mem_cons.1 this with rfl | this
        · exact List.mem_cons_self
        · exact List.mem_cons_of_mem _ (List.mem_filter.1 this).1
      have hnodup := h.nodup
      rw [hsplit, List.map_append] at hnodup
      have hdisj := (List.nodup_append.1 hnodup).2.2
      simp only [decide_eq_true_eq]
      exact fun hb => hdisj _ hb _ (List.mem_map_of_mem hin) rfl
    · intro k hk
      have := ((granted_sublist view view.nTotalBudget before).map Prod.fst).subset hk
      simpa using this
  have hmem : ∀ e ∈ granted view view.nTotalBudget before,
      s.mapProposals.lookup e.1 = some e.2 := by
    intro e he
    refine h.lookup ?_
    rw [hsplit]
    exact List.mem_append_left _ ((granted_sublist view view.nTotalBudget before).subset he)
  rw [hbefore, sum_amountOf hmem]
  exact hlt

/-- **When the allocation is sound.**  From any prior state, and for any outcome of the sort, a call
of `GetBudget` allocates soundly if and only if every proposal that is not eligible has no amount
allotted before the call: only eligible proposals are given an amount or reset. -/
theorem soundAllocation_iff (view : BudgetView) (s : Proposals)
    (order : List (UInt256 × BudgetEntry)) (h : SortedByVotes view s.mapProposals order) :
    SoundAllocation view order s.mapProposals ↔
      ∀ hash p, s.mapProposals.lookup hash = some p → p.isEligible view = false →
        p.nAlloted = 0 := by
  obtain ⟨hret, hlookup⟩ := getBudget_spec h
  constructor
  · intro hsound hash p hp helig
    refine hsound.cleared hash p ?_ fun hin => ?_
    · rw [hlookup, hp, Option.map_some, if_neg (by simp [helig])]
    · obtain ⟨q, hq, hqelig⟩ := hsound.eligible hash hin
      obtain rfl := Option.some.inj (hp.symm.trans hq)
      rw [helig] at hqelig
      exact absurd hqelig (by simp)
  · intro hclear
    have hle : Greedy.total cost (granted view view.nTotalBudget order) ≤ view.nTotalBudget :=
      total_granted_le (nTotalBudget_bounds view).1 order
    refine ⟨?_, ?_, ?_, ?_, ?_, ?_⟩
    · rw [hret]
      intro hash hin
      obtain ⟨e, he, rfl⟩ := List.mem_map.1 hin
      exact ⟨e.2, lookup_of_mem_granted h he, isEligible_of_mem_granted he⟩
    · rw [hret, List.pairwise_map]
      refine (h.sorted.sublist (granted_sublist view view.nTotalBudget order)).imp_of_mem ?_
      intro a b ha hb hab p q hp hq
      rw [lookup_of_mem_granted h ha] at hp
      rw [lookup_of_mem_granted h hb] at hq
      cases hp
      cases hq
      exact hab
    · rw [hret, sum_amountOf fun e he => lookup_of_mem_granted h he]
      exact hle
    · intro before hash p after hsplit helig hout
      rw [hret] at hout ⊢
      exact lt_of_leftOut h hsplit helig hout
    · intro hash p hp hout
      rw [hret] at hout
      rw [hlookup] at hp
      obtain ⟨q, hq, rfl⟩ := Option.map_eq_some_iff.1 hp
      by_cases helig : q.isEligible view = true
      · rw [if_pos helig, if_neg hout]
      · rw [if_neg helig]
        exact hclear hash q hq (by simpa using helig)
    · rw [sum_alloted h hclear]
      exact hle

end Sound

/-! ## A proposal that loses its votes -/

namespace AllocationExample

open CBudgetManager (VoteExample.vote)

/-- A proposal for three months from height 43200 on, with the vote of one masternode. -/
def entry (fee voter : UInt256) (nAlloted : ℤ) : BudgetEntry where
  strProposalName := "road"
  strURL := ""
  nBlockStart := 43200
  nBlockEnd := 194400
  nAmount := 400000 * coin
  address := [0x52]
  nFeeTXHash := fee
  mapVotes := (∅ : Map UInt256 CBudgetVote).insert voter (VoteExample.vote voter [1])
  nTime := 0
  nAlloted := nAlloted

theorem amounts_entry (fee voter : UInt256) (nAlloted : ℤ) :
    10 * coin ≤ (entry fee voter nAlloted).nAmount ∧
      (entry fee voter nAlloted).nAmount ≤ 648000 * coin := by
  show 10 * coin ≤ 400000 * coin ∧ 400000 * coin ≤ 648000 * coin
  decide

/-- Two proposals, with what each is allotted. -/
def two (a b : ℤ) : Proposals where
  mapProposals := ((∅ : Map UInt256 BudgetEntry).insert 0xa1 (entry 0xb2 0x31 a)).insert 0xa2
    (entry 0xb1 0x32 b)
  amounts hash p hp := by
    rw [lookup_insert_eq, lookup_insert_eq] at hp
    split at hp
    · cases hp
      exact amounts_entry _ _ _
    · split at hp
      · cases hp
        exact amounts_entry _ _ _
      · exact absurd hp (by simp)

/-- A node at height 100 that knows these masternodes. -/
def view (find : COutPoint → Bool) : BudgetView where
  net := .main
  tip := some 100
  countEnabled := 5
  find := find
  now := 1500000000

/-- Both masternodes. -/
def both : BudgetView := view fun _ => true

/-- The second masternode only. -/
def second : BudgetView := view fun o => o.hash == 0x32

theorem perm_two (a b : ℤ) : [((0xa2 : UInt256), entry 0xb1 0x32 b), (0xa1, entry 0xb2 0x31 a)].Perm
    (sortedEntries uint256Le (two a b).mapProposals) :=
  (List.mergeSort_perm _ _).symm

theorem sorted_both : SortedByVotes both (two 0 0).mapProposals
    [(0xa1, entry 0xb2 0x31 0), (0xa2, entry 0xb1 0x32 0)] where
  perm := (List.Perm.swap _ _ _).trans (perm_two 0 0)
  sorted := by
    simp only [List.pairwise_cons, List.mem_singleton, forall_eq, List.not_mem_nil, false_implies,
      implies_true, List.Pairwise.nil, and_true]
    decide

theorem sorted_second : SortedByVotes second (two (400000 * coin) 0).mapProposals
    [(0xa2, entry 0xb1 0x32 0), (0xa1, entry 0xb2 0x31 (400000 * coin))] where
  perm := perm_two (400000 * coin) 0
  sorted := by
    simp only [List.pairwise_cons, List.mem_singleton, forall_eq, List.not_mem_nil, false_implies,
      implies_true, List.Pairwise.nil, and_true]
    decide

end AllocationExample

open AllocationExample in
/-- Two proposals with one vote each and nothing allotted: the allocation is sound. -/
theorem soundAllocation_both : SoundAllocation both
    [(0xa1, entry 0xb2 0x31 0), (0xa2, entry 0xb1 0x32 0)] (two 0 0).mapProposals := by
  refine (soundAllocation_iff both (two 0 0) _ sorted_both).2 fun hash p hp _ => ?_
  rcases List.mem_cons.1 (sorted_both.mem_keys hp) with h | h
  · cases h
    rfl
  · cases List.mem_singleton.1 h
    rfl

open AllocationExample in
/-- **A call, a masternode that goes away, and another call.**  The first call grants the first
proposal its amount; at the second it has lost its vote, the other proposal is granted the same
amount, and both stay allotted: 800000 coins out of 648000. -/
theorem allotted_above_budget :
    getBudget both [(0xa1, entry 0xb2 0x31 0), (0xa2, entry 0xb1 0x32 0)] (two 0 0).mapProposals =
        ((two (400000 * coin) 0).mapProposals, [0xa1]) ∧
      SortedByVotes second (two (400000 * coin) 0).mapProposals
        [(0xa2, entry 0xb1 0x32 0), (0xa1, entry 0xb2 0x31 (400000 * coin))] ∧
      (((getBudget second [(0xa2, entry 0xb1 0x32 0), (0xa1, entry 0xb2 0x31 (400000 * coin))]
        (two (400000 * coin) 0).mapProposals).1.entries.map fun e => e.2.nAlloted).sum =
          800000 * coin ∧ second.nTotalBudget = 648000 * coin) ∧
      ¬SoundAllocation second [(0xa2, entry 0xb1 0x32 0), (0xa1, entry 0xb2 0x31 (400000 * coin))]
        (two (400000 * coin) 0).mapProposals := by
  have hsum : ((getBudget second
      [(0xa2, entry 0xb1 0x32 0), (0xa1, entry 0xb2 0x31 (400000 * coin))]
      (two (400000 * coin) 0).mapProposals).1.entries.map fun e => e.2.nAlloted).sum =
        800000 * coin := by
    decide
  have htotal : second.nTotalBudget = 648000 * coin := by decide
  refine ⟨rfl, sorted_second, ⟨hsum, htotal⟩, fun h => ?_⟩
  have hle := h.allotted
  rw [hsum, htotal] at hle
  exact absurd hle (by decide)

end FairCoin
