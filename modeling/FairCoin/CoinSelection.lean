import FairCoin.Mixing
import FairCoin.Validation
import FairCoin.Lib.Marked

/-!
# Coin selection

`SelectCoinsMinConf` of `src/wallet.cpp`: the coins that pay for a transaction.

* `scanCoins` — one pass over the coins: a coin of the target's value ends the search, smaller ones
  are collected, and of the others the lowest is remembered.
* `approximateBestSubset` — the random search for a subset of the collected coins.
* `selectCoinsMinConf` — a pass without denominated amounts, and another with them.
* `SelectionChoices` — the random choices, and the freedom the sorting functions have.
* `SoundSelection` — what a selection should be.
* `soundSelection_iff` — **a selection is sound** for every outcome of the choices, unless the
  target plus a cent does not fit into 64 bits: then every coin counts as larger than the target.
-/

namespace FairCoin

open Store

/-! ## Coins of the wallet -/

/-- An output of a wallet transaction, `pair<const CWalletTx*, unsigned int>`. -/
structure WalletCoin where
  tx : CTransaction
  i : ℕ
  lt : i < tx.vout.length
  deriving DecidableEq

/-- The value of the output. -/
def WalletCoin.value (coin : WalletCoin) : ℤ := (coin.tx.vout.get ⟨coin.i, coin.lt⟩).nValue

/-- `COutput`. -/
structure COutput where
  coin : WalletCoin
  nDepth : ℤ
  fSpendable : Bool
  deriving DecidableEq

/-- The value of the output. -/
def COutput.value (out : COutput) : ℤ := out.coin.value

/-- `IsDenominatedAmount`. -/
def isDenominatedAmount (nInputAmount : ℤ) : Bool :=
  decide (nInputAmount ∈ Mixing.obfuscationDenominations)

/-- `less_then_denom`. -/
def lessThenDenom (out1 out2 : COutput) : Bool :=
  !isDenominatedAmount out1.value && isDenominatedAmount out2.value

/-- The confirmations a coin needs, with `IsFromMe` of the wallet. -/
structure Confirmations where
  nConfMine : ℤ
  nConfTheirs : ℤ
  isFromMe : CTransaction → Bool

/-- The coin is spendable and deep enough. -/
def Confirmations.eligible (conf : Confirmations) (out : COutput) : Bool :=
  out.fSpendable &&
    !decide (out.nDepth < if conf.isFromMe out.coin.tx then conf.nConfMine else conf.nConfTheirs)

/-- What is not determined by the arguments: the order after `random_shuffle` and the sort by
`less_then_denom`, the order after the sort by `CompareValueOnly` (neither sort is stable), and the
random bits of the two runs of `ApproximateBestSubset`, by round and position. -/
structure SelectionChoices where
  arrange : List COutput → List COutput
  arrange_perm : ∀ outs, (arrange outs).Perm outs
  arrange_sorted : ∀ outs, (arrange outs).Pairwise fun a b => lessThenDenom b a = false
  sortValues : List (ℤ × WalletCoin) → List (ℤ × WalletCoin)
  sortValues_perm : ∀ vs, (sortValues vs).Perm vs
  sortValues_sorted : ∀ vs, (sortValues vs).Pairwise fun a b => b.1 ≤ a.1
  bits : ℕ → ℕ → ℕ → Bool

/-! ## The search for a subset -/

/-- The variables of `ApproximateBestSubset`. -/
structure SubsetState where
  vfIncluded : List Bool
  nTotal : ℤ
  fReachedTarget : Bool
  vfBest : List Bool
  nBest : ℤ

/-- The body of the inner loop, for a coin that is tried. -/
def includeCoin (nTargetValue : ℤ) (s : SubsetState) (i : ℕ) (n : ℤ) : SubsetState :=
  let nTotal := wrap64 (s.nTotal + n)
  let vfIncluded := s.vfIncluded.set i true
  if nTargetValue ≤ nTotal then
    { vfIncluded := vfIncluded.set i false
      nTotal := wrap64 (nTotal - n)
      fReachedTarget := true
      vfBest := if nTotal < s.nBest then vfIncluded else s.vfBest
      nBest := if nTotal < s.nBest then nTotal else s.nBest }
  else { s with vfIncluded := vfIncluded, nTotal := nTotal }

/-- The first pass tries the coins whose random bit is set, the second one those that are not
included. -/
def SubsetState.tries (s : SubsetState) (first : Bool) (bits : ℕ → Bool) (i : ℕ) : Bool :=
  if first then bits i else !s.vfIncluded.getD i false

/-- One pass over the coins. -/
def subsetPass (nTargetValue : ℤ) (first : Bool) (bits : ℕ → Bool) (s : SubsetState) :
    ℕ → List (ℤ × WalletCoin) → SubsetState
  | _, [] => s
  | i, c :: cs =>
      if s.tries first bits i then
        subsetPass nTargetValue first bits (includeCoin nTargetValue s i c.1) (i + 1) cs
      else subsetPass nTargetValue first bits s (i + 1) cs

/-- One round: the second pass only when the first one has not reached the target. -/
def subsetRound (nTargetValue : ℤ) (vValue : List (ℤ × WalletCoin)) (bits : ℕ → Bool)
    (best : List Bool × ℤ) : List Bool × ℤ :=
  let s : SubsetState := {
    vfIncluded := List.replicate vValue.length false, nTotal := 0, fReachedTarget := false,
    vfBest := best.1, nBest := best.2 }
  let s₁ := subsetPass nTargetValue true bits s 0 vValue
  let s₂ := if s₁.fReachedTarget then s₁ else subsetPass nTargetValue false bits s₁ 0 vValue
  (s₂.vfBest, s₂.nBest)

/-- The rounds that are left, from round `nRep` on. -/
def subsetRounds (nTargetValue : ℤ) (vValue : List (ℤ × WalletCoin)) (bits : ℕ → ℕ → Bool) :
    ℕ → ℕ → List Bool × ℤ → List Bool × ℤ
  | 0, _, best => best
  | left + 1, nRep, best =>
      if best.2 ≠ nTargetValue then
        subsetRounds nTargetValue vValue bits left (nRep + 1)
          (subsetRound nTargetValue vValue (bits nRep) best)
      else best

/-- `ApproximateBestSubset`: the marks and the value of the best subset that was found. -/
def approximateBestSubset (vValue : List (ℤ × WalletCoin)) (nTotalLower nTargetValue : ℤ)
    (bits : ℕ → ℕ → Bool) : List Bool × ℤ :=
  subsetRounds nTargetValue vValue bits 1000 0 (List.replicate vValue.length true, nTotalLower)

/-! ## The selection -/

/-- The result: `setCoinsRet` and `nValueRet` beside the return value. -/
structure Selection where
  ret : Bool
  setCoinsRet : Finset WalletCoin
  nValueRet : ℤ

/-- Nothing is selected. -/
def Selection.failed : Selection := ⟨false, ∅, 0⟩

/-- Coins are added to the result one after the other. -/
def Selection.ofCoins (coins : List (ℤ × WalletCoin)) : Selection :=
  ⟨true, coins.foldl (fun s c => insert c.2 s) ∅, coins.foldl (fun n c => wrap64 (n + c.1)) 0⟩

/-- The variables of `SelectCoinsMinConf`. -/
structure ScanState where
  coinLowestLarger : ℤ × Option WalletCoin := (2 ^ 63 - 1, none)
  vValue : List (ℤ × WalletCoin) := []
  nTotalLower : ℤ := 0

/-- The coins a pass looks at. -/
def Confirmations.candidate (conf : Confirmations) (tryDenom : ℕ) (out : COutput) : Bool :=
  conf.eligible out && !(tryDenom == 0 && isDenominatedAmount out.value)

/-- The loop over the coins of one pass.  A coin of the value of the target is returned at once. -/
def scanCoins (conf : Confirmations) (nTargetValue : ℤ) (tryDenom : ℕ) :
    List COutput → ScanState → ScanState ⊕ (ℤ × WalletCoin)
  | [], s => .inl s
  | out :: rest, s =>
      if conf.candidate tryDenom out then
        let n := out.value
        if n = nTargetValue then .inr (n, out.coin)
        else if n < wrap64 (nTargetValue + cent) then
          scanCoins conf nTargetValue tryDenom rest
            { s with
              vValue := s.vValue ++ [(n, out.coin)]
              nTotalLower := wrap64 (s.nTotalLower + n) }
        else if n < s.coinLowestLarger.1 then
          scanCoins conf nTargetValue tryDenom rest { s with coinLowestLarger := (n, some out.coin) }
        else scanCoins conf nTargetValue tryDenom rest s
      else scanCoins conf nTargetValue tryDenom rest s

/-- How a pass ends. -/
inductive PassResult
  | done (r : Selection)
  | again (coinLowestLarger : ℤ × Option WalletCoin)
  | subset (s : ScanState)

/-- One pass. -/
def selectPass (conf : Confirmations) (nTargetValue : ℤ) (tryDenom : ℕ) (vCoins : List COutput)
    (coinLowestLarger : ℤ × Option WalletCoin) : PassResult :=
  match scanCoins conf nTargetValue tryDenom vCoins { coinLowestLarger := coinLowestLarger } with
  | .inr coin => .done (.ofCoins [coin])
  | .inl s =>
      if s.nTotalLower = nTargetValue then .done (.ofCoins s.vValue)
      else if s.nTotalLower < nTargetValue then
        match s.coinLowestLarger.2 with
        | none => .again s.coinLowestLarger
        | some coin => .done (.ofCoins [(s.coinLowestLarger.1, coin)])
      else .subset s

/-- The end of `SelectCoinsMinConf`: a subset of the smaller coins, or the lowest larger one. -/
def selectSubset (nTargetValue : ℤ) (choices : SelectionChoices) (s : ScanState) : Selection :=
  let vValue := choices.sortValues s.vValue
  let first := approximateBestSubset vValue s.nTotalLower nTargetValue (choices.bits 0)
  let best :=
    if first.2 ≠ nTargetValue ∧ wrap64 (nTargetValue + cent) ≤ s.nTotalLower then
      approximateBestSubset vValue s.nTotalLower (wrap64 (nTargetValue + cent)) (choices.bits 1)
    else first
  let subset : Selection := .ofCoins (Marked.picked vValue best.1)
  match s.coinLowestLarger.2 with
  | none => subset
  | some coin =>
      if (best.2 ≠ nTargetValue ∧ best.2 < wrap64 (nTargetValue + cent)) ∨
          s.coinLowestLarger.1 ≤ best.2 then
        .ofCoins [(s.coinLowestLarger.1, coin)]
      else subset

/-- `CWallet::SelectCoinsMinConf`. -/
def selectCoinsMinConf (conf : Confirmations) (choices : SelectionChoices) (nTargetValue : ℤ)
    (vCoins : List COutput) : Selection :=
  let outs := choices.arrange vCoins
  match selectPass conf nTargetValue 0 outs (2 ^ 63 - 1, none) with
  | .done r => r
  | .subset s => selectSubset nTargetValue choices s
  | .again coinLowestLarger =>
      match selectPass conf nTargetValue 1 outs coinLowestLarger with
      | .done r => r
      | .subset s => selectSubset nTargetValue choices s
      | .again _ => .failed

/-! ## The best subset -/

section Subset

variable {vValue : List (ℤ × WalletCoin)} {nTargetValue : ℤ}

/-- Amounts that are not negative and whose sum fits into 64 bits. -/
structure Addable (vValue : List (ℤ × WalletCoin)) : Prop where
  nonneg : ∀ c ∈ vValue, 0 ≤ c.1
  fits : (vValue.map Prod.fst).sum < 2 ^ 63

/-- **The invariant of the search.**  The running total is that of the included coins, and the best
value is that of the best marks and reaches the target. -/
structure Searching (vValue : List (ℤ × WalletCoin)) (nTargetValue : ℤ) (s : SubsetState) : Prop where
  length : s.vfIncluded.length = vValue.length
  total : s.nTotal = Marked.total Prod.fst vValue s.vfIncluded
  best : s.nBest = Marked.total Prod.fst vValue s.vfBest
  reached : nTargetValue ≤ s.nBest

theorem wrap64_total (hv : Addable vValue) (marks : List Bool) :
    wrap64 (Marked.total Prod.fst vValue marks) = Marked.total Prod.fst vValue marks := by
  have hge := Marked.total_nonneg hv.nonneg marks
  have hle := Marked.total_le hv.nonneg marks
  have hlt := hv.fits
  exact wrap64_of_lt (by omega) (by omega)

theorem set_true_set_false {marks : List Bool} {i : ℕ} (h : marks[i]? = some false) :
    (marks.set i true).set i false = marks := by
  rw [List.set_set]
  obtain ⟨hi, hget⟩ := List.getElem?_eq_some_iff.1 h
  conv_rhs => rw [← List.set_getElem_self hi]
  rw [hget]

/-- A coin that is not included is tried. -/
theorem Searching.includeCoin (hv : Addable vValue) {s : SubsetState}
    (h : Searching vValue nTargetValue s) {i : ℕ} {c : ℤ × WalletCoin} (hc : vValue[i]? = some c)
    (hi : s.vfIncluded[i]? = some false) :
    Searching vValue nTargetValue (FairCoin.includeCoin nTargetValue s i c.1) ∧
      ∀ j, j ≠ i → (FairCoin.includeCoin nTargetValue s i c.1).vfIncluded[j]? =
        s.vfIncluded[j]? := by
  have hadd := Marked.total_set_true Prod.fst hc hi
  have hnew : wrap64 (s.nTotal + c.1) = Marked.total Prod.fst vValue (s.vfIncluded.set i true) := by
    rw [← wrap64_total hv, hadd, h.total]
  have hold : wrap64 (Marked.total Prod.fst vValue (s.vfIncluded.set i true) - c.1) =
      Marked.total Prod.fst vValue s.vfIncluded := by
    rw [hadd, add_sub_cancel_right, wrap64_total hv]
  unfold FairCoin.includeCoin
  simp only [hnew]
  split
  · next hge =>
    refine ⟨⟨?_, ?_, ?_, ?_⟩, fun j hj => ?_⟩
    · simp [h.length]
    · rw [set_true_set_false hi]
      exact hold
    · simp only
      split
      · rfl
      · exact h.best
    · simp only
      split
      · exact hge
      · exact h.reached
    · rw [set_true_set_false hi]
  · refine ⟨⟨by simp [h.length], rfl, h.best, h.reached⟩, fun j hj => ?_⟩
    exact List.getElem?_set_ne (Ne.symm hj)

/-- A pass over the coins from position `i` on.  In the first pass none of them is included yet. -/
theorem Searching.subsetPass (hv : Addable vValue) (first : Bool) (bits : ℕ → Bool)
    {cs : List (ℤ × WalletCoin)} : ∀ {i : ℕ} {s : SubsetState}, vValue.drop i = cs →
      Searching vValue nTargetValue s →
      (first = true → ∀ j, i ≤ j → j < vValue.length → s.vfIncluded[j]? = some false) →
      Searching vValue nTargetValue (FairCoin.subsetPass nTargetValue first bits s i cs) := by
  induction cs with
  | nil => exact fun _ h _ => h
  | cons c cs ih =>
    intro i s hdrop h hfree
    have hc : vValue[i]? = some c := by
      rw [← List.head?_drop, hdrop]
      rfl
    have hlt : i < vValue.length := (List.getElem?_eq_some_iff.1 hc).1
    have hdrop' : vValue.drop (i + 1) = cs := by
      rw [← List.tail_drop, hdrop]
      rfl
    rw [FairCoin.subsetPass]
    split
    · next htry =>
      have hi : s.vfIncluded[i]? = some false := by
        cases first with
        | true => exact hfree rfl i le_rfl hlt
        | false =>
          have hlen : i < s.vfIncluded.length := by rw [h.length]; exact hlt
          simpa [SubsetState.tries, List.getD_eq_getElem?_getD, List.getElem?_eq_getElem hlen]
            using htry
      obtain ⟨hnext, hframe⟩ := h.includeCoin hv hc hi
      refine ih hdrop' hnext fun hfirst j hj hjlt => ?_
      rw [hframe j (by omega)]
      exact hfree hfirst j (by omega) hjlt
    · exact ih hdrop' h fun hfirst j hj hjlt => hfree hfirst j (by omega) hjlt

/-- The marks have the value, which reaches the target. -/
def BestSubset (vValue : List (ℤ × WalletCoin)) (nTargetValue : ℤ) (best : List Bool × ℤ) : Prop :=
  best.2 = Marked.total Prod.fst vValue best.1 ∧ nTargetValue ≤ best.2

theorem BestSubset.subsetRound (hv : Addable vValue) {best : List Bool × ℤ} (bits : ℕ → Bool)
    (h : BestSubset vValue nTargetValue best) :
    BestSubset vValue nTargetValue (FairCoin.subsetRound nTargetValue vValue bits best) := by
  have hstart : Searching vValue nTargetValue {
      vfIncluded := List.replicate vValue.length false, nTotal := 0, fReachedTarget := false,
      vfBest := best.1, nBest := best.2 } :=
    ⟨by simp, by simp [Marked.total], h.1, h.2⟩
  have hfirst := hstart.subsetPass hv true bits (i := 0) rfl
    (fun _ j _ hj => by simp [hj])
  unfold FairCoin.subsetRound
  simp only
  split
  · exact ⟨hfirst.best, hfirst.reached⟩
  · have hsecond := hfirst.subsetPass hv false bits (i := 0) rfl
      (fun hfalse => absurd hfalse (by simp))
    exact ⟨hsecond.best, hsecond.reached⟩

theorem BestSubset.subsetRounds (hv : Addable vValue) {bits : ℕ → ℕ → Bool} {left : ℕ} :
    ∀ {nRep : ℕ} {best : List Bool × ℤ}, BestSubset vValue nTargetValue best →
      BestSubset vValue nTargetValue
        (FairCoin.subsetRounds nTargetValue vValue bits left nRep best) := by
  induction left with
  | zero => exact fun h => h
  | succ left ih =>
    intro nRep best h
    rw [FairCoin.subsetRounds]
    split
    · exact ih (h.subsetRound hv (bits nRep))
    · exact h

/-- **The search.**  It starts with all coins, and never leaves the target. -/
theorem approximateBestSubset_spec (hv : Addable vValue) {nTotalLower : ℤ}
    (htotal : nTotalLower = (vValue.map Prod.fst).sum) (hle : nTargetValue ≤ nTotalLower)
    (bits : ℕ → ℕ → Bool) :
    BestSubset vValue nTargetValue (approximateBestSubset vValue nTotalLower nTargetValue bits) := by
  refine BestSubset.subsetRounds hv ⟨?_, hle⟩
  rw [htotal, Marked.total, Marked.picked_replicate_true]

end Subset

/-! ## One pass -/

/-- The coins of a wallet: no output twice, no negative amount, and no more than there is. -/
structure WalletCoins (net : Network) (outs : List COutput) : Prop where
  distinct : (outs.map COutput.coin).Nodup
  nonneg : ∀ out ∈ outs, 0 ≤ out.value
  supply : (outs.map COutput.value).sum ≤ net.maxMoneyOut

/-- A coin with its amount, as the selection keeps it. -/
def COutput.valued (out : COutput) : ℤ × WalletCoin := (out.value, out.coin)

section Pass

variable {net : Network} {outs outs' : List COutput} {nTargetValue bound : ℤ}

theorem sum_value_le (hnonneg : ∀ out ∈ outs, 0 ≤ out.value) (hsub : outs'.Sublist outs) :
    (outs'.map COutput.value).sum ≤ (outs.map COutput.value).sum := by
  refine List.Sublist.sum_le_sum (hsub.map COutput.value) fun v hv => ?_
  obtain ⟨out, hout, rfl⟩ := List.mem_map.1 hv
  exact hnonneg out hout

theorem WalletCoins.sublist (hw : WalletCoins net outs) (hsub : outs'.Sublist outs) :
    WalletCoins net outs' :=
  ⟨hw.distinct.sublist (hsub.map _), fun out hout => hw.nonneg out (hsub.subset hout),
    le_trans (sum_value_le hw.nonneg hsub) hw.supply⟩

theorem WalletCoins.perm (hw : WalletCoins net outs) (hperm : outs'.Perm outs) :
    WalletCoins net outs' :=
  ⟨(hperm.map _).nodup_iff.2 hw.distinct, fun out hout => hw.nonneg out (hperm.subset hout),
    by rw [(hperm.map COutput.value).sum_eq]; exact hw.supply⟩

theorem WalletCoins.value_le_sum (hw : WalletCoins net outs) {out : COutput} (hout : out ∈ outs) :
    out.value ≤ (outs.map COutput.value).sum := by
  have := sum_value_le hw.nonneg (List.singleton_sublist.2 hout)
  simpa using this

/-- **What a pass has collected** after some coins: those below the bound, their total, and the
lowest of the others; none of them had the value of the target. -/
structure Scanned (bound nTargetValue : ℤ) (seen : List COutput) (s : ScanState) : Prop where
  values : s.vValue = (seen.filter fun out => decide (out.value < bound)).map COutput.valued
  total : s.nTotalLower = (s.vValue.map Prod.fst).sum
  larger : (s.coinLowestLarger = (2 ^ 63 - 1, none) ∧ ∀ out ∈ seen, out.value < bound) ∨
    ∃ out ∈ seen, s.coinLowestLarger = (out.value, some out.coin) ∧ bound ≤ out.value ∧
      ∀ out' ∈ seen, bound ≤ out'.value → out.value ≤ out'.value
  other : ∀ out ∈ seen, out.value ≠ nTargetValue

theorem map_fst_valued (outs : List COutput) :
    (outs.map COutput.valued).map Prod.fst = outs.map COutput.value := by
  rw [List.map_map]
  rfl

theorem map_snd_valued (outs : List COutput) :
    (outs.map COutput.valued).map Prod.snd = outs.map COutput.coin := by
  rw [List.map_map]
  rfl

theorem forall_mem_concat {P : COutput → Prop} {seen : List COutput} {out : COutput}
    (hseen : ∀ o ∈ seen, P o) (hout : P out) : ∀ o ∈ seen ++ [out], P o := by
  intro o ho
  rw [List.mem_append, List.mem_singleton] at ho
  rcases ho with ho | rfl
  · exact hseen o ho
  · exact hout

namespace Scanned

variable {seen : List COutput} {out : COutput} {s : ScanState}

/-- A coin below the bound is collected. -/
theorem collect (hw : WalletCoins net (seen ++ [out])) (h : Scanned bound nTargetValue seen s)
    (hne : out.value ≠ nTargetValue) (hlt : out.value < bound) :
    Scanned bound nTargetValue (seen ++ [out]) { s with
      vValue := s.vValue ++ [out.valued]
      nTotalLower := wrap64 (s.nTotalLower + out.value) } := by
  have hvalues : s.vValue ++ [out.valued] =
      ((seen ++ [out]).filter fun out => decide (out.value < bound)).map COutput.valued := by
    rw [h.values, List.filter_append, List.map_append, List.filter_cons_of_pos (by simpa using hlt)]
    rfl
  refine ⟨hvalues, ?_, ?_, forall_mem_concat h.other hne⟩
  · -- the total of some of the coins of a wallet fits into 64 bits
    have hlow := hw.sublist (List.filter_sublist (p := fun out => decide (out.value < bound)))
    have hsum : ((s.vValue ++ [out.valued]).map Prod.fst).sum = s.nTotalLower + out.value := by
      rw [h.total]
      simp [COutput.valued]
    have hsupply := hlow.supply
    have hge : 0 ≤ ((s.vValue ++ [out.valued]).map Prod.fst).sum := by
      rw [hvalues, map_fst_valued]
      refine List.sum_nonneg fun v hv => ?_
      obtain ⟨o, ho, rfl⟩ := List.mem_map.1 hv
      exact hlow.nonneg o ho
    rw [← map_fst_valued, ← hvalues, net.maxMoneyOut_eq] at hsupply
    show wrap64 (s.nTotalLower + out.value) = _
    rw [hsum] at hge hsupply ⊢
    exact wrap64_of_lt (by omega) (by omega)
  · rcases h.larger with ⟨hnone, hall⟩ | ⟨low, hlow, hset, hge, hleast⟩
    · exact .inl ⟨hnone, forall_mem_concat hall hlt⟩
    · exact .inr ⟨low, List.mem_append_left _ hlow, hset, hge,
        forall_mem_concat hleast fun hb => absurd hb (not_le.2 hlt)⟩

theorem values_concat (h : Scanned bound nTargetValue seen s) (hge : bound ≤ out.value) :
    s.vValue = ((seen ++ [out]).filter fun out => decide (out.value < bound)).map
      COutput.valued := by
  rw [h.values, List.filter_append, List.filter_cons_of_neg (by simpa using hge), List.filter_nil,
    List.append_nil]

/-- A coin that is not below the bound is the lowest of these so far. -/
theorem lowest (h : Scanned bound nTargetValue seen s) (hne : out.value ≠ nTargetValue)
    (hge : bound ≤ out.value) (hlow : out.value < s.coinLowestLarger.1) :
    Scanned bound nTargetValue (seen ++ [out])
      { s with coinLowestLarger := (out.value, some out.coin) } := by
  refine ⟨h.values_concat hge, h.total, .inr ⟨out, by simp, rfl, hge, ?_⟩,
    forall_mem_concat h.other hne⟩
  refine forall_mem_concat (fun o ho hb => ?_) fun _ => le_rfl
  rcases h.larger with ⟨-, hall⟩ | ⟨low, -, hset, -, hleast⟩
  · exact absurd hb (not_le.2 (hall o ho))
  · rw [hset] at hlow
    exact le_trans (le_of_lt hlow) (hleast o ho hb)

/-- A coin that is not below the bound, nor the lowest of these. -/
theorem keep (hw : WalletCoins net (seen ++ [out])) (h : Scanned bound nTargetValue seen s)
    (hne : out.value ≠ nTargetValue) (hge : bound ≤ out.value)
    (hlow : ¬out.value < s.coinLowestLarger.1) : Scanned bound nTargetValue (seen ++ [out]) s := by
  refine ⟨h.values_concat hge, h.total, ?_, forall_mem_concat h.other hne⟩
  rcases h.larger with ⟨hnone, hall⟩ | ⟨low, hmem, hset, hlowge, hleast⟩
  · have hvalue := hw.value_le_sum (show out ∈ seen ++ [out] by simp)
    have hsupply := hw.supply
    rw [net.maxMoneyOut_eq] at hsupply
    rw [hnone] at hlow
    have hmax : out.value < 2 ^ 63 - 1 := by omega
    exact absurd hmax hlow
  · rw [hset] at hlow
    exact .inr ⟨low, List.mem_append_left _ hmem, hset, hlowge,
      forall_mem_concat hleast fun _ => not_lt.1 hlow⟩

end Scanned

/-- How the loop over the coins ends: with a coin of the target's value, or with all of them
looked at. -/
def ScanResult (bound nTargetValue : ℤ) (seen rest : List COutput) :
    ScanState ⊕ (ℤ × WalletCoin) → Prop
  | .inl s => Scanned bound nTargetValue (seen ++ rest) s
  | .inr c => ∃ out ∈ rest, out.value = nTargetValue ∧ c = out.valued

theorem ScanResult.cons {seen rest : List COutput} {out : COutput}
    {r : ScanState ⊕ (ℤ × WalletCoin)} (h : ScanResult bound nTargetValue (seen ++ [out]) rest r) :
    ScanResult bound nTargetValue seen (out :: rest) r := by
  cases r with
  | inl s =>
    unfold ScanResult at h ⊢
    rwa [List.append_assoc] at h
  | inr c =>
    obtain ⟨o, ho, h⟩ := h
    exact ⟨o, List.mem_cons_of_mem _ ho, h⟩

/-- The loop over the coins. -/
theorem scanCoins_spec (conf : Confirmations) (tryDenom : ℕ)
    (hbound : bound = wrap64 (nTargetValue + cent)) {rest : List COutput} :
    ∀ {seen : List COutput} {s : ScanState},
      WalletCoins net (seen ++ rest.filter (conf.candidate tryDenom)) →
      Scanned bound nTargetValue seen s →
      ScanResult bound nTargetValue seen (rest.filter (conf.candidate tryDenom))
        (scanCoins conf nTargetValue tryDenom rest s) := by
  induction rest with
  | nil =>
    intro seen s hw h
    simpa [scanCoins, ScanResult] using h
  | cons out rest ih =>
    intro seen s hw h
    rw [scanCoins]
    split
    · next hcand =>
      rw [List.filter_cons_of_pos hcand] at hw ⊢
      rw [List.append_cons] at hw
      have hw' : WalletCoins net (seen ++ [out]) := hw.sublist (List.sublist_append_left _ _)
      simp only
      rw [← hbound]
      split
      · next heq => exact ⟨out, List.mem_cons_self, heq, rfl⟩
      · next hne =>
        split
        · next hlt => exact (ih hw (h.collect hw' hne hlt)).cons
        · next hge =>
          split
          · next hlow => exact (ih hw (h.lowest hne (not_lt.1 hge) hlow)).cons
          · next hlow => exact (ih hw (h.keep hw' hne (not_lt.1 hge) hlow)).cons
    · next hcand =>
      rw [List.filter_cons_of_neg hcand] at hw ⊢
      exact ih hw h

/-- **A good selection** from some coins. -/
structure Selected (nTargetValue : ℤ) (outs : List COutput) (r : Selection) : Prop where
  ret : r.ret = true
  only : ∀ c ∈ r.setCoinsRet, ∃ out ∈ outs, out.coin = c
  value : r.nValueRet = ∑ c ∈ r.setCoinsRet, c.value
  enough : nTargetValue ≤ r.nValueRet
  exact : (∃ out ∈ outs, out.value = nTargetValue) → r.nValueRet = nTargetValue
  closest : nTargetValue + cent ≤ r.nValueRet → ∀ out ∈ outs, nTargetValue + cent ≤ out.value →
    r.nValueRet ≤ out.value

theorem foldl_insert (cs : List (ℤ × WalletCoin)) : ∀ S : Finset WalletCoin,
    cs.foldl (fun s c => insert c.2 s) S = S ∪ (cs.map Prod.snd).toFinset := by
  induction cs with
  | nil => simp
  | cons c cs ih =>
    intro S
    rw [List.foldl_cons, ih, List.map_cons, List.toFinset_cons, Finset.insert_union,
      Finset.union_insert]

theorem foldl_wrap64 {cs : List (ℤ × WalletCoin)} : ∀ {n : ℤ}, (∀ c ∈ cs, 0 ≤ c.1) → 0 ≤ n →
    n + (cs.map Prod.fst).sum < 2 ^ 63 →
      cs.foldl (fun n c => wrap64 (n + c.1)) n = n + (cs.map Prod.fst).sum := by
  induction cs with
  | nil => simp
  | cons c cs ih =>
    intro n hnonneg hn hfits
    have hc := hnonneg c (by simp)
    have hrest : 0 ≤ (cs.map Prod.fst).sum := List.sum_nonneg fun v hv => by
      obtain ⟨c', hc', rfl⟩ := List.mem_map.1 hv
      exact hnonneg c' (by simp [hc'])
    rw [List.map_cons, List.sum_cons] at hfits ⊢
    rw [List.foldl_cons, wrap64_of_lt (by omega) (by omega),
      ih (fun c' hc' => hnonneg c' (by simp [hc'])) (by omega) (by omega)]
    ring

/-- Coins of the wallet are added up without overflow. -/
theorem ofCoins_spec {cs : List (ℤ × WalletCoin)} (hw : WalletCoins net outs)
    (hcs : cs.Subperm (outs.map COutput.valued)) :
    (Selection.ofCoins cs).ret = true ∧
      (∀ c ∈ (Selection.ofCoins cs).setCoinsRet, ∃ out ∈ outs, out.coin = c) ∧
      (Selection.ofCoins cs).nValueRet = ∑ c ∈ (Selection.ofCoins cs).setCoinsRet, c.value ∧
      (Selection.ofCoins cs).nValueRet = (cs.map Prod.fst).sum := by
  obtain ⟨ds, hperm, hsub⟩ := hcs
  have hmem : ∀ c ∈ cs, ∃ out ∈ outs, out.valued = c := fun c hc =>
    List.mem_map.1 (hsub.subset (hperm.mem_iff.2 hc))
  have hset : (Selection.ofCoins cs).setCoinsRet = (cs.map Prod.snd).toFinset := by
    show cs.foldl (fun s c => insert c.2 s) ∅ = _
    rw [foldl_insert, Finset.empty_union]
  have hnodup : (cs.map Prod.snd).Nodup := by
    rw [← (hperm.map Prod.snd).nodup_iff]
    refine List.Nodup.sublist (hsub.map Prod.snd) ?_
    rw [map_snd_valued]
    exact hw.distinct
  have hnonneg : ∀ c ∈ cs, 0 ≤ c.1 := by
    intro c hc
    obtain ⟨out, hout, rfl⟩ := hmem c hc
    exact hw.nonneg out hout
  have hle : (cs.map Prod.fst).sum ≤ (outs.map COutput.value).sum := by
    rw [← (hperm.map Prod.fst).sum_eq, ← map_fst_valued]
    refine List.Sublist.sum_le_sum (hsub.map Prod.fst) fun v hv => ?_
    obtain ⟨out, hout, rfl⟩ := List.mem_map.1 (map_fst_valued outs ▸ hv)
    exact hw.nonneg out hout
  have hsupply := hw.supply
  rw [net.maxMoneyOut_eq] at hsupply
  have hvalue : (Selection.ofCoins cs).nValueRet = (cs.map Prod.fst).sum := by
    show cs.foldl (fun n c => wrap64 (n + c.1)) 0 = _
    rw [foldl_wrap64 hnonneg le_rfl (by omega), zero_add]
  refine ⟨rfl, fun c hc => ?_, ?_, hvalue⟩
  · rw [hset, List.mem_toFinset, List.mem_map] at hc
    obtain ⟨p, hp, rfl⟩ := hc
    obtain ⟨out, hout, rfl⟩ := hmem p hp
    exact ⟨out, hout, rfl⟩
  · rw [hvalue, hset, List.sum_toFinset _ hnodup, List.map_map]
    refine congrArg List.sum (List.map_congr_left fun c hc => ?_)
    obtain ⟨out, -, rfl⟩ := hmem c hc
    rfl

/-- One coin of the wallet is selected. -/
theorem ofCoins_single (hw : WalletCoins net outs) {out : COutput} (hout : out ∈ outs) :
    (Selection.ofCoins [out.valued]).ret = true ∧
      (∀ c ∈ (Selection.ofCoins [out.valued]).setCoinsRet, ∃ out ∈ outs, out.coin = c) ∧
      (Selection.ofCoins [out.valued]).nValueRet =
        ∑ c ∈ (Selection.ofCoins [out.valued]).setCoinsRet, c.value ∧
      (Selection.ofCoins [out.valued]).nValueRet = out.value := by
  have := ofCoins_spec hw
    (List.singleton_sublist.2 (List.mem_map_of_mem hout)).subperm
  simpa [COutput.valued] using this

/-- How a pass ends, when the target plus a cent fits into 64 bits. -/
def PassSpec (nTargetValue : ℤ) (outs : List COutput) : PassResult → Prop
  | .done r => Selected nTargetValue outs r
  | .again larger => larger = (2 ^ 63 - 1, none) ∧ (outs.map COutput.value).sum < nTargetValue
  | .subset s => Scanned (nTargetValue + cent) nTargetValue outs s ∧ nTargetValue < s.nTotalLower

theorem scanned_start : Scanned bound nTargetValue [] {} :=
  ⟨rfl, rfl, .inl ⟨rfl, by simp⟩, by simp⟩

/-- The lowest of the larger coins is selected. -/
theorem Scanned.selected_lowest {s : ScanState} {c : WalletCoin} (hw : WalletCoins net outs)
    (h : Scanned (nTargetValue + cent) nTargetValue outs s) (hc : s.coinLowestLarger.2 = some c) :
    Selected nTargetValue outs (.ofCoins [(s.coinLowestLarger.1, c)]) := by
  rcases h.larger with ⟨hnone, -⟩ | ⟨low, hlow, hset, hge, hleast⟩
  · rw [hnone] at hc
    exact absurd hc (by simp)
  · rw [hset] at hc ⊢
    cases hc
    obtain ⟨hret, honly, hsum, hvalue⟩ := ofCoins_single hw hlow
    have hcent : 0 < cent := by decide
    refine ⟨hret, honly, hsum, ?_, ?_, fun _ out hout hb => ?_⟩
    · show _ ≤ (Selection.ofCoins [low.valued]).nValueRet
      omega
    · rintro ⟨out, hout, heq⟩
      exact absurd heq (h.other out hout)
    · show (Selection.ofCoins [low.valued]).nValueRet ≤ _
      rw [hvalue]
      exact hleast out hout hb

/-- **One pass.** -/
theorem selectPass_spec (conf : Confirmations) (tryDenom : ℕ)
    (hw : WalletCoins net (outs.filter (conf.candidate tryDenom)))
    (hpos : 0 ≤ nTargetValue) (hfits : nTargetValue + cent < 2 ^ 63) :
    PassSpec nTargetValue (outs.filter (conf.candidate tryDenom))
      (selectPass conf nTargetValue tryDenom outs (2 ^ 63 - 1, none)) := by
  have hcent : 0 < cent := by decide
  have hwrap : nTargetValue + cent = wrap64 (nTargetValue + cent) :=
    (wrap64_of_lt (by omega) (by omega)).symm
  have hscan := scanCoins_spec conf tryDenom hwrap hw scanned_start
  unfold selectPass
  split
  · next c heq =>
    rw [heq] at hscan
    obtain ⟨out, hout, hvalue, rfl⟩ := hscan
    obtain ⟨hret, honly, hsum, hn⟩ := ofCoins_single hw hout
    refine ⟨hret, honly, hsum, by omega, fun _ => by omega, fun hge => ?_⟩
    exact absurd hge (by omega)
  · next s heq =>
    rw [heq] at hscan
    have hs : Scanned (nTargetValue + cent) nTargetValue
      (outs.filter (conf.candidate tryDenom)) s := hscan
    split
    · next htotal =>
      have hsub : s.vValue.Subperm
          ((outs.filter (conf.candidate tryDenom)).map COutput.valued) := by
        rw [hs.values]
        exact (List.filter_sublist.map _).subperm
      obtain ⟨hret, honly, hsum, hn⟩ := ofCoins_spec hw hsub
      rw [← hs.total, htotal] at hn
      refine ⟨hret, honly, hsum, hn.ge, fun _ => hn, fun hge => ?_⟩
      exact absurd hge (by omega)
    · next hne =>
      split
      · next hlt =>
        split
        · next hnone =>
          rcases hs.larger with ⟨hlarger, hall⟩ | ⟨low, -, hset, -⟩
          · refine ⟨hlarger, ?_⟩
            have hfilter : (outs.filter (conf.candidate tryDenom)).filter
                (fun out => decide (out.value < nTargetValue + cent)) =
                  outs.filter (conf.candidate tryDenom) :=
              List.filter_eq_self.2 fun out hout => decide_eq_true (hall out hout)
            rw [hs.total, hs.values, map_fst_valued, hfilter] at hlt
            exact hlt
          · rw [hset] at hnone
            exact absurd hnone (by simp)
        · next c hsome => exact hs.selected_lowest hw hsome
      · next hge => exact ⟨hs, by omega⟩

/-- **The choice between a subset and the lowest larger coin.** -/
theorem selectSubset_spec {s : ScanState} (choices : SelectionChoices) (hw : WalletCoins net outs)
    (hpos : 0 ≤ nTargetValue) (hfits : nTargetValue + cent < 2 ^ 63)
    (hs : Scanned (nTargetValue + cent) nTargetValue outs s) (hlt : nTargetValue < s.nTotalLower) :
    Selected nTargetValue outs (selectSubset nTargetValue choices s) := by
  have hcent : 0 < cent := by decide
  have hwrap : wrap64 (nTargetValue + cent) = nTargetValue + cent :=
    wrap64_of_lt (by omega) (by omega)
  have hperm := choices.sortValues_perm s.vValue
  have hlow := hw.sublist (List.filter_sublist (p := fun out =>
    decide (out.value < nTargetValue + cent)))
  have htotal : s.nTotalLower = ((choices.sortValues s.vValue).map Prod.fst).sum := by
    rw [hs.total, (hperm.map Prod.fst).sum_eq]
  have hv : Addable (choices.sortValues s.vValue) := by
    refine ⟨fun c hc => ?_, ?_⟩
    · rw [hperm.mem_iff, hs.values] at hc
      obtain ⟨out, hout, rfl⟩ := List.mem_map.1 hc
      exact hlow.nonneg out hout
    · have hsupply := hlow.supply
      rw [← map_fst_valued, ← hs.values, ← hs.total, htotal, net.maxMoneyOut_eq] at hsupply
      omega
  unfold selectSubset
  simp only [hwrap]
  set first := approximateBestSubset (choices.sortValues s.vValue) s.nTotalLower nTargetValue
    (choices.bits 0) with hfirst
  set best := (if first.2 ≠ nTargetValue ∧ nTargetValue + cent ≤ s.nTotalLower then
    approximateBestSubset (choices.sortValues s.vValue) s.nTotalLower (nTargetValue + cent)
      (choices.bits 1) else first) with hbest
  -- the second run, if there is one, has a higher target
  have hspec : BestSubset (choices.sortValues s.vValue) nTargetValue best := by
    rw [hbest]
    split
    · next hagain =>
      have := approximateBestSubset_spec hv htotal hagain.2 (choices.bits 1)
      exact ⟨this.1, by have := this.2; omega⟩
    · exact approximateBestSubset_spec hv htotal hlt.le (choices.bits 0)
  have hsub : (Marked.picked (choices.sortValues s.vValue) best.1).Subperm
      (outs.map COutput.valued) := by
    refine (Marked.picked_sublist _ _).subperm.trans (hperm.subperm.trans ?_)
    rw [hs.values]
    exact (List.filter_sublist.map _).subperm
  obtain ⟨hret, honly, hsum, hn⟩ := ofCoins_spec hw hsub
  have hn' : (Selection.ofCoins (Marked.picked (choices.sortValues s.vValue) best.1)).nValueRet =
      best.2 := by
    rw [hn, hspec.1]
    rfl
  have hexact : (∃ out ∈ outs, out.value = nTargetValue) → best.2 = nTargetValue := by
    rintro ⟨out, hout, heq⟩
    exact absurd heq (hs.other out hout)
  split
  · next hnone =>
    refine ⟨hret, honly, hsum, by rw [hn']; exact hspec.2, by rw [hn']; exact hexact,
      fun _ out hout hb => ?_⟩
    rcases hs.larger with ⟨-, hall⟩ | ⟨low, -, hset, -⟩
    · exact absurd hb (not_le.2 (hall out hout))
    · rw [hset] at hnone
      exact absurd hnone (by simp)
  · next c hsome =>
    split
    · exact hs.selected_lowest hw hsome
    · next hnot =>
      refine ⟨hret, honly, hsum, by rw [hn']; exact hspec.2, by rw [hn']; exact hexact,
        fun _ out hout hb => ?_⟩
      rw [hn']
      rcases hs.larger with ⟨-, hall⟩ | ⟨low, -, hset, -, hleast⟩
      · exact absurd hb (not_le.2 (hall out hout))
      · rw [hset] at hnot
        have hle := hleast out hout hb
        have hgt : ¬low.value ≤ best.2 := fun h => hnot (.inr h)
        omega

/-- Without candidates a pass decides nothing. -/
theorem selectPass_nil (conf : Confirmations) (tryDenom : ℕ)
    (hnone : outs.filter (conf.candidate tryDenom) = []) (hpos : 0 < nTargetValue) :
    selectPass conf nTargetValue tryDenom outs (2 ^ 63 - 1, none) = .again (2 ^ 63 - 1, none) := by
  have hscan : scanCoins conf nTargetValue tryDenom outs {} = .inl {} := by
    induction outs with
    | nil => rfl
    | cons out outs ih =>
      rw [List.filter_eq_nil_iff] at hnone
      rw [scanCoins, if_neg (hnone out (by simp))]
      exact ih (List.filter_eq_nil_iff.2 fun o ho => hnone o (by simp [ho]))
  unfold selectPass
  rw [hscan]
  simp only
  rw [if_neg (by omega), if_pos hpos]

/-- When the target plus a cent does not fit into 64 bits, every coin counts as larger than the
target, and a pass with candidates takes one of them. -/
theorem selectPass_overflow (conf : Confirmations) (tryDenom : ℕ)
    (hw : WalletCoins net (outs.filter (conf.candidate tryDenom)))
    (hsome : outs.filter (conf.candidate tryDenom) ≠ []) (hpos : 0 < nTargetValue)
    (hmax : nTargetValue < 2 ^ 63) (hover : 2 ^ 63 ≤ nTargetValue + cent) :
    ∃ r, selectPass conf nTargetValue tryDenom outs (2 ^ 63 - 1, none) = .done r ∧
      r.ret = true := by
  have hneg : wrap64 (nTargetValue + cent) < 0 := by
    have hcent : cent = 1000000 := rfl
    rw [wrap64, Int.bmod_def]
    omega
  have hscan := scanCoins_spec conf tryDenom rfl hw
    (show Scanned (wrap64 (nTargetValue + cent)) nTargetValue [] {} from scanned_start)
  unfold selectPass
  split
  · exact ⟨_, rfl, rfl⟩
  · next s heq =>
    rw [heq] at hscan
    have hs : Scanned (wrap64 (nTargetValue + cent)) nTargetValue
      (outs.filter (conf.candidate tryDenom)) s := hscan
    have hnil : (outs.filter (conf.candidate tryDenom)).filter
        (fun out => decide (out.value < wrap64 (nTargetValue + cent))) = [] :=
      List.filter_eq_nil_iff.2 fun out hout => by
        have := hw.nonneg out hout
        simp only [decide_eq_true_eq, not_lt]
        omega
    have htotal : s.nTotalLower = 0 := by
      rw [hs.total, hs.values, hnil]
      rfl
    rw [if_neg (by omega), if_pos (by omega)]
    split
    · next hnone =>
      rcases hs.larger with ⟨-, hall⟩ | ⟨low, -, hset, -⟩
      · obtain ⟨out, hout⟩ := List.exists_mem_of_ne_nil _ hsome
        have := hall out hout
        have := hw.nonneg out hout
        omega
      · rw [hset] at hnone
        exact absurd hnone (by simp)
    · exact ⟨_, rfl, rfl⟩

end Pass

/-! ## The whole selection -/

section Sound

variable {net : Network} {conf : Confirmations} {nTargetValue : ℤ} {vCoins : List COutput}

/-- The coins that are looked at: denominated amounts only when the others do not make up the
target. -/
def Confirmations.Considered (conf : Confirmations) (nTargetValue : ℤ) (vCoins : List COutput)
    (out : COutput) : Prop :=
  isDenominatedAmount out.value = false ∨
    ((vCoins.filter (conf.candidate 0)).map COutput.value).sum < nTargetValue

/-- **What a selection should be.**  It succeeds exactly when the eligible coins make up the target;
it consists of eligible coins, has their value, and reaches the target; it hits the target when a
coin that is not denominated does; and when it is a cent or more above, no coin that was considered
would have been closer. -/
structure SoundSelection (conf : Confirmations) (nTargetValue : ℤ) (vCoins : List COutput)
    (r : Selection) : Prop where
  complete : r.ret = true ↔ nTargetValue ≤ ((vCoins.filter conf.eligible).map COutput.value).sum
  only : r.ret = true → ∀ c ∈ r.setCoinsRet, ∃ out ∈ vCoins, conf.eligible out = true ∧ out.coin = c
  value : r.ret = true → r.nValueRet = ∑ c ∈ r.setCoinsRet, c.value
  enough : r.ret = true → nTargetValue ≤ r.nValueRet
  exact : r.ret = true → (∃ out ∈ vCoins, conf.eligible out = true ∧
    isDenominatedAmount out.value = false ∧ out.value = nTargetValue) → r.nValueRet = nTargetValue
  closest : r.ret = true → nTargetValue + cent ≤ r.nValueRet → ∀ out ∈ vCoins,
    conf.eligible out = true → conf.Considered nTargetValue vCoins out →
      nTargetValue + cent ≤ out.value → r.nValueRet ≤ out.value

theorem candidate_zero (conf : Confirmations) (out : COutput) : conf.candidate 0 out = true ↔
    conf.eligible out = true ∧ isDenominatedAmount out.value = false := by
  simp [Confirmations.candidate]

theorem candidate_one (conf : Confirmations) : conf.candidate 1 = conf.eligible := by
  funext out
  simp [Confirmations.candidate]

theorem Selected.le_sum {outs : List COutput} {r : Selection} (hw : WalletCoins net outs)
    (h : Selected nTargetValue outs r) : r.nValueRet ≤ (outs.map COutput.value).sum := by
  have hsum : (outs.map COutput.value).sum = ∑ c ∈ (outs.map COutput.coin).toFinset, c.value := by
    rw [List.sum_toFinset _ hw.distinct, List.map_map]
    rfl
  rw [h.value, hsum]
  refine Finset.sum_le_sum_of_subset_of_nonneg (fun c hc => ?_) fun c hc _ => ?_
  · obtain ⟨out, hout, rfl⟩ := h.only c hc
    exact List.mem_toFinset.2 (List.mem_map_of_mem hout)
  · obtain ⟨out, hout, rfl⟩ := List.mem_map.1 (List.mem_toFinset.1 hc)
    exact hw.nonneg out hout

/-- A good selection from the candidates of a pass is sound, when the pass has all the coins that
count. -/
theorem Selected.sound {r : Selection} {tryDenom : ℕ} (hw : WalletCoins net vCoins)
    (choices : SelectionChoices)
    (h : Selected nTargetValue ((choices.arrange vCoins).filter (conf.candidate tryDenom)) r)
    (hall : ∀ out ∈ vCoins, conf.eligible out = true → conf.Considered nTargetValue vCoins out →
      conf.candidate tryDenom out = true) : SoundSelection conf nTargetValue vCoins r := by
  have hperm := choices.arrange_perm vCoins
  have hmem : ∀ out, out ∈ (choices.arrange vCoins).filter (conf.candidate tryDenom) ↔
      out ∈ vCoins ∧ conf.candidate tryDenom out = true := by
    intro out
    rw [List.mem_filter, hperm.mem_iff]
  have hw' := (hw.perm hperm).sublist (List.filter_sublist (p := conf.candidate tryDenom))
  have helig : ∀ out, conf.candidate tryDenom out = true → conf.eligible out = true := by
    intro out hout
    rw [Confirmations.candidate, Bool.and_eq_true] at hout
    exact hout.1
  refine ⟨⟨fun _ => ?_, fun _ => h.ret⟩, fun _ c hc => ?_, fun _ => h.value, fun _ => h.enough, ?_, ?_⟩
  · have hle := h.le_sum hw'
    have hsub : ((choices.arrange vCoins).filter (conf.candidate tryDenom)).Sublist
        ((choices.arrange vCoins).filter conf.eligible) := List.monotone_filter_right _ helig
    have hsum := sum_value_le ((hw.perm hperm).sublist List.filter_sublist).nonneg hsub
    rw [((hperm.filter conf.eligible).map COutput.value).sum_eq] at hsum
    exact le_trans h.enough (le_trans hle hsum)
  · obtain ⟨out, hout, heq⟩ := h.only c hc
    obtain ⟨hin, hcand⟩ := (hmem out).1 hout
    exact ⟨out, hin, helig out hcand, heq⟩
  · rintro - ⟨out, hout, hel, hden, heq⟩
    exact h.exact ⟨out, (hmem out).2 ⟨hout, hall out hout hel (.inl hden)⟩, heq⟩
  · intro _ hge out hout hel hcons hb
    exact h.closest hge out ((hmem out).2 ⟨hout, hall out hout hel hcons⟩) hb

theorem sum_candidates (choices : SelectionChoices) (tryDenom : ℕ) :
    (((choices.arrange vCoins).filter (conf.candidate tryDenom)).map COutput.value).sum =
      ((vCoins.filter (conf.candidate tryDenom)).map COutput.value).sum :=
  (((choices.arrange_perm vCoins).filter _).map COutput.value).sum_eq

/-- A selection for a target that is not close to the largest amount. -/
theorem soundSelection_of_fits (hw : WalletCoins net vCoins) (choices : SelectionChoices)
    (hpos : 0 ≤ nTargetValue) (hfits : nTargetValue + cent < 2 ^ 63) :
    SoundSelection conf nTargetValue vCoins
      (selectCoinsMinConf conf choices nTargetValue vCoins) := by
  have hperm := choices.arrange_perm vCoins
  have hw' : ∀ tryDenom, WalletCoins net
      ((choices.arrange vCoins).filter (conf.candidate tryDenom)) :=
    fun tryDenom => (hw.perm hperm).sublist List.filter_sublist
  -- a pass that decides without denominated amounts has found enough of the others
  have hfirst : ∀ {r}, Selected nTargetValue ((choices.arrange vCoins).filter (conf.candidate 0)) r →
      SoundSelection conf nTargetValue vCoins r := by
    intro r h
    refine h.sound hw choices fun out hout hel hcons => (candidate_zero conf out).2 ⟨hel, ?_⟩
    rcases hcons with hden | hlt
    · exact hden
    · have hle := h.le_sum (hw' 0)
      have := h.enough
      rw [sum_candidates] at hle
      omega
  have hsecond : ∀ {r},
      Selected nTargetValue ((choices.arrange vCoins).filter (conf.candidate 1)) r →
      SoundSelection conf nTargetValue vCoins r := by
    intro r h
    refine h.sound hw choices fun out hout hel _ => ?_
    rw [candidate_one]
    exact hel
  have hspec := selectPass_spec conf 0 (hw' 0) hpos hfits
  unfold selectCoinsMinConf
  simp only
  split
  · next r heq =>
    rw [heq] at hspec
    exact hfirst hspec
  · next s heq =>
    rw [heq] at hspec
    exact hfirst (selectSubset_spec choices (hw' 0) hpos hfits hspec.1 hspec.2)
  · next larger heq =>
    rw [heq] at hspec
    rw [hspec.1]
    have hspec₁ := selectPass_spec conf 1 (hw' 1) hpos hfits
    split
    · next r heq₁ =>
      rw [heq₁] at hspec₁
      exact hsecond hspec₁
    · next s heq₁ =>
      rw [heq₁] at hspec₁
      exact hsecond (selectSubset_spec choices (hw' 1) hpos hfits hspec₁.1 hspec₁.2)
    · next larger₁ heq₁ =>
      rw [heq₁] at hspec₁
      have hlt := hspec₁.2
      rw [sum_candidates, candidate_one] at hlt
      have hfalse : ∀ {P : Prop}, Selection.failed.ret = true → P := fun h => absurd h (by decide)
      exact ⟨⟨hfalse, fun hle => absurd hlt (not_lt.2 hle)⟩, hfalse, hfalse, hfalse, hfalse, hfalse⟩

/-- **Sound and complete.**  For the coins of a wallet, every positive target and every outcome of
the random choices, the selection is sound exactly when the target plus a cent fits into 64 bits, or
no coin is eligible. -/
theorem soundSelection_iff (hw : WalletCoins net vCoins) (choices : SelectionChoices)
    (hpos : 0 < nTargetValue) (hmax : nTargetValue < 2 ^ 63) :
    SoundSelection conf nTargetValue vCoins
        (selectCoinsMinConf conf choices nTargetValue vCoins) ↔
      nTargetValue + cent < 2 ^ 63 ∨ ∀ out ∈ vCoins, conf.eligible out = false := by
  have hperm := choices.arrange_perm vCoins
  have hw' : ∀ tryDenom, WalletCoins net
      ((choices.arrange vCoins).filter (conf.candidate tryDenom)) :=
    fun tryDenom => (hw.perm hperm).sublist List.filter_sublist
  constructor
  · intro hsound
    by_contra hnot
    rw [not_or, not_lt] at hnot
    obtain ⟨hover, hsome⟩ := hnot
    -- a pass takes a coin, although all coins together do not make up the target
    have hret : (selectCoinsMinConf conf choices nTargetValue vCoins).ret = true := by
      unfold selectCoinsMinConf
      simp only
      by_cases hnil : (choices.arrange vCoins).filter (conf.candidate 0) = []
      · have hnil₁ : (choices.arrange vCoins).filter (conf.candidate 1) ≠ [] := by
          intro hnil₁
          refine hsome fun out hout => Bool.eq_false_iff.2 ?_
          rw [← candidate_one]
          exact List.filter_eq_nil_iff.1 hnil₁ out (hperm.mem_iff.2 hout)
        obtain ⟨r, hr, hret⟩ := selectPass_overflow conf 1 (hw' 1) hnil₁ hpos hmax hover
        rw [selectPass_nil conf 0 hnil hpos]
        simp only [hr]
        exact hret
      · obtain ⟨r, hr, hret⟩ := selectPass_overflow conf 0 (hw' 0) hnil hpos hmax hover
        rw [hr]
        exact hret
    have hle := hsound.complete.1 hret
    have hsupply := (hw.sublist (List.filter_sublist (p := conf.eligible))).supply
    have hcent : cent = 1000000 := rfl
    rw [net.maxMoneyOut_eq] at hsupply
    omega
  · rintro (hfits | hnone)
    · exact soundSelection_of_fits hw choices hpos.le hfits
    · have hnil : ∀ tryDenom, (choices.arrange vCoins).filter (conf.candidate tryDenom) = [] := by
        intro tryDenom
        refine List.filter_eq_nil_iff.2 fun out hout hcand => ?_
        rw [Confirmations.candidate, Bool.and_eq_true, hnone out (hperm.mem_iff.1 hout)] at hcand
        exact absurd hcand.1 (by simp)
      have hfailed : selectCoinsMinConf conf choices nTargetValue vCoins = .failed := by
        unfold selectCoinsMinConf
        simp only
        rw [selectPass_nil conf 0 (hnil 0) hpos]
        simp only
        rw [selectPass_nil conf 1 (hnil 1) hpos]
      have hempty : vCoins.filter conf.eligible = [] :=
        List.filter_eq_nil_iff.2 fun out hout => by rw [hnone out hout]; simp
      have hfalse : ∀ {P : Prop}, Selection.failed.ret = true → P := fun h => absurd h (by decide)
      rw [hfailed]
      refine ⟨⟨hfalse, fun hle => ?_⟩, hfalse, hfalse, hfalse, hfalse, hfalse⟩
      rw [hempty] at hle
      exact absurd hle (not_le.2 hpos)

end Sound

namespace SelectionExample

/-- Choices that keep the order of the coins as far as they can. -/
def choices : SelectionChoices where
  arrange outs := outs.filter (fun out => !isDenominatedAmount out.value) ++
    outs.filter fun out => !!isDenominatedAmount out.value
  arrange_perm outs := List.filter_append_perm _ outs
  arrange_sorted outs := by
    rw [List.pairwise_append]
    refine ⟨?_, ?_, fun a ha b hb => ?_⟩
    · refine (List.pairwise_of_forall_mem_list fun a ha b hb => ?_)
      simp only [List.mem_filter, Bool.not_eq_true'] at ha
      simp [lessThenDenom, ha.2]
    · refine (List.pairwise_of_forall_mem_list fun a ha b hb => ?_)
      simp only [List.mem_filter, Bool.not_not] at hb
      simp [lessThenDenom, hb.2]
    · simp only [List.mem_filter, Bool.not_eq_true'] at ha
      simp [lessThenDenom, ha.2]
  sortValues vs := vs.insertionSort fun a b => b.1 ≤ a.1
  sortValues_perm vs := List.perm_insertionSort _ vs
  sortValues_sorted vs := by
    have : Std.Total fun a b : ℤ × WalletCoin => b.1 ≤ a.1 := ⟨fun a b => le_total b.1 a.1⟩
    have : IsTrans (ℤ × WalletCoin) fun a b => b.1 ≤ a.1 := ⟨fun a b c hab hbc => le_trans hbc hab⟩
    exact List.pairwise_insertionSort _ vs
  bits _ _ _ := true

/-- One confirmation for all coins. -/
def conf : Confirmations := ⟨1, 1, fun _ => false⟩

/-- A confirmed coin. -/
def out (hash : UInt256) (nValue : ℤ) : COutput where
  coin := ⟨{ hash := hash, vin := [], vout := [⟨nValue, [0x51], -10⟩] }, 0, by simp⟩
  nDepth := 6
  fSpendable := true

theorem walletCoins_two : WalletCoins .main [out 1 (3 * coin), out 2 (4 * coin)] :=
  ⟨by decide, by decide, by decide⟩

theorem walletCoins_one : WalletCoins .main [out 1 1] :=
  ⟨by decide, by decide, by decide⟩

end SelectionExample

open SelectionExample in
/-- Two coins for a target that needs both. -/
theorem soundSelection_two : SoundSelection conf (5 * coin) [out 1 (3 * coin), out 2 (4 * coin)]
    (selectCoinsMinConf conf choices (5 * coin) [out 1 (3 * coin), out 2 (4 * coin)]) :=
  (soundSelection_iff walletCoins_two choices (by decide) (by decide)).2 (.inl (by decide))

open SelectionExample in
/-- A coin of one unit is taken for the largest amount there is. -/
theorem selection_overflows : WalletCoins .main [out 1 1] ∧
    (selectCoinsMinConf conf choices (2 ^ 63 - 1) [out 1 1]).ret = true ∧
    (selectCoinsMinConf conf choices (2 ^ 63 - 1) [out 1 1]).nValueRet = 1 ∧
    ¬SoundSelection conf (2 ^ 63 - 1) [out 1 1]
      (selectCoinsMinConf conf choices (2 ^ 63 - 1) [out 1 1]) := by
  have hret : (selectCoinsMinConf conf choices (2 ^ 63 - 1) [out 1 1]).ret = true := by
    decide
  have hvalue : (selectCoinsMinConf conf choices (2 ^ 63 - 1) [out 1 1]).nValueRet = 1 := by
    decide
  refine ⟨walletCoins_one, hret, hvalue, fun hsound => ?_⟩
  have := hsound.enough hret
  rw [hvalue] at this
  exact absurd this (by decide)

end FairCoin
