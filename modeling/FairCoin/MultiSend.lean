import FairCoin.CoinSelection

/-!
# MultiSend

`CWallet::MultiSend` of `src/wallet.cpp`: after every block, the wallet looks for coinstakes that
have just matured and passes percentages of what they earned on to a list of addresses.

* `multiSend` — one call: the loop over the available coins, with its two counters.
* `SharedOnce` — of what a coinstake earned, no more is passed on than the percentages say.
* `sharedOnce_of_singleShares` — **a run of calls shares each reward once**, if at no call both
  settings are on while two outputs of one coinstake are eligible.

The amounts are worked out from the whole transaction, the loop runs over its outputs.  With both
settings on it goes on after a first send, and a second output of the same coinstake sends the same
amounts again.
-/

namespace FairCoin

/-! ## The wallet and its calls -/

/-- `static const int COINBASE_MATURITY` of `src/main.h`, which is not that of the network. -/
def staticCoinbaseMaturity : ℤ := 10

/-- `COutPoint::IsMasternodeReward`: the last output of a coinstake, if it does not pay the script of
the stake. -/
def isMasternodeReward (tx : CTransaction) (n : ℕ) : Bool :=
  tx.isCoinStake && decide (n + 1 = tx.vout.length) &&
    decide (tx.vout[1]?.map CTxOut.scriptPubKey ≠ tx.vout[n]?.map CTxOut.scriptPubKey)

/-- What stays the same while the chain grows: the settings, the list of addresses with their
percentages, and of each transaction the block it is in, its credit and its debit, which are amounts
of money.  `addressOf` is the address of a script, if it has one. -/
structure MultiSendWallet where
  vMultiSend : List (String × ℕ)
  sum_le : (vMultiSend.map Prod.snd).sum ≤ 100
  fMultiSendStake : Bool
  fMultiSendMasternodeReward : Bool
  vDisabledAddresses : List String
  addressOf : CScript → Option String
  scriptFor : String → CScript
  blockHeight : CTransaction → ℤ
  credit : CTransaction → ℤ
  debit : CTransaction → ℤ
  credit_range : ∀ tx, 0 ≤ credit tx ∧ credit tx ≤ Network.maxMoneyOut .main
  debit_range : ∀ tx, 0 ≤ debit tx ∧ debit tx ≤ Network.maxMoneyOut .main

/-- What one call finds: the height of the tip, the coins that `AvailableCoins` returns, the fee that
the first `CreateTransaction` sets, and whether the second one and `CommitTransaction` succeed. -/
structure MultiSendCall where
  isInitialBlockDownload : Bool
  isLocked : Bool
  nHeight : ℤ
  vCoins : List COutput
  nFeeRet : WalletCoin → List (CScript × ℤ) → ℕ
  creates : WalletCoin → List (CScript × ℤ) → Bool

/-- A transaction that was committed: the coin it spends, and what it pays besides the change. -/
structure MultiSent where
  coin : WalletCoin
  vecSend : List (CScript × ℤ)
  deriving DecidableEq

/-- The state between calls: the height of the last send, and all that was sent. -/
structure MultiSendState where
  nLastMultiSendHeight : ℤ
  sends : List MultiSent := []

namespace MultiSendWallet

variable (w : MultiSendWallet)

/-- `GetDepthInMainChain`; a coinstake has no SwiftTX lock. -/
def depth (nHeight : ℤ) (tx : CTransaction) : ℤ := nHeight - w.blockHeight tx + 1

/-- `sendMSonMNReward`. -/
def sendMSonMNReward (coin : WalletCoin) : Bool :=
  w.fMultiSendMasternodeReward && isMasternodeReward coin.tx coin.i

/-- `sendMSOnStake`. -/
def sendMSOnStake (coin : WalletCoin) : Bool :=
  w.fMultiSendStake && coin.tx.isCoinStake && !w.sendMSonMNReward coin

/-- The output has just matured, and is one the settings ask for. -/
def eligible (nHeight : ℤ) (coin : WalletCoin) : Bool :=
  decide (w.depth nHeight coin.tx = staticCoinbaseMaturity + 1) &&
    (w.sendMSOnStake coin || w.sendMSonMNReward coin)

/-- `vecSend`: a percentage of what the whole transaction earned for each address. -/
def shares (tx : CTransaction) : List (CScript × ℤ) :=
  w.vMultiSend.map fun e =>
    (w.scriptFor e.1, (wrap64 (wrap64 (w.credit tx - w.debit tx) * e.2)).tdiv 100)

/-- The outcome of an attempt to send. -/
inductive Attempt where
  | sent (vecSend : List (CScript × ℤ))
  | failed
  | crash

/-- An attempt: the fee and 500 more are taken off the last amount.  Without an address there is no
last amount to read. -/
def attempt (c : MultiSendCall) (coin : WalletCoin) : Attempt :=
  let vecSend := w.shares coin.tx
  let nFeeRet := c.nFeeRet coin vecSend
  match vecSend.getLast? with
  | none => .crash
  | some (script, nLastSendAmount) =>
      if nLastSendAmount < nFeeRet + 500 then .failed
      else
        let vecSend' := vecSend.dropLast ++ [(script, nLastSendAmount - nFeeRet - 500)]
        if c.creates coin vecSend' then .sent vecSend' else .failed

/-- The loop of `MultiSend`; `none` when it reads outside of a vector. -/
def multiSendLoop (c : MultiSendCall) : List COutput → ℕ → ℕ → MultiSendState →
    Option (Bool × MultiSendState)
  | [], _, _, st => some (true, st)
  | out :: outs, stakeSent, mnSent, st =>
      if !w.eligible c.nHeight out.coin then multiSendLoop c outs stakeSent mnSent st
      else
        match w.addressOf (out.coin.tx.vout.get ⟨out.coin.i, out.coin.lt⟩).scriptPubKey with
        | none => multiSendLoop c outs stakeSent mnSent st
        | some destMyAddress =>
            if destMyAddress ∈ w.vDisabledAddresses then some (false, st)
            else
              match w.attempt c out.coin with
              | .crash => none
              | .failed => some (false, st)
              | .sent vecSend =>
                  let st := ⟨c.nHeight, st.sends ++ [⟨out.coin, vecSend⟩]⟩
                  let stakeSent := if w.sendMSOnStake out.coin then stakeSent + 1 else stakeSent
                  let mnSent := if w.sendMSOnStake out.coin then mnSent else mnSent + 1
                  -- stop iterating if we are done
                  if (0 < mnSent ∧ 0 < stakeSent) ∨
                      (0 < stakeSent ∧ w.fMultiSendMasternodeReward = false) ∨
                      (0 < mnSent ∧ w.fMultiSendStake = false) then some (true, st)
                  else multiSendLoop c outs stakeSent mnSent st

/-- `MultiSend`. -/
def multiSend (c : MultiSendCall) (st : MultiSendState) : Option (Bool × MultiSendState) :=
  if c.isInitialBlockDownload || c.isLocked then some (false, st)
  else if c.nHeight ≤ st.nLastMultiSendHeight then some (false, st)
  else w.multiSendLoop c c.vCoins 0 0 st

/-- One call after another. -/
def multiSends : List MultiSendCall → MultiSendState → Option MultiSendState
  | [], st => some st
  | c :: cs, st =>
      match w.multiSend c st with
      | none => none
      | some (_, st') => multiSends cs st'

/-! ## What is shared -/

/-- The sum of the percentages. -/
def percent : ℕ := (w.vMultiSend.map Prod.snd).sum

/-- What a transaction may pass on. -/
def share (tx : CTransaction) : ℤ := w.percent * (w.credit tx - w.debit tx) / 100

end MultiSendWallet

/-- What was sent because of outputs of a transaction. -/
def MultiSendState.sentFor (st : MultiSendState) (tx : CTransaction) : List MultiSent :=
  st.sends.filter fun s => decide (s.coin.tx = tx)

/-- The amounts of a send. -/
def MultiSent.total (s : MultiSent) : ℤ := (s.vecSend.map Prod.snd).sum

/-- **Every reward is shared once.**  The calls return, and where anything was sent because of a
transaction it is no more than its share. -/
def MultiSendWallet.SharedOnce (w : MultiSendWallet) (calls : List MultiSendCall)
    (nLastMultiSendHeight : ℤ) : Prop :=
  ∃ st, w.multiSends calls { nLastMultiSendHeight } = some st ∧
    ∀ tx, st.sentFor tx ≠ [] → ((st.sentFor tx).map MultiSent.total).sum ≤ w.share tx

/-- There is an address to send to, and unless one of the settings is off, no transaction has two
outputs that are eligible. -/
def MultiSendWallet.SingleShares (w : MultiSendWallet) (c : MultiSendCall) : Prop :=
  w.vMultiSend ≠ [] ∧ (w.fMultiSendStake = false ∨ w.fMultiSendMasternodeReward = false ∨
    ((c.vCoins.filter fun out => w.eligible c.nHeight out.coin).map fun out => out.coin.tx).Nodup)

namespace MultiSendWallet

variable {w : MultiSendWallet} {tx : CTransaction}

/-! ## The amounts -/

theorem percent_le_of_mem {e : String × ℕ} (he : e ∈ w.vMultiSend) : e.2 ≤ 100 :=
  (List.single_le_sum (by simp) e.2 (List.mem_map_of_mem he)).trans w.sum_le

/-- Nothing overflows. -/
theorem shares_eq (tx : CTransaction) : w.shares tx = w.vMultiSend.map fun e =>
    (w.scriptFor e.1, ((w.credit tx - w.debit tx) * e.2).tdiv 100) := by
  refine List.map_congr_left fun e he => ?_
  have hpercent := percent_le_of_mem he
  obtain ⟨hc₀, hc⟩ := w.credit_range tx
  obtain ⟨hd₀, hd⟩ := w.debit_range tx
  rw [Network.maxMoneyOut_eq] at hc hd
  have hdiff : wrap64 (w.credit tx - w.debit tx) = w.credit tx - w.debit tx :=
    wrap64_of_lt (by omega) (by omega)
  have hprod : wrap64 ((w.credit tx - w.debit tx) * e.2) = (w.credit tx - w.debit tx) * e.2 := by
    have hp : (e.2 : ℤ) ≤ 100 := by exact_mod_cast hpercent
    have hp₀ : (0 : ℤ) ≤ e.2 := by positivity
    exact wrap64_of_lt (by nlinarith) (by nlinarith)
  rw [hdiff, hprod]

/-- Rounded down one by one, the amounts are at most the whole rounded down. -/
theorem sum_shares_le {R : ℤ} (l : List ℕ) :
    (l.map fun p : ℕ => R * p / 100).sum ≤ (l.sum : ℕ) * R / 100 := by
  induction l with
  | nil => simp
  | cons p l ih =>
    rw [List.map_cons, List.sum_cons, List.sum_cons]
    have hcast : ((p + l.sum : ℕ) : ℤ) * R = R * p + (l.sum : ℕ) * R := by
      push_cast
      ring
    rw [hcast]
    omega

/-- **What an attempt sends is no more than the share**, and only a reward is shared. -/
theorem total_le_of_sent {c : MultiSendCall} {coin : WalletCoin} {vecSend : List (CScript × ℤ)}
    (h : w.attempt c coin = .sent vecSend) :
    MultiSent.total ⟨coin, vecSend⟩ ≤ w.share coin.tx := by
  unfold attempt at h
  simp only at h
  split at h
  · exact absurd h (by simp)
  · next script nLast hlast =>
    split at h
    · exact absurd h (by simp)
    · next henough =>
      split at h
      · cases h
        rw [shares_eq] at hlast
        obtain ⟨e, -, heq⟩ := List.mem_map.1 (List.mem_of_getLast? hlast)
        -- the last amount pays a fee, so the reward is positive
        have hreward : 0 ≤ w.credit coin.tx - w.debit coin.tx := by
          by_contra hneg
          have hamount : ((w.credit coin.tx - w.debit coin.tx) * e.2).tdiv 100 = nLast :=
            congrArg Prod.snd heq
          have hnonneg : 0 ≤ -((w.credit coin.tx - w.debit coin.tx) * e.2) := by
            have := mul_nonpos_of_nonpos_of_nonneg (not_le.1 hneg).le (Int.natCast_nonneg e.2)
            omega
          have := Int.tdiv_nonneg hnonneg (show (0 : ℤ) ≤ 100 by decide)
          rw [Int.neg_tdiv] at this
          omega
        have hsplit := List.dropLast_append_getLast? _ hlast
        have hsum : ((w.vMultiSend.map fun e => (w.scriptFor e.1,
            ((w.credit coin.tx - w.debit coin.tx) * e.2).tdiv 100)).map Prod.snd).sum ≤
              w.share coin.tx := by
          have hle := sum_shares_le (R := w.credit coin.tx - w.debit coin.tx)
            (w.vMultiSend.map Prod.snd)
          refine le_of_eq_of_le ?_ hle
          rw [List.map_map, List.map_map]
          refine congrArg List.sum (List.map_congr_left fun e _ => ?_)
          exact Int.tdiv_eq_ediv_of_nonneg (mul_nonneg hreward (Int.natCast_nonneg e.2))
        rw [← hsplit, List.map_append, List.sum_append, List.map_singleton, List.sum_singleton]
          at hsum
        rw [MultiSent.total, List.map_append, List.sum_append, List.map_singleton,
          List.sum_singleton, shares_eq]
        omega
      · exact absurd h (by simp)

/-! ## Calls -/

/-- Between calls: no transaction was shared twice, none beyond its share, and all that were matured
no later than the last send. -/
structure Settled (w : MultiSendWallet) (st : MultiSendState) : Prop where
  once : (st.sends.map fun s => s.coin.tx).Nodup
  within : ∀ s ∈ st.sends, s.total ≤ w.share s.coin.tx
  past : ∀ s ∈ st.sends,
    w.blockHeight s.coin.tx + staticCoinbaseMaturity ≤ st.nLastMultiSendHeight

/-- What the settings allow for the coins that the loop has not come to yet. -/
def Allows (w : MultiSendWallet) (nHeight : ℤ) (outs : List COutput) : Prop :=
  w.fMultiSendStake = false ∨ w.fMultiSendMasternodeReward = false ∨
    ((outs.filter fun out => w.eligible nHeight out.coin).map fun out => out.coin.tx).Nodup

theorem Allows.tail {nHeight : ℤ} {out : COutput} {outs : List COutput}
    (h : w.Allows nHeight (out :: outs)) : w.Allows nHeight outs := by
  refine h.imp_right (Or.imp_right fun h => ?_)
  exact h.sublist (((List.sublist_cons_self out outs).filter _).map _)

theorem blockHeight_of_eligible {nHeight : ℤ} {coin : WalletCoin}
    (h : w.eligible nHeight coin = true) :
    w.blockHeight coin.tx + staticCoinbaseMaturity = nHeight := by
  unfold eligible depth at h
  rw [Bool.and_eq_true, decide_eq_true_eq] at h
  omega

/-- The state after one more send. -/
theorem Settled.send {st : MultiSendState} {c : MultiSendCall} {coin : WalletCoin}
    {vecSend : List (CScript × ℤ)} (h : w.Settled st) (hel : w.eligible c.nHeight coin = true)
    (hsent : w.attempt c coin = .sent vecSend) (hnew : ∀ s ∈ st.sends, s.coin.tx ≠ coin.tx)
    (hlast : st.nLastMultiSendHeight ≤ c.nHeight) :
    w.Settled ⟨c.nHeight, st.sends ++ [⟨coin, vecSend⟩]⟩ := by
  refine ⟨?_, fun s hs => ?_, fun s hs => ?_⟩
  · rw [List.map_append, List.map_singleton]
    refine List.nodup_append.2 ⟨h.once, List.nodup_singleton _, fun a ha b hb hab => ?_⟩
    obtain ⟨s, hs, rfl⟩ := List.mem_map.1 ha
    exact hnew s hs (hab.trans (List.mem_singleton.1 hb))
  · rcases List.mem_append.1 hs with hs | hs
    · exact h.within s hs
    · rw [List.mem_singleton.1 hs]
      exact total_le_of_sent hsent
  · rcases List.mem_append.1 hs with hs | hs
    · exact (h.past s hs).trans hlast
    · rw [List.mem_singleton.1 hs]
      exact (blockHeight_of_eligible hel).le

/-- With one of the settings off, the loop ends after a send. -/
theorem done_of_single {nHeight : ℤ} {coin : WalletCoin} {stakeSent mnSent : ℕ}
    (hel : w.eligible nHeight coin = true)
    (hsingle : w.fMultiSendStake = false ∨ w.fMultiSendMasternodeReward = false) :
    let stakeSent' := if w.sendMSOnStake coin then stakeSent + 1 else stakeSent
    let mnSent' := if w.sendMSOnStake coin then mnSent else mnSent + 1
    (0 < mnSent' ∧ 0 < stakeSent') ∨ (0 < stakeSent' ∧ w.fMultiSendMasternodeReward = false) ∨
      (0 < mnSent' ∧ w.fMultiSendStake = false) := by
  intro stakeSent' mnSent'
  cases hstake : w.sendMSOnStake coin with
  | true =>
    have hs : stakeSent' = stakeSent + 1 := by simp [stakeSent', hstake]
    refine .inr (.inl ⟨by omega, hsingle.resolve_left fun hoff => ?_⟩)
    simp [sendMSOnStake, hoff] at hstake
  | false =>
    have hm : mnSent' = mnSent + 1 := by simp [mnSent', hstake]
    refine .inr (.inr ⟨by omega, hsingle.resolve_right fun hoff => ?_⟩)
    simp [eligible, hstake, sendMSonMNReward, hoff] at hel

/-- The loop keeps the books. -/
theorem multiSendLoop_settled (hne : w.vMultiSend ≠ []) (c : MultiSendCall) :
    ∀ {outs : List COutput} {stakeSent mnSent : ℕ} {st : MultiSendState}, w.Settled st →
      w.Allows c.nHeight outs →
      (∀ s ∈ st.sends, ∀ out ∈ outs, w.eligible c.nHeight out.coin = true →
        s.coin.tx ≠ out.coin.tx) →
      st.nLastMultiSendHeight ≤ c.nHeight →
      ∃ ret st', w.multiSendLoop c outs stakeSent mnSent st = some (ret, st') ∧ w.Settled st' := by
  intro outs
  induction outs with
  | nil => exact fun h _ _ _ => ⟨_, _, rfl, h⟩
  | cons out outs ih =>
    intro stakeSent mnSent st h hallows hnew hlast
    have hskip := @ih stakeSent mnSent st h hallows.tail
      (fun s hs o ho => hnew s hs o (List.mem_cons_of_mem _ ho)) hlast
    rw [multiSendLoop]
    split
    · exact hskip
    · next hel =>
      rw [Bool.not_eq_true, Bool.not_eq_false'] at hel
      split
      · exact hskip
      · split
        · exact ⟨_, _, rfl, h⟩
        · split
          · next hcrash =>
            unfold attempt at hcrash
            simp only at hcrash
            split at hcrash
            · next hnone =>
              rw [List.getLast?_eq_none_iff, shares, List.map_eq_nil_iff] at hnone
              exact absurd hnone hne
            · split at hcrash
              · exact absurd hcrash (by simp)
              · split at hcrash <;> exact absurd hcrash (by simp)
          · exact ⟨_, _, rfl, h⟩
          · next vecSend hsent =>
            have hsettled := h.send hel hsent (fun s hs => hnew s hs out List.mem_cons_self hel) hlast
            have hdone := @done_of_single w c.nHeight out.coin stakeSent mnSent hel
            simp only at hdone ⊢
            generalize (if w.sendMSOnStake out.coin then stakeSent + 1 else stakeSent) = stakeSent'
              at hdone ⊢
            generalize (if w.sendMSOnStake out.coin then mnSent else mnSent + 1) = mnSent'
              at hdone ⊢
            split
            · exact ⟨_, _, rfl, hsettled⟩
            · next hgoes =>
              refine ih hsettled hallows.tail (fun s hs o ho heligible => ?_) le_rfl
              rcases List.mem_append.1 hs with hs | hs
              · exact hnew s hs o (List.mem_cons_of_mem _ ho) heligible
              · rw [List.mem_singleton.1 hs]
                -- both settings are on, and no transaction has two outputs that are eligible
                rcases hallows with hoff | hoff | hnodup
                · exact absurd (hdone (.inl hoff)) hgoes
                · exact absurd (hdone (.inr hoff)) hgoes
                · rw [List.filter_cons_of_pos (by simpa using hel), List.map_cons,
                    List.nodup_cons] at hnodup
                  intro heq
                  refine hnodup.1 (List.mem_map.2 ⟨o, List.mem_filter.2 ⟨ho, heligible⟩, heq.symm⟩)

/-- A call keeps the books. -/
theorem multiSend_settled {c : MultiSendCall} {st : MultiSendState} (h : w.Settled st)
    (hc : w.SingleShares c) :
    ∃ ret st', w.multiSend c st = some (ret, st') ∧ w.Settled st' := by
  unfold multiSend
  split
  · exact ⟨_, _, rfl, h⟩
  · split
    · exact ⟨_, _, rfl, h⟩
    · next hheight =>
      refine multiSendLoop_settled hc.1 c h hc.2 (fun s hs out _ hel heq => ?_) (not_le.1 hheight).le
      -- what was shared before matured at a lower height
      have hpast := h.past s hs
      have hnow := blockHeight_of_eligible hel
      rw [heq] at hpast
      omega

theorem multiSends_settled : ∀ {calls : List MultiSendCall} {st : MultiSendState}, w.Settled st →
    (∀ c ∈ calls, w.SingleShares c) → ∃ st', w.multiSends calls st = some st' ∧ w.Settled st' := by
  intro calls
  induction calls with
  | nil => exact fun h _ => ⟨_, rfl, h⟩
  | cons c calls ih =>
    intro st h hcalls
    obtain ⟨ret, st₁, hcall, h₁⟩ := multiSend_settled h (hcalls c List.mem_cons_self)
    obtain ⟨st₂, hrest, h₂⟩ := ih h₁ fun c' hc' => hcalls c' (List.mem_cons_of_mem _ hc')
    refine ⟨st₂, ?_, h₂⟩
    rw [multiSends, hcall]
    exact hrest

/-- What was sent for a transaction is one send at most. -/
theorem Settled.sum_sentFor_le {st : MultiSendState} (h : w.Settled st)
    (hsent : st.sentFor tx ≠ []) : ((st.sentFor tx).map MultiSent.total).sum ≤ w.share tx := by
  have htx : ∀ s ∈ st.sentFor tx, s ∈ st.sends ∧ s.coin.tx = tx := by
    intro s hs
    have := List.mem_filter.1 hs
    exact ⟨this.1, of_decide_eq_true this.2⟩
  have hnodup : ((st.sentFor tx).map fun s => s.coin.tx).Nodup :=
    h.once.sublist (List.filter_sublist.map _)
  match hlist : st.sentFor tx with
  | [] => exact absurd hlist hsent
  | [s] =>
    obtain ⟨hs, rfl⟩ := htx s (by rw [hlist]; simp)
    rw [List.map_singleton, List.sum_singleton]
    exact h.within s hs
  | s :: s' :: rest =>
    rw [hlist, List.map_cons, List.nodup_cons] at hnodup
    refine absurd (List.mem_map.2 ⟨s', by simp, ?_⟩) hnodup.1
    rw [(htx s' (by rw [hlist]; simp)).2, (htx s (by rw [hlist]; simp)).2]

/-- **Each reward is shared once** over a run of calls, in each of which one of the settings is off
or no transaction has two eligible outputs. -/
theorem sharedOnce_of_singleShares (w : MultiSendWallet) (calls : List MultiSendCall)
    (nLastMultiSendHeight : ℤ) (hcalls : ∀ c ∈ calls, w.SingleShares c) :
    w.SharedOnce calls nLastMultiSendHeight := by
  have hstart : w.Settled { nLastMultiSendHeight } := ⟨List.nodup_nil, by simp, by simp⟩
  obtain ⟨st, hrun, hst⟩ := multiSends_settled hstart hcalls
  exact ⟨st, hrun, fun tx hsent => hst.sum_sentFor_le hsent⟩

/-! ## A stake that was split -/

namespace MultiSendExample

/-- A coinstake whose stake was split into two outputs of the same script. -/
def stake : CTransaction where
  hash := 1
  vin := [{ prevout := ⟨2, 0⟩ }]
  vout := [⟨0, [], -10⟩, ⟨5 * coin, [0x51], -10⟩, ⟨5 * coin, [0x51], -10⟩]

/-- The two coins. -/
def coins : List WalletCoin := [⟨stake, 1, by decide⟩, ⟨stake, 2, by decide⟩]

/-- Half of every reward goes to one address; the stake has earned two coins. -/
def wallet (fMultiSendMasternodeReward : Bool) : MultiSendWallet where
  vMultiSend := [("a", 50)]
  sum_le := by decide
  fMultiSendStake := true
  fMultiSendMasternodeReward := fMultiSendMasternodeReward
  vDisabledAddresses := []
  addressOf _ := some "own"
  scriptFor _ := [0x52]
  blockHeight _ := 100
  credit _ := 10 * coin
  debit _ := 8 * coin
  credit_range _ := by decide
  debit_range _ := by decide

/-- The call at the height at which the stake has matured. -/
def call : MultiSendCall where
  isInitialBlockDownload := false
  isLocked := false
  nHeight := 110
  vCoins := coins.map fun c => ⟨c, 11, true⟩
  nFeeRet _ _ := 1000
  creates _ _ := true

end MultiSendExample

open MultiSendExample in
/-- With the setting for stakes alone, one of the two outputs sends. -/
theorem sharedOnce_stake : (wallet false).SharedOnce [call] 0 :=
  sharedOnce_of_singleShares (wallet false) [call] 0 fun c hc => by
    rw [List.mem_singleton.1 hc]
    exact ⟨by simp [wallet], .inr (.inl rfl)⟩

open MultiSendExample in
/-- With both settings on, each of the two outputs sends half of the reward. -/
theorem shared_twice : ¬(wallet true).SharedOnce [call] 0 := by
  rintro ⟨st, hrun, hshared⟩
  have hrun' : (wallet true).multiSends [call] { nLastMultiSendHeight := 0 } =
      some ⟨110, coins.map fun c => ⟨c, [([0x52], coin - 1500)]⟩⟩ := rfl
  cases hrun.symm.trans hrun'
  have hle := hshared stake (by decide)
  revert hle
  decide

end MultiSendWallet

end FairCoin
