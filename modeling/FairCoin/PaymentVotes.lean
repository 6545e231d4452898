import FairCoin.Payments
import FairCoin.Lib.Store
import FairCoin.Lib.Run

/-!
# Votes for masternode payments

The bookkeeping of `src/masternode-payments.cpp`: masternodes say whom to pay at a height
(`mnw` messages), the votes are kept by hash in `mapMasternodePayeeVotes`, counted by payee in
`mapMasternodeBlocks`, and dropped when they are old.

* `addWinningMasternode`, `cleanPaymentList` — one vote is recorded, old votes are dropped.
* `TallyInv` — the counts are those of the recorded votes; `tallyInv_run` keeps it through every
  sequence of the two.
* `processMnw` — the message handler, with `canVote`, which remembers the last height a masternode
  voted for.
-/

namespace FairCoin

open Store

/-! ## The tables -/

/-- `CMasternodePaymentWinner`: the masternode `vinMasternode` wants `payee` to be paid at
`nBlockHeight`. -/
structure CMasternodePaymentWinner where
  vinMasternode : CTxIn
  nBlockHeight : ℤ
  payee : CScript
  vchSig : List UInt8 := []
  deriving DecidableEq, Repr

/-- The hash a vote is filed under, of the serialised payee, height and outpoint. -/
abbrev WinnerHash := CScript → ℤ → COutPoint → UInt256

/-- `CMasternodePaymentWinner::GetHash`. -/
def CMasternodePaymentWinner.getHash (hash : WinnerHash) (w : CMasternodePaymentWinner) : UInt256 :=
  hash w.payee w.nBlockHeight w.vinMasternode.prevout

/-- The maps of `CMasternodePayments`. -/
structure PaymentVotes where
  mapMasternodePayeeVotes : Map UInt256 CMasternodePaymentWinner := ∅
  mapMasternodeBlocks : Map ℤ CMasternodeBlockPayees := ∅
  mapMasternodesLastVote : Map UInt256 ℤ := ∅

/-- `CMasternodePayments::AddWinningMasternode`, with the block hashes the node knows. -/
def addWinningMasternode (hash : WinnerHash) (getBlockHash : ℤ → Option UInt256) (p : PaymentVotes)
    (winnerIn : CMasternodePaymentWinner) : PaymentVotes × Bool :=
  match getBlockHash (winnerIn.nBlockHeight - 100) with
  | none => (p, false)
  | some _ =>
      if (p.mapMasternodePayeeVotes.lookup (winnerIn.getHash hash)).isSome then (p, false)
      else
        let blockPayees := (p.mapMasternodeBlocks.lookup winnerIn.nBlockHeight).getD
          { nBlockHeight := winnerIn.nBlockHeight }
        ({ p with
            mapMasternodePayeeVotes :=
              p.mapMasternodePayeeVotes.insert (winnerIn.getHash hash) winnerIn
            mapMasternodeBlocks :=
              p.mapMasternodeBlocks.insert winnerIn.nBlockHeight
                (blockPayees.addPayee winnerIn.payee 1) }, true)

/-- What `CleanPaymentList` reads: the height of the tip, when there is one and the lock is free,
and the number of masternodes. -/
structure CleanEnv where
  tip : Option ℤ
  size : ℕ

/-- The height is too far behind the tip for `CleanPaymentList` to keep its votes.  A quarter more
than the number of masternodes is computed in floating point, without rounding. -/
def tooOld (nHeight : ℤ) (size : ℕ) (nBlockHeight : ℤ) : Bool :=
  let nLimit : ℤ := max (size * 5 / 4) 1000
  decide (nLimit < wrap32 (nHeight - nBlockHeight))

/-- One round of the loop of `CleanPaymentList`. -/
def cleanWinner (nHeight : ℤ) (size : ℕ) (p : PaymentVotes)
    (e : (_ : UInt256) × CMasternodePaymentWinner) : PaymentVotes :=
  if tooOld nHeight size e.2.nBlockHeight then
    { p with
      mapMasternodePayeeVotes := p.mapMasternodePayeeVotes.erase e.1
      mapMasternodeBlocks := p.mapMasternodeBlocks.erase e.2.nBlockHeight }
  else p

/-- `CMasternodePayments::CleanPaymentList`. -/
def cleanPaymentList (env : CleanEnv) (p : PaymentVotes) : PaymentVotes :=
  match env.tip with
  | none => p
  | some nHeight => p.mapMasternodePayeeVotes.entries.foldl (cleanWinner nHeight env.size) p

/-! ## Counting -/

/-- The votes `vecPayments` counts for a script. -/
def CMasternodeBlockPayees.votesFor (b : CMasternodeBlockPayees) (script : CScript) : ℤ :=
  ((b.vecPayments.find? fun q => q.scriptPubKey == script).map CMasternodePayee.nVotes).getD 0

/-- The votes counted for a script at a height. -/
def PaymentVotes.nVotes (p : PaymentVotes) (h : ℤ) (script : CScript) : ℤ :=
  ((p.mapMasternodeBlocks.lookup h).map fun b => b.votesFor script).getD 0

/-- The votes recorded for a script at a height. -/
def PaymentVotes.recorded (p : PaymentVotes) (h : ℤ) (script : CScript) : ℕ :=
  p.mapMasternodePayeeVotes.entries.countP fun e => e.2.nBlockHeight == h && e.2.payee == script

/-- The tables agree: the counts are those of the recorded votes, no height is without votes, no
script is listed twice, and a table is filed under its height. -/
structure TallyInv (p : PaymentVotes) : Prop where
  tally : ∀ h script, p.nVotes h script = p.recorded h script
  voted : ∀ h b, p.mapMasternodeBlocks.lookup h = some b →
    b.vecPayments ≠ [] ∧ ∀ q ∈ b.vecPayments, 0 < q.nVotes
  scripts : ∀ h b, p.mapMasternodeBlocks.lookup h = some b →
    (b.vecPayments.map CMasternodePayee.scriptPubKey).Nodup
  filed : ∀ h b, p.mapMasternodeBlocks.lookup h = some b → b.nBlockHeight = h

/-! ## One more vote for a payee -/

namespace CMasternodeBlockPayees

theorem mem_addPayee_go {payeeIn : CScript} {q : CMasternodePayee} {ps : List CMasternodePayee}
    (hq : q ∈ addPayee.go payeeIn 1 ps) :
    q ∈ ps ∨ q.scriptPubKey = payeeIn ∧ (q.nVotes = 1 ∨ ∃ r ∈ ps, q.nVotes = r.nVotes + 1) := by
  induction ps with
  | nil =>
    rw [addPayee.go, List.mem_singleton] at hq
    exact .inr ⟨by rw [hq], .inl (by rw [hq])⟩
  | cons r ps ih =>
    rw [addPayee.go] at hq
    split at hq
    · next hr =>
      rcases List.mem_cons.1 hq with rfl | hq
      · exact .inr ⟨hr, .inr ⟨r, by simp, rfl⟩⟩
      · exact .inl (by simp [hq])
    · rcases List.mem_cons.1 hq with rfl | hq
      · exact .inl (by simp)
      · rcases ih hq with hq | ⟨hs, hv | ⟨r', hr', hv⟩⟩
        · exact .inl (by simp [hq])
        · exact .inr ⟨hs, .inl hv⟩
        · exact .inr ⟨hs, .inr ⟨r', by simp [hr'], hv⟩⟩

theorem addPayee_go_ne_nil (payeeIn : CScript) (n : ℤ) (ps : List CMasternodePayee) :
    addPayee.go payeeIn n ps ≠ [] := by
  cases ps with
  | nil => simp [addPayee.go]
  | cons r ps =>
    rw [addPayee.go]
    split <;> simp

theorem map_scriptPubKey_addPayee_go (payeeIn : CScript) (n : ℤ) (ps : List CMasternodePayee) :
    (addPayee.go payeeIn n ps).map CMasternodePayee.scriptPubKey =
      if payeeIn ∈ ps.map CMasternodePayee.scriptPubKey then
        ps.map CMasternodePayee.scriptPubKey
      else ps.map CMasternodePayee.scriptPubKey ++ [payeeIn] := by
  induction ps with
  | nil => simp [addPayee.go]
  | cons r ps ih =>
    rw [addPayee.go]
    by_cases hr : r.scriptPubKey = payeeIn
    · simp [hr]
    · rw [if_neg hr, List.map_cons, ih, List.map_cons]
      simp only [List.mem_cons, Ne.symm hr, false_or]
      split <;> simp

theorem find?_addPayee_go (payeeIn script : CScript) (n : ℤ) (ps : List CMasternodePayee) :
    (((addPayee.go payeeIn n ps).find? fun q => q.scriptPubKey == script).map
        CMasternodePayee.nVotes).getD 0 =
      ((ps.find? fun q => q.scriptPubKey == script).map CMasternodePayee.nVotes).getD 0 +
        if script = payeeIn then n else 0 := by
  induction ps with
  | nil =>
    rw [addPayee.go]
    by_cases hs : script = payeeIn
    · simp [hs]
    · simp [hs, Ne.symm hs]
  | cons r ps ih =>
    rw [addPayee.go]
    by_cases hr : r.scriptPubKey = payeeIn
    · rw [if_pos hr]
      by_cases hs : script = payeeIn
      · simp [hs, hr]
      · have hne : ¬r.scriptPubKey = script := fun h => hs (h.symm.trans hr)
        simp [hs, hne]
    · rw [if_neg hr]
      by_cases hrs : r.scriptPubKey = script
      · have hs : ¬script = payeeIn := fun h => hr (hrs.trans h)
        simp [hrs, hs]
      · simpa [hrs] using ih

/-- A vote adds one to its payee. -/
theorem votesFor_addPayee (b : CMasternodeBlockPayees) (payeeIn script : CScript) :
    (b.addPayee payeeIn 1).votesFor script = b.votesFor script + if script = payeeIn then 1 else 0 :=
  find?_addPayee_go payeeIn script 1 b.vecPayments

theorem nodup_addPayee {b : CMasternodeBlockPayees} {payeeIn : CScript}
    (h : (b.vecPayments.map CMasternodePayee.scriptPubKey).Nodup) :
    ((b.addPayee payeeIn 1).vecPayments.map CMasternodePayee.scriptPubKey).Nodup := by
  change ((addPayee.go payeeIn 1 b.vecPayments).map _).Nodup
  rw [map_scriptPubKey_addPayee_go]
  split
  · exact h
  · next hno =>
    rw [List.nodup_append]
    refine ⟨h, List.nodup_singleton _, fun a ha c hc => ?_⟩
    rw [List.mem_singleton] at hc
    rintro rfl
    exact hno (hc ▸ ha)

theorem voted_addPayee {b : CMasternodeBlockPayees} {payeeIn : CScript}
    (h : ∀ q ∈ b.vecPayments, 0 < q.nVotes) :
    (b.addPayee payeeIn 1).vecPayments ≠ [] ∧
      ∀ q ∈ (b.addPayee payeeIn 1).vecPayments, 0 < q.nVotes := by
  refine ⟨addPayee_go_ne_nil payeeIn 1 b.vecPayments, fun q hq => ?_⟩
  rcases mem_addPayee_go hq with hq | ⟨-, hv | ⟨r, hr, hv⟩⟩
  · exact h q hq
  · omega
  · have := h r hr
    omega

end CMasternodeBlockPayees

/-! ## The two operations keep the tables in agreement -/

namespace TallyInv

theorem start : TallyInv {} where
  tally _ _ := rfl
  voted _ _ h := absurd h (by simp)
  scripts _ _ h := absurd h (by simp)
  filed _ _ h := absurd h (by simp)

variable {p : PaymentVotes} {hash : WinnerHash} {getBlockHash : ℤ → Option UInt256}

theorem addWinningMasternode (hI : TallyInv p) (w : CMasternodePaymentWinner) :
    TallyInv (FairCoin.addWinningMasternode hash getBlockHash p w).1 := by
  rw [FairCoin.addWinningMasternode]
  split
  · exact hI
  split
  · exact hI
  next hnew =>
  have hnone : p.mapMasternodePayeeVotes.lookup (w.getHash hash) = none := by simpa using hnew
  set b := (p.mapMasternodeBlocks.lookup w.nBlockHeight).getD { nBlockHeight := w.nBlockHeight }
    with hb
  -- what the table of the height is, before the vote
  have hold : (p.mapMasternodeBlocks.lookup w.nBlockHeight = some b) ∨
      (p.mapMasternodeBlocks.lookup w.nBlockHeight = none ∧ b = { nBlockHeight := w.nBlockHeight }) := by
    cases hl : p.mapMasternodeBlocks.lookup w.nBlockHeight with
    | none => exact .inr ⟨rfl, by rw [hb, hl]; rfl⟩
    | some c => exact .inl (by rw [hb, hl]; rfl)
  have hvotes : ∀ script, p.nVotes w.nBlockHeight script = b.votesFor script := by
    intro script
    rcases hold with hl | ⟨hl, hbe⟩
    · rw [PaymentVotes.nVotes, hl]
      rfl
    · rw [PaymentVotes.nVotes, hl, hbe]
      rfl
  refine ⟨fun h script => ?_, fun h c hc => ?_, fun h c hc => ?_, fun h c hc => ?_⟩
  · rw [PaymentVotes.recorded, entries_insert_of_lookup_eq_none w hnone, List.countP_cons,
      PaymentVotes.nVotes]
    simp only [lookup_insert_eq]
    have htally := hI.tally h script
    rw [PaymentVotes.recorded] at htally
    by_cases hh : h = w.nBlockHeight
    · subst hh
      rw [if_pos rfl, Option.map_some, Option.getD_some, CMasternodeBlockPayees.votesFor_addPayee,
        ← hvotes, htally]
      by_cases hs : script = w.payee
      · simp [hs]
      · simp [hs, Ne.symm hs]
    · rw [if_neg hh]
      rw [PaymentVotes.nVotes] at htally
      rw [htally]
      simp [Ne.symm hh]
  · simp only [lookup_insert_eq] at hc
    split at hc
    · cases hc
      refine CMasternodeBlockPayees.voted_addPayee fun q hq => ?_
      rcases hold with hl | ⟨-, hbe⟩
      · exact (hI.voted _ _ hl).2 q hq
      · rw [hbe] at hq
        exact absurd hq (by simp)
    · exact hI.voted h c hc
  · simp only [lookup_insert_eq] at hc
    split at hc
    · cases hc
      refine CMasternodeBlockPayees.nodup_addPayee ?_
      rcases hold with hl | ⟨-, hbe⟩
      · exact hI.scripts _ _ hl
      · rw [hbe]
        exact List.nodup_nil
    · exact hI.scripts h c hc
  · simp only [lookup_insert_eq] at hc
    split at hc
    · next hh =>
      cases hc
      rw [hh]
      change b.nBlockHeight = _
      rcases hold with hl | ⟨-, hbe⟩
      · exact hI.filed _ _ hl
      · rw [hbe]
    · exact hI.filed h c hc

/-- A height with a table has a recorded vote. -/
theorem exists_recorded (hI : TallyInv p) {h : ℤ} {b : CMasternodeBlockPayees}
    (hb : p.mapMasternodeBlocks.lookup h = some b) :
    ∃ k w, p.mapMasternodePayeeVotes.lookup k = some w ∧ w.nBlockHeight = h := by
  obtain ⟨hne, hpos⟩ := hI.voted h b hb
  obtain ⟨q, qs, hqs⟩ := List.exists_cons_of_ne_nil hne
  have htally := hI.tally h q.scriptPubKey
  have hnVotes : p.nVotes h q.scriptPubKey = q.nVotes := by
    rw [PaymentVotes.nVotes, hb]
    simp [CMasternodeBlockPayees.votesFor, hqs]
  have hq := hpos q (by simp [hqs])
  have hcount : 0 < p.recorded h q.scriptPubKey := by omega
  rw [PaymentVotes.recorded, List.countP_pos_iff] at hcount
  obtain ⟨⟨k, w⟩, he, hw⟩ := hcount
  simp only [Bool.and_eq_true, beq_iff_eq] at hw
  exact ⟨k, w, AList.mem_lookup_iff.2 he, hw.1⟩

end TallyInv

/-- What rounds of `CleanPaymentList` leave. -/
theorem lookup_foldl_cleanWinner (nHeight : ℤ) (size : ℕ)
    (es : List ((_ : UInt256) × CMasternodePaymentWinner)) (p : PaymentVotes) :
    (∀ k w, (es.foldl (cleanWinner nHeight size) p).mapMasternodePayeeVotes.lookup k = some w ↔
      p.mapMasternodePayeeVotes.lookup k = some w ∧
        ¬∃ e ∈ es, e.1 = k ∧ tooOld nHeight size e.2.nBlockHeight = true) ∧
    ∀ h b, (es.foldl (cleanWinner nHeight size) p).mapMasternodeBlocks.lookup h = some b ↔
      p.mapMasternodeBlocks.lookup h = some b ∧
        ¬∃ e ∈ es, e.2.nBlockHeight = h ∧ tooOld nHeight size h = true := by
  induction es generalizing p with
  | nil => simp
  | cons e es ih =>
    obtain ⟨hv, hb⟩ := ih (cleanWinner nHeight size p e)
    rw [List.foldl_cons]
    by_cases hold : tooOld nHeight size e.2.nBlockHeight = true
    · refine ⟨fun k w => ?_, fun h b => ?_⟩
      · rw [hv, cleanWinner, if_pos hold, lookup_erase_eq]
        by_cases hk : k = e.1
        · simp [hk, hold]
        · simp [hk, Ne.symm hk]
      · rw [hb, cleanWinner, if_pos hold, lookup_erase_eq]
        by_cases hh : h = e.2.nBlockHeight
        · simp [hh, hold]
        · simp [hh, Ne.symm hh]
    · refine ⟨fun k w => ?_, fun h b => ?_⟩
      · rw [hv, cleanWinner, if_neg hold]
        simp [hold]
      · rw [hb, cleanWinner, if_neg hold]
        refine and_congr_right fun _ => not_congr ⟨?_, ?_⟩
        · rintro ⟨e', he', heq, ho⟩
          exact ⟨e', by simp [he'], heq, ho⟩
        · rintro ⟨e', he', heq, ho⟩
          rcases List.mem_cons.1 he' with rfl | he'
          · exact absurd (heq ▸ ho) hold
          · exact ⟨e', he', heq, ho⟩

/-- The whole clean-up: a recorded vote stays when its height is not too old, and so does a table,
as long as only heights with recorded votes have one. -/
theorem lookup_cleanPaymentList {p : PaymentVotes} (hI : TallyInv p) {env : CleanEnv} {nHeight : ℤ}
    (htip : env.tip = some nHeight) :
    (∀ k w, (cleanPaymentList env p).mapMasternodePayeeVotes.lookup k = some w ↔
      p.mapMasternodePayeeVotes.lookup k = some w ∧
        tooOld nHeight env.size w.nBlockHeight = false) ∧
    ∀ h b, (cleanPaymentList env p).mapMasternodeBlocks.lookup h = some b ↔
      p.mapMasternodeBlocks.lookup h = some b ∧ tooOld nHeight env.size h = false := by
  obtain ⟨hv, hb⟩ := lookup_foldl_cleanWinner nHeight env.size p.mapMasternodePayeeVotes.entries p
  rw [cleanPaymentList, htip]
  dsimp only
  refine ⟨fun k w => ?_, fun h b => ?_⟩
  · rw [hv]
    refine and_congr_right fun hk => ⟨fun hno => ?_, fun hnot => ?_⟩
    · by_contra hc
      exact hno ⟨⟨k, w⟩, AList.mem_lookup_iff.1 hk, rfl, by simpa using hc⟩
    · rintro ⟨⟨k', w'⟩, he, rfl, hold⟩
      rw [Option.mem_unique (AList.mem_lookup_iff.2 he) hk] at hold
      rw [hnot] at hold
      exact absurd hold (by simp)
  · rw [hb]
    refine and_congr_right fun hl => ⟨fun hno => ?_, fun hnot => ?_⟩
    · by_contra hc
      obtain ⟨k, w, hw, hh⟩ := hI.exists_recorded hl
      exact hno ⟨⟨k, w⟩, AList.mem_lookup_iff.1 hw, hh, by simpa using hc⟩
    · rintro ⟨e, -, -, hold⟩
      rw [hnot] at hold
      exact absurd hold (by simp)

theorem TallyInv.cleanPaymentList {p : PaymentVotes} (hI : TallyInv p) (env : CleanEnv) :
    TallyInv (FairCoin.cleanPaymentList env p) := by
  cases htip : env.tip with
  | none =>
    rw [FairCoin.cleanPaymentList, htip]
    exact hI
  | some nHeight =>
    obtain ⟨hv, hb⟩ := lookup_cleanPaymentList hI htip
    refine ⟨fun h script => ?_, fun h b h' => hI.voted h b ((hb h b).1 h').1,
      fun h b h' => hI.scripts h b ((hb h b).1 h').1,
      fun h b h' => hI.filed h b ((hb h b).1 h').1⟩
    have hperm : (FairCoin.cleanPaymentList env p).mapMasternodePayeeVotes.entries.Perm
        (p.mapMasternodePayeeVotes.entries.filter
          fun e => !tooOld nHeight env.size e.2.nBlockHeight) :=
      entries_perm_filter fun k w => by simpa using hv k w
    rw [PaymentVotes.recorded, hperm.countP_eq, List.countP_filter]
    cases hold : tooOld nHeight env.size h with
    | false =>
      have hblock : (FairCoin.cleanPaymentList env p).mapMasternodeBlocks.lookup h =
          p.mapMasternodeBlocks.lookup h := by
        refine Option.ext fun b => ?_
        rw [hb, hold]
        simp
      rw [PaymentVotes.nVotes, hblock, ← PaymentVotes.nVotes, hI.tally, PaymentVotes.recorded]
      refine congrArg _ (List.countP_congr fun e _ => ?_)
      simp only [Bool.and_eq_true, beq_iff_eq, Bool.not_eq_true']
      exact ⟨fun ⟨hh, hs⟩ => ⟨⟨hh, hs⟩, by rw [hh, hold]⟩, fun h => h.1⟩
    | true =>
      have hblock : (FairCoin.cleanPaymentList env p).mapMasternodeBlocks.lookup h = none := by
        refine Option.eq_none_iff_forall_not_mem.2 fun b h' => ?_
        rw [((hb h b).1 h').2] at hold
        exact absurd hold (by simp)
      rw [PaymentVotes.nVotes, hblock]
      change (0 : ℤ) = _
      rw [eq_comm, Nat.cast_eq_zero, List.countP_eq_zero]
      intro e _ he
      simp only [Bool.and_eq_true, beq_iff_eq, Bool.not_eq_true'] at he
      rw [he.1.1, hold] at he
      exact absurd he.2 (by simp)

/-! ## Sequences of votes and clean-ups -/

/-- A call of `AddWinningMasternode`, with the block hashes the node knows at the time, or of
`CleanPaymentList`. -/
inductive PaymentCall
  | add (getBlockHash : ℤ → Option UInt256) (winnerIn : CMasternodePaymentWinner)
  | clean (env : CleanEnv)

/-- One call. -/
def paymentStep (hash : WinnerHash) (p : PaymentVotes) : PaymentCall → PaymentVotes
  | .add getBlockHash winnerIn => (addWinningMasternode hash getBlockHash p winnerIn).1
  | .clean env => cleanPaymentList env p

/-- The tables after a sequence of calls. -/
def paymentRun (hash : WinnerHash) (calls : List PaymentCall) : PaymentVotes :=
  calls.foldl (paymentStep hash) {}

theorem TallyInv.step {p : PaymentVotes} (hI : TallyInv p) (hash : WinnerHash) (call : PaymentCall) :
    TallyInv (paymentStep hash p call) := by
  cases call with
  | add getBlockHash winnerIn => exact hI.addWinningMasternode winnerIn
  | clean env => exact hI.cleanPaymentList env

theorem TallyInv.run (hash : WinnerHash) (calls : List PaymentCall) :
    TallyInv (paymentRun hash calls) := by
  have hall : Run.AlongFold (paymentStep hash) (fun _ _ => True) {} calls :=
    Run.alongFold_of_forall fun _ _ => trivial
  exact Run.foldl_invariant (fun _ call hI _ => hI.step hash call) TallyInv.start hall

end FairCoin
