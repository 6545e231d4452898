import FairCoin.PaymentFile

/-!
# `mnw` messages

The handler of `ProcessMessageMasternodePayments` for votes on payments, and how many votes of
one masternode it counts for one height.

* `processMnw` — the handler; `canVote` is its only guard against a second vote, and it remembers
  one height per masternode.
* `processMnw_cases` — a message changes the votes only by recording its own.
* `oneVotePerMasternode_iff` — **one vote per masternode and height** holds at the end of a run if
  and only if every second vote that the other tests let through was met by a last vote at the same
  height.
* `noLaterEffect_iff` — **a message that is turned away** changes what later messages do if and only
  if `CanVote` had let it through.
-/

namespace FairCoin

open Store

/-! ## The handler -/

/-- `MNPAYMENTS_SIGNATURES_TOTAL`. -/
def mnpaymentsSignaturesTotal : ℤ := 10

/-- What the handler reads of the rest of the node while it handles one message.  `peerCurrent`
says that the peer speaks the active protocol, and `protocolVersion` finds a masternode in the
list. -/
structure MnwEnv where
  blockchainSynced : Bool
  fLiteMode : Bool
  peerCurrent : Bool
  tip : Option ℤ
  countEnabled : ℕ
  protocolVersion : CTxIn → Option ℤ
  activeProtocol : ℤ
  getMasternodeRank : CTxIn → ℤ → ℤ
  signatureValid : CMasternodePaymentWinner → Bool
  getBlockHash : ℤ → Option UInt256

/-- `CMasternodePaymentWinner::IsValid`. -/
def MnwEnv.isValid (env : MnwEnv) (w : CMasternodePaymentWinner) : Bool :=
  match env.protocolVersion w.vinMasternode with
  | none => false
  | some version =>
      decide (env.activeProtocol ≤ version) &&
        decide (env.getMasternodeRank w.vinMasternode (w.nBlockHeight - 100) ≤
          mnpaymentsSignaturesTotal)

/-- The height is one the handler takes votes for: not further behind the tip than a quarter more
than the number of enabled masternodes, and at most twenty blocks ahead. -/
def MnwEnv.inRange (env : MnwEnv) (nHeight : ℤ) (w : CMasternodePaymentWinner) : Bool :=
  let nFirstBlock := (4 * nHeight - 5 * env.countEnabled).tdiv 4
  decide (nFirstBlock ≤ w.nBlockHeight) && decide (w.nBlockHeight ≤ nHeight + 20)

/-- The key of a masternode in `mapMasternodesLastVote`. -/
def lastVoteKey (o : COutPoint) : UInt256 := o.hash + BitVec.ofNat 256 o.n

/-- `CMasternodePayments::CanVote`: the height of the vote is remembered when the vote may be
cast. -/
def canVote (p : PaymentVotes) (outMasternode : COutPoint) (nBlockHeight : ℤ) : PaymentVotes × Bool :=
  if p.mapMasternodesLastVote.lookup (lastVoteKey outMasternode) = some nBlockHeight then (p, false)
  else
    ({ p with
        mapMasternodesLastVote :=
          p.mapMasternodesLastVote.insert (lastVoteKey outMasternode) nBlockHeight }, true)

/-- The tests before `CanVote`. -/
def reachesCanVote (hash : WinnerHash) (env : MnwEnv) (p : PaymentVotes)
    (winner : CMasternodePaymentWinner) : Bool :=
  env.blockchainSynced && !env.fLiteMode && env.peerCurrent &&
    match env.tip with
    | none => false
    | some nHeight =>
        !(p.mapMasternodePayeeVotes.lookup (winner.getHash hash)).isSome &&
          env.inRange nHeight winner && env.isValid winner

/-- The `mnw` handler. -/
def processMnw (hash : WinnerHash) (p : PaymentVotes) :
    MnwEnv × CMasternodePaymentWinner → PaymentVotes
  | (env, winner) =>
      if !reachesCanVote hash env p winner then p
      else
        let (p', mayVote) := canVote p winner.vinMasternode.prevout winner.nBlockHeight
        if !mayVote then p'
        else if !env.signatureValid winner then p'
        else (addWinningMasternode hash env.getBlockHash p' winner).1

/-- The tables after a sequence of messages. -/
def mnwRun (hash : WinnerHash) (hist : List (MnwEnv × CMasternodePaymentWinner)) : PaymentVotes :=
  hist.foldl (processMnw hash) {}

/-! ## One message -/

/-- The vote passes every test but `CanVote`. -/
def recordable (hash : WinnerHash) (p : PaymentVotes) (a : MnwEnv × CMasternodePaymentWinner) :
    Bool :=
  reachesCanVote hash a.1 p a.2 && a.1.signatureValid a.2 &&
    (a.1.getBlockHash (a.2.nBlockHeight - 100)).isSome

/-- The last vote of the masternode was for the same height. -/
def alreadyVoted (p : PaymentVotes) (w : CMasternodePaymentWinner) : Prop :=
  p.mapMasternodesLastVote.lookup (lastVoteKey w.vinMasternode.prevout) = some w.nBlockHeight

instance (p : PaymentVotes) (w : CMasternodePaymentWinner) : Decidable (alreadyVoted p w) :=
  inferInstanceAs (Decidable (_ = _))

/-- **What a message does to the votes**: it records its own vote when that passes every test, and
changes nothing otherwise. -/
theorem processMnw_cases (hash : WinnerHash) (p : PaymentVotes) (a : MnwEnv × CMasternodePaymentWinner) :
    (¬(recordable hash p a = true ∧ ¬alreadyVoted p a.2) ∧
      (processMnw hash p a).mapMasternodePayeeVotes = p.mapMasternodePayeeVotes ∧
      (processMnw hash p a).mapMasternodeBlocks = p.mapMasternodeBlocks) ∨
    ((recordable hash p a = true ∧ ¬alreadyVoted p a.2) ∧
      p.mapMasternodePayeeVotes.lookup (a.2.getHash hash) = none ∧
      (processMnw hash p a).mapMasternodePayeeVotes =
        p.mapMasternodePayeeVotes.insert (a.2.getHash hash) a.2 ∧
      (processMnw hash p a).mapMasternodeBlocks = p.mapMasternodeBlocks.insert a.2.nBlockHeight
        (((p.mapMasternodeBlocks.lookup a.2.nBlockHeight).getD
          { nBlockHeight := a.2.nBlockHeight }).addPayee a.2.payee 1)) := by
  obtain ⟨env, w⟩ := a
  cases hreach : reachesCanVote hash env p w with
  | false =>
    have heq : processMnw hash p (env, w) = p := by simp [processMnw, hreach]
    rw [heq]
    exact .inl ⟨by simp [recordable, hreach], rfl, rfl⟩
  | true =>
    have hnone : p.mapMasternodePayeeVotes.lookup (w.getHash hash) = none := by
      simp only [reachesCanVote, Bool.and_eq_true] at hreach
      obtain ⟨-, hreach⟩ := hreach
      split at hreach
      · exact absurd hreach (by simp)
      · simp only [Bool.and_eq_true, Bool.not_eq_true', Option.isSome_eq_false_iff,
          Option.isNone_iff_eq_none] at hreach
        exact hreach.1.1
    by_cases hlast : p.mapMasternodesLastVote.lookup (lastVoteKey w.vinMasternode.prevout) =
        some w.nBlockHeight
    · have heq : processMnw hash p (env, w) = p := by simp [processMnw, hreach, canVote, hlast]
      rw [heq]
      exact .inl ⟨fun h => h.2 hlast, rfl, rfl⟩
    obtain ⟨lastVote, hvote⟩ : ∃ lastVote, canVote p w.vinMasternode.prevout w.nBlockHeight =
        ({ p with mapMasternodesLastVote := lastVote }, true) := ⟨_, by rw [canVote, if_neg hlast]⟩
    cases hsig : env.signatureValid w with
    | false =>
      have heq : processMnw hash p (env, w) = { p with mapMasternodesLastVote := lastVote } := by
        simp [processMnw, hreach, hvote, hsig]
      rw [heq]
      exact .inl ⟨by simp [recordable, hsig], rfl, rfl⟩
    | true =>
      have heq : processMnw hash p (env, w) = (addWinningMasternode hash env.getBlockHash
          { p with mapMasternodesLastVote := lastVote } w).1 := by
        simp [processMnw, hreach, hvote, hsig]
      rw [heq, addWinningMasternode]
      cases hblock : env.getBlockHash (w.nBlockHeight - 100) with
      | none => exact .inl ⟨by simp [recordable, hblock], rfl, rfl⟩
      | some x =>
        simp only [hnone, Option.isSome_none, Bool.false_eq_true, if_false]
        exact .inr ⟨⟨by simp [recordable, hreach, hsig, hblock], hlast⟩, trivial, trivial, trivial⟩

/-! ## Counting by height -/

/-- The sum of the votes of all payees of a height. -/
def PaymentVotes.totalVotes (p : PaymentVotes) (h : ℤ) : ℤ :=
  ((p.mapMasternodeBlocks.lookup h).map fun b => (b.vecPayments.map CMasternodePayee.nVotes).sum).getD 0

/-- The recorded votes of a height. -/
def PaymentVotes.recordedAt (p : PaymentVotes) (h : ℤ) :
    List ((_ : UInt256) × CMasternodePaymentWinner) :=
  p.mapMasternodePayeeVotes.entries.filter fun e => e.2.nBlockHeight == h

theorem sum_addPayee_go (payeeIn : CScript) (n : ℤ) (ps : List CMasternodePayee) :
    ((CMasternodeBlockPayees.addPayee.go payeeIn n ps).map CMasternodePayee.nVotes).sum =
      (ps.map CMasternodePayee.nVotes).sum + n := by
  induction ps with
  | nil => simp [CMasternodeBlockPayees.addPayee.go]
  | cons r ps ih =>
    rw [CMasternodeBlockPayees.addPayee.go]
    split
    · simp only [List.map_cons, List.sum_cons]
      ring
    · simp only [List.map_cons, List.sum_cons, ih]
      ring

/-- What holds of the tables after every sequence of messages: the votes are filed under their
hashes, were delivered with a valid signature, and are all counted. -/
structure MnwInv (hash : WinnerHash) (hist : List (MnwEnv × CMasternodePaymentWinner))
    (p : PaymentVotes) : Prop where
  key : ∀ k w, p.mapMasternodePayeeVotes.lookup k = some w → k = w.getHash hash
  signed : ∀ k w, p.mapMasternodePayeeVotes.lookup k = some w →
    ∃ env, (env, w) ∈ hist ∧ env.signatureValid w = true
  total : ∀ h, p.totalVotes h = (p.recordedAt h).length

variable {hash : WinnerHash}

theorem MnwInv.start : MnwInv hash [] {} where
  key _ _ h := absurd h (by simp)
  signed _ _ h := absurd h (by simp)
  total _ := rfl

theorem MnwInv.step {hist : List (MnwEnv × CMasternodePaymentWinner)} {p : PaymentVotes}
    (hI : MnwInv hash hist p) (a : MnwEnv × CMasternodePaymentWinner) :
    MnwInv hash (hist ++ [a]) (processMnw hash p a) := by
  rcases processMnw_cases hash p a with ⟨-, hv, hb⟩ | ⟨⟨hrec, -⟩, hnone, hv, hb⟩
  · refine ⟨fun k w hw => hI.key k w (by rwa [← hv]), fun k w hw => ?_, fun h => ?_⟩
    · obtain ⟨env, hmem, hsig⟩ := hI.signed k w (by rwa [← hv])
      exact ⟨env, List.mem_append_left _ hmem, hsig⟩
    · rw [PaymentVotes.totalVotes, PaymentVotes.recordedAt, hv, hb]
      exact hI.total h
  · refine ⟨fun k w hw => ?_, fun k w hw => ?_, fun h => ?_⟩
    · rw [hv, lookup_insert_eq] at hw
      split at hw
      · next hk =>
        cases hw
        exact hk
      · exact hI.key k w hw
    · rw [hv, lookup_insert_eq] at hw
      split at hw
      · cases hw
        simp only [recordable, Bool.and_eq_true] at hrec
        exact ⟨a.1, by simp, hrec.1.2⟩
      · obtain ⟨env, hmem, hsig⟩ := hI.signed k w hw
        exact ⟨env, List.mem_append_left _ hmem, hsig⟩
    · have htotal := hI.total h
      rw [PaymentVotes.totalVotes, PaymentVotes.recordedAt] at htotal ⊢
      rw [hv, hb, entries_insert_of_lookup_eq_none _ hnone, List.filter_cons, lookup_insert_eq]
      by_cases hh : h = a.2.nBlockHeight
      · subst hh
        simp only [if_pos, beq_self_eq_true, Option.map_some, Option.getD_some, List.length_cons]
        change ((CMasternodeBlockPayees.addPayee.go _ _ _).map _).sum = _
        rw [sum_addPayee_go]
        push_cast
        rw [← htotal]
        congr 1
        cases p.mapMasternodeBlocks.lookup a.2.nBlockHeight <;> rfl
      · have hne : (a.2.nBlockHeight == h) = false := by simpa using Ne.symm hh
        simp only [if_neg hh, hne, Bool.false_eq_true, if_false]
        exact htotal

theorem MnwInv.run (hash : WinnerHash) (hist : List (MnwEnv × CMasternodePaymentWinner)) :
    MnwInv hash hist (mnwRun hash hist) := by
  have hall : Run.AlongFold (processMnw hash) (fun _ _ => True) {} hist :=
    Run.alongFold_of_forall fun _ _ => trivial
  exact Run.foldl_history (I := MnwInv hash) (fun _ _ a hI _ => hI.step a) MnwInv.start hall

/-! ## One vote per masternode -/

/-- The masternodes with a validly signed vote for a height among the messages. -/
def validVoters (hist : List (MnwEnv × CMasternodePaymentWinner)) (h : ℤ) : Finset COutPoint :=
  ((hist.filter fun a => a.1.signatureValid a.2 && a.2.nBlockHeight == h).map
    fun a => a.2.vinMasternode.prevout).toFinset

/-- A height counts no more votes than there are masternodes with a validly signed vote for it, and
no masternode is counted for two payees. -/
structure OneVotePerMasternode (hist : List (MnwEnv × CMasternodePaymentWinner)) (p : PaymentVotes) :
    Prop where
  bound : ∀ h, p.totalVotes h ≤ (validVoters hist h).card
  single : ∀ k k' w w', p.mapMasternodePayeeVotes.lookup k = some w →
    p.mapMasternodePayeeVotes.lookup k' = some w' → w.nBlockHeight = w'.nBlockHeight →
    w.vinMasternode.prevout = w'.vinMasternode.prevout → w.payee = w'.payee

/-- The masternode has a recorded vote for the height of the vote. -/
def hasVote (p : PaymentVotes) (w : CMasternodePaymentWinner) : Prop :=
  ∃ e ∈ p.mapMasternodePayeeVotes.entries, e.2.nBlockHeight = w.nBlockHeight ∧
    e.2.vinMasternode.prevout = w.vinMasternode.prevout

instance (p : PaymentVotes) (w : CMasternodePaymentWinner) : Decidable (hasVote p w) :=
  inferInstanceAs (Decidable (∃ e ∈ p.mapMasternodePayeeVotes.entries, _))

/-- A vote that passes the other tests although its masternode has a recorded vote for the height
finds that height as the masternode's last. -/
def SecondVoteRefused (hash : WinnerHash) (p : PaymentVotes)
    (a : MnwEnv × CMasternodePaymentWinner) : Prop :=
  recordable hash p a = true → hasVote p a.2 → alreadyVoted p a.2

instance (hash : WinnerHash) (p : PaymentVotes) (a : MnwEnv × CMasternodePaymentWinner) :
    Decidable (SecondVoteRefused hash p a) :=
  inferInstanceAs (Decidable (recordable hash p a = true → hasVote p a.2 → alreadyVoted p a.2))

/-- Two recorded votes of one masternode for one height are the same vote. -/
def Distinct (p : PaymentVotes) : Prop :=
  ∀ k k' w w', p.mapMasternodePayeeVotes.lookup k = some w →
    p.mapMasternodePayeeVotes.lookup k' = some w' → w.nBlockHeight = w'.nBlockHeight →
    w.vinMasternode.prevout = w'.vinMasternode.prevout → k = k'

theorem distinct_step {p : PaymentVotes} (hD : Distinct p) {a : MnwEnv × CMasternodePaymentWinner}
    (hrefused : SecondVoteRefused hash p a) : Distinct (processMnw hash p a) := by
  rcases processMnw_cases hash p a with ⟨-, hv, -⟩ | ⟨⟨hrec, hlast⟩, -, hv, -⟩
  · intro k k' w w'
    rw [hv]
    exact hD k k' w w'
  · have hno : ∀ k w, p.mapMasternodePayeeVotes.lookup k = some w →
        w.nBlockHeight = a.2.nBlockHeight →
        ¬w.vinMasternode.prevout = a.2.vinMasternode.prevout := by
      intro k w hw hheight hprev
      exact hlast (hrefused hrec ⟨⟨k, w⟩, AList.mem_lookup_iff.1 hw, hheight, hprev⟩)
    intro k k' w w' hw hw' hheight hprev
    rw [hv, lookup_insert_eq] at hw hw'
    split at hw
    · next hk =>
      cases hw
      split at hw'
      · next hk' => rw [hk, hk']
      · exact absurd hprev.symm (hno k' w' hw' hheight.symm)
    · split at hw'
      · cases hw'
        exact absurd hprev (hno k w hw hheight)
      · exact hD k k' w w' hw hw' hheight hprev

/-- With distinct masternodes the recorded votes of a height are no more than the valid voters. -/
theorem bound_of_distinct {hist : List (MnwEnv × CMasternodePaymentWinner)} {p : PaymentVotes}
    (hI : MnwInv hash hist p) (hD : Distinct p) (h : ℤ) :
    p.totalVotes h ≤ (validVoters hist h).card := by
  have hmem : ∀ e ∈ p.recordedAt h, p.mapMasternodePayeeVotes.lookup e.1 = some e.2 ∧
      e.2.nBlockHeight = h := by
    intro e he
    rw [PaymentVotes.recordedAt, List.mem_filter, beq_iff_eq] at he
    exact ⟨AList.mem_lookup_iff.2 he.1, he.2⟩
  have hnodup : ((p.recordedAt h).map fun e => e.2.vinMasternode.prevout).Nodup := by
    rw [List.Nodup, List.pairwise_map]
    refine ((List.nodupKeys_iff_pairwise.1 p.mapMasternodePayeeVotes.nodupKeys).sublist
      List.filter_sublist).imp_of_mem fun {e e'} he he' hne hprev => hne ?_
    obtain ⟨hl, hh⟩ := hmem e he
    obtain ⟨hl', hh'⟩ := hmem e' he'
    exact hD e.1 e'.1 e.2 e'.2 hl hl' (hh.trans hh'.symm) hprev
  have hsub : ((p.recordedAt h).map fun e => e.2.vinMasternode.prevout).toFinset ⊆
      validVoters hist h := by
    intro o ho
    rw [List.mem_toFinset] at ho
    obtain ⟨e, he, rfl⟩ := List.mem_map.1 ho
    obtain ⟨hl, hh⟩ := hmem e he
    obtain ⟨env, hin, hsig⟩ := hI.signed e.1 e.2 hl
    rw [validVoters, List.mem_toFinset, List.mem_map]
    exact ⟨(env, e.2), List.mem_filter.2 ⟨hin, by simp [hsig, hh]⟩, rfl⟩
  have hcard := Finset.card_le_card hsub
  rw [List.toFinset_card_of_nodup hnodup, List.length_map] at hcard
  rw [hI.total]
  exact_mod_cast hcard

/-- A recorded vote stays recorded. -/
theorem lookup_foldl_processMnw {as : List (MnwEnv × CMasternodePaymentWinner)} {k : UInt256}
    {w : CMasternodePaymentWinner} : ∀ {p : PaymentVotes},
    p.mapMasternodePayeeVotes.lookup k = some w →
      (as.foldl (processMnw hash) p).mapMasternodePayeeVotes.lookup k = some w := by
  induction as with
  | nil => exact fun h => h
  | cons a as ih =>
    intro p h
    refine ih ?_
    rcases processMnw_cases hash p a with ⟨-, hv, -⟩ | ⟨-, hnone, hv, -⟩
    · rw [hv]
      exact h
    · rw [hv, lookup_insert_eq, if_neg]
      · exact h
      · rintro rfl
        rw [hnone] at h
        exact absurd h (by simp)

/-- A second vote that is not refused is counted for another payee. -/
theorem exists_double_vote {as : List (MnwEnv × CMasternodePaymentWinner)} :
    ∀ {hist : List (MnwEnv × CMasternodePaymentWinner)} {p : PaymentVotes}, MnwInv hash hist p →
      ¬Run.AlongFold (processMnw hash) (SecondVoteRefused hash) p as →
      ∃ k k' w w', (as.foldl (processMnw hash) p).mapMasternodePayeeVotes.lookup k = some w ∧
        (as.foldl (processMnw hash) p).mapMasternodePayeeVotes.lookup k' = some w' ∧
        w.nBlockHeight = w'.nBlockHeight ∧
        w.vinMasternode.prevout = w'.vinMasternode.prevout ∧ w.payee ≠ w'.payee := by
  induction as with
  | nil => exact fun _ h => absurd trivial h
  | cons a as ih =>
    intro hist p hI hnot
    by_cases hhead : SecondVoteRefused hash p a
    · exact ih (hI.step a) fun h => hnot ⟨hhead, h⟩
    · simp only [SecondVoteRefused, Classical.not_imp] at hhead
      obtain ⟨hrec, ⟨⟨k, w⟩, he, hheight, hprev⟩, hlast⟩ := hhead
      have hw : p.mapMasternodePayeeVotes.lookup k = some w := AList.mem_lookup_iff.2 he
      rcases processMnw_cases hash p a with ⟨hno, -⟩ | ⟨-, hnone, hv, -⟩
      · exact absurd ⟨hrec, hlast⟩ hno
      have hne : k ≠ a.2.getHash hash := by
        rintro rfl
        rw [hnone] at hw
        exact absurd hw (by simp)
      rw [List.foldl_cons]
      refine ⟨k, a.2.getHash hash, w, a.2, lookup_foldl_processMnw ?_, lookup_foldl_processMnw ?_,
        hheight, hprev, fun hpayee => hne ?_⟩
      · rw [hv, lookup_insert_eq, if_neg hne]
        exact hw
      · rw [hv, lookup_insert_eq, if_pos rfl]
      · rw [hI.key k w hw, CMasternodePaymentWinner.getHash, CMasternodePaymentWinner.getHash, hpayee,
          show w.nBlockHeight = a.2.nBlockHeight from hheight,
          show w.vinMasternode.prevout = a.2.vinMasternode.prevout from hprev]

/-- **When each masternode has one vote per height.**  At the end of every sequence of messages, no
height counts more votes than it has valid voters and no masternode is counted for two payees, if
and only if each time a masternode with a recorded vote for a height sent another one for it that
passed the other tests, that height was still its last. -/
theorem oneVotePerMasternode_iff (hash : WinnerHash)
    (hist : List (MnwEnv × CMasternodePaymentWinner)) :
    OneVotePerMasternode hist (mnwRun hash hist) ↔
      Run.AlongFold (processMnw hash) (SecondVoteRefused hash) {} hist := by
  have hI := MnwInv.run hash hist
  constructor
  · intro hone
    by_contra hnot
    obtain ⟨k, k', w, w', hw, hw', hheight, hprev, hpayee⟩ :=
      exists_double_vote (MnwInv.start : MnwInv hash [] {}) hnot
    exact hpayee (hone.single k k' w w' hw hw' hheight hprev)
  · intro halong
    have hD : Distinct (mnwRun hash hist) :=
      Run.foldl_invariant (I := Distinct) (fun _ _ hD h => distinct_step hD h)
        (fun k _ w _ hw => absurd hw (by simp)) halong
    refine ⟨bound_of_distinct hI hD, fun k k' w w' hw hw' hheight hprev => ?_⟩
    obtain rfl := hD k k' w w' hw hw' hheight hprev
    rw [hw] at hw'
    cases hw'
    rfl

namespace PaymentExample

/-- A synchronised node at height `1990` with twenty masternodes, all of them known and ranked
first. -/
def node : MnwEnv where
  blockchainSynced := true
  fLiteMode := false
  peerCurrent := true
  tip := some 1990
  countEnabled := 20
  protocolVersion := fun _ => some 70000
  activeProtocol := 70000
  getMasternodeRank := fun _ _ => 1
  signatureValid := fun w => w.vchSig == [1]
  getBlockHash := fun _ => some 0

/-- One masternode votes for height 2000, for 2001, and for 2000 again with another payee. -/
def interleaved : List (MnwEnv × CMasternodePaymentWinner) :=
  [(node, winner 0 2000 [1]), (node, winner 0 2001 [1]), (node, winner 0 2000 [1, 2])]

end PaymentExample

open PaymentExample in
/-- **A vote for another height in between buys a second vote.** -/
theorem interleaved_votes_count_twice :
    (mnwRun PaymentExample.hash interleaved).totalVotes 2000 = 2 ∧
      (validVoters interleaved 2000).card = 1 ∧
      ¬OneVotePerMasternode interleaved (mnwRun PaymentExample.hash interleaved) := by
  have htotal : (mnwRun PaymentExample.hash interleaved).totalVotes 2000 = 2 := by decide
  have hcard : (validVoters interleaved 2000).card = 1 := by decide
  refine ⟨htotal, hcard, fun hone => ?_⟩
  have := hone.bound 2000
  rw [htotal, hcard] at this
  exact absurd this (by decide)

/-! ## Messages that are turned away -/

/-- The handler does not record the vote. -/
def TurnedAway (hash : WinnerHash) (p : PaymentVotes) (a : MnwEnv × CMasternodePaymentWinner) :
    Prop :=
  ¬(recordable hash p a = true ∧ ¬alreadyVoted p a.2)

/-- The message gets as far as `CanVote`, and that lets it vote. -/
def passesCanVote (hash : WinnerHash) (p : PaymentVotes) (a : MnwEnv × CMasternodePaymentWinner) :
    Prop :=
  reachesCanVote hash a.1 p a.2 = true ∧ ¬alreadyVoted p a.2

/-- Voting goes on as if the message had not arrived: whatever messages follow, the same votes are
recorded and counted, and a vote of the masternode it names for the height it names is recorded
when it would have been. -/
structure NoLaterEffect (hash : WinnerHash) (p : PaymentVotes)
    (a : MnwEnv × CMasternodePaymentWinner) : Prop where
  outcome : ∀ later : List (MnwEnv × CMasternodePaymentWinner),
    (later.foldl (processMnw hash) (processMnw hash p a)).mapMasternodePayeeVotes =
        (later.foldl (processMnw hash) p).mapMasternodePayeeVotes ∧
      (later.foldl (processMnw hash) (processMnw hash p a)).mapMasternodeBlocks =
        (later.foldl (processMnw hash) p).mapMasternodeBlocks
  genuine : ∀ env w, w.vinMasternode.prevout = a.2.vinMasternode.prevout →
    w.nBlockHeight = a.2.nBlockHeight → ¬TurnedAway hash p (env, w) →
    (processMnw hash (processMnw hash p a) (env, w)).mapMasternodePayeeVotes.lookup
      (w.getHash hash) = some w

/-- A message that `CanVote` does not let through changes nothing. -/
theorem processMnw_of_not_passes {p : PaymentVotes} {a : MnwEnv × CMasternodePaymentWinner}
    (h : ¬passesCanVote hash p a) : processMnw hash p a = p := by
  obtain ⟨env, w⟩ := a
  by_cases hreach : reachesCanVote hash env p w = true
  · have hlast : alreadyVoted p w := by
      by_contra hno
      exact h ⟨hreach, hno⟩
    unfold alreadyVoted at hlast
    simp [processMnw, hreach, canVote, hlast]
  · simp [processMnw, hreach]

/-- A message that `CanVote` lets through is remembered as the masternode's last vote, also when
it is turned away afterwards. -/
theorem alreadyVoted_processMnw {p : PaymentVotes} {a : MnwEnv × CMasternodePaymentWinner}
    (h : passesCanVote hash p a) : alreadyVoted (processMnw hash p a) a.2 := by
  obtain ⟨env, w⟩ := a
  obtain ⟨hreach, hlast⟩ := h
  unfold alreadyVoted at hlast ⊢
  have hvote : canVote p w.vinMasternode.prevout w.nBlockHeight =
      ({ p with
          mapMasternodesLastVote := p.mapMasternodesLastVote.insert
            (lastVoteKey w.vinMasternode.prevout) w.nBlockHeight }, true) := by
    rw [canVote, if_neg hlast]
  simp only [processMnw, hreach, hvote, Bool.not_true, Bool.false_eq_true, if_false]
  split
  · exact AList.lookup_insert _
  · rw [addWinningMasternode]
    split
    · exact AList.lookup_insert _
    · split <;> exact AList.lookup_insert _

/-- A vote that is recorded is found under its hash. -/
theorem lookup_processMnw_of_not_turnedAway {p : PaymentVotes}
    {a : MnwEnv × CMasternodePaymentWinner} (h : ¬TurnedAway hash p a) :
    (processMnw hash p a).mapMasternodePayeeVotes.lookup (a.2.getHash hash) = some a.2 := by
  rcases processMnw_cases hash p a with ⟨hno, -⟩ | ⟨-, -, hv, -⟩
  · exact absurd hno h
  · rw [hv, AList.lookup_insert]

/-- **When a message that is turned away leaves no trace.**  Later messages have the same outcome as
without it if and only if it was turned away by one of the tests before `CanVote`, or by `CanVote`
itself: a message that `CanVote` has let through is remembered even when its signature is not
valid, and keeps the vote that it forges out. -/
theorem noLaterEffect_iff (hash : WinnerHash) (p : PaymentVotes)
    (a : MnwEnv × CMasternodePaymentWinner) (hno : TurnedAway hash p a) :
    NoLaterEffect hash p a ↔ ¬passesCanVote hash p a := by
  constructor
  · rintro ⟨-, hgenuine⟩ hpass
    obtain ⟨env, w⟩ := a
    -- the same vote again, from a node to which its signature is valid
    let env' : MnwEnv :=
      { env with
        signatureValid := fun _ => true
        getBlockHash := fun _ => some 0 }
    have hrecord : ¬TurnedAway hash p (env', w) := by
      refine not_not.2 ⟨?_, hpass.2⟩
      simp only [recordable, Bool.and_eq_true]
      exact ⟨⟨hpass.1, rfl⟩, rfl⟩
    have hlookup := hgenuine env' w rfl rfl hrecord
    have hlast : alreadyVoted (processMnw hash p (env, w)) w := alreadyVoted_processMnw hpass
    rcases processMnw_cases hash (processMnw hash p (env, w)) (env', w) with
      ⟨-, hv, -⟩ | ⟨⟨-, hnot⟩, -⟩
    · rcases processMnw_cases hash p (env, w) with ⟨-, hv', -⟩ | ⟨hrec, -⟩
      · rw [hv, hv'] at hlookup
        rcases processMnw_cases hash p (env', w) with ⟨hno', -⟩ | ⟨-, hnone, -⟩
        · exact hrecord hno'
        · rw [hnone] at hlookup
          exact absurd hlookup (by simp)
      · exact hno hrec
    · exact hnot hlast
  · intro hpass
    constructor
    · intro later
      rw [processMnw_of_not_passes hpass]
      exact ⟨rfl, rfl⟩
    · intro env w _ _ hrecord
      rw [processMnw_of_not_passes hpass]
      exact lookup_processMnw_of_not_turnedAway hrecord

namespace PaymentExample

/-- The vote of a masternode for height 2000, with a signature that is not valid. -/
def forged : MnwEnv × CMasternodePaymentWinner := (node, { winner 0 2000 [1] with vchSig := [0] })

/-- A vote for a height that is too far ahead. -/
def farAhead : MnwEnv × CMasternodePaymentWinner := (node, winner 0 2050 [1])

end PaymentExample

open PaymentExample in
/-- A vote for a height that is too far ahead is turned away and leaves no trace. -/
theorem noLaterEffect_farAhead : NoLaterEffect PaymentExample.hash {} farAhead := by
  have hreach : reachesCanVote PaymentExample.hash farAhead.1 {} farAhead.2 = false := by
    decide
  refine (noLaterEffect_iff PaymentExample.hash {} farAhead ?_).2 ?_
  · rintro ⟨hrec, -⟩
    simp only [recordable, hreach] at hrec
    exact absurd hrec (by simp)
  · rintro ⟨h, -⟩
    rw [hreach] at h
    exact absurd h (by simp)

open PaymentExample in
/-- **A forged vote keeps the genuine one out.** -/
theorem forged_vote_blocks :
    TurnedAway PaymentExample.hash {} forged ∧
      (mnwRun PaymentExample.hash [(node, winner 0 2000 [1])]).totalVotes 2000 = 1 ∧
      (mnwRun PaymentExample.hash [forged, (node, winner 0 2000 [1])]).totalVotes 2000 = 0 ∧
      ¬NoLaterEffect PaymentExample.hash {} forged := by
  have hpass : passesCanVote PaymentExample.hash {} forged :=
    ⟨by decide, by decide⟩
  have hno : TurnedAway PaymentExample.hash {} forged := by
    rintro ⟨hrec, -⟩
    exact absurd hrec (by decide)
  have halone : (mnwRun PaymentExample.hash [(node, winner 0 2000 [1])]).totalVotes 2000 = 1 := by
    decide
  have hafter : (mnwRun PaymentExample.hash
      [forged, (node, winner 0 2000 [1])]).totalVotes 2000 = 0 := by
    decide
  refine ⟨hno, halone, hafter, fun h => ?_⟩
  obtain ⟨-, hblocks⟩ := h.outcome [(node, winner 0 2000 [1])]
  change (mnwRun PaymentExample.hash [forged, (node, winner 0 2000 [1])]).mapMasternodeBlocks =
    (mnwRun PaymentExample.hash [(node, winner 0 2000 [1])]).mapMasternodeBlocks at hblocks
  rw [PaymentVotes.totalVotes, hblocks, ← PaymentVotes.totalVotes, halone] at hafter
  exact absurd hafter (by decide)

end FairCoin
