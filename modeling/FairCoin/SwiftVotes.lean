import FairCoin.SwiftLocks

/-!
# Counting votes

`CountSignatures` against the votes that were really cast on a transaction.

* `genuineVoters` — the masternodes with a valid vote for a transaction and a height among the
  messages of a history, the node's own vote included.
* `voters_subset` — every counted vote was cast.
* `VoteKept` — a genuine vote finds its hash unused, or is in the lock already.
* `countSignatures_exact_iff` — **the count is exact** for a lock with a height if and only if
  every genuine vote for it is kept.
-/

namespace FairCoin

open Store

/-! ## Genuine votes -/

/-- The genuine vote a message brings: a valid vote that arrives, or the node's own vote on a
request it accepts. -/
def genuineVote (s : SwiftState) : SwiftEnv × SwiftMsg → Option CConsensusVote
  | (env, .ix tx) => if env.active then requestVote env s tx else none
  | (env, .txlvote ctx) => if env.active && env.voteValid ctx then some ctx else none
  | (_, .clean) => none

/-- The genuine votes of a run. -/
def genuineVotes : SwiftState → List (SwiftEnv × SwiftMsg) → List CConsensusVote
  | _, [] => []
  | s, a :: as => (genuineVote s a).toList ++ genuineVotes (swiftStep s a) as

/-- The masternodes with a genuine vote for the transaction at the height. -/
def genuineVoters (s : SwiftState) (hist : List (SwiftEnv × SwiftMsg)) (h : UInt256)
    (nBlockHeight : ℤ) : Finset COutPoint :=
  (((genuineVotes s hist).filter fun v => v.txHash == h && v.nBlockHeight == nBlockHeight).map
    fun v => v.vinMasternode.prevout).toFinset

theorem mem_genuineVoters {s : SwiftState} {hist : List (SwiftEnv × SwiftMsg)} {h : UInt256}
    {nBlockHeight : ℤ} {p : COutPoint} :
    p ∈ genuineVoters s hist h nBlockHeight ↔ ∃ v ∈ genuineVotes s hist,
      v.txHash = h ∧ v.nBlockHeight = nBlockHeight ∧ v.vinMasternode.prevout = p := by
  simp [genuineVoters, and_assoc]

/-- The vote is new to the node and arrives as a message, or its masternode's vote is in the
lock already. -/
def VoteKept (h : UInt256) (nBlockHeight : ℤ) (s : SwiftState) (a : SwiftEnv × SwiftMsg) : Prop :=
  ∀ v ∈ genuineVote s a, v.txHash = h → v.nBlockHeight = nBlockHeight →
    (a.2 = .txlvote v ∧ s.mapTxLockVote.lookup v.getHash = none) ∨
      v.vinMasternode.prevout ∈ s.voters h nBlockHeight

instance (h : UInt256) (nBlockHeight : ℤ) (s : SwiftState) (a : SwiftEnv × SwiftMsg) :
    Decidable (VoteKept h nBlockHeight s a) :=
  inferInstanceAs (Decidable (∀ v ∈ genuineVote s a, v.txHash = h → v.nBlockHeight = nBlockHeight →
    (a.2 = .txlvote v ∧ s.mapTxLockVote.lookup v.getHash = none) ∨
      v.vinMasternode.prevout ∈ s.voters h nBlockHeight))

/-! ## One message -/

/-- The message is a genuine vote whose hash is not stored. -/
def NewVote (s : SwiftState) (a : SwiftEnv × SwiftMsg) (v : CConsensusVote) : Prop :=
  genuineVote s a = some v ∧ a.2 = .txlvote v ∧ s.mapTxLockVote.lookup v.getHash = none

section Step

variable {s : SwiftState} {a : SwiftEnv × SwiftMsg} {h : UInt256} {nBlockHeight : ℤ}

/-- A message adds to the votes of the locks the genuine vote it brings, when the hash of that
vote is not stored; no other message adds a vote. -/
theorem votes_swiftStep (hclean : a.2 ≠ .clean) :
    ((∀ v, ¬NewVote s a v) ∧ (swiftStep s a).votes = s.votes) ∨
      ∃ v, NewVote s a v ∧
        ∀ t, (swiftStep s a).votes t = if t = v.txHash then s.votes t ++ [v] else s.votes t := by
  obtain ⟨env, msg⟩ := a
  cases msg with
  | clean => exact absurd rfl hclean
  | ix tx =>
    refine .inl ⟨fun v hv => absurd hv.2.1 (by simp), ?_⟩
    change (if env.active then processIx env s tx else s).votes = _
    split
    · rcases processIx_cases env s tx with ⟨-, heq⟩ | ⟨-, hr⟩
      · rw [heq]
      · exact hr.votes
    · rfl
  | txlvote ctx =>
    have heq : swiftStep s (env, .txlvote ctx) =
        if env.active then processTxlvote env s ctx else s := rfl
    rw [heq]
    by_cases hactive : env.active = true
    · rw [if_pos hactive]
      rcases processTxlvote_cases env s ctx with ⟨hseen, heq⟩ | ⟨-, hvalid, heq⟩ | ⟨hnew, hvalid, hv⟩
      · refine .inl ⟨fun v hv => ?_, by rw [heq]⟩
        obtain ⟨-, hmsg, hnew⟩ := hv
        cases hmsg
        rw [hnew] at hseen
        cases hseen
      · refine .inl ⟨fun v hv => ?_, by rw [heq]; rfl⟩
        have := hv.1
        simp [genuineVote, hvalid] at this
      · exact .inr ⟨ctx, ⟨by simp [genuineVote, hactive, hvalid], rfl, hnew⟩, hv.votes⟩
    · rw [if_neg hactive]
      refine .inl ⟨fun v hv => ?_, rfl⟩
      have := hv.1
      simp [genuineVote, hactive] at this

/-- The voters after a message. -/
theorem mem_voters_swiftStep (hclean : a.2 ≠ .clean) {p : COutPoint} :
    p ∈ (swiftStep s a).voters h nBlockHeight ↔ p ∈ s.voters h nBlockHeight ∨
      ∃ v, NewVote s a v ∧ v.txHash = h ∧ v.nBlockHeight = nBlockHeight ∧
        v.vinMasternode.prevout = p := by
  rcases votes_swiftStep hclean with ⟨hno, hv⟩ | ⟨v, hnew, hv⟩
  · rw [mem_voters, mem_voters, hv]
    exact ⟨.inl, fun hp => hp.elim id fun ⟨v, hn, _⟩ => absurd hn (hno v)⟩
  · rw [mem_voters, mem_voters, hv]
    constructor
    · rintro ⟨u, hu, hheight, hp⟩
      split at hu
      · next ht =>
        rcases List.mem_append.1 hu with hu | hu
        · exact .inl ⟨u, hu, hheight, hp⟩
        · rw [List.mem_singleton] at hu
          subst hu
          exact .inr ⟨u, hnew, ht.symm, hheight, hp⟩
      · exact .inl ⟨u, hu, hheight, hp⟩
    · rintro (⟨u, hu, hheight, hp⟩ | ⟨u, hnew', ht, hheight, hp⟩)
      · refine ⟨u, ?_, hheight, hp⟩
        split
        · exact List.mem_append_left _ hu
        · exact hu
      · obtain rfl : v = u := Option.some.inj (hnew.1.symm.trans hnew'.1)
        refine ⟨v, ?_, hheight, hp⟩
        rw [if_pos ht.symm]
        exact List.mem_append_right _ (List.mem_singleton_self v)

/-- The hash of a genuine vote is stored once the message has been handled, and a stored hash
stays stored. -/
theorem stored_swiftStep (hclean : a.2 ≠ .clean) {k : UInt256}
    (hk : (s.mapTxLockVote.lookup k).isSome ∨ ∃ v, genuineVote s a = some v ∧ v.getHash = k) :
    ((swiftStep s a).mapTxLockVote.lookup k).isSome := by
  have hinsert : ∀ v : CConsensusVote,
      ((s.mapTxLockVote.lookup k).isSome ∨ v.getHash = k) →
      ((s.mapTxLockVote.insert v.getHash v).lookup k).isSome := by
    intro v hk
    rw [lookup_insert_eq]
    split
    · rfl
    · next hne => exact hk.resolve_right fun h => hne h.symm
  obtain ⟨env, msg⟩ := a
  cases msg with
  | clean => exact absurd rfl hclean
  | ix tx =>
    change ((if env.active then processIx env s tx else s).mapTxLockVote.lookup k).isSome
    by_cases hactive : env.active = true
    · rw [if_pos hactive]
      simp only [genuineVote, hactive, if_true] at hk
      rcases processIx_cases env s tx with ⟨htaken, heq⟩ | ⟨-, hr⟩
      · rw [heq]
        refine hk.resolve_right ?_
        rintro ⟨v, hv, -⟩
        rw [requestVote, htaken] at hv
        exact absurd hv (by simp)
      · rw [hr.vote]
        cases hown : requestVote env s tx with
        | none =>
          refine hk.resolve_right ?_
          rintro ⟨v, hv, -⟩
          rw [hown] at hv
          cases hv
        | some v =>
          refine hinsert v (hk.imp_right ?_)
          rintro ⟨u, hu, hku⟩
          rw [hown] at hu
          cases hu
          exact hku
    · rw [if_neg hactive]
      simp only [genuineVote, hactive] at hk
      refine hk.resolve_right ?_
      rintro ⟨v, hv, -⟩
      cases hv
  | txlvote ctx =>
    change ((if env.active then processTxlvote env s ctx else s).mapTxLockVote.lookup k).isSome
    by_cases hactive : env.active = true
    · rw [if_pos hactive]
      have hk' : (s.mapTxLockVote.lookup k).isSome ∨ ctx.getHash = k := by
        refine hk.imp_right ?_
        rintro ⟨v, hv, hkv⟩
        simp only [genuineVote] at hv
        split at hv
        · cases hv
          exact hkv
        · cases hv
      rcases processTxlvote_cases env s ctx with ⟨hseen, heq⟩ | ⟨-, -, heq⟩ | ⟨-, -, hv⟩
      · rw [heq]
        exact hk'.elim id fun h => h ▸ hseen
      · rw [heq]
        exact hinsert ctx hk'
      · rw [hv.vote]
        exact hinsert ctx hk'
    · rw [if_neg hactive]
      simp only [genuineVote, hactive] at hk
      refine hk.resolve_right ?_
      rintro ⟨v, hv, -⟩
      cases hv

end Step

/-! ## Runs -/

section Run

variable {h : UInt256} {nBlockHeight : ℤ}

theorem mem_genuineVoters_cons {s : SwiftState} {a : SwiftEnv × SwiftMsg}
    {as : List (SwiftEnv × SwiftMsg)} {p : COutPoint} :
    p ∈ genuineVoters s (a :: as) h nBlockHeight ↔
      (∃ v, genuineVote s a = some v ∧ v.txHash = h ∧ v.nBlockHeight = nBlockHeight ∧
        v.vinMasternode.prevout = p) ∨ p ∈ genuineVoters (swiftStep s a) as h nBlockHeight := by
  rw [mem_genuineVoters, mem_genuineVoters, genuineVotes]
  simp only [List.mem_append, Option.mem_toList, or_and_right, exists_or]

/-- A vote, once counted, stays counted. -/
theorem voters_mono {as : List (SwiftEnv × SwiftMsg)} {p : COutPoint} :
    ∀ {s : SwiftState}, (∀ a ∈ as, a.2 ≠ .clean) → p ∈ s.voters h nBlockHeight →
      p ∈ (as.foldl swiftStep s).voters h nBlockHeight := by
  induction as with
  | nil => exact fun _ hp => hp
  | cons a as ih =>
    intro s hclean hp
    exact ih (fun b hb => hclean b (by simp [hb]))
      ((mem_voters_swiftStep (hclean a (by simp))).2 (.inl hp))

/-- Every counted vote was cast. -/
theorem voters_subset {as : List (SwiftEnv × SwiftMsg)} {p : COutPoint} :
    ∀ {s : SwiftState}, (∀ a ∈ as, a.2 ≠ .clean) →
      p ∈ (as.foldl swiftStep s).voters h nBlockHeight →
      p ∈ s.voters h nBlockHeight ∨ p ∈ genuineVoters s as h nBlockHeight := by
  induction as with
  | nil => exact fun _ hp => .inl hp
  | cons a as ih =>
    intro s hclean hp
    rcases ih (fun b hb => hclean b (by simp [hb])) hp with hp | hp
    · rcases (mem_voters_swiftStep (hclean a (by simp))).1 hp with hp | ⟨v, hnew, hv⟩
      · exact .inl hp
      · exact .inr (mem_genuineVoters_cons.2 (.inl ⟨v, hnew.1, hv⟩))
    · exact .inr (mem_genuineVoters_cons.2 (.inr hp))

/-- When every genuine vote is kept, every genuine voter is counted. -/
theorem genuineVoters_subset {as : List (SwiftEnv × SwiftMsg)} {p : COutPoint} :
    ∀ {s : SwiftState}, (∀ a ∈ as, a.2 ≠ .clean) →
      Run.AlongFold swiftStep (VoteKept h nBlockHeight) s as →
      p ∈ genuineVoters s as h nBlockHeight →
      p ∈ (as.foldl swiftStep s).voters h nBlockHeight := by
  induction as with
  | nil =>
    intro s _ _ hp
    exact absurd hp (by simp [genuineVoters, genuineVotes])
  | cons a as ih =>
    intro s hclean hkept hp
    rw [List.foldl_cons]
    have hrest : ∀ b ∈ as, b.2 ≠ .clean := fun b hb => hclean b (by simp [hb])
    rcases mem_genuineVoters_cons.1 hp with ⟨v, hv, htx, hheight, rfl⟩ | hp
    · refine voters_mono hrest ((mem_voters_swiftStep (hclean a (by simp))).2 ?_)
      rcases hkept.1 v hv htx hheight with ⟨hmsg, hnew⟩ | hp
      · exact .inr ⟨v, ⟨hv, hmsg, hnew⟩, htx, hheight, rfl⟩
      · exact .inl hp
    · exact ih hrest hkept.2 hp

/-- A masternode whose vote hash is taken and whose vote is not in the lock is never counted. -/
theorem not_mem_voters_of_stored {as : List (SwiftEnv × SwiftMsg)} {p : COutPoint} :
    ∀ {s : SwiftState}, (∀ a ∈ as, a.2 ≠ .clean) →
      (s.mapTxLockVote.lookup (p.hash + BitVec.ofNat 256 p.n + h)).isSome →
      p ∉ s.voters h nBlockHeight →
      p ∉ (as.foldl swiftStep s).voters h nBlockHeight := by
  induction as with
  | nil => exact fun _ _ hp => hp
  | cons a as ih =>
    intro s hclean hstored hp
    have ha := hclean a (by simp)
    refine ih (fun b hb => hclean b (by simp [hb])) (stored_swiftStep ha (.inl hstored)) fun hp' => ?_
    rcases (mem_voters_swiftStep ha).1 hp' with hp' | ⟨v, hnew, rfl, -, rfl⟩
    · exact hp hp'
    · have : s.mapTxLockVote.lookup v.getHash = none := hnew.2.2
      rw [CConsensusVote.getHash] at this
      rw [this] at hstored
      exact absurd hstored (by simp)

/-- When some genuine vote is not kept, its masternode is missing from the count. -/
theorem exists_missing_voter {as : List (SwiftEnv × SwiftMsg)} :
    ∀ {s : SwiftState}, (∀ a ∈ as, a.2 ≠ .clean) →
      ¬Run.AlongFold swiftStep (VoteKept h nBlockHeight) s as →
      ∃ p ∈ genuineVoters s as h nBlockHeight,
        p ∉ (as.foldl swiftStep s).voters h nBlockHeight := by
  induction as with
  | nil => exact fun _ hk => absurd trivial hk
  | cons a as ih =>
    intro s hclean hkept
    rw [List.foldl_cons]
    have ha := hclean a (by simp)
    have hrest : ∀ b ∈ as, b.2 ≠ .clean := fun b hb => hclean b (by simp [hb])
    by_cases hhead : VoteKept h nBlockHeight s a
    · obtain ⟨p, hp, hnot⟩ := ih hrest fun hk => hkept ⟨hhead, hk⟩
      exact ⟨p, mem_genuineVoters_cons.2 (.inr hp), hnot⟩
    · simp only [VoteKept, not_forall, not_or] at hhead
      obtain ⟨v, hv, htx, hheight, hnew, hp⟩ := hhead
      refine ⟨v.vinMasternode.prevout,
        mem_genuineVoters_cons.2 (.inl ⟨v, hv, htx, hheight, rfl⟩), ?_⟩
      have hhash : v.vinMasternode.prevout.hash + BitVec.ofNat 256 v.vinMasternode.prevout.n + h =
          v.getHash := by rw [CConsensusVote.getHash, htx]
      refine not_mem_voters_of_stored hrest ?_ fun hp' => ?_
      · rw [hhash]
        exact stored_swiftStep ha (.inr ⟨v, hv, rfl⟩)
      · rcases (mem_voters_swiftStep ha).1 hp' with hp' | ⟨u, hu, -⟩
        · exact hp hp'
        · obtain rfl : v = u := Option.some.inj (hv.symm.trans hu.1)
          exact hnew ⟨hu.2.1, hu.2.2⟩

end Run

/-- **When the count is exact.**  After every sequence of requests and votes, `CountSignatures` of
a lock is the number of masternodes with a genuine vote for its transaction at its height if and
only if the lock has a height and every such vote, when it came, was new to the node or was in the
lock already. -/
theorem countSignatures_exact_iff (hist : List (SwiftEnv × SwiftMsg))
    (hclean : ∀ a ∈ hist, a.2 ≠ .clean) (h : UInt256) (lock : CTransactionLock)
    (hlock : (swiftRun hist).mapTxLocks.lookup h = some lock) :
    lock.countSignatures = (genuineVoters {} hist h lock.nBlockHeight).card ↔
      lock.nBlockHeight ≠ 0 ∧
        Run.AlongFold swiftStep (VoteKept h lock.nBlockHeight) {} hist := by
  have hsub : (swiftRun hist).voters h lock.nBlockHeight ⊆
      genuineVoters {} hist h lock.nBlockHeight := by
    intro p hp
    refine (voters_subset hclean hp).resolve_left ?_
    simp [SwiftState.voters, SwiftState.votes]
  rw [countSignatures_of_lookup hlock, height_of_lookup hlock, SwiftState.tally,
    height_of_lookup hlock, ← (VoteInv.run hist).card_voters]
  constructor
  · intro hcount
    split at hcount
    · omega
    · next hheight =>
      refine ⟨hheight, by_contra fun hkept => ?_⟩
      obtain ⟨p, hp, hnot⟩ := exists_missing_voter hclean hkept
      have heq := Finset.eq_of_subset_of_card_le hsub (by exact_mod_cast hcount.ge)
      exact hnot (heq ▸ hp)
  · rintro ⟨hheight, hkept⟩
    rw [if_neg hheight]
    have heq : (swiftRun hist).voters h lock.nBlockHeight =
        genuineVoters {} hist h lock.nBlockHeight :=
      Finset.Subset.antisymm hsub fun p hp => genuineVoters_subset hclean hkept hp
    rw [heq]

open LockExample in
/-- Six genuine votes, six counted. -/
theorem countSignatures_exact_payment :
    (swiftRun locking).mapTxLocks.lookup 3 =
        some { newLock (node 1000) 3 53 with vecConsensusVotes := (List.range 6).map vote } ∧
      ({ newLock (node 1000) 3 53 with
          vecConsensusVotes := (List.range 6).map vote } : CTransactionLock).countSignatures =
        (genuineVoters {} locking 3 53).card := by
  have hlock : (swiftRun locking).mapTxLocks.lookup 3 =
      some { newLock (node 1000) 3 53 with vecConsensusVotes := (List.range 6).map vote } := by
    decide
  exact ⟨hlock, (countSignatures_exact_iff locking (by decide) 3 _ hlock).2
    ⟨by decide, by decide⟩⟩

open LockExample in
/-- **A forged copy that comes first keeps the genuine vote out**: the copy is stored under the hash
of the vote, and the vote, when it comes, is taken for known. -/
theorem forged_copy_blocks_vote :
    ∃ lock, (swiftRun [(node 1000, .ix payment),
        (node 1000, .txlvote { vote 0 with vchMasterNodeSignature := [] }),
        (node 1000, .txlvote (vote 0))]).mapTxLocks.lookup 3 = some lock ∧
      lock.countSignatures = 0 ∧
      (genuineVoters {} [(node 1000, .ix payment),
        (node 1000, .txlvote { vote 0 with vchMasterNodeSignature := [] }),
        (node 1000, .txlvote (vote 0))] 3 lock.nBlockHeight).card = 1 :=
  ⟨newLock (node 1000) 3 53, by decide, by decide, by decide⟩

end FairCoin
