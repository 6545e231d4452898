import FairCoin.SwiftTx

/-!
# Which inputs are locked, and how locks are released

* `Cleaned`, `cleaned_cleanTransactionLocksList` — what the clean-up erases, map by map.
* `LockInv` — the votes of the locks are valid, delivered and told apart by their hashes, and
  every locked input belongs to a complete lock.
-/

namespace FairCoin

open Store

/-! ## The clean-up -/

/-- The lock has expired. -/
def SwiftEnv.expired (env : SwiftEnv) (lock : CTransactionLock) : Prop :=
  lock.nExpiration < env.getTime

instance (env : SwiftEnv) (lock : CTransactionLock) : Decidable (env.expired lock) :=
  inferInstanceAs (Decidable (lock.nExpiration < env.getTime))

/-- What rounds of the clean-up leave of the maps. -/
structure Cleaned (env : SwiftEnv) (es : List ((_ : UInt256) × CTransactionLock))
    (s s' : SwiftState) : Prop where
  locks : ∀ h x, s'.mapTxLocks.lookup h = some x ↔
    s.mapTxLocks.lookup h = some x ∧ ¬∃ e ∈ es, e.1 = h ∧ env.expired e.2
  req : ∀ h x, s'.mapTxLockReq.lookup h = some x ↔
    s.mapTxLockReq.lookup h = some x ∧ ¬∃ e ∈ es, e.1 = h ∧ env.expired e.2
  rejected : ∀ h x, s'.mapTxLockReqRejected.lookup h = some x ↔
    s.mapTxLockReqRejected.lookup h = some x ∧
      ¬∃ e ∈ es, e.1 = h ∧ env.expired e.2 ∧ (s.mapTxLockReq.lookup e.1).isSome
  locked : ∀ o t, s'.mapLockedInputs.lookup o = some t ↔
    s.mapLockedInputs.lookup o = some t ∧ ¬∃ e ∈ es, env.expired e.2 ∧
      ∃ tx, s.mapTxLockReq.lookup e.1 = some tx ∧ o ∈ tx.vin.map CTxIn.prevout
  vote : ∀ k v, s'.mapTxLockVote.lookup k = some v ↔
    s.mapTxLockVote.lookup k = some v ∧ ¬∃ e ∈ es, env.expired e.2 ∧
      (s.mapTxLockReq.lookup e.1).isSome ∧ k ∈ e.2.vecConsensusVotes.map CConsensusVote.getHash

/-- One round. -/
theorem cleaned_cleanLock (env : SwiftEnv) (s : SwiftState)
    {e : (_ : UInt256) × CTransactionLock} (he : e.2.txHash = e.1) :
    Cleaned env [e] s (cleanLock env s e) := by
  rw [cleanLock]
  by_cases hexp : e.2.nExpiration < env.getTime
  · have hexp' : env.expired e.2 := hexp
    rw [if_pos hexp, he]
    have herase : ∀ {V : Type} (m : Map UInt256 V) (h : UInt256) (x : V),
        (m.erase e.1).lookup h = some x ↔ m.lookup h = some x ∧ ¬e.1 = h := by
      intro V m h x
      rw [lookup_erase_eq]
      by_cases hh : h = e.1
      · simp [hh]
      · simp [hh, Ne.symm hh]
    cases hreq : s.mapTxLockReq.lookup e.1 with
    | none =>
      refine ⟨fun h x => ?_, fun h x => ?_, fun h x => ?_, fun o t => ?_, fun k v => ?_⟩
      · simp [herase, hexp']
      · simp only [List.mem_singleton, exists_eq_left, hexp', and_true]
        refine ⟨fun hx => ⟨hx, ?_⟩, And.left⟩
        rintro rfl
        rw [hreq] at hx
        exact absurd hx (by simp)
      · simp [hreq]
      · simp [hreq]
      · simp [hreq]
    | some tx =>
      refine ⟨fun h x => ?_, fun h x => ?_, fun h x => ?_, fun o t => ?_, fun k v => ?_⟩
      · simp [herase, hexp']
      · simp [herase, hexp']
      · simp [herase, hexp', hreq]
      · simp only [lookup_foldl_erase CTxIn.prevout, List.mem_singleton, exists_eq_left, hexp', hreq,
          Option.some.injEq, true_and, exists_eq_left']
      · simp only [lookup_foldl_erase CConsensusVote.getHash, List.mem_singleton, exists_eq_left,
          hexp', hreq, Option.isSome_some, true_and]
  · have hexp' : ¬env.expired e.2 := hexp
    rw [if_neg hexp]
    constructor <;> simp [hexp']

/-- **The clean-up, map by map.**  Every lock that has expired goes, and with it what hangs on its
stored request. -/
theorem cleaned_foldl (env : SwiftEnv) {es : List ((_ : UInt256) × CTransactionLock)}
    (hes : es.NodupKeys) (hhash : ∀ e ∈ es, e.2.txHash = e.1) (s : SwiftState) :
    Cleaned env es s (es.foldl (cleanLock env) s) := by
  induction es generalizing s with
  | nil => constructor <;> simp
  | cons e es ih =>
    have h₁ := cleaned_cleanLock env s (hhash e (by simp))
    obtain ⟨hk, hes'⟩ := List.nodupKeys_cons.1 hes
    have h₂ := ih hes' (fun e' he' => hhash e' (by simp [he'])) (cleanLock env s e)
    -- the requests of the other locks are still there
    have hother : ∀ e' ∈ es, (cleanLock env s e).mapTxLockReq.lookup e'.1 =
        s.mapTxLockReq.lookup e'.1 := by
      intro e' he'
      have hne : e.1 ≠ e'.1 := by
        intro h
        exact hk (h ▸ List.mem_map_of_mem he')
      refine Option.ext fun x => ?_
      rw [h₁.req]
      simp [hne]
    have hsplit : ∀ {P : (_ : UInt256) × CTransactionLock → Prop},
        (¬∃ e' ∈ e :: es, P e') ↔ (¬∃ e' ∈ [e], P e') ∧ ¬∃ e' ∈ es, P e' := by
      intro P
      simp
    rw [List.foldl_cons]
    refine ⟨fun h x => ?_, fun h x => ?_, fun h x => ?_, fun o t => ?_, fun k v => ?_⟩
    · rw [h₂.locks, h₁.locks, hsplit, and_assoc]
    · rw [h₂.req, h₁.req, hsplit, and_assoc]
    · rw [h₂.rejected, h₁.rejected, hsplit, and_assoc]
      refine and_congr_right fun _ => and_congr_right fun _ => not_congr ?_
      exact exists_congr fun e' => and_congr_right fun he' => by rw [hother e' he']
    · rw [h₂.locked, h₁.locked, hsplit, and_assoc]
      refine and_congr_right fun _ => and_congr_right fun _ => not_congr ?_
      exact exists_congr fun e' => and_congr_right fun he' => by rw [hother e' he']
    · rw [h₂.vote, h₁.vote, hsplit, and_assoc]
      refine and_congr_right fun _ => and_congr_right fun _ => not_congr ?_
      exact exists_congr fun e' => and_congr_right fun he' => by rw [hother e' he']

/-- The transaction has a lock that has expired. -/
def Expired (env : SwiftEnv) (s : SwiftState) (h : UInt256) : Prop :=
  ∃ lock, s.mapTxLocks.lookup h = some lock ∧ env.expired lock

/-- What the whole clean-up leaves of the maps. -/
structure CleanStep (env : SwiftEnv) (s s' : SwiftState) : Prop where
  locks : ∀ h x, s'.mapTxLocks.lookup h = some x ↔
    s.mapTxLocks.lookup h = some x ∧ ¬Expired env s h
  req : ∀ h x, s'.mapTxLockReq.lookup h = some x ↔
    s.mapTxLockReq.lookup h = some x ∧ ¬Expired env s h
  rejected : ∀ h x, s'.mapTxLockReqRejected.lookup h = some x ↔
    s.mapTxLockReqRejected.lookup h = some x ∧
      ¬(Expired env s h ∧ (s.mapTxLockReq.lookup h).isSome)
  locked : ∀ o t, s'.mapLockedInputs.lookup o = some t ↔
    s.mapLockedInputs.lookup o = some t ∧ ¬∃ h tx, Expired env s h ∧
      s.mapTxLockReq.lookup h = some tx ∧ o ∈ tx.vin.map CTxIn.prevout
  vote : ∀ k v, s'.mapTxLockVote.lookup k = some v ↔
    s.mapTxLockVote.lookup k = some v ∧ ¬∃ h, Expired env s h ∧
      (s.mapTxLockReq.lookup h).isSome ∧ k ∈ (s.votes h).map CConsensusVote.getHash

theorem cleanStep_cleanTransactionLocksList {env : SwiftEnv} {s : SwiftState}
    (hhash : ∀ h lock, s.mapTxLocks.lookup h = some lock → lock.txHash = h)
    (htip : env.tip.isSome) : CleanStep env s (cleanTransactionLocksList env s) := by
  have hmem : ∀ {h : UInt256} {lock : CTransactionLock},
      (⟨h, lock⟩ : (_ : UInt256) × CTransactionLock) ∈ s.mapTxLocks.entries ↔
        s.mapTxLocks.lookup h = some lock := fun {h lock} => AList.mem_lookup_iff.symm
  have hc := cleaned_foldl env s.mapTxLocks.nodupKeys
    (fun e he => hhash e.1 e.2 (hmem.1 he)) s
  have hexp : ∀ h, (∃ e ∈ s.mapTxLocks.entries, e.1 = h ∧ env.expired e.2) ↔ Expired env s h := by
    intro h
    constructor
    · rintro ⟨⟨h', lock⟩, he, rfl, hx⟩
      exact ⟨lock, hmem.1 he, hx⟩
    · rintro ⟨lock, hl, hx⟩
      exact ⟨⟨h, lock⟩, hmem.2 hl, rfl, hx⟩
  rw [cleanTransactionLocksList, if_neg (by simp [Option.isSome_iff_ne_none.1 htip])]
  refine ⟨fun h x => ?_, fun h x => ?_, fun h x => ?_, fun o t => ?_, fun k v => ?_⟩
  · rw [hc.locks, hexp]
  · rw [hc.req, hexp]
  · rw [hc.rejected]
    refine and_congr_right fun _ => not_congr ⟨?_, ?_⟩
    · rintro ⟨⟨h', lock⟩, he, rfl, hx, hr⟩
      exact ⟨⟨lock, hmem.1 he, hx⟩, hr⟩
    · rintro ⟨⟨lock, hl, hx⟩, hr⟩
      exact ⟨⟨h, lock⟩, hmem.2 hl, rfl, hx, hr⟩
  · rw [hc.locked]
    refine and_congr_right fun _ => not_congr ⟨?_, ?_⟩
    · rintro ⟨⟨h', lock⟩, he, hx, tx, hr, ho⟩
      exact ⟨h', tx, ⟨lock, hmem.1 he, hx⟩, hr, ho⟩
    · rintro ⟨h', tx, ⟨lock, hl, hx⟩, hr, ho⟩
      exact ⟨⟨h', lock⟩, hmem.2 hl, hx, tx, hr, ho⟩
  · rw [hc.vote]
    refine and_congr_right fun _ => not_congr ⟨?_, ?_⟩
    · rintro ⟨⟨h', lock⟩, he, hx, hr, hk⟩
      exact ⟨h', ⟨lock, hmem.1 he, hx⟩, hr, by rwa [votes_of_lookup (hmem.1 he)]⟩
    · rintro ⟨h', ⟨lock, hl, hx⟩, hr, hk⟩
      exact ⟨⟨h', lock⟩, hmem.2 hl, hx, hr, by rwa [votes_of_lookup hl] at hk⟩

/-! ## The votes of the locks -/

/-- The valid votes among the messages of a history. -/
def delivered (hist : List (SwiftEnv × SwiftMsg)) : List CConsensusVote :=
  hist.filterMap fun (env, msg) => match msg with
    | .txlvote ctx => if env.active && env.voteValid ctx then some ctx else none
    | _ => none

theorem mem_delivered_append {hist : List (SwiftEnv × SwiftMsg)} {v : CConsensusVote}
    (a : SwiftEnv × SwiftMsg) (h : v ∈ delivered hist) : v ∈ delivered (hist ++ [a]) := by
  rw [delivered, List.filterMap_append]
  exact List.mem_append_left _ h

/-- What holds of the votes of the locks after every history: each belongs to its lock and was
delivered and valid, their hashes tell them apart, and they are stored. -/
structure VoteInv (hist : List (SwiftEnv × SwiftMsg)) (s : SwiftState) : Prop where
  txHash : ∀ h x, (s.mapTxLocks.lookup h).map CTransactionLock.txHash = some x → x = h
  votes : ∀ h, ∀ v ∈ s.votes h, v.txHash = h ∧ v ∈ delivered hist
  nodup : ∀ h, ((s.votes h).map CConsensusVote.getHash).Nodup
  stored : ∀ h, ∀ v ∈ s.votes h, (s.mapTxLockVote.lookup v.getHash).isSome
  apart : ∀ h h', h ≠ h' → ∀ v ∈ s.votes h, ∀ v' ∈ s.votes h', v.getHash ≠ v'.getHash
  req : ∀ h tx, s.mapTxLockReq.lookup h = some tx → tx.vin = [] ∨ tx.hash = h
  rejected : ∀ h tx, s.mapTxLockReqRejected.lookup h = some tx → tx.hash = h

namespace VoteInv

variable {hist : List (SwiftEnv × SwiftMsg)} {s : SwiftState}

theorem start : VoteInv [] {} := by
  refine ⟨fun h x hx => ?_, fun h v hv => ?_, fun h => List.nodup_nil, fun h v hv => ?_,
    fun h h' _ v hv => ?_, fun h tx hx => ?_, fun h tx hx => ?_⟩
  · exact absurd hx (by simp)
  · exact absurd hv (by simp [SwiftState.votes])
  · exact absurd hv (by simp [SwiftState.votes])
  · exact absurd hv (by simp [SwiftState.votes])
  · exact absurd hx (by simp)
  · exact absurd hx (by simp)

theorem lock_txHash (hI : VoteInv hist s) {h : UInt256} {lock : CTransactionLock}
    (hl : s.mapTxLocks.lookup h = some lock) : lock.txHash = h :=
  hI.txHash h _ (by rw [hl]; rfl)

theorem mono (hI : VoteInv hist s) (a : SwiftEnv × SwiftMsg) : VoteInv (hist ++ [a]) s :=
  ⟨hI.txHash, fun h v hv => ⟨(hI.votes h v hv).1, mem_delivered_append a (hI.votes h v hv).2⟩,
    hI.nodup, hI.stored, hI.apart, hI.req, hI.rejected⟩

/-- A step that keeps the votes and the stored hashes keeps the invariant. -/
theorem of_sameVotes (hI : VoteInv hist s) {s' : SwiftState} (hvotes : s'.votes = s.votes)
    (hstored : ∀ k, (s.mapTxLockVote.lookup k).isSome → (s'.mapTxLockVote.lookup k).isSome)
    (htxHash : ∀ h x, (s'.mapTxLocks.lookup h).map CTransactionLock.txHash = some x → x = h)
    (hreq : ∀ h tx, s'.mapTxLockReq.lookup h = some tx → tx.vin = [] ∨ tx.hash = h)
    (hrejected : ∀ h tx, s'.mapTxLockReqRejected.lookup h = some tx → tx.hash = h) :
    VoteInv hist s' where
  txHash := htxHash
  votes := by rw [hvotes]; exact hI.votes
  nodup := by rw [hvotes]; exact hI.nodup
  stored h v hv := hstored _ (hI.stored h v (by rwa [← hvotes]))
  apart := by rw [hvotes]; exact hI.apart
  req := hreq
  rejected := hrejected

theorem voteCounted (hI : VoteInv hist s) {s' : SwiftState} {ctx : CConsensusVote}
    (hdel : ctx ∈ delivered hist) (hnew : s.mapTxLockVote.lookup ctx.getHash = none)
    (hv : VoteCounted s ctx s') : VoteInv hist s' := by
  -- the new vote has a hash no counted vote has
  have hfresh : ∀ h, ∀ v ∈ s.votes h, v.getHash ≠ ctx.getHash := by
    intro h v hvm heq
    have := hI.stored h v hvm
    rw [heq, hnew] at this
    exact absurd this (by simp)
  have hmem : ∀ h v, v ∈ s'.votes h → v ∈ s.votes h ∨ (v = ctx ∧ h = ctx.txHash) := by
    intro h v hvm
    rw [hv.votes] at hvm
    split at hvm
    · next hh =>
      rcases List.mem_append.1 hvm with hvm | hvm
      · exact .inl hvm
      · exact .inr ⟨List.mem_singleton.1 hvm, hh⟩
    · exact .inl hvm
  refine ⟨fun h x hx => ?_, fun h v hvm => ?_, fun h => ?_, fun h v hvm => ?_,
    fun h h' hne v hvm v' hvm' => ?_, fun h tx hx => ?_, fun h tx hx => ?_⟩
  · rw [hv.txHash] at hx
    split at hx
    · cases hold : (s.mapTxLocks.lookup h).map CTransactionLock.txHash with
      | none =>
        rw [hold] at hx
        exact (Option.some.inj hx).symm
      | some y =>
        rw [hold] at hx
        exact hI.txHash h x (hold.trans hx)
    · exact hI.txHash h x hx
  · rcases hmem h v hvm with hvm | ⟨rfl, rfl⟩
    · exact hI.votes h v hvm
    · exact ⟨rfl, hdel⟩
  · rw [hv.votes]
    split
    · rw [List.map_append, List.nodup_append]
      refine ⟨hI.nodup h, List.nodup_singleton _, fun a ha b hb => ?_⟩
      obtain ⟨v, hvm, rfl⟩ := List.mem_map.1 ha
      rw [List.map_singleton, List.mem_singleton] at hb
      rw [hb]
      exact hfresh h v hvm
    · exact hI.nodup h
  · rw [hv.vote, lookup_insert_eq]
    split
    · rfl
    · next hne =>
      rcases hmem h v hvm with hvm | ⟨rfl, -⟩
      · exact hI.stored h v hvm
      · exact absurd rfl hne
  · rcases hmem h v hvm with hvm | ⟨rfl, rfl⟩
    · rcases hmem h' v' hvm' with hvm' | ⟨rfl, rfl⟩
      · exact hI.apart h h' hne v hvm v' hvm'
      · exact hfresh h v hvm
    · rcases hmem h' v' hvm' with hvm' | ⟨rfl, rfl⟩
      · exact (hfresh h' v' hvm').symm
      · exact absurd rfl hne
  · rcases hv.req h tx hx with hx | ⟨-, hvin⟩
    · exact hI.req h tx hx
    · exact .inl hvin
  · rw [hv.rejected] at hx
    exact hI.rejected h tx hx

theorem requestStep (hI : VoteInv hist s) {s' : SwiftState} {env : SwiftEnv} {tx : CTransaction}
    (hr : RequestStep env s tx s') : VoteInv hist s' := by
  refine hI.of_sameVotes hr.votes (fun k hk => ?_) (fun h x hx => ?_) (fun h y hy => ?_)
    (fun h y hy => ?_)
  · rw [hr.vote]
    cases requestVote env s tx with
    | none => exact hk
    | some v =>
      rw [lookup_insert_eq]
      split
      · rfl
      · exact hk
  · rcases hr.txHash h with heq | ⟨rfl, heq⟩
    · exact hI.txHash h x (heq ▸ hx)
    · rw [heq] at hx
      exact (Option.some.inj hx).symm
  · rcases hr.req h y hy with hy | ⟨rfl, rfl⟩
    · exact hI.req h y hy
    · exact .inr rfl
  · rcases hr.rejected h y hy with hy | ⟨rfl, rfl⟩
    · exact hI.rejected h y hy
    · rfl

theorem cleanStep (hI : VoteInv hist s) {s' : SwiftState} {env : SwiftEnv}
    (hc : CleanStep env s s') : VoteInv hist s' := by
  have hlock : ∀ h, s'.mapTxLocks.lookup h = s.mapTxLocks.lookup h ∨
      s'.mapTxLocks.lookup h = none := by
    intro h
    cases hl : s'.mapTxLocks.lookup h with
    | none => exact .inr rfl
    | some x => exact .inl ((hc.locks h x).1 hl).1.symm
  have hmem : ∀ h v, v ∈ s'.votes h → v ∈ s.votes h ∧ ¬Expired env s h := by
    intro h v hv
    rw [SwiftState.votes] at hv
    cases hl : s'.mapTxLocks.lookup h with
    | none =>
      rw [hl] at hv
      exact absurd hv (by simp)
    | some x =>
      rw [hl] at hv
      obtain ⟨hx, hne⟩ := (hc.locks h x).1 hl
      exact ⟨by rw [votes_of_lookup hx]; exact hv, hne⟩
  refine ⟨fun h x hx => ?_, fun h v hv => hI.votes h v (hmem h v hv).1, fun h => ?_,
    fun h v hv => ?_, fun h h' hne v hv v' hv' => hI.apart h h' hne v (hmem h v hv).1 v'
      (hmem h' v' hv').1, fun h x hx => hI.req h x ((hc.req h x).1 hx).1,
    fun h x hx => hI.rejected h x ((hc.rejected h x).1 hx).1⟩
  · rcases hlock h with heq | heq
    · exact hI.txHash h x (heq ▸ hx)
    · rw [heq] at hx
      exact absurd hx (by simp)
  · rcases hlock h with heq | heq
    · rw [SwiftState.votes, heq]
      exact hI.nodup h
    · rw [SwiftState.votes, heq]
      exact List.nodup_nil
  · obtain ⟨hv, hne⟩ := hmem h v hv
    obtain ⟨u, hu⟩ := Option.isSome_iff_exists.1 (hI.stored h v hv)
    rw [(hc.vote v.getHash u).2 ⟨hu, ?_⟩]
    · rfl
    · rintro ⟨h', hexp, -, hk⟩
      obtain ⟨v', hv', heq⟩ := List.mem_map.1 hk
      have hne' : h' ≠ h := by
        rintro rfl
        exact hne hexp
      exact hI.apart h' h hne' v' hv' v hv heq

theorem step (hI : VoteInv hist s) (a : SwiftEnv × SwiftMsg) :
    VoteInv (hist ++ [a]) (swiftStep s a) := by
  have hmono := hI.mono a
  obtain ⟨env, msg⟩ := a
  cases msg with
  | ix tx =>
    change VoteInv _ (if env.active then processIx env s tx else s)
    split
    · rcases processIx_cases env s tx with ⟨-, heq⟩ | ⟨-, hr⟩
      · rw [heq]
        exact hmono
      · exact hmono.requestStep hr
    · exact hmono
  | txlvote ctx =>
    change VoteInv _ (if env.active then processTxlvote env s ctx else s)
    split
    · next hactive =>
      rcases processTxlvote_cases env s ctx with ⟨-, heq⟩ | ⟨-, -, heq⟩ | ⟨hnew, hvalid, hv⟩
      · rw [heq]
        exact hmono
      · rw [heq]
        refine hmono.of_sameVotes rfl (fun k hk => ?_) hmono.txHash hmono.req hmono.rejected
        simp only [lookup_insert_eq]
        split
        · rfl
        · exact hk
      · refine hmono.voteCounted ?_ hnew hv
        simp [delivered, hactive, hvalid]
    · exact hmono
  | clean =>
    change VoteInv _ (cleanTransactionLocksList env s)
    by_cases htip : env.tip.isSome
    · exact hmono.cleanStep (cleanStep_cleanTransactionLocksList (fun h lock => hI.lock_txHash) htip)
    · rw [cleanTransactionLocksList, if_pos (by simpa using htip)]
      exact hmono

/-- The invariant holds after every history. -/
theorem run (hist : List (SwiftEnv × SwiftMsg)) : VoteInv hist (swiftRun hist) := by
  have hall : Run.AlongFold swiftStep (fun _ _ => True) {} hist :=
    Run.alongFold_of_forall fun _ _ => trivial
  exact Run.foldl_history (I := VoteInv) (fun _ _ a hI _ => step hI a) start hall

end VoteInv

/-! ## A small network -/

namespace LockExample

/-- A node with the layer on, at height `100`.  Every coin was created at height `50`, an input
without a script is refused, a masternode is ranked by the index of its collateral and a signature
is the single byte `1`. -/
def node (getTime : ℤ) : SwiftEnv where
  network := .main
  fLiteMode := false
  sporkSwiftTx := true
  blockchainSynced := true
  sporkMaxValue := 1000
  getTime := getTime
  tip := some 100
  coinsHeight := fun _ => some 50
  getTransaction := fun _ => none
  acceptPolicy := fun _ => true
  acceptInputs := fun tx => tx.vin.all fun i => !i.scriptSig.isEmpty
  getMasternodeRank := fun vin _ => vin.prevout.n + 1
  signatureValid := fun v => v.vchMasterNodeSignature == [1]
  fMasterNode := false
  activeMasternodeVin := { prevout := ⟨0, 0⟩ }
  sign := fun _ _ => none

/-- The output both transactions spend. -/
def coin : COutPoint := ⟨1, 0⟩

/-- A payment of the owner of the coin. -/
def payment : CTransaction where
  hash := 3
  vin := [{ prevout := coin, scriptSig := [1] }]
  vout := [{ nValue := 100000000, scriptPubKey := [0x6a] }]

/-- A transaction anybody can write: it names the coin and carries no signature. -/
def unsigned : CTransaction where
  hash := 2
  vin := [{ prevout := coin }]
  vout := [{ nValue := 100000000, scriptPubKey := [0x6a] }]

/-- The vote of the masternode with collateral `(7, i)` on the payment. -/
def vote (i : ℕ) : CConsensusVote where
  vinMasternode := { prevout := ⟨7, i⟩ }
  txHash := 3
  nBlockHeight := 53
  vchMasterNodeSignature := [1]

/-- The payment is requested and six masternodes vote for it. -/
def locking : List (SwiftEnv × SwiftMsg) :=
  (node 1000, .ix payment) :: (List.range 6).map fun i => (node 1000, .txlvote (vote i))

/-- Somebody requests a lock for the unsigned transaction. -/
def attack : List (SwiftEnv × SwiftMsg) := [(node 1000, .ix unsigned)]

end LockExample

/-! ## Release -/

/-- The clean-up releases the expired locks and nothing else: no input, request or vote of an
expired lock is left, and all that belongs to an unexpired lock stays. -/
structure ReleasesLocks (env : SwiftEnv) (s s' : SwiftState) : Prop where
  released : ∀ h, Expired env s h → (∀ o, s'.mapLockedInputs.lookup o ≠ some h) ∧
    s'.mapTxLockReq.lookup h = none ∧ s'.mapTxLockReqRejected.lookup h = none ∧
    ∀ k v, s'.mapTxLockVote.lookup k = some v → v.txHash ≠ h
  kept : ∀ h lock, s.mapTxLocks.lookup h = some lock → ¬env.expired lock →
    s'.mapTxLocks.lookup h = some lock ∧
    s'.mapTxLockReq.lookup h = s.mapTxLockReq.lookup h ∧
    s'.mapTxLockReqRejected.lookup h = s.mapTxLockReqRejected.lookup h ∧
    (∀ o, s.mapLockedInputs.lookup o = some h → s'.mapLockedInputs.lookup o = some h) ∧
    ∀ k v, v.txHash = h → s.mapTxLockVote.lookup k = some v → s'.mapTxLockVote.lookup k = some v

/-- The transaction has a lock that has not expired. -/
def Live (env : SwiftEnv) (s : SwiftState) (h : UInt256) : Prop :=
  ∃ lock, s.mapTxLocks.lookup h = some lock ∧ ¬env.expired lock

/-- What the clean-up relies on: whatever hangs on an expired lock is reached through the stored
requests and the vote lists of expired locks, and those share nothing with an unexpired lock. -/
structure Releasable (env : SwiftEnv) (s : SwiftState) : Prop where
  inputs : ∀ o h, s.mapLockedInputs.lookup o = some h → Expired env s h →
    ∃ h' tx, Expired env s h' ∧ s.mapTxLockReq.lookup h' = some tx ∧ o ∈ tx.vin.map CTxIn.prevout
  rejected : ∀ h, Expired env s h → (s.mapTxLockReqRejected.lookup h).isSome →
    (s.mapTxLockReq.lookup h).isSome
  votes : ∀ k v, s.mapTxLockVote.lookup k = some v → Expired env s v.txHash →
    ∃ h', Expired env s h' ∧ (s.mapTxLockReq.lookup h').isSome ∧
      k ∈ (s.votes h').map CConsensusVote.getHash
  inputs_apart : ∀ o h, s.mapLockedInputs.lookup o = some h → Live env s h →
    ∀ h' tx, Expired env s h' → s.mapTxLockReq.lookup h' = some tx →
      o ∉ tx.vin.map CTxIn.prevout
  votes_apart : ∀ k v, s.mapTxLockVote.lookup k = some v → Live env s v.txHash →
    ∀ h', Expired env s h' → (s.mapTxLockReq.lookup h').isSome →
      k ∉ (s.votes h').map CConsensusVote.getHash

theorem not_expired_of_live {env : SwiftEnv} {s : SwiftState} {h : UInt256} (hl : Live env s h) :
    ¬Expired env s h := by
  obtain ⟨lock, hl, hne⟩ := hl
  rintro ⟨lock', hl', hx⟩
  rw [hl] at hl'
  cases hl'
  exact hne hx

theorem releasesLocks_of_releasable {env : SwiftEnv} {s s' : SwiftState} (hc : CleanStep env s s')
    (hr : Releasable env s) : ReleasesLocks env s s' where
  released h hexp := by
    refine ⟨fun o ho => ?_, ?_, ?_, fun k v hv hh => ?_⟩
    · obtain ⟨ho, hkeep⟩ := (hc.locked o h).1 ho
      exact hkeep (hr.inputs o h ho hexp)
    · refine Option.eq_none_iff_forall_not_mem.2 fun x hx => ?_
      exact ((hc.req h x).1 hx).2 hexp
    · refine Option.eq_none_iff_forall_not_mem.2 fun x hx => ?_
      obtain ⟨hx, hkeep⟩ := (hc.rejected h x).1 hx
      exact hkeep ⟨hexp, hr.rejected h hexp (by rw [hx]; rfl)⟩
    · obtain ⟨hv, hkeep⟩ := (hc.vote k v).1 hv
      exact hkeep (hr.votes k v hv (hh ▸ hexp))
  kept h lock hl hne := by
    have hlive : Live env s h := ⟨lock, hl, hne⟩
    have hnexp := not_expired_of_live hlive
    refine ⟨(hc.locks h lock).2 ⟨hl, hnexp⟩, Option.ext fun x => ?_, Option.ext fun x => ?_,
      fun o ho => ?_, fun k v hv hk => ?_⟩
    · rw [hc.req]
      exact and_iff_left hnexp
    · rw [hc.rejected]
      exact and_iff_left fun h => hnexp h.1
    · refine (hc.locked o h).2 ⟨ho, ?_⟩
      rintro ⟨h', tx, hexp, htx, hin⟩
      exact hr.inputs_apart o h ho hlive h' tx hexp htx hin
    · refine (hc.vote k v).2 ⟨hk, ?_⟩
      rintro ⟨h', hexp, hreq, hin⟩
      exact hr.votes_apart k v hk (hv ▸ hlive) h' hexp hreq hin

theorem releasable_of_releasesLocks {env : SwiftEnv} {s s' : SwiftState} (hc : CleanStep env s s')
    (hr : ReleasesLocks env s s') : Releasable env s where
  inputs o h ho hexp := by
    by_contra hno
    exact (hr.released h hexp).1 o ((hc.locked o h).2 ⟨ho, hno⟩)
  rejected h hexp hsome := by
    obtain ⟨x, hx⟩ := Option.isSome_iff_exists.1 hsome
    by_contra hno
    have hnone := (hr.released h hexp).2.2.1
    rw [(hc.rejected h x).2 ⟨hx, fun hh => hno hh.2⟩] at hnone
    exact absurd hnone (by simp)
  votes k v hv hexp := by
    by_contra hno
    exact (hr.released _ hexp).2.2.2 k v ((hc.vote k v).2 ⟨hv, hno⟩) rfl
  inputs_apart o h ho hlive h' tx hexp htx hin := by
    obtain ⟨lock, hl, hne⟩ := hlive
    have hkept := (hr.kept h lock hl hne).2.2.2.1 o ho
    exact ((hc.locked o h).1 hkept).2 ⟨h', tx, hexp, htx, hin⟩
  votes_apart k v hv hlive h' hexp hreq hin := by
    obtain ⟨lock, hl, hne⟩ := hlive
    have hkept := (hr.kept _ lock hl hne).2.2.2.2 k v rfl hv
    exact ((hc.vote k v).1 hkept).2 ⟨h', hexp, hreq, hin⟩

/-- **When the clean-up is exact.**  After every history, the clean-up releases the expired locks
and nothing else exactly when all that hangs on an expired lock is reached through stored requests
and vote lists of expired locks, and nothing of those is shared with an unexpired one. -/
theorem clean_releases_iff (hist : List (SwiftEnv × SwiftMsg)) (env : SwiftEnv)
    (htip : env.tip.isSome) :
    ReleasesLocks env (swiftRun hist) (cleanTransactionLocksList env (swiftRun hist)) ↔
      Releasable env (swiftRun hist) := by
  have hc : CleanStep env (swiftRun hist) (cleanTransactionLocksList env (swiftRun hist)) :=
    cleanStep_cleanTransactionLocksList (fun h lock => (VoteInv.run hist).lock_txHash) htip
  exact ⟨releasable_of_releasesLocks hc, releasesLocks_of_releasable hc⟩

open LockExample in
/-- An accepted request is released once its lock has expired. -/
theorem clean_releases_payment :
    Expired (node 5000) (swiftRun (locking.take 1)) 3 ∧
      ReleasesLocks (node 5000) (swiftRun (locking.take 1))
        (cleanTransactionLocksList (node 5000) (swiftRun (locking.take 1))) := by
  have hlocked : (swiftRun (locking.take 1)).mapLockedInputs = ∅ :=
    AList.ext (List.length_eq_zero_iff.1 (by decide))
  have hrejected : (swiftRun (locking.take 1)).mapTxLockReqRejected = ∅ :=
    AList.ext (List.length_eq_zero_iff.1 (by decide))
  have hvote : (swiftRun (locking.take 1)).mapTxLockVote = ∅ :=
    AList.ext (List.length_eq_zero_iff.1 (by decide))
  refine ⟨⟨newLock (node 1000) 3 53, by decide, by decide⟩, ?_⟩
  refine (clean_releases_iff (locking.take 1) (node 5000) rfl).2 ⟨?_, ?_, ?_, ?_, ?_⟩
  · intro o h ho
    rw [hlocked] at ho
    exact absurd ho (by simp)
  · intro h _ hr
    rw [hrejected] at hr
    exact absurd hr (by simp)
  · intro k v hv
    rw [hvote] at hv
    exact absurd hv (by simp)
  · intro o h ho
    rw [hlocked] at ho
    exact absurd ho (by simp)
  · intro k v hv
    rw [hvote] at hv
    exact absurd hv (by simp)

open LockExample in
/-- **A rejected request is never released**: after its lock has expired and has been cleaned, the
coin is still locked for it. -/
theorem clean_keeps_rejected_request :
    Expired (node 5000) (swiftRun attack) 2 ∧
      (cleanTransactionLocksList (node 5000) (swiftRun attack)).mapTxLocks = ∅ ∧
      (cleanTransactionLocksList (node 5000) (swiftRun attack)).mapLockedInputs.lookup
        LockExample.coin = some 2 ∧
      ¬ReleasesLocks (node 5000) (swiftRun attack)
        (cleanTransactionLocksList (node 5000) (swiftRun attack)) := by
  have hexp : Expired (node 5000) (swiftRun attack) 2 :=
    ⟨newLock (node 1000) 2 53, by decide, by decide⟩
  have hcoin : (cleanTransactionLocksList (node 5000) (swiftRun attack)).mapLockedInputs.lookup
      LockExample.coin = some 2 := by decide
  exact ⟨hexp, AList.ext (List.length_eq_zero_iff.1 (by decide)), hcoin,
    fun hr => (hr.released 2 hexp).1 _ hcoin⟩

/-! ## Locked inputs -/

/-- The transaction `h` spends `o`, and its lock holds votes of at least
`SWIFTTX_SIGNATURES_REQUIRED` masternodes at its height, each of them delivered and valid. -/
def CompleteLockOn (hist : List (SwiftEnv × SwiftMsg)) (s : SwiftState) (o : COutPoint)
    (h : UInt256) : Prop :=
  ∃ tx lock, ∃ voters : Finset COutPoint,
    (s.mapTxLockReq.lookup h = some tx ∨ s.mapTxLockReqRejected.lookup h = some tx) ∧
    tx.hash = h ∧ o ∈ tx.vin.map CTxIn.prevout ∧ s.mapTxLocks.lookup h = some lock ∧
    swiftTxSignaturesRequired ≤ voters.card ∧
    ∀ p ∈ voters, ∃ v ∈ lock.vecConsensusVotes, v.vinMasternode.prevout = p ∧ v.txHash = h ∧
      v.nBlockHeight = lock.nBlockHeight ∧ v ∈ delivered hist

/-- Votes on one transaction with different hashes are votes of different masternodes. -/
theorem VoteInv.voters_nodup {hist : List (SwiftEnv × SwiftMsg)} {s : SwiftState}
    (hI : VoteInv hist s) (h : UInt256) :
    ((s.votes h).map fun v => v.vinMasternode.prevout).Nodup := by
  have hnodup := hI.nodup h
  rw [List.Nodup, List.pairwise_map] at hnodup ⊢
  refine hnodup.imp_of_mem fun {a b} ha hb hne heq => hne ?_
  rw [CConsensusVote.getHash, CConsensusVote.getHash, heq, (hI.votes h a ha).1, (hI.votes h b hb).1]

/-- The masternodes whose votes count for the lock of a transaction. -/
def SwiftState.voters (s : SwiftState) (h : UInt256) (nBlockHeight : ℤ) : Finset COutPoint :=
  (((s.votes h).filter fun v => v.nBlockHeight == nBlockHeight).map
    fun v => v.vinMasternode.prevout).toFinset

theorem mem_voters {s : SwiftState} {h : UInt256} {nBlockHeight : ℤ} {p : COutPoint} :
    p ∈ s.voters h nBlockHeight ↔
      ∃ v ∈ s.votes h, v.nBlockHeight = nBlockHeight ∧ v.vinMasternode.prevout = p := by
  simp [SwiftState.voters, and_assoc]

theorem VoteInv.card_voters {hist : List (SwiftEnv × SwiftMsg)} {s : SwiftState}
    (hI : VoteInv hist s) (h : UInt256) (nBlockHeight : ℤ) :
    (s.voters h nBlockHeight).card =
      (s.votes h).countP fun v => v.nBlockHeight == nBlockHeight := by
  have hsub := (List.filter_sublist (p := fun v => v.nBlockHeight == nBlockHeight)
    (l := s.votes h)).map fun v => v.vinMasternode.prevout
  rw [SwiftState.voters, List.toFinset_card_of_nodup (hsub.nodup (hI.voters_nodup h)),
    List.length_map, List.countP_eq_length_filter]

/-- Every locked input belongs to a complete lock. -/
def LockedInv (s : SwiftState) : Prop :=
  ∀ o h, s.mapLockedInputs.lookup o = some h → lockComplete s h = true ∧
    ∃ tx, (s.mapTxLockReq.lookup h = some tx ∨ s.mapTxLockReqRejected.lookup h = some tx) ∧
      o ∈ tx.vin.map CTxIn.prevout

/-- What keeps the locked inputs in order: a request the memory pool rejects finds its inputs
locked already, or the votes for its lock already there, and when a lock expires the inputs locked
for its transaction are inputs of its stored request. -/
def LocksInOrder (s : SwiftState) : SwiftEnv × SwiftMsg → Prop
  | (env, .ix tx) => env.active = true → requestRejected env s tx = true →
      (∀ o ∈ tx.vin.map CTxIn.prevout, (s.mapLockedInputs.lookup o).isSome) ∨
        lockComplete (createNewLock env s tx).1 tx.hash = true
  | (_, .txlvote _) => True
  | (env, .clean) => ∀ o h, s.mapLockedInputs.lookup o = some h → Expired env s h →
      ∃ tx, s.mapTxLockReq.lookup h = some tx ∧ o ∈ tx.vin.map CTxIn.prevout

namespace LockedInv

variable {hist : List (SwiftEnv × SwiftMsg)} {s s' : SwiftState} {env : SwiftEnv}

theorem voteCounted (hL : LockedInv s) {ctx : CConsensusVote} (hv : VoteCounted s ctx s') :
    LockedInv s' := by
  intro o h ho
  rcases hv.locked o h ho with ho | ⟨hc, tx, htx, hin⟩
  · obtain ⟨hc, tx, htx, hin⟩ := hL o h ho
    refine ⟨?_, tx, ?_, hin⟩
    · rw [lockComplete_iff] at hc ⊢
      refine ⟨by rw [hv.height]; exact hc.1, hc.2.trans ?_⟩
      rw [SwiftState.tally, SwiftState.tally, hv.height, hv.votes]
      split
      · rw [List.countP_append]
        exact Nat.le_add_right _ _
      · exact le_rfl
    · rw [hv.rejected]
      exact htx.imp_left (hv.req_kept h tx)
  · exact ⟨hc, tx, .inl htx, hin⟩

theorem requestStep (hL : LockedInv s) {tx : CTransaction} (hr : RequestStep env s tx s')
    (htaken : requestTaken env s tx = true)
    (hcond : requestRejected env s tx = true →
      (∀ o ∈ tx.vin.map CTxIn.prevout, (s.mapLockedInputs.lookup o).isSome) ∨
        lockComplete (createNewLock env s tx).1 tx.hash = true) : LockedInv s' := by
  have hnew : s.mapTxLockReq.lookup tx.hash = none ∧
      s.mapTxLockReqRejected.lookup tx.hash = none := by
    simp only [requestTaken, Bool.and_eq_true, Bool.not_eq_true', Option.isSome_eq_false_iff,
      Option.isNone_iff_eq_none] at htaken
    exact ⟨htaken.1.1.1, htaken.1.1.2⟩
  intro o h ho
  rcases hr.locked o h ho with ho | ⟨hnone, hin, rfl, hrej, hstored⟩
  · obtain ⟨hc, x, hx, hin⟩ := hL o h ho
    -- the lock is not that of the new request, which is not stored yet
    have hne : h ≠ tx.hash := by
      rintro rfl
      rw [hnew.1, hnew.2] at hx
      exact absurd hx (by simp)
    refine ⟨?_, x, hx.imp (hr.req_kept h x) (hr.rejected_kept h x), hin⟩
    rw [lockComplete_iff] at hc ⊢
    have hheight : s'.height h = s.height h := by rw [hr.height, if_neg hne]
    rw [SwiftState.tally, hheight, hr.votes]
    exact hc
  · refine ⟨?_, tx, .inr hstored, hin⟩
    rcases hcond hrej with hall | hc
    · have := hall o hin
      rw [hnone] at this
      exact absurd this (by simp)
    · obtain ⟨locks, heq, hvotes, hheight, -⟩ := createNewLock_spec env s tx
      rw [heq, lockComplete_iff] at hc
      rw [lockComplete_iff, SwiftState.tally, hr.height, hr.votes]
      rwa [SwiftState.tally, hheight, hvotes] at hc

theorem cleanStep (hL : LockedInv s) (hc : CleanStep env s s')
    (hcond : ∀ o h, s.mapLockedInputs.lookup o = some h → Expired env s h →
      ∃ tx, s.mapTxLockReq.lookup h = some tx ∧ o ∈ tx.vin.map CTxIn.prevout) : LockedInv s' := by
  intro o h ho
  obtain ⟨ho, hkeep⟩ := (hc.locked o h).1 ho
  obtain ⟨hcomplete, tx, htx, hin⟩ := hL o h ho
  have hne : ¬Expired env s h := by
    intro hexp
    obtain ⟨x, hx, hin⟩ := hcond o h ho hexp
    exact hkeep ⟨h, x, hexp, hx, hin⟩
  refine ⟨?_, tx, htx.imp (fun hx => (hc.req h tx).2 ⟨hx, hne⟩)
    (fun hx => (hc.rejected h tx).2 ⟨hx, fun he => hne he.1⟩), hin⟩
  have hlock : s'.mapTxLocks.lookup h = s.mapTxLocks.lookup h := by
    refine Option.ext fun x => ?_
    rw [hc.locks]
    exact and_iff_left hne
  rw [lockComplete, hlock]
  exact hcomplete

theorem step (hV : VoteInv hist s) (hL : LockedInv s) {a : SwiftEnv × SwiftMsg}
    (hcond : LocksInOrder s a) : LockedInv (swiftStep s a) := by
  obtain ⟨env, msg⟩ := a
  cases msg with
  | ix tx =>
    change LockedInv (if env.active then processIx env s tx else s)
    split
    · next hactive =>
      rcases processIx_cases env s tx with ⟨-, heq⟩ | ⟨htaken, hr⟩
      · rw [heq]
        exact hL
      · exact hL.requestStep hr htaken (hcond hactive)
    · exact hL
  | txlvote ctx =>
    change LockedInv (if env.active then processTxlvote env s ctx else s)
    split
    · rcases processTxlvote_cases env s ctx with ⟨-, heq⟩ | ⟨-, -, heq⟩ | ⟨-, -, hv⟩
      · rw [heq]
        exact hL
      · rw [heq]
        exact hL
      · exact hL.voteCounted hv
    · exact hL
  | clean =>
    change LockedInv (cleanTransactionLocksList env s)
    by_cases htip : env.tip.isSome
    · exact hL.cleanStep
        (cleanStep_cleanTransactionLocksList (fun h lock => hV.lock_txHash) htip) hcond
    · rw [cleanTransactionLocksList, if_pos (by simpa using htip)]
      exact hL

end LockedInv

theorem lockedInv_run {hist : List (SwiftEnv × SwiftMsg)}
    (hcond : Run.AlongFold swiftStep LocksInOrder {} hist) : LockedInv (swiftRun hist) := by
  have hstart : VoteInv [] {} ∧ LockedInv {} :=
    ⟨VoteInv.start, fun o h ho => absurd ho (by simp)⟩
  exact (Run.foldl_history (I := fun hist s => VoteInv hist s ∧ LockedInv s)
    (fun _ _ a hI ha => ⟨hI.1.step a, LockedInv.step hI.1 hI.2 ha⟩) hstart hcond).2

/-- A complete lock whose request is known holds the votes of enough masternodes. -/
theorem completeLockOn_of_lockComplete {hist : List (SwiftEnv × SwiftMsg)} {s : SwiftState}
    (hV : VoteInv hist s) {o : COutPoint} {h : UInt256} {tx : CTransaction}
    (hc : lockComplete s h = true)
    (htx : s.mapTxLockReq.lookup h = some tx ∨ s.mapTxLockReqRejected.lookup h = some tx)
    (hin : o ∈ tx.vin.map CTxIn.prevout) : CompleteLockOn hist s o h := by
  obtain ⟨lock, hl⟩ : ∃ lock, s.mapTxLocks.lookup h = some lock := by
    cases hl : s.mapTxLocks.lookup h with
    | none =>
      rw [lockComplete, hl] at hc
      exact absurd hc (by simp)
    | some lock => exact ⟨lock, rfl⟩
  have hhash : tx.hash = h := by
    rcases htx with htx | htx
    · rcases hV.req h tx htx with hvin | hhash
      · rw [hvin] at hin
        exact absurd hin (by simp)
      · exact hhash
    · exact hV.rejected h tx htx
  refine ⟨tx, lock, s.voters h lock.nBlockHeight, htx, hhash, hin, hl, ?_, fun p hp => ?_⟩
  · rw [hV.card_voters, swiftTxSignaturesRequired]
    have := (lockComplete_iff.1 hc).2
    rw [SwiftState.tally, height_of_lookup hl] at this
    exact_mod_cast this
  · obtain ⟨v, hv, hheight, hp⟩ := mem_voters.1 hp
    obtain ⟨htxHash, hdel⟩ := hV.votes h v hv
    exact ⟨v, by rwa [← votes_of_lookup hl], hp, htxHash, hheight, hdel⟩

theorem exists_of_lockConflict {locked : COutPoint → Option UInt256} {tx : CTransaction}
    (h : lockConflict locked tx = true) :
    ∃ o ∈ tx.vin.map CTxIn.prevout, ∃ t, t ≠ tx.hash ∧ locked o = some t := by
  rw [lockConflict, List.any_eq_true] at h
  obtain ⟨i, hi, hc⟩ := h
  refine ⟨i.prevout, List.mem_map_of_mem hi, ?_⟩
  split at hc
  · next t ht => exact ⟨t, by simpa using hc, ht⟩
  · exact absurd hc (by simp)

theorem lockConflict_of_acceptToMemoryPool {env : SwiftEnv} {locked : Map COutPoint UInt256}
    {tx : CTransaction} (h : acceptToMemoryPool env locked tx = .error .txLockConflict) :
    lockConflict locked.lookup tx = true := by
  rw [acceptToMemoryPool] at h
  by_contra hc
  rw [Bool.not_eq_true] at hc
  rw [hc] at h
  split at h
  · simp at h
  · split_ifs at h <;> contradiction

/-- **Only complete locks lock inputs.**  In every run whose rejected requests find their inputs
locked or their votes there, a locked input belongs to a transaction that spends it and whose lock
holds the votes of enough masternodes.  So wherever the memory pool or `CheckBlock` rejects a
transaction for a lock, that many masternodes voted for another transaction. -/
theorem locked_inputs_complete (hist : List (SwiftEnv × SwiftMsg))
    (hcond : Run.AlongFold swiftStep LocksInOrder {} hist) :
    (∀ o h, (swiftRun hist).mapLockedInputs.lookup o = some h →
      CompleteLockOn hist (swiftRun hist) o h) ∧
    (∀ env tx, acceptToMemoryPool env (swiftRun hist).mapLockedInputs tx = .error .txLockConflict →
      ∃ o ∈ tx.vin.map CTxIn.prevout, ∃ h, h ≠ tx.hash ∧
        CompleteLockOn hist (swiftRun hist) o h) ∧
    ∀ env tree block f, env.mapLockedInputs = (swiftRun hist).mapLockedInputs.lookup →
      checkBlock env tree block f = .error conflictingTxIx →
      ∃ tx ∈ block.vtx, ∃ o ∈ tx.vin.map CTxIn.prevout, ∃ h, h ≠ tx.hash ∧
        CompleteLockOn hist (swiftRun hist) o h := by
  have hV := VoteInv.run hist
  have hlocked : ∀ o h, (swiftRun hist).mapLockedInputs.lookup o = some h →
      CompleteLockOn hist (swiftRun hist) o h := by
    intro o h ho
    obtain ⟨hc, tx, htx, hin⟩ := lockedInv_run hcond o h ho
    exact completeLockOn_of_lockComplete hV hc htx hin
  refine ⟨hlocked, fun env tx hpool => ?_, fun env tree block f henv hblock => ?_⟩
  · obtain ⟨o, ho, h, hne, hl⟩ := exists_of_lockConflict (lockConflict_of_acceptToMemoryPool hpool)
    exact ⟨o, ho, h, hne, hlocked o h hl⟩
  · have hscan := checkLocks_of_checkBlock hblock
    rw [checkLocks_eq, require_eq_error] at hscan
    obtain ⟨hall, -⟩ := hscan
    rw [Bool.or_eq_false_iff, List.all_eq_false] at hall
    obtain ⟨tx, htx, hc⟩ := hall.2
    have hconflict : lockConflict env.mapLockedInputs tx = true := by
      by_contra hno
      exact hc (by simp [hno])
    obtain ⟨o, ho, h, hne, hl⟩ := exists_of_lockConflict hconflict
    exact ⟨tx, htx, o, ho, h, hne, hlocked o h (by rw [henv] at hl; exact hl)⟩

open LockExample in
/-- Six votes lock the coin of the payment, as they should. -/
theorem locked_inputs_complete_payment :
    Run.AlongFold swiftStep LocksInOrder {} locking ∧
      CompleteLockOn locking (swiftRun locking) LockExample.coin 3 := by
  have hcond : Run.AlongFold swiftStep LocksInOrder {} locking := by
    refine ⟨fun _ hrej => absurd hrej (by decide), ?_⟩
    exact ⟨trivial, trivial, trivial, trivial, trivial, trivial, trivial⟩
  exact ⟨hcond, (locked_inputs_complete locking hcond).1 _ _ (by decide)⟩

open LockExample in
/-- **One message without any masternode's vote locks a coin**, and the memory pool then refuses
the payment of its owner. -/
theorem unsigned_request_locks_input :
    (swiftRun attack).mapLockedInputs.lookup LockExample.coin = some 2 ∧
      delivered attack = [] ∧ ¬CompleteLockOn attack (swiftRun attack) LockExample.coin 2 ∧
      acceptToMemoryPool (node 1000) ∅ payment = .ok () ∧
      acceptToMemoryPool (node 1000) (swiftRun attack).mapLockedInputs payment =
        .error .txLockConflict := by
  have hdel : delivered attack = [] := rfl
  refine ⟨by decide, hdel, ?_, by decide, by decide⟩
  rintro ⟨tx, lock, voters, -, -, -, -, hcard, hvoters⟩
  have hempty : voters = ∅ := by
    refine Finset.eq_empty_of_forall_notMem fun p hp => ?_
    obtain ⟨v, -, -, -, -, hv⟩ := hvoters p hp
    rw [hdel] at hv
    exact absurd hv (by simp)
  rw [hempty] at hcard
  exact absurd hcard (by decide)

end FairCoin
