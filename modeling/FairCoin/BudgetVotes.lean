import Mathlib
import FairCoin.Budget
import FairCoin.Lib.Run

/-!
# Votes on proposals and finalized budgets

The messages `mprop`, `mvote`, `fbs` and `fbvote` of `CBudgetManager::ProcessMessage`.  Proposals
and finalized budgets are handled by the same code twice over, so both are a `Ballot`: items with
their votes, the hashes seen, and one orphan vote for each item that is not known yet.

* `accepted` — the votes that get past the seen map and the signature check: a vote counts when
  the first message with its hash carries its signature.
* `lookup_items_run` — the votes of an item after a run: the last orphan, then every later
  accepted vote.
* `votesKept_iff` — **no vote is lost** exactly when no forged copy comes before a vote, at most one
  vote comes before the item, and no vote is ahead of the clock when it is counted.
-/

namespace FairCoin

open Store

/-! ## A ballot -/

/-- `BUDGET_VOTE_UPDATE_MIN`. -/
def budgetVoteUpdateMin : ℤ := 60 * 60

/-- A kind of item that is voted on, with what the budget manager asks of the rest of the node:
hashes, `IsBudgetCollateralValid` and `IsValid` of an item, `VerifyMessage` under the key of the
masternode, `mnodeman.Find` and `masternodeSync.IsSynced`. -/
structure BallotEnv (I V : Type) where
  itemHash : I → UInt256
  mapVotes : I → Map UInt256 V
  setVotes : I → Map UInt256 V → I
  mapVotes_setVotes : ∀ i m, mapVotes (setVotes i m) = m
  isCollateralValid : I → Bool
  isValid : I → Bool
  vin : V → CTxIn
  nHash : V → UInt256
  nTime : V → ℤ
  getHash : V → UInt256
  verifyMessage : V → Bool
  find : COutPoint → Bool
  outPointHash : COutPoint → UInt256
  isSynced : Bool

/-- The maps of the budget manager for one kind of item: `mapProposals`,
`mapSeenMasternodeBudgetProposals`, `mapSeenMasternodeBudgetVotes` and
`mapOrphanMasternodeBudgetVotes`, or those of the finalized budgets. -/
structure Ballot (I V : Type) where
  items : Map UInt256 I := ∅
  seenItems : Map UInt256 I := ∅
  seenVotes : Map UInt256 V := ∅
  orphanVotes : Map UInt256 V := ∅

/-- A message about an item: the item itself, or a vote on it. -/
inductive BallotMsg (I V : Type) where
  | item (i : I)
  | vote (v : V)

namespace Ballot

variable {I V : Type} (E : BallotEnv I V) (now : ℤ)

/-- The key of a vote: `vote.vin.prevout.GetHash()`. -/
def voteKey (vote : V) : UInt256 := E.outPointHash (E.vin vote).prevout

/-- The test of a vote against the one it replaces. -/
def replaces (i : I) (vote : V) : Bool :=
  match (E.mapVotes i).lookup (voteKey E vote) with
  | none => true
  | some old => !decide (E.nTime vote < E.nTime old) &&
      !decide (wrap64 (E.nTime vote - E.nTime old) < budgetVoteUpdateMin)

/-- `CBudgetProposal::AddOrUpdateVote` and `CFinalizedBudget::AddOrUpdateVote`; `none` is a
refusal, which changes nothing. -/
def addOrUpdateVote (i : I) (vote : V) : Option I :=
  if replaces E i vote && !decide (now + 60 * 60 < E.nTime vote) then
    some (E.setVotes i ((E.mapVotes i).insert (voteKey E vote) vote))
  else none

/-- `CBudgetManager::UpdateProposal` and `UpdateFinalizedBudget`.  `pfrom` is whether a peer sent
the vote: a vote on an unknown item is then kept as the orphan of that item. -/
def update (pfrom : Bool) (b : Ballot I V) (vote : V) : Ballot I V × Bool :=
  match b.items.lookup (E.nHash vote) with
  | none =>
      if pfrom && E.isSynced then
        ({ b with orphanVotes := b.orphanVotes.insert (E.nHash vote) vote }, false)
      else (b, false)
  | some i =>
      match addOrUpdateVote E now i vote with
      | some i' => ({ b with items := b.items.insert (E.nHash vote) i' }, true)
      | none => (b, false)

/-- One round of a loop of `CheckOrphanVotes`. -/
def checkOrphan (b : Ballot I V) (e : UInt256 × V) : Ballot I V :=
  let r := update E now false b e.2
  if r.2 then { r.1 with orphanVotes := r.1.orphanVotes.erase e.1 } else r.1

/-- `CBudgetManager::CheckOrphanVotes`, for one kind of item. -/
def checkOrphanVotes (b : Ballot I V) : Ballot I V :=
  (sortedEntries uint256Le b.orphanVotes).foldl (checkOrphan E now) b

/-- `CBudgetManager::AddProposal` and `AddFinalizedBudget`. -/
def addItem (b : Ballot I V) (i : I) : Ballot I V :=
  if E.isValid i then { b with items := insertNew b.items (E.itemHash i) i } else b

/-- The messages `mprop` and `fbs` up to the call of `CheckOrphanVotes`, and whether they get
there. -/
def receiveItem (b : Ballot I V) (i : I) : Ballot I V × Bool :=
  if (b.seenItems.lookup (E.itemHash i)).isSome then (b, false)
  else if !E.isCollateralValid i then (b, false)
  else
    let b := { b with seenItems := b.seenItems.insert (E.itemHash i) i }
    if !E.isValid i then (b, false) else (addItem E b i, true)

/-- The messages `mvote` and `fbvote`. -/
def receiveVote (b : Ballot I V) (vote : V) : Ballot I V :=
  if (b.seenVotes.lookup (E.getHash vote)).isSome then b
  else if !E.find (E.vin vote).prevout then b
  else
    let b := { b with seenVotes := b.seenVotes.insert (E.getHash vote) vote }
    if !E.verifyMessage vote then b else (update E now true b vote).1

/-- A message at a time. -/
def receive (b : Ballot I V) (m : ℤ × BallotMsg I V) : Ballot I V :=
  match m.2 with
  | .item i =>
      let r := receiveItem E b i
      if r.2 then checkOrphanVotes E m.1 r.1 else r.1
  | .vote v => receiveVote E m.1 b v

end Ballot

/-! ## Proposals and finalized budgets -/

/-- `CBudgetVote`. -/
structure CBudgetVote where
  vin : CTxIn
  nProposalHash : UInt256
  nVote : ℤ
  nTime : ℤ
  vchSig : List UInt8 := []
  deriving DecidableEq, Repr

/-- `CBudgetProposal`. -/
structure CBudgetProposal where
  strProposalName : String
  strURL : String
  nBlockStart : ℤ
  nBlockEnd : ℤ
  nAmount : ℤ
  address : CScript
  nFeeTXHash : UInt256
  mapVotes : Map UInt256 CBudgetVote := ∅

/-- The hash functions and the rest of the node, as the budget manager sees them.  The hash of a
vote leaves its signature out, and `verifyMessage` checks a signature of the signed text, which is
the outpoint, the hash, the choice and the time. -/
structure BudgetEnv where
  outPointHash : COutPoint → UInt256
  proposalHash : String → String → ℤ → ℤ → ℤ → CScript → UInt256
  budgetHash : String → ℤ → List CTxBudgetPayment → UInt256
  proposalVoteHash : CTxIn → UInt256 → ℤ → ℤ → UInt256
  budgetVoteHash : CTxIn → UInt256 → ℤ → UInt256
  find : COutPoint → Bool
  verifyMessage : COutPoint → UInt256 → Option ℤ → ℤ → List UInt8 → Bool
  isBudgetCollateralValid : UInt256 → UInt256 → Bool
  isProposalValid : CBudgetProposal → Bool
  isBudgetValid : CFinalizedBudget → Bool
  isSynced : Bool

namespace BudgetEnv

variable (env : BudgetEnv)

/-- `CBudgetProposal::GetHash`. -/
def getProposalHash (p : CBudgetProposal) : UInt256 :=
  env.proposalHash p.strProposalName p.strURL p.nBlockStart p.nBlockEnd p.nAmount p.address

/-- `CFinalizedBudget::GetHash`. -/
def getBudgetHash (b : CFinalizedBudget) : UInt256 :=
  env.budgetHash b.strBudgetName b.nBlockStart b.vecBudgetPayments

/-- Proposals and their votes. -/
def proposals : BallotEnv CBudgetProposal CBudgetVote where
  itemHash := env.getProposalHash
  mapVotes := CBudgetProposal.mapVotes
  setVotes := fun p m => { p with mapVotes := m }
  mapVotes_setVotes := fun _ _ => rfl
  isCollateralValid := fun p => env.isBudgetCollateralValid p.nFeeTXHash (env.getProposalHash p)
  isValid := env.isProposalValid
  vin := CBudgetVote.vin
  nHash := CBudgetVote.nProposalHash
  nTime := CBudgetVote.nTime
  getHash := fun v => env.proposalVoteHash v.vin v.nProposalHash v.nVote v.nTime
  verifyMessage := fun v =>
    env.verifyMessage v.vin.prevout v.nProposalHash (some v.nVote) v.nTime v.vchSig
  find := env.find
  outPointHash := env.outPointHash
  isSynced := env.isSynced

/-- Finalized budgets and their votes. -/
def finalized : BallotEnv CFinalizedBudget CFinalizedBudgetVote where
  itemHash := env.getBudgetHash
  mapVotes := CFinalizedBudget.mapVotes
  setVotes := fun b m => { b with mapVotes := m }
  mapVotes_setVotes := fun _ _ => rfl
  isCollateralValid := fun b => env.isBudgetCollateralValid b.nFeeTXHash (env.getBudgetHash b)
  isValid := env.isBudgetValid
  vin := CFinalizedBudgetVote.vin
  nHash := CFinalizedBudgetVote.nBudgetHash
  nTime := CFinalizedBudgetVote.nTime
  getHash := fun v => env.budgetVoteHash v.vin v.nBudgetHash v.nTime
  verifyMessage := fun v => env.verifyMessage v.vin.prevout v.nBudgetHash none v.nTime v.vchSig
  find := env.find
  outPointHash := env.outPointHash
  isSynced := env.isSynced

end BudgetEnv

/-- `CBudgetManager`. -/
structure CBudgetManager where
  proposals : Ballot CBudgetProposal CBudgetVote := {}
  finalized : Ballot CFinalizedBudget CFinalizedBudgetVote := {}

/-- The messages of `CBudgetManager::ProcessMessage` that carry items and votes. -/
inductive BudgetMsg where
  | mprop (budgetProposalBroadcast : CBudgetProposal)
  | mvote (vote : CBudgetVote)
  | fbs (finalizedBudgetBroadcast : CFinalizedBudget)
  | fbvote (vote : CFinalizedBudgetVote)

namespace CBudgetManager

variable (env : BudgetEnv)

/-- `CBudgetManager::CheckOrphanVotes`. -/
def checkOrphanVotes (now : ℤ) (m : CBudgetManager) : CBudgetManager where
  proposals := Ballot.checkOrphanVotes env.proposals now m.proposals
  finalized := Ballot.checkOrphanVotes env.finalized now m.finalized

/-- `CBudgetManager::ProcessMessage` at a time. -/
def processMessage (m : CBudgetManager) (x : ℤ × BudgetMsg) : CBudgetManager :=
  match x.2 with
  | .mprop p =>
      let r := Ballot.receiveItem env.proposals m.proposals p
      let m := { m with proposals := r.1 }
      if r.2 then checkOrphanVotes env x.1 m else m
  | .mvote v => { m with proposals := Ballot.receiveVote env.proposals x.1 m.proposals v }
  | .fbs b =>
      let r := Ballot.receiveItem env.finalized m.finalized b
      let m := { m with finalized := r.1 }
      if r.2 then checkOrphanVotes env x.1 m else m
  | .fbvote v => { m with finalized := Ballot.receiveVote env.finalized x.1 m.finalized v }

end CBudgetManager

/-! ## What a message does to one item -/

namespace Ballot

variable {I V : Type} {E : BallotEnv I V} {now : ℤ} {b : Ballot I V}

/-- The item once a vote has been offered to it. -/
def tally (E : BallotEnv I V) (now : ℤ) (i : I) (v : V) : I := (addOrUpdateVote E now i v).getD i

theorem lookup_items_update (pfrom : Bool) (v : V) (hash : UInt256) :
    (update E now pfrom b v).1.items.lookup hash =
      if E.nHash v = hash then (b.items.lookup hash).map (tally E now · v)
      else b.items.lookup hash := by
  unfold update
  by_cases hv : E.nHash v = hash
  · subst hv
    rw [if_pos rfl]
    cases hi : b.items.lookup (E.nHash v) with
    | none =>
      simp only
      split <;> simp [hi]
    | some i =>
      simp only
      cases ha : addOrUpdateVote E now i v with
      | none => simp [tally, ha, hi]
      | some i' => simp [tally, ha]
  · rw [if_neg hv]
    cases hi : b.items.lookup (E.nHash v) with
    | none =>
      simp only
      split <;> rfl
    | some i =>
      simp only
      cases ha : addOrUpdateVote E now i v with
      | none => rfl
      | some i' => exact AList.lookup_insert_ne (Ne.symm hv)

theorem update_unknown {v : V} (hsync : E.isSynced = true)
    (hitem : b.items.lookup (E.nHash v) = none) : (update E now true b v).1 =
      { b with orphanVotes := b.orphanVotes.insert (E.nHash v) v } := by
  rw [update, hitem, hsync]
  rfl

theorem seen_update (pfrom : Bool) (v : V) :
    (update E now pfrom b v).1.seenVotes = b.seenVotes ∧
      (update E now pfrom b v).1.seenItems = b.seenItems := by
  unfold update
  split
  · split <;> exact ⟨rfl, rfl⟩
  · split <;> exact ⟨rfl, rfl⟩

theorem orphanVotes_update_own (v : V) :
    (update E now false b v).1.orphanVotes = b.orphanVotes := by
  unfold update
  split
  · rfl
  · split <;> rfl

theorem fields_checkOrphan (e : UInt256 × V) :
    (checkOrphan E now b e).items = (update E now false b e.2).1.items ∧
      (checkOrphan E now b e).seenVotes = b.seenVotes ∧
      (checkOrphan E now b e).seenItems = b.seenItems := by
  have hu : (update E now false b e.2).1.seenVotes = b.seenVotes ∧
      (update E now false b e.2).1.seenItems = b.seenItems := seen_update false e.2
  simp only [checkOrphan]
  split
  · exact ⟨rfl, hu⟩
  · exact ⟨rfl, hu⟩

theorem lookup_items_checkOrphan (e : UInt256 × V) (hash : UInt256) :
    (checkOrphan E now b e).items.lookup hash =
      if E.nHash e.2 = hash then (b.items.lookup hash).map (tally E now · e.2)
      else b.items.lookup hash := by
  rw [(fields_checkOrphan e).1]
  exact lookup_items_update false e.2 hash

/-- The orphans that vote on an item are offered to it in turn. -/
theorem lookup_items_foldl_checkOrphan (es : List (UInt256 × V)) (hash : UInt256) :
    (es.foldl (checkOrphan E now) b).items.lookup hash =
      (b.items.lookup hash).map fun i =>
        ((es.map Prod.snd).filter fun v => E.nHash v = hash).foldl (tally E now) i := by
  induction es generalizing b with
  | nil => simp
  | cons e es ih =>
    rw [List.foldl_cons, ih, lookup_items_checkOrphan]
    by_cases he : E.nHash e.2 = hash
    · rw [if_pos he, List.map_cons, List.filter_cons_of_pos (by simpa using he), Option.map_map]
      rfl
    · rw [if_neg he, List.map_cons, List.filter_cons_of_neg (by simpa using he)]

/-- Orphans are kept under the hash of the item they vote on. -/
def Keyed (E : BallotEnv I V) (b : Ballot I V) : Prop :=
  ∀ k o, b.orphanVotes.lookup k = some o → E.nHash o = k

/-- `CheckOrphanVotes` offers an item the one orphan that is kept for it. -/
theorem lookup_items_checkOrphanVotes (hk : Keyed E b) (hash : UInt256) :
    (checkOrphanVotes E now b).items.lookup hash = (b.items.lookup hash).map fun i =>
      (b.orphanVotes.lookup hash).toList.foldl (tally E now) i := by
  have hfilter : (((sortedEntries uint256Le b.orphanVotes).map Prod.snd).filter
      fun v => E.nHash v = hash) = (b.orphanVotes.lookup hash).toList := by
    have hmap : ∀ es : List (UInt256 × V), (∀ e ∈ es, E.nHash e.2 = e.1) →
        ((es.map Prod.snd).filter fun v => E.nHash v = hash) =
          (es.filter fun e => e.1 = hash).map Prod.snd := by
      intro es hes
      rw [List.filter_map]
      congr 1
      refine List.filter_congr fun e he => ?_
      simp [hes e he]
    rw [hmap _ fun e he => hk _ _ (mem_sortedEntries he), filter_sortedEntries]
    cases b.orphanVotes.lookup hash <;> rfl
  rw [checkOrphanVotes, lookup_items_foldl_checkOrphan, hfilter]

theorem seen_checkOrphanVotes :
    (checkOrphanVotes E now b).seenVotes = b.seenVotes ∧
      (checkOrphanVotes E now b).seenItems = b.seenItems := by
  unfold checkOrphanVotes
  generalize sortedEntries uint256Le b.orphanVotes = es
  induction es generalizing b with
  | nil => exact ⟨rfl, rfl⟩
  | cons e es ih =>
    rw [List.foldl_cons]
    exact ⟨ih.1.trans (fields_checkOrphan e).2.1, ih.2.trans (fields_checkOrphan e).2.2⟩

/-! ## The votes that are accepted -/

/-- Membership in the seen map is decided by the equality of hashes. -/
local instance seen_lawfulBEq : LawfulBEq UInt256 := inferInstance

/-- The hashes seen after some messages. -/
def seenAfter (E : BallotEnv I V) : List UInt256 → List (ℤ × BallotMsg I V) → List UInt256
  | seen, [] => seen
  | seen, (_, .item _) :: ms => seenAfter E seen ms
  | seen, (_, .vote v) :: ms =>
      seenAfter E (if E.getHash v ∈ seen then seen else E.getHash v :: seen) ms

/-- The votes that get past the seen map and the signature check, with the times they come. -/
def accepted (E : BallotEnv I V) : List UInt256 → List (ℤ × BallotMsg I V) → List (ℤ × V)
  | _, [] => []
  | seen, (_, .item _) :: ms => accepted E seen ms
  | seen, (t, .vote v) :: ms =>
      if E.getHash v ∈ seen then accepted E seen ms
      else if E.verifyMessage v then (t, v) :: accepted E (E.getHash v :: seen) ms
      else accepted E (E.getHash v :: seen) ms

/-- The message carries a vote with the hash of `v`. -/
def carries (E : BallotEnv I V) (v : V) (m : ℤ × BallotMsg I V) : Bool :=
  match m.2 with
  | .item _ => false
  | .vote w => decide (E.getHash w = E.getHash v)

theorem accepted_append (seen : List UInt256) (ms ms' : List (ℤ × BallotMsg I V)) :
    accepted E seen (ms ++ ms') = accepted E seen ms ++ accepted E (seenAfter E seen ms) ms' := by
  induction ms generalizing seen with
  | nil => rfl
  | cons m ms ih =>
    obtain ⟨t, _ | v⟩ := m
    · exact ih seen
    · simp only [List.cons_append, accepted, seenAfter]
      split
      · exact ih seen
      · split
        · rw [ih, List.cons_append]
        · exact ih _

/-- **A vote is accepted** when its signature is valid and the first message with its hash is
the vote itself. -/
theorem mem_accepted {seen : List UInt256} {ms : List (ℤ × BallotMsg I V)} {t : ℤ} {v : V} :
    (t, v) ∈ accepted E seen ms ↔ E.getHash v ∉ seen ∧ E.verifyMessage v = true ∧
      ms.find? (carries E v) = some (t, .vote v) := by
  induction ms generalizing seen with
  | nil => simp [accepted]
  | cons m ms ih =>
    obtain ⟨u, i | w⟩ := m
    · rw [accepted, ih, List.find?_cons_of_neg (by simp [carries])]
    · rw [accepted]
      by_cases hw : E.getHash w = E.getHash v
      · rw [List.find?_cons_of_pos (by simp [carries, hw]), hw]
        split
        · next hseen =>
          rw [ih]
          simp [hseen]
        · next hseen =>
          have hno : (t, v) ∉ accepted E (E.getHash v :: seen) ms := by
            intro hmem
            rw [ih] at hmem
            exact hmem.1 (by simp)
          simp only [Option.some.injEq, Prod.mk.injEq, BallotMsg.vote.injEq, hseen,
            not_false_eq_true, true_and]
          split
          · next hverify =>
            rw [List.mem_cons, or_iff_left hno, Prod.mk.injEq]
            constructor
            · rintro ⟨rfl, rfl⟩
              exact ⟨hverify, rfl, rfl⟩
            · rintro ⟨-, rfl, rfl⟩
              exact ⟨rfl, rfl⟩
          · next hverify =>
            refine iff_of_false hno ?_
            rintro ⟨hv, rfl, rfl⟩
            exact hverify hv
      · have hcons : E.getHash v ∉ E.getHash w :: seen ↔ E.getHash v ∉ seen := by
          simp [Ne.symm hw]
        have hhead : (t, v) ≠ (u, w) := by
          rintro h
          cases h
          exact hw rfl
        rw [List.find?_cons_of_neg (by simp [carries, hw])]
        split
        · exact ih
        · split
          · rw [List.mem_cons, or_iff_right hhead, ih, hcons]
          · rw [ih, hcons]

/-- No hash is accepted twice. -/
theorem nodup_accepted (seen : List UInt256) (ms : List (ℤ × BallotMsg I V)) :
    ((accepted E seen ms).map fun e => E.getHash e.2).Nodup := by
  induction ms generalizing seen with
  | nil => exact List.nodup_nil
  | cons m ms ih =>
    obtain ⟨t, i | v⟩ := m
    · exact ih seen
    · rw [accepted]
      split
      · exact ih seen
      · split
        · rw [List.map_cons, List.nodup_cons]
          refine ⟨fun hmem => ?_, ih _⟩
          obtain ⟨⟨u, w⟩, hw, heq⟩ := List.mem_map.1 hmem
          exact (mem_accepted.1 hw).1 (by simp [heq])
        · exact ih _

/-- Votes by different masternodes are recorded when they are not ahead of the clock. -/
theorem lookup_foldl_tally (l : List (ℤ × V)) (i : I) {v : V}
    (hkeys : (l.map fun e => voteKey E e.2).Nodup)
    (hnew : ∀ e ∈ l, (E.mapVotes i).lookup (voteKey E e.2) = none) :
    (E.mapVotes (l.foldl (fun i e => tally E e.1 i e.2) i)).lookup (voteKey E v) = some v ↔
      (E.mapVotes i).lookup (voteKey E v) = some v ∨
        ∃ t, (t, v) ∈ l ∧ E.nTime v ≤ t + 60 * 60 := by
  induction l generalizing i with
  | nil => simp
  | cons e l ih =>
    obtain ⟨t, w⟩ := e
    rw [List.map_cons, List.nodup_cons] at hkeys
    have hnone : (E.mapVotes i).lookup (voteKey E w) = none := hnew (t, w) (by simp)
    have htally : ∀ k, (E.mapVotes (tally E t i w)).lookup k =
        if k = voteKey E w ∧ E.nTime w ≤ t + 60 * 60 then some w
        else (E.mapVotes i).lookup k := by
      intro k
      simp only [tally, addOrUpdateVote, replaces, hnone, Bool.true_and, Bool.not_eq_true',
        decide_eq_false_iff_not, not_lt]
      split
      · next htime =>
        rw [Option.getD_some, E.mapVotes_setVotes, lookup_insert_eq]
        simp only [htime, and_true]
      · next htime =>
        simp only [htime, and_false, if_false, Option.getD_none]
    have hne : ∀ e ∈ l, voteKey E e.2 ≠ voteKey E w := fun e he heq =>
      hkeys.1 (heq ▸ List.mem_map_of_mem (f := fun e : ℤ × V => voteKey E e.2) he)
    rw [List.foldl_cons, ih _ hkeys.2, htally]
    · by_cases hv : voteKey E v = voteKey E w
      · have hnot : ∀ u, (u, v) ∉ l := fun u hu => hne _ hu hv
        rw [hv, hnone]
        simp only [true_and, List.mem_cons, Prod.mk.injEq, hnot, false_and, exists_false, or_false,
          reduceCtorEq, false_or]
        split
        · next htime =>
          constructor
          · intro h
            obtain rfl := Option.some.inj h
            exact ⟨t, ⟨rfl, rfl⟩, htime⟩
          · rintro ⟨u, ⟨-, rfl⟩, -⟩
            rfl
        · next htime =>
          refine iff_of_false (by simp) ?_
          rintro ⟨u, ⟨rfl, rfl⟩, hu⟩
          exact htime hu
      · rw [if_neg (fun h => hv h.1)]
        have hhead : ∀ u, (u, v) ≠ (t, w) := by
          rintro u h
          cases h
          exact hv rfl
        simp only [List.mem_cons, hhead, false_or]
    · intro e he
      rw [htally, if_neg (fun h => hne e he h.1)]
      exact hnew e (by simp [he])

/-! ## Runs -/

/-- The seen map holds these hashes. -/
def Seen (b : Ballot I V) (seen : List UInt256) : Prop :=
  ∀ h, (b.seenVotes.lookup h).isSome = true ↔ h ∈ seen

/-- The message is a vote on the item by a masternode the node knows. -/
def VoteOn (E : BallotEnv I V) (hash : UInt256) (m : ℤ × BallotMsg I V) : Prop :=
  ∃ v, m.2 = .vote v ∧ E.find (E.vin v).prevout = true ∧ E.nHash v = hash

theorem receiveVote_of_seen {seen : List UInt256} {v : V} (hs : Seen b seen)
    (hv : E.getHash v ∈ seen) : receiveVote E now b v = b := by
  rw [receiveVote, if_pos ((hs _).2 hv)]

theorem receiveVote_of_new {seen : List UInt256} {v : V} (hs : Seen b seen)
    (hv : E.getHash v ∉ seen) (hfind : E.find (E.vin v).prevout = true) :
    receiveVote E now b v =
      if E.verifyMessage v then
        (update E now true { b with seenVotes := b.seenVotes.insert (E.getHash v) v } v).1
      else { b with seenVotes := b.seenVotes.insert (E.getHash v) v } := by
  rw [receiveVote, if_neg (fun h => hv ((hs _).1 h)), hfind]
  cases E.verifyMessage v <;> rfl

theorem seen_insert {seen : List UInt256} (hs : Seen b seen) (v : V) :
    Seen { b with seenVotes := b.seenVotes.insert (E.getHash v) v } (E.getHash v :: seen) := by
  intro h
  simp only [lookup_insert_eq, List.mem_cons, ← hs h]
  split
  · next heq => simp [heq]
  · next hne => simp [hne]

/-- A new valid item is added, and the orphans are checked. -/
theorem receive_new_item {p : I} (t : ℤ) (hnew : b.seenItems.lookup (E.itemHash p) = none)
    (hcollateral : E.isCollateralValid p = true) (hvalid : E.isValid p = true) :
    receive E b (t, .item p) = checkOrphanVotes E t
      { b with
        seenItems := b.seenItems.insert (E.itemHash p) p
        items := insertNew b.items (E.itemHash p) p } := by
  simp [receive, receiveItem, addItem, hnew, hcollateral, hvalid]

/-- Before the item is known, the last accepted vote is its orphan. -/
theorem orphan_run {hash : UInt256} (hsync : E.isSynced = true) (ms : List (ℤ × BallotMsg I V))
    {b : Ballot I V} {seen : List UInt256} (hms : ∀ m ∈ ms, VoteOn E hash m)
    (hitem : b.items.lookup hash = none) (hk : Keyed E b) (hs : Seen b seen) :
    (ms.foldl (receive E) b).items = b.items ∧
      (ms.foldl (receive E) b).seenItems = b.seenItems ∧
      Keyed E (ms.foldl (receive E) b) ∧
      Seen (ms.foldl (receive E) b) (seenAfter E seen ms) ∧
      (ms.foldl (receive E) b).orphanVotes.lookup hash =
        (accepted E seen ms).foldl (fun _ e => some e.2) (b.orphanVotes.lookup hash) := by
  induction ms generalizing b seen with
  | nil => exact ⟨rfl, rfl, hk, hs, rfl⟩
  | cons m ms ih =>
    obtain ⟨t, x⟩ := m
    obtain ⟨v, rfl, hfind, hv⟩ := hms (t, x) (by simp)
    have hrest : ∀ m ∈ ms, VoteOn E hash m := fun m hm => hms m (by simp [hm])
    rw [List.foldl_cons]
    change _ ∧ _ ∧ _ ∧ Seen _ (seenAfter E (if E.getHash v ∈ seen then seen
      else E.getHash v :: seen) ms) ∧ _
    have hstep : receive E b (t, .vote v) = receiveVote E t b v := rfl
    rw [hstep, accepted]
    by_cases hseen : E.getHash v ∈ seen
    · rw [receiveVote_of_seen hs hseen, if_pos hseen, if_pos hseen]
      exact ih hrest hitem hk hs
    · rw [receiveVote_of_new hs hseen hfind, if_neg hseen, if_neg hseen]
      by_cases hverify : E.verifyMessage v = true
      · rw [if_pos hverify, if_pos hverify]
        -- the item is not known, so the vote becomes its orphan
        set b' : Ballot I V := { b with
          seenVotes := b.seenVotes.insert (E.getHash v) v
          orphanVotes := b.orphanVotes.insert hash v } with hb'
        have hupdate : (update E t true
            { b with seenVotes := b.seenVotes.insert (E.getHash v) v } v).1 = b' := by
          rw [update_unknown hsync (by rwa [hv]), hb', hv]
        have hk' : Keyed E b' := by
          intro k o ho
          simp only [hb', lookup_insert_eq] at ho
          split at ho
          · next hkey =>
            rw [← Option.some.inj ho, hv, hkey]
          · exact hk k o ho
        rw [hupdate]
        obtain ⟨h₁, h₂, h₃, h₄, h₅⟩ := ih (b := b') hrest hitem hk' fun h => seen_insert hs v h
        refine ⟨h₁, h₂, h₃, h₄, h₅.trans ?_⟩
        rw [List.foldl_cons, hb', AList.lookup_insert]
      · rw [if_neg hverify, if_neg hverify]
        exact ih hrest hitem hk (seen_insert hs v)

/-- Once the item is known, every accepted vote is offered to it. -/
theorem item_run {p i : I} (ms : List (ℤ × BallotMsg I V)) {b : Ballot I V}
    (seen : List UInt256) (hms : ∀ m ∈ ms, m.2 = .item p ∨ VoteOn E (E.itemHash p) m)
    (hitem : b.items.lookup (E.itemHash p) = some i)
    (hknown : (b.seenItems.lookup (E.itemHash p)).isSome = true) (hs : Seen b seen) :
    (ms.foldl (receive E) b).items.lookup (E.itemHash p) =
      some ((accepted E seen ms).foldl (fun i e => tally E e.1 i e.2) i) := by
  induction ms generalizing b seen i with
  | nil => exact hitem
  | cons m ms ih =>
    obtain ⟨t, x⟩ := m
    have hrest : ∀ m ∈ ms, m.2 = .item p ∨ VoteOn E (E.itemHash p) m :=
      fun m hm => hms m (by simp [hm])
    rw [List.foldl_cons]
    rcases hms (t, x) (by simp) with hp | ⟨v, hx, hfind, hv⟩
    · obtain rfl : x = .item p := hp
      have hsame : receive E b (t, .item p) = b := by
        simp [receive, receiveItem, hknown]
      rw [hsame]
      exact ih _ hrest hitem hknown hs
    · obtain rfl : x = .vote v := hx
      have hstep : receive E b (t, .vote v) = receiveVote E t b v := rfl
      rw [hstep, accepted]
      by_cases hseen : E.getHash v ∈ seen
      · rw [receiveVote_of_seen hs hseen, if_pos hseen]
        exact ih _ hrest hitem hknown hs
      · rw [receiveVote_of_new hs hseen hfind, if_neg hseen]
        by_cases hverify : E.verifyMessage v = true
        · rw [if_pos hverify, if_pos hverify]
          set b' : Ballot I V := { b with seenVotes := b.seenVotes.insert (E.getHash v) v }
          have hupdate : (update E t true b' v).1.seenVotes = b'.seenVotes ∧
              (update E t true b' v).1.seenItems = b'.seenItems := seen_update true v
          refine ih _ hrest ?_ ?_ ?_
          · rw [lookup_items_update, if_pos hv]
            exact congrArg (Option.map _) hitem
          · rw [hupdate.2]
            exact hknown
          · intro h
            rw [hupdate.1]
            exact seen_insert hs v h
        · rw [if_neg hverify, if_neg hverify]
          exact ih _ hrest hitem hknown (seen_insert hs v)

/-! ## Deliveries -/

/-- A copy of a vote under a wrong signature. -/
structure Forged (E : BallotEnv I V) (v w : V) : Prop where
  getHash : E.getHash w = E.getHash v
  vin : E.vin w = E.vin v
  nHash : E.nHash w = E.nHash v
  wrong : E.verifyMessage w = false

/-- A valid item and votes on it, one for each masternode, are delivered to a synchronised node
that knows the masternodes and has none of them yet: in any order, with repetitions and with
forged copies.  The hashes do not collide on the votes. -/
structure Delivery (E : BallotEnv I V) (b : Ballot I V) (p : I) (votes : List V)
    (ms : List (ℤ × BallotMsg I V)) : Prop where
  synced : E.isSynced = true
  collateral : E.isCollateralValid p = true
  valid : E.isValid p = true
  noVotes : E.mapVotes p = ∅
  nHash : ∀ v ∈ votes, E.nHash v = E.itemHash p
  known : ∀ v ∈ votes, E.find (E.vin v).prevout = true
  signed : ∀ v ∈ votes, E.verifyMessage v = true
  onePerMasternode : ∀ v ∈ votes, ∀ w ∈ votes, (E.vin v).prevout = (E.vin w).prevout → v = w
  outPointHash : ∀ v ∈ votes, ∀ w ∈ votes, voteKey E v = voteKey E w →
    (E.vin v).prevout = (E.vin w).prevout
  newItem : b.items.lookup (E.itemHash p) = none
  newSeenItem : b.seenItems.lookup (E.itemHash p) = none
  newVotes : ∀ v ∈ votes, b.seenVotes.lookup (E.getHash v) = none
  noOrphan : b.orphanVotes.lookup (E.itemHash p) = none
  keyed : Keyed E b
  messages : ∀ m ∈ ms, m.2 = .item p ∨
    ∃ v ∈ votes, ∃ w, m.2 = .vote w ∧ (w = v ∨ Forged E v w)
  item : ∃ t, (t, .item p) ∈ ms
  votes : ∀ v ∈ votes, ∃ t, (t, .vote v) ∈ ms

/-- The item is known and has every vote. -/
def VotesKept (E : BallotEnv I V) (b : Ballot I V) (p : I) (votes : List V) : Prop :=
  ∃ i, b.items.lookup (E.itemHash p) = some i ∧
    ∀ v ∈ votes, (E.mapVotes i).lookup (voteKey E v) = some v

/-- The message is a vote. -/
def isVote (m : ℤ × BallotMsg I V) : Bool :=
  match m.2 with
  | .item _ => false
  | .vote _ => true

/-- A message with the hash of the vote comes before the item. -/
def early (E : BallotEnv I V) (ms : List (ℤ × BallotMsg I V)) (v : V) : Bool :=
  (ms.takeWhile isVote).any (carries E v)

/-- When a vote is counted: with the item if it was there before, else when it comes. -/
def countTime (E : BallotEnv I V) (ms : List (ℤ × BallotMsg I V)) (v : V) : Option ℤ :=
  if early E ms v then (ms.find? fun m => !isVote m).map Prod.fst
  else (ms.find? (carries E v)).map Prod.fst

/-- The messages come in an order that keeps every vote. -/
structure InOrder (E : BallotEnv I V) (votes : List V) (ms : List (ℤ × BallotMsg I V)) : Prop where
  genuineFirst : ∀ v ∈ votes, ∃ t, ms.find? (carries E v) = some (t, .vote v)
  oneOrphan : ∀ v ∈ votes, ∀ w ∈ votes, early E ms v = true → early E ms w = true → v = w
  inTime : ∀ v ∈ votes, ∀ t, countTime E ms v = some t → E.nTime v ≤ t + 60 * 60

theorem carries_iff {v : V} {m : ℤ × BallotMsg I V} :
    carries E v m = true ↔ ∃ w, m.2 = .vote w ∧ E.getHash w = E.getHash v := by
  obtain ⟨t, i | w⟩ := m
  · simp [carries]
  · simp [carries]

theorem mem_seenAfter {seen : List UInt256} {ms : List (ℤ × BallotMsg I V)} {v : V} :
    E.getHash v ∈ seenAfter E seen ms ↔ E.getHash v ∈ seen ∨ ms.any (carries E v) = true := by
  induction ms generalizing seen with
  | nil => simp [seenAfter]
  | cons m ms ih =>
    obtain ⟨t, i | w⟩ := m
    · rw [seenAfter, ih]
      simp [carries]
    · rw [seenAfter, ih, List.any_cons, Bool.or_eq_true, ← or_assoc]
      refine or_congr_left ?_
      rw [carries, decide_eq_true_iff]
      split
      · next hseen =>
        constructor
        · exact .inl
        · rintro (h | h)
          · exact h
          · rwa [← h]
      · rw [List.mem_cons, or_comm, eq_comm]

theorem foldl_last (l : List (ℤ × V)) (o : Option V) :
    l.foldl (fun _ e => some e.2) o = (l.getLast?.map Prod.snd).or o := by
  induction l generalizing o with
  | nil => rfl
  | cons e l ih =>
    rw [List.foldl_cons, ih, List.getLast?_cons]
    cases l.getLast? <;> rfl

section

variable {p : I} {votes : List V} {ms : List (ℤ × BallotMsg I V)}

/-- A message that is in a delivery and carries a valid signature is one of the votes. -/
theorem Delivery.mem_votes (hd : Delivery E b p votes ms) {t : ℤ} {v : V}
    (hm : (t, .vote v) ∈ ms) (hv : E.verifyMessage v = true) : v ∈ votes := by
  rcases hd.messages _ hm with h | ⟨w, hw, x, hx, rfl | hf⟩
  · cases h
  · cases hx
    exact hw
  · cases hx
    rw [hf.wrong] at hv
    exact absurd hv (by simp)

theorem Delivery.voteOn (hd : Delivery E b p votes ms) {m : ℤ × BallotMsg I V} (hm : m ∈ ms) :
    m.2 = .item p ∨ VoteOn E (E.itemHash p) m := by
  rcases hd.messages m hm with h | ⟨v, hv, w, hw, rfl | hf⟩
  · exact .inl h
  · exact .inr ⟨w, hw, hd.known w hv, hd.nHash w hv⟩
  · exact .inr ⟨w, hw, by rw [hf.vin]; exact hd.known v hv, by rw [hf.nHash]; exact hd.nHash v hv⟩

/-- The messages before the item, the item, and the messages after it. -/
theorem Delivery.split (hd : Delivery E b p votes ms) : ∃ t₀ after,
    ms = ms.takeWhile isVote ++ (t₀, .item p) :: after ∧
      (ms.find? fun m => !isVote m) = some (t₀, .item p) := by
  obtain ⟨t, ht⟩ := hd.item
  have hsplit := List.takeWhile_append_dropWhile (p := isVote) (l := ms)
  cases hdrop : ms.dropWhile isVote with
  | nil =>
    rw [hdrop, List.append_nil] at hsplit
    rw [← hsplit] at ht
    exact absurd (List.mem_takeWhile_imp ht) (by simp [isVote])
  | cons m after =>
    have hm : isVote m = false := by
      have := List.head_dropWhile_not isVote (l := ms) (by rw [hdrop]; simp)
      simpa [hdrop] using this
    have hmem : m ∈ ms := by
      rw [← hsplit, hdrop]
      simp
    obtain ⟨t₀, x⟩ := m
    rcases hd.voteOn hmem with hx | ⟨v, hx, -⟩
    · obtain rfl : x = .item p := hx
      refine ⟨t₀, after, by rw [← hdrop, hsplit], ?_⟩
      rw [← hsplit, hdrop, List.find?_append, List.find?_eq_none.2, Option.none_or,
        List.find?_cons_of_pos (by simp [isVote])]
      intro m hm
      simpa using List.mem_takeWhile_imp hm
    · obtain rfl : x = .vote v := hx
      exact absurd hm (by simp [isVote])

/-- The votes that are offered to the item: the orphan when the item comes, then the votes
accepted after it. -/
def offered (E : BallotEnv I V) (seen : List UInt256) (before after : List (ℤ × BallotMsg I V))
    (t₀ : ℤ) : List (ℤ × V) :=
  ((accepted E seen before).getLast?.map fun e => (t₀, e.2)).toList ++
    accepted E (seenAfter E seen before) after

/-- **The item after a delivery.** -/
theorem Delivery.lookup_items_run (hd : Delivery E b p votes ms) {t₀ : ℤ}
    {after : List (ℤ × BallotMsg I V)} (hms : ms = ms.takeWhile isVote ++ (t₀, .item p) :: after) :
    (ms.foldl (receive E) b).items.lookup (E.itemHash p) =
      some ((offered E b.seenVotes.keys (ms.takeWhile isVote) after t₀).foldl
        (fun i e => tally E e.1 i e.2) p) := by
  generalize hbefore : ms.takeWhile isVote = before at hms ⊢
  have hvotes : ∀ m ∈ before, VoteOn E (E.itemHash p) m := by
    intro m hm
    have hv : isVote m = true := List.mem_takeWhile_imp (hbefore ▸ hm)
    rcases hd.voteOn (m := m) (by rw [hms]; simp [hm]) with h | h
    · rw [isVote, h] at hv
      exact absurd hv (by simp)
    · exact h
  have hseen : Seen b b.seenVotes.keys := by
    intro h
    rw [AList.lookup_isSome, AList.mem_keys]
  obtain ⟨hitems, hseenItems, hk, hs, horphan⟩ :=
    orphan_run hd.synced before hvotes hd.newItem hd.keyed hseen
  rw [hd.noOrphan, foldl_last, Option.or_none] at horphan
  rw [hms, List.foldl_append, List.foldl_cons]
  set b₁ := before.foldl (receive E) b with hb₁
  -- the item is new and valid, and its orphan is offered to it
  set b₂ : Ballot I V := { b₁ with
    seenItems := b₁.seenItems.insert (E.itemHash p) p
    items := insertNew b₁.items (E.itemHash p) p } with hb₂
  have hreceive : receive E b₁ (t₀, .item p) = checkOrphanVotes E t₀ b₂ :=
    receive_new_item t₀ (by rw [hseenItems]; exact hd.newSeenItem) hd.collateral hd.valid
  have hlookup : b₂.items.lookup (E.itemHash p) = some p := by
    rw [hb₂, lookup_insertNew, if_pos rfl, hitems, hd.newItem]
    rfl
  have hafter := item_run after (b := checkOrphanVotes E t₀ b₂) (seenAfter E b.seenVotes.keys before)
    (i := (b₁.orphanVotes.lookup (E.itemHash p)).toList.foldl (tally E t₀) p)
    (fun m hm => hd.voteOn (by rw [hms]; simp [hm]))
    (by rw [lookup_items_checkOrphanVotes (b := b₂) hk, hlookup]; rfl)
    (by rw [seen_checkOrphanVotes.2, hb₂, AList.lookup_insert]; rfl)
    (by intro h; rw [seen_checkOrphanVotes.1]; exact hs h)
  rw [hreceive, hafter, offered, List.foldl_append, horphan]
  cases (accepted E b.seenVotes.keys before).getLast? <;> rfl

theorem Delivery.mem_offered (hd : Delivery E b p votes ms) {t₀ : ℤ}
    {after : List (ℤ × BallotMsg I V)} (hms : ms = ms.takeWhile isVote ++ (t₀, .item p) :: after) :
    (∀ e ∈ offered E b.seenVotes.keys (ms.takeWhile isVote) after t₀, e.2 ∈ votes) ∧
      ((offered E b.seenVotes.keys (ms.takeWhile isVote) after t₀).map
        fun e => voteKey E e.2).Nodup := by
  generalize hbefore : ms.takeWhile isVote = before at hms ⊢
  have hall : ∀ e ∈ accepted E b.seenVotes.keys (before ++ after), e.2 ∈ votes := by
    rintro ⟨t, v⟩ he
    obtain ⟨-, hverify, hfind⟩ := mem_accepted.1 he
    refine hd.mem_votes (t := t) ?_ hverify
    have := List.mem_of_find?_eq_some hfind
    rw [hms]
    rcases List.mem_append.1 this with h | h
    · simp [h]
    · simp [h]
  have hnodup := nodup_accepted (E := E) b.seenVotes.keys (before ++ after)
  rw [accepted_append] at hall hnodup
  -- the orphan is one of the votes accepted before the item
  have hsub : ((offered E b.seenVotes.keys before after t₀).map Prod.snd).Sublist
      ((accepted E b.seenVotes.keys before ++
        accepted E (seenAfter E b.seenVotes.keys before) after).map Prod.snd) := by
    rw [offered, List.map_append, List.map_append]
    refine List.Sublist.append ?_ (List.Sublist.refl _)
    cases hlast : (accepted E b.seenVotes.keys before).getLast? with
    | none => exact List.nil_sublist _
    | some e =>
      exact List.singleton_sublist.2 (List.mem_map.2 ⟨e, List.mem_of_getLast? hlast, rfl⟩)
  have hmem : ∀ v ∈ (offered E b.seenVotes.keys before after t₀).map Prod.snd, v ∈ votes := by
    intro v hv
    obtain ⟨e, he, rfl⟩ := List.mem_map.1 (hsub.subset hv)
    exact hall e he
  have hnodup' : ((offered E b.seenVotes.keys before after t₀).map Prod.snd).Nodup := by
    refine List.Nodup.sublist hsub (List.Nodup.of_map E.getHash ?_)
    rwa [List.map_map]
  refine ⟨fun e he => hmem e.2 (List.mem_map_of_mem he), ?_⟩
  have hkeys := (List.nodup_map_iff_inj_on hnodup' (f := voteKey E)).2 fun v hv w hw heq =>
    hd.onePerMasternode v (hmem v hv) w (hmem w hw)
      (hd.outPointHash v (hmem v hv) w (hmem w hw) heq)
  rwa [List.map_map] at hkeys

/-- **No vote is lost**, exactly when the messages come in order. -/
theorem Delivery.votesKept_iff (hd : Delivery E b p votes ms) :
    VotesKept E (ms.foldl (receive E) b) p votes ↔ InOrder E votes ms := by
  obtain ⟨t₀, after, hms, htime⟩ := hd.split
  have hrun := hd.lookup_items_run hms
  obtain ⟨-, hkeys⟩ := hd.mem_offered hms
  have hnew : ∀ v ∈ votes, E.getHash v ∉ b.seenVotes.keys := by
    intro v hv hmem
    rw [← AList.mem_keys, ← AList.lookup_isSome, hd.newVotes v hv] at hmem
    exact absurd hmem (by simp)
  have hfind : ∀ v, ms.find? (carries E v) =
      ((ms.takeWhile isVote).find? (carries E v)).or (after.find? (carries E v)) := by
    intro v
    conv_lhs => rw [hms]
    rw [List.find?_append, List.find?_cons_of_neg (by simp [carries])]
  have hearly : ∀ v, early E ms v = ((ms.takeWhile isVote).find? (carries E v)).isSome := by
    intro v
    rw [early, Bool.eq_iff_iff, List.any_eq_true, List.find?_isSome]
  have hlate : ∀ v, early E ms v = false → ms.find? (carries E v) = after.find? (carries E v) := by
    intro v hv
    rw [hearly, Option.isSome_eq_false_iff, Option.isNone_iff_eq_none] at hv
    rw [hfind, hv, Option.none_or]
  have hkept : ∀ v, (E.mapVotes ((offered E b.seenVotes.keys (ms.takeWhile isVote) after t₀).foldl
      (fun i e => tally E e.1 i e.2) p)).lookup (voteKey E v) = some v ↔
        ∃ t, (t, v) ∈ offered E b.seenVotes.keys (ms.takeWhile isVote) after t₀ ∧
          E.nTime v ≤ t + 60 * 60 := by
    intro v
    rw [lookup_foldl_tally _ _ hkeys (by rw [hd.noVotes]; exact fun _ _ => rfl), hd.noVotes]
    simp
  -- what it means to be offered, in terms of the messages
  have hoffered : ∀ v ∈ votes, ∀ t, (t, v) ∈ offered E b.seenVotes.keys (ms.takeWhile isVote)
      after t₀ ↔ (t = t₀ ∧ ∃ u, (accepted E b.seenVotes.keys (ms.takeWhile isVote)).getLast? =
        some (u, v)) ∨ (early E ms v = false ∧ after.find? (carries E v) = some (t, .vote v)) := by
    intro v hv t
    rw [offered, List.mem_append, mem_accepted, mem_seenAfter, ← early]
    refine or_congr ?_ ?_
    · cases (accepted E b.seenVotes.keys (ms.takeWhile isVote)).getLast? with
      | none => simp
      | some e =>
        obtain ⟨u, w⟩ := e
        simp [eq_comm]
    · simp [hnew v hv, hd.signed v hv]
  have hlast : ∀ v u, (accepted E b.seenVotes.keys (ms.takeWhile isVote)).getLast? = some (u, v) →
      (ms.takeWhile isVote).find? (carries E v) = some (u, .vote v) ∧ early E ms v = true := by
    intro v u h
    obtain ⟨-, -, hf⟩ := mem_accepted.1 (List.mem_of_getLast? h)
    exact ⟨hf, by rw [hearly, hf]; rfl⟩
  constructor
  · rintro ⟨i, hi, hall⟩
    rw [hrun] at hi
    obtain rfl := Option.some.inj hi
    have hget : ∀ v ∈ votes, ∃ t, ((t = t₀ ∧ ∃ u,
        (accepted E b.seenVotes.keys (ms.takeWhile isVote)).getLast? = some (u, v)) ∨
        (early E ms v = false ∧ after.find? (carries E v) = some (t, .vote v))) ∧
          E.nTime v ≤ t + 60 * 60 := by
      intro v hv
      obtain ⟨t, ht, htv⟩ := (hkept v).1 (hall v hv)
      exact ⟨t, (hoffered v hv t).1 ht, htv⟩
    refine ⟨fun v hv => ?_, fun v hv w hw hev hew => ?_, fun v hv t ht => ?_⟩
    · obtain ⟨t, ⟨-, u, hu⟩ | ⟨hno, ha⟩, -⟩ := hget v hv
      · exact ⟨u, by rw [hfind, (hlast v u hu).1]; rfl⟩
      · exact ⟨t, by rw [hlate v hno, ha]⟩
    · obtain ⟨_, ⟨-, u, hu⟩ | ⟨hno, -⟩, -⟩ := hget v hv
      · obtain ⟨_, ⟨-, u', hu'⟩ | ⟨hno', -⟩, -⟩ := hget w hw
        · rw [hu] at hu'
          cases hu'
          rfl
        · rw [hew] at hno'
          exact absurd hno' (by simp)
      · rw [hev] at hno
        exact absurd hno (by simp)
    · rw [countTime] at ht
      obtain ⟨t', ⟨rfl, u, hu⟩ | ⟨hno, ha⟩, htv⟩ := hget v hv
      · rw [if_pos (hlast v u hu).2, htime] at ht
        cases ht
        exact htv
      · rw [if_neg (by simp [hno]), hlate v hno, ha] at ht
        cases ht
        exact htv
  · intro ho
    refine ⟨_, hrun, fun v hv => (hkept v).2 ?_⟩
    obtain ⟨u, hu⟩ := ho.genuineFirst v hv
    by_cases hev : early E ms v = true
    · -- the vote is the only one before the item, so it is the orphan
      have hmem : (u, v) ∈ accepted E b.seenVotes.keys (ms.takeWhile isVote) := by
        refine mem_accepted.2 ⟨hnew v hv, hd.signed v hv, ?_⟩
        rw [hearly] at hev
        obtain ⟨m, hm⟩ := Option.isSome_iff_exists.1 hev
        rw [hfind, hm, Option.some_or] at hu
        rw [hm, hu]
      obtain ⟨⟨u', w⟩, hw⟩ : ∃ e, (accepted E b.seenVotes.keys (ms.takeWhile isVote)).getLast? =
          some e := by
        rw [← Option.isSome_iff_exists, List.getLast?_isSome]
        exact List.ne_nil_of_mem hmem
      obtain ⟨-, hverify, hf⟩ := mem_accepted.1 (List.mem_of_getLast? hw)
      have hwv : w ∈ votes := by
        refine hd.mem_votes (t := u') ?_ hverify
        exact (List.takeWhile_subset _) (List.mem_of_find?_eq_some hf)
      obtain rfl := ho.oneOrphan v hv w hwv hev (hlast w u' hw).2
      refine ⟨t₀, (hoffered v hv t₀).2 (.inl ⟨rfl, u', hw⟩), ho.inTime v hv t₀ ?_⟩
      rw [countTime, if_pos hev, htime]
      rfl
    · have hno : early E ms v = false := by simpa using hev
      refine ⟨u, (hoffered v hv u).2 (.inr ⟨hno, by rw [← hlate v hno, hu]⟩),
        ho.inTime v hv u ?_⟩
      rw [countTime, if_neg hev, hu]
      rfl

end

end Ballot

/-! ## The budget manager -/

namespace CBudgetManager

open Ballot

section

variable {env : BudgetEnv}

/-- A message about a proposal. -/
def proposalMsg (m : ℤ × BallotMsg CBudgetProposal CBudgetVote) : ℤ × BudgetMsg :=
  match m.2 with
  | .item p => (m.1, .mprop p)
  | .vote v => (m.1, .mvote v)

/-- A message about a finalized budget. -/
def finalizedMsg (m : ℤ × BallotMsg CFinalizedBudget CFinalizedBudgetVote) : ℤ × BudgetMsg :=
  match m.2 with
  | .item b => (m.1, .fbs b)
  | .vote v => (m.1, .fbvote v)

/-- Messages about proposals act on the proposals as on a ballot. -/
theorem proposals_foldl (ms : List (ℤ × BallotMsg CBudgetProposal CBudgetVote))
    (m : CBudgetManager) : ((ms.map proposalMsg).foldl (processMessage env) m).proposals =
      ms.foldl (receive env.proposals) m.proposals := by
  induction ms generalizing m with
  | nil => rfl
  | cons x ms ih =>
    rw [List.map_cons, List.foldl_cons, List.foldl_cons, ih]
    congr 1
    obtain ⟨t, p | v⟩ := x
    · simp only [proposalMsg, processMessage, receive]
      split <;> rfl
    · rfl

/-- Messages about finalized budgets act on the finalized budgets as on a ballot. -/
theorem finalized_foldl (ms : List (ℤ × BallotMsg CFinalizedBudget CFinalizedBudgetVote))
    (m : CBudgetManager) : ((ms.map finalizedMsg).foldl (processMessage env) m).finalized =
      ms.foldl (receive env.finalized) m.finalized := by
  induction ms generalizing m with
  | nil => rfl
  | cons x ms ih =>
    rw [List.map_cons, List.foldl_cons, List.foldl_cons, ih]
    congr 1
    obtain ⟨t, b | v⟩ := x
    · simp only [finalizedMsg, processMessage, receive]
      split <;> rfl
    · rfl

/-- **Votes on proposals and finalized budgets.**  Once a valid item and validly signed votes on
it are all delivered, the item has every vote exactly when the first message with the hash of
each vote was the vote itself, at most one of them came before the item, and none was more than
an hour ahead of the clock when it was counted. -/
theorem budget_votes_kept_iff (m : CBudgetManager) :
    (∀ p votes ms, Delivery env.proposals m.proposals p votes ms →
      (VotesKept env.proposals ((ms.map proposalMsg).foldl (processMessage env) m).proposals
        p votes ↔ InOrder env.proposals votes ms)) ∧
    ∀ b votes ms, Delivery env.finalized m.finalized b votes ms →
      (VotesKept env.finalized ((ms.map finalizedMsg).foldl (processMessage env) m).finalized
        b votes ↔ InOrder env.finalized votes ms) := by
  constructor
  · intro p votes ms hd
    rw [proposals_foldl]
    exact hd.votesKept_iff
  · intro b votes ms hd
    rw [finalized_foldl]
    exact hd.votesKept_iff

end

/-! ## Lost votes -/

namespace VoteExample

/-- A synchronised node that knows every masternode.  A signature is valid when it is the byte 1,
and hashes are read off the outpoint. -/
def env : BudgetEnv where
  outPointHash := fun o => o.hash
  proposalHash := fun _ _ _ _ _ _ => 0xa1
  budgetHash := fun _ _ _ => 0xf1
  proposalVoteHash := fun vin _ _ _ => vin.prevout.hash
  budgetVoteHash := fun vin _ _ => vin.prevout.hash
  find := fun _ => true
  verifyMessage := fun _ _ _ _ vchSig => decide (vchSig = [1])
  isBudgetCollateralValid := fun _ _ => true
  isProposalValid := fun _ => true
  isBudgetValid := fun _ => true
  isSynced := true

/-- A proposal. -/
def proposal : CBudgetProposal :=
  { strProposalName := "road", strURL := "", nBlockStart := 100, nBlockEnd := 400,
    nAmount := 20 * coin, address := [0x52], nFeeTXHash := 0xb1 }

/-- The vote of a masternode. -/
def vote (masternode : UInt256) (vchSig : List UInt8) : CBudgetVote :=
  { vin := { prevout := ⟨masternode, 0⟩ }, nProposalHash := 0xa1, nVote := 1, nTime := 1500000000,
    vchSig := vchSig }

/-- A message at the time of the votes. -/
def sent (x : BallotMsg CBudgetProposal CBudgetVote) :
    ℤ × BallotMsg CBudgetProposal CBudgetVote := (1500000000, x)

/-- The proposal, a forged copy of a vote, and the vote. -/
def forgedFirst : List (ℤ × BallotMsg CBudgetProposal CBudgetVote) :=
  [sent (.item proposal), sent (.vote (vote 0x31 [0])), sent (.vote (vote 0x31 [1]))]

/-- Two votes, and the proposal. -/
def twoEarly : List (ℤ × BallotMsg CBudgetProposal CBudgetVote) :=
  [sent (.vote (vote 0x31 [1])), sent (.vote (vote 0x32 [1])), sent (.item proposal)]

/-- One vote, the proposal, and another vote with a forged copy after it. -/
def oneEarly : List (ℤ × BallotMsg CBudgetProposal CBudgetVote) :=
  [sent (.vote (vote 0x31 [1])), sent (.item proposal), sent (.vote (vote 0x32 [1])),
    sent (.vote (vote 0x32 [0]))]

theorem delivery {votes : List CBudgetVote} {ms : List (ℤ × BallotMsg CBudgetProposal CBudgetVote)}
    (hvotes : ∀ v ∈ votes, ∃ k, v = vote k [1])
    (hmessages : ∀ m ∈ ms, m.2 = .item proposal ∨
      ∃ v ∈ votes, ∃ w, m.2 = .vote w ∧ (w = v ∨ w = { v with vchSig := [0] }))
    (hitem : ∃ t, (t, .item proposal) ∈ ms) (hall : ∀ v ∈ votes, ∃ t, (t, .vote v) ∈ ms) :
    Delivery env.proposals {} proposal votes ms where
  synced := rfl
  collateral := rfl
  valid := rfl
  noVotes := rfl
  nHash := fun v hv => by
    obtain ⟨k, rfl⟩ := hvotes v hv
    rfl
  known := fun _ _ => rfl
  signed := fun v hv => by
    obtain ⟨k, rfl⟩ := hvotes v hv
    rfl
  onePerMasternode := fun v hv w hw h => by
    obtain ⟨k, rfl⟩ := hvotes v hv
    obtain ⟨k', rfl⟩ := hvotes w hw
    obtain rfl : k = k' := congrArg COutPoint.hash h
    rfl
  outPointHash := fun v hv w hw h => by
    obtain ⟨k, rfl⟩ := hvotes v hv
    obtain ⟨k', rfl⟩ := hvotes w hw
    obtain rfl : k = k' := h
    rfl
  newItem := rfl
  newSeenItem := rfl
  newVotes := fun _ _ => rfl
  noOrphan := rfl
  keyed := fun k o h => absurd h (by simp)
  messages := fun m hm => by
    rcases hmessages m hm with h | ⟨v, hv, w, hw, rfl | rfl⟩
    · exact .inl h
    · exact .inr ⟨w, hv, w, hw, .inl rfl⟩
    · exact .inr ⟨v, hv, _, hw, .inr ⟨rfl, rfl, rfl, rfl⟩⟩
  item := hitem
  votes := hall

theorem delivery_forgedFirst :
    Delivery env.proposals {} proposal [vote 0x31 [1]] forgedFirst := by
  refine delivery ?_ ?_ ⟨1500000000, by simp [forgedFirst, sent]⟩ ?_
  · simpa using ⟨_, rfl⟩
  · simp only [forgedFirst, List.forall_mem_cons]
    exact ⟨.inl rfl, .inr ⟨vote 0x31 [1], by simp, _, rfl, .inr rfl⟩,
      .inr ⟨_, by simp, _, rfl, .inl rfl⟩, by simp⟩
  · intro v hv
    obtain rfl := List.mem_singleton.1 hv
    exact ⟨1500000000, by simp [forgedFirst, sent]⟩

theorem delivery_twoEarly :
    Delivery env.proposals {} proposal [vote 0x31 [1], vote 0x32 [1]] twoEarly := by
  refine delivery ?_ ?_ ⟨1500000000, by simp [twoEarly, sent]⟩ ?_
  · simpa using ⟨⟨_, rfl⟩, ⟨_, rfl⟩⟩
  · simp only [twoEarly, List.forall_mem_cons]
    exact ⟨.inr ⟨_, by simp, _, rfl, .inl rfl⟩, .inr ⟨vote 0x32 [1], by simp, _, rfl, .inl rfl⟩,
      .inl rfl, by simp⟩
  · simp only [List.forall_mem_cons]
    exact ⟨⟨1500000000, by simp [twoEarly, sent]⟩, ⟨1500000000, by simp [twoEarly, sent]⟩, by simp⟩

theorem delivery_oneEarly :
    Delivery env.proposals {} proposal [vote 0x31 [1], vote 0x32 [1]] oneEarly := by
  refine delivery ?_ ?_ ⟨1500000000, by simp [oneEarly, sent]⟩ ?_
  · simpa using ⟨⟨_, rfl⟩, ⟨_, rfl⟩⟩
  · simp only [oneEarly, List.forall_mem_cons]
    exact ⟨.inr ⟨_, by simp, _, rfl, .inl rfl⟩, .inl rfl,
      .inr ⟨vote 0x32 [1], by simp, _, rfl, .inl rfl⟩,
      .inr ⟨vote 0x32 [1], by simp, _, rfl, .inr rfl⟩, by simp⟩
  · simp only [List.forall_mem_cons]
    exact ⟨⟨1500000000, by simp [oneEarly, sent]⟩, ⟨1500000000, by simp [oneEarly, sent]⟩, by simp⟩

theorem inOrder_oneEarly :
    InOrder env.proposals [vote 0x31 [1], vote 0x32 [1]] oneEarly where
  genuineFirst := by
    simp only [List.forall_mem_cons]
    exact ⟨⟨1500000000, rfl⟩, ⟨1500000000, rfl⟩, by simp⟩
  oneOrphan := by
    have hlate : early env.proposals oneEarly (vote 0x32 [1]) = false := by decide
    simp only [List.forall_mem_cons, hlate]
    simp
  inTime := by
    have h₁ : countTime env.proposals oneEarly (vote 0x31 [1]) = some 1500000000 := by decide
    have h₂ : countTime env.proposals oneEarly (vote 0x32 [1]) = some 1500000000 := by decide
    simp only [List.forall_mem_cons, h₁, h₂, Option.some.injEq, forall_eq']
    exact ⟨by decide, by decide, by simp⟩

end VoteExample

open VoteExample in
/-- One vote before the proposal and one after it, with a forged copy last: both are kept. -/
theorem budget_votes_kept_one_early :
    VotesKept env.proposals ((oneEarly.map proposalMsg).foldl (processMessage env) {}).proposals
      proposal [vote 0x31 [1], vote 0x32 [1]] :=
  ((budget_votes_kept_iff {}).1 _ _ _ delivery_oneEarly).2 inOrder_oneEarly

open VoteExample in
/-- A forged copy before the vote keeps the vote out, and of two votes before the proposal one
is lost. -/
theorem budget_vote_lost :
    (Delivery env.proposals {} proposal [vote 0x31 [1]] forgedFirst ∧
      ¬VotesKept env.proposals ((forgedFirst.map proposalMsg).foldl (processMessage env) {}).proposals
        proposal [vote 0x31 [1]]) ∧
    (Delivery env.proposals {} proposal [vote 0x31 [1], vote 0x32 [1]] twoEarly ∧
      ¬VotesKept env.proposals ((twoEarly.map proposalMsg).foldl (processMessage env) {}).proposals
        proposal [vote 0x31 [1], vote 0x32 [1]]) := by
  refine ⟨⟨delivery_forgedFirst, fun hkept => ?_⟩, delivery_twoEarly, fun hkept => ?_⟩
  · rw [proposals_foldl] at hkept
    obtain ⟨t, ht⟩ := (delivery_forgedFirst.votesKept_iff.1 hkept).genuineFirst (vote 0x31 [1])
      (by simp)
    have hfirst : forgedFirst.find? (carries env.proposals (vote 0x31 [1])) =
        some (1500000000, .vote (vote 0x31 [0])) := rfl
    rw [hfirst] at ht
    cases ht
  · rw [proposals_foldl] at hkept
    have heq := (delivery_twoEarly.votesKept_iff.1 hkept).oneOrphan (vote 0x31 [1]) (by simp)
      (vote 0x32 [1]) (by simp) (by decide) (by decide)
    exact absurd heq (by decide)

end CBudgetManager

end FairCoin
