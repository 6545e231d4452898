import FairCoin.Primitives

/-!
# Announcing blocks

How one node answers the `getblocks` of another (`src/main.cpp`), and what it remembers of the
announcements made on the connection: `mruset` of `src/mruset.h`, `AddInventoryKnown` and
`PushInventory` of `src/net.h`, the inventory part of `SendMessages`.

* `nextBlocks` — the blocks a `getblocks` asks for: at most 500 after the fork point, up to
  `hashStop`.
* `Connection.step` — what happens on the connection: requests, announcements in either direction,
  relayed inventory, changes of the active chain, `SendMessages`.  What the other node does and
  which messages are lost shows only in the events that arrive, so every run of the two nodes is a
  list of events here.
* `syncRequest` — the request a node sends, and sends again when its tip is stale.
* `getblocks_answered` — **when a request is answered**: when none of the blocks has been announced
  on the connection before, as far as the node remembers.
* `renewed_getblocks_unanswered` — a block whose announcement was lost is not announced again.
-/

namespace FairCoin

/-! ## The set of known inventory -/

/-- `CInv`. -/
structure CInv where
  type : ℕ
  hash : UInt256
  deriving DecidableEq, Repr

/-- `MSG_TX`. -/
def msgTx : ℕ := 1

/-- `MSG_BLOCK`. -/
def msgBlock : ℕ := 2

/-- `mruset`: the elements, oldest first; no limit when `nMaxSize` is zero. -/
structure MruSet (α : Type) where
  queue : List α := []
  nMaxSize : ℕ := 0
  deriving DecidableEq, Repr

namespace MruSet

variable {α : Type} [DecidableEq α]

/-- `count`. -/
def contains (s : MruSet α) (x : α) : Bool := decide (x ∈ s.queue)

/-- `insert`: the oldest element goes when the set is full. -/
def insert (s : MruSet α) (x : α) : MruSet α :=
  if s.contains x then s
  else if s.nMaxSize ≠ 0 ∧ s.queue.length = s.nMaxSize then
    { s with queue := s.queue.tail ++ [x] }
  else { s with queue := s.queue ++ [x] }

/-- Only the element inserted can be new. -/
theorem contains_of_insert {s : MruSet α} {x y : α} (h : (s.insert y).contains x = true) :
    x = y ∨ s.contains x = true := by
  rw [insert] at h
  split at h
  · exact .inr h
  · simp only [contains, decide_eq_true_eq] at h ⊢
    split at h
    · rcases List.mem_append.1 h with h | h
      · exact .inr (List.mem_of_mem_tail h)
      · exact .inl (List.mem_singleton.1 h)
    · rcases List.mem_append.1 h with h | h
      · exact .inr h
      · exact .inl (List.mem_singleton.1 h)

theorem contains_insert_eq_false {s : MruSet α} {x y : α} (h : s.contains x = false) (hne : x ≠ y) :
    (s.insert y).contains x = false := by
  rw [← Bool.not_eq_true]
  intro hc
  rcases contains_of_insert hc with heq | hold
  · exact hne heq
  · rw [h] at hold
    exact absurd hold (by simp)

end MruSet

/-! ## The blocks a request asks for -/

/-- `FindForkInGlobalIndex`; the active chain is the list of its hashes from the genesis block. -/
def findForkInGlobalIndex (chain vHave : List UInt256) : Option UInt256 :=
  match vHave.find? fun hash => decide (hash ∈ chain) with
  | some hash => some hash
  | none => chain.head?

/-- The blocks of the active chain above a block. -/
def blocksAfter (chain : List UInt256) (pindex : UInt256) : List UInt256 :=
  (chain.dropWhile fun hash => decide (hash ≠ pindex)).tail

/-- The loop of `getblocks`: the blocks to announce, and the last of them when the limit was
reached. -/
def getBlocksLoop (hashStop : UInt256) : ℕ → List UInt256 → List UInt256 × Option UInt256
  | 0, _ => ([], none)
  | _ + 1, [] => ([], none)
  | nLimit + 1, hash :: chain =>
      if hash = hashStop then ([], none)
      else if nLimit = 0 then ([hash], some hash)
      else
        let rest := getBlocksLoop hashStop nLimit chain
        (hash :: rest.1, rest.2)

/-- The blocks a request asks for. -/
def nextBlocks (chain vHave : List UInt256) (hashStop : UInt256) : List UInt256 × Option UInt256 :=
  match findForkInGlobalIndex chain vHave with
  | none => ([], none)
  | some pindex => getBlocksLoop hashStop 500 (blocksAfter chain pindex)

/-- **The next blocks**, at most so many, up to the one to stop at. -/
theorem getBlocksLoop_eq (hashStop : UInt256) (nLimit : ℕ) : ∀ chain : List UInt256,
    (getBlocksLoop hashStop nLimit chain).1 =
      (chain.takeWhile fun hash => decide (hash ≠ hashStop)).take nLimit := by
  induction nLimit with
  | zero =>
    intro chain
    rw [List.take_zero]
    rfl
  | succ nLimit ih =>
    intro chain
    cases chain with
    | nil => rfl
    | cons hash chain =>
      rw [getBlocksLoop]
      by_cases hstop : hash = hashStop
      · simp [hstop]
      · rw [if_neg hstop]
        cases nLimit with
        | zero => simp [hstop]
        | succ nLimit => simp [hstop, ih chain]

/-! ## The connection -/

/-- The state of a connection, with the active chain of the node. -/
structure Connection where
  chainActive : List UInt256
  setInventoryKnown : MruSet CInv := {}
  vInventoryToSend : List CInv := []
  hashContinue : UInt256 := 0
  deriving DecidableEq, Repr

/-- What happens on a connection. -/
inductive ConnectionEvent
  | getblocks (vHave : List UInt256) (hashStop : UInt256)
  | announced (inv : CInv)
  | relay (inv : CInv)
  | activate (chainActive : List UInt256)
  | sendMessages (fSendTrickle : Bool)
  deriving DecidableEq, Repr

/-- `PushInventory`. -/
def Connection.pushInventory (c : Connection) (inv : CInv) : Connection :=
  if c.setInventoryKnown.contains inv then c
  else { c with vInventoryToSend := c.vInventoryToSend ++ [inv] }

/-- What the loop of `SendMessages` over the inventory has done: the known inventory, the message
it fills, the messages sent and what waits for another round. -/
structure InvLoop where
  setInventoryKnown : MruSet CInv
  vInv : List CInv := []
  sent : List (List CInv) := []
  vInvWait : List CInv := []

section Send

variable (fTrickleWait : CInv → Bool)

/-- A round of the loop; a message goes out when it has 1000 entries. -/
def sendInventory (fSendTrickle : Bool) (l : InvLoop) (inv : CInv) : InvLoop :=
  if l.setInventoryKnown.contains inv then l
  else if inv.type = msgTx ∧ fSendTrickle = false ∧ fTrickleWait inv = true then
    { l with vInvWait := l.vInvWait ++ [inv] }
  else
    let known := l.setInventoryKnown.insert inv
    if 1000 ≤ (l.vInv ++ [inv]).length then
      { l with setInventoryKnown := known, vInv := [], sent := l.sent ++ [l.vInv ++ [inv]] }
    else { l with setInventoryKnown := known, vInv := l.vInv ++ [inv] }

/-- The inventory part of `SendMessages`: the connection and the `inv` messages sent. -/
def Connection.sendMessages (fSendTrickle : Bool) (c : Connection) :
    Connection × List (List CInv) :=
  let l := c.vInventoryToSend.foldl (sendInventory fTrickleWait fSendTrickle)
    { setInventoryKnown := c.setInventoryKnown }
  ({ c with setInventoryKnown := l.setInventoryKnown, vInventoryToSend := l.vInvWait },
    if l.vInv = [] then l.sent else l.sent ++ [l.vInv])

/-- An event on the connection; `fTrickleWait` holds back transactions. -/
def Connection.step (c : Connection) : ConnectionEvent → Connection
  | .getblocks vHave hashStop =>
      let found := nextBlocks c.chainActive vHave hashStop
      let c := found.1.foldl (fun c hash => c.pushInventory ⟨msgBlock, hash⟩) c
      { c with hashContinue := found.2.getD c.hashContinue }
  | .announced inv => { c with setInventoryKnown := c.setInventoryKnown.insert inv }
  | .relay inv => c.pushInventory inv
  | .activate chainActive => { c with chainActive := chainActive }
  | .sendMessages fSendTrickle => (c.sendMessages fTrickleWait fSendTrickle).1

/-- The connection after a list of events. -/
def Connection.run (c : Connection) (events : List ConnectionEvent) : Connection :=
  events.foldl (Connection.step fTrickleWait) c

end Send

/-! ## The request -/

/-- The sync fields of `CNodeState`, and the number of peers the node syncs from. -/
structure SyncState where
  fSyncStarted : Bool := false
  nSyncRequestTime : ℤ := 0
  nSyncStarted : ℤ := 0
  deriving DecidableEq, Repr

/-- What `SendMessages` reads to decide on a request. -/
structure SyncInput where
  now : ℤ
  tipTime : ℤ
  bestHeaderTime : ℤ
  adjustedTime : ℤ
  fFetch : Bool := true
  fClient : Bool := false
  fReindex : Bool := false
  deriving DecidableEq, Repr

/-- `SYNC_REQUEST_RETRY_INTERVAL`. -/
def syncRequestRetryInterval : ℤ := 10 * 60

/-- The sync part of `SendMessages`: whether a `getblocks` is sent. -/
def syncRequest (i : SyncInput) (st : SyncState) : SyncState × Bool :=
  let fTipStale := decide (i.tipTime < i.now - syncRequestRetryInterval)
  let st :=
    if st.fSyncStarted && fTipStale && st.nSyncRequestTime != 0 &&
        decide (syncRequestRetryInterval < i.now - st.nSyncRequestTime) then
      { st with fSyncStarted := false, nSyncStarted := st.nSyncStarted - 1 }
    else st
  if !st.fSyncStarted && !i.fClient && i.fFetch && !i.fReindex &&
      (st.nSyncStarted == 0 || fTipStale ||
        decide (i.adjustedTime - 6 * 60 * 60 < i.bestHeaderTime)) then
    ({ fSyncStarted := true, nSyncRequestTime := i.now, nSyncStarted := st.nSyncStarted + 1 }, true)
  else (st, false)

/-- The loop of `GetLocator` for a block of the active chain: exponentially larger steps back. -/
def getLocatorLoop (chain : List UInt256) : ℕ → ℕ → ℕ → ℕ → List UInt256
  | 0, _, _, _ => []
  | fuel + 1, nHeight, nStep, count =>
      match chain[nHeight]? with
      | none => []
      | some hash =>
          if nHeight = 0 then [hash]
          else
            hash :: getLocatorLoop chain fuel (nHeight - nStep)
              (if 10 < count + 1 then nStep * 2 else nStep) (count + 1)

/-- `GetLocator` of the tip. -/
def getLocator (chain : List UInt256) : List UInt256 :=
  getLocatorLoop chain chain.length (chain.length - 1) 1 0

/-! ## What `SendMessages` announces -/

section Loop

variable (fTrickleWait : CInv → Bool) (fSendTrickle : Bool)

/-- The entry is in a message that was sent, or in the one that is filled. -/
def InvLoop.Out (l : InvLoop) (x : CInv) : Prop := (∃ msg ∈ l.sent, x ∈ msg) ∨ x ∈ l.vInv

/-- What a round does with an entry it does not skip or hold back. -/
theorem sendInventory_cases (l : InvLoop) (inv : CInv) :
    (l.setInventoryKnown.contains inv = true ∧
      sendInventory fTrickleWait fSendTrickle l inv = l) ∨
    (l.setInventoryKnown.contains inv = false ∧ inv.type = msgTx ∧
      (sendInventory fTrickleWait fSendTrickle l inv).setInventoryKnown = l.setInventoryKnown ∧
      ∀ x, (sendInventory fTrickleWait fSendTrickle l inv).Out x ↔ l.Out x) ∨
    (l.setInventoryKnown.contains inv = false ∧
      (sendInventory fTrickleWait fSendTrickle l inv).setInventoryKnown =
        l.setInventoryKnown.insert inv ∧
      ∀ x, (sendInventory fTrickleWait fSendTrickle l inv).Out x ↔ x = inv ∨ l.Out x) := by
  rw [sendInventory]
  cases hknown : l.setInventoryKnown.contains inv with
  | true => exact .inl ⟨rfl, by rw [if_pos rfl]⟩
  | false =>
    rw [if_neg (by simp)]
    by_cases hwait : inv.type = msgTx ∧ fSendTrickle = false ∧ fTrickleWait inv = true
    · rw [if_pos hwait]
      exact .inr (.inl ⟨rfl, hwait.1, rfl, fun _ => Iff.rfl⟩)
    · rw [if_neg hwait]
      refine .inr (.inr ⟨rfl, ?_, ?_⟩)
      · simp only
        split <;> rfl
      · intro x
        simp only
        split
        · simp only [InvLoop.Out, List.mem_append, List.mem_singleton, List.not_mem_nil, or_false]
          constructor
          · rintro ⟨msg, hmsg | rfl, hx⟩
            · exact .inr (.inl ⟨msg, hmsg, hx⟩)
            · rcases List.mem_append.1 hx with hx | hx
              · exact .inr (.inr hx)
              · exact .inl (List.mem_singleton.1 hx)
          · rintro (rfl | ⟨msg, hmsg, hx⟩ | hx)
            · exact ⟨_, .inr rfl, by simp⟩
            · exact ⟨msg, .inl hmsg, hx⟩
            · exact ⟨_, .inr rfl, List.mem_append_left _ hx⟩
        · simp only [InvLoop.Out, List.mem_append, List.mem_singleton]
          rw [← or_assoc, or_comm]

theorem out_foldl_of_out {l : InvLoop} {x : CInv} (invs : List CInv) (h : l.Out x) :
    (invs.foldl (sendInventory fTrickleWait fSendTrickle) l).Out x := by
  induction invs generalizing l with
  | nil => exact h
  | cons inv invs ih =>
    apply ih
    rcases sendInventory_cases fTrickleWait fSendTrickle l inv with ⟨-, heq⟩ | ⟨-, -, -, hout⟩ |
      ⟨-, -, hout⟩
    · rw [heq]
      exact h
    · exact (hout x).2 h
    · exact (hout x).2 (.inr h)

/-- **What is new is announced.**  An entry that the node does not know as known goes out; only
transactions can be held back. -/
theorem out_foldl_of_mem {l : InvLoop} {x : CInv} {invs : List CInv} (hx : x ∈ invs)
    (htype : x.type ≠ msgTx) (hnew : l.setInventoryKnown.contains x = false) :
    (invs.foldl (sendInventory fTrickleWait fSendTrickle) l).Out x := by
  induction invs generalizing l with
  | nil => exact absurd hx (by simp)
  | cons inv invs ih =>
    rw [List.foldl_cons]
    have hcases := sendInventory_cases fTrickleWait fSendTrickle l inv
    by_cases heq : x = inv
    · subst heq
      apply out_foldl_of_out
      rcases hcases with ⟨hknown, -⟩ | ⟨-, htx, -⟩ | ⟨-, -, hout⟩
      · exact absurd (hnew.symm.trans hknown) (by simp)
      · exact absurd htx htype
      · exact (hout x).2 (.inl rfl)
    · have hrest : x ∈ invs := (List.mem_cons.1 hx).resolve_left heq
      apply ih hrest
      rcases hcases with ⟨-, hsame⟩ | ⟨-, -, hsame, -⟩ | ⟨-, hset, -⟩
      · rw [hsame]
        exact hnew
      · rw [hsame]
        exact hnew
      · rw [hset]
        exact MruSet.contains_insert_eq_false hnew heq

/-- Nothing else is announced. -/
theorem mem_of_out_foldl {l : InvLoop} {x : CInv} {invs : List CInv}
    (h : (invs.foldl (sendInventory fTrickleWait fSendTrickle) l).Out x) : x ∈ invs ∨ l.Out x := by
  induction invs generalizing l with
  | nil => exact .inr h
  | cons inv invs ih =>
    rcases ih h with hx | hout
    · exact .inl (List.mem_cons_of_mem _ hx)
    · rcases sendInventory_cases fTrickleWait fSendTrickle l inv with ⟨-, heq⟩ | ⟨-, -, -, hiff⟩ |
        ⟨-, -, hiff⟩
      · rw [heq] at hout
        exact .inr hout
      · exact .inr ((hiff x).1 hout)
      · rcases (hiff x).1 hout with rfl | hout
        · exact .inl (by simp)
        · exact .inr hout

/-- The messages of `SendMessages` hold what the loop has put out. -/
theorem mem_sendMessages (c : Connection) (x : CInv) :
    (∃ msg ∈ (c.sendMessages fTrickleWait fSendTrickle).2, x ∈ msg) ↔
      (c.vInventoryToSend.foldl (sendInventory fTrickleWait fSendTrickle)
        { setInventoryKnown := c.setInventoryKnown }).Out x := by
  rw [Connection.sendMessages]
  simp only
  generalize c.vInventoryToSend.foldl (sendInventory fTrickleWait fSendTrickle)
    { setInventoryKnown := c.setInventoryKnown } = l
  rw [InvLoop.Out]
  split
  · next hempty => simp [hempty]
  · simp only [List.mem_append, List.mem_singleton]
    constructor
    · rintro ⟨msg, hmsg | rfl, hx⟩
      · exact .inl ⟨msg, hmsg, hx⟩
      · exact .inr hx
    · rintro (⟨msg, hmsg, hx⟩ | hx)
      · exact ⟨msg, .inl hmsg, hx⟩
      · exact ⟨_, .inr rfl, hx⟩

end Loop

/-! ## From the request to the answer -/

section Answer

variable {fTrickleWait : CInv → Bool}

/-- The entry waits to be announced and is not known. -/
def Connection.Pending (c : Connection) (x : CInv) : Prop :=
  x ∈ c.vInventoryToSend ∧ c.setInventoryKnown.contains x = false

theorem pushInventory_known (c : Connection) (inv : CInv) :
    (c.pushInventory inv).setInventoryKnown = c.setInventoryKnown := by
  rw [Connection.pushInventory]
  split <;> rfl

theorem mem_pushInventory {c : Connection} {inv x : CInv} :
    x ∈ (c.pushInventory inv).vInventoryToSend ↔ x ∈ c.vInventoryToSend ∨
      (x = inv ∧ c.setInventoryKnown.contains inv = false) := by
  rw [Connection.pushInventory]
  cases h : c.setInventoryKnown.contains inv with
  | true => simp
  | false => simp

theorem foldl_pushInventory (hashes : List UInt256) : ∀ c : Connection,
    (hashes.foldl (fun c hash => c.pushInventory ⟨msgBlock, hash⟩) c).setInventoryKnown =
        c.setInventoryKnown ∧
      ∀ x, x ∈ (hashes.foldl (fun c hash => c.pushInventory ⟨msgBlock, hash⟩) c).vInventoryToSend ↔
        x ∈ c.vInventoryToSend ∨
          (∃ hash ∈ hashes, x = ⟨msgBlock, hash⟩) ∧ c.setInventoryKnown.contains x = false := by
  induction hashes with
  | nil => exact fun c => ⟨rfl, fun x => by simp⟩
  | cons hash hashes ih =>
    intro c
    obtain ⟨hknown, hmem⟩ := ih (c.pushInventory ⟨msgBlock, hash⟩)
    rw [List.foldl_cons]
    refine ⟨hknown.trans (pushInventory_known c _), fun x => ?_⟩
    rw [hmem x, mem_pushInventory, pushInventory_known]
    constructor
    · rintro ((hx | ⟨rfl, hnew⟩) | ⟨⟨hash', hhash', rfl⟩, hnew⟩)
      · exact .inl hx
      · exact .inr ⟨⟨hash, by simp, rfl⟩, hnew⟩
      · exact .inr ⟨⟨hash', by simp [hhash'], rfl⟩, hnew⟩
    · rintro (hx | ⟨⟨hash', hhash', rfl⟩, hnew⟩)
      · exact .inl (.inl hx)
      · rcases List.mem_cons.1 hhash' with rfl | hhash'
        · exact .inl (.inr ⟨rfl, hnew⟩)
        · exact .inr ⟨⟨hash', hhash', rfl⟩, hnew⟩

/-- **The request.**  The blocks asked for are queued, those that are known apart. -/
theorem step_getblocks (c : Connection) (vHave : List UInt256) (hashStop : UInt256) :
    (c.step fTrickleWait (.getblocks vHave hashStop)).setInventoryKnown = c.setInventoryKnown ∧
      ∀ x, x ∈ (c.step fTrickleWait (.getblocks vHave hashStop)).vInventoryToSend ↔
        x ∈ c.vInventoryToSend ∨
          (∃ hash ∈ (nextBlocks c.chainActive vHave hashStop).1, x = ⟨msgBlock, hash⟩) ∧
            c.setInventoryKnown.contains x = false :=
  foldl_pushInventory _ c

/-- An event that neither sends nor makes the entry known leaves it waiting. -/
theorem Connection.Pending.step {c : Connection} {x : CInv} (h : c.Pending x)
    {e : ConnectionEvent} (hsend : ∀ fSendTrickle, e ≠ .sendMessages fSendTrickle)
    (hknown : e ≠ .announced x) : (c.step fTrickleWait e).Pending x := by
  obtain ⟨hmem, hnew⟩ := h
  cases e with
  | getblocks vHave hashStop =>
    obtain ⟨hsame, hqueued⟩ := @step_getblocks fTrickleWait c vHave hashStop
    exact ⟨(hqueued x).2 (.inl hmem), hsame.symm ▸ hnew⟩
  | announced inv =>
    refine ⟨hmem, MruSet.contains_insert_eq_false hnew ?_⟩
    rintro rfl
    exact hknown rfl
  | relay inv =>
    exact ⟨mem_pushInventory.2 (.inl hmem), (pushInventory_known c inv).symm ▸ hnew⟩
  | activate chainActive => exact ⟨hmem, hnew⟩
  | sendMessages fSendTrickle => exact absurd rfl (hsend fSendTrickle)

theorem Connection.Pending.run {x : CInv} {events : List ConnectionEvent} :
    ∀ {c : Connection}, c.Pending x →
      (∀ e ∈ events, (∀ fSendTrickle, e ≠ .sendMessages fSendTrickle) ∧ e ≠ .announced x) →
      (c.run fTrickleWait events).Pending x := by
  induction events with
  | nil => exact fun h _ => h
  | cons e events ih =>
    intro c h hevents
    obtain ⟨hsend, hknown⟩ := hevents e (by simp)
    exact ih (h.step hsend hknown) fun e' he' => hevents e' (by simp [he'])

/-- What waits and is not known is announced by `SendMessages`; only transactions can wait. -/
theorem Connection.Pending.announced {c : Connection} {x : CInv} (h : c.Pending x)
    (htype : x.type ≠ msgTx) (fSendTrickle : Bool) :
    ∃ msg ∈ (c.sendMessages fTrickleWait fSendTrickle).2, x ∈ msg :=
  (mem_sendMessages fTrickleWait fSendTrickle c x).2
    (out_foldl_of_mem fTrickleWait fSendTrickle h.1 htype h.2)

end Answer

/-! ## The missed block -/

/-- A node that is behind asks for the block it misses first. -/
theorem mem_nextBlocks_of_behind {chain rest : List UInt256} {missed : UInt256} (hne : chain ≠ [])
    (hnodup : (chain ++ missed :: rest).Nodup) (hzero : missed ≠ 0) :
    missed ∈ (nextBlocks (chain ++ missed :: rest) (getLocator chain) 0).1 := by
  obtain ⟨below, tip, rfl⟩ := (List.eq_nil_or_concat chain).resolve_left hne
  rw [List.concat_eq_append] at *
  have hlocator : ∃ others, getLocator (below ++ [tip]) = tip :: others := by
    rw [getLocator, List.length_append, List.length_singleton, getLocatorLoop]
    have hget : (below ++ [tip])[below.length + 1 - 1]? = some tip := by simp
    rw [hget]
    simp only
    split
    · exact ⟨[], rfl⟩
    · exact ⟨_, rfl⟩
  obtain ⟨others, hlocator⟩ := hlocator
  have hfork : findForkInGlobalIndex (below ++ [tip] ++ missed :: rest)
      (getLocator (below ++ [tip])) = some tip := by
    rw [findForkInGlobalIndex, hlocator, List.find?_cons_of_pos (by simp)]
  have hbelow : ∀ hash ∈ below, hash ≠ tip := by
    intro hash hhash heq
    have hd := (List.nodup_append.1 (List.nodup_append.1 hnodup).1).2.2
    exact hd hash hhash tip (by simp) heq
  have hafter : blocksAfter (below ++ [tip] ++ missed :: rest) tip = missed :: rest := by
    rw [blocksAfter, List.append_assoc, List.dropWhile_append_of_pos (by simpa using hbelow)]
    simp
  rw [nextBlocks, hfork]
  simp only [hafter, getBlocksLoop_eq]
  rw [List.takeWhile_cons_of_pos (by simpa using hzero), List.take_succ_cons]
  exact List.mem_cons_self

/-! ## The main results -/

/-- **When a request is answered.**  In every run of the connection, whatever was announced on it
before and whatever happens between the request and the next `SendMessages`: if none of the blocks
asked for is in `setInventoryKnown` when the request arrives, and the other node announces none of
them before `SendMessages`, then every one of them is in an `inv` that `SendMessages` sends; so the
request of a node that is behind gets the block it misses announced again.  And where
`SendMessages` comes next and no block that is known is still waiting to be announced, this is the
only way to get all blocks announced. -/
theorem getblocks_answered (fTrickleWait : CInv → Bool) (c : Connection)
    (before : List ConnectionEvent) (vHave : List UInt256) (hashStop : UInt256)
    (fSendTrickle : Bool) :
    (∀ between : List ConnectionEvent,
      (∀ e ∈ between, ∀ fSendTrickle, e ≠ .sendMessages fSendTrickle) →
      (∀ hash ∈ (nextBlocks (c.run fTrickleWait before).chainActive vHave hashStop).1,
        (c.run fTrickleWait before).setInventoryKnown.contains ⟨msgBlock, hash⟩ = false ∧
          .announced ⟨msgBlock, hash⟩ ∉ between) →
      ∀ hash ∈ (nextBlocks (c.run fTrickleWait before).chainActive vHave hashStop).1,
        ∃ msg ∈ ((c.run fTrickleWait (before ++ .getblocks vHave hashStop :: between)).sendMessages
          fTrickleWait fSendTrickle).2, ⟨msgBlock, hash⟩ ∈ msg) ∧
    (∀ (chain rest : List UInt256) (missed : UInt256), chain ≠ [] →
      (chain ++ missed :: rest).Nodup → missed ≠ 0 →
      missed ∈ (nextBlocks (chain ++ missed :: rest) (getLocator chain) 0).1) ∧
    ((∀ hash ∈ (nextBlocks (c.run fTrickleWait before).chainActive vHave hashStop).1,
        ⟨msgBlock, hash⟩ ∈ (c.run fTrickleWait before).vInventoryToSend →
          (c.run fTrickleWait before).setInventoryKnown.contains ⟨msgBlock, hash⟩ = false) →
      ((∀ hash ∈ (nextBlocks (c.run fTrickleWait before).chainActive vHave hashStop).1,
        ∃ msg ∈ ((c.run fTrickleWait (before ++ [.getblocks vHave hashStop])).sendMessages
          fTrickleWait fSendTrickle).2, ⟨msgBlock, hash⟩ ∈ msg) ↔
      ∀ hash ∈ (nextBlocks (c.run fTrickleWait before).chainActive vHave hashStop).1,
        (c.run fTrickleWait before).setInventoryKnown.contains ⟨msgBlock, hash⟩ = false)) := by
  have hsplit : ∀ between, c.run fTrickleWait (before ++ .getblocks vHave hashStop :: between) =
      ((c.run fTrickleWait before).step fTrickleWait (.getblocks vHave hashStop)).run
        fTrickleWait between := by
    intro between
    rw [Connection.run, List.foldl_append, List.foldl_cons]
    rfl
  generalize c.run fTrickleWait before = at₀ at hsplit ⊢
  obtain ⟨hknown, hqueued⟩ := @step_getblocks fTrickleWait at₀ vHave hashStop
  have hanswered : ∀ between : List ConnectionEvent,
      (∀ e ∈ between, ∀ fSendTrickle, e ≠ .sendMessages fSendTrickle) →
      ∀ hash ∈ (nextBlocks at₀.chainActive vHave hashStop).1,
        at₀.setInventoryKnown.contains ⟨msgBlock, hash⟩ = false →
        .announced ⟨msgBlock, hash⟩ ∉ between →
        ∃ msg ∈ ((c.run fTrickleWait (before ++ .getblocks vHave hashStop :: between)).sendMessages
          fTrickleWait fSendTrickle).2, ⟨msgBlock, hash⟩ ∈ msg := by
    intro between hsend hash hhash hnew hquiet
    rw [hsplit between]
    have hpending : (at₀.step fTrickleWait (.getblocks vHave hashStop)).Pending
        ⟨msgBlock, hash⟩ :=
      ⟨(hqueued _).2 (.inr ⟨⟨hash, hhash, rfl⟩, hnew⟩), hknown.symm ▸ hnew⟩
    refine (hpending.run fun e he => ⟨hsend e he, ?_⟩).announced
      (show msgBlock ≠ msgTx by decide) fSendTrickle
    rintro rfl
    exact hquiet he
  refine ⟨?_, fun chain rest missed => mem_nextBlocks_of_behind, ?_⟩
  · intro between hsend hnew hash hhash
    exact hanswered between hsend hash hhash (hnew hash hhash).1 (hnew hash hhash).2
  · intro hwaiting
    refine ⟨fun hall hash hhash => ?_, fun hnew hash hhash => ?_⟩
    · obtain ⟨msg, hmsg, hx⟩ := hall hash hhash
      have hout := (mem_sendMessages fTrickleWait fSendTrickle _ _).1 ⟨msg, hmsg, hx⟩
      rw [hsplit []] at hout
      rcases mem_of_out_foldl fTrickleWait fSendTrickle hout with hmem | hout
      · rcases (hqueued _).1 hmem with hold | ⟨-, hnew⟩
        · exact hwaiting hash hhash hold
        · exact hnew
      · exact absurd hout (by simp [InvLoop.Out])
    · exact hanswered [] (by simp) hash hhash (hnew hash hhash) (by simp)

/-- A node with one block on top of the genesis block. -/
def oneBlockNode : Connection := { chainActive := [7, 8] }

/-- The block is relayed and announced, and the announcement is lost. -/
def lostAnnouncement : List ConnectionEvent := [.relay ⟨msgBlock, 8⟩, .sendMessages false]

/-- **A lost announcement is not repeated.**  The other node, still at the genesis block, finds its
tip stale and asks again; the request does ask for the block it misses, and `SendMessages` sends
nothing.  So a renewed request is not always answered. -/
theorem renewed_getblocks_unanswered :
    ((oneBlockNode.run (fun _ => false) [.relay ⟨msgBlock, 8⟩]).sendMessages
      (fun _ => false) false).2 = [[⟨msgBlock, 8⟩]] ∧
    (syncRequest ⟨2000, 100, 100, 2000, true, false, false⟩ ⟨true, 200, 1⟩).2 = true ∧
    8 ∈ (nextBlocks (oneBlockNode.run (fun _ => false) lostAnnouncement).chainActive
      (getLocator [7]) 0).1 ∧
    ((oneBlockNode.run (fun _ => false) (lostAnnouncement ++ [.getblocks (getLocator [7]) 0])
      ).sendMessages (fun _ => false) false).2 = [] ∧
    ¬∀ (fTrickleWait : CInv → Bool) (c : Connection) (before : List ConnectionEvent)
      (vHave : List UInt256) (hashStop : UInt256) (fSendTrickle : Bool),
      ∀ hash ∈ (nextBlocks (c.run fTrickleWait before).chainActive vHave hashStop).1,
        ∃ msg ∈ ((c.run fTrickleWait (before ++ [.getblocks vHave hashStop])).sendMessages
          fTrickleWait fSendTrickle).2, ⟨msgBlock, hash⟩ ∈ msg := by
  have hasked : 8 ∈ (nextBlocks (oneBlockNode.run (fun _ => false) lostAnnouncement).chainActive
      (getLocator [7]) 0).1 := by decide
  have hsilent : ((oneBlockNode.run (fun _ => false)
      (lostAnnouncement ++ [.getblocks (getLocator [7]) 0])).sendMessages (fun _ => false) false).2 =
        [] := by decide
  refine ⟨by decide, by decide, hasked, hsilent, fun h => ?_⟩
  obtain ⟨msg, hmsg, -⟩ := h (fun _ => false) oneBlockNode lostAnnouncement (getLocator [7]) 0 false
    8 hasked
  rw [hsilent] at hmsg
  exact absurd hmsg (by simp)

/-- A first request of a node that is behind is answered. -/
theorem getblocks_answered_first :
    (∀ hash ∈ (nextBlocks [7, 8] [7] 0).1,
      ∃ msg ∈ ((oneBlockNode.run (fun _ => false) ([] ++ [.getblocks [7] 0])).sendMessages
        (fun _ => false) false).2, ⟨msgBlock, hash⟩ ∈ msg) ∧ 8 ∈ (nextBlocks [7, 8] [7] 0).1 :=
  ⟨(getblocks_answered (fun _ => false) oneBlockNode [] [7] 0 false).1 [] (by simp)
    (fun hash _ => ⟨rfl, by simp⟩), by decide⟩

end FairCoin
