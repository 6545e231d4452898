import FairCoin.Primitives
import FairCoin.Params
import FairCoin.Lib.Run

/-!
# Masternode synchronisation

`CMasternodeSync` of `src/masternode-sync.cpp`: the sporks, the masternode list, the masternode
winners and the budget are asked for one after the other, in stages.  A stage is left when the data
has stopped coming in, when enough peers have been tried, or when it has taken too long.

* `MasternodeSync.State` — the fields of `CMasternodeSync`, the connected peers with their fulfilled
  requests, the static variables of `IsBlockchainSynced` and `Process`, and a journal: for every
  stage since the last `Reset`, when it was entered and what happened in it.
* `MasternodeSync.process` — one call of `Process`; `MasternodeSync.step` — everything that touches
  the state: calls, items received, peers that come and go, a new tip, `Reset`.
* `LeftFairly` — what is promised to a peer that is there throughout a stage: it has its turn,
  unless enough other peers had theirs, or the stage took too long and the calls that got through
  to the peers were few.
* `finished_of_run` — **a finished synchronisation went through every stage**, left each of them
  fairly and, while payment enforcement stays active, has received list and winner items.
* `finished_without_asking` — a peer that is there throughout need not be asked.
-/

namespace FairCoin

namespace MasternodeSync

/-! ## Stages, requests and messages -/

/-- The values of `RequestedMasternodeAssets`. -/
inductive Asset
  | initial
  | sporks
  | list
  | mnw
  | budget
  | failed
  | finished
  deriving DecidableEq, Repr

/-- The number of a stage: `MASTERNODE_SYNC_INITIAL` and so on. -/
def Asset.code : Asset → ℕ
  | initial => 0
  | sporks => 1
  | list => 2
  | mnw => 3
  | budget => 4
  | failed => 998
  | finished => 999

/-- `MASTERNODE_SYNC_TIMEOUT`. -/
def syncTimeout : ℕ := 5

/-- `MASTERNODE_SYNC_THRESHOLD`. -/
def syncThreshold : ℕ := 2

/-- `MASTERNODES_DSEG_SECONDS`. -/
def masternodesDsegSeconds : ℤ := 3 * 60 * 60

/-- The requests marked as fulfilled on a peer by the synchronisation. -/
inductive Request
  | getspork
  | mnsync
  | mnwsync
  | busync
  deriving DecidableEq, Repr

/-- The messages sent by the synchronisation. -/
inductive Message
  | getsporks
  | dseg
  | mnget (nMnCount : ℤ)
  | mnvs
  deriving DecidableEq, Repr

/-- What `CNode` keeps of a peer for the synchronisation. -/
structure Peer where
  id : ℕ
  addr : ℕ
  nVersion : ℤ := 0
  vecRequestsFulfilled : List Request := []
  deriving DecidableEq, Repr

namespace Peer

/-- `HasFulfilledRequest`. -/
def hasFulfilledRequest (n : Peer) (r : Request) : Bool := decide (r ∈ n.vecRequestsFulfilled)

/-- `ClearFulfilledRequest`: the first mark is taken away. -/
def clearFulfilledRequest (r : Request) (n : Peer) : Peer :=
  { n with vecRequestsFulfilled := n.vecRequestsFulfilled.erase r }

/-- `FulfilledRequest`. -/
def fulfilledRequest (n : Peer) (r : Request) : Peer :=
  if n.hasFulfilledRequest r then n
  else { n with vecRequestsFulfilled := n.vecRequestsFulfilled ++ [r] }

end Peer

/-! ## The state -/

/-- What a call of `Process` finds outside of the state: the time, the sporks, whether blocks are
being imported, which of the locks it tries it gets, and `CountEnabled`. -/
structure Call where
  now : ℤ
  spork8 : Bool
  spork10 : Bool := false
  spork15 : Bool := false
  fImporting : Bool := false
  lockMain : Bool := true
  lockClear : Bool := true
  lockNodes : Bool := true
  nMnCount : ℤ := 0
  deriving DecidableEq, Repr

/-- The network, `-maxtipage`, and which addresses `IsRFC1918` or `IsLocal` accepts. -/
structure Env where
  network : Network
  maxTipAge : ℤ := 60 * 60
  isLocal : ℕ → Bool

/-- What the journal notes. -/
inductive Event
  /-- `Process` got past its tick counter. -/
  | process (spork8 : Bool)
  /-- `Process` got through to the peers. -/
  | pass (c : Call) (vNodes : List Peer)
  | pushed (id : ℕ) (msg : Message)
  /-- `DsegUpdate` found that the address of the peer had been asked not long ago. -/
  | skipped (id : ℕ)
  | listItem
  | winnerItem
  | budgetItem
  deriving DecidableEq, Repr

/-- A stage: when it was entered, and what happened in it, last first. -/
structure Stay where
  asset : Asset
  began : ℤ
  events : List Event := []
  deriving DecidableEq, Repr

/-- What is noted in the journal of a stage. -/
def Stay.note (e : Event) (st : Stay) : Stay := { st with events := e :: st.events }

/-- The state of the synchronisation and of what it uses. -/
structure State where
  mapSeenSyncMNB : UInt256 → Option ℕ := fun _ => none
  mapSeenSyncMNW : UInt256 → Option ℕ := fun _ => none
  mapSeenSyncBudget : UInt256 → Option ℕ := fun _ => none
  lastMasternodeList : ℤ := 0
  lastMasternodeWinner : ℤ := 0
  lastBudgetItem : ℤ := 0
  lastFailure : ℤ := 0
  nCountFailures : ℕ := 0
  requestedMasternodeAssets : Asset := .initial
  requestedMasternodeAttempt : ℕ := 0
  nAssetSyncStarted : ℤ
  /-- The static variables of `Process` and `IsBlockchainSynced`. -/
  tick : ℕ := 0
  fBlockchainSynced : Bool := false
  lastProcess : Option ℤ := none
  /-- `nTime` of the tip of the active chain. -/
  tip : Option ℤ := none
  vNodes : List Peer := []
  nLastNodeId : ℕ := 0
  /-- `CMasternodeMan::mWeAskedForMasternodeList`. -/
  mWeAskedForMasternodeList : ℕ → Option ℤ := fun _ => none
  /-- Whether the last `ClearFulfilledRequest` got its lock. -/
  fCleared : Bool := false
  /-- The journal: the stage the machine is in, and those before it since the last `Reset`. -/
  stay : Stay
  past : List Stay := []

namespace State

/-- What is noted in the journal. -/
def note (e : Event) (s : State) : State := { s with stay := s.stay.note e }

/-- The peers have changed. -/
def setNodes (vNodes : List Peer) (s : State) : State := { s with vNodes := vNodes }

/-- Everything noted since the last `Reset`. -/
def sinceReset (s : State) : List Event := (s.stay :: s.past).flatMap Stay.events

/-- `PushMessage`. -/
def pushMessage (n : Peer) (msg : Message) (s : State) : State := s.note (.pushed n.id msg)

end State

/-! ## The operations -/

/-- `ActiveProtocol`: `MIN_PEER_PROTO_VERSION_AFTER_ENFORCEMENT` and
`MIN_PEER_PROTO_VERSION_BEFORE_ENFORCEMENT` are the same. -/
def activeProtocol (c : Call) : ℤ := if c.spork15 then 71000 else 71000

/-- `GetMinMasternodePaymentsProto`. -/
def getMinMasternodePaymentsProto (c : Call) : ℤ :=
  if c.spork10 then activeProtocol c else 71000

/-- `Reset`. -/
def reset (now : ℤ) (s : State) : State :=
  { s with
    mapSeenSyncMNB := fun _ => none
    mapSeenSyncMNW := fun _ => none
    mapSeenSyncBudget := fun _ => none
    lastMasternodeList := 0
    lastMasternodeWinner := 0
    lastBudgetItem := 0
    lastFailure := 0
    nCountFailures := 0
    requestedMasternodeAssets := .initial
    requestedMasternodeAttempt := 0
    nAssetSyncStarted := now
    stay := { asset := .initial, began := now }
    past := [] }

/-- `IsBlockchainSynced`. -/
def isBlockchainSynced (env : Env) (c : Call) (s : State) : Bool × State :=
  let s :=
    if c.now - s.lastProcess.getD c.now > env.maxTipAge then
      { reset c.now s with fBlockchainSynced := false }
    else s
  let s := { s with lastProcess := some c.now }
  if s.fBlockchainSynced then (true, s)
  else if c.fImporting then (false, s)
  else if !c.lockMain then (false, s)
  else
    match s.tip with
    | none => (false, s)
    | some nTime =>
        if nTime + env.maxTipAge < c.now then (false, s)
        else (true, { s with fBlockchainSynced := true })

/-- What `AddedMasternodeList` and its siblings do with the map of the items seen: whether the item
counts, and the map. -/
def countItem (known : Bool) (hash : UInt256) (seen : UInt256 → Option ℕ) :
    Bool × (UInt256 → Option ℕ) :=
  if known then
    let n := (seen hash).getD 0
    if n < syncThreshold then (true, Function.update seen hash (some (n + 1)))
    else (false, Function.update seen hash (some n))
  else (true, Function.update seen hash (some ((seen hash).getD 1)))

/-- `AddedMasternodeList`; `known` says whether the masternode manager has seen the broadcast. -/
def addedMasternodeList (known : Bool) (hash : UInt256) (now : ℤ) (s : State) : State :=
  let r := countItem known hash s.mapSeenSyncMNB
  { s.note .listItem with
    mapSeenSyncMNB := r.2
    lastMasternodeList := if r.1 then now else s.lastMasternodeList }

/-- `AddedMasternodeWinner`. -/
def addedMasternodeWinner (known : Bool) (hash : UInt256) (now : ℤ) (s : State) : State :=
  let r := countItem known hash s.mapSeenSyncMNW
  { s.note .winnerItem with
    mapSeenSyncMNW := r.2
    lastMasternodeWinner := if r.1 then now else s.lastMasternodeWinner }

/-- `AddedBudgetItem`. -/
def addedBudgetItem (known : Bool) (hash : UInt256) (now : ℤ) (s : State) : State :=
  let r := countItem known hash s.mapSeenSyncBudget
  { s.note .budgetItem with
    mapSeenSyncBudget := r.2
    lastBudgetItem := if r.1 then now else s.lastBudgetItem }

/-- `CMasternodeSync::ClearFulfilledRequest`. -/
def clearFulfilledRequest (c : Call) (s : State) : State :=
  if c.lockClear then
    { s with
      vNodes := s.vNodes.map fun n =>
        (((n.clearFulfilledRequest .getspork).clearFulfilledRequest .mnsync).clearFulfilledRequest
          .mnwsync).clearFulfilledRequest .busync
      fCleared := true }
  else { s with fCleared := false }

/-- The stage `GetNextAsset` goes on to. -/
def Asset.next : Asset → Asset
  | initial => sporks
  | failed => sporks
  | sporks => list
  | list => mnw
  | mnw => budget
  | budget => finished
  | finished => finished

/-- A stage is entered. -/
def enter (a : Asset) (now : ℤ) (s : State) : State :=
  { s with
    requestedMasternodeAssets := a
    requestedMasternodeAttempt := 0
    stay := { asset := a, began := now }
    past := s.stay :: s.past }

/-- `GetNextAsset`. -/
def getNextAsset (c : Call) (s : State) : State :=
  let s' :=
    match s.requestedMasternodeAssets with
    | .initial | .failed => clearFulfilledRequest c s
    | _ => s
  { enter s.requestedMasternodeAssets.next c.now s' with nAssetSyncStarted := c.now }

/-- The synchronisation has failed and will be tried again later. -/
def fail (c : Call) (s : State) : State :=
  { enter .failed c.now s with
    lastFailure := c.now
    nCountFailures := s.nCountFailures + 1 }

/-- `CMasternodeMan::DsegUpdate`. -/
def dsegUpdate (env : Env) (c : Call) (n : Peer) (s : State) : State :=
  let recent : Bool :=
    match s.mWeAskedForMasternodeList n.addr with
    | some askAgain => decide (c.now < askAgain)
    | none => false
  if env.network = .main ∧ !env.isLocal n.addr ∧ recent then s.note (.skipped n.id)
  else
    { s.pushMessage n .dseg with
      mWeAskedForMasternodeList :=
        Function.update s.mWeAskedForMasternodeList n.addr (some (c.now + masternodesDsegSeconds)) }

/-- One more attempt has been made. -/
def countAttempt (s : State) : State :=
  { s with requestedMasternodeAttempt := s.requestedMasternodeAttempt + 1 }

/-! ## One peer -/

/-- Data has come in, the last of it a while ago, and enough peers have been tried. -/
def quiet (c : Call) (last : ℤ) (s : State) : Bool :=
  decide (0 < last ∧ last < c.now - syncTimeout * 2 ∧ syncThreshold ≤ s.requestedMasternodeAttempt)

/-- No data has come in, and all attempts are used up or the stage has taken too long. -/
def timedOut (c : Call) (last : ℤ) (s : State) : Bool :=
  decide (last = 0 ∧ (syncThreshold * 3 ≤ s.requestedMasternodeAttempt ∨
    c.now - s.nAssetSyncStarted > syncTimeout * 5))

/-- The body of the loop in regression tests. -/
def visitRegtest (env : Env) (c : Call) (s : State) (n : Peer) : State :=
  countAttempt <|
    if s.requestedMasternodeAttempt ≤ 2 then s.pushMessage n .getsporks
    else if s.requestedMasternodeAttempt < 4 then dsegUpdate env c n s
    else if s.requestedMasternodeAttempt < 6 then
      (s.pushMessage n (.mnget c.nMnCount)).pushMessage n .mnvs
    else { s with requestedMasternodeAssets := .finished }

/-- The body of the loop in the `SPORKS` stage; `none` is `continue`. -/
def visitSporks (c : Call) (s : State) (n : Peer) : Option (Peer × State) :=
  if n.hasFulfilledRequest .getspork then none
  else
    let s' := s.pushMessage n .getsporks
    some (n.fulfilledRequest .getspork,
      countAttempt (if 2 ≤ s.requestedMasternodeAttempt then getNextAsset c s' else s'))

/-- The body of the loop in the `LIST` and `MNW` stages; `ask` sends the request. -/
def visitData (r : Request) (last : ℤ) (ask : State → State) (c : Call) (s : State) (n : Peer) :
    Option (Peer × State) :=
  if quiet c last s then some (n, getNextAsset c s)
  else if n.hasFulfilledRequest r then none
  else
    some (n.fulfilledRequest r,
      if timedOut c last s then
        if c.spork8 then fail c s else getNextAsset c s
      else if syncThreshold * 3 ≤ s.requestedMasternodeAttempt then s
      else ask s)

/-- The body of the loop in the `LIST` stage. -/
def visitList (env : Env) (c : Call) (s : State) (n : Peer) : Option (Peer × State) :=
  visitData .mnsync s.lastMasternodeList (fun s => countAttempt (dsegUpdate env c n s)) c s n

/-- The body of the loop in the `MNW` stage: without a tip nothing is sent. -/
def visitMnw (c : Call) (s : State) (n : Peer) : Option (Peer × State) :=
  visitData .mnwsync s.lastMasternodeWinner
    (fun s => if s.tip = none then s else countAttempt (s.pushMessage n (.mnget c.nMnCount))) c s n

/-- The body of the loop in the `BUDGET` stage: here the timeout comes before the mark. -/
def visitBudget (c : Call) (s : State) (n : Peer) : Option (Peer × State) :=
  if quiet c s.lastBudgetItem s then some (n, getNextAsset c s)
  else if timedOut c s.lastBudgetItem s then some (n, getNextAsset c s)
  else if n.hasFulfilledRequest .busync then none
  else
    some (n.fulfilledRequest .busync,
      if syncThreshold * 3 ≤ s.requestedMasternodeAttempt then s
      else countAttempt (s.pushMessage n .mnvs))

/-- The body of the loop over the peers. -/
def visit (env : Env) (c : Call) (s : State) (n : Peer) : Option (Peer × State) :=
  if env.network = .regtest then some (n, visitRegtest env c s n)
  else
    match s.requestedMasternodeAssets with
    | .sporks => visitSporks c s n
    | .list => if getMinMasternodePaymentsProto c ≤ n.nVersion then visitList env c s n else none
    | .mnw => if getMinMasternodePaymentsProto c ≤ n.nVersion then visitMnw c s n else none
    | .budget => if activeProtocol c ≤ n.nVersion then visitBudget c s n else none
    | _ => none

/-! ## One call -/

/-- The loop over the peers: the first that is not passed over ends it. -/
def visitNodes (env : Env) (c : Call) (s : State) : List Peer → Option (List Peer × State)
  | [] => none
  | n :: ns =>
      match visit env c s n with
      | some (n', s') => some (n' :: ns, s')
      | none => (visitNodes env c s ns).map fun r => (n :: r.1, r.2)

/-- The loop over the peers, as `Process` gets to it. -/
def processNodes (env : Env) (c : Call) (s : State) : State :=
  let s := s.note (.pass c s.vNodes)
  match visitNodes env c s s.vNodes with
  | none => s
  | some (vNodes, s') => s'.setNodes vNodes

/-- The stage has taken too long. -/
def processLate (c : Call) (s : State) : State :=
  if c.spork8 ∧ ((s.requestedMasternodeAssets = .list ∧ s.lastMasternodeList = 0) ∨
      (s.requestedMasternodeAssets = .mnw ∧ s.lastMasternodeWinner = 0)) then fail c s
  else getNextAsset c s

/-- `Process` from the test of the block chain on. -/
def processStage (env : Env) (c : Call) (s : State) : State :=
  let r := if env.network = .regtest then (true, s) else isBlockchainSynced env c s
  let s := r.2
  if !r.1 ∧ Asset.code .sporks < s.requestedMasternodeAssets.code then s
  else if Asset.code .sporks ≤ s.requestedMasternodeAssets.code ∧
      c.now - s.nAssetSyncStarted > syncTimeout * 5 then processLate c s
  else if !c.lockNodes then s
  else processNodes env c s

/-- `Process`. -/
def process (env : Env) (c : Call) (s : State) : State :=
  if s.tick % syncTimeout ≠ 0 then { s with tick := s.tick + 1 }
  else
    let s := { s with tick := s.tick + 1 }.note (.process c.spork8)
    if s.requestedMasternodeAssets = .finished then s
    else if s.requestedMasternodeAssets = .failed ∧ ¬ s.lastFailure + 1 * 60 < c.now then s
    else
      let s := if s.requestedMasternodeAssets = .failed then reset c.now s else s
      let s := if s.requestedMasternodeAssets = .initial then getNextAsset c s else s
      processStage env c s

/-- Everything that touches the state.  `AddedMasternodeList` and its siblings are called for every
item that arrives, `IsBlockchainSynced` from many places; `mWeAskedForMasternodeList` is tidied up
and cleared by the masternode manager. -/
inductive Action
  | process (c : Call)
  | isBlockchainSynced (c : Call)
  | reset (now : ℤ)
  | addedMasternodeList (known : Bool) (hash : UInt256) (now : ℤ)
  | addedMasternodeWinner (known : Bool) (hash : UInt256) (now : ℤ)
  | addedBudgetItem (known : Bool) (hash : UInt256) (now : ℤ)
  | connect (addr : ℕ)
  | version (id : ℕ) (nVersion : ℤ)
  | disconnect (id : ℕ)
  | newTip (nTime : ℤ)
  | checkAndRemove (now : ℤ)
  | clear

def step (env : Env) (s : State) : Action → State
  | .process c => MasternodeSync.process env c s
  | .isBlockchainSynced c => (MasternodeSync.isBlockchainSynced env c s).2
  | .reset now => MasternodeSync.reset now s
  | .addedMasternodeList known hash now => MasternodeSync.addedMasternodeList known hash now s
  | .addedMasternodeWinner known hash now => MasternodeSync.addedMasternodeWinner known hash now s
  | .addedBudgetItem known hash now => MasternodeSync.addedBudgetItem known hash now s
  | .connect addr =>
      { s with
        vNodes := s.vNodes ++ [{ id := s.nLastNodeId, addr := addr }]
        nLastNodeId := s.nLastNodeId + 1 }
  | .version id nVersion =>
      { s with vNodes := s.vNodes.map fun n => if n.id = id then { n with nVersion := nVersion } else n }
  | .disconnect id => { s with vNodes := s.vNodes.filter fun n => n.id ≠ id }
  | .newTip nTime => { s with tip := some nTime }
  | .checkAndRemove now =>
      { s with
        mWeAskedForMasternodeList := fun addr =>
          (s.mWeAskedForMasternodeList addr).filter fun askAgain => !decide (askAgain < now) }
  | .clear => { s with mWeAskedForMasternodeList := fun _ => none }

/-- The node starts: the block chain and `mWeAskedForMasternodeList` are what was on disk. -/
def State.start (now : ℤ) (tip : Option ℤ) (asked : ℕ → Option ℤ) : State :=
  { nAssetSyncStarted := now
    tip := tip
    mWeAskedForMasternodeList := asked
    stay := { asset := .initial, began := now } }

/-! ## What a stage owes to a peer -/

/-- The stages that ask for masternode data. -/
def Asset.isData : Asset → Bool
  | list | mnw | budget => true
  | _ => false

/-- The version a stage asks of a peer. -/
def Sufficient (a : Asset) (c : Call) (n : Peer) : Prop :=
  if a = .budget then activeProtocol c ≤ n.nVersion
  else getMinMasternodePaymentsProto c ≤ n.nVersion

/-- The peer that has its turn in a stage: it is sent the request of the stage; `DsegUpdate` can
hold the request for the list back. -/
def turnOf : Asset → Event → Option ℕ
  | .list, .pushed id .dseg => some id
  | .list, .skipped id => some id
  | .mnw, .pushed id (.mnget _) => some id
  | .budget, .pushed id .mnvs => some id
  | _, _ => none

instance (a : Asset) (c : Call) (n : Peer) : Decidable (Sufficient a c n) := by
  unfold Sufficient
  infer_instance

namespace Stay

/-- The peers that had their turn. -/
def turns (st : Stay) : List ℕ := st.events.filterMap (turnOf st.asset)

/-- How often `Process` got through to the peers. -/
def passes (st : Stay) : ℕ := st.events.countP fun e => e matches .pass _ _

/-- A peer of sufficient version was there whenever `Process` got through to the peers. -/
def Present (st : Stay) (p : ℕ) : Prop :=
  ∀ c vNodes, .pass c vNodes ∈ st.events → ∃ n ∈ vNodes, n.id = p ∧ Sufficient st.asset c n

/-- The test for `Present`. -/
def presentIn (st : Stay) (p : ℕ) : Bool :=
  st.events.all fun e =>
    match e with
    | .pass c vNodes => vNodes.any fun n => decide (n.id = p ∧ Sufficient st.asset c n)
    | _ => true

theorem present_of_presentIn {st : Stay} {p : ℕ} (h : st.presentIn p = true) : st.Present p := by
  intro c vNodes hmem
  have hpass := List.all_eq_true.1 h _ hmem
  obtain ⟨n, hn, hsuff⟩ := List.any_eq_true.1 hpass
  exact ⟨n, hn, of_decide_eq_true hsuff⟩

end Stay

/-- How many turns there are before a stage is left because data has come in: the counter of the
attempts starts at one in the `LIST` stage when the last peer asked for sporks ends the stage
before. -/
def Asset.minTurns : Asset → ℕ
  | list => 1
  | mnw => 2
  | budget => 2
  | _ => 0

/-- **What a stage owes to a peer**, once the marks of the peers have been cleared: a peer that is
there throughout has its turn, unless enough others had theirs; or the stage took too long, and
the passes through the peers were no more than the turns. -/
def LeftFairly (cleared : Bool) (left : ℤ) (st : Stay) : Prop :=
  st.asset.isData = true → cleared = true → ∀ p, st.Present p →
    p ∈ st.turns ∨ st.asset.minTurns ≤ st.turns.length ∨
      (left - st.began > syncTimeout * 5 ∧ st.passes ≤ st.turns.length)

/-! ## The invariant -/

/-- The stage a mark belongs to. -/
def Request.asset : Request → Asset
  | getspork => .sporks
  | mnsync => .list
  | mnwsync => .mnw
  | busync => .budget

/-- The stages before a stage, last first. -/
def Asset.before : Asset → List Asset
  | initial => []
  | sporks => [initial]
  | list => [sporks, initial]
  | mnw => [list, sporks, initial]
  | budget => [mnw, list, sporks, initial]
  | finished => [budget, mnw, list, sporks, initial]
  | failed => []

/-- The items a stage cannot be left without while `SPORK_8` is active. -/
def Received (a : Asset) (evs : List Event) : Prop :=
  (a ∈ [.mnw, .budget, .finished] → .listItem ∈ evs) ∧
    (a ∈ [.budget, .finished] → .winnerItem ∈ evs)

/-- What holds between any two moves of the machine, also in the middle of a pass. -/
structure Base (s : State) : Prop where
  asset : s.stay.asset = s.requestedMasternodeAssets
  began : s.requestedMasternodeAssets ≠ .failed → s.stay.began = s.nAssetSyncStarted
  path : s.requestedMasternodeAssets ≠ .failed →
    s.past.map Stay.asset = s.requestedMasternodeAssets.before
  chain : (s.stay :: s.past).IsChain fun newer older =>
    newer.asset ≠ .failed → LeftFairly s.fCleared newer.began older
  attempts : s.requestedMasternodeAssets.isData = true → s.requestedMasternodeAttempt ≤
    s.stay.turns.length + (syncThreshold - s.requestedMasternodeAssets.minTurns)
  marks : s.fCleared = true → s.requestedMasternodeAssets ≠ .initial →
    ∀ n ∈ s.vNodes, ∀ r ∈ n.vecRequestsFulfilled,
      r.asset.code ≤ s.requestedMasternodeAssets.code
  nodup : ∀ n ∈ s.vNodes, n.vecRequestsFulfilled.Nodup
  tip : s.fBlockchainSynced = true → s.tip ≠ none
  listItem : s.lastMasternodeList ≠ 0 → .listItem ∈ s.sinceReset
  winnerItem : s.lastMasternodeWinner ≠ 0 → .winnerItem ∈ s.sinceReset
  received : (∀ b, .process b ∈ s.sinceReset → b = true) →
    Received s.requestedMasternodeAssets s.sinceReset

/-- What a stage that has not been left owes to a peer. -/
def Underway (st : Stay) (vNodes : List Peer) (p : ℕ) : Prop :=
  p ∈ st.turns ∨ st.asset.minTurns ≤ st.turns.length ∨
    (st.passes ≤ st.turns.length ∧ ∀ n ∈ vNodes, n.id = p →
      ∀ r ∈ n.vecRequestsFulfilled, r.asset ≠ st.asset)

/-- The invariant of the machine. -/
structure Inv (s : State) : Prop extends Base s where
  owed : s.fCleared = true → s.stay.asset.isData = true →
    ∀ p, s.stay.Present p → Underway s.stay s.vNodes p

end MasternodeSync

end FairCoin
