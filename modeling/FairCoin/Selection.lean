import Mathlib
import FairCoin.Ancestors
import FairCoin.Lib.Run

/-!
# Choosing the active chain

`FindMostWorkChain`, `ActivateBestChainStep`, `ActivateBestChain`, `InvalidateBlock`,
`ReconsiderBlock`, `AcceptBlock` of `src/main.cpp` and `CChain::SetTip`, `CChain::FindFork` of
`src/chain.cpp`, on the block index and the structures kept beside it.

* `SelectState` — the index, the active chain, the best block of the coins view,
  `setBlockIndexCandidates` and `mapBlocksUnlinked`.
* `SelectEnv` — what the headers say and what `ConnectBlock` and `DisconnectBlock` answer, call by
  call.
* `activateBestChain` — the loop over most-work chains; `fuel` bounds its rounds and those of
  `FindMostWorkChain`.
* `TreeOp`, `treeStep` — a step of the node; `Run.run (treeStep env)` is a run.

The set of candidates is a list without repetitions, and its order is that of the comparator.
A function that returns false without a system error leaves the state in `Stop.fails`; a system
error shuts the node down.
-/

namespace FairCoin

open Store

/-! ## State and environment -/

/-- What a check of a block answers; a system error is `abort`. -/
inductive Verdict where
  | ok
  | invalid (corruptionPossible : Bool)
  | error
  | abort
  deriving DecidableEq, Repr

/-- The headers by hash, the addresses of the entries, and the answers of the block checks:
`connectBlock n` is that of the `n`-th call. -/
structure SelectEnv where
  hashGenesisBlock : UInt256
  hashPrevBlock : UInt256 → UInt256
  getBlockProof : UInt256 → ℕ
  addr : UInt256 → ℕ
  addr_injective : Function.Injective addr
  connectBlock : ℕ → UInt256 → Verdict
  disconnectBlock : ℕ → UInt256 → Verdict
  flushStateToDisk : ℕ → Bool

/-- The block tree with the best block of the coins view and the structures that choose the
active chain; `nConnects` and `nDisconnects` count the calls so far. -/
structure SelectState extends BlockTree where
  coinsBest : UInt256 := 0
  setBlockIndexCandidates : List UInt256 := []
  mapBlocksUnlinked : List (UInt256 × UInt256) := []
  nBlockSequenceId : ℕ := 1
  nConnects : ℕ := 0
  nDisconnects : ℕ := 0

/-- Why a function did not return true. -/
inductive Stop where
  | fails (s : SelectState)
  | abort
  | crash (assertion : String)
  | outOfFuel

namespace SelectState

/-- Change an entry of the index. -/
def modify (s : SelectState) (hash : UInt256) (f : CBlockIndex → CBlockIndex) : SelectState :=
  { s with mapBlockIndex := s.mapBlockIndex.insert hash (f (s.index hash)) }

/-- `chainActive.Tip()`. -/
def tipHash (s : SelectState) : Option UInt256 := s.chainActive.getLast?

/-- `CChain::Contains`. -/
def contains (s : SelectState) (hash : UInt256) : Bool :=
  decide (0 ≤ (s.index hash).nHeight) && (s.chainActive[s.height hash]? == some hash)

/-- A set of hashes is a list, whose membership is decided by the equality of hashes. -/
local instance candidate_lawfulBEq : LawfulBEq UInt256 := inferInstance

/-- `setBlockIndexCandidates.insert`. -/
def insertCandidate (s : SelectState) (hash : UInt256) : SelectState :=
  if hash ∈ s.setBlockIndexCandidates then s
  else { s with setBlockIndexCandidates := s.setBlockIndexCandidates ++ [hash] }

/-- `setBlockIndexCandidates.erase`. -/
def eraseCandidate (s : SelectState) (hash : UInt256) : SelectState :=
  { s with setBlockIndexCandidates := s.setBlockIndexCandidates.filter (· ≠ hash) }

/-- `CBlockIndexWorkComparator`: most work, then earliest received, then by address. -/
def less (env : SelectEnv) (s : SelectState) (a b : UInt256) : Bool :=
  let pa := s.index a
  let pb := s.index b
  if pb.nChainWork < pa.nChainWork then false
  else if pa.nChainWork < pb.nChainWork then true
  else if pa.nSequenceId < pb.nSequenceId then false
  else if pb.nSequenceId < pa.nSequenceId then true
  else if env.addr a < env.addr b then false
  else if env.addr b < env.addr a then true
  else false

/-- `*setBlockIndexCandidates.rbegin()`. -/
def best (env : SelectEnv) (s : SelectState) : Option UInt256 :=
  s.setBlockIndexCandidates.foldl
    (fun m c => match m with
      | none => some c
      | some b => if s.less env b c then some c else some b) none

end SelectState

/-- `nStatus |= BLOCK_FAILED_VALID`. -/
def CBlockIndex.markFailedValid (p : CBlockIndex) : CBlockIndex :=
  { p with nStatus := { p.nStatus with failedValid := true } }

/-- `nStatus |= BLOCK_FAILED_CHILD`. -/
def CBlockIndex.markFailedChild (p : CBlockIndex) : CBlockIndex :=
  { p with nStatus := { p.nStatus with failedChild := true } }

/-- `nStatus &= ~BLOCK_FAILED_MASK`. -/
def CBlockIndex.clearFailed (p : CBlockIndex) : CBlockIndex :=
  { p with nStatus := { p.nStatus with failedValid := false, failedChild := false } }

/-- What `ReceivedBlockTransactions` writes first: the block has its data. -/
def CBlockIndex.receive (p : CBlockIndex) (nTx : ℕ) : CBlockIndex :=
  ({ p with
    nTx := nTx
    nChainTx := 0
    nStatus := { p.nStatus with haveData := true } } : CBlockIndex).raiseValidity
      blockValidTransactions

/-- The count of transactions up to a block, and its place in the order of arrival. -/
def CBlockIndex.number (p : CBlockIndex) (nChainTxPrev nSequenceId : ℕ) : CBlockIndex :=
  { p with nChainTx := (nChainTxPrev + p.nTx) % 2 ^ 32, nSequenceId := nSequenceId }

namespace SelectState

/-! ## The active chain -/

/-- `CChain::SetTip`: the chain is resized, and entries are written from the tip down to the
first that is there already. -/
def setTip (s : SelectState) : Option UInt256 → SelectState
  | none => { s with chainActive := [] }
  | some pindex =>
      let fresh := (s.path pindex).takeWhile fun p => s.chainActive[s.height p]? ≠ some p
      { s with
        chainActive := s.chainActive.take (s.height pindex + 1 - fresh.length) ++ fresh.reverse }

/-- `CChain::FindFork`. -/
def findFork (s : SelectState) (pindex : UInt256) : Option UInt256 :=
  let nHeight : ℤ := (s.chainActive.length : ℤ) - 1
  let pindex :=
    if nHeight < (s.index pindex).nHeight then s.getAncestor pindex nHeight else some pindex
  pindex.bind fun p => (s.path p).find? s.contains

/-- What `ConnectBlock` sets in the entry: the undo position, and the validity of the scripts.
Genesis is left as it is. -/
def markConnected (env : SelectEnv) (hash : UInt256) (p : CBlockIndex) : CBlockIndex :=
  if hash = env.hashGenesisBlock then p
  else ({ p with nStatus := { p.nStatus with haveUndo := true } } : CBlockIndex).raiseValidity
    blockValidScripts

/-- `ConnectTip`, with `InvalidBlockFound`; false for a block that is invalid. -/
def connectTip (env : SelectEnv) (pindexNew : UInt256) (s : SelectState) :
    Except Stop (Bool × SelectState) :=
  if (s.index pindexNew).pprev ≠ s.tipHash then
    .error (.crash "pindexNew->pprev == chainActive.Tip()")
  else
    let s₁ := { s with nConnects := s.nConnects + 1 }
    match env.connectBlock s.nConnects pindexNew with
    | .ok =>
        if (s.index pindexNew).pprev.getD 0 ≠ s.coinsBest then
          .error (.crash "hashPrevBlock == view.GetBestBlock()")
        else
          .ok (true, ({ s₁.modify pindexNew (markConnected env pindexNew) with
            coinsBest := pindexNew } : SelectState).setTip (some pindexNew))
    | .invalid true => .ok (false, s₁)
    | .invalid false =>
        .ok (false, (s₁.modify pindexNew .markFailedValid).eraseCandidate pindexNew)
    | .error => .error (.fails s₁)
    | .abort => .error .abort

/-- `DisconnectTip`.  A block without undo data, such as genesis, cannot be disconnected. -/
def disconnectTip (env : SelectEnv) (s : SelectState) : Except Stop SelectState :=
  match s.tipHash with
  | none => .error (.crash "pindexDelete")
  | some pindexDelete =>
      if pindexDelete ≠ s.coinsBest then
        .error (.crash "pindex->GetBlockHash() == view.GetBestBlock()")
      else if !(s.index pindexDelete).nStatus.haveUndo then .error (.fails s)
      else
        let s₁ := { s with nDisconnects := s.nDisconnects + 1 }
        match env.disconnectBlock s.nDisconnects pindexDelete with
        | .ok =>
            .ok (({ s₁ with
              coinsBest := (s.index pindexDelete).pprev.getD 0 } : SelectState).setTip
                (s.index pindexDelete).pprev)
        | .invalid _ => .error (.fails s₁)
        | .error => .error (.fails s₁)
        | .abort => .error .abort

/-! ## The most-work chain -/

/-- The walk of `FindMostWorkChain` from a candidate towards the active chain: the blocks above
the first that cannot be used, and that block. -/
def scan (s : SelectState) :
    List UInt256 → List UInt256 → Except Stop (Option (List UInt256 × UInt256))
  | _, [] => .ok none
  | above, pindexTest :: rest =>
      let p := s.index pindexTest
      if p.nChainTx = 0 ∧ p.nHeight ≠ 0 then
        .error (.crash "pindexTest->nChainTx || pindexTest->nHeight == 0")
      else if p.nStatus.failed || !p.nStatus.haveData then .ok (some (above, pindexTest))
      else s.scan (above ++ [pindexTest]) rest

/-- A candidate chain that cannot be used: the blocks above the failed one are marked, or are
queued again if it lacks data. -/
def dropChain (s : SelectState) (above : List UInt256) (pindexTest : UInt256) : SelectState :=
  let fFailedChain := (s.index pindexTest).nStatus.failed
  let s₁ := above.foldl
    (fun s pindexFailed =>
      if fFailedChain then s.modify pindexFailed .markFailedChild
      else { s with mapBlocksUnlinked :=
        s.mapBlocksUnlinked ++ [((s.index pindexFailed).pprev.getD 0, pindexFailed)] }) s
  (above ++ [pindexTest]).foldl eraseCandidate s₁

/-- `FindMostWorkChain`. -/
def findMostWorkChain (env : SelectEnv) :
    ℕ → SelectState → Except Stop (Option UInt256 × SelectState)
  | 0, _ => .error .outOfFuel
  | n + 1, s =>
      match s.best env with
      | none => .ok (none, s)
      | some pindexNew =>
          match s.scan [] ((s.path pindexNew).takeWhile fun p => !s.contains p) with
          | .error e => .error e
          | .ok none => .ok (some pindexNew, s)
          | .ok (some (above, pindexTest)) => findMostWorkChain env n (s.dropChain above pindexTest)

/-- `PruneBlockIndexCandidates`. -/
def pruneBlockIndexCandidates (env : SelectEnv) (s : SelectState) : Except Stop SelectState :=
  match s.tipHash with
  | none => .error (.crash "chainActive.Tip()")
  | some tip =>
      let kept := s.setBlockIndexCandidates.filter fun c => !s.less env c tip
      if kept = [] then .error (.crash "!setBlockIndexCandidates.empty()")
      else .ok { s with setBlockIndexCandidates := kept }

/-- `ActivateBestChainStep` disconnects down to the fork. -/
def disconnectTo (env : SelectEnv) (pindexFork : Option UInt256) :
    ℕ → SelectState → Except Stop SelectState
  | 0, s => .ok s
  | n + 1, s =>
      if s.tipHash = none ∨ s.tipHash = pindexFork then .ok s
      else
        match s.disconnectTip env with
        | .error e => .error e
        | .ok s => disconnectTo env pindexFork n s

/-- `ActivateBestChainStep` connects the blocks of `vpindexToConnect`, the lowest first.  It stops
at an invalid block, and when the tip has more work than `nChainWork`, that of the old tip. -/
def connectBlocks (env : SelectEnv) (nChainWork : Option ℕ) :
    List UInt256 → SelectState → Except Stop (Bool × SelectState)
  | [], s => .ok (true, s)
  | pindexConnect :: rest, s =>
      match s.connectTip env pindexConnect with
      | .error e => .error e
      | .ok (false, s) => .ok (false, s)
      | .ok (true, s) =>
          match s.pruneBlockIndexCandidates env with
          | .error e => .error e
          | .ok s =>
              if nChainWork.all fun w => decide (w < (s.index pindexConnect).nChainWork) then
                .ok (false, s)
              else connectBlocks env nChainWork rest s

/-- `ActivateBestChainStep` works towards the most-work block, 32 blocks at a time. -/
def connectTowards (env : SelectEnv) (nChainWork : Option ℕ) (pindexMostWork : UInt256) :
    ℕ → ℤ → SelectState → Except Stop SelectState
  | 0, _, s => .ok s
  | n + 1, nHeight, s =>
      if nHeight = (s.index pindexMostWork).nHeight then .ok s
      else
        let nTargetHeight := min (nHeight + 32) (s.index pindexMostWork).nHeight
        let vpindexToConnect :=
          match s.getAncestor pindexMostWork nTargetHeight with
          | none => []
          | some pindexIter =>
              (s.path pindexIter).takeWhile fun p => (s.index p).nHeight ≠ nHeight
        match connectBlocks env nChainWork vpindexToConnect.reverse s with
        | .error e => .error e
        | .ok (false, s) => .ok s
        | .ok (true, s) => connectTowards env nChainWork pindexMostWork n nTargetHeight s

/-- `ActivateBestChainStep`. -/
def activateBestChainStep (env : SelectEnv) (pindexMostWork : UInt256) (s : SelectState) :
    Except Stop SelectState :=
  let nChainWork := s.tipHash.map fun tip => (s.index tip).nChainWork
  let pindexFork := s.findFork pindexMostWork
  match disconnectTo env pindexFork s.chainActive.length s with
  | .error e => .error e
  | .ok s =>
      let nHeight : ℤ := match pindexFork with
        | some fork => (s.index fork).nHeight
        | none => -1
      connectTowards env nChainWork pindexMostWork (s.height pindexMostWork + 1) nHeight s

/-- `ActivateBestChain`. -/
def activateBestChain (env : SelectEnv) : ℕ → SelectState → Except Stop SelectState
  | 0, _ => .error .outOfFuel
  | n + 1, s =>
      match findMostWorkChain env n s with
      | .error e => .error e
      | .ok (none, s) => .ok s
      | .ok (some pindexMostWork, s) =>
          if s.tipHash = some pindexMostWork then .ok s
          else
            match s.activateBestChainStep env pindexMostWork with
            | .error e => .error e
            | .ok s =>
                if s.tipHash = some pindexMostWork then
                  if env.flushStateToDisk s.nConnects then .ok s else .error .abort
                else activateBestChain env n s

/-! ## Marking blocks by hand -/

/-- `InvalidateBlock` disconnects the blocks above the marked one, and marks them. -/
def disconnectAbove (env : SelectEnv) (pindex : UInt256) :
    ℕ → SelectState → Except Stop SelectState
  | 0, s => .ok s
  | n + 1, s =>
      if s.contains pindex then
        match s.tipHash with
        | none => .ok s
        | some pindexWalk =>
            match ((s.modify pindexWalk .markFailedChild).eraseCandidate pindexWalk).disconnectTip
                env with
            | .error e => .error e
            | .ok s => disconnectAbove env pindex n s
      else .ok s

/-- `InvalidateBlock` adds a block that is valid and as good as the new tip. -/
def addCandidate (env : SelectEnv) (tip : UInt256) (s : SelectState) (hash : UInt256) :
    SelectState :=
  if (s.index hash).isValid blockValidTransactions && (s.index hash).nChainTx ≠ 0 &&
      !s.less env hash tip then s.insertCandidate hash
  else s

/-- `InvalidateBlock` goes over the whole index for candidates. -/
def addCandidates (env : SelectEnv) (s : SelectState) : SelectState :=
  match s.tipHash with
  | none => s
  | some tip => s.mapBlockIndex.keys.foldl (addCandidate env tip) s

/-- `InvalidateBlock`. -/
def invalidateBlock (env : SelectEnv) (pindex : UInt256) (s : SelectState) :
    Except Stop SelectState :=
  match disconnectAbove env pindex s.chainActive.length
      ((s.modify pindex .markFailedValid).eraseCandidate pindex) with
  | .error e => .error e
  | .ok s => .ok (s.addCandidates env)

/-- `ReconsiderBlock` clears the flags of a descendant, and makes it a candidate if it is better
than the tip. -/
def reconsiderEntry (env : SelectEnv) (pindex : UInt256) (nHeight : ℤ) (s : SelectState)
    (hash : UInt256) : SelectState :=
  if !(s.index hash).isValid blockValidTransactions &&
      s.getAncestor hash nHeight == some pindex then
    let s₁ := s.modify hash .clearFailed
    if (s₁.index hash).isValid blockValidTransactions && (s₁.index hash).nChainTx ≠ 0 &&
        s₁.tipHash.any fun tip => s₁.less env tip hash then s₁.insertCandidate hash
    else s₁
  else s

/-- `ReconsiderBlock` clears the flags of an ancestor. -/
def clearEntry (s : SelectState) (hash : UInt256) : SelectState :=
  if (s.index hash).nStatus.failed then s.modify hash .clearFailed else s

/-- `ReconsiderBlock`. -/
def reconsiderBlock (env : SelectEnv) (pindex : UInt256) (s : SelectState) : SelectState :=
  let s₁ := s.mapBlockIndex.keys.foldl (reconsiderEntry env pindex (s.index pindex).nHeight) s
  (s₁.path pindex).foldl clearEntry s₁

/-! ## The arrival of blocks -/

/-- `AddToBlockIndex` for a header that is not known yet. -/
def addToBlockIndex (env : SelectEnv) (hash : UInt256) (s : SelectState) : SelectState :=
  let hashPrev := env.hashPrevBlock hash
  let base : CBlockIndex := { phashBlock := some hash, nSequenceId := 0 }
  let pindexNew : CBlockIndex :=
    match s.mapBlockIndex.lookup hashPrev with
    | some prev =>
        { base with
          pprev := some hashPrev
          nHeight := prev.nHeight + 1
          pskip := s.getAncestor hashPrev (getSkipHeight (prev.nHeight + 1).toNat)
          nChainWork := (prev.nChainWork + env.getBlockProof hash) % 2 ^ 256 }
    | none => { base with nChainWork := env.getBlockProof hash % 2 ^ 256 }
  { s with
    mapBlockIndex := s.mapBlockIndex.insert hash (pindexNew.raiseValidity blockValidTree) }

/-- `pindex->pprev ? pindex->pprev->nChainTx : 0`. -/
def nChainTxPrev (s : SelectState) (pindex : UInt256) : ℕ :=
  match (s.index pindex).pprev with
  | some prev => (s.index prev).nChainTx
  | none => 0

/-- A block all of whose ancestors have their data gets its count and its sequence number. -/
def numberBlock (s : SelectState) (pindex : UInt256) : SelectState :=
  { s.modify pindex fun p => p.number (s.nChainTxPrev pindex) s.nBlockSequenceId with
    nBlockSequenceId := (s.nBlockSequenceId + 1) % 2 ^ 32 }

/-- A block of the queue of `ReceivedBlockTransactions`. -/
def linkBlock (env : SelectEnv) (pindex : UInt256) (s : SelectState) : SelectState :=
  let s₁ := s.numberBlock pindex
  if s₁.tipHash.all fun tip => !s₁.less env pindex tip then s₁.insertCandidate pindex else s₁

/-- The queue of `ReceivedBlockTransactions`.  A round takes one block off it and moves the
blocks that wait for this one from `mapBlocksUnlinked` to it. -/
def linkBlocks (env : SelectEnv) : ℕ → List UInt256 → SelectState → SelectState
  | 0, _, s => s
  | _ + 1, [], s => s
  | n + 1, pindex :: queue, s =>
      let s₁ := s.linkBlock env pindex
      let range := s₁.mapBlocksUnlinked.filter (·.1 = pindex)
      linkBlocks env n (queue ++ range.map Prod.snd)
        { s₁ with mapBlocksUnlinked := s₁.mapBlocksUnlinked.filter (·.1 ≠ pindex) }

/-- `ReceivedBlockTransactions`. -/
def receivedBlockTransactions (env : SelectEnv) (hash : UInt256) (nTx : ℕ) (s : SelectState) :
    SelectState :=
  let s₁ := s.modify hash fun p => p.receive nTx
  match (s₁.index hash).pprev with
  | none => linkBlocks env (s₁.mapBlocksUnlinked.length + 1) [hash] s₁
  | some prev =>
      if (s₁.index prev).nChainTx ≠ 0 then
        linkBlocks env (s₁.mapBlocksUnlinked.length + 1) [hash] s₁
      else if (s₁.index prev).isValid blockValidTree then
        { s₁ with mapBlocksUnlinked := s₁.mapBlocksUnlinked ++ [(prev, hash)] }
      else s₁

end SelectState

/-- A block that arrives: its hash, `vtx.size()`, and what the checks answer for it. -/
structure Arrival where
  hash : UInt256
  nTx : ℕ := 1
  checkWork : Bool := true
  checkBlockHeader : Bool := true
  contextualCheckBlockHeader : Bool := true
  verdict : Verdict := .ok
  stored : Bool := true

/-- `CheckBlock` and `ContextualCheckBlock`: a block with no transactions, or with more than fit
in a block, is refused. -/
def Arrival.checkBlock (a : Arrival) : Verdict :=
  match a.verdict with
  | .ok => if a.nTx = 0 ∨ maxBlockSize < a.nTx then .invalid false else .ok
  | v => v

namespace SelectState

/-- A known parent that is not marked. -/
def hasGoodParent (env : SelectEnv) (s : SelectState) (hash : UInt256) : Bool :=
  hash == env.hashGenesisBlock ||
    (s.mapBlockIndex.lookup (env.hashPrevBlock hash)).any fun p => !p.nStatus.failed

/-- `AcceptBlockHeader`. -/
def acceptBlockHeader (env : SelectEnv) (a : Arrival) (s : SelectState) :
    Except Stop SelectState :=
  match s.mapBlockIndex.lookup a.hash with
  | some p => if p.nStatus.failed then .error (.fails s) else .ok s
  | none =>
      if a.checkBlockHeader && s.hasGoodParent env a.hash && a.contextualCheckBlockHeader then
        .ok (s.addToBlockIndex env a.hash)
      else .error (.fails s)

/-- `AcceptBlock`. -/
def acceptBlock (env : SelectEnv) (a : Arrival) (s : SelectState) : Except Stop SelectState :=
  if !s.hasGoodParent env a.hash then .error (.fails s)
  else if a.hash ≠ env.hashGenesisBlock ∧ !a.checkWork then .error (.fails s)
  else
    match s.acceptBlockHeader env a with
    | .error e => .error e
    | .ok s =>
        if (s.index a.hash).nStatus.haveData then .ok s
        else
          match a.checkBlock with
          | .invalid false => .error (.fails (s.modify a.hash .markFailedValid))
          | .invalid true => .error (.fails s)
          | .error => .error (.fails s)
          | .abort => .error .abort
          | .ok =>
              if a.stored then .ok (s.receivedBlockTransactions env a.hash a.nTx)
              else .error (.fails s)

/-- The state `InitBlockIndex` leaves: genesis is in the index, with its data, and connected. -/
def initBlockIndex (env : SelectEnv) : SelectState :=
  { (({} : SelectState).addToBlockIndex env env.hashGenesisBlock).receivedBlockTransactions env
      env.hashGenesisBlock 1 with
    chainActive := [env.hashGenesisBlock]
    coinsBest := env.hashGenesisBlock }

end SelectState

/-! ## Runs -/

/-- What happens to the block tree: a block or a header arrives, the best chain is activated, a
block is marked invalid or reconsidered by hand, or the tip is disconnected (as
`DisconnectBlocksAndReprocess` does). -/
inductive TreeOp where
  | acceptBlock (a : Arrival)
  | acceptBlockHeader (a : Arrival)
  | activateBestChain (fuel : ℕ)
  | invalidateBlock (hash : UInt256)
  | reconsiderBlock (hash : UInt256)
  | disconnectTip

/-- The function an operation calls; a hash that is not in the index is refused. -/
def treeCall (env : SelectEnv) (s : SelectState) : TreeOp → Except Stop SelectState
  | .acceptBlock a => s.acceptBlock env a
  | .acceptBlockHeader a => s.acceptBlockHeader env a
  | .activateBestChain fuel => s.activateBestChain env fuel
  | .invalidateBlock hash =>
      if hash ∈ s.mapBlockIndex then s.invalidateBlock env hash else .error (.fails s)
  | .reconsiderBlock hash =>
      if hash ∈ s.mapBlockIndex then .ok (s.reconsiderBlock env hash) else .error (.fails s)
  | .disconnectTip => s.disconnectTip env

/-- One step: the node goes on after a call that returned false. -/
def treeStep (env : SelectEnv) (s : SelectState) (op : TreeOp) : Except Stop SelectState :=
  match treeCall env s op with
  | .error (.fails s) => .ok s
  | r => r

end FairCoin
