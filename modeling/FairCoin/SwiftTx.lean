import FairCoin.Validation
import FairCoin.Lib.Run

/-!
# Transaction locks

The instant-send layer of `src/swifttx.cpp`: a lock request (`ix`) announces a transaction,
masternodes vote on it (`txlvote`), and a transaction with enough votes locks its inputs against
every other transaction, in the memory pool and in blocks.

* `CConsensusVote`, `CTransactionLock`, `SwiftState` — the votes, the locks and the maps.
* `processMessageSwiftTX` — the message handler, with `createNewLock`, `doConsensusVote`,
  `processConsensusVote` and `checkForConflictingLocks`.
* `cleanTransactionLocksList` — the periodic clean-up.
* `acceptToMemoryPool`, `checkLocks_eq` — the two places where a lock rejects a transaction.

What the node knows when a message arrives (its clock, its coins, its masternode list, its
memory pool) is a `SwiftEnv` of its own for every message, so nothing is assumed to stay the
same between two messages.
-/

namespace FairCoin

open Store

/-! ## Scripts a lock request may pay -/

/-- The bytes of a length, least significant first. -/
def littleEndian (bytes : List UInt8) : ℕ := bytes.foldr (fun b n => b.toNat + 256 * n) 0

/-- `CScript::GetOp` for a caller that looks at the opcode only: the opcode, which is
`OP_INVALIDOPCODE` when its operand is cut off, and what is left to read. -/
def CScript.readOpcode : CScript → UInt8 × CScript
  | [] => (0xff, [])
  | op :: pc =>
      if 0x4e < op then (op, pc)
      else
        let nLengthBytes := if op < 0x4c then 0 else if op = 0x4c then 1 else if op = 0x4d then 2 else 4
        if pc.length < nLengthBytes then (0xff, pc)
        else
          let nSize := if op < 0x4c then op.toNat else littleEndian (pc.take nLengthBytes)
          let pc := pc.drop nLengthBytes
          if pc.length < nSize then (0xff, pc) else (op, pc.drop nSize)

/-- The loop of `CScript::IsNormalPaymentScript`; every opcode takes at least one byte, so the
length of the script bounds the number of rounds. -/
def CScript.isNormalPaymentLoop : ℕ → ℕ → CScript → Bool
  | 0, _, _ => true
  | fuel + 1, i, pc =>
      if pc.isEmpty then true
      else
        let (opcode, pc) := CScript.readOpcode pc
        if i = 0 ∧ opcode ≠ 0x76 then false
        else if i = 1 ∧ opcode ≠ 0xa9 then false
        else if i = 3 ∧ opcode ≠ 0x88 then false
        else if i = 4 ∧ opcode ≠ 0xac then false
        else if i = 5 then false
        else isNormalPaymentLoop fuel (i + 1) pc

/-- `CScript::IsNormalPaymentScript`. -/
def CScript.isNormalPaymentScript (s : CScript) : Bool :=
  s.length == 25 && CScript.isNormalPaymentLoop s.length 0 s

/-! ## Votes and locks -/

/-- `SWIFTTX_SIGNATURES_REQUIRED`. -/
def swiftTxSignaturesRequired : ℤ := 6

/-- `SWIFTTX_SIGNATURES_TOTAL`. -/
def swiftTxSignaturesTotal : ℤ := 10

/-- `CConsensusVote`. -/
structure CConsensusVote where
  vinMasternode : CTxIn
  txHash : UInt256
  nBlockHeight : ℤ
  vchMasterNodeSignature : List UInt8 := []
  deriving DecidableEq, Repr

/-- `CConsensusVote::GetHash`: neither the height nor the signature is part of it. -/
def CConsensusVote.getHash (v : CConsensusVote) : UInt256 :=
  v.vinMasternode.prevout.hash + BitVec.ofNat 256 v.vinMasternode.prevout.n + v.txHash

/-- `CTransactionLock`. -/
structure CTransactionLock where
  nBlockHeight : ℤ
  txHash : UInt256
  vecConsensusVotes : List CConsensusVote := []
  nExpiration : ℤ
  nTimeout : ℤ
  deriving DecidableEq, Repr

/-- `CTransactionLock::AddSignature`. -/
def CTransactionLock.addSignature (lock : CTransactionLock) (cv : CConsensusVote) :
    CTransactionLock :=
  { lock with vecConsensusVotes := lock.vecConsensusVotes ++ [cv] }

/-- `CTransactionLock::CountSignatures`: only votes at the height of the lock count. -/
def CTransactionLock.countSignatures (lock : CTransactionLock) : ℤ :=
  if lock.nBlockHeight = 0 then -1
  else lock.vecConsensusVotes.countP fun v => v.nBlockHeight == lock.nBlockHeight

/-- The two kinds of inventory the layer relays. -/
inductive SwiftInv
  | txLockRequest (hash : UInt256)
  | txLockVote (hash : UInt256)
  deriving DecidableEq, Repr

/-- The maps of `swifttx.cpp`, and what has been relayed to the peers. -/
structure SwiftState where
  mapTxLockReq : Map UInt256 CTransaction := ∅
  mapTxLockReqRejected : Map UInt256 CTransaction := ∅
  mapTxLockVote : Map UInt256 CConsensusVote := ∅
  mapTxLocks : Map UInt256 CTransactionLock := ∅
  mapLockedInputs : Map COutPoint UInt256 := ∅
  mapUnknownVotes : Map UInt256 ℤ := ∅
  relayed : List SwiftInv := []

/-- What the layer reads of the rest of the node while it handles one message.
`acceptPolicy` is the standardness and pool-membership tests of `AcceptToMemoryPool`, which
stand before its lock scan, and `acceptInputs` all it does after the scan. -/
structure SwiftEnv where
  network : Network
  fLiteMode : Bool
  sporkSwiftTx : Bool
  blockchainSynced : Bool
  sporkMaxValue : ℤ
  getTime : ℤ
  tip : Option ℤ
  coinsHeight : UInt256 → Option ℤ
  getTransaction : UInt256 → Option CTransaction
  acceptPolicy : CTransaction → Bool
  acceptInputs : CTransaction → Bool
  getMasternodeRank : CTxIn → ℤ → ℤ
  signatureValid : CConsensusVote → Bool
  fMasterNode : Bool
  activeMasternodeVin : CTxIn
  sign : UInt256 → ℤ → Option (List UInt8)

/-- The layer is switched on: `ProcessMessageSwiftTX` gets past its first three lines. -/
def SwiftEnv.active (env : SwiftEnv) : Bool :=
  !env.fLiteMode && env.sporkSwiftTx && env.blockchainSynced

/-- The tests a vote has to pass in `ProcessConsensusVote`: its masternode is known and among the
first `SWIFTTX_SIGNATURES_TOTAL` at the height the vote names, and the signature is valid. -/
def SwiftEnv.voteValid (env : SwiftEnv) (v : CConsensusVote) : Bool :=
  let n := env.getMasternodeRank v.vinMasternode v.nBlockHeight
  n != -1 && decide (n ≤ swiftTxSignaturesTotal) && env.signatureValid v

/-! ## The memory pool -/

/-- An input of the transaction is locked for another transaction. -/
def lockConflict (mapLockedInputs : COutPoint → Option UInt256) (tx : CTransaction) : Bool :=
  tx.vin.any fun i => match mapLockedInputs i.prevout with
    | some h => h != tx.hash
    | none => false

/-- Why `AcceptToMemoryPool` refuses a transaction. -/
inductive PoolReject
  | checkTransaction (failure : Failure)
  | coinbase
  | coinstake
  | policy
  | txLockConflict
  | inputs
  deriving DecidableEq, Repr

/-- `AcceptToMemoryPool`. -/
def acceptToMemoryPool (env : SwiftEnv) (mapLockedInputs : Map COutPoint UInt256)
    (tx : CTransaction) : Except PoolReject Unit :=
  match checkTransaction env.network tx with
  | .error failure => .error (.checkTransaction failure)
  | .ok _ =>
      if tx.isCoinBase then .error .coinbase
      else if tx.isCoinStake then .error .coinstake
      else if !env.acceptPolicy tx then .error .policy
      else if lockConflict mapLockedInputs.lookup tx then .error .txLockConflict
      else if !env.acceptInputs tx then .error .inputs
      else .ok ()

/-- The reject reason of the lock scan. -/
def conflictingTxIx : Failure := .invalid 0 .invalid "conflicting-tx-ix" false

theorem checkOutputs_ne (net : Network) (tx : CTransaction) (outs : List CTxOut) : ∀ n, 
    checkOutputs net tx n outs ≠ .error conflictingTxIx := by
  induction outs with
  | nil => simp [checkOutputs]
  | cons o os ih =>
    intro n h
    simp [checkOutputs, bind_eq_error, require_eq_error, conflictingTxIx, Failure.dos] at h
    exact ih _ h.2.2.2.2

theorem checkTransaction_ne (net : Network) (tx : CTransaction) :
    checkTransaction net tx ≠ .error conflictingTxIx := by
  intro h
  simp [checkTransaction, bind_eq_error, require_eq_error, checkOutputs_ne] at h
  simp [conflictingTxIx, Failure.dos] at h
  split at h <;> simp [require_eq_error] at h

theorem forM_checkTransaction_ne (net : Network) (vtx : List CTransaction) :
    vtx.forM (checkTransaction net) ≠ .error conflictingTxIx := by
  induction vtx with
  | nil => exact fun h => by cases h
  | cons tx vtx ih =>
    intro h
    have h' : (checkTransaction net tx >>= fun _ => vtx.forM (checkTransaction net)) =
        .error conflictingTxIx := h
    rcases bind_eq_error.1 h' with h | ⟨-, -, h⟩
    · exact checkTransaction_ne net tx h
    · exact ih h

theorem checkPayee_ne (env : Env) (tree : BlockTree) (block : CBlock) :
    checkPayee env tree block ≠ .error conflictingTxIx := by
  intro h
  rw [checkPayee] at h
  split at h
  · cases h
  · split at h
    · rw [bind_eq_error] at h
      rcases h with h | ⟨ok, -, h⟩
      · rw [isBlockPayeeValid] at h
        dsimp only at h
        split at h
        · cases h
        · split at h
          · simp [conflictingTxIx] at h
          · split at h
            · split at h <;> cases h
            · split at h <;> cases h
      · simp [require_eq_error, conflictingTxIx] at h
    · cases h

/-- Only the lock scan of `CheckBlock` gives its reason. -/
theorem checkLocks_of_checkBlock {env : Env} {tree : BlockTree} {block : CBlock} {f : Bool}
    (h : checkBlock env tree block f = .error conflictingTxIx) :
    checkLocks env block = .error conflictingTxIx := by
  have hmerkle : checkMerkleRoot env block f ≠ .error conflictingTxIx := by
    cases f <;> simp [checkMerkleRoot, bind_eq_error, require_eq_error, conflictingTxIx]
  have hshape : checkStakeShape block ≠ .error conflictingTxIx := by
    rw [checkStakeShape]
    split <;> simp [bind_eq_error, require_eq_error, conflictingTxIx]
  have hreq : ∀ {b : Bool} {r : Failure}, r ≠ conflictingTxIx → require b r ≠ .error conflictingTxIx :=
    fun hr h => hr (require_eq_error.1 h).2
  simp only [checkBlock, bind_eq_error] at h
  rcases h with h | ⟨-, -, h | ⟨-, -, h | ⟨-, -, h | ⟨-, -, h | ⟨-, -, h | ⟨-, -, h | ⟨-, -, h |
    ⟨-, -, h | ⟨-, -, h | ⟨-, -, h⟩⟩⟩⟩⟩⟩⟩⟩⟩⟩
  · exact absurd h (hreq (by simp [conflictingTxIx]))
  · exact absurd h (hreq (by simp [conflictingTxIx]))
  · exact absurd h hmerkle
  · exact absurd h (hreq (by simp [conflictingTxIx, Failure.dos]))
  · exact absurd h (hreq (by simp [conflictingTxIx, Failure.dos]))
  · exact absurd h (hreq (by simp [conflictingTxIx, Failure.dos]))
  · exact absurd h hshape
  · exact h
  · exact absurd h (checkPayee_ne env tree block)
  · exact absurd h (forM_checkTransaction_ne env.network block.vtx)
  · exact absurd h (hreq (by simp [conflictingTxIx]))

/-- The lock scan of `CheckBlock` asks of every transaction but the coinbase what the scan of
`AcceptToMemoryPool` asks. -/
theorem checkLocks_eq (env : Env) (block : CBlock) :
    checkLocks env block = require (!env.swiftTxBlockFiltering ||
      block.vtx.all fun tx => tx.isCoinBase || !lockConflict env.mapLockedInputs tx)
      conflictingTxIx := by
  have htx : ∀ tx : CTransaction, (tx.vin.all fun i => match env.mapLockedInputs i.prevout with
      | some h => h == tx.hash
      | none => true) = !lockConflict env.mapLockedInputs tx := by
    intro tx
    rw [lockConflict, List.not_any_eq_all_not]
    congr 1
    funext i
    cases env.mapLockedInputs i.prevout <;> simp [bne]
  rw [checkLocks]
  congr 2
  refine congrArg (fun p => block.vtx.all p) (funext fun tx => ?_)
  exact congrArg (tx.isCoinBase || ·) (htx tx)

/-! ## Lock requests -/

/-- `IsIXTXValid`. -/
def isIXTXValid (env : SwiftEnv) (txCollateral : CTransaction) : Bool :=
  if txCollateral.vout.isEmpty then false
  else if txCollateral.nLockTime ≠ 0 then false
  else
    let nValueOut := txCollateral.vout.foldl (fun n o => wrap64 (n + o.nValue)) 0
    let nValueIn := txCollateral.vin.foldl (fun n i =>
      match (env.getTransaction i.prevout.hash).bind fun tx2 => tx2.vout[i.prevout.n]? with
      | some o => wrap64 (n + o.nValue)
      | none => n) 0
    let missingTx := txCollateral.vin.any fun i => (env.getTransaction i.prevout.hash).isNone
    if wrap64 (env.sporkMaxValue * coin) < nValueOut then false
    else if missingTx then true
    else decide (cent ≤ wrap64 (nValueIn - nValueOut))

/-- `GetInputAge`. -/
def getInputAge (env : SwiftEnv) (vin : CTxIn) : ℤ :=
  match env.coinsHeight vin.prevout.hash with
  | some nHeight => if nHeight < 0 then 0 else env.tip.getD 0 + 1 - nHeight
  | none => -1

/-- The height of `CreateNewLock`, from the age of the first input; `none` when an input is too
new.  The inputs are walked from the last to the first. -/
def newLockHeight (env : SwiftEnv) (tx : CTransaction) : Option ℤ :=
  if tx.vin.any fun i => decide (getInputAge env i < 5) then none
  else
    let nTxAge := (tx.vin.head?.map (getInputAge env)).getD 0
    some (wrap32 (env.tip.getD 0 - nTxAge + 4))

/-- A lock without votes, which expires in an hour. -/
def newLock (env : SwiftEnv) (txHash : UInt256) (nBlockHeight : ℤ) : CTransactionLock where
  nBlockHeight := nBlockHeight
  txHash := txHash
  nExpiration := wrap32 (env.getTime + 60 * 60)
  nTimeout := wrap32 (env.getTime + 60 * 5)

/-- `CreateNewLock`: the maps and the height it returns, `0` when an input is too new. -/
def createNewLock (env : SwiftEnv) (s : SwiftState) (tx : CTransaction) : SwiftState × ℤ :=
  match newLockHeight env tx with
  | none => (s, 0)
  | some nBlockHeight =>
      let lock := match s.mapTxLocks.lookup tx.hash with
        | none => newLock env tx.hash nBlockHeight
        | some lock => { lock with nBlockHeight := nBlockHeight }
      ({ s with mapTxLocks := s.mapTxLocks.insert tx.hash lock }, nBlockHeight)

/-- The vote `DoConsensusVote` casts, when the node is a masternode among the first
`SWIFTTX_SIGNATURES_TOTAL` and its signature works. -/
def ownVote (env : SwiftEnv) (tx : CTransaction) (nBlockHeight : ℤ) : Option CConsensusVote :=
  if !env.fMasterNode then none
  else
    let n := env.getMasternodeRank env.activeMasternodeVin nBlockHeight
    if n = -1 then none
    else if swiftTxSignaturesTotal < n then none
    else match env.sign tx.hash nBlockHeight with
      | none => none
      | some vchMasterNodeSignature =>
          let ctx : CConsensusVote :=
            { vinMasternode := env.activeMasternodeVin
              txHash := tx.hash
              nBlockHeight := nBlockHeight
              vchMasterNodeSignature := vchMasterNodeSignature }
          if env.signatureValid ctx then some ctx else none

/-- `DoConsensusVote`: the own vote is stored and relayed. -/
def doConsensusVote (env : SwiftEnv) (s : SwiftState) (tx : CTransaction) (nBlockHeight : ℤ) :
    SwiftState :=
  match ownVote env tx nBlockHeight with
  | none => s
  | some ctx =>
      { s with
        mapTxLockVote := s.mapTxLockVote.insert ctx.getHash ctx
        relayed := s.relayed ++ [.txLockVote ctx.getHash] }

/-- The loop that locks the inputs of a transaction; an input that is locked stays as it is. -/
def lockInputs (s : SwiftState) (txHash : UInt256) (vin : List CTxIn) : SwiftState :=
  { s with
    mapLockedInputs := vin.foldl (fun m i => insertNew m i.prevout txHash) s.mapLockedInputs }

/-- Set the expiry of a lock, if there is one. -/
def expireLock (env : SwiftEnv) (s : SwiftState) (txHash : UInt256) : SwiftState :=
  match s.mapTxLocks.lookup txHash with
  | none => s
  | some lock =>
      { s with mapTxLocks :=
          s.mapTxLocks.insert txHash { lock with nExpiration := wrap32 env.getTime } }

/-- `CheckForConflictingLocks`: the first input that is locked for another transaction makes both
locks expire. -/
def checkForConflictingLocks (env : SwiftEnv) (s : SwiftState) (tx : CTransaction) :
    SwiftState × Bool :=
  let conflict := tx.vin.findSome? fun i => (s.mapLockedInputs.lookup i.prevout).filter (· ≠ tx.hash)
  match conflict with
  | none => (s, false)
  | some other => (expireLock env (expireLock env s tx.hash) other, true)

/-- The lock of a transaction has enough votes. -/
def lockComplete (s : SwiftState) (txHash : UInt256) : Bool :=
  match s.mapTxLocks.lookup txHash with
  | none => false
  | some lock => decide (swiftTxSignaturesRequired ≤ lock.countSignatures)

/-- A lock request `AcceptToMemoryPool` has accepted. -/
def acceptRequest (env : SwiftEnv) (s : SwiftState) (tx : CTransaction) (nBlockHeight : ℤ) :
    SwiftState :=
  let s := { s with relayed := s.relayed ++ [.txLockRequest tx.hash] }
  let s := doConsensusVote env s tx nBlockHeight
  { s with mapTxLockReq := insertNew s.mapTxLockReq tx.hash tx }

/-- A lock request `AcceptToMemoryPool` has rejected: its inputs are locked all the same, and the
request counts when its lock has enough votes and no other lock stands in its way. -/
def rejectRequest (env : SwiftEnv) (s : SwiftState) (tx : CTransaction) : SwiftState :=
  let s := { s with mapTxLockReqRejected := insertNew s.mapTxLockReqRejected tx.hash tx }
  let s := lockInputs s tx.hash tx.vin
  if lockComplete s tx.hash then
    let (s, conflict) := checkForConflictingLocks env s tx
    if conflict then s
    else { s with mapTxLockReq := insertNew s.mapTxLockReq tx.hash tx }
  else s

/-- The tests of the `ix` handler before it creates a lock. -/
def requestTaken (env : SwiftEnv) (s : SwiftState) (tx : CTransaction) : Bool :=
  !(s.mapTxLockReq.lookup tx.hash).isSome && !(s.mapTxLockReqRejected.lookup tx.hash).isSome &&
    isIXTXValid env tx &&
    tx.vout.all fun o => CScript.isNormalPaymentScript o.scriptPubKey ||
      CScript.isUnspendable o.scriptPubKey

/-- The `ix` handler. -/
def processIx (env : SwiftEnv) (s : SwiftState) (tx : CTransaction) : SwiftState :=
  if !requestTaken env s tx then s
  else
    let (s, nBlockHeight) := createNewLock env s tx
    match acceptToMemoryPool env s.mapLockedInputs tx with
    | .ok _ => acceptRequest env s tx nBlockHeight
    | .error _ => rejectRequest env s tx

/-! ## Votes -/

/-- The block of `ProcessConsensusVote` for a lock with enough votes.  `mapTxLockReq[txHash]`
enters an empty transaction when the request is not known. -/
def completeLock (env : SwiftEnv) (s : SwiftState) (txHash : UInt256) : SwiftState :=
  let s := { s with mapTxLockReq := insertNew s.mapTxLockReq txHash { hash := 0, vin := [], vout := [] } }
  match s.mapTxLockReq.lookup txHash with
  | none => s
  | some tx =>
      let (s, conflict) := checkForConflictingLocks env s tx
      if conflict then s else lockInputs s txHash tx.vin

/-- `ProcessConsensusVote`. -/
def processConsensusVote (env : SwiftEnv) (s : SwiftState) (ctx : CConsensusVote) :
    SwiftState × Bool :=
  if !env.voteValid ctx then (s, false)
  else
    let lock := ((s.mapTxLocks.lookup ctx.txHash).getD (newLock env ctx.txHash 0)).addSignature ctx
    let s := { s with mapTxLocks := s.mapTxLocks.insert ctx.txHash lock }
    if lockComplete s ctx.txHash then (completeLock env s ctx.txHash, true) else (s, true)

/-- `GetAverageVoteTime`. -/
def getAverageVoteTime (mapUnknownVotes : Map UInt256 ℤ) : ℤ :=
  let total := mapUnknownVotes.entries.foldl (fun n e => wrap64 (n + e.2)) 0
  total.tdiv mapUnknownVotes.entries.length

/-- The spam protection of the `txlvote` handler, and the relay of the vote. -/
def relayVote (env : SwiftEnv) (s : SwiftState) (ctx : CConsensusVote) : SwiftState :=
  let relay (s : SwiftState) := { s with relayed := s.relayed ++ [.txLockVote ctx.getHash] }
  if (s.mapTxLockReq.lookup ctx.txHash).isSome || (s.mapTxLockReqRejected.lookup ctx.txHash).isSome
  then relay s
  else
    let voter := ctx.vinMasternode.prevout.hash
    let unknown := insertNew s.mapUnknownVotes voter (env.getTime + 60 * 10)
    let t := (unknown.lookup voter).getD 0
    if env.getTime < t ∧ 60 * 10 < t - getAverageVoteTime unknown then
      { s with mapUnknownVotes := unknown }
    else relay { s with mapUnknownVotes := unknown.insert voter (env.getTime + 60 * 10) }

/-- The `txlvote` handler: the vote is stored before it is looked at. -/
def processTxlvote (env : SwiftEnv) (s : SwiftState) (ctx : CConsensusVote) : SwiftState :=
  if (s.mapTxLockVote.lookup ctx.getHash).isSome then s
  else
    let s := { s with mapTxLockVote := s.mapTxLockVote.insert ctx.getHash ctx }
    let (s, counted) := processConsensusVote env s ctx
    if counted then relayVote env s ctx else s

/-! ## The machine -/

/-- What happens to the layer: a lock request or a vote arrives, or the clean-up runs. -/
inductive SwiftMsg
  | ix (tx : CTransaction)
  | txlvote (ctx : CConsensusVote)
  | clean
  deriving DecidableEq

/-- `ProcessMessageSwiftTX`. -/
def processMessageSwiftTX (env : SwiftEnv) (s : SwiftState) : SwiftMsg → SwiftState
  | .ix tx => if env.active then processIx env s tx else s
  | .txlvote ctx => if env.active then processTxlvote env s ctx else s
  | .clean => s

/-- One round of the loop of `CleanTransactionLocksList`. -/
def cleanLock (env : SwiftEnv) (s : SwiftState) (e : (_ : UInt256) × CTransactionLock) :
    SwiftState :=
  if e.2.nExpiration < env.getTime then
    let s := match s.mapTxLockReq.lookup e.2.txHash with
      | none => s
      | some tx =>
          { s with
            mapLockedInputs :=
              tx.vin.foldl (fun m (i : CTxIn) => m.erase i.prevout) s.mapLockedInputs
            mapTxLockReq := s.mapTxLockReq.erase e.2.txHash
            mapTxLockReqRejected := s.mapTxLockReqRejected.erase e.2.txHash
            mapTxLockVote :=
              e.2.vecConsensusVotes.foldl (fun m (v : CConsensusVote) => m.erase v.getHash)
                s.mapTxLockVote }
    { s with mapTxLocks := s.mapTxLocks.erase e.1 }
  else s

/-- `CleanTransactionLocksList`.  A round erases entries of its own lock only, so the order in
which the locks are walked does not matter. -/
def cleanTransactionLocksList (env : SwiftEnv) (s : SwiftState) : SwiftState :=
  if env.tip.isNone then s else s.mapTxLocks.entries.foldl (cleanLock env) s

/-- One step of the layer. -/
def swiftStep (s : SwiftState) : SwiftEnv × SwiftMsg → SwiftState
  | (env, .clean) => cleanTransactionLocksList env s
  | (env, msg) => processMessageSwiftTX env s msg

/-- The layer after a history of messages and clean-ups, from the start of the node. -/
def swiftRun (hist : List (SwiftEnv × SwiftMsg)) : SwiftState := hist.foldl swiftStep {}

/-! ## Reading the locks -/

/-- The votes of the lock of a transaction. -/
def SwiftState.votes (s : SwiftState) (h : UInt256) : List CConsensusVote :=
  ((s.mapTxLocks.lookup h).map CTransactionLock.vecConsensusVotes).getD []

/-- The height of the lock of a transaction, `0` when there is none. -/
def SwiftState.height (s : SwiftState) (h : UInt256) : ℤ :=
  ((s.mapTxLocks.lookup h).map CTransactionLock.nBlockHeight).getD 0

/-- The number of votes at the height of the lock. -/
def SwiftState.tally (s : SwiftState) (h : UInt256) : ℕ :=
  (s.votes h).countP fun v => v.nBlockHeight == s.height h

/-- Two states with the same locks up to their expiry. -/
structure SameVotes (s s' : SwiftState) : Prop where
  votes : s'.votes = s.votes
  height : s'.height = s.height
  txHash : ∀ h, (s'.mapTxLocks.lookup h).map CTransactionLock.txHash =
    (s.mapTxLocks.lookup h).map CTransactionLock.txHash

theorem SameVotes.refl (s : SwiftState) : SameVotes s s := ⟨rfl, rfl, fun _ => rfl⟩

theorem SameVotes.of_eq {s s' : SwiftState} (h : s'.mapTxLocks = s.mapTxLocks) : SameVotes s s' :=
  ⟨by unfold SwiftState.votes; rw [h], by unfold SwiftState.height; rw [h], fun _ => by rw [h]⟩

theorem SameVotes.trans {s s' s'' : SwiftState} (h : SameVotes s s') (h' : SameVotes s' s'') :
    SameVotes s s'' :=
  ⟨h'.votes.trans h.votes, h'.height.trans h.height, fun t => (h'.txHash t).trans (h.txHash t)⟩

theorem SameVotes.tally {s s' : SwiftState} (h : SameVotes s s') : s'.tally = s.tally := by
  funext t
  rw [SwiftState.tally, SwiftState.tally, h.votes, h.height]

theorem votes_of_lookup {s : SwiftState} {h : UInt256} {lock : CTransactionLock}
    (hl : s.mapTxLocks.lookup h = some lock) : s.votes h = lock.vecConsensusVotes := by
  rw [SwiftState.votes, hl]
  rfl

theorem height_of_lookup {s : SwiftState} {h : UInt256} {lock : CTransactionLock}
    (hl : s.mapTxLocks.lookup h = some lock) : s.height h = lock.nBlockHeight := by
  rw [SwiftState.height, hl]
  rfl

theorem countSignatures_of_lookup {s : SwiftState} {h : UInt256} {lock : CTransactionLock}
    (hl : s.mapTxLocks.lookup h = some lock) :
    lock.countSignatures = if s.height h = 0 then -1 else (s.tally h : ℤ) := by
  rw [CTransactionLock.countSignatures, SwiftState.tally, height_of_lookup hl, votes_of_lookup hl]

theorem lockComplete_iff {s : SwiftState} {h : UInt256} :
    lockComplete s h = true ↔ s.height h ≠ 0 ∧ 6 ≤ s.tally h := by
  rw [lockComplete]
  cases hl : s.mapTxLocks.lookup h with
  | none => simp [SwiftState.height, hl]
  | some lock =>
    simp only [countSignatures_of_lookup hl, swiftTxSignaturesRequired, decide_eq_true_eq]
    split
    · next h0 => simp [h0]
    · next h0 => simp [h0]

theorem SameVotes.lockComplete {s s' : SwiftState} (h : SameVotes s s') (t : UInt256) :
    lockComplete s' t = FairCoin.lockComplete s t := by
  rw [Bool.eq_iff_iff, lockComplete_iff, lockComplete_iff, h.height, h.tally]

/-! ## What the operations change -/

theorem sameVotes_expireLock (env : SwiftEnv) (s : SwiftState) (h : UInt256) :
    SameVotes s (expireLock env s h) := by
  rw [expireLock]
  split
  · exact .refl s
  · next lock hl =>
    have hlook : ∀ t, (s.mapTxLocks.insert h { lock with nExpiration := wrap32 env.getTime }).lookup t
        = if t = h then some { lock with nExpiration := wrap32 env.getTime }
          else s.mapTxLocks.lookup t := fun t => lookup_insert_eq _ _ _ _
    refine ⟨funext fun t => ?_, funext fun t => ?_, fun t => ?_⟩
    · rw [SwiftState.votes, SwiftState.votes, hlook]
      split
      · next ht => rw [ht, hl]; rfl
      · rfl
    · rw [SwiftState.height, SwiftState.height, hlook]
      split
      · next ht => rw [ht, hl]; rfl
      · rfl
    · rw [hlook]
      split
      · next ht => rw [ht, hl]; rfl
      · rfl

/-- `expireLock` touches the locks only. -/
theorem expireLock_eq (env : SwiftEnv) (s : SwiftState) (h : UInt256) :
    ∃ locks, expireLock env s h = { s with mapTxLocks := locks } := by
  rw [expireLock]
  split
  · exact ⟨s.mapTxLocks, rfl⟩
  · exact ⟨_, rfl⟩

/-- `CheckForConflictingLocks` changes the expiry of locks only. -/
theorem checkForConflictingLocks_spec (env : SwiftEnv) (s : SwiftState) (tx : CTransaction) :
    ∃ locks b, checkForConflictingLocks env s tx = ({ s with mapTxLocks := locks }, b) ∧
      SameVotes s { s with mapTxLocks := locks } := by
  rw [checkForConflictingLocks]
  split
  · exact ⟨s.mapTxLocks, false, rfl, .refl s⟩
  · next other _ =>
    obtain ⟨l₁, h₁⟩ := expireLock_eq env s tx.hash
    obtain ⟨l₂, h₂⟩ := expireLock_eq env (expireLock env s tx.hash) other
    rw [h₁] at h₂
    refine ⟨l₂, true, by rw [h₁, h₂], ?_⟩
    have := (sameVotes_expireLock env s tx.hash).trans
      (sameVotes_expireLock env (expireLock env s tx.hash) other)
    rwa [h₁, h₂] at this

theorem lookup_lockInputs (s : SwiftState) (h : UInt256) (vin : List CTxIn) (o : COutPoint) :
    (lockInputs s h vin).mapLockedInputs.lookup o =
      (s.mapLockedInputs.lookup o).or
        (if o ∈ vin.map CTxIn.prevout then some h else none) := by
  rw [lockInputs]
  generalize s.mapLockedInputs = m
  induction vin generalizing m with
  | nil => simp
  | cons i vin ih =>
    rw [List.foldl_cons]
    refine (ih (insertNew m i.prevout h)).trans ?_
    rw [lookup_insertNew]
    by_cases ho : o = i.prevout
    · subst ho
      cases m.lookup i.prevout <;> simp
    · rw [if_neg ho]
      simp [ho]

/-- An input is locked for a transaction because it was, or because it is one of those the loop
locks. -/
theorem lookup_lockInputs_cases {s : SwiftState} {h t : UInt256} {vin : List CTxIn} {o : COutPoint}
    (hl : (lockInputs s h vin).mapLockedInputs.lookup o = some t) :
    s.mapLockedInputs.lookup o = some t ∨
      (s.mapLockedInputs.lookup o = none ∧ o ∈ vin.map CTxIn.prevout ∧ t = h) := by
  rw [lookup_lockInputs] at hl
  cases hs : s.mapLockedInputs.lookup o with
  | some x =>
    rw [hs] at hl
    exact .inl hl
  | none =>
    rw [hs, Option.none_or] at hl
    split at hl
    · next ho => exact .inr ⟨rfl, ho, (Option.some.inj hl).symm⟩
    · exact absurd hl (by simp)

/-- What a vote that passes the tests of `ProcessConsensusVote` changes. -/
structure VoteCounted (s : SwiftState) (ctx : CConsensusVote) (s' : SwiftState) : Prop where
  vote : s'.mapTxLockVote = s.mapTxLockVote.insert ctx.getHash ctx
  votes : ∀ h, s'.votes h = if h = ctx.txHash then s.votes h ++ [ctx] else s.votes h
  height : s'.height = s.height
  txHash : ∀ h, (s'.mapTxLocks.lookup h).map CTransactionLock.txHash =
    if h = ctx.txHash then some (((s.mapTxLocks.lookup h).map CTransactionLock.txHash).getD h)
    else (s.mapTxLocks.lookup h).map CTransactionLock.txHash
  req : ∀ h tx, s'.mapTxLockReq.lookup h = some tx →
    s.mapTxLockReq.lookup h = some tx ∨ (s.mapTxLockReq.lookup h = none ∧ tx.vin = [])
  req_kept : ∀ h tx, s.mapTxLockReq.lookup h = some tx → s'.mapTxLockReq.lookup h = some tx
  rejected : s'.mapTxLockReqRejected = s.mapTxLockReqRejected
  locked : ∀ o t, s'.mapLockedInputs.lookup o = some t → s.mapLockedInputs.lookup o = some t ∨
    (lockComplete s' t = true ∧ ∃ tx, s'.mapTxLockReq.lookup t = some tx ∧
      o ∈ tx.vin.map CTxIn.prevout)

theorem relayVote_eq (env : SwiftEnv) (s : SwiftState) (ctx : CConsensusVote) :
    ∃ unknown relayed, relayVote env s ctx =
      { s with mapUnknownVotes := unknown, relayed := relayed } := by
  rw [relayVote]
  dsimp only
  split
  · exact ⟨s.mapUnknownVotes, _, rfl⟩
  · split
    · exact ⟨_, s.relayed, rfl⟩
    · exact ⟨_, _, rfl⟩

/-- A vote is added to its lock; nothing else about the locks changes. -/
theorem voteCounted_add (env : SwiftEnv) (s : SwiftState) (ctx : CConsensusVote) :
    VoteCounted s ctx
      { s with
        mapTxLockVote := s.mapTxLockVote.insert ctx.getHash ctx
        mapTxLocks := s.mapTxLocks.insert ctx.txHash
          (((s.mapTxLocks.lookup ctx.txHash).getD (newLock env ctx.txHash 0)).addSignature ctx) } where
  vote := rfl
  votes h := by
    rw [SwiftState.votes, SwiftState.votes]
    simp only [lookup_insert_eq]
    split
    · next hh =>
      rw [hh]
      cases s.mapTxLocks.lookup ctx.txHash <;> rfl
    · rfl
  height := by
    funext h
    rw [SwiftState.height, SwiftState.height]
    simp only [lookup_insert_eq]
    split
    · next hh =>
      rw [hh]
      cases s.mapTxLocks.lookup ctx.txHash <;> rfl
    · rfl
  txHash h := by
    simp only [lookup_insert_eq]
    split
    · next hh =>
      rw [hh]
      cases s.mapTxLocks.lookup ctx.txHash <;> rfl
    · rfl
  req h tx htx := .inl htx
  req_kept h tx htx := htx
  rejected := rfl
  locked o t ht := .inl ht

/-- Completing a lock keeps the votes and adds locked inputs of its stored request. -/
theorem voteCounted_completeLock {env : SwiftEnv} {s s' : SwiftState} {ctx : CConsensusVote}
    (hv : VoteCounted s ctx s') (hc : lockComplete s' ctx.txHash = true) :
    VoteCounted s ctx (completeLock env s' ctx.txHash) := by
  rw [completeLock]
  set empty : CTransaction := { hash := 0, vin := [], vout := [] } with hempty
  have hcases : ∀ h tx, (insertNew s'.mapTxLockReq ctx.txHash empty).lookup h = some tx →
      s.mapTxLockReq.lookup h = some tx ∨ (s.mapTxLockReq.lookup h = none ∧ tx.vin = []) := by
    intro h tx htx
    rcases lookup_insertNew_cases htx with hr | ⟨hr, rfl, rfl⟩
    · exact hv.req _ _ hr
    · refine .inr ⟨?_, rfl⟩
      cases hn : s.mapTxLockReq.lookup ctx.txHash with
      | none => rfl
      | some y => exact absurd (hv.req_kept _ _ hn) (by rw [hr]; simp)
  have hkept : ∀ h tx, s'.mapTxLockReq.lookup h = some tx →
      (insertNew s'.mapTxLockReq ctx.txHash empty).lookup h = some tx :=
    fun h tx htx => lookup_insertNew_of_lookup empty htx
  -- the state after `mapTxLockReq[txHash]`, which has the same locks
  have hsame : SameVotes s' { s' with mapTxLockReq := insertNew s'.mapTxLockReq ctx.txHash empty } :=
    .of_eq rfl
  dsimp only
  cases htx : (insertNew s'.mapTxLockReq ctx.txHash empty).lookup ctx.txHash with
  | none => exact absurd (isSome_lookup_insertNew s'.mapTxLockReq ctx.txHash empty) (by simp [htx])
  | some tx =>
    obtain ⟨locks, b, heq, hsame'⟩ := checkForConflictingLocks_spec env
      { s' with mapTxLockReq := insertNew s'.mapTxLockReq ctx.txHash empty } tx
    have hs := hsame.trans hsame'
    simp only [heq]
    have hlocked : ∀ o t, s'.mapLockedInputs.lookup o = some t → s.mapLockedInputs.lookup o = some t ∨
        (lockComplete { s' with
            mapTxLockReq := insertNew s'.mapTxLockReq ctx.txHash empty, mapTxLocks := locks } t = true ∧
          ∃ x, (insertNew s'.mapTxLockReq ctx.txHash empty).lookup t = some x ∧
            o ∈ x.vin.map CTxIn.prevout) := by
      intro o t ho
      rcases hv.locked o t ho with h | ⟨h₁, x, hx, hox⟩
      · exact .inl h
      · exact .inr ⟨(hs.lockComplete t).trans h₁, x, hkept t x hx, hox⟩
    split
    · exact ⟨hv.vote, fun h => (congrFun hs.votes h).trans (hv.votes h), hs.height.trans hv.height,
        fun h => (hs.txHash h).trans (hv.txHash h), hcases,
        fun h tx htx => hkept h tx (hv.req_kept h tx htx), hv.rejected, hlocked⟩
    · refine ⟨hv.vote, fun h => (congrFun hs.votes h).trans (hv.votes h), hs.height.trans hv.height,
        fun h => (hs.txHash h).trans (hv.txHash h), hcases,
        fun h tx htx => hkept h tx (hv.req_kept h tx htx), hv.rejected, fun o t ho => ?_⟩
      rcases lookup_lockInputs_cases ho with h | ⟨-, hin, rfl⟩
      · exact hlocked o t h
      · exact .inr ⟨(hs.lockComplete _).trans hc, tx, htx, hin⟩

/-- **The `txlvote` handler.**  A vote whose hash is stored is dropped; a new one is stored, and
counted when it is valid. -/
theorem processTxlvote_cases (env : SwiftEnv) (s : SwiftState) (ctx : CConsensusVote) :
    ((s.mapTxLockVote.lookup ctx.getHash).isSome ∧ processTxlvote env s ctx = s) ∨
    (s.mapTxLockVote.lookup ctx.getHash = none ∧ env.voteValid ctx = false ∧
      processTxlvote env s ctx =
        { s with mapTxLockVote := s.mapTxLockVote.insert ctx.getHash ctx }) ∨
    (s.mapTxLockVote.lookup ctx.getHash = none ∧ env.voteValid ctx = true ∧
      VoteCounted s ctx (processTxlvote env s ctx)) := by
  rw [processTxlvote]
  by_cases hseen : (s.mapTxLockVote.lookup ctx.getHash).isSome
  · exact .inl ⟨hseen, by rw [if_pos hseen]⟩
  have hnone : s.mapTxLockVote.lookup ctx.getHash = none := by simpa using hseen
  rw [if_neg hseen]
  dsimp only [processConsensusVote]
  cases hvalid : env.voteValid ctx with
  | false => exact .inr (.inl ⟨hnone, rfl, rfl⟩)
  | true =>
    refine .inr (.inr ⟨hnone, rfl, ?_⟩)
    simp only [Bool.not_true, Bool.false_eq_true, if_false]
    have hadd := voteCounted_add env s ctx
    have hrelay : ∀ {t : SwiftState}, VoteCounted s ctx t → VoteCounted s ctx (relayVote env t ctx) := by
      intro t ht
      obtain ⟨unknown, relayed, heq⟩ := relayVote_eq env t ctx
      rw [heq]
      exact ⟨ht.vote, ht.votes, ht.height, ht.txHash, ht.req, ht.req_kept, ht.rejected, ht.locked⟩
    by_cases hc : lockComplete { s with
        mapTxLockVote := s.mapTxLockVote.insert ctx.getHash ctx
        mapTxLocks := s.mapTxLocks.insert ctx.txHash
          (((s.mapTxLocks.lookup ctx.txHash).getD (newLock env ctx.txHash 0)).addSignature ctx) }
        ctx.txHash = true
    · simp only [hc, if_true]
      exact hrelay (voteCounted_completeLock hadd hc)
    · simp only [hc]
      exact hrelay hadd

/-- The request is taken up and `AcceptToMemoryPool` refuses its transaction. -/
def requestRejected (env : SwiftEnv) (s : SwiftState) (tx : CTransaction) : Bool :=
  requestTaken env s tx && match acceptToMemoryPool env s.mapLockedInputs tx with
    | .ok _ => false
    | .error _ => true

/-- The vote the node itself casts on a request. -/
def requestVote (env : SwiftEnv) (s : SwiftState) (tx : CTransaction) : Option CConsensusVote :=
  if requestTaken env s tx && !requestRejected env s tx then
    ownVote env tx ((newLockHeight env tx).getD 0)
  else none

theorem ownVote_eq_some {env : SwiftEnv} {tx : CTransaction} {nBlockHeight : ℤ}
    {v : CConsensusVote} (h : ownVote env tx nBlockHeight = some v) :
    v.txHash = tx.hash ∧ v.nBlockHeight = nBlockHeight := by
  rw [ownVote] at h
  dsimp only at h
  split at h
  · exact absurd h (by simp)
  split at h
  · exact absurd h (by simp)
  split at h
  · exact absurd h (by simp)
  split at h
  · exact absurd h (by simp)
  split at h
  · rw [← Option.some.inj h]
    exact ⟨rfl, rfl⟩
  · exact absurd h (by simp)

/-- What a lock request that is taken up changes. -/
structure RequestStep (env : SwiftEnv) (s : SwiftState) (tx : CTransaction) (s' : SwiftState) :
    Prop where
  votes : s'.votes = s.votes
  height : ∀ h, s'.height h =
    if h = tx.hash then (newLockHeight env tx).getD (s.height h) else s.height h
  txHash : ∀ h, (s'.mapTxLocks.lookup h).map CTransactionLock.txHash =
      (s.mapTxLocks.lookup h).map CTransactionLock.txHash ∨
    (h = tx.hash ∧ (s'.mapTxLocks.lookup h).map CTransactionLock.txHash = some tx.hash)
  vote : s'.mapTxLockVote = match requestVote env s tx with
    | none => s.mapTxLockVote
    | some v => s.mapTxLockVote.insert v.getHash v
  known : (s'.mapTxLockReq.lookup tx.hash).isSome ∨ (s'.mapTxLockReqRejected.lookup tx.hash).isSome
  req : ∀ h x, s'.mapTxLockReq.lookup h = some x →
    s.mapTxLockReq.lookup h = some x ∨ (h = tx.hash ∧ x = tx)
  req_kept : ∀ h x, s.mapTxLockReq.lookup h = some x → s'.mapTxLockReq.lookup h = some x
  rejected : ∀ h x, s'.mapTxLockReqRejected.lookup h = some x →
    s.mapTxLockReqRejected.lookup h = some x ∨ (h = tx.hash ∧ x = tx)
  rejected_kept : ∀ h x, s.mapTxLockReqRejected.lookup h = some x →
    s'.mapTxLockReqRejected.lookup h = some x
  locked : ∀ o t, s'.mapLockedInputs.lookup o = some t → s.mapLockedInputs.lookup o = some t ∨
    (s.mapLockedInputs.lookup o = none ∧ o ∈ tx.vin.map CTxIn.prevout ∧ t = tx.hash ∧
      requestRejected env s tx = true ∧ s'.mapTxLockReqRejected.lookup tx.hash = some tx)

/-- `CreateNewLock` sets the height of the lock of the transaction. -/
theorem createNewLock_spec (env : SwiftEnv) (s : SwiftState) (tx : CTransaction) :
    ∃ locks, createNewLock env s tx =
        ({ s with mapTxLocks := locks }, (newLockHeight env tx).getD 0) ∧
      (SwiftState.votes { s with mapTxLocks := locks } = s.votes) ∧
      (∀ h, SwiftState.height { s with mapTxLocks := locks } h =
        if h = tx.hash then (newLockHeight env tx).getD (s.height h) else s.height h) ∧
      ∀ h, (locks.lookup h).map CTransactionLock.txHash =
          (s.mapTxLocks.lookup h).map CTransactionLock.txHash ∨
        (h = tx.hash ∧ (locks.lookup h).map CTransactionLock.txHash = some tx.hash) := by
  rw [createNewLock]
  cases hh : newLockHeight env tx with
  | none => exact ⟨s.mapTxLocks, rfl, rfl, fun h => (ite_self _).symm, fun h => .inl rfl⟩
  | some nBlockHeight =>
    refine ⟨_, rfl, funext fun h => ?_, fun h => ?_, fun h => ?_⟩
    · rw [SwiftState.votes, SwiftState.votes]
      simp only [lookup_insert_eq]
      split
      · next ht =>
        rw [ht]
        cases s.mapTxLocks.lookup tx.hash <;> rfl
      · rfl
    · rw [SwiftState.height]
      simp only [lookup_insert_eq]
      split
      · cases s.mapTxLocks.lookup tx.hash <;> rfl
      · rfl
    · simp only [lookup_insert_eq]
      split
      · next ht =>
        rw [ht]
        cases s.mapTxLocks.lookup tx.hash with
        | none => exact .inr ⟨rfl, rfl⟩
        | some lock => exact .inl rfl
      · exact .inl rfl

theorem requestStep_acceptRequest {env : SwiftEnv} {s : SwiftState} {tx : CTransaction}
    {locks : Map UInt256 CTransactionLock} (htaken : requestTaken env s tx = true)
    (hpool : requestRejected env s tx = false)
    (hvotes : SwiftState.votes { s with mapTxLocks := locks } = s.votes)
    (hheight : ∀ h, SwiftState.height { s with mapTxLocks := locks } h =
      if h = tx.hash then (newLockHeight env tx).getD (s.height h) else s.height h)
    (hhash : ∀ h, (locks.lookup h).map CTransactionLock.txHash =
        (s.mapTxLocks.lookup h).map CTransactionLock.txHash ∨
      (h = tx.hash ∧ (locks.lookup h).map CTransactionLock.txHash = some tx.hash)) :
    RequestStep env s tx (acceptRequest env { s with mapTxLocks := locks } tx
      ((newLockHeight env tx).getD 0)) := by
  have hown : requestVote env s tx = ownVote env tx ((newLockHeight env tx).getD 0) := by
    rw [requestVote, htaken, hpool]
    rfl
  obtain ⟨vote, relayed, heq, hvote⟩ : ∃ vote relayed, acceptRequest env { s with mapTxLocks := locks } tx
        ((newLockHeight env tx).getD 0) =
      { s with
        mapTxLocks := locks, mapTxLockVote := vote, relayed := relayed
        mapTxLockReq := insertNew s.mapTxLockReq tx.hash tx } ∧
      vote = match requestVote env s tx with
        | none => s.mapTxLockVote
        | some v => s.mapTxLockVote.insert v.getHash v := by
    rw [hown]
    dsimp only [acceptRequest, doConsensusVote]
    cases ownVote env tx ((newLockHeight env tx).getD 0) with
    | none => exact ⟨_, _, rfl, rfl⟩
    | some v => exact ⟨_, _, rfl, rfl⟩
  rw [heq]
  exact ⟨hvotes, hheight, hhash, hvote, .inl (isSome_lookup_insertNew s.mapTxLockReq tx.hash tx),
    fun h x hx => (lookup_insertNew_cases hx).imp_right And.right,
    fun h x hx => lookup_insertNew_of_lookup tx hx,
    fun h x hx => .inl hx, fun h x hx => hx, fun o t ho => .inl ho⟩

theorem requestStep_rejectRequest {env : SwiftEnv} {s : SwiftState} {tx : CTransaction}
    {locks : Map UInt256 CTransactionLock} (htaken : requestTaken env s tx = true)
    (hpool : requestRejected env s tx = true)
    (hvotes : SwiftState.votes { s with mapTxLocks := locks } = s.votes)
    (hheight : ∀ h, SwiftState.height { s with mapTxLocks := locks } h =
      if h = tx.hash then (newLockHeight env tx).getD (s.height h) else s.height h)
    (hhash : ∀ h, (locks.lookup h).map CTransactionLock.txHash =
        (s.mapTxLocks.lookup h).map CTransactionLock.txHash ∨
      (h = tx.hash ∧ (locks.lookup h).map CTransactionLock.txHash = some tx.hash)) :
    RequestStep env s tx (rejectRequest env { s with mapTxLocks := locks } tx) := by
  have hvote : s.mapTxLockVote = match requestVote env s tx with
      | none => s.mapTxLockVote
      | some v => s.mapTxLockVote.insert v.getHash v := by
    rw [requestVote, htaken, hpool]
    rfl
  have hnone : s.mapTxLockReqRejected.lookup tx.hash = none := by
    simp only [requestTaken, Bool.and_eq_true, Bool.not_eq_true', Option.isSome_eq_false_iff,
      Option.isNone_iff_eq_none] at htaken
    exact htaken.1.1.2
  have hstored : (insertNew s.mapTxLockReqRejected tx.hash tx).lookup tx.hash = some tx := by
    rw [lookup_insertNew, if_pos rfl, hnone]
    rfl
  -- the state after the inputs are locked
  have hstep : RequestStep env s tx (lockInputs { s with
      mapTxLocks := locks
      mapTxLockReqRejected := insertNew s.mapTxLockReqRejected tx.hash tx } tx.hash tx.vin) :=
    ⟨hvotes, hheight, hhash, hvote,
      .inr (isSome_lookup_insertNew s.mapTxLockReqRejected tx.hash tx),
      fun h x hx => .inl hx, fun h x hx => hx,
      fun h x hx => (lookup_insertNew_cases hx).imp_right And.right,
      fun h x hx => lookup_insertNew_of_lookup tx hx,
      fun o t ho => (lookup_lockInputs_cases ho).imp_right
        fun ⟨hn, hin, ht⟩ => ⟨hn, hin, ht, hpool, hstored⟩⟩
  rw [rejectRequest]
  dsimp only
  split
  · obtain ⟨locks', b, heq, hsame⟩ := checkForConflictingLocks_spec env (lockInputs { s with
      mapTxLocks := locks
      mapTxLockReqRejected := insertNew s.mapTxLockReqRejected tx.hash tx } tx.hash tx.vin) tx
    simp only [heq]
    have hhash' := fun h => (hsame.txHash h).symm ▸ hstep.txHash h
    split
    · exact ⟨hsame.votes.trans hstep.votes, fun h => (congrFun hsame.height h).trans (hstep.height h),
        hhash', hstep.vote, hstep.known, hstep.req, hstep.req_kept, hstep.rejected,
        hstep.rejected_kept, hstep.locked⟩
    · exact ⟨hsame.votes.trans hstep.votes, fun h => (congrFun hsame.height h).trans (hstep.height h),
        hhash', hstep.vote, .inl (isSome_lookup_insertNew s.mapTxLockReq tx.hash tx),
        fun h x hx => (lookup_insertNew_cases hx).imp_right And.right,
        fun h x hx => lookup_insertNew_of_lookup tx hx, hstep.rejected, hstep.rejected_kept,
        hstep.locked⟩
  · exact hstep

/-- **The `ix` handler.**  A request that is not taken up changes nothing. -/
theorem processIx_cases (env : SwiftEnv) (s : SwiftState) (tx : CTransaction) :
    (requestTaken env s tx = false ∧ processIx env s tx = s) ∨
    (requestTaken env s tx = true ∧ RequestStep env s tx (processIx env s tx)) := by
  rw [processIx]
  cases htaken : requestTaken env s tx with
  | false => exact .inl ⟨rfl, rfl⟩
  | true =>
    obtain ⟨locks, heq, hvotes, hheight, hhash⟩ := createNewLock_spec env s tx
    refine .inr ⟨rfl, ?_⟩
    simp only [Bool.not_true, Bool.false_eq_true, if_false, heq]
    split
    · next u hok =>
      refine requestStep_acceptRequest htaken ?_ hvotes hheight hhash
      rw [requestRejected, htaken, hok]
      rfl
    · next e herr =>
      refine requestStep_rejectRequest htaken ?_ hvotes hheight hhash
      rw [requestRejected, htaken, herr]
      rfl

end FairCoin
