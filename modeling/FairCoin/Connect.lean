import FairCoin.Validation

/-!
# Connecting and disconnecting blocks

`ConnectBlock` and `DisconnectBlock` of `src/main.cpp`, with all they read and write: the
coins view, the index entry of the block, the block tree database, the undo files.

* `Node` — what a node keeps outside the coins view.
* `connectTx`, `connectTxs` — the transaction loop of `ConnectBlock`, with its four
  accumulators, the undo data and the batches for the indexes.
* `connectBlock`, `disconnectBlock` — the functions.  They run in `EStateM`, so what was
  written before a failure stays written.
* `connectBlock_ok`, `disconnectBlock_ok` — what success means.

Log lines, timing, the wallet callbacks and the size of the cache are not modelled.
-/

namespace FairCoin

open Store

/-! ## The node -/

/-- What `ConnectBlock` and `DisconnectBlock` use besides the coins view. -/
structure Node where
  tree : BlockTree := {}
  blocktree : CBlockTreeDB := {}
  blockFiles : CDiskBlockPos → Option CBlock := fun _ => none
  undoFiles : CDiskBlockPos → Option (UInt256 × CBlockUndo) := fun _ => none
  nUndoSize : ℤ → ℕ := fun _ => 0

/-- `ReadBlockFromDisk`. -/
def Node.readBlockFromDisk (env : Env) (node : Node) (pindex : CBlockIndex) : Option CBlock :=
  match pindex.getBlockPos.bind node.blockFiles with
  | none => none
  | some block =>
      let hash := env.blockHash block.toCBlockHeader
      if block.isProofOfWork && !env.checkProofOfWork hash block.nBits then none
      else if hash = pindex.getBlockHash then some block
      else none

/-- `CBlockUndo::ReadFromDisk`: the checksum covers the hash of the parent block. -/
def Node.readUndoFromDisk (node : Node) (pos : CDiskBlockPos) (hashBlock : UInt256) :
    Option CBlockUndo :=
  match node.undoFiles pos with
  | none => none
  | some (h, undo) => if h = hashBlock then some undo else none

/-- `CBlockIndex::IsSuperMajority`, with `nToCheck` blocks left to look at. -/
def isSuperMajority (map : Map UInt256 CBlockIndex) (minVersion : ℤ) (nRequired : ℕ) :
    ℕ → ℕ → Option UInt256 → Bool
  | 0, nFound, _ => decide (nRequired ≤ nFound)
  | _ + 1, nFound, none => decide (nRequired ≤ nFound)
  | nToCheck + 1, nFound, some hash =>
      if nRequired ≤ nFound then true
      else
        match map.lookup hash with
        | none => false
        | some pstart =>
            isSuperMajority map minVersion nRequired nToCheck
              (if minVersion ≤ pstart.nVersion then nFound + 1 else nFound) pstart.pprev

/-! ## Index batches -/

/-- The three vectors of index entries that a block leads to. -/
structure IndexBatch where
  addressIndex : List (CAddressIndexKey × ℤ) := []
  addressUnspentIndex : List (CAddressUnspentKey × CAddressUnspentValue) := []
  spentIndex : List (CSpentIndexKey × CSpentIndexValue) := []

namespace IndexBatch

/-- One batch after the other. -/
def append (a b : IndexBatch) : IndexBatch where
  addressIndex := a.addressIndex ++ b.addressIndex
  addressUnspentIndex := a.addressUnspentIndex ++ b.addressUnspentIndex
  spentIndex := a.spentIndex ++ b.spentIndex

instance : Append IndexBatch := ⟨append⟩

/-- Batches in order. -/
def join (l : List IndexBatch) : IndexBatch where
  addressIndex := l.flatMap IndexBatch.addressIndex
  addressUnspentIndex := l.flatMap IndexBatch.addressUnspentIndex
  spentIndex := l.flatMap IndexBatch.spentIndex

end IndexBatch

section Entries

variable (env : Env) (nHeight : ℤ) (i : ℕ) (tx : CTransaction)

/-- The address of an output, when the address index is on and recognises it. -/
def indexedAddress (out : CTxOut) : Option (ℕ × UInt160) :=
  if env.fAddressIndex then getAddressIndexKey env.hash160 out.scriptPubKey else none

/-- The entries for spending `prevout` with input `j`. -/
def spendEntry (j : ℕ) (o : COutPoint) (prevout : CTxOut) : IndexBatch where
  addressIndex := match indexedAddress env prevout with
    | some (t, h) => [(⟨t, h, nHeight, i, tx.hash, j, true⟩, -prevout.nValue)]
    | none => []
  addressUnspentIndex := match indexedAddress env prevout with
    | some (t, h) => [(⟨t, h, o.hash, o.n⟩, CAddressUnspentValue.null)]
    | none => []
  spentIndex :=
    if env.fSpentIndex then
      let a := (getAddressIndexKey env.hash160 prevout.scriptPubKey).getD (0, 0)
      [(⟨o.hash, o.n⟩, ⟨tx.hash, j, nHeight, prevout.nValue, a.1, a.2⟩)]
    else []

/-- The entries for receiving output `k`. -/
def receiveEntry (k : ℕ) (out : CTxOut) : IndexBatch where
  addressIndex := match indexedAddress env out with
    | some (t, h) => [(⟨t, h, nHeight, i, tx.hash, k, false⟩, out.nValue)]
    | none => []
  addressUnspentIndex := match indexedAddress env out with
    | some (t, h) => [(⟨t, h, tx.hash, k⟩, ⟨out.nValue, out.scriptPubKey, nHeight⟩)]
    | none => []

/-- The entries that undo receiving output `k`. -/
def unreceiveEntry (k : ℕ) (out : CTxOut) : IndexBatch where
  addressIndex := match indexedAddress env out with
    | some (t, h) => [(⟨t, h, nHeight, i, tx.hash, k, false⟩, out.nValue)]
    | none => []
  addressUnspentIndex := match indexedAddress env out with
    | some (t, h) => [(⟨t, h, tx.hash, k⟩, CAddressUnspentValue.null)]
    | none => []

/-- The entries that undo spending with input `j`: the height of the restored unspent entry
is the one of the undo record. -/
def unspendEntry (j : ℕ) (o : COutPoint) (undo : CTxInUndo) : IndexBatch where
  addressIndex := match indexedAddress env undo.txout with
    | some (t, h) => [(⟨t, h, nHeight, i, tx.hash, j, true⟩, -undo.txout.nValue)]
    | none => []
  addressUnspentIndex := match indexedAddress env undo.txout with
    | some (t, h) =>
        [(⟨t, h, o.hash, o.n⟩, ⟨undo.txout.nValue, undo.txout.scriptPubKey, undo.nHeight⟩)]
    | none => []
  spentIndex := if env.fSpentIndex then [(⟨o.hash, o.n⟩, CSpentIndexValue.null)] else []

/-- The entries `ConnectBlock` makes for the inputs of a transaction. -/
def spendEntries (v : CoinsView) : IndexBatch :=
  .join (tx.vin.zipIdx.map fun p => match v.outputAt p.1.prevout with
    | some prevout => spendEntry env nHeight i tx p.2 p.1.prevout prevout
    | none => {})

/-- The entries `ConnectBlock` makes for the outputs of a transaction. -/
def receiveEntries : IndexBatch :=
  .join (tx.vout.zipIdx.map fun p => receiveEntry env nHeight i tx p.2 p.1)

/-- The entries `DisconnectBlock` makes for a transaction, outputs and inputs both from the
last to the first. -/
def disconnectEntries (undo : CTxUndo) : IndexBatch :=
  .join (tx.vout.zipIdx.reverse.map fun p => unreceiveEntry env nHeight i tx p.2 p.1) ++
    if 0 < i then
      .join ((tx.vin.zip undo.vprevout).zipIdx.reverse.map fun p =>
        unspendEntry env nHeight i tx p.2 p.1.1.prevout p.1.2)
    else {}

end Entries

/-! ## The transaction loop -/

/-- The locals of `ConnectBlock` that its loop changes. -/
structure ConnectState where
  view : CoinsView
  nFees : ℤ := 0
  nValueIn : ℤ := 0
  nValueOut : ℤ := 0
  nSigOps : ℕ := 0
  pos : CDiskTxPos
  vPos : List (UInt256 × CDiskTxPos) := []
  vtxundo : List CTxUndo := []
  batch : IndexBatch := {}
  scriptsOk : Bool := true

/-- What stays fixed during the loop. -/
structure ConnectParams where
  nHeight : ℤ
  fScriptChecks : Bool
  fStrictPayToScriptHash : Bool
  flags : ScriptFlags
  nSpendHeight : Option ℤ

/-- The fees so far with those of one more transaction; a coinstake has none. -/
def addFees (s : ConnectState) (tx : CTransaction) : Except Failure ℤ :=
  if tx.isCoinStake then .ok s.nFees
  else
    match tx.getValueOut with
    | none => .error (.crash "CTransaction::GetValueOut() : value out of range")
    | some nValueOut => .ok (wrap64 (s.nFees + wrap64 (getValueIn s.view tx - nValueOut)))

/-- The part of the loop body for a transaction that is not a coinbase. -/
def connectSpends (env : Env) (p : ConnectParams) (i : ℕ) (tx : CTransaction) (s : ConnectState) :
    Except Failure ConnectState := do
  require (haveInputs s.view tx) (.dos "bad-txns-inputs-missingorspent")
  let batch := s.batch ++ spendEntries env p.nHeight i tx s.view
  let nSigOps := s.nSigOps + if p.fStrictPayToScriptHash then
    env.getP2SHSigOpCount tx (tx.vin.filterMap fun i => s.view.outputAt i.prevout) else 0
  require (decide (nSigOps ≤ maxBlockSigOps)) (.dos "bad-blk-sigops")
  let nFees ← addFees s tx
  match p.nSpendHeight with
  | none => .error (.crash "mapBlockIndex.find(inputs.GetBestBlock())")
  | some nSpendHeight => do
      let scripts ← checkInputs env s.view tx nSpendHeight p.fScriptChecks p.flags
      .ok { s with
        nFees := nFees
        nValueIn := wrap64 (s.nValueIn + getValueIn s.view tx)
        nSigOps := nSigOps
        batch := batch
        scriptsOk := s.scriptsOk && scripts }

/-- The inputs of a transaction; a coinbase has none. -/
def connectInputs (env : Env) (p : ConnectParams) (i : ℕ) (tx : CTransaction) (s : ConnectState) :
    Except Failure ConnectState :=
  if tx.isCoinBase then .ok s else connectSpends env p i tx s

/-- The end of the loop body: outputs, coins, undo data and position. -/
def connectOutputs (env : Env) (p : ConnectParams) (i : ℕ) (tx : CTransaction) (s : ConnectState) :
    Except Failure ConnectState :=
  match tx.getValueOut with
  | none => .error (.crash "CTransaction::GetValueOut() : value out of range")
  | some nValueOut =>
      match updateCoins tx s.view p.nHeight with
      | none => .error (.crash "UpdateCoins")
      | some (undo, view) =>
          .ok { s with
            view := view
            nValueOut := wrap64 (s.nValueOut + nValueOut)
            batch := s.batch ++ receiveEntries env p.nHeight i tx
            vtxundo := if 0 < i then s.vtxundo ++ [undo] else s.vtxundo
            vPos := s.vPos ++ [(tx.hash, s.pos)]
            pos := { s.pos with nTxOffset := s.pos.nTxOffset + tx.serializeSize } }

/-- The loop body of `ConnectBlock`. -/
def connectTx (env : Env) (p : ConnectParams) (i : ℕ) (tx : CTransaction) (s : ConnectState) :
    Except Failure ConnectState := do
  let nSigOps := s.nSigOps + env.getLegacySigOpCount tx
  require (decide (nSigOps ≤ maxBlockSigOps)) (.dos "bad-blk-sigops")
  let s ← connectInputs env p i tx { s with nSigOps := nSigOps }
  connectOutputs env p i tx s

/-- The loop of `ConnectBlock`. -/
def connectTxs (env : Env) (p : ConnectParams) :
    ℕ → List CTransaction → ConnectState → Except Failure ConnectState
  | _, [], s => .ok s
  | i, tx :: txs, s => do
      let s ← connectTx env p i tx s
      connectTxs env p (i + 1) txs s

/-! ## `ConnectBlock` -/

/-- The two blocks BIP30 is not enforced for. -/
def bip30Exempt (pindex : CBlockIndex) : Bool :=
  pindex.phashBlock.isSome &&
    ((pindex.nHeight == 91842 && pindex.getBlockHash ==
        0x00000000000a4d0a398161ffc163c503763b1f4360639393e0e4c8e300e0caec#256) ||
      (pindex.nHeight == 91880 && pindex.getBlockHash ==
        0x00000000000743f190a18c5577a3c2d2a1f610ae9601ac046a38084ccb7cd721#256))

/-- The flags and heights the loop works with. -/
def connectParams (env : Env) (tree : BlockTree) (block : CBlock) (pindex : CBlockIndex)
    (view : CoinsView) : ConnectParams :=
  let fStrictPayToScriptHash := decide (1333238400 ≤ pindex.nTime)
  { nHeight := pindex.nHeight
    fScriptChecks := decide (env.network.totalBlocksEstimate ≤ pindex.nHeight)
    fStrictPayToScriptHash := fStrictPayToScriptHash
    flags :=
      { p2sh := fStrictPayToScriptHash
        dersig := decide (3 ≤ block.nVersion) &&
          isSuperMajority tree.mapBlockIndex 3 env.network.enforceBlockUpgradeMajority
            env.network.toCheckBlockUpgradeMajority 0 pindex.pprev }
    nSpendHeight := (tree.mapBlockIndex.lookup view.hashBlock).map fun p => p.nHeight + 1 }

/-- `ConnectBlock` from after the genesis case to the end of its loop. -/
def connectChecks (env : Env) (tree : BlockTree) (block : CBlock) (pindex : CBlockIndex)
    (view : CoinsView) : Except Failure ConnectState := do
  require (!(decide (pindex.nHeight ≤ env.network.lastPowBlock) && block.isProofOfStake))
    (.dos "PoS-early")
  require (!(decide (env.network.lastPowBlock < pindex.nHeight) && block.isProofOfWork))
    (.dos "PoW-ended")
  require (bip30Exempt pindex || block.vtx.all fun tx => (view.coins tx.hash).isPruned)
    (.dos "bad-txns-BIP30")
  connectTxs env (connectParams env tree block pindex view) 0 block.vtx
    { view := view, pos := ⟨pindex.getBlockPos, getSizeOfCompactSize block.vtx.length⟩ }

/-- The money supply and the mint that `ConnectBlock` records. -/
def CBlockIndex.withSupply (pindex : CBlockIndex) (tree : BlockTree) (s : ConnectState) :
    CBlockIndex :=
  let nMoneySupplyPrev :=
    ((pindex.pprev.bind tree.mapBlockIndex.lookup).map CBlockIndex.nMoneySupply).getD 0
  let nMoneySupply := wrap64 (wrap64 (nMoneySupplyPrev + s.nValueOut) - s.nValueIn)
  { pindex with
    nMoneySupply := nMoneySupply
    nMint := wrap64 (nMoneySupply - nMoneySupplyPrev) }

/-- The mint that `ConnectBlock` allows. -/
def expectedMint (block : CBlock) (nHeight nFees : ℤ) : ℤ :=
  if block.isProofOfWork then wrap64 (getBlockValue nHeight + nFees) else getBlockValue nHeight

/-- The value checks after the loop, and the verdict of the script threads. -/
def checkReward (env : Env) (tree : BlockTree) (block : CBlock) (pindex : CBlockIndex)
    (s : ConnectState) : Except Failure Unit := do
  require (isBlockValueValid env tree block (expectedMint block pindex.nHeight s.nFees) pindex.nMint)
    (.dos "bad-cb-amount")
  require (decide (pindex.nMoneySupply ≤ env.network.maxMoneyOut)) (.dos "bad-money-supply")
  require s.scriptsOk (.invalid 100 .none "" false)

/-- Computations that change the node and the index entry at hand; what is written stays
written when they fail. -/
abbrev ConnectM := EStateM Failure (Node × CBlockIndex)

/-- A check inside such a computation. -/
def ConnectM.check {α : Type} (x : Except Failure α) : ConnectM α :=
  match x with
  | .ok a => pure a
  | .error f => throw f

/-- A write to disk that may fail. -/
def ConnectM.write (env : Env) (w : DbWrite) (f : Failure) (g : Node → Node) : ConnectM Unit :=
  if env.writeOk w then modify fun s => (g s.1, s.2) else throw f

/-- A write to disk that is made only when an index is on. -/
def ConnectM.writeIf (env : Env) (on : Bool) (w : DbWrite) (f : Failure) (g : Node → Node) :
    ConnectM Unit :=
  if on then ConnectM.write env w f g else pure ()

/-- The header the block index record of an entry hashes to. -/
def CBlockIndex.header (p : CBlockIndex) : CBlockHeader where
  nVersion := p.nVersion
  hashPrevBlock := p.pprev.getD 0
  hashMerkleRoot := p.hashMerkleRoot
  nTime := p.nTime
  nBits := p.nBits
  nNonce := p.nNonce

/-- `pblocktree->WriteBlockIndex(CDiskBlockIndex(pindex))`. -/
def Node.writeBlockIndex (env : Env) (p : CBlockIndex) (node : Node) : Node :=
  { node with blocktree := node.blocktree.writeBlockIndex (env.blockHash p.header) p }

/-- `FindUndoPos`: the size of the undo file grows also when there is no space for it. -/
def Node.growUndo (env : Env) (nFile : ℤ) (undo : CBlockUndo) (node : Node) : Node :=
  let nAddSize := env.undoSerializeSize undo + 40
  { node with
    nUndoSize := Function.update node.nUndoSize nFile (node.nUndoSize nFile + nAddSize) }

/-- `CBlockUndo::WriteToDisk`, at a position after the eight bytes of header. -/
def Node.writeUndoToDisk (pos : CDiskBlockPos) (hashBlock : UInt256) (undo : CBlockUndo)
    (node : Node) : Node :=
  { node with undoFiles := Function.update node.undoFiles pos (some (hashBlock, undo.reread)) }

/-- The undo part of `ConnectBlock`. -/
def writeUndo (env : Env) (undo : CBlockUndo) : ConnectM Unit := do
  let (node, pindex) ← get
  match pindex.getUndoPos with
  | some _ =>
      modify fun s => (s.1, if s.2.isValid blockValidScripts then s.2
        else s.2.raiseValidity blockValidScripts)
  | none =>
      let pos : CDiskBlockPos := ⟨pindex.nFile, node.nUndoSize pindex.nFile + 8⟩
      modify fun s => (s.1.growUndo env pindex.nFile undo, s.2)
      ConnectM.check (require (env.writeOk .undoSpace) (.abort "out of disk space"))
      ConnectM.write env .undoData (.abort "Failed to write undo data")
        (Node.writeUndoToDisk pos (pindex.pprev.getD 0) undo)
      modify fun s => (s.1, { s.2 with
        nUndoPos := pos.nPos
        nStatus := { s.2.nStatus with haveUndo := true } }.raiseValidity blockValidScripts)

/-- Change the block tree database. -/
def Node.onBlockTree (g : CBlockTreeDB → CBlockTreeDB) (node : Node) : Node :=
  { node with blocktree := g node.blocktree }

/-- The index writes at the end of `ConnectBlock`. -/
def writeIndexes (env : Env) (s : ConnectState) : ConnectM Unit := do
  let (_, pindex) ← get
  ConnectM.writeIf env env.fTxIndex .txIndex (.abort "Failed to write transaction index")
    (Node.onBlockTree fun db => db.writeTxIndex s.vPos)
  ConnectM.writeIf env env.fAddressIndex .addressIndex (.abort "Failed to write address index")
    (Node.onBlockTree fun db => db.writeAddressIndex s.batch.addressIndex)
  ConnectM.writeIf env env.fAddressIndex .addressUnspentIndex
    (.abort "Failed to write address unspent index")
    (Node.onBlockTree fun db => db.updateAddressUnspentIndex s.batch.addressUnspentIndex)
  ConnectM.writeIf env env.fSpentIndex .spentIndex (.abort "Failed to write transaction index")
    (Node.onBlockTree fun db => db.updateSpentIndex s.batch.spentIndex)
  ConnectM.writeIf env env.fTimestampIndex .timestampIndex
    (.abort "Failed to write timestamp index")
    (Node.onBlockTree fun db => db.writeTimestampIndex ⟨pindex.nTime, pindex.getBlockHash⟩)

/-- `ConnectBlock` after its loop. -/
def connectFinish (env : Env) (block : CBlock) (fJustCheck : Bool) (s : ConnectState) :
    ConnectM CoinsView := do
  modify fun t => (t.1, t.2.withSupply t.1.tree s)
  let (node, pindex) ← get
  ConnectM.write env .blockIndex (.error "Connect() : WriteBlockIndex for pindex failed")
    (Node.writeBlockIndex env pindex)
  ConnectM.check (checkReward env node.tree block pindex s)
  if fJustCheck then return s.view
  writeUndo env ⟨s.vtxundo⟩
  writeIndexes env s
  return s.view.setBestBlock pindex.getBlockHash

/-- `ConnectBlock`. -/
def connectBlock (env : Env) (block : CBlock) (view : CoinsView) (fJustCheck : Bool) :
    ConnectM CoinsView := do
  let (node, pindex) ← get
  ConnectM.check (checkBlock env node.tree block (!fJustCheck))
  ConnectM.check (require (pindex.pprev.getD 0 == view.hashBlock)
    (.crash "hashPrevBlock == view.GetBestBlock()"))
  if env.blockHash block.toCBlockHeader = env.network.hashGenesisBlock then
    return view.setBestBlock pindex.getBlockHash
  let s ← ConnectM.check (connectChecks env node.tree block pindex view)
  connectFinish env block fJustCheck s

/-! ## `DisconnectBlock` -/

/-- Undo one transaction, the `i`th of its block. -/
def disconnectTx (nHeight : ℤ) (i : ℕ) (v : CoinsView) (tx : CTransaction) (undo : CTxUndo) :
    Except Failure (CoinsView × Bool) :=
  let (v₁, ok₁) := removeOutputs v tx nHeight
  if 0 < i then
    if undo.vprevout.length ≠ tx.vin.length then
      .error (.error "DisconnectBlock() : transaction and undo data inconsistent")
    else
      let (v₂, ok₂) := restoreInputs v₁ ((tx.vin.map CTxIn.prevout).zip undo.vprevout)
      .ok (v₂, ok₁ && ok₂)
  else .ok (v₁, ok₁)

/-- The loop of `DisconnectBlock` over the transactions from number `i` on, the last one
first. -/
def disconnectTxs (env : Env) (nHeight : ℤ) (v : CoinsView) :
    ℕ → List (CTransaction × CTxUndo) → Except Failure (CoinsView × Bool × IndexBatch)
  | _, [] => .ok (v, true, {})
  | i, (tx, undo) :: rest => do
      let (v₁, ok₁, batch) ← disconnectTxs env nHeight v (i + 1) rest
      let (v₂, ok₂) ← disconnectTx nHeight i v₁ tx undo
      .ok (v₂, ok₁ && ok₂, batch ++ disconnectEntries env nHeight i tx undo)

/-- The checks of `DisconnectBlock` and its loop: nothing is written yet. -/
def disconnectChecks (env : Env) (node : Node) (block : CBlock) (pindex : CBlockIndex)
    (view : CoinsView) : Except Failure (CoinsView × Bool × IndexBatch) := do
  require (pindex.getBlockHash == view.hashBlock) (.crash "pindex->GetBlockHash() == view.GetBestBlock()")
  match pindex.getUndoPos, pindex.pprev with
  | none, _ => .error (.error "DisconnectBlock() : no undo data available")
  | some _, none => .error (.crash "pindex->pprev")
  | some pos, some hashPrev =>
      match node.readUndoFromDisk pos hashPrev with
      | none => .error (.error "DisconnectBlock() : failure reading undo data")
      | some blockUndo => do
          require (blockUndo.vtxundo.length + 1 == block.vtx.length)
            (.error "DisconnectBlock() : block and undo data inconsistent")
          let (v, fClean, batch) ← disconnectTxs env pindex.nHeight view 0
            (block.vtx.zip ({} :: blockUndo.vtxundo))
          .ok (v.setBestBlock hashPrev, fClean, batch)

/-- `DisconnectBlock`: the view and `fClean`.  Without `pfClean` the caller takes an unclean
result for a failure. -/
def disconnectBlock (env : Env) (block : CBlock) (view : CoinsView) :
    ConnectM (CoinsView × Bool) := do
  let (node, pindex) ← get
  let (v, fClean, batch) ← ConnectM.check (disconnectChecks env node block pindex view)
  ConnectM.writeIf env env.fAddressIndex .addressIndex (.abort "Failed to delete address index")
    (Node.onBlockTree fun db => db.eraseAddressIndex batch.addressIndex)
  ConnectM.writeIf env env.fAddressIndex .addressUnspentIndex
    (.abort "Failed to write address unspent index")
    (Node.onBlockTree fun db => db.updateAddressUnspentIndex batch.addressUnspentIndex)
  ConnectM.writeIf env env.fSpentIndex .spentIndex (.abort "Failed to write spent index")
    (Node.onBlockTree fun db => db.updateSpentIndex batch.spentIndex)
  return (v, fClean)

/-! ## What success means -/

namespace ConnectM

variable {α β : Type} {s s' : Node × CBlockIndex}

theorem bind_eq_ok {x : ConnectM α} {f : α → ConnectM β} {b : β} :
    (x >>= f) s = .ok b s' ↔ ∃ a s₁, x s = .ok a s₁ ∧ f a s₁ = .ok b s' := by
  change EStateM.bind x f s = _ ↔ _
  unfold EStateM.bind
  cases x s with
  | ok a t => exact ⟨fun h => ⟨a, t, rfl, h⟩, fun ⟨_, _, h₁, h₂⟩ => by cases h₁; exact h₂⟩
  | error f t => simp

theorem pure_eq_ok {a b : α} : (pure a : ConnectM α) s = .ok b s' ↔ a = b ∧ s = s' := by
  change EStateM.Result.ok a s = _ ↔ _
  simp

theorem get_eq_ok {t : Node × CBlockIndex} :
    (get : ConnectM (Node × CBlockIndex)) s = .ok t s' ↔ s = t ∧ s = s' := by
  change EStateM.Result.ok s s = _ ↔ _
  simp

theorem modify_eq_ok {g : Node × CBlockIndex → Node × CBlockIndex} {u : PUnit} :
    (modify g : ConnectM PUnit) s = .ok u s' ↔ g s = s' := by
  change EStateM.Result.ok _ (g s) = _ ↔ _
  simp

theorem check_eq_ok {x : Except Failure α} {a : α} :
    check x s = .ok a s' ↔ x = .ok a ∧ s = s' := by
  cases x with
  | ok b =>
    rw [check, pure_eq_ok]
    simp
  | error f =>
    change EStateM.Result.error f s = _ ↔ _
    simp

theorem write_eq_ok {env : Env} {w : DbWrite} {f : Failure} {g : Node → Node} {u : Unit} :
    write env w f g s = .ok u s' ↔ env.writeOk w = true ∧ (g s.1, s.2) = s' := by
  unfold write
  by_cases h : env.writeOk w = true
  · rw [if_pos h, modify_eq_ok]
    simp [h]
  · rw [if_neg h]
    change EStateM.Result.error f s = _ ↔ _
    simp [h]

theorem writeIf_eq_ok {env : Env} {on : Bool} {w : DbWrite} {f : Failure} {g : Node → Node}
    {u : Unit} : writeIf env on w f g s = .ok u s' ↔
      (on = true → env.writeOk w = true) ∧ (if on then g s.1 else s.1, s.2) = s' := by
  unfold writeIf
  cases on with
  | false =>
    rw [if_neg (by simp), pure_eq_ok]
    simp
  | true =>
    rw [if_pos rfl, write_eq_ok]
    simp

end ConnectM

/-- The index entry once the undo data is on disk. -/
def CBlockIndex.withUndo (pindex : CBlockIndex) (node : Node) : CBlockIndex :=
  match pindex.getUndoPos with
  | some _ =>
      if pindex.isValid blockValidScripts then pindex else pindex.raiseValidity blockValidScripts
  | none =>
      { pindex with
        nUndoPos := node.nUndoSize pindex.nFile + 8
        nStatus := { pindex.nStatus with haveUndo := true } }.raiseValidity blockValidScripts

/-- The node once the undo data is on disk. -/
def Node.withUndo (env : Env) (pindex : CBlockIndex) (undo : CBlockUndo) (node : Node) : Node :=
  match pindex.getUndoPos with
  | some _ => node
  | none => (node.growUndo env pindex.nFile undo).writeUndoToDisk
      ⟨pindex.nFile, node.nUndoSize pindex.nFile + 8⟩ (pindex.pprev.getD 0) undo

theorem writeUndo_ok {env : Env} {undo : CBlockUndo} {node node' : Node} {p p' : CBlockIndex}
    {u : Unit} (h : writeUndo env undo (node, p) = .ok u (node', p')) :
    node' = node.withUndo env p undo ∧ p' = p.withUndo node := by
  obtain ⟨_, _, hget, h⟩ := ConnectM.bind_eq_ok.1 h
  obtain ⟨rfl, rfl⟩ := ConnectM.get_eq_ok.1 hget
  simp only [Node.withUndo, CBlockIndex.withUndo]
  cases hpos : p.getUndoPos with
  | some pos =>
    simp only [hpos] at h
    have := ConnectM.modify_eq_ok.1 h
    simp only [Prod.mk.injEq] at this
    exact ⟨this.1.symm, this.2.symm⟩
  | none =>
    simp only [hpos] at h
    obtain ⟨_, s₁, h₁, h⟩ := ConnectM.bind_eq_ok.1 h
    obtain ⟨_, s₂, h₂, h⟩ := ConnectM.bind_eq_ok.1 h
    obtain ⟨_, s₃, h₃, h⟩ := ConnectM.bind_eq_ok.1 h
    obtain rfl := ConnectM.modify_eq_ok.1 h₁
    obtain ⟨-, rfl⟩ := ConnectM.check_eq_ok.1 h₂
    obtain ⟨-, rfl⟩ := ConnectM.write_eq_ok.1 h₃
    have := ConnectM.modify_eq_ok.1 h
    simp only [Prod.mk.injEq] at this
    exact ⟨this.1.symm, this.2.symm⟩

/-- The block tree database after the index writes of `ConnectBlock`. -/
def CBlockTreeDB.withIndexes (env : Env) (pindex : CBlockIndex) (s : ConnectState)
    (db : CBlockTreeDB) : CBlockTreeDB where
  blockIndex := db.blockIndex
  txIndex := if env.fTxIndex then (db.writeTxIndex s.vPos).txIndex else db.txIndex
  addressIndex := if env.fAddressIndex then
    (db.writeAddressIndex s.batch.addressIndex).addressIndex else db.addressIndex
  addressUnspentIndex := if env.fAddressIndex then
    (db.updateAddressUnspentIndex s.batch.addressUnspentIndex).addressUnspentIndex
    else db.addressUnspentIndex
  spentIndex := if env.fSpentIndex then (db.updateSpentIndex s.batch.spentIndex).spentIndex
    else db.spentIndex
  timestampIndex := if env.fTimestampIndex then
    (db.writeTimestampIndex ⟨pindex.nTime, pindex.getBlockHash⟩).timestampIndex
    else db.timestampIndex

/-- The database accepts what `DisconnectBlock` writes. -/
def Env.IndexWritable (env : Env) : Prop :=
  (env.fAddressIndex = true → env.writeOk .addressIndex = true) ∧
    (env.fAddressIndex = true → env.writeOk .addressUnspentIndex = true) ∧
    (env.fSpentIndex = true → env.writeOk .spentIndex = true)

theorem writeIndexes_ok {env : Env} {s : ConnectState} {node node' : Node} {p p' : CBlockIndex}
    {u : Unit} (h : writeIndexes env s (node, p) = .ok u (node', p')) :
    node' = node.onBlockTree (CBlockTreeDB.withIndexes env p s) ∧ p' = p ∧ env.IndexWritable := by
  obtain ⟨_, _, hget, h⟩ := ConnectM.bind_eq_ok.1 h
  obtain ⟨rfl, rfl⟩ := ConnectM.get_eq_ok.1 hget
  obtain ⟨_, s₁, h₁, h⟩ := ConnectM.bind_eq_ok.1 h
  obtain ⟨_, s₂, h₂, h⟩ := ConnectM.bind_eq_ok.1 h
  obtain ⟨_, s₃, h₃, h⟩ := ConnectM.bind_eq_ok.1 h
  obtain ⟨_, s₄, h₄, h⟩ := ConnectM.bind_eq_ok.1 h
  obtain ⟨-, rfl⟩ := ConnectM.writeIf_eq_ok.1 h₁
  obtain ⟨haddress, rfl⟩ := ConnectM.writeIf_eq_ok.1 h₂
  obtain ⟨hunspent, rfl⟩ := ConnectM.writeIf_eq_ok.1 h₃
  obtain ⟨hspent, rfl⟩ := ConnectM.writeIf_eq_ok.1 h₄
  have := (ConnectM.writeIf_eq_ok.1 h).2
  simp only [Prod.mk.injEq] at this
  refine ⟨?_, this.2.symm, haddress, hunspent, hspent⟩
  rw [← this.1]
  unfold CBlockTreeDB.withIndexes Node.onBlockTree
  cases env.fTxIndex <;> cases env.fAddressIndex <;> cases env.fSpentIndex <;>
    cases env.fTimestampIndex <;> rfl

/-- What a successful `ConnectBlock` has checked and done, for a block that is not genesis;
`s` is the state its loop ends in. -/
structure ConnectSpec (env : Env) (block : CBlock) (node node' : Node) (pindex pindex' : CBlockIndex)
    (view view' : CoinsView) (s : ConnectState) : Prop where
  checked : block.Checked env.network
  parent : pindex.pprev.getD 0 = view.hashBlock
  checks : connectChecks env node.tree block pindex view = .ok s
  reward : checkReward env node.tree block (pindex.withSupply node.tree s) s = .ok ()
  writable : env.IndexWritable
  view_eq : view' = s.view.setBestBlock pindex.getBlockHash
  pindex_eq : pindex' = (pindex.withSupply node.tree s).withUndo node
  node_eq : node' = ((node.writeBlockIndex env (pindex.withSupply node.tree s)).withUndo env
    (pindex.withSupply node.tree s) ⟨s.vtxundo⟩).onBlockTree
      (CBlockTreeDB.withIndexes env ((pindex.withSupply node.tree s).withUndo node) s)

theorem connectBlock_ok {env : Env} {block : CBlock} {node node' : Node}
    {pindex pindex' : CBlockIndex} {view view' : CoinsView}
    (h : connectBlock env block view false (node, pindex) = .ok view' (node', pindex'))
    (hgen : env.blockHash block.toCBlockHeader ≠ env.network.hashGenesisBlock) :
    ∃ s, ConnectSpec env block node node' pindex pindex' view view' s := by
  obtain ⟨_, _, hget, h⟩ := ConnectM.bind_eq_ok.1 h
  obtain ⟨rfl, rfl⟩ := ConnectM.get_eq_ok.1 hget
  obtain ⟨_, _, h₁, h⟩ := ConnectM.bind_eq_ok.1 h
  obtain ⟨hblock, rfl⟩ := ConnectM.check_eq_ok.1 h₁
  obtain ⟨_, _, h₂, h⟩ := ConnectM.bind_eq_ok.1 h
  obtain ⟨hparent, rfl⟩ := ConnectM.check_eq_ok.1 h₂
  rw [if_neg hgen] at h
  obtain ⟨s, _, h₃, h⟩ := ConnectM.bind_eq_ok.1 h
  obtain ⟨hchecks, rfl⟩ := ConnectM.check_eq_ok.1 h₃
  obtain ⟨_, _, h₄, h⟩ := ConnectM.bind_eq_ok.1 h
  obtain rfl := ConnectM.modify_eq_ok.1 h₄
  obtain ⟨_, _, h₅, h⟩ := ConnectM.bind_eq_ok.1 h
  obtain ⟨rfl, rfl⟩ := ConnectM.get_eq_ok.1 h₅
  obtain ⟨_, _, h₆, h⟩ := ConnectM.bind_eq_ok.1 h
  obtain ⟨-, rfl⟩ := ConnectM.write_eq_ok.1 h₆
  obtain ⟨_, _, h₇, h⟩ := ConnectM.bind_eq_ok.1 h
  obtain ⟨hreward, rfl⟩ := ConnectM.check_eq_ok.1 h₇
  simp only [Bool.false_eq_true, if_false] at h
  obtain ⟨_, ⟨node₁, p₁⟩, hundo, h⟩ := ConnectM.bind_eq_ok.1 h
  obtain ⟨rfl, rfl⟩ := writeUndo_ok hundo
  obtain ⟨_, ⟨node₂, p₂⟩, hindex, h⟩ := ConnectM.bind_eq_ok.1 h
  obtain ⟨rfl, rfl, hwritable⟩ := writeIndexes_ok hindex
  obtain ⟨rfl, h⟩ := ConnectM.pure_eq_ok.1 h
  cases h
  exact ⟨s, checkBlock_ok hblock, by simpa using hparent, hchecks, hreward, hwritable, rfl, rfl, rfl⟩

/-- A computation goes on to its end when its parts do. -/
theorem ConnectM.exists_bind {α β : Type} {x : ConnectM α} {f : α → ConnectM β} {a : α}
    {s s₁ : Node × CBlockIndex} (hx : x s = .ok a s₁) (hf : ∃ b s', f a s₁ = .ok b s') :
    ∃ b s', (x >>= f) s = .ok b s' := by
  obtain ⟨b, s', hb⟩ := hf
  exact ⟨b, s', ConnectM.bind_eq_ok.2 ⟨a, s₁, hx, hb⟩⟩

theorem ConnectM.exists_then {β : Type} {x : ConnectM Unit} {f : Unit → ConnectM β}
    {s s₁ : Node × CBlockIndex} (hx : x s = .ok () s₁) (hf : ∃ b s', f () s₁ = .ok b s') :
    ∃ b s', (x >>= f) s = .ok b s' := ConnectM.exists_bind hx hf

theorem exists_writeUndo {env : Env} (hwrite : ∀ w, env.writeOk w = true) (undo : CBlockUndo)
    (t : Node × CBlockIndex) : ∃ u t', writeUndo env undo t = .ok u t' := by
  refine ConnectM.exists_bind (ConnectM.get_eq_ok.2 ⟨rfl, rfl⟩) ?_
  cases hpos : t.2.getUndoPos with
  | some pos =>
    simp only [hpos]
    exact ⟨(), _, ConnectM.modify_eq_ok.2 rfl⟩
  | none =>
    simp only [hpos]
    refine ConnectM.exists_then (ConnectM.modify_eq_ok.2 rfl) ?_
    refine ConnectM.exists_then (ConnectM.check_eq_ok.2 ⟨require_eq_ok.2 (hwrite _), rfl⟩) ?_
    refine ConnectM.exists_then (ConnectM.write_eq_ok.2 ⟨hwrite _, rfl⟩) ?_
    exact ⟨(), _, ConnectM.modify_eq_ok.2 rfl⟩

theorem exists_writeIndexes {env : Env} (hwrite : ∀ w, env.writeOk w = true) (s : ConnectState)
    (t : Node × CBlockIndex) : ∃ u t', writeIndexes env s t = .ok u t' := by
  have hon : ∀ {on : Bool} {w : DbWrite}, on = true → env.writeOk w = true := fun _ => hwrite _
  refine ConnectM.exists_bind (ConnectM.get_eq_ok.2 ⟨rfl, rfl⟩) ?_
  refine ConnectM.exists_then (ConnectM.writeIf_eq_ok.2 ⟨hon, rfl⟩) ?_
  refine ConnectM.exists_then (ConnectM.writeIf_eq_ok.2 ⟨hon, rfl⟩) ?_
  refine ConnectM.exists_then (ConnectM.writeIf_eq_ok.2 ⟨hon, rfl⟩) ?_
  refine ConnectM.exists_then (ConnectM.writeIf_eq_ok.2 ⟨hon, rfl⟩) ?_
  exact ⟨(), _, ConnectM.writeIf_eq_ok.2 ⟨hon, rfl⟩⟩

/-- A block that passes its checks is connected when all writes succeed. -/
theorem connectBlock_of_checks {env : Env} {block : CBlock} {node : Node} {pindex : CBlockIndex}
    {view : CoinsView} {s : ConnectState} (hwrite : ∀ w, env.writeOk w = true)
    (hblock : checkBlock env node.tree block true = .ok ())
    (hparent : pindex.pprev.getD 0 = view.hashBlock)
    (hgen : env.blockHash block.toCBlockHeader ≠ env.network.hashGenesisBlock)
    (hchecks : connectChecks env node.tree block pindex view = .ok s)
    (hreward : checkReward env node.tree block (pindex.withSupply node.tree s) s = .ok ()) :
    ∃ view' t, connectBlock env block view false (node, pindex) = .ok view' t := by
  refine ConnectM.exists_bind (ConnectM.get_eq_ok.2 ⟨rfl, rfl⟩) ?_
  refine ConnectM.exists_then (ConnectM.check_eq_ok.2 ⟨hblock, rfl⟩) ?_
  refine ConnectM.exists_then (ConnectM.check_eq_ok.2
    ⟨require_eq_ok.2 (beq_iff_eq.2 hparent), rfl⟩) ?_
  rw [if_neg hgen]
  refine ConnectM.exists_bind (ConnectM.check_eq_ok.2 ⟨hchecks, rfl⟩) ?_
  refine ConnectM.exists_then (ConnectM.modify_eq_ok.2 rfl) ?_
  refine ConnectM.exists_bind (ConnectM.get_eq_ok.2 ⟨rfl, rfl⟩) ?_
  refine ConnectM.exists_then (ConnectM.write_eq_ok.2 ⟨hwrite _, rfl⟩) ?_
  refine ConnectM.exists_then (ConnectM.check_eq_ok.2 ⟨hreward, rfl⟩) ?_
  simp only [Bool.false_eq_true, if_false]
  obtain ⟨_, t₁, h₁⟩ := exists_writeUndo hwrite ⟨s.vtxundo⟩
    (node.writeBlockIndex env (pindex.withSupply node.tree s), pindex.withSupply node.tree s)
  obtain ⟨_, t₂, h₂⟩ := exists_writeIndexes hwrite s t₁
  exact ConnectM.exists_then h₁ (ConnectM.exists_then h₂ ⟨_, _, ConnectM.pure_eq_ok.2 ⟨rfl, rfl⟩⟩)

/-- On genesis `ConnectBlock` only moves the best block. -/
theorem connectBlock_genesis {env : Env} {block : CBlock} {node node' : Node}
    {pindex pindex' : CBlockIndex} {view view' : CoinsView}
    (h : connectBlock env block view false (node, pindex) = .ok view' (node', pindex'))
    (hgen : env.blockHash block.toCBlockHeader = env.network.hashGenesisBlock) :
    view' = view.setBestBlock pindex.getBlockHash ∧ node' = node ∧ pindex' = pindex := by
  obtain ⟨_, _, hget, h⟩ := ConnectM.bind_eq_ok.1 h
  obtain ⟨rfl, rfl⟩ := ConnectM.get_eq_ok.1 hget
  obtain ⟨_, _, h₁, h⟩ := ConnectM.bind_eq_ok.1 h
  obtain ⟨-, rfl⟩ := ConnectM.check_eq_ok.1 h₁
  obtain ⟨_, _, h₂, h⟩ := ConnectM.bind_eq_ok.1 h
  obtain ⟨-, rfl⟩ := ConnectM.check_eq_ok.1 h₂
  rw [if_pos hgen] at h
  obtain ⟨rfl, h⟩ := ConnectM.pure_eq_ok.1 h
  cases h
  exact ⟨rfl, rfl, rfl⟩

/-- The block tree database after `DisconnectBlock`. -/
def CBlockTreeDB.withoutIndexes (env : Env) (batch : IndexBatch) (db : CBlockTreeDB) :
    CBlockTreeDB :=
  { db with
    addressIndex := if env.fAddressIndex then
      (db.eraseAddressIndex batch.addressIndex).addressIndex else db.addressIndex
    addressUnspentIndex := if env.fAddressIndex then
      (db.updateAddressUnspentIndex batch.addressUnspentIndex).addressUnspentIndex
      else db.addressUnspentIndex
    spentIndex := if env.fSpentIndex then (db.updateSpentIndex batch.spentIndex).spentIndex
      else db.spentIndex }

/-- What a successful `DisconnectBlock` has done. -/
structure DisconnectSpec (env : Env) (block : CBlock) (node node' : Node) (pindex : CBlockIndex)
    (view view' : CoinsView) (fClean : Bool) (batch : IndexBatch) : Prop where
  checks : disconnectChecks env node block pindex view = .ok (view', fClean, batch)
  node_eq : node' = node.onBlockTree (CBlockTreeDB.withoutIndexes env batch)

theorem disconnectBlock_eq_ok {env : Env} {block : CBlock} {node node' : Node}
    {pindex pindex' : CBlockIndex} {view view' : CoinsView} {fClean : Bool} :
    disconnectBlock env block view (node, pindex) = .ok (view', fClean) (node', pindex') ↔
      env.IndexWritable ∧ pindex = pindex' ∧
        ∃ batch, DisconnectSpec env block node node' pindex view view' fClean batch := by
  have key : ∀ (node : Node) (batch : IndexBatch),
      node.onBlockTree (CBlockTreeDB.withoutIndexes env batch) =
        let node₁ := if env.fAddressIndex then
          Node.onBlockTree (fun db => db.eraseAddressIndex batch.addressIndex) node else node
        let node₂ := if env.fAddressIndex then Node.onBlockTree
          (fun db => db.updateAddressUnspentIndex batch.addressUnspentIndex) node₁ else node₁
        if env.fSpentIndex then
          Node.onBlockTree (fun db => db.updateSpentIndex batch.spentIndex) node₂ else node₂ := by
    intro node batch
    unfold CBlockTreeDB.withoutIndexes Node.onBlockTree
    cases env.fAddressIndex <;> cases env.fSpentIndex <;> rfl
  constructor
  · intro h
    obtain ⟨_, _, hget, h⟩ := ConnectM.bind_eq_ok.1 h
    obtain ⟨rfl, rfl⟩ := ConnectM.get_eq_ok.1 hget
    obtain ⟨⟨v, fc, batch⟩, _, h₀, h⟩ := ConnectM.bind_eq_ok.1 h
    obtain ⟨hchecks, rfl⟩ := ConnectM.check_eq_ok.1 h₀
    obtain ⟨_, _, h₁, h⟩ := ConnectM.bind_eq_ok.1 h
    obtain ⟨haddress, rfl⟩ := ConnectM.writeIf_eq_ok.1 h₁
    obtain ⟨_, _, h₂, h⟩ := ConnectM.bind_eq_ok.1 h
    obtain ⟨hunspent, rfl⟩ := ConnectM.writeIf_eq_ok.1 h₂
    obtain ⟨_, _, h₃, h⟩ := ConnectM.bind_eq_ok.1 h
    obtain ⟨hspent, rfl⟩ := ConnectM.writeIf_eq_ok.1 h₃
    obtain ⟨hres, hstate⟩ := ConnectM.pure_eq_ok.1 h
    cases hres
    cases hstate
    exact ⟨⟨haddress, hunspent, hspent⟩, rfl, batch, hchecks, (key node batch).symm⟩
  · rintro ⟨⟨haddress, hunspent, hspent⟩, rfl, batch, hchecks, rfl⟩
    rw [key]
    refine ConnectM.bind_eq_ok.2 ⟨_, _, ConnectM.get_eq_ok.2 ⟨rfl, rfl⟩, ?_⟩
    refine ConnectM.bind_eq_ok.2 ⟨_, _, ConnectM.check_eq_ok.2 ⟨hchecks, rfl⟩, ?_⟩
    refine ConnectM.bind_eq_ok.2 ⟨(), _, ConnectM.writeIf_eq_ok.2 ⟨haddress, rfl⟩, ?_⟩
    refine ConnectM.bind_eq_ok.2 ⟨(), _, ConnectM.writeIf_eq_ok.2 ⟨hunspent, rfl⟩, ?_⟩
    refine ConnectM.bind_eq_ok.2 ⟨(), _, ConnectM.writeIf_eq_ok.2 ⟨hspent, rfl⟩, ?_⟩
    exact ConnectM.pure_eq_ok.2 ⟨rfl, rfl⟩

/-- What `DisconnectBlock` finds when its checks pass. -/
theorem disconnectChecks_ok {env : Env} {node : Node} {block : CBlock} {pindex : CBlockIndex}
    {view view' : CoinsView} {fClean : Bool} {batch : IndexBatch}
    (h : disconnectChecks env node block pindex view = .ok (view', fClean, batch)) :
    pindex.getBlockHash = view.hashBlock ∧ ∃ pos hashPrev blockUndo v,
      pindex.getUndoPos = some pos ∧ pindex.pprev = some hashPrev ∧
      node.readUndoFromDisk pos hashPrev = some blockUndo ∧
      blockUndo.vtxundo.length + 1 = block.vtx.length ∧
      disconnectTxs env pindex.nHeight view 0 (block.vtx.zip ({} :: blockUndo.vtxundo)) =
        .ok (v, fClean, batch) ∧ view' = v.setBestBlock hashPrev := by
  simp only [disconnectChecks, bind_eq_ok, require_eq_ok, exists_const, beq_iff_eq] at h
  obtain ⟨hbest, h⟩ := h
  refine ⟨hbest, ?_⟩
  split at h
  · exact absurd h (by simp)
  · exact absurd h (by simp)
  · next pos hashPrev hpos hprev =>
    split at h
    · exact absurd h (by simp)
    · next blockUndo hread =>
      simp only [bind_eq_ok, require_eq_ok, exists_const, beq_iff_eq] at h
      obtain ⟨hlen, ⟨v, fc, b⟩, htxs, h⟩ := h
      simp only [Except.ok.injEq, Prod.mk.injEq] at h
      obtain ⟨rfl, rfl, rfl⟩ := h
      exact ⟨pos, hashPrev, blockUndo, v, hpos, hprev, hread, hlen, htxs, rfl⟩

end FairCoin
