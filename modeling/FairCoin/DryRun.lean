import FairCoin.Connect
import FairCoin.Deliveries
import FairCoin.Lib.ByteOrder
import FairCoin.Reward

/-!
# Checking a block without connecting it

`TestBlockValidity`, `ContextualCheckBlockHeader`, `ContextualCheckBlock` and `InsertBlockIndex` of
`src/main.cpp`, `CBlockTreeDB::LoadBlockIndexGuts` of `src/txdb.cpp` and what they read of
`src/checkpoints.cpp` and `src/chain.h`.  `getblocktemplate` has a proposal checked this way:
`ConnectBlock` runs on a dummy entry and a view of its own.

* `connectBlock_justCheck` — what `ConnectBlock` leaves behind when it only checks: the index record of
  the dummy entry, if it gets that far.
* `testBlockValidity_iff` — **when a check leaves no trace**.
* `invalidBlock_loaded` — a block that fails its check, and is in the index after a restart.
-/

namespace FairCoin

open Store

/-! ## The checks of a header -/

namespace Network

/-- `MaxReorganizationDepth()`. -/
def maxReorganizationDepth : Network → ℤ
  | _ => 100

/-- `RejectBlockOutdatedMajority()`. -/
def rejectBlockOutdatedMajority : Network → ℕ
  | testnet => 75
  | _ => 950

/-- `Checkpoints()`, by height. -/
def checkpoints : Network → List (ℤ × UInt256)
  | main | unittest =>
      [(0, 0x00000232cb134567cf85cd65748714df75d72fe4ce71cf77d3c3f8a9a1a576e6#256),
        (1, 0x00000c7be1164f34a243d233c94ec23e6fdc76813ac94b720a624d4ed52c9f0c#256),
        (5000, 0x000000001c5f95c383855c71fa5ee106efd0ce9b6c93198b55cd00f47c84126f#256),
        (10000, 0x00000000a840c1a7ca180f542fa26beed769bf0a91ba60c65b1d3d60911308c0#256),
        (11000, 0x9f6d23e28485c926d63e6a249f9983472f1e7bd467db56864a575891819ebd84#256)]
  | testnet => [(0, 0x00000232cb134567cf85cd65748714df75d72fe4ce71cf77d3c3f8a9a1a576e6#256)]
  | regtest => [(0, 0x2645b6c9857890d9957a2cb5f29f6a66691dbce42bca05ea5a31f384cf39733a#256)]

/-- `Checkpoints::CheckBlock`. -/
def checkCheckpoint (net : Network) (nHeight : ℤ) (hash : UInt256) : Bool :=
  match net.checkpoints.lookup nHeight with
  | none => true
  | some h => hash == h

/-- `Checkpoints::GetLastCheckpoint`. -/
def getLastCheckpoint (net : Network) (map : Map UInt256 CBlockIndex) : Option CBlockIndex :=
  net.checkpoints.reverse.findSome? fun c => map.lookup c.2

end Network

/-- The reject codes of the header checks. -/
inductive HeaderCode
  | none
  | invalid
  | checkpoint
  | obsolete
  deriving DecidableEq, Repr

/-- How a header check fails: the DoS level, the reject code and the reason. -/
structure HeaderFault where
  nDoS : ℕ
  code : HeaderCode
  reason : String
  deriving DecidableEq, Repr

/-- The times of an entry and of the `n` before it, as far as there are any. -/
def pastTimes (map : Map UInt256 CBlockIndex) : ℕ → CBlockIndex → List ℕ
  | 0, _ => []
  | n + 1, pindex => pindex.nTime ::
      match pindex.pprev.bind map.lookup with
      | none => []
      | some prev => pastTimes map n prev

/-- `GetMedianTimePast`. -/
def CBlockIndex.getMedianTimePast (map : Map UInt256 CBlockIndex) (pindex : CBlockIndex) : ℕ :=
  let times := (pastTimes map 11 pindex).insertionSort (· ≤ ·)
  times.getD (times.length / 2) 0

section Checks

variable (env : Env) (tree : BlockTree) (block : CBlock) (hashPrev : UInt256)
  (pindexPrev : CBlockIndex)

/-- `chainActive.Height()`. -/
def BlockTree.activeHeight (tree : BlockTree) : ℤ := (tree.chainActive.length : ℤ) - 1

/-- `CBlockIndex::IsSuperMajority` of the outdated blocks. -/
def rejectsVersion (minVersion : ℤ) : Bool :=
  isSuperMajority tree.mapBlockIndex minVersion env.network.rejectBlockOutdatedMajority
    env.network.toCheckBlockUpgradeMajority 0 (some hashPrev)

/-- `ContextualCheckBlockHeader`. -/
def contextualCheckBlockHeader : Except HeaderFault Unit :=
  let hash := env.blockHash block.toCBlockHeader
  let nHeight := pindexPrev.nHeight + 1
  if hash = env.network.hashGenesisBlock then .ok ()
  else if env.network.maxReorganizationDepth ≤ tree.activeHeight - nHeight then .error ⟨1, .none, ""⟩
  else if block.nTime ≤ pindexPrev.getMedianTimePast tree.mapBlockIndex then
    .error ⟨0, .invalid, "time-too-old"⟩
  else if !env.network.checkCheckpoint nHeight hash then
    .error ⟨100, .checkpoint, "checkpoint mismatch"⟩
  else if (env.network.getLastCheckpoint tree.mapBlockIndex).any
      fun pcheckpoint => decide (nHeight < pcheckpoint.nHeight) then .error ⟨0, .none, ""⟩
  else if block.nVersion < 2 ∧ rejectsVersion env tree hashPrev 2 then
    .error ⟨0, .obsolete, "bad-version"⟩
  else if block.nVersion < 3 ∧ rejectsVersion env tree hashPrev 3 then
    .error ⟨0, .obsolete, "bad-version"⟩
  else .ok ()

/-- `ContextualCheckBlock`. -/
def contextualCheckBlock : Except Failure Unit := do
  let nHeight := pindexPrev.nHeight + 1
  require (block.vtx.all fun tx =>
      isFinalTx tree.activeHeight env.getAdjustedTime tx nHeight block.nTime)
    (.invalid 10 .invalid "bad-txns-nonfinal" false)
  require (!(decide (2 ≤ block.nVersion) &&
      isSuperMajority tree.mapBlockIndex 2 env.network.enforceBlockUpgradeMajority
        env.network.toCheckBlockUpgradeMajority 0 (some hashPrev)) ||
    block.vtx.head?.any fun tx => tx.vin.head?.any fun i =>
      (pushHeight nHeight.toNat).isPrefixOf i.scriptSig) (.dos "bad-cb-height")

end Checks

/-! ## `TestBlockValidity` -/

/-- The constructor `CBlockIndex(block)`. -/
def CBlockIndex.ofBlock (block : CBlock) : CBlockIndex where
  fProofOfStake := block.isProofOfStake
  prevoutStake := if block.isProofOfStake then
    ((block.vtx[1]?.bind fun tx => tx.vin.head?).map CTxIn.prevout).getD ⟨0, 4294967295⟩
    else ⟨0, 4294967295⟩
  nStakeTime := if block.isProofOfStake then block.nTime else 0
  nVersion := block.nVersion
  hashMerkleRoot := block.hashMerkleRoot
  nTime := block.nTime
  nBits := block.nBits
  nNonce := block.nNonce

/-- The entry that `TestBlockValidity` makes up for a block: it has no hash and no status. -/
def indexDummy (block : CBlock) (hashPrev : UInt256) (pindexPrev : CBlockIndex) : CBlockIndex :=
  { CBlockIndex.ofBlock block with
    pprev := some hashPrev
    nHeight := pindexPrev.nHeight + 1 }

/-- How `TestBlockValidity` fails: at the header, or at the block. -/
inductive TestFailure
  | header (fault : HeaderFault)
  | block (failure : Failure)
  deriving DecidableEq, Repr

/-- What `TestBlockValidity` checks before it calls `ConnectBlock`. -/
def testChecks (env : Env) (tree : BlockTree) (block : CBlock) (hashPrev : UInt256)
    (pindexPrev : CBlockIndex) (fCheckMerkleRoot : Bool) : Except TestFailure Unit :=
  match contextualCheckBlockHeader env tree block hashPrev pindexPrev with
  | .error fault => .error (.header fault)
  | .ok () =>
      match checkBlock env tree block fCheckMerkleRoot with
      | .error failure => .error (.block failure)
      | .ok () =>
          match contextualCheckBlock env tree block hashPrev pindexPrev with
          | .error failure => .error (.block failure)
          | .ok () => .ok ()

/-- `TestBlockValidity` on the tip of the active chain: its verdict, and what is left of the node.  The
view of `ConnectBlock` is one of its own over `view`, the coins tip. -/
def testBlockValidity (env : Env) (view : CoinsView) (node : Node) (block : CBlock)
    (fCheckMerkleRoot : Bool) : Except TestFailure Unit × Node :=
  match node.tree.chainActive.getLast?, node.tree.tip with
  | some hashPrev, some pindexPrev =>
      match testChecks env node.tree block hashPrev pindexPrev fCheckMerkleRoot with
      | .error f => (.error f, node)
      | .ok () =>
          match connectBlock env block view true (node, indexDummy block hashPrev pindexPrev) with
          | .ok _ s => (.ok (), s.1)
          | .error f s => (.error (.block f), s.1)
  | _, _ => (.error (.block (.crash "pindexPrev == chainActive.Tip()")), node)

/-! ## A restart -/

/-- `CDiskBlockIndex::GetBlockHash`: the header of a record. -/
def CDiskBlockIndex.header (d : CDiskBlockIndex) : CBlockHeader where
  nVersion := d.nVersion
  hashPrevBlock := d.hashPrev
  hashMerkleRoot := d.hashMerkleRoot
  nTime := d.nTime
  nBits := d.nBits
  nNonce := d.nNonce

/-- `InsertBlockIndex`. -/
def insertBlockIndex (map : Map UInt256 CBlockIndex) (hash : UInt256) : Map UInt256 CBlockIndex :=
  if hash = 0 then map else insertNew map hash { phashBlock := some hash }

/-- The entry of a record. -/
def CDiskBlockIndex.toEntry (d : CDiskBlockIndex) (pindexNew : CBlockIndex) : CBlockIndex :=
  { pindexNew with
    pprev := if d.hashPrev = 0 then none else some d.hashPrev
    nHeight := d.nHeight
    nFile := ((d.pos.orElse fun _ => d.undoPos).map CDiskBlockPos.nFile).getD 0
    nDataPos := (d.pos.map CDiskBlockPos.nPos).getD 0
    nUndoPos := (d.undoPos.map CDiskBlockPos.nPos).getD 0
    nVersion := d.nVersion
    hashMerkleRoot := d.hashMerkleRoot
    nTime := d.nTime
    nBits := d.nBits
    nNonce := d.nNonce
    nStatus := d.nStatus
    nTx := d.nTx
    nMint := d.nMint
    nMoneySupply := d.nMoneySupply
    fProofOfStake := d.fProofOfStake
    fStakeEntropy := d.fStakeEntropy
    fStakeModifier := d.fStakeModifier
    nStakeModifier := d.nStakeModifier
    prevoutStake := (d.stake.map Prod.fst).getD ⟨0, 4294967295⟩
    nStakeTime := (d.stake.map Prod.snd).getD 0 }

/-- The body of the loop of `LoadBlockIndexGuts`. -/
def loadRecord (env : Env) (map : Map UInt256 CBlockIndex) (d : CDiskBlockIndex) :
    Option (Map UInt256 CBlockIndex) :=
  let hash := env.blockHash d.header
  let map := insertBlockIndex (insertBlockIndex map hash) d.hashPrev
  match map.lookup hash with
  | none => none
  | some pindexNew =>
      if d.nHeight ≤ env.network.lastPowBlock ∧ !env.checkProofOfWork hash d.nBits then none
      else some (map.insert hash (d.toEntry pindexNew))

/-- The order of the hashes in the database. -/
def hashKeyLe (a b : UInt256) : Bool :=
  !ByteOrder.lt (Codec.putLE 32 b.toNat) (Codec.putLE 32 a.toNat)

/-- `LoadBlockIndexGuts`. -/
def loadBlockIndexGuts (env : Env) (db : CBlockTreeDB) : Option (Map UInt256 CBlockIndex) :=
  (sortedEntries hashKeyLe db.blockIndex).foldlM (fun map e => loadRecord env map e.2) ∅

/-- A block is in the index after a restart. -/
def LoadedAfterRestart (env : Env) (db : CBlockTreeDB) (hash : UInt256) : Prop :=
  ∃ map, loadBlockIndexGuts env db = some map ∧ hash ∈ map

/-! ## What a check leaves behind -/

/-- **A check that leaves no trace**: the block files, the undo files, the index in memory and the active
chain are what they were, and so is the content of the database; what is loaded after a restart was
loaded before. -/
structure LeavesNoTrace (env : Env) (node node' : Node) : Prop where
  tree : node'.tree = node.tree
  blockFiles : node'.blockFiles = node.blockFiles
  undoFiles : node'.undoFiles = node.undoFiles
  undoSize : node'.nUndoSize = node.nUndoSize
  blockIndex : ∀ hash, node'.blocktree.blockIndex.lookup hash = node.blocktree.blockIndex.lookup hash
  indexes : node'.blocktree = { node.blocktree with blockIndex := node'.blocktree.blockIndex }
  restart : loadBlockIndexGuts env node'.blocktree = loadBlockIndexGuts env node.blocktree

/-- `ConnectBlock` gets to the write of the index record. -/
structure ReachesWrite (env : Env) (node : Node) (block : CBlock) (view : CoinsView)
    (pindex : CBlockIndex) (s : ConnectState) : Prop where
  block_ok : checkBlock env node.tree block false = .ok ()
  parent : pindex.pprev.getD 0 = view.hashBlock
  notGenesis : env.blockHash block.toCBlockHeader ≠ env.network.hashGenesisBlock
  checks : connectChecks env node.tree block pindex view = .ok s
  writeOk : env.writeOk .blockIndex = true

/-- The state a computation ends in. -/
def ConnectM.final {α : Type} (x : ConnectM α) (s : Node × CBlockIndex) : Node × CBlockIndex :=
  match x s with
  | .ok _ s' => s'
  | .error _ s' => s'

namespace ConnectM

variable {α β : Type} {s : Node × CBlockIndex}

theorem final_check_bind {x : Except Failure α} {f : α → ConnectM β} :
    (check x >>= f).final s = match x with
      | .ok a => (f a).final s
      | .error _ => s := by
  cases x <;> rfl

theorem final_get_bind {f : Node × CBlockIndex → ConnectM β} :
    ((get : ConnectM (Node × CBlockIndex)) >>= f).final s = (f s).final s := rfl

theorem final_modify_bind {g : Node × CBlockIndex → Node × CBlockIndex} {f : PUnit → ConnectM β} :
    ((modify g : ConnectM PUnit) >>= f).final s = (f ⟨⟩).final (g s) := rfl

theorem final_pure {a : α} : (pure a : ConnectM α).final s = s := rfl

theorem final_write_bind {env : Env} {w : DbWrite} {f : Failure} {g : Node → Node}
    {k : Unit → ConnectM β} : (write env w f g >>= k).final s =
      if env.writeOk w then (k ()).final (g s.1, s.2) else s := by
  unfold write
  split <;> rfl

end ConnectM

/-- The end of `ConnectBlock` when it only checks: the record is written before the value checks. -/
theorem final_connectFinish (env : Env) (block : CBlock) (s : ConnectState) (node : Node)
    (pindex : CBlockIndex) : ((connectFinish env block true s).final (node, pindex)).1 =
      if env.writeOk .blockIndex then node.writeBlockIndex env (pindex.withSupply node.tree s)
      else node := by
  unfold connectFinish
  rw [ConnectM.final_modify_bind, ConnectM.final_get_bind, ConnectM.final_write_bind]
  split
  · rw [ConnectM.final_check_bind]
    split <;> rfl
  · rfl

/-- **`ConnectBlock` when it only checks** writes the index record of the entry it is given if it gets to
the end of its loop, and nothing otherwise. -/
theorem connectBlock_justCheck (env : Env) (block : CBlock) (view : CoinsView) (node : Node)
    (pindex : CBlockIndex) :
    (∀ s, ReachesWrite env node block view pindex s →
        ((connectBlock env block view true).final (node, pindex)).1 =
          node.writeBlockIndex env (pindex.withSupply node.tree s)) ∧
      ((¬ ∃ s, ReachesWrite env node block view pindex s) →
        ((connectBlock env block view true).final (node, pindex)).1 = node) := by
  have hrun : ((connectBlock env block view true).final (node, pindex)).1 =
      match checkBlock env node.tree block false with
      | .error _ => node
      | .ok () =>
        if pindex.pprev.getD 0 = view.hashBlock then
          if env.blockHash block.toCBlockHeader = env.network.hashGenesisBlock then node
          else match connectChecks env node.tree block pindex view with
            | .error _ => node
            | .ok s => if env.writeOk .blockIndex then
                node.writeBlockIndex env (pindex.withSupply node.tree s) else node
        else node := by
    unfold connectBlock
    rw [ConnectM.final_get_bind, ConnectM.final_check_bind, Bool.not_true]
    cases checkBlock env node.tree block false with
    | error f => rfl
    | ok u =>
      dsimp only
      rw [ConnectM.final_check_bind, require]
      by_cases hparent : pindex.pprev.getD 0 = view.hashBlock
      · rw [if_pos (beq_iff_eq.2 hparent), if_pos hparent]
        dsimp only
        by_cases hgenesis : env.blockHash block.toCBlockHeader = env.network.hashGenesisBlock
        · rw [if_pos hgenesis, if_pos hgenesis]
          rfl
        · rw [if_neg hgenesis, if_neg hgenesis, ConnectM.final_check_bind]
          cases connectChecks env node.tree block pindex view with
          | error f => rfl
          | ok s => exact final_connectFinish env block s node pindex
      · rw [if_neg (by simpa using hparent), if_neg hparent]
  rw [hrun]
  constructor
  · intro s hs
    rw [hs.block_ok, hs.checks]
    dsimp only
    rw [if_pos hs.parent, if_neg hs.notGenesis, if_pos hs.writeOk]
  · intro hnone
    cases hblock : checkBlock env node.tree block false with
    | error f => rfl
    | ok u =>
      dsimp only
      split
      · next hparent =>
        split
        · rfl
        · next hgenesis =>
          cases hchecks : connectChecks env node.tree block pindex view with
          | error f => rfl
          | ok s =>
            exact if_neg fun hwrite => hnone ⟨s, hblock, hparent, hgenesis, hchecks, hwrite⟩
      · rfl

/-- **A check records its block**: it gets to the write of the index record, and the database does not
have that record yet. -/
def RecordsBlock (env : Env) (view : CoinsView) (node : Node) (block : CBlock)
    (fCheckMerkleRoot : Bool) : Prop :=
  ∃ hashPrev pindexPrev s, node.tree.chainActive.getLast? = some hashPrev ∧
    node.tree.tip = some pindexPrev ∧
    testChecks env node.tree block hashPrev pindexPrev fCheckMerkleRoot = .ok () ∧
    ReachesWrite env node block view (indexDummy block hashPrev pindexPrev) s ∧
    node.blocktree.blockIndex.lookup
        (env.blockHash ((indexDummy block hashPrev pindexPrev).withSupply node.tree s).header) ≠
      some ((indexDummy block hashPrev pindexPrev).withSupply node.tree s).toDisk

theorem LeavesNoTrace.refl (env : Env) (node : Node) : LeavesNoTrace env node node :=
  ⟨rfl, rfl, rfl, rfl, fun _ => rfl, rfl, rfl⟩

theorem hashKeyLe_antisymm (a b : UInt256) (hab : hashKeyLe a b = true)
    (hba : hashKeyLe b a = true) : a = b := by
  unfold hashKeyLe ByteOrder.lt at hab hba
  rw [Bool.not_eq_true', decide_eq_false_iff_not, not_lt] at hab hba
  have hbytes := ByteOrder.values_injective (le_antisymm hab hba)
  have hget := Codec.getLE_putLE (k := 32) [] a.isLt
  rw [hbytes, Codec.getLE_putLE (k := 32) [] b.isLt] at hget
  exact (BitVec.eq_of_toNat_eq (congrArg Prod.fst (Option.some.inj hget))).symm

theorem hashKeyLe_trans (a b c : UInt256) (hab : hashKeyLe a b = true)
    (hbc : hashKeyLe b c = true) : hashKeyLe a c = true := by
  unfold hashKeyLe at *
  rw [Bool.not_eq_true'] at *
  exact ByteOrder.not_lt_trans hab hbc

/-- Databases with the same records are loaded alike. -/
theorem loadBlockIndexGuts_congr {env : Env} {db db' : CBlockTreeDB}
    (h : ∀ hash, db'.blockIndex.lookup hash = db.blockIndex.lookup hash) :
    loadBlockIndexGuts env db' = loadBlockIndexGuts env db := by
  unfold loadBlockIndexGuts
  rw [sortedEntries_congr hashKeyLe_trans (fun a b => ByteOrder.not_lt_total _ _)
    hashKeyLe_antisymm h]

/-- A record that is written again leaves no trace. -/
theorem writeBlockIndex_leavesNoTrace_iff {env : Env} {node : Node} {p : CBlockIndex} :
    LeavesNoTrace env node (node.writeBlockIndex env p) ↔
      node.blocktree.blockIndex.lookup (env.blockHash p.header) = some p.toDisk := by
  have hlookup : ∀ hash, (node.writeBlockIndex env p).blocktree.blockIndex.lookup hash =
      if hash = env.blockHash p.header then some p.toDisk
      else node.blocktree.blockIndex.lookup hash := fun hash => lookup_insert_eq _ _ _ _
  constructor
  · intro h
    rw [← h.blockIndex, hlookup, if_pos rfl]
  · intro h
    have hsame : ∀ hash, (node.writeBlockIndex env p).blocktree.blockIndex.lookup hash =
        node.blocktree.blockIndex.lookup hash := by
      intro hash
      rw [hlookup]
      split
      · next heq => rw [heq, h]
      · rfl
    exact ⟨rfl, rfl, rfl, rfl, hsame, rfl, loadBlockIndexGuts_congr hsame⟩

/-- What `TestBlockValidity` leaves behind is what `ConnectBlock` does. -/
theorem testBlockValidity_node {env : Env} {view : CoinsView} {node : Node} {block : CBlock}
    {fCheckMerkleRoot : Bool} {hashPrev : UInt256} {pindexPrev : CBlockIndex}
    (hlast : node.tree.chainActive.getLast? = some hashPrev) (htip : node.tree.tip = some pindexPrev)
    (hchecks : testChecks env node.tree block hashPrev pindexPrev fCheckMerkleRoot = .ok ()) :
    (testBlockValidity env view node block fCheckMerkleRoot).2 =
      ((connectBlock env block view true).final
        (node, indexDummy block hashPrev pindexPrev)).1 := by
  unfold testBlockValidity ConnectM.final
  rw [hlast, htip]
  dsimp only
  rw [hchecks]
  dsimp only
  cases connectBlock env block view true (node, indexDummy block hashPrev pindexPrev) <;> rfl

/-- A check that fails before `ConnectBlock` leaves the node alone. -/
theorem testBlockValidity_failed {env : Env} {view : CoinsView} {node : Node} {block : CBlock}
    {fCheckMerkleRoot : Bool} (h : ¬ ∃ hashPrev pindexPrev,
      node.tree.chainActive.getLast? = some hashPrev ∧ node.tree.tip = some pindexPrev ∧
        testChecks env node.tree block hashPrev pindexPrev fCheckMerkleRoot = .ok ()) :
    (testBlockValidity env view node block fCheckMerkleRoot).2 = node := by
  unfold testBlockValidity
  split
  · next hashPrev pindexPrev hlast htip =>
    split
    · rfl
    · next hchecks => exact absurd ⟨hashPrev, pindexPrev, hlast, htip, hchecks⟩ h
  · rfl

/-- **Checks without a trace.**  `TestBlockValidity` leaves the node and the content of its database as
they were, whatever its verdict, if and only if it does not get to the write of an index record that
the database does not have: it is stopped before, or the write fails, or the block was checked
before. -/
theorem testBlockValidity_iff (env : Env) (view : CoinsView) (node : Node) (block : CBlock)
    (fCheckMerkleRoot : Bool) :
    LeavesNoTrace env node (testBlockValidity env view node block fCheckMerkleRoot).2 ↔
      ¬ RecordsBlock env view node block fCheckMerkleRoot := by
  by_cases hstart : ∃ hashPrev pindexPrev,
      node.tree.chainActive.getLast? = some hashPrev ∧ node.tree.tip = some pindexPrev ∧
        testChecks env node.tree block hashPrev pindexPrev fCheckMerkleRoot = .ok ()
  · obtain ⟨hashPrev, pindexPrev, hlast, htip, hchecks⟩ := hstart
    obtain ⟨hwrites, hnone⟩ := connectBlock_justCheck env block view node
      (indexDummy block hashPrev pindexPrev)
    rw [testBlockValidity_node hlast htip hchecks]
    by_cases hreach : ∃ s, ReachesWrite env node block view (indexDummy block hashPrev pindexPrev) s
    · obtain ⟨s, hs⟩ := hreach
      rw [hwrites s hs, writeBlockIndex_leavesNoTrace_iff]
      constructor
      · rintro hthere ⟨h', p', s', hlast', htip', -, hs', hfresh⟩
        rw [hlast, Option.some.injEq] at hlast'
        rw [htip, Option.some.injEq] at htip'
        subst hlast' htip'
        have hss : s = s' := Except.ok.inj (hs.checks.symm.trans hs'.checks)
        exact hfresh (hss ▸ hthere)
      · intro hnot
        by_contra hfresh
        exact hnot ⟨hashPrev, pindexPrev, s, hlast, htip, hchecks, hs, hfresh⟩
    · rw [hnone hreach]
      refine iff_of_true (.refl env node) ?_
      rintro ⟨h', p', s', hlast', htip', -, hs', -⟩
      rw [hlast, Option.some.injEq] at hlast'
      rw [htip, Option.some.injEq] at htip'
      subst hlast' htip'
      exact hreach ⟨s', hs'⟩
  · rw [testBlockValidity_failed hstart]
    refine iff_of_true (.refl env node) ?_
    rintro ⟨hashPrev, pindexPrev, -, hlast, htip, hchecks, -⟩
    exact hstart ⟨hashPrev, pindexPrev, hlast, htip, hchecks⟩

open FeeExample in
/-- **A block that fails its check** because its reward is too high, and is in the index after a restart:
its record was written before the reward was checked. -/
theorem invalidBlock_loaded :
    (testBlockValidity (.quiet .regtest false) view (node 300) (stakeBlock 0 (1000 * coin)) true).1 =
        .error (.block (.dos "bad-cb-amount")) ∧
      LoadedAfterRestart (.quiet .regtest false) (testBlockValidity (.quiet .regtest false) view
        (node 300) (stakeBlock 0 (1000 * coin)) true).2.blocktree 0x51 ∧
      ¬ LoadedAfterRestart (.quiet .regtest false) (node 300).blocktree 0x51 ∧
      ¬ LeavesNoTrace (.quiet .regtest false) (node 300) (testBlockValidity (.quiet .regtest false) view
        (node 300) (stakeBlock 0 (1000 * coin)) true).2 := by
  have hbefore : ¬ LoadedAfterRestart (.quiet .regtest false) (node 300).blocktree 0x51 := by
    rintro ⟨map, hmap, hmem⟩
    have hload : (loadBlockIndexGuts (.quiet .regtest false) (node 300).blocktree).map
        (fun map => decide (0x51 ∈ map)) = some false := by decide +kernel
    rw [hmap, Option.map_some, Option.some.injEq, decide_eq_false_iff_not] at hload
    exact hload hmem
  have hafter : LoadedAfterRestart (.quiet .regtest false) (testBlockValidity (.quiet .regtest false)
      view (node 300) (stakeBlock 0 (1000 * coin)) true).2.blocktree 0x51 := by
    have hload : ((loadBlockIndexGuts (.quiet .regtest false) (testBlockValidity
        (.quiet .regtest false) view (node 300) (stakeBlock 0 (1000 * coin)) true).2.blocktree).map
          fun map => decide (0x51 ∈ map)) = some true := by decide +kernel
    obtain ⟨map, hmap, hmem⟩ := Option.map_eq_some_iff.1 hload
    exact ⟨map, hmap, of_decide_eq_true hmem⟩
  refine ⟨by decide +kernel, hafter, hbefore, fun h => hbefore ?_⟩
  obtain ⟨map, hmap, hmem⟩ := hafter
  exact ⟨map, h.restart ▸ hmap, hmem⟩

end FairCoin
