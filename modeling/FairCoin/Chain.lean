import FairCoin.RoundTrip
import FairCoin.Lib.Run

/-!
# The active chain

`ConnectTip` and `DisconnectTip` of `src/main.cpp` on the state of a node, and the runs
they make up together with the arrival of blocks.

* `ChainState` — the node with the coins view of its tip (`pcoinsTip`).
* `acceptBlock` — a new block gets an index entry and a place in the block files, as
  `AddToBlockIndex` and `ReceivedBlockTransactions` do.
* `connectTip`, `disconnectTip` — move the tip.
* `Op`, `step` — a step of the node; `Run.run step` is a run.

A failed step ends the run.  The flush to disk after a step, the memory pool and the wallet
are not part of the state.
-/

namespace FairCoin

open Store

/-- The node and the coins view of its tip. -/
structure ChainState where
  node : Node := {}
  view : CoinsView := .empty

namespace ChainState

/-- The index entry of a block. -/
def entry (st : ChainState) (hash : UInt256) : Option CBlockIndex :=
  st.node.tree.mapBlockIndex.lookup hash

/-- The hashes of the active chain, from genesis to tip. -/
def chain (st : ChainState) : List UInt256 := st.node.tree.chainActive

/-- The state with a new index entry for a hash. -/
def setEntry (st : ChainState) (hash : UInt256) (pindex : CBlockIndex) : ChainState :=
  { st with node := { st.node with
      tree := { st.node.tree with mapBlockIndex := st.node.tree.mapBlockIndex.insert hash pindex } } }

/-- The state with another active chain. -/
def setChain (st : ChainState) (chain : List UInt256) : ChainState :=
  { st with node := { st.node with tree := { st.node.tree with chainActive := chain } } }

end ChainState

/-- The index entry of a block that arrives with its data.  `base` holds the fields that
`ConnectBlock` does not read: work, stake modifier and the like. -/
def newEntry (hash : UInt256) (pprev : Option UInt256) (nHeight : ℤ) (block : CBlock)
    (pos : CDiskBlockPos) (base : CBlockIndex) : CBlockIndex :=
  { base with
    phashBlock := some hash
    pprev := pprev
    nHeight := nHeight
    nFile := pos.nFile
    nDataPos := pos.nPos
    nUndoPos := 0
    nTx := block.vtx.length
    nStatus := { valid := blockValidTransactions, haveData := true }
    nMint := 0
    nMoneySupply := 0
    nVersion := block.nVersion
    hashMerkleRoot := block.hashMerkleRoot
    nTime := block.nTime
    nBits := block.nBits
    nNonce := block.nNonce }

/-- A new block is stored at a position of the block files that is free, and gets an index
entry one above its parent's.  Only genesis has no parent. -/
def acceptBlock (env : Env) (block : CBlock) (pos : CDiskBlockPos) (base : CBlockIndex)
    (st : ChainState) : Except Failure ChainState := do
  let hash := env.blockHash block.toCBlockHeader
  require (st.entry hash).isNone (.error "AddToBlockIndex")
  require (st.node.blockFiles pos).isNone (.error "FindBlockPos")
  let st₁ : ChainState := { st with node := { st.node with
    blockFiles := Function.update st.node.blockFiles pos (some block) } }
  if hash = env.network.hashGenesisBlock then
    .ok (st₁.setEntry hash (newEntry hash none 0 block pos base))
  else
    match st.entry block.hashPrevBlock with
    | none => .error (.invalid 0 .none "bad-prevblk" false)
    | some prev =>
        .ok (st₁.setEntry hash
          (newEntry hash (some block.hashPrevBlock) (prev.nHeight + 1) block pos base))

/-- `ConnectTip`. -/
def connectTip (env : Env) (hash : UInt256) (st : ChainState) : Except Failure ChainState :=
  match st.entry hash with
  | none => .error (.crash "pindexNew")
  | some pindexNew =>
      if pindexNew.pprev ≠ st.chain.getLast? then
        .error (.crash "pindexNew->pprev == chainActive.Tip()")
      else
        match st.node.readBlockFromDisk env pindexNew with
        | none => .error (.abort "Failed to read block")
        | some block =>
            match connectBlock env block st.view false (st.node, pindexNew) with
            | .error f _ => .error f
            | .ok view (node, pindex) =>
                .ok ((({ node := node, view := view } : ChainState).setEntry hash pindex).setChain
                  (st.chain ++ [hash]))

/-- `DisconnectTip`: an unclean result is a failure. -/
def disconnectTip (env : Env) (st : ChainState) : Except Failure ChainState :=
  match st.chain.getLast? with
  | none => .error (.crash "pindexDelete")
  | some hash =>
      match st.entry hash with
      | none => .error (.crash "pindexDelete")
      | some pindexDelete =>
          match st.node.readBlockFromDisk env pindexDelete with
          | none => .error (.abort "Failed to read block")
          | some block =>
              match disconnectBlock env block st.view (st.node, pindexDelete) with
              | .error f _ => .error f
              | .ok (view, fClean) (node, _) =>
                  if fClean then
                    .ok (({ node := node, view := view } : ChainState).setChain st.chain.dropLast)
                  else .error (.error "DisconnectTip() : DisconnectBlock failed")

/-- A step of the node, with what the rest of the node looks like at that time. -/
inductive Op
  | accept (env : Env) (block : CBlock) (pos : CDiskBlockPos) (base : CBlockIndex)
  | connect (env : Env) (hash : UInt256)
  | disconnect (env : Env)

/-- The environment a step runs in. -/
def Op.env : Op → Env
  | .accept env _ _ _ => env
  | .connect env _ => env
  | .disconnect env => env

/-- One step. -/
def step (st : ChainState) : Op → Except Failure ChainState
  | .accept env block pos base => acceptBlock env block pos base st
  | .connect env hash => connectTip env hash st
  | .disconnect env => disconnectTip env st

/-! ## What a step does -/

theorem acceptBlock_ok {env : Env} {block : CBlock} {pos : CDiskBlockPos} {base : CBlockIndex}
    {st st' : ChainState} (h : acceptBlock env block pos base st = .ok st') :
    st.entry (env.blockHash block.toCBlockHeader) = none ∧ st.node.blockFiles pos = none ∧
    ∃ pprev nHeight,
      (env.blockHash block.toCBlockHeader = env.network.hashGenesisBlock ∧ pprev = none ∧
          nHeight = 0 ∨
        env.blockHash block.toCBlockHeader ≠ env.network.hashGenesisBlock ∧
          ∃ prev, pprev = some block.hashPrevBlock ∧ st.entry block.hashPrevBlock = some prev ∧
            nHeight = prev.nHeight + 1) ∧
      st' = ({ st with node := { st.node with
          blockFiles := Function.update st.node.blockFiles pos (some block) } }
            : ChainState).setEntry (env.blockHash block.toCBlockHeader)
          (newEntry (env.blockHash block.toCBlockHeader) pprev nHeight block pos base) := by
  simp only [acceptBlock, bind_eq_ok, require_eq_ok, exists_const, Option.isNone_iff_eq_none] at h
  obtain ⟨hnew, hfree, h⟩ := h
  refine ⟨hnew, hfree, ?_⟩
  split at h
  · next hgen =>
    cases h
    exact ⟨none, 0, .inl ⟨hgen, rfl, rfl⟩, rfl⟩
  · next hgen =>
    split at h
    · exact absurd h (by simp)
    · next prev hprev =>
      cases h
      exact ⟨_, _, .inr ⟨hgen, prev, rfl, hprev, rfl⟩, rfl⟩

theorem connectTip_ok {env : Env} {hash : UInt256} {st st' : ChainState}
    (h : connectTip env hash st = .ok st') : ∃ pindexNew block view node pindex,
      st.entry hash = some pindexNew ∧ pindexNew.pprev = st.chain.getLast? ∧
      st.node.readBlockFromDisk env pindexNew = some block ∧
      connectBlock env block st.view false (st.node, pindexNew) = .ok view (node, pindex) ∧
      st' = (({ node := node, view := view } : ChainState).setEntry hash pindex).setChain
        (st.chain ++ [hash]) := by
  unfold connectTip at h
  split at h
  · exact absurd h (by simp)
  · next pindexNew hentry =>
    split at h
    · exact absurd h (by simp)
    · next hprev =>
      split at h
      · exact absurd h (by simp)
      · next block hblock =>
        split at h
        · exact absurd h (by simp)
        · next view node pindex hconnect =>
          cases h
          exact ⟨pindexNew, block, view, node, pindex, hentry, not_not.1 hprev, hblock, hconnect, rfl⟩

/-- A block that `ConnectBlock` accepts becomes the tip. -/
theorem connectTip_of_connectBlock {env : Env} {hash : UInt256} {st : ChainState}
    {pindexNew pindex : CBlockIndex} {block : CBlock} {view : CoinsView} {node : Node}
    (hentry : st.entry hash = some pindexNew) (hprev : pindexNew.pprev = st.chain.getLast?)
    (hread : st.node.readBlockFromDisk env pindexNew = some block)
    (hconnect : connectBlock env block st.view false (st.node, pindexNew) = .ok view (node, pindex)) :
    ∃ st', connectTip env hash st = .ok st' ∧ st'.chain.getLast? = some hash ∧
      st'.entry hash = some pindex := by
  refine ⟨(({ node := node, view := view } : ChainState).setEntry hash pindex).setChain
    (st.chain ++ [hash]), ?_, List.getLast?_concat, AList.lookup_insert _⟩
  rw [connectTip, hentry]
  simp only [hprev, ne_eq, not_true_eq_false, if_false, hread, hconnect]

theorem disconnectTip_ok {env : Env} {st st' : ChainState} (h : disconnectTip env st = .ok st') :
    ∃ hash pindexDelete block view node pindex,
      st.chain.getLast? = some hash ∧ st.entry hash = some pindexDelete ∧
      st.node.readBlockFromDisk env pindexDelete = some block ∧
      disconnectBlock env block st.view (st.node, pindexDelete) = .ok (view, true) (node, pindex) ∧
      st' = ({ node := node, view := view } : ChainState).setChain st.chain.dropLast := by
  unfold disconnectTip at h
  split at h
  · exact absurd h (by simp)
  · next hash htip =>
    split at h
    · exact absurd h (by simp)
    · next pindexDelete hentry =>
      split at h
      · exact absurd h (by simp)
      · next block hblock =>
        split at h
        · exact absurd h (by simp)
        · next view fClean node pindex hdis =>
          split at h
          · next hclean =>
            cases h
            subst hclean
            exact ⟨hash, pindexDelete, block, view, node, pindex, htip, hentry, hblock, hdis, rfl⟩
          · exact absurd h (by simp)

theorem readBlockFromDisk_eq_some {env : Env} {node : Node} {pindex : CBlockIndex} {block : CBlock}
    (h : node.readBlockFromDisk env pindex = some block) :
    pindex.getBlockPos.bind node.blockFiles = some block ∧
      env.blockHash block.toCBlockHeader = pindex.getBlockHash := by
  unfold Node.readBlockFromDisk at h
  split at h
  · exact absurd h (by simp)
  · next block' hb =>
    simp only at h
    split at h
    · exact absurd h (by simp)
    · split at h
      · next hhash =>
        cases h
        exact ⟨hb, hhash⟩
      · exact absurd h (by simp)

end FairCoin
