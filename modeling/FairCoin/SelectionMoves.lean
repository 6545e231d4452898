import FairCoin.Selection

/-!
# What activation does to the block tree

The functions that activate a chain change the state by a few moves: they mark a block, drop a
candidate, connect, reject or disconnect a tip, and prune.

* `SameShape` — two trees with the same pointers, heights and work; only `AddToBlockIndex` changes
  the shape.
* `setTip_path` — **`SetTip` writes the path to the new tip**, whatever chain was active before.
* `less_trans`, `best_spec` — the comparator is an order, and the best candidate is a greatest one.
* `SelectInv` — what holds of the index, the candidates and the active chain after every call.
* `Move`, `SelectInv.move` — a move keeps it.
-/

namespace FairCoin

open Store

/-! ## Entries -/

namespace SelectState

variable (s : SelectState)

theorem index_modify (h x : UInt256) (f : CBlockIndex → CBlockIndex) :
    (s.modify h f).index x = if x = h then f (s.index h) else s.index x := by
  rw [BlockTree.index, modify, lookup_insert_eq]
  split
  · rfl
  · rfl

theorem mem_modify {h : UInt256} (hh : h ∈ s.mapBlockIndex) (x : UInt256)
    (f : CBlockIndex → CBlockIndex) :
    x ∈ (s.modify h f).mapBlockIndex ↔ x ∈ s.mapBlockIndex := by
  rw [modify, AList.mem_insert]
  constructor
  · rintro (rfl | hx)
    · exact hh
    · exact hx
  · exact .inr

@[simp] theorem chainActive_modify (h : UInt256) (f : CBlockIndex → CBlockIndex) :
    (s.modify h f).chainActive = s.chainActive := rfl

@[simp] theorem candidates_modify (h : UInt256) (f : CBlockIndex → CBlockIndex) :
    (s.modify h f).setBlockIndexCandidates = s.setBlockIndexCandidates := rfl

@[simp] theorem unlinked_modify (h : UInt256) (f : CBlockIndex → CBlockIndex) :
    (s.modify h f).mapBlocksUnlinked = s.mapBlocksUnlinked := rfl

@[simp] theorem coinsBest_modify (h : UInt256) (f : CBlockIndex → CBlockIndex) :
    (s.modify h f).coinsBest = s.coinsBest := rfl

theorem mem_eraseCandidate {h c : UInt256} :
    c ∈ (s.eraseCandidate h).setBlockIndexCandidates ↔ c ∈ s.setBlockIndexCandidates ∧ c ≠ h := by
  simp [eraseCandidate]

theorem mem_insertCandidate {h c : UInt256} :
    c ∈ (s.insertCandidate h).setBlockIndexCandidates ↔
      c ∈ s.setBlockIndexCandidates ∨ c = h := by
  rw [insertCandidate]
  split
  · next hmem =>
    constructor
    · exact .inl
    · rintro (hc | rfl)
      · exact hc
      · exact hmem
  · simp

theorem insertCandidate_toBlockTree (h : UInt256) :
    (s.insertCandidate h).toBlockTree = s.toBlockTree := by
  rw [insertCandidate]
  split <;> rfl

end SelectState

/-! ## Shapes -/

/-- The two trees have the same blocks, with the same pointers, heights and work. -/
structure SameShape (t t' : BlockTree) : Prop where
  mem : ∀ h, h ∈ t'.mapBlockIndex ↔ h ∈ t.mapBlockIndex
  pprev : ∀ h, (t'.index h).pprev = (t.index h).pprev
  pskip : ∀ h, (t'.index h).pskip = (t.index h).pskip
  nHeight : ∀ h, (t'.index h).nHeight = (t.index h).nHeight
  nChainWork : ∀ h, (t'.index h).nChainWork = (t.index h).nChainWork

namespace SameShape

variable {t t' t'' : BlockTree}

theorem refl (t : BlockTree) : SameShape t t :=
  ⟨fun _ => .rfl, fun _ => rfl, fun _ => rfl, fun _ => rfl, fun _ => rfl⟩

theorem trans (h₁ : SameShape t t') (h₂ : SameShape t' t'') : SameShape t t'' where
  mem h := (h₂.mem h).trans (h₁.mem h)
  pprev h := (h₂.pprev h).trans (h₁.pprev h)
  pskip h := (h₂.pskip h).trans (h₁.pskip h)
  nHeight h := (h₂.nHeight h).trans (h₁.nHeight h)
  nChainWork h := (h₂.nChainWork h).trans (h₁.nChainWork h)

/-- The shape depends on the index alone. -/
theorem of_map_eq (h : t'.mapBlockIndex = t.mapBlockIndex) : SameShape t t' := by
  have hindex : ∀ x, t'.index x = t.index x := fun x => by
    rw [BlockTree.index, h, BlockTree.index]
  refine ⟨fun x => by rw [h], ?_, ?_, ?_, ?_⟩ <;> exact fun x => by rw [hindex]

theorem height (h : SameShape t t') (x : UInt256) : t'.height x = t.height x := by
  rw [BlockTree.height, h.nHeight, BlockTree.height]

theorem path (h : SameShape t t') (x : UInt256) : t'.path x = t.path x := by
  have hparent : t'.parent = t.parent := funext h.pprev
  have hheight : t'.height = t.height := funext h.height
  rw [BlockTree.path, hparent, hheight, BlockTree.path]

theorem walkTo (h : SameShape t t') (k n : ℕ) (x : UInt256) (w : ℕ) :
    t'.walkTo k n x w = t.walkTo k n x w := by
  induction n generalizing x w with
  | zero => rfl
  | succ n ih => simp only [BlockTree.walkTo, ih, h.pprev, h.pskip]

theorem getAncestor (h : SameShape t t') (x : UInt256) (k : ℤ) :
    t'.getAncestor x k = t.getAncestor x k := by
  rw [BlockTree.getAncestor, h.nHeight, h.height, h.walkTo, BlockTree.getAncestor]

theorem isTree (h : SameShape t t') {g : UInt256} (hT : IsTree t g) : IsTree t' g where
  mem_genesis := (h.mem g).2 hT.mem_genesis
  pprev_genesis := (h.pprev g).trans hT.pprev_genesis
  nHeight_genesis := (h.nHeight g).trans hT.nHeight_genesis
  nHeight_nonneg x hx := by
    rw [h.nHeight]
    exact hT.nHeight_nonneg x ((h.mem x).1 hx)
  pprev x hx hne := by
    obtain ⟨p, hp, hpp, hheight⟩ := hT.pprev x ((h.mem x).1 hx) hne
    refine ⟨p, (h.mem p).2 hp, (h.pprev x).trans hpp, ?_⟩
    rw [h.nHeight, h.nHeight, hheight]
  pskip x hx hne := by
    obtain ⟨q, hq, hqs, hheight⟩ := hT.pskip x ((h.mem x).1 hx) hne
    refine ⟨q, by rwa [h.path], (h.pskip x).trans hqs, ?_⟩
    rw [h.height, h.height, hheight]

/-- Changing fields of an entry that are not part of the shape. -/
theorem modify (s : SelectState) {h : UInt256} (hh : h ∈ s.mapBlockIndex)
    {f : CBlockIndex → CBlockIndex} (hf : ∀ p, (f p).pprev = p.pprev ∧ (f p).pskip = p.pskip ∧
      (f p).nHeight = p.nHeight ∧ (f p).nChainWork = p.nChainWork) :
    SameShape s.toBlockTree (s.modify h f).toBlockTree := by
  refine ⟨fun x => s.mem_modify hh x f, ?_, ?_, ?_, ?_⟩ <;>
  · intro x
    rw [s.index_modify]
    split
    · next hx =>
      rw [hx]
      simp only [hf]
    · rfl

end SameShape

/-! ## The active chain -/

namespace IsTree

variable {s : SelectState} {g : UInt256}

theorem getElem?_reverse_path (hT : IsTree s.toBlockTree g) {a x : UInt256}
    (ha : a ∈ s.mapBlockIndex) (k : ℕ) :
    (s.path a).reverse[k]? = some x ↔ x ∈ s.path a ∧ s.height x = k :=
  ParentTree.getElem?_reverse_path hT.levelled ha k

/-- **`SetTip` writes the path to the new tip.** -/
theorem setTip_path (hT : IsTree s.toBlockTree g) {tip pindex : UInt256}
    (htip : tip ∈ s.mapBlockIndex) (hp : pindex ∈ s.mapBlockIndex)
    (hchain : s.chainActive = (s.path tip).reverse) :
    (s.setTip (some pindex)).chainActive = (s.path pindex).reverse := by
  have hin : ∀ x, s.chainActive[s.height x]? = some x ↔ x ∈ s.path tip := fun x => by
    rw [hchain, hT.getElem?_reverse_path htip]
    exact ⟨And.left, fun h => ⟨h, rfl⟩⟩
  simp only [SelectState.setTip]
  set fresh := (s.path pindex).takeWhile fun p => s.chainActive[s.height p]? ≠ some p with hfresh
  -- the walk stops at the fork, genesis at the latest
  obtain ⟨fork, rest, hsplit⟩ : ∃ fork rest,
      (s.path pindex).dropWhile (fun p => s.chainActive[s.height p]? ≠ some p) = fork :: rest := by
    cases hdrop : (s.path pindex).dropWhile fun p => s.chainActive[s.height p]? ≠ some p with
    | nil =>
      have hg := List.dropWhile_eq_nil_iff.1 hdrop g (hT.genesis_mem_path hp)
      exact absurd ((hin g).2 (hT.genesis_mem_path htip)) (by simpa using hg)
    | cons fork rest => exact ⟨fork, rest, rfl⟩
  have hpath : s.path pindex = fresh ++ fork :: rest := by
    rw [hfresh, ← hsplit]
    exact List.takeWhile_append_dropWhile.symm
  have hfork : fork ∈ s.path tip := by
    have hstop := List.head?_dropWhile_not (fun p => s.chainActive[s.height p]? ≠ some p)
      (s.path pindex)
    rw [hsplit] at hstop
    exact (hin fork).1 (by simpa using hstop)
  have hforkPath : s.path fork = fork :: rest := ParentTree.path_of_eq_append hT.levelled hp hpath
  have hforkMem := ParentTree.mem_of_mem_path hT.levelled htip fork hfork
  have htake : s.chainActive.take (s.path fork).length = (s.path fork).reverse := by
    have happ : s.path tip = _ ++ s.path fork :=
      ParentTree.path_eq_append hT.levelled htip fork hfork
    rw [hchain, happ, List.reverse_append, List.take_left' (by simp)]
  have hlen : s.height pindex + 1 - fresh.length = (s.path fork).length := by
    have : (s.path pindex).length = s.height pindex + 1 :=
      ParentTree.length_path hT.levelled hp
    rw [hpath, List.length_append, ← hforkPath] at this
    omega
  rw [hlen, htake, ← List.reverse_append, hforkPath, ← hpath]

end IsTree

/-! ## The order of candidates -/

namespace SelectState

variable {env : SelectEnv} {s : SelectState} {a b c : UInt256}

/-- The comparator puts more work first, then the lower sequence number, then the lower
address. -/
theorem less_iff : s.less env a b = true ↔
    (s.index a).nChainWork < (s.index b).nChainWork ∨
      (s.index a).nChainWork = (s.index b).nChainWork ∧
        ((s.index b).nSequenceId < (s.index a).nSequenceId ∨
          (s.index a).nSequenceId = (s.index b).nSequenceId ∧ env.addr b < env.addr a) := by
  simp only [less]
  split
  · simp; omega
  · split
    · simp; omega
    · split
      · simp; omega
      · split
        · simp; omega
        · split
          · simp; omega
          · split
            · simp; omega
            · simp; omega

theorem less_irrefl (a : UInt256) : s.less env a a = false := by
  rw [Bool.eq_false_iff, Ne, less_iff]
  omega

theorem less_trans (hab : s.less env a b = true) (hbc : s.less env b c = true) :
    s.less env a c = true := by
  rw [less_iff] at *
  omega

/-- What is not below the one is not below what is below it. -/
theorem not_less_of_less (hab : s.less env a b = false) (hcb : s.less env c b = true) :
    s.less env a c = false := by
  rw [Bool.eq_false_iff] at *
  exact fun hac => hab (less_trans hac hcb)

theorem less_of_work_lt (h : (s.index a).nChainWork < (s.index b).nChainWork) :
    s.less env a b = true := less_iff.2 (.inl h)

theorem work_le_of_not_less (h : s.less env a b = false) :
    (s.index b).nChainWork ≤ (s.index a).nChainWork := by
  rw [Bool.eq_false_iff, Ne, less_iff] at h
  omega

/-- Two blocks of which neither is below the other are the same. -/
theorem eq_of_not_less (hab : s.less env a b = false) (hba : s.less env b a = false) : a = b := by
  rw [Bool.eq_false_iff, Ne, less_iff] at hab hba
  apply env.addr_injective
  omega

/-- The order depends on work and sequence numbers alone. -/
theorem less_congr {s' : SelectState}
    (hwork : ∀ x, (s'.index x).nChainWork = (s.index x).nChainWork)
    (ha : (s'.index a).nSequenceId = (s.index a).nSequenceId)
    (hb : (s'.index b).nSequenceId = (s.index b).nSequenceId) :
    s'.less env a b = s.less env a b := by
  simp only [less, hwork, ha, hb]

/-- A step of the search for the best candidate. -/
def bestStep (env : SelectEnv) (s : SelectState) (m : Option UInt256) (c : UInt256) :
    Option UInt256 :=
  match m with
  | none => some c
  | some b => if s.less env b c then some c else some b

theorem best_eq_foldl :
    s.best env = s.setBlockIndexCandidates.foldl (s.bestStep env) none := rfl

/-- The best candidate is a greatest one. -/
theorem best_spec {m : UInt256} (h : s.best env = some m) :
    m ∈ s.setBlockIndexCandidates ∧ ∀ c ∈ s.setBlockIndexCandidates, s.less env m c = false := by
  have hfold : ∀ (l : List UInt256) (acc : Option UInt256) (seen : List UInt256),
      (∀ b, acc = some b → b ∈ seen ∧ ∀ c ∈ seen, s.less env b c = false) →
      (acc = none → seen = []) → ∀ m, l.foldl (s.bestStep env) acc = some m →
      m ∈ seen ++ l ∧ ∀ c ∈ seen ++ l, s.less env m c = false := by
    intro l
    induction l with
    | nil =>
      intro acc seen hacc _ m hm
      rw [List.append_nil]
      exact hacc m hm
    | cons x l ih =>
      intro acc seen hacc hnone m hm
      rw [List.append_cons]
      refine ih _ (seen ++ [x]) ?_ ?_ m hm
      · intro b hb
        cases acc with
        | none =>
          cases hb
          rw [hnone rfl]
          simp [less_irrefl]
        | some y =>
          obtain ⟨hy, hmax⟩ := hacc y rfl
          simp only [bestStep] at hb
          split at hb
          · next hless =>
            cases hb
            refine ⟨by simp, fun c hc => ?_⟩
            rcases List.mem_append.1 hc with hc | hc
            · -- nothing seen before is above the old best, which is below the new one
              rw [Bool.eq_false_iff]
              intro hbc
              exact absurd (less_trans hless hbc) (by rw [hmax c hc]; simp)
            · rw [List.mem_singleton.1 hc]
              exact less_irrefl x
          · next hless =>
            cases hb
            refine ⟨by simp [hy], fun c hc => ?_⟩
            rcases List.mem_append.1 hc with hc | hc
            · exact hmax c hc
            · rw [List.mem_singleton.1 hc]
              simpa using hless
      · intro hb
        cases acc with
        | none => exact absurd hb (by simp [bestStep])
        | some y =>
          simp only [bestStep] at hb
          split at hb <;> exact absurd hb (by simp)
  rw [best_eq_foldl] at h
  simpa using hfold s.setBlockIndexCandidates none [] (by simp) (by simp) m h

theorem best_eq_none (h : s.best env = none) : s.setBlockIndexCandidates = [] := by
  have hfold : ∀ (l : List UInt256) (b : UInt256), l.foldl (s.bestStep env) (some b) ≠ none := by
    intro l
    induction l with
    | nil => simp
    | cons x l ih =>
      intro b
      rw [List.foldl_cons, bestStep]
      split
      · exact ih x
      · exact ih b
  cases hc : s.setBlockIndexCandidates with
  | nil => rfl
  | cons x l =>
    rw [best_eq_foldl, hc, List.foldl_cons] at h
    exact absurd h (hfold l x)

end SelectState

/-- The tip of a chain that is the path to a block is this block. -/
theorem SelectState.tipHash_of_chain {s : SelectState} {t : BlockTree} {tip : UInt256}
    (h : s.chainActive = (t.path tip).reverse) : s.tipHash = some tip := by
  rw [SelectState.tipHash, h, List.getLast?_reverse]
  exact ParentTree.head?_path tip

/-! ## Invariants -/

/-- The two states have the same entries but for the failed flags, the undo positions and the
validity levels. -/
structure SameData (s s' : SelectState) : Prop extends
    SameShape s.toBlockTree s'.toBlockTree where
  nTx : ∀ h, (s'.index h).nTx = (s.index h).nTx
  nChainTx : ∀ h, (s'.index h).nChainTx = (s.index h).nChainTx
  nSequenceId : ∀ h, (s'.index h).nSequenceId = (s.index h).nSequenceId
  haveData : ∀ h, (s'.index h).nStatus.haveData = (s.index h).nStatus.haveData
  unlinked : s'.mapBlocksUnlinked = s.mapBlocksUnlinked

/-- What the entries satisfy, whatever chain is active.

* `header` — pointers and work are those of the header;
* `levels` — a block has its data when it has transactions, and then it is valid so far;
* `scripts` — a block was connected only after its parent;
* `work` — a block with data adds to the work of its parent;
* `linked`, `sum` — `nChainTx` is set when the block and its ancestors have their data, and counts
  their transactions. -/
structure EntryBase (env : SelectEnv) (s : SelectState) : Prop where
  tree : IsTree s.toBlockTree env.hashGenesisBlock
  genesis_data : (s.index env.hashGenesisBlock).nTx ≠ 0
  genesis_undo : (s.index env.hashGenesisBlock).nStatus.haveUndo = false
  header : ∀ h ∈ s.mapBlockIndex, h ≠ env.hashGenesisBlock →
    (s.index h).pprev = some (env.hashPrevBlock h) ∧ (s.index h).nChainWork =
      (s.index (env.hashPrevBlock h)).nChainWork + env.getBlockProof h
  levels : ∀ h ∈ s.mapBlockIndex, blockValidTree ≤ (s.index h).nStatus.valid ∧
    (blockValidTransactions ≤ (s.index h).nStatus.valid ↔ (s.index h).nTx ≠ 0) ∧
    ((s.index h).nStatus.haveData = true ↔ (s.index h).nTx ≠ 0)
  scripts : ∀ h ∈ s.mapBlockIndex, blockValidTransactions < (s.index h).nStatus.valid →
    blockValidScripts ≤ (s.index h).nStatus.valid ∧ ∀ p, (s.index h).pprev = some p →
      p = env.hashGenesisBlock ∨ blockValidScripts ≤ (s.index p).nStatus.valid
  work : ∀ h ∈ s.mapBlockIndex, ∀ p, (s.index h).pprev = some p →
    (s.index p).nChainWork ≤ (s.index h).nChainWork ∧
      ((s.index h).nTx ≠ 0 → (s.index p).nChainWork < (s.index h).nChainWork)
  linked : ∀ h ∈ s.mapBlockIndex, (s.index h).nChainTx ≠ 0 → (s.index h).nTx ≠ 0 ∧
    ∀ p, (s.index h).pprev = some p → (s.index p).nChainTx ≠ 0
  sum : ∀ h ∈ s.mapBlockIndex, (s.index h).nChainTx ≠ 0 →
    (s.index h).nChainTx = ((s.path h).map fun x => (s.index x).nTx).sum
  sequence : ∀ h ∈ s.mapBlockIndex, (s.index h).nChainTx = 0 → (s.index h).nSequenceId = 0
  unlinked_nodup : (s.mapBlocksUnlinked.map Prod.snd).Nodup

/-- Besides, `nChainTx` is set as soon as the block and its ancestors have their data, and until
then a block with data waits for its parent in `mapBlocksUnlinked`. -/
structure EntryInv (env : SelectEnv) (s : SelectState) : Prop extends EntryBase env s where
  ready : ∀ h ∈ s.mapBlockIndex, (s.index h).nTx ≠ 0 → (s.index h).nChainTx = 0 →
    ∃ p, (s.index h).pprev = some p ∧ (s.index p).nChainTx = 0
  unlinked_iff : ∀ p h, (p, h) ∈ s.mapBlocksUnlinked ↔ h ∈ s.mapBlockIndex ∧
    (s.index h).pprev = some p ∧ (s.index h).nTx ≠ 0 ∧ (s.index h).nChainTx = 0

/-- The active chain is the path to the best block of the coins view, its blocks have been
connected, and the candidates have their data and are not below the tip. -/
structure TipInv (env : SelectEnv) (s : SelectState) : Prop extends EntryInv env s where
  chain : ∃ tip ∈ s.mapBlockIndex, s.chainActive = (s.path tip).reverse ∧ s.coinsBest = tip
  active : ∀ h ∈ s.chainActive, (s.index h).nChainTx ≠ 0 ∧
    (h ≠ env.hashGenesisBlock → (s.index h).nStatus.haveUndo = true ∧
      blockValidScripts ≤ (s.index h).nStatus.valid)
  candidates : ∀ c ∈ s.setBlockIndexCandidates, c ∈ s.mapBlockIndex ∧ (s.index c).nChainTx ≠ 0 ∧
    ∀ tip, s.tipHash = some tip → s.less env c tip = false

/-- What holds after every call: besides, no block of the active chain is failed. -/
structure SelectInv (env : SelectEnv) (s : SelectState) : Prop extends TipInv env s where
  unfailed : ∀ h ∈ s.chainActive, (s.index h).nStatus.failed = false

namespace SameData

variable {s s' s'' : SelectState} {env : SelectEnv}

theorem of_map_eq (hm : s'.mapBlockIndex = s.mapBlockIndex)
    (hu : s'.mapBlocksUnlinked = s.mapBlocksUnlinked) : SameData s s' := by
  have hindex : ∀ x, s'.index x = s.index x := fun x => by
    rw [BlockTree.index, hm, BlockTree.index]
  refine ⟨.of_map_eq hm, ?_, ?_, ?_, ?_, hu⟩ <;> exact fun x => by rw [hindex]

theorem trans (h₁ : SameData s s') (h₂ : SameData s' s'') : SameData s s'' where
  toSameShape := h₁.toSameShape.trans h₂.toSameShape
  nTx h := (h₂.nTx h).trans (h₁.nTx h)
  nChainTx h := (h₂.nChainTx h).trans (h₁.nChainTx h)
  nSequenceId h := (h₂.nSequenceId h).trans (h₁.nSequenceId h)
  haveData h := (h₂.haveData h).trans (h₁.haveData h)
  unlinked := h₂.unlinked.trans h₁.unlinked

/-- A change of an entry that keeps all but the status. -/
theorem modify (s : SelectState) {h : UInt256} (hh : h ∈ s.mapBlockIndex)
    {f : CBlockIndex → CBlockIndex} (hf : ∀ p, ∃ st : BlockStatus, f p = { p with nStatus := st } ∧
      st.haveData = p.nStatus.haveData) : SameData s (s.modify h f) := by
  have hfields : ∀ x, ∃ st : BlockStatus, (s.modify h f).index x =
      { s.index x with nStatus := st } ∧ st.haveData = (s.index x).nStatus.haveData := by
    intro x
    rw [s.index_modify]
    split
    · next hx =>
      rw [hx]
      exact hf _
    · exact ⟨_, rfl, rfl⟩
  refine ⟨.modify s hh fun p => ?_, ?_, ?_, ?_, ?_, rfl⟩
  · obtain ⟨st, hst, -⟩ := hf p
    rw [hst]
    exact ⟨rfl, rfl, rfl, rfl⟩
  all_goals
    intro x
    obtain ⟨st, hst, hdata⟩ := hfields x
    rw [hst]
  exact hdata

theorem less (h : SameData s s') (a b : UInt256) : s'.less env a b = s.less env a b :=
  SelectState.less_congr h.nChainWork (h.nSequenceId a) (h.nSequenceId b)

section

variable (h : SameData s s')
  (hvalid : ∀ x, (s.index x).nStatus.valid ≤ (s'.index x).nStatus.valid ∧
    ((s'.index x).nStatus.valid = (s.index x).nStatus.valid ∨
      blockValidScripts ≤ (s'.index x).nStatus.valid ∧ (s.index x).nTx ≠ 0 ∧
        ∀ p, (s.index x).pprev = some p →
          p = env.hashGenesisBlock ∨ blockValidScripts ≤ (s'.index p).nStatus.valid))
  (hundo : (s'.index env.hashGenesisBlock).nStatus.haveUndo =
    (s.index env.hashGenesisBlock).nStatus.haveUndo)

include h hvalid hundo

theorem entryBase (hI : EntryBase env s) : EntryBase env s' where
  tree := h.isTree hI.tree
  genesis_data := by
    rw [h.nTx]
    exact hI.genesis_data
  genesis_undo := hundo.trans hI.genesis_undo
  header x hx := by
    rw [h.pprev, h.nChainWork, h.nChainWork]
    exact hI.header x ((h.mem x).1 hx)
  levels x hx := by
    obtain ⟨htree, htx, hdata⟩ := hI.levels x ((h.mem x).1 hx)
    obtain ⟨hle, hraise⟩ := hvalid x
    rw [h.nTx, h.haveData]
    refine ⟨htree.trans hle, ?_, hdata⟩
    rcases hraise with heq | ⟨hge, hnTx, -⟩
    · rw [heq]
      exact htx
    · exact ⟨fun _ => hnTx, fun _ => le_trans (by decide) hge⟩
  scripts x hx := by
    obtain ⟨hle, hraise⟩ := hvalid x
    rw [h.pprev]
    rcases hraise with heq | ⟨hge, -, hparent⟩
    · rw [heq]
      intro hlt
      obtain ⟨hge, hparent⟩ := hI.scripts x ((h.mem x).1 hx) hlt
      exact ⟨hge, fun p hp => (hparent p hp).imp id fun hp' => hp'.trans (hvalid p).1⟩
    · exact fun _ => ⟨hge, hparent⟩
  work x hx := by
    simp only [h.pprev, h.nChainWork, h.nTx]
    exact hI.work x ((h.mem x).1 hx)
  linked x hx := by
    simp only [h.nChainTx, h.nTx, h.pprev]
    exact hI.linked x ((h.mem x).1 hx)
  sum x hx := by
    simp only [h.nChainTx, h.path, h.nTx]
    exact hI.sum x ((h.mem x).1 hx)
  sequence x hx := by
    rw [h.nChainTx, h.nSequenceId]
    exact hI.sequence x ((h.mem x).1 hx)
  unlinked_nodup := by
    rw [h.unlinked]
    exact hI.unlinked_nodup

/-- Entries that differ in flags satisfy the same.  The validity of a block may be raised when it
has its data and its parent has been connected. -/
theorem entryInv (hI : EntryInv env s) : EntryInv env s' where
  toEntryBase := h.entryBase hvalid hundo hI.toEntryBase
  ready x hx := by
    simp only [h.nChainTx, h.nTx, h.pprev]
    exact hI.ready x ((h.mem x).1 hx)
  unlinked_iff p x := by
    rw [h.unlinked, h.mem, h.pprev, h.nTx, h.nChainTx]
    exact hI.unlinked_iff p x

end

end SameData

namespace EntryBase

variable {env : SelectEnv} {s : SelectState}

/-- A block with `nChainTx` set has ancestors with it set. -/
theorem linked_path (hI : EntryBase env s) {h : UInt256} (hh : h ∈ s.mapBlockIndex)
    (hset : (s.index h).nChainTx ≠ 0) : ∀ x ∈ s.path h, (s.index x).nChainTx ≠ 0 := by
  revert hset
  induction h, hh using hI.tree.levelled.induction with
  | root h hh hp =>
    intro hset x hx
    rw [BlockTree.path, ParentTree.path_of_root hI.tree.levelled hh hp,
      List.mem_singleton] at hx
    rwa [hx]
  | child h hh p hp ih =>
    intro hset x hx
    rcases (ParentTree.mem_path_iff hI.tree.levelled hh).1 hx with rfl | ⟨p', hp', hx'⟩
    · exact hset
    · cases hp.symm.trans hp'
      exact ih ((hI.linked h hh hset).2 p hp) x hx'

theorem haveData_of_linked (hI : EntryBase env s) {h : UInt256} (hh : h ∈ s.mapBlockIndex)
    (hset : (s.index h).nChainTx ≠ 0) : (s.index h).nStatus.haveData = true :=
  (hI.levels h hh).2.2.2 (hI.linked h hh hset).1

/-- Work grows along the path to a linked block. -/
theorem work_lt_of_mem_path (hI : EntryBase env s) {h : UInt256} (hh : h ∈ s.mapBlockIndex)
    (hset : (s.index h).nChainTx ≠ 0) : ∀ x ∈ s.path h, x ≠ h →
      (s.index x).nChainWork < (s.index h).nChainWork := by
  revert hset
  induction h, hh using hI.tree.levelled.induction with
  | root h hh hp =>
    intro _ x hx hne
    rw [BlockTree.path, ParentTree.path_of_root hI.tree.levelled hh hp,
      List.mem_singleton] at hx
    exact absurd hx hne
  | child h hh p hp ih =>
    intro hset x hx hne
    have hx' : x ∈ s.path p := ParentTree.mem_path_parent hI.tree.levelled hh hp hx hne
    obtain ⟨htx, hp0⟩ := hI.linked h hh hset
    have hlt := (hI.work h hh p hp).2 htx
    by_cases hxp : x = p
    · rw [hxp]
      exact hlt
    · exact (ih (hp0 p hp) x hx' hxp).trans hlt

end EntryBase

namespace TipInv

variable {env : SelectEnv} {s : SelectState}

/-- The tip of the active chain. -/
theorem exists_tip (hI : TipInv env s) : ∃ tip ∈ s.mapBlockIndex, s.tipHash = some tip ∧
    s.chainActive = (s.path tip).reverse ∧ s.coinsBest = tip := by
  obtain ⟨tip, hmem, hchain, hcoins⟩ := hI.chain
  exact ⟨tip, hmem, SelectState.tipHash_of_chain hchain, hchain, hcoins⟩

/-- `Contains` tests membership in the active chain. -/
theorem contains_iff (hI : TipInv env s) {h : UInt256} (hh : h ∈ s.mapBlockIndex) :
    s.contains h = true ↔ h ∈ s.chainActive := by
  obtain ⟨tip, hmem, -, hchain, -⟩ := hI.exists_tip
  have hnonneg := hI.tree.nHeight_nonneg h hh
  rw [SelectState.contains, Bool.and_eq_true, decide_eq_true_iff, beq_iff_eq, hchain,
    hI.tree.getElem?_reverse_path hmem, List.mem_reverse]
  constructor
  · exact fun h => h.2.1
  · exact fun h => ⟨hnonneg, h, rfl⟩

theorem mem_of_mem_chain (hI : TipInv env s) {h : UInt256} (hh : h ∈ s.chainActive) :
    h ∈ s.mapBlockIndex := by
  obtain ⟨tip, hmem, -, hchain, -⟩ := hI.exists_tip
  rw [hchain, List.mem_reverse] at hh
  exact ParentTree.mem_of_mem_path hI.tree.levelled hmem h hh

theorem tip_mem_chain {tip : UInt256} (htip : s.tipHash = some tip) : tip ∈ s.chainActive :=
  List.mem_of_getLast? htip

/-- Marks and dropped candidates do no harm to the chain. -/
theorem frame {s' : SelectState} (hI : TipInv env s) (hd : SameData s s')
    (hvalid : ∀ x, (s'.index x).nStatus.valid = (s.index x).nStatus.valid)
    (hundo : ∀ x, (s'.index x).nStatus.haveUndo = (s.index x).nStatus.haveUndo)
    (hchain : s'.chainActive = s.chainActive) (hcoins : s'.coinsBest = s.coinsBest)
    (hcand : ∀ c ∈ s'.setBlockIndexCandidates, c ∈ s.setBlockIndexCandidates) :
    TipInv env s' where
  toEntryInv := hd.entryInv (fun x => ⟨(hvalid x).ge, .inl (hvalid x)⟩) (hundo _) hI.toEntryInv
  chain := by
    obtain ⟨tip, hmem, hpath, hbest⟩ := hI.chain
    refine ⟨tip, (hd.mem tip).2 hmem, ?_, hcoins.trans hbest⟩
    rw [hchain, hpath, hd.path]
  active x hx := by
    rw [hchain] at hx
    rw [hd.nChainTx, hundo, hvalid]
    exact hI.active x hx
  candidates c hc := by
    obtain ⟨hmem, hlink, hless⟩ := hI.candidates c (hcand c hc)
    rw [hd.mem, hd.nChainTx]
    refine ⟨hmem, hlink, fun tip htip => ?_⟩
    rw [hd.less]
    exact hless tip (by rwa [SelectState.tipHash, hchain] at htip)

/-- A change of flags. -/
theorem modify_flag (hI : TipInv env s) {h : UInt256} (hmem : h ∈ s.mapBlockIndex)
    {f : CBlockIndex → CBlockIndex}
    (hf : ∀ p, ∃ st : BlockStatus, f p = { p with nStatus := st } ∧
      st.haveData = p.nStatus.haveData ∧ st.valid = p.nStatus.valid ∧
      st.haveUndo = p.nStatus.haveUndo) : TipInv env (s.modify h f) := by
  have hd : SameData s (s.modify h f) := SameData.modify s hmem fun p => by
    obtain ⟨st, hst, hdata, -⟩ := hf p
    exact ⟨st, hst, hdata⟩
  have hfields : ∀ x, ((s.modify h f).index x).nStatus.valid = (s.index x).nStatus.valid ∧
      ((s.modify h f).index x).nStatus.haveUndo = (s.index x).nStatus.haveUndo := by
    intro x
    rw [s.index_modify]
    split
    · next hx =>
      obtain ⟨st, hst, -, hvalid, hundo⟩ := hf (s.index h)
      rw [hst, hx]
      exact ⟨hvalid, hundo⟩
    · exact ⟨rfl, rfl⟩
  exact hI.frame hd (fun x => (hfields x).1) (fun x => (hfields x).2) rfl rfl fun c hc => hc

/-- Candidates may be dropped, and counters run. -/
theorem withCandidates {s' : SelectState} (hI : TipInv env s)
    (hmap : s'.mapBlockIndex = s.mapBlockIndex)
    (hu : s'.mapBlocksUnlinked = s.mapBlocksUnlinked) (hchain : s'.chainActive = s.chainActive)
    (hcoins : s'.coinsBest = s.coinsBest)
    (hcand : ∀ c ∈ s'.setBlockIndexCandidates, c ∈ s.setBlockIndexCandidates) :
    TipInv env s' := by
  have hindex : ∀ x, s'.index x = s.index x := fun x => by
    rw [BlockTree.index, hmap, BlockTree.index]
  exact hI.frame (SameData.of_map_eq hmap hu) (fun x => by rw [hindex]) (fun x => by rw [hindex])
    hchain hcoins hcand

end TipInv

/-! ## Moves -/

namespace SelectState

/-- The state after a successful `ConnectTip`. -/
def connected (env : SelectEnv) (h : UInt256) (s : SelectState) : SelectState :=
  ({ ({ s with nConnects := s.nConnects + 1 } : SelectState).modify h (markConnected env h) with
    coinsBest := h } : SelectState).setTip (some h)

/-- The state after a successful `DisconnectTip`. -/
def disconnected (tip : UInt256) (s : SelectState) : SelectState :=
  ({ s with
    nDisconnects := s.nDisconnects + 1
    coinsBest := (s.index tip).pprev.getD 0 } : SelectState).setTip (s.index tip).pprev

/-- The candidates that are not below the tip. -/
def pruned (env : SelectEnv) (s : SelectState) : SelectState :=
  { s with setBlockIndexCandidates :=
      s.setBlockIndexCandidates.filter fun c => s.tipHash.all fun tip => !s.less env c tip }

/-- The state after `InvalidBlockFound`, before the candidate is dropped. -/
def rejected (h : UInt256) (s : SelectState) : SelectState :=
  ({ s with nConnects := s.nConnects + 1 } : SelectState).modify h .markFailedValid

theorem setTip_mapBlockIndex (s : SelectState) (h : Option UInt256) :
    (s.setTip h).mapBlockIndex = s.mapBlockIndex := by
  cases h <;> rfl

theorem setTip_unlinked (s : SelectState) (h : Option UInt256) :
    (s.setTip h).mapBlocksUnlinked = s.mapBlocksUnlinked := by
  cases h <;> rfl

theorem setTip_candidates (s : SelectState) (h : Option UInt256) :
    (s.setTip h).setBlockIndexCandidates = s.setBlockIndexCandidates := by
  cases h <;> rfl

theorem setTip_coinsBest (s : SelectState) (h : Option UInt256) :
    (s.setTip h).coinsBest = s.coinsBest := by
  cases h <;> rfl

theorem setTip_counters (s : SelectState) (h : Option UInt256) :
    (s.setTip h).nConnects = s.nConnects ∧ (s.setTip h).nDisconnects = s.nDisconnects := by
  cases h <;> exact ⟨rfl, rfl⟩

theorem setTip_index (s : SelectState) (h : Option UInt256) (x : UInt256) :
    (s.setTip h).index x = s.index x := by
  cases h <;> rfl

theorem markConnected_spec (env : SelectEnv) (h : UInt256) (p : CBlockIndex) :
    ∃ st : BlockStatus, markConnected env h p = { p with nStatus := st } ∧
      st.haveData = p.nStatus.haveData ∧ st.failed = p.nStatus.failed ∧
      p.nStatus.valid ≤ st.valid ∧ (h ≠ env.hashGenesisBlock → p.nStatus.failed = false →
        st.haveUndo = true ∧ blockValidScripts ≤ st.valid) := by
  rw [markConnected]
  split
  · next hg => exact ⟨p.nStatus, rfl, rfl, rfl, le_rfl, fun hne => absurd hg hne⟩
  · rw [CBlockIndex.raiseValidity]
    split
    · next hfail =>
      refine ⟨{ p.nStatus with haveUndo := true }, rfl, rfl, rfl, le_rfl, fun _ hok => ?_⟩
      exact absurd (hok.symm.trans hfail) (by simp)
    · split
      · next hlt =>
        exact ⟨{ p.nStatus with haveUndo := true, valid := blockValidScripts }, rfl, rfl, rfl,
          hlt.le, fun _ _ => ⟨rfl, le_rfl⟩⟩
      · next hge =>
        exact ⟨{ p.nStatus with haveUndo := true }, rfl, rfl, rfl, le_rfl,
          fun _ _ => ⟨rfl, not_lt.1 hge⟩⟩

theorem sameData_markConnected (env : SelectEnv) (s : SelectState) {h : UInt256}
    (hh : h ∈ s.mapBlockIndex) : SameData s (s.modify h (markConnected env h)) := by
  refine SameData.modify s hh fun p => ?_
  obtain ⟨st, hst, hdata, -⟩ := markConnected_spec env h p
  exact ⟨st, hst, hdata⟩

theorem sameData_connected (env : SelectEnv) (s : SelectState) {h : UInt256}
    (hh : h ∈ s.mapBlockIndex) : SameData s (s.connected env h) :=
  (s.sameData_markConnected env hh).trans
    (SameData.of_map_eq (setTip_mapBlockIndex _ _) (setTip_unlinked _ _))

theorem index_connected (env : SelectEnv) (s : SelectState) (h x : UInt256) :
    (s.connected env h).index x =
      if x = h then markConnected env h (s.index h) else s.index x := by
  rw [connected, setTip_index]
  exact s.index_modify h x _

theorem failed_connected (env : SelectEnv) (s : SelectState) (h x : UInt256) :
    ((s.connected env h).index x).nStatus.failed = (s.index x).nStatus.failed := by
  rw [index_connected]
  split
  · next hx =>
    obtain ⟨st, hst, -, hfail, -⟩ := markConnected_spec env h (s.index h)
    rw [hst, hx]
    exact hfail
  · rfl

theorem sameData_disconnected (s : SelectState) (tip : UInt256) :
    SameData s (s.disconnected tip) :=
  SameData.of_map_eq (setTip_mapBlockIndex _ _) (setTip_unlinked _ _)

theorem index_disconnected (s : SelectState) (tip x : UInt256) :
    (s.disconnected tip).index x = s.index x := setTip_index _ _ x

end SelectState

open SelectState

/-- What a function that activates a chain does to the state, one move at a time. -/
inductive Move (env : SelectEnv) : SelectState → SelectState → Prop
  /-- A block off the active chain is marked as a descendant of a failed one. -/
  | mark (s h) (hmem : h ∈ s.mapBlockIndex) (hoff : h ∉ s.chainActive)
      (hfail : ∃ x ∈ s.path h, (s.index x).nStatus.failed = true) :
      Move env s (s.modify h .markFailedChild)
  /-- A failed block is no candidate. -/
  | erase (s h) (hfail : (s.index h).nStatus.failed = true) : Move env s (s.eraseCandidate h)
  /-- `ConnectBlock` finds the block on top of the tip invalid. -/
  | reject (s h) (hmem : h ∈ s.mapBlockIndex) (hp : (s.index h).pprev = s.tipHash)
      (hok : (s.index h).nStatus.failed = false)
      (hverdict : env.connectBlock s.nConnects h = .invalid false) :
      Move env s (s.rejected h)
  /-- A block on top of the tip is connected, and the candidates are pruned. -/
  | connect (s h) (hmem : h ∈ s.mapBlockIndex) (hp : (s.index h).pprev = s.tipHash)
      (hok : (s.index h).nStatus.failed = false) (hlink : (s.index h).nChainTx ≠ 0)
      (hverdict : env.connectBlock s.nConnects h = .ok) :
      Move env s ((s.connected env h).pruned env)
  /-- The tip is disconnected. -/
  | disconnect (s tip) (htip : s.tipHash = some tip) (hne : tip ≠ env.hashGenesisBlock) :
      Move env s (s.disconnected tip)
  /-- `ConnectBlock` or `DisconnectBlock` returned without effect. -/
  | tick (s) (nConnects nDisconnects : ℕ) (hle : s.nConnects ≤ nConnects) :
      Move env s { s with nConnects := nConnects, nDisconnects := nDisconnects }

namespace TipInv

variable {env : SelectEnv} {s : SelectState}

/-- A block on top of the tip is not in the active chain. -/
theorem not_mem_chain_of_pprev (hI : TipInv env s) {h : UInt256} (hh : h ∈ s.mapBlockIndex)
    (hp : (s.index h).pprev = s.tipHash) : h ∉ s.chainActive := by
  obtain ⟨tip, hmem, htip, hchain, -⟩ := hI.exists_tip
  intro hin
  rw [hchain, List.mem_reverse] at hin
  have hle : s.height h ≤ s.height tip :=
    ParentTree.height_le_of_mem_path hI.tree.levelled hmem h hin
  have hheight : s.height h = s.height tip + 1 :=
    hI.tree.levelled.height_parent h hh tip (hp.trans htip)
  omega

/-- The chain after a block has been connected. -/
theorem chain_connected (hI : TipInv env s) {h : UInt256} (hmem : h ∈ s.mapBlockIndex) :
    (s.connected env h).chainActive = (s.path h).reverse := by
  obtain ⟨tip, htipMem, -, hchain, -⟩ := hI.exists_tip
  have hd := s.sameData_markConnected env hmem
  rw [← hd.path]
  refine IsTree.setTip_path (g := env.hashGenesisBlock) (hd.isTree hI.tree)
    ((hd.mem tip).2 htipMem) ((hd.mem h).2 hmem) ?_
  exact hchain.trans (congrArg List.reverse (hd.path tip).symm)

/-- The chain after the tip has been disconnected. -/
theorem chain_disconnected (hI : TipInv env s) {tip p : UInt256} (htip : s.tipHash = some tip)
    (hp : (s.index tip).pprev = some p) :
    (s.disconnected tip).chainActive = (s.path p).reverse := by
  have hmem := hI.mem_of_mem_chain (tip_mem_chain htip)
  obtain ⟨tip', hmem', htip', hchain, -⟩ := hI.exists_tip
  rw [SelectState.disconnected, hp]
  exact IsTree.setTip_path (g := env.hashGenesisBlock) hI.tree hmem'
    (hI.tree.levelled.parent_mem tip hmem p hp) hchain

/-- A tip other than genesis has a parent in the active chain, with less work. -/
theorem exists_pprev_tip (hI : TipInv env s) {tip : UInt256} (htip : s.tipHash = some tip)
    (hne : tip ≠ env.hashGenesisBlock) : ∃ p ∈ s.mapBlockIndex, (s.index tip).pprev = some p ∧
      s.path tip = tip :: s.path p ∧ (s.index p).nChainWork < (s.index tip).nChainWork := by
  have hin := tip_mem_chain htip
  have hmem := hI.mem_of_mem_chain hin
  obtain ⟨p, hpMem, hp, -⟩ := hI.tree.pprev tip hmem hne
  exact ⟨p, hpMem, hp, ParentTree.path_of_parent hI.tree.levelled hmem hp,
    (hI.work tip hmem p hp).2 (hI.linked tip hmem (hI.active tip hin).1).1⟩

/-- Connecting a block with its data on top of the tip. -/
theorem connect (hI : TipInv env s) {h : UInt256} (hmem : h ∈ s.mapBlockIndex)
    (hp : (s.index h).pprev = s.tipHash) (hok : (s.index h).nStatus.failed = false)
    (hlink : (s.index h).nChainTx ≠ 0) : TipInv env ((s.connected env h).pruned env) := by
  obtain ⟨tip, htipMem, htip, hchain, -⟩ := hI.exists_tip
  have hpp : (s.index h).pprev = some tip := hp.trans htip
  have hd := s.sameData_connected env hmem
  have hne : h ≠ env.hashGenesisBlock := by
    rintro rfl
    exact absurd (hI.tree.pprev_genesis.symm.trans hpp) (by simp)
  have hpath : s.path h = h :: s.path tip := ParentTree.path_of_parent hI.tree.levelled hmem hpp
  have hother : ∀ x, x ≠ h → (s.connected env h).index x = s.index x := by
    intro x hx
    rw [s.index_connected, if_neg hx]
  obtain ⟨st, hst, -, -, hle, hnew⟩ := markConnected_spec env h (s.index h)
  have hself : ((s.connected env h).index h).nStatus = st := by
    rw [s.index_connected, if_pos rfl, hst]
  obtain ⟨hundo, hscripts⟩ := hnew hne hok
  have hvalid : ∀ x, (s.index x).nStatus.valid ≤ ((s.connected env h).index x).nStatus.valid := by
    intro x
    by_cases hx : x = h
    · rw [hx, hself]
      exact hle
    · rw [hother x hx]
  have hentry : EntryInv env (s.connected env h) := by
    refine hd.entryInv (fun x => ⟨hvalid x, ?_⟩) (by rw [hother _ (Ne.symm hne)]) hI.toEntryInv
    by_cases hx : x = h
    · refine .inr ⟨by rw [hx, hself]; exact hscripts, by rw [hx]; exact (hI.linked h hmem hlink).1,
        fun p hxp => ?_⟩
      rw [hx, hpp] at hxp
      cases hxp
      by_cases htg : tip = env.hashGenesisBlock
      · exact .inl htg
      · exact .inr (((hI.active tip (tip_mem_chain htip)).2 htg).2.trans (hvalid tip))
    · exact .inl (by rw [hother x hx])
  have hnewChain := hI.chain_connected hmem
  have hsame : SameData (s.connected env h) ((s.connected env h).pruned env) :=
    SameData.of_map_eq rfl rfl
  refine ⟨hsame.entryInv (fun x => ⟨le_rfl, .inl rfl⟩) rfl hentry,
    ⟨h, (hd.mem h).2 hmem, ?_, setTip_coinsBest _ _⟩, fun x hx => ?_, fun c hc => ?_⟩
  · exact hnewChain.trans (congrArg List.reverse (hd.path h).symm)
  · show ((s.connected env h).index x).nChainTx ≠ 0 ∧ (_ →
        ((s.connected env h).index x).nStatus.haveUndo = true ∧
          _ ≤ ((s.connected env h).index x).nStatus.valid)
    rw [hd.nChainTx]
    by_cases hxh : x = h
    · rw [hxh, hself]
      exact ⟨hlink, fun _ => ⟨hundo, hscripts⟩⟩
    · rw [hother x hxh]
      apply hI.active x
      have hx' : x ∈ (s.path h).reverse := hnewChain ▸ hx
      rw [hpath, List.mem_reverse] at hx'
      rw [hchain, List.mem_reverse]
      exact (List.mem_cons.1 hx').resolve_left hxh
  · obtain ⟨hold, htest⟩ := List.mem_filter.1 hc
    rw [connected, setTip_candidates] at hold
    obtain ⟨hcMem, hcLink, -⟩ := hI.candidates c hold
    refine ⟨(hd.mem c).2 hcMem, ?_, fun tip' htip' => ?_⟩
    · show ((s.connected env h).index c).nChainTx ≠ 0
      rwa [hd.nChainTx]
    · rw [hsame.less]
      simpa using (Option.all_eq_true _ _).1 htest tip' htip'

/-- Disconnecting the tip. -/
theorem disconnect (hI : TipInv env s) {tip : UInt256} (htip : s.tipHash = some tip)
    (hne : tip ≠ env.hashGenesisBlock) : TipInv env (s.disconnected tip) := by
  obtain ⟨p, hpMem, hp, hpath, hwork⟩ := hI.exists_pprev_tip htip hne
  obtain ⟨tip', -, htip', hchain, -⟩ := hI.exists_tip
  cases htip.symm.trans htip'
  have hd := s.sameData_disconnected tip
  have hindex := s.index_disconnected tip
  have hnewChain := hI.chain_disconnected htip hp
  have hentry : EntryInv env (s.disconnected tip) :=
    hd.entryInv (fun x => by rw [hindex]; exact ⟨le_rfl, .inl rfl⟩) (by rw [hindex]) hI.toEntryInv
  refine ⟨hentry, ⟨p, (hd.mem p).2 hpMem, ?_, ?_⟩, fun x hx => ?_, fun c hc => ?_⟩
  · exact hnewChain.trans (congrArg List.reverse (hd.path p).symm)
  · rw [disconnected, setTip_coinsBest, hp]
    rfl
  · rw [hindex]
    rw [hnewChain, List.mem_reverse] at hx
    apply hI.active x
    rw [hchain, List.mem_reverse, hpath]
    exact List.mem_cons_of_mem tip hx
  · rw [disconnected, setTip_candidates] at hc
    obtain ⟨hcMem, hcLink, hless⟩ := hI.candidates c hc
    rw [hd.mem, hindex]
    refine ⟨hcMem, hcLink, fun tip' htip' => ?_⟩
    cases (SelectState.tipHash_of_chain hnewChain).symm.trans htip'
    rw [hd.less]
    exact not_less_of_less (hless tip htip) (less_of_work_lt hwork)

/-- Disconnecting takes blocks off the active chain. -/
theorem chain_disconnected_subset (hI : TipInv env s) {tip : UInt256}
    (htip : s.tipHash = some tip) (hne : tip ≠ env.hashGenesisBlock) :
    s.chainActive = (s.disconnected tip).chainActive ++ [tip] := by
  obtain ⟨p, -, hp, hpath, -⟩ := hI.exists_pprev_tip htip hne
  obtain ⟨tip', -, htip', hchain, -⟩ := hI.exists_tip
  cases htip.symm.trans htip'
  rw [hI.chain_disconnected htip hp, hchain, hpath, List.reverse_cons]

end TipInv

namespace SelectInv

variable {env : SelectEnv} {s s' : SelectState}

/-- Marks on blocks off the active chain do no harm. -/
theorem mark (hI : SelectInv env s) {h : UInt256} (hmem : h ∈ s.mapBlockIndex)
    (hoff : h ∉ s.chainActive) {f : CBlockIndex → CBlockIndex}
    (hf : ∀ p, ∃ st : BlockStatus, f p = { p with nStatus := st } ∧
      st.haveData = p.nStatus.haveData ∧ st.valid = p.nStatus.valid ∧
      st.haveUndo = p.nStatus.haveUndo) : SelectInv env (s.modify h f) := by
  refine ⟨hI.modify_flag hmem hf, fun x hx => ?_⟩
  have hne : x ≠ h := fun hxh => hoff (hxh ▸ hx)
  rw [s.index_modify, if_neg hne]
  exact hI.unfailed x hx

/-- Candidates may be dropped, and counters run. -/
theorem dropCandidates (hI : SelectInv env s) (hmap : s'.mapBlockIndex = s.mapBlockIndex)
    (hu : s'.mapBlocksUnlinked = s.mapBlocksUnlinked) (hchain : s'.chainActive = s.chainActive)
    (hcoins : s'.coinsBest = s.coinsBest)
    (hcand : ∀ c ∈ s'.setBlockIndexCandidates, c ∈ s.setBlockIndexCandidates) :
    SelectInv env s' := by
  refine ⟨hI.withCandidates hmap hu hchain hcoins hcand, fun x hx => ?_⟩
  rw [BlockTree.index, hmap]
  exact hI.unfailed x (hchain ▸ hx)

/-- **A move keeps the invariant.** -/
theorem move (hI : SelectInv env s) (hmove : Move env s s') : SelectInv env s' := by
  cases hmove with
  | mark h hmem hoff hfail => exact hI.mark hmem hoff fun p => ⟨_, rfl, rfl, rfl, rfl⟩
  | erase h hfail =>
    exact hI.dropCandidates rfl rfl rfl rfl fun c hc => (s.mem_eraseCandidate.1 hc).1
  | reject h hmem hp hok hverdict =>
    have hI' : SelectInv env { s with nConnects := s.nConnects + 1 } :=
      hI.dropCandidates rfl rfl rfl rfl fun _ hc => hc
    exact hI'.mark hmem (hI.not_mem_chain_of_pprev hmem hp) fun p => ⟨_, rfl, rfl, rfl, rfl⟩
  | connect h hmem hp hok hlink hverdict =>
    refine ⟨hI.connect hmem hp hok hlink, fun x hx => ?_⟩
    obtain ⟨tip, -, htip, hchain, -⟩ := hI.exists_tip
    have hx' : x ∈ (s.path h).reverse := hI.chain_connected hmem ▸ hx
    rw [BlockTree.path, ParentTree.path_of_parent hI.tree.levelled hmem (hp.trans htip),
      List.mem_reverse] at hx'
    refine (s.failed_connected env h x).trans ?_
    rcases List.mem_cons.1 hx' with rfl | hx'
    · exact hok
    · apply hI.unfailed x
      rw [hchain, List.mem_reverse]
      exact hx'
  | disconnect tip htip hne =>
    refine ⟨hI.disconnect htip hne, fun x hx => ?_⟩
    rw [s.index_disconnected]
    apply hI.unfailed x
    rw [hI.chain_disconnected_subset htip hne]
    exact List.mem_append_left _ hx
  | tick n m hle => exact hI.dropCandidates rfl rfl rfl rfl fun _ hc => hc

end SelectInv

end FairCoin
