import FairCoin.SelectionMoves
import FairCoin.CommonAncestors

/-!
# Block locators

`CChain::SetTip`, `CChain::GetLocator` and `CChain::FindFork` of `src/chain.cpp` and
`FindForkInGlobalIndex` of `src/main.cpp`: how two nodes find the blocks that they share.

* `SelectState.getLocator` — single steps back, then steps that double, through the chain or by
  skips.
* `SelectState.findForkInGlobalIndex` — the first block of a locator on the chain.
* `SelectState.Reached` — what added blocks and calls of `SetTip` lead to; then the chain is
  empty or the path to a block (`ActivePath`).
* `getLocatorLoop_spec` — a locator goes down the path of its start and ends in genesis.
* `locators_and_forks` — **locators and forks**: what a locator lists, what another node finds with
  it, and what `FindFork` finds.
-/

namespace FairCoin

open Store

namespace SelectState

/-! ## Locators -/

/-- `CChain::operator[]`. -/
def chainAt (s : SelectState) (nHeight : ℤ) : Option UInt256 :=
  if 0 ≤ nHeight then s.chainActive[nHeight.toNat]? else none

/-- The loop of `CChain::GetLocator`; a null pointer ends it. -/
def getLocatorLoop (s : SelectState) : ℕ → ℕ → List UInt256 → Option UInt256 → List UInt256
  | n + 1, nStep, vHave, some pindex =>
      let vHave := vHave ++ [pindex]
      -- stop when we have added the genesis block
      if (s.index pindex).nHeight = 0 then vHave
      else
        let nHeight := max ((s.index pindex).nHeight - nStep) 0
        let next := if s.contains pindex then s.chainAt nHeight else s.getAncestor pindex nHeight
        s.getLocatorLoop n (if 10 < vHave.length then nStep * 2 else nStep) vHave next
  | _, _, vHave, _ => vHave

/-- Where a locator starts: at the block asked for, or at the tip. -/
def locatorStart (s : SelectState) (pindex : Option UInt256) : Option UInt256 :=
  match pindex with
  | some p => some p
  | none => s.tipHash

/-- `CChain::GetLocator`. -/
def getLocator (s : SelectState) (pindex : Option UInt256) : List UInt256 :=
  let start := s.locatorStart pindex
  s.getLocatorLoop ((start.map s.height).getD 0 + 1) 1 [] start

/-- `FindForkInGlobalIndex`. -/
def findForkInGlobalIndex (s : SelectState) (vHave : List UInt256) : Option UInt256 :=
  match vHave.find? fun hash => decide (hash ∈ s.mapBlockIndex) && s.contains hash with
  | some hash => some hash
  | none => s.chainActive.head?

/-- The index and the chain of a node: blocks are added to the index, and the chain is set to blocks
of it or cleared, in any order. -/
inductive Reached (genesis : UInt256) : SelectState → Prop
  | start (s : SelectState) (built : s.toBlockTree.Built genesis) (empty : s.chainActive = []) :
      Reached genesis s
  | add (s s' : SelectState) (h prev : UInt256) (reached : Reached genesis s)
      (grows : s.toBlockTree.Grows s'.toBlockTree h prev) (chain : s'.chainActive = s.chainActive) :
      Reached genesis s'
  | setTip (s : SelectState) (tip : Option UInt256) (reached : Reached genesis s)
      (known : ∀ p ∈ tip, p ∈ s.mapBlockIndex) : Reached genesis (s.setTip tip)

end SelectState

/-! ## Active chains -/

/-- The chain is empty, or the path to a block of the index. -/
def ActivePath (s : SelectState) : Prop :=
  s.chainActive = [] ∨ ∃ tip ∈ s.mapBlockIndex, s.chainActive = (s.path tip).reverse

variable {s : SelectState} {g : UInt256}

theorem path_setTip (s : SelectState) (tip : Option UInt256) (h : UInt256) :
    (s.setTip tip).path h = s.path h := by
  cases tip <;> rfl

theorem isTree_setTip (hT : IsTree s.toBlockTree g) (tip : Option UInt256) :
    IsTree (s.setTip tip).toBlockTree g :=
  (SameShape.of_map_eq (SelectState.setTip_mapBlockIndex s tip)).isTree hT

/-- **`SetTip` makes the chain the path to the new tip.** -/
theorem ActivePath.setTip (hT : IsTree s.toBlockTree g) (hA : ActivePath s)
    {tip : Option UInt256} (htip : ∀ p ∈ tip, p ∈ s.mapBlockIndex) : ActivePath (s.setTip tip) := by
  cases tip with
  | none => exact .inl rfl
  | some p =>
    have hp := htip p rfl
    refine .inr ⟨p, hp, ?_⟩
    rw [path_setTip]
    rcases hA with hnil | ⟨old, hold, hchain⟩
    · have hall : (s.path p).takeWhile (fun q => ([] : List UInt256)[s.height q]? ≠ some q) =
          s.path p := by
        rw [List.takeWhile_eq_self_iff]
        simp
      simp only [SelectState.setTip, hnil, hall, List.take_nil, List.nil_append]
    · exact hT.setTip_path hold hp hchain

/-- Blocks that are added leave the chain a path. -/
theorem ActivePath.add {s' : SelectState} {h prev : UInt256} (hT : IsTree s.toBlockTree g)
    (hA : ActivePath s) (hG : s.toBlockTree.Grows s'.toBlockTree h prev)
    (hchain : s'.chainActive = s.chainActive) : ActivePath s' := by
  rcases hA with hnil | ⟨tip, htip, hpath⟩
  · exact .inl (hchain.trans hnil)
  · refine .inr ⟨tip, (hG.mem tip).2 (.inr htip), ?_⟩
    rw [hchain, hpath, hG.path_old hT htip]

/-- **In every state the index is a tree and the chain a path of it.** -/
theorem SelectState.Reached.invariant {g : UInt256} {s : SelectState} (hR : s.Reached g) :
    IsTree s.toBlockTree g ∧ ActivePath s := by
  induction hR with
  | start s built empty => exact ⟨built.isTree, .inl empty⟩
  | add s s' h prev _ grows chain ih => exact ⟨grows.isTree ih.1, ih.2.add ih.1 grows chain⟩
  | setTip s tip _ known ih => exact ⟨isTree_setTip ih.1 tip, ih.2.setTip ih.1 known⟩

/-- `Contains` tells the blocks of the chain. -/
theorem ActivePath.contains_iff (hT : IsTree s.toBlockTree g) (hA : ActivePath s) {h : UInt256}
    (hh : h ∈ s.mapBlockIndex) : s.contains h = true ↔ h ∈ s.chainActive := by
  rcases hA with hnil | ⟨tip, htip, hchain⟩
  · simp [SelectState.contains, hnil]
  · have hnonneg := hT.nHeight_nonneg h hh
    rw [SelectState.contains, Bool.and_eq_true, decide_eq_true_iff, beq_iff_eq, hchain,
      hT.getElem?_reverse_path htip, List.mem_reverse]
    constructor
    · exact fun h => h.2.1
    · exact fun h => ⟨hnonneg, h, rfl⟩

/-- The chain has the ancestors of its blocks, each at its height. -/
theorem ActivePath.chainAt_eq (hT : IsTree s.toBlockTree g) (hA : ActivePath s) {h : UInt256}
    (hh : h ∈ s.chainActive) {k : ℕ} (hk : k ≤ s.height h) :
    ∃ x ∈ s.path h, s.height x = k ∧ s.chainAt k = some x := by
  rcases hA with hnil | ⟨tip, htip, hchain⟩
  · rw [hnil] at hh
    exact absurd hh List.not_mem_nil
  · rw [hchain, List.mem_reverse] at hh
    have hht := ParentTree.mem_of_mem_path hT.levelled htip h hh
    obtain ⟨x, hx, hxk⟩ := ParentTree.exists_mem_path_height hT.levelled hht k hk
    refine ⟨x, hx, hxk, ?_⟩
    rw [SelectState.chainAt, if_pos (Int.natCast_nonneg k), Int.toNat_natCast, hchain,
      hT.getElem?_reverse_path htip]
    exact ⟨ParentTree.path_trans hT.levelled htip h hh x hx, hxk⟩

/-! ## What a locator lists -/

/-- The next block of a locator: whichever way it is looked up, it is the ancestor that is
`nStep` below, or genesis. -/
theorem next_of_locator (hT : IsTree s.toBlockTree g) (hA : ActivePath s) {p : UInt256}
    (hp : p ∈ s.mapBlockIndex) (nStep : ℕ) : ∃ x ∈ s.path p, s.height x = s.height p - nStep ∧
      (if s.contains p then s.chainAt (max ((s.index p).nHeight - nStep) 0)
        else s.getAncestor p (max ((s.index p).nHeight - nStep) 0)) = some x := by
  have hheight : max ((s.index p).nHeight - nStep) 0 = ((s.height p - nStep : ℕ) : ℤ) := by
    rw [hT.nHeight_eq hp]
    omega
  rw [hheight]
  split
  · next hc =>
    exact hA.chainAt_eq hT ((hA.contains_iff hT hp).1 hc) (Nat.sub_le _ _)
  · obtain ⟨x, hx, hxk⟩ := ParentTree.exists_mem_path_height hT.levelled hp (s.height p - nStep)
      (Nat.sub_le _ _)
    refine ⟨x, hx, hxk, (hT.getAncestor_eq_some_iff hp).2 ⟨hx, ?_⟩⟩
    rw [hT.nHeight_eq (ParentTree.mem_of_mem_path hT.levelled hp x hx),
      show s.height x = s.height p - nStep from hxk]

/-- The list goes down the path to `p` and ends in genesis. -/
structure Descends (s : SelectState) (g p : UInt256) (l : List UInt256) : Prop where
  head : l.head? = some p
  last : l.getLast? = some g
  path : ∀ x ∈ l, x ∈ s.path p
  order : l.Pairwise fun x y => s.height y < s.height x

/-- **A locator goes down the path of its start and ends in genesis**, whatever the step is. -/
theorem getLocatorLoop_spec (hT : IsTree s.toBlockTree g) (hA : ActivePath s) (n : ℕ) :
    ∀ {p : UInt256} {nStep : ℕ} (vHave : List UInt256), p ∈ s.mapBlockIndex → 0 < nStep →
      s.height p < n → ∃ l, s.getLocatorLoop n nStep vHave (some p) = vHave ++ l ∧
        Descends s g p l := by
  induction n with
  | zero => exact fun _ _ _ h => absurd h (Nat.not_lt_zero _)
  | succ n ih =>
    intro p nStep vHave hp hstep hn
    rw [SelectState.getLocatorLoop]
    simp only
    split
    · next hzero =>
      have hpg : p = g := by
        rw [← hT.height_eq_zero_iff hp]
        have := hT.nHeight_eq hp
        omega
      refine ⟨[p], rfl, rfl, by rw [hpg]; rfl, ?_, List.pairwise_singleton _ _⟩
      intro x hx
      rw [List.mem_singleton.1 hx]
      exact ParentTree.self_mem_path p
    · next hpos =>
      have hpos' : 0 < s.height p := by
        have := hT.nHeight_eq hp
        omega
      obtain ⟨x, hx, hxk, hnext⟩ := next_of_locator hT hA hp nStep
      have hxt := ParentTree.mem_of_mem_path hT.levelled hp x hx
      have hstep' : 0 < if 10 < (vHave ++ [p]).length then nStep * 2 else nStep := by
        split <;> omega
      rw [hnext]
      obtain ⟨l, hl, hdesc⟩ := ih (vHave ++ [p]) hxt hstep' (by omega)
      refine ⟨p :: l, by rw [hl, List.append_assoc]; rfl, rfl, ?_, ?_, ?_⟩
      · rw [List.getLast?_cons, hdesc.last]
        rfl
      · intro y hy
        rcases List.mem_cons.1 hy with rfl | hy
        · exact ParentTree.self_mem_path y
        · exact ParentTree.path_trans hT.levelled hp x hx y (hdesc.path y hy)
      · refine List.pairwise_cons.2 ⟨fun y hy => ?_, hdesc.order⟩
        have hle := ParentTree.height_le_of_mem_path hT.levelled hxt y (hdesc.path y hy)
        have hlow : s.height x < s.height p := by omega
        exact lt_of_le_of_lt hle hlow

/-- `GetLocator` from any start. -/
theorem getLocator_spec (hT : IsTree s.toBlockTree g) (hA : ActivePath s) {pindex : Option UInt256}
    {p : UInt256} (hstart : s.locatorStart pindex = some p) (hp : p ∈ s.mapBlockIndex) :
    Descends s g p (s.getLocator pindex) := by
  obtain ⟨l, hl, hdesc⟩ := getLocatorLoop_spec hT hA (s.height p + 1) [] hp Nat.one_pos
    (Nat.lt_succ_self _)
  rw [SelectState.getLocator, hstart]
  simp only [Option.map_some, Option.getD_some, hl, List.nil_append]
  exact hdesc

/-! ## Two nodes -/

/-- Two indexes agree on the parents of the blocks they share, as hashes commit to them. -/
def SameParents (t t' : BlockTree) : Prop :=
  ∀ h, h ∈ t.mapBlockIndex → h ∈ t'.mapBlockIndex → (t.index h).pprev = (t'.index h).pprev

/-- Shared blocks have one height. -/
theorem height_of_sameParents {t t' : BlockTree} (hT : IsTree t g) (hT' : IsTree t' g)
    (hagree : SameParents t t') {h : UInt256} (hh : h ∈ t.mapBlockIndex) :
    h ∈ t'.mapBlockIndex → t.height h = t'.height h := by
  induction h, hh using hT.levelled.induction with
  | root h hh hp =>
    intro hh'
    have hp' : t'.parent h = none := (hagree h hh hh').symm.trans hp
    rw [hT.levelled.height_root h hh hp, hT'.levelled.height_root h hh' hp']
  | child h hh b hp ih =>
    intro hh'
    have hp' : t'.parent h = some b := (hagree h hh hh').symm.trans hp
    rw [hT.levelled.height_parent h hh b hp, hT'.levelled.height_parent h hh' b hp',
      ih (hT'.levelled.parent_mem h hh' b hp')]

/-- **The first block of a locator on the other chain is the highest one.** -/
theorem findForkInGlobalIndex_spec {s' : SelectState} (hT : IsTree s.toBlockTree g)
    (hT' : IsTree s'.toBlockTree g) (hagree : SameParents s.toBlockTree s'.toBlockTree)
    (hA' : ActivePath s') (hne : s'.chainActive ≠ []) {p : UInt256} (hp : p ∈ s.mapBlockIndex)
    {l : List UInt256} (hdesc : Descends s g p l) :
    ∃ r, s'.findForkInGlobalIndex l = some r ∧ r ∈ s.path p ∧ r ∈ s'.chainActive ∧
      ∀ x ∈ l, x ∈ s'.chainActive → s'.height x ≤ s'.height r := by
  have hchain : ∀ x ∈ s'.chainActive, x ∈ s'.mapBlockIndex := by
    intro x hx
    rcases hA' with hnil | ⟨tip, htip, hpath⟩
    · exact absurd hnil hne
    · rw [hpath, List.mem_reverse] at hx
      exact ParentTree.mem_of_mem_path hT'.levelled htip x hx
  have htest : ∀ x, (decide (x ∈ s'.mapBlockIndex) && s'.contains x) = true ↔
      x ∈ s'.chainActive := by
    intro x
    rw [Bool.and_eq_true, decide_eq_true_iff]
    constructor
    · exact fun h => (hA'.contains_iff hT' h.1).1 h.2
    · exact fun h => ⟨hchain x h, (hA'.contains_iff hT' (hchain x h)).2 h⟩
  have hg : g ∈ s'.chainActive := by
    rcases hA' with hnil | ⟨tip, htip, hpath⟩
    · exact absurd hnil hne
    · rw [hpath, List.mem_reverse]
      exact hT'.genesis_mem_path htip
  have hfound : (l.find? fun x => decide (x ∈ s'.mapBlockIndex) && s'.contains x).isSome := by
    rw [List.find?_isSome]
    exact ⟨g, List.mem_of_getLast? hdesc.last, (htest g).2 hg⟩
  obtain ⟨r, hr⟩ := Option.isSome_iff_exists.1 hfound
  obtain ⟨htestr, l₁, l₂, hl, hbefore⟩ := List.find?_eq_some_iff_append.1 hr
  have hrl : r ∈ l := by
    rw [hl]
    simp
  refine ⟨r, ?_, hdesc.path r hrl, (htest r).1 htestr, fun x hx hxc => ?_⟩
  · rw [SelectState.findForkInGlobalIndex, hr]
  · rw [hl] at hx
    rcases List.mem_append.1 hx with hx | hx
    · have := hbefore x hx
      rw [(htest x).2 hxc] at this
      exact absurd this (by simp)
    · rcases List.mem_cons.1 hx with rfl | hx
      · exact le_rfl
      · have horder := hdesc.order
        rw [hl, List.pairwise_append] at horder
        have hlt := (List.pairwise_cons.1 horder.2.1).1 x hx
        have hxp : x ∈ s.mapBlockIndex := ParentTree.mem_of_mem_path hT.levelled hp x
          (hdesc.path x (by rw [hl]; simp [hx]))
        have hrp : r ∈ s.mapBlockIndex :=
          ParentTree.mem_of_mem_path hT.levelled hp r (hdesc.path r hrl)
        rw [height_of_sameParents hT hT' hagree hxp (hchain x hxc),
          height_of_sameParents hT hT' hagree hrp (hchain r ((htest r).1 htestr))] at hlt
        exact hlt.le

/-- On an empty chain no fork is found. -/
theorem findForkInGlobalIndex_of_nil (hnil : s.chainActive = []) (l : List UInt256) :
    s.findForkInGlobalIndex l = none := by
  have hnone : l.find? (fun hash => decide (hash ∈ s.mapBlockIndex) && s.contains hash) = none := by
    rw [List.find?_eq_none]
    intro x _
    simp [SelectState.contains, hnil]
  rw [SelectState.findForkInGlobalIndex, hnone, hnil]
  rfl

/-! ## Forks -/

theorem ActivePath.tipHash_eq {tip : UInt256} (hchain : s.chainActive = (s.path tip).reverse) :
    s.tipHash = some tip := by
  rw [SelectState.tipHash, hchain, List.getLast?_reverse]
  exact ParentTree.head?_path tip

theorem nil_of_tipHash (h : s.tipHash = none) : s.chainActive = [] :=
  List.getLast?_eq_none_iff.1 h

theorem ne_nil_of_tipHash {tip : UInt256} (h : s.tipHash = some tip) : s.chainActive ≠ [] := by
  intro hnil
  rw [SelectState.tipHash, hnil] at h
  cases h

/-- A chain with a tip is the path to the tip. -/
theorem ActivePath.path_of_tipHash (hA : ActivePath s) {tip : UInt256} (h : s.tipHash = some tip) :
    tip ∈ s.mapBlockIndex ∧ s.chainActive = (s.path tip).reverse := by
  obtain ⟨x, hx, hchain⟩ := hA.resolve_left (ne_nil_of_tipHash h)
  obtain rfl : x = tip := Option.some.inj ((ActivePath.tipHash_eq hchain).symm.trans h)
  exact ⟨hx, hchain⟩

/-- A locator starts at a block of the index. -/
theorem ActivePath.locatorStart_mem (hA : ActivePath s) {pindex : Option UInt256} {p : UInt256}
    (hknown : ∀ q ∈ pindex, q ∈ s.mapBlockIndex) (hstart : s.locatorStart pindex = some p) :
    p ∈ s.mapBlockIndex := by
  cases pindex with
  | none => exact (hA.path_of_tipHash hstart).1
  | some q =>
    cases hstart
    exact hknown p rfl

/-- **`FindFork` finds the highest block of the chain on the path to a block**, be it above the
chain, on it or off it. -/
theorem ActivePath.findFork_spec (hT : IsTree s.toBlockTree g) (hA : ActivePath s)
    (hne : s.chainActive ≠ []) {m : UInt256} (hm : m ∈ s.mapBlockIndex) :
    ∃ fork, s.findFork m = some fork ∧ fork ∈ s.path m ∧ fork ∈ s.chainActive ∧
      ∀ y ∈ s.path m, y ∈ s.chainActive → s.height y ≤ s.height fork := by
  have hL := hT.levelled
  obtain ⟨tip, htip, hchain⟩ := hA.resolve_left hne
  have hlen : (s.chainActive.length : ℤ) - 1 = (s.height tip : ℤ) := by
    have : (s.path tip).length = s.height tip + 1 := ParentTree.length_path hL htip
    rw [hchain, List.length_reverse, this]
    omega
  -- the walk starts at the argument, or at its ancestor at the height of the tip
  obtain ⟨p, hp, hstart, -, hlow⟩ := hT.lowered hm htip
  have hpm := ParentTree.mem_of_mem_path hL hm p hp
  have htest : ∀ y ∈ s.path p, s.contains y = true ↔ y ∈ s.chainActive := fun y hy =>
    hA.contains_iff hT (ParentTree.mem_of_mem_path hL hpm y hy)
  have hfound : ((s.path p).find? s.contains).isSome := by
    rw [List.find?_isSome]
    refine ⟨g, hT.genesis_mem_path hpm, (htest g (hT.genesis_mem_path hpm)).2 ?_⟩
    rw [hchain, List.mem_reverse]
    exact hT.genesis_mem_path htip
  obtain ⟨fork, hfork⟩ := Option.isSome_iff_exists.1 hfound
  obtain ⟨hcont, l, r, hsplit, hbefore⟩ := List.find?_eq_some_iff_append.1 hfork
  have hforkp : fork ∈ s.path p := by
    rw [hsplit]
    simp
  have hforkPath : s.path fork = fork :: r := ParentTree.path_of_eq_append hL hpm hsplit
  have hforkMem := ParentTree.mem_of_mem_path hL hpm fork hforkp
  refine ⟨fork, ?_, ParentTree.path_trans hL hm p hp fork hforkp, (htest fork hforkp).1 hcont,
    fun y hy hin => ?_⟩
  · rw [hT.nHeight_eq htip, ← hlen] at hstart
    simp only [SelectState.findFork, hstart, Option.bind_some, hfork]
  · have hytip : y ∈ s.path tip := by
      rw [hchain, List.mem_reverse] at hin
      exact hin
    have hyp := hlow y hy hytip
    have hyp' := hyp
    rw [hsplit, List.mem_append, ← hforkPath] at hyp'
    rcases hyp' with hyl | hyf
    · have := hbefore y hyl
      rw [(htest y hyp).2 hin] at this
      exact absurd this (by simp)
    · exact ParentTree.height_le_of_mem_path hL hforkMem y hyf

/-- On an empty chain there is no fork. -/
theorem findFork_of_nil (hT : IsTree s.toBlockTree g) (hnil : s.chainActive = []) {m : UInt256}
    (hm : m ∈ s.mapBlockIndex) : s.findFork m = none := by
  have hnonneg := hT.nHeight_nonneg m hm
  have hanc : s.getAncestor m (((0 : ℕ) : ℤ) - 1) = none := by
    rw [BlockTree.getAncestor]
    exact if_pos (by omega)
  rw [SelectState.findFork, hnil, List.length_nil]
  simp only [hanc]
  rw [if_pos (by omega), Option.bind_none]

/-! ## The result -/

/-- **Locators and forks.**  Take the index and the chain of a node, as added blocks and calls of
`SetTip` made them.  From a block, or from the tip, `GetLocator` lists ancestors of strictly
decreasing heights, from the start down to genesis.  Another node with the same genesis, and the
same parents for the blocks that both have, finds with this list on its own chain a common ancestor
of the start and of its tip, as high as any listed block on that chain; on an empty chain it finds
nothing.  `FindFork` finds the highest block of the chain that is an ancestor of its argument or the
argument, and nothing on an empty chain. -/
theorem locators_and_forks {s s' : SelectState} {g : UInt256} (reached : s.Reached g)
    (reached' : s'.Reached g) (agree : SameParents s.toBlockTree s'.toBlockTree) :
    (∀ pindex, s.locatorStart pindex = none → s.getLocator pindex = []) ∧
    (∀ pindex, (∀ q ∈ pindex, q ∈ s.mapBlockIndex) → ∀ p, s.locatorStart pindex = some p →
      (s.getLocator pindex).head? = some p ∧ (s.getLocator pindex).getLast? = some g ∧
      (∀ x ∈ s.getLocator pindex, s.IsAncestor x p) ∧
      (s.getLocator pindex).Pairwise (fun x y => s.height y < s.height x) ∧
      (s'.tipHash = none → s'.findForkInGlobalIndex (s.getLocator pindex) = none) ∧
      ∀ tip, s'.tipHash = some tip → ∃ fork,
        s'.findForkInGlobalIndex (s.getLocator pindex) = some fork ∧ s.IsAncestor fork p ∧
        s'.IsAncestor fork tip ∧
        ∀ x ∈ s.getLocator pindex, x ∈ s'.chainActive → s'.height x ≤ s'.height fork) ∧
    ∀ m ∈ s.mapBlockIndex, (s.tipHash = none → s.findFork m = none) ∧
      ∀ tip, s.tipHash = some tip → ∃ fork, s.findFork m = some fork ∧ s.IsAncestor fork m ∧
        fork ∈ s.chainActive ∧
        ∀ y, s.IsAncestor y m → y ∈ s.chainActive → s.height y ≤ s.height fork := by
  obtain ⟨hT, hA⟩ := reached.invariant
  obtain ⟨hT', hA'⟩ := reached'.invariant
  refine ⟨fun pindex hstart => ?_, fun pindex hknown p hstart => ?_, fun m hm => ?_⟩
  · rw [SelectState.getLocator, hstart]
    rfl
  · have hp : p ∈ s.mapBlockIndex := hA.locatorStart_mem hknown hstart
    have hdesc := getLocator_spec hT hA hstart hp
    refine ⟨hdesc.head, hdesc.last, fun x hx => (hT.isAncestor_iff hp).2 (hdesc.path x hx),
      hdesc.order, fun hnone => ?_, fun tip htip => ?_⟩
    · exact findForkInGlobalIndex_of_nil (nil_of_tipHash hnone) _
    · obtain ⟨htipMem, hchain⟩ := hA'.path_of_tipHash htip
      obtain ⟨fork, hfork, hforkp, hforkc, hhigh⟩ :=
        findForkInGlobalIndex_spec hT hT' agree hA' (ne_nil_of_tipHash htip) hp hdesc
      rw [hchain, List.mem_reverse] at hforkc
      exact ⟨fork, hfork, (hT.isAncestor_iff hp).2 hforkp,
        (hT'.isAncestor_iff htipMem).2 hforkc, hhigh⟩
  · refine ⟨fun hnone => findFork_of_nil hT (nil_of_tipHash hnone) hm, fun tip htip => ?_⟩
    obtain ⟨fork, hfork, hforkm, hforkc, hhigh⟩ := hA.findFork_spec hT (ne_nil_of_tipHash htip) hm
    exact ⟨fork, hfork, (hT.isAncestor_iff hm).2 hforkm, hforkc,
      fun y hy hin => hhigh y ((hT.isAncestor_iff hm).1 hy) hin⟩

/-- A node on the branch of `3`, and one on the fork `4`. -/
def branchNode : SelectState := SelectState.setTip { forkTree with } (some 3)

def forkNode : SelectState := SelectState.setTip { forkTree with } (some 4)

theorem branchNode_reached : branchNode.Reached 1 := by
  refine .setTip _ _ (.start _ forkTree_built rfl) fun p hp => ?_
  cases hp
  decide

theorem forkNode_reached : forkNode.Reached 1 := by
  refine .setTip _ _ (.start _ forkTree_built rfl) fun p hp => ?_
  cases hp
  decide

theorem locators_of_forkTree : ∃ fork,
    forkNode.findForkInGlobalIndex (branchNode.getLocator none) = some fork ∧
    forkNode.IsAncestor fork 4 := by
  obtain ⟨-, hlocator, -⟩ := locators_and_forks branchNode_reached forkNode_reached
    (fun _ _ _ => rfl)
  obtain ⟨-, -, -, -, -, hfork⟩ := hlocator none (fun _ h => by cases h) 3 (by decide)
  obtain ⟨fork, hfound, -, hanc, -⟩ := hfork 4 (by decide)
  exact ⟨fork, hfound, hanc⟩

end FairCoin
