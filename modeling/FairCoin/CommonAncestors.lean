import FairCoin.Ancestors
import FairCoin.Lib.Ascent

/-!
# Ancestors by skips and by steps

`CBlockIndex::BuildSkip`, `CBlockIndex::GetAncestor` and `LastCommonAncestor` of `src/main.cpp`, on
every index that was built by adding blocks to their parents.

* `BlockTree.Built` — the indexes that arise from genesis by adding blocks, parents first, each
  with the skip pointer of `BuildSkip`.
* `BlockTree.pprevTimes` — `pprev` followed a number of times.
* `BlockTree.lastCommonAncestor` — the loop with its assertion.
* `ancestors_of_built` — **`GetAncestor` is `pprev` followed `nHeight - height` times**, its loop
  ends within as many rounds, and `LastCommonAncestor` is the deepest common ancestor.
-/

namespace FairCoin

open Store

namespace BlockTree

/-- The indexes that arise from genesis by adding blocks to blocks that are there. -/
inductive Built (genesis : UInt256) : BlockTree → Prop
  | genesis (t : BlockTree) (mem : ∀ h, h ∈ t.mapBlockIndex ↔ h = genesis)
      (pprev : (t.index genesis).pprev = none) (nHeight : (t.index genesis).nHeight = 0) :
      Built genesis t
  | add (t t' : BlockTree) (h prev : UInt256) (built : Built genesis t)
      (grows : t.Grows t' h prev) : Built genesis t'

/-- `AddToBlockIndex` for a block whose parent is in the index: height, parent and, by `BuildSkip`,
the skip pointer; `p` has the other fields. -/
def addChild (t : BlockTree) (h prev : UInt256) (p : CBlockIndex) : BlockTree :=
  { t with mapBlockIndex := t.mapBlockIndex.insert h { p with
      pprev := some prev
      nHeight := (t.index prev).nHeight + 1
      pskip := t.getAncestor prev (getSkipHeight ((t.index prev).nHeight + 1).toNat) } }

theorem grows_addChild {t : BlockTree} {h prev : UInt256} (p : CBlockIndex)
    (fresh : h ∉ t.mapBlockIndex) (known : prev ∈ t.mapBlockIndex) :
    t.Grows (t.addChild h prev p) h prev := by
  have hnew : (t.addChild h prev p).index h = { p with
      pprev := some prev
      nHeight := (t.index prev).nHeight + 1
      pskip := t.getAncestor prev (getSkipHeight ((t.index prev).nHeight + 1).toNat) } := by
    rw [index, addChild, AList.lookup_insert, Option.getD_some]
  refine ⟨fresh, known, fun x => AList.mem_insert _, fun x hx => ?_, ?_, ?_, ?_⟩
  · rw [index, addChild, AList.lookup_insert_ne hx, index]
  · rw [hnew]
  · rw [hnew]
  · rw [hnew]

/-- `pprev`, followed `n` times. -/
def pprevTimes (t : BlockTree) (n : ℕ) (hash : UInt256) : Option UInt256 :=
  ParentTree.ascend t.parent n hash

/-- `x` is reached from `hash` by `pprev`. -/
def IsAncestor (t : BlockTree) (x hash : UInt256) : Prop := ∃ n, t.pprevTimes n hash = some x

/-- `LastCommonAncestor`; `none` when its assertion fails. -/
def lastCommonAncestor (t : BlockTree) (pa pb : UInt256) : Option (Option UInt256) :=
  let pa' := if (t.index pb).nHeight < (t.index pa).nHeight then
    t.getAncestor pa (t.index pb).nHeight else some pa
  let pb' := if (t.index pa).nHeight < (t.index pb).nHeight then
    t.getAncestor pb (t.index pa).nHeight else some pb
  let (pa', pb') := ParentTree.meet t.parent (t.height pa) pa' pb'
  if pa' = pb' then some pa' else none

/-- An index that was built by adding blocks is a tree with skip pointers. -/
theorem Built.isTree {t : BlockTree} {g : UInt256} (hB : t.Built g) : IsTree t g := by
  induction hB with
  | genesis t mem pprev nHeight =>
    refine ⟨(mem g).2 rfl, pprev, nHeight, ?_, ?_, ?_⟩
    · intro h hh
      rw [(mem h).1 hh, nHeight]
    · intro h hh hne
      exact absurd ((mem h).1 hh) hne
    · intro h hh hne
      exact absurd ((mem h).1 hh) hne
  | add t t' h prev built grows ih => exact grows.isTree ih

end BlockTree

namespace IsTree

variable {t : BlockTree} {g : UInt256}

theorem isAncestor_iff (hT : IsTree t g) {h x : UInt256} (hh : h ∈ t.mapBlockIndex) :
    t.IsAncestor x h ↔ x ∈ t.path h :=
  (ParentTree.mem_path_iff_ascend hT.levelled hh).symm

/-- **The loop of `GetAncestor` ends**: every round lowers the height and none overshoots, so as
many rounds as there are heights to go are enough, and a larger bound changes nothing. -/
theorem walkTo_within (hT : IsTree t g) (k n : ℕ) : ∀ h ∈ t.mapBlockIndex, k ≤ t.height h →
    t.height h ≤ n + k → ∃ x ∈ t.path h, t.height x = k ∧
      t.walkTo k n h (t.height h) = some x := by
  induction n with
  | zero =>
    intro h _ hk hn
    exact ⟨h, ParentTree.self_mem_path h, by omega, rfl⟩
  | succ n ih =>
    intro h hh hk hn
    rw [BlockTree.walkTo]
    split
    · next hle => exact ⟨h, ParentTree.self_mem_path h, by omega, rfl⟩
    · next hlt =>
      have hne : h ≠ g := fun hg => by
        have := (hT.height_eq_zero_iff hh).2 hg
        omega
      -- whichever pointer is followed, it leads to an ancestor that is still high enough
      have hstep : ∀ q ∈ t.path h, k ≤ t.height q → t.height q < t.height h →
          ∃ x ∈ t.path h, t.height x = k ∧ t.walkTo k n q (t.height q) = some x := by
        intro q hq hkq hqh
        have hqt := ParentTree.mem_of_mem_path hT.levelled hh q hq
        obtain ⟨x, hx, hxk, hwalk⟩ := ih q hqt hkq (by omega)
        exact ⟨x, ParentTree.path_trans hT.levelled hh q hq x hx, hxk, hwalk⟩
      simp only
      split
      · next hskip =>
        obtain ⟨q, hq, hqs, hqh⟩ := hT.pskip h hh hne
        have hlow := getSkipHeight_lt (n := t.height h) (by omega)
        rw [hqs, Option.bind_some, ← hqh]
        exact hstep q hq (by omega) (by omega)
      · obtain ⟨p, hpt, hp, -⟩ := hT.pprev h hh hne
        have hhp := hT.levelled.height_parent h hh p hp
        have hmem : p ∈ t.path h :=
          (ParentTree.mem_path_iff hT.levelled hh).2 (.inr ⟨p, hp, ParentTree.self_mem_path p⟩)
        rw [hp, Option.bind_some, show t.height h - 1 = t.height p by omega]
        exact hstep p hmem (by omega) (by omega)

/-- The walk gives what `pprev` gives. -/
theorem walkTo_eq_pprevTimes (hT : IsTree t g) {h : UInt256} (hh : h ∈ t.mapBlockIndex) {k n : ℕ}
    (hk : k ≤ t.height h) (hn : t.height h - k ≤ n) :
    t.walkTo k n h (t.height h) = t.pprevTimes (t.height h - k) h := by
  obtain ⟨x, hx, hxk, hwalk⟩ := hT.walkTo_within k n h hh hk (by omega)
  obtain ⟨y, hy, hyk, hasc⟩ := ParentTree.ascend_eq hT.levelled hh (t.height h - k) (by omega)
  rw [hwalk, BlockTree.pprevTimes, hasc,
    ParentTree.eq_of_mem_path_of_height_eq hT.levelled hh hx hy (by omega)]

/-- **`GetAncestor` is `pprev` followed as often as there are heights to go**, and null outside of
the heights of the path. -/
theorem getAncestor_eq (hT : IsTree t g) {h : UInt256} (hh : h ∈ t.mapBlockIndex) (k : ℤ) :
    t.getAncestor h k = if k < 0 ∨ (t.index h).nHeight < k then none
      else t.pprevTimes ((t.index h).nHeight - k).toNat h := by
  rw [BlockTree.getAncestor, hT.nHeight_eq hh]
  split
  · next hout => rw [if_pos (by omega)]
  · next hin =>
    rw [if_neg (by omega), hT.walkTo_eq_pprevTimes hh (by omega) (by omega)]
    congr 1
    omega

/-- The ancestor at the height of another block, if this one is higher. -/
theorem lowered (hT : IsTree t g) {a b : UInt256} (ha : a ∈ t.mapBlockIndex)
    (hb : b ∈ t.mapBlockIndex) : ∃ x ∈ t.path a,
      (if (t.index b).nHeight < (t.index a).nHeight then t.getAncestor a (t.index b).nHeight
        else some a) = some x ∧ t.height x = min (t.height a) (t.height b) ∧
      ∀ y ∈ t.path a, y ∈ t.path b → y ∈ t.path x := by
  rw [hT.nHeight_eq ha, hT.nHeight_eq hb]
  split
  · next hlt =>
    obtain ⟨x, hx, hxb⟩ := ParentTree.exists_mem_path_height hT.levelled ha (t.height b) (by omega)
    have hxt := ParentTree.mem_of_mem_path hT.levelled ha x hx
    refine ⟨x, hx, (hT.getAncestor_eq_some_iff ha).2 ⟨hx, ?_⟩, ?_, fun y hya hyb => ?_⟩
    · rw [hT.nHeight_eq hxt, hxb]
    · rw [show t.height x = t.height b from hxb]
      omega
    · have hyle := ParentTree.height_le_of_mem_path hT.levelled hb y hyb
      exact ParentTree.mem_path_of_height_le hT.levelled ha x hx y hya
        (hyle.trans (le_of_eq hxb.symm))
  · next hge => exact ⟨a, ParentTree.self_mem_path a, rfl, by omega, fun y hya _ => hya⟩

/-- **`LastCommonAncestor` is the deepest common ancestor**, and its assertion holds. -/
theorem lastCommonAncestor_spec (hT : IsTree t g) {a b : UInt256} (ha : a ∈ t.mapBlockIndex)
    (hb : b ∈ t.mapBlockIndex) : ∃ x, t.lastCommonAncestor a b = some (some x) ∧
      x ∈ t.path a ∧ x ∈ t.path b ∧ ∀ y ∈ t.path a, y ∈ t.path b → y ∈ t.path x := by
  have hL := hT.levelled
  obtain ⟨pa, hpa, hpa', hha, hdeepa⟩ := hT.lowered ha hb
  obtain ⟨pb, hpb, hpb', hhb, hdeepb⟩ := hT.lowered hb ha
  have hpat := ParentTree.mem_of_mem_path hL ha pa hpa
  have hpbt := ParentTree.mem_of_mem_path hL hb pb hpb
  have hg : g ∈ t.path pa ∧ g ∈ t.path pb := ⟨hT.genesis_mem_path hpat, hT.genesis_mem_path hpbt⟩
  obtain ⟨x, hmeet, hxa, hxb, hdeep⟩ := ParentTree.meet_spec hL hpat (n := t.height a) hpbt
    (by omega) (by rw [hha]; exact Nat.min_le_left _ _) ⟨g, hg⟩
  refine ⟨x, ?_, ParentTree.path_trans hL ha pa hpa x hxa,
    ParentTree.path_trans hL hb pb hpb x hxb, fun y hya hyb =>
      hdeep y (hdeepa y hya hyb) (hdeepb y hyb hya)⟩
  simp only [BlockTree.lastCommonAncestor, hpa', hpb', hmeet, if_true]

end IsTree

/-- **Skips are shortcuts**: in an index that was built by adding blocks to their parents,
`GetAncestor` is `pprev` followed `nHeight - height` times and null for a height outside of the
path, any bound on its rounds from `nHeight - height` on gives this answer, and
`LastCommonAncestor` of two blocks is the common ancestor that all others are ancestors of. -/
theorem ancestors_of_built {t : BlockTree} {g : UInt256} (hB : t.Built g) :
    (∀ h ∈ t.mapBlockIndex, ∀ k : ℤ, t.getAncestor h k =
      if k < 0 ∨ (t.index h).nHeight < k then none
      else t.pprevTimes ((t.index h).nHeight - k).toNat h) ∧
    (∀ h ∈ t.mapBlockIndex, ∀ k n : ℕ, k ≤ t.height h → t.height h - k ≤ n →
      t.walkTo k n h (t.height h) = t.pprevTimes (t.height h - k) h) ∧
    ∀ a ∈ t.mapBlockIndex, ∀ b ∈ t.mapBlockIndex, ∃ x,
      t.lastCommonAncestor a b = some (some x) ∧ t.IsAncestor x a ∧ t.IsAncestor x b ∧
      ∀ y, t.IsAncestor y a → t.IsAncestor y b → t.IsAncestor y x ∧ t.height y ≤ t.height x := by
  have hT := hB.isTree
  refine ⟨fun h hh k => hT.getAncestor_eq hh k,
    fun h hh k n hk hn => hT.walkTo_eq_pprevTimes hh hk hn, fun a ha b hb => ?_⟩
  obtain ⟨x, hx, hxa, hxb, hdeep⟩ := hT.lastCommonAncestor_spec ha hb
  have hxt := ParentTree.mem_of_mem_path hT.levelled ha x hxa
  refine ⟨x, hx, (hT.isAncestor_iff ha).2 hxa, (hT.isAncestor_iff hb).2 hxb, fun y hya hyb => ?_⟩
  have hyx := hdeep y ((hT.isAncestor_iff ha).1 hya) ((hT.isAncestor_iff hb).1 hyb)
  exact ⟨(hT.isAncestor_iff hxt).2 hyx, ParentTree.height_le_of_mem_path hT.levelled hxt y hyx⟩

/-- The index that has genesis `1` only. -/
def rootTree : BlockTree where
  mapBlockIndex := (∅ : Map UInt256 CBlockIndex).insert 1 {}

/-- The blocks `2` and `3` on top of genesis, and a fork `4`. -/
def forkTree : BlockTree :=
  ((rootTree.addChild 2 1 {}).addChild 3 2 {}).addChild 4 1 {}

theorem rootTree_built : rootTree.Built 1 := by
  refine .genesis _ (fun h => ?_) (by decide) (by decide)
  rw [rootTree, AList.mem_insert]
  simp [AList.notMem_empty]

theorem BlockTree.Built.addChild {t : BlockTree} {g h prev : UInt256} (hB : t.Built g)
    (p : CBlockIndex) (fresh : h ∉ t.mapBlockIndex) (known : prev ∈ t.mapBlockIndex) :
    (t.addChild h prev p).Built g :=
  .add t _ h prev hB (BlockTree.grows_addChild p fresh known)

theorem forkTree_built : forkTree.Built 1 :=
  ((rootTree_built.addChild {} (by decide) (by decide)).addChild {} (by decide)
    (by decide)).addChild {} (by decide) (by decide)

theorem ancestors_of_forkTree : forkTree.getAncestor 3 0 = forkTree.pprevTimes 2 3 ∧
    ∃ x, forkTree.lastCommonAncestor 3 4 = some (some x) ∧ forkTree.IsAncestor x 4 := by
  obtain ⟨hanc, -, hlast⟩ := ancestors_of_built forkTree_built
  obtain ⟨x, hx, -, hx4, -⟩ := hlast 3 (by decide) 4 (by decide)
  exact ⟨hanc 3 (by decide) 0, x, hx, hx4⟩

end FairCoin
