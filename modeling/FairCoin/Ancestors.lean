import FairCoin.Validation
import FairCoin.Lib.ParentTree

/-!
# Ancestors in the block tree

The pointers of the block index: `pprev`, `pskip` and `CBlockIndex::GetAncestor` of
`src/main.cpp`, which follows them.

* `BlockTree.path` — a block and its ancestors, as the loops over `pprev` meet them.
* `BlockTree.getAncestor` — the ancestor at a height, by skips.
* `IsTree` — the entries form a tree over genesis, with heights and skip pointers as
  `AddToBlockIndex` sets them.
* `IsTree.getAncestor_eq_some_iff` — **skips do not change the answer**: `GetAncestor` finds the
  block of the path that has the height asked for.
* `BlockTree.Grows.isTree` — `AddToBlockIndex` keeps the tree.
-/

namespace FairCoin

open Store

namespace BlockTree

/-- The entry a pointer points to. -/
def index (t : BlockTree) (hash : UInt256) : CBlockIndex :=
  (t.mapBlockIndex.lookup hash).getD {}

/-- The blocks of the index. -/
def blocks (t : BlockTree) : Set UInt256 := {hash | hash ∈ t.mapBlockIndex}

/-- The parent of a block. -/
def parent (t : BlockTree) (hash : UInt256) : Option UInt256 := (t.index hash).pprev

/-- The height of a block. -/
def height (t : BlockTree) (hash : UInt256) : ℕ := (t.index hash).nHeight.toNat

/-- A block and its ancestors, the block first. -/
def path (t : BlockTree) (hash : UInt256) : List UInt256 :=
  ParentTree.path t.parent t.height hash

end BlockTree

/-! ## Skips -/

/-- `InvertLowestOne`. -/
def invertLowestOne (n : ℕ) : ℕ := n &&& (n - 1)

/-- `GetSkipHeight`. -/
def getSkipHeight (height : ℕ) : ℕ :=
  if height < 2 then 0
  else if height % 2 = 1 then invertLowestOne (invertLowestOne (height - 1)) + 1
  else invertLowestOne height

/-- The loop of `GetAncestor`; a null pointer ends it. -/
def BlockTree.walkTo (t : BlockTree) (height : ℕ) : ℕ → UInt256 → ℕ → Option UInt256
  | 0, pindexWalk, _ => some pindexWalk
  | n + 1, pindexWalk, heightWalk =>
      if heightWalk ≤ height then some pindexWalk
      else
        let heightSkip := getSkipHeight heightWalk
        let heightSkipPrev := getSkipHeight (heightWalk - 1)
        -- only follow `pskip` if `pprev->pskip` is not better than `pskip->pprev`
        if heightSkip = height ∨
            (height < heightSkip ∧ ¬(heightSkipPrev + 2 < heightSkip ∧ height ≤ heightSkipPrev)) then
          (t.index pindexWalk).pskip.bind fun p => t.walkTo height n p heightSkip
        else (t.index pindexWalk).pprev.bind fun p => t.walkTo height n p (heightWalk - 1)

/-- `CBlockIndex::GetAncestor`. -/
def BlockTree.getAncestor (t : BlockTree) (hash : UInt256) (height : ℤ) : Option UInt256 :=
  if (t.index hash).nHeight < height ∨ height < 0 then none
  else t.walkTo height.toNat (t.height hash) hash (t.height hash)

theorem invertLowestOne_lt {n : ℕ} (hn : 0 < n) : invertLowestOne n < n := by
  have : n &&& (n - 1) ≤ n - 1 := Nat.and_le_right
  rw [invertLowestOne]
  omega

theorem getSkipHeight_lt {n : ℕ} (hn : 0 < n) : getSkipHeight n < n := by
  rw [getSkipHeight]
  split
  · exact hn
  · next h2 =>
    split
    · next hodd =>
      have h₁ : invertLowestOne (n - 1) < n - 1 := invertLowestOne_lt (by omega)
      have h₂ : invertLowestOne (invertLowestOne (n - 1)) ≤ invertLowestOne (n - 1) :=
        Nat.and_le_left
      omega
    · exact invertLowestOne_lt hn

/-! ## Trees -/

/-- The entries form a tree over genesis.  Heights grow by one, and the skip pointer of a block
leads to the ancestor at its skip height. -/
structure IsTree (t : BlockTree) (genesis : UInt256) : Prop where
  mem_genesis : genesis ∈ t.mapBlockIndex
  pprev_genesis : (t.index genesis).pprev = none
  nHeight_genesis : (t.index genesis).nHeight = 0
  nHeight_nonneg : ∀ h ∈ t.mapBlockIndex, 0 ≤ (t.index h).nHeight
  pprev : ∀ h ∈ t.mapBlockIndex, h ≠ genesis → ∃ p ∈ t.mapBlockIndex,
    (t.index h).pprev = some p ∧ (t.index h).nHeight = (t.index p).nHeight + 1
  pskip : ∀ h ∈ t.mapBlockIndex, h ≠ genesis → ∃ q ∈ t.path h,
    (t.index h).pskip = some q ∧ t.height q = getSkipHeight (t.height h)

namespace IsTree

variable {t : BlockTree} {g : UInt256}

theorem levelled (hT : IsTree t g) : ParentTree.Levelled t.parent t.height t.blocks := by
  have hroot : ∀ h ∈ t.mapBlockIndex, h ≠ g → t.parent h ≠ none := by
    intro h hh hne hnone
    obtain ⟨p, -, hp, -⟩ := hT.pprev h hh hne
    exact absurd (hp.symm.trans hnone) (by simp)
  have hchild : ∀ h ∈ t.mapBlockIndex, ∀ b, t.parent h = some b →
      b ∈ t.mapBlockIndex ∧ (t.index h).nHeight = (t.index b).nHeight + 1 := by
    intro h hh b hb
    have hne : h ≠ g := by
      rintro rfl
      exact absurd (hT.pprev_genesis.symm.trans hb) (by simp)
    obtain ⟨p, hpt, hp, hheight⟩ := hT.pprev h hh hne
    cases hp.symm.trans hb
    exact ⟨hpt, hheight⟩
  refine ⟨fun h hh b hb => (hchild h hh b hb).1, fun h hh b hb => ?_, fun h hh hnone => ?_⟩
  · obtain ⟨hbt, hheight⟩ := hchild h hh b hb
    have := hT.nHeight_nonneg b hbt
    rw [BlockTree.height, BlockTree.height, hheight]
    omega
  · have hg : h = g := by
      by_contra hne
      exact hroot h hh hne hnone
    rw [hg, BlockTree.height, hT.nHeight_genesis]
    rfl

/-- Only genesis has no parent. -/
theorem pprev_eq_none_iff (hT : IsTree t g) {h : UInt256} (hh : h ∈ t.mapBlockIndex) :
    (t.index h).pprev = none ↔ h = g := by
  constructor
  · intro hnone
    by_contra hne
    obtain ⟨p, -, hp, -⟩ := hT.pprev h hh hne
    exact absurd (hp.symm.trans hnone) (by simp)
  · rintro rfl
    exact hT.pprev_genesis

theorem nHeight_eq (hT : IsTree t g) {h : UInt256} (hh : h ∈ t.mapBlockIndex) :
    (t.index h).nHeight = (t.height h : ℤ) :=
  (Int.toNat_of_nonneg (hT.nHeight_nonneg h hh)).symm

/-- Only genesis is at height zero. -/
theorem height_eq_zero_iff (hT : IsTree t g) {h : UInt256} (hh : h ∈ t.mapBlockIndex) :
    t.height h = 0 ↔ h = g := by
  constructor
  · intro hz
    by_contra hne
    obtain ⟨p, hp, -, hheight⟩ := hT.pprev h hh hne
    rw [hT.nHeight_eq hh, hT.nHeight_eq hp] at hheight
    omega
  · rintro rfl
    rw [BlockTree.height, hT.nHeight_genesis]
    rfl

/-- Every path ends in genesis. -/
theorem genesis_mem_path (hT : IsTree t g) {h : UInt256} (hh : h ∈ t.mapBlockIndex) :
    g ∈ t.path h := by
  obtain ⟨x, hx, hzero⟩ := ParentTree.exists_mem_path_height hT.levelled hh 0 (Nat.zero_le _)
  rwa [(hT.height_eq_zero_iff (ParentTree.mem_of_mem_path hT.levelled hh x hx)).1 hzero] at hx

theorem walkTo_spec (hT : IsTree t g) (k n : ℕ) : ∀ h ∈ t.mapBlockIndex, k ≤ t.height h →
    t.height h ≤ n → ∃ x ∈ t.path h, t.height x = k ∧
      t.walkTo k n h (t.height h) = some x := by
  induction n with
  | zero =>
    intro h _ hk hn
    exact ⟨h, ParentTree.self_mem_path h, by omega, rfl⟩
  | succ n ih =>
    intro h hh hk hn
    rw [BlockTree.walkTo]
    split
    · next hle => exact ⟨h, ParentTree.self_mem_path h, by omega, rfl⟩
    · next hlt =>
      have hpos : 0 < t.height h := by omega
      have hne : h ≠ g := fun hg => by
        have := (hT.height_eq_zero_iff hh).2 hg
        omega
      -- whichever pointer is followed, it leads to an ancestor that is still high enough
      have hstep : ∀ q ∈ t.path h, k ≤ t.height q → t.height q < t.height h →
          ∃ x ∈ t.path h, t.height x = k ∧ t.walkTo k n q (t.height q) = some x := by
        intro q hq hkq hqh
        have hqt := ParentTree.mem_of_mem_path hT.levelled hh q hq
        obtain ⟨x, hx, hxk, hwalk⟩ := ih q hqt hkq (by omega)
        exact ⟨x, ParentTree.path_trans hT.levelled hh q hq x hx, hxk, hwalk⟩
      simp only
      split
      · next hskip =>
        obtain ⟨q, hq, hqs, hqh⟩ := hT.pskip h hh hne
        have hlow := getSkipHeight_lt hpos
        have hhigh : k ≤ getSkipHeight (t.height h) := by omega
        rw [hqs, Option.bind_some, ← hqh]
        exact hstep q hq (by omega) (by omega)
      · obtain ⟨p, hpt, hp, -⟩ := hT.pprev h hh hne
        have hhp := hT.levelled.height_parent h hh p hp
        have hmem : p ∈ t.path h :=
          (ParentTree.mem_path_iff hT.levelled hh).2 (.inr ⟨p, hp, ParentTree.self_mem_path p⟩)
        rw [hp, Option.bind_some, show t.height h - 1 = t.height p by omega]
        exact hstep p hmem (by omega) (by omega)

/-- **Skips do not change the answer.**  `GetAncestor` finds the block of the path that has the
height asked for. -/
theorem getAncestor_eq_some_iff (hT : IsTree t g) {h x : UInt256} (hh : h ∈ t.mapBlockIndex)
    {k : ℤ} : t.getAncestor h k = some x ↔ x ∈ t.path h ∧ (t.index x).nHeight = k := by
  rw [BlockTree.getAncestor, hT.nHeight_eq hh]
  constructor
  · intro hsome
    split at hsome
    · exact absurd hsome (by simp)
    · next hrange =>
      obtain ⟨y, hy, hyk, hwalk⟩ := hT.walkTo_spec k.toNat (t.height h) h hh (by omega) le_rfl
      cases hwalk.symm.trans hsome
      have hyt := ParentTree.mem_of_mem_path hT.levelled hh _ hy
      refine ⟨hy, ?_⟩
      rw [hT.nHeight_eq hyt]
      omega
  · rintro ⟨hx, hk⟩
    have hxt := ParentTree.mem_of_mem_path hT.levelled hh x hx
    have hle := ParentTree.height_le_of_mem_path hT.levelled hh x hx
    rw [hT.nHeight_eq hxt] at hk
    rw [if_neg (by omega)]
    obtain ⟨y, hy, hyk, hwalk⟩ := hT.walkTo_spec k.toNat (t.height h) h hh (by omega) le_rfl
    rw [hwalk, ParentTree.eq_of_mem_path_of_height_eq hT.levelled hh hy hx (by omega)]

end IsTree

/-! ## Growing the tree -/

/-- A tree with one more block, as `AddToBlockIndex` enters it: on a parent in the tree, one level
up, with the skip pointer `BuildSkip` gives it. -/
structure BlockTree.Grows (t t' : BlockTree) (h prev : UInt256) : Prop where
  fresh : h ∉ t.mapBlockIndex
  known : prev ∈ t.mapBlockIndex
  mem : ∀ x, x ∈ t'.mapBlockIndex ↔ x = h ∨ x ∈ t.mapBlockIndex
  index : ∀ x, x ≠ h → t'.index x = t.index x
  pprev : (t'.index h).pprev = some prev
  nHeight : (t'.index h).nHeight = (t.index prev).nHeight + 1
  pskip : (t'.index h).pskip =
    t.getAncestor prev (getSkipHeight ((t.index prev).nHeight + 1).toNat)

namespace BlockTree.Grows

variable {t t' : BlockTree} {g h prev : UInt256}

theorem ne (hG : t.Grows t' h prev) {x : UInt256} (hx : x ∈ t.mapBlockIndex) : x ≠ h :=
  fun hxh => hG.fresh (hxh ▸ hx)

theorem height_new (hG : t.Grows t' h prev) (hT : IsTree t g) :
    t'.height h = t.height prev + 1 := by
  have := hT.nHeight_nonneg prev hG.known
  rw [BlockTree.height, hG.nHeight, BlockTree.height]
  omega

theorem height_old (hG : t.Grows t' h prev) {x : UInt256} (hx : x ∈ t.mapBlockIndex) :
    t'.height x = t.height x := by
  rw [BlockTree.height, hG.index x (hG.ne hx), BlockTree.height]

theorem parent_old (hG : t.Grows t' h prev) {x : UInt256} (hx : x ∈ t.mapBlockIndex) :
    t'.parent x = t.parent x := by
  rw [BlockTree.parent, hG.index x (hG.ne hx), BlockTree.parent]

theorem levelled (hG : t.Grows t' h prev) (hT : IsTree t g) :
    ParentTree.Levelled t'.parent t'.height t'.blocks := by
  have hL := hT.levelled
  refine ⟨fun x hx b hb => ?_, fun x hx b hb => ?_, fun x hx hnone => ?_⟩
  · rcases (hG.mem x).1 hx with rfl | hx
    · obtain rfl : prev = b := Option.some.inj (hG.pprev.symm.trans hb)
      exact (hG.mem prev).2 (.inr hG.known)
    · exact (hG.mem b).2 (.inr (hL.parent_mem x hx b ((hG.parent_old hx).symm.trans hb)))
  · rcases (hG.mem x).1 hx with rfl | hx
    · cases hG.pprev.symm.trans hb
      rw [hG.height_new hT, hG.height_old hG.known]
    · have hb' := (hG.parent_old hx).symm.trans hb
      rw [hG.height_old hx, hG.height_old (hL.parent_mem x hx b hb')]
      exact hL.height_parent x hx b hb'
  · rcases (hG.mem x).1 hx with rfl | hx
    · exact absurd (hG.pprev.symm.trans hnone) (by simp)
    · rw [hG.height_old hx]
      exact hL.height_root x hx ((hG.parent_old hx).symm.trans hnone)

/-- The paths of the blocks that were there stay. -/
theorem path_old (hG : t.Grows t' h prev) (hT : IsTree t g) {x : UInt256}
    (hx : x ∈ t.mapBlockIndex) : t'.path x = t.path x :=
  ParentTree.path_congr hT.levelled (fun _ ha => hG.parent_old ha) (fun _ ha => hG.height_old ha)
    x hx

theorem path_new (hG : t.Grows t' h prev) (hT : IsTree t g) : t'.path h = h :: t.path prev := by
  rw [← hG.path_old hT hG.known]
  exact ParentTree.path_of_parent (hG.levelled hT) ((hG.mem h).2 (.inl rfl)) hG.pprev

/-- **`AddToBlockIndex` keeps the tree**, with its heights and skip pointers. -/
theorem isTree (hG : t.Grows t' h prev) (hT : IsTree t g) : IsTree t' g where
  mem_genesis := (hG.mem g).2 (.inr hT.mem_genesis)
  pprev_genesis := by
    rw [hG.index g (hG.ne hT.mem_genesis)]
    exact hT.pprev_genesis
  nHeight_genesis := by
    rw [hG.index g (hG.ne hT.mem_genesis)]
    exact hT.nHeight_genesis
  nHeight_nonneg x hx := by
    rcases (hG.mem x).1 hx with rfl | hx
    · have := hT.nHeight_nonneg prev hG.known
      rw [hG.nHeight]
      omega
    · rw [hG.index x (hG.ne hx)]
      exact hT.nHeight_nonneg x hx
  pprev x hx hne := by
    rcases (hG.mem x).1 hx with rfl | hx
    · refine ⟨prev, (hG.mem prev).2 (.inr hG.known), hG.pprev, ?_⟩
      rw [hG.nHeight, hG.index prev (hG.ne hG.known)]
    · obtain ⟨p, hp, hpp, hheight⟩ := hT.pprev x hx hne
      rw [hG.index x (hG.ne hx)]
      exact ⟨p, (hG.mem p).2 (.inr hp), hpp, by rw [hG.index p (hG.ne hp), hheight]⟩
  pskip x hx hne := by
    rcases (hG.mem x).1 hx with rfl | hx
    · have hnonneg := hT.nHeight_nonneg prev hG.known
      have hheight := hG.height_new hT
      have hlow := getSkipHeight_lt (n := t'.height x) (by omega)
      have hto : ((t.index prev).nHeight + 1).toNat = t'.height x := by
        rw [BlockTree.height, hG.nHeight]
      -- the skip height is at or below the parent, so the parent has an ancestor there
      obtain ⟨q, hq, hqh⟩ := ParentTree.exists_mem_path_height hT.levelled hG.known
        (getSkipHeight (t'.height x)) (by omega)
      have hqt := ParentTree.mem_of_mem_path hT.levelled hG.known q hq
      refine ⟨q, ?_, ?_, by rw [hG.height_old hqt]; exact hqh⟩
      · rw [hG.path_new hT]
        exact List.mem_cons_of_mem _ hq
      · rw [hG.pskip, hto, hT.getAncestor_eq_some_iff hG.known]
        exact ⟨hq, by rw [hT.nHeight_eq hqt, hqh]⟩
    · obtain ⟨q, hq, hqs, hheight⟩ := hT.pskip x hx hne
      have hqt := ParentTree.mem_of_mem_path hT.levelled hx q hq
      rw [hG.path_old hT hx, hG.index x (hG.ne hx)]
      refine ⟨q, hq, hqs, ?_⟩
      rw [hG.height_old hqt, hG.height_old hx, hheight]

end BlockTree.Grows

end FairCoin
