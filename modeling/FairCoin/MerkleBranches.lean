import FairCoin.Deliveries

/-!
# Merkle trees of blocks

`BuildMerkleTree`, `GetMerkleBranch` and `CheckMerkleBranch` of `src/primitives/block.cpp`, on the
vector `vMerkleTree` that holds the levels one after the other.

* `merkleLevel`, `merkleLevels` — the two loops of `BuildMerkleTree`.
* `merkleLevels_eq` — the vector is the tower of levels, and the flag tells of twins.
* `blockMerkleTree_root` — the root is that of `buildMerkleTree`.
* `merkle_root_identifies` — **what the root fixes, and what a branch proves**.
-/

namespace FairCoin

section Build

variable (hash : UInt256 → UInt256 → UInt256)

/-- The loop over a level of `nSize` nodes from `j`: `n` rounds at most, from node `i`. -/
def merkleLevel (nSize j : ℕ) : ℕ → ℕ → List UInt256 × Bool → List UInt256 × Bool
  | 0, _, r => r
  | n + 1, i, (vMerkleTree, mutated) =>
      if i < nSize then
        let i2 := min (i + 1) (nSize - 1)
        let left := vMerkleTree.getD (j + i) 0
        let right := vMerkleTree.getD (j + i2) 0
        merkleLevel nSize j n (i + 2)
          (vMerkleTree ++ [hash left right],
            mutated || (i2 == i + 1 && i2 + 1 == nSize && left == right))
      else (vMerkleTree, mutated)

/-- The loop over the levels: `n` rounds at most. -/
def merkleLevels : ℕ → ℕ → ℕ → List UInt256 × Bool → List UInt256 × Bool
  | 0, _, _, r => r
  | n + 1, nSize, j, r =>
      if 1 < nSize then
        merkleLevels n ((nSize + 1) / 2) (j + nSize) (merkleLevel hash nSize j nSize 0 r)
      else r

/-- `BuildMerkleTree`: `vMerkleTree` and `mutated`. -/
def blockMerkleTree (vtx : List CTransaction) : List UInt256 × Bool :=
  merkleLevels hash vtx.length vtx.length 0 (vtx.map CTransaction.hash, false)

/-- The return value of `BuildMerkleTree`. -/
def blockMerkleRoot (vtx : List CTransaction) : UInt256 :=
  (blockMerkleTree hash vtx).1.getLast?.getD 0

/-- The loop of `GetMerkleBranch`: `n` rounds at most. -/
def merkleBranchLoop (vMerkleTree : List UInt256) : ℕ → ℕ → ℕ → ℕ → List UInt256
  | 0, _, _, _ => []
  | n + 1, nSize, j, nIndex =>
      if 1 < nSize then
        vMerkleTree.getD (j + min (nIndex ^^^ 1) (nSize - 1)) 0
          :: merkleBranchLoop vMerkleTree n ((nSize + 1) / 2) (j + nSize) (nIndex / 2)
      else []

/-- `GetMerkleBranch`, of a block with this `vMerkleTree`. -/
def getMerkleBranch (vtx : List CTransaction) (vMerkleTree : List UInt256) (nIndex : ℕ) :
    List UInt256 :=
  let vMerkleTree := if vMerkleTree = [] then (blockMerkleTree hash vtx).1 else vMerkleTree
  merkleBranchLoop vMerkleTree vtx.length vtx.length 0 nIndex

/-- The loop of `CheckMerkleBranch`, with the arithmetic of a signed index. -/
def checkMerkleBranchLoop (h : UInt256) : List UInt256 → ℤ → UInt256
  | [], _ => h
  | x :: vMerkleBranch, nIndex =>
      checkMerkleBranchLoop (if nIndex % 2 = 1 then hash x h else hash h x) vMerkleBranch (nIndex / 2)

/-- `CheckMerkleBranch`. -/
def checkMerkleBranch (h : UInt256) (vMerkleBranch : List UInt256) (nIndex : ℤ) : UInt256 :=
  if nIndex = -1 then 0 else checkMerkleBranchLoop hash h vMerkleBranch nIndex

end Build

/-! ## The vector -/

section Vector

variable (hash : UInt256 → UInt256 → UInt256)

theorem getD_append_add (pre level post : List UInt256) {i : ℕ} (hi : i < level.length) :
    (pre ++ level ++ post).getD (pre.length + i) 0 = level.getD i 0 := by
  rw [List.append_assoc, List.getD_append_right _ _ _ _ (Nat.le_add_right _ _),
    Nat.add_sub_cancel_left, List.getD_append _ _ _ _ hi]

omit hash in
/-- The round of the loop at node `i`: its pair, and whether the level ends in twins there. -/
theorem pairs_drop {level : List UInt256} {i : ℕ} (hi : i < level.length) :
    Merkle.pairs (level.drop i) =
      (level.getD i 0, level.getD (min (i + 1) (level.length - 1)) 0)
        :: Merkle.pairs (level.drop (i + 2)) ∧
    Merkle.twins (level.drop i) =
      (min (i + 1) (level.length - 1) == i + 1 && min (i + 1) (level.length - 1) + 1 == level.length &&
        level.getD i 0 == level.getD (min (i + 1) (level.length - 1)) 0 ||
        Merkle.twins (level.drop (i + 2))) := by
  have ha : level.getD i 0 = level[i] := List.getD_eq_getElem _ _ hi
  rw [ha, List.drop_eq_getElem_cons hi]
  by_cases hlast : i + 1 < level.length
  · have hmin : min (i + 1) (level.length - 1) = i + 1 := by omega
    rw [hmin, List.getD_eq_getElem _ _ hlast, List.drop_eq_getElem_cons hlast]
    refine ⟨rfl, ?_⟩
    by_cases hend : i + 2 < level.length
    · have hne : (i + 1 + 1 == level.length) = false := beq_false_of_ne (by omega)
      rw [hne, List.drop_eq_getElem_cons hend]
      simp [Merkle.twins]
    · have heq : (i + 1 + 1 == level.length) = true := beq_iff_eq.2 (by omega)
      rw [heq, List.drop_eq_nil_of_le (by omega)]
      simp [Merkle.twins]
  · have hmin : min (i + 1) (level.length - 1) = i := by omega
    have hne : (i == i + 1) = false := beq_false_of_ne (by omega)
    rw [hmin, hne, List.drop_eq_nil_of_le (show level.length ≤ i + 1 by omega),
      List.drop_eq_nil_of_le (show level.length ≤ i + 2 by omega), ← ha]
    exact ⟨rfl, rfl⟩

/-- The loop over a level appends the level above it. -/
theorem merkleLevel_eq (pre level : List UInt256) (n : ℕ) : ∀ (i : ℕ) (post : List UInt256)
    (mutated : Bool), level.length ≤ i + n →
    merkleLevel hash level.length pre.length n i (pre ++ level ++ post, mutated) =
      (pre ++ level ++ (post ++ Merkle.pairUp hash (level.drop i)),
        mutated || Merkle.twins (level.drop i)) := by
  induction n with
  | zero =>
    intro i post mutated hlen
    rw [List.drop_eq_nil_of_le (by omega)]
    simp [merkleLevel, Merkle.pairUp, Merkle.pairs, Merkle.twins]
  | succ n ih =>
    intro i post mutated hlen
    rw [merkleLevel]
    split
    · next hi =>
      have hi2 : min (i + 1) (level.length - 1) < level.length := by omega
      dsimp only
      rw [getD_append_add pre level post hi, getD_append_add pre level post hi2,
        List.append_assoc (pre ++ level), ih (i + 2) _ _ (by omega), List.append_assoc post]
      obtain ⟨hpairs, htwins⟩ := pairs_drop hi
      rw [Merkle.pairUp, Merkle.pairUp, hpairs, htwins, Bool.or_assoc]
      rfl
    · next hi =>
      rw [List.drop_eq_nil_of_le (by omega)]
      simp [Merkle.pairUp, Merkle.pairs, Merkle.twins]

/-- **The vector of `BuildMerkleTree`** is the tower of levels. -/
theorem merkleLevels_eq (n : ℕ) : ∀ (pre level : List UInt256) (mutated : Bool),
    merkleLevels hash n level.length pre.length (pre ++ level, mutated) =
      (pre ++ Merkle.tower hash n level, (Merkle.climb hash n level mutated).2) := by
  induction n with
  | zero => exact fun _ _ _ => rfl
  | succ n ih =>
    intro pre level mutated
    rw [merkleLevels, Merkle.tower, Merkle.climb]
    split
    · next hmany =>
      have h := merkleLevel_eq hash pre level level.length 0 [] mutated (by omega)
      rw [List.append_nil, List.nil_append, List.drop_zero] at h
      rw [if_neg (by omega), if_neg (by omega), h, ← Merkle.length_pairUp hash level,
        ← List.length_append, ih (pre ++ level), List.append_assoc]
    · next hone => rw [if_pos (by omega), if_pos (by omega)]

/-- The loop of `GetMerkleBranch` reads a branch from the tower. -/
theorem merkleBranchLoop_eq (n : ℕ) : ∀ (pre level : List UInt256) (i : ℕ), i < level.length →
    merkleBranchLoop (pre ++ Merkle.tower hash n level) n level.length pre.length i =
      Merkle.branch hash 0 n level i := by
  induction n with
  | zero => exact fun _ _ _ _ => rfl
  | succ n ih =>
    intro pre level i hi
    rw [merkleBranchLoop, Merkle.branch, Merkle.tower]
    split
    · next hmany =>
      have hmin : min (i ^^^ 1) (level.length - 1) < level.length := by omega
      rw [if_neg (by omega), if_neg (by omega), ← List.append_assoc, getD_append_add _ _ _ hmin,
        ← Merkle.length_pairUp hash level, ← List.length_append,
        ih _ _ _ (by rw [Merkle.length_pairUp]; omega)]
    · next hone => rw [if_pos (by omega)]

/-- The loop of `CheckMerkleBranch` walks it. -/
theorem checkMerkleBranchLoop_eq (vMerkleBranch : List UInt256) : ∀ (h : UInt256) (i : ℕ),
    checkMerkleBranchLoop hash h vMerkleBranch i = Merkle.walk hash h vMerkleBranch i := by
  induction vMerkleBranch with
  | nil => exact fun _ _ => rfl
  | cons x vMerkleBranch ih =>
    intro h i
    rw [checkMerkleBranchLoop, Merkle.walk]
    have hdiv : (i : ℤ) / 2 = ((i / 2 : ℕ) : ℤ) := by omega
    have hmod : (i : ℤ) % 2 = 1 ↔ i % 2 = 1 := by omega
    rw [hdiv, ih, if_congr hmod rfl rfl]

theorem blockMerkleTree_eq (vtx : List CTransaction) :
    blockMerkleTree hash vtx = (Merkle.tower hash vtx.length (vtx.map CTransaction.hash),
      (Merkle.climb hash vtx.length (vtx.map CTransaction.hash) false).2) := by
  have h := merkleLevels_eq hash vtx.length [] (vtx.map CTransaction.hash) false
  rwa [List.length_map, List.nil_append, List.nil_append] at h

/-- **The root and the flag** are those of the tree without the vector. -/
theorem blockMerkleTree_root (vtx : List CTransaction) :
    (blockMerkleRoot hash vtx, (blockMerkleTree hash vtx).2) =
      buildMerkleTree hash (vtx.map CTransaction.hash) := by
  have hlast := Merkle.getLast?_tower hash vtx.length (vtx.map CTransaction.hash) false
    (List.length_map _).le
  rw [blockMerkleRoot, blockMerkleTree_eq, buildMerkleTree, hlast, List.length_map]

/-- **A branch proves its transaction.** -/
theorem checkMerkleBranch_getMerkleBranch (vtx : List CTransaction) {vMerkleTree : List UInt256}
    (hbuilt : vMerkleTree = [] ∨ vMerkleTree = (blockMerkleTree hash vtx).1) {i : ℕ}
    {tx : CTransaction} (hi : vtx[i]? = some tx) :
    checkMerkleBranch hash tx.hash (getMerkleBranch hash vtx vMerkleTree i) i =
      blockMerkleRoot hash vtx := by
  have htree : (if vMerkleTree = [] then (blockMerkleTree hash vtx).1 else vMerkleTree) =
      Merkle.tower hash vtx.length (vtx.map CTransaction.hash) := by
    have htower := congrArg Prod.fst (blockMerkleTree_eq hash vtx)
    dsimp only at htower
    rw [← htower]
    rcases hbuilt with rfl | rfl
    · exact if_pos rfl
    · split <;> rfl
  have hleaf : (vtx.map CTransaction.hash)[i]? = some tx.hash := by
    rw [List.getElem?_map, hi, Option.map_some]
  have hlt : i < (vtx.map CTransaction.hash).length := (List.getElem?_eq_some_iff.1 hleaf).1
  have hbranch := merkleBranchLoop_eq hash vtx.length [] (vtx.map CTransaction.hash) i hlt
  rw [List.length_map, List.nil_append, List.length_nil] at hbranch
  have hwalk := Merkle.walk_branch hash 0 vtx.length (vtx.map CTransaction.hash) i tx.hash
    (List.length_map _).le hleaf
  rw [checkMerkleBranch, if_neg (by omega), checkMerkleBranchLoop_eq, getMerkleBranch,
    htree, hbranch, blockMerkleRoot, blockMerkleTree_eq, hwalk, Option.getD_some]

end Vector

/-! ## Identification -/

/-- **The root identifies the transactions, unless mutation is flagged.**  Two lists of
transactions, neither of them empty, have the same root only when they have the same
transactions or one of the two calls sets `fMutated`; and for each transaction the branch of its
index leads from it to the root. -/
theorem merkle_root_identifies (hash : UInt256 → UInt256 → UInt256) :
    (∀ vtx vtx' : List CTransaction, vtx ≠ [] → vtx' ≠ [] →
      Merkle.CollisionFree hash (vtx.map CTransaction.hash) (vtx'.map CTransaction.hash) →
      vtx.map CTransaction.hash ≠ vtx'.map CTransaction.hash →
      blockMerkleRoot hash vtx = blockMerkleRoot hash vtx' →
      (blockMerkleTree hash vtx).2 = true ∨ (blockMerkleTree hash vtx').2 = true) ∧
    ∀ (vtx : List CTransaction) (vMerkleTree : List UInt256) (i : ℕ) (tx : CTransaction),
      vMerkleTree = [] ∨ vMerkleTree = (blockMerkleTree hash vtx).1 → vtx[i]? = some tx →
      checkMerkleBranch hash tx.hash (getMerkleBranch hash vtx vMerkleTree i) i =
        blockMerkleRoot hash vtx := by
  refine ⟨fun vtx vtx' hne hne' hfree hdiff hroot => ?_,
    fun vtx _ i tx hbuilt hi => checkMerkleBranch_getMerkleBranch hash vtx hbuilt hi⟩
  by_contra hclean
  rw [not_or, Bool.not_eq_true, Bool.not_eq_true] at hclean
  have hB := blockMerkleTree_root hash vtx
  have hB' := blockMerkleTree_root hash vtx'
  rw [buildMerkleTree, Prod.mk.injEq] at hB hB'
  refine hdiff (Merkle.climb_inj hash (z := 0) ?_ ?_ hfree ?_ (hB.2.symm.trans hclean.1)
    (hB'.2.symm.trans hclean.2))
  · exact fun h => hne (List.map_eq_nil_iff.1 h)
  · exact fun h => hne' (List.map_eq_nil_iff.1 h)
  · rw [← hB.1, ← hB'.1, hroot]

/-- A hash of pairs to try trees with. -/
def pairCode (a b : UInt256) : UInt256 := BitVec.ofNat 256 (16 * a.toNat + b.toNat + 256)

theorem collisionFree_pairCode : Merkle.CollisionFree pairCode [1, 2, 3] [1, 2, 3, 3] := by
  have hthree : Merkle.hashed pairCode 3 [1, 2, 3] = [(1, 2), (3, 3), (274, 307)] := by
    decide
  have hfour : Merkle.hashed pairCode 4 [1, 2, 3, 3] = [(1, 2), (3, 3), (274, 307)] := by
    decide
  constructor
  · rw [List.length_cons, List.length_cons, List.length_singleton, hthree]
    show ∀ p ∈ _, ∀ q ∈ Merkle.hashed pairCode 4 [1, 2, 3, 3], _
    rw [hfour]
    intro p hp q hq h
    simp only [List.mem_cons, List.not_mem_nil, or_false] at hp hq
    rcases hp with rfl | rfl | rfl <;> rcases hq with rfl | rfl | rfl <;>
      first | rfl | exact absurd h (by decide)
  · show ∀ x ∈ _, ∀ q ∈ Merkle.hashed pairCode 4 [1, 2, 3, 3], _
    rw [hfour]
    intro x hx q hq
    simp only [List.mem_cons, List.not_mem_nil, or_false] at hx hq
    rcases hx with rfl | rfl | rfl <;> rcases hq with rfl | rfl | rfl <;> decide
  · show ∀ x ∈ _, ∀ q ∈ Merkle.hashed pairCode 3 [1, 2, 3], _
    rw [hthree]
    intro x hx q hq
    simp only [List.mem_cons, List.not_mem_nil, or_false] at hx hq
    rcases hx with rfl | rfl | rfl | rfl <;> rcases hq with rfl | rfl | rfl <;> decide

/-- A list and the one that repeats its last transaction: the call on the second sets `fMutated`. -/
theorem merkle_root_identifies_twins :
    let t (h : UInt256) : CTransaction := { hash := h, vin := [], vout := [] }
    ((blockMerkleTree pairCode [t 1, t 2, t 3]).2 = true ∨
        (blockMerkleTree pairCode [t 1, t 2, t 3, t 3]).2 = true) ∧
      checkMerkleBranch pairCode 3 (getMerkleBranch pairCode [t 1, t 2, t 3] [] 2) (2 : ℕ) =
        blockMerkleRoot pairCode [t 1, t 2, t 3] := by
  intro t
  obtain ⟨hroot, hbranch⟩ := merkle_root_identifies pairCode
  exact ⟨hroot [t 1, t 2, t 3] [t 1, t 2, t 3, t 3] (by simp) (by simp) collisionFree_pairCode
    (by simp [t]) (by decide), hbranch [t 1, t 2, t 3] [] 2 (t 3) (.inl rfl) rfl⟩

/-- The empty list has the root of a transaction whose hash is zero, such as the default one. -/
theorem merkle_root_of_empty : ¬ ∀ (hash : UInt256 → UInt256 → UInt256)
    (vtx vtx' : List CTransaction),
    Merkle.CollisionFree hash (vtx.map CTransaction.hash) (vtx'.map CTransaction.hash) →
    vtx.map CTransaction.hash ≠ vtx'.map CTransaction.hash →
    blockMerkleRoot hash vtx = blockMerkleRoot hash vtx' →
    (blockMerkleTree hash vtx).2 = true ∨ (blockMerkleTree hash vtx').2 = true := by
  intro h
  have hfree : Merkle.CollisionFree (fun a b : UInt256 => a + b) [] [0] :=
    ⟨by simp [Merkle.hashed], by simp, by simp [Merkle.hashed]⟩
  have := h (fun a b => a + b) [] [{ hash := 0, vin := [], vout := [] }] hfree (by decide) rfl
  exact absurd this (by decide)

end FairCoin
