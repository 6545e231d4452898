import FairCoin.MerkleBranches
import FairCoin.WireForm
import FairCoin.Lib.BitTable
import FairCoin.Lib.PartialMerkle

/-!
# Partial Merkle trees of blocks

`CPartialMerkleTree` of `src/merkleblock.h` and `src/merkleblock.cpp`: the bits and hashes that
prove to a light client which of its transactions are in a block.

* `traverseAndBuild`, `traverseAndExtract` — the two recursions, with the counters of the source.
* `CPartialMerkleTree.extractMatches` — the checks around the second one.
* `partialMerkleTreeFormat` — the wire form, with eight bits in a byte.
* `Complete`, `Authentic` — what a client gets of an honest tree, and of any tree.
-/

namespace FairCoin

open Codec

/-! ## Shape -/

/-- `CalcTreeWidth`. -/
def calcTreeWidth (nTransactions height : ℕ) : ℕ := (nTransactions + 2 ^ height - 1) / 2 ^ height

/-- The loop for `nHeight`: `n` rounds at most. -/
def heightLoop (nTransactions : ℕ) : ℕ → ℕ → ℕ
  | 0, nHeight => nHeight
  | n + 1, nHeight =>
      if 1 < calcTreeWidth nTransactions nHeight then heightLoop nTransactions n (nHeight + 1)
      else nHeight

/-- `nHeight`, the height of the tree. -/
def treeHeight (nTransactions : ℕ) : ℕ := heightLoop nTransactions nTransactions 0

/-- `CPartialMerkleTree`. -/
structure CPartialMerkleTree where
  nTransactions : ℕ
  vBits : List Bool
  vHash : List UInt256
  fBad : Bool
  deriving DecidableEq, Repr

section Trees

variable (hash : UInt256 → UInt256 → UInt256)

/-! ## Building -/

/-- `CalcHash`. -/
def calcHash (vTxid : List UInt256) : ℕ → ℕ → UInt256
  | 0, pos => vTxid.getD pos 0
  | height + 1, pos =>
      let left := calcHash vTxid height (pos * 2)
      let right :=
        if pos * 2 + 1 < calcTreeWidth vTxid.length height then
          calcHash vTxid height (pos * 2 + 1)
        else left
      hash left right

/-- `fParentOfMatch`: the loop from `pos << height` to the end of the node or of the block. -/
def parentOfMatch (nTransactions : ℕ) (vMatch : List Bool) (height pos : ℕ) : Bool :=
  (List.range' (pos * 2 ^ height)
    (min ((pos + 1) * 2 ^ height) nTransactions - pos * 2 ^ height)).any (vMatch.getD · false)

/-- `TraverseAndBuild`: `vBits` and `vHash` grow. -/
def traverseAndBuild (vTxid : List UInt256) (vMatch : List Bool) :
    ℕ → ℕ → List Bool × List UInt256 → List Bool × List UInt256
  | 0, pos, (vBits, vHash) =>
      (vBits ++ [parentOfMatch vTxid.length vMatch 0 pos], vHash ++ [calcHash hash vTxid 0 pos])
  | height + 1, pos, (vBits, vHash) =>
      let fParentOfMatch := parentOfMatch vTxid.length vMatch (height + 1) pos
      let vBits := vBits ++ [fParentOfMatch]
      if !fParentOfMatch then (vBits, vHash ++ [calcHash hash vTxid (height + 1) pos])
      else
        let r := traverseAndBuild vTxid vMatch height (pos * 2) (vBits, vHash)
        if pos * 2 + 1 < calcTreeWidth vTxid.length height then
          traverseAndBuild vTxid vMatch height (pos * 2 + 1) r
        else r

/-- `CPartialMerkleTree(vTxid, vMatch)`. -/
def CPartialMerkleTree.ofMatches (vTxid : List UInt256) (vMatch : List Bool) :
    CPartialMerkleTree :=
  let r := traverseAndBuild hash vTxid vMatch (treeHeight vTxid.length) 0 ([], [])
  { nTransactions := vTxid.length, vBits := r.1, vHash := r.2, fBad := false }

/-! ## Extracting -/

/-- The counters and the result of `TraverseAndExtract`, with `fBad`. -/
structure Extraction where
  nBitsUsed : ℕ := 0
  nHashUsed : ℕ := 0
  vMatch : List UInt256 := []
  fBad : Bool
  deriving DecidableEq, Repr

/-- A node that is not descended from: its hash is stored, and a matched transaction is noted. -/
def storedHash (vHash : List UInt256) (fMatch : Bool) (st : Extraction) : UInt256 × Extraction :=
  if vHash.length ≤ st.nHashUsed then (0, { st with fBad := true })
  else
    let h := vHash.getD st.nHashUsed 0
    (h, { st with
      nHashUsed := st.nHashUsed + 1
      vMatch := if fMatch then st.vMatch ++ [h] else st.vMatch })

/-- `TraverseAndExtract`. -/
def traverseAndExtract (t : CPartialMerkleTree) : ℕ → ℕ → Extraction → UInt256 × Extraction
  | 0, _, st =>
      if t.vBits.length ≤ st.nBitsUsed then (0, { st with fBad := true })
      else
        storedHash t.vHash (t.vBits.getD st.nBitsUsed false)
          { st with nBitsUsed := st.nBitsUsed + 1 }
  | height + 1, pos, st =>
      if t.vBits.length ≤ st.nBitsUsed then (0, { st with fBad := true })
      else
        let fParentOfMatch := t.vBits.getD st.nBitsUsed false
        let st := { st with nBitsUsed := st.nBitsUsed + 1 }
        if !fParentOfMatch then storedHash t.vHash false st
        else
          let left := traverseAndExtract t height (pos * 2) st
          if pos * 2 + 1 < calcTreeWidth t.nTransactions height then
            let right := traverseAndExtract t height (pos * 2 + 1) left.2
            (hash left.1 right.1, right.2)
          else (hash left.1 left.1, left.2)

/-- `ExtractMatches`: the root, which is zero on a failure, and `vMatch`. -/
def CPartialMerkleTree.extractMatches (t : CPartialMerkleTree) : UInt256 × List UInt256 :=
  if t.nTransactions = 0 then (0, [])
  else if maxBlockSize / 60 < t.nTransactions then (0, [])
  else if t.nTransactions < t.vHash.length then (0, [])
  else if t.vBits.length < t.vHash.length then (0, [])
  else
    let r := traverseAndExtract hash t (treeHeight t.nTransactions) 0 { fBad := t.fBad }
    if r.2.fBad then (0, r.2.vMatch)
    else if (r.2.nBitsUsed + 7) / 8 ≠ (t.vBits.length + 7) / 8 then (0, r.2.vMatch)
    else if r.2.nHashUsed ≠ t.vHash.length then (0, r.2.vMatch)
    else (r.1, r.2.vMatch)

end Trees

/-! ## The wire form -/

/-- `vBytes` of a tree that is written: bit `p` of the tree is bit `p % 8` of byte `p / 8`. -/
def packBits (vBits : List Bool) : List UInt8 :=
  BitTable.markAll (List.replicate ((vBits.length + 7) / 8) 0)
    ((List.range vBits.length).filter (vBits.getD · false))

/-- `vBits` of a tree that is read. -/
def unpackBits (vBytes : List UInt8) : List Bool :=
  (List.range (vBytes.length * 8)).map (BitTable.test vBytes)

/-- `CPartialMerkleTree::SerializationOp`; `fBad` is only cleared by a reader. -/
def partialMerkleTreeFormat : Format CPartialMerkleTree :=
  imap (pair (uint 4) (pair (vectorFormat (5000000 / 32) (bitVec 32)) bytesFormat))
    (fun t => (t.nTransactions, t.vHash, packBits t.vBits))
    fun x => { nTransactions := x.1, vHash := x.2.1, vBits := unpackBits x.2.2, fBad := false }

/-! ## What a client gets -/

section Promises

variable (hash : UInt256 → UInt256 → UInt256)

/-- The root of a block with these transactions. -/
def merkleRootOf (vTxid : List UInt256) : UInt256 := (buildMerkleTree hash vTxid).1

/-- **Completeness.**  Of each selection, written and read, the client gets the root of the block
and the selected transactions in order. -/
def Complete (vTxid : List UInt256) : Prop :=
  ∀ (vMatch : List Bool) (rest : Bytes), vMatch.length = vTxid.length → ∃ t,
    partialMerkleTreeFormat.get
        (partialMerkleTreeFormat.put (.ofMatches hash vTxid vMatch) ++ rest) = some (t, rest) ∧
      t.extractMatches hash =
        (merkleRootOf hash vTxid, ((vTxid.zip vMatch).filter fun p => p.2).map Prod.fst)

/-- **Authenticity.**  Of a tree with so many transactions, whatever its bits and hashes, that has
the root of the block, the client gets only transactions of the block, and none more often than
the block has it. -/
def Authentic (vTxid : List UInt256) (nTransactions : ℕ) : Prop :=
  ∀ t : CPartialMerkleTree, t.nTransactions = nTransactions →
    (t.extractMatches hash).1 = merkleRootOf hash vTxid →
      (∀ txid ∈ (t.extractMatches hash).2, txid ∈ vTxid) ∧
        ∀ txid, (t.extractMatches hash).2.count txid ≤ vTxid.count txid

end Promises

/-! ## Shape and slices -/

theorem lt_calcTreeWidth {n height pos : ℕ} :
    pos < calcTreeWidth n height ↔ pos * 2 ^ height < n := by
  have hpos : 0 < 2 ^ height := Nat.two_pow_pos height
  have hmul : (pos + 1) * 2 ^ height = pos * 2 ^ height + 2 ^ height := by ring
  rw [calcTreeWidth, ← Nat.succ_le_iff, Nat.le_div_iff_mul_le hpos, Nat.succ_eq_add_one, hmul]
  omega

theorem heightLoop_spec {nTransactions : ℕ} : ∀ (n nHeight : ℕ),
    nTransactions ≤ 2 ^ (nHeight + n) → (∀ h < nHeight, 2 ^ h < nTransactions) →
    nTransactions ≤ 2 ^ heightLoop nTransactions n nHeight ∧
      ∀ h < heightLoop nTransactions n nHeight, 2 ^ h < nTransactions
  | 0, _, hle, hlt => ⟨hle, hlt⟩
  | n + 1, nHeight, hle, hlt => by
      rw [heightLoop]
      split
      · next hwide =>
        rw [lt_calcTreeWidth, one_mul] at hwide
        refine heightLoop_spec n (nHeight + 1) (by rwa [Nat.add_right_comm]) fun h hh => ?_
        rcases Nat.lt_succ_iff_lt_or_eq.1 hh with hh | rfl
        · exact hlt h hh
        · exact hwide
      · next hnarrow =>
        rw [lt_calcTreeWidth, one_mul, not_lt] at hnarrow
        exact ⟨hnarrow, hlt⟩

/-- The height is the least that fits. -/
theorem treeHeight_spec (n : ℕ) : n ≤ 2 ^ treeHeight n ∧ ∀ h < treeHeight n, 2 ^ h < n :=
  heightLoop_spec n 0 (by rw [Nat.zero_add]; exact Nat.lt_two_pow_self.le) (by simp)

/-- The leaves below a node. -/
def nodeLeaves {α : Type} (l : List α) (height pos : ℕ) : List α :=
  (l.drop (pos * 2 ^ height)).take (2 ^ height)

section Slices

variable {α : Type} {l : List α} {height pos : ℕ}

theorem length_nodeLeaves :
    (nodeLeaves l height pos).length = min (2 ^ height) (l.length - pos * 2 ^ height) := by
  rw [nodeLeaves, List.length_take, List.length_drop]

theorem length_nodeLeaves_le : (nodeLeaves l height pos).length ≤ 2 ^ height := by
  rw [length_nodeLeaves]
  exact min_le_left _ _

theorem nodeLeaves_ne_nil (h : pos * 2 ^ height < l.length) : nodeLeaves l height pos ≠ [] := by
  apply List.ne_nil_of_length_pos
  rw [length_nodeLeaves]
  have := Nat.two_pow_pos height
  omega

theorem nodeLeaves_root (h : l.length ≤ 2 ^ height) : nodeLeaves l height 0 = l := by
  rw [nodeLeaves, Nat.zero_mul, List.drop_zero, List.take_of_length_le h]

theorem nodeLeaves_left :
    (nodeLeaves l (height + 1) pos).take (2 ^ height) = nodeLeaves l height (pos * 2) := by
  have hpow : 2 ^ height ≤ 2 ^ (height + 1) := Nat.pow_le_pow_right (by decide) (by omega)
  have hpos : pos * 2 ^ (height + 1) = pos * 2 * 2 ^ height := by ring
  rw [nodeLeaves, nodeLeaves, List.take_take, min_eq_left hpow, hpos]

theorem nodeLeaves_right :
    (nodeLeaves l (height + 1) pos).drop (2 ^ height) = nodeLeaves l height (pos * 2 + 1) := by
  have hpow : 2 ^ (height + 1) - 2 ^ height = 2 ^ height := by rw [pow_succ]; omega
  have hpos : pos * 2 ^ (height + 1) + 2 ^ height = (pos * 2 + 1) * 2 ^ height := by ring
  rw [nodeLeaves, nodeLeaves, List.drop_take, hpow, List.drop_drop, hpos]

/-- A node has a right half when its right child is within the tree. -/
theorem nodeLeaves_short_iff (h : pos * 2 ^ (height + 1) < l.length) :
    (nodeLeaves l (height + 1) pos).length ≤ 2 ^ height ↔
      ¬ pos * 2 + 1 < calcTreeWidth l.length height := by
  have hpos : (pos * 2 + 1) * 2 ^ height = pos * 2 ^ (height + 1) + 2 ^ height := by ring
  have hpow : 2 ^ (height + 1) = 2 ^ height + 2 ^ height := by ring
  have hone := Nat.two_pow_pos height
  rw [hpow] at h
  rw [length_nodeLeaves, lt_calcTreeWidth, hpos, hpow]
  omega

theorem nodeLeaves_of_short (h : (nodeLeaves l (height + 1) pos).length ≤ 2 ^ height) :
    nodeLeaves l (height + 1) pos = nodeLeaves l height (pos * 2) := by
  rw [← nodeLeaves_left, List.take_of_length_le h]

/-- The children of a node. -/
theorem halves_nodeLeaves (h : pos * 2 ^ (height + 1) < l.length) :
    PartialMerkle.halves height (nodeLeaves l (height + 1) pos) =
      (nodeLeaves l height (pos * 2),
        if pos * 2 + 1 < calcTreeWidth l.length height then nodeLeaves l height (pos * 2 + 1)
        else nodeLeaves l height (pos * 2)) := by
  rw [PartialMerkle.halves]
  by_cases hwide : pos * 2 + 1 < calcTreeWidth l.length height
  · rw [if_pos hwide, if_neg (fun hs => (nodeLeaves_short_iff h).1 hs hwide), nodeLeaves_left,
      nodeLeaves_right]
  · have hshort := (nodeLeaves_short_iff h).2 hwide
    rw [if_neg hwide, if_pos hshort, nodeLeaves_of_short hshort]

theorem left_lt (h : pos * 2 ^ (height + 1) < l.length) : pos * 2 * 2 ^ height < l.length := by
  have hpos : pos * 2 ^ (height + 1) = pos * 2 * 2 ^ height := by ring
  rwa [hpos] at h

end Slices

/-! ## The recursions are those of the tree -/

section Recursions

variable (hash : UInt256 → UInt256 → UInt256)

theorem calcHash_eq {vTxid : List UInt256} : ∀ {height pos : ℕ}, pos * 2 ^ height < vTxid.length →
    calcHash hash vTxid height pos = PartialMerkle.root hash 0 height (nodeLeaves vTxid height pos)
  | 0, pos, h => by
      rw [pow_zero, mul_one] at h
      rw [calcHash, PartialMerkle.root, nodeLeaves, pow_zero, mul_one, List.drop_eq_getElem_cons h,
        List.getD_eq_getElem _ _ h]
      rfl
  | height + 1, pos, h => by
      have hleft := calcHash_eq (left_lt h)
      rw [calcHash, PartialMerkle.root, halves_nodeLeaves h, hleft]
      dsimp only
      split
      · next hwide => rw [calcHash_eq (lt_calcTreeWidth.1 hwide)]
      · rfl

theorem parentOfMatch_eq (vMatch : List Bool) (height pos : ℕ) :
    parentOfMatch vMatch.length vMatch height pos = (nodeLeaves vMatch height pos).any id := by
  have hmul : (pos + 1) * 2 ^ height = pos * 2 ^ height + 2 ^ height := by ring
  rw [Bool.eq_iff_iff, parentOfMatch, List.any_eq_true, List.any_eq_true]
  constructor
  · rintro ⟨p, hp, htrue⟩
    rw [List.mem_range'_1, hmul] at hp
    have hlt : p < vMatch.length := by omega
    refine ⟨true, ?_, rfl⟩
    rw [List.mem_iff_getElem?]
    refine ⟨p - pos * 2 ^ height, ?_⟩
    rw [nodeLeaves, List.getElem?_take_of_lt (by omega), List.getElem?_drop,
      Nat.add_sub_cancel' hp.1, List.getElem?_eq_getElem hlt, ← htrue, List.getD_eq_getElem _ _ hlt]
  · rintro ⟨b, hb, rfl : b = true⟩
    obtain ⟨i, hi⟩ := List.mem_iff_getElem?.1 hb
    obtain ⟨hlt, -⟩ := List.getElem?_eq_some_iff.1 hi
    rw [length_nodeLeaves] at hlt
    rw [nodeLeaves, List.getElem?_take_of_lt (by omega), List.getElem?_drop] at hi
    refine ⟨pos * 2 ^ height + i, ?_, ?_⟩
    · rw [List.mem_range'_1, hmul]
      omega
    · rw [List.getD_eq_getElem?_getD, hi]
      rfl

/-- **What `TraverseAndBuild` appends.** -/
theorem traverseAndBuild_eq {vTxid : List UInt256} {vMatch : List Bool}
    (hmatch : vMatch.length = vTxid.length) : ∀ {height pos : ℕ} (vBits : List Bool)
    (vHash : List UInt256), pos * 2 ^ height < vTxid.length →
    traverseAndBuild hash vTxid vMatch height pos (vBits, vHash) =
      (vBits ++ (PartialMerkle.build hash 0 height (nodeLeaves vTxid height pos)
          (nodeLeaves vMatch height pos)).1,
        vHash ++ (PartialMerkle.build hash 0 height (nodeLeaves vTxid height pos)
          (nodeLeaves vMatch height pos)).2)
  | 0, pos, vBits, vHash, h => by
      rw [traverseAndBuild, calcHash_eq hash h, ← hmatch, parentOfMatch_eq]
      rfl
  | height + 1, pos, vBits, vHash, h => by
      have hparent : parentOfMatch vTxid.length vMatch (height + 1) pos =
          (nodeLeaves vMatch (height + 1) pos).any id := by
        rw [← hmatch, parentOfMatch_eq]
      rw [traverseAndBuild, PartialMerkle.build, hparent, calcHash_eq hash h]
      cases (nodeLeaves vMatch (height + 1) pos).any id with
      | false => rfl
      | true =>
          simp only [Bool.not_true, Bool.false_eq_true, if_false, if_true]
          rw [traverseAndBuild_eq hmatch _ _ (left_lt h)]
          by_cases hwide : pos * 2 + 1 < calcTreeWidth vTxid.length height
          · rw [if_pos hwide, if_neg (fun hs => (nodeLeaves_short_iff h).1 hs hwide),
              traverseAndBuild_eq hmatch _ _ (lt_calcTreeWidth.1 hwide)]
            simp only [nodeLeaves_left, nodeLeaves_right, List.append_assoc, List.cons_append,
              List.nil_append]
          · have hshort := (nodeLeaves_short_iff h).2 hwide
            have hshort' : (nodeLeaves vMatch (height + 1) pos).length ≤ 2 ^ height := by
              rw [length_nodeLeaves, hmatch, ← length_nodeLeaves (l := vTxid)]
              exact hshort
            rw [if_neg hwide, if_pos hshort, nodeLeaves_of_short hshort,
              nodeLeaves_of_short hshort']
            simp only [List.append_assoc, List.cons_append, List.nil_append]

/-- How many leaves there are below a node. -/
def leafCount (nTransactions height pos : ℕ) : ℕ :=
  min (2 ^ height) (nTransactions - pos * 2 ^ height)

theorem leafCount_children (n height pos : ℕ) :
    min (leafCount n (height + 1) pos) (2 ^ height) = leafCount n height (pos * 2) ∧
    (leafCount n (height + 1) pos ≤ 2 ^ height ↔ ¬ pos * 2 + 1 < calcTreeWidth n height) ∧
    leafCount n (height + 1) pos - 2 ^ height = leafCount n height (pos * 2 + 1) := by
  have hmul : pos * 2 ^ (height + 1) = pos * 2 * 2 ^ height := by ring
  have hmul' : (pos * 2 + 1) * 2 ^ height = pos * 2 * 2 ^ height + 2 ^ height := by ring
  have hpow : 2 ^ (height + 1) = 2 ^ height + 2 ^ height := by ring
  have hone := Nat.two_pow_pos height
  rw [lt_calcTreeWidth]
  rw [leafCount, leafCount, leafCount, hmul, hmul', hpow]
  omega

/-- What `storedHash` does: it fails at the end of the hashes. -/
theorem storedHash_eq (vHash : List UInt256) (fMatch : Bool) (st : Extraction) :
    (vHash.drop st.nHashUsed = [] ∧ storedHash vHash fMatch st = (0, { st with fBad := true })) ∨
    ∃ h, vHash.drop st.nHashUsed = h :: vHash.drop (st.nHashUsed + 1) ∧
      st.nHashUsed + 1 ≤ vHash.length ∧
      storedHash vHash fMatch st = (h, { st with
        nHashUsed := st.nHashUsed + 1
        vMatch := if fMatch then st.vMatch ++ [h] else st.vMatch }) := by
  rw [storedHash]
  split
  · next hend => exact .inl ⟨List.drop_eq_nil_of_le hend, rfl⟩
  · next hmore =>
    have hlt : st.nHashUsed < vHash.length := by omega
    refine .inr ⟨vHash[st.nHashUsed], List.drop_eq_getElem_cons hlt, by omega, ?_⟩
    rw [List.getD_eq_getElem _ _ hlt]

theorem storedHash_fBad {vHash : List UInt256} {fMatch : Bool} {st : Extraction}
    (h : st.fBad = true) : (storedHash vHash fMatch st).2.fBad = true := by
  rcases storedHash_eq vHash fMatch st with ⟨-, heq⟩ | ⟨x, -, -, heq⟩
  · rw [heq]
  · rw [heq]
    exact h

/-- A failure is never forgotten. -/
theorem traverseAndExtract_fBad (t : CPartialMerkleTree) : ∀ {height pos : ℕ} {st : Extraction},
    st.fBad = true → (traverseAndExtract hash t height pos st).2.fBad = true
  | 0, pos, st, h => by
      rw [traverseAndExtract]
      split
      · rfl
      · exact storedHash_fBad h
  | height + 1, pos, st, h => by
      rw [traverseAndExtract]
      split
      · rfl
      · dsimp only
        split
        · exact storedHash_fBad h
        · have hleft := @traverseAndExtract_fBad t height (pos * 2)
            { st with nBitsUsed := st.nBitsUsed + 1 } h
          split
          · exact traverseAndExtract_fBad t hleft
          · exact hleft

/-- What `TraverseAndExtract` did, when the walk over the rest of the bits and hashes gives `w`. -/
def Followed (t : CPartialMerkleTree) (st : Extraction) (r : UInt256 × Extraction) :
    Option (UInt256 × List UInt256 × List Bool × List UInt256) → Prop
  | none => r.2.fBad = true
  | some (x, ms, bits, hs) =>
      r.1 = x ∧ r.2.fBad = false ∧ r.2.vMatch = st.vMatch ++ ms ∧
        r.2.nBitsUsed ≤ t.vBits.length ∧ t.vBits.drop r.2.nBitsUsed = bits ∧
        r.2.nHashUsed ≤ t.vHash.length ∧ t.vHash.drop r.2.nHashUsed = hs

/-- **`TraverseAndExtract` is the walk.**  It reads on from the counters, and fails where the walk
ends early. -/
theorem traverseAndExtract_followed (t : CPartialMerkleTree) : ∀ {height pos : ℕ}
    {st : Extraction}, pos * 2 ^ height < t.nTransactions → st.fBad = false →
    st.nBitsUsed ≤ t.vBits.length → st.nHashUsed ≤ t.vHash.length →
    Followed t st (traverseAndExtract hash t height pos st)
      (PartialMerkle.extract hash height (leafCount t.nTransactions height pos)
        (t.vBits.drop st.nBitsUsed) (t.vHash.drop st.nHashUsed))
  | 0, pos, st, _, hgood, _, hhash => by
      rw [traverseAndExtract]
      split
      · next hend =>
        rw [List.drop_eq_nil_of_le hend, PartialMerkle.extract]
        rfl
      · next hmore =>
        have hlt : st.nBitsUsed < t.vBits.length := by omega
        rw [List.drop_eq_getElem_cons hlt, List.getD_eq_getElem _ _ hlt]
        rcases storedHash_eq t.vHash t.vBits[st.nBitsUsed]
            { st with nBitsUsed := st.nBitsUsed + 1 } with ⟨hnil, heq⟩ | ⟨x, hcons, hle, heq⟩
        · rw [heq, show t.vHash.drop st.nHashUsed = [] from hnil]
          rfl
        · rw [heq, show t.vHash.drop st.nHashUsed = _ from hcons]
          refine ⟨rfl, hgood, ?_, hlt, rfl, hle, rfl⟩
          cases t.vBits[st.nBitsUsed] with
          | false => exact (List.append_nil _).symm
          | true => rfl
  | height + 1, pos, st, hpos, hgood, hbits, hhash => by
      rw [traverseAndExtract]
      split
      · next hend =>
        rw [List.drop_eq_nil_of_le hend, PartialMerkle.extract]
        rfl
      · next hmore =>
        have hlt : st.nBitsUsed < t.vBits.length := by omega
        rw [List.drop_eq_getElem_cons hlt, List.getD_eq_getElem _ _ hlt]
        cases hbit : t.vBits[st.nBitsUsed] with
        | false =>
            simp only [Bool.not_false, if_true]
            rcases storedHash_eq t.vHash false { st with nBitsUsed := st.nBitsUsed + 1 } with
              ⟨hnil, heq⟩ | ⟨x, hcons, hle, heq⟩
            · rw [heq, show t.vHash.drop st.nHashUsed = [] from hnil]
              rfl
            · rw [heq, show t.vHash.drop st.nHashUsed = _ from hcons]
              exact ⟨rfl, hgood, (List.append_nil _).symm, hlt, rfl, hle, rfl⟩
        | true =>
            simp only [Bool.not_true, Bool.false_eq_true, if_false]
            have hmul : pos * 2 ^ (height + 1) = pos * 2 * 2 ^ height := by ring
            obtain ⟨hcount, hwide, hcount'⟩ := leafCount_children t.nTransactions height pos
            have hleft := @traverseAndExtract_followed t height (pos * 2)
              { st with nBitsUsed := st.nBitsUsed + 1 } (hmul ▸ hpos) hgood hlt hhash
            generalize traverseAndExtract hash t height (pos * 2)
              { st with nBitsUsed := st.nBitsUsed + 1 } = left at hleft ⊢
            rw [PartialMerkle.extract, hcount]
            dsimp only at hleft ⊢
            generalize PartialMerkle.extract hash height
              (leafCount t.nTransactions height (pos * 2))
              (t.vBits.drop (st.nBitsUsed + 1)) (t.vHash.drop st.nHashUsed) = w at hleft ⊢
            cases w with
            | none =>
                have hbad : left.2.fBad = true := hleft
                split
                · exact traverseAndExtract_fBad hash t hbad
                · exact hbad
            | some w =>
                obtain ⟨x, ms, bits, hs⟩ := w
                obtain ⟨rfl, hgood₁, hmatch₁, hbits₁, rfl, hhash₁, rfl⟩ := hleft
                dsimp only
                by_cases hright : pos * 2 + 1 < calcTreeWidth t.nTransactions height
                · rw [if_pos hright, if_neg (fun h => hwide.1 h hright), hcount']
                  have hnode := traverseAndExtract_followed t (lt_calcTreeWidth.1 hright) hgood₁
                    hbits₁ hhash₁
                  generalize traverseAndExtract hash t height (pos * 2 + 1) left.2 = right at hnode ⊢
                  generalize PartialMerkle.extract hash height
                    (leafCount t.nTransactions height (pos * 2 + 1))
                    (t.vBits.drop left.2.nBitsUsed) (t.vHash.drop left.2.nHashUsed) = w at hnode ⊢
                  cases w with
                  | none => exact hnode
                  | some w =>
                      obtain ⟨y, ms', bits, hs⟩ := w
                      obtain ⟨rfl, hgood₂, hmatch₂, hbits₂, rfl, hhash₂, rfl⟩ := hnode
                      refine ⟨rfl, hgood₂, ?_, hbits₂, rfl, hhash₂, rfl⟩
                      rw [hmatch₂, hmatch₁, List.append_assoc]
                · rw [if_neg hright, if_pos (hwide.2 hright)]
                  exact ⟨rfl, hgood₁, hmatch₁, hbits₁, rfl, hhash₁, rfl⟩

end Recursions

/-! ## The root -/

section Root

variable (hash : UInt256 → UInt256 → UInt256)

/-- The pairs of a level, once its nodes are those of the tree. -/
theorem getElem?_levelPairs {vTxid level : List UInt256} {height pos : ℕ}
    (hlen : level.length = calcTreeWidth vTxid.length height)
    (hget : ∀ pos, pos * 2 ^ height < vTxid.length → level[pos]? =
      some (PartialMerkle.root hash 0 height (nodeLeaves vTxid height pos)))
    (h : pos * 2 ^ (height + 1) < vTxid.length) :
    (Merkle.pairs level)[pos]? = some
      (PartialMerkle.root hash 0 height
        (PartialMerkle.halves height (nodeLeaves vTxid (height + 1) pos)).1,
      PartialMerkle.root hash 0 height
        (PartialMerkle.halves height (nodeLeaves vTxid (height + 1) pos)).2) := by
  have hleft : pos * 2 < level.length := by
    rw [hlen]
    exact lt_calcTreeWidth.2 (left_lt h)
  rw [Merkle.getElem?_pairs 0 level pos (by omega), halves_nodeLeaves h, mul_comm 2 pos,
    List.getD_eq_getElem?_getD, hget _ (left_lt h)]
  dsimp only
  split
  · next hright =>
    rw [min_eq_left (by omega), List.getD_eq_getElem?_getD, hget _ (lt_calcTreeWidth.1 hright)]
    rfl
  · next hright =>
    rw [← hlen] at hright
    have hlast : min (pos * 2 + 1) (level.length - 1) = pos * 2 := by omega
    rw [hlast, List.getD_eq_getElem?_getD, hget _ (left_lt h)]
    rfl

/-- The nodes of a level of `BuildMerkleTree` are those of the tree. -/
theorem getElem?_level {vTxid : List UInt256} : ∀ (height : ℕ),
    ((Merkle.pairUp hash)^[height] vTxid).length = calcTreeWidth vTxid.length height ∧
    ∀ pos, pos * 2 ^ height < vTxid.length → ((Merkle.pairUp hash)^[height] vTxid)[pos]? =
      some (PartialMerkle.root hash 0 height (nodeLeaves vTxid height pos))
  | 0 => by
      refine ⟨by simp [calcTreeWidth], fun pos h => ?_⟩
      rw [← calcHash_eq hash h, calcHash]
      rw [pow_zero, mul_one] at h
      rw [List.getD_eq_getElem _ _ h]
      exact List.getElem?_eq_getElem h
  | height + 1 => by
      obtain ⟨hlen, hget⟩ := @getElem?_level vTxid height
      rw [Function.iterate_succ_apply']
      generalize (Merkle.pairUp hash)^[height] vTxid = level at hlen hget ⊢
      refine ⟨?_, fun pos h => ?_⟩
      · rw [Merkle.length_pairUp, hlen, calcTreeWidth, calcTreeWidth, pow_succ, ← Nat.div_div_eq_div_mul]
        have hone := Nat.two_pow_pos height
        have hsum : vTxid.length + 2 ^ height * 2 - 1 = vTxid.length + 2 ^ height - 1 + 2 ^ height := by
          omega
        rw [hsum, Nat.add_div_right _ hone]
      · rw [Merkle.pairUp, List.getElem?_map, getElem?_levelPairs hash hlen hget h,
          Option.map_some, PartialMerkle.root]

/-- The root of the block is that of the tree, and the pairs of all levels below it are hashed. -/
theorem merkleRootOf_eq {vTxid : List UInt256} (hne : vTxid ≠ []) :
    merkleRootOf hash vTxid = PartialMerkle.root hash 0 (treeHeight vTxid.length) vTxid ∧
      ∀ i < treeHeight vTxid.length, Merkle.pairs ((Merkle.pairUp hash)^[i] vTxid) ⊆
        Merkle.hashed hash vTxid.length vTxid := by
  obtain ⟨d, hroot, hone, -, hsub⟩ := Merkle.climb_spec hash vTxid.length vTxid false le_rfl
  obtain ⟨hfit, hleast⟩ := treeHeight_spec vTxid.length
  have hpos : 0 < vTxid.length := List.length_pos_iff.2 hne
  have hwide : ∀ i, 1 < ((Merkle.pairUp hash)^[i] vTxid).length ↔ 2 ^ i < vTxid.length := by
    intro i
    rw [(getElem?_level hash i).1, lt_calcTreeWidth, one_mul]
  constructor
  · have hend : ((Merkle.pairUp hash)^[treeHeight vTxid.length] vTxid).length ≤ 1 := by
      rw [← not_lt, hwide]
      omega
    have hclimb := Merkle.climb_eq_iterate hash (treeHeight vTxid.length) vTxid.length vTxid false
      le_rfl (fun i hi => (hwide i).2 (hleast i hi)) hend
    have hget := (@getElem?_level hash vTxid (treeHeight vTxid.length)).2 0
      (by rwa [Nat.zero_mul])
    rw [nodeLeaves_root hfit] at hget
    rw [merkleRootOf, buildMerkleTree, hclimb, List.head?_eq_getElem?, hget]
    rfl
  · intro i hi
    apply hsub
    by_contra hge
    rw [hroot] at hone
    have hlong : 1 < ((Merkle.pairUp hash)^[d] vTxid).length := by
      rw [hwide]
      exact lt_of_le_of_lt (Nat.pow_le_pow_right (by decide) (by omega)) (hleast i hi)
    omega

/-- The pairs of the tree are among them. -/
theorem hashedPairs_subset {vTxid : List UInt256} (hne : vTxid ≠ []) : ∀ {height pos : ℕ},
    height ≤ treeHeight vTxid.length → pos * 2 ^ height < vTxid.length →
    PartialMerkle.hashedPairs hash 0 height (nodeLeaves vTxid height pos) ⊆
      Merkle.hashed hash vTxid.length vTxid
  | 0, _, _, _ => List.nil_subset _
  | height + 1, pos, hle, hpos => by
      have hpair : (PartialMerkle.root hash 0 height
            (PartialMerkle.halves height (nodeLeaves vTxid (height + 1) pos)).1,
          PartialMerkle.root hash 0 height
            (PartialMerkle.halves height (nodeLeaves vTxid (height + 1) pos)).2) ∈
          Merkle.hashed hash vTxid.length vTxid := by
        apply (merkleRootOf_eq hash hne).2 height (by omega)
        obtain ⟨hlen, hget⟩ := @getElem?_level hash vTxid height
        exact List.mem_of_getElem? (getElem?_levelPairs hash hlen hget hpos)
      rw [PartialMerkle.hashedPairs]
      refine List.cons_subset.2 ⟨hpair, List.append_subset.2 ⟨?_, ?_⟩⟩
      · rw [halves_nodeLeaves hpos]
        exact hashedPairs_subset hne (by omega) (left_lt hpos)
      · rw [halves_nodeLeaves hpos]
        dsimp only
        split
        · next hright => exact hashedPairs_subset hne (by omega) (lt_calcTreeWidth.1 hright)
        · exact hashedPairs_subset hne (by omega) (left_lt hpos)

end Root

/-! ## The checks around the walk -/

section Checks

variable (hash : UInt256 → UInt256 → UInt256)

/-- The walk over the tree from its root. -/
def CPartialMerkleTree.walk (t : CPartialMerkleTree) :
    Option (UInt256 × List UInt256 × List Bool × List UInt256) :=
  PartialMerkle.extract hash (treeHeight t.nTransactions) t.nTransactions t.vBits t.vHash

theorem followed_root {t : CPartialMerkleTree} (hpos : t.nTransactions ≠ 0)
    (hgood : t.fBad = false) :
    Followed t { fBad := t.fBad }
      (traverseAndExtract hash t (treeHeight t.nTransactions) 0 { fBad := t.fBad })
      (t.walk hash) := by
  have hcount : leafCount t.nTransactions (treeHeight t.nTransactions) 0 = t.nTransactions := by
    rw [leafCount, Nat.zero_mul, Nat.sub_zero, min_eq_right (treeHeight_spec _).1]
  have h := @traverseAndExtract_followed hash t (treeHeight t.nTransactions) 0
    { fBad := t.fBad } (by rw [Nat.zero_mul]; omega) hgood (Nat.zero_le _) (Nat.zero_le _)
  rwa [hcount] at h

/-- The result of a tree whose walk uses up the hashes. -/
theorem extractMatches_of_walk {t : CPartialMerkleTree} {x : UInt256} {ms : List UInt256}
    {bits : List Bool} (hpos : t.nTransactions ≠ 0) (hlimit : t.nTransactions ≤ maxBlockSize / 60)
    (hhash : t.vHash.length ≤ t.nTransactions) (hbits : t.vHash.length ≤ t.vBits.length)
    (hgood : t.fBad = false) (hwalk : t.walk hash = some (x, ms, bits, [])) :
    t.extractMatches hash =
      (if (t.vBits.length - bits.length + 7) / 8 = (t.vBits.length + 7) / 8 then x else 0, ms) := by
  have h := followed_root hash hpos hgood
  rw [hwalk] at h
  obtain ⟨hx, hgood', hms, hused, hrest, hused', hrest'⟩ := h
  have hlen := congrArg List.length hrest
  have hlen' := congrArg List.length hrest'
  rw [List.length_drop] at hlen hlen'
  rw [List.length_nil] at hlen'
  rw [CPartialMerkleTree.extractMatches, if_neg hpos, if_neg (by omega), if_neg (by omega),
    if_neg (by omega)]
  dsimp only
  have hbitsUsed : (traverseAndExtract hash t (treeHeight t.nTransactions) 0
      { fBad := t.fBad }).2.nBitsUsed = t.vBits.length - bits.length := by omega
  have hhashUsed : (traverseAndExtract hash t (treeHeight t.nTransactions) 0
      { fBad := t.fBad }).2.nHashUsed = t.vHash.length := by omega
  rw [hgood', hbitsUsed, hhashUsed, hms, hx, List.nil_append]
  by_cases hpad : (t.vBits.length - bits.length + 7) / 8 = (t.vBits.length + 7) / 8
  · simp [hpad]
  · simp [hpad]

/-- A root other than zero is the end of a walk. -/
theorem walk_of_extractMatches {t : CPartialMerkleTree} (h : (t.extractMatches hash).1 ≠ 0) :
    t.nTransactions ≠ 0 ∧ t.nTransactions ≤ maxBlockSize / 60 ∧ ∃ bits hs,
      t.walk hash = some ((t.extractMatches hash).1, (t.extractMatches hash).2, bits, hs) := by
  rw [CPartialMerkleTree.extractMatches] at h ⊢
  split at h
  · exact absurd rfl h
  next hpos =>
  split at h
  · exact absurd rfl h
  next hlimit =>
  split at h
  · exact absurd rfl h
  next hhash =>
  split at h
  · exact absurd rfl h
  next hbits =>
  dsimp only at h
  split at h
  · exact absurd rfl h
  next hgood' =>
  split at h
  · exact absurd rfl h
  next hpad =>
  split at h
  · exact absurd rfl h
  next hused =>
  have hgood : t.fBad = false := by
    by_contra hbad
    exact hgood' (traverseAndExtract_fBad hash t (Bool.eq_true_of_not_eq_false hbad))
  have hfollow := followed_root hash hpos hgood
  refine ⟨hpos, not_lt.1 hlimit, ?_⟩
  rw [if_neg hpos, if_neg hlimit, if_neg hhash, if_neg hbits]
  dsimp only
  rw [if_neg hgood', if_neg hpad, if_neg hused]
  generalize t.walk hash = w at hfollow
  cases w with
  | none => exact absurd hfollow hgood'
  | some w =>
      obtain ⟨x, ms, bits, hs⟩ := w
      obtain ⟨rfl, -, hms, -⟩ := hfollow
      rw [List.nil_append] at hms
      rw [hms]
      exact ⟨bits, hs, rfl⟩

end Checks

/-! ## Bits in bytes -/

/-- **Packing keeps the bits** and adds zeros up to the end of the last byte. -/
theorem unpackBits_packBits (vBits : List Bool) :
    unpackBits (packBits vBits) =
      vBits ++ List.replicate ((vBits.length + 7) / 8 * 8 - vBits.length) false := by
  have hlen : (packBits vBits).length = (vBits.length + 7) / 8 := by
    rw [packBits, BitTable.length_markAll, List.length_replicate]
  have hzero : ∀ j, BitTable.test (List.replicate ((vBits.length + 7) / 8) 0) j = false := by
    intro j
    rw [BitTable.test_eq, List.getD_eq_getElem?_getD, List.getElem?_replicate]
    split <;> exact Nat.zero_testBit _
  apply List.ext_getElem?
  intro j
  rw [unpackBits, List.getElem?_map, hlen]
  by_cases hj : j < (vBits.length + 7) / 8 * 8
  · rw [List.getElem?_range hj, Option.map_some, packBits, BitTable.test_markAll, hzero,
      Bool.false_or]
    · by_cases hin : j < vBits.length
      · rw [List.getElem?_append_left hin, List.getElem?_eq_getElem hin]
        simp [hin]
      · rw [List.getElem?_append_right (by omega), List.getElem?_replicate,
          if_pos (by omega)]
        simp [hin]
    · intro i hi
      rw [List.mem_filter, List.mem_range] at hi
      rw [List.length_replicate]
      omega
  · rw [List.getElem?_eq_none (by rw [List.length_range]; omega), List.getElem?_append_right (by omega),
      List.getElem?_replicate, if_neg (by omega)]
    rfl

/-- What a reader gets of a tree that was written. -/
theorem partialMerkleTreeFormat_get {t : CPartialMerkleTree} (hcount : t.nTransactions < 256 ^ 4)
    (hhash : t.vHash.length ≤ maxSize) (hbits : (t.vBits.length + 7) / 8 ≤ maxSize)
    (rest : Bytes) :
    partialMerkleTreeFormat.get (partialMerkleTreeFormat.put t ++ rest) = some
      ({ t with
        vBits := t.vBits ++ List.replicate ((t.vBits.length + 7) / 8 * 8 - t.vBits.length) false
        fBad := false }, rest) := by
  have hpack : (packBits t.vBits).length ≤ maxSize := by
    rwa [packBits, BitTable.length_markAll, List.length_replicate]
  have hlawful := lawful_pair (lawful_uint 4) (lawful_pair
    (lawful_vectorFormat (show 0 < 5000000 / 32 by decide) (lawful_bitVec 32)) lawful_bytesFormat)
  have hread := hlawful (t.nTransactions, t.vHash, packBits t.vBits) rest
    ⟨hcount, ⟨isSize_of_le hhash, fun _ _ => trivial⟩, isSize_of_le hpack⟩
  have hfits : (pair (uint 4) (pair (vectorFormat (5000000 / 32) (bitVec 32)) bytesFormat)).fits
      (t.nTransactions, t.vHash, packBits t.vBits) = true := by
    have hvec := @vectorFormat_fits _ (5000000 / 32) (bitVec 32) t.vHash hhash fun _ _ => rfl
    show (true && ((vectorFormat (5000000 / 32) (bitVec 32)).fits t.vHash &&
      bytesFormat.fits (packBits t.vBits))) = true
    rw [hvec, bytesFormat_fits hpack]
    rfl
  rw [hfits, if_pos rfl] at hread
  show Option.map _ _ = _
  rw [← unpackBits_packBits]
  exact congrArg (Option.map _) hread

/-! ## Complete and authentic -/

theorem treeHeight_le {n : ℕ} (h : n ≤ maxBlockSize / 60) : treeHeight n ≤ 15 := by
  by_contra hlt
  have hleast := (treeHeight_spec n).2 15 (by omega)
  have hlimit : maxBlockSize / 60 = 16666 := by decide
  rw [hlimit] at h
  omega

section Exact

variable (hash : UInt256 → UInt256 → UInt256)

theorem ofMatches_eq {vTxid : List UInt256} {vMatch : List Bool} (hne : vTxid ≠ [])
    (hmatch : vMatch.length = vTxid.length) :
    CPartialMerkleTree.ofMatches hash vTxid vMatch =
      { nTransactions := vTxid.length
        vBits := (PartialMerkle.build hash 0 (treeHeight vTxid.length) vTxid vMatch).1
        vHash := (PartialMerkle.build hash 0 (treeHeight vTxid.length) vTxid vMatch).2
        fBad := false } := by
  have hfit := (treeHeight_spec vTxid.length).1
  have hpos : 0 * 2 ^ treeHeight vTxid.length < vTxid.length := by
    rw [Nat.zero_mul]
    exact List.length_pos_iff.2 hne
  rw [CPartialMerkleTree.ofMatches, traverseAndBuild_eq hash hmatch [] [] hpos,
    nodeLeaves_root hfit, nodeLeaves_root (hmatch ▸ hfit)]
  rfl

/-- A selection with further bits: the client gets the selected transactions, and the root unless
there is a byte too many. -/
theorem extractMatches_build {vTxid : List UInt256} {vMatch : List Bool} (hne : vTxid ≠ [])
    (hlimit : vTxid.length ≤ maxBlockSize / 60) (hmatch : vMatch.length = vTxid.length)
    (pad : List Bool) :
    let r := PartialMerkle.build hash 0 (treeHeight vTxid.length) vTxid vMatch
    CPartialMerkleTree.extractMatches hash
        { nTransactions := vTxid.length, vBits := r.1 ++ pad, vHash := r.2, fBad := false } =
      (if (r.1.length + 7) / 8 = (r.1.length + pad.length + 7) / 8 then merkleRootOf hash vTxid
        else 0, PartialMerkle.selected vTxid vMatch) := by
  intro r
  have hfit := (treeHeight_spec vTxid.length).1
  obtain ⟨hhash, hbits, -⟩ := PartialMerkle.length_build hash 0 (treeHeight vTxid.length) vTxid
    vMatch hne hfit
  have hwalk := PartialMerkle.extract_build hash 0 (treeHeight vTxid.length) vTxid vMatch pad []
    hne hfit hmatch
  rw [List.append_nil, ← (merkleRootOf_eq hash hne).1] at hwalk
  have hpos : vTxid.length ≠ 0 := fun h => hne (List.length_eq_zero_iff.1 h)
  have hresult := @extractMatches_of_walk hash
    { nTransactions := vTxid.length, vBits := r.1 ++ pad, vHash := r.2, fBad := false } _ _ _ hpos
    hlimit hhash (by rw [List.length_append]; exact hbits.trans (Nat.le_add_right _ _)) rfl hwalk
  rw [hresult, List.length_append, Nat.add_sub_cancel]

/-- **Partial trees are complete.** -/
theorem complete_of_le {vTxid : List UInt256} (hne : vTxid ≠ [])
    (hlimit : vTxid.length ≤ maxBlockSize / 60) : Complete hash vTxid := by
  intro vMatch rest hmatch
  have hfit := (treeHeight_spec vTxid.length).1
  have hconst : maxBlockSize / 60 = 16666 := by decide
  obtain ⟨hhash, -, hnodes⟩ := PartialMerkle.length_build hash 0 (treeHeight vTxid.length) vTxid
    vMatch hne hfit
  have hsmall : (treeHeight vTxid.length + 1) * vTxid.length ≤ 16 * 16666 :=
    Nat.mul_le_mul (Nat.succ_le_succ (treeHeight_le hlimit)) (hconst ▸ hlimit)
  have hmax : maxSize = 33554432 := rfl
  rw [hconst] at hlimit
  rw [ofMatches_eq hash hne hmatch]
  refine ⟨_, partialMerkleTreeFormat_get ?_ ?_ ?_ rest, ?_⟩
  · show vTxid.length < 256 ^ 4
    omega
  · dsimp only
    omega
  · dsimp only
    omega
  · dsimp only
    rw [extractMatches_build hash hne (hconst ▸ hlimit) hmatch, if_pos]
    · rfl
    · rw [List.length_replicate]
      omega

/-- A tree over other transactions, with a byte too many: they are extracted, and the root is
zero. -/
theorem exists_alien {vTxid : List UInt256} {nTransactions : ℕ} (hpos : nTransactions ≠ 0)
    (hlimit : nTransactions ≤ maxBlockSize / 60)
    (hheight : treeHeight nTransactions = treeHeight vTxid.length) :
    ∃ t : CPartialMerkleTree, t.nTransactions = nTransactions ∧ (t.extractMatches hash).1 = 0 ∧
      ∃ txid ∈ (t.extractMatches hash).2, txid ∉ vTxid := by
  have hlen : vTxid.length ≤ 2 ^ 15 :=
    (treeHeight_spec vTxid.length).1.trans
      (Nat.pow_le_pow_right (by decide) (hheight ▸ treeHeight_le hlimit))
  obtain ⟨x, hx⟩ : ∃ x : UInt256, x ∉ vTxid := by
    by_contra hall
    push Not at hall
    have hnodup : ((List.range (2 ^ 15 + 1)).map (BitVec.ofNat 256)).Nodup := by
      refine List.Nodup.map_on ?_ List.nodup_range
      intro a ha b hb heq
      rw [List.mem_range] at ha hb
      have hnat := congrArg BitVec.toNat heq
      rw [BitVec.toNat_ofNat, BitVec.toNat_ofNat, Nat.mod_eq_of_lt (by omega),
        Nat.mod_eq_of_lt (by omega)] at hnat
      exact hnat
    have hle := (hnodup.subperm fun y _ => hall y).length_le
    rw [List.length_map, List.length_range] at hle
    omega
  have hrep : (List.replicate nTransactions x).length = nTransactions := List.length_replicate
  have hne : List.replicate nTransactions x ≠ [] := by
    apply List.ne_nil_of_length_pos
    omega
  have hresult := @extractMatches_build hash _ (List.replicate nTransactions true) hne
    (hrep.symm ▸ hlimit) (by rw [hrep, List.length_replicate]) (List.replicate 8 false)
  dsimp only at hresult
  generalize PartialMerkle.build hash 0 _ (List.replicate nTransactions x) _ = r at hresult
  refine ⟨⟨(List.replicate nTransactions x).length, r.1 ++ List.replicate 8 false, r.2, false⟩,
    hrep, ?_, x, ?_, hx⟩
  · rw [hresult, if_neg (by rw [List.length_replicate]; omega)]
  · rw [hresult, PartialMerkle.selected, List.mem_map]
    refine ⟨(x, true), List.mem_filter.2 ⟨?_, rfl⟩, rfl⟩
    rw [List.zip_replicate', List.mem_replicate]
    exact ⟨hpos, rfl⟩

/-- **When partial trees are authentic.**  A tree with more transactions than the block has right
halves where the block repeats left ones, and nothing keeps it from proving the same transaction in
both; it does so wherever its walk can reach the second copy. -/
theorem authentic_iff {vTxid : List UInt256} {nTransactions : ℕ} (hne : vTxid ≠ [])
    (hheight : treeHeight nTransactions = treeHeight vTxid.length)
    (hfree : ∀ q ∈ Merkle.hashed hash vTxid.length vTxid, ∀ a b,
      hash a b = hash q.1 q.2 → a = q.1 ∧ b = q.2) :
    Authentic hash vTxid nTransactions ↔
      nTransactions = 0 ∨ maxBlockSize / 60 < nTransactions ∨
      (merkleRootOf hash vTxid ≠ 0 ∧ ∀ txid,
        (PartialMerkle.openLeaves hash 0 (treeHeight nTransactions) nTransactions vTxid).count txid ≤
          vTxid.count txid) := by
  obtain ⟨hroot, -⟩ := merkleRootOf_eq hash hne
  have hfit : vTxid.length ≤ 2 ^ treeHeight nTransactions := hheight ▸ (treeHeight_spec _).1
  rw [← hheight] at hroot
  constructor
  · intro hauth
    by_cases hzero : nTransactions = 0
    · exact .inl hzero
    by_cases hmany : maxBlockSize / 60 < nTransactions
    · exact .inr (.inl hmany)
    refine .inr (.inr ⟨?_, ?_⟩)
    · intro hnull
      obtain ⟨t, hcount, hfail, x, hx, halien⟩ :=
        exists_alien hash hzero (not_lt.1 hmany) hheight
      exact halien ((hauth t hcount (hfail.trans hnull.symm)).1 x hx)
    · obtain ⟨bits, hs, hrun, hhash, hbits⟩ := PartialMerkle.exists_extract hash 0
        (treeHeight nTransactions) nTransactions vTxid (Nat.pos_of_ne_zero hzero) hne hfit
      have hwalk := hrun [] []
      rw [List.append_nil, List.append_nil, ← hroot] at hwalk
      have hresult := @extractMatches_of_walk hash
        { nTransactions := nTransactions, vBits := bits, vHash := hs, fBad := false } _ _ _ hzero
        (not_lt.1 hmany) hhash hbits rfl hwalk
      have hauth := hauth _ rfl (by rw [hresult]; exact if_pos rfl)
      rw [hresult] at hauth
      exact hauth.2
  · rintro (hzero | hmany | ⟨hnull, hcount⟩) t rfl hmatch
    · have hresult : t.extractMatches hash = (0, []) := by
        rw [CPartialMerkleTree.extractMatches, if_pos hzero]
      rw [hresult]
      exact ⟨by simp, by simp⟩
    · have hresult : t.extractMatches hash = (0, []) := by
        rw [CPartialMerkleTree.extractMatches, if_neg (by omega), if_pos hmany]
      rw [hresult]
      exact ⟨by simp, by simp⟩
    · obtain ⟨-, -, bits, hs, hwalk⟩ := walk_of_extractMatches hash (hmatch ▸ hnull)
      rw [hmatch, hroot] at hwalk
      have hpairs := @hashedPairs_subset hash vTxid hne (treeHeight vTxid.length) 0 le_rfl
        (by rw [Nat.zero_mul]; exact List.length_pos_iff.2 hne)
      rw [nodeLeaves_root (treeHeight_spec _).1, ← hheight] at hpairs
      have hsub := PartialMerkle.extract_sublist hash 0 hne hfit
        (fun q hq => hfree q (hpairs hq)) hwalk
      have hle := fun txid => (hsub.count_le txid).trans (hcount txid)
      refine ⟨fun txid htxid => ?_, hle⟩
      exact List.count_pos_iff.1 (lt_of_lt_of_le (List.count_pos_iff.2 htxid) (hle txid))

/-- A tree with no more transactions than the block cannot repeat one. -/
theorem authentic_of_le {vTxid : List UInt256} {nTransactions : ℕ} (hne : vTxid ≠ [])
    (hle : nTransactions ≤ vTxid.length)
    (hheight : treeHeight nTransactions = treeHeight vTxid.length)
    (hroot : merkleRootOf hash vTxid ≠ 0)
    (hfree : ∀ q ∈ Merkle.hashed hash vTxid.length vTxid, ∀ a b,
      hash a b = hash q.1 q.2 → a = q.1 ∧ b = q.2) : Authentic hash vTxid nTransactions :=
  (authentic_iff hash hne hheight hfree).2
    (.inr (.inr ⟨hroot, fun txid => (PartialMerkle.openLeaves_sublist hash 0 hle).count_le txid⟩))

/-- **Complete, and authentic just where no leaf can be repeated.** -/
theorem partial_merkle_tree_exact {vTxid : List UInt256} {nTransactions : ℕ} (hne : vTxid ≠ [])
    (hheight : treeHeight nTransactions = treeHeight vTxid.length)
    (hfree : ∀ q ∈ Merkle.hashed hash vTxid.length vTxid, ∀ a b,
      hash a b = hash q.1 q.2 → a = q.1 ∧ b = q.2) :
    (vTxid.length ≤ maxBlockSize / 60 → Complete hash vTxid) ∧
      (Authentic hash vTxid nTransactions ↔
        nTransactions = 0 ∨ maxBlockSize / 60 < nTransactions ∨
        (merkleRootOf hash vTxid ≠ 0 ∧ ∀ txid,
          (PartialMerkle.openLeaves hash 0 (treeHeight nTransactions) nTransactions vTxid).count
              txid ≤ vTxid.count txid)) :=
  ⟨complete_of_le hash hne, authentic_iff hash hne hheight hfree⟩

end Exact

/-! ## A repeated transaction -/

/-- A hash of pairs that only knows the pairs of one block. -/
def threeHash (a b : UInt256) : UInt256 :=
  if (a, b) = (1, 2) then 10 else if (a, b) = (3, 3) then 11 else if (a, b) = (10, 11) then 12
  else 13

theorem threeHash_free : ∀ q ∈ Merkle.hashed threeHash 3 [1, 2, 3], ∀ a b,
    threeHash a b = threeHash q.1 q.2 → a = q.1 ∧ b = q.2 := by
  have hpairs : Merkle.hashed threeHash 3 [1, 2, 3] = [(1, 2), (3, 3), (10, 11)] := by
    decide
  rw [hpairs]
  intro q hq a b h
  have hcases : threeHash a b = 10 ∧ (a, b) = (1, 2) ∨ threeHash a b = 11 ∧ (a, b) = (3, 3) ∨
      threeHash a b = 12 ∧ (a, b) = (10, 11) ∨ threeHash a b = 13 := by
    rw [threeHash]
    split
    · next hab => exact .inl ⟨rfl, hab⟩
    · split
      · next hab => exact .inr (.inl ⟨rfl, hab⟩)
      · split
        · next hab => exact .inr (.inr (.inl ⟨rfl, hab⟩))
        · exact .inr (.inr (.inr rfl))
  simp only [List.mem_cons, List.not_mem_nil, or_false] at hq
  rcases hq with rfl | rfl | rfl <;> rcases hcases with ⟨h', hab⟩ | ⟨h', hab⟩ | ⟨h', hab⟩ | h' <;>
    first
    | exact ⟨congrArg Prod.fst hab, congrArg Prod.snd hab⟩
    | exact absurd (h'.symm.trans h) (by decide)

/-- A block of three transactions and a tree of three. -/
theorem partial_merkle_tree_of_three :
    Complete threeHash [1, 2, 3] ∧ Authentic threeHash [1, 2, 3] 3 := by
  obtain ⟨hcomplete, hauth⟩ := @partial_merkle_tree_exact threeHash [1, 2, 3] 3 (by decide) rfl
    threeHash_free
  refine ⟨hcomplete (by decide), hauth.2 (.inr (.inr ⟨by decide, fun txid => ?_⟩))⟩
  exact (PartialMerkle.openLeaves_sublist threeHash 0 (by decide)).count_le txid

/-- A tree of four transactions, with the root of the block of three, that proves the last one
twice. -/
theorem partial_merkle_tree_repeats : ¬ (Complete threeHash [1, 2, 3] ∧
    Authentic threeHash [1, 2, 3] 4) := by
  rintro ⟨-, h⟩
  have hrun : CPartialMerkleTree.extractMatches threeHash
      { nTransactions := 4, vBits := [true, true, true, true, true, true, true, false],
        vHash := [1, 2, 3, 3], fBad := false } = (12, [1, 2, 3, 3]) := by
    decide
  have hroot : merkleRootOf threeHash [1, 2, 3] = 12 := by decide
  have hcount := (h _ rfl (by rw [hrun, hroot])).2 3
  rw [hrun] at hcount
  exact absurd hcount (by decide)

end FairCoin
