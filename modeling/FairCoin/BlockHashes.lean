import FairCoin.Primitives
import FairCoin.Lib.Run
import FairCoin.Lib.Store

/-!
# Block hashes for masternode elections

`GetBlockHash` of `src/masternode.cpp` with its cache of answers by height, and
`CMasternode::CalculateScore`, which ranks masternodes by it.

* `findBlockHash_of_pos`, `findBlockHash_of_nonpos` — what the search of the active chain finds:
  the block below the height asked for, or the tip.
* `Transparent` — the cache holds what a search would find now.
* `Steady` — the steps that keep it so: the cache is never emptied, so the chain must not change
  where an answer is cached.
* `election_hash_follows_chain` — **the answers follow the active chain** along every run of such
  steps, and nodes with the same chain compute the same scores.
-/

namespace FairCoin

open Store

/-! ## The search -/

/-- The height of the tip. -/
def tipHeight (chainActive : List UInt256) : ℤ := (chainActive.length : ℤ) - 1

/-- The loop of `GetBlockHash` over the chain, the tip first; it stops at genesis. -/
def readBack (nBlocksAgo : ℤ) : ℤ → List UInt256 → Option UInt256
  | _, [] => none
  | _, [_] => none
  | n, hash :: rest => if nBlocksAgo ≤ n then some hash else readBack nBlocksAgo (n + 1) rest

/-- `GetBlockHash` behind the cache. -/
def findBlockHash (chainActive : List UInt256) (nBlockHeight : ℤ) : Option UInt256 :=
  if tipHeight chainActive ≤ 0 ∨ tipHeight chainActive + 1 < nBlockHeight then none
  else
    readBack (if 0 < nBlockHeight then tipHeight chainActive + 1 - nBlockHeight else 0) 0
      chainActive.reverse

/-- The active chain by hash from genesis to tip, and `mapCacheBlockHashes`. -/
structure ElectionState where
  chainActive : List UInt256
  mapCacheBlockHashes : Map ℤ UInt256 := ∅

/-- Height zero stands for the height of the tip. -/
def orTip (chainActive : List UInt256) (nBlockHeight : ℤ) : ℤ :=
  if nBlockHeight = 0 then tipHeight chainActive else nBlockHeight

/-- `GetBlockHash`. -/
def getBlockHash (s : ElectionState) (nBlockHeight : ℤ) : Option UInt256 × ElectionState :=
  if s.chainActive = [] then (none, s)
  else
    let nBlockHeight := orTip s.chainActive nBlockHeight
    match s.mapCacheBlockHashes.lookup nBlockHeight with
    | some hash => (some hash, s)
    | none =>
        match findBlockHash s.chainActive nBlockHeight with
        | some hash =>
            (some hash,
              { s with mapCacheBlockHashes := s.mapCacheBlockHashes.insert nBlockHeight hash })
        | none => (none, s)

/-- `CMasternode::CalculateScore` for the masternode with this collateral.  The height is an
`int64_t`, and `GetBlockHash` takes an `int`; `hash₁` and `hash₂` hash one word and two. -/
def calculateScore (hash₁ : UInt256 → UInt256) (hash₂ : UInt256 → UInt256 → UInt256)
    (s : ElectionState) (vin : CTxIn) (nBlockHeight : ℤ) : UInt256 × ElectionState :=
  if s.chainActive = [] then (0, s)
  else
    let aux := vin.prevout.hash + BitVec.ofNat 256 vin.prevout.n
    match getBlockHash s (wrap32 nBlockHeight) with
    | (none, s) => (0, s)
    | (some hash, s) =>
        let hash2 := hash₁ hash
        let hash3 := hash₂ hash aux
        (if hash3 > hash2 then hash3 - hash2 else hash2 - hash3, s)

/-! ## What the search finds -/

theorem readBack_eq (k : ℤ) (l : List UInt256) (n : ℤ) :
    readBack k n l = if (k - n).toNat + 1 < l.length then l[(k - n).toNat]? else none := by
  induction l generalizing n with
  | nil => simp [readBack]
  | cons hash l ih =>
    cases l with
    | nil => simp [readBack]
    | cons hash' l =>
      rw [readBack]
      · split
        · next hle =>
          have hzero : (k - n).toNat = 0 := by omega
          simp [hzero]
        · next hlt =>
          have hsucc : (k - n).toNat = (k - (n + 1)).toNat + 1 := by omega
          rw [ih, hsucc]
          simp
      · simp

/-- Above zero, the search finds the block below the height, genesis excepted. -/
theorem findBlockHash_of_pos (chain : List UInt256) {n : ℤ} (hn : 0 < n) :
    findBlockHash chain n = if n = 1 then none else chain[(n - 1).toNat]? := by
  rw [findBlockHash, tipHeight]
  split
  · next hout =>
    split
    · rfl
    · rw [List.getElem?_eq_none (by omega)]
  · next hin =>
    rw [readBack_eq, List.length_reverse]
    by_cases h1 : n = 1
    · rw [if_pos h1, if_neg (by omega)]
    · rw [if_neg h1, if_pos (by omega), List.getElem?_reverse (by omega)]
      congr 1
      omega

/-- At or below zero, the search finds the tip unless it is genesis. -/
theorem findBlockHash_of_nonpos (chain : List UInt256) {n : ℤ} (hn : n ≤ 0) :
    findBlockHash chain n = if chain.length ≤ 1 then none else chain.getLast? := by
  rw [findBlockHash, tipHeight]
  split
  · next hout =>
    rw [if_pos]
    omega
  · next hin =>
    have hlong : ¬chain.length ≤ 1 := by omega
    simp only [if_neg (not_lt.2 hn), if_neg hlong, readBack_eq, List.length_reverse, sub_zero,
      Int.toNat_zero]
    rw [if_pos (by omega), List.getElem?_reverse (by omega), List.getLast?_eq_getElem?]
    rfl

/-! ## The cache -/

/-- The answer without a cache. -/
def blockHashOf (chainActive : List UInt256) (nBlockHeight : ℤ) : Option UInt256 :=
  findBlockHash chainActive (orTip chainActive nBlockHeight)

/-- The cache holds what a search would find now. -/
def Transparent (s : ElectionState) : Prop :=
  ∀ n hash, s.mapCacheBlockHashes.lookup n = some hash →
    findBlockHash s.chainActive n = some hash

theorem getBlockHash_fst {s : ElectionState} (ht : Transparent s) (n : ℤ) :
    (getBlockHash s n).1 = blockHashOf s.chainActive n := by
  rw [getBlockHash, blockHashOf]
  split
  · next hnil =>
    rw [hnil]
    simp [findBlockHash, tipHeight]
  · simp only
    cases hc : s.mapCacheBlockHashes.lookup (orTip s.chainActive n) with
    | some hash => exact (ht _ _ hc).symm
    | none => cases findBlockHash s.chainActive (orTip s.chainActive n) <;> rfl

theorem chainActive_getBlockHash (s : ElectionState) (n : ℤ) :
    (getBlockHash s n).2.chainActive = s.chainActive := by
  rw [getBlockHash]
  split
  · rfl
  · simp only
    split
    · rfl
    · split <;> rfl

/-- A query keeps the cache as it should be. -/
theorem Transparent.getBlockHash {s : ElectionState} (ht : Transparent s) (n : ℤ) :
    Transparent (getBlockHash s n).2 := by
  rw [FairCoin.getBlockHash]
  split
  · exact ht
  · simp only
    split
    · exact ht
    · split
      · next hash hfind =>
        intro k x hx
        simp only [lookup_insert_eq] at hx
        split at hx
        · next hk =>
          rw [hk, hfind, hx]
        · exact ht k x hx
      · exact ht

/-! ## Runs -/

/-- What happens to a node: a block is connected, the tip is disconnected (a reorganisation is
a sequence of these), or a hash is asked for. -/
inductive ElectionAction where
  | connect (hash : UInt256)
  | disconnect
  | query (nBlockHeight : ℤ)

/-- One step.  Genesis is never disconnected. -/
def electionStep (s : ElectionState) : ElectionAction → ElectionState
  | .connect hash => { s with chainActive := s.chainActive ++ [hash] }
  | .disconnect =>
      if s.chainActive.length ≤ 1 then s else { s with chainActive := s.chainActive.dropLast }
  | .query n => (getBlockHash s n).2

/-- No answer for a height at or below zero is cached. -/
def NoneBelowOne (s : ElectionState) : Prop := ∀ n ∈ s.mapCacheBlockHashes.keys, 0 < n

instance (s : ElectionState) : Decidable (NoneBelowOne s) :=
  inferInstanceAs (Decidable (∀ n ∈ s.mapCacheBlockHashes.keys, 0 < n))

/-- The chain does not change where an answer is cached: not at all while there is one for a
height at or below zero, and the tip stays while there is one for the height above it. -/
def Steady (s : ElectionState) : ElectionAction → Prop
  | .connect _ => NoneBelowOne s
  | .disconnect => NoneBelowOne s ∧
      s.mapCacheBlockHashes.lookup (tipHeight s.chainActive + 1) = none
  | .query _ => True

instance (s : ElectionState) (a : ElectionAction) : Decidable (Steady s a) :=
  match a with
  | .connect _ => inferInstanceAs (Decidable (NoneBelowOne s))
  | .disconnect => inferInstanceAs (Decidable (NoneBelowOne s ∧
      s.mapCacheBlockHashes.lookup (tipHeight s.chainActive + 1) = none))
  | .query _ => .isTrue trivial

theorem NoneBelowOne.pos {s : ElectionState} (h : NoneBelowOne s) {n : ℤ} {hash : UInt256}
    (hn : s.mapCacheBlockHashes.lookup n = some hash) : 0 < n :=
  h n (AList.mem_keys.1 (AList.lookup_isSome.1 (by rw [hn]; rfl)))

/-- A step where the chain is steady keeps the cache transparent. -/
theorem transparent_step (s : ElectionState) (a : ElectionAction) (ht : Transparent s)
    (ha : Steady s a) : Transparent (electionStep s a) := by
  cases a with
  | connect x =>
    intro n hash hn
    have hpos : 0 < n := NoneBelowOne.pos ha hn
    have hfind := ht n hash hn
    rw [findBlockHash_of_pos _ hpos] at hfind ⊢
    split at hfind
    · exact absurd hfind (by simp)
    · next h1 =>
      rw [if_neg h1]
      have hlt := (List.getElem?_eq_some_iff.1 hfind).1
      exact (List.getElem?_append_left hlt).trans hfind
  | disconnect =>
    rw [electionStep]
    split
    · exact ht
    · intro n hash hn
      have hpos : 0 < n := NoneBelowOne.pos ha.1 hn
      have hfind := ht n hash hn
      have htop : n ≠ tipHeight s.chainActive + 1 := by
        rintro rfl
        rw [ha.2] at hn
        exact absurd hn (by simp)
      rw [findBlockHash_of_pos _ hpos] at hfind ⊢
      split at hfind
      · exact absurd hfind (by simp)
      · next h1 =>
        have hlt := (List.getElem?_eq_some_iff.1 hfind).1
        rw [tipHeight] at htop
        rw [if_neg h1, List.getElem?_dropLast, if_pos (by omega)]
        exact hfind
  | query n => exact ht.getBlockHash n

theorem transparent_run {chain : List UInt256} {as : List ElectionAction}
    (has : Run.AlongFold electionStep Steady { chainActive := chain } as) :
    Transparent (as.foldl electionStep { chainActive := chain }) :=
  Run.foldl_invariant transparent_step (fun _ _ h => absurd h (by simp)) has

/-- The score is a function of the chain when the cache is transparent. -/
theorem calculateScore_fst {s : ElectionState} (ht : Transparent s) (hash₁ : UInt256 → UInt256)
    (hash₂ : UInt256 → UInt256 → UInt256) (vin : CTxIn) (n : ℤ) :
    (calculateScore hash₁ hash₂ s vin n).1 =
      match blockHashOf s.chainActive (wrap32 n) with
      | none => 0
      | some hash =>
          let hash3 := hash₂ hash (vin.prevout.hash + BitVec.ofNat 256 vin.prevout.n)
          if hash3 > hash₁ hash then hash3 - hash₁ hash else hash₁ hash - hash3 := by
  rw [← getBlockHash_fst ht, calculateScore]
  split
  · next hnil =>
    rw [getBlockHash, if_pos hnil]
  · generalize getBlockHash s (wrap32 n) = r
    obtain ⟨_ | hash, s'⟩ := r <;> rfl

/-- **The answers follow the active chain.**  In every run of steps that leave the chain steady,
`GetBlockHash` answers for a height above one with the block below it on the active chain, and for
a height at or below zero with what the active chain alone gives; two nodes that end with the same
chain compute the same scores, whatever their histories. -/
theorem election_hash_follows_chain (chain : List UInt256) (as : List ElectionAction)
    (has : Run.AlongFold electionStep Steady { chainActive := chain } as) (s : ElectionState)
    (hs : s = as.foldl electionStep { chainActive := chain }) :
    (∀ n, 1 < n → n ≤ tipHeight s.chainActive + 1 →
      (getBlockHash s n).1 = s.chainActive[(n - 1).toNat]?) ∧
    (∀ n, n ≤ 0 → (getBlockHash s n).1 = blockHashOf s.chainActive n) ∧
    ∀ chain' as', Run.AlongFold electionStep Steady { chainActive := chain' } as' →
      ∀ s', s' = as'.foldl electionStep { chainActive := chain' } →
        s.chainActive = s'.chainActive → ∀ hash₁ hash₂ vin n,
          (calculateScore hash₁ hash₂ s vin n).1 = (calculateScore hash₁ hash₂ s' vin n).1 := by
  have ht := transparent_run has
  rw [← hs] at ht
  refine ⟨fun n h1 hn => ?_, fun n hn => getBlockHash_fst ht n, ?_⟩
  · rw [getBlockHash_fst ht, blockHashOf, orTip, if_neg (by omega),
      findBlockHash_of_pos _ (by omega), if_neg (by omega)]
  · rintro chain' as' has' s' rfl hchain hash₁ hash₂ vin n
    rw [calculateScore_fst ht, calculateScore_fst (transparent_run has'), hchain]

/-- Asking for a height with two blocks above it, and then replacing the tip: the answers still
follow the chain. -/
theorem election_hash_below_tip :
    (getBlockHash ([.query 2, .disconnect, .connect 0xb2].foldl electionStep
      { chainActive := [0x90, 0xa1, 0xa2] }) 3).1 = some 0xb2 :=
  (election_hash_follows_chain [0x90, 0xa1, 0xa2] [.query 2, .disconnect, .connect 0xb2]
    (by decide) _ rfl).1 3 (by decide) (by decide)

/-- After the tip has been asked for and replaced, `GetBlockHash` still answers with the old tip,
while a node that never saw it answers with the new one, and their scores differ; a height below
zero is answered with what the tip was when it was asked for first. -/
theorem election_hash_stale :
    let s := [.query 3, .disconnect, .connect 0xb2].foldl electionStep
      { chainActive := [0x90, 0xa1, 0xa2] }
    let s' := ([] : List ElectionAction).foldl electionStep { chainActive := [0x90, 0xa1, 0xb2] }
    s.chainActive = s'.chainActive ∧ 3 ≤ tipHeight s.chainActive + 1 ∧
      (getBlockHash s 3).1 = some 0xa2 ∧ s.chainActive[2]? = some 0xb2 ∧
      (calculateScore id (fun a b => a + a + b) s { prevout := ⟨1, 0⟩ } 3).1 ≠
        (calculateScore id (fun a b => a + a + b) s' { prevout := ⟨1, 0⟩ } 3).1 ∧
      (getBlockHash ([.query (-1), .connect 0xa3].foldl electionStep
        { chainActive := [0x90, 0xa1, 0xa2] }) (-1)).1 = some 0xa2 ∧
      (getBlockHash ([.connect 0xa3].foldl electionStep
        { chainActive := [0x90, 0xa1, 0xa2] }) (-1)).1 = some 0xa3 := by
  decide

end FairCoin
