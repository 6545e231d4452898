import FairCoin.StakeTargets

/-!
# Dark Gravity Wave

The proof-of-work branch of `GetNextWorkRequired`: the running average of the last 24 targets, and the
retarget by the clamped timespan.

* `exactAverage` — the running average, in numbers.
* `DgwFits` — no product leaves the 256 bits.
* `dgwBehaved_iff` — **the retarget is well behaved exactly where the products fit**, and they fit on
  every network but the regression test.
-/

namespace FairCoin

/-! ## What the loop reads -/

/-- The heights of a chain, from its tip down to the genesis block. -/
def Numbered (chain : List CBlockIndex) : Prop :=
  ∀ (k : ℕ) (pindex : CBlockIndex), chain[k]? = some pindex → pindex.nHeight + k + 1 = (chain.length : ℤ)

/-- The loop after some of the blocks. -/
def dgwRun (chain : List CBlockIndex) (k : ℕ) : DgwState := (chain.take k).foldl dgwStep {}

theorem dgwRun_succ {chain : List CBlockIndex} {k : ℕ} {pindex : CBlockIndex}
    (h : chain[k]? = some pindex) : dgwRun chain (k + 1) = dgwStep (dgwRun chain k) pindex := by
  rw [dgwRun, List.take_add_one, h, Option.toList_some, List.foldl_append]
  rfl

/-- The loop runs over the blocks above the genesis block. -/
theorem dgwLoop_eq {l : List CBlockIndex} : ∀ {i : ℕ} {st : DgwState},
    (∀ pindex ∈ l.take (25 - i), 0 < pindex.nHeight) →
      dgwLoop i l st = (l.take (25 - i)).foldl dgwStep st := by
  induction l with
  | nil =>
    intro i st _
    rw [List.take_nil]
    rfl
  | cons pindex rest ih =>
    intro i st hpos
    rw [dgwLoop]
    by_cases hi : 24 < i
    · rw [if_pos hi, ite_self, show 25 - i = 0 by omega]
      rfl
    · obtain ⟨n, hn⟩ : ∃ n, 25 - i = n + 1 := ⟨24 - i, by omega⟩
      rw [hn, List.take_succ_cons] at hpos
      have hhead := hpos pindex List.mem_cons_self
      rw [if_neg (not_le.2 hhead), if_neg hi, hn, List.take_succ_cons, List.foldl_cons, ih]
      · rw [show 25 - (i + 1) = n by omega]
      · intro p hp
        apply hpos p
        rw [show 25 - (i + 1) = n by omega] at hp
        exact List.mem_cons_of_mem _ hp

/-- The loop over a chain that is long enough. -/
theorem dgwLoop_chain {chain : List CBlockIndex} (hchain : Numbered chain)
    (hlen : 24 < chain.length) : dgwLoop 1 chain {} = dgwRun chain 24 := by
  apply dgwLoop_eq
  intro pindex hmem
  obtain ⟨k, hk⟩ := List.mem_iff_getElem?.1 hmem
  rw [List.getElem?_take] at hk
  split at hk
  · have := hchain k pindex hk
    omega
  · cases hk

/-! ## The running average in numbers -/

/-- The target of a block of the chain. -/
def nthTarget (chain : List CBlockIndex) (k : ℕ) : ℕ :=
  (chain[k]?.map fun pindex => pindex.target.toNat).getD 0

/-- The running average after one block more than `k`. -/
def exactAverage (chain : List CBlockIndex) : ℕ → ℕ
  | 0 => nthTarget chain 0
  | k + 1 => (exactAverage chain k * (k + 2) + nthTarget chain (k + 1)) / (k + 3)

/-- The time between the blocks read; a block at time 0 is not counted. -/
def timespan (chain : List CBlockIndex) : ℕ → ℤ
  | 0 => 0
  | k + 1 =>
      match chain[k]?, chain[k + 1]? with
      | some a, some b => timespan chain k + if 0 < a.nTime then (a.nTime : ℤ) - b.nTime else 0
      | _, _ => timespan chain k

/-- **No product leaves the 256 bits**: the sums of the average, and the average times the clamped
timespan. -/
structure DgwFits (net : Network) (chain : List CBlockIndex) : Prop where
  average : ∀ k < 23, exactAverage chain k * (k + 2) + nthTarget chain (k + 1) < 2 ^ 256
  scaled : exactAverage chain 23 *
    (clampTimespan (24 * net.targetSpacing) (timespan chain 23)).toNat < 2 ^ 256

/-- **A mean with weights** lies between its parts. -/
theorem le_weighted_mean {lo a t : ℕ} (c : ℕ) (ha : lo ≤ a) (ht : lo ≤ t) :
    lo ≤ (a * c + t) / (c + 1) := by
  rw [Nat.le_div_iff_mul_le (Nat.succ_pos c), Nat.mul_succ]
  exact Nat.add_le_add (Nat.mul_le_mul_right c ha) ht

theorem weighted_mean_le {hi a t : ℕ} (c : ℕ) (ha : a ≤ hi) (ht : t ≤ hi) :
    (a * c + t) / (c + 1) ≤ hi := by
  apply Nat.div_le_of_le_mul
  rw [mul_comm (c + 1), Nat.mul_succ]
  exact Nat.add_le_add (Nat.mul_le_mul_right c ha) ht

theorem le_exactAverage {chain : List CBlockIndex} {lo : ℕ} {k : ℕ}
    (h : ∀ j ≤ k, lo ≤ nthTarget chain j) : lo ≤ exactAverage chain k := by
  induction k with
  | zero => exact h 0 le_rfl
  | succ k ih =>
    apply le_weighted_mean
    · exact ih fun j hj => h j (hj.trans (Nat.le_succ k))
    · exact h (k + 1) le_rfl

theorem exactAverage_le {chain : List CBlockIndex} {hi : ℕ} {k : ℕ}
    (h : ∀ j ≤ k, nthTarget chain j ≤ hi) : exactAverage chain k ≤ hi := by
  induction k with
  | zero => exact h 0 le_rfl
  | succ k ih =>
    apply weighted_mean_le
    · exact ih fun j hj => h j (hj.trans (Nat.le_succ k))
    · exact h (k + 1) le_rfl

/-- Of finitely many values, one is the smallest. -/
theorem exists_nthTarget_le (chain : List CBlockIndex) (k : ℕ) :
    ∃ i ≤ k, ∀ j ≤ k, nthTarget chain i ≤ nthTarget chain j := by
  obtain ⟨i, hi, hmin⟩ := Finset.exists_min_image (Finset.range (k + 1)) (nthTarget chain)
    ⟨0, Finset.mem_range.2 (Nat.succ_pos k)⟩
  refine ⟨i, Nat.lt_succ_iff.1 (Finset.mem_range.1 hi), fun j hj => ?_⟩
  exact hmin j (Finset.mem_range.2 (Nat.lt_succ_iff.2 hj))

/-- And one is the largest. -/
theorem exists_le_nthTarget (chain : List CBlockIndex) (k : ℕ) :
    ∃ i ≤ k, ∀ j ≤ k, nthTarget chain j ≤ nthTarget chain i := by
  obtain ⟨i, hi, hmax⟩ := Finset.exists_max_image (Finset.range (k + 1)) (nthTarget chain)
    ⟨0, Finset.mem_range.2 (Nat.succ_pos k)⟩
  refine ⟨i, Nat.lt_succ_iff.1 (Finset.mem_range.1 hi), fun j hj => ?_⟩
  exact hmax j (Finset.mem_range.2 (Nat.lt_succ_iff.2 hj))

/-! ## The loop computes it -/

theorem nthTarget_eq {chain : List CBlockIndex} {k : ℕ} {pindex : CBlockIndex}
    (h : chain[k]? = some pindex) : nthTarget chain k = pindex.target.toNat := by
  rw [nthTarget, h]
  rfl

theorem dgwRun_countBlocks {chain : List CBlockIndex} {k : ℕ} (hk : k ≤ chain.length) :
    (dgwRun chain k).countBlocks = k := by
  induction k with
  | zero => rfl
  | succ k ih =>
    rw [dgwRun_succ (List.getElem?_eq_getElem hk), dgwStep]
    dsimp only
    rw [ih (Nat.le_of_succ_le hk)]

theorem dgwStep_first (pindex : CBlockIndex) :
    (dgwStep {} pindex).pastDifficultyAverage = pindex.target := rfl

/-- The two copies of the average are the same. -/
theorem dgwStep_prev {st : DgwState} (h : st.pastDifficultyAveragePrev = st.pastDifficultyAverage)
    (pindex : CBlockIndex) :
    (dgwStep st pindex).pastDifficultyAveragePrev = (dgwStep st pindex).pastDifficultyAverage := by
  unfold dgwStep
  dsimp only
  split
  · rfl
  · exact h

theorem dgwRun_prev (chain : List CBlockIndex) (k : ℕ) :
    (dgwRun chain k).pastDifficultyAveragePrev = (dgwRun chain k).pastDifficultyAverage := by
  unfold dgwRun
  generalize chain.take k = l
  suffices h : ∀ st : DgwState, st.pastDifficultyAveragePrev = st.pastDifficultyAverage →
      (l.foldl dgwStep st).pastDifficultyAveragePrev = (l.foldl dgwStep st).pastDifficultyAverage by
    exact h {} rfl
  induction l with
  | nil =>
    intro st h
    exact h
  | cons pindex l ih =>
    intro st h
    exact ih _ (dgwStep_prev h pindex)

/-- A later block, in numbers. -/
theorem dgwStep_average {st : DgwState} {k : ℕ} (hk : k + 1 < 24) (hcount : st.countBlocks = k + 1)
    (hprev : st.pastDifficultyAveragePrev = st.pastDifficultyAverage) (pindex : CBlockIndex) :
    (dgwStep st pindex).pastDifficultyAverage.toNat =
      (st.pastDifficultyAverage.toNat * (k + 2) + pindex.target.toNat) % 2 ^ 256 / (k + 3) := by
  unfold dgwStep
  dsimp only
  rw [hcount, if_pos (by omega), if_neg (by omega), hprev, BitVec.toNat_udiv, BitVec.toNat_add,
    BitVec.toNat_mul, BitVec.toNat_ofNat, BitVec.toNat_ofNat,
    Nat.mod_eq_of_lt (show k + 1 + 1 < 2 ^ 256 by omega),
    Nat.mod_eq_of_lt (show k + 1 + 1 + 1 < 2 ^ 256 by omega), Nat.mod_add_mod]

/-- **The loop computes the average** as long as the products before it fit. -/
theorem dgwRun_average {chain : List CBlockIndex} {k : ℕ} (hk : k < 24) (hlen : k < chain.length)
    (hfits : ∀ j < k, exactAverage chain j * (j + 2) + nthTarget chain (j + 1) < 2 ^ 256) :
    (dgwRun chain (k + 1)).pastDifficultyAverage.toNat = exactAverage chain k := by
  induction k with
  | zero =>
    have h0 := List.getElem?_eq_getElem hlen
    rw [dgwRun_succ h0, show dgwRun chain 0 = {} by rfl, dgwStep_first, exactAverage,
      nthTarget_eq h0]
  | succ k ih =>
    have hget := List.getElem?_eq_getElem hlen
    have hbefore := ih (by omega) (by omega) fun j hj => hfits j (by omega)
    rw [dgwRun_succ hget, dgwStep_average hk (dgwRun_countBlocks hlen.le) (dgwRun_prev chain _),
      hbefore, ← nthTarget_eq hget, Nat.mod_eq_of_lt (hfits k (Nat.lt_succ_self k)), exactAverage]

theorem dgwRun_lastBlockTime {chain : List CBlockIndex} {k : ℕ} {pindex : CBlockIndex}
    (h : chain[k]? = some pindex) : (dgwRun chain (k + 1)).lastBlockTime = pindex.nTime := by
  rw [dgwRun_succ h]
  rfl

theorem dgwRun_timespan {chain : List CBlockIndex} {k : ℕ} (hlen : k < chain.length) :
    (dgwRun chain (k + 1)).nActualTimespan = timespan chain k := by
  induction k with
  | zero =>
    rw [dgwRun_succ (List.getElem?_eq_getElem hlen)]
    rfl
  | succ k ih =>
    have hget := List.getElem?_eq_getElem hlen
    have hlast := List.getElem?_eq_getElem (show k < chain.length by omega)
    rw [dgwRun_succ hget, dgwStep]
    dsimp only
    rw [dgwRun_lastBlockTime hlast, ih (by omega), timespan, hget, hlast]
    dsimp only
    split
    · next hpos => rw [if_pos (by omega)]
    · next hpos => rw [if_neg (by omega), add_zero]

/-! ## The retarget -/

theorem clampTimespan_bounds {n t : ℤ} (hn : 0 ≤ n) :
    n.tdiv 3 ≤ clampTimespan n t ∧ clampTimespan n t ≤ n * 3 := by
  have hdiv : n.tdiv 3 ≤ n * 3 := by
    rw [Int.tdiv_eq_ediv_of_nonneg hn]
    omega
  unfold clampTimespan
  dsimp only
  split <;> split <;> omega

/-- The timespan of 24 blocks at the target spacing. -/
theorem targetTimespan_cases (net : Network) :
    24 * net.targetSpacing = 2880 ∨ 24 * net.targetSpacing = 1440 := by
  cases net <;> decide

/-- **The retarget in numbers**, where its product fits. -/
theorem dgwTarget_toNat {net : Network} {st : DgwState} (hcount : st.countBlocks = 24)
    (hfits : st.pastDifficultyAverage.toNat *
      (clampTimespan (24 * net.targetSpacing) st.nActualTimespan).toNat < 2 ^ 256) :
    (dgwTarget net st).toNat = min net.proofOfWorkLimit.toNat (st.pastDifficultyAverage.toNat *
      (clampTimespan (24 * net.targetSpacing) st.nActualTimespan).toNat /
        (24 * net.targetSpacing).toNat) := by
  have hspan : 0 ≤ 24 * net.targetSpacing ∧ 24 * net.targetSpacing ≤ 2880 := by
    have := targetTimespan_cases net
    omega
  have hclamp := @clampTimespan_bounds _ st.nActualTimespan hspan.1
  rw [Int.tdiv_eq_ediv_of_nonneg hspan.1] at hclamp
  rw [dgwTarget, hcount, show ((24 : ℕ) : ℤ) = 24 by rfl]
  generalize clampTimespan (24 * net.targetSpacing) st.nActualTimespan = n at hfits hclamp ⊢
  generalize 24 * net.targetSpacing = span at hspan hclamp ⊢
  obtain ⟨n, rfl⟩ := Int.eq_ofNat_of_zero_le (show 0 ≤ n by omega)
  obtain ⟨span, rfl⟩ := Int.eq_ofNat_of_zero_le hspan.1
  rw [Int.toNat_natCast] at hfits
  have hfactor : ((BitVec.ofInt 32 (n : ℤ)).setWidth 256 : UInt256).toNat = n := by
    rw [BitVec.toNat_setWidth, BitVec.ofInt_natCast, BitVec.toNat_ofNat]
    omega
  have hdivisor : ((BitVec.ofInt 64 (span : ℤ)).setWidth 256 : UInt256).toNat = span := by
    rw [BitVec.toNat_setWidth, BitVec.ofInt_natCast, BitVec.toNat_ofNat]
    omega
  have hquotient : (st.pastDifficultyAverage * (BitVec.ofInt 32 (n : ℤ)).setWidth 256 /
      (BitVec.ofInt 64 (span : ℤ)).setWidth 256 : UInt256).toNat =
        st.pastDifficultyAverage.toNat * n / span := by
    rw [BitVec.toNat_udiv, BitVec.toNat_mul, hfactor, hdivisor, Nat.mod_eq_of_lt hfits]
  rw [Int.toNat_natCast, Int.toNat_natCast, ← hquotient]
  generalize st.pastDifficultyAverage * (BitVec.ofInt 32 (n : ℤ)).setWidth 256 /
      (BitVec.ofInt 64 (span : ℤ)).setWidth 256 = q
  by_cases hlt : net.proofOfWorkLimit < q
  · rw [if_pos hlt, min_eq_left (BitVec.lt_def.1 hlt).le]
  · rw [if_neg hlt, min_eq_right (not_lt.1 hlt)]

/-- The clamped timespan scales by a third at least and by three at most. -/
theorem scaled_bounds {net : Network} {t : ℤ} (average : ℕ) :
    average / 3 ≤ average * (clampTimespan (24 * net.targetSpacing) t).toNat /
        (24 * net.targetSpacing).toNat ∧
      average * (clampTimespan (24 * net.targetSpacing) t).toNat /
        (24 * net.targetSpacing).toNat ≤ 3 * average := by
  obtain ⟨span, hspan, hpos⟩ : ∃ span : ℕ, 24 * net.targetSpacing = (3 * span : ℕ) ∧ 0 < span := by
    rcases targetTimespan_cases net with h | h
    · exact ⟨960, h, by decide⟩
    · exact ⟨480, h, by decide⟩
  have hclamp := @clampTimespan_bounds (24 * net.targetSpacing) t (by omega)
  rw [Int.tdiv_eq_ediv_of_nonneg (by omega)] at hclamp
  generalize clampTimespan (24 * net.targetSpacing) t = n at hclamp ⊢
  rw [hspan] at hclamp ⊢
  have hlo : span ≤ n.toNat := by omega
  have hhi : n.toNat ≤ 9 * span := by omega
  rw [Int.toNat_natCast]
  constructor
  · rw [Nat.le_div_iff_mul_le (by omega)]
    calc average / 3 * (3 * span) = average / 3 * 3 * span := (mul_assoc _ _ _).symm
      _ ≤ average * span := Nat.mul_le_mul_right _ (Nat.div_mul_le_self _ _)
      _ ≤ average * n.toNat := Nat.mul_le_mul_left _ hlo
  · apply Nat.div_le_of_le_mul
    calc average * n.toNat ≤ average * (9 * span) := Nat.mul_le_mul_left _ hhi
      _ = 3 * span * (3 * average) := by ring

/-! ## Well-behaved retargets -/

/-- **A retarget is well behaved**: every running average lies between the targets of two of the
blocks read, no product leaves the 256 bits, and the returned target lies between a third of the average
and the smaller of three times the average and the limit, up to the rounding of the compact form. -/
structure DgwBehaved (net : Network) (chain : List CBlockIndex) : Prop where
  average_ge : ∀ k < 24, ∃ pindex ∈ chain.take 24,
    pindex.target ≤ (dgwRun chain (k + 1)).pastDifficultyAverage
  average_le : ∀ k < 24, ∃ pindex ∈ chain.take 24,
    (dgwRun chain (k + 1)).pastDifficultyAverage ≤ pindex.target
  average_fits : ∀ k < 23, ∀ pindex, chain[k + 1]? = some pindex →
    (dgwRun chain (k + 1)).pastDifficultyAveragePrev.toNat * (k + 2) + pindex.target.toNat < 2 ^ 256
  scaled_fits : (dgwRun chain 24).pastDifficultyAverage.toNat * (clampTimespan
    (24 * net.targetSpacing) (dgwRun chain 24).nActualTimespan).toNat < 2 ^ 256
  next_between : ∃ nBits, getNextWorkRequired net chain = some nBits ∧
    truncated ((dgwRun chain 24).pastDifficultyAverage.toNat / 3) ≤ (setCompact nBits).bn.toNat ∧
    (setCompact nBits).bn.toNat ≤ truncated (min (3 * (dgwRun chain 24).pastDifficultyAverage.toNat)
      net.proofOfWorkLimit.toNat)

theorem mem_take_of_getElem? {α : Type*} {l : List α} {n k : ℕ} {x : α} (hk : k < n)
    (h : l[k]? = some x) : x ∈ l.take n := by
  rw [List.mem_iff_getElem?]
  refine ⟨k, ?_⟩
  rw [List.getElem?_take, if_pos hk, h]

section Chain

variable {net : Network} {chain : List CBlockIndex} (hlen : 24 < chain.length)

include hlen

theorem exists_nthBlock {k : ℕ} (hk : k < 24) :
    ∃ pindex ∈ chain.take 24, chain[k]? = some pindex ∧ pindex.target.toNat = nthTarget chain k := by
  have hget := List.getElem?_eq_getElem (show k < chain.length by omega)
  exact ⟨_, mem_take_of_getElem? hk hget, hget, (nthTarget_eq hget).symm⟩

theorem DgwBehaved.fits (h : DgwBehaved net chain) : DgwFits net chain := by
  have haverage : ∀ k < 23, exactAverage chain k * (k + 2) + nthTarget chain (k + 1) < 2 ^ 256 := by
    intro k
    induction k using Nat.strong_induction_on with
    | _ k ih =>
      intro hk
      obtain ⟨pindex, -, hget, htarget⟩ := exists_nthBlock hlen (show k + 1 < 24 by omega)
      have hfits := h.average_fits k hk pindex hget
      rwa [dgwRun_prev, dgwRun_average (by omega) (by omega) fun j hj => ih j hj (by omega),
        htarget] at hfits
  refine ⟨haverage, ?_⟩
  have hscaled := h.scaled_fits
  rwa [dgwRun_average (by decide) (by omega) haverage, dgwRun_timespan (by omega)] at hscaled

theorem DgwFits.run_average (h : DgwFits net chain) {k : ℕ} (hk : k < 24) :
    (dgwRun chain (k + 1)).pastDifficultyAverage.toNat = exactAverage chain k :=
  dgwRun_average hk (by omega) fun j hj => h.average j (by omega)

theorem DgwFits.behaved (h : DgwFits net chain) (hchain : Numbered chain)
    (hlast : (chain.length : ℤ) ≤ net.lastPowBlock + 1)
    (htargets : ∀ pindex ∈ chain.take 24, pindex.target ≤ net.proofOfWorkLimit) :
    DgwBehaved net chain := by
  have hrun := h.run_average hlen (show 23 < 24 by decide)
  have hscaled := h.scaled
  rw [← hrun, ← dgwRun_timespan (show 23 < chain.length by omega)] at hscaled
  refine ⟨?_, ?_, ?_, hscaled, ?_⟩
  · intro k hk
    obtain ⟨i, hi, hmin⟩ := exists_nthTarget_le chain k
    obtain ⟨pindex, hmem, -, htarget⟩ := exists_nthBlock hlen (hi.trans_lt hk)
    refine ⟨pindex, hmem, ?_⟩
    rw [BitVec.le_def, h.run_average hlen hk, htarget]
    exact le_exactAverage hmin
  · intro k hk
    obtain ⟨i, hi, hmax⟩ := exists_le_nthTarget chain k
    obtain ⟨pindex, hmem, -, htarget⟩ := exists_nthBlock hlen (hi.trans_lt hk)
    refine ⟨pindex, hmem, ?_⟩
    rw [BitVec.le_def, h.run_average hlen hk, htarget]
    exact exactAverage_le hmax
  · intro k hk pindex hget
    rw [dgwRun_prev, h.run_average hlen (by omega), ← nthTarget_eq hget]
    exact h.average k hk
  · cases chain with
    | nil => exact absurd hlen (Nat.not_lt_zero _)
    | cons pindexLast ancestors =>
      have hheight := hchain 0 pindexLast rfl
      have hnext : getNextWorkRequired net (pindexLast :: ancestors) =
          some (getCompact (dgwTarget net (dgwRun (pindexLast :: ancestors) 24))) := by
        unfold getNextWorkRequired
        dsimp only
        rw [if_neg (by omega), if_neg (by omega), dgwLoop_chain hchain hlen]
      have htarget := dgwTarget_toNat (dgwRun_countBlocks (k := 24) hlen.le) hscaled
      have hbounds := @scaled_bounds net (dgwRun (pindexLast :: ancestors) 24).nActualTimespan
        (dgwRun (pindexLast :: ancestors) 24).pastDifficultyAverage.toNat
      have hlimit : (dgwRun (pindexLast :: ancestors) 24).pastDifficultyAverage.toNat ≤
          net.proofOfWorkLimit.toNat := by
        rw [hrun]
        apply exactAverage_le
        intro j hj
        obtain ⟨pindex, hmem, -, htarget⟩ := exists_nthBlock hlen (show j < 24 by omega)
        rw [← htarget]
        exact BitVec.le_def.1 (htargets pindex hmem)
      refine ⟨_, hnext, ?_, ?_⟩
      · rw [setCompact_getCompact, htarget]
        apply truncated_mono
        exact le_min ((Nat.div_le_self _ _).trans hlimit) hbounds.1
      · rw [setCompact_getCompact, htarget, min_comm]
        apply truncated_mono
        exact min_le_min_right _ hbounds.2

end Chain

/-- Below `2 ^ 236` nothing leaves the 256 bits. -/
theorem dgwFits_of_lt {net : Network} {chain : List CBlockIndex}
    (h : ∀ k < 24, nthTarget chain k < 2 ^ 236) : DgwFits net chain := by
  have haverage : ∀ k < 24, exactAverage chain k ≤ 2 ^ 236 := by
    intro k hk
    exact exactAverage_le fun j hj => (h j (hj.trans_lt hk)).le
  constructor
  · intro k hk
    have hmul : exactAverage chain k * (k + 2) ≤ 2 ^ 236 * 24 :=
      Nat.mul_le_mul (haverage k (by omega)) (by omega)
    have := h (k + 1) (by omega)
    omega
  · have hspan := targetTimespan_cases net
    have hclamp := @clampTimespan_bounds (24 * net.targetSpacing) (timespan chain 23) (by omega)
    calc exactAverage chain 23 *
          (clampTimespan (24 * net.targetSpacing) (timespan chain 23)).toNat
        ≤ 2 ^ 236 * 8640 := Nat.mul_le_mul (haverage 23 (by decide)) (by omega)
      _ < 2 ^ 256 := by norm_num

theorem proofOfWorkLimit_lt {net : Network} (h : net ≠ .regtest) :
    net.proofOfWorkLimit.toNat < 2 ^ 236 := by
  cases net with
  | regtest => exact absurd rfl h
  | main | testnet | unittest => decide

/-- **The proof-of-work retarget.**  On a chain that is long enough, and whose targets do not pass the
limit, it is well behaved if and only if its products fit 256 bits; and they fit on every network but
the regression test. -/
theorem dgwBehaved_iff (net : Network) (chain : List CBlockIndex) (hchain : Numbered chain)
    (hlen : 24 < chain.length) (hlast : (chain.length : ℤ) ≤ net.lastPowBlock + 1)
    (htargets : ∀ pindex ∈ chain.take 24, 1 ≤ pindex.target ∧
      pindex.target ≤ net.proofOfWorkLimit) :
    (DgwBehaved net chain ↔ DgwFits net chain) ∧ (net ≠ .regtest → DgwBehaved net chain) := by
  have hlimit : ∀ pindex ∈ chain.take 24, pindex.target ≤ net.proofOfWorkLimit :=
    fun pindex hmem => (htargets pindex hmem).2
  refine ⟨⟨fun h => h.fits hlen, fun h => h.behaved hlen hchain hlast hlimit⟩, fun hnet => ?_⟩
  apply DgwFits.behaved hlen _ hchain hlast hlimit
  apply dgwFits_of_lt
  intro k hk
  obtain ⟨pindex, hmem, -, htarget⟩ := exists_nthBlock hlen hk
  rw [← htarget]
  exact (BitVec.le_def.1 (hlimit pindex hmem)).trans_lt (proofOfWorkLimit_lt hnet)

/-- A chain of blocks a minute apart, at one difficulty. -/
def minuteChain (nBits : ℕ) : List CBlockIndex :=
  (List.range 25).map fun k : ℕ =>
    { nHeight := 24 - k, nTime := 1800000000 - 60 * k, nBits := nBits }

theorem minuteChain_numbered (nBits : ℕ) : Numbered (minuteChain nBits) := by
  intro k pindex h
  rw [minuteChain, List.getElem?_map] at h
  obtain ⟨j, hj, rfl⟩ := Option.map_eq_some_iff.1 h
  obtain ⟨hk, rfl⟩ := List.getElem?_eq_some_iff.1 hj
  rw [minuteChain, List.length_map, List.length_range, List.getElem_range]
  dsimp only
  omega

/-- At the limit of the main network. -/
theorem dgwBehaved_main : DgwBehaved .main (minuteChain 0x1e0fffff) :=
  (dgwBehaved_iff .main (minuteChain 0x1e0fffff) (minuteChain_numbered _) (by decide) (by decide)
    (by decide)).2 (by decide)

/-- **At the limit of the regression test** the second average wraps, below every target read. -/
theorem dgwAverage_wraps : Numbered (minuteChain 0x207fffff) ∧
    (∀ pindex ∈ (minuteChain 0x207fffff).take 24, 1 ≤ pindex.target ∧
      pindex.target ≤ Network.proofOfWorkLimit .regtest) ∧
    ¬ DgwBehaved .regtest (minuteChain 0x207fffff) := by
  refine ⟨minuteChain_numbered _, by decide, fun h => ?_⟩
  obtain ⟨pindex, hmem, hle⟩ := h.average_ge 1 (by decide)
  have hall : ∀ p ∈ (minuteChain 0x207fffff).take 24,
      ¬ p.target ≤ (dgwRun (minuteChain 0x207fffff) 2).pastDifficultyAverage := by
    decide
  exact hall pindex hmem hle

end FairCoin
