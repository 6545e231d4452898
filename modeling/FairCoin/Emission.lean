import FairCoin.Reward

/-!
# The emission schedule and the supply cap

`GetBlockValue` over all heights, beside the cap that `ConnectBlock` enforces.

* `getBlockValue_of_halvings` — the value of a block by the number of halvings.
* `scheduledSupply` — what the schedule has paid up to a height, in closed form where the value is
  constant.
* `emission_within_cap_iff` — **up to which height the schedule keeps to the cap**, and up to which
  the halving count is a shift count.
-/

namespace FairCoin

/-! ## The value of a block -/

theorem getBlockValue_of_halvings {h : ℤ} {k : ℕ} (h1 : h ≠ 1) (hk : k < 64)
    (hlo : k * 525600 ≤ h) (hhi : h < (k + 1) * 525600) :
    getBlockValue h = max 125000000 (10 * coin / 2 ^ k) := by
  have hdiv : h.tdiv 525600 = k := by
    rw [Int.tdiv_eq_ediv_of_nonneg (by omega)]
    omega
  have hshift : (h.tdiv 525600 % 64).toNat = k := by
    rw [hdiv]
    omega
  rw [getBlockValue, if_neg h1]
  dsimp only
  rw [hshift]
  split
  · next hlt => rw [max_eq_left hlt.le]
  · next hge => rw [max_eq_right (not_lt.1 hge)]

theorem getBlockValue_first {h : ℤ} (hlo : 2 ≤ h) (hhi : h < 525600) :
    getBlockValue h = 1000000000 :=
  @getBlockValue_of_halvings h 0 (by omega) (by decide) (by omega) (by omega)

theorem getBlockValue_second {h : ℤ} (hlo : 525600 ≤ h) (hhi : h < 1051200) :
    getBlockValue h = 500000000 :=
  @getBlockValue_of_halvings h 1 (by omega) (by decide) (by omega) (by omega)

theorem getBlockValue_third {h : ℤ} (hlo : 1051200 ≤ h) (hhi : h < 1576800) :
    getBlockValue h = 250000000 :=
  @getBlockValue_of_halvings h 2 (by omega) (by decide) (by omega) (by omega)

/-- From the third halving on the value is the minimum, as long as the count is a shift count. -/
theorem getBlockValue_floor {h : ℤ} (hlo : 1576800 ≤ h) (hhi : h < 33638400) :
    getBlockValue h = 125000000 := by
  have hk : 3 ≤ (h / 525600).toNat ∧ (h / 525600).toNat < 64 := by omega
  rw [@getBlockValue_of_halvings h (h / 525600).toNat (by omega) hk.2 (by omega) (by omega)]
  apply max_eq_left
  have hpow : (8 : ℤ) ≤ 2 ^ (h / 525600).toNat :=
    pow_le_pow_right₀ (show (1 : ℤ) ≤ 2 by decide) hk.1
  apply Int.ediv_le_of_le_mul (by positivity)
  calc 10 * coin = 125000000 * 8 := by decide
    _ ≤ 125000000 * 2 ^ (h / 525600).toNat := Int.mul_le_mul_of_nonneg_left hpow (by decide)

/-- The shift count wraps: the block after sixty-four halvings is worth as much as the first ones. -/
theorem getBlockValue_wraps : getBlockValue 33638400 = 1000000000 := by decide

/-! ## The supply -/

/-- The supply after the blocks up to a height, if each took its full reward. -/
def scheduledSupply (nHeight : ℕ) : ℤ :=
  ∑ i ∈ Finset.range nHeight, getBlockValue (i + 1)

theorem scheduledSupply_succ (n : ℕ) :
    scheduledSupply (n + 1) = scheduledSupply n + getBlockValue (n + 1) :=
  Finset.sum_range_succ _ n

/-- Heights of one value. -/
theorem scheduledSupply_add {a n : ℕ} {c : ℤ}
    (h : ∀ i : ℕ, i < n → getBlockValue ((a + i : ℕ) + 1) = c) :
    scheduledSupply (a + n) = scheduledSupply a + n * c := by
  rw [scheduledSupply, Finset.sum_range_add, Finset.sum_congr rfl fun i hi =>
    h i (Finset.mem_range.1 hi), Finset.sum_const, Finset.card_range, nsmul_eq_mul]
  rfl

theorem scheduledSupply_mono : Monotone scheduledSupply := by
  apply monotone_nat_of_le_succ
  intro n
  rw [scheduledSupply_succ]
  have := getBlockValue_pos (n + 1)
  omega

/-- **The last height within the cap**: there the schedule has paid exactly the maximum. -/
theorem scheduledSupply_last : scheduledSupply 16618415 = 3300000000000000 := by
  have h₁ : scheduledSupply 1 = 500000000000000 := by decide
  have h₂ : scheduledSupply (1 + 525598) = _ :=
    @scheduledSupply_add 1 525598 1000000000 fun i hi => getBlockValue_first (by omega) (by omega)
  have h₃ : scheduledSupply (525599 + 525600) = _ :=
    @scheduledSupply_add 525599 525600 500000000 fun i hi =>
      getBlockValue_second (by omega) (by omega)
  have h₄ : scheduledSupply (1051199 + 525600) = _ :=
    @scheduledSupply_add 1051199 525600 250000000 fun i hi =>
      getBlockValue_third (by omega) (by omega)
  have h₅ : scheduledSupply (1576799 + 15041616) = _ :=
    @scheduledSupply_add 1576799 15041616 125000000 fun i hi =>
      getBlockValue_floor (by omega) (by omega)
  norm_num at h₂ h₃ h₄ h₅
  omega

theorem scheduledSupply_le_iff (H : ℕ) :
    scheduledSupply H ≤ 3300000000000000 ↔ H ≤ 16618415 := by
  constructor
  · intro h
    by_contra hlt
    have hnext := scheduledSupply_mono (show 16618415 + 1 ≤ H by omega)
    rw [scheduledSupply_succ, scheduledSupply_last] at hnext
    have := getBlockValue_pos ((16618415 : ℕ) + 1)
    omega
  · intro h
    exact (scheduledSupply_mono h).trans_eq scheduledSupply_last

/-- At heights that an `int` holds, the supply is far from the end of its type. -/
theorem scheduledSupply_lt {H : ℕ} (hH : H < 2147483648) :
    0 ≤ scheduledSupply H ∧ scheduledSupply H < 3000000000000000000 := by
  have hbound : ∀ n : ℕ, 0 ≤ scheduledSupply n ∧
      scheduledSupply n ≤ 500000000000000 + n * 1000000000 := by
    intro n
    induction n with
    | zero => exact ⟨le_rfl, by decide⟩
    | succ n ih =>
      rw [scheduledSupply_succ]
      by_cases hn : (n : ℤ) + 1 = 1
      · obtain rfl : n = 0 := by omega
        decide
      · have hvalue := getBlockValue_bounds hn
        have hcoin : 10 * coin = 1000000000 := rfl
        push_cast
        omega
  have := hbound H
  omega

/-! ## The schedule and the cap -/

/-- What `ConnectBlock` records for a block that takes its full reward. -/
theorem withSupply_scheduled {tree : BlockTree} {pindex prev : CBlockIndex} {s : ConnectState}
    {n : ℕ} (hn : n + 1 < 2147483648)
    (hprev : pindex.pprev.bind tree.mapBlockIndex.lookup = some prev)
    (hsupply : prev.nMoneySupply = scheduledSupply n)
    (hfull : s.nValueOut - s.nValueIn = getBlockValue (n + 1)) :
    (pindex.withSupply tree s).nMoneySupply = scheduledSupply (n + 1) ∧
      (pindex.withSupply tree s).nMint = getBlockValue (n + 1) := by
  have hbefore := scheduledSupply_lt (show n < 2147483648 by omega)
  have hafter := scheduledSupply_lt hn
  have hsucc := scheduledSupply_succ n
  have hnext : wrap64 (wrap64 (scheduledSupply n + s.nValueOut) - s.nValueIn) =
      scheduledSupply (n + 1) := by
    rw [wrap64_sub_left, show scheduledSupply n + s.nValueOut - s.nValueIn =
      scheduledSupply (n + 1) by omega]
    exact wrap64_of_lt (by omega) (by omega)
  simp only [CBlockIndex.withSupply, hprev, Option.map_some, Option.getD_some, hsupply, hnext]
  refine ⟨trivial, ?_⟩
  rw [hsucc, add_sub_cancel_left]
  exact wrap64_of_lt (by omega) (by omega)

/-- **The emission schedule.**  The value of a block is never below the minimum.  It does not rise
from the second block on as long as the halving count is a shift count.  What it pays in all stays
within the cap up to a certain height; from there on, `ConnectBlock` refuses a block that takes its
full reward on top of the full rewards before it. -/
theorem emission_within_cap_iff (net : Network) (H : ℕ) (hpos : 1 ≤ H) (hH : H < 2147483648) :
    (∀ h, 125000000 ≤ getBlockValue h) ∧
    ((∀ h : ℤ, 0 ≤ h → h ≤ H → h.tdiv 525600 < 64) ↔ H < 33638400) ∧
    ((∀ a b : ℤ, 2 ≤ a → a ≤ b → b ≤ H → getBlockValue b ≤ getBlockValue a) ↔ H < 33638400) ∧
    (scheduledSupply H ≤ net.maxMoneyOut ↔ H ≤ 16618415) ∧
    ∀ (env : Env) (tree : BlockTree) (block : CBlock) (pindex prev : CBlockIndex) (s : ConnectState),
      env.network = net → pindex.nHeight = H → pindex.pprev.bind tree.mapBlockIndex.lookup = some prev →
      prev.nMoneySupply = scheduledSupply (H - 1) → s.nValueOut - s.nValueIn = getBlockValue H →
      isBlockValueValid env tree block (expectedMint block H s.nFees) (getBlockValue H) = true →
      (checkReward env tree block (pindex.withSupply tree s) s = .error (.dos "bad-money-supply") ↔
        16618415 < H) := by
  refine ⟨fun h => ?_, ⟨fun h => ?_, fun h x hx hxH => ?_⟩, ⟨fun h => ?_, fun h a b ha hab hb => ?_⟩,
    ?_, ?_⟩
  · by_cases h1 : h = 1
    · rw [h1]
      decide
    · exact (getBlockValue_bounds h1).1
  · by_contra hlt
    exact absurd (h 33638400 (by decide) (by omega)) (by decide)
  · rw [Int.tdiv_eq_ediv_of_nonneg hx]
    omega
  · by_contra hlt
    have hrise := h 33638399 33638400 (by decide) (by decide) (by omega)
    rw [getBlockValue_wraps, getBlockValue_floor (by decide) (by decide)] at hrise
    exact absurd hrise (by decide)
  · exact getBlockValue_anti (by omega) hab (by omega) (by omega)
  · rw [net.maxMoneyOut_eq]
    exact scheduledSupply_le_iff H
  · intro env tree block pindex prev s hnet hheight hprev hsupply hfull hvalid
    obtain ⟨n, rfl⟩ : ∃ n, H = n + 1 := ⟨H - 1, by omega⟩
    rw [Nat.add_sub_cancel] at hsupply
    push_cast at hfull hvalid hheight
    obtain ⟨hnext, hmint⟩ := withSupply_scheduled hH hprev hsupply hfull
    have hsame : (pindex.withSupply tree s).nHeight = n + 1 := hheight
    rw [checkReward, hsame, hmint, hvalid, hnext, hnet, net.maxMoneyOut_eq]
    have hcap := scheduledSupply_le_iff (n + 1)
    by_cases hle : scheduledSupply (n + 1) ≤ 3300000000000000
    · have hwithin := hcap.1 hle
      rw [decide_eq_true hle]
      simp only [require, if_true]
      cases s.scriptsOk
      · refine ⟨fun h => ?_, fun h => absurd h (by omega)⟩
        cases h
      · refine ⟨fun h => ?_, fun h => absurd h (by omega)⟩
        cases h
    · have hbeyond : 16618415 < n + 1 := by
        by_contra hlt
        exact hle (hcap.2 (by omega))
      rw [decide_eq_false hle]
      exact ⟨fun _ => hbeyond, fun _ => rfl⟩

/-- The schedule at the last height within the cap. -/
theorem emission_within_cap_last : scheduledSupply 16618415 ≤ Network.main.maxMoneyOut ∧
    ∀ h : ℤ, 0 ≤ h → h ≤ (16618415 : ℕ) → h.tdiv 525600 < 64 :=
  ⟨(emission_within_cap_iff .main 16618415 (by decide) (by decide)).2.2.2.1.2 (by decide),
    (emission_within_cap_iff .main 16618415 (by decide) (by decide)).2.1.2 (by decide)⟩

/-- **The schedule leaves the cap** one block later, and its shift count later still. -/
theorem emission_exceeds_cap : ¬ scheduledSupply 16618416 ≤ Network.main.maxMoneyOut ∧
    ¬ (33638400 : ℤ).tdiv 525600 < 64 ∧ ¬ getBlockValue 33638400 ≤ getBlockValue 33638399 := by
  refine ⟨?_, by decide, by decide⟩
  rw [Network.maxMoneyOut_eq, scheduledSupply_le_iff]
  decide

end FairCoin
