import FairCoin.Coins

/-!
# Masternodes and the age of their inputs

`CMasternode` of `src/masternode.h` and `src/masternode.cpp`: the entry that is kept of a
masternode, the check of its state, and the age of its collateral, which is read once and then
extrapolated with the height of the tip.

* `CMasternode.check` — `Check`: removed, expired, spent or enabled.
* `getInputAge`, `CMasternode.getMasternodeInputAge` — the age read from the coins and the pool, and
  the cached one.
* `heldHeight` — the height that a cached pair stands for.
* `inputAges_exact_iff` — **a run of calls gives exact ages if and only if** the chains of the later
  calls have the collateral at the height the first call cached, or do not have it and are lower.

The pair is refilled only while the age is zero, which the age of an input never is: a reorganisation
that moves the collateral is not noticed, and an age of `-1` becomes positive two blocks later.
-/

namespace FairCoin

/-! ## Entries -/

/-- `MASTERNODE_EXPIRATION_SECONDS`. -/
def masternodeExpirationSeconds : ℤ := 120 * 60

/-- `MASTERNODE_REMOVAL_SECONDS`. -/
def masternodeRemovalSeconds : ℤ := 130 * 60

/-- `MASTERNODE_CHECK_SECONDS`. -/
def masternodeCheckSeconds : ℤ := 5

/-- `CMasternodePing`, without its signature. -/
structure CMasternodePing where
  vin : CTxIn := { prevout := ⟨0, 4294967295⟩ }
  blockHash : UInt256 := 0
  sigTime : ℤ := 0
  deriving DecidableEq, Repr

/-- `operator==` of pings. -/
def CMasternodePing.same (a b : CMasternodePing) : Bool :=
  a.vin = b.vin && a.blockHash = b.blockHash

/-- `CMasternode::state`. -/
inductive ActiveState where
  | preEnabled
  | enabled
  | expired
  | outpointSpent
  | remove
  | watchdogExpired
  | poseBan
  | vinSpent
  | posError
  deriving DecidableEq, Repr

/-- `CMasternode`, and `CMasternodeBroadcast`, which has no fields of its own. -/
structure CMasternode where
  vin : CTxIn
  pubKeyCollateralAddress : List UInt8 := []
  activeState : ActiveState := .enabled
  sigTime : ℤ := 0
  cacheInputAge : ℤ := 0
  cacheInputAgeBlock : ℤ := 0
  unitTest : Bool := false
  protocolVersion : ℤ := 0
  lastPing : CMasternodePing := {}
  lastTimeChecked : ℤ := 0
  deriving DecidableEq, Repr

/-- What `Check` reads outside of the entry: the clocks, whether `cs_main` could be locked, and
whether `AcceptableInputs` accepts a transaction that spends the collateral. -/
structure CheckCall where
  shutdownRequested : Bool := false
  getTime : ℤ
  getAdjustedTime : ℤ
  lockMain : Bool := true
  acceptableInputs : CTxIn → Bool

namespace CMasternode

/-- `IsPingedWithin`. -/
def isPingedWithin (mn : CMasternode) (seconds now : ℤ) : Bool :=
  if mn.lastPing.same {} then false else decide (wrap64 (now - mn.lastPing.sigTime) < seconds)

/-- The constructor from a broadcast: nothing is cached. -/
def ofBroadcast (mnb : CMasternode) : CMasternode :=
  { mnb with
    activeState := .enabled
    cacheInputAge := 0
    cacheInputAgeBlock := 0
    unitTest := false
    lastTimeChecked := 0 }

/-- `IsEnabled`. -/
def isEnabled (mn : CMasternode) : Bool := mn.activeState = .enabled

/-- `Check`. -/
def check (c : CheckCall) (forceCheck : Bool) (mn : CMasternode) : CMasternode :=
  if c.shutdownRequested then mn
  else if !forceCheck && decide (wrap64 (c.getTime - mn.lastTimeChecked) < masternodeCheckSeconds)
  then mn
  else
    let mn := { mn with lastTimeChecked := c.getTime }
    -- once spent, stop doing the checks
    if mn.activeState = .vinSpent then mn
    else if !mn.isPingedWithin masternodeRemovalSeconds c.getAdjustedTime then
      { mn with activeState := .remove }
    else if !mn.isPingedWithin masternodeExpirationSeconds c.getAdjustedTime then
      { mn with activeState := .expired }
    else if mn.unitTest then { mn with activeState := .enabled }
    else if !c.lockMain then mn
    else if !c.acceptableInputs mn.vin then { mn with activeState := .vinSpent }
    else { mn with activeState := .enabled }

end CMasternode

/-! ## The age of an input -/

/-- `MEMPOOL_HEIGHT`. -/
def mempoolHeight : ℤ := 0x7FFFFFFF

/-- What the age of an input is read from: the height of the tip, the coins of the chain and the
transactions of the pool.  An entry that is not pruned was made by a block of the chain, and its
transaction is not in the pool. -/
structure ChainView where
  tip : Option ℤ
  coinsTip : UInt256 → Option CCoins
  mempool : UInt256 → Option CTransaction
  height_range : ∀ h coins, coinsTip h = some coins → coins.isPruned = false →
    0 ≤ coins.nHeight ∧ ∃ nHeight, tip = some nHeight ∧ coins.nHeight ≤ nHeight
  not_pool : ∀ h coins, coinsTip h = some coins → coins.isPruned = false → mempool h = none
  tip_range : ∀ nHeight, tip = some nHeight → 0 ≤ nHeight ∧ nHeight + 1 < mempoolHeight

namespace ChainView

/-- `CCoinsViewMemPool::GetCoins` over `pcoinsTip`: the pool first. -/
def getCoins (v : ChainView) (txid : UInt256) : Option CCoins :=
  match v.mempool txid with
  | some tx => some (CCoins.fromTx tx mempoolHeight)
  | none => (v.coinsTip txid).filter fun coins => !coins.isPruned

/-- `GetInputAge`, with a tip of this height. -/
def getInputAge (v : ChainView) (nHeight : ℤ) (vin : CTxIn) : ℤ :=
  match v.getCoins vin.prevout.hash with
  | none => -1
  | some coins => if coins.nHeight < 0 then 0 else nHeight + 1 - coins.nHeight

/-- The block that made the coins of a transaction has this height. -/
def ConfirmedAt (v : ChainView) (txid : UInt256) (h : ℤ) : Prop :=
  ∃ coins, v.coinsTip txid = some coins ∧ coins.isPruned = false ∧ coins.nHeight = h

end ChainView

/-- `GetMasternodeInputAge`: the age, and the entry with the cached pair. -/
def CMasternode.getMasternodeInputAge (v : ChainView) (mn : CMasternode) : ℤ × CMasternode :=
  match v.tip with
  | none => (0, mn)
  | some nHeight =>
      let mn :=
        if mn.cacheInputAge = 0 then
          { mn with cacheInputAge := v.getInputAge nHeight mn.vin, cacheInputAgeBlock := nHeight }
        else mn
      (mn.cacheInputAge + (nHeight - mn.cacheInputAgeBlock), mn)

/-! ## Histories -/

/-- What happens between a masternode's announcement and its removal: the chain or the pool changes,
the age is asked for, or the list is written to disk and read again. -/
inductive AgeEvent where
  | change (v : ChainView)
  | ask
  | restart

/-- The answers in a history, each with what it was read from. -/
def inputAges : List AgeEvent → ChainView → CMasternode → List (ChainView × ℤ)
  | [], _, _ => []
  | .change v :: evs, _, mn => inputAges evs v mn
  | .ask :: evs, v, mn =>
      (v, (mn.getMasternodeInputAge v).1) :: inputAges evs v (mn.getMasternodeInputAge v).2
  | .restart :: evs, v, mn => inputAges evs v { mn with lastTimeChecked := 0 }

/-- The chains of which the age is asked, in order. -/
def asked : List AgeEvent → ChainView → List ChainView
  | [], _ => []
  | .change v :: evs, _ => asked evs v
  | .ask :: evs, v => v :: asked evs v
  | .restart :: evs, v => asked evs v

/-- An age is exact: that of the input when the collateral is in the chain, and not positive when it
is not. -/
structure ExactAge (vin : CTxIn) (v : ChainView) (age : ℤ) : Prop where
  confirmed : ∀ h, v.ConfirmedAt vin.prevout.hash h → ∀ nHeight, v.tip = some nHeight →
    age = v.getInputAge nHeight vin
  absent : (¬ ∃ h, v.ConfirmedAt vin.prevout.hash h) → age ≤ 0

/-- The height that a cached pair stands for. -/
def CMasternode.heldHeight (mn : CMasternode) : ℤ := mn.cacheInputAgeBlock + 1 - mn.cacheInputAge

/-- The height the first call caches: that of the collateral, and if it is in no block that of the
pool, or two above the tip. -/
def ChainView.heightToHold (v : ChainView) (nHeight : ℤ) (txid : UInt256) : ℤ :=
  match v.getCoins txid with
  | some coins => coins.nHeight
  | none => nHeight + 2

/-- The chain has the collateral at the height that is held, or does not have it and is lower. -/
structure Keeps (txid : UInt256) (held : ℤ) (v : ChainView) : Prop where
  confirmed : ∀ h, v.ConfirmedAt txid h → h = held
  absent : (¬ ∃ h, v.ConfirmedAt txid h) → ∀ nHeight, v.tip = some nHeight → nHeight < held

/-- The later chains keep the height of the first. -/
def KeepsFirst (txid : UInt256) : List ChainView → Prop
  | [] => True
  | v :: vs =>
      match v.tip with
      | none => KeepsFirst txid vs
      | some nHeight => ∀ v' ∈ vs, Keeps txid (v.heightToHold nHeight txid) v'

namespace ChainView

variable {v : ChainView} {txid : UInt256} {vin : CTxIn} {h nHeight : ℤ}

theorem ConfirmedAt.getCoins_eq (hc : v.ConfirmedAt txid h) :
    ∃ coins, v.getCoins txid = some coins ∧ coins.nHeight = h := by
  obtain ⟨coins, hcoins, hpruned, hh⟩ := hc
  refine ⟨coins, ?_, hh⟩
  rw [getCoins, v.not_pool txid coins hcoins hpruned]
  simp [hcoins, hpruned]

theorem ConfirmedAt.range (hc : v.ConfirmedAt txid h) (htip : v.tip = some nHeight) :
    0 ≤ h ∧ h ≤ nHeight := by
  obtain ⟨coins, hcoins, hpruned, rfl⟩ := hc
  obtain ⟨h0, n, hn, hle⟩ := v.height_range txid coins hcoins hpruned
  rw [htip] at hn
  cases hn
  exact ⟨h0, hle⟩

/-- Coins that are found are those of the chain or of the pool. -/
theorem getCoins_cases {coins : CCoins} (hcoins : v.getCoins txid = some coins) :
    v.ConfirmedAt txid coins.nHeight ∨ coins.nHeight = mempoolHeight := by
  rw [getCoins] at hcoins
  split at hcoins
  · next tx _ =>
    cases hcoins
    exact .inr rfl
  · rw [Option.filter_eq_some_iff] at hcoins
    exact .inl ⟨coins, hcoins.1, by simpa using hcoins.2, rfl⟩

/-- The height to hold is that of the collateral, or above the next block. -/
theorem heightToHold_of_confirmed (hc : v.ConfirmedAt txid h) :
    v.heightToHold nHeight txid = h := by
  obtain ⟨coins, hcoins, hh⟩ := hc.getCoins_eq
  rw [heightToHold, hcoins]
  exact hh

theorem lt_heightToHold (htip : v.tip = some nHeight)
    (habsent : ¬ ∃ h, v.ConfirmedAt txid h) : nHeight + 1 < v.heightToHold nHeight txid := by
  rw [heightToHold]
  split
  · next coins hcoins =>
    rcases getCoins_cases hcoins with hc | hpool
    · exact absurd ⟨_, hc⟩ habsent
    · rw [hpool]
      exact (v.tip_range nHeight htip).2
  · omega

theorem heightToHold_nonneg (htip : v.tip = some nHeight) :
    0 ≤ v.heightToHold nHeight txid := by
  by_cases hc : ∃ h, v.ConfirmedAt txid h
  · obtain ⟨h, hc⟩ := hc
    rw [heightToHold_of_confirmed hc]
    exact (hc.range htip).1
  · have := lt_heightToHold htip hc
    have := (v.tip_range nHeight htip).1
    omega

/-- The age is read as the distance to the height to hold. -/
theorem getInputAge_eq (htip : v.tip = some nHeight) :
    v.getInputAge nHeight vin = nHeight + 1 - v.heightToHold nHeight vin.prevout.hash := by
  have hnonneg : 0 ≤ v.heightToHold nHeight vin.prevout.hash := heightToHold_nonneg htip
  rw [heightToHold] at hnonneg
  rw [getInputAge, heightToHold]
  cases hcoins : v.getCoins vin.prevout.hash with
  | none => simp
  | some coins =>
    rw [hcoins] at hnonneg
    exact if_neg (not_lt.2 hnonneg)

/-- An age is never read as zero. -/
theorem getInputAge_ne_zero (htip : v.tip = some nHeight) : v.getInputAge nHeight vin ≠ 0 := by
  rw [getInputAge_eq htip]
  by_cases hc : ∃ h, v.ConfirmedAt vin.prevout.hash h
  · obtain ⟨h, hc⟩ := hc
    rw [heightToHold_of_confirmed hc]
    have := (hc.range htip).2
    omega
  · have := lt_heightToHold htip hc
    omega

/-- An age at a distance is exact when the chain keeps the height. -/
theorem exactAge_iff_keeps (htip : v.tip = some nHeight) {held : ℤ} :
    ExactAge vin v (nHeight + 1 - held) ↔ Keeps vin.prevout.hash held v := by
  constructor
  · intro hage
    refine ⟨fun h hc => ?_, fun habsent n hn => ?_⟩
    · have heq := hage.confirmed h hc nHeight htip
      rw [getInputAge_eq htip, heightToHold_of_confirmed hc] at heq
      omega
    · rw [htip] at hn
      cases hn
      have := hage.absent habsent
      omega
  · intro hk
    refine ⟨fun h hc n hn => ?_, fun habsent => ?_⟩
    · rw [htip] at hn
      cases hn
      rw [getInputAge_eq htip, heightToHold_of_confirmed hc, hk.confirmed h hc]
    · have := hk.absent habsent nHeight htip
      omega

/-- Without a tip there is nothing to keep, and the answer is zero. -/
theorem exactAge_of_no_tip (htip : v.tip = none) : ExactAge vin v 0 where
  confirmed _ _ n hn := by rw [htip] at hn; cases hn
  absent _ := le_rfl

theorem keeps_of_no_tip (htip : v.tip = none) (held : ℤ) : Keeps txid held v where
  confirmed h hc := by
    obtain ⟨coins, hcoins, hpruned, -⟩ := hc
    obtain ⟨-, n, hn, -⟩ := v.height_range txid coins hcoins hpruned
    rw [htip] at hn
    cases hn
  absent _ n hn := by rw [htip] at hn; cases hn

end ChainView

namespace CMasternode

variable {v : ChainView} {mn : CMasternode}

theorem getMasternodeInputAge_of_no_tip (htip : v.tip = none) :
    mn.getMasternodeInputAge v = (0, mn) := by
  rw [getMasternodeInputAge, htip]

/-- With a pair in the cache the answer is the distance to the height that is held. -/
theorem getMasternodeInputAge_of_held {nHeight : ℤ} (htip : v.tip = some nHeight)
    (hage : mn.cacheInputAge ≠ 0) :
    mn.getMasternodeInputAge v = (nHeight + 1 - mn.heldHeight, mn) := by
  rw [getMasternodeInputAge, htip]
  simp only [if_neg hage, heldHeight, Prod.mk.injEq, and_true]
  omega

/-- The first call caches the pair and answers with the distance to the height to hold. -/
theorem getMasternodeInputAge_of_new {nHeight : ℤ} (htip : v.tip = some nHeight)
    (hage : mn.cacheInputAge = 0) : ∃ mn', mn.getMasternodeInputAge v =
      (nHeight + 1 - v.heightToHold nHeight mn.vin.prevout.hash, mn') ∧ mn'.vin = mn.vin ∧
      mn'.cacheInputAge ≠ 0 ∧ mn'.heldHeight = v.heightToHold nHeight mn.vin.prevout.hash := by
  refine ⟨{ mn with
    cacheInputAge := v.getInputAge nHeight mn.vin
    cacheInputAgeBlock := nHeight }, ?_, rfl, ChainView.getInputAge_ne_zero htip, ?_⟩
  · rw [getMasternodeInputAge, htip]
    simp only [if_pos hage, Prod.mk.injEq, and_true]
    rw [ChainView.getInputAge_eq htip]
    omega
  · rw [heldHeight]
    show nHeight + 1 - v.getInputAge nHeight mn.vin = _
    rw [ChainView.getInputAge_eq htip]
    omega

/-- Once a pair is cached, the answers are exact when every chain keeps the height that is held. -/
theorem inputAges_held_iff (evs : List AgeEvent) (v : ChainView) (mn : CMasternode)
    (hage : mn.cacheInputAge ≠ 0) :
    (∀ p ∈ inputAges evs v mn, ExactAge mn.vin p.1 p.2) ↔
      ∀ v' ∈ asked evs v, Keeps mn.vin.prevout.hash mn.heldHeight v' := by
  induction evs generalizing v mn with
  | nil => simp [inputAges, asked]
  | cons ev evs ih =>
    cases ev with
    | change v' => exact ih v' mn hage
    | restart => exact ih v { mn with lastTimeChecked := 0 } hage
    | ask =>
      have hsame : (mn.getMasternodeInputAge v).2 = mn := by
        cases htip : v.tip with
        | none => rw [getMasternodeInputAge_of_no_tip htip]
        | some nHeight => rw [getMasternodeInputAge_of_held htip hage]
      have hhead : ExactAge mn.vin v (mn.getMasternodeInputAge v).1 ↔
          Keeps mn.vin.prevout.hash mn.heldHeight v := by
        cases htip : v.tip with
        | none =>
          rw [getMasternodeInputAge_of_no_tip htip]
          exact iff_of_true (ChainView.exactAge_of_no_tip htip)
            (ChainView.keeps_of_no_tip htip _)
        | some nHeight =>
          rw [getMasternodeInputAge_of_held htip hage]
          exact ChainView.exactAge_iff_keeps htip
      rw [inputAges, asked, hsame, List.forall_mem_cons, List.forall_mem_cons, hhead, ih v mn hage]

theorem inputAges_new_iff (evs : List AgeEvent) (v : ChainView) (mn : CMasternode)
    (hage : mn.cacheInputAge = 0) :
    (∀ p ∈ inputAges evs v mn, ExactAge mn.vin p.1 p.2) ↔
      KeepsFirst mn.vin.prevout.hash (asked evs v) := by
  induction evs generalizing v mn with
  | nil => simp [inputAges, asked, KeepsFirst]
  | cons ev evs ih =>
    cases ev with
    | change v' => exact ih v' mn hage
    | restart => exact ih v { mn with lastTimeChecked := 0 } hage
    | ask =>
      rw [inputAges, asked, List.forall_mem_cons]
      cases htip : v.tip with
      | none =>
        simp only [KeepsFirst, htip, getMasternodeInputAge_of_no_tip htip]
        rw [ih v mn hage]
        exact and_iff_right (ChainView.exactAge_of_no_tip htip)
      | some nHeight =>
        obtain ⟨mn', hcall, hvin, hage', hheld⟩ := getMasternodeInputAge_of_new htip hage
        have hfirst : Keeps mn.vin.prevout.hash (v.heightToHold nHeight mn.vin.prevout.hash) v :=
          ⟨fun h hc => (ChainView.heightToHold_of_confirmed hc).symm, fun habsent n hn => by
            have := ChainView.lt_heightToHold htip habsent
            rw [htip] at hn
            cases hn
            omega⟩
        simp only [KeepsFirst, htip, hcall]
        rw [← hvin, inputAges_held_iff evs v mn' hage', hheld, hvin]
        exact and_iff_right ((ChainView.exactAge_iff_keeps htip).2 hfirst)

/-- **The cached ages of a new masternode are exact if and only if the chains keep the height that the
first call caches.** -/
theorem inputAges_exact_iff (evs : List AgeEvent) (v : ChainView) (mnb : CMasternode) :
    (∀ p ∈ inputAges evs v mnb.ofBroadcast, ExactAge mnb.vin p.1 p.2) ↔
      KeepsFirst mnb.vin.prevout.hash (asked evs v) :=
  inputAges_new_iff evs v mnb.ofBroadcast rfl

end CMasternode

/-- A chain with this tip, in which the block at height `h` made a collateral. -/
def ChainView.withCollateral (txid : UInt256) (nHeight h : ℤ) (h0 : 0 ≤ h) (hle : h ≤ nHeight)
    (hlt : nHeight + 1 < mempoolHeight) : ChainView where
  tip := some nHeight
  coinsTip t := if t = txid then some { vout := [⟨1, [], -10⟩], nHeight := h } else none
  mempool _ := none
  height_range t coins hcoins _ := by
    split at hcoins
    · cases hcoins
      exact ⟨h0, nHeight, rfl, hle⟩
    · cases hcoins
  not_pool _ _ _ _ := rfl
  tip_range n hn := by
    cases hn
    exact ⟨h0.trans hle, hlt⟩

/-- A reorganisation moves the collateral from height 100 to height 105, and the age stays at the old
height. -/
theorem inputAge_after_reorganisation :
    ¬ ∀ (evs : List AgeEvent) (v : ChainView) (mnb : CMasternode),
      ∀ p ∈ inputAges evs v mnb.ofBroadcast, ExactAge mnb.vin p.1 p.2 := by
  intro hall
  let before := ChainView.withCollateral 1 120 100 (by decide) (by decide) (by decide)
  let after := ChainView.withCollateral 1 121 105 (by decide) (by decide) (by decide)
  have hage := hall [.ask, .change after, .ask] before { vin := { prevout := ⟨1, 0⟩ } }
    (after, 22) (by
      have h : inputAges [.ask, .change after, .ask] before
          (CMasternode.ofBroadcast { vin := { prevout := ⟨1, 0⟩ } }) =
            [(before, 21), (after, 22)] := rfl
      rw [h]
      simp)
  have heq := hage.confirmed 105 ⟨_, rfl, rfl, rfl⟩ 121 rfl
  exact absurd heq (by decide)

end FairCoin
