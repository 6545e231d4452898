import FairCoin.Masternodes
import FairCoin.NetAddress

/-!
# The masternode manager

`CMasternodeMan` of `src/masternodeman.cpp`: a random masternode that was not used yet, and the
removal of what has expired.

* `findRandomNotInVec` — `FindRandomNotInVec`: the range of the draw is the number of enabled
  masternodes less the length of the vector, and a countdown finds the one that was drawn.
* `uniformSelection_iff` — **the draws select the eligible masternodes one by one** if and only if at
  most one is eligible, and the range fits.
* `checkAndRemove` — `CheckAndRemove` over the seven containers.
* `removesExactly_iff` — **what has expired is removed and nothing else** if and only if the last
  broadcast is live and no broadcast beside a change from live to expired is in `mapSeenSyncMNB`.

The countdown stops at the first masternode for the draws `0` and `1`, so the last one is never
selected.  An expired broadcast is erased before its hash is taken, through an iterator that has
moved on to the next one.
-/

namespace FairCoin

/-! ## A random masternode -/

/-- The values that `GetRandInt` can return: `GetRand` takes its argument as an unsigned number. -/
def randInts (nMax : ℤ) : Set ℤ :=
  {r | ∃ u : ℕ, (if nMax = 0 then u = 0 else (u : ℤ) < nMax % 2 ^ 64) ∧ r = wrap32 u}

section FindRandom

variable (protocolVersion : ℤ) (vecToExclude : List CTxIn)

/-- Enabled, and recent enough. -/
def CMasternode.isCounted (mn : CMasternode) : Bool :=
  !(decide (mn.protocolVersion < protocolVersion) || !mn.isEnabled)

/-- `found`: the collateral is in the vector. -/
def CMasternode.isExcluded (mn : CMasternode) : Bool :=
  vecToExclude.any fun usedVin => decide (mn.vin.prevout = usedVin.prevout)

/-- Enabled, recent enough and not excluded. -/
def CMasternode.isEligible (mn : CMasternode) : Bool :=
  mn.isCounted protocolVersion && !mn.isExcluded vecToExclude

/-- `CountEnabled`, of masternodes that were checked. -/
def countEnabled (vMasternodes : List CMasternode) : ℤ :=
  wrap32 (vMasternodes.countP (CMasternode.isCounted protocolVersion))

/-- The loop of `FindRandomNotInVec`: the position of the masternode that is returned. -/
def findLoop : List CMasternode → ℕ → ℤ → Option ℕ
  | [], _, _ => none
  | mn :: mns, i, rand =>
      if decide (mn.protocolVersion < protocolVersion) || !mn.isEnabled then
        findLoop mns (i + 1) rand
      else if mn.isExcluded vecToExclude then findLoop mns (i + 1) rand
      else if wrap32 (rand - 1) < 1 then some i
      else findLoop mns (i + 1) (wrap32 (rand - 1))

/-- `nCountEnabled - vecToExclude.size()`, an unsigned number. -/
def randRange (vMasternodes : List CMasternode) : ℤ :=
  (countEnabled protocolVersion vMasternodes - vecToExclude.length) % 2 ^ 64

/-- The argument of `GetRandInt`, if it is called. -/
def drawArgument (vMasternodes : List CMasternode) : Option ℤ :=
  if randRange protocolVersion vecToExclude vMasternodes < 1 then none
  else some (wrap32 (randRange protocolVersion vecToExclude vMasternodes))

end FindRandom

/-- `FindRandomNotInVec`: the position of the masternode that is returned.  `getRandInt` draws the
number, and `minProto` is `GetMinMasternodePaymentsProto`; `CountEnabled` checks the masternodes. -/
def findRandomNotInVec (c : CheckCall) (minProto : ℤ) (getRandInt : ℤ → ℤ)
    (vMasternodes : List CMasternode) (vecToExclude : List CTxIn) (protocolVersion : ℤ) : Option ℕ :=
  let protocolVersion := if protocolVersion = -1 then minProto else protocolVersion
  let vMasternodes := vMasternodes.map (CMasternode.check c false)
  (drawArgument protocolVersion vecToExclude vMasternodes).bind fun nMax =>
    findLoop protocolVersion vecToExclude vMasternodes 0 (getRandInt nMax)

/-- A call of `FindRandomNotInVec`, but for the number that is drawn. -/
structure FindCall where
  check : CheckCall
  minProto : ℤ
  vMasternodes : List CMasternode
  vecToExclude : List CTxIn
  protocolVersion : ℤ

namespace FindCall

variable (f : FindCall)

/-- The masternodes after `Check`. -/
def checked : List CMasternode := f.vMasternodes.map (CMasternode.check f.check false)

/-- The protocol version that is asked for. -/
def proto : ℤ := if f.protocolVersion = -1 then f.minProto else f.protocolVersion

/-- How many masternodes are enabled and recent enough. -/
def nEnabled : ℤ := countEnabled f.proto f.checked

/-- How many of these are not excluded. -/
def nEligible : ℕ := f.checked.countP (CMasternode.isEligible f.proto f.vecToExclude)

/-- What is selected with a draw. -/
def select (r : ℤ) : Option ℕ :=
  findRandomNotInVec f.check f.minProto (fun _ => r) f.vMasternodes f.vecToExclude
    f.protocolVersion

/-- With eligible masternodes there are as many draws, and they select different ones; with none the
answer is `NULL`, and no number is drawn from a range that is empty or wrapped. -/
structure SelectsUniformly : Prop where
  some_eligible : 1 ≤ f.nEligible → ∃ nMax, drawArgument f.proto f.vecToExclude f.checked = some nMax ∧
    (randInts nMax).ncard = f.nEligible ∧
    (∀ r ∈ randInts nMax, ∃ i mn, f.select r = some i ∧ f.checked[i]? = some mn ∧
      mn.isEligible f.proto f.vecToExclude = true) ∧
    Set.InjOn f.select (randInts nMax)
  none_eligible : f.nEligible = 0 → (∀ r, f.select r = none) ∧
    ∀ nMax, drawArgument f.proto f.vecToExclude f.checked = some nMax →
      0 < nMax ∧ nMax = f.nEnabled - f.vecToExclude.length

/-- At most one masternode is eligible; and the number of enabled ones is not below the length of
the vector if none is, and one above it if one is, as the unsigned and the signed word have it. -/
def RangeFits : Prop :=
  (f.nEligible = 0 ∧ ((f.nEnabled - f.vecToExclude.length) % 2 ^ 64 = 0 ∨
    (f.vecToExclude.length : ℤ) < f.nEnabled)) ∨
  (f.nEligible = 1 ∧ (f.nEnabled - f.vecToExclude.length) % 2 ^ 64 ≠ 0 ∧
    (wrap32 (f.nEnabled - f.vecToExclude.length) = 1 ∨
      wrap32 (f.nEnabled - f.vecToExclude.length) = 0))

end FindCall

/-! ### The draws -/

theorem wrap32_range (x : ℤ) : -2 ^ 31 ≤ wrap32 x ∧ wrap32 x < 2 ^ 31 := by
  rw [wrap32, Int.bmod_def]
  omega

theorem wrap32_of_range {x : ℤ} (h : -2 ^ 31 ≤ x ∧ x < 2 ^ 31) : wrap32 x = x := by
  rw [wrap32, Int.bmod_def]
  omega

theorem wrap32_emod (x : ℤ) : wrap32 (x % 2 ^ 64) = wrap32 x := by
  rw [wrap32, wrap32, Int.bmod_def, Int.bmod_def]
  omega

/-- A range of one, and an argument of zero, leave one draw. -/
theorem randInts_eq_singleton {nMax : ℤ} (h : nMax = 1 ∨ nMax = 0) : randInts nMax = {0} := by
  ext r
  rw [Set.mem_singleton_iff]
  constructor
  · rintro ⟨u, hu, hr⟩
    have hu0 : u = 0 := by
      rcases h with rfl | rfl
      · have : (u : ℤ) < 1 := by simpa using hu
        omega
      · simpa using hu
    rw [hr, hu0, Nat.cast_zero, wrap32_of_range (by decide)]
  · rintro rfl
    refine ⟨0, ?_, rfl⟩
    rcases h with rfl | rfl <;> simp

/-- Every other range has the draws `0` and `1`. -/
theorem zero_one_mem_randInts {nMax : ℤ} (hrange : -2 ^ 31 ≤ nMax ∧ nMax < 2 ^ 31)
    (h : ¬ (nMax = 1 ∨ nMax = 0)) : 0 ∈ randInts nMax ∧ 1 ∈ randInts nMax := by
  have h0 : nMax ≠ 0 := fun h0 => h (.inr h0)
  have hlarge : 2 ≤ nMax % 2 ^ 64 := by omega
  refine ⟨⟨0, ?_, rfl⟩, ⟨1, ?_, rfl⟩⟩
  · rw [if_neg h0]
    omega
  · rw [if_neg h0]
    omega

section FindLoop

variable {protocolVersion : ℤ} {vecToExclude : List CTxIn}

theorem findLoop_cons (mn : CMasternode) (mns : List CMasternode) (i : ℕ) (rand : ℤ) :
    findLoop protocolVersion vecToExclude (mn :: mns) i rand =
      if mn.isEligible protocolVersion vecToExclude then
        if wrap32 (rand - 1) < 1 then some i
        else findLoop protocolVersion vecToExclude mns (i + 1) (wrap32 (rand - 1))
      else findLoop protocolVersion vecToExclude mns (i + 1) rand := by
  rw [findLoop, CMasternode.isEligible, CMasternode.isCounted]
  cases decide (mn.protocolVersion < protocolVersion) || !mn.isEnabled <;>
    cases mn.isExcluded vecToExclude <;> simp

/-- Without an eligible masternode nothing is found. -/
theorem findLoop_eq_none (mns : List CMasternode) (i : ℕ) (rand : ℤ)
    (h : mns.countP (CMasternode.isEligible protocolVersion vecToExclude) = 0) :
    findLoop protocolVersion vecToExclude mns i rand = none := by
  induction mns generalizing i rand with
  | nil => rfl
  | cons mn mns ih =>
    rw [List.countP_eq_zero] at h
    rw [findLoop_cons, if_neg (h mn (by simp))]
    exact ih (i + 1) rand (List.countP_eq_zero.2 fun m hm => h m (by simp [hm]))

/-- The draws `0` and `1` both stop at the first eligible masternode. -/
theorem findLoop_zero_eq_one (mns : List CMasternode) (i : ℕ) :
    findLoop protocolVersion vecToExclude mns i 0 = findLoop protocolVersion vecToExclude mns i 1 := by
  induction mns generalizing i with
  | nil => rfl
  | cons mn mns ih =>
    rw [findLoop_cons, findLoop_cons, if_pos (by decide : wrap32 (0 - 1) < 1),
      if_pos (by decide : wrap32 (1 - 1) < 1), ih]

theorem findLoop_zero (mns : List CMasternode) (i : ℕ)
    (h : 1 ≤ mns.countP (CMasternode.isEligible protocolVersion vecToExclude)) :
    ∃ j mn, findLoop protocolVersion vecToExclude mns i 0 = some (i + j) ∧ mns[j]? = some mn ∧
      mn.isEligible protocolVersion vecToExclude = true := by
  induction mns generalizing i with
  | nil => simp at h
  | cons mn mns ih =>
    rw [findLoop_cons, if_pos (by decide : wrap32 (0 - 1) < 1)]
    by_cases hmn : mn.isEligible protocolVersion vecToExclude = true
    · rw [if_pos hmn]
      exact ⟨0, mn, rfl, rfl, hmn⟩
    · rw [if_neg hmn]
      rw [List.countP_cons_of_neg hmn] at h
      obtain ⟨j, mn', hfind, hget, hel⟩ := ih (i + 1) h
      refine ⟨j + 1, mn', ?_, hget, hel⟩
      rw [hfind]
      congr 1
      omega

end FindLoop

namespace FindCall

variable {f : FindCall}

theorem drawArgument_eq : drawArgument f.proto f.vecToExclude f.checked =
    if (f.nEnabled - f.vecToExclude.length) % 2 ^ 64 = 0 then none
    else some (wrap32 (f.nEnabled - f.vecToExclude.length)) := by
  rw [drawArgument, randRange, wrap32_emod]
  show (if (f.nEnabled - f.vecToExclude.length) % 2 ^ 64 < 1 then none else
    some (wrap32 (f.nEnabled - f.vecToExclude.length))) = _
  have hnonneg : 0 ≤ (f.nEnabled - f.vecToExclude.length) % 2 ^ 64 :=
    Int.emod_nonneg _ (by decide)
  by_cases h : (f.nEnabled - f.vecToExclude.length) % 2 ^ 64 = 0
  · rw [if_pos h, if_pos (by omega)]
  · rw [if_neg h, if_neg (by omega)]

theorem select_eq (r : ℤ) : f.select r =
    if (f.nEnabled - f.vecToExclude.length) % 2 ^ 64 = 0 then none
    else findLoop f.proto f.vecToExclude f.checked 0 r := by
  unfold select findRandomNotInVec
  show (drawArgument f.proto f.vecToExclude f.checked).bind _ = _
  rw [drawArgument_eq]
  split
  · exact Option.bind_none _
  · exact Option.bind_some _ _

theorem select_zero_eq_one : f.select 0 = f.select 1 := by
  rw [select_eq, select_eq, findLoop_zero_eq_one]

theorem nEnabled_lt : f.nEnabled < 2 ^ 31 := by
  rw [nEnabled, countEnabled]
  exact (wrap32_range _).2

/-- With two eligible masternodes the draws `0` and `1` would select the same. -/
theorem SelectsUniformly.rangeFits (h : f.SelectsUniformly) : f.RangeFits := by
  have hlt := f.nEnabled_lt
  by_cases hk : f.nEligible = 0
  · refine .inl ⟨hk, ?_⟩
    by_cases hrange : (f.nEnabled - f.vecToExclude.length) % 2 ^ 64 = 0
    · exact .inl hrange
    · obtain ⟨hpos, heq⟩ := (h.none_eligible hk).2 _ (by rw [drawArgument_eq, if_neg hrange])
      rw [heq] at hpos
      exact .inr (by omega)
  · obtain ⟨nMax, hdraw, hcard, -, hinj⟩ := h.some_eligible (Nat.one_le_iff_ne_zero.2 hk)
    rw [drawArgument_eq] at hdraw
    split at hdraw
    · cases hdraw
    · next hrange =>
      injection hdraw with hdraw
      subst hdraw
      have hone : wrap32 (f.nEnabled - f.vecToExclude.length) = 1 ∨
          wrap32 (f.nEnabled - f.vecToExclude.length) = 0 := by
        by_contra hne
        obtain ⟨h0, h1⟩ := zero_one_mem_randInts (wrap32_range _) hne
        exact absurd (hinj h0 h1 select_zero_eq_one) (by decide)
      rw [randInts_eq_singleton hone, Set.ncard_singleton] at hcard
      exact .inr ⟨hcard.symm, hrange, hone⟩

theorem RangeFits.selectsUniformly (h : f.RangeFits) : f.SelectsUniformly := by
  have hlt := f.nEnabled_lt
  refine ⟨fun hk => ?_, fun hk => ⟨fun r => ?_, fun nMax hdraw => ?_⟩⟩
  · rcases h with ⟨h0, -⟩ | ⟨h1, hrange, hone⟩
    · omega
    · refine ⟨_, by rw [drawArgument_eq, if_neg hrange], ?_⟩
      rw [randInts_eq_singleton hone]
      refine ⟨by rw [Set.ncard_singleton, h1], ?_, Set.injOn_singleton _ _⟩
      rintro r rfl
      obtain ⟨j, mn, hfind, hget, hel⟩ := findLoop_zero f.checked 0 hk
      refine ⟨j, mn, ?_, hget, hel⟩
      rw [select_eq, if_neg hrange, hfind, Nat.zero_add]
  · rw [select_eq]
    split
    · rfl
    · exact findLoop_eq_none _ _ _ hk
  · rw [drawArgument_eq] at hdraw
    split at hdraw
    · cases hdraw
    · next hrange =>
      injection hdraw with hdraw
      subst hdraw
      rcases h with ⟨-, h0 | hgt⟩ | ⟨h1, -⟩
      · exact absurd h0 hrange
      · rw [wrap32_of_range (by omega)]
        omega
      · omega

/-- **The draws select the eligible masternodes one by one if and only if at most one is eligible and
the range fits.** -/
theorem uniformSelection_iff (f : FindCall) : f.SelectsUniformly ↔ f.RangeFits :=
  ⟨SelectsUniformly.rangeFits, RangeFits.selectsUniformly⟩

/-- Two enabled masternodes and nothing to exclude: both draws select the first. -/
theorem last_never_selected : ¬ ∀ f : FindCall, f.SelectsUniformly := by
  intro h
  let ping : CMasternodePing := { blockHash := 7, sigTime := 1000 }
  let mn (n : ℕ) : CMasternode := { vin := { prevout := ⟨1, n⟩ }, lastPing := ping }
  let f : FindCall :=
    { check := { getTime := 1000, getAdjustedTime := 1000, acceptableInputs := fun _ => true }
      minProto := 0
      vMasternodes := [mn 0, mn 1]
      vecToExclude := []
      protocolVersion := 0 }
  have hk : f.nEligible = 2 := by decide
  rcases (h f).rangeFits with ⟨h0, -⟩ | ⟨h1, -⟩
  · rw [hk] at h0
    cases h0
  · rw [hk] at h1
    cases h1

end FindCall

/-! ## Removing what has expired -/

/-- The containers that `CheckAndRemove` prunes: those of the manager in the order of their keys, and
`mapSeenSyncMNB` of the synchronisation. -/
structure MasternodeLists where
  vMasternodes : List CMasternode := []
  mAskedUsForMasternodeList : List (CNetAddr × ℤ) := []
  mWeAskedForMasternodeList : List (CNetAddr × ℤ) := []
  mWeAskedForMasternodeListEntry : List (COutPoint × ℤ) := []
  mapSeenMasternodeBroadcast : List (UInt256 × CMasternode) := []
  mapSeenMasternodePing : List (UInt256 × CMasternodePing) := []
  mapSeenSyncMNB : List (UInt256 × ℤ) := []

/-- `CMasternodeBroadcast::GetHash`, with the hash of a time and a key as a parameter. -/
def CMasternode.getHash (hash : ℤ → List UInt8 → UInt256) (mnb : CMasternode) : UInt256 :=
  hash mnb.sigTime mnb.pubKeyCollateralAddress

/-- `CMasternodeMan`: the broadcasts are kept under their hashes, in order. -/
structure CMasternodeMan (hash : ℤ → List UInt8 → UInt256) extends MasternodeLists where
  sorted : (mapSeenMasternodeBroadcast.map Prod.fst).Pairwise (· < ·)
  keyed : ∀ e ∈ mapSeenMasternodeBroadcast, e.1 = e.2.getHash hash

/-- `map::erase` of a key. -/
def eraseKey {V : Type} (k : UInt256) (m : List (UInt256 × V)) : List (UInt256 × V) :=
  m.filter fun e => e.1 ≠ k

/-- The loop over the broadcasts for a masternode that is removed. -/
def eraseBroadcasts (vin : CTxIn) : List (UInt256 × CMasternode) → List (UInt256 × ℤ) →
    List (UInt256 × CMasternode) × List (UInt256 × ℤ)
  | [], sync => ([], sync)
  | e :: es, sync =>
      if e.2.vin = vin then eraseBroadcasts vin es (eraseKey e.1 sync)
      else
        let r := eraseBroadcasts vin es sync
        (e :: r.1, r.2)

/-- The loop over the broadcasts that expired; `none` when the iterator is read past the end. -/
def expireBroadcasts (hash : ℤ → List UInt8 → UInt256) (cutoff : ℤ) :
    List (UInt256 × CMasternode) → List (UInt256 × ℤ) →
    Option (List (UInt256 × CMasternode) × List (UInt256 × ℤ))
  | [], sync => some ([], sync)
  | e :: es, sync =>
      if e.2.lastPing.sigTime < cutoff then
        -- the iterator moves on before its hash is taken
        match es with
        | [] => none
        | next :: _ => expireBroadcasts hash cutoff es (eraseKey (next.2.getHash hash) sync)
      else (expireBroadcasts hash cutoff es sync).map fun r => (e :: r.1, r.2)

/-- A call of `CheckAndRemove`. -/
structure RemoveCall where
  check : CheckCall
  minProto : ℤ
  forceExpiredRemoval : Bool := false

namespace RemoveCall

variable (c : RemoveCall)

/-- The test of the first loop. -/
def isRemovable (mn : CMasternode) : Bool :=
  mn.activeState = .remove || mn.activeState = .vinSpent ||
    (c.forceExpiredRemoval && mn.activeState = .expired) || decide (mn.protocolVersion < c.minProto)

/-- The time before which pings and broadcasts are forgotten. -/
def cutoff : ℤ := c.check.getTime - masternodeRemovalSeconds * 2

/-- The first loop: the masternodes that stay, and the containers without what belongs to the
others. -/
def removeLoop : List CMasternode → MasternodeLists → List CMasternode × MasternodeLists
  | [], m => ([], m)
  | mn :: mns, m =>
      if c.isRemovable mn then
        let r := eraseBroadcasts mn.vin m.mapSeenMasternodeBroadcast m.mapSeenSyncMNB
        removeLoop mns
          { m with
            mapSeenMasternodeBroadcast := r.1
            mapSeenSyncMNB := r.2
            mWeAskedForMasternodeListEntry :=
              m.mWeAskedForMasternodeListEntry.filter fun e => e.1 ≠ mn.vin.prevout }
      else
        let r := removeLoop mns m
        (mn :: r.1, r.2)

/-- The entries of a map whose time is not over. -/
def unexpired {K : Type} (m : List (K × ℤ)) : List (K × ℤ) :=
  m.filter fun e => !decide (e.2 < c.check.getTime)

/-- `CheckAndRemove`.  `vector::erase` assigns the later masternodes to the slots before them, and the
assignment leaves `lastTimeChecked` with the slot. -/
def checkAndRemove (hash : ℤ → List UInt8 → UInt256) (m : MasternodeLists) :
    Option MasternodeLists :=
  let checked := m.vMasternodes.map (CMasternode.check c.check false)
  let (kept, m) := c.removeLoop checked m
  (expireBroadcasts hash c.cutoff m.mapSeenMasternodeBroadcast m.mapSeenSyncMNB).map fun r =>
    { vMasternodes := List.zipWith
        (fun mn slot => { mn with lastTimeChecked := slot.lastTimeChecked }) kept checked
      mAskedUsForMasternodeList := c.unexpired m.mAskedUsForMasternodeList
      mWeAskedForMasternodeList := c.unexpired m.mWeAskedForMasternodeList
      mWeAskedForMasternodeListEntry := c.unexpired m.mWeAskedForMasternodeListEntry
      mapSeenMasternodeBroadcast := r.1
      mapSeenMasternodePing :=
        m.mapSeenMasternodePing.filter fun e => !decide (e.2.sigTime < c.cutoff)
      mapSeenSyncMNB := r.2 }

/-- The masternodes that are removed. -/
def removed (m : MasternodeLists) : List CMasternode :=
  (m.vMasternodes.map (CMasternode.check c.check false)).filter c.isRemovable

/-- The broadcast is one of a removed masternode. -/
def ofRemoved (m : MasternodeLists) (e : UInt256 × CMasternode) : Bool :=
  (c.removed m).any fun mn => e.2.vin = mn.vin

/-- The last ping of a broadcast is older than twice the removal time. -/
def isExpired (e : UInt256 × CMasternode) : Bool := decide (e.2.lastPing.sigTime < c.cutoff)

/-- A masternode but for the time of its last check. -/
def entryOf (mn : CMasternode) : CMasternode := { mn with lastTimeChecked := 0 }

/-- What has expired is removed, and nothing else. -/
structure RemovesExactly (m m' : MasternodeLists) : Prop where
  vMasternodes : m'.vMasternodes.map entryOf =
    ((m.vMasternodes.map (CMasternode.check c.check false)).filter
      fun mn => !c.isRemovable mn).map entryOf
  askedUs : m'.mAskedUsForMasternodeList =
    m.mAskedUsForMasternodeList.filter fun e => !decide (e.2 < c.check.getTime)
  weAsked : m'.mWeAskedForMasternodeList =
    m.mWeAskedForMasternodeList.filter fun e => !decide (e.2 < c.check.getTime)
  weAskedEntry : m'.mWeAskedForMasternodeListEntry =
    m.mWeAskedForMasternodeListEntry.filter fun e =>
      !((c.removed m).any fun mn => e.1 = mn.vin.prevout) && !decide (e.2 < c.check.getTime)
  broadcasts : m'.mapSeenMasternodeBroadcast =
    m.mapSeenMasternodeBroadcast.filter fun e => !c.ofRemoved m e && !c.isExpired e
  pings : m'.mapSeenMasternodePing =
    m.mapSeenMasternodePing.filter fun e => !decide (e.2.sigTime < c.cutoff)
  sync : m'.mapSeenSyncMNB = m.mapSeenSyncMNB.filter fun s =>
    !m.mapSeenMasternodeBroadcast.any fun e => (c.ofRemoved m e || c.isExpired e) && s.1 = e.1

/-- The broadcasts that the last loop walks over: those of masternodes that stay. -/
def remaining (m : MasternodeLists) : List (UInt256 × CMasternode) :=
  m.mapSeenMasternodeBroadcast.filter fun e => !c.ofRemoved m e

/-- Going through broadcasts in order, none that is expired after a live one or live after an expired
one is in `mapSeenSyncMNB`, and the last one is live. -/
def Undisturbed (sync : List (UInt256 × ℤ)) : Bool → List (UInt256 × CMasternode) → Prop
  | before, [] => before = false
  | before, e :: es =>
      (c.isExpired e ≠ before → ∀ s ∈ sync, s.1 ≠ e.1) ∧ Undisturbed sync (c.isExpired e) es

/-! ### The loops as filters -/

theorem eraseBroadcasts_eq (vin : CTxIn) (es : List (UInt256 × CMasternode))
    (sync : List (UInt256 × ℤ)) : eraseBroadcasts vin es sync =
      (es.filter fun e => !decide (e.2.vin = vin),
        sync.filter fun s => !es.any fun e => decide (e.2.vin = vin) && s.1 = e.1) := by
  induction es generalizing sync with
  | nil => simp [eraseBroadcasts]
  | cons e es ih =>
    rw [eraseBroadcasts]
    by_cases he : e.2.vin = vin
    · rw [if_pos he, ih, eraseKey, List.filter_filter, List.filter_cons_of_neg (by simp [he])]
      refine congrArg _ (List.filter_congr fun s _ => ?_)
      simp [he, Bool.and_comm]
    · rw [if_neg he, ih, List.filter_cons_of_pos (by simp [he])]
      refine congrArg _ (List.filter_congr fun s _ => ?_)
      simp [he]

variable {c}

/-- The first loop keeps the masternodes that are not removable, and the containers lose what belongs
to the others. -/
theorem removeLoop_eq (mns : List CMasternode) (m : MasternodeLists) : c.removeLoop mns m =
    (mns.filter fun mn => !c.isRemovable mn,
      { m with
        mapSeenMasternodeBroadcast := m.mapSeenMasternodeBroadcast.filter fun e =>
          !(mns.filter c.isRemovable).any fun mn => e.2.vin = mn.vin
        mapSeenSyncMNB := m.mapSeenSyncMNB.filter fun s =>
          !m.mapSeenMasternodeBroadcast.any fun e =>
            ((mns.filter c.isRemovable).any fun mn => e.2.vin = mn.vin) && s.1 = e.1
        mWeAskedForMasternodeListEntry := m.mWeAskedForMasternodeListEntry.filter fun e =>
          !(mns.filter c.isRemovable).any fun mn => e.1 = mn.vin.prevout }) := by
  induction mns generalizing m with
  | nil =>
    have hany : (m.mapSeenMasternodeBroadcast.any fun _ => false) = false :=
      List.any_eq_false.2 fun _ _ => Bool.false_ne_true
    simp [removeLoop, hany]
  | cons mn mns ih =>
    rw [removeLoop]
    by_cases hmn : c.isRemovable mn = true
    · rw [if_pos hmn, ih, eraseBroadcasts_eq, List.filter_cons_of_pos hmn,
        List.filter_cons_of_neg (by simp [hmn])]
      simp only [List.filter_filter, Prod.mk.injEq, MasternodeLists.mk.injEq, true_and]
      refine ⟨List.filter_congr fun e _ => ?_, List.filter_congr fun e _ => ?_,
        List.filter_congr fun s _ => ?_⟩
      · simp [Bool.and_comm]
      · simp [Bool.and_comm]
      · rw [Bool.eq_iff_iff]
        simp only [Bool.and_eq_true, Bool.not_eq_true', List.any_eq_false, List.mem_filter,
          List.any_cons, Bool.or_eq_true, decide_eq_true_eq]
        constructor
        · rintro ⟨h₁, h₂⟩ e he ⟨hvin | hvin, hs⟩
          · exact h₂ e he ⟨hvin, hs⟩
          · by_cases hvin' : e.2.vin = mn.vin
            · exact h₂ e he ⟨hvin', hs⟩
            · exact h₁ e ⟨he, by simp [hvin']⟩ ⟨hvin, hs⟩
        · exact fun h => ⟨fun e he hes => h e he.1 ⟨.inr hes.1, hes.2⟩,
            fun e he hes => h e he ⟨.inl hes.1, hes.2⟩⟩
    · rw [if_neg hmn, ih, List.filter_cons_of_neg hmn, List.filter_cons_of_pos (by simp [hmn])]

variable (c)

/-- The last of a list of broadcasts is live, or the one before it if the list is empty. -/
def endsLive : Bool → List (UInt256 × CMasternode) → Bool
  | before, [] => !before
  | _, e :: es => endsLive (c.isExpired e) es

/-- The hashes that the loop over the expired broadcasts erases: those of the broadcasts after them. -/
def nextKeys (hash : ℤ → List UInt8 → UInt256) : Bool → List (UInt256 × CMasternode) → List UInt256
  | _, [] => []
  | before, e :: es =>
      if before then e.2.getHash hash :: nextKeys hash (c.isExpired e) es
      else nextKeys hash (c.isExpired e) es

variable {c}

theorem expireBroadcasts_eq (hash : ℤ → List UInt8 → UInt256) (es : List (UInt256 × CMasternode))
    (sync : List (UInt256 × ℤ)) : expireBroadcasts hash c.cutoff es sync =
      if c.endsLive false es then
        some (es.filter fun e => !c.isExpired e,
          sync.filter fun s => !decide (s.1 ∈ c.nextKeys hash false es))
      else none := by
  induction es generalizing sync with
  | nil => simp [expireBroadcasts, endsLive, nextKeys]
  | cons e es ih =>
    rw [expireBroadcasts.eq_def, endsLive, nextKeys]
    dsimp only
    by_cases he : e.2.lastPing.sigTime < c.cutoff
    · have hexp : c.isExpired e = true := by simpa [isExpired] using he
      rw [if_pos he, hexp, if_neg Bool.false_ne_true]
      cases es with
      | nil => rfl
      | cons next es =>
        have hdrop : (e :: next :: es).filter (fun e => !c.isExpired e) =
            (next :: es).filter fun e => !c.isExpired e :=
          List.filter_cons_of_neg (by simp [hexp])
        dsimp only
        rw [ih, hdrop, nextKeys, nextKeys]
        show (if c.endsLive (c.isExpired next) es = true then _ else none) =
          if c.endsLive (c.isExpired next) es = true then _ else none
        refine if_congr Iff.rfl (congrArg some (Prod.ext rfl ?_)) rfl
        rw [eraseKey, List.filter_filter]
        refine List.filter_congr fun s _ => ?_
        simp [Bool.and_comm]
    · have hexp : c.isExpired e = false := by simpa [isExpired] using he
      rw [if_neg he, hexp, if_neg Bool.false_ne_true, ih, List.filter_cons_of_pos (by simp [hexp])]
      split <;> rfl

theorem mem_nextKeys {hash : ℤ → List UInt8 → UInt256} {es : List (UInt256 × CMasternode)}
    {before : Bool} {k : UInt256} (hkeyed : ∀ e ∈ es, e.1 = e.2.getHash hash)
    (hk : k ∈ c.nextKeys hash before es) : ∃ e ∈ es, k = e.1 := by
  induction es generalizing before with
  | nil => cases hk
  | cons e es ih =>
    have htail : k ∈ c.nextKeys hash (c.isExpired e) es → ∃ e' ∈ e :: es, k = e'.1 := fun hk =>
      let ⟨e', he', h⟩ := ih (fun e' he' => hkeyed e' (by simp [he'])) hk
      ⟨e', List.mem_cons_of_mem e he', h⟩
    rw [nextKeys] at hk
    split at hk
    · rcases List.mem_cons.1 hk with rfl | hk
      · exact ⟨e, by simp, (hkeyed e (by simp)).symm⟩
      · exact htail hk
    · exact htail hk

/-- Nothing is disturbed exactly when the hashes that are erased are those of the expired broadcasts,
as far as they are in `mapSeenSyncMNB`. -/
theorem undisturbed_iff {hash : ℤ → List UInt8 → UInt256} {sync : List (UInt256 × ℤ)} (before : Bool)
    (es : List (UInt256 × CMasternode)) (hnodup : (es.map Prod.fst).Nodup)
    (hkeyed : ∀ e ∈ es, e.1 = e.2.getHash hash) : c.Undisturbed sync before es ↔
      c.endsLive before es = true ∧
        ∀ s ∈ sync, (s.1 ∈ c.nextKeys hash before es ↔ ∃ e ∈ es, c.isExpired e = true ∧ s.1 = e.1) := by
  induction es generalizing before with
  | nil => simp [Undisturbed, endsLive, nextKeys]
  | cons e es ih =>
    rw [List.map_cons, List.nodup_cons] at hnodup
    have hexp : ∀ e' ∈ es, e'.1 ≠ e.1 := fun e' he' =>
      ne_of_mem_of_not_mem (List.mem_map_of_mem he') hnodup.1
    have hnot : ∀ k ∈ c.nextKeys hash (c.isExpired e) es, k ≠ e.1 := by
      intro k hk
      obtain ⟨e', he', rfl⟩ := mem_nextKeys (fun e' he' => hkeyed e' (by simp [he'])) hk
      exact hexp e' he'
    rw [Undisturbed, endsLive, nextKeys, ih _ hnodup.2 fun e' he' => hkeyed e' (by simp [he']),
      ← hkeyed e (by simp)]
    rw [and_left_comm]
    refine and_congr_right fun _ => ?_
    constructor
    · rintro ⟨hne, hrest⟩ s hs
      by_cases hse : s.1 = e.1
      · have hsame : c.isExpired e = before := by
          by_contra h
          exact hne h s hs hse
        rw [hsame, hse]
        have h₁ : e.1 ∉ c.nextKeys hash before es := fun h => hnot e.1 (hsame ▸ h) rfl
        have h₂ : ¬ ∃ e' ∈ es, c.isExpired e' = true ∧ e.1 = e'.1 := fun ⟨e', he', _, h⟩ =>
          hexp e' he' h.symm
        cases before <;> simp_all
      · have := hrest s hs
        cases before <;> simp_all
    · intro h
      refine ⟨fun hne s hs hse => ?_, fun s hs => ?_⟩
      · have := h s hs
        have h₁ : e.1 ∉ c.nextKeys hash (c.isExpired e) es := fun h => hnot e.1 h rfl
        have h₂ : ¬ ∃ e' ∈ es, c.isExpired e' = true ∧ e.1 = e'.1 := fun ⟨e', he', _, h⟩ =>
          hexp e' he' h.symm
        rw [hse] at this
        cases before <;> simp_all
      · have := h s hs
        by_cases hse : s.1 = e.1
        · have h₁ : e.1 ∉ c.nextKeys hash (c.isExpired e) es := fun h => hnot e.1 h rfl
          rw [hse]
          exact iff_of_false h₁ fun ⟨e', he', _, h⟩ => hexp e' he' h.symm
        · cases before <;> simp_all

/-! ### What is removed -/

theorem map_entryOf_zipWith (kept slots : List CMasternode) (h : kept.length ≤ slots.length) :
    (List.zipWith (fun mn slot => { mn with lastTimeChecked := slot.lastTimeChecked }) kept
      slots).map entryOf = kept.map entryOf := by
  induction kept generalizing slots with
  | nil => rfl
  | cons mn kept ih =>
    cases slots with
    | nil => simp at h
    | cons slot slots =>
      rw [List.zipWith_cons_cons, List.map_cons, List.map_cons,
        ih slots (Nat.le_of_succ_le_succ h)]
      rfl

/-- The state after the first loop, whose containers the later loops go through. -/
theorem removeLoop_checked (m : MasternodeLists) :
    c.removeLoop (m.vMasternodes.map (CMasternode.check c.check false)) m =
      ((m.vMasternodes.map (CMasternode.check c.check false)).filter fun mn => !c.isRemovable mn,
        { m with
          mapSeenMasternodeBroadcast := c.remaining m
          mapSeenSyncMNB := m.mapSeenSyncMNB.filter fun s =>
            !m.mapSeenMasternodeBroadcast.any fun e => c.ofRemoved m e && s.1 = e.1
          mWeAskedForMasternodeListEntry := m.mWeAskedForMasternodeListEntry.filter fun e =>
            !(c.removed m).any fun mn => e.1 = mn.vin.prevout }) := removeLoop_eq _ m

/-- But for `mapSeenSyncMNB`, what is left is what the source says should be left. -/
theorem checkAndRemove_spec (hash : ℤ → List UInt8 → UInt256) (m : MasternodeLists) :
    (c.endsLive false (c.remaining m) = false ∧ c.checkAndRemove hash m = none) ∨
    (c.endsLive false (c.remaining m) = true ∧ ∃ m', c.checkAndRemove hash m = some m' ∧
      m'.mapSeenSyncMNB = (m.mapSeenSyncMNB.filter fun s =>
        !m.mapSeenMasternodeBroadcast.any fun e => c.ofRemoved m e && s.1 = e.1).filter
          (fun s => !decide (s.1 ∈ c.nextKeys hash false (c.remaining m))) ∧
      ∀ sync, sync = m'.mapSeenSyncMNB → (c.RemovesExactly m m' ↔
        sync = m.mapSeenSyncMNB.filter fun s =>
          !m.mapSeenMasternodeBroadcast.any fun e =>
            (c.ofRemoved m e || c.isExpired e) && s.1 = e.1)) := by
  rw [checkAndRemove, removeLoop_checked]
  dsimp only
  rw [expireBroadcasts_eq]
  cases hends : c.endsLive false (c.remaining m) with
  | false => exact .inl ⟨rfl, rfl⟩
  | true =>
    refine .inr ⟨rfl, _, rfl, rfl, ?_⟩
    rintro sync rfl
    refine ⟨fun h => h.sync, fun h => ⟨?_, rfl, rfl, ?_, ?_, rfl, h⟩⟩
    · exact map_entryOf_zipWith _ _ (List.length_filter_le _ _)
    · show c.unexpired (List.filter _ _) = _
      rw [unexpired, List.filter_filter]
      exact List.filter_congr fun e _ => Bool.and_comm _ _
    · show (c.remaining m).filter _ = _
      rw [remaining, List.filter_filter]
      exact List.filter_congr fun e _ => Bool.and_comm _ _

theorem nodup_keys {hash : ℤ → List UInt8 → UInt256} (man : CMasternodeMan hash) :
    (man.mapSeenMasternodeBroadcast.map Prod.fst).Nodup :=
  man.sorted.imp fun h => BitVec.ne_of_lt h

/-- The broadcasts of removed masternodes have other hashes than those that remain. -/
theorem ne_of_ofRemoved {hash : ℤ → List UInt8 → UInt256} (man : CMasternodeMan hash)
    {e e' : UInt256 × CMasternode} (he : e ∈ man.mapSeenMasternodeBroadcast)
    (hrem : c.ofRemoved man.toMasternodeLists e = true)
    (he' : e' ∈ c.remaining man.toMasternodeLists) : e.1 ≠ e'.1 := by
  obtain ⟨he'mem, hne⟩ := List.mem_filter.1 he'
  intro heq
  have hsame : e = e' := List.inj_on_of_nodup_map (nodup_keys man) he he'mem heq
  rw [← hsame, hrem] at hne
  cases hne

/-- With the broadcasts under their hashes, what `mapSeenSyncMNB` loses is right exactly when the
hashes that the last loop erases are those of the expired broadcasts. -/
theorem sync_eq_iff {hash : ℤ → List UInt8 → UInt256} (man : CMasternodeMan hash) :
    ((man.mapSeenSyncMNB.filter fun s =>
        !man.mapSeenMasternodeBroadcast.any fun e =>
          c.ofRemoved man.toMasternodeLists e && s.1 = e.1).filter
          fun s => !decide (s.1 ∈ c.nextKeys hash false (c.remaining man.toMasternodeLists))) =
      (man.mapSeenSyncMNB.filter fun s =>
        !man.mapSeenMasternodeBroadcast.any fun e =>
          (c.ofRemoved man.toMasternodeLists e || c.isExpired e) && s.1 = e.1) ↔
      ∀ s ∈ man.mapSeenSyncMNB, (s.1 ∈ c.nextKeys hash false (c.remaining man.toMasternodeLists) ↔
        ∃ e ∈ c.remaining man.toMasternodeLists, c.isExpired e = true ∧ s.1 = e.1) := by
  have hkeyed : ∀ e ∈ c.remaining man.toMasternodeLists, e.1 = e.2.getHash hash := fun e he =>
    man.keyed e (List.mem_filter.1 he).1
  -- the hashes of removed masternodes are erased on both sides
  have hlost : ∀ k, (∃ e ∈ man.mapSeenMasternodeBroadcast,
      (c.ofRemoved man.toMasternodeLists e || c.isExpired e) = true ∧ k = e.1) ↔
      (∃ e ∈ man.mapSeenMasternodeBroadcast, c.ofRemoved man.toMasternodeLists e = true ∧ k = e.1) ∨
      ∃ e ∈ c.remaining man.toMasternodeLists, c.isExpired e = true ∧ k = e.1 := by
    intro k
    constructor
    · rintro ⟨e, he, hor, rfl⟩
      cases hrem : c.ofRemoved man.toMasternodeLists e with
      | true => exact .inl ⟨e, he, hrem, rfl⟩
      | false =>
        rw [hrem, Bool.false_or] at hor
        exact .inr ⟨e, List.mem_filter.2 ⟨he, by rw [hrem]; rfl⟩, hor, rfl⟩
    · rintro (⟨e, he, hrem, rfl⟩ | ⟨e, he, hexp, rfl⟩)
      · exact ⟨e, he, by rw [hrem]; rfl, rfl⟩
      · exact ⟨e, (List.mem_filter.1 he).1, by rw [hexp, Bool.or_true], rfl⟩
  have hdisj : ∀ k, (∃ e ∈ man.mapSeenMasternodeBroadcast,
      c.ofRemoved man.toMasternodeLists e = true ∧ k = e.1) →
      ∀ e ∈ c.remaining man.toMasternodeLists, k ≠ e.1 := by
    rintro k ⟨e, he, hrem, rfl⟩ e' he'
    exact ne_of_ofRemoved man he hrem he'
  rw [List.filter_filter]
  constructor
  · intro heq s hs
    have hiff := congrArg (s ∈ ·) heq
    simp only [List.mem_filter, hs, true_and, Bool.and_eq_true, Bool.not_eq_true',
      decide_eq_false_iff_not, List.any_eq_false, decide_eq_true_eq, eq_iff_iff] at hiff
    by_cases hrem : ∃ e ∈ man.mapSeenMasternodeBroadcast,
        c.ofRemoved man.toMasternodeLists e = true ∧ s.1 = e.1
    · refine iff_of_false (fun hk => ?_) fun ⟨e, he, _, hse⟩ => hdisj _ hrem e he hse
      obtain ⟨e, he, hse⟩ := mem_nextKeys hkeyed hk
      exact hdisj _ hrem e he hse
    · push Not at hrem
      constructor
      · intro hk
        by_contra hno
        refine (hiff.2 fun e he hor => ?_).1 hk
        rcases (hlost s.1).1 ⟨e, he, hor⟩ with ⟨e', he', hrem', hse'⟩ | hex
        · exact hrem e' he' hrem' hse'
        · exact hno hex
      · intro hex
        by_contra hk
        obtain ⟨e, he, hor⟩ := (hlost s.1).2 (.inr hex)
        exact hiff.1 ⟨hk, fun e' he' hre => hrem e' he' hre.1 hre.2⟩ e he hor
  · intro h
    refine List.filter_congr fun s hs => ?_
    rw [Bool.eq_iff_iff]
    simp only [Bool.and_eq_true, Bool.not_eq_true', decide_eq_false_iff_not, List.any_eq_false,
      decide_eq_true_eq]
    rw [h s hs]
    constructor
    · rintro ⟨h₁, h₂⟩ e he hor
      rcases (hlost s.1).1 ⟨e, he, hor⟩ with ⟨e', he', hrem, hse⟩ | hex
      · exact h₂ e' he' ⟨hrem, hse⟩
      · exact h₁ hex
    · intro hall
      refine ⟨fun hex => ?_, fun e he hre => hall e he ⟨by rw [hre.1]; rfl, hre.2⟩⟩
      obtain ⟨e, he, hor⟩ := (hlost s.1).2 (.inr hex)
      exact hall e he hor

/-- **`CheckAndRemove` removes what has expired and nothing else, and reads no iterator past the end,
if and only if** no broadcast that remains beside a change from live to expired or back is in
`mapSeenSyncMNB`, and the last one is live. -/
theorem removesExactly_iff {hash : ℤ → List UInt8 → UInt256} (c : RemoveCall)
    (man : CMasternodeMan hash) :
    (∃ m', c.checkAndRemove hash man.toMasternodeLists = some m' ∧
      c.RemovesExactly man.toMasternodeLists m') ↔
      c.Undisturbed man.mapSeenSyncMNB false (c.remaining man.toMasternodeLists) := by
  rw [@undisturbed_iff c hash man.mapSeenSyncMNB false (c.remaining man.toMasternodeLists)
    ((nodup_keys man).sublist (List.filter_sublist.map _))
    fun e he => man.keyed e (List.mem_filter.1 he).1]
  rcases c.checkAndRemove_spec hash man.toMasternodeLists with
    ⟨hends, hnone⟩ | ⟨hends, m', hsome, hsync, hexact⟩
  · rw [hnone, hends]
    simp
  · rw [hsome, hends, and_iff_right rfl, ← sync_eq_iff man]
    constructor
    · rintro ⟨m'', heq, hrem⟩
      cases heq
      rw [← hsync]
      exact (hexact _ rfl).1 hrem
    · intro heq
      exact ⟨m', rfl, (hexact _ rfl).2 (hsync.trans heq)⟩

/-- An expired broadcast before a live one, both of them in `mapSeenSyncMNB`: the hash of the live one
is erased. -/
theorem wrong_hash_erased :
    ¬ ∀ (hash : ℤ → List UInt8 → UInt256) (c : RemoveCall) (man : CMasternodeMan hash),
      ∃ m', c.checkAndRemove hash man.toMasternodeLists = some m' ∧
        c.RemovesExactly man.toMasternodeLists m' := by
  intro hall
  let hash : ℤ → List UInt8 → UInt256 := fun t _ => BitVec.ofInt 256 t
  let c : RemoveCall :=
    { check := { getTime := 100000, getAdjustedTime := 100000, acceptableInputs := fun _ => true }
      minProto := 0 }
  let mnb (t ping : ℤ) : CMasternode :=
    { vin := { prevout := ⟨1, 0⟩ }, sigTime := t, lastPing := { sigTime := ping } }
  let man : CMasternodeMan hash :=
    { mapSeenMasternodeBroadcast := [(1, mnb 1 0), (2, mnb 2 100000)]
      mapSeenSyncMNB := [(1, 1), (2, 1)]
      sorted := by decide
      keyed := by decide }
  obtain ⟨m', hrun, hexact⟩ := hall hash c man
  have hsync : (c.checkAndRemove hash man.toMasternodeLists).map (·.mapSeenSyncMNB) =
      some [(1, 1)] := by decide
  rw [hrun, Option.map_some, Option.some.injEq, hexact.sync] at hsync
  exact absurd hsync (by decide)

end RemoveCall

end FairCoin
