import FairCoin.Mixing

/-!
# The books of a mixing session

How many users a session has, whom it has admitted, and what its entries bring.

* `Bookkept` — the books are in order: `sessionUsers` counts the collaterals of the session, every
  entry brings one of them, and no two entries bring the same collateral or the same input.
* `Orderly` — a condition on the `dsi` messages: one that gets as far as `AddEntry` is acceptable
  there, its collateral is one of the session that no entry has brought, and no entry spends one of
  its inputs.
* `sessions_bookkept` — **the books of every run of orderly messages are in order**, and a `dsi` that
  is rejected leaves them alone.
* `rejection_takes_user` — a `dsi` that `AddEntry` rejects takes a user off the books.
* `sessionUsers_range` — `sessionUsers` stays between zero and `GetMaxPoolTransactions()` in any run.
-/

namespace FairCoin

namespace Mixing

variable {env : Env} {p q : Pool}

/-! ## The books -/

/-- What an entry brings: its collateral, and the outputs its inputs spend. -/
def CObfuscationEntry.brings (e : CObfuscationEntry) : UInt256 × List COutPoint :=
  (e.collateral.hash, e.sev.map fun s => s.prevout)

/-- The books are in order. -/
structure Bookkept (env : Env) (p : Pool) : Prop where
  nonneg : 0 ≤ p.sessionUsers
  le_max : p.sessionUsers ≤ getMaxPoolTransactions env.network
  admitted : p.sessionUsers = p.vecSessionCollateral.length
  collateral : ∀ e ∈ p.entries, ∃ tx ∈ p.vecSessionCollateral, tx.hash = e.collateral.hash
  ownCollateral : p.entries.Pairwise fun e e' => e.collateral.hash ≠ e'.collateral.hash
  ownInputs : p.entries.Pairwise fun e e' =>
    ∀ s ∈ e.sev, ∀ s' ∈ e'.sev, s.prevout ≠ s'.prevout

/-- What the books show. -/
structure SameBooks (p q : Pool) : Prop where
  sessionUsers : q.sessionUsers = p.sessionUsers
  vecSessionCollateral : q.vecSessionCollateral = p.vecSessionCollateral
  sessionDenom : q.sessionDenom = p.sessionDenom
  brings : q.entries.map CObfuscationEntry.brings = p.entries.map CObfuscationEntry.brings

/-- The pool is empty. -/
structure Emptied (q : Pool) : Prop where
  sessionUsers : q.sessionUsers = 0
  vecSessionCollateral : q.vecSessionCollateral = []
  entries : q.entries = []

theorem two_le_max (network : Network) : 2 ≤ getMaxPoolTransactions network := by
  cases network <;> decide

theorem SameBooks.refl (p : Pool) : SameBooks p p := ⟨rfl, rfl, rfl, rfl⟩

theorem SameBooks.trans {r : Pool} (h : SameBooks p q) (h' : SameBooks q r) : SameBooks p r where
  sessionUsers := h'.sessionUsers.trans h.sessionUsers
  vecSessionCollateral := h'.vecSessionCollateral.trans h.vecSessionCollateral
  sessionDenom := h'.sessionDenom.trans h.sessionDenom
  brings := h'.brings.trans h.brings

theorem pairwise_brings {l : List CObfuscationEntry}
    {R : UInt256 × List COutPoint → UInt256 × List COutPoint → Prop} :
    (l.map CObfuscationEntry.brings).Pairwise R ↔ l.Pairwise fun e e' => R e.brings e'.brings :=
  List.pairwise_map

/-- The inputs of two entries, by the outputs they spend. -/
theorem disjoint_iff_brings (e e' : CObfuscationEntry) :
    (∀ s ∈ e.sev, ∀ s' ∈ e'.sev, s.prevout ≠ s'.prevout) ↔ e.brings.2.Disjoint e'.brings.2 := by
  unfold CObfuscationEntry.brings List.Disjoint
  constructor
  · intro h o ho ho'
    obtain ⟨s, hs, rfl⟩ := List.mem_map.1 ho
    obtain ⟨s', hs', heq⟩ := List.mem_map.1 ho'
    exact h s hs s' hs' heq.symm
  · intro h s hs s' hs' heq
    exact h (List.mem_map_of_mem hs) (heq ▸ List.mem_map_of_mem hs')

/-- Books that show the same are in order alike. -/
theorem Bookkept.same (h : Bookkept env p) (hs : SameBooks p q) : Bookkept env q where
  nonneg := hs.sessionUsers ▸ h.nonneg
  le_max := hs.sessionUsers ▸ h.le_max
  admitted := by
    rw [hs.sessionUsers, hs.vecSessionCollateral]
    exact h.admitted
  collateral e he := by
    have hmem : e.brings ∈ p.entries.map CObfuscationEntry.brings :=
      hs.brings ▸ List.mem_map_of_mem he
    obtain ⟨e', he', heq⟩ := List.mem_map.1 hmem
    obtain ⟨tx, htx, hhash⟩ := h.collateral e' he'
    refine ⟨tx, hs.vecSessionCollateral ▸ htx, ?_⟩
    rw [hhash]
    exact congrArg Prod.fst heq
  ownCollateral := by
    have hown := (pairwise_brings (R := fun b b' => b.1 ≠ b'.1)).2 h.ownCollateral
    rw [← hs.brings] at hown
    exact pairwise_brings.1 hown
  ownInputs := by
    have hown := h.ownInputs
    simp only [disjoint_iff_brings] at hown ⊢
    have hown := (pairwise_brings (R := fun b b' => b.2.Disjoint b'.2)).2 hown
    rw [← hs.brings] at hown
    exact pairwise_brings.1 hown

theorem Emptied.bookkept (h : Emptied q) : Bookkept env q where
  nonneg := h.sessionUsers ▸ Int.le_refl 0
  le_max := by
    rw [h.sessionUsers]
    have := two_le_max env.network
    omega
  admitted := by
    rw [h.sessionUsers, h.vecSessionCollateral]
    rfl
  collateral e he := by
    rw [h.entries] at he
    exact absurd he List.not_mem_nil
  ownCollateral := by
    rw [h.entries]
    exact List.Pairwise.nil
  ownInputs := by
    rw [h.entries]
    exact List.Pairwise.nil

theorem emptied_setNull (nowMillis : ℤ) : Emptied (Pool.setNull nowMillis) := ⟨rfl, rfl, rfl⟩

/-! ## What keeps the books -/

theorem updateState_sameBooks (newState : PoolStatus) (nowMillis : ℤ) :
    SameBooks p (p.updateState newState nowMillis) := by
  unfold Pool.updateState
  split
  · exact SameBooks.refl p
  · exact ⟨rfl, rfl, rfl, rfl⟩

theorem Emptied.updateState (h : Emptied p) (newState : PoolStatus) (nowMillis : ℤ) :
    Emptied (p.updateState newState nowMillis) := by
  have hs := updateState_sameBooks (p := p) newState nowMillis
  refine ⟨hs.sessionUsers.trans h.sessionUsers,
    hs.vecSessionCollateral.trans h.vecSessionCollateral, ?_⟩
  have := hs.brings
  rw [h.entries] at this
  exact List.map_eq_nil_iff.1 this

theorem finalize_sameBooks (view : CheckView) : SameBooks p (finalize view p) :=
  ⟨rfl, rfl, rfl, rfl⟩

theorem checkFinalTransaction_books (view : CheckView) :
    SameBooks p (checkFinalTransaction view p) ∨ Emptied (checkFinalTransaction view p) := by
  unfold checkFinalTransaction
  split
  · exact .inr ((emptied_setNull _).updateState _ _)
  · split
    · exact .inl (SameBooks.refl p)
    · exact .inr (emptied_setNull _)

/-- `Check` leaves the books alone, or the session is over. -/
theorem check_books (env : Env) (view : CheckView) (p : Pool) :
    SameBooks p (check env view p) ∨ Emptied (check env view p) := by
  unfold check
  extract_lets p₁ p₂ p₃
  have h₁ : SameBooks p p₁ := by
    simp only [p₁]
    split
    · exact updateState_sameBooks _ _
    · exact SameBooks.refl p
  have h₂ : SameBooks p p₂ := by
    simp only [p₂]
    split
    · exact (h₁.trans (updateState_sameBooks _ _)).trans (finalize_sameBooks view)
    · exact h₁
  have h₃ : SameBooks p p₃ ∨ Emptied p₃ := by
    simp only [p₃]
    split
    · rcases checkFinalTransaction_books
        (p := p₂.updateState .transmission view.nowMillis) view with h | h
      · exact .inl ((h₂.trans (updateState_sameBooks _ _)).trans h)
      · exact .inr h
    · exact .inl h₂
  split
  · exact .inr (emptied_setNull _)
  · exact h₃

theorem addSigLoop_prevouts {vin : CTxIn} {sev sev' : List CTxDSIn}
    (h : addSigLoop vin sev = some sev') :
    sev'.map (fun s => s.prevout) = sev.map fun s => s.prevout := by
  induction sev generalizing sev' with
  | nil => exact absurd h nofun
  | cons s sev ih =>
    unfold addSigLoop at h
    split at h
    · split at h
      · exact absurd h nofun
      · cases h
        rfl
    · obtain ⟨sev₁, h₁, rfl⟩ := Option.map_eq_some_iff.1 h
      rw [List.map_cons, List.map_cons, ih h₁]

theorem addSig_brings {vin : CTxIn} {e e' : CObfuscationEntry} (h : e.addSig vin = some e') :
    e'.brings = e.brings := by
  obtain ⟨sev, hsev, rfl⟩ := Option.map_eq_some_iff.1 h
  exact Prod.ext rfl (addSigLoop_prevouts hsev)

theorem addSigEntries_brings {vin : CTxIn} {entries entries' : List CObfuscationEntry}
    (h : addSigEntries vin entries = some entries') :
    entries'.map CObfuscationEntry.brings = entries.map CObfuscationEntry.brings := by
  induction entries generalizing entries' with
  | nil => exact absurd h nofun
  | cons e entries ih =>
    unfold addSigEntries at h
    split at h
    · next e' he =>
      cases h
      rw [List.map_cons, List.map_cons, addSig_brings he]
    · obtain ⟨entries₁, h₁, rfl⟩ := Option.map_eq_some_iff.1 h
      rw [List.map_cons, List.map_cons, ih h₁]

theorem addScriptSig_sameBooks (newVin : CTxIn) : SameBooks p (addScriptSig env newVin p).2 := by
  unfold addScriptSig
  split
  · exact SameBooks.refl p
  · split
    · exact SameBooks.refl p
    · extract_lets p₁
      split
      · next entries hentries => exact ⟨rfl, rfl, rfl, addSigEntries_brings hentries⟩
      · exact ⟨rfl, rfl, rfl, rfl⟩

theorem addScriptSigs_sameBooks (sigs : List CTxIn) :
    SameBooks p (addScriptSigs env sigs p).2 := by
  unfold addScriptSigs
  generalize false = success
  induction sigs generalizing p success with
  | nil => exact SameBooks.refl p
  | cons item sigs ih => exact (addScriptSig_sameBooks item).trans (ih _)

theorem processDss_books (m : Dss) :
    SameBooks p (processDss env m p) ∨ Emptied (processDss env m p) := by
  unfold processDss
  split
  · exact .inl (SameBooks.refl p)
  · extract_lets r
    have hr : SameBooks p r.2 := addScriptSigs_sameBooks m.sigs
    split
    · rcases check_books env m.check r.2 with h | h
      · exact .inl (hr.trans h)
      · exact .inr h
    · exact .inl hr

theorem checkForCompleteQueue_sameBooks (nowMillis : ℤ) :
    SameBooks p (checkForCompleteQueue env nowMillis p) := by
  unfold checkForCompleteQueue
  split
  · exact updateState_sameBooks _ _
  · exact SameBooks.refl p

/-! ## Everything but submission

A property of the books is kept by admissions, timers and signatures as soon as it is kept by the
few changes these make. -/

/-- What all of them do to the books. -/
structure Kept (env : Env) (I : Pool → Prop) : Prop where
  nonneg : ∀ p, I p → 0 ≤ p.sessionUsers
  same : ∀ p q, I p → SameBooks p q → I q
  empty : ∀ q, Emptied q → I q
  filter : ∀ p keep, I p → I { p with entries := p.entries.filter keep }
  seat : ∀ p q txCollateral, I p → p.sessionUsers < getMaxPoolTransactions env.network →
    q.sessionUsers = p.sessionUsers + 1 →
    q.vecSessionCollateral = p.vecSessionCollateral ++ [txCollateral] → q.entries = p.entries → I q

namespace Kept

variable {I : Pool → Prop}

theorem checkTimeout (k : Kept env I) (h : I p) (now nowMillis : ℤ) :
    I (checkTimeout now nowMillis p) := by
  unfold Mixing.checkTimeout
  extract_lets entries p₁ p₂
  have hempty : I (Pool.setNull nowMillis) := k.empty _ (emptied_setNull nowMillis)
  have h₁ : I p₁ := by
    simp only [p₁]
    split
    · exact hempty
    · exact k.filter p _ h
  have h₂ : I p₂ := by
    simp only [p₂]
    split
    · split
      · exact hempty
      · exact h₁
    · split
      · exact hempty
      · exact h
  split
  · exact hempty
  · exact h₂

theorem isCompatibleWithSession (k : Kept env I) (h : I p) (view : ChainView)
    (nowMillis nRand nDenom : ℤ) (txCollateral : CTransaction) :
    I (isCompatibleWithSession env view nowMillis nRand nDenom txCollateral p).2 := by
  unfold Mixing.isCompatibleWithSession
  split
  · exact h
  · split
    · exact h
    · rw [if_neg (Int.not_lt.2 (k.nonneg p h))]
      have hmax := two_le_max env.network
      dsimp only
      split
      · next hzero =>
        refine k.seat p _ txCollateral h (by omega) ?_ ?_ ?_
        · exact (updateState_sameBooks _ _).sessionUsers
        · show _ ++ _ = _ ++ _
          rw [(updateState_sameBooks _ _).vecSessionCollateral]
        · rfl
      · split
        · exact h
        · next hroom =>
          split
          · exact h
          · exact k.seat p _ txCollateral h (by omega) rfl rfl rfl

theorem processDsa (k : Kept env I) (h : I p) (m : Dsa) : I (processDsa env m p).2 := by
  unfold Mixing.processDsa
  split
  · exact h
  · split
    · exact h
    · split
      · exact h
      · exact k.isCompatibleWithSession h _ _ _ _ _

theorem step (k : Kept env I) (h : I p) {a : Action}
    (hdsi : ∀ m, a = .dsi m → I (processDsi env m p).2) : I (step env p a) := by
  cases a with
  | dsa m => exact k.processDsa h m
  | dsi m => exact hdsi m rfl
  | dss m =>
    rcases processDss_books m with hs | he
    · exact k.same p _ h hs
    · exact k.empty _ he
  | checkTimeout now nowMillis => exact k.checkTimeout h now nowMillis
  | checkForCompleteQueue nowMillis => exact k.same p _ h (checkForCompleteQueue_sameBooks nowMillis)
  | reset nowMillis => exact k.empty _ (emptied_setNull nowMillis)

end Kept

/-- Entries that go take nothing else with them. -/
theorem Bookkept.filter (h : Bookkept env p) (keep : CObfuscationEntry → Bool) :
    Bookkept env { p with entries := p.entries.filter keep } where
  nonneg := h.nonneg
  le_max := h.le_max
  admitted := h.admitted
  collateral e he := h.collateral e (List.mem_of_mem_filter he)
  ownCollateral := h.ownCollateral.sublist List.filter_sublist
  ownInputs := h.ownInputs.sublist List.filter_sublist

/-- A user more, and a collateral more. -/
theorem Bookkept.seat (h : Bookkept env p) (txCollateral : CTransaction)
    (hroom : p.sessionUsers < getMaxPoolTransactions env.network)
    (husers : q.sessionUsers = p.sessionUsers + 1)
    (hvec : q.vecSessionCollateral = p.vecSessionCollateral ++ [txCollateral])
    (hentries : q.entries = p.entries) : Bookkept env q where
  nonneg := by
    rw [husers]
    have := h.nonneg
    omega
  le_max := by
    rw [husers]
    omega
  admitted := by
    rw [husers, hvec, h.admitted, List.length_append, List.length_singleton]
    rfl
  collateral e he := by
    rw [hentries] at he
    obtain ⟨tx, htx, hhash⟩ := h.collateral e he
    exact ⟨tx, by rw [hvec]; exact List.mem_append_left _ htx, hhash⟩
  ownCollateral := hentries ▸ h.ownCollateral
  ownInputs := hentries ▸ h.ownInputs

theorem kept_bookkept (env : Env) : Kept env (Bookkept env) where
  nonneg _ h := h.nonneg
  same _ _ h hs := h.same hs
  empty _ he := he.bookkept
  filter _ keep h := h.filter keep
  seat _ _ txCollateral h hroom husers hvec hentries :=
    h.seat txCollateral hroom husers hvec hentries

/-! ## Submission -/

/-- **An orderly submission.**  `AddEntry` has no objection to it, its collateral is one of the
session that no entry has brought, and no entry spends one of its inputs. -/
structure Dsi.Orderly (env : Env) (p : Pool) (m : Dsi) : Prop where
  inputs : ∀ i ∈ m.vin, i.prevout.isNull = false ∧ 0 ≤ m.nAmount
  valid : isCollateralValid m.view m.txCollateral = true
  room : p.entries.length < getMaxPoolTransactions env.network
  admitted : ∃ tx ∈ p.vecSessionCollateral, tx.hash = m.txCollateral.hash
  unused : ∀ e ∈ p.entries, e.collateral.hash ≠ m.txCollateral.hash
  unspent : ∀ e ∈ p.entries, ∀ s ∈ e.sev, ∀ i ∈ m.vin, s.prevout ≠ i.prevout

/-- A `dsi` that gets as far as `AddEntry` is orderly. -/
def Orderly (env : Env) (p : Pool) : Action → Prop
  | .dsi m => checkDsi env m p = none → m.Orderly env p
  | _ => True

instance (env : Env) (p : Pool) (m : Dsi) : Decidable (m.Orderly env p) :=
  decidable_of_iff ((∀ i ∈ m.vin, i.prevout.isNull = false ∧ 0 ≤ m.nAmount) ∧
      isCollateralValid m.view m.txCollateral = true ∧
      p.entries.length < getMaxPoolTransactions env.network ∧
      (∃ tx ∈ p.vecSessionCollateral, tx.hash = m.txCollateral.hash) ∧
      (∀ e ∈ p.entries, e.collateral.hash ≠ m.txCollateral.hash) ∧
      ∀ e ∈ p.entries, ∀ s ∈ e.sev, ∀ i ∈ m.vin, s.prevout ≠ i.prevout)
    ⟨fun ⟨h₁, h₂, h₃, h₄, h₅, h₆⟩ => ⟨h₁, h₂, h₃, h₄, h₅, h₆⟩,
      fun h => ⟨h.inputs, h.valid, h.room, h.admitted, h.unused, h.unspent⟩⟩

instance (env : Env) (p : Pool) : (a : Action) → Decidable (Orderly env p a)
  | .dsi m => inferInstanceAs (Decidable (checkDsi env m p = none → m.Orderly env p))
  | .dsa _ | .dss _ | .checkTimeout _ _ | .checkForCompleteQueue _ | .reset _ => .isTrue trivial

/-- The entry of a submission. -/
def Dsi.entry (m : Dsi) : CObfuscationEntry where
  sev := m.vin.map fun i => { toCTxIn := i }
  vout := m.vout
  amount := m.nAmount
  collateral := m.txCollateral
  addedTime := m.now

/-- `AddEntry` accepts an orderly submission. -/
theorem Dsi.Orderly.addEntry {m : Dsi} (h : m.Orderly env p) :
    addEntry env m.view m.now m.vin m.nAmount m.txCollateral m.vout p =
      (.accepted, { p with entries := p.entries ++ [m.entry] }) := by
  have hinputs : ¬ (m.vin.any fun i => i.prevout.isNull || decide (m.nAmount < 0)) = true := by
    rw [List.any_eq_true]
    rintro ⟨i, hi, hbad⟩
    obtain ⟨hnull, hamount⟩ := h.inputs i hi
    rw [hnull, Bool.false_or, decide_eq_true_eq] at hbad
    omega
  have hfresh : ¬ (m.vin.any fun i => p.entries.any fun v => v.sev.any fun s =>
      decide (s.toCTxIn = i)) = true := by
    rw [List.any_eq_true]
    rintro ⟨i, hi, hbad⟩
    obtain ⟨e, he, hbad⟩ := List.any_eq_true.1 hbad
    obtain ⟨s, hs, hbad⟩ := List.any_eq_true.1 hbad
    exact h.unspent e he s hs i hi (congrArg CTxIn.prevout (of_decide_eq_true hbad))
  unfold Mixing.addEntry
  rw [if_neg hinputs, h.valid, if_neg (by simp), if_neg (Int.not_le.2 h.room), if_neg hfresh]
  rfl

theorem Bookkept.addEntry (h : Bookkept env p) {m : Dsi} (hm : m.Orderly env p) :
    Bookkept env { p with entries := p.entries ++ [m.entry] } where
  nonneg := h.nonneg
  le_max := h.le_max
  admitted := h.admitted
  collateral e he := by
    rcases List.mem_append.1 he with he | he
    · exact h.collateral e he
    · rw [List.mem_singleton.1 he]
      exact hm.admitted
  ownCollateral := by
    refine List.pairwise_append.2 ⟨h.ownCollateral, List.pairwise_singleton _ _, ?_⟩
    intro e he e' he'
    rw [List.mem_singleton.1 he']
    exact hm.unused e he
  ownInputs := by
    refine List.pairwise_append.2 ⟨h.ownInputs, List.pairwise_singleton _ _, ?_⟩
    intro e he e' he' s hs s' hs'
    rw [List.mem_singleton.1 he'] at hs'
    obtain ⟨i, hi, rfl⟩ := List.mem_map.1 hs'
    exact hm.unspent e he s hs i hi

/-- An orderly `dsi` is rejected before `AddEntry`, or accepted. -/
theorem processDsi_cases {m : Dsi} (hm : checkDsi env m p = none → m.Orderly env p) :
    (∃ errorID, processDsi env m p = (.rejected (some errorID), p)) ∨
      (m.Orderly env p ∧ processDsi env m p =
        (.accepted, check env m.check { p with entries := p.entries ++ [m.entry] })) := by
  unfold processDsi
  split
  · next errorID _ => exact .inl ⟨errorID, rfl⟩
  · next hnone =>
    refine .inr ⟨hm hnone, ?_⟩
    rw [(hm hnone).addEntry]

theorem Bookkept.processDsi (h : Bookkept env p) {m : Dsi}
    (hm : checkDsi env m p = none → m.Orderly env p) : Bookkept env (processDsi env m p).2 := by
  rcases processDsi_cases hm with ⟨errorID, heq⟩ | ⟨horderly, heq⟩
  · rw [heq]
    exact h
  · rw [heq]
    have hadded := h.addEntry horderly
    rcases check_books env m.check { p with entries := p.entries ++ [m.entry] } with hs | he
    · exact hadded.same hs
    · exact he.bookkept

/-! ## Runs -/

/-- **Every orderly step keeps the books in order.** -/
theorem Bookkept.step (h : Bookkept env p) {a : Action} (ha : Orderly env p a) :
    Bookkept env (step env p a) := by
  refine (kept_bookkept env).step h fun m hm => ?_
  rw [hm] at ha
  exact h.processDsi ha

/-- **The books of every run of orderly messages are in order**: `sessionUsers` lies between zero
and the size of a session and counts its collaterals, every entry brings one of them, no two entries
bring the same collateral or the same input; and an orderly `dsi` that is rejected changes nothing. -/
theorem sessions_bookkept {nowMillis : ℤ} {as : List Action}
    (horderly : Run.AlongFold (step env) (Orderly env) (Pool.setNull nowMillis) as)
    (hrun : as.foldl (step env) (Pool.setNull nowMillis) = p) :
    Bookkept env p ∧ ∀ m, Orderly env p (.dsi m) → ∀ errorID,
      (processDsi env m p).1 = .rejected errorID → (processDsi env m p).2 = p := by
  constructor
  · rw [← hrun]
    exact Run.foldl_invariant (fun _ _ h ha => h.step ha) (emptied_setNull nowMillis).bookkept
      horderly
  · intro m hm errorID hrejected
    rcases processDsi_cases hm with ⟨_, heq⟩ | ⟨-, heq⟩
    · rw [heq]
    · rw [heq] at hrejected
      exact absurd hrejected nofun

/-! ## Two users -/

/-- A payment to a public key hash. -/
def paymentScript : CScript := [0x76, 0xa9, 0x14] ++ List.replicate 20 0 ++ [0x88, 0xac]

/-- The test network; the fees are compared exactly. -/
def testEnv : Env where
  network := .testnet
  feesTooHigh nValueIn nValueOut := decide (100 * (nValueIn - nValueOut) > nValueIn)
  checker _ _ :=
    { checkSig := fun _ _ _ => false, ripemd160 := id, sha1 := id, sha256 := id }

/-- The outputs of transaction ten are worth twenty coins, those of the others a denomination. -/
def testView : ChainView where
  getTransaction hash :=
    let nValue := if hash = 10 then 20 * coin else 10000100
    some
      { hash := hash
        vin := []
        vout := [{ nValue := nValue, scriptPubKey := paymentScript }] }
  acceptableInputs _ _ := true

/-- A collateral that pays enough of a fee. -/
def collateralOf (hash : UInt256) : CTransaction where
  hash := hash
  vin := [{ prevout := { hash := 10, n := 0 } }]
  vout := [{ nValue := coin, scriptPubKey := paymentScript }]

/-- A peer asks to join. -/
def dsaOf (collateral : UInt256) : Action :=
  .dsa
    { nVersion := 71000
      nDenom := 32
      txCollateral := collateralOf collateral
      pmn := some 0
      nDsqCount := 0
      countEnabled := 0
      nRand := 0
      nowMillis := 0
      view := testView }

/-- A peer submits one input. -/
def dsiOf (vin : CTxIn) (txCollateral : CTransaction) : Dsi where
  nVersion := 71000
  vin := [vin]
  nAmount := 10000100
  txCollateral := txCollateral
  vout := [{ nValue := 10000100, scriptPubKey := paymentScript }]
  now := 0
  view := testView
  check := { nowMillis := 0 }

/-- Two users are admitted. -/
def twoUsers : List Action := [dsaOf 1, dsaOf 2, .checkForCompleteQueue 0]

/-- The pool after a list of actions. -/
def poolAfter (as : List Action) : Pool := as.foldl (step testEnv) (Pool.setNull 0)

theorem sessions_bookkept_twoUsers :
    let p := poolAfter (twoUsers ++ [.dsi (dsiOf { prevout := ⟨20, 0⟩ } (collateralOf 1))])
    p.entries.length = 1 ∧ Bookkept testEnv p ∧
      ∀ m, Orderly testEnv p (.dsi m) → ∀ errorID,
        (processDsi testEnv m p).1 = .rejected errorID → (processDsi testEnv m p).2 = p :=
  ⟨by decide, sessions_bookkept (by decide) rfl⟩

/-- **A rejection takes a user off the books**: the collateral of the `dsi` has no outputs, and
`sessionUsers` no longer counts the admitted users.  A peer that was never admitted can submit, and
two entries can spend the same output when their `nSequence` differs. -/
theorem rejection_takes_user :
    (let p := poolAfter twoUsers
     let r := processDsi testEnv
       (dsiOf { prevout := ⟨20, 0⟩ } { hash := 3, vin := [], vout := [] }) p
     r.1 = .rejected (some .invalidCollateral) ∧ p.sessionUsers = 2 ∧ r.2.sessionUsers = 1 ∧
       r.2.vecSessionCollateral.length = 2) ∧
    (let p := poolAfter (twoUsers ++
       [.dsi (dsiOf { prevout := ⟨20, 0⟩ } (collateralOf 3)),
        .dsi (dsiOf { prevout := ⟨20, 0⟩, nSequence := 0 } (collateralOf 3))])
     p.vecSessionCollateral.map CTransaction.hash = [1, 2] ∧
       p.entries.map CObfuscationEntry.brings = [(3, [⟨20, 0⟩]), (3, [⟨20, 0⟩])]) := by
  decide

/-! ## The range of the counter -/

/-- The counter is in its range. -/
def InRange (env : Env) (p : Pool) : Prop :=
  0 ≤ p.sessionUsers ∧ p.sessionUsers ≤ getMaxPoolTransactions env.network

theorem InRange.same (h : InRange env p) (hs : SameBooks p q) : InRange env q := by
  unfold InRange
  rw [hs.sessionUsers]
  exact h

theorem Emptied.inRange (h : Emptied q) : InRange env q := by
  have hbooks : Bookkept env q := h.bookkept
  exact ⟨hbooks.nonneg, hbooks.le_max⟩

theorem kept_inRange (env : Env) : Kept env (InRange env) where
  nonneg _ h := h.1
  same _ _ h hs := h.same hs
  empty _ he := he.inRange
  filter _ _ h := h
  seat p q _ h hroom husers _ _ := by
    unfold InRange at h ⊢
    omega

/-- `AddEntry` is reached when the session is complete only, so that a rejection leaves a user. -/
theorem InRange.processDsi (h : InRange env p) (m : Dsi) : InRange env (processDsi env m p).2 := by
  have hmax := two_le_max env.network
  unfold Mixing.processDsi
  split
  · exact h
  · next hnone =>
    have hready : getMaxPoolTransactions env.network ≤ p.sessionUsers := by
      unfold checkDsi at hnone
      split at hnone
      · exact absurd hnone nofun
      · split at hnone
        · exact absurd hnone nofun
        · next hready => simpa [isSessionReady] using hready
    have hless : InRange env { p with sessionUsers := p.sessionUsers - 1 } := by
      have := h.2
      constructor
      · show 0 ≤ p.sessionUsers - 1
        omega
      · show p.sessionUsers - 1 ≤ _
        omega
    extract_lets r
    have hr : InRange env r.2 := by
      simp only [r, Mixing.addEntry]
      split
      · exact hless
      · split
        · exact hless
        · split
          · exact hless
          · split
            · exact hless
            · exact h
    split
    · rcases check_books env m.check r.2 with hs | he
      · exact hr.same hs
      · exact he.inRange
    · exact hr

/-- **The counter stays in its range** in any run, orderly or not. -/
theorem sessionUsers_range (nowMillis : ℤ) (as : List Action) :
    InRange env (as.foldl (step env) (Pool.setNull nowMillis)) := by
  refine Run.foldl_invariant (I := InRange env) (C := fun _ _ => True) ?_
    (emptied_setNull nowMillis).inRange (Run.alongFold_of_forall fun _ _ => trivial)
  intro p a h _
  exact (kept_inRange env).step h fun m _ => h.processDsi m

end Mixing

end FairCoin
