import FairCoin.MixingSessions
import Mathlib.Data.List.Forall2

/-!
# The signatures of a mixing transaction

What a masternode takes for the signature of an input of its final transaction.

* `signatureValid_of_not_known` — **the check of a signature never fails**: `SignatureValid` looks for
  an input that equals the new one, signature included, and `AddScriptSig` has already turned down
  every signature that an input has.
* `Genuine` — the signature satisfies the script of the output spent, wherever the final transaction
  spends it.
* `HonestSig` — a condition on the items of `dss` messages: one that names an input of the pool and
  brings a new signature is genuine.
* `signatures_genuine` — **in every run of honest signatures** the pool takes genuine ones only, and
  when `SignaturesComplete` holds every input of the final transaction verifies.
* `forged_signature_accepted` — a signature that satisfies no script is taken, and the owner's is
  turned down after it.
-/

namespace FairCoin

namespace Mixing

variable {env : Env} {p : Pool} {spent : COutPoint → CScript}

/-! ## The check of a signature -/

/-- An input of the pool has the signature already. -/
def Known (p : Pool) (v : CTxIn) : Prop := ∃ s ∈ p.inputs, s.scriptSig = v.scriptSig

/-- An input of a list is named, by the output it spends and its sequence number. -/
def Names (v : CTxIn) (l : List CTxIn) : Prop := ∃ i ∈ l, sameInput v i = true

theorem lastIndexOf_eq_none {v : CTxIn} {l : List CTxDSIn} (h : ∀ s ∈ l, s.toCTxIn ≠ v) :
    lastIndexOf v l = none := by
  have hz : ∀ s ∈ l.zipIdx, s.1.toCTxIn ≠ v := fun s hs =>
    h s.1 (List.fst_mem_of_mem_zipIdx hs)
  unfold lastIndexOf
  clear h
  revert hz
  generalize l.zipIdx = z
  intro hz
  induction z with
  | nil => rfl
  | cons s z ih =>
    rw [List.foldl_cons, if_neg (hz s List.mem_cons_self)]
    exact ih fun s hs => hz s (List.mem_cons_of_mem _ hs)

/-- **The check of a signature never fails** once `AddScriptSig` gets to it: no input of the pool
equals the new one, as none has its signature. -/
theorem signatureValid_of_not_known {v : CTxIn} (h : ¬ Known p v) :
    signatureValid env v.scriptSig v p = true := by
  unfold signatureValid
  rw [lastIndexOf_eq_none]
  intro s hs heq
  exact h ⟨s, hs, by rw [← heq]⟩

theorem addScriptSig_of_known {v : CTxIn} (h : Known p v) : addScriptSig env v p = (false, p) := by
  obtain ⟨s, hs, heq⟩ := h
  unfold addScriptSig
  rw [if_pos (List.any_eq_true.2 ⟨s, hs, by simpa using heq⟩)]

/-- The pool with the signature in its final transaction. -/
def Pool.signFinal (v : CTxIn) (p : Pool) : Pool :=
  { p with
    finalTransaction := { p.finalTransaction with
      vin := setScriptSig v p.finalTransaction.vin } }

theorem addScriptSig_of_not_known {v : CTxIn} (h : ¬ Known p v) :
    addScriptSig env v p =
      match addSigEntries v p.entries with
      | some entries => (true, { p.signFinal v with entries := entries })
      | none => (false, p.signFinal v) := by
  have hany : ¬ (p.inputs.any fun s => decide (s.scriptSig = v.scriptSig)) = true := by
    rw [List.any_eq_true]
    rintro ⟨s, hs, heq⟩
    exact h ⟨s, hs, of_decide_eq_true heq⟩
  unfold addScriptSig
  rw [if_neg hany, signatureValid_of_not_known h, if_neg (by simp)]
  rfl

/-! ## The same input -/

theorem sameInput_iff {a b : CTxIn} :
    sameInput a b = true ↔ a.prevout = b.prevout ∧ a.nSequence = b.nSequence :=
  decide_eq_true_iff

theorem sameInput_refl (a : CTxIn) : sameInput a a = true := sameInput_iff.2 ⟨rfl, rfl⟩

theorem sameInput_symm {a b : CTxIn} (h : sameInput a b = true) : sameInput b a = true := by
  rw [sameInput_iff] at h ⊢
  exact ⟨h.1.symm, h.2.symm⟩

theorem sameInput_trans {a b c : CTxIn} (h : sameInput a b = true) (h' : sameInput b c = true) :
    sameInput a c = true := by
  rw [sameInput_iff] at h h' ⊢
  exact ⟨h.1.trans h'.1, h.2.trans h'.2⟩

/-! ## What a signature changes -/

section Forall₂

variable {α β : Type} {R : α → β → Prop} {l : List α} {l' : List β}

theorem exists_right_of_forall₂ (h : List.Forall₂ R l l') {a : α} (ha : a ∈ l) :
    ∃ b ∈ l', R a b := by
  induction h with
  | nil => exact absurd ha List.not_mem_nil
  | cons hab _ ih =>
    rcases List.mem_cons.1 ha with rfl | ha
    · exact ⟨_, List.mem_cons_self, hab⟩
    · obtain ⟨b, hb, hR⟩ := ih ha
      exact ⟨b, List.mem_cons_of_mem _ hb, hR⟩

theorem exists_left_of_forall₂ (h : List.Forall₂ R l l') {b : β} (hb : b ∈ l') :
    ∃ a ∈ l, R a b :=
  exists_right_of_forall₂ h.flip hb

end Forall₂


/-- An input of an entry before and after: the same, or it has taken the signature. -/
def Resigned (v : CTxIn) (s s' : CTxDSIn) : Prop :=
  sameInput s.toCTxIn s'.toCTxIn = true ∧ (s' = s ∨ sameInput v s'.toCTxIn = true)

theorem Resigned.refl (v : CTxIn) (s : CTxDSIn) : Resigned v s s := ⟨sameInput_refl _, .inl rfl⟩

theorem addSigLoop_resigned {v : CTxIn} {sev sev' : List CTxDSIn}
    (h : addSigLoop v sev = some sev') : List.Forall₂ (Resigned v) sev sev' := by
  induction sev generalizing sev' with
  | nil => cases h
  | cons s sev ih =>
    unfold addSigLoop at h
    split at h
    · next hs =>
      split at h
      · cases h
      · cases h
        refine .cons ⟨sameInput_iff.2 ⟨rfl, rfl⟩, .inr ?_⟩
          (List.forall₂_same.2 fun s _ => Resigned.refl v s)
        rw [sameInput_iff] at hs ⊢
        exact ⟨hs.1.symm, hs.2.symm⟩
    · obtain ⟨sev₁, h₁, rfl⟩ := Option.map_eq_some_iff.1 h
      exact .cons (Resigned.refl v s) (ih h₁)

theorem addSigEntries_resigned {v : CTxIn} {entries entries' : List CObfuscationEntry}
    (h : addSigEntries v entries = some entries') :
    List.Forall₂ (fun e e' => List.Forall₂ (Resigned v) e.sev e'.sev) entries entries' := by
  have hrefl : ∀ sev, List.Forall₂ (Resigned v) sev sev := fun sev =>
    List.forall₂_same.2 fun s _ => Resigned.refl v s
  induction entries generalizing entries' with
  | nil => exact absurd h nofun
  | cons e entries ih =>
    unfold addSigEntries at h
    split at h
    · next e' he =>
      cases h
      obtain ⟨sev, hsev, rfl⟩ := Option.map_eq_some_iff.1 he
      exact .cons (addSigLoop_resigned hsev) (List.forall₂_same.2 fun e _ => hrefl e.sev)
    · obtain ⟨entries₁, h₁, rfl⟩ := Option.map_eq_some_iff.1 h
      exact .cons (hrefl e.sev) (ih h₁)

/-- The inputs of the pool, one by one. -/
theorem inputs_resigned {v : CTxIn} {entries' : List CObfuscationEntry}
    (h : addSigEntries v p.entries = some entries') :
    List.Forall₂ (Resigned v) p.inputs ({ p with entries := entries' } : Pool).inputs :=
  List.rel_flatMap (addSigEntries_resigned h) fun _ _ he => he

theorem addSigLoop_eq_none {v : CTxIn} {sev : List CTxDSIn}
    (h : ∀ s ∈ sev, sameInput s.toCTxIn v = false) : addSigLoop v sev = none := by
  induction sev with
  | nil => rfl
  | cons s sev ih =>
    unfold addSigLoop
    rw [h s List.mem_cons_self, if_neg (by simp),
      ih fun s hs => h s (List.mem_cons_of_mem _ hs)]
    rfl

theorem addSigEntries_eq_none {v : CTxIn} {entries : List CObfuscationEntry}
    (h : ∀ e ∈ entries, ∀ s ∈ e.sev, sameInput s.toCTxIn v = false) :
    addSigEntries v entries = none := by
  induction entries with
  | nil => rfl
  | cons e entries ih =>
    have he : e.addSig v = none := by
      unfold CObfuscationEntry.addSig
      rw [addSigLoop_eq_none (h e List.mem_cons_self)]
      rfl
    unfold addSigEntries
    rw [he, ih fun e he => h e (List.mem_cons_of_mem _ he)]
    rfl

theorem setScriptSig_eq_self {v : CTxIn} {vin : List CTxIn} (h : ¬ Names v vin) :
    setScriptSig v vin = vin := by
  unfold setScriptSig
  conv_rhs => rw [← List.map_id vin]
  refine List.map_congr_left fun i hi => ?_
  rw [if_neg fun hsame => h ⟨i, hi, hsame⟩]
  rfl

/-- An item that names no input changes nothing. -/
theorem addScriptSig_of_not_names {v : CTxIn} (hfinal : ¬ Names v p.finalTransaction.vin)
    (hinputs : ¬ Names v (p.inputs.map CTxDSIn.toCTxIn)) : (addScriptSig env v p).2 = p := by
  by_cases hknown : Known p v
  · rw [addScriptSig_of_known hknown]
  · have hnone : addSigEntries v p.entries = none := by
      refine addSigEntries_eq_none fun e he s hs => ?_
      rw [← Bool.not_eq_true]
      intro hsame
      have hmem : s ∈ p.inputs := List.mem_flatMap.2 ⟨e, he, hs⟩
      exact hinputs ⟨s.toCTxIn, List.mem_map_of_mem hmem, sameInput_symm hsame⟩
    rw [addScriptSig_of_not_known hknown, hnone]
    unfold Pool.signFinal
    rw [setScriptSig_eq_self hfinal]

/-! ## Genuine signatures -/

/-- The signature satisfies the script of the output spent, for the input of a transaction at a
place. -/
def Satisfies (env : Env) (spent : COutPoint → CScript) (tx : CMutableTransaction) (n : ℕ)
    (i : CTxIn) : Prop :=
  (verifyScript (env.checker tx n) signatureFlags i.scriptSig (spent i.prevout)).2.toBool = true

/-- The item names an input of the final transaction, and its signature satisfies the script of the
output spent, wherever that input stands. -/
def Genuine (env : Env) (spent : COutPoint → CScript) (p : Pool) (v : CTxIn) : Prop :=
  Names v p.finalTransaction.vin ∧
    ∀ n i, p.finalTransaction.vin[n]? = some i → sameInput v i = true →
      Satisfies env spent p.finalTransaction n v

/-- **An honest item**: it repeats a signature, or names no input of the pool, or is genuine. -/
def HonestSig (env : Env) (spent : COutPoint → CScript) (p : Pool) (v : CTxIn) : Prop :=
  Known p v ∨
    (¬ Names v p.finalTransaction.vin ∧ ¬ Names v (p.inputs.map CTxDSIn.toCTxIn)) ∨
    Genuine env spent p v

/-- The items of a `dss` are honest, one after the other. -/
def Honest (env : Env) (spent : COutPoint → CScript) (p : Pool) : Action → Prop
  | .dss m => activeProtocol ≤ m.nVersion →
      Run.AlongFold (fun p v => (addScriptSig env v p).2) (HonestSig env spent) p m.sigs
  | _ => True

/-- An input without its signature. -/
def unsigned (i : CTxIn) : CTxIn := { i with scriptSig := [] }

/-- The signature checker does not read the signatures of the transaction: the hash it checks is
made with the scripts of the other inputs left out and that of its own replaced. -/
def Blind (env : Env) : Prop :=
  ∀ (tx : CMutableTransaction) (vin : List CTxIn) (n : ℕ),
    vin.map unsigned = tx.vin.map unsigned → env.checker { tx with vin := vin } n = env.checker tx n

theorem unsigned_setScriptSig (v : CTxIn) (vin : List CTxIn) :
    (setScriptSig v vin).map unsigned = vin.map unsigned := by
  unfold setScriptSig
  rw [List.map_map]
  refine List.map_congr_left fun i _ => ?_
  show unsigned (if _ then _ else _) = _
  split <;> rfl

/-! ## The invariant -/

/-- What an honest run keeps: before there is a final transaction no input has a signature; every
input of the final transaction comes from an entry; and where an entry has a signature, the inputs
of the final transaction satisfy their scripts. -/
structure SigInv (env : Env) (spent : COutPoint → CScript) (p : Pool) : Prop where
  nonneg : 0 ≤ p.sessionUsers
  users : 1 ≤ p.sessionUsers ∨ (p.entries = [] ∧ p.finalTransaction.vin = [])
  notFinalize : p.state ≠ .finalizeTransaction
  full : p.state = .signing ∨ p.state = .transmission →
    getMaxPoolTransactions env.network ≤ p.entries.length
  early : ¬ (p.state = .signing ∨ p.state = .transmission) →
    p.finalTransaction.vin = [] ∧ ∀ s ∈ p.inputs, s.fHasSig = false
  link : ∀ i ∈ p.finalTransaction.vin, ∃ s ∈ p.inputs, sameInput s.toCTxIn i = true
  valid : ∀ s ∈ p.inputs, s.fHasSig = true → ∀ n i, p.finalTransaction.vin[n]? = some i →
    sameInput s.toCTxIn i = true → Satisfies env spent p.finalTransaction n i

theorem sigInv_setNull (nowMillis : ℤ) : SigInv env spent (Pool.setNull nowMillis) where
  nonneg := Int.le_refl 0
  users := .inr ⟨rfl, rfl⟩
  notFinalize := nofun
  full h := by rcases h with h | h <;> exact absurd h nofun
  early _ := ⟨rfl, fun s hs => absurd hs List.not_mem_nil⟩
  link i hi := absurd hi List.not_mem_nil
  valid s hs := absurd hs List.not_mem_nil

/-- A genuine signature in the final transaction. -/
theorem SigInv.signFinal (h : SigInv env spent p) (hblind : Blind env) {v : CTxIn}
    (hv : Genuine env spent p v) :
    ∀ n i, (p.signFinal v).finalTransaction.vin[n]? = some i →
      (sameInput v i = true ∨ ∃ s ∈ p.inputs, s.fHasSig = true ∧ sameInput s.toCTxIn i = true) →
        Satisfies env spent (p.signFinal v).finalTransaction n i := by
  intro n i hi hsame
  have hchecker : env.checker (p.signFinal v).finalTransaction n =
      env.checker p.finalTransaction n := hblind _ _ n (unsigned_setScriptSig v _)
  have hi : (setScriptSig v p.finalTransaction.vin)[n]? = some i := hi
  unfold setScriptSig at hi
  rw [List.getElem?_map] at hi
  obtain ⟨i₀, hi₀, rfl⟩ := Option.map_eq_some_iff.1 hi
  unfold Satisfies
  rw [hchecker]
  by_cases hvi : sameInput v i₀ = true
  · rw [if_pos hvi]
    have := hv.2 n i₀ hi₀ hvi
    unfold Satisfies at this
    rwa [(sameInput_iff.1 hvi).1] at this
  · rw [if_neg hvi] at hsame ⊢
    rcases hsame with hsame | ⟨s, hs, hsig, hsame⟩
    · exact absurd hsame hvi
    · exact h.valid s hs hsig n i₀ hi₀ hsame

theorem mem_signFinal {v i : CTxIn} (hi : i ∈ (p.signFinal v).finalTransaction.vin) :
    ∃ i₀ ∈ p.finalTransaction.vin, sameInput i₀ i = true := by
  obtain ⟨i₀, hi₀, rfl⟩ := List.mem_map.1 hi
  refine ⟨i₀, hi₀, ?_⟩
  split
  · exact sameInput_iff.2 ⟨rfl, rfl⟩
  · exact sameInput_refl _

/-- **A genuine signature keeps the invariant.** -/
theorem SigInv.addScriptSig (h : SigInv env spent p) (hblind : Blind env) {v : CTxIn}
    (hv : Genuine env spent p v) : SigInv env spent (addScriptSig env v p).2 := by
  by_cases hknown : Known p v
  · rw [addScriptSig_of_known hknown]
    exact h
  · have hstate : p.state = .signing ∨ p.state = .transmission := by
      by_contra hearly
      obtain ⟨i, hi, -⟩ := hv.1
      rw [(h.early hearly).1] at hi
      exact absurd hi List.not_mem_nil
    have husers : 1 ≤ p.sessionUsers := by
      rcases h.users with husers | ⟨-, hnil⟩
      · exact husers
      · obtain ⟨i, hi, -⟩ := hv.1
        rw [hnil] at hi
        exact absurd hi List.not_mem_nil
    have hfinal := h.signFinal hblind hv
    rw [addScriptSig_of_not_known hknown]
    split
    · next entries hentries =>
      have hinputs := inputs_resigned (p := p) hentries
      have hlength := (addSigEntries_resigned hentries).length_eq
      exact
        { nonneg := h.nonneg
          users := .inl husers
          notFinalize := h.notFinalize
          full := fun hs => by
            show _ ≤ ((entries.length : ℕ) : ℤ)
            rw [← hlength]
            exact h.full hs
          early := fun hearly => absurd hstate hearly
          link := fun i hi => by
            obtain ⟨i₀, hi₀, hsame⟩ := mem_signFinal hi
            obtain ⟨s, hs, hs₀⟩ := h.link i₀ hi₀
            obtain ⟨s', hs', hres⟩ := exists_right_of_forall₂ hinputs hs
            exact ⟨s', hs', sameInput_trans (sameInput_symm hres.1) (sameInput_trans hs₀ hsame)⟩
          valid := fun s' hs' hsig n i hi hsame => by
            obtain ⟨s, hs, hres⟩ := exists_left_of_forall₂ hinputs hs'
            refine hfinal n i hi ?_
            rcases hres.2 with heq | hnew
            · rw [heq] at hsig hsame
              exact .inr ⟨s, hs, hsig, hsame⟩
            · exact .inl (sameInput_trans hnew hsame) }
    · exact
        { nonneg := h.nonneg
          users := .inl husers
          notFinalize := h.notFinalize
          full := h.full
          early := fun hearly => absurd hstate hearly
          link := fun i hi => by
            obtain ⟨i₀, hi₀, hsame⟩ := mem_signFinal hi
            obtain ⟨s, hs, hs₀⟩ := h.link i₀ hi₀
            exact ⟨s, hs, sameInput_trans hs₀ hsame⟩
          valid := fun s hs hsig n i hi hsame => hfinal n i hi (.inr ⟨s, hs, hsig, hsame⟩) }

theorem SigInv.honestSig (h : SigInv env spent p) (hblind : Blind env) {v : CTxIn}
    (hv : HonestSig env spent p v) : SigInv env spent (Mixing.addScriptSig env v p).2 := by
  rcases hv with hknown | ⟨hfinal, hinputs⟩ | hgenuine
  · rw [addScriptSig_of_known hknown]
    exact h
  · rw [addScriptSig_of_not_names hfinal hinputs]
    exact h
  · exact h.addScriptSig hblind hgenuine

theorem addScriptSigs_snd (sigs : List CTxIn) (p : Pool) :
    (addScriptSigs env sigs p).2 = sigs.foldl (fun p v => (addScriptSig env v p).2) p := by
  unfold addScriptSigs
  generalize false = success
  induction sigs generalizing p success with
  | nil => rfl
  | cons v sigs ih => exact ih _ _

/-! ## The other operations -/

theorem updateState_eq (newState : PoolStatus) (nowMillis : ℤ)
    (hnew : ¬ (newState = .error ∨ newState = .success)) :
    p.updateState newState nowMillis =
      { p with
        lastTimeChanged := if p.state ≠ newState then nowMillis else p.lastTimeChanged
        state := newState } := by
  unfold Pool.updateState
  rw [if_neg hnew]

/-- The state changes before there is a final transaction. -/
theorem SigInv.updateEarly (h : SigInv env spent p) {newState : PoolStatus} {nowMillis : ℤ}
    (hold : ¬ (p.state = .signing ∨ p.state = .transmission))
    (hnew : newState = .queue ∨ newState = .acceptingEntries) :
    SigInv env spent (p.updateState newState nowMillis) := by
  have hsigning : ¬ (newState = .signing ∨ newState = .transmission) := by
    rcases hnew with rfl | rfl <;> simp
  rw [updateState_eq newState nowMillis (by rcases hnew with rfl | rfl <;> simp)]
  exact { h with
    notFinalize := by rcases hnew with rfl | rfl <;> exact nofun
    full := fun hs => absurd hs hsigning
    early := fun _ => h.early hold }

/-- **The final transaction is made**: no input has a signature yet. -/
theorem SigInv.finalize (h : SigInv env spent p) (view : CheckView)
    (hstate : p.state = .acceptingEntries)
    (hfull : getMaxPoolTransactions env.network ≤ p.entries.length) :
    SigInv env spent (finalize view ((p.updateState .finalizeTransaction view.nowMillis).updateState
      .signing view.nowMillis)) := by
  have hearly := h.early (by rw [hstate]; simp)
  have hmax : (0 : ℤ) < getMaxPoolTransactions env.network := by
    cases env.network <;> decide
  rw [updateState_eq .signing _ (by simp),
    updateState_eq .finalizeTransaction _ (by simp)]
  exact
    { nonneg := h.nonneg
      users := by
        refine .inl (h.users.resolve_right fun hempty => ?_)
        rw [hempty.1] at hfull
        exact absurd hfull (Int.not_le.2 hmax)
      notFinalize := nofun
      full := fun _ => hfull
      early := fun hearly => absurd (.inl rfl) hearly
      link := fun i hi => by
        have hmem : i ∈ p.inputs.map CTxDSIn.toCTxIn := (view.shuffleIn.perm _).mem_iff.1 hi
        obtain ⟨s, hs, rfl⟩ := List.mem_map.1 hmem
        exact ⟨s, hs, sameInput_refl _⟩
      valid := fun s hs hsig => by
        rw [hearly.2 s hs] at hsig
        exact absurd hsig nofun }

theorem SigInv.check (h : SigInv env spent p) (view : CheckView) :
    SigInv env spent (check env view p) := by
  unfold Mixing.check
  extract_lets p₁ p₂ p₃
  have h₂ : SigInv env spent p₂ := by
    simp only [p₂, p₁]
    by_cases hfull : p.state = .acceptingEntries ∧
        getMaxPoolTransactions env.network ≤ p.entries.length
    · rw [if_pos hfull, if_pos (by rw [updateState_eq .finalizeTransaction _ (by simp)])]
      exact h.finalize view hfull.1 hfull.2
    · rw [if_neg hfull, if_neg h.notFinalize]
      exact h
  have h₃ : SigInv env spent p₃ := by
    simp only [p₃]
    split
    · next hcomplete =>
      unfold checkFinalTransaction
      split
      · exact (sigInv_setNull _).updateEarly (by exact nofun) (.inr rfl)
      · split
        · rw [updateState_eq .transmission _ (by simp)]
          exact { h₂ with
            notFinalize := nofun
            full := fun _ => h₂.full (.inl hcomplete.1)
            early := fun hearly => absurd (.inr rfl) hearly }
        · exact sigInv_setNull _
    · exact h₂
  split
  · exact sigInv_setNull _
  · exact h₃

/-- Entries go before there is a final transaction. -/
theorem SigInv.filter (h : SigInv env spent p) (keep : CObfuscationEntry → Bool)
    (hstate : ¬ (p.state = .signing ∨ p.state = .transmission)) :
    SigInv env spent { p with entries := p.entries.filter keep } := by
  have hearly := h.early hstate
  have hmem : ∀ s ∈ ({ p with entries := p.entries.filter keep } : Pool).inputs,
      s ∈ p.inputs := by
    intro s hs
    obtain ⟨e, he, hse⟩ := List.mem_flatMap.1 hs
    exact List.mem_flatMap.2 ⟨e, List.mem_of_mem_filter he, hse⟩
  exact
    { nonneg := h.nonneg
      users := by
        rcases h.users with husers | ⟨hentries, hfinal⟩
        · exact .inl husers
        · refine .inr ⟨?_, hfinal⟩
          show p.entries.filter keep = []
          rw [hentries]
          rfl
      notFinalize := h.notFinalize
      full := fun hs => absurd hs hstate
      early := fun _ => ⟨hearly.1, fun s hs => hearly.2 s (hmem s hs)⟩
      link := fun i hi => by
        have hi : i ∈ p.finalTransaction.vin := hi
        rw [hearly.1] at hi
        exact absurd hi List.not_mem_nil
      valid := fun s hs => h.valid s (hmem s hs) }

theorem SigInv.checkTimeout (h : SigInv env spent p) (now nowMillis : ℤ) :
    SigInv env spent (checkTimeout now nowMillis p) := by
  unfold Mixing.checkTimeout
  extract_lets entries p₁ p₂
  have h₂ : SigInv env spent p₂ := by
    simp only [p₂]
    split
    · next hstate =>
      have hearly : ¬ (p.state = .signing ∨ p.state = .transmission) := by
        rcases hstate with hstate | hstate <;> rw [hstate] <;> simp
      have h₁ : SigInv env spent p₁ := by
        simp only [p₁]
        split
        · exact sigInv_setNull _
        · exact h.filter _ hearly
      split
      · exact sigInv_setNull _
      · exact h₁
    · split
      · exact sigInv_setNull _
      · exact h
  split
  · exact sigInv_setNull _
  · exact h₂

theorem SigInv.isCompatibleWithSession (h : SigInv env spent p) (view : ChainView)
    (nowMillis nRand nDenom : ℤ) (txCollateral : CTransaction) :
    SigInv env spent
      (isCompatibleWithSession env view nowMillis nRand nDenom txCollateral p).2 := by
  unfold Mixing.isCompatibleWithSession
  split
  · exact h
  · split
    · exact h
    · rw [if_neg (Int.not_lt.2 h.nonneg)]
      dsimp only
      split
      · next hzero =>
        -- a session starts with an empty pool
        obtain ⟨hentries, hfinal⟩ := h.users.resolve_left (by omega)
        have hinputs : p.inputs = [] := by
          unfold Pool.inputs
          rw [hentries]
          rfl
        rw [updateState_eq .queue _ (by simp)]
        exact
          { nonneg := by
              show 0 ≤ p.sessionUsers + 1
              omega
            users := .inl (by show 1 ≤ p.sessionUsers + 1; omega)
            notFinalize := nofun
            full := fun hs => by rcases hs with hs | hs <;> exact absurd hs nofun
            early := fun _ => ⟨hfinal, fun s hs => by
              have hs : s ∈ p.inputs := hs
              rw [hinputs] at hs
              exact absurd hs List.not_mem_nil⟩
            link := h.link
            valid := h.valid }
      · split
        · exact h
        · split
          · exact h
          · have := h.nonneg
            exact { h with
              nonneg := by
                show 0 ≤ p.sessionUsers + 1
                omega
              users := .inl (by show 1 ≤ p.sessionUsers + 1; omega) }

theorem SigInv.processDsa (h : SigInv env spent p) (m : Dsa) :
    SigInv env spent (processDsa env m p).2 := by
  unfold Mixing.processDsa
  split
  · exact h
  · split
    · exact h
    · split
      · exact h
      · exact h.isCompatibleWithSession _ _ _ _ _

/-- A rejection leaves a user, as the session is complete. -/
theorem SigInv.lessUser (h : SigInv env spent p)
    (hready : getMaxPoolTransactions env.network ≤ p.sessionUsers) :
    SigInv env spent { p with sessionUsers := p.sessionUsers - 1 } := by
  have hmax : 2 ≤ getMaxPoolTransactions env.network := by
    cases env.network <;> decide
  exact { h with
    nonneg := by
      show 0 ≤ p.sessionUsers - 1
      omega
    users := .inl (by show 1 ≤ p.sessionUsers - 1; omega) }

/-- An entry is added only before there is a final transaction: afterwards the pool is full. -/
theorem SigInv.addEntry (h : SigInv env spent p) (view : ChainView) (now : ℤ)
    (newInput : List CTxIn) (nAmount : ℤ) (txCollateral : CTransaction) (newOutput : List CTxOut)
    (hready : getMaxPoolTransactions env.network ≤ p.sessionUsers) :
    SigInv env spent (addEntry env view now newInput nAmount txCollateral newOutput p).2 := by
  have hmax : 2 ≤ getMaxPoolTransactions env.network := by
    cases env.network <;> decide
  have hless := h.lessUser hready
  unfold Mixing.addEntry
  split
  · exact hless
  · split
    · exact hless
    · split
      · exact hless
      · next hroom =>
        split
        · exact hless
        · have hstate : ¬ (p.state = .signing ∨ p.state = .transmission) := fun hs =>
            hroom (h.full hs)
          have hearly := h.early hstate
          exact
            { nonneg := h.nonneg
              users := .inl (by show 1 ≤ p.sessionUsers; omega)
              notFinalize := h.notFinalize
              full := fun hs => absurd hs hstate
              early := fun _ => ⟨hearly.1, fun s hs => by
                obtain ⟨e, he, hse⟩ := List.mem_flatMap.1 hs
                rcases List.mem_append.1 he with he | he
                · exact hearly.2 s (List.mem_flatMap.2 ⟨e, he, hse⟩)
                · rw [List.mem_singleton.1 he] at hse
                  obtain ⟨i, -, rfl⟩ := List.mem_map.1 hse
                  rfl⟩
              link := fun i hi => by
                have hi : i ∈ p.finalTransaction.vin := hi
                rw [hearly.1] at hi
                exact absurd hi List.not_mem_nil
              valid := fun s _ _ n i hi => by
                have hi : p.finalTransaction.vin[n]? = some i := hi
                rw [hearly.1] at hi
                exact absurd hi nofun }

theorem SigInv.processDsi (h : SigInv env spent p) (m : Dsi) :
    SigInv env spent (processDsi env m p).2 := by
  unfold Mixing.processDsi
  split
  · exact h
  · next hnone =>
    have hready : getMaxPoolTransactions env.network ≤ p.sessionUsers := by
      unfold checkDsi at hnone
      split at hnone
      · exact absurd hnone nofun
      · split at hnone
        · exact absurd hnone nofun
        · next hready => simpa [isSessionReady] using hready
    have hadded := h.addEntry m.view m.now m.vin m.nAmount m.txCollateral m.vout hready
    extract_lets r
    split
    · exact hadded.check m.check
    · exact hadded

theorem SigInv.processDss (h : SigInv env spent p) (hblind : Blind env) {m : Dss}
    (hm : Honest env spent p (.dss m)) : SigInv env spent (processDss env m p) := by
  unfold Mixing.processDss
  split
  · exact h
  · next hversion =>
    have hsigs : SigInv env spent (addScriptSigs env m.sigs p).2 := by
      rw [addScriptSigs_snd]
      exact Run.foldl_invariant (fun _ _ h hv => h.honestSig hblind hv) h
        (hm (Int.not_lt.1 hversion))
    extract_lets r
    split
    · exact hsigs.check m.check
    · exact hsigs

theorem SigInv.step (h : SigInv env spent p) (hblind : Blind env) {a : Action}
    (ha : Honest env spent p a) : SigInv env spent (step env p a) := by
  cases a with
  | dsa m => exact h.processDsa m
  | dsi m => exact h.processDsi m
  | dss m => exact h.processDss hblind ha
  | checkTimeout now nowMillis => exact h.checkTimeout now nowMillis
  | checkForCompleteQueue nowMillis =>
    show SigInv env spent (checkForCompleteQueue env nowMillis p)
    unfold checkForCompleteQueue
    split
    · next hqueue => exact h.updateEarly (by rw [hqueue.1]; simp) (.inr rfl)
    · exact h
  | reset nowMillis => exact sigInv_setNull nowMillis

/-- **Honest signatures.**  In every state of a run in which every item of a `dss` is honest, when
`SignaturesComplete` holds every input of the final transaction satisfies the script of the output
it spends; and an honest item that changes anything is genuine, so that a peer without the
signature of an input neither takes its place nor replaces what is there. -/
theorem signatures_genuine (hblind : Blind env) {nowMillis : ℤ} {as : List Action}
    (hhonest : Run.AlongFold (step env) (Honest env spent) (Pool.setNull nowMillis) as)
    (hrun : as.foldl (step env) (Pool.setNull nowMillis) = p) :
    (signaturesComplete p = true → ∀ n i, p.finalTransaction.vin[n]? = some i →
      Satisfies env spent p.finalTransaction n i) ∧
    ∀ v, HonestSig env spent p v → (addScriptSig env v p).2 ≠ p → Genuine env spent p v := by
  have h : SigInv env spent p := by
    rw [← hrun]
    exact Run.foldl_invariant (fun _ _ h ha => h.step hblind ha) (sigInv_setNull nowMillis) hhonest
  constructor
  · intro hcomplete n i hi
    obtain ⟨s, hs, hsame⟩ := h.link i (List.mem_of_getElem? hi)
    exact h.valid s hs (List.all_eq_true.1 hcomplete s hs) n i hi hsame
  · intro v hv hchanged
    rcases hv with hknown | ⟨hfinal, hinputs⟩ | hgenuine
    · exact absurd (by rw [addScriptSig_of_known hknown]) hchanged
    · exact absurd (addScriptSig_of_not_names hfinal hinputs) hchanged
    · exact hgenuine

/-! ## Two users sign -/

/-- Two users have joined and submitted: the pool waits for signatures. -/
def toSign : List Action :=
  twoUsers ++ [.dsi (dsiOf { prevout := ⟨20, 0⟩ } (collateralOf 1)),
    .dsi (dsiOf { prevout := ⟨21, 0⟩ } (collateralOf 2))]

/-- A signature for the first output of a transaction. -/
def signatureOf (hash : UInt256) (scriptSig : CScript) : CTxIn :=
  { prevout := ⟨hash, 0⟩, scriptSig := scriptSig }

/-- The two users sign; the masternode cannot announce the transaction. -/
def bothSign : Action :=
  .dss
    { nVersion := 71000
      sigs := [signatureOf 20 [0x01, 0x07], signatureOf 21 [0x01, 0x08]]
      check := { nowMillis := 0, canSign := false } }

/-- The outputs spent ask for nothing. -/
def openScript (_ : COutPoint) : CScript := [0x51]

theorem satisfies_open (tx : CMutableTransaction) (n : ℕ) (hash : UInt256) (b : UInt8)
    (hb : b = 0x07 ∨ b = 0x08) :
    Satisfies testEnv openScript tx n (signatureOf hash [0x01, b]) := by
  rcases hb with rfl | rfl <;> rfl

theorem signatures_genuine_bothSign :
    let p := poolAfter (toSign ++ [bothSign])
    (p.state = .transmission ∧ signaturesComplete p = true) ∧
      (signaturesComplete p = true → ∀ n i, p.finalTransaction.vin[n]? = some i →
        Satisfies testEnv openScript p.finalTransaction n i) ∧
      ∀ v, HonestSig testEnv openScript p v → (addScriptSig testEnv v p).2 ≠ p →
        Genuine testEnv openScript p v := by
  refine ⟨by decide, signatures_genuine (fun _ _ _ _ => rfl) ?_ rfl⟩
  refine ⟨trivial, trivial, trivial, trivial, trivial, fun _ => ⟨.inr (.inr ⟨?_, ?_⟩),
    .inr (.inr ⟨?_, ?_⟩), trivial⟩, trivial⟩
  · exact ⟨signatureOf 20 [], by decide⟩
  · exact fun n _ _ _ => satisfies_open _ n 20 0x07 (.inl rfl)
  · exact ⟨signatureOf 21 [], by decide⟩
  · exact fun n _ _ _ => satisfies_open _ n 21 0x08 (.inr rfl)

/-- `OP_RETURN` as a signature satisfies no script. -/
theorem not_satisfies_return (tx : CMutableTransaction) (n : ℕ) (hash : UInt256) :
    ¬ Satisfies env spent tx n (signatureOf hash [0x6a]) := by
  unfold Satisfies
  rw [show (verifyScript (env.checker tx n) signatureFlags (signatureOf hash [0x6a]).scriptSig
    (spent (signatureOf hash [0x6a]).prevout)).2 = .error .opReturn from rfl]
  exact nofun

/-- **A forged signature is accepted**, and the owner's is turned down after it: the pool waits for
signatures, the forged one satisfies no script, and afterwards no signature of that input is
taken. -/
theorem forged_signature_accepted :
    let p := poolAfter toSign
    let r := addScriptSig testEnv (signatureOf 20 [0x6a]) p
    p.state = .signing ∧
      (∀ spent tx n, ¬ Satisfies testEnv spent tx n (signatureOf 20 [0x6a])) ∧ r.1 = true ∧
      r.2.inputs.map CTxDSIn.fHasSig = [true, false] ∧
      r.2.finalTransaction.vin.map CTxIn.scriptSig = [[0x6a], []] ∧
      (addScriptSig testEnv (signatureOf 20 [0x01, 0x07]) r.2).1 = false := by
  refine ⟨by decide, fun spent tx n => not_satisfies_return tx n 20, ?_⟩
  decide

end Mixing

end FairCoin
