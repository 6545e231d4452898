import FairCoin.CoinSelection

/-!
# Obfuscation rounds

`CWallet::GetRealInputObfuscationRounds` of `src/wallet.cpp`: how many rounds of mixing an output
has behind it.  The function is recursive, stops at a depth of 16, and keeps what it has worked out
in a static map.

* `getRealInputObfuscationRounds` — with the map as a state that is passed on.
* `reference` — the same without the map and without the limit.
* `getRealInputObfuscationRounds_spec` — a call that does not come to the limit returns the
  reference, and writes nothing but the reference into the map.
* `rounds_of_withinLimits` — **over a run of queries none of which comes to the limit, the answers
  do not depend on the queries before.**

At the limit the function answers 15 without having looked, and one call further up 16 is written
into the map, where a later query finds it.
-/

namespace FairCoin

open Store

/-! ## The wallet -/

/-- `IsCollateralAmount`. -/
def isCollateralAmount (nInputAmount : ℤ) : Bool :=
  nInputAmount ≠ 0 && nInputAmount.tmod (10 * coin) = 0 && nInputAmount < 10 * coin * 5 &&
    10 * coin < nInputAmount

/-- What the rounds are worked out from: the transactions of the wallet, and which outputs are the
wallet's.  `generation` numbers the transactions so that none spends from a later one; every
constructor of an output sets `nRounds` to -10. -/
structure RoundsWallet where
  mapWallet : Map UInt256 CTransaction
  isMineOut : CTxOut → Bool
  initial : ∀ hash wtx, mapWallet.lookup hash = some wtx → ∀ out ∈ wtx.vout, out.nRounds = -10
  generation : UInt256 → ℕ
  older : ∀ hash wtx, mapWallet.lookup hash = some wtx → ∀ txin ∈ wtx.vin,
    txin.prevout.hash ∈ mapWallet → generation txin.prevout.hash < generation hash

/-- `mDenomWtxes`: for each transaction that was asked for, `nRounds` of its outputs. -/
abbrev RoundsMap := Map UInt256 (List ℤ)

namespace RoundsWallet

variable (w : RoundsWallet)

/-- `CWallet::IsMine(txin)`, as a condition. -/
def isMine (txin : CTxIn) : Bool :=
  match w.mapWallet.lookup txin.prevout.hash with
  | some prev => prev.vout[txin.prevout.n]?.any w.isMineOut
  | none => false

/-! ## The function -/

/-- What the map knows of an output: outside of the transaction's outputs there is nothing to read,
and -10 is the initial value. -/
def knownRounds (m : RoundsMap) (out : COutPoint) : Option (Option ℤ) :=
  match m.lookup out.hash with
  | none => some none
  | some rounds => rounds[out.n]?.map fun n => if n = -10 then none else some n

/-- A transaction that is not known yet is added, with its initial values. -/
def enterTx (m : RoundsMap) (hash : UInt256) (wtx : CTransaction) : RoundsMap :=
  if hash ∈ m then m else m.insert hash (wtx.vout.map CTxOut.nRounds)

/-- `mDenomWtxes[hash].vout[nout].nRounds = n`. -/
def setRounds (m : RoundsMap) (out : COutPoint) (n : ℤ) : RoundsMap :=
  m.insert out.hash (((m.lookup out.hash).getD []).set out.n n)

/-- `nShortest` and `fDenomFound`. -/
structure Shortest where
  nShortest : ℤ := -10
  fDenomFound : Bool := false

/-- The rounds of one more input. -/
def Shortest.visit (s : Shortest) (n : ℤ) : Shortest :=
  if 0 ≤ n ∧ (n < s.nShortest ∨ s.nShortest = -10) then ⟨n, true⟩ else s

/-- The rounds of an output with these inputs. -/
def Shortest.rounds (s : Shortest) : ℤ :=
  if s.fDenomFound then if 15 ≤ s.nShortest then 16 else s.nShortest + 1 else 0

/-- The answers that need no look at the inputs. -/
def ownRounds (wtx : CTransaction) (txout : CTxOut) : Option ℤ :=
  if isCollateralAmount txout.nValue then some (-3)
  else if !isDenominatedAmount txout.nValue then some (-2)
  else if !(wtx.vout.all fun out => isDenominatedAmount out.nValue) then some 0
  else none

/-- `GetRealInputObfuscationRounds(in, rounds)` with `rounds = 16 - left`: the answer, and the map
afterwards; `none` when it reads outside of the outputs. -/
def getRealInputObfuscationRounds : ℕ → COutPoint → RoundsMap → Option (ℤ × RoundsMap)
  | 0, _, m => some (15, m)
  | left + 1, out, m =>
      match w.mapWallet.lookup out.hash with
      | none => some (15 - (left : ℤ) - 1, m)
      | some wtx =>
          let m₁ := enterTx m out.hash wtx
          match knownRounds m out with
          | none => none
          | some (some n) => some (n, m)
          | some none =>
              match wtx.vout[out.n]? with
              | none => some (-4, m₁)
              | some txout =>
                  match ownRounds wtx txout with
                  | some n => some (n, setRounds m₁ out n)
                  | none => do
                      let (s, m₂) ← wtx.vin.foldlM (fun (s : Shortest × RoundsMap) in2 =>
                        if w.isMine in2 then do
                          let (n, m) ← getRealInputObfuscationRounds left in2.prevout s.2
                          pure (s.1.visit n, m)
                        else pure s) ({}, m₁)
                      pure (s.rounds, setRounds m₂ out s.rounds)

/-- The answers to one query after another. -/
def answers : List COutPoint → RoundsMap → Option (List ℤ)
  | [], _ => some []
  | out :: outs, m => do
      let (n, m) ← w.getRealInputObfuscationRounds 16 out m
      let ns ← answers outs m
      pure (n :: ns)

/-! ## The reference -/

/-- The rounds of an output, from those of the outputs it was made from. -/
def referenceStep (f : COutPoint → ℤ) (out : COutPoint) : ℤ :=
  match w.mapWallet.lookup out.hash with
  | none => -1
  | some wtx =>
      match wtx.vout[out.n]? with
      | none => -4
      | some txout =>
          if isCollateralAmount txout.nValue then -3
          else if !isDenominatedAmount txout.nValue then -2
          else if wtx.vout.any fun out => !isDenominatedAmount out.nValue then 0
          else
            match (((wtx.vin.filter w.isMine).map fun in2 => f in2.prevout).filter
                fun n => decide (0 ≤ n)).min? with
            | none => 0
            | some n => min (n + 1) 16

/-- The reference, for outputs of the first generations. -/
def referenceAt : ℕ → COutPoint → ℤ
  | 0, _ => 0
  | n + 1, out => w.referenceStep (referenceAt n) out

/-- **The rounds of an output**: without a map and without a limit. -/
def reference (out : COutPoint) : ℤ := w.referenceAt (w.generation out.hash + 1) out

/-! ## The reference is well defined -/

variable {w}

theorem mem_of_isMine {txin : CTxIn} (h : w.isMine txin = true) :
    ∃ prev, w.mapWallet.lookup txin.prevout.hash = some prev ∧
      txin.prevout.n < prev.vout.length := by
  unfold isMine at h
  split at h
  · next prev hprev =>
    refine ⟨prev, hprev, ?_⟩
    by_contra hlt
    rw [List.getElem?_eq_none (not_lt.1 hlt)] at h
    exact absurd h (by simp)
  · exact absurd h (by simp)

/-- A step looks at outputs of earlier generations only. -/
theorem referenceStep_congr {f f' : COutPoint → ℤ} {out : COutPoint}
    (h : ∀ out', w.generation out'.hash < w.generation out.hash → f out' = f' out') :
    w.referenceStep f out = w.referenceStep f' out := by
  unfold referenceStep
  split
  · rfl
  · next wtx hwtx =>
    have hmap : ((wtx.vin.filter w.isMine).map fun in2 => f in2.prevout) =
        (wtx.vin.filter w.isMine).map fun in2 => f' in2.prevout := by
      refine List.map_congr_left fun in2 hin2 => h _ ?_
      rw [List.mem_filter] at hin2
      obtain ⟨prev, hprev, -⟩ := mem_of_isMine hin2.2
      exact w.older _ _ hwtx in2 hin2.1 (AList.lookup_isSome.1 (by rw [hprev]; rfl))
    rw [hmap]

theorem referenceAt_eq (n : ℕ) : ∀ {m : ℕ} {out : COutPoint}, w.generation out.hash < n →
    w.generation out.hash < m → w.referenceAt n out = w.referenceAt m out := by
  induction n with
  | zero => exact fun hn _ => absurd hn (Nat.not_lt_zero _)
  | succ n ih =>
    intro m out hn hm
    cases m with
    | zero => exact absurd hm (Nat.not_lt_zero _)
    | succ m =>
      rw [referenceAt, referenceAt]
      exact referenceStep_congr fun out' hlt => ih (by omega) (by omega)

/-- The equation of the reference. -/
theorem reference_eq (out : COutPoint) : w.reference out = w.referenceStep w.reference out := by
  show w.referenceStep (w.referenceAt (w.generation out.hash)) out = _
  exact referenceStep_congr fun out' hlt => referenceAt_eq _ hlt (Nat.lt_succ_self _)

/-! ## The shortest chain -/

theorem foldl_visit_found : ∀ (ns : List ℤ) {a : ℤ}, 0 ≤ a →
    ns.foldl Shortest.visit ⟨a, true⟩ =
      ⟨(ns.filter fun n => decide (0 ≤ n)).foldl min a, true⟩ := by
  intro ns
  induction ns with
  | nil => exact fun _ => rfl
  | cons n ns ih =>
    intro a ha
    rw [List.foldl_cons, Shortest.visit]
    rcases lt_or_ge n 0 with hn | hn
    · rw [if_neg (by omega), List.filter_cons_of_neg (by simpa using hn), ih ha]
    · rw [List.filter_cons_of_pos (by simpa using hn), List.foldl_cons]
      rcases lt_or_ge n a with hlt | hge
      · rw [if_pos ⟨hn, .inl hlt⟩, ih hn, min_eq_right hlt.le]
      · rw [if_neg (by show ¬(0 ≤ n ∧ (n < a ∨ a = -10)); omega), ih ha, min_eq_left hge]

/-- The loop finds the least of the values that are not negative. -/
theorem rounds_foldl_visit (ns : List ℤ) : (ns.foldl Shortest.visit {}).rounds =
    match (ns.filter fun n => decide (0 ≤ n)).min? with
    | none => 0
    | some n => min (n + 1) 16 := by
  induction ns with
  | nil => rfl
  | cons n ns ih =>
    rw [List.foldl_cons, Shortest.visit]
    rcases lt_or_ge n 0 with hn | hn
    · rw [if_neg (by omega), List.filter_cons_of_neg (by simpa using hn)]
      exact ih
    · rw [if_pos ⟨hn, .inr rfl⟩, List.filter_cons_of_pos (by simpa using hn),
        foldl_visit_found ns hn, List.min?_cons']
      generalize (ns.filter fun n => decide (0 ≤ n)).foldl min n = a
      show (if 15 ≤ a then 16 else a + 1) = min (a + 1) 16
      split <;> omega

/-! ## The limit -/

/-- The outputs a call looks at: the own inputs of a denominated transaction, unless the map already
knows the answer. -/
def visited (w : RoundsWallet) (m : RoundsMap) (out : COutPoint) : List COutPoint :=
  if (knownRounds m out).join.isSome then []
  else
    match w.mapWallet.lookup out.hash with
    | none => []
    | some wtx =>
        if (wtx.vout[out.n]?.bind (ownRounds wtx)).isSome then []
        else (wtx.vin.filter w.isMine).map CTxIn.prevout

/-- No chain of outputs to look at comes to the limit. -/
def withinLimit (w : RoundsWallet) (m : RoundsMap) : ℕ → COutPoint → Bool
  | 0, _ => false
  | left + 1, out => (w.visited m out).all (withinLimit w m left)

/-- None of the queries comes to the limit, with the map as it is at that time. -/
def withinLimits (w : RoundsWallet) : List COutPoint → RoundsMap → Bool
  | [], _ => true
  | out :: outs, m => w.withinLimit m 16 out &&
      match w.getRealInputObfuscationRounds 16 out m with
      | some (_, m') => withinLimits w outs m'
      | none => true

/-- What is known stays known. -/
structure Extends (m m' : RoundsMap) : Prop where
  mem : ∀ hash ∈ m, hash ∈ m'
  known : ∀ out n, knownRounds m out = some (some n) → knownRounds m' out = some (some n)

/-- The map holds outputs of transactions of the wallet, with the reference or the initial value. -/
def Sound (w : RoundsWallet) (m : RoundsMap) : Prop :=
  ∀ hash rounds, m.lookup hash = some rounds → ∃ wtx, w.mapWallet.lookup hash = some wtx ∧
    rounds.length = wtx.vout.length ∧
    ∀ (i : ℕ) (n : ℤ), rounds[i]? = some n → n = -10 ∨ n = w.reference ⟨hash, i⟩

/-- The output exists, if the transaction does. -/
def InRange (w : RoundsWallet) (out : COutPoint) : Prop :=
  ∀ wtx, w.mapWallet.lookup out.hash = some wtx → out.n < wtx.vout.length

variable {m m' m'' : RoundsMap} {out : COutPoint}

theorem Extends.refl (m : RoundsMap) : Extends m m := ⟨fun _ h => h, fun _ _ h => h⟩

theorem Extends.trans (h : Extends m m') (h' : Extends m' m'') : Extends m m'' :=
  ⟨fun hash hm => h'.mem hash (h.mem hash hm), fun out n hn => h'.known out n (h.known out n hn)⟩

/-- With more known, less is looked at. -/
theorem visited_subset (h : Extends m m') : ∀ x ∈ w.visited m' out, x ∈ w.visited m out := by
  intro x hx
  unfold visited at hx ⊢
  split at hx
  · exact absurd hx (by simp)
  · next hunknown =>
    rw [if_neg]
    · exact hx
    · intro hknown
      obtain ⟨n, hn⟩ := Option.isSome_iff_exists.1 hknown
      rw [Option.join_eq_some_iff] at hn
      rw [h.known out n hn] at hunknown
      exact hunknown rfl

theorem withinLimit_mono (h : Extends m m') : ∀ {left : ℕ} {out : COutPoint},
    w.withinLimit m left out = true → w.withinLimit m' left out = true := by
  intro left
  induction left with
  | zero => exact fun h => absurd h (by simp [withinLimit])
  | succ left ih =>
    intro out hlimit
    rw [withinLimit, List.all_eq_true] at hlimit ⊢
    exact fun x hx => ih (hlimit x (visited_subset h x hx))

/-! ## The map -/

theorem Sound.known (hm : w.Sound m) (hin : w.InRange out) {wtx : CTransaction}
    (hwtx : w.mapWallet.lookup out.hash = some wtx) :
    knownRounds m out = some none ∨ knownRounds m out = some (some (w.reference out)) := by
  unfold knownRounds
  cases hlookup : m.lookup out.hash with
  | none => exact .inl rfl
  | some rounds =>
    obtain ⟨wtx', hwtx', hlength, hvalue⟩ := hm _ _ hlookup
    cases hwtx.symm.trans hwtx'
    have hlt : out.n < rounds.length := by
      rw [hlength]
      exact hin wtx hwtx
    have hget := List.getElem?_eq_getElem hlt
    show rounds[out.n]?.map _ = _ ∨ rounds[out.n]?.map _ = _
    rw [hget, Option.map_some]
    rcases hvalue _ _ hget with heq | heq
    · exact .inl (by rw [if_pos heq])
    · split
      · exact .inl rfl
      · exact .inr (by rw [heq])

theorem mem_enterTx (m : RoundsMap) (hash : UInt256) (wtx : CTransaction) :
    hash ∈ enterTx m hash wtx := by
  unfold enterTx
  split
  · next h => exact h
  · exact AList.mem_insert _ |>.2 (.inl rfl)

theorem Sound.enterTx (hm : w.Sound m) {hash : UInt256} {wtx : CTransaction}
    (hwtx : w.mapWallet.lookup hash = some wtx) : w.Sound (enterTx m hash wtx) := by
  intro hash' rounds hlookup
  unfold RoundsWallet.enterTx at hlookup
  split at hlookup
  · exact hm _ _ hlookup
  · rw [lookup_insert_eq] at hlookup
    split at hlookup
    · next heq =>
      cases hlookup
      rw [heq]
      refine ⟨wtx, hwtx, List.length_map _, fun i n hn => .inl ?_⟩
      rw [List.getElem?_map] at hn
      obtain ⟨txout, htxout, rfl⟩ := Option.map_eq_some_iff.1 hn
      exact w.initial _ _ hwtx _ (List.mem_of_getElem? htxout)
    · exact hm _ _ hlookup

theorem Extends.enterTx (m : RoundsMap) (hash : UInt256) (wtx : CTransaction) :
    Extends m (enterTx m hash wtx) := by
  refine ⟨fun hash' hm => ?_, fun out n hn => ?_⟩
  · unfold RoundsWallet.enterTx
    split
    · exact hm
    · exact AList.mem_insert _ |>.2 (.inr hm)
  unfold RoundsWallet.enterTx
  split
  · exact hn
  · next hnew =>
    have hne : out.hash ≠ hash := by
      intro heq
      unfold knownRounds at hn
      rw [heq, AList.lookup_eq_none.2 hnew] at hn
      exact absurd hn (by simp)
    unfold knownRounds at hn ⊢
    rw [AList.lookup_insert_ne hne]
    exact hn

theorem Sound.setRounds (hm : w.Sound m) (hmem : out.hash ∈ m) :
    w.Sound (setRounds m out (w.reference out)) := by
  obtain ⟨rounds, hrounds⟩ := Option.isSome_iff_exists.1 (AList.lookup_isSome.2 hmem)
  intro hash' rounds' hlookup
  unfold RoundsWallet.setRounds at hlookup
  rw [lookup_insert_eq, hrounds, Option.getD_some] at hlookup
  split at hlookup
  · next heq =>
    cases hlookup
    obtain ⟨wtx, hwtx, hlength, hvalue⟩ := hm _ _ hrounds
    rw [heq]
    refine ⟨wtx, hwtx, by rw [List.length_set, hlength], fun i n hn => ?_⟩
    rw [List.getElem?_set] at hn
    split at hn
    · next hi =>
      split at hn
      · cases hn
        exact .inr (by rw [← hi])
      · exact absurd hn (by simp)
    · exact hvalue i n hn
  · exact hm _ _ hlookup

theorem Extends.setRounds (hm : w.Sound m) (hmem : out.hash ∈ m) :
    Extends m (setRounds m out (w.reference out)) := by
  obtain ⟨rounds, hrounds⟩ := Option.isSome_iff_exists.1 (AList.lookup_isSome.2 hmem)
  obtain ⟨wtx, hwtx, hlength, hvalue⟩ := hm _ _ hrounds
  refine ⟨fun hash h => AList.mem_insert _ |>.2 (.inr h), fun out' n hn => ?_⟩
  unfold knownRounds RoundsWallet.setRounds at *
  by_cases heq : out'.hash = out.hash
  · rw [heq, hrounds] at hn
    rw [heq, AList.lookup_insert, hrounds, Option.getD_some]
    obtain ⟨n', hn', hval⟩ := Option.map_eq_some_iff.1 hn
    split at hval
    · exact absurd hval (by simp)
    · next hne =>
      cases hval
      have hlt : out'.n < rounds.length := (List.getElem?_eq_some_iff.1 hn').1
      -- what was known of this output is the value that is written
      have hsame : out.n = out'.n → n = w.reference out := by
        intro hi
        rw [(hvalue _ _ hn').resolve_left hne, ← hi]
      show Option.map _ (rounds.set out.n (w.reference out))[out'.n]? = _
      rw [List.getElem?_set]
      split
      · next hi =>
        rw [if_pos (by omega), Option.map_some, ← hsame hi, if_neg hne]
      · rw [hn', Option.map_some, if_neg hne]
  · rw [AList.lookup_insert_ne heq]
    exact hn

/-! ## Calls -/

/-- What needs no look at the inputs agrees with the reference. -/
theorem reference_of_ownRounds {wtx : CTransaction} {txout : CTxOut} {n : ℤ}
    (hwtx : w.mapWallet.lookup out.hash = some wtx) (hout : wtx.vout[out.n]? = some txout)
    (hown : ownRounds wtx txout = some n) : w.reference out = n := by
  rw [reference_eq, referenceStep, hwtx]
  simp only [hout]
  unfold ownRounds at hown
  rw [List.not_all_eq_any_not] at hown
  split at hown
  · next h => rw [if_pos h, Option.some.inj hown]
  · next h =>
    rw [if_neg h]
    split at hown
    · next h => rw [if_pos h, Option.some.inj hown]
    · next h =>
      rw [if_neg h]
      split at hown
      · next h => rw [if_pos h, Option.some.inj hown]
      · exact absurd hown (by simp)

/-- An output of a denominated transaction has its rounds from the inputs. -/
theorem reference_of_inputs {wtx : CTransaction} {txout : CTxOut}
    (hwtx : w.mapWallet.lookup out.hash = some wtx) (hout : wtx.vout[out.n]? = some txout)
    (hown : ownRounds wtx txout = none) : w.reference out =
      ((((wtx.vin.filter w.isMine).map fun in2 => w.reference in2.prevout).foldl
        Shortest.visit {}).rounds) := by
  rw [reference_eq, referenceStep, hwtx, rounds_foldl_visit]
  simp only [hout]
  unfold ownRounds at hown
  rw [List.not_all_eq_any_not] at hown
  split at hown
  · exact absurd hown (by simp)
  · next h =>
    rw [if_neg h]
    split at hown
    · exact absurd hown (by simp)
    · next h =>
      rw [if_neg h]
      split at hown
      · exact absurd hown (by simp)
      · next h => rw [if_neg h]

/-- What a call does: it returns the reference, and leaves a map that holds nothing but the
reference. -/
def Answers (w : RoundsWallet) (left : ℕ) (out : COutPoint) (m : RoundsMap) : Prop :=
  ∃ m', w.getRealInputObfuscationRounds left out m = some (w.reference out, m') ∧ w.Sound m' ∧
    Extends m m'

/-- The loop over the inputs, when each call of it does what it should. -/
theorem visitInputs_spec {left : ℕ} {m₀ : RoundsMap} {ins : List CTxIn}
    (hcalls : ∀ in2 ∈ ins, w.isMine in2 = true →
      ∀ m, w.Sound m → Extends m₀ m → w.Answers left in2.prevout m) :
    ∀ (s : Shortest) (m : RoundsMap), w.Sound m → Extends m₀ m →
      ∃ m', ins.foldlM (fun (s : Shortest × RoundsMap) in2 =>
        if w.isMine in2 then do
          let (n, m) ← w.getRealInputObfuscationRounds left in2.prevout s.2
          pure (s.1.visit n, m)
        else pure s) (s, m) =
          some ((((ins.filter w.isMine).map fun in2 => w.reference in2.prevout).foldl
            Shortest.visit s), m') ∧ w.Sound m' ∧ Extends m m' := by
  induction ins with
  | nil => exact fun s m hm _ => ⟨m, rfl, hm, .refl m⟩
  | cons in2 ins ih =>
    intro s m hm hext
    have hrest := ih fun i hi => hcalls i (List.mem_cons_of_mem _ hi)
    rw [List.foldlM_cons]
    cases hmine : w.isMine in2 with
    | false =>
      rw [List.filter_cons_of_neg (by simp [hmine])]
      exact hrest s m hm hext
    | true =>
      obtain ⟨m₁, hget, hm₁, hext₁⟩ := hcalls in2 List.mem_cons_self hmine m hm hext
      obtain ⟨m₂, hfold, hm₂, hext₂⟩ :=
        hrest (s.visit (w.reference in2.prevout)) m₁ hm₁ (hext.trans hext₁)
      refine ⟨m₂, ?_, hm₂, hext₁.trans hext₂⟩
      rw [List.filter_cons_of_pos hmine, List.map_cons, List.foldl_cons, ← hfold]
      simp only [hget, if_true]
      rfl

/-- **A call that does not come to the limit** returns the reference, and leaves a map that holds
nothing but the reference. -/
theorem getRealInputObfuscationRounds_spec : ∀ {left : ℕ} {out : COutPoint} {m : RoundsMap},
    w.Sound m → w.InRange out → out.hash ∈ w.mapWallet → w.withinLimit m left out = true →
    w.Answers left out m := by
  intro left
  induction left with
  | zero => exact fun _ _ _ h => absurd h (by simp [withinLimit])
  | succ left ih =>
    intro out m hm hin hmem hlimit
    obtain ⟨wtx, hwtx⟩ := Option.isSome_iff_exists.1 (AList.lookup_isSome.2 hmem)
    have hlt := hin wtx hwtx
    have hout := List.getElem?_eq_getElem hlt
    have hentered := hm.enterTx hwtx
    have hextends := Extends.enterTx m out.hash wtx
    unfold Answers
    rw [getRealInputObfuscationRounds]
    simp only [hwtx]
    rcases hm.known hin hwtx with hunknown | hknown
    · simp only [hunknown, hout]
      cases hown : ownRounds wtx wtx.vout[out.n] with
      | some n =>
        rw [← reference_of_ownRounds hwtx hout hown]
        exact ⟨_, rfl, hentered.setRounds (mem_enterTx _ _ _),
          hextends.trans (.setRounds hentered (mem_enterTx _ _ _))⟩
      | none =>
        -- every own input is looked at with one call less left
        have hcalls : ∀ in2 ∈ wtx.vin, w.isMine in2 = true →
            ∀ m', w.Sound m' → Extends m m' → w.Answers left in2.prevout m' := by
          intro in2 hin2 hmine m' hm' hext
          rw [withinLimit, List.all_eq_true] at hlimit
          obtain ⟨prev, hprev, hlt⟩ := mem_of_isMine hmine
          refine ih hm' (fun prev' hprev' => ?_) (AList.lookup_isSome.1 (by rw [hprev]; rfl))
            (withinLimit_mono hext (hlimit _ ?_))
          · cases hprev.symm.trans hprev'
            exact hlt
          · unfold visited
            rw [hunknown, if_neg (by simp)]
            simp only [hwtx, hout, Option.bind_some, hown]
            exact List.mem_map_of_mem (List.mem_filter.2 ⟨hin2, hmine⟩)
        obtain ⟨m₂, hfold, hm₂, hext₂⟩ := visitInputs_spec hcalls {} _ hentered hextends
        have hmem₂ : out.hash ∈ m₂ := hext₂.mem _ (mem_enterTx _ _ _)
        simp only
        rw [hfold]
        show ∃ m', some (_, setRounds m₂ out _) = _ ∧ _
        rw [← reference_of_inputs hwtx hout hown]
        exact ⟨_, rfl, hm₂.setRounds hmem₂, (hextends.trans hext₂).trans (.setRounds hm₂ hmem₂)⟩
    · simp only [hknown]
      exact ⟨m, rfl, hm, .refl m⟩

/-- A query that does not come to the limit, also for a transaction that the wallet has not. -/
theorem query_spec (hm : w.Sound m) (hin : w.InRange out) (hlimit : w.withinLimit m 16 out = true) :
    w.Answers 16 out m := by
  by_cases hmem : out.hash ∈ w.mapWallet
  · exact getRealInputObfuscationRounds_spec hm hin hmem hlimit
  · have hnone := AList.lookup_eq_none.2 hmem
    refine ⟨m, ?_, hm, .refl m⟩
    rw [getRealInputObfuscationRounds, hnone, reference_eq, referenceStep, hnone]
    rfl

theorem answers_spec {outs : List COutPoint} (hin : ∀ out ∈ outs, w.InRange out) :
    ∀ {m : RoundsMap}, w.Sound m → w.withinLimits outs m = true →
      w.answers outs m = some (outs.map w.reference) := by
  induction outs with
  | nil => exact fun _ _ => rfl
  | cons out outs ih =>
    intro m hm hlimits
    rw [withinLimits, Bool.and_eq_true] at hlimits
    obtain ⟨m', hget, hm', -⟩ := query_spec hm (hin out List.mem_cons_self) hlimits.1
    rw [hget] at hlimits
    have hrest := ih (fun o ho => hin o (List.mem_cons_of_mem _ ho)) hm' hlimits.2
    rw [answers, hget]
    simp [hrest]

/-- **The answers do not depend on the queries before**, in a run of queries none of which comes to
the limit: each is the reference. -/
theorem rounds_of_withinLimits (w : RoundsWallet) (outs : List COutPoint)
    (hin : ∀ out ∈ outs, w.InRange out) (hlimits : w.withinLimits outs ∅ = true) :
    w.answers outs ∅ = some (outs.map w.reference) :=
  answers_spec hin (fun hash rounds h => absurd h (by simp)) hlimits

/-! ## A chain of 17 transactions -/

namespace RoundsExample

/-- A transaction with one denominated output, made from the output of the one before. -/
def chainTx (n : ℕ) : CTransaction where
  hash := BitVec.ofNat 256 n
  vin := [{ prevout := ⟨BitVec.ofNat 256 (n - 1), 0⟩ }]
  vout := [{ nValue := coin + 1000, scriptPubKey := [] }]

/-- The first transactions, from 1 on. -/
def chain (k : ℕ) : Map UInt256 CTransaction :=
  (List.range k).foldl (fun m n => m.insert (BitVec.ofNat 256 (n + 1)) (chainTx (n + 1))) ∅

theorem lookup_chain {k : ℕ} {hash : UInt256} {wtx : CTransaction}
    (h : (chain k).lookup hash = some wtx) :
    ∃ n < k, hash = BitVec.ofNat 256 (n + 1) ∧ wtx = chainTx (n + 1) := by
  induction k with
  | zero => exact absurd h (by simp [chain])
  | succ k ih =>
    rw [chain, List.range_succ, List.foldl_append, List.foldl_cons, List.foldl_nil,
      lookup_insert_eq] at h
    split at h
    · next heq => exact ⟨k, Nat.lt_succ_self k, heq, (Option.some.inj h).symm⟩
    · obtain ⟨n, hn, hhash, hwtx⟩ := ih h
      exact ⟨n, by omega, hhash, hwtx⟩

/-- A wallet with 17 of them. -/
def wallet : RoundsWallet where
  mapWallet := chain 17
  isMineOut _ := true
  initial hash wtx h out hout := by
    obtain ⟨n, -, -, rfl⟩ := lookup_chain h
    rw [List.mem_singleton.1 hout]
  generation := BitVec.toNat
  older hash wtx h txin htxin _ := by
    obtain ⟨n, hn, rfl, rfl⟩ := lookup_chain h
    rw [List.mem_singleton.1 htxin]
    show (BitVec.ofNat 256 n).toNat < (BitVec.ofNat 256 (n + 1)).toNat
    rw [BitVec.toNat_ofNat, BitVec.toNat_ofNat, Nat.mod_eq_of_lt (by omega),
      Nat.mod_eq_of_lt (by omega)]
    omega

theorem inRange (n : ℕ) : wallet.InRange ⟨BitVec.ofNat 256 n, 0⟩ := by
  intro wtx hwtx
  obtain ⟨n, -, -, rfl⟩ := lookup_chain hwtx
  exact Nat.zero_lt_one

end RoundsExample

open RoundsExample in
/-- The second transaction first, and then the last one: no call comes to the limit. -/
theorem rounds_forward :
    wallet.answers [⟨2, 0⟩, ⟨17, 0⟩] ∅ = some ([⟨2, 0⟩, ⟨17, 0⟩].map wallet.reference) :=
  rounds_of_withinLimits wallet [⟨2, 0⟩, ⟨17, 0⟩]
    (by
      intro out hout
      rcases List.mem_cons.1 hout with rfl | hout
      · exact inRange 2
      · rw [List.mem_singleton.1 hout]
        exact inRange 17)
    (by decide)

open RoundsExample in
/-- The last transaction first: its query comes to the limit below the second one, and the second
one is then taken for mixed 16 times, where it was mixed once. -/
theorem rounds_backward :
    wallet.reference ⟨17, 0⟩ = 16 ∧ wallet.reference ⟨2, 0⟩ = 1 ∧
      wallet.answers [⟨2, 0⟩] ∅ = some [1] ∧
      wallet.answers [⟨17, 0⟩, ⟨2, 0⟩] ∅ = some [16, 16] ∧
      wallet.answers [⟨17, 0⟩, ⟨2, 0⟩] ∅ ≠
        some ([⟨17, 0⟩, ⟨2, 0⟩].map wallet.reference) := by
  have hlast : wallet.reference ⟨17, 0⟩ = 16 := by decide +kernel
  have hsecond : wallet.reference ⟨2, 0⟩ = 1 := by decide
  have hanswers : wallet.answers [⟨17, 0⟩, ⟨2, 0⟩] ∅ = some [16, 16] := by decide
  refine ⟨hlast, hsecond, by decide, hanswers, ?_⟩
  rw [hanswers, List.map_cons, List.map_singleton, hlast, hsecond]
  decide

end RoundsWallet

end FairCoin
