import FairCoin.Mixing
import FairCoin.BlockSigning

/-!
# The client signs the final transaction

`CObfuscationPool::SignFinalTransaction` of `src/obfuscation.cpp`: a client looks its inputs up in
the transaction that the masternode proposes, tests its outputs by counting matching pairs and
comparing two sums, and sends the inputs it signed.

* `Mixing.signFinalTransaction` — the two loops, with the refusal that drops the session.
* `Mixing.Agreed` — each output of an entry occurs as often as the entry has it.
* `Mixing.lookedUp` — the entries that the loops come to test.
-/

namespace FairCoin

namespace Mixing

/-! ## The loops -/

/-- `SIGHASH_ALL | SIGHASH_ANYONECANPAY`. -/
def finalHashType : BitVec 32 := sighashAll ||| sighashAnyoneCanPay

/-- `mine`: the last input of the transaction that is the client's. -/
def mineIndex (s : CTxIn) (vin : List CTxIn) : Option ℕ :=
  vin.zipIdx.foldl (fun mine i => if i.1 = s then some i.2 else mine) none

/-- The inner loop over the outputs of an entry. -/
def matchOutput (txout : CTxOut) (vout : List CTxOut) (r : ℤ × ℤ) : ℤ × ℤ :=
  vout.foldl (fun r o => if txout = o then (r.1 + 1, r.2 + txout.nValue) else r) r

/-- `foundOutputs` and `nValue1`. -/
def foundOutputs (txVout vout : List CTxOut) : ℤ × ℤ :=
  txVout.foldl (fun r txout => matchOutput txout vout r) (0, 0)

/-- The entry is there as it should be: there are as many matches as outputs, of the same value. -/
def outputsFound (txVout : List CTxOut) (e : CObfuscationEntry) : Bool :=
  let found := foundOutputs txVout e.vout
  let nValue2 := e.vout.foldl (fun nValue2 o => nValue2 + o.nValue) 0
  let targetOutputs : ℤ := e.vout.length
  !(decide (found.1 < targetOutputs) || decide (found.2 ≠ nValue2))

variable {C : CryptoEnv} (keystore : CKeyStore C)

/-- An input of an entry; the state is the transaction with `sigs`, and `none` is the refusal.  An
input that cannot be signed is sent all the same. -/
def signInput (e : CObfuscationEntry) (r : CMutableTransaction × List CTxIn) (s : CTxDSIn) :
    Option (CMutableTransaction × List CTxIn) :=
  match mineIndex s.toCTxIn r.1.vin with
  | none => some r
  | some mine =>
      if outputsFound r.1.vout e then
        let finalTransaction := (keystore.signSignature s.prevPubKey r.1 mine finalHashType).2
        some (finalTransaction, r.2 ++ finalTransaction.vin[mine]?.toList)
      else none

/-- The loops over the entries and their inputs. -/
def signEntries (entries : List CObfuscationEntry) (finalTransaction : CMutableTransaction) :
    Option (CMutableTransaction × List CTxIn) :=
  entries.foldlM (fun r e => e.sev.foldlM (signInput keystore e) r) (finalTransaction, [])

/-- What `SignFinalTransaction` returns and leaves; `dss` is the message to the masternode. -/
structure FinalResult where
  result : Bool
  pool : Pool
  dss : Option (List CTxIn) := none

/-- `SignFinalTransaction`; `hasNode` says whether `node` is there. -/
def signFinalTransaction (fMasterNode hasNode : Bool) (nowMillis : ℤ) (p : Pool)
    (finalTransactionNew : CMutableTransaction) : FinalResult :=
  if fMasterNode then { result := false, pool := p }
  else
    match signEntries keystore p.entries finalTransactionNew with
    | none =>
        { result := false
          pool := { Pool.setNull nowMillis with
            finalTransaction := { finalTransactionNew with vin := [], vout := [] } } }
    | some (finalTransaction, sigs) =>
        { result := true
          pool := { p with finalTransaction := finalTransaction }
          dss := if 0 < sigs.length && hasNode then some sigs else none }

/-! ## The test of the outputs -/

theorem matchOutput_eq (txout : CTxOut) (vout : List CTxOut) (r : ℤ × ℤ) :
    matchOutput txout vout r =
      (r.1 + (vout.map fun o => if txout = o then 1 else 0).sum,
        r.2 + (vout.map fun o => if txout = o then o.nValue else 0).sum) := by
  induction vout generalizing r with
  | nil => simp [matchOutput]
  | cons o vout ih =>
      have hstep : matchOutput txout (o :: vout) r = matchOutput txout vout
          (if txout = o then (r.1 + 1, r.2 + txout.nValue) else r) := rfl
      rw [hstep, ih]
      by_cases ho : txout = o
      · subst ho
        simp [add_assoc]
      · simp [ho]

/-- **Matching pairs are counted.**  An output of the entry counts as often as the transaction has
it, once more for each time the entry repeats it. -/
theorem foundOutputs_eq (txVout vout : List CTxOut) :
    foundOutputs txVout vout =
      ((vout.map fun o => (txVout.count o : ℤ)).sum,
        (vout.map fun o => (txVout.count o : ℤ) * o.nValue).sum) := by
  have hloop : ∀ (txVout : List CTxOut) (r : ℤ × ℤ),
      txVout.foldl (fun r txout => matchOutput txout vout r) r =
        (r.1 + (vout.map fun o => (txVout.count o : ℤ)).sum,
          r.2 + (vout.map fun o => (txVout.count o : ℤ) * o.nValue).sum) := by
    intro txVout
    induction txVout with
    | nil => intro r; simp
    | cons txout txVout ih =>
        intro r
        have hcount : ∀ o, ((txout :: txVout).count o : ℤ) =
            (if txout = o then 1 else 0) + (txVout.count o : ℤ) := by
          intro o
          rw [List.count_cons]
          by_cases ho : txout = o <;> simp [ho, add_comm]
        have hvalue : ∀ o : CTxOut, ((if txout = o then 1 else 0) + (txVout.count o : ℤ)) * o.nValue =
            (if txout = o then o.nValue else 0) + (txVout.count o : ℤ) * o.nValue := by
          intro o
          by_cases ho : txout = o <;> simp [ho, add_mul]
        rw [List.foldl_cons, ih, matchOutput_eq]
        simp only [hcount, hvalue, List.sum_map_add, add_assoc]
  rw [foundOutputs, hloop]
  simp

/-- The test of an entry, by how often the transaction has each output. -/
theorem outputsFound_iff {txVout : List CTxOut} {e : CObfuscationEntry} :
    outputsFound txVout e = true ↔
      (e.vout.length : ℤ) ≤ (e.vout.map fun o => (txVout.count o : ℤ)).sum ∧
        (e.vout.map fun o => (txVout.count o : ℤ) * o.nValue).sum =
          (e.vout.map CTxOut.nValue).sum := by
  have hsum : ∀ (vout : List CTxOut) (n : ℤ),
      vout.foldl (fun nValue2 o => nValue2 + o.nValue) n = n + (vout.map CTxOut.nValue).sum := by
    intro vout
    induction vout with
    | nil => intro n; simp
    | cons o vout ih =>
        intro n
        rw [List.foldl_cons, ih, List.map_cons, List.sum_cons, add_assoc]
  simp [outputsFound, foundOutputs_eq, hsum]

/-! ## What a client agreed to -/

/-- Every output of the entry is there, as often as the entry has it. -/
def Agreed (txVout : List CTxOut) (e : CObfuscationEntry) : Prop :=
  ∀ o ∈ e.vout, e.vout.count o ≤ txVout.count o

/-- One of the inputs of the entry is spent by these inputs. -/
def HasInput (vin : List CTxIn) (e : CObfuscationEntry) : Prop :=
  ∃ s ∈ e.sev, ∃ i ∈ vin, i.prevout = s.prevout

instance (txVout : List CTxOut) (e : CObfuscationEntry) : Decidable (Agreed txVout e) :=
  inferInstanceAs (Decidable (∀ o ∈ e.vout, e.vout.count o ≤ txVout.count o))

instance (vin : List CTxIn) (e : CObfuscationEntry) : Decidable (HasInput vin e) :=
  inferInstanceAs (Decidable (∃ s ∈ e.sev, ∃ i ∈ vin, i.prevout = s.prevout))

/-- What a client is promised: a signature for an input of an entry is only sent where the entry
was agreed to, and none at all where an entry with an input in the transaction was not. -/
def SignsAgreed (entries : List CObfuscationEntry) (finalTransactionNew : CMutableTransaction)
    (dss : Option (List CTxIn)) : Prop :=
  (∀ sigs, dss = some sigs → ∀ e ∈ entries, HasInput sigs e →
    Agreed finalTransactionNew.vout e) ∧
  ((∃ e ∈ entries, HasInput finalTransactionNew.vin e ∧ ¬ Agreed finalTransactionNew.vout e) →
    dss = none)

/-- An entry with each of its inputs. -/
def CObfuscationEntry.lines (e : CObfuscationEntry) : List (CObfuscationEntry × CTxDSIn) :=
  e.sev.map fun s => (e, s)

/-- The entries that have an input in the transaction when it is their turn, as `operator==`
compares inputs: those before have been signed. -/
def lookedUp : List (CObfuscationEntry × CTxDSIn) → CMutableTransaction → List CObfuscationEntry
  | [], _ => []
  | (e, s) :: rest, finalTransaction =>
      match mineIndex s.toCTxIn finalTransaction.vin with
      | none => lookedUp rest finalTransaction
      | some mine =>
          e :: lookedUp rest (keystore.signSignature s.prevPubKey finalTransaction mine finalHashType).2

/-! ## What one input does -/

theorem mineIndex_concat (s : CTxIn) (vin : List CTxIn) (i : CTxIn) :
    mineIndex s (vin ++ [i]) = if i = s then some vin.length else mineIndex s vin := by
  simp [mineIndex, List.zipIdx_append, List.foldl_append]

theorem getElem?_of_mineIndex {s : CTxIn} {vin : List CTxIn} {mine : ℕ}
    (h : mineIndex s vin = some mine) : vin[mine]? = some s := by
  induction vin using List.reverseRecOn with
  | nil => cases h
  | append_singleton vin i ih =>
      rw [mineIndex_concat] at h
      split at h
      · next hi =>
          cases h
          simp [hi]
      · have hget := ih h
        obtain ⟨hlt, -⟩ := List.getElem?_eq_some_iff.1 hget
        rw [List.getElem?_append_left hlt, hget]

theorem mineIndex_eq_none {s : CTxIn} {vin : List CTxIn} : mineIndex s vin = none ↔ s ∉ vin := by
  induction vin using List.reverseRecOn with
  | nil => simp [mineIndex]
  | append_singleton vin i ih =>
      rw [mineIndex_concat]
      by_cases hi : i = s
      · simp [hi]
      · simp [hi, ih, Ne.symm hi]

/-- Signing changes the script of one input. -/
theorem signSignature_eq (fromPubKey : CScript) (txTo : CMutableTransaction) (nIn : ℕ)
    (nHashType : BitVec 32) : ∃ scriptSig,
      (keystore.signSignature fromPubKey txTo nIn nHashType).2 = txTo.setScriptSig nIn scriptSig := by
  have htwice : ∀ a b, (txTo.setScriptSig nIn a).setScriptSig nIn b = txTo.setScriptSig nIn b := by
    intro a b
    simp [CMutableTransaction.setScriptSig, List.modify_modify_eq, Function.comp_def]
  rw [CKeyStore.signSignature]
  split
  · exact ⟨_, rfl⟩
  · dsimp only
    split
    · split
      · exact ⟨_, htwice _ _⟩
      · exact ⟨_, htwice _ _⟩
    · exact ⟨_, htwice _ _⟩

theorem setScriptSig_prevouts (txTo : CMutableTransaction) (nIn : ℕ) (scriptSig : CScript) :
    (txTo.setScriptSig nIn scriptSig).vin.map CTxIn.prevout = txTo.vin.map CTxIn.prevout := by
  apply List.ext_getElem?
  intro n
  simp only [CMutableTransaction.setScriptSig, List.getElem?_map, List.getElem?_modify]
  cases txTo.vin[n]? with
  | none => rfl
  | some i => by_cases hn : nIn = n <;> simp [hn]

/-- Signed transactions have the outputs and spend the coins of the one that was proposed. -/
structure SameShape (txTo tx : CMutableTransaction) : Prop where
  vout : tx.vout = txTo.vout
  prevouts : tx.vin.map CTxIn.prevout = txTo.vin.map CTxIn.prevout

theorem SameShape.signSignature {txTo tx : CMutableTransaction} (h : SameShape txTo tx)
    (fromPubKey : CScript) (nIn : ℕ) (nHashType : BitVec 32) :
    SameShape txTo (keystore.signSignature fromPubKey tx nIn nHashType).2 := by
  obtain ⟨scriptSig, heq⟩ := signSignature_eq keystore fromPubKey tx nIn nHashType
  rw [heq]
  exact ⟨h.vout, (setScriptSig_prevouts tx nIn scriptSig).trans h.prevouts⟩

/-! ## What the loops do -/

/-- The loops as one, over the inputs of all entries. -/
theorem signEntries_eq (entries : List CObfuscationEntry) (finalTransaction : CMutableTransaction) :
    signEntries keystore entries finalTransaction =
      (entries.flatMap CObfuscationEntry.lines).foldlM
        (fun r l => signInput keystore l.1 r l.2) (finalTransaction, []) := by
  rw [signEntries]
  generalize (finalTransaction, ([] : List CTxIn)) = r
  induction entries generalizing r with
  | nil => rfl
  | cons e entries ih =>
      rw [List.flatMap_cons, List.foldlM_append, List.foldlM_cons, CObfuscationEntry.lines,
        List.foldlM_map]
      congr 1
      funext r
      exact ih r

/-- **A whole run.**  If every entry that is looked up passes, there is a signature for each of
them, of an input that the transaction has; otherwise the client refuses. -/
theorem signEntries_run {txTo : CMutableTransaction} :
    ∀ (lines : List (CObfuscationEntry × CTxDSIn)) {tx : CMutableTransaction} {sigs : List CTxIn},
      SameShape txTo tx → (∀ i ∈ sigs, i.prevout ∈ txTo.vin.map CTxIn.prevout) →
      ((∃ e ∈ lookedUp keystore lines tx, outputsFound txTo.vout e = false) ∧
        lines.foldlM (fun r l => signInput keystore l.1 r l.2) (tx, sigs) = none) ∨
      ((∀ e ∈ lookedUp keystore lines tx, outputsFound txTo.vout e = true) ∧ ∃ tx' sigs',
        lines.foldlM (fun r l => signInput keystore l.1 r l.2) (tx, sigs) = some (tx', sigs') ∧
        sigs'.length = sigs.length + (lookedUp keystore lines tx).length ∧
        ∀ i ∈ sigs', i.prevout ∈ txTo.vin.map CTxIn.prevout)
  | [], tx, sigs, _, hsigs => by
      refine .inr ⟨by simp [lookedUp], tx, sigs, rfl, by simp [lookedUp], hsigs⟩
  | (e, s) :: rest, tx, sigs, hshape, hsigs => by
      rw [List.foldlM_cons, lookedUp]
      cases hmine : mineIndex s.toCTxIn tx.vin with
      | none =>
          have hstep : signInput keystore e (tx, sigs) s = some (tx, sigs) := by
            simp [signInput, hmine]
          simp only [hstep]
          exact signEntries_run rest hshape hsigs
      | some mine =>
          dsimp only
          cases hfound : outputsFound txTo.vout e with
          | false =>
              refine .inl ⟨⟨e, List.mem_cons_self, hfound⟩, ?_⟩
              have hstep : signInput keystore e (tx, sigs) s = none := by
                simp [signInput, hmine, hshape.vout, hfound]
              simp [hstep]
          | true =>
              generalize htx' : (keystore.signSignature s.prevPubKey tx mine finalHashType).2 = tx'
              have hshape' : SameShape txTo tx' := htx' ▸ hshape.signSignature keystore _ _ _
              obtain ⟨i, hi⟩ : ∃ i, tx'.vin[mine]? = some i := by
                have hlt : mine < tx'.vin.length := by
                  have hlen := congrArg List.length (hshape'.prevouts.trans hshape.prevouts.symm)
                  simp only [List.length_map] at hlen
                  rw [hlen]
                  exact (List.getElem?_eq_some_iff.1 (getElem?_of_mineIndex hmine)).1
                exact ⟨_, List.getElem?_eq_getElem hlt⟩
              have hstep : signInput keystore e (tx, sigs) s = some (tx', sigs ++ [i]) := by
                simp [signInput, hmine, hshape.vout, hfound, htx', hi]
              have hsigs' : ∀ j ∈ sigs ++ [i], j.prevout ∈ txTo.vin.map CTxIn.prevout := by
                intro j hj
                rcases List.mem_append.1 hj with hj | hj
                · exact hsigs j hj
                · rw [List.mem_singleton.1 hj, ← hshape'.prevouts]
                  exact List.mem_map_of_mem (List.mem_of_getElem? hi)
              simp only [hstep]
              rcases signEntries_run rest hshape' hsigs' with ⟨⟨e', he', hno⟩, hrun⟩ |
                ⟨hall, tx'', sigs'', hrun, hlen, hprev⟩
              · exact .inl ⟨⟨e', List.mem_cons_of_mem _ he', hno⟩, hrun⟩
              · refine .inr ⟨?_, tx'', sigs'', hrun, ?_, hprev⟩
                · intro e' he'
                  rcases List.mem_cons.1 he' with rfl | he'
                  · exact hfound
                  · exact hall e' he'
                · simp only [hlen, List.length_append, List.length_cons, List.length_nil]
                  omega

/-- **Entries with different coins.**  Then those looked up are those with an input in the
transaction, whatever was signed before. -/
theorem mem_lookedUp_iff :
    ∀ {lines : List (CObfuscationEntry × CTxDSIn)} {tx : CMutableTransaction},
      (lines.map fun l => l.2.prevout).Nodup → ∀ e,
      e ∈ lookedUp keystore lines tx ↔ ∃ s, (e, s) ∈ lines ∧ s.toCTxIn ∈ tx.vin
  | [], tx, _, e => by simp [lookedUp]
  | (e', s') :: rest, tx, hnodup, e => by
      rw [List.map_cons, List.nodup_cons] at hnodup
      cases hmine : mineIndex s'.toCTxIn tx.vin with
      | none =>
          have hno : s'.toCTxIn ∉ tx.vin := mineIndex_eq_none.1 hmine
          simp only [lookedUp, hmine, mem_lookedUp_iff hnodup.2 e, List.mem_cons, Prod.mk.injEq]
          constructor
          · rintro ⟨s, hs, hin⟩
            exact ⟨s, .inr hs, hin⟩
          · rintro ⟨s, ⟨rfl, rfl⟩ | hs, hin⟩
            · exact absurd hin hno
            · exact ⟨s, hs, hin⟩
      | some mine =>
          have hget := getElem?_of_mineIndex hmine
          simp only [lookedUp, hmine, mem_lookedUp_iff hnodup.2 e, List.mem_cons, Prod.mk.injEq]
          -- an input of another coin is where it was
          have hsame : ∀ s, (e, s) ∈ rest → (s.toCTxIn ∈
              (keystore.signSignature s'.prevPubKey tx mine finalHashType).2.vin ↔
                s.toCTxIn ∈ tx.vin) := by
            intro s hs
            obtain ⟨scriptSig, heq⟩ := signSignature_eq keystore s'.prevPubKey tx mine finalHashType
            have hne : s.prevout ≠ s'.prevout := by
              intro hp
              exact hnodup.1 (List.mem_map.2 ⟨(e, s), hs, hp⟩)
            rw [heq, CMutableTransaction.setScriptSig, List.mem_iff_getElem?, List.mem_iff_getElem?]
            refine exists_congr fun n => ?_
            rw [List.getElem?_modify]
            by_cases hn : mine = n
            · subst hn
              rw [hget]
              constructor
              · intro h
                simp only [if_true, Option.map_eq_map, Option.map_some, Option.some.injEq] at h
                exact absurd (congrArg CTxIn.prevout h).symm hne
              · intro h
                exact absurd (congrArg CTxIn.prevout (Option.some.inj h)).symm hne
            · simp [hn]
          constructor
          · rintro (rfl | ⟨s, hs, hin⟩)
            · exact ⟨s', .inl ⟨rfl, rfl⟩, List.mem_of_getElem? hget⟩
            · exact ⟨s, .inr hs, (hsame s hs).1 hin⟩
          · rintro ⟨s, ⟨rfl, rfl⟩ | hs, hin⟩
            · exact .inl rfl
            · exact .inr ⟨s, hs, (hsame s hs).2 hin⟩

/-! ## When a client signs only what it agreed to -/

theorem signFinalTransaction_masterNode {hasNode : Bool} {nowMillis : ℤ} {p : Pool}
    {tx : CMutableTransaction} :
    (signFinalTransaction keystore true hasNode nowMillis p tx).dss = none := rfl

/-- When signatures are sent. -/
theorem signFinalTransaction_dss (hasNode : Bool) (nowMillis : ℤ) (p : Pool)
    (tx : CMutableTransaction) :
    let looked := lookedUp keystore (p.entries.flatMap CObfuscationEntry.lines) tx
    let dss := (signFinalTransaction keystore false hasNode nowMillis p tx).dss
    (dss = none ∧ (hasNode = false ∨ looked = [] ∨ ∃ e ∈ looked, outputsFound tx.vout e = false)) ∨
    (hasNode = true ∧ looked ≠ [] ∧ (∀ e ∈ looked, outputsFound tx.vout e = true) ∧
      ∃ sigs, dss = some sigs ∧ ∀ i ∈ sigs, i.prevout ∈ tx.vin.map CTxIn.prevout) := by
  intro looked dss
  rcases signEntries_run keystore (p.entries.flatMap CObfuscationEntry.lines)
      (⟨rfl, rfl⟩ : SameShape tx tx) (List.forall_mem_nil _) with
    ⟨hno, hrun⟩ | ⟨hall, tx', sigs, hrun, hlen, hprev⟩
  · refine .inl ⟨?_, .inr (.inr hno)⟩
    simp [dss, signFinalTransaction, signEntries_eq, hrun]
  · have hdss : dss = if 0 < sigs.length && hasNode then some sigs else none := by
      simp [dss, signFinalTransaction, signEntries_eq, hrun]
    rw [List.length_nil, Nat.zero_add] at hlen
    cases hasNode with
    | false => exact .inl ⟨by simp [hdss], .inl rfl⟩
    | true =>
        by_cases hnil : looked = []
        · have hzero : sigs.length = 0 := by rw [hlen, List.length_eq_zero_iff]; exact hnil
          exact .inl ⟨by simp [hdss, hzero], .inr (.inl hnil)⟩
        · refine .inr ⟨rfl, hnil, hall, sigs, ?_, hprev⟩
          have hpos : 0 < sigs.length := by rw [hlen]; exact List.length_pos_iff.2 hnil
          simp [hdss, hpos]

/-- An entry with an input among the signatures has one in the transaction. -/
theorem HasInput.mono {vin vin' : List CTxIn} {e : CObfuscationEntry}
    (h : ∀ i ∈ vin, i.prevout ∈ vin'.map CTxIn.prevout) (hin : HasInput vin e) :
    HasInput vin' e := by
  obtain ⟨s, hs, i, hi, heq⟩ := hin
  obtain ⟨j, hj, hij⟩ := List.mem_map.1 (h i hi)
  exact ⟨s, hs, j, hj, hij.trans heq⟩

/-- The promise, once it is known whether signatures are sent. -/
theorem signsAgreed_of_some {entries : List CObfuscationEntry} {tx : CMutableTransaction}
    {sigs : List CTxIn} (hprev : ∀ i ∈ sigs, i.prevout ∈ tx.vin.map CTxIn.prevout) :
    SignsAgreed entries tx (some sigs) ↔
      ∀ e ∈ entries, HasInput tx.vin e → Agreed tx.vout e := by
  constructor
  · rintro ⟨-, h⟩ e he hin
    by_contra hno
    cases h ⟨e, he, hin, hno⟩
  · intro h
    refine ⟨?_, ?_⟩
    · intro sigs' hsigs' e he hin
      cases hsigs'
      exact h e he (hin.mono hprev)
    · rintro ⟨e, he, hin, hno⟩
      exact absurd (h e he hin) hno

theorem signsAgreed_none {entries : List CObfuscationEntry} {tx : CMutableTransaction} :
    SignsAgreed entries tx none :=
  ⟨nofun, fun _ => rfl⟩

/-- **When a client signs only what it agreed to.**  There is nothing to send, or an entry that is
looked up fails the test of matches and sums, or every entry that has an input in the transaction
has its outputs there. -/
theorem signFinalTransaction_agreed_iff (fMasterNode hasNode : Bool) (nowMillis : ℤ) (p : Pool)
    (finalTransactionNew : CMutableTransaction) :
    let looked := lookedUp keystore (p.entries.flatMap CObfuscationEntry.lines) finalTransactionNew
    let found := fun o => (finalTransactionNew.vout.count o : ℤ)
    SignsAgreed p.entries finalTransactionNew
        (signFinalTransaction keystore fMasterNode hasNode nowMillis p finalTransactionNew).dss ↔
      fMasterNode = true ∨ hasNode = false ∨ looked = [] ∨
      (∃ e ∈ looked, (e.vout.map found).sum < e.vout.length ∨
        (e.vout.map fun o => found o * o.nValue).sum ≠ (e.vout.map CTxOut.nValue).sum) ∨
      ∀ e ∈ p.entries, HasInput finalTransactionNew.vin e → Agreed finalTransactionNew.vout e := by
  intro looked found
  cases fMasterNode with
  | true => simp [signFinalTransaction_masterNode, signsAgreed_none]
  | false =>
      have hfails : ∀ e, outputsFound finalTransactionNew.vout e = false ↔
          (e.vout.map found).sum < e.vout.length ∨
          (e.vout.map fun o => found o * o.nValue).sum ≠ (e.vout.map CTxOut.nValue).sum := by
        intro e
        rw [← Bool.not_eq_true, outputsFound_iff, not_and_or, not_le]
      simp only [← hfails]
      rcases signFinalTransaction_dss keystore hasNode nowMillis p finalTransactionNew with
        ⟨hnone, hwhy⟩ | ⟨hnode, hlooked, hall, sigs, hsome, hprev⟩
      · rw [hnone]
        refine iff_of_true signsAgreed_none (.inr ?_)
        rcases hwhy with h | h | h
        · exact .inl h
        · exact .inr (.inl h)
        · exact .inr (.inr (.inl h))
      · rw [hsome, signsAgreed_of_some hprev]
        constructor
        · intro h
          exact .inr (.inr (.inr (.inr h)))
        · rintro (h | h | h | ⟨e, he, hno⟩ | h)
          · cases h
          · rw [hnode] at h
            cases h
          · exact absurd h hlooked
          · rw [hall e he] at hno
            cases hno
          · exact h

/-- An entry that is to be paid twice the same, to two scripts. -/
def twoOutputs : CObfuscationEntry where
  sev := [{ prevout := ⟨7, 0⟩, prevPubKey := 33 :: oneKey.pubKey () ++ [0xac] }]
  vout := [{ nValue := 100, scriptPubKey := [1] }, { nValue := 100, scriptPubKey := [2] }]
  amount := 0
  collateral := { hash := 0, vin := [], vout := [] }
  addedTime := 0

/-- A transaction that pays twice to the first script. -/
def paysFirstTwice : CMutableTransaction where
  vin := [{ prevout := ⟨7, 0⟩ }]
  vout := [{ nValue := 100, scriptPubKey := [1] }, { nValue := 100, scriptPubKey := [1] }]

/-- The client signs a transaction that leaves out its second output. -/
theorem signFinalTransaction_pays_first_twice :
    ¬ SignsAgreed [twoOutputs] paysFirstTwice (signFinalTransaction oneKeyStore false true 0
      { Pool.setNull 0 with entries := [twoOutputs] } paysFirstTwice).dss := by
  rintro ⟨-, h⟩
  have hsent : (signFinalTransaction oneKeyStore false true 0
      { Pool.setNull 0 with entries := [twoOutputs] } paysFirstTwice).dss =
      some [{ prevout := ⟨7, 0⟩, scriptSig := 9 :: oneKey.sign () 0 ++ [0x81] }] := by
    decide
  have hnone := h ⟨twoOutputs, List.mem_singleton_self _, by decide, by decide⟩
  rw [hsent] at hnone
  cases hnone

end Mixing

end FairCoin
