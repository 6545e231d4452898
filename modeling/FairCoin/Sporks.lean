import FairCoin.Primitives
import FairCoin.Lib.Store
import FairCoin.Lib.Register

/-!
# Sporks

`ProcessSpork`, `IsSporkActive`, `GetSporkValue` and `CSporkManager` of `src/spork.cpp`: signed
settings that every node takes from the network.

* `lookup_deliver` — the active message of a spork is what a register of the newest valid messages
  holds.
* `sporks_converge_iff` — **two nodes agree whatever the order of delivery** exactly when neither
  runs in lite mode and no two newest messages of a spork were signed in the same second.
-/

namespace FairCoin

open Store

/-! ## Messages -/

/-- `CSporkMessage`. -/
structure CSporkMessage where
  vchSig : List UInt8 := []
  nSporkID : ℤ
  nValue : ℤ
  nTimeSigned : ℤ
  deriving DecidableEq

/-- The parameters of the network, `VerifyMessage` under the spork key, `SignMessage` under the
private key of the node, and the hash of the fields of a message without its signature. -/
structure SporkEnv where
  networkIDString : String
  messageStart : String
  hashGenesisBlock : String
  verifyMessage : List UInt8 → String → Bool
  signMessage : String → Option (List UInt8)
  hashQuark : ℤ → ℤ → ℤ → UInt256

namespace SporkEnv

/-- `GetSporkSignatureMessage`. -/
def getSporkSignatureMessage (E : SporkEnv) (spork : CSporkMessage) : String :=
  "spork:" ++ E.networkIDString ++ ":" ++ E.messageStart ++ ":" ++ E.hashGenesisBlock ++ ":" ++
    toString spork.nSporkID ++ ":" ++ toString spork.nValue ++ ":" ++ toString spork.nTimeSigned

/-- `CSporkManager::CheckSignature`. -/
def checkSignature (E : SporkEnv) (spork : CSporkMessage) : Bool :=
  E.verifyMessage spork.vchSig (E.getSporkSignatureMessage spork)

/-- `CSporkMessage::GetHash`. -/
def getHash (E : SporkEnv) (spork : CSporkMessage) : UInt256 :=
  E.hashQuark spork.nSporkID spork.nValue spork.nTimeSigned

end SporkEnv

/-- What `ExecuteSpork` makes the node do. -/
inductive SporkTask where
  | clearBudget
  | reprocessBlocks (nBlocks : ℤ)
  deriving DecidableEq

/-- `SPORK_11_RESET_BUDGET`. -/
def spork11ResetBudget : ℤ := 10010

/-- `SPORK_12_RECONSIDER_BLOCKS`. -/
def spork12ReconsiderBlocks : ℤ := 10011

/-- `ExecuteSpork`; the value arrives as an `int`. -/
def executeSpork (nSporkID nValue : ℤ) : List SporkTask :=
  (if nSporkID = spork11ResetBudget ∧ nValue = 1 then [.clearBudget] else []) ++
    if nSporkID = spork12ReconsiderBlocks ∧ 0 < nValue then [.reprocessBlocks nValue] else []

/-! ## A node -/

/-- The spork maps of a node, whether it has a tip, and what its sporks made it do. -/
structure SporkState where
  fLiteMode : Bool := false
  hasTip : Bool := true
  mapSporks : Map UInt256 CSporkMessage := ∅
  mapSporksActive : Map ℤ CSporkMessage := ∅
  tasks : List SporkTask := []

/-- A message is recorded as the active one of its spork. -/
def SporkState.store (E : SporkEnv) (s : SporkState) (spork : CSporkMessage) : SporkState :=
  { s with
    mapSporks := s.mapSporks.insert (E.getHash spork) spork
    mapSporksActive := s.mapSporksActive.insert spork.nSporkID spork }

/-- `ProcessSpork` for a `spork` message. -/
def processSpork (E : SporkEnv) (s : SporkState) (spork : CSporkMessage) : SporkState :=
  if s.fLiteMode then s
  else if !s.hasTip then s
  else if (s.mapSporksActive.lookup spork.nSporkID).any fun active =>
      decide (spork.nTimeSigned ≤ active.nTimeSigned) then s
  else if !E.checkSignature spork then s
  else
    { s.store E spork with
      tasks := s.tasks ++ executeSpork spork.nSporkID (wrap32 spork.nValue) }

/-- `CSporkManager::UpdateSpork`: the holder of the key changes a spork. -/
def updateSpork (E : SporkEnv) (now : ℤ) (nSporkID nValue : ℤ) (s : SporkState) :
    Bool × SporkState :=
  let msg : CSporkMessage := { nSporkID, nValue, nTimeSigned := now }
  match E.signMessage (E.getSporkSignatureMessage msg) with
  | some vchSig => (true, s.store E { msg with vchSig })
  | none => (false, s)

/-- The value of a spork nobody has set: the defaults of `spork.h`, and -1 for an unknown spork. -/
def sporkDefault (nSporkID : ℤ) : ℤ :=
  if nSporkID = 10001 then 978307200
  else if nSporkID = 10002 then 1424217600
  else if nSporkID = 10004 then 1000
  else if nSporkID = 10006 then 978307200
  else if nSporkID = 10007 then 1424217600
  else if nSporkID = 10008 then 4070908800
  else if nSporkID = 10009 then 1621119094
  else if nSporkID = 10010 then 0
  else if nSporkID = 10011 then 0
  else if nSporkID = 10012 then 4070908800
  else if nSporkID = 10013 then 1621119094
  else if nSporkID = 10014 then 4070908800
  else if nSporkID = 10015 then 8000
  else -1

/-- `GetSporkValue`. -/
def getSporkValue (s : SporkState) (nSporkID : ℤ) : ℤ :=
  match s.mapSporksActive.lookup nSporkID with
  | some active => active.nValue
  | none => sporkDefault nSporkID

/-- `IsSporkActive` at a time. -/
def isSporkActive (s : SporkState) (nSporkID now : ℤ) : Bool :=
  let r := getSporkValue s nSporkID
  decide ((if r = -1 then 4070908800 else r) < now)

/-- A node with empty spork maps and a tip. -/
def SporkState.start (fLiteMode : Bool) : SporkState := { fLiteMode }

/-- The node after a list of messages. -/
def deliver (E : SporkEnv) (fLiteMode : Bool) (d : List CSporkMessage) : SporkState :=
  d.foldl (processSpork E) (.start fLiteMode)

/-! ## The register of a spork -/

section Register

variable {E : SporkEnv}

/-- The valid messages about a spork, as they arrive. -/
def SporkEnv.validFor (E : SporkEnv) (nSporkID : ℤ) (d : List CSporkMessage) :
    List CSporkMessage :=
  d.filter fun m => decide (m.nSporkID = nSporkID) && E.checkSignature m

theorem SporkEnv.mem_validFor {nSporkID : ℤ} {d : List CSporkMessage} {m : CSporkMessage} :
    m ∈ E.validFor nSporkID d ↔ m ∈ d ∧ m.nSporkID = nSporkID ∧ E.checkSignature m = true := by
  simp [SporkEnv.validFor]

theorem SporkEnv.validFor_cons (k : ℤ) (m : CSporkMessage) (d : List CSporkMessage) :
    E.validFor k (m :: d) = if m.nSporkID = k ∧ E.checkSignature m = true then
      m :: E.validFor k d else E.validFor k d := by
  simp only [SporkEnv.validFor, List.filter_cons, Bool.and_eq_true, decide_eq_true_eq]

theorem processSpork_lite (s : SporkState) (hs : s.fLiteMode = true) (m : CSporkMessage) :
    processSpork E s m = s := by
  rw [processSpork, if_pos hs]

theorem deliver_lite (d : List CSporkMessage) : deliver E true d = .start true := by
  unfold deliver
  induction d with
  | nil => rfl
  | cons m d ih =>
    rw [List.foldl_cons, processSpork_lite _ rfl]
    exact ih

/-- A message offered to a full node: the register of its spork takes it if it is valid. -/
theorem lookup_processSpork {s : SporkState} (hlite : s.fLiteMode = false) (htip : s.hasTip = true)
    (m : CSporkMessage) (k : ℤ) : (processSpork E s m).mapSporksActive.lookup k =
      if m.nSporkID = k ∧ E.checkSignature m = true then
        Register.put CSporkMessage.nTimeSigned (s.mapSporksActive.lookup k) m
      else s.mapSporksActive.lookup k := by
  unfold processSpork
  rw [if_neg (by simp [hlite]), if_neg (by simp [htip])]
  split
  · next hold =>
    -- the message is not newer than the one held
    obtain ⟨active, hactive, hle⟩ := (Option.any_eq_true _ _).1 hold
    split
    · next hk =>
      rw [← hk.1, hactive, Register.put, if_pos (by simpa using hle)]
    · rfl
  · next hnew =>
    cases hsig : E.checkSignature m with
    | false => simp
    | true =>
      rw [if_neg (by simp)]
      show (s.mapSporksActive.insert m.nSporkID m).lookup k = _
      rw [lookup_insert_eq]
      by_cases hk : m.nSporkID = k
      · subst hk
        rw [if_pos rfl, if_pos ⟨rfl, rfl⟩]
        cases hheld : s.mapSporksActive.lookup m.nSporkID with
        | none => rfl
        | some active =>
          rw [Register.put, if_neg]
          intro hle
          exact hnew (by simp [hheld, hle])
      · rw [if_neg (fun h => hk h.symm), if_neg (fun h => hk h.1)]

theorem processSpork_flags (s : SporkState) (m : CSporkMessage) :
    (processSpork E s m).fLiteMode = s.fLiteMode ∧ (processSpork E s m).hasTip = s.hasTip := by
  unfold processSpork
  repeat' split
  all_goals exact ⟨rfl, rfl⟩

theorem lookup_foldl_processSpork (k : ℤ) (d : List CSporkMessage) : ∀ s : SporkState,
    s.fLiteMode = false → s.hasTip = true →
    (d.foldl (processSpork E) s).mapSporksActive.lookup k =
      (E.validFor k d).foldl (Register.put CSporkMessage.nTimeSigned)
        (s.mapSporksActive.lookup k) := by
  induction d with
  | nil => exact fun s _ _ => rfl
  | cons m d ih =>
    intro s hlite htip
    obtain ⟨hlite', htip'⟩ := processSpork_flags (E := E) s m
    rw [List.foldl_cons, ih _ (hlite'.trans hlite) (htip'.trans htip),
      lookup_processSpork hlite htip, SporkEnv.validFor_cons]
    by_cases hm : m.nSporkID = k ∧ E.checkSignature m = true
    · rw [if_pos hm, if_pos hm, List.foldl_cons]
    · rw [if_neg hm, if_neg hm]

/-- **The active message is the newest.**  A full node holds for every spork what a register of
the valid messages about it holds. -/
theorem lookup_deliver (d : List CSporkMessage) (k : ℤ) :
    (deliver E false d).mapSporksActive.lookup k =
      Register.hold CSporkMessage.nTimeSigned (E.validFor k d) :=
  lookup_foldl_processSpork k d (.start false) rfl rfl

end Register

/-! ## Convergence -/

section Convergence

variable {E : SporkEnv} {M : List CSporkMessage}

/-- A delivery of the valid messages of a list, in any order, with repetitions, and interleaved
with messages that are not valid. -/
def Delivers (E : SporkEnv) (M d : List CSporkMessage) : Prop :=
  ∀ m, E.checkSignature m = true → (m ∈ d ↔ m ∈ M)

/-- The two nodes hold the same messages, one of the newest for every spork, and read the same
settings off them. -/
structure Agree (E : SporkEnv) (M : List CSporkMessage) (s₁ s₂ : SporkState) : Prop where
  same : ∀ k, s₁.mapSporksActive.lookup k = s₂.mapSporksActive.lookup k
  newest : ∀ k m, s₁.mapSporksActive.lookup k = some m →
    Register.Newest CSporkMessage.nTimeSigned (E.validFor k M) m
  none : ∀ k, s₁.mapSporksActive.lookup k = none → E.validFor k M = []
  active : ∀ k now, isSporkActive s₁ k now = isSporkActive s₂ k now
  value : ∀ k, getSporkValue s₁ k = getSporkValue s₂ k

/-- Two newest messages of one spork are the same message. -/
def NoTie (E : SporkEnv) (M : List CSporkMessage) : Prop :=
  ∀ k m m', Register.Newest CSporkMessage.nTimeSigned (E.validFor k M) m →
    Register.Newest CSporkMessage.nTimeSigned (E.validFor k M) m' → m = m'

theorem Delivers.mem_validFor {d : List CSporkMessage} (h : Delivers E M d) {k : ℤ}
    {m : CSporkMessage} : m ∈ E.validFor k d ↔ m ∈ E.validFor k M := by
  rw [SporkEnv.mem_validFor, SporkEnv.mem_validFor]
  constructor
  · rintro ⟨hm, hk, hsig⟩
    exact ⟨(h m hsig).1 hm, hk, hsig⟩
  · rintro ⟨hm, hk, hsig⟩
    exact ⟨(h m hsig).2 hm, hk, hsig⟩

theorem Delivers.newest {d : List CSporkMessage} (h : Delivers E M d) {k : ℤ} {m : CSporkMessage}
    (hm : (deliver E false d).mapSporksActive.lookup k = some m) :
    Register.Newest CSporkMessage.nTimeSigned (E.validFor k M) m := by
  rw [lookup_deliver] at hm
  have hnew := Register.hold_newest hm
  exact ⟨h.mem_validFor.1 hnew.mem, fun b hb => hnew.le b (h.mem_validFor.2 hb)⟩

theorem Delivers.none {d : List CSporkMessage} (h : Delivers E M d) {k : ℤ}
    (hk : (deliver E false d).mapSporksActive.lookup k = none) : E.validFor k M = [] := by
  rw [lookup_deliver, Register.hold_eq_none] at hk
  rw [List.eq_nil_iff_forall_not_mem]
  intro m hm
  have := h.mem_validFor.2 hm
  rw [hk] at this
  exact absurd this (by simp)

/-- Settings are read off the active messages alone. -/
theorem agree_of_same {s₁ s₂ : SporkState}
    (h : ∀ k, s₁.mapSporksActive.lookup k = s₂.mapSporksActive.lookup k) :
    (∀ k, getSporkValue s₁ k = getSporkValue s₂ k) ∧
      ∀ k now, isSporkActive s₁ k now = isSporkActive s₂ k now := by
  have hvalue : ∀ k, getSporkValue s₁ k = getSporkValue s₂ k := fun k => by
    unfold getSporkValue
    rw [h]
  refine ⟨hvalue, fun k now => ?_⟩
  unfold isSporkActive
  rw [hvalue]

/-- Without ties two full nodes agree. -/
theorem Delivers.agree {d₁ d₂ : List CSporkMessage} (h₁ : Delivers E M d₁) (h₂ : Delivers E M d₂)
    (htie : NoTie E M) : Agree E M (deliver E false d₁) (deliver E false d₂) := by
  have hsame : ∀ k, (deliver E false d₁).mapSporksActive.lookup k =
      (deliver E false d₂).mapSporksActive.lookup k := by
    intro k
    cases hk₁ : (deliver E false d₁).mapSporksActive.lookup k with
    | none =>
      rw [lookup_deliver, eq_comm, Register.hold_eq_none, List.eq_nil_iff_forall_not_mem]
      intro m hm
      have := h₂.mem_validFor.1 hm
      rw [h₁.none hk₁] at this
      exact absurd this (by simp)
    | some m =>
      cases hk₂ : (deliver E false d₂).mapSporksActive.lookup k with
      | none =>
        have := (h₁.newest hk₁).mem
        rw [h₂.none hk₂] at this
        exact absurd this (by simp)
      | some m' => rw [htie k m m' (h₁.newest hk₁) (h₂.newest hk₂)]
  obtain ⟨hvalue, hactive⟩ := agree_of_same hsame
  exact ⟨hsame, fun k m => h₁.newest, fun k => h₁.none, hactive, hvalue⟩

/-- The newest message that is delivered first is held. -/
theorem deliver_newest_first {k : ℤ} {m : CSporkMessage}
    (h : Register.Newest CSporkMessage.nTimeSigned (E.validFor k M) m) :
    Delivers E M (m :: M) ∧ (deliver E false (m :: M)).mapSporksActive.lookup k = some m := by
  obtain ⟨hmem, hk, hsig⟩ := SporkEnv.mem_validFor.1 h.mem
  constructor
  · intro x _
    rw [List.mem_cons, or_iff_right_of_imp]
    rintro rfl
    exact hmem
  · rw [lookup_deliver, SporkEnv.validFor_cons, if_pos ⟨hk, hsig⟩]
    exact Register.hold_cons_of_le h.le

/-- **When sporks converge.**  Two nodes that are sent the same valid messages, each in its own
order, agree whatever the orders exactly when neither runs in lite mode (or there is no valid
message at all) and no two newest messages of a spork carry the same time. -/
theorem sporks_converge_iff (E : SporkEnv) (M : List CSporkMessage) (lite₁ lite₂ : Bool) :
    (∀ d₁ d₂, Delivers E M d₁ → Delivers E M d₂ →
      Agree E M (deliver E lite₁ d₁) (deliver E lite₂ d₂)) ↔
    ((lite₁ = false ∧ lite₂ = false) ∨ ∀ m ∈ M, E.checkSignature m = false) ∧ NoTie E M := by
  have hself : Delivers E M M := fun _ _ => Iff.rfl
  constructor
  · intro h
    have hM := h M M hself hself
    by_cases hvalid : ∀ m ∈ M, E.checkSignature m = false
    · refine ⟨.inr hvalid, fun k m m' hm _ => ?_⟩
      obtain ⟨hmem, -, hsig⟩ := SporkEnv.mem_validFor.1 hm.mem
      exact absurd (hsig.symm.trans (hvalid m hmem)) (by simp)
    · push Not at hvalid
      obtain ⟨m, hmem, hsig⟩ := hvalid
      have hm : m ∈ E.validFor m.nSporkID M :=
        SporkEnv.mem_validFor.2 ⟨hmem, rfl, by simpa using hsig⟩
      -- a lite node holds nothing
      have hsome : ((deliver E lite₁ M).mapSporksActive.lookup m.nSporkID).isSome = true := by
        rw [Option.isSome_iff_ne_none]
        intro hnone
        rw [hM.none _ hnone] at hm
        exact absurd hm (by simp)
      have hlite₁ : lite₁ = false := by
        cases lite₁ with
        | false => rfl
        | true =>
          rw [deliver_lite] at hsome
          exact absurd hsome (by simp [SporkState.start])
      have hlite₂ : lite₂ = false := by
        cases lite₂ with
        | false => rfl
        | true =>
          rw [hM.same, deliver_lite] at hsome
          exact absurd hsome (by simp [SporkState.start])
      subst hlite₁ hlite₂
      refine ⟨.inl ⟨rfl, rfl⟩, fun k a b ha hb => ?_⟩
      obtain ⟨hda, hla⟩ := deliver_newest_first ha
      obtain ⟨hdb, hlb⟩ := deliver_newest_first hb
      have := (h _ _ hda hdb).same k
      rw [hla, hlb] at this
      exact Option.some.inj this
  · rintro ⟨⟨rfl, rfl⟩ | hvalid, htie⟩ d₁ d₂ h₁ h₂
    · exact h₁.agree h₂ htie
    · -- nothing is ever stored
      have hnil : ∀ k, E.validFor k M = [] := by
        intro k
        rw [List.eq_nil_iff_forall_not_mem]
        intro m hm
        obtain ⟨hmem, -, hsig⟩ := SporkEnv.mem_validFor.1 hm
        exact absurd (hsig.symm.trans (hvalid m hmem)) (by simp)
      have hempty : ∀ lite d, Delivers E M d → ∀ k,
          (deliver E lite d).mapSporksActive.lookup k = none := by
        intro lite d hd k
        cases lite with
        | true => rw [deliver_lite]; rfl
        | false =>
          rw [lookup_deliver, Register.hold_eq_none, List.eq_nil_iff_forall_not_mem]
          intro m hm
          have := hd.mem_validFor.1 hm
          rw [hnil] at this
          exact absurd this (by simp)
      have hsame : ∀ k, (deliver E lite₁ d₁).mapSporksActive.lookup k =
          (deliver E lite₂ d₂).mapSporksActive.lookup k := fun k => by
        rw [hempty lite₁ d₁ h₁, hempty lite₂ d₂ h₂]
      obtain ⟨hvalue, hactive⟩ := agree_of_same hsame
      refine ⟨hsame, fun k m hm => ?_, fun k _ => hnil k, hactive, hvalue⟩
      rw [hempty lite₁ d₁ h₁] at hm
      exact absurd hm (by simp)

/-- A network in which every signature is valid. -/
def openSporkEnv : SporkEnv where
  networkIDString := "main"
  messageStart := "bf0c6bbd"
  hashGenesisBlock := "0"
  verifyMessage _ _ := true
  signMessage _ := some []
  hashQuark _ nValue _ := BitVec.ofInt 256 nValue

/-- **A spork changed twice in a second splits the network.**  Two messages about SwiftTX with the
same time are delivered to two nodes in the two orders, and each node keeps the first; the node
that signs them keeps the second. -/
theorem sporks_split :
    let a : CSporkMessage := { nSporkID := 10001, nValue := 0, nTimeSigned := 1500000000 }
    let b : CSporkMessage := { nSporkID := 10001, nValue := 4070908800, nTimeSigned := 1500000000 }
    (openSporkEnv.checkSignature a = true ∧ openSporkEnv.checkSignature b = true) ∧
    getSporkValue (deliver openSporkEnv false [a, b]) 10001 = 0 ∧
    getSporkValue (deliver openSporkEnv false [b, a]) 10001 = 4070908800 ∧
    isSporkActive (deliver openSporkEnv false [a, b]) 10001 1500000001 = true ∧
    isSporkActive (deliver openSporkEnv false [b, a]) 10001 1500000001 = false ∧
    getSporkValue (updateSpork openSporkEnv 1500000000 10001 4070908800
      (updateSpork openSporkEnv 1500000000 10001 0 (.start false)).2).2 10001 = 4070908800 := by
  decide

end Convergence

end FairCoin
