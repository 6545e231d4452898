import FairCoin.Production
import FairCoin.Script
import FairCoin.Lib.Run

/-!
# The mixing pool of a masternode

`CObfuscationPool` of `src/obfuscation.cpp` as a masternode runs it: peers ask to join a session
(`dsa`), those admitted submit their inputs and outputs (`dsi`), the masternode puts them together
into one transaction, and the peers send the signatures of their inputs (`dss`).

* `Mixing.Pool` — the session, its entries and the transaction to be signed.
* `isCompatibleWithSession`, `addEntry`, `addScriptSig`, `check`, `checkTimeout` — the operations,
  under the names of the source.
* `Mixing.step` — what a masternode does on a message, on a timer, and on `Reset`; the state of
  the block chain it finds comes with the action.
-/

namespace FairCoin

namespace Mixing

/-! ## Entries -/

/-- The values of `PoolStatus` a masternode can take. -/
inductive PoolStatus
  | idle
  | queue
  | acceptingEntries
  | finalizeTransaction
  | signing
  | transmission
  | error
  | success
  deriving DecidableEq, Repr

/-- The error messages of the pool. -/
inductive PoolMessage
  | alreadyHave
  | denom
  | entriesFull
  | existingTx
  | fees
  | invalidCollateral
  | invalidInput
  | invalidScript
  | invalidTx
  | maximum
  | mnList
  | mode
  | nonStandardPubkey
  | queueFull
  | recent
  | session
  | missingTx
  | version
  deriving DecidableEq, Repr

/-- `CTxDSIn`.  `prevPubKey` is no part of the serialisation of an input, so that it is empty on an
input that came in a message. -/
structure CTxDSIn extends CTxIn where
  prevPubKey : CScript := []
  fHasSig : Bool := false
  deriving DecidableEq, Repr

/-- `CObfuscationEntry`. -/
structure CObfuscationEntry where
  sev : List CTxDSIn
  vout : List CTxOut
  amount : ℤ
  collateral : CTransaction
  addedTime : ℤ
  deriving DecidableEq, Repr

/-- The inputs are the same but for the signature. -/
def sameInput (a b : CTxIn) : Bool := decide (a.prevout = b.prevout ∧ a.nSequence = b.nSequence)

/-- The loop of `CObfuscationEntry::AddSig`: the first input that fits takes the signature, unless
it has one. -/
def addSigLoop (vin : CTxIn) : List CTxDSIn → Option (List CTxDSIn)
  | [] => none
  | s :: sev =>
      if sameInput s.toCTxIn vin then
        if s.fHasSig then none
        else some ({ s with scriptSig := vin.scriptSig, prevPubKey := [], fHasSig := true } :: sev)
      else (addSigLoop vin sev).map (s :: ·)

/-- `CObfuscationEntry::AddSig`. -/
def CObfuscationEntry.addSig (vin : CTxIn) (e : CObfuscationEntry) : Option CObfuscationEntry :=
  (addSigLoop vin e.sev).map fun sev => { e with sev := sev }

/-- `OBFUSCATION_QUEUE_TIMEOUT`. -/
def queueTimeout : ℤ := 30

/-- `OBFUSCATION_SIGNING_TIMEOUT`. -/
def signingTimeout : ℤ := 15

/-- `CObfuscationEntry::IsExpired`. -/
def CObfuscationEntry.isExpired (now : ℤ) (e : CObfuscationEntry) : Bool :=
  decide (now - e.addedTime > queueTimeout)

/-! ## What the pool asks of the rest of the node -/

/-- What stays the same: the network, the check of the fees, which is made in floating point, and
the signature checker of an input of a transaction. -/
structure Env where
  network : Network
  feesTooHigh : ℤ → ℤ → Bool
  checker : CMutableTransaction → ℕ → ScriptEnv

/-- The block chain and the memory pool as a message finds them: `GetTransaction` and
`AcceptableInputs`, whose first argument is `fLimitFree`. -/
structure ChainView where
  getTransaction : UInt256 → Option CTransaction
  acceptableInputs : Bool → CMutableTransaction → Bool

/-- A random order. -/
structure Shuffle (α : Type) where
  order : List α → List α
  perm : ∀ l, (order l).Perm l

/-- No change of the order. -/
def Shuffle.none {α : Type} : Shuffle α := ⟨id, List.Perm.refl⟩

/-- What `Check` finds: the times, the orders `random_shuffle` picks, whether the transaction is
accepted to the memory pool, and whether the masternode can sign its announcement. -/
structure CheckView where
  nowMillis : ℤ
  shuffleIn : Shuffle CTxIn := Shuffle.none
  shuffleOut : Shuffle CTxOut := Shuffle.none
  acceptToMemoryPool : Bool := true
  canSign : Bool := true

/-- `GetMaxPoolTransactions`. -/
def getMaxPoolTransactions : Network → ℤ
  | .main => 3
  | .testnet => 2
  | .regtest => 2
  | .unittest => 3

/-- `ActiveProtocol`. -/
def activeProtocol : ℤ := 71000

/-- `COIN`. -/
def coin : ℤ := 100000000

/-- `OBFUSCATION_COLLATERAL`. -/
def obfuscationCollateral : ℤ := 10 * coin

/-- `OBFUSCATION_POOL_MAX`. -/
def obfuscationPoolMax : ℤ := 9999999000000

/-- `obfuscationDenominations`. -/
def obfuscationDenominations : List ℤ :=
  [10000 * coin + 10000000, 1000 * coin + 1000000, 100 * coin + 100000, 10 * coin + 10000,
    1 * coin + 1000, 10000000 + 100]

/-- `GetDenominations`: a bit for every denomination used, zero when an output has none. -/
def getDenominations (vout : List CTxOut) : ℤ :=
  if vout.all fun o => decide (o.nValue ∈ obfuscationDenominations) then
    (obfuscationDenominations.zipIdx.map fun d =>
      if vout.any fun o => decide (o.nValue = d.1) then (2 : ℤ) ^ d.2 else 0).sum
  else 0

/-- The loop of `CScript::IsNormalPaymentScript`. -/
def isNormalPaymentLoop : ℕ → ℕ → CScript → Bool
  | _, _, [] => true
  | 0, _, _ => true
  | n + 1, i, b :: pc =>
      match CScript.getOp (b :: pc) with
      | none => false
      | some (opcode, _, rest) =>
          if i = 0 ∧ opcode ≠ 0x76 then false
          else if i = 1 ∧ opcode ≠ 0xa9 then false
          else if i = 3 ∧ opcode ≠ 0x88 then false
          else if i = 4 ∧ opcode ≠ 0xac then false
          else if i = 5 then false
          else isNormalPaymentLoop n (i + 1) rest

/-- `CScript::IsNormalPaymentScript`. -/
def isNormalPaymentScript (script : CScript) : Bool :=
  decide (script.length = 25) && isNormalPaymentLoop script.length 0 script

/-- The value of the inputs a view knows, and whether one is missing. -/
def valueIn (view : ChainView) (vin : List CTxIn) : ℤ × Bool :=
  vin.foldl (fun acc i =>
    match view.getTransaction i.prevout.hash with
    | some tx2 => (acc.1 + ((tx2.vout[i.prevout.n]?).map CTxOut.nValue).getD 0, acc.2)
    | none => (acc.1, true)) (0, false)

/-- The value of the outputs. -/
def valueOut (vout : List CTxOut) : ℤ := (vout.map CTxOut.nValue).sum

/-- `IsCollateralValid`. -/
def isCollateralValid (view : ChainView) (txCollateral : CTransaction) : Bool :=
  if txCollateral.vout.length < 1 then false
  else if txCollateral.nLockTime ≠ 0 then false
  else if !txCollateral.vout.all fun o => isNormalPaymentScript o.scriptPubKey then false
  else
    let nValueIn := valueIn view txCollateral.vin
    if nValueIn.2 then false
    else if nValueIn.1 - valueOut txCollateral.vout < obfuscationCollateral then false
    else view.acceptableInputs true
      { nVersion := txCollateral.nVersion, vin := txCollateral.vin, vout := txCollateral.vout,
        nLockTime := txCollateral.nLockTime }

/-! ## The pool -/

/-- `CObfuscationPool`, what a masternode uses of it. -/
structure Pool where
  sessionUsers : ℤ := 0
  vecSessionCollateral : List CTransaction := []
  state : PoolStatus := .idle
  sessionID : ℤ := 0
  sessionDenom : ℤ := 0
  entries : List CObfuscationEntry := []
  finalTransaction : CMutableTransaction := {}
  lastTimeChanged : ℤ

namespace Pool

/-- `SetNull`. -/
def setNull (nowMillis : ℤ) : Pool := { lastTimeChanged := nowMillis }

/-- `UpdateState`: a masternode does not go to the states of an error or of success. -/
def updateState (newState : PoolStatus) (nowMillis : ℤ) (p : Pool) : Pool :=
  if newState = .error ∨ newState = .success then p
  else
    { p with
      lastTimeChanged := if p.state ≠ newState then nowMillis else p.lastTimeChanged
      state := newState }

/-- All inputs of the entries. -/
def inputs (p : Pool) : List CTxDSIn := p.entries.flatMap CObfuscationEntry.sev

end Pool

/-- `IsSessionReady`. -/
def isSessionReady (env : Env) (p : Pool) : Bool :=
  decide (getMaxPoolTransactions env.network ≤ p.sessionUsers)

/-- `IsCompatibleWithEntries`. -/
def isCompatibleWithEntries (vout : List CTxOut) (p : Pool) : Bool :=
  if getDenominations vout = 0 then false
  else p.entries.all fun v => decide (getDenominations vout = getDenominations v.vout)

/-- What a peer is told: a rejection for a denomination of zero leaves `errorID` unset. -/
inductive Reply
  | accepted
  | rejected (errorID : Option PoolMessage)
  deriving DecidableEq, Repr

/-- `IsCompatibleWithSession`; `nRand` is the random number of a new session. -/
def isCompatibleWithSession (env : Env) (view : ChainView) (nowMillis nRand nDenom : ℤ)
    (txCollateral : CTransaction) (p : Pool) : Reply × Pool :=
  if nDenom = 0 then (.rejected none, p)
  else if !isCollateralValid view txCollateral then (.rejected (some .invalidCollateral), p)
  else
    let p := if p.sessionUsers < 0 then { p with sessionUsers := 0 } else p
    if p.sessionUsers = 0 then
      let p := { p with
        sessionID := 1 + nRand
        sessionDenom := nDenom
        sessionUsers := p.sessionUsers + 1
        lastTimeChanged := nowMillis }.updateState .queue nowMillis
      (.accepted, { p with vecSessionCollateral := p.vecSessionCollateral ++ [txCollateral] })
    else if (p.state ≠ .acceptingEntries ∧ p.state ≠ .queue) ∨
        getMaxPoolTransactions env.network ≤ p.sessionUsers then
      (.rejected (some (if getMaxPoolTransactions env.network ≤ p.sessionUsers then .queueFull
        else .mode)), p)
    else if nDenom ≠ p.sessionDenom then (.rejected (some .denom), p)
    else
      (.accepted, { p with
        sessionUsers := p.sessionUsers + 1
        lastTimeChanged := nowMillis
        vecSessionCollateral := p.vecSessionCollateral ++ [txCollateral] })

/-- `AddEntry`: every rejection takes a user off. -/
def addEntry (env : Env) (view : ChainView) (now : ℤ) (newInput : List CTxIn) (nAmount : ℤ)
    (txCollateral : CTransaction) (newOutput : List CTxOut) (p : Pool) : Reply × Pool :=
  if newInput.any fun i => i.prevout.isNull || decide (nAmount < 0) then
    (.rejected (some .invalidInput), { p with sessionUsers := p.sessionUsers - 1 })
  else if !isCollateralValid view txCollateral then
    (.rejected (some .invalidCollateral), { p with sessionUsers := p.sessionUsers - 1 })
  else if getMaxPoolTransactions env.network ≤ p.entries.length then
    (.rejected (some .entriesFull), { p with sessionUsers := p.sessionUsers - 1 })
  else if newInput.any fun i => p.entries.any fun v => v.sev.any fun s => decide (s.toCTxIn = i) then
    (.rejected (some .alreadyHave), { p with sessionUsers := p.sessionUsers - 1 })
  else
    (.accepted, { p with
      entries := p.entries ++ [{
        sev := newInput.map fun i => { toCTxIn := i }
        vout := newOutput
        amount := nAmount
        collateral := txCollateral
        addedTime := now }] })

/-! ## Signatures -/

/-- `SCRIPT_VERIFY_P2SH | SCRIPT_VERIFY_STRICTENC`. -/
def signatureFlags : VerifyFlags := { p2sh := true, strictEnc := true }

/-- The last place of an input in a list. -/
def lastIndexOf (newVin : CTxIn) (l : List CTxDSIn) : Option ℕ :=
  l.zipIdx.foldl (fun found s => if s.1.toCTxIn = newVin then some s.2 else found) none

/-- `SignatureValid`: the transaction is put together anew, in the order of the entries, and the
signature is checked at the place where the input is found. -/
def signatureValid (env : Env) (newSig : CScript) (newVin : CTxIn) (p : Pool) : Bool :=
  match lastIndexOf newVin p.inputs with
  | none => true
  | some n =>
      let txNew : CMutableTransaction :=
        { vin := p.inputs.map CTxDSIn.toCTxIn, vout := p.entries.flatMap CObfuscationEntry.vout }
      let txNew := { txNew with
        vin := txNew.vin.modify n fun i => { i with scriptSig := newSig } }
      let sigPubKey := ((p.inputs[n]?).map CTxDSIn.prevPubKey).getD []
      (verifyScript (env.checker txNew n) signatureFlags newSig sigPubKey).2.toBool

/-- The signature goes into the first entry that takes it. -/
def addSigEntries (newVin : CTxIn) : List CObfuscationEntry → Option (List CObfuscationEntry)
  | [] => none
  | e :: entries =>
      match e.addSig newVin with
      | some e' => some (e' :: entries)
      | none => (addSigEntries newVin entries).map (e :: ·)

/-- The signature goes into every input of the final transaction that fits. -/
def setScriptSig (newVin : CTxIn) (vin : List CTxIn) : List CTxIn :=
  vin.map fun i => if sameInput newVin i then { i with scriptSig := newVin.scriptSig } else i

/-- `AddScriptSig`. -/
def addScriptSig (env : Env) (newVin : CTxIn) (p : Pool) : Bool × Pool :=
  if p.inputs.any fun s => decide (s.scriptSig = newVin.scriptSig) then (false, p)
  else if !signatureValid env newVin.scriptSig newVin p then (false, p)
  else
    let p := { p with
      finalTransaction := { p.finalTransaction with
        vin := setScriptSig newVin p.finalTransaction.vin } }
    match addSigEntries newVin p.entries with
    | some entries => (true, { p with entries := entries })
    | none => (false, p)

/-- `SignaturesComplete`. -/
def signaturesComplete (p : Pool) : Bool := p.inputs.all CTxDSIn.fHasSig

/-- `CheckFinalTransaction`. -/
def checkFinalTransaction (view : CheckView) (p : Pool) : Pool :=
  if !view.acceptToMemoryPool then
    (Pool.setNull view.nowMillis).updateState .acceptingEntries view.nowMillis
  else if !view.canSign then p
  else Pool.setNull view.nowMillis

/-- The transaction made of the entries. -/
def finalize (view : CheckView) (p : Pool) : Pool :=
  { p with
    finalTransaction :=
      { vin := view.shuffleIn.order (p.inputs.map CTxDSIn.toCTxIn)
        vout := view.shuffleOut.order (p.entries.flatMap CObfuscationEntry.vout) } }

/-- `Check`. -/
def check (env : Env) (view : CheckView) (p : Pool) : Pool :=
  let p :=
    if p.state = .acceptingEntries ∧ getMaxPoolTransactions env.network ≤ p.entries.length then
      p.updateState .finalizeTransaction view.nowMillis
    else p
  let p :=
    if p.state = .finalizeTransaction then finalize view (p.updateState .signing view.nowMillis)
    else p
  let p :=
    if p.state = .signing ∧ signaturesComplete p then
      checkFinalTransaction view (p.updateState .transmission view.nowMillis)
    else p
  if (p.state = .error ∨ p.state = .success) ∧ view.nowMillis - p.lastTimeChanged ≥ 10000 then
    Pool.setNull view.nowMillis
  else p

/-! ## Messages and timers -/

/-- A `dsa` message: `pmn` is the time of the last queue of the masternode when it finds itself in
its list, `nDsqCount` and `countEnabled` are those of the masternode manager. -/
structure Dsa where
  nVersion : ℤ
  nDenom : ℤ
  txCollateral : CTransaction
  pmn : Option ℤ
  nDsqCount : ℤ
  countEnabled : ℤ
  nRand : ℤ
  nowMillis : ℤ
  view : ChainView

/-- A `dsi` message. -/
structure Dsi where
  nVersion : ℤ
  vin : List CTxIn
  nAmount : ℤ
  txCollateral : CTransaction
  vout : List CTxOut
  now : ℤ
  view : ChainView
  check : CheckView

/-- A `dss` message. -/
structure Dss where
  nVersion : ℤ
  sigs : List CTxIn
  check : CheckView

/-- `dsa`. -/
def processDsa (env : Env) (m : Dsa) (p : Pool) : Reply × Pool :=
  if m.nVersion < activeProtocol then (.rejected (some .version), p)
  else
    match m.pmn with
    | none => (.rejected (some .mnList), p)
    | some nLastDsq =>
        if p.sessionUsers = 0 ∧ nLastDsq ≠ 0 ∧ nLastDsq + m.countEnabled.tdiv 5 > m.nDsqCount then
          (.rejected (some .recent), p)
        else isCompatibleWithSession env m.view m.nowMillis m.nRand m.nDenom m.txCollateral p

/-- The outputs of a `dsi` are payments to a public key hash. -/
def checkOutputs : List CTxOut → Option PoolMessage
  | [] => none
  | o :: out =>
      if o.scriptPubKey.length ≠ 25 then some .nonStandardPubkey
      else if !isNormalPaymentScript o.scriptPubKey then some .invalidScript
      else checkOutputs out

/-- What `dsi` checks before the entry is added. -/
def checkDsi (env : Env) (m : Dsi) (p : Pool) : Option PoolMessage :=
  if m.nVersion < activeProtocol then some .version
  else if !isSessionReady env p then some .session
  else if !isCompatibleWithEntries m.vout p then some .existingTx
  else
    match checkOutputs m.vout with
    | some errorID => some errorID
    | none =>
        let nValueIn := valueIn m.view m.vin
        if nValueIn.1 > obfuscationPoolMax then some .maximum
        else if nValueIn.2 then some .missingTx
        else if env.feesTooHigh nValueIn.1 (valueOut m.vout) then some .fees
        else if !m.view.acceptableInputs false { vin := m.vin, vout := m.vout } then some .invalidTx
        else none

/-- `dsi`. -/
def processDsi (env : Env) (m : Dsi) (p : Pool) : Reply × Pool :=
  match checkDsi env m p with
  | some errorID => (.rejected (some errorID), p)
  | none =>
      let r := addEntry env m.view m.now m.vin m.nAmount m.txCollateral m.vout p
      match r.1 with
      | .accepted => (.accepted, Mixing.check env m.check r.2)
      | .rejected errorID => (.rejected errorID, r.2)

/-- The loop of `dss`: whether a signature was taken, and the pool. -/
def addScriptSigs (env : Env) (sigs : List CTxIn) (p : Pool) : Bool × Pool :=
  sigs.foldl (fun r item =>
    let r' := addScriptSig env item r.2
    (r.1 || r'.1, r'.2)) (false, p)

/-- `dss`. -/
def processDss (env : Env) (m : Dss) (p : Pool) : Pool :=
  if m.nVersion < activeProtocol then p
  else
    let r := addScriptSigs env m.sigs p
    if r.1 then Mixing.check env m.check r.2 else r.2

/-- `CheckTimeout`: expired entries go, and with the last of them the session. -/
def checkTimeout (now nowMillis : ℤ) (p : Pool) : Pool :=
  let p :=
    if p.state = .acceptingEntries ∨ p.state = .queue then
      let entries := p.entries.filter fun e => !e.isExpired now
      let p :=
        if entries = [] ∧ p.entries ≠ [] then Pool.setNull nowMillis
        else { p with entries := entries }
      if nowMillis - p.lastTimeChanged ≥ queueTimeout * 1000 then Pool.setNull nowMillis else p
    else if nowMillis - p.lastTimeChanged ≥ queueTimeout * 1000 then
      (Pool.setNull nowMillis).updateState .error nowMillis
    else p
  if p.state = .signing ∧ nowMillis - p.lastTimeChanged ≥ signingTimeout * 1000 then
    (Pool.setNull nowMillis).updateState .error nowMillis
  else p

/-- `CheckForCompleteQueue`. -/
def checkForCompleteQueue (env : Env) (nowMillis : ℤ) (p : Pool) : Pool :=
  if p.state = .queue ∧ p.sessionUsers = getMaxPoolTransactions env.network then
    p.updateState .acceptingEntries nowMillis
  else p

/-- Messages, timers and `Reset`. -/
inductive Action
  | dsa (m : Dsa)
  | dsi (m : Dsi)
  | dss (m : Dss)
  | checkTimeout (now nowMillis : ℤ)
  | checkForCompleteQueue (nowMillis : ℤ)
  | reset (nowMillis : ℤ)

/-- What a masternode does. -/
def step (env : Env) (p : Pool) : Action → Pool
  | .dsa m => (processDsa env m p).2
  | .dsi m => (processDsi env m p).2
  | .dss m => processDss env m p
  | .checkTimeout now nowMillis => Mixing.checkTimeout now nowMillis p
  | .checkForCompleteQueue nowMillis => Mixing.checkForCompleteQueue env nowMillis p
  | .reset nowMillis => Pool.setNull nowMillis

end Mixing

end FairCoin
