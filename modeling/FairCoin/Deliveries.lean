import FairCoin.SelectionMarks
import FairCoin.Connect
import FairCoin.Lib.Merkle
import FairCoin.Lib.Run

/-!
# Blocks as they are delivered

`ProcessNewBlock` and `ContextualCheckBlock` of `src/main.cpp`, `CBlock::CheckBlockSignature` and
`CBlock::BuildMerkleTree` of `src/primitives/block.cpp`.  The hash of a block covers its header
only, so what a peer delivers under it may have other transactions or another signature.

* `NodeState` — the block index, with the block that was written for each entry.
* `Delivery` — a block, and what the checks read or answer while it is processed.
* `vtx_eq` — a delivered block that passes `CheckBlock` has the transactions of the valid
  block with that header.
* `Uncondemned.step` — a delivery keeps a valid block uncondemned.
* `corrupted_copies_never_condemn` — **a corrupted copy never condemns a genuine block**, and the
  genuine block is accepted when it is delivered.

`CheckBlock` runs twice, before and after the header is indexed.  Between the two only the answer
of `IsInitialBlockDownload` may change, as the new header may become the best one.
-/

namespace FairCoin

open Store

/-! ## Merkle roots and signatures -/

/-- The hash functions, and the check of a signature under a public key. -/
structure Crypto where
  blockHash : CBlockHeader → UInt256
  merkleHash : UInt256 → UInt256 → UInt256
  verify : List UInt8 → UInt256 → List UInt8 → Bool

/-- `CBlock::BuildMerkleTree`: the root, and whether a level ends in two identical hashes. -/
def buildMerkleTree (merkleHash : UInt256 → UInt256 → UInt256) (leaves : List UInt256) :
    UInt256 × Bool :=
  let tree := Merkle.climb merkleHash leaves.length leaves false
  (tree.1.head?.getD 0, tree.2)

/-- `CBlock::CheckBlockSignature`: the key is that of the second output of the coinstake. -/
def checkBlockSignature (c : Crypto) (block : CBlock) : Bool :=
  if block.isProofOfWork then block.vchBlockSig.isEmpty
  else
    match block.vtx with
    | _ :: tx :: _ =>
        match tx.vout with
        | _ :: txout :: _ =>
            match txout.scriptPubKey.matchPubKey <|> txout.scriptPubKey.matchPubKeyHash with
            | some vchPubKey =>
                isValidPubKey vchPubKey && !block.vchBlockSig.isEmpty &&
                  c.verify vchPubKey (c.blockHash block.toCBlockHeader) block.vchBlockSig
            | none => false
        | _ => false
    | _ => false

/-! ## Deliveries -/

/-- The block index and its structures, with the block written for each entry. -/
structure NodeState extends SelectState where
  blocks : Map UInt256 CBlock := ∅

/-- A block that is delivered, and what is read or answered while it is processed.

* `env` — what `CheckBlock` reads; `isInitialBlockDownload` is what `IsInitialBlockDownload`
  answers once the header is indexed;
* `isSuperMajority` — whether the coinbase must start with the height;
* `connects n` — what the `n`-th call of `ConnectBlock` answers for a header and transactions;
* `fromMemory n` — whether that call is given the delivered block, not the one on disk. -/
structure Delivery where
  block : CBlock
  fromPeer : Bool := true
  env : Env
  isInitialBlockDownload : Bool
  checkWork : Bool := true
  contextualCheckBlockHeader : Bool := true
  isSuperMajority : Bool := false
  stored : Bool := true
  connects : ℕ → CBlockHeader → List CTransaction → Verdict
  disconnects : ℕ → UInt256 → Verdict
  flushStateToDisk : ℕ → Bool
  fromMemory : ℕ → Bool
  fuel : ℕ

/-- The environment of a check, with the hash functions in place. -/
def Crypto.env (c : Crypto) (env : Env) : Env :=
  { env with blockHash := c.blockHash, buildMerkleTree := buildMerkleTree c.merkleHash }

/-- `CBlock::GetHash`. -/
def Crypto.getHash (c : Crypto) (block : CBlock) : UInt256 := c.blockHash block.toCBlockHeader

/-- `CScript() << nHeight`. -/
def pushHeight (nHeight : ℕ) : CScript :=
  if nHeight = 0 then [0]
  else if nHeight ≤ 16 then [UInt8.ofNat (0x50 + nHeight)]
  else
    let bytes := (Nat.digits 256 nHeight).map UInt8.ofNat
    let bytes := if 0x80 ≤ bytes.getLast?.getD 0 then bytes ++ [0] else bytes
    UInt8.ofNat bytes.length :: bytes

/-- What a failed check leaves for `AcceptBlock`. -/
def Failure.verdict : Failure → Verdict
  | .invalid _ _ _ corruption => .invalid corruption
  | .abort _ => .abort
  | .error _ => .error
  | .crash _ => .abort

namespace Delivery

variable (c : Crypto) (base : SelectEnv) (d : Delivery)

/-- `ContextualCheckBlock`. -/
def contextualCheckBlock (s : SelectState) (pindexPrev : Option UInt256) (block : CBlock) :
    Except Failure Unit := do
  let nHeight : ℤ := match pindexPrev with
    | some prev => (s.index prev).nHeight + 1
    | none => 0
  require (block.vtx.all fun tx =>
      isFinalTx ((s.chainActive.length : ℤ) - 1) d.env.getAdjustedTime tx nHeight block.nTime)
    (.invalid 10 .invalid "bad-txns-nonfinal" false)
  if 2 ≤ block.nVersion ∧ d.isSuperMajority then
    require (block.vtx.head?.any fun tx => tx.vin.head?.any fun i =>
        (pushHeight nHeight.toNat).isPrefixOf i.scriptSig) (.dos "bad-cb-height")

/-- The environment `AcceptBlock` and `ActivateBestChain` work in, with the blocks on disk. -/
def selectEnv (blocks : Map UInt256 CBlock) : SelectEnv :=
  { base with
    hashPrevBlock := fun h =>
      if h = c.getHash d.block then d.block.hashPrevBlock else base.hashPrevBlock h
    connectBlock := fun n h =>
      match if h = c.getHash d.block ∧ d.fromMemory n then some d.block else blocks.lookup h with
      | none => .abort
      | some block =>
          if block.serializeSize ≤ maxBlockSize then d.connects n block.toCBlockHeader block.vtx
          else .invalid false
    disconnectBlock := d.disconnects
    flushStateToDisk := d.flushStateToDisk }

/-- The index once `AcceptBlockHeader` has accepted the header. -/
def indexed (s : NodeState) : SelectState :=
  if c.getHash d.block ∈ s.mapBlockIndex then s.toSelectState
  else s.addToBlockIndex (d.selectEnv c base s.blocks) (c.getHash d.block)

/-- What `AcceptBlock` checks of a block whose header is in the index. -/
def checks (s : NodeState) (block : CBlock) : Except Failure Unit := do
  let s₁ := d.indexed c base s
  checkBlock { c.env d.env with isInitialBlockDownload := d.isInitialBlockDownload }
    s₁.toBlockTree block true
  d.contextualCheckBlock s₁ (s₁.index (c.getHash block)).pprev block

/-- The delivered block, as `AcceptBlock` gets it. -/
def arrival (s : NodeState) : Arrival where
  hash := c.getHash d.block
  nTx := d.block.vtx.length
  checkWork := d.checkWork
  contextualCheckBlockHeader := d.contextualCheckBlockHeader
  verdict := match d.checks c base s d.block with
    | .ok () => .ok
    | .error f => f.verdict
  stored := d.stored

/-- `AcceptBlock`, with the block written to disk when the entry has no data yet. -/
def accept (s : NodeState) : Except Stop NodeState :=
  match s.acceptBlock (d.selectEnv c base s.blocks) (d.arrival c base s) with
  | .error e => .error e
  | .ok s₁ => .ok
      { toSelectState := s₁
        blocks := if (s.index (c.getHash d.block)).nStatus.haveData then s.blocks
          else s.blocks.insert (c.getHash d.block) d.block }

/-- What `ActivateBestChain` makes of the state in which the block was accepted. -/
def activate (s : NodeState) : Except Stop (Bool × NodeState) :=
  match s.activateBestChain (d.selectEnv c base s.blocks) d.fuel with
  | .ok s₁ => .ok (true, { s with toSelectState := s₁ })
  | .error (.fails s₁) => .ok (false, { s with toSelectState := s₁ })
  | .error e => .error e

/-- `ProcessNewBlock`. -/
def processNewBlock (s : NodeState) : Except Stop (Bool × NodeState) :=
  match checkBlock (c.env d.env) s.toBlockTree d.block true with
  | .error (.crash reason) => .error (.crash reason)
  | checked =>
      if !checkBlockSignature c d.block then .ok (false, s)
      else if c.getHash d.block ≠ base.hashGenesisBlock ∧ d.fromPeer ∧
          d.block.hashPrevBlock ∉ s.mapBlockIndex then .ok (false, s)
      else
        match checked with
        | .error _ => .ok (false, s)
        | .ok () =>
            match d.accept c base s with
            | .ok s₁ => d.activate c base s₁
            | .error (.fails s₁) => .ok (false, { s with toSelectState := s₁ })
            | .error e => .error e

end Delivery

/-- One step of a run: a block is delivered. -/
def deliverBlock (c : Crypto) (base : SelectEnv) (s : NodeState) (d : Delivery) :
    Except Stop NodeState :=
  match d.processNewBlock c base s with
  | .ok (_, s') => .ok s'
  | .error e => .error e

/-! ## What a delivered block contains -/

/-- Neither the headers nor the transactions of the two blocks collide, and no two of the things
hashed on the way to their merkle roots do. -/
structure NoCollisions (c : Crypto) (B C : CBlock) : Prop where
  header : c.getHash C = c.getHash B → C.toCBlockHeader = B.toCBlockHeader
  tx : ∀ tx ∈ C.vtx, ∀ tx' ∈ B.vtx, tx.hash = tx'.hash → tx = tx'
  merkle : C.toCBlockHeader = B.toCBlockHeader →
    Merkle.CollisionFree c.merkleHash (C.vtx.map CTransaction.hash) (B.vtx.map CTransaction.hash)

variable {c : Crypto} {base : SelectEnv}

/-- What `CheckBlock` says about the merkle tree. -/
theorem checkBlock_merkle {env : Env} {tree : BlockTree} {block : CBlock}
    (h : checkBlock (c.env env) tree block true = .ok ()) :
    block.vtx ≠ [] ∧ block.serializeSize ≤ maxBlockSize ∧
      buildMerkleTree c.merkleHash (block.vtx.map CTransaction.hash) =
        (block.hashMerkleRoot, false) := by
  simp only [checkBlock, bind_eq_ok, require_eq_ok, exists_const] at h
  obtain ⟨-, -, _, hmerkle, hlen, -⟩ := h
  simp only [Bool.and_eq_true, Bool.not_eq_true', decide_eq_true_eq] at hlen
  refine ⟨fun hnil => ?_, hlen.2, ?_⟩
  · rw [hnil] at hlen
    exact absurd hlen.1.1 (by simp)
  · simp only [checkMerkleRoot, if_true, bind_eq_ok, require_eq_ok, exists_const] at hmerkle
    obtain ⟨hroot, hmutated⟩ := hmerkle
    rw [Bool.not_eq_true'] at hmutated
    exact Prod.ext (eq_of_beq hroot).symm hmutated

theorem map_inj_on {α β : Type} {f : α → β} : ∀ {l l' : List α},
    (∀ a ∈ l, ∀ b ∈ l', f a = f b → a = b) → l.map f = l'.map f → l = l'
  | [], [], _, _ => rfl
  | [], _ :: _, _, h => absurd h (by simp)
  | _ :: _, [], _, h => absurd h (by simp)
  | a :: l, b :: l', hinj, h => by
      rw [List.map_cons, List.map_cons, List.cons.injEq] at h
      rw [hinj a (by simp) b (by simp) h.1,
        map_inj_on (fun x hx y hy => hinj x (by simp [hx]) y (by simp [hy])) h.2]

/-- **The header fixes the transactions.**  Two blocks with one header that both pass `CheckBlock`
have the same transactions. -/
theorem vtx_eq {env env' : Env} {tree tree' : BlockTree} {B C : CBlock}
    (hB : checkBlock (c.env env) tree B true = .ok ()) (hno : NoCollisions c B C)
    (hheader : C.toCBlockHeader = B.toCBlockHeader)
    (hC : checkBlock (c.env env') tree' C true = .ok ()) : C.vtx = B.vtx := by
  obtain ⟨hneB, -, hrootB⟩ := checkBlock_merkle hB
  obtain ⟨hneC, -, hrootC⟩ := checkBlock_merkle hC
  rw [buildMerkleTree, Prod.mk.injEq] at hrootB hrootC
  apply map_inj_on hno.tx
  have hroot : C.hashMerkleRoot = B.hashMerkleRoot := congrArg CBlockHeader.hashMerkleRoot hheader
  apply Merkle.climb_inj c.merkleHash (z := 0) (by simpa using hneC) (by simpa using hneB)
    (hno.merkle hheader)
  · rw [hrootC.1, hrootB.1, hroot]
  · exact hrootC.2
  · exact hrootB.2

/-- A block with the header and the transactions of another differs from it in the signature
only. -/
theorem eq_with_signature {B C : CBlock} (hheader : C.toCBlockHeader = B.toCBlockHeader)
    (hvtx : C.vtx = B.vtx) : C = { B with vchBlockSig := C.vchBlockSig } := by
  obtain ⟨hB, vtxB, sigB⟩ := B
  obtain ⟨hC, vtxC, sigC⟩ := C
  simp only at hheader hvtx
  subst hheader hvtx
  rfl

/-- The second `CheckBlock` of a block that passed the first asks for the payee again. -/
theorem checkBlock_again {env : Env} {tree tree' : BlockTree} {block : CBlock} {ibd : Bool}
    (h : checkBlock env tree block true = .ok ())
    (hpayee : checkPayee { env with isInitialBlockDownload := ibd } tree' block = .ok ()) :
    checkBlock { env with isInitialBlockDownload := ibd } tree' block true = .ok () := by
  simp only [checkBlock, bind_eq_ok, require_eq_ok, exists_const] at h ⊢
  obtain ⟨hpow, htime, u₁, hmerkle, hlen, hcb, hmulti, u₂, hstake, u₃, hlocks, -, -, htxs, hsig⟩ := h
  exact ⟨hpow, htime, u₁, hmerkle, hlen, hcb, hmulti, u₂, hstake, u₃, hlocks, (), hpayee, htxs, hsig⟩

/-- The payee of a block is asked for only outside the initial download. -/
theorem checkPayee_of_synced {env : Env} {tree : BlockTree} {block : CBlock} (ibd : Bool)
    (h : checkPayee { env with isInitialBlockDownload := false } tree block = .ok ()) :
    checkPayee { env with isInitialBlockDownload := ibd } tree block = .ok () := by
  cases ibd with
  | false => exact h
  | true =>
    rw [checkPayee]
    split
    · rfl
    · rw [if_neg (by simp)]

/-! ## Valid blocks -/

/-- The block is valid, as the node judges it while something is delivered: `ConnectBlock` does
not find it invalid; and when it or a copy of it is delivered, its payee and what depends on its
place in the chain are in order. -/
structure ValidAt (c : Crypto) (base : SelectEnv) (B : CBlock) (s : NodeState) (d : Delivery) :
    Prop where
  connects : ∀ n, d.connects n B.toCBlockHeader B.vtx ≠ .invalid false
  payee : c.getHash d.block = c.getHash B →
    checkPayee { c.env d.env with isInitialBlockDownload := false }
      (d.indexed c base s).toBlockTree B = .ok ()
  contextual : c.getHash d.block = c.getHash B →
    d.contextualCheckBlock (d.indexed c base s)
      ((d.indexed c base s).index (c.getHash B)).pprev B = .ok ()

/-- No copy has condemned the block: its entry is marked only if its parent is, and what is
stored for it has its transactions. -/
structure Uncondemned (c : Crypto) (B : CBlock) (s : NodeState) : Prop where
  parent : ∀ p, (s.index (c.getHash B)).pprev = some p → p = B.hashPrevBlock
  failed : (s.index (c.getHash B)).nStatus.failed = true →
    (s.index B.hashPrevBlock).nStatus.failed = true
  data : (s.index (c.getHash B)).nStatus.haveData = true →
    ∃ C, s.blocks.lookup (c.getHash B) = some C
  contents : ∀ C, s.blocks.lookup (c.getHash B) = some C →
    C.toCBlockHeader = B.toCBlockHeader ∧ C.vtx = B.vtx ∧ C.serializeSize ≤ maxBlockSize

/-- What a function keeps that has no reason to mark the block. -/
theorem Uncondemned.marks {B : CBlock} {s t : NodeState} {r : Reasons}
    (h : Uncondemned c B s) (hmarks : Marks r s.toSelectState t.toSelectState)
    (hfailed : ¬r.failed (c.getHash B))
    (hlink : ∀ p, r.link (c.getHash B) p → p = B.hashPrevBlock)
    (hdata : (t.index (c.getHash B)).nStatus.haveData = true →
      ∃ C, t.blocks.lookup (c.getHash B) = some C)
    (hcontents : ∀ C, t.blocks.lookup (c.getHash B) = some C →
      C.toCBlockHeader = B.toCBlockHeader ∧ C.vtx = B.vtx ∧ C.serializeSize ≤ maxBlockSize) :
    Uncondemned c B t := by
  have hparent : ∀ p, (t.index (c.getHash B)).pprev = some p → p = B.hashPrevBlock := by
    intro p hp
    rcases hmarks.link _ p hp with hold | hnew
    · exact h.parent p hold
    · exact hlink p hnew
  refine ⟨hparent, fun hfail => ?_, hdata, hcontents⟩
  rcases hmarks.fresh _ hfail with hold | hrej | ⟨-, p, hp, hpfail⟩
  · exact hmarks.keep _ (h.failed hold)
  · exact absurd hrej hfailed
  · rwa [← hparent p hp]

/-! ## What a delivery does to a valid block -/

section Step

variable {B : CBlock} {s : NodeState} {d : Delivery}

/-- A delivered block that passed the first `CheckBlock` and has the hash of the valid block
differs from it in the signature only. -/
theorem Delivery.eq_of_hash (hB : ∃ env tree, checkBlock (c.env env) tree B true = .ok ())
    (hno : NoCollisions c B d.block) (hhash : c.getHash d.block = c.getHash B)
    (hfirst : checkBlock (c.env d.env) s.toBlockTree d.block true = .ok ()) :
    d.block = { B with vchBlockSig := d.block.vchBlockSig } := by
  obtain ⟨env, tree, hB⟩ := hB
  have hheader := hno.header hhash
  exact eq_with_signature hheader (vtx_eq hB hno hheader hfirst)

/-- The second round of checks passes too. -/
theorem Delivery.checks_ok (hB : ∃ env tree, checkBlock (c.env env) tree B true = .ok ())
    (hno : NoCollisions c B d.block) (hv : ValidAt c base B s d)
    (hhash : c.getHash d.block = c.getHash B)
    (hfirst : checkBlock (c.env d.env) s.toBlockTree d.block true = .ok ()) :
    d.checks c base s d.block = .ok () := by
  have hcopy := Delivery.eq_of_hash hB hno hhash hfirst
  have hpayee : checkPayee { c.env d.env with isInitialBlockDownload := d.isInitialBlockDownload }
      (d.indexed c base s).toBlockTree d.block = .ok () := by
    apply checkPayee_of_synced
    rw [hcopy]
    exact hv.payee hhash
  have hcontextual : d.contextualCheckBlock (d.indexed c base s)
      ((d.indexed c base s).index (c.getHash d.block)).pprev d.block = .ok () := by
    rw [hhash, hcopy]
    exact hv.contextual hhash
  rw [Delivery.checks, bind_eq_ok]
  exact ⟨(), checkBlock_again hfirst hpayee, hcontextual⟩

/-- A block that passes both rounds of checks passes them in `AcceptBlock`. -/
theorem Delivery.arrival_checkBlock (hchecks : d.checks c base s d.block = .ok ())
    {tree : BlockTree} (hfirst : checkBlock (c.env d.env) tree d.block true = .ok ()) :
    (d.arrival c base s).checkBlock = .ok := by
  obtain ⟨hne, -, -⟩ := checkBlock_merkle hfirst
  have hpos : d.block.vtx.length ≠ 0 := by simpa using hne
  simp only [FairCoin.checkBlock, bind_eq_ok, require_eq_ok, exists_const] at hfirst
  obtain ⟨-, -, _, -, hlen, -⟩ := hfirst
  simp only [Bool.and_eq_true, decide_eq_true_eq] at hlen
  rw [Arrival.checkBlock, Delivery.arrival, hchecks]
  simp only
  rw [if_neg (by omega)]

/-- So `AcceptBlock` has no reason to mark the valid block. -/
theorem Delivery.not_reason (hB : ∃ env tree, checkBlock (c.env env) tree B true = .ok ())
    (hno : NoCollisions c B d.block) (hv : ValidAt c base B s d)
    (hfirst : checkBlock (c.env d.env) s.toBlockTree d.block true = .ok ()) (accepted : Prop) :
    ¬((d.arrival c base s).reasons (d.selectEnv c base s.blocks) accepted).failed
      (c.getHash B) := by
  rintro ⟨hhash, hinvalid⟩
  have hchecks := Delivery.checks_ok hB hno hv hhash.symm hfirst
  rw [Delivery.arrival_checkBlock hchecks hfirst] at hinvalid
  exact absurd hinvalid (by simp)

theorem Delivery.link_parent (hno : NoCollisions c B d.block) (accepted : Prop) (p : UInt256)
    (h : ((d.arrival c base s).reasons (d.selectEnv c base s.blocks) accepted).link
      (c.getHash B) p) : p = B.hashPrevBlock := by
  obtain ⟨hhash, hp⟩ := h
  have hhash : c.getHash B = c.getHash d.block := hhash
  rw [hp, Delivery.selectEnv]
  simp only
  rw [if_pos hhash]
  exact congrArg CBlockHeader.hashPrevBlock (hno.header hhash.symm)

/-- `AcceptBlock` keeps the block uncondemned. -/
theorem Uncondemned.accept (h : Uncondemned c B s)
    (hB : ∃ env tree, checkBlock (c.env env) tree B true = .ok ())
    (hno : NoCollisions c B d.block) (hv : ValidAt c base B s d)
    (hfirst : checkBlock (c.env d.env) s.toBlockTree d.block true = .ok ()) :
    (∀ s', d.accept c base s = .ok s' → Uncondemned c B s') ∧
      ∀ s', d.accept c base s = .error (.fails s') →
        Uncondemned c B { s with toSelectState := s' } := by
  have hmarks := acceptBlock_marks (d.selectEnv c base s.blocks) s.toSelectState
    (d.arrival c base s)
  constructor
  · intro s' hs'
    rw [Delivery.accept] at hs'
    cases hacc : s.acceptBlock (d.selectEnv c base s.blocks) (d.arrival c base s) with
    | error e =>
      rw [hacc] at hs'
      exact absurd hs' (by simp)
    | ok s₁ =>
      rw [hacc] at hs' hmarks
      cases hs'
      apply h.marks (t := ⟨s₁, _⟩) hmarks
        (Delivery.not_reason hB hno hv hfirst True) (Delivery.link_parent hno True)
      · intro hdata
        simp only
        split
        · next hold =>
          rcases hmarks.freshData _ hdata with hbefore | ⟨hnew, -⟩
          · exact h.data hbefore
          · exact h.data (by rwa [show c.getHash B = c.getHash d.block from hnew])
        · by_cases hhash : c.getHash B = c.getHash d.block
          · exact ⟨d.block, by rw [hhash, AList.lookup_insert]⟩
          · rcases hmarks.freshData _ hdata with hbefore | ⟨hnew, -⟩
            · rw [AList.lookup_insert_ne hhash]
              exact h.data hbefore
            · exact absurd hnew hhash
      · intro C hC
        simp only at hC
        split at hC
        · exact h.contents C hC
        · by_cases hhash : c.getHash B = c.getHash d.block
          · rw [hhash, AList.lookup_insert] at hC
            cases hC
            have hcopy := Delivery.eq_of_hash hB hno hhash.symm hfirst
            exact ⟨hno.header hhash.symm, by rw [hcopy], (checkBlock_merkle hfirst).2.1⟩
          · rw [AList.lookup_insert_ne hhash] at hC
            exact h.contents C hC
  · intro s' hs'
    rw [Delivery.accept] at hs'
    cases hacc : s.acceptBlock (d.selectEnv c base s.blocks) (d.arrival c base s) with
    | ok s₁ =>
      rw [hacc] at hs'
      exact absurd hs' (by simp)
    | error e =>
      rw [hacc] at hs' hmarks
      cases hs'
      apply h.marks (t := { s with toSelectState := s' }) hmarks
        (Delivery.not_reason hB hno hv hfirst False) (Delivery.link_parent hno False)
      · intro hdata
        rcases hmarks.freshData _ hdata with hbefore | ⟨-, hfalse⟩
        · exact h.data hbefore
        · exact hfalse.elim
      · exact h.contents

/-- `ActivateBestChain` keeps the block uncondemned. -/
theorem Uncondemned.activate (h : Uncondemned c B s) (hno : NoCollisions c B d.block)
    (hB : ∃ env tree, checkBlock (c.env env) tree B true = .ok ())
    {tree : BlockTree} (hfirst : checkBlock (c.env d.env) tree d.block true = .ok ())
    (hconnects : ∀ n, d.connects n B.toCBlockHeader B.vtx ≠ .invalid false) {ret : Bool}
    {s' : NodeState} (hs' : d.activate c base s = .ok (ret, s')) : Uncondemned c B s' := by
  have hmarks := activateBestChain_marks (d.selectEnv c base s.blocks) d.fuel s.toSelectState
  -- whatever is connected as the block has its header and its transactions
  have hreject : ¬(d.selectEnv c base s.blocks).reasons.failed (c.getHash B) := by
    rintro ⟨n, hn⟩
    rw [Delivery.selectEnv] at hn
    simp only at hn
    split at hn
    · exact absurd hn (by simp)
    · next C hC =>
      have hsame : C.toCBlockHeader = B.toCBlockHeader ∧ C.vtx = B.vtx ∧
          C.serializeSize ≤ maxBlockSize := by
        split at hC
        · next hmem =>
          cases hC
          obtain ⟨env, tree', hB⟩ := hB
          have hheader := hno.header hmem.1.symm
          exact ⟨hheader, vtx_eq hB hno hheader hfirst, (checkBlock_merkle hfirst).2.1⟩
        · exact h.contents C hC
      rw [if_pos hsame.2.2, hsame.1, hsame.2.1] at hn
      exact hconnects n hn
  have hkeep : ∀ t : SelectState, Marks (d.selectEnv c base s.blocks).reasons s.toSelectState t →
      Uncondemned c B { s with toSelectState := t } := by
    intro t ht
    apply h.marks (t := { s with toSelectState := t }) ht hreject
    · exact fun p hp => hp.elim
    · intro hdata
      rcases ht.freshData _ hdata with hbefore | hfalse
      · exact h.data hbefore
      · exact hfalse.elim
    · exact h.contents
  rw [Delivery.activate] at hs'
  split at hs'
  · next s₁ hs₁ =>
    rw [hs₁] at hmarks
    cases hs'
    exact hkeep s₁ hmarks
  · next s₁ hs₁ =>
    rw [hs₁] at hmarks
    cases hs'
    exact hkeep s₁ hmarks
  · exact absurd hs' (by simp)

/-- What `ProcessNewBlock` does with a block that failed the first `CheckBlock`: nothing. -/
theorem Delivery.processNewBlock_of_error {f : Failure} {ret : Bool} {s' : NodeState}
    (hfirst : checkBlock (c.env d.env) s.toBlockTree d.block true = .error f)
    (h : d.processNewBlock c base s = .ok (ret, s')) : s' = s := by
  rw [Delivery.processNewBlock, hfirst] at h
  cases f with
  | crash reason => exact absurd h (by simp)
  | invalid _ _ _ _ =>
    simp only at h
    split_ifs at h <;> simp_all
  | abort _ =>
    simp only at h
    split_ifs at h <;> simp_all
  | error _ =>
    simp only at h
    split_ifs at h <;> simp_all

/-- What `ProcessNewBlock` does with a block that passed the first `CheckBlock`. -/
theorem Delivery.processNewBlock_of_ok
    (hfirst : checkBlock (c.env d.env) s.toBlockTree d.block true = .ok ()) :
    d.processNewBlock c base s =
      if !checkBlockSignature c d.block then .ok (false, s)
      else if c.getHash d.block ≠ base.hashGenesisBlock ∧ d.fromPeer ∧
          d.block.hashPrevBlock ∉ s.mapBlockIndex then .ok (false, s)
      else
        match d.accept c base s with
        | .ok s₁ => d.activate c base s₁
        | .error (.fails s₁) => .ok (false, { s with toSelectState := s₁ })
        | .error e => .error e := by
  rw [Delivery.processNewBlock, hfirst]

/-- **One delivery.**  Whatever is delivered, the valid block stays uncondemned. -/
theorem Uncondemned.step (h : Uncondemned c B s)
    (hB : ∃ env tree, checkBlock (c.env env) tree B true = .ok ())
    (hno : NoCollisions c B d.block) (hv : ValidAt c base B s d) {s' : NodeState}
    (hs' : deliverBlock c base s d = .ok s') : Uncondemned c B s' := by
  obtain ⟨ret, hret⟩ : ∃ ret, d.processNewBlock c base s = .ok (ret, s') := by
    rw [deliverBlock] at hs'
    split at hs'
    · next ret s₁ hs₁ =>
      cases hs'
      exact ⟨ret, hs₁⟩
    · exact absurd hs' (by simp)
  cases hfirst : checkBlock (c.env d.env) s.toBlockTree d.block true with
  | error f =>
    rw [Delivery.processNewBlock_of_error hfirst hret]
    exact h
  | ok u =>
    obtain ⟨haccept, hfails⟩ := h.accept hB hno hv hfirst
    rw [Delivery.processNewBlock_of_ok hfirst] at hret
    split at hret
    · cases hret
      exact h
    · split at hret
      · cases hret
        exact h
      · split at hret
        · next s₁ hs₁ => exact (haccept s₁ hs₁).activate hno hB hfirst hv.connects hret
        · next s₁ hs₁ =>
          cases hret
          exact hfails s₁ hs₁
        · exact absurd hret (by simp)

/-- What a valid block meets when it is delivered: it passes the checks that come before
`AcceptBlock`, its parent is known and not marked, work and header are in order, and the disk has
room. -/
structure Arrives (c : Crypto) (base : SelectEnv) (s : NodeState) (d : Delivery) : Prop where
  checkBlock : checkBlock (c.env d.env) s.toBlockTree d.block true = .ok ()
  signature : checkBlockSignature c d.block = true
  parent : ∃ p, s.mapBlockIndex.lookup d.block.hashPrevBlock = some p ∧ p.nStatus.failed = false
  work : d.checkWork = true
  header : d.contextualCheckBlockHeader = true
  stored : d.stored = true

theorem Uncondemned.not_failed (h : Uncondemned c B s) (hblock : d.block = B)
    (ha : Arrives c base s d) : (s.index (c.getHash B)).nStatus.failed = false := by
  obtain ⟨p, hp, hpfail⟩ := ha.parent
  by_contra hfail
  have hparent := h.failed (by simpa using hfail)
  rw [← hblock, BlockTree.index, hp, Option.getD_some, hpfail] at hparent
  exact absurd hparent (by simp)

/-- `AcceptBlock` returns true for a valid block. -/
theorem Uncondemned.acceptBlock_ok (h : Uncondemned c B s) (hblock : d.block = B)
    (ha : Arrives c base s d) (hchecks : d.checks c base s d.block = .ok ()) :
    ∃ s₁, s.acceptBlock (d.selectEnv c base s.blocks) (d.arrival c base s) = .ok s₁ := by
  have hunmarked := h.not_failed hblock ha
  obtain ⟨p, hp, hpfail⟩ := ha.parent
  have hparent : s.hasGoodParent (d.selectEnv c base s.blocks) (d.arrival c base s).hash = true := by
    have hprev : (d.selectEnv c base s.blocks).hashPrevBlock (d.arrival c base s).hash =
        d.block.hashPrevBlock := if_pos rfl
    rw [SelectState.hasGoodParent, hprev, hp]
    simp [hpfail]
  have hheader : ∃ s₁, s.acceptBlockHeader (d.selectEnv c base s.blocks) (d.arrival c base s) =
      .ok s₁ := by
    rw [SelectState.acceptBlockHeader]
    split
    · next q hq =>
      refine ⟨_, if_neg ?_⟩
      have hq : s.mapBlockIndex.lookup (c.getHash d.block) = some q := hq
      rw [hblock] at hq
      rw [BlockTree.index, hq, Option.getD_some] at hunmarked
      simp [hunmarked]
    · refine ⟨_, if_pos ?_⟩
      rw [hparent]
      simp [Delivery.arrival, ha.header]
  obtain ⟨s₁, hs₁⟩ := hheader
  rw [SelectState.acceptBlock, if_neg (by rw [hparent]; simp),
    if_neg (by simp [Delivery.arrival, ha.work]), hs₁]
  simp only
  split
  · exact ⟨_, rfl⟩
  · rw [Delivery.arrival_checkBlock hchecks ha.checkBlock]
    exact ⟨_, if_pos ha.stored⟩

/-- The valid block is accepted: its entry has its data and is not marked. -/
def Accepted (c : Crypto) (base : SelectEnv) (B : CBlock) (s : NodeState) (d : Delivery) : Prop :=
  ∃ s₁, d.accept c base s = .ok s₁ ∧ d.processNewBlock c base s = d.activate c base s₁ ∧
    (s₁.index (c.getHash B)).nStatus.haveData = true ∧
    (s₁.index (c.getHash B)).nStatus.failed = false ∧
    ∃ C, s₁.blocks.lookup (c.getHash B) = some C ∧
      C.toCBlockHeader = B.toCBlockHeader ∧ C.vtx = B.vtx

/-- **A valid block is accepted** when it is delivered. -/
theorem Uncondemned.accepted (h : Uncondemned c B s)
    (hB : ∃ env tree, checkBlock (c.env env) tree B true = .ok ())
    (hno : NoCollisions c B d.block) (hv : ValidAt c base B s d)
    (hblock : d.block = B) (ha : Arrives c base s d) : Accepted c base B s d := by
  have hchecks := Delivery.checks_ok hB hno hv (by rw [hblock]) ha.checkBlock
  obtain ⟨s₁, hs₁⟩ := h.acceptBlock_ok hblock ha hchecks
  obtain ⟨blocks, haccept⟩ : ∃ blocks, d.accept c base s = .ok ⟨s₁, blocks⟩ := by
    rw [Delivery.accept, hs₁]
    exact ⟨_, rfl⟩
  have hkept := (h.accept hB hno hv ha.checkBlock).1 _ haccept
  have hdata : (s₁.index (c.getHash B)).nStatus.haveData = true := by
    rw [← hblock]
    exact haveData_acceptBlock hs₁
  refine ⟨_, haccept, ?_, hdata, ?_, ?_⟩
  · obtain ⟨p, hp, -⟩ := ha.parent
    have hknown : d.block.hashPrevBlock ∈ s.mapBlockIndex :=
      AList.lookup_isSome.1 (by rw [hp]; rfl)
    rw [Delivery.processNewBlock_of_ok ha.checkBlock, if_neg (by simp [ha.signature]),
      if_neg fun hunknown => hunknown.2.2 hknown, haccept]
  · have hmarks := acceptBlock_marks (d.selectEnv c base s.blocks) s.toSelectState
      (d.arrival c base s)
    rw [hs₁] at hmarks
    by_contra hfail
    rcases hmarks.fresh _ (by simpa using hfail) with hold | hreason | ⟨hfalse, -⟩
    · rw [h.not_failed hblock ha] at hold
      exact absurd hold (by simp)
    · exact Delivery.not_reason hB hno hv ha.checkBlock True hreason
    · exact hfalse.elim
  · obtain ⟨C, hC⟩ := hkept.data hdata
    exact ⟨C, hC, (hkept.contents C hC).1, (hkept.contents C hC).2.1⟩

end Step

/-! ## Runs of deliveries -/

theorem Uncondemned.run {B : CBlock}
    (hB : ∃ env tree, checkBlock (c.env env) tree B true = .ok ()) :
    ∀ (ds : List Delivery) {s s' : NodeState}, Uncondemned c B s →
      (∀ d ∈ ds, NoCollisions c B d.block) →
      Run.Along (deliverBlock c base) (ValidAt c base B) s ds →
      Run.run (deliverBlock c base) s ds = .ok s' → Uncondemned c B s' := by
  intro ds
  induction ds with
  | nil =>
    intro s s' h _ _ hrun
    cases hrun
    exact h
  | cons d ds ih =>
    intro s s' h hno hvalid hrun
    obtain ⟨s₁, hs₁, hrest⟩ := Run.run_cons_eq_ok hrun
    refine ih (h.step hB (hno d (by simp)) hvalid.1 hs₁) (fun x hx => hno x (by simp [hx]))
      (hvalid.2 s₁ hs₁) hrest

/-- **A corrupted copy never condemns a genuine block.**  Let a valid block be unknown to the node,
and let blocks be delivered in any order, among them any number of blocks with its header but
other transactions or another signature, such that no hashes collide.  Then its entry is never
marked unless its parent is, and when it is delivered itself it is accepted with its data. -/
theorem corrupted_copies_never_condemn {B : CBlock} {s₀ s : NodeState} {ds : List Delivery}
    (hB : ∃ env tree, checkBlock (c.env env) tree B true = .ok ())
    (hunknown : c.getHash B ∉ s₀.mapBlockIndex) (hunwritten : c.getHash B ∉ s₀.blocks)
    (hno : ∀ d ∈ ds, NoCollisions c B d.block)
    (hvalid : Run.Along (deliverBlock c base) (ValidAt c base B) s₀ ds)
    (hrun : Run.run (deliverBlock c base) s₀ ds = .ok s) :
    ((s.index (c.getHash B)).nStatus.failed = true →
      (s.index B.hashPrevBlock).nStatus.failed = true) ∧
    ∀ d : Delivery, d.block = B → NoCollisions c B d.block → ValidAt c base B s d →
      Arrives c base s d → Accepted c base B s d := by
  have hdefault : s₀.index (c.getHash B) = {} := by
    rw [BlockTree.index, AList.lookup_eq_none.2 hunknown]
    rfl
  have hstart : Uncondemned c B s₀ := by
    refine ⟨fun p hp => ?_, fun hfail => ?_, fun hdata => ?_, fun C hC => ?_⟩
    · rw [hdefault] at hp
      exact absurd hp (by simp)
    · exact absurd (BlockTree.mem_of_failed hfail) hunknown
    · rw [hdefault] at hdata
      exact absurd hdata (by simp)
    · rw [AList.lookup_eq_none.2 hunwritten] at hC
      exact absurd hC (by simp)
  have hend := Uncondemned.run hB ds hstart hno hvalid hrun
  exact ⟨hend.failed, fun d hblock hno hv ha => hend.accepted hB hno hv hblock ha⟩

/-- Hash functions for small examples: a block is named by its nonce, and a signature is good if
it is the byte one. -/
def plainCrypto : Crypto where
  blockHash header := BitVec.ofNat 256 header.nNonce
  merkleHash a b := 3 * a + 5 * b + 1000
  verify _ _ vchSig := vchSig == [1]

/-- A coinbase with an empty output, as a proof-of-stake block has it. -/
def plainCoinBase : CTransaction where
  hash := 11
  vin := [{ prevout := { hash := 0, n := 4294967295 }, scriptSig := [1, 1] }]
  vout := [{ nValue := 0, scriptPubKey := [] }]

/-- A coinstake that pays to a public key. -/
def plainCoinStake : CTransaction where
  hash := 12
  vin := [{ prevout := { hash := 5, n := 0 } }]
  vout := [{ nValue := 0, scriptPubKey := [] },
    { nValue := 10, scriptPubKey := 33 :: 2 :: List.replicate 32 7 ++ [0xac] }]

/-- A transaction like any other. -/
def plainTransaction : CTransaction where
  hash := 13
  vin := [{ prevout := { hash := 6, n := 0 } }]
  vout := [{ nValue := 10, scriptPubKey := [0x51] }]

/-- A signed proof-of-stake block on top of genesis. -/
def plainStakeBlock : CBlock where
  hashPrevBlock := 1
  hashMerkleRoot := 9799
  nNonce := 2
  vtx := [plainCoinBase, plainCoinStake, plainTransaction]
  vchBlockSig := [1]

/-- The headers of a chain whose genesis block is named one. -/
def plainBase : SelectEnv where
  hashGenesisBlock := 1
  hashPrevBlock := fun _ => 1
  getBlockProof := fun _ => 1
  addr := BitVec.toNat
  addr_injective := fun _ _ h => BitVec.eq_of_toNat_eq h
  connectBlock := fun _ _ => .ok
  disconnectBlock := fun _ _ => .ok
  flushStateToDisk := fun _ => true

/-- A node that knows genesis only. -/
def plainNode : NodeState where
  mapBlockIndex := AList.insert 1
    { phashBlock := some 1, nChainWork := 1, nTx := 1, nChainTx := 1,
      nStatus := { valid := 3, haveData := true } } ∅
  chainActive := [1]
  coinsBest := 1
  setBlockIndexCandidates := [1]

/-- A delivery to a node without payment votes, where nothing else goes wrong. -/
def plainDelivery (block : CBlock) : Delivery where
  block := block
  env := Env.quiet .main false
  isInitialBlockDownload := false
  connects := fun _ _ _ => .ok
  disconnects := fun _ _ => .ok
  flushStateToDisk := fun _ => true
  fromMemory := fun _ => false
  fuel := 10

/-- The block with its last transaction repeated. -/
def repeatedTail : CBlock := { plainStakeBlock with
  vtx := [plainCoinBase, plainCoinStake, plainTransaction, plainTransaction] }

/-- The block with a signature that does not verify. -/
def forgedSignature : CBlock := { plainStakeBlock with vchBlockSig := [2] }

theorem plainStakeBlock_check :
    checkBlock (plainCrypto.env (Env.quiet .main false)) plainNode.toBlockTree plainStakeBlock
      true = .ok () := by
  decide

theorem deliver_repeatedTail :
    deliverBlock plainCrypto plainBase plainNode (plainDelivery repeatedTail) = .ok plainNode := by
  have hfirst : checkBlock (plainCrypto.env (plainDelivery repeatedTail).env)
      plainNode.toBlockTree (plainDelivery repeatedTail).block true =
        .error (.invalid 100 .invalid "bad-txns-duplicate" true) := by
    decide
  rw [deliverBlock, Delivery.processNewBlock, hfirst]
  simp only
  split_ifs
  · rfl
  · rfl
  · rfl

theorem deliver_forgedSignature :
    deliverBlock plainCrypto plainBase plainNode (plainDelivery forgedSignature) = .ok plainNode := by
  have hfirst : checkBlock (plainCrypto.env (plainDelivery forgedSignature).env)
      plainNode.toBlockTree (plainDelivery forgedSignature).block true = .ok () := by
    decide
  have hsignature : checkBlockSignature plainCrypto (plainDelivery forgedSignature).block =
      false := by
    decide
  rw [deliverBlock, Delivery.processNewBlock_of_ok hfirst, hsignature]
  rfl

/-- The transactions of the three blocks do not collide. -/
theorem plain_noCollisions {C : CBlock} (hC : C ∈ [repeatedTail, forgedSignature, plainStakeBlock]) :
    NoCollisions plainCrypto plainStakeBlock C := by
  have htx : ([repeatedTail, forgedSignature, plainStakeBlock].all fun C => C.vtx.all fun tx =>
      plainStakeBlock.vtx.all fun tx' => decide (tx.hash = tx'.hash → tx = tx')) = true := by
    decide
  have hmerkle : ([repeatedTail, forgedSignature, plainStakeBlock].all fun C =>
      let l := C.vtx.map CTransaction.hash
      let l' := plainStakeBlock.vtx.map CTransaction.hash
      let pairs := Merkle.hashed plainCrypto.merkleHash l.length l
      let pairs' := Merkle.hashed plainCrypto.merkleHash l'.length l'
      (pairs.all fun p => pairs'.all fun q => decide (plainCrypto.merkleHash p.1 p.2 =
        plainCrypto.merkleHash q.1 q.2 → p = q)) &&
      (l.all fun x => pairs'.all fun q => x != plainCrypto.merkleHash q.1 q.2) &&
      (l'.all fun x => pairs.all fun p => x != plainCrypto.merkleHash p.1 p.2)) = true := by
    decide
  have hheader : ([repeatedTail, forgedSignature, plainStakeBlock].all fun C =>
      C.toCBlockHeader == plainStakeBlock.toCBlockHeader) = true := by
    decide
  simp only [List.all_eq_true, Bool.and_eq_true, decide_eq_true_eq, bne_iff_ne] at htx hmerkle
  refine ⟨fun _ => ?_, htx C hC, fun _ => ?_⟩
  · exact eq_of_beq (List.all_eq_true.1 hheader C hC)
  · exact ⟨(hmerkle C hC).1.1, (hmerkle C hC).1.2, (hmerkle C hC).2⟩

theorem plain_validAt {C : CBlock} (hC : C ∈ [repeatedTail, forgedSignature, plainStakeBlock]) :
    ValidAt plainCrypto plainBase plainStakeBlock plainNode (plainDelivery C) := by
  have hchecks : ([repeatedTail, forgedSignature, plainStakeBlock].all fun C =>
      let d := plainDelivery C
      let s := d.indexed plainCrypto plainBase plainNode
      (checkPayee { plainCrypto.env d.env with isInitialBlockDownload := false }
        s.toBlockTree plainStakeBlock == .ok ()) &&
      (d.contextualCheckBlock s (s.index (plainCrypto.getHash plainStakeBlock)).pprev
        plainStakeBlock == .ok ())) = true := by
    decide
  have := List.all_eq_true.1 hchecks C hC
  simp only [Bool.and_eq_true, beq_iff_eq] at this
  exact ⟨fun _ => by simp [plainDelivery], fun _ => this.1, fun _ => this.2⟩

/-- After a copy with a repeated transaction and one with a forged signature, the block itself is
accepted. -/
theorem plainStakeBlock_accepted :
    Accepted plainCrypto plainBase plainStakeBlock plainNode (plainDelivery plainStakeBlock) := by
  have hunknown : plainCrypto.getHash plainStakeBlock ∉ plainNode.mapBlockIndex := by
    rw [← AList.lookup_eq_none]
    decide
  have hno : ∀ d ∈ [plainDelivery repeatedTail, plainDelivery forgedSignature],
      NoCollisions plainCrypto plainStakeBlock d.block := by
    simp only [List.forall_mem_cons, List.not_mem_nil, false_implies, implies_true, and_true]
    exact ⟨plain_noCollisions (by simp [plainDelivery]),
      plain_noCollisions (by simp [plainDelivery])⟩
  have hvalid : Run.Along (deliverBlock plainCrypto plainBase)
      (ValidAt plainCrypto plainBase plainStakeBlock) plainNode
      [plainDelivery repeatedTail, plainDelivery forgedSignature] := by
    refine ⟨plain_validAt (by simp), fun s hs => ?_⟩
    cases deliver_repeatedTail.symm.trans hs
    exact ⟨plain_validAt (by simp), fun _ _ => trivial⟩
  have hrun : Run.run (deliverBlock plainCrypto plainBase) plainNode
      [plainDelivery repeatedTail, plainDelivery forgedSignature] = .ok plainNode :=
    Run.run_cons deliver_repeatedTail (Run.run_cons deliver_forgedSignature rfl)
  refine (corrupted_copies_never_condemn ⟨_, _, plainStakeBlock_check⟩ hunknown
    (by simp [plainNode]) hno hvalid hrun).2 _ rfl (plain_noCollisions (by simp [plainDelivery]))
    (plain_validAt (by simp)) ?_
  exact ⟨plainStakeBlock_check, by decide, ⟨_, rfl, rfl⟩, rfl, rfl, rfl⟩

end FairCoin
