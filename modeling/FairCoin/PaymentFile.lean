import FairCoin.PaymentVotes
import FairCoin.Lib.Codec

/-!
# The payment file

How `CMasternodePayments` is written to `mnpayments.dat` and read back: the formats of its parts,
as `src/serialize.h` lays them out, and `CMasternodePaymentDB::Read`, which clears the tables when
the data cannot be read.

* `serialize`, `deserialize`, `reload` — writing, reading, and a round trip with its error path.
* `reload_spec` — what comes back has the same entries, or nothing at all when a size is above
  `MAX_SIZE`.
* `tally_run_reload` — **the tables agree** after every sequence of votes and clean-ups, and after
  a round trip.
-/

namespace FairCoin

open Store Codec

/-! ## Formats -/

/-- `MAX_SIZE` of `serialize.h`. -/
def maxSize : ℕ := 0x02000000

/-- Byte vectors and scripts. -/
def scriptFormat : Format CScript := vec maxSize byte

/-- `COutPoint`. -/
def outPointFormat : Format COutPoint :=
  imap (pair (bitVec 32) (uint 4)) (fun o => (o.hash, o.n)) fun x => ⟨x.1, x.2⟩

/-- `CTxIn`. -/
def txInFormat : Format CTxIn :=
  imap (pair outPointFormat (pair scriptFormat (uint 4)))
    (fun i => (i.prevout, i.scriptSig, i.nSequence)) fun x => ⟨x.1, x.2.1, x.2.2⟩

/-- `CMasternodePaymentWinner`. -/
def winnerFormat : Format CMasternodePaymentWinner :=
  imap (pair txInFormat (pair int32 (pair scriptFormat scriptFormat)))
    (fun w => (w.vinMasternode, w.nBlockHeight, w.payee, w.vchSig))
    fun x => ⟨x.1, x.2.1, x.2.2.1, x.2.2.2⟩

/-- `CMasternodePayee`. -/
def payeeFormat : Format CMasternodePayee :=
  imap (pair scriptFormat int32) (fun q => (q.scriptPubKey, q.nVotes)) fun x => ⟨x.1, x.2⟩

/-- `CMasternodeBlockPayees`. -/
def blockPayeesFormat : Format CMasternodeBlockPayees :=
  imap (pair int32 (vec maxSize payeeFormat)) (fun b => (b.nBlockHeight, b.vecPayments))
    fun x => ⟨x.1, x.2⟩

/-- The entries of `mapMasternodePayeeVotes`. -/
def winnersFormat : Format (List (UInt256 × CMasternodePaymentWinner)) :=
  vec maxSize (pair (bitVec 32) winnerFormat)

/-- The entries of `mapMasternodeBlocks`. -/
def blocksFormat : Format (List (ℤ × CMasternodeBlockPayees)) :=
  vec maxSize (pair int32 blockPayeesFormat)

/-! ## The object -/

/-- `CMasternodePayments` as bytes. -/
def PaymentVotes.serialize (p : PaymentVotes) : Bytes :=
  (pair winnersFormat blocksFormat).put
    (sortedEntries uint256Le p.mapMasternodePayeeVotes,
      sortedEntries (fun a b => decide (a ≤ b)) p.mapMasternodeBlocks)

/-- `CMasternodePayments` from bytes; `none` when the reader throws. -/
def PaymentVotes.deserialize (bytes : Bytes) : Option PaymentVotes :=
  ((pair winnersFormat blocksFormat).get bytes).map fun x =>
    { mapMasternodePayeeVotes := mapOfEntries x.1.1
      mapMasternodeBlocks := mapOfEntries x.1.2 }

/-- A round trip through the file: `CMasternodePaymentDB::Read` clears the tables when the reader
throws. -/
def PaymentVotes.reload (p : PaymentVotes) : PaymentVotes :=
  (PaymentVotes.deserialize p.serialize).getD {}

/-- No size is above `MAX_SIZE`, so the reader takes the bytes. -/
def PaymentVotes.fits (p : PaymentVotes) : Bool :=
  (pair winnersFormat blocksFormat).fits
    (sortedEntries uint256Le p.mapMasternodePayeeVotes,
      sortedEntries (fun a b => decide (a ≤ b)) p.mapMasternodeBlocks)

/-! ## Values of the source's types -/

/-- The value of an `int`. -/
def IsInt (x : ℤ) : Prop := -2 ^ 31 ≤ x ∧ x < 2 ^ 31

/-- The size of a container. -/
def IsSize (n : ℕ) : Prop := n < 2 ^ 64

/-- The fields of the input are values of their types in the source. -/
structure CTxIn.Wire (i : CTxIn) : Prop where
  n : i.prevout.n < 256 ^ 4
  scriptSig : IsSize i.scriptSig.length
  nSequence : i.nSequence < 256 ^ 4

/-- The fields of the vote are values of their types in the source. -/
structure CMasternodePaymentWinner.Wire (w : CMasternodePaymentWinner) : Prop where
  vinMasternode : w.vinMasternode.Wire
  nBlockHeight : IsInt w.nBlockHeight
  payee : IsSize w.payee.length
  vchSig : IsSize w.vchSig.length

/-- The fields of a table are values of their types in the source. -/
structure CMasternodeBlockPayees.Wire (b : CMasternodeBlockPayees) : Prop where
  nBlockHeight : IsInt b.nBlockHeight
  vecPayments : IsSize b.vecPayments.length
  payees : ∀ q ∈ b.vecPayments, IsSize q.scriptPubKey.length ∧ IsInt q.nVotes

theorem lawful_scriptFormat : Lawful scriptFormat fun s => IsSize s.length := by
  intro s rest hs
  exact lawful_vec maxSize lawful_byte s rest ⟨hs, fun _ _ => trivial⟩

theorem lawful_outPointFormat : Lawful outPointFormat fun o => o.n < 256 ^ 4 :=
  lawful_imap (lawful_pair (lawful_bitVec 32) (lawful_uint 4)) fun _ ho => ⟨⟨trivial, ho⟩, rfl⟩

theorem lawful_winnerFormat : Lawful winnerFormat CMasternodePaymentWinner.Wire := by
  have htxIn : Lawful txInFormat CTxIn.Wire :=
    lawful_imap (lawful_pair lawful_outPointFormat (lawful_pair lawful_scriptFormat (lawful_uint 4)))
      fun _ hi => ⟨⟨hi.n, hi.scriptSig, hi.nSequence⟩, rfl⟩
  exact lawful_imap
    (lawful_pair htxIn (lawful_pair lawful_int32 (lawful_pair lawful_scriptFormat lawful_scriptFormat)))
    fun _ hw => ⟨⟨hw.vinMasternode, hw.nBlockHeight, hw.payee, hw.vchSig⟩, rfl⟩

theorem lawful_blockPayeesFormat : Lawful blockPayeesFormat CMasternodeBlockPayees.Wire := by
  have hpayee : Lawful payeeFormat fun q => IsSize q.scriptPubKey.length ∧ IsInt q.nVotes :=
    lawful_imap (lawful_pair lawful_scriptFormat lawful_int32) fun _ hq => ⟨hq, rfl⟩
  exact lawful_imap (lawful_pair lawful_int32 (lawful_vec maxSize hpayee))
    fun _ hb => ⟨⟨hb.nBlockHeight, hb.vecPayments, hb.payees⟩, rfl⟩

theorem lawful_winnersFormat :
    Lawful winnersFormat fun es => IsSize es.length ∧ ∀ e ∈ es, e.2.Wire := by
  rintro es rest ⟨hlen, hes⟩
  exact lawful_vec maxSize (lawful_pair (lawful_bitVec 32) lawful_winnerFormat) es rest
    ⟨hlen, fun e he => ⟨trivial, hes e he⟩⟩

theorem lawful_blocksFormat :
    Lawful blocksFormat fun es => IsSize es.length ∧ ∀ e ∈ es, IsInt e.1 ∧ e.2.Wire :=
  lawful_vec maxSize (lawful_pair lawful_int32 lawful_blockPayeesFormat)

/-! ## The tables of recorded votes can be written -/

/-- Every recorded vote is made of values of the source's types. -/
def PaymentVotes.Wire (p : PaymentVotes) : Prop :=
  ∀ k w, p.mapMasternodePayeeVotes.lookup k = some w → w.Wire

section Reload

variable {p : PaymentVotes}

/-- A listed payee has as many votes as recorded votes name it. -/
theorem TallyInv.nVotes_eq (hI : TallyInv p) {h : ℤ} {b : CMasternodeBlockPayees}
    (hb : p.mapMasternodeBlocks.lookup h = some b) {q : CMasternodePayee} (hq : q ∈ b.vecPayments) :
    q.nVotes = p.recorded h q.scriptPubKey := by
  rw [← hI.tally, PaymentVotes.nVotes, hb, Option.map_some, Option.getD_some,
    CMasternodeBlockPayees.votesFor]
  cases hfind : b.vecPayments.find? fun r => r.scriptPubKey == q.scriptPubKey with
  | none => exact absurd (List.find?_eq_none.1 hfind q hq) (by simp)
  | some r =>
    have hr : r ∈ b.vecPayments := List.mem_of_find?_eq_some hfind
    have hs : r.scriptPubKey = q.scriptPubKey := by simpa using List.find?_some hfind
    rw [List.inj_on_of_nodup_map (hI.scripts h b hb) hr hq hs]
    rfl

/-- A listed payee is named by a recorded vote. -/
theorem TallyInv.exists_winner (hI : TallyInv p) {h : ℤ} {b : CMasternodeBlockPayees}
    (hb : p.mapMasternodeBlocks.lookup h = some b) {q : CMasternodePayee} (hq : q ∈ b.vecPayments) :
    ∃ e ∈ p.mapMasternodePayeeVotes.entries, e.2.payee = q.scriptPubKey := by
  have hpos := (hI.voted h b hb).2 q hq
  have heq := hI.nVotes_eq hb hq
  have hcount : 0 < p.recorded h q.scriptPubKey := by omega
  rw [PaymentVotes.recorded, List.countP_pos_iff] at hcount
  obtain ⟨e, he, hw⟩ := hcount
  simp only [Bool.and_eq_true, beq_iff_eq] at hw
  exact ⟨e, he, hw.2⟩

theorem TallyInv.wire_block (hI : TallyInv p) (hwire : p.Wire)
    (hlen : p.mapMasternodePayeeVotes.entries.length ≤ maxSize) {h : ℤ} {b : CMasternodeBlockPayees}
    (hb : p.mapMasternodeBlocks.lookup h = some b) : IsInt h ∧ b.Wire := by
  have hmax : maxSize = 33554432 := rfl
  obtain ⟨k, w, hw, rfl⟩ := hI.exists_recorded hb
  have hint := (hwire k w hw).nBlockHeight
  have hscripts : (b.vecPayments.map CMasternodePayee.scriptPubKey) ⊆
      p.mapMasternodePayeeVotes.entries.map fun e => e.2.payee := by
    intro s hs
    obtain ⟨q, hq, rfl⟩ := List.mem_map.1 hs
    obtain ⟨e, he, heq⟩ := hI.exists_winner hb hq
    exact List.mem_map.2 ⟨e, he, heq⟩
  have hle := (List.subperm_of_subset (hI.scripts _ b hb) hscripts).length_le
  rw [List.length_map, List.length_map] at hle
  refine ⟨hint, ⟨by rw [hI.filed _ b hb]; exact hint, ?_, fun q hq => ⟨?_, ?_⟩⟩⟩
  · rw [IsSize]
    omega
  · obtain ⟨⟨k', w'⟩, he, heq⟩ := hI.exists_winner hb hq
    rw [← heq]
    exact (hwire k' w' (AList.mem_lookup_iff.2 he)).payee
  · have hpos := (hI.voted _ b hb).2 q hq
    have heq := hI.nVotes_eq hb hq
    have hcount : p.recorded w.nBlockHeight q.scriptPubKey ≤ p.mapMasternodePayeeVotes.entries.length :=
      List.countP_le_length
    rw [IsInt]
    omega

theorem TallyInv.length_blocks_le (hI : TallyInv p) :
    p.mapMasternodeBlocks.entries.length ≤ p.mapMasternodePayeeVotes.entries.length := by
  have hsub : p.mapMasternodeBlocks.entries.map Sigma.fst ⊆
      p.mapMasternodePayeeVotes.entries.map fun e => e.2.nBlockHeight := by
    intro h hh
    obtain ⟨⟨h', b⟩, he, rfl⟩ := List.mem_map.1 hh
    obtain ⟨k, w, hw, heq⟩ := hI.exists_recorded (AList.mem_lookup_iff.2 he)
    exact List.mem_map.2 ⟨⟨k, w⟩, AList.mem_lookup_iff.1 hw, heq⟩
  have hle : (p.mapMasternodeBlocks.entries.map Sigma.fst).length ≤ _ :=
    (List.subperm_of_subset p.mapMasternodeBlocks.nodupKeys hsub).length_le
  rwa [List.length_map, List.length_map] at hle

/-- Reading the bytes gives the entries back when every size fits, and throws otherwise. -/
theorem deserialize_serialize (hI : TallyInv p) (hwire : p.Wire)
    (hlen : IsSize p.mapMasternodePayeeVotes.entries.length) :
    PaymentVotes.deserialize p.serialize =
      if p.fits then
        some { mapMasternodePayeeVotes :=
                 mapOfEntries (sortedEntries uint256Le p.mapMasternodePayeeVotes)
               mapMasternodeBlocks :=
                 mapOfEntries (sortedEntries (fun a b => decide (a ≤ b)) p.mapMasternodeBlocks) }
      else none := by
  set ws := sortedEntries uint256Le p.mapMasternodePayeeVotes with hws
  set bs := sortedEntries (fun a b => decide (a ≤ b)) p.mapMasternodeBlocks with hbs
  have hwlen : ws.length = p.mapMasternodePayeeVotes.entries.length := length_sortedEntries _ _
  have hblen : bs.length = p.mapMasternodeBlocks.entries.length := length_sortedEntries _ _
  have hwin : IsSize ws.length ∧ ∀ e ∈ ws, e.2.Wire :=
    ⟨by rwa [hwlen], fun e he => hwire e.1 e.2 (mem_sortedEntries he)⟩
  change ((pair winnersFormat blocksFormat).get ((pair winnersFormat blocksFormat).put (ws, bs))).map
    _ = if (pair winnersFormat blocksFormat).fits (ws, bs) then _ else none
  rw [← List.append_nil ((pair winnersFormat blocksFormat).put (ws, bs))]
  by_cases hmax : p.mapMasternodePayeeVotes.entries.length ≤ maxSize
  · have hblocks : IsSize bs.length ∧ ∀ e ∈ bs, IsInt e.1 ∧ e.2.Wire := by
      refine ⟨?_, fun e he => hI.wire_block hwire hmax (mem_sortedEntries he)⟩
      rw [hblen]
      exact lt_of_le_of_lt hI.length_blocks_le hlen
    rw [lawful_pair lawful_winnersFormat lawful_blocksFormat (ws, bs) [] ⟨hwin, hblocks⟩]
    split
    · rfl
    · rfl
  · -- the size of the first map is refused before anything else is read
    have hfits : winnersFormat.fits ws = false := by
      change (decide (ws.length ≤ maxSize) && _) = false
      rw [hwlen, decide_eq_false hmax]
      rfl
    have hget : (pair winnersFormat blocksFormat).get
        ((pair winnersFormat blocksFormat).put (ws, bs) ++ []) = none := by
      change ((winnersFormat.get (winnersFormat.put ws ++ blocksFormat.put bs ++ [])).bind _) = none
      rw [List.append_assoc, lawful_winnersFormat ws _ hwin, hfits]
      rfl
    have hpair : (pair winnersFormat blocksFormat).fits (ws, bs) = false := by
      change (winnersFormat.fits ws && _) = false
      rw [hfits]
      rfl
    rw [hget, hpair]
    rfl

/-- The invariant depends on the entries of the maps only. -/
theorem TallyInv.congr {q : PaymentVotes} (hI : TallyInv p)
    (hvotes : ∀ k, q.mapMasternodePayeeVotes.lookup k = p.mapMasternodePayeeVotes.lookup k)
    (hblocks : ∀ h, q.mapMasternodeBlocks.lookup h = p.mapMasternodeBlocks.lookup h) :
    TallyInv q where
  tally h script := by
    have hperm : q.mapMasternodePayeeVotes.entries.Perm
        (p.mapMasternodePayeeVotes.entries.filter fun _ => true) :=
      entries_perm_filter fun k w => by rw [hvotes]; simp
    rw [PaymentVotes.nVotes, hblocks, ← PaymentVotes.nVotes, hI.tally, PaymentVotes.recorded,
      PaymentVotes.recorded, hperm.countP_eq, List.filter_true]
  voted h b hb := hI.voted h b (by rwa [← hblocks])
  scripts h b hb := hI.scripts h b (by rwa [← hblocks])
  filed h b hb := hI.filed h b (by rwa [← hblocks])

/-- **The round trip.**  When no size is above `MAX_SIZE` every entry comes back; otherwise the
tables come back empty.  They agree either way. -/
theorem reload_spec (hI : TallyInv p) (hwire : p.Wire)
    (hlen : IsSize p.mapMasternodePayeeVotes.entries.length) :
    TallyInv p.reload ∧
      (p.fits = true →
        (∀ k, p.reload.mapMasternodePayeeVotes.lookup k = p.mapMasternodePayeeVotes.lookup k) ∧
        ∀ h, p.reload.mapMasternodeBlocks.lookup h = p.mapMasternodeBlocks.lookup h) ∧
      (p.fits = false → p.reload = {}) := by
  rw [PaymentVotes.reload, deserialize_serialize hI hwire hlen]
  cases p.fits with
  | false => exact ⟨TallyInv.start, fun h => absurd h (by simp), fun _ => rfl⟩
  | true =>
    have hvotes := lookup_mapOfEntries_sortedEntries uint256Le p.mapMasternodePayeeVotes
    have hblocks := lookup_mapOfEntries_sortedEntries (fun a b : ℤ => decide (a ≤ b))
      p.mapMasternodeBlocks
    exact ⟨hI.congr hvotes hblocks, fun _ => ⟨hvotes, hblocks⟩, fun h => absurd h (by simp)⟩

end Reload

/-! ## Every sequence of calls -/

theorem wire_step {hash : WinnerHash} {p : PaymentVotes} (hp : TallyInv p ∧ p.Wire)
    {call : PaymentCall} (hcall : ∀ getBlockHash w, call = .add getBlockHash w → w.Wire) :
    TallyInv (paymentStep hash p call) ∧ (paymentStep hash p call).Wire := by
  refine ⟨hp.1.step hash call, fun k w hw => ?_⟩
  cases call with
  | add getBlockHash winnerIn =>
    rw [paymentStep, addWinningMasternode] at hw
    split at hw
    · exact hp.2 k w hw
    · split at hw
      · exact hp.2 k w hw
      · simp only [lookup_insert_eq] at hw
        split at hw
        · cases hw
          exact hcall _ _ rfl
        · exact hp.2 k w hw
  | clean env =>
    rw [paymentStep] at hw
    cases htip : env.tip with
    | none =>
      rw [cleanPaymentList, htip] at hw
      exact hp.2 k w hw
    | some nHeight => exact hp.2 k w (((lookup_cleanPaymentList hp.1 htip).1 k w).1 hw).1

theorem wire_foldl {hash : WinnerHash} {calls : List PaymentCall} : ∀ {p : PaymentVotes},
    TallyInv p ∧ p.Wire → (∀ getBlockHash w, .add getBlockHash w ∈ calls → w.Wire) →
      (calls.foldl (paymentStep hash) p).Wire := by
  induction calls with
  | nil => exact fun hp _ => hp.2
  | cons call calls ih =>
    intro p hp hwire
    exact ih (wire_step hp fun g w h => hwire g w (by simp [h]))
      fun g w h => hwire g w (by simp [h])

/-- **The tables always agree.**  After every sequence of votes and clean-ups the count of every
payee is the number of its recorded votes, no height is without votes and no script is listed
twice; writing the tables to the file and reading them back keeps this, and gives back every entry
when no size is above `MAX_SIZE`. -/
theorem tally_run_reload (hash : WinnerHash) (calls : List PaymentCall)
    (hwire : ∀ getBlockHash w, .add getBlockHash w ∈ calls → w.Wire)
    (hlen : IsSize (paymentRun hash calls).mapMasternodePayeeVotes.entries.length) :
    TallyInv (paymentRun hash calls) ∧ TallyInv (paymentRun hash calls).reload ∧
      ((paymentRun hash calls).fits = true →
        (∀ k, (paymentRun hash calls).reload.mapMasternodePayeeVotes.lookup k =
          (paymentRun hash calls).mapMasternodePayeeVotes.lookup k) ∧
        ∀ h, (paymentRun hash calls).reload.mapMasternodeBlocks.lookup h =
          (paymentRun hash calls).mapMasternodeBlocks.lookup h) ∧
      ((paymentRun hash calls).fits = false → (paymentRun hash calls).reload = {}) := by
  have hI := TallyInv.run hash calls
  have hW : (paymentRun hash calls).Wire :=
    wire_foldl ⟨TallyInv.start, fun k w h => absurd h (by simp)⟩ hwire
  exact ⟨hI, reload_spec hI hW hlen⟩

namespace PaymentExample

/-- A hash for small examples. -/
def hash : WinnerHash := fun payee h o =>
  o.hash + BitVec.ofNat 256 o.n + BitVec.ofInt 256 (1000 * h) + BitVec.ofNat 256 payee.length

/-- The vote of the masternode with collateral `(7, i)` for a payee at a height. -/
def winner (i : ℕ) (h : ℤ) (payee : CScript) : CMasternodePaymentWinner where
  vinMasternode := { prevout := ⟨7, i⟩ }
  nBlockHeight := h
  payee := payee
  vchSig := [1]

theorem wire_winner {i : ℕ} {h : ℤ} {payee : CScript} (hi : i < 256 ^ 4) (hh : IsInt h)
    (hp : IsSize payee.length) : (winner i h payee).Wire where
  vinMasternode := ⟨hi, by change 0 < 2 ^ 64; norm_num, by change 4294967295 < 256 ^ 4; norm_num⟩
  nBlockHeight := hh
  payee := hp
  vchSig := by change 1 < 2 ^ 64; norm_num

/-- Two votes for one payee, a vote for another height, and a clean-up that drops the latter. -/
def calls : List PaymentCall :=
  [.add (fun _ => some 0) (winner 0 2000 [1]), .add (fun _ => some 0) (winner 1 2000 [1]),
    .add (fun _ => some 0) (winner 2 500 [1]), .clean ⟨some 2100, 10⟩]

end PaymentExample

open PaymentExample in
/-- The tables after two votes, a third that gets old, and a clean-up. -/
theorem tally_run_reload_calls :
    (paymentRun hash calls).nVotes 2000 [1] = 2 ∧ (paymentRun hash calls).nVotes 500 [1] = 0 ∧
      TallyInv (paymentRun hash calls) ∧ TallyInv (paymentRun hash calls).reload := by
  have hwire : ∀ getBlockHash w, .add getBlockHash w ∈ calls → w.Wire := by
    intro g w hw
    simp only [calls, List.mem_cons, PaymentCall.add.injEq, List.not_mem_nil, or_false,
      reduceCtorEq] at hw
    rcases hw with ⟨-, rfl⟩ | ⟨-, rfl⟩ | ⟨-, rfl⟩
    all_goals exact wire_winner (by decide) ⟨by decide, by decide⟩ (by change 1 < 2 ^ 64; norm_num)
  have h := tally_run_reload hash calls hwire (by unfold IsSize; decide)
  exact ⟨by decide, by decide, h.1, h.2.1⟩

end FairCoin
