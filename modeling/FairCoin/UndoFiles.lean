import FairCoin.CoinsStorage

/-!
# Undo files

`CTxInUndo` of `src/undo.h`, and `FindUndoPos` and `CBlockUndo::WriteToDisk` of `src/main.cpp`: the
undo data of the blocks is appended to files, one for each block file.

* `putTxInUndo`, `getTxInUndo`, `sizeOfTxInUndo` — one record: height and flags share a code, and
  the version is there only with a height.
* `Recorded` — what `CCoins::Spend` records of the entries of a chain (`recorded_spend`).
* `UndoState`, `connectUndo` — the sizes of the files, which are 32-bit numbers, their bytes, and
  the ranges that were reserved.
* `UndoInv` — the ranges of a file follow each other, and each holds what was written to it.
* `undo_roundTrip` — **records come back, and the ranges of a file do not overlap** as long as the
  file stays below `2 ^ 32` bytes.
-/

namespace FairCoin

open Codec

/-! ## Records -/

/-- The code of height and flags, in `unsigned int`. -/
def CTxInUndo.code (u : CTxInUndo) : ℕ :=
  ((u.nHeight % 2 ^ 32).toNat * 4 + (if u.fCoinBase then 2 else 0) +
    (if u.fCoinStake then 1 else 0)) % 2 ^ 32

/-- `CTxInUndo::Serialize`. -/
def putTxInUndo (ops : CurveOps) (u : CTxInUndo) : Bytes :=
  putVarInt 32 u.code ++ ((if 0 < u.nHeight then putInt u.nVersion else []) ++
    (diskTxOut ops).put u.txout)

/-- `CTxInUndo::GetSerializeSize`, in `unsigned int`. -/
def sizeOfTxInUndo (ops : CurveOps) (u : CTxInUndo) : ℕ :=
  (sizeOfVarInt 32 u.code + (if 0 < u.nHeight then sizeOfInt u.nVersion else 0) +
    ((diskTxOut ops).put u.txout).length) % 2 ^ 32

/-- `CTxInUndo::Unserialize` into a default record. -/
def getTxInUndo (ops : CurveOps) (s : Bytes) : Option (CTxInUndo × Bytes) :=
  (getVarInt 32 s).bind fun (nCode, s) =>
    let nHeight : ℤ := (nCode / 4 : ℕ)
    (if 0 < nHeight then getInt s else some (0, s)).bind fun (nVersion, s) =>
      ((diskTxOut ops).get s).map fun (txout, s) =>
        ({ txout := txout, fCoinBase := nCode.testBit 1, fCoinStake := nCode.testBit 0,
           nHeight := nHeight, nVersion := nVersion }, s)

/-- An output of a transaction in a block: the amount is in the money range, the script is not
longer than a block, and `nRounds` has not been touched. -/
structure CTxOut.InBlock (net : Network) (o : CTxOut) : Prop where
  value : 0 ≤ o.nValue ∧ o.nValue ≤ net.maxMoneyOut
  script : o.scriptPubKey.length ≤ 1000000
  rounds : o.nRounds = -10

/-- An entry of a transaction in a block above genesis. -/
structure CCoins.InChain (net : Network) (c : CCoins) : Prop where
  height : 0 < c.nHeight ∧ c.nHeight < 2 ^ 30
  version : 0 ≤ c.nVersion ∧ c.nVersion < 2 ^ 31
  outputs : ∀ o ∈ c.vout, o.isNull = false → o.InBlock net

/-- A record of a block: without a height there is no version. -/
structure CTxInUndo.Recorded (net : Network) (u : CTxInUndo) : Prop where
  height : 0 ≤ u.nHeight ∧ u.nHeight < 2 ^ 30
  version : 0 ≤ u.nVersion ∧ u.nVersion < 2 ^ 31
  plain : u.nHeight = 0 → u.nVersion = 0
  output : u.txout.InBlock net

/-- **What is spent is recorded**: the undo data of an input has the metadata of the entry with
its last output, and none otherwise. -/
theorem recorded_spend {net : Network} {c c' : CCoins} {n : ℕ} {u : CTxInUndo}
    (hc : c.InChain net) (h : c.spend n = some (u, c')) : u.Recorded net := by
  unfold CCoins.spend at h
  split at h
  · cases h
  · next o ho =>
    split at h
    · cases h
    · next hnull =>
      have hout : o.InBlock net :=
        hc.outputs o (List.mem_of_getElem? ho) (Bool.eq_false_iff.2 hnull)
      simp only at h
      split at h
      · cases h
        refine ⟨⟨hc.height.1.le, hc.height.2⟩, hc.version, fun h0 => ?_, hout⟩
        exact absurd h0 hc.height.1.ne'
      · cases h
        exact ⟨⟨le_rfl, by norm_num⟩, ⟨le_rfl, by norm_num⟩, fun _ => rfl, hout⟩

theorem CTxOut.InBlock.fits {net : Network} {o : CTxOut} (h : o.InBlock net) (ops : CurveOps) :
    (diskTxOut ops).fits o = true := by
  have := h.script
  rw [txOutFits_iff]
  exact ⟨amountFits_of_money h.value.1 h.value.2, by omega, h.rounds⟩

theorem CTxInUndo.code_bits {u : CTxInUndo} (hh : 0 ≤ u.nHeight ∧ u.nHeight < 2 ^ 30) :
    ((u.code / 4 : ℕ) : ℤ) = u.nHeight ∧ u.code.testBit 1 = u.fCoinBase ∧
    u.code.testBit 0 = u.fCoinStake := by
  obtain ⟨h0, hlt⟩ := hh
  simp only [Nat.testBit_eq_decide_div_mod_eq, CTxInUndo.code]
  cases u.fCoinBase <;> cases u.fCoinStake <;>
    simp only [if_true, if_false, Bool.false_eq_true, decide_eq_true_eq,
      decide_eq_false_iff_not] <;> omega

/-- **Records come back.** -/
theorem getTxInUndo_putTxInUndo {net : Network} {ops : CurveOps} (hops : ops.Sound)
    {u : CTxInUndo} (hu : u.Recorded net) (rest : Bytes) :
    getTxInUndo ops (putTxInUndo ops u ++ rest) = some (u, rest) := by
  obtain ⟨hheight, hbase, hstake⟩ := CTxInUndo.code_bits hu.height
  have hcode : u.code < 2 ^ 32 := Nat.mod_lt _ (by norm_num)
  have hout : ∀ rest, (diskTxOut ops).get ((diskTxOut ops).put u.txout ++ rest) =
      some (u.txout, rest) := (exact_txOut hops u.txout trivial).1 (hu.output.fits ops)
  rw [getTxInUndo, putTxInUndo, List.append_assoc, getVarInt_putVarInt _ (by norm_num) hcode,
    Option.bind_some, List.append_assoc]
  simp only [hheight, hbase, hstake]
  split
  · next hpos =>
    rw [getInt_putInt hu.version.1 hu.version.2, Option.bind_some, hout]
    rfl
  · next hpos =>
    have hzero : u.nHeight = 0 := by
      have := hu.height.1
      omega
    rw [List.nil_append, Option.bind_some, hout, Option.map_some, ← hu.plain hzero]

theorem length_script_le {ops : CurveOps} (hops : ops.Sound) (script : CScript) :
    (CScriptCompressor.serialize ops script).length ≤ script.length + 33 := by
  unfold CScriptCompressor.serialize
  split
  · next compr hcompr =>
    obtain ⟨n, vch, hspecial⟩ := CScriptCompressor.special_of_compress hops hcompr
    have hsize : CScriptCompressor.getSpecialSize n ≤ 32 := by
      unfold CScriptCompressor.getSpecialSize
      split
      · omega
      · split <;> omega
    rw [hspecial.bytes, List.length_cons, hspecial.size]
    omega
  · have hle : sizeOfVarInt 32 (CScriptCompressor.generalSize script) ≤ 5 :=
      sizeOfVarIntLoop_le _ _
    rw [List.length_append, length_putVarInt]
    omega

theorem length_putTxInUndo (ops : CurveOps) (u : CTxInUndo) : (putTxInUndo ops u).length =
    sizeOfVarInt 32 u.code + (if 0 < u.nHeight then sizeOfInt u.nVersion else 0) +
      ((diskTxOut ops).put u.txout).length := by
  rw [putTxInUndo, List.length_append, List.length_append, length_putVarInt, Nat.add_assoc]
  split
  · rw [length_putInt]
  · rfl

/-- **The size function agrees with the writer.** -/
theorem sizeOfTxInUndo_eq {net : Network} {ops : CurveOps} (hops : ops.Sound) {u : CTxInUndo}
    (hu : u.Recorded net) : sizeOfTxInUndo ops u = (putTxInUndo ops u).length := by
  have hcode : sizeOfVarInt 32 u.code ≤ 5 := sizeOfVarIntLoop_le _ _
  have hversion : (if 0 < u.nHeight then sizeOfInt u.nVersion else 0) ≤ 5 := by
    split
    · rw [sizeOfInt]
      split
      · norm_num
      · exact sizeOfVarIntLoop_le _ _
    · exact Nat.zero_le _
  have hout : ((diskTxOut ops).put u.txout).length ≤ 1000043 := by
    have hamount : (putVarInt 64 (storedAmount u.txout.nValue)).length ≤ 10 := by
      rw [length_putVarInt]
      exact sizeOfVarIntLoop_le _ _
    have hscript := length_script_le hops u.txout.scriptPubKey
    have hlen := hu.output.script
    change (putVarInt 64 (storedAmount u.txout.nValue) ++
      CScriptCompressor.serialize ops u.txout.scriptPubKey).length ≤ _
    rw [List.length_append]
    omega
  rw [sizeOfTxInUndo, length_putTxInUndo]
  exact Nat.mod_eq_of_lt (by omega)

/-! ## Files -/

/-- The bytes of a transaction's undo data. -/
def putTxUndo (ops : CurveOps) (t : CTxUndo) : Bytes :=
  putCompactSize t.vprevout.length ++ t.vprevout.flatMap (putTxInUndo ops)

/-- The bytes of a block's undo data. -/
def putBlockUndo (ops : CurveOps) (b : CBlockUndo) : Bytes :=
  putCompactSize b.vtxundo.length ++ b.vtxundo.flatMap (putTxUndo ops)

/-- The curve, the four bytes in front of a record, and the checksum behind it. -/
structure UndoEnv where
  ops : CurveOps
  messageStart : BitVec 32
  checksum : UInt256 → Bytes → UInt256

/-- A range of an undo file: where it starts, the bytes reserved, and the bytes written. -/
structure UndoRange where
  nFile : ℕ
  nPos : ℕ
  nReserved : ℕ
  data : Bytes

/-- The sizes in `vinfoBlockFile`, the bytes of the files, and the ranges filled so far. -/
structure UndoState where
  nUndoSize : ℕ → ℕ := fun _ => 0
  files : ℕ → Bytes := fun _ => []
  ranges : List UndoRange := []

/-- A block to connect: the file it is in, its undo data, the hash of its parent, and whether there
is space on the disk. -/
structure UndoBlock where
  nFile : ℕ
  undo : CBlockUndo
  hashBlock : UInt256
  checkDiskSpace : Bool := true

/-- `::GetSerializeSize` of a block's undo data: `CSizeComputer` counts what the writer writes, and
the count is returned as `unsigned int`. -/
def sizeOfBlockUndo (ops : CurveOps) (b : CBlockUndo) : ℕ := (putBlockUndo ops b).length % 2 ^ 32

/-- `UNDOFILE_CHUNK_SIZE`. -/
def undofileChunkSize : ℕ := 0x100000

/-- Whether `FindUndoPos` has to allocate, in `unsigned int`. -/
def needsChunk (nPos nNewSize : ℕ) : Bool :=
  let nOldChunks := (nPos + undofileChunkSize - 1) % 2 ^ 32 / undofileChunkSize
  let nNewChunks := (nNewSize + undofileChunkSize - 1) % 2 ^ 32 / undofileChunkSize
  decide (nOldChunks < nNewChunks)

/-- `CBlockUndo::WriteToDisk`: the bytes of a record with its header and its checksum. -/
def undoRecord (env : UndoEnv) (b : UndoBlock) : Bytes :=
  putLE 4 env.messageStart.toNat ++ (putLE 4 (sizeOfBlockUndo env.ops b.undo) ++
    (putBlockUndo env.ops b.undo ++
      putLE 32 (env.checksum b.hashBlock (putBlockUndo env.ops b.undo)).toNat))

/-- Write at a position; a gap in front of it is filled with zeros. -/
def writeAt (content : Bytes) (nPos : ℕ) (data : Bytes) : Bytes :=
  (content ++ List.replicate (nPos - content.length) 0).take nPos ++
    (data ++ content.drop (nPos + data.length))

/-- `FindUndoPos` and the writing of the undo data in `ConnectBlock`.  The size of the file grows
also when there is no space for it. -/
def connectUndo (env : UndoEnv) (s : UndoState) (b : UndoBlock) : UndoState :=
  let nAddSize := (sizeOfBlockUndo env.ops b.undo + 40) % 2 ^ 32
  let nPos := s.nUndoSize b.nFile
  let nNewSize := (nPos + nAddSize) % 2 ^ 32
  let s := { s with nUndoSize := Function.update s.nUndoSize b.nFile nNewSize }
  if needsChunk nPos nNewSize && !b.checkDiskSpace then s
  else
    { s with
      files := Function.update s.files b.nFile
        (writeAt (s.files b.nFile) nPos (undoRecord env b))
      ranges := s.ranges ++ [⟨b.nFile, nPos, nAddSize, undoRecord env b⟩] }

/-- Connect a sequence of blocks. -/
def connectUndos (env : UndoEnv) (bs : List UndoBlock) : UndoState := bs.foldl (connectUndo env) {}

/-! ## Ranges -/

/-- The bytes of a range of a file. -/
def slice (content : Bytes) (nPos n : ℕ) : Bytes := (content.drop nPos).take n

theorem length_padded (content : Bytes) (nPos : ℕ) :
    ((content ++ List.replicate (nPos - content.length) 0).take nPos).length = nPos := by
  rw [List.length_take, List.length_append, List.length_replicate]
  omega

/-- What was written is there. -/
theorem slice_writeAt_self (content : Bytes) (nPos : ℕ) (data : Bytes) :
    slice (writeAt content nPos data) nPos data.length = data := by
  rw [slice, writeAt, List.drop_left' (length_padded content nPos), List.take_left]

/-- What lies before the position stays. -/
theorem slice_writeAt_before {content : Bytes} {nPos m n : ℕ} (data : Bytes) (hpos : m + n ≤ nPos)
    (hlen : m + n ≤ content.length) :
    slice (writeAt content nPos data) m n = slice content m n := by
  have htake : ∀ l : Bytes, slice l m n = (l.take (m + n)).drop m := by
    intro l
    rw [slice, List.drop_take, Nat.add_sub_cancel_left]
  have hpadded : (m + n : ℕ) ≤ ((content ++ List.replicate (nPos - content.length) 0).take
      nPos).length := by
    rw [length_padded]
    exact hpos
  rw [htake, htake, writeAt, List.take_append_of_le_length hpadded, List.take_take,
    Nat.min_eq_left hpos, List.take_append_of_le_length hlen]

/-- A range of a file holds what was written to it, and nothing more was reserved. -/
structure UndoRange.Holds (r : UndoRange) (content : Bytes) : Prop where
  exact : r.nReserved = r.data.length
  kept : slice content r.nPos r.data.length = r.data

/-- File `f` has `n` bytes in ranges that follow each other. -/
structure UndoInv (f n : ℕ) (s : UndoState) : Prop where
  size : s.nUndoSize f = n
  below : ∀ r ∈ s.ranges, r.nFile = f → r.nPos + r.nReserved ≤ n
  holds : ∀ r ∈ s.ranges, r.nFile = f → r.Holds (s.files f)
  order : s.ranges.Pairwise fun r r' =>
    r.nFile = f → r'.nFile = f → r.nPos + r.nReserved ≤ r'.nPos

/-- The bytes that a block adds to file `f`. -/
def addedTo (env : UndoEnv) (f : ℕ) (b : UndoBlock) : ℕ :=
  if b.nFile = f then (undoRecord env b).length else 0

theorem length_undoRecord (env : UndoEnv) (b : UndoBlock) :
    (undoRecord env b).length = (putBlockUndo env.ops b.undo).length + 40 := by
  simp only [undoRecord, List.length_append, length_putLE]
  omega

/-- Holding is about the bytes of the range only. -/
theorem UndoRange.Holds.writeAt {r : UndoRange} {content : Bytes} (h : r.Holds content) {nPos : ℕ}
    (hpos : r.nPos + r.nReserved ≤ nPos) (data : Bytes) :
    r.Holds (FairCoin.writeAt content nPos data) := by
  obtain ⟨hexact, hkept⟩ := h
  refine ⟨hexact, ?_⟩
  rcases Nat.eq_zero_or_pos r.data.length with h0 | hpos'
  · rw [slice, h0, List.take_zero, List.length_eq_zero_iff.1 h0]
  · have hlen : r.nPos + r.data.length ≤ content.length := by
      have := congrArg List.length hkept
      rw [slice, List.length_take, List.length_drop] at this
      omega
    rw [slice_writeAt_before data (by omega) hlen, hkept]

/-- **One block**: as long as the size does not wrap, its range follows the ones before it. -/
theorem UndoInv.connectUndo {env : UndoEnv} {f n : ℕ} {s : UndoState} (hI : UndoInv f n s)
    {b : UndoBlock} (hn : n + addedTo env f b < 2 ^ 32) :
    UndoInv f (n + addedTo env f b) (FairCoin.connectUndo env s b) := by
  unfold addedTo at hn ⊢
  by_cases hf : b.nFile = f
  · subst hf
    rw [if_pos rfl] at hn ⊢
    have hlen := length_undoRecord env b
    have hadd : (sizeOfBlockUndo env.ops b.undo + 40) % 2 ^ 32 = (undoRecord env b).length := by
      unfold sizeOfBlockUndo
      omega
    have hnew : (s.nUndoSize b.nFile + (undoRecord env b).length) % 2 ^ 32 =
        n + (undoRecord env b).length := by
      rw [hI.size]
      exact Nat.mod_eq_of_lt hn
    have hbelow : ∀ r ∈ s.ranges, r.nFile = b.nFile →
        r.nPos + r.nReserved ≤ n + (undoRecord env b).length :=
      fun r hr hrf => (hI.below r hr hrf).trans (Nat.le_add_right _ _)
    unfold FairCoin.connectUndo
    simp only [hadd, hnew]
    split
    · exact ⟨by simp, hbelow, hI.holds, hI.order⟩
    · refine ⟨by simp, ?_, ?_, ?_⟩
      · intro r hr hrf
        rcases List.mem_append.1 hr with hr | hr
        · exact hbelow r hr hrf
        · obtain rfl := List.mem_singleton.1 hr
          simp only [hI.size]
          exact le_rfl
      · intro r hr hrf
        simp only [Function.update_self]
        rcases List.mem_append.1 hr with hr | hr
        · refine (hI.holds r hr hrf).writeAt ?_ _
          rw [hI.size]
          exact hI.below r hr hrf
        · obtain rfl := List.mem_singleton.1 hr
          exact ⟨rfl, slice_writeAt_self _ _ _⟩
      · rw [List.pairwise_append]
        refine ⟨hI.order, List.pairwise_singleton _ _, ?_⟩
        intro r hr r' hr' hrf _
        obtain rfl := List.mem_singleton.1 hr'
        simp only [hI.size]
        exact hI.below r hr hrf
  · -- the block is in another file
    rw [if_neg hf, Nat.add_zero] at hn ⊢
    have hne : f ≠ b.nFile := fun h => hf h.symm
    have hsize : ∀ v, Function.update s.nUndoSize b.nFile v f = n := by
      intro v
      rw [Function.update_of_ne hne, hI.size]
    unfold FairCoin.connectUndo
    simp only
    split
    · exact ⟨hsize _, hI.below, hI.holds, hI.order⟩
    · have hold : ∀ r ∈ s.ranges ++ [⟨b.nFile, s.nUndoSize b.nFile,
          (sizeOfBlockUndo env.ops b.undo + 40) % 2 ^ 32, undoRecord env b⟩],
          r.nFile = f → r ∈ s.ranges := by
        intro r hr hrf
        rcases List.mem_append.1 hr with hr | hr
        · exact hr
        · obtain rfl := List.mem_singleton.1 hr
          exact absurd hrf hf
      refine ⟨hsize _, fun r hr hrf => hI.below r (hold r hr hrf) hrf, ?_, ?_⟩
      · intro r hr hrf
        simp only [Function.update_of_ne hne]
        exact hI.holds r (hold r hr hrf) hrf
      · rw [List.pairwise_append]
        refine ⟨hI.order, List.pairwise_singleton _ _, ?_⟩
        intro r _ r' hr' _ hrf'
        obtain rfl := List.mem_singleton.1 hr'
        exact absurd hrf' hf

/-- **Any sequence of blocks** that adds less than `2 ^ 32` bytes to the file. -/
theorem undoInv_connectUndos {env : UndoEnv} {f : ℕ} (bs : List UndoBlock)
    (htotal : (bs.map (addedTo env f)).sum < 2 ^ 32) :
    UndoInv f (bs.map (addedTo env f)).sum (connectUndos env bs) := by
  induction bs using List.reverseRecOn with
  | nil =>
    exact ⟨rfl, fun r hr => absurd hr List.not_mem_nil, fun r hr => absurd hr List.not_mem_nil,
      List.Pairwise.nil⟩
  | append_singleton bs b ih =>
    rw [List.map_append, List.sum_append, List.map_singleton, List.sum_singleton] at htotal ⊢
    rw [connectUndos, List.foldl_append, List.foldl_cons, List.foldl_nil]
    exact (ih (by omega)).connectUndo htotal

/-- The bytes written to two ranges of one file do not overlap. -/
def UndoRange.Apart (r r' : UndoRange) : Prop :=
  r.nFile = r'.nFile → r.nPos + r.data.length ≤ r'.nPos ∨ r'.nPos + r'.data.length ≤ r.nPos

theorem UndoInv.apart {f n : ℕ} {s : UndoState} (hI : UndoInv f n s) :
    (s.ranges.filter fun r => r.nFile = f).Pairwise UndoRange.Apart := by
  rw [List.pairwise_filter]
  refine (List.pairwise_iff_forall_sublist.2 ?_)
  intro r r' hsub hrf hrf' _
  have hr : r ∈ s.ranges := hsub.subset List.mem_cons_self
  have horder := List.pairwise_iff_forall_sublist.1 hI.order hsub
  left
  rw [← (hI.holds r hr (of_decide_eq_true hrf)).exact]
  exact horder (of_decide_eq_true hrf) (of_decide_eq_true hrf')

/-- **Undo data is kept**: every record that an entry of the chain leaves behind comes back, its
size function agrees with its writer, and for any sequence of blocks that adds less than `2 ^ 32`
bytes to an undo file, the ranges of the file do not overlap, exactly the reserved bytes are
written, and they are still there in the end. -/
theorem undo_roundTrip (net : Network) (env : UndoEnv) (hops : env.ops.Sound) :
    (∀ (c c' : CCoins) (n : ℕ) (u : CTxInUndo), c.InChain net → c.spend n = some (u, c') →
      (∀ rest, getTxInUndo env.ops (putTxInUndo env.ops u ++ rest) = some (u, rest)) ∧
      sizeOfTxInUndo env.ops u = (putTxInUndo env.ops u).length) ∧
    ∀ (bs : List UndoBlock) (f : ℕ), (bs.map (addedTo env f)).sum < 2 ^ 32 →
      ((connectUndos env bs).ranges.filter fun r => r.nFile = f).Pairwise UndoRange.Apart ∧
      ∀ r ∈ (connectUndos env bs).ranges, r.nFile = f →
        r.Holds ((connectUndos env bs).files f) := by
  constructor
  · intro c c' n u hc hspend
    have hu := recorded_spend hc hspend
    exact ⟨getTxInUndo_putTxInUndo hops hu, sizeOfTxInUndo_eq hops hu⟩
  · intro bs f htotal
    have hI := undoInv_connectUndos bs htotal
    exact ⟨hI.apart, hI.holds⟩

/-- The operations on the generator, and a checksum that is always zero. -/
def plainUndoEnv : UndoEnv where
  ops := CScriptCompressor.generatorOps
  messageStart := 0xe4e8e9e5
  checksum _ _ := 0

theorem undo_roundTrip_plain :
    (∀ rest, getTxInUndo plainUndoEnv.ops (putTxInUndo plainUndoEnv.ops
      { txout := { nValue := 5, scriptPubKey := [0x51] }, nHeight := 9, nVersion := 1 } ++ rest) =
        some ({ txout := { nValue := 5, scriptPubKey := [0x51] }, nHeight := 9, nVersion := 1 },
          rest)) ∧
    ((connectUndos plainUndoEnv [⟨0, ⟨[]⟩, 1, true⟩, ⟨0, ⟨[]⟩, 2, true⟩]).ranges.filter
      fun r => r.nFile = 0).Pairwise UndoRange.Apart := by
  obtain ⟨hrecord, hranges⟩ :=
    undo_roundTrip .main plainUndoEnv CScriptCompressor.generatorOps_sound
  refine ⟨(hrecord { vout := [{ nValue := 5, scriptPubKey := [0x51] }], nHeight := 9, nVersion := 1 }
    { nHeight := 9, nVersion := 1 } 0 _ ⟨by decide, by decide, ?_⟩ (by decide)).1,
    (hranges _ 0 (by decide)).1⟩
  intro o ho _
  obtain rfl := List.mem_singleton.1 ho
  exact ⟨by decide, by decide, by decide⟩

/-! ## Files of more than `2 ^ 32` bytes -/

/-- The record of an output with a script of `n` bytes. -/
def longRecord (n : ℕ) : CTxInUndo where
  txout := { nValue := 1, scriptPubKey := List.replicate n 0 }

/-- The undo data of a block that spends `k` such outputs. -/
def longUndo (k n : ℕ) : CBlockUndo := ⟨[⟨List.replicate k (longRecord n)⟩]⟩

theorem longRecord_recorded {n : ℕ} (hn : n ≤ 1000000) : (longRecord n).Recorded .main := by
  refine ⟨⟨le_rfl, by norm_num [longRecord]⟩, ⟨le_rfl, by norm_num [longRecord]⟩, fun _ => rfl, ?_⟩
  refine ⟨⟨by norm_num [longRecord], ?_⟩, ?_, rfl⟩
  · rw [Network.maxMoneyOut_eq]
    norm_num [longRecord]
  · rwa [longRecord, List.length_replicate]

theorem length_longRecord {ops : CurveOps} {n : ℕ} (hn : 67 < n) :
    n ≤ (putTxInUndo ops (longRecord n)).length := by
  have hlong : (longRecord n).txout.scriptPubKey.length = n := List.length_replicate
  have hnone : CScriptCompressor.compress ops (longRecord n).txout.scriptPubKey = none :=
    CScriptCompressor.compress_eq_none (by omega)
  have hput : ∀ o : CTxOut, (diskTxOut ops).put o =
      diskAmount.put o.nValue ++ CScriptCompressor.serialize ops o.scriptPubKey := fun _ => rfl
  rw [length_putTxInUndo, hput, CScriptCompressor.serialize, hnone]
  simp only [List.length_append, hlong]
  omega

theorem length_longUndo {ops : CurveOps} {k n : ℕ} (hn : 67 < n) :
    k * n ≤ (putBlockUndo ops (longUndo k n)).length := by
  have hrecord := Nat.mul_le_mul_left k (@length_longRecord ops n hn)
  have hall : (putBlockUndo ops (longUndo k n)).length =
      (putCompactSize 1).length + ((putCompactSize k).length +
        k * (putTxInUndo ops (longRecord n)).length) := by
    simp only [putBlockUndo, putTxUndo, longUndo, List.flatMap_cons, List.flatMap_nil,
      List.append_nil, List.length_append, List.length_flatMap, List.map_replicate,
      List.sum_replicate, List.length_replicate, List.length_singleton, smul_eq_mul]
  omega

/-- A first record of `2 ^ 32` bytes or more is overwritten by the next one. -/
theorem not_apart_of_long {env : UndoEnv} {undo undo' : CBlockUndo} {h h' : UInt256}
    (hlong : 2 ^ 32 ≤ (putBlockUndo env.ops undo).length) :
    ¬(connectUndos env [⟨0, undo, h, true⟩, ⟨0, undo', h', true⟩]).ranges.Pairwise
      UndoRange.Apart := by
  intro hpair
  have hrec := length_undoRecord env ⟨0, undo, h, true⟩
  have hrec' := length_undoRecord env ⟨0, undo', h', true⟩
  simp only [connectUndos, List.foldl_cons, List.foldl_nil, connectUndo, Bool.not_true,
    Bool.and_false, Bool.false_eq_true, if_false, Function.update_self, List.nil_append,
    List.cons_append, List.pairwise_cons, List.mem_singleton, forall_eq] at hpair
  simp only at hrec hrec'
  rcases hpair.1 rfl with hle | hle
  · simp only at hle
    omega
  · simp only at hle
    omega

/-- A block that spends 4400 outputs whose scripts almost fill a block: the size of the file wraps,
and the record of the next block is written inside the first one. -/
theorem undo_overlap : (longRecord 999000).Recorded .main ∧
    ¬(connectUndos plainUndoEnv
      [⟨0, longUndo 4400 999000, 1, true⟩, ⟨0, ⟨[]⟩, 2, true⟩]).ranges.Pairwise
        UndoRange.Apart := by
  refine ⟨longRecord_recorded (by norm_num), not_apart_of_long ?_⟩
  have hlong : 4400 * 999000 ≤ (putBlockUndo plainUndoEnv.ops (longUndo 4400 999000)).length :=
    length_longUndo (by norm_num)
  exact le_trans (by norm_num) hlong

end FairCoin
