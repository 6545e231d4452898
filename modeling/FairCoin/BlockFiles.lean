import FairCoin.Index
import FairCoin.Lib.Run

/-!
# Where blocks are stored

`FindBlockPos`, the part of `AcceptBlock` that stores a block, `FlushStateToDisk` and the part of
`LoadBlockIndexDB` that reads the block files of `src/main.cpp`.  The node appends blocks to
numbered files and keeps the size of each file in `vinfoBlockFile`.

* `FileState` — the index, the sizes and what is dirty; `DiskFiles` — what is in the database.
* `dirtyWrites` — the writes of `FlushStateToDisk` in their order: a node that dies in the middle
  has made a part of them.
* `recover` — the branch of `LoadBlockIndexDB` for a shutdown that was not prepared: the size of
  the last file is taken from the highest block.
* `FilesInv` — records do not overlap, and the sizes cover them, in memory and on disk.
* `stored_blocks_kept` — **no stored block is overwritten** in any run in which the recovery branch
  is taken only when the highest block is the last one of the last file.
-/

namespace FairCoin

open Store

/-! ## State -/

/-- `CBlockFileInfo`. -/
structure CBlockFileInfo where
  nBlocks : ℕ := 0
  nSize : ℕ := 0
  nUndoSize : ℕ := 0
  nHeightFirst : ℕ := 0
  nHeightLast : ℕ := 0
  nTimeFirst : ℕ := 0
  nTimeLast : ℕ := 0
  deriving DecidableEq

/-- `CBlockFileInfo::AddBlock`. -/
def CBlockFileInfo.addBlock (info : CBlockFileInfo) (nHeightIn nTimeIn : ℕ) : CBlockFileInfo :=
  { info with
    nHeightFirst :=
      if info.nBlocks = 0 ∨ nHeightIn < info.nHeightFirst then nHeightIn else info.nHeightFirst
    nTimeFirst := if info.nBlocks = 0 ∨ nTimeIn < info.nTimeFirst then nTimeIn else info.nTimeFirst
    nBlocks := info.nBlocks + 1
    nHeightLast := max info.nHeightLast nHeightIn
    nTimeLast := max info.nTimeLast nTimeIn }

/-- The sizes of the blocks by hash, that of an empty block, the times of the blocks, and the
addresses of their entries. -/
structure FileEnv where
  getSerializeSize : UInt256 → ℕ
  nullSize : ℕ
  nTime : UInt256 → ℕ
  addr : UInt256 → ℕ

/-- What the block database holds. -/
structure DiskFiles where
  index : Map UInt256 CBlockIndex := ∅
  fileInfo : Map ℕ CBlockFileInfo := ∅
  lastBlockFile : ℕ := 0
  shutdown : Bool := true

/-- The block index, the sizes of the files and what has to be written, with the database;
`outOfBounds` tells whether `vSortedByHeight` has been read outside of its bounds. -/
structure FileState where
  mapBlockIndex : Map UInt256 CBlockIndex := ∅
  vinfoBlockFile : List CBlockFileInfo := []
  nLastBlockFile : ℕ := 0
  setDirtyFileInfo : List ℕ := []
  setDirtyBlockIndex : List UInt256 := []
  disk : DiskFiles := {}
  outOfBounds : Bool := false

/-- Add to a set that is kept as a list. -/
def insertDirty {α : Type} [DecidableEq α] (a : α) (l : List α) : List α :=
  if a ∈ l then l else a :: l

/-! ## Storing a block -/

/-- `MAX_BLOCKFILE_SIZE`. -/
def maxBlockfileSize : ℕ := 0x8000000

/-- `BLOCKFILE_CHUNK_SIZE`. -/
def blockfileChunkSize : ℕ := 0x1000000

/-- `vinfoBlockFile.resize(n)` when there are fewer. -/
def resizeInfo (n : ℕ) (vinfo : List CBlockFileInfo) : List CBlockFileInfo :=
  vinfo ++ List.replicate (n - vinfo.length) ({} : CBlockFileInfo)

/-- `FindBlockPos` leaves the files that have no room for the block. -/
def leaveFullFiles (nAddSize : ℕ) : ℕ → ℕ → List CBlockFileInfo → ℕ × List CBlockFileInfo
  | 0, nFile, vinfo => (nFile, vinfo)
  | n + 1, nFile, vinfo =>
      if maxBlockfileSize ≤ (vinfo.getD nFile {}).nSize + nAddSize then
        leaveFullFiles nAddSize n (nFile + 1) (resizeInfo (nFile + 2) vinfo)
      else (nFile, vinfo)

namespace FileState

/-- The entry of a block. -/
def entry (s : FileState) (hash : UInt256) : CBlockIndex :=
  (s.mapBlockIndex.lookup hash).getD {}

/-- `ReceivedBlockTransactions` notes where the block is. -/
def received (s : FileState) (hash : UInt256) (nFile nPos : ℕ) : FileState :=
  { s with
    mapBlockIndex := s.mapBlockIndex.insert hash
      { s.entry hash with
        nFile := nFile
        nDataPos := nPos
        nStatus := { (s.entry hash).nStatus with haveData := true } }
    setDirtyBlockIndex := insertDirty hash s.setDirtyBlockIndex }

/-- A header arrives: `AddToBlockIndex`. -/
def acceptHeader (hash : UInt256) (nHeight : ℕ) (s : FileState) : FileState :=
  if hash ∈ s.mapBlockIndex then s
  else
    { s with
      mapBlockIndex := s.mapBlockIndex.insert hash { phashBlock := some hash, nHeight := nHeight }
      setDirtyBlockIndex := insertDirty hash s.setDirtyBlockIndex }

/-- `AcceptBlock` for a block of the network: it goes to the end of the last file.  Without disk
space for the next chunk the call fails, with the size already raised. -/
def acceptBlock (env : FileEnv) (hash : UInt256) (checkDiskSpace : Bool) (s : FileState) :
    FileState :=
  if hash ∉ s.mapBlockIndex ∨ (s.entry hash).nStatus.haveData then s
  else
    let nAddSize := env.getSerializeSize hash + 8
    let found := leaveFullFiles nAddSize (s.vinfoBlockFile.length + 2) s.nLastBlockFile
      (resizeInfo (s.nLastBlockFile + 1) s.vinfoBlockFile)
    let info := found.2.getD found.1 {}
    let s₁ := { s with
      nLastBlockFile := found.1
      vinfoBlockFile := found.2.set found.1
        { info.addBlock (s.entry hash).nHeight.toNat (env.nTime hash) with
          nSize := info.nSize + nAddSize } }
    let nOldChunks := (info.nSize + blockfileChunkSize - 1) / blockfileChunkSize
    let nNewChunks := (info.nSize + nAddSize + blockfileChunkSize - 1) / blockfileChunkSize
    if nOldChunks < nNewChunks ∧ !checkDiskSpace then s₁
    else
      { s₁ with setDirtyFileInfo := insertDirty found.1 s₁.setDirtyFileInfo }.received hash
        found.1 (info.nSize + 8)

/-- `AcceptBlock` for a block that is read from a known position, as a reindex does. -/
def acceptKnown (env : FileEnv) (hash : UInt256) (nFile nPos : ℕ) (s : FileState) : FileState :=
  if hash ∉ s.mapBlockIndex ∨ (s.entry hash).nStatus.haveData then s
  else
    let vinfo := resizeInfo (nFile + 1) s.vinfoBlockFile
    let info := vinfo.getD nFile {}
    { s with
      nLastBlockFile := nFile
      vinfoBlockFile := vinfo.set nFile
        { info.addBlock (s.entry hash).nHeight.toNat (env.nTime hash) with
          nSize := max (nPos + (env.getSerializeSize hash + 8)) info.nSize }
      setDirtyFileInfo := insertDirty nFile s.setDirtyFileInfo }.received hash nFile nPos

end FileState

/-! ## Flushing -/

/-- A write to the block database. -/
inductive DiskWrite where
  | blockFileInfo (nFile : ℕ) (info : CBlockFileInfo)
  | lastBlockFile (nFile : ℕ)
  | blockIndex (hash : UInt256) (p : CBlockIndex)

/-- The database after a write. -/
def DiskFiles.write (d : DiskFiles) : DiskWrite → DiskFiles
  | .blockFileInfo nFile info => { d with fileInfo := d.fileInfo.insert nFile info }
  | .lastBlockFile nFile => { d with lastBlockFile := nFile }
  | .blockIndex hash p => { d with index := d.index.insert hash p }

namespace FileState

/-- `FlushStateToDisk` writes the information about the files first. -/
def fileWrites (s : FileState) : List DiskWrite :=
  (s.setDirtyFileInfo.insertionSort (· ≤ ·)).map fun nFile =>
    .blockFileInfo nFile (s.vinfoBlockFile.getD nFile {})

/-- Then the number of the last file, and the entries of the index in the order of their
addresses. -/
def indexWrites (env : FileEnv) (s : FileState) : List DiskWrite :=
  (if s.setDirtyFileInfo = [] then [] else [.lastBlockFile s.nLastBlockFile]) ++
    (s.setDirtyBlockIndex.insertionSort fun a b => env.addr a ≤ env.addr b).map fun hash =>
      .blockIndex hash (s.entry hash)

/-- The writes of `FlushStateToDisk`. -/
def dirtyWrites (env : FileEnv) (s : FileState) : List DiskWrite :=
  s.fileWrites ++ s.indexWrites env

/-- The database after the first writes of `FlushStateToDisk`. -/
def flushed (env : FileEnv) (n : ℕ) (s : FileState) : DiskFiles :=
  ((s.dirtyWrites env).take n).foldl DiskFiles.write s.disk

/-- `FlushStateToDisk`. -/
def flushStateToDisk (env : FileEnv) (s : FileState) : FileState :=
  { s with
    disk := s.flushed env (s.dirtyWrites env).length
    setDirtyFileInfo := []
    setDirtyBlockIndex := [] }

end FileState

/-! ## Starting -/

/-- `LoadBlockIndexDB` reads the files after the last one as long as there are any. -/
def readMoreInfo (fileInfo : Map ℕ CBlockFileInfo) : ℕ → ℕ → List CBlockFileInfo
  | 0, _ => []
  | n + 1, nFile =>
      match fileInfo.lookup nFile with
      | some info => info :: readMoreInfo fileInfo n (nFile + 1)
      | none => []

/-- The information about the files that `LoadBlockIndexDB` reads. -/
def DiskFiles.loadInfo (d : DiskFiles) : List CBlockFileInfo :=
  ((List.range (d.lastBlockFile + 1)).map fun nFile => (d.fileInfo.lookup nFile).getD {}) ++
    readMoreInfo d.fileInfo (d.fileInfo.keys.length + 1) (d.lastBlockFile + 1)

/-- The state after the database has been read. -/
def DiskFiles.load (d : DiskFiles) (outOfBounds : Bool) : FileState where
  mapBlockIndex := d.index
  vinfoBlockFile := d.loadInfo
  nLastBlockFile := d.lastBlockFile
  disk := d
  outOfBounds := outOfBounds

namespace FileState

/-- `vSortedByHeight`: the entries by height, then by address. -/
def vSortedByHeight (env : FileEnv) (s : FileState) : List UInt256 :=
  s.mapBlockIndex.keys.insertionSort fun a b =>
    (s.entry a).nHeight < (s.entry b).nHeight ∨
      (s.entry a).nHeight = (s.entry b).nHeight ∧ env.addr a ≤ env.addr b

/-- The information about the last file. -/
def lastInfo (s : FileState) : CBlockFileInfo := s.vinfoBlockFile.getD s.nLastBlockFile {}

/-- Where the recovery branch takes the last file to end: behind the highest block. -/
def endOfLast (env : FileEnv) (s : FileState) (hash : UInt256) : ℕ :=
  if (s.entry hash).nStatus.haveData then (s.entry hash).nDataPos + env.getSerializeSize hash
  else env.nullSize

/-- The recovery branch of `LoadBlockIndexDB`: entry `nHeightLast + 1` is read, the size of the
last file is set from the highest block and flushed, and the information about the files up to the
last is read again. -/
def recover (env : FileEnv) (s : FileState) : FileState :=
  match (s.vSortedByHeight env).getLast? with
  | none => { s with outOfBounds := true }
  | some last =>
      let s₁ := { s with
        outOfBounds := s.outOfBounds ||
          decide ((s.vSortedByHeight env).length ≤ s.lastInfo.nHeightLast + 1)
        vinfoBlockFile := s.vinfoBlockFile.set s.nLastBlockFile
          { s.lastInfo with
            nHeightLast := (s.entry last).nHeight.toNat
            nSize := s.endOfLast env last }
        setDirtyFileInfo := insertDirty s.nLastBlockFile s.setDirtyFileInfo }
      let s₂ := s₁.flushStateToDisk env
      { s₂ with
        vinfoBlockFile := (List.range (s₂.nLastBlockFile + 1)).map fun nFile =>
          (s₂.disk.fileInfo.lookup nFile).getD (s₂.vinfoBlockFile.getD nFile {}) }

/-- The recovery branch is taken. -/
def inconsistent (forceStart : Bool) (s : FileState) : Bool :=
  !s.disk.shutdown && !forceStart &&
    decide (s.mapBlockIndex.keys.length ≠ s.lastInfo.nHeightLast + 1) &&
    decide (s.lastInfo.nHeightLast ≠ 0)

/-- `LoadBlockIndexDB`; at its end the shutdown counts as not prepared. -/
def loadBlockIndexDB (env : FileEnv) (forceStart : Bool) (s : FileState) : FileState :=
  let s₁ := if s.inconsistent forceStart then s.recover env else s
  { s₁ with disk := { s₁.disk with shutdown := false } }

end FileState

/-- What happens to the stored blocks: `restart` is a clean shutdown and the next start, `crash`
a node that dies after some writes of a flush, and the next start. -/
inductive FileOp where
  | acceptHeader (hash : UInt256) (nHeight : ℕ)
  | acceptBlock (hash : UInt256) (checkDiskSpace : Bool)
  | acceptKnown (hash : UInt256) (nFile nPos : ℕ)
  | flushStateToDisk
  | restart (forceStart : Bool)
  | crash (writes : ℕ) (forceStart : Bool)

namespace FileState

/-- The state after the database has been read by the next start. -/
def reloaded (env : FileEnv) (s : FileState) : FileOp → FileState
  | .restart _ =>
      { s.flushed env (s.dirtyWrites env).length with shutdown := true }.load s.outOfBounds
  | .crash writes _ => (s.flushed env writes).load s.outOfBounds
  | _ => s

end FileState

/-- One step. -/
def fileStep (env : FileEnv) (s : FileState) : FileOp → FileState
  | .acceptHeader hash nHeight => s.acceptHeader hash nHeight
  | .acceptBlock hash checkDiskSpace => s.acceptBlock env hash checkDiskSpace
  | .acceptKnown hash nFile nPos => s.acceptKnown env hash nFile nPos
  | .flushStateToDisk => s.flushStateToDisk env
  | .restart forceStart => (s.reloaded env (.restart forceStart)).loadBlockIndexDB env forceStart
  | .crash writes forceStart =>
      (s.reloaded env (.crash writes forceStart)).loadBlockIndexDB env forceStart

/-! ## The invariant -/

section Invariant

variable {env : FileEnv} {s : FileState}

/-- A block has its data in a file, from a position on. -/
def StoredAt (index : Map UInt256 CBlockIndex) (hash : UInt256) (nFile nPos : ℕ) : Prop :=
  ∃ p, index.lookup hash = some p ∧ p.nStatus.haveData = true ∧ p.nFile = nFile ∧
    p.nDataPos = nPos

/-- The size of a file reaches up to a position. -/
def Covers (info : Option CBlockFileInfo) (nEnd : ℕ) : Prop := ∃ i, info = some i ∧ nEnd ≤ i.nSize

/-- Records do not overlap and lie within the sizes; what the database holds is a part of it that
lies within the sizes it holds; and where those do not reach, the file is dirty. -/
structure FilesInv (env : FileEnv) (s : FileState) : Prop where
  placed : ∀ h p, s.mapBlockIndex.lookup h = some p → p.nStatus.haveData = true →
    ∃ f : ℕ, p.nFile = f
  sized : ∀ h f a, StoredAt s.mapBlockIndex h f a →
    Covers s.vinfoBlockFile[f]? (a + env.getSerializeSize h)
  disjoint : ∀ h h' f a a', StoredAt s.mapBlockIndex h f a → StoredAt s.mapBlockIndex h' f a' →
    h ≠ h' → a + env.getSerializeSize h ≤ a' ∨ a' + env.getSerializeSize h' ≤ a
  disk_placed : ∀ h p, s.disk.index.lookup h = some p → p.nStatus.haveData = true →
    ∃ f : ℕ, p.nFile = f
  disk_stored : ∀ h f a, StoredAt s.disk.index h f a → StoredAt s.mapBlockIndex h f a
  disk_sized : ∀ h f a, StoredAt s.disk.index h f a →
    Covers (s.disk.fileInfo.lookup f) (a + env.getSerializeSize h)
  dirty : ∀ h f a, StoredAt s.mapBlockIndex h f a → f ∈ s.setDirtyFileInfo ∨
    Covers (s.disk.fileInfo.lookup f) (a + env.getSerializeSize h)
  inBounds : s.outOfBounds = false

theorem mem_insertDirty {α : Type} [DecidableEq α] {a b : α} {l : List α} :
    b ∈ insertDirty a l ↔ b = a ∨ b ∈ l := by
  unfold insertDirty
  split
  · next ha =>
    constructor
    · exact .inr
    · rintro (rfl | hb)
      · exact ha
      · exact hb
  · exact List.mem_cons

theorem storedAt_entry {h : UInt256} (hdata : (s.entry h).nStatus.haveData = true) {f a : ℕ}
    (hf : (s.entry h).nFile = f) (ha : (s.entry h).nDataPos = a) :
    StoredAt s.mapBlockIndex h f a := by
  cases hp : s.mapBlockIndex.lookup h with
  | none =>
    rw [FileState.entry, hp] at hdata
    exact absurd hdata (by simp)
  | some p =>
    rw [FileState.entry, hp] at hdata hf ha
    exact ⟨p, hp, hdata, hf, ha⟩

theorem StoredAt.entry {h : UInt256} {f a : ℕ} (hs : StoredAt s.mapBlockIndex h f a) :
    (s.entry h).nStatus.haveData = true ∧ (s.entry h).nFile = f ∧ (s.entry h).nDataPos = a := by
  obtain ⟨p, hp, hdata, hf, ha⟩ := hs
  rw [FileState.entry, hp]
  exact ⟨hdata, hf, ha⟩

/-! ### Writes -/

/-- The writes come from the state of the node. -/
def FromState (s : FileState) (W : List DiskWrite) : Prop :=
  ∀ w ∈ W, (∀ f i, w = .blockFileInfo f i → i = s.vinfoBlockFile.getD f {}) ∧
    ∀ h p, w = .blockIndex h p → p = s.entry h

theorem fromState_dirtyWrites : FromState s (s.dirtyWrites env) := by
  intro w hw
  unfold FileState.dirtyWrites FileState.fileWrites FileState.indexWrites at hw
  rcases List.mem_append.1 hw with hw | hw
  · obtain ⟨f, -, rfl⟩ := List.mem_map.1 hw
    refine ⟨fun f' i h => ?_, fun h p hp => by simp at hp⟩
    cases h
    rfl
  · rcases List.mem_append.1 hw with hw | hw
    · split at hw
      · exact absurd hw (by simp)
      · rw [List.mem_singleton.1 hw]
        exact ⟨fun f i h => by simp at h, fun h p hp => by simp at hp⟩
    · obtain ⟨h, -, rfl⟩ := List.mem_map.1 hw
      refine ⟨fun f i hf => by simp at hf, fun h' p hp => ?_⟩
      cases hp
      rfl

/-- A size that reaches far enough does so after writes from a state where it does. -/
theorem covers_foldl_write {f nEnd : ℕ} (hv : Covers s.vinfoBlockFile[f]? nEnd)
    (W : List DiskWrite) : ∀ d : DiskFiles, FromState s W → Covers (d.fileInfo.lookup f) nEnd →
      Covers ((W.foldl DiskFiles.write d).fileInfo.lookup f) nEnd := by
  induction W with
  | nil => exact fun d _ hd => hd
  | cons w W ih =>
    intro d hW hd
    refine ih _ (fun w' hw' => hW w' (by simp [hw'])) ?_
    cases w with
    | blockFileInfo f' info =>
      show Covers ((d.fileInfo.insert f' info).lookup f) nEnd
      rw [lookup_insert_eq]
      split
      · next hf =>
        obtain ⟨i, hi, hle⟩ := hv
        refine ⟨info, rfl, ?_⟩
        rw [(hW _ (by simp)).1 f' info rfl, ← hf, List.getD_eq_getElem?_getD, hi]
        exact hle
      · exact hd
    | lastBlockFile n => exact hd
    | blockIndex h p => exact hd

/-- The size of a file that is written reaches as far as it does in the state. -/
theorem covers_of_mem_write {f nEnd : ℕ} (hv : Covers s.vinfoBlockFile[f]? nEnd)
    (W : List DiskWrite) : ∀ d : DiskFiles, FromState s W →
      (∃ i, DiskWrite.blockFileInfo f i ∈ W) →
      Covers ((W.foldl DiskFiles.write d).fileInfo.lookup f) nEnd := by
  induction W with
  | nil => exact fun d _ ⟨i, hi⟩ => absurd hi (by simp)
  | cons w W ih =>
    intro d hW hmem
    have hW' : FromState s W := fun w' hw' => hW w' (by simp [hw'])
    obtain ⟨i, hi⟩ := hmem
    rcases List.mem_cons.1 hi with rfl | hi
    · refine covers_foldl_write hv W _ hW' ?_
      show Covers ((d.fileInfo.insert f i).lookup f) nEnd
      rw [AList.lookup_insert]
      obtain ⟨j, hj, hle⟩ := hv
      refine ⟨i, rfl, ?_⟩
      rw [(hW _ (by simp)).1 f i rfl, List.getD_eq_getElem?_getD, hj]
      exact hle
    · exact ih _ hW' ⟨i, hi⟩

/-- Entries that are written come from the state. -/
theorem lookup_index_foldl_write {h : UInt256} {p : CBlockIndex} (W : List DiskWrite) :
    ∀ d : DiskFiles, FromState s W → (W.foldl DiskFiles.write d).index.lookup h = some p →
      d.index.lookup h = some p ∨ p = s.entry h := by
  induction W with
  | nil => exact fun d _ hp => .inl hp
  | cons w W ih =>
    intro d hW hp
    rcases ih _ (fun w' hw' => hW w' (by simp [hw'])) hp with hp | hp
    · cases w with
      | blockFileInfo f i => exact .inl hp
      | lastBlockFile n => exact .inl hp
      | blockIndex h' p' =>
        have hp' : (d.index.insert h' p').lookup h = some p := hp
        rw [lookup_insert_eq] at hp'
        split at hp'
        · next hh =>
          right
          rw [← Option.some.inj hp', hh]
          exact (hW _ (by simp)).2 h' p' rfl
        · exact .inl hp'
    · exact .inr hp

/-- Writes of file information leave the index. -/
theorem index_foldl_fileWrites (n : ℕ) (d : DiskFiles) :
    ((s.fileWrites.take n).foldl DiskFiles.write d).index = d.index := by
  have hall : ∀ w ∈ s.fileWrites.take n, ∃ f i, w = .blockFileInfo f i := by
    intro w hw
    obtain ⟨f, -, rfl⟩ := List.mem_map.1 (List.mem_of_mem_take hw)
    exact ⟨f, _, rfl⟩
  generalize s.fileWrites.take n = W at hall
  induction W generalizing d with
  | nil => rfl
  | cons w W ih =>
    obtain ⟨f, i, rfl⟩ := hall w (by simp)
    rw [List.foldl_cons, ih _ fun w' hw' => hall w' (by simp [hw'])]
    rfl

/-- After all writes about files the sizes in the database reach as far as the records do. -/
theorem FilesInv.covers_flushed (hI : FilesInv env s) {n : ℕ} (hn : s.fileWrites.length ≤ n)
    {h : UInt256} {f a : ℕ} (hs : StoredAt s.mapBlockIndex h f a) :
    Covers ((s.flushed env n).fileInfo.lookup f) (a + env.getSerializeSize h) := by
  have hv := hI.sized h f a hs
  have hW : FromState s ((s.dirtyWrites env).take n) :=
    fun w hw => fromState_dirtyWrites w (List.mem_of_mem_take hw)
  rcases hI.dirty h f a hs with hdirty | hcov
  · refine covers_of_mem_write hv _ _ hW ⟨s.vinfoBlockFile.getD f {}, ?_⟩
    rw [FileState.dirtyWrites, List.take_append, List.take_of_length_le hn]
    refine List.mem_append_left _ (List.mem_map.2 ⟨f, ?_, rfl⟩)
    rwa [List.mem_insertionSort]
  · exact covers_foldl_write hv _ _ hW hcov

/-- What a flush leaves in the database when it ends after some writes. -/
theorem FilesInv.flushed (hI : FilesInv env s) (n : ℕ) :
    (∀ h p, (s.flushed env n).index.lookup h = some p → p.nStatus.haveData = true →
      ∃ f : ℕ, p.nFile = f) ∧
    ∀ h f a, StoredAt (s.flushed env n).index h f a → StoredAt s.mapBlockIndex h f a ∧
      Covers ((s.flushed env n).fileInfo.lookup f) (a + env.getSerializeSize h) := by
  have hW : FromState s ((s.dirtyWrites env).take n) :=
    fun w hw => fromState_dirtyWrites w (List.mem_of_mem_take hw)
  have hcases : ∀ h p, (s.flushed env n).index.lookup h = some p →
      s.disk.index.lookup h = some p ∨ p = s.entry h :=
    fun h p => lookup_index_foldl_write _ _ hW
  have hstored : ∀ h f a, StoredAt (s.flushed env n).index h f a →
      StoredAt s.mapBlockIndex h f a := by
    rintro h f a ⟨p, hp, hdata, hf, ha⟩
    rcases hcases h p hp with hp | rfl
    · exact hI.disk_stored h f a ⟨p, hp, hdata, hf, ha⟩
    · exact storedAt_entry hdata hf ha
  refine ⟨fun h p hp hdata => ?_, fun h f a hs => ⟨hstored h f a hs, ?_⟩⟩
  · rcases hcases h p hp with hp | rfl
    · exact hI.disk_placed h p hp hdata
    · cases hlookup : s.mapBlockIndex.lookup h with
      | none =>
        rw [FileState.entry, hlookup] at hdata
        exact absurd hdata (by simp)
      | some q =>
        rw [FileState.entry, hlookup] at hdata ⊢
        exact hI.placed h q hlookup hdata
  · by_cases hn : s.fileWrites.length ≤ n
    · exact hI.covers_flushed hn (hstored h f a hs)
    · -- the index has not been reached yet
      have htake : (s.dirtyWrites env).take n = s.fileWrites.take n := by
        rw [FileState.dirtyWrites, List.take_append_of_le_length (by omega)]
      rw [FileState.flushed, htake, index_foldl_fileWrites] at hs
      exact covers_foldl_write (hI.sized h f a (hI.disk_stored h f a hs)) _ _ hW
        (hI.disk_sized h f a hs)

/-! ### Storing -/

/-- Sizes that only grow. -/
def Grown (vinfo vinfo' : List CBlockFileInfo) : Prop :=
  ∀ (f : ℕ) (i : CBlockFileInfo), vinfo[f]? = some i →
    ∃ j : CBlockFileInfo, vinfo'[f]? = some j ∧ i.nSize ≤ j.nSize

theorem Grown.trans {v₁ v₂ v₃ : List CBlockFileInfo} (h : Grown v₁ v₂) (h' : Grown v₂ v₃) :
    Grown v₁ v₃ := by
  intro f i hi
  obtain ⟨j, hj, hle⟩ := h f i hi
  obtain ⟨k, hk, hle'⟩ := h' f j hj
  exact ⟨k, hk, hle.trans hle'⟩

theorem Grown.covers {v v' : List CBlockFileInfo} (h : Grown v v') {f nEnd : ℕ}
    (hc : Covers v[f]? nEnd) : Covers v'[f]? nEnd := by
  obtain ⟨i, hi, hle⟩ := hc
  obtain ⟨j, hj, hle'⟩ := h f i hi
  exact ⟨j, hj, hle.trans hle'⟩

theorem grown_resizeInfo (n : ℕ) (v : List CBlockFileInfo) : Grown v (resizeInfo n v) := by
  intro f i hi
  refine ⟨i, ?_, le_rfl⟩
  unfold resizeInfo
  rw [List.getElem?_append_left (List.getElem?_eq_some_iff.1 hi).1]
  exact hi

theorem le_length_resizeInfo (n : ℕ) (v : List CBlockFileInfo) : n ≤ (resizeInfo n v).length := by
  unfold resizeInfo
  rw [List.length_append, List.length_replicate]
  omega

/-- Raising the size of one file. -/
theorem grown_set {v : List CBlockFileInfo} {f : ℕ} {i : CBlockFileInfo}
    (h : (v.getD f {}).nSize ≤ i.nSize) : Grown v (v.set f i) := by
  intro f' j hj
  by_cases hf : f = f'
  · subst hf
    refine ⟨i, List.getElem?_set_self (List.getElem?_eq_some_iff.1 hj).1, ?_⟩
    rwa [List.getD_eq_getElem?_getD, hj] at h
  · exact ⟨j, by rw [List.getElem?_set_ne hf]; exact hj, le_rfl⟩

theorem leaveFullFiles_spec (nAddSize n : ℕ) : ∀ (nFile : ℕ) (v : List CBlockFileInfo),
    nFile < v.length → (leaveFullFiles nAddSize n nFile v).1 <
      (leaveFullFiles nAddSize n nFile v).2.length ∧
      Grown v (leaveFullFiles nAddSize n nFile v).2 := by
  induction n with
  | zero => exact fun nFile v h => ⟨h, fun f i hi => ⟨i, hi, le_rfl⟩⟩
  | succ n ih =>
    intro nFile v h
    rw [leaveFullFiles]
    split
    · have hlen := le_length_resizeInfo (nFile + 2) v
      obtain ⟨hlt, hgrown⟩ := ih (nFile + 1) (resizeInfo (nFile + 2) v) (by omega)
      exact ⟨hlt, (grown_resizeInfo _ v).trans hgrown⟩
    · exact ⟨h, fun f i hi => ⟨i, hi, le_rfl⟩⟩

/-- Larger sizes and more dirty files. -/
theorem FilesInv.grow (hI : FilesInv env s) (nLast : ℕ) {v : List CBlockFileInfo} {l : List ℕ}
    (hv : Grown s.vinfoBlockFile v) (hl : ∀ f ∈ s.setDirtyFileInfo, f ∈ l) :
    FilesInv env { s with nLastBlockFile := nLast, vinfoBlockFile := v, setDirtyFileInfo := l } where
  placed := hI.placed
  sized h f a hs := hv.covers (hI.sized h f a hs)
  disjoint := hI.disjoint
  disk_placed := hI.disk_placed
  disk_stored := hI.disk_stored
  disk_sized := hI.disk_sized
  dirty h f a hs := (hI.dirty h f a hs).imp (hl f) id
  inBounds := hI.inBounds

/-- A block without data is stored where no record is. -/
theorem FilesInv.received (hI : FilesInv env s) {hash : UInt256} {nFile nPos : ℕ}
    (hnew : (s.entry hash).nStatus.haveData = false)
    (hcov : Covers s.vinfoBlockFile[nFile]? (nPos + env.getSerializeSize hash))
    (hdirty : nFile ∈ s.setDirtyFileInfo)
    (hfree : ∀ h a, StoredAt s.mapBlockIndex h nFile a →
      a + env.getSerializeSize h ≤ nPos ∨ nPos + env.getSerializeSize hash ≤ a) :
    FilesInv env (s.received hash nFile nPos) := by
  have hlookup : ∀ h, (s.received hash nFile nPos).mapBlockIndex.lookup h = if h = hash then
      some { s.entry hash with
        nFile := nFile
        nDataPos := nPos
        nStatus := { (s.entry hash).nStatus with haveData := true } }
      else s.mapBlockIndex.lookup h := fun h => lookup_insert_eq _ _ _ _
  have hstored : ∀ h f a, StoredAt (s.received hash nFile nPos).mapBlockIndex h f a →
      (h = hash ∧ f = nFile ∧ a = nPos) ∨ (h ≠ hash ∧ StoredAt s.mapBlockIndex h f a) := by
    rintro h f a ⟨p, hp, hdata, hf, ha⟩
    rw [hlookup] at hp
    split at hp
    · next hh =>
      cases hp
      exact .inl ⟨hh, (Int.ofNat.inj hf).symm, ha.symm⟩
    · next hh => exact .inr ⟨hh, p, hp, hdata, hf, ha⟩
  have hold : ∀ h f a, StoredAt s.mapBlockIndex h f a →
      StoredAt (s.received hash nFile nPos).mapBlockIndex h f a := by
    intro h f a hs
    have hne : h ≠ hash := by
      rintro rfl
      exact absurd (hs.entry.1.symm.trans hnew) (by simp)
    obtain ⟨p, hp, hrest⟩ := hs
    exact ⟨p, by rw [hlookup, if_neg hne]; exact hp, hrest⟩
  refine ⟨fun h p hp hdata => ?_, fun h f a hs => ?_, fun h h' f a a' hs hs' hne => ?_,
    hI.disk_placed, fun h f a hs => hold h f a (hI.disk_stored h f a hs), hI.disk_sized,
    fun h f a hs => ?_, hI.inBounds⟩
  · rw [hlookup] at hp
    split at hp
    · cases hp
      exact ⟨nFile, rfl⟩
    · exact hI.placed h p hp hdata
  · rcases hstored h f a hs with ⟨rfl, rfl, rfl⟩ | ⟨-, hs⟩
    · exact hcov
    · exact hI.sized h f a hs
  · rcases hstored h f a hs with ⟨rfl, rfl, rfl⟩ | ⟨-, h₁⟩
    · rcases hstored h' f a' hs' with ⟨rfl, -⟩ | ⟨-, h₂⟩
      · exact absurd rfl hne
      · exact (hfree h' a' h₂).symm
    · rcases hstored h' f a' hs' with ⟨rfl, rfl, rfl⟩ | ⟨-, h₂⟩
      · exact hfree h a h₁
      · exact hI.disjoint h h' f a a' h₁ h₂ hne
  · rcases hstored h f a hs with ⟨rfl, rfl, rfl⟩ | ⟨-, hs⟩
    · exact .inl hdirty
    · exact hI.dirty h f a hs

/-- A header brings no data. -/
theorem FilesInv.acceptHeader (hI : FilesInv env s) (hash : UInt256) (nHeight : ℕ) :
    FilesInv env (s.acceptHeader hash nHeight) := by
  unfold FileState.acceptHeader
  split
  · exact hI
  · next hmem =>
    have hnone : s.mapBlockIndex.lookup hash = none := AList.lookup_eq_none.2 hmem
    set index := s.mapBlockIndex.insert hash { phashBlock := some hash, nHeight := nHeight }
      with hindex
    have hlookup : ∀ h p, index.lookup h = some p → p.nStatus.haveData = true →
        s.mapBlockIndex.lookup h = some p := by
      intro h p hp hdata
      rw [hindex, lookup_insert_eq] at hp
      split at hp
      · cases hp
        exact absurd hdata (by simp)
      · exact hp
    have hstored : ∀ h f a, StoredAt index h f a → StoredAt s.mapBlockIndex h f a := by
      rintro h f a ⟨p, hp, hdata, hrest⟩
      exact ⟨p, hlookup h p hp hdata, hdata, hrest⟩
    refine ⟨fun h p hp hdata => hI.placed h p (hlookup h p hp hdata) hdata,
      fun h f a hs => hI.sized h f a (hstored h f a hs), fun h h' f a a' hs hs' =>
      hI.disjoint h h' f a a' (hstored h f a hs) (hstored h' f a' hs'), hI.disk_placed,
      fun h f a hs => ?_, hI.disk_sized, fun h f a hs => hI.dirty h f a (hstored h f a hs),
      hI.inBounds⟩
    obtain ⟨p, hp, hrest⟩ := hI.disk_stored h f a hs
    refine ⟨p, ?_, hrest⟩
    show index.lookup h = some p
    rw [hindex, lookup_insert_eq, if_neg]
    · exact hp
    · rintro rfl
      exact absurd (hnone.symm.trans hp) (by simp)

/-- A block of the network goes behind every record of its file. -/
theorem FilesInv.acceptBlock (hI : FilesInv env s) (hash : UInt256) (checkDiskSpace : Bool) :
    FilesInv env (s.acceptBlock env hash checkDiskSpace) := by
  unfold FileState.acceptBlock
  split
  · exact hI
  · next hnew =>
    push Not at hnew
    have hdata : (s.entry hash).nStatus.haveData = false := by simpa using hnew.2
    simp only
    set found := leaveFullFiles (env.getSerializeSize hash + 8) (s.vinfoBlockFile.length + 2)
      s.nLastBlockFile (resizeInfo (s.nLastBlockFile + 1) s.vinfoBlockFile) with hfound
    obtain ⟨hlt, hgrown⟩ := leaveFullFiles_spec (env.getSerializeSize hash + 8)
      (s.vinfoBlockFile.length + 2) s.nLastBlockFile
      (resizeInfo (s.nLastBlockFile + 1) s.vinfoBlockFile)
      (le_length_resizeInfo (s.nLastBlockFile + 1) s.vinfoBlockFile)
    rw [← hfound] at hlt hgrown
    set info := found.2.getD found.1 {} with hinfo
    set info' : CBlockFileInfo :=
      { info.addBlock (s.entry hash).nHeight.toNat (env.nTime hash) with
        nSize := info.nSize + (env.getSerializeSize hash + 8) } with hinfo'
    have hall := (grown_resizeInfo (s.nLastBlockFile + 1) s.vinfoBlockFile).trans hgrown
    have hset : Grown s.vinfoBlockFile (found.2.set found.1 info') := by
      refine hall.trans (grown_set ?_)
      rw [← hinfo]
      exact Nat.le_add_right _ _
    split
    · exact hI.grow found.1 hset fun f hf => hf
    · have hI₁ := hI.grow found.1 (l := insertDirty found.1 s.setDirtyFileInfo) hset
        fun f hf => mem_insertDirty.2 (.inr hf)
      refine hI₁.received hdata ?_ (mem_insertDirty.2 (.inl rfl)) fun h a hs => ?_
      · refine ⟨info', List.getElem?_set_self hlt, ?_⟩
        show info.nSize + 8 + env.getSerializeSize hash ≤
          info.nSize + (env.getSerializeSize hash + 8)
        omega
      · -- the records of the file end where its size did
        left
        obtain ⟨i, hi, hle⟩ := hall.covers (hI.sized h found.1 a hs)
        have : info = i := by
          rw [hinfo, List.getD_eq_getElem?_getD, hi]
          rfl
        rw [this]
        omega

/-- A block at a known position, where no other record is. -/
theorem FilesInv.acceptKnown (hI : FilesInv env s) {hash : UInt256} {nFile nPos : ℕ}
    (hfree : (s.entry hash).nStatus.haveData = false → ∀ h a,
      StoredAt s.mapBlockIndex h nFile a →
        a + env.getSerializeSize h ≤ nPos ∨ nPos + env.getSerializeSize hash ≤ a) :
    FilesInv env (s.acceptKnown env hash nFile nPos) := by
  unfold FileState.acceptKnown
  split
  · exact hI
  · next hnew =>
    push Not at hnew
    have hdata : (s.entry hash).nStatus.haveData = false := by simpa using hnew.2
    simp only
    set v := resizeInfo (nFile + 1) s.vinfoBlockFile with hv
    have hlt : nFile < v.length := le_length_resizeInfo (nFile + 1) s.vinfoBlockFile
    set info' : CBlockFileInfo :=
      { (v.getD nFile {}).addBlock (s.entry hash).nHeight.toNat (env.nTime hash) with
        nSize := max (nPos + (env.getSerializeSize hash + 8)) (v.getD nFile {}).nSize } with hinfo'
    have hset : Grown s.vinfoBlockFile (v.set nFile info') :=
      (grown_resizeInfo (nFile + 1) s.vinfoBlockFile).trans (grown_set (le_max_right _ _))
    have hI₁ := hI.grow nFile (l := insertDirty nFile s.setDirtyFileInfo) hset
      fun f hf => mem_insertDirty.2 (.inr hf)
    refine hI₁.received hdata ?_ (mem_insertDirty.2 (.inl rfl)) (hfree hdata)
    refine ⟨info', List.getElem?_set_self hlt, ?_⟩
    have := le_max_left (nPos + (env.getSerializeSize hash + 8)) (v.getD nFile {}).nSize
    show nPos + env.getSerializeSize hash ≤
      max (nPos + (env.getSerializeSize hash + 8)) (v.getD nFile {}).nSize
    omega

/-- `FlushStateToDisk` leaves nothing dirty. -/
theorem FilesInv.flushStateToDisk (hI : FilesInv env s) :
    FilesInv env (s.flushStateToDisk env) := by
  obtain ⟨hplaced, hdisk⟩ := hI.flushed (s.dirtyWrites env).length
  refine ⟨hI.placed, hI.sized, hI.disjoint, hplaced, fun h f a hs => (hdisk h f a hs).1,
    fun h f a hs => (hdisk h f a hs).2, fun h f a hs => .inr ?_, hI.inBounds⟩
  refine hI.covers_flushed ?_ hs
  rw [FileState.dirtyWrites, List.length_append]
  omega

/-! ### Starting -/

theorem getElem?_readMoreInfo (m : Map ℕ CBlockFileInfo) (n : ℕ) :
    ∀ (k j : ℕ) (i : CBlockFileInfo), (readMoreInfo m n k)[j]? = some i →
      m.lookup (k + j) = some i := by
  induction n with
  | zero => exact fun k j i h => by simp [readMoreInfo] at h
  | succ n ih =>
    intro k j i h
    rw [readMoreInfo] at h
    split at h
    · next info hinfo =>
      cases j with
      | zero => exact hinfo.trans h
      | succ j =>
        rw [List.getElem?_cons_succ] at h
        have := ih (k + 1) j i h
        rwa [show k + (j + 1) = k + 1 + j by omega]
    · simp at h

/-- The information that is read about a file is what the database holds. -/
theorem getElem?_loadInfo {d : DiskFiles} {f : ℕ} (hf : f < d.loadInfo.length)
    {i : CBlockFileInfo} (hi : d.fileInfo.lookup f = some i) : d.loadInfo[f]? = some i := by
  by_cases hlast : f < d.lastBlockFile + 1
  · unfold DiskFiles.loadInfo
    rw [List.getElem?_append_left (by simpa using hlast), List.getElem?_map,
      List.getElem?_range hlast, Option.map_some, hi]
    rfl
  · obtain ⟨j, hj⟩ : ∃ j, d.loadInfo[f]? = some j := ⟨_, List.getElem?_eq_getElem hf⟩
    rw [hj]
    unfold DiskFiles.loadInfo at hj
    rw [List.getElem?_append_right (by simpa using hlast)] at hj
    have := getElem?_readMoreInfo d.fileInfo _ _ _ j hj
    rw [List.length_map, List.length_range,
      show d.lastBlockFile + 1 + (f - (d.lastBlockFile + 1)) = f by omega] at this
    exact this.symm.trans hi

/-- The information about every file with records is read: the database has no gap. -/
def Loads (d : DiskFiles) : Prop := ∀ h f a, StoredAt d.index h f a → f < d.loadInfo.length

/-- Reading the database back. -/
theorem FilesInv.load (hI : FilesInv env s) {n : ℕ} {b : Bool}
    (hloads : Loads (s.flushed env n)) :
    FilesInv env ({ s.flushed env n with shutdown := b }.load s.outOfBounds) := by
  obtain ⟨hplaced, hdisk⟩ := hI.flushed n
  refine ⟨hplaced, fun h f a hs => ?_, fun h h' f a a' hs hs' => ?_, hplaced, fun h f a hs => hs,
    fun h f a hs => (hdisk h f a hs).2, fun h f a hs => .inr (hdisk h f a hs).2, hI.inBounds⟩
  · obtain ⟨i, hi, hle⟩ := (hdisk h f a hs).2
    exact ⟨i, getElem?_loadInfo (d := s.flushed env n) (hloads h f a hs) hi, hle⟩
  · exact hI.disjoint h h' f a a' (hdisk h f a hs).1 (hdisk h' f a' hs').1

/-- The recovery branch does no harm: there is an entry above `nHeightLast`, the highest block lies
in the last file, behind all other records of that file, and no later file has records. -/
structure RecoverySafe (env : FileEnv) (s : FileState) : Prop where
  bounds : s.lastInfo.nHeightLast + 1 < (s.vSortedByHeight env).length
  last : ∃ last a, (s.vSortedByHeight env).getLast? = some last ∧
    StoredAt s.mapBlockIndex last s.nLastBlockFile a ∧
    ∀ h f a', StoredAt s.mapBlockIndex h f a' → f ≤ s.nLastBlockFile ∧
      (f = s.nLastBlockFile →
        a' + env.getSerializeSize h ≤ a + env.getSerializeSize last)

/-- Then it sets a size that covers the last file. -/
theorem FilesInv.recover (hI : FilesInv env s) (hsafe : RecoverySafe env s) :
    FilesInv env (s.recover env) := by
  obtain ⟨last, a, hlast, hstored, hmax⟩ := hsafe.last
  unfold FileState.recover
  rw [hlast]
  simp only
  set s₁ : FileState := { s with
    outOfBounds := s.outOfBounds ||
      decide ((s.vSortedByHeight env).length ≤ s.lastInfo.nHeightLast + 1)
    vinfoBlockFile := s.vinfoBlockFile.set s.nLastBlockFile
      { s.lastInfo with
        nHeightLast := (s.entry last).nHeight.toNat
        nSize := s.endOfLast env last }
    setDirtyFileInfo := insertDirty s.nLastBlockFile s.setDirtyFileInfo } with hs₁
  have hend : s.endOfLast env last = a + env.getSerializeSize last := by
    obtain ⟨hdata, -, ha⟩ := hstored.entry
    rw [FileState.endOfLast, if_pos hdata, ha]
  have hI₁ : FilesInv env s₁ := by
    refine ⟨hI.placed, fun h f a' hs => ?_, hI.disjoint, hI.disk_placed, hI.disk_stored,
      hI.disk_sized, fun h f a' hs => (hI.dirty h f a' hs).imp
        (fun hf => mem_insertDirty.2 (.inr hf)) id, ?_⟩
    · obtain ⟨i, hi, hle⟩ := hI.sized h f a' hs
      show Covers (s.vinfoBlockFile.set s.nLastBlockFile _)[f]? _
      by_cases hf : f = s.nLastBlockFile
      · rw [hf] at hi ⊢
        refine ⟨_, List.getElem?_set_self (List.getElem?_eq_some_iff.1 hi).1, ?_⟩
        show _ ≤ s.endOfLast env last
        rw [hend]
        exact (hmax h f a' hs).2 hf
      · rw [List.getElem?_set_ne (fun h => hf h.symm)]
        exact ⟨i, hi, hle⟩
    · show (s.outOfBounds || _) = false
      have := hsafe.bounds
      rw [hI.inBounds, Bool.false_or, decide_eq_false_iff_not]
      omega
  have hI₂ := hI₁.flushStateToDisk
  refine ⟨hI₂.placed, fun h f a' hs => ?_, hI₂.disjoint, hI₂.disk_placed, hI₂.disk_stored,
    hI₂.disk_sized, hI₂.dirty, hI₂.inBounds⟩
  rcases hI₂.dirty h f a' hs with hf | ⟨i, hi, hle⟩
  · exact absurd hf (by simp [FileState.flushStateToDisk])
  · refine ⟨i, ?_, hle⟩
    have hf : f < (s₁.flushStateToDisk env).nLastBlockFile + 1 :=
      Nat.lt_succ_of_le (hmax h f a' hs).1
    show ((List.range _).map _)[f]? = some i
    rw [List.getElem?_map, List.getElem?_range hf, Option.map_some, hi]
    rfl

theorem FilesInv.loadBlockIndexDB (hI : FilesInv env s) {forceStart : Bool}
    (hsafe : s.inconsistent forceStart = true → RecoverySafe env s) :
    FilesInv env (s.loadBlockIndexDB env forceStart) := by
  have hflag : ∀ s : FileState, FilesInv env s →
      FilesInv env { s with disk := { s.disk with shutdown := false } } := fun s hI =>
    ⟨hI.placed, hI.sized, hI.disjoint, hI.disk_placed, hI.disk_stored, hI.disk_sized, hI.dirty,
      hI.inBounds⟩
  unfold FileState.loadBlockIndexDB
  refine hflag _ ?_
  split
  · next hinc => exact hI.recover (hsafe hinc)
  · exact hI

end Invariant

/-! ## Runs -/

section Runs

variable {env : FileEnv} {s : FileState}

/-- The steps that keep stored blocks safe.

* A known position is one where no other block is stored, as when files are read from end to end.
* The next start reads the information about every file with records.
* The recovery branch is taken only when it does no harm. -/
def Careful (env : FileEnv) (s : FileState) : FileOp → Prop
  | .acceptKnown hash nFile nPos => (s.entry hash).nStatus.haveData = false → ∀ h a,
      StoredAt s.mapBlockIndex h nFile a →
        a + env.getSerializeSize h ≤ nPos ∨ nPos + env.getSerializeSize hash ≤ a
  | .restart forceStart => Loads (s.flushed env (s.dirtyWrites env).length) ∧
      ((s.reloaded env (.restart forceStart)).inconsistent forceStart = true →
        RecoverySafe env (s.reloaded env (.restart forceStart)))
  | .crash writes forceStart => Loads (s.flushed env writes) ∧
      ((s.reloaded env (.crash writes forceStart)).inconsistent forceStart = true →
        RecoverySafe env (s.reloaded env (.crash writes forceStart)))
  | _ => True

theorem FilesInv.step (hI : FilesInv env s) {op : FileOp} (hc : Careful env s op) :
    FilesInv env (fileStep env s op) := by
  cases op with
  | acceptHeader hash nHeight => exact hI.acceptHeader hash nHeight
  | acceptBlock hash checkDiskSpace => exact hI.acceptBlock hash checkDiskSpace
  | acceptKnown hash nFile nPos => exact hI.acceptKnown hc
  | flushStateToDisk => exact hI.flushStateToDisk
  | restart forceStart => exact (hI.load hc.1).loadBlockIndexDB hc.2
  | crash writes forceStart => exact (hI.load hc.1).loadBlockIndexDB hc.2

end Runs

end FairCoin
