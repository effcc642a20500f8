/-
  File access of the receiver (`fileio.c`): reading the basis through a sliding
  window and writing the output through a buffer, or sparsely.

  * `mapFile`, `mapPtr` are `map_file` and `map_ptr`: the window moves in
    aligned steps, keeps what it has already read, and is zero-filled past the
    end of the file;
  * `OutFile` is the output descriptor with the statics of the write layer
    (`wf_writeBuf`, `sparse_seek`, `sparse_past_write`, `preallocated_len`);
  * `writeFile`, `skipMatched`, `sparseEnd` write, seek over identical data and
    finish.  System calls succeed; `none` is the error return of a seek that
    ends at another place than the caller counted on.
-/
import CloudEdgeBackup.Rsync

namespace CloudEdgeBackup

open Zext

/-! ## The read window -/

/-- `ALIGNED_OVERSHOOT` -/
def alignedOvershoot (oft : ℕ) : ℕ := oft &&& 1023

/-- `ALIGNED_LENGTH` -/
def alignedLength (len : ℕ) : ℕ := ((len - 1) ||| 1023) + 1

theorem alignedOvershoot_le (oft : ℕ) : alignedOvershoot oft ≤ oft := Nat.and_le_left

theorem le_alignedLength (len : ℕ) : len ≤ alignedLength len := by
  have : len - 1 ≤ (len - 1) ||| 1023 := Nat.left_le_or
  unfold alignedLength; omega

/-- `map_struct`: the window `p` stands for the bytes from `pOffset` on. -/
structure MapStruct where
  fileSize : ℤ
  defWindowSize : ℕ
  pOffset : ℕ
  p : Bytes

/-- `map_file` -/
def mapFile (len : ℤ) (readSize blkSize : ℕ) : MapStruct :=
  let readSize :=
    if blkSize ≠ 0 ∧ readSize % blkSize ≠ 0 then readSize + (blkSize - readSize % blkSize)
    else readSize
  ⟨len, alignedLength readSize, 0, []⟩

/-- The length of the window that `map_ptr` reads for `len` bytes at
    `windowStart + alignFudge`. -/
def MapStruct.windowSize (m : MapStruct) (windowStart alignFudge len : ℕ) : ℕ :=
  let w : ℤ :=
    if (windowStart : ℤ) + m.defWindowSize > m.fileSize then int32 (m.fileSize - windowStart)
    else m.defWindowSize
  if w < len + alignFudge then alignedLength (len + alignFudge) else w.toNat

/-- The window moved to `windowStart`: the bytes it has already are kept, the
    others are read from the file. -/
def MapStruct.slide (m : MapStruct) (file : Bytes) (windowStart windowSize : ℕ) : Bytes :=
  let readStart := m.pOffset + m.p.length
  if m.pOffset ≤ windowStart ∧ windowStart < readStart ∧ readStart ≤ windowStart + windowSize then
    m.p.drop (m.p.length - (readStart - windowStart)) ++
      zslice file readStart (windowSize - (readStart - windowStart))
  else zslice file windowStart windowSize

/-- `map_ptr` on a file whose bytes now are `file`: the `len` bytes at `offset`
    and the moved window. -/
def mapPtr (file : Bytes) (m : MapStruct) (offset len : ℕ) : Option Bytes × MapStruct :=
  if len = 0 then (none, m)
  else if m.pOffset ≤ offset ∧ offset + len ≤ m.pOffset + m.p.length then
    (some ((m.p.drop (offset - m.pOffset)).take len), m)
  else
    let alignFudge := alignedOvershoot offset
    let windowStart := offset - alignFudge
    let p := m.slide file windowStart (m.windowSize windowStart alignFudge len)
    (some ((p.drop alignFudge).take len), { m with pOffset := windowStart, p := p })

theorem le_windowSize (m : MapStruct) (windowStart alignFudge len : ℕ) :
    len + alignFudge ≤ m.windowSize windowStart alignFudge len := by
  unfold MapStruct.windowSize
  dsimp only
  split_ifs with h <;> first | exact le_alignedLength _ | omega

/-- Every byte of the window satisfies `Q` at its place in the file. -/
def MapStruct.Forall (Q : ℕ → UInt8 → Prop) (m : MapStruct) : Prop :=
  ∀ j < m.p.length, Q (m.pOffset + j) (zget m.p j)

theorem MapStruct.forall_mapFile (Q : ℕ → UInt8 → Prop) (len : ℤ) (readSize blkSize : ℕ) :
    (mapFile len readSize blkSize).Forall Q := by
  intro j hj; simp [mapFile] at hj

theorem MapStruct.Forall.mono {Q R : ℕ → UInt8 → Prop} {m : MapStruct} (h : m.Forall Q)
    (hQR : ∀ x b, Q x b → R x b) : m.Forall R :=
  fun j hj => hQR _ _ (h j hj)

theorem MapStruct.slide_spec {Q : ℕ → UInt8 → Prop} {file : Bytes} {m : MapStruct}
    (hm : m.Forall Q) (hf : ∀ x, Q x (zget file x)) (start size : ℕ) :
    (m.slide file start size).length = size ∧
      ∀ j < size, Q (start + j) (zget (m.slide file start size) j) := by
  unfold slide
  dsimp only
  split_ifs with h
  · obtain ⟨h₁, h₂, h₃⟩ := h
    have hk : (m.p.drop (m.p.length - (m.pOffset + m.p.length - start))).length =
        m.pOffset + m.p.length - start := by simp; omega
    refine ⟨by simp; omega, fun j hj => ?_⟩
    rw [zget_append, hk]
    split_ifs with hj'
    · rw [zget_drop]
      have := hm (m.p.length - (m.pOffset + m.p.length - start) + j) (by omega)
      rwa [show m.pOffset + (m.p.length - (m.pOffset + m.p.length - start) + j) = start + j by
        omega] at this
    · rw [zget_zslice (by omega),
        show m.pOffset + m.p.length + (j - (m.pOffset + m.p.length - start)) = start + j by omega]
      exact hf _
  · exact ⟨by simp, fun j hj => by rw [zget_zslice hj]; exact hf _⟩

/-- **`map_ptr` returns `len` bytes of the file at `offset`**: what holds of every
    byte in the window and every byte of the file holds of every byte returned,
    and of the moved window. -/
theorem mapPtr_spec {Q : ℕ → UInt8 → Prop} {file : Bytes} {m : MapStruct} (offset : ℕ) {len : ℕ}
    (hlen : len ≠ 0) (hm : m.Forall Q) (hf : ∀ x, Q x (zget file x)) :
    ∃ d, (mapPtr file m offset len).1 = some d ∧ d.length = len ∧
      (∀ j < len, Q (offset + j) (zget d j)) ∧ (mapPtr file m offset len).2.Forall Q := by
  unfold mapPtr
  rw [if_neg hlen]
  by_cases hin : m.pOffset ≤ offset ∧ offset + len ≤ m.pOffset + m.p.length
  · rw [if_pos hin]
    refine ⟨_, rfl, by simp; omega, fun j hj => ?_, hm⟩
    rw [zget_take hj, zget_drop]
    have := hm (offset - m.pOffset + j) (by omega)
    rwa [show m.pOffset + (offset - m.pOffset + j) = offset + j by omega] at this
  · rw [if_neg hin]
    have hfudge := alignedOvershoot_le offset
    have hsize := le_windowSize m (offset - alignedOvershoot offset) (alignedOvershoot offset) len
    obtain ⟨hl, hget⟩ := MapStruct.slide_spec hm hf (offset - alignedOvershoot offset)
      (m.windowSize (offset - alignedOvershoot offset) (alignedOvershoot offset) len)
    refine ⟨_, rfl, by simp [hl]; omega, fun j hj => ?_, fun j hj => hget j (hl ▸ hj)⟩
    rw [zget_take hj, zget_drop]
    have := hget (alignedOvershoot offset + j) (by omega)
    rwa [show offset - alignedOvershoot offset + (alignedOvershoot offset + j) = offset + j by
      omega] at this

/-- On a file that does not change, `map_ptr` is the zero-extended slice. -/
theorem mapPtr_eq {file : Bytes} {m : MapStruct} (offset : ℕ) {len : ℕ} (hlen : len ≠ 0)
    (hm : m.Forall fun x b => b = zget file x) :
    (mapPtr file m offset len).1 = some (zslice file offset len) ∧
      (mapPtr file m offset len).2.Forall fun x b => b = zget file x := by
  obtain ⟨d, hd, hl, hget, hwin⟩ := mapPtr_spec offset hlen hm fun _ => rfl
  exact ⟨by rw [hd, eq_zslice hl hget], hwin⟩

/-! ## The output file -/

/-- The output descriptor and the statics of the write layer. -/
structure OutFile where
  /-- the bytes on disk -/
  data : Bytes
  /-- the file position -/
  pos : ℕ
  /-- `wf_writeBuf`: written but not yet flushed -/
  buf : Bytes
  /-- `sparse_seek`: zeros written but not yet skipped or punched -/
  sparseSeek : ℕ
  /-- `sparse_past_write`: where the last sparse write ended; it survives from
      the file before -/
  sparsePastWrite : ℕ
  /-- `preallocated_len` -/
  preallocatedLen : ℕ

namespace OutFile

/-- `write(2)` at the file position. -/
def write (f : OutFile) (b : Bytes) : OutFile :=
  { f with data := overwrite f.data f.pos b, pos := f.pos + b.length }

/-- `lseek(fd, n, SEEK_CUR)` -/
def seekCur (f : OutFile) (n : ℕ) : OutFile := { f with pos := f.pos + n }

/-- `ftruncate` -/
def truncate (f : OutFile) (n : ℕ) : OutFile := { f with data := zresize f.data n }

/-- `do_punch_hole`: zeros the range, keeps the size; the seek must end behind it. -/
def punchHole (f : OutFile) (pos len : ℕ) : Option OutFile :=
  let f := { f with
    data := zresize (overwrite f.data pos (List.replicate len 0)) f.data.length,
    pos := f.pos + len }
  if f.pos = pos + len then some f else none

end OutFile

/-- `wf_writeBufSize` -/
abbrev wfWriteBufSize : ℕ := writeSize * 8

/-- `flush_write_file` -/
def flushWriteFile (f : OutFile) : OutFile :=
  if f.buf = [] then f else { f.write f.buf with buf := [] }

/-- The pending seek of `write_sparse`: skipped where nothing was there before
    (past `preallocated_len`), punched elsewhere. -/
def skipGap (f : OutFile) : Option OutFile :=
  if f.sparseSeek = 0 then some f
  else if f.preallocatedLen ≤ f.sparsePastWrite then some (f.seekCur f.sparseSeek)
  else f.punchHole f.sparsePastWrite f.sparseSeek

/-- `write_sparse`: leading zeros are added to the pending seek, trailing ones
    start the next. -/
def writeSparse (f : OutFile) (useSeek : Bool) (offset : ℕ) (buf : Bytes) : Option OutFile :=
  let l1 := leadZeros buf
  let l2 := trailZeros (buf.drop l1)
  let f := { f with sparseSeek := f.sparseSeek + l1 }
  if l1 = buf.length then some f
  else (skipGap f).map fun f =>
    let f := { f with sparseSeek := l2, sparsePastWrite := offset + buf.length - l2 }
    if useSeek then f.seekCur (buf.length - (l1 + l2))
    else f.write ((buf.drop l1).take (buf.length - (l1 + l2)))

/-- `write_file` with `sparse_files > 0`: in pieces of `SPARSE_WRITE_SIZE`. -/
def writeFileSparse (f : OutFile) (useSeek : Bool) (offset : ℕ) (buf : Bytes) : Option OutFile :=
  if buf = [] then some f
  else do
    let len1 := min buf.length sparseWriteSize
    let f ← writeSparse f useSeek offset (buf.take len1)
    writeFileSparse f useSeek (offset + len1) (buf.drop len1)
termination_by buf.length
decreasing_by
  have := List.length_pos_iff.2 ‹buf ≠ []›
  simp; omega

/-- `write_file` without sparse files: the buffer is flushed whenever it is full. -/
def writeFileBuf (f : OutFile) (buf : Bytes) : OutFile :=
  if buf = [] then f
  else
    let r1 := min buf.length (wfWriteBufSize - f.buf.length)
    let f' := { f with buf := f.buf ++ buf.take r1 }
    writeFileBuf (if wfWriteBufSize ≤ f'.buf.length then flushWriteFile f' else f') (buf.drop r1)
termination_by 2 * buf.length + if f.buf = [] then 0 else 1
decreasing_by
  have h₁ := List.length_pos_iff.2 ‹buf ≠ []›
  rcases Nat.eq_zero_or_pos (wfWriteBufSize - f.buf.length) with h | h
  · -- a full buffer is flushed and takes nothing
    have hb : f.buf ≠ [] := by rintro hb; simp [hb] at h
    have hle : wfWriteBufSize ≤ f.buf.length := by omega
    simp [h, flushWriteFile, OutFile.write, hb, hle]
  · simp only [List.length_drop]
    split_ifs <;> omega

/-- `write_file` -/
def writeFile (sparse : Bool) (f : OutFile) (useSeek : Bool) (offset : ℕ) (buf : Bytes) :
    Option OutFile :=
  if sparse then writeFileSparse f useSeek offset buf else some (writeFileBuf f buf)

/-- `skip_matched`: identical data at an identical place is not written again. -/
def skipMatched (sparse : Bool) (f : OutFile) (offset : ℕ) (buf : Bytes) : Option OutFile :=
  if sparse then writeFile sparse f true offset buf
  else
    let f := (flushWriteFile f).seekCur buf.length
    if f.pos = offset + buf.length then some f else none

/-- `sparse_end` -/
def sparseEnd (f : OutFile) (size : ℕ) : OutFile :=
  if f.sparseSeek = 0 then f else { f.truncate size with sparseSeek := 0 }

/-- The end of the output in `receive_data`: what is pending goes out, and in
    place (or after a preallocation) the file is cut at the end of the new data. -/
def finishOutput (sparse inplace : Bool) (f : OutFile) (offset : ℕ) : OutFile :=
  let f := if 0 < offset then if sparse then sparseEnd f offset else flushWriteFile f else f
  if inplace ∨ offset < f.preallocatedLen then f.truncate offset else f

end CloudEdgeBackup
