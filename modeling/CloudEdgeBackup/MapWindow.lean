/-
  The read window of `map_ptr` in memory (`fileio.c`).

  * `MapWindow.mapPtr` is `map_ptr` with its buffer: the window grows, its tail moves to
    the front when the new window begins inside the old one, and `read` fills the rest in
    as many pieces as it likes.  `int32` arithmetic wraps, and a store beyond the buffer
    ends it;
  * `MapFd` is the descriptor: a file that does not change, read from its start;
  * `Describes` is the invariant: the buffer holds the file's bytes from `p_offset` on,
    `p_fd_offset` is the position of the descriptor, and the status is set once a byte
    behind the end was asked for;
  * `mapPtrs_right`: every sequence of requests returns the bytes of the file, as long as
    the length of the window stays an `int32` (`Request.Fits`).
-/
import CloudEdgeBackup.FileIO

namespace CloudEdgeBackup

open Zext

namespace MapWindow

/-! ## The descriptor -/

/-- An open file; the `n`-th `read` gives up to `gives n + 1` bytes at once. -/
structure MapFd where
  data : Bytes
  pos : ℕ
  gives : ℕ → ℕ
  count : ℕ

/-- `do_open` -/
def MapFd.open (data : Bytes) (gives : ℕ → ℕ) : MapFd := ⟨data, 0, gives, 0⟩

/-- `do_lseek(fd, pos, SEEK_SET)` -/
def MapFd.seek (fd : MapFd) (pos : ℕ) : MapFd := { fd with pos := pos }

/-- `read(fd, buf, n)` -/
def MapFd.read (fd : MapFd) (n : ℕ) : Bytes × MapFd :=
  let got := (fd.data.drop fd.pos).take (min n (fd.gives fd.count + 1))
  (got, { fd with pos := fd.pos + got.length, count := fd.count + 1 })

/-! ## `map_file` -/

/-- `ALIGNED_LENGTH` of an `int32` -/
def alignedInt32 (len : ℤ) : ℤ := int32 (Int.lor (int32 (len - 1)) 1023 + 1)

/-- `map_struct`; `p` has `p_size` bytes. -/
structure Window where
  fileSize : ℤ
  pOffset : ℕ
  pFdOffset : ℕ
  p : Bytes
  pLen : ℕ
  defWindowSize : ℤ
  status : ℤ

/-- `map_file` -/
def mapFile (len readSize blkSize : ℤ) : Window :=
  let readSize :=
    if blkSize ≠ 0 ∧ readSize.tmod blkSize ≠ 0 then int32 (readSize + (blkSize - readSize.tmod blkSize))
    else readSize
  ⟨len, 0, 0, [], 0, alignedInt32 readSize, 0⟩

/-! ## `map_ptr` -/

/-- How `map_ptr` ends the program. -/
inductive MapExit
  /-- "invalid len passed to map_ptr" -/
  | invalidLen
  /-- "invalid read_size of %ld in map_ptr" -/
  | invalidReadSize
  /-- A store beyond the buffer. -/
  | overrun
deriving DecidableEq

def enodata : ℤ := 61

/-- `b` written at `p + i` -/
def store (p : Bytes) (i : ℕ) (b : Bytes) : Except MapExit Bytes :=
  if i + b.length ≤ p.length then .ok (p.take i ++ b ++ p.drop (i + b.length)) else .error .overrun

namespace Window

/-- The window's length for `len` bytes behind `alignFudge` others. -/
def windowSize (m : Window) (windowStart alignFudge : ℕ) (len : ℤ) : ℤ :=
  let size :=
    if windowStart + m.defWindowSize > m.fileSize then int32 (m.fileSize - windowStart) else m.defWindowSize
  if size < int32 (len + alignFudge) then alignedInt32 (int32 (len + alignFudge)) else size

/-- `realloc_array`, which may leave anything in the new bytes. -/
def grow (garbage : ℕ → UInt8) (m : Window) (size : ℤ) : Window :=
  if m.p.length < size then { m with p := m.p ++ (List.range (size.toNat - m.p.length)).map garbage } else m

/-- `read_offset` and the buffer with what is reused at its front. -/
def reuse (m : Window) (windowStart : ℕ) (size : ℤ) : Except MapExit (ℕ × Bytes) :=
  if m.pOffset ≤ windowStart ∧ windowStart < m.pOffset + m.pLen ∧
      (m.pOffset : ℤ) + m.pLen ≤ windowStart + size then do
    let readOffset := m.pOffset + m.pLen - windowStart
    let p ← store m.p 0 ((m.p.drop (m.pLen - readOffset)).take readOffset)
    .ok (readOffset, p)
  else .ok (0, m.p)

/-- `while (read_size > 0)`; `fuel` is at least `readSize`. -/
def readLoop : ℕ → Window → MapFd → ℕ → ℕ → Except MapExit (Window × MapFd)
  | 0, m, fd, _, _ => .ok (m, fd)
  | fuel + 1, m, fd, readOffset, readSize =>
    if readSize = 0 then .ok (m, fd)
    else
      let got := fd.read readSize
      if got.1 = [] then do
        let p ← store m.p readOffset (List.replicate readSize 0)
        .ok ({ m with p := p, status := if m.status = 0 then enodata else m.status }, got.2)
      else do
        let p ← store m.p readOffset got.1
        readLoop fuel { m with p := p, pFdOffset := m.pFdOffset + got.1.length } got.2 (readOffset + got.1.length)
          (readSize - got.1.length)

/-- The window moves to `windowStart`, and is `size` bytes long. -/
def slide (garbage : ℕ → UInt8) (m : Window) (fd : MapFd) (windowStart : ℕ) (size : ℤ) :
    Except MapExit (Window × MapFd) :=
  let m := m.grow garbage size
  do
    let reused ← m.reuse windowStart size
    if size - reused.1 ≤ 0 then .error .invalidReadSize
    else
      let readStart := windowStart + reused.1
      let fd := if m.pFdOffset = readStart then fd else fd.seek readStart
      readLoop size.toNat
        { m with p := reused.2, pFdOffset := readStart, pOffset := windowStart, pLen := size.toNat } fd reused.1
        (size - reused.1).toNat

end Window

/-- `map_ptr`: the `len` bytes at the pointer it returns, none for a null pointer. -/
def mapPtr (garbage : ℕ → UInt8) (m : Window) (fd : MapFd) (offset : ℕ) (len : ℤ) :
    Except MapExit (Option Bytes × Window × MapFd) :=
  if len = 0 then .ok (none, m, fd)
  else if len < 0 then .error .invalidLen
  else if m.pOffset ≤ offset ∧ offset + len ≤ m.pOffset + m.pLen then
    .ok (some ((m.p.drop (offset - m.pOffset)).take len.toNat), m, fd)
  else
    let alignFudge := alignedOvershoot offset
    let windowStart := offset - alignFudge
    do
      let slid ← m.slide garbage fd windowStart (m.windowSize windowStart alignFudge len)
      .ok (some ((slid.1.p.drop alignFudge).take len.toNat), slid.1, slid.2)

/-- A call of `map_ptr`. -/
structure Request where
  offset : ℕ
  len : ℕ

/-- The calls of `map_ptr` one after the other. -/
def mapPtrs (garbage : ℕ → UInt8) : Window → MapFd → List Request →
    Except MapExit (List (Option Bytes) × Window × MapFd)
  | m, fd, [] => .ok ([], m, fd)
  | m, fd, r :: rs => do
    let first ← mapPtr garbage m fd r.offset r.len
    let rest ← mapPtrs garbage first.2.1 first.2.2 rs
    .ok (first.1 :: rest.1, rest.2)

/-! ## The arithmetic -/

/-- The window for the request is an `int32` after it is rounded up. -/
def Request.Fits (r : Request) : Prop := r.len + alignedOvershoot r.offset ≤ 2 ^ 31 - 1024

instance (r : Request) : Decidable r.Fits := inferInstanceAs (Decidable (_ ≤ _))

theorem alignedLength_le {n : ℕ} (hn : n ≤ 2 ^ 31 - 1024) : alignedLength n ≤ 2 ^ 31 - 1024 := by
  have hdiv : ((n - 1) ||| 1023) / 2 ^ 10 = (n - 1) / 2 ^ 10 := by
    rw [Nat.or_div_two_pow]
    exact Nat.or_zero _
  unfold alignedLength
  omega

theorem alignedInt32_eq {n : ℕ} (hpos : 0 < n) (hn : n ≤ 2 ^ 31 - 1024) : alignedInt32 n = alignedLength n := by
  have hpred : (n : ℤ) - 1 = ((n - 1 : ℕ) : ℤ) := by omega
  have hle := alignedLength_le hn
  unfold alignedLength at hle
  rw [alignedInt32, hpred, int32_of_lt (by omega)]
  exact int32_of_lt (n := ((n - 1) ||| 1023) + 1) (by omega)

theorem le_window {m : Window} {start fudge len : ℕ} (hpos : 0 < len) (hfits : len + fudge ≤ 2 ^ 31 - 1024) :
    (len : ℤ) + fudge ≤ m.windowSize start fudge len := by
  have hsum : (len : ℤ) + fudge = ((len + fudge : ℕ) : ℤ) := (Nat.cast_add len fudge).symm
  have hint : int32 ((len : ℤ) + fudge) = ((len + fudge : ℕ) : ℤ) := by
    rw [hsum]
    exact int32_of_lt (by omega)
  unfold Window.windowSize
  simp only
  rw [hint, alignedInt32_eq (by omega) hfits]
  have hle := le_alignedLength (len + fudge)
  split_ifs <;> omega

/-! ## The buffer -/

theorem bind_ok {α β : Type} (a : α) (f : α → Except MapExit β) : (Except.ok a >>= f) = f a := rfl

theorem store_eq {p : Bytes} {i : ℕ} {b : Bytes} (h : i + b.length ≤ p.length) :
    store p i b = .ok (p.take i ++ b ++ p.drop (i + b.length)) := if_pos h

theorem store_length {p : Bytes} {i : ℕ} {b : Bytes} (h : i + b.length ≤ p.length) :
    (p.take i ++ b ++ p.drop (i + b.length)).length = p.length := by
  simp only [List.length_append, List.length_take, List.length_drop]
  omega

theorem zslice_behind {data : Bytes} {pos : ℕ} (h : data.length ≤ pos) (n : ℕ) :
    List.replicate n 0 = zslice data pos n := by
  refine eq_zslice List.length_replicate ?_
  intro j _
  rw [zget_replicate, zget_of_le (by omega)]

theorem read_slice (fd : MapFd) (n : ℕ) : (fd.read n).1 = zslice fd.data fd.pos (fd.read n).1.length := by
  refine eq_zslice rfl ?_
  intro j hj
  simp only [MapFd.read, List.length_take] at hj ⊢
  rw [zget_take (by omega), zget_drop]

/-- The descriptor of the file stands where the window has it. -/
structure Cursor (data : Bytes) (m : Window) (fd : MapFd) : Prop where
  file : fd.data = data
  pos : m.pFdOffset = fd.pos

/-- The read of `readSize` bytes to `p + readOffset`. -/
structure Filled (data : Bytes) (m : Window) (fd : MapFd) (readOffset readSize : ℕ) (m' : Window) (fd' : MapFd) :
    Prop where
  cursor : Cursor data m' fd'
  p : m'.p = m.p.take readOffset ++ zslice data fd.pos readSize ++ m.p.drop (readOffset + readSize)
  pOffset : m'.pOffset = m.pOffset
  pLen : m'.pLen = m.pLen
  keeps : m.status ≠ 0 → m'.status ≠ 0
  status : data.length < fd.pos + readSize → readSize ≠ 0 → m'.status ≠ 0

/-- **The loop fills its part of the buffer**, however short the reads are. -/
theorem readLoop_filled {data : Bytes} {fuel : ℕ} {m : Window} {fd : MapFd} {readOffset readSize : ℕ}
    (h : Cursor data m fd) (hroom : readOffset + readSize ≤ m.p.length) (hfuel : readSize ≤ fuel) :
    ∃ m' fd', m.readLoop fuel fd readOffset readSize = .ok (m', fd') ∧ Filled data m fd readOffset readSize m' fd' := by
  induction fuel generalizing m fd readOffset readSize with
  | zero =>
    obtain rfl : readSize = 0 := Nat.le_zero.1 hfuel
    refine ⟨m, fd, rfl, h, ?_, rfl, rfl, id, fun _ h0 => absurd rfl h0⟩
    simp
  | succ fuel ih =>
    rw [Window.readLoop]
    by_cases hzero : readSize = 0
    · subst hzero
      refine ⟨m, fd, if_pos rfl, h, ?_, rfl, rfl, id, fun _ h0 => absurd rfl h0⟩
      simp
    rw [if_neg hzero]
    have hslice := read_slice fd readSize
    rw [h.file] at hslice
    have hlen : (fd.read readSize).1.length = min (min readSize (fd.gives fd.count + 1)) (data.length - fd.pos) := by
      simp [MapFd.read, h.file]
    by_cases hgot : (fd.read readSize).1 = []
    · -- the end of the file
      have hend : data.length ≤ fd.pos := by
        rw [hgot, List.length_nil] at hlen
        omega
      have hstore : readOffset + (List.replicate readSize (0 : UInt8)).length ≤ m.p.length := by
        rw [List.length_replicate]
        exact hroom
      simp only [if_pos hgot, store_eq hstore]
      refine ⟨_, _, rfl, ⟨h.file, ?_⟩, ?_, rfl, rfl, ?_, ?_⟩
      · simp only [MapFd.read] at hgot ⊢
        rw [hgot, List.length_nil]
        exact h.pos
      · rw [List.length_replicate, zslice_behind hend]
      · intro hs
        simp only [if_neg hs]
        exact hs
      · intro _ _
        simp only
        split_ifs with hs
        · decide
        · exact hs
    · have hpos : 0 < (fd.read readSize).1.length := List.length_pos_iff.2 hgot
      have hle : (fd.read readSize).1.length ≤ readSize := by omega
      have hstore : readOffset + (fd.read readSize).1.length ≤ m.p.length := by omega
      have hstored := store_length hstore
      simp only [if_neg hgot, store_eq hstore]
      obtain ⟨m', fd', hrun, hfilled⟩ := @ih
        { m with p := m.p.take readOffset ++ (fd.read readSize).1 ++ m.p.drop (readOffset + (fd.read readSize).1.length),
                 pFdOffset := m.pFdOffset + (fd.read readSize).1.length } (fd.read readSize).2
        (readOffset + (fd.read readSize).1.length) (readSize - (fd.read readSize).1.length)
        ⟨h.file, by simp only [MapFd.read]; rw [h.pos]⟩ (by simp only; omega) (by omega)
      have hnext : (fd.read readSize).2.pos = fd.pos + (fd.read readSize).1.length := rfl
      refine ⟨m', fd', hrun, hfilled.cursor, ?_, hfilled.pOffset, hfilled.pLen, hfilled.keeps, ?_⟩
      · have htake : (m.p.take readOffset).length = readOffset := by
          rw [List.length_take]
          omega
        have hsplit : zslice data fd.pos readSize = (fd.read readSize).1 ++
            zslice data (fd.pos + (fd.read readSize).1.length) (readSize - (fd.read readSize).1.length) := by
          nth_rewrite 1 [hslice]
          rw [← zslice_add, Nat.add_sub_cancel' hle]
        have hall : readOffset + (fd.read readSize).1.length + (readSize - (fd.read readSize).1.length) =
            readOffset + readSize := by omega
        have hfront : (m.p.take readOffset ++ (fd.read readSize).1).length =
            readOffset + (fd.read readSize).1.length := by rw [List.length_append, htake]
        rw [hfilled.p, hnext, hsplit, hall, ← List.append_assoc (m.p.take readOffset)]
        simp only
        rw [List.take_left' hfront, List.drop_append, List.drop_eq_nil_of_le (by rw [hfront]; omega),
          List.nil_append, List.drop_drop, hfront]
        congr 2
        omega
      · intro hbehind _
        refine hfilled.status (by rw [hnext]; omega) ?_
        omega

/-! ## One call -/

/-- **What the bookkeeping says of the buffer**: it holds the bytes of the file. -/
structure Describes (data : Bytes) (m : Window) (fd : MapFd) : Prop extends Cursor data m fd where
  room : m.pLen ≤ m.p.length
  window : m.p.take m.pLen = zslice data m.pOffset m.pLen
  status : data.length < m.pOffset + m.pLen → m.status ≠ 0

theorem describes_mapFile (data : Bytes) (gives : ℕ → ℕ) (len readSize blkSize : ℤ) :
    Describes data (mapFile len readSize blkSize) (MapFd.open data gives) := by
  refine ⟨⟨rfl, rfl⟩, le_rfl, ?_, fun h => absurd h (Nat.not_lt_zero _)⟩
  rw [mapFile, zslice_zero]
  rfl

/-- Bytes inside the window. -/
theorem Describes.slice {data : Bytes} {m : Window} {fd : MapFd} (h : Describes data m fd) {i n : ℕ}
    (hin : i + n ≤ m.pLen) : (m.p.drop i).take n = zslice data (m.pOffset + i) n := by
  have hroom := h.room
  refine eq_zslice (by rw [List.length_take, List.length_drop]; omega) ?_
  intro j hj
  have hget : zget (m.p.take m.pLen) (i + j) = zget m.p (i + j) := zget_take (by omega)
  rw [zget_take hj, zget_drop, ← hget, h.window, zget_zslice (by omega), Nat.add_assoc]

theorem Describes.grow {data : Bytes} {m : Window} {fd : MapFd} (h : Describes data m fd) (garbage : ℕ → UInt8)
    (size : ℤ) : Describes data (m.grow garbage size) fd ∧ size ≤ (m.grow garbage size).p.length ∧
      (m.grow garbage size).pOffset = m.pOffset ∧ (m.grow garbage size).pLen = m.pLen ∧
      (m.grow garbage size).status = m.status := by
  rw [Window.grow]
  split_ifs with hlt
  · refine ⟨⟨⟨h.file, h.pos⟩, ?_, ?_, h.status⟩, ?_, rfl, rfl, rfl⟩
    · rw [List.length_append]
      exact h.room.trans (Nat.le_add_right _ _)
    · rw [List.take_append_of_le_length h.room]
      exact h.window
    · simp only [List.length_append, List.length_map, List.length_range]
      omega
  · exact ⟨h, not_lt.1 hlt, rfl, rfl, rfl⟩

/-- What is reused are the bytes at the front of the new window. -/
theorem Describes.reuse {data : Bytes} {m : Window} {fd : MapFd} (h : Describes data m fd) {start : ℕ} {size : ℤ}
    (hpos : 0 < size) (houtside : m.pOffset ≤ start → (m.pOffset : ℤ) + m.pLen < start + size) :
    ∃ readOffset p, m.reuse start size = .ok (readOffset, p) ∧ p.length = m.p.length ∧
      p.take readOffset = zslice data start readOffset ∧ readOffset < size := by
  rw [Window.reuse]
  split_ifs with hin
  · obtain ⟨hle, hlt, -⟩ := hin
    have hroom := h.room
    have hslice := @Describes.slice _ _ _ h (m.pLen - (m.pOffset + m.pLen - start)) (m.pOffset + m.pLen - start)
      (by omega)
    rw [show m.pOffset + (m.pLen - (m.pOffset + m.pLen - start)) = start by omega] at hslice
    have hlen : (zslice data start (m.pOffset + m.pLen - start)).length = m.pOffset + m.pLen - start :=
      zslice_length _ _ _
    have hstore : 0 + (zslice data start (m.pOffset + m.pLen - start)).length ≤ m.p.length := by omega
    refine ⟨m.pOffset + m.pLen - start, _, ?_, store_length hstore, ?_, ?_⟩
    · simp only [hslice, store_eq hstore]
      rfl
    · rw [List.take_zero, List.nil_append, List.take_left' hlen]
    · have := houtside hle
      omega
  · exact ⟨0, m.p, rfl, rfl, by rw [List.take_zero, zslice_zero], hpos⟩

/-- **The moved window describes the file again.** -/
theorem Describes.slide {data : Bytes} {m : Window} {fd : MapFd} (h : Describes data m fd) (garbage : ℕ → UInt8)
    {start : ℕ} {size : ℤ} (hpos : 0 < size)
    (houtside : m.pOffset ≤ start → (m.pOffset : ℤ) + m.pLen < start + size) :
    ∃ m' fd', m.slide garbage fd start size = .ok (m', fd') ∧ Describes data m' fd' ∧ m'.pOffset = start ∧
      (m'.pLen : ℤ) = size ∧ (m.status ≠ 0 → m'.status ≠ 0) := by
  obtain ⟨hgrown, hroom, hoff, hlen, hstatus⟩ := h.grow garbage size
  obtain ⟨readOffset, p, hreuse, hp, hfront, hlt⟩ := @Describes.reuse _ _ _ hgrown start size hpos
    (by rw [hoff, hlen]; exact houtside)
  rw [Window.slide]
  simp only [hreuse]
  -- the descriptor goes to where the window lacks bytes
  generalize hfd : (if (m.grow garbage size).pFdOffset = start + readOffset then fd
    else fd.seek (start + readOffset)) = fd₁
  have hat : fd₁.data = data ∧ start + readOffset = fd₁.pos := by
    rw [← hfd]
    split_ifs with hat
    · exact ⟨h.file, hat.symm.trans hgrown.pos⟩
    · exact ⟨h.file, rfl⟩
  obtain ⟨m', fd', hrun, hfilled⟩ := @readLoop_filled data size.toNat { m.grow garbage size with
    p := p, pFdOffset := start + readOffset, pOffset := start, pLen := size.toNat } fd₁ readOffset
    (size - readOffset).toNat ⟨hat.1, hat.2⟩ (by simp only; omega) (by omega)
  have hsize : readOffset + (size - readOffset).toNat = size.toNat := by omega
  have hpLen : m'.pLen = size.toNat := hfilled.pLen
  have hbuffer : m'.p = zslice data start size.toNat ++ p.drop size.toNat := by
    rw [hfilled.p]
    simp only
    rw [hfront, ← hat.2, ← zslice_add, hsize]
  refine ⟨m', fd', ?_, ⟨hfilled.cursor, ?_, ?_, ?_⟩, hfilled.pOffset, ?_, ?_⟩
  · rw [bind_ok, if_neg (by omega)]
    subst hfd
    exact hrun
  · rw [hpLen, hbuffer, List.length_append, zslice_length]
    exact Nat.le_add_right _ _
  · rw [hpLen, hbuffer, List.take_left' (zslice_length _ _ _), hfilled.pOffset]
  · intro hbehind
    rw [hpLen, hfilled.pOffset] at hbehind
    refine hfilled.status ?_ (by omega)
    rw [← hat.2]
    simp only at hbehind
    omega
  · rw [hpLen]
    omega
  · intro hs
    exact hfilled.keeps (by simpa only [hstatus] using hs)

/-- What a request is for. -/
def Request.bytes (data : Bytes) (r : Request) : Option Bytes :=
  if r.len = 0 then none else some (zslice data r.offset r.len)

/-- The request goes beyond the end of the file. -/
def Request.Behind (data : Bytes) (r : Request) : Prop := r.len ≠ 0 ∧ data.length < r.offset + r.len

/-- **`map_ptr` returns the bytes of the file**, and keeps its books. -/
theorem mapPtr_right (garbage : ℕ → UInt8) {data : Bytes} {m : Window} {fd : MapFd} (h : Describes data m fd)
    {r : Request} (hfits : r.Fits) :
    ∃ m' fd', mapPtr garbage m fd r.offset r.len = .ok (r.bytes data, m', fd') ∧ Describes data m' fd' ∧
      (m.status ≠ 0 → m'.status ≠ 0) ∧ (r.Behind data → m'.status ≠ 0) := by
  obtain ⟨offset, len⟩ := r
  simp only [Request.Fits] at hfits
  rw [mapPtr, Request.bytes]
  simp only [Request.Behind]
  by_cases hzero : len = 0
  · subst hzero
    exact ⟨m, fd, rfl, h, id, fun hb => absurd rfl hb.1⟩
  rw [if_neg (by exact_mod_cast hzero), if_neg (by omega), if_neg hzero]
  by_cases hin : m.pOffset ≤ offset ∧ (offset : ℤ) + len ≤ m.pOffset + m.pLen
  · -- the region is available
    have hslice := @Describes.slice _ _ _ h (offset - m.pOffset) len (by omega)
    rw [Nat.add_sub_cancel' hin.1] at hslice
    rw [if_pos hin]
    refine ⟨m, fd, ?_, h, id, fun hb => h.status (by omega)⟩
    rw [Int.toNat_natCast, hslice]
  rw [if_neg hin]
  have hfudge := alignedOvershoot_le offset
  have hsize := @le_window m (offset - alignedOvershoot offset) (alignedOvershoot offset) len (by omega) hfits
  generalize hs : m.windowSize (offset - alignedOvershoot offset) (alignedOvershoot offset) len = size at hsize ⊢
  obtain ⟨m', fd', hslide, hafter, hoff, hlen, hkeeps⟩ := @Describes.slide _ _ _ h garbage
    (offset - alignedOvershoot offset) size (by omega) (by omega)
  have hslice := @Describes.slice _ _ _ hafter (alignedOvershoot offset) len (by omega)
  rw [hoff, Nat.sub_add_cancel hfudge] at hslice
  refine ⟨m', fd', ?_, hafter, hkeeps, fun hb => hafter.status (by omega)⟩
  simp only [hslide, Int.toNat_natCast, ← hslice]
  rfl

/-! ## Every sequence of calls -/

/-- **The window serves every sequence of requests**: each call returns the bytes of the
    file, zeros behind its end, and the status is set once such bytes were asked for. -/
theorem mapPtrs_right (garbage : ℕ → UInt8) {data : Bytes} {m : Window} {fd : MapFd} (h : Describes data m fd)
    {rs : List Request} (hfits : ∀ r ∈ rs, r.Fits) :
    ∃ m' fd', mapPtrs garbage m fd rs = .ok (rs.map (Request.bytes data), m', fd') ∧ Describes data m' fd' ∧
      (m.status ≠ 0 → m'.status ≠ 0) ∧ ((∃ r ∈ rs, r.Behind data) → m'.status ≠ 0) := by
  induction rs generalizing m fd with
  | nil => exact ⟨m, fd, rfl, h, id, by simp⟩
  | cons r rs ih =>
    obtain ⟨m₁, fd₁, hcall, hafter, hkeeps, hbehind⟩ := mapPtr_right garbage h (hfits r List.mem_cons_self)
    obtain ⟨m₂, fd₂, hrest, hlast, hkeeps₂, hbehind₂⟩ := ih hafter fun q hq => hfits q (List.mem_cons_of_mem r hq)
    refine ⟨m₂, fd₂, ?_, hlast, fun hs => hkeeps₂ (hkeeps hs), ?_⟩
    · simp only [mapPtrs, hcall, bind_ok, hrest, List.map_cons]
    · rintro ⟨q, hq, hb⟩
      rcases List.mem_cons.1 hq with rfl | hq
      · exact hkeeps₂ (hbehind hb)
      · exact hbehind₂ ⟨q, hq, hb⟩

/-- What the receiver reads through its own account of the window is what `map_ptr` returns. -/
theorem mapPtr_agrees (garbage : ℕ → UInt8) {data : Bytes} {m : Window} {fd : MapFd} (h : Describes data m fd)
    {w : MapStruct} (hw : w.Forall fun x b => b = zget data x) {r : Request} (hfits : r.Fits) :
    ∃ m' fd', mapPtr garbage m fd r.offset r.len =
      .ok ((CloudEdgeBackup.mapPtr data w r.offset r.len).1, m', fd') := by
  obtain ⟨m', fd', hcall, -⟩ := mapPtr_right garbage h hfits
  refine ⟨m', fd', ?_⟩
  rw [hcall, Request.bytes]
  split_ifs with hzero
  · rw [CloudEdgeBackup.mapPtr, if_pos hzero]
  · rw [(mapPtr_eq r.offset hzero hw).1]

/-- A file that is mapped and then asked for `rs`: no exit, the bytes of the file, books in
    order, and the status set after a request behind the end. -/
def Serves (garbage : ℕ → UInt8) (gives : ℕ → ℕ) (data : Bytes) (len readSize blkSize : ℤ)
    (rs : List Request) : Prop :=
  ∃ m fd, mapPtrs garbage (mapFile len readSize blkSize) (MapFd.open data gives) rs =
      .ok (rs.map (Request.bytes data), m, fd) ∧ Describes data m fd ∧
    ((∃ r ∈ rs, r.Behind data) → m.status ≠ 0)

end MapWindow

end CloudEdgeBackup
