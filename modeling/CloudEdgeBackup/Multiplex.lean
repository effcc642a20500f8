/-
  The multiplexed output stream (`io.c`).

  * a `Frame` is a message on the stream: four bytes with its code and its length,
    then its payload; `MSG_DATA` frames carry what `write_buf` was given;
  * `Outbound` are the two circular buffers behind the output descriptor, with the
    position of the header kept free for the next `MSG_DATA` frame and the end of the
    one being written.  `ioRound` is one pass of the loop of `perform_io` over them,
    with any number of bytes taken by `write`; `appendOut` and `appendMsg` are the
    copies of `write_buf` and `send_msg`;
  * `OutHolds`, `MsgHolds` say what the two buffers hold, at every byte position and
    for every size a header at their end leaves them.  Filling in a header, a copy and
    a write keep them (`OutHolds.startFlush`, `OutHolds.append`, `OutHolds.advance`,
    `MsgHolds.append`, `MsgHolds.advance`).
-/
import CloudEdgeBackup.Wire
import CloudEdgeBackup.Lib.CircularBuffers

namespace CloudEdgeBackup

open Zext Codec Circular

/-! ## Frames -/

/-- `enum msgcode` -/
inductive MsgCode
  | data | errorXfer | info | error | warning | errorSocket | log | client | errorUtf8 | redo
  | stats | ioError | ioTimeout | noop | errorExit | success | deleted | noSend
deriving DecidableEq

/-- The number of a code. -/
def MsgCode.num : MsgCode → ℕ
  | data => 0
  | errorXfer => 1
  | info => 2
  | error => 3
  | warning => 4
  | errorSocket => 5
  | log => 6
  | client => 7
  | errorUtf8 => 8
  | redo => 9
  | stats => 10
  | ioError => 22
  | ioTimeout => 33
  | noop => 42
  | errorExit => 86
  | success => 100
  | deleted => 101
  | noSend => 102

/-- `MPLEX_BASE` -/
def mplexBase : ℕ := 7

/-- The header of a message of `len` bytes. -/
def msgHeader (code : MsgCode) (len : ℕ) : Bytes :=
  sival ((mplexBase + code.num) * 2 ^ 24 + len : ℕ)

/-- A message on the stream. -/
structure Frame where
  code : MsgCode
  payload : Bytes
deriving DecidableEq

namespace Frame

def bytes (f : Frame) : Bytes := msgHeader f.code f.payload.length ++ f.payload

/-- The frames, one behind the other. -/
def encode (fs : List Frame) : Bytes := fs.flatMap bytes

/-- What the `MSG_DATA` frames carry. -/
def dataOf (fs : List Frame) : Bytes :=
  (fs.filter fun f => f.code = .data).flatMap payload

/-- The frames that are not `MSG_DATA`. -/
def messagesOf (fs : List Frame) : List Frame := fs.filter fun f => f.code ≠ .data

@[simp] theorem encode_append (fs gs : List Frame) : encode (fs ++ gs) = encode fs ++ encode gs :=
  List.flatMap_append

@[simp] theorem encode_singleton (f : Frame) : encode [f] = f.bytes := by simp [encode]

@[simp] theorem dataOf_append (fs gs : List Frame) : dataOf (fs ++ gs) = dataOf fs ++ dataOf gs := by
  simp [dataOf]

@[simp] theorem messagesOf_append (fs gs : List Frame) :
    messagesOf (fs ++ gs) = messagesOf fs ++ messagesOf gs := by
  simp [messagesOf]

end Frame

@[simp] theorem msgHeader_length (code : MsgCode) (len : ℕ) : (msgHeader code len).length = 4 :=
  sival_length _

/-! ## The output buffers -/

/-- `xbuf` -/
abbrev Xbuf := Buf UInt8

/-- The part of `iobuf` behind the output descriptor, and what the descriptor has taken;
    `out_empty_len` is `outEmptyLen` while the output is multiplexed. -/
structure Outbound where
  out : Xbuf
  msg : Xbuf
  rawDataHeaderPos : ℕ
  rawFlushingEndsBefore : ℕ
  sent : Bytes

/-- `iobuf.out_empty_len`: the room for the next `MSG_DATA` header. -/
def outEmptyLen : ℕ := 4

/-- What `perform_io` is called for. -/
inductive Need | input | outRoom | msgRoom
deriving DecidableEq

/-- The buffer an iteration writes from. -/
inductive Source | out | msg
deriving DecidableEq

def reduceIobufSize (b : Xbuf) (newSize : ℕ) : Xbuf :=
  if newSize < b.size then { b with size := newSize } else b

def restoreIobufSize (b : Xbuf) : Xbuf :=
  if b.size &&& 0xFF ≠ 0 then { b with size := (b.size ||| 0xFF) + 1 } else b

/-- `io_start_multiplex_out` on buffers of `outSize` and `msgSize` bytes that hold nothing. -/
def ioStartMultiplexOut (outBuf msgBuf : Bytes) : Outbound where
  out := ⟨outBuf, 0, outEmptyLen, outBuf.length⟩
  msg := ⟨msgBuf, 0, 0, msgBuf.length⟩
  rawDataHeaderPos := 0
  rawFlushingEndsBefore := 0
  sent := []

/-- The header of the data in the buffer is filled in, and room is made for the next one. -/
def startFlush (s : Outbound) : Outbound :=
  let ends := s.out.pos + s.out.len
  let out := { s.out with
    buf := overwrite s.out.buf s.rawDataHeaderPos (msgHeader .data (s.out.len - 4)) }
  let next :=
    if out.size ≤ ends then (out, ends - out.size)
    -- the header does not fit at the end of the buffer
    else if out.size < ends + 4 then (reduceIobufSize out ends, 0)
    else (out, ends)
  { s with
    out := { next.1 with len := next.1.len + 4 }
    rawDataHeaderPos := next.2
    rawFlushingEndsBefore := ends }

/-- The choice of a buffer to write from: the rest of a `MSG_DATA` frame first, then the
    messages, then the data. -/
def selectOut (need : Need) (s : Outbound) : Outbound × Option Source :=
  if s.rawFlushingEndsBefore ≠ 0 ∨ (s.msg.len = 0 ∧ outEmptyLen < s.out.len ∧ need ≠ .msgRoom) then
    (if s.rawFlushingEndsBefore = 0 then startFlush s else s, some .out)
  else if s.msg.len ≠ 0 then (s, some .msg)
  else (s, none)

/-- How many bytes are offered to `write`. -/
def writable (ends : ℕ) (b : Xbuf) : ℕ :=
  let len := if ends ≠ 0 then ends - b.pos else b.len
  if b.size < b.pos + len then b.size - b.pos else len

/-- The buffer and the end of the frame after `n` bytes of it were written. -/
def advanceBuf (emptyLen n ends : ℕ) (b : Xbuf) : Xbuf × ℕ :=
  let pos := b.pos + n
  let moved :=
    if pos = b.size then
      (restoreIobufSize { b with pos := 0 }, if ends ≠ 0 then ends - b.size else ends)
    else ({ b with pos := pos }, if pos = ends then 0 else ends)
  let b := { moved.1 with len := moved.1.len - n }
  (if b.len = emptyLen then restoreIobufSize { b with pos := 0 } else b, moved.2)

/-- `write` takes `n` bytes, or as many as it is offered. -/
def writeOut (n : ℕ) (s : Outbound) : Source → Outbound
  | .out =>
    let n := min n (writable s.rawFlushingEndsBefore s.out)
    let next := advanceBuf outEmptyLen n s.rawFlushingEndsBefore s.out
    { s with
      out := next.1
      rawFlushingEndsBefore := next.2
      rawDataHeaderPos := if s.out.len - n = outEmptyLen then 0 else s.rawDataHeaderPos
      sent := s.sent ++ zslice s.out.buf s.out.pos n }
  | .msg =>
    let n := min n (writable s.rawFlushingEndsBefore s.msg)
    let next := advanceBuf 0 n s.rawFlushingEndsBefore s.msg
    { s with
      msg := next.1
      rawFlushingEndsBefore := next.2
      sent := s.sent ++ zslice s.msg.buf s.msg.pos n }

/-- One pass of the loop of `perform_io` over the output. -/
def ioRound (need : Need) (n : ℕ) (s : Outbound) : Outbound :=
  match selectOut need s with
  | (s, some source) => writeOut n s source
  | (s, none) => s

/-- `memcpy` to the position behind the contents of `b`, split where the buffer ends. -/
def copyIn (b : Xbuf) (pos : ℕ) (bs : Bytes) : Bytes :=
  if b.pos ≤ pos ∧ b.size - pos < bs.length then
    overwrite (overwrite b.buf pos (bs.take (b.size - pos))) 0 (bs.drop (b.size - pos))
  else overwrite b.buf pos bs

/-- The copy of `write_buf`, when there is room. -/
def appendOut (bs : Bytes) (s : Outbound) : Outbound :=
  let pos := s.out.pos + s.out.len
  let pos := if s.out.size ≤ pos then pos - s.out.size else pos
  { s with out := { s.out with buf := copyIn s.out pos bs, len := s.out.len + bs.length } }

/-- The copy of `send_msg`, when there is room: the header, in one piece, and the message. -/
def appendMsg (f : Frame) (s : Outbound) : Outbound :=
  let pos := s.msg.pos + s.msg.len
  let next :=
    if s.msg.size ≤ pos then (s.msg, pos - s.msg.size)
    else if s.msg.size < pos + 4 then (reduceIobufSize s.msg pos, 0)
    else (s.msg, pos)
  let msg := next.1
  let body := if next.2 + 4 = msg.size then 0 else next.2 + 4
  { s with msg := { msg with
      buf := overwrite (copyIn msg body f.payload) next.2 (msgHeader f.code f.payload.length)
      len := msg.len + 4 + f.payload.length } }

/-! ## The sizes of the buffers -/

/-- The sizes the buffers are made with: nothing in the lowest byte, and less than what the
    length of a header can say. -/
structure BufferSize (n : ℕ) : Prop where
  low : n % 256 = 0
  pos : 0 < n
  lt : n < 2 ^ 24

theorem or_lowByte (n : ℕ) : n ||| 0xFF = n / 256 * 256 + 255 := by
  have hall : ∀ a < 256, a ||| 255 = 255 := by decide +kernel
  have hlow : (n ||| 255) % 256 = 255 := by
    have hmod := Nat.or_mod_two_pow (a := n) (b := 255) (n := 8)
    exact hmod.trans (hall _ (Nat.mod_lt _ (by decide)))
  have hhigh : (n ||| 255) / 256 = n / 256 := by
    have hdiv := Nat.or_div_two_pow (a := n) (b := 255) (n := 8)
    exact hdiv.trans (Nat.or_zero _)
  have hsplit := Nat.div_add_mod (n ||| 255) 256
  rw [hlow, hhigh] at hsplit
  omega

theorem restoreIobufSize_eq (b : Xbuf) : restoreIobufSize b =
    if b.size % 256 ≠ 0 then { b with size := b.size / 256 * 256 + 256 } else b := by
  have hand : b.size &&& 0xFF = b.size % 256 := Nat.and_two_pow_sub_one_eq_mod b.size 8
  rw [restoreIobufSize, hand, or_lowByte]

/-- A size that lost less than four bytes is the full one again. -/
theorem restoreIobufSize_size {b : Xbuf} {n : ℕ} (hn : BufferSize n) (hle : b.size ≤ n)
    (hge : n < b.size + 4) : restoreIobufSize b = { b with size := n } := by
  have hlow := hn.low
  rw [restoreIobufSize_eq]
  split_ifs with h
  · rw [show b.size / 256 * 256 + 256 = n by omega]
  · rw [show n = b.size by omega]

/-- The copy of a string that fits `k` cells behind the first one taken: it is only split where
    it goes past the end. -/
theorem copyIn_eq_store {b : Xbuf} {bs : Bytes} {k : ℕ} (hpos : b.pos < b.size)
    (hroom : k + bs.length ≤ b.size) :
    copyIn b (wrap b.size (b.pos + k)) bs = store b.buf b.size (wrap b.size (b.pos + k)) bs := by
  unfold copyIn store
  by_cases hle : b.pos ≤ wrap b.size (b.pos + k)
  · simp only [hle, true_and]
  · -- behind the wrap there is room before the first cell taken
    have hnosplit : ¬ b.size - wrap b.size (b.pos + k) < bs.length := by
      unfold wrap at hle ⊢
      split_ifs at hle ⊢ <;> omega
    rw [if_neg fun hand => hle hand.1, if_neg hnosplit]

theorem advanceBuf_end {b : Xbuf} {emptyLen n ends k : ℕ} (hn : BufferSize n) (hle : b.size ≤ n) (hge : n < b.size + 4)
    (hfit : b.pos + k = b.size) :
    advanceBuf emptyLen k ends b =
      ({ b with pos := 0, len := b.len - k, size := n }, ends - b.size) := by
  have hrestore : restoreIobufSize { b with pos := 0 } = { b with pos := 0, size := n } :=
    restoreIobufSize_size hn hle hge
  have hends : (if ends ≠ 0 then ends - b.size else ends) = ends - b.size := by
    split_ifs <;> omega
  unfold advanceBuf
  simp only [hfit, if_true, hends, hrestore]
  split_ifs
  · rw [restoreIobufSize_size hn le_rfl (by simp)]
  · rfl

theorem advanceBuf_inside {b : Xbuf} {emptyLen ends k : ℕ} (hfit : b.pos + k ≠ b.size) :
    advanceBuf emptyLen k ends b =
      (if b.len - k = emptyLen then restoreIobufSize { b with pos := 0, len := b.len - k }
        else { b with pos := b.pos + k, len := b.len - k }, if b.pos + k = ends then 0 else ends) := by
  unfold advanceBuf
  simp only [if_neg hfit]

/-! ## The output buffer -/

/-- The output buffer of `n` bytes while `frame` is the rest of the `MSG_DATA` frame being
    written, and `data` what was given since. -/
structure OutHolds (n : ℕ) (frame data : Bytes) (b : Xbuf) (header ends : ℕ) : Prop where
  buf_length : b.buf.length = n
  size_le : b.size ≤ n
  size_ge : n < b.size + 4
  pos_lt : b.pos < b.size
  len_eq : b.len = frame.length + 4 + data.length
  ends_eq : ends = if frame = [] then 0 else b.pos + frame.length
  header_eq : header = wrap b.size (b.pos + frame.length)
  header_fits : header + 4 ≤ b.size
  frame_le : frame.length ≤ b.size
  len_le : data ≠ [] → b.len ≤ b.size
  frame_eq : frame = cells b.buf b.size b.pos frame.length
  data_eq : data = cells b.buf b.size (wrap b.size (header + 4)) data.length
  /-- A shortened buffer ends with the frame. -/
  shortened : b.size < n → frame ≠ [] ∧ b.pos + frame.length = b.size

namespace OutHolds

variable {n header ends : ℕ} {frame data bs : Bytes} {b : Xbuf}

/-- The data begins four cells behind the frame. -/
theorem dataPos_eq (h : OutHolds n frame data b header ends) (hroom : frame.length + 4 ≤ b.size) :
    wrap b.size (header + 4) = wrap b.size (b.pos + (frame.length + 4)) := by
  have hfits := h.header_fits
  have hpos := h.pos_lt
  have hheader := h.header_eq
  unfold wrap at hheader ⊢
  split_ifs at hheader ⊢ <;> omega

/-- The copy of `write_buf`: it goes behind the data. -/
theorem append (h : OutHolds n frame data b header ends) (hroom : b.len + bs.length ≤ b.size) :
    OutHolds n frame (data ++ bs)
      { b with
        buf := copyIn b (if b.size ≤ b.pos + b.len then b.pos + b.len - b.size else b.pos + b.len) bs
        len := b.len + bs.length } header ends := by
  have hpos := h.pos_lt
  have hlen := h.len_eq
  have hfits := h.header_fits
  have hsize := h.size_le
  have htail : (if b.size ≤ b.pos + b.len then b.pos + b.len - b.size else b.pos + b.len) =
      wrap b.size (b.pos + b.len) := by
    unfold wrap
    split_ifs <;> omega
  have hdataPos := h.dataPos_eq (by omega)
  rw [htail, copyIn_eq_store hpos hroom]
  refine ⟨?_, h.size_le, h.size_ge, hpos, ?_, h.ends_eq, h.header_eq, hfits, h.frame_le,
    fun _ => hroom, ?_, ?_, h.shortened⟩
  · have hstore : (store b.buf b.size (wrap b.size (b.pos + b.len)) bs).length = b.buf.length :=
      store_length (wrap_lt (by omega)) (by omega) (by rw [h.buf_length]; exact hsize)
    exact hstore.trans h.buf_length
  · simp only [List.length_append]
    omega
  · change frame = cells (store b.buf b.size (wrap b.size (b.pos + b.len)) bs) b.size b.pos _
    rw [cells_store_other hpos (by omega) hroom]
    exact h.frame_eq
  · change data ++ bs = cells (store b.buf b.size (wrap b.size (b.pos + b.len)) bs) b.size
      (wrap b.size (header + 4)) (data ++ bs).length
    have hstart : wrap b.size (header + 4) < b.size := wrap_lt (by omega)
    have hbehind : wrap b.size (b.pos + b.len) =
        wrap b.size (wrap b.size (header + 4) + data.length) := by
      rw [hdataPos, wrap_wrap_add (by omega)]
      congr 1
      omega
    rw [List.length_append, cells_add (by omega), hbehind,
      cells_store_other hstart le_rfl (by omega),
      cells_store_self (wrap_lt (by omega)) (by omega), ← h.data_eq]

/-- The header of the data is filled in: the data are the frame now. -/
theorem startFlush {s : Outbound} (hn : BufferSize n)
    (h : OutHolds n [] data s.out s.rawDataHeaderPos s.rawFlushingEndsBefore) (hdata : data ≠ []) :
    OutHolds n (msgHeader .data data.length ++ data) [] (startFlush s).out
      (startFlush s).rawDataHeaderPos (startFlush s).rawFlushingEndsBefore := by
  have hpos := h.pos_lt
  have hge := h.size_ge
  have hle := h.size_le
  have hlow := hn.low
  have hnpos := hn.pos
  have hlen : s.out.len = 4 + data.length := by simpa using h.len_eq
  have hroom := h.len_le hdata
  have hheader : s.rawDataHeaderPos = s.out.pos := by
    rw [h.header_eq, List.length_nil, Nat.add_zero, wrap_of_lt hpos]
  have hfits : s.out.pos + 4 ≤ s.out.size := hheader ▸ h.header_fits
  have hsize : s.out.size = n := by
    have hfull : ¬ s.out.size < n := fun hlt => (h.shortened hlt).1 rfl
    omega
  set frame := msgHeader .data data.length ++ data with hframe
  have hframeLen : frame.length = s.out.len := by
    rw [hframe, List.length_append, msgHeader_length, hlen]
  have hne : frame ≠ [] := fun hnil => by
    rw [hnil, List.length_nil] at hframeLen
    omega
  set mem := overwrite s.out.buf s.rawDataHeaderPos (msgHeader .data (s.out.len - 4)) with hmem
  have hmemLen : mem.length = n := by
    rw [hmem, overwrite_length, msgHeader_length, h.buf_length, hheader]
    omega
  -- the cells of the frame: the header just filled in, and the data behind it
  have hcells : frame = cells mem s.out.size s.out.pos frame.length := by
    have hstore : mem = store s.out.buf s.out.size s.out.pos (msgHeader .data data.length) := by
      rw [hmem, hheader, store_eq_overwrite (by simpa using hfits), hlen, Nat.add_sub_cancel_left]
    have hround : wrap s.out.size (wrap s.out.size (s.out.pos + 4) + (s.out.size - 4)) =
        s.out.pos := by
      unfold wrap
      split_ifs <;> omega
    have hbehind : cells mem s.out.size (wrap s.out.size (s.out.pos + 4)) data.length = data := by
      have hother : cells (store s.out.buf s.out.size
          (wrap s.out.size (wrap s.out.size (s.out.pos + 4) + (s.out.size - 4)))
          (msgHeader .data data.length)) s.out.size (wrap s.out.size (s.out.pos + 4)) data.length =
            cells s.out.buf s.out.size (wrap s.out.size (s.out.pos + 4)) data.length :=
        cells_store_other (wrap_lt (by omega)) (by omega) (by rw [msgHeader_length]; omega)
      rw [hround, ← hstore] at hother
      rw [hother, ← hheader]
      exact h.data_eq.symm
    have hfront : cells mem s.out.size s.out.pos 4 = msgHeader .data data.length := by
      have hself : cells (store s.out.buf s.out.size s.out.pos (msgHeader .data data.length))
          s.out.size s.out.pos (msgHeader .data data.length).length = msgHeader .data data.length :=
        cells_store_self hpos (by rw [msgHeader_length]; omega)
      rwa [← hstore, msgHeader_length] at hself
    rw [hframeLen, hlen, cells_add (by omega), hfront, hbehind]
  have hends : s.out.pos + s.out.len = s.out.pos + frame.length := by rw [hframeLen]
  have hframeLe : frame.length ≤ s.out.size := by omega
  unfold CloudEdgeBackup.startFlush
  simp only [← hmem]
  rw [hends]
  split_ifs with hwrap hshort
  · -- the next header goes behind the end of the frame, past the end of the buffer
    refine ⟨hmemLen, hle, hge, hpos, by simp [hframeLen], by rw [if_neg hne], ?_, ?_, hframeLe,
      fun hnil => absurd rfl hnil, hcells, rfl, fun hlt => absurd hsize hlt.ne⟩
    · exact (wrap_of_le hwrap).symm
    · show s.out.pos + frame.length - s.out.size + 4 ≤ s.out.size
      omega
  · rw [reduceIobufSize, if_pos (by show s.out.pos + frame.length < s.out.size; omega)]
    refine ⟨hmemLen, ?_, ?_, ?_, by simp [hframeLen], by rw [if_neg hne], ?_, ?_, ?_,
      fun hnil => absurd rfl hnil, ?_, rfl, fun _ => ⟨hne, rfl⟩⟩
    · show s.out.pos + frame.length ≤ n
      omega
    · show n < s.out.pos + frame.length + 4
      omega
    · show s.out.pos < s.out.pos + frame.length
      omega
    · exact (wrap_self _).symm
    · show 0 + 4 ≤ s.out.pos + frame.length
      omega
    · show frame.length ≤ s.out.pos + frame.length
      omega
    · show frame = cells mem (s.out.pos + frame.length) s.out.pos frame.length
      rw [cells_resize le_rfl (not_le.1 hwrap).le]
      exact hcells
  · refine ⟨hmemLen, hle, hge, hpos, by simp [hframeLen], by rw [if_neg hne], ?_, ?_, hframeLe,
      fun hnil => absurd rfl hnil, hcells, rfl, fun hlt => absurd hsize hlt.ne⟩
    · exact (wrap_of_lt (not_le.1 hwrap)).symm
    · show s.out.pos + frame.length + 4 ≤ s.out.size
      omega

/-- A buffer that holds the room for a header alone. -/
theorem blank {b : Xbuf} (hn : BufferSize n) (hbuf : b.buf.length = n) (hsize : b.size = n)
    (hpos : b.pos = 0) (hlen : b.len = 4) : OutHolds n [] [] b 0 0 := by
  have hlow := hn.low
  have hnpos := hn.pos
  exact ⟨hbuf, by omega, by omega, by omega, by simp [hlen], rfl,
    by rw [hpos, wrap_of_lt (by simpa using by omega)]; rfl, by omega, by simp,
    fun hne => absurd rfl hne, rfl, rfl, fun hlt => by omega⟩

/-- What is written are the first bytes of the frame. -/
theorem zslice_eq (h : OutHolds n frame data b header ends) {k : ℕ} (hk : k ≤ frame.length)
    (hfit : b.pos + k ≤ b.size) : zslice b.buf b.pos k = frame.take k := by
  have hpos := h.pos_lt
  have hle := h.frame_le
  rw [h.frame_eq, take_cells (by omega) hk, cells_eq_zslice hfit]

theorem drop_frame_eq (h : OutHolds n frame data b header ends) {k : ℕ} (hk : k ≤ frame.length) :
    frame.drop k = cells b.buf b.size (wrap b.size (b.pos + k)) (frame.length - k) := by
  have hpos := h.pos_lt
  have hle := h.frame_le
  conv_lhs => rw [h.frame_eq]
  exact drop_cells (by omega) hk

/-- The frame is written up to the end of the buffer, and goes on at its start. -/
theorem advance_wrap (h : OutHolds n frame data b header ends)
    (hframe : frame ≠ []) {k : ℕ} (hk : k ≤ frame.length) (hfit : b.pos + k = b.size) :
    OutHolds n (frame.drop k) data { b with pos := 0, len := b.len - k, size := n }
      (if b.len - k = outEmptyLen then 0 else header) (ends - b.size) := by
  have hlen := h.len_eq
  have hle := h.size_le
  have hge := h.size_ge
  have hpos := h.pos_lt
  have hframeLe := h.frame_le
  have hends := h.ends_eq
  have hheader := h.header_eq
  have hfits := h.header_fits
  rw [if_neg hframe] at hends
  rw [wrap_of_le (by omega)] at hheader
  have hrest : (frame.drop k).length = frame.length - k := List.length_drop
  have hshort : b.size < n → k = frame.length := fun hlt => by
    have hshort := (h.shortened hlt).2
    omega
  have hheader' : (if b.len - k = outEmptyLen then 0 else header) = frame.length - k := by
    rw [outEmptyLen]
    split_ifs <;> omega
  rw [hheader']
  refine ⟨h.buf_length, le_rfl, by simp, by show 0 < n; omega, ?_, ?_, ?_, ?_, ?_, ?_, ?_, ?_,
    fun hlt => absurd hlt (lt_irrefl n)⟩
  · show b.len - k = (frame.drop k).length + 4 + data.length
    omega
  · show ends - b.size = if frame.drop k = [] then 0 else 0 + (frame.drop k).length
    split_ifs with hnil
    · rw [hnil, List.length_nil] at hrest
      omega
    · omega
  · show frame.length - k = wrap n (0 + (frame.drop k).length)
    rw [wrap_of_lt (by omega)]
    omega
  · show frame.length - k + 4 ≤ n
    omega
  · show (frame.drop k).length ≤ n
    omega
  · intro hdata
    show b.len - k ≤ n
    have hroom := h.len_le hdata
    omega
  · show frame.drop k = cells b.buf n 0 (frame.drop k).length
    have hsame : cells b.buf b.size 0 (frame.length - k) = cells b.buf n 0 (frame.length - k) :=
      cells_resize (by omega) (by omega)
    rw [h.drop_frame_eq hk, cells_length, hfit, wrap_self, hsame]
  · show data = cells b.buf n (wrap n (frame.length - k + 4)) data.length
    have hdata := h.data_eq
    rcases hle.lt_or_eq with hlt | heq
    · -- the buffer was shortened: the data begin behind the header at its start
      have hk' := hshort hlt
      have hheader0 : header = 0 := by omega
      rcases eq_or_ne data [] with hnil | hdataNe
      · rw [hnil]
        rfl
      · have hroom := h.len_le hdataNe
        have hdataPos : 0 < data.length := List.length_pos_iff.2 hdataNe
        rw [hheader0, wrap_of_lt (by omega)] at hdata
        rw [hk', Nat.sub_self, wrap_of_lt (by omega)]
        exact hdata.trans (cells_resize (by omega) (by omega))
    · rw [← heq]
      rw [hheader] at hdata
      rw [show frame.length - k + 4 = b.pos + frame.length - b.size + 4 by omega]
      exact hdata

/-- **Some bytes of the frame were written**: the rest of it is the frame now. -/
theorem advance (hn : BufferSize n) (h : OutHolds n frame data b header ends)
    (hframe : frame ≠ []) {k : ℕ} (hk : k ≤ frame.length) (hfit : b.pos + k ≤ b.size) :
    OutHolds n (frame.drop k) data (advanceBuf outEmptyLen k ends b).1
      (if b.len - k = outEmptyLen then 0 else header)
      (advanceBuf outEmptyLen k ends b).2 := by
  have hlen := h.len_eq
  have hpos := h.pos_lt
  have hends := h.ends_eq
  have hframePos := List.length_pos_iff.2 hframe
  rw [if_neg hframe] at hends
  rcases hfit.eq_or_lt with heq | hlt
  · rw [advanceBuf_end hn h.size_le h.size_ge heq]
    exact h.advance_wrap hframe hk heq
  rw [advanceBuf_inside hlt.ne]
  by_cases hempty : b.len - k = outEmptyLen
  · -- the frame is out, and no data came since
    have hall : k = frame.length ∧ data.length = 0 := by
      rw [outEmptyLen] at hempty
      omega
    obtain ⟨rfl, hdata⟩ := hall
    rw [List.length_eq_zero_iff.1 hdata, List.drop_length, if_pos hempty, if_pos hempty,
      if_pos hends.symm]
    have hrestore : restoreIobufSize { b with pos := 0, len := b.len - frame.length } =
        { b with pos := 0, len := b.len - frame.length, size := n } :=
      restoreIobufSize_size hn h.size_le h.size_ge
    rw [hrestore]
    exact blank hn h.buf_length rfl rfl hempty
  rw [if_neg hempty, if_neg hempty]
  have hrest : (frame.drop k).length = frame.length - k := List.length_drop
  have hend : b.pos + k + (frame.drop k).length = b.pos + frame.length := by omega
  refine ⟨h.buf_length, h.size_le, h.size_ge, hlt, ?_, ?_, ?_, h.header_fits, ?_, ?_, ?_,
    h.data_eq, ?_⟩
  · show b.len - k = (frame.drop k).length + 4 + data.length
    omega
  · show (if b.pos + k = ends then 0 else ends) =
      if frame.drop k = [] then 0 else b.pos + k + (frame.drop k).length
    have hiff : b.pos + k = ends ↔ frame.drop k = [] := by
      rw [List.drop_eq_nil_iff, hends]
      omega
    rw [if_congr hiff rfl rfl, hend, hends]
  · show header = wrap b.size (b.pos + k + (frame.drop k).length)
    rw [hend]
    exact h.header_eq
  · exact hrest.trans_le ((Nat.sub_le ..).trans h.frame_le)
  · intro hdata
    exact (Nat.sub_le ..).trans (h.len_le hdata)
  · show frame.drop k = cells b.buf b.size (b.pos + k) (frame.drop k).length
    rw [h.drop_frame_eq hk, cells_length, wrap_of_lt hlt]
  · intro hshort
    obtain ⟨-, hend'⟩ := h.shortened hshort
    refine ⟨fun hnil => ?_, hend.trans hend'⟩
    rw [List.drop_eq_nil_iff] at hnil
    omega

end OutHolds

/-! ## The message buffer -/

/-- The message buffer of `n` bytes, while `msgs` is what is left of the messages in it. -/
structure MsgHolds (n : ℕ) (msgs : Bytes) (b : Xbuf) : Prop where
  buf_length : b.buf.length = n
  size_le : b.size ≤ n
  size_ge : n < b.size + 4
  pos_lt : b.pos < b.size
  len_le : b.len ≤ b.size
  empty_pos : b.len = 0 → b.pos = 0
  contents_eq : b.contents = msgs
  /-- The contents of a shortened buffer go on at its start. -/
  shortened : b.size < n → b.size ≤ b.pos + b.len

namespace MsgHolds

variable {n : ℕ} {msgs : Bytes} {b : Xbuf}

theorem len_eq (h : MsgHolds n msgs b) : b.len = msgs.length := by
  rw [← h.contents_eq, Buf.contents_length]

theorem ok (h : MsgHolds n msgs b) : b.Ok := ⟨h.pos_lt, h.len_le, h.size_le.trans h.buf_length.ge⟩

/-- A message behind the contents that end at `b.tail`, with room for its header there. -/
theorem put (h : MsgHolds n msgs b) {header payload : Bytes} (hheader : header.length = 4)
    (hroom : b.len + (4 + payload.length) ≤ b.size) (hfits : b.tail + 4 ≤ b.size) :
    MsgHolds n (msgs ++ (header ++ payload))
      { b with
        buf := overwrite (copyIn b (if b.tail + 4 = b.size then 0 else b.tail + 4) payload) b.tail
          header
        len := b.len + 4 + payload.length } := by
  have hpos := h.pos_lt
  have htail : b.tail = wrap b.size (b.pos + b.len) := rfl
  have hbody : (if b.tail + 4 = b.size then 0 else b.tail + 4) = wrap b.size (b.pos + (b.len + 4)) := by
    unfold wrap at htail ⊢
    split_ifs at htail ⊢ <;> omega
  have hround : b.tail = wrap b.size (wrap b.size (b.pos + (b.len + 4)) + (b.size - 4)) := by
    rw [← hbody]
    unfold wrap
    split_ifs <;> omega
  rw [hbody, copyIn_eq_store hpos (by omega)]
  set mem := store b.buf b.size (wrap b.size (b.pos + (b.len + 4))) payload with hmem
  have hput : overwrite mem b.tail header = store mem b.size b.tail header :=
    (store_eq_overwrite (by omega)).symm
  rw [hput]
  have hmemLen : mem.length = b.buf.length :=
    store_length (wrap_lt (by omega)) (by omega) (h.size_le.trans h.buf_length.ge)
  have hstoreLen : (store mem b.size b.tail header).length = mem.length :=
    store_length (by omega) (by omega) (by rw [hmemLen]; exact h.size_le.trans h.buf_length.ge)
  refine ⟨hstoreLen.trans (hmemLen.trans h.buf_length), h.size_le, h.size_ge, hpos,
    by show b.len + 4 + payload.length ≤ b.size; omega,
    fun hnil => absurd hnil (by show b.len + 4 + payload.length ≠ 0; omega), ?_, fun hlt => ?_⟩
  · show cells (store mem b.size b.tail header) b.size b.pos (b.len + 4 + payload.length) = _
    have hold : cells (store mem b.size b.tail header) b.size b.pos b.len = msgs := by
      rw [htail, cells_store_other hpos le_rfl (by omega), hmem,
        cells_store_other hpos (by omega) (by omega)]
      exact h.contents_eq
    have hfront : cells (store mem b.size b.tail header) b.size b.tail 4 = header := by
      rw [← hheader]
      exact cells_store_self (by omega) (by omega)
    have hbehind : cells (store mem b.size b.tail header) b.size
        (wrap b.size (b.pos + (b.len + 4))) payload.length = payload := by
      nth_rewrite 1 [hround]
      rw [cells_store_other (wrap_lt (by omega)) (by omega) (by omega), hmem]
      exact cells_store_self (wrap_lt (by omega)) (by omega)
    rw [Nat.add_assoc, cells_add (by omega), hold, ← htail, cells_add (by omega), hfront, htail,
      wrap_wrap_add (by omega), Nat.add_assoc, ← htail, hbehind]
  · have hshort := h.shortened hlt
    show b.size ≤ b.pos + (b.len + 4 + payload.length)
    omega

/-- **The copy of `send_msg`**: the header in one piece, at the start when it does not fit at
    the end. -/
theorem append {s : Outbound} (h : MsgHolds n msgs s.msg) {f : Frame}
    (hroom : s.msg.len + (f.payload.length + 4 + 3) ≤ s.msg.size) :
    MsgHolds n (msgs ++ f.bytes) (appendMsg f s).msg := by
  have hpos := h.pos_lt
  have hge := h.size_ge
  have hle := h.size_le
  have htail : s.msg.tail = wrap s.msg.size (s.msg.pos + s.msg.len) := rfl
  unfold appendMsg
  dsimp only
  by_cases hwrap : s.msg.size ≤ s.msg.pos + s.msg.len
  · rw [wrap_of_le hwrap] at htail
    rw [if_pos hwrap, ← htail]
    exact h.put (msgHeader_length _ _) (by omega) (by omega)
  rw [if_neg hwrap]
  by_cases hshort : s.msg.size < s.msg.pos + s.msg.len + 4
  · -- the cells behind the contents are given up
    have hfull : ¬ s.msg.size < n := fun hlt => hwrap (h.shortened hlt)
    have hlen : s.msg.len ≠ 0 := fun hnil => by
      have hstart := h.empty_pos hnil
      omega
    have hreduced : MsgHolds n msgs s.msg.shorten :=
      ⟨h.buf_length, by show s.msg.pos + s.msg.len ≤ n; omega,
        by show n < s.msg.pos + s.msg.len + 4; omega,
        by show s.msg.pos < s.msg.pos + s.msg.len; omega,
        by show s.msg.len ≤ s.msg.pos + s.msg.len; omega, h.empty_pos,
        (Buf.contents_shorten (not_le.1 hwrap).le).trans h.contents_eq, fun _ => le_rfl⟩
    have htail0 : s.msg.shorten.tail = 0 := wrap_self _
    have hput := hreduced.put (msgHeader_length f.code f.payload.length)
      (by show s.msg.len + (4 + f.payload.length) ≤ s.msg.pos + s.msg.len; omega)
      (by rw [htail0]; show 0 + 4 ≤ s.msg.pos + s.msg.len; omega)
    rw [htail0] at hput
    rw [if_pos hshort, reduceIobufSize, if_pos (not_le.1 hwrap)]
    exact hput
  · rw [wrap_of_lt (not_le.1 hwrap)] at htail
    rw [if_neg hshort, ← htail]
    exact h.put (msgHeader_length _ _) (by omega) (by omega)

/-- What is written are the first bytes of the messages. -/
theorem zslice_eq (h : MsgHolds n msgs b) {k : ℕ} (hk : k ≤ b.len) (hfit : b.pos + k ≤ b.size) :
    zslice b.buf b.pos k = msgs.take k := by
  have hpos := h.pos_lt
  have hle := h.len_le
  rw [← h.contents_eq, Buf.contents, take_cells (by omega) hk, cells_eq_zslice hfit]

/-- **Some bytes of the messages were written.** -/
theorem advance (hn : BufferSize n) (h : MsgHolds n msgs b) {k : ℕ} (hk : k ≤ b.len)
    (hfit : b.pos + k ≤ b.size) :
    MsgHolds n (msgs.drop k) (advanceBuf 0 k 0 b).1 ∧
      (advanceBuf 0 k 0 b).2 = 0 := by
  have hnpos := hn.pos
  have hlen := h.len_le
  have hpop := Buf.contents_pop h.ok hk
  rw [h.contents_eq] at hpop
  rcases hfit.eq_or_lt with heq | hlt
  · rw [advanceBuf_end hn h.size_le h.size_ge heq]
    refine ⟨⟨h.buf_length, le_rfl, by simp, hnpos, ?_, fun _ => rfl, ?_,
      fun hlt => absurd hlt (lt_irrefl n)⟩, Nat.zero_sub _⟩
    · exact (Nat.sub_le ..).trans (hlen.trans h.size_le)
    · have hstart : (b.pop k).pos = 0 := by
        show wrap b.size (b.pos + k) = 0
        rw [heq, wrap_self]
      have hlengthen : ((b.pop k).lengthen n).contents = (b.pop k).contents := by
        refine Buf.contents_lengthen ?_ h.size_le
        rw [hstart, Nat.zero_add]
        exact (Nat.sub_le ..).trans hlen
      rw [← hpop, ← hlengthen]
      show cells b.buf n 0 (b.len - k) = cells b.buf n (b.pop k).pos (b.len - k)
      rw [hstart]
  rw [advanceBuf_inside hlt.ne]
  refine ⟨?_, ite_self _⟩
  by_cases hempty : b.len - k = 0
  · have hrestore : restoreIobufSize { b with pos := 0, len := b.len - k } =
        { b with pos := 0, len := b.len - k, size := n } :=
      restoreIobufSize_size hn h.size_le h.size_ge
    have hnil : msgs.drop k = [] := by
      rw [List.drop_eq_nil_iff, ← h.len_eq]
      omega
    rw [if_pos hempty, hrestore, hempty, hnil]
    exact ⟨h.buf_length, le_rfl, by simp, hnpos, Nat.zero_le _, fun _ => rfl, rfl,
      fun hlt => absurd hlt (lt_irrefl n)⟩
  · rw [if_neg hempty]
    refine ⟨h.buf_length, h.size_le, h.size_ge, hlt, (Nat.sub_le ..).trans hlen,
      fun hnil => absurd hnil hempty, ?_, fun hshort => ?_⟩
    · rw [← hpop]
      show _ = cells b.buf b.size (wrap b.size (b.pos + k)) (b.len - k)
      rw [wrap_of_lt hlt]
      rfl
    · have hend := h.shortened hshort
      show b.size ≤ b.pos + k + (b.len - k)
      omega

end MsgHolds

end CloudEdgeBackup
