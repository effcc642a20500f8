/-
  The multiplexed input stream (`io.c`).

  * `Inbound` is the circular buffer behind the input descriptor, with the end of the
    `MSG_DATA` frame being read.  `performIn` waits for bytes, `rawReadBuf` takes them,
    `readAMsg` reads the header of the next frame and handles a message, `readBuf` takes
    the data out of the `MSG_DATA` frames;
  * `Inbound.view` are the bytes ahead, in the buffer and still with the descriptor, and
    `Inbound.pending` how many of them belong to the frame being read.  Neither depends on
    where the buffer wraps (`rawReadBuf_spec`);
  * `Reading` says that what was taken and what is ahead are together the frames of the
    sender.  Every call keeps it, whatever the reads return, so the data come out and
    the messages are handled in the order of the stream (`demultiplexed`);
  * behind a sender of `MultiplexRuns` the data are those given to `write_buf`
    (`multiplexed_arrives`).
-/
import CloudEdgeBackup.MultiplexRuns

namespace CloudEdgeBackup

open Zext Codec Circular

/-! ## The input buffer -/

/-- What happened to the input: a byte was returned by `read_buf`, or a message handled. -/
inductive InEvent
  | data (b : UInt8)
  | message (f : Frame)
deriving DecidableEq

/-- The part of `iobuf` behind the input descriptor.  `wire` is what the descriptor has still
    to give, `reads` how many bytes the next calls of `read` give of it at most. -/
structure Inbound where
  input : Xbuf
  rawInputEndsBefore : ℕ
  wire : Bytes
  reads : List ℕ
  log : List InEvent

/-- Why a call does not return. -/
inductive Stop | waiting | protocolError | streamError | assertion | exited
deriving DecidableEq

/-- `BIGPATHBUFLEN` -/
def bigPathBufLen : ℕ := 4096 + 1024

/-- An empty buffer is used from its start on. -/
def rewindInput (s : Inbound) : Inbound :=
  if s.input.len = 0 ∧ s.input.pos ≠ 0 then
    { s with
      rawInputEndsBefore :=
        if s.rawInputEndsBefore ≠ 0 then s.rawInputEndsBefore - s.input.pos
        else s.rawInputEndsBefore
      input := { s.input with pos := 0 } }
  else s

/-- One `read`, into the cells behind the contents as far as they go on. -/
def readInput (k : ℕ) (s : Inbound) : Inbound :=
  let pos := s.input.pos + s.input.len
  let next :=
    if s.input.size ≤ pos then (pos - s.input.size, s.input.size - s.input.len)
    else (pos, s.input.size - pos)
  let got := s.wire.take (min k next.2)
  { s with
    input := { s.input with
      buf := overwrite s.input.buf next.1 got, len := s.input.len + got.length }
    wire := s.wire.drop got.length }

/-- The loop of `perform_io` for input. -/
def fillInput (needed : ℕ) : List ℕ → Inbound → Inbound × Bool
  | [], s => ({ s with reads := [] }, needed ≤ s.input.len)
  | k :: ks, s =>
    if needed ≤ s.input.len then ({ s with reads := k :: ks }, true)
    else fillInput needed ks (readInput k s)

/-- `PIO_CONSUME_INPUT` -/
def consumeInput (needed : ℕ) (s : Inbound) : Inbound :=
  let pos := s.input.pos + needed
  let ends := if pos = s.rawInputEndsBefore then 0 else s.rawInputEndsBefore
  let next :=
    if s.input.size ≤ pos then
      (pos - s.input.size, if ends ≠ 0 then ends - s.input.size else ends)
    else (pos, ends)
  { s with
    input := { s.input with pos := next.1, len := s.input.len - needed }
    rawInputEndsBefore := next.2 }

/-- `perform_io(needed, PIO_INPUT_AND_CONSUME)`: the position of the bytes. -/
def performIn (needed : ℕ) (s : Inbound) : Inbound × Except Stop ℕ :=
  let s := rewindInput s
  if s.input.size < needed then (s, .error .protocolError)
  else match fillInput needed s.reads s with
    | (s, true) => (consumeInput needed s, .ok s.input.pos)
    | (s, false) => (s, .error .waiting)

def rawReadBuf (len : ℕ) (s : Inbound) : Inbound × Except Stop Bytes :=
  let pos := s.input.pos
  match performIn len s with
  | (s, .ok data) =>
    if s.input.pos ≤ pos ∧ len ≠ 0 then
      let siz := len - s.input.pos
      (s, .ok (zslice s.input.buf data siz ++ zslice s.input.buf 0 s.input.pos))
    else (s, .ok (zslice s.input.buf data len))
  | (s, .error e) => (s, .error e)

/-- The four bytes of `raw_read_int`, which takes them in place where the buffer does not end
    between them. -/
def rawReadInt (s : Inbound) : Inbound × Except Stop Bytes :=
  if 4 ≤ s.input.size - s.input.pos then
    match performIn 4 s with
    | (s, .ok data) => (s, .ok (zslice s.input.buf data 4))
    | (s, .error e) => (s, .error e)
  else rawReadBuf 4 s

/-! ## Messages -/

/-- The process that reads. -/
structure Role where
  amSender : Bool
  amServer : Bool
  amGenerator : Bool

/-- All codes. -/
def MsgCode.all : List MsgCode :=
  [data, errorXfer, info, error, warning, errorSocket, log, client, errorUtf8, redo, stats,
    ioError, ioTimeout, noop, errorExit, success, deleted, noSend]

/-- The code with a number. -/
def MsgCode.ofNum? (n : ℤ) : Option MsgCode := MsgCode.all.find? fun c => (c.num : ℤ) = n

/-- The messages `read_a_msg` takes, by their code and length; it exits on the others. -/
def msgAccepted (role : Role) (len : ℕ) : MsgCode → Bool
  | .data => true
  | .stats => len = 8 && role.amGenerator
  | .redo => len = 4 && role.amGenerator
  | .ioError | .success | .noSend => len = 4
  | .ioTimeout => len = 4 && !role.amServer && !role.amGenerator
  | .noop => len = 0
  | .deleted => len < bigPathBufLen
  | .errorSocket | .errorUtf8 | .client | .log => role.amGenerator && len < bigPathBufLen
  | .info | .error | .errorXfer | .warning => len < bigPathBufLen
  | .errorExit => len = 4 || len = 0

/-- Whether the payload is read as a number. -/
def MsgCode.isInt : MsgCode → Bool
  | redo | ioError | ioTimeout | success | noSend => true
  | _ => false

/-- The payload of a message. -/
def readPayload (code : MsgCode) (len : ℕ) (s : Inbound) : Inbound × Except Stop Bytes :=
  if code.isInt then rawReadInt s
  else if code = .noop then (s, .ok [])
  else if code = .errorExit then if len = 4 then rawReadInt s else (s, .ok [])
  else rawReadBuf len s

/-- What `read_a_msg` does with a message of a code and a length.  A message is handled with its
    payload; what is done with it is not modelled. -/
def handleMsg (role : Role) (code : MsgCode) (msgBytes : ℕ) (s : Inbound) :
    Inbound × Except Stop Unit :=
  if code = .data then
    if s.rawInputEndsBefore ≠ 0 then (s, .error .assertion)
    else
      ({ s with rawInputEndsBefore :=
          if msgBytes ≠ 0 then s.input.pos + msgBytes else s.rawInputEndsBefore }, .ok ())
  else if !msgAccepted role msgBytes code then (s, .error .streamError)
  else match readPayload code msgBytes s with
    | (s, .error e) => (s, .error e)
    | (s, .ok payload) =>
      ({ s with log := s.log ++ [.message ⟨code, payload⟩] },
        if code = .errorExit then .error .exited else .ok ())

/-- The code and the length in a header. -/
def splitTag (tag : ℤ) : Option MsgCode × ℕ :=
  (MsgCode.ofNum? (tag / 2 ^ 24 - mplexBase), (tag % 2 ^ 24).toNat)

/-- What `read_a_msg` does behind a header. -/
def handleTag (role : Role) (tag : Option MsgCode × ℕ) (s : Inbound) :
    Inbound × Except Stop Unit :=
  match tag with
  | (none, _) => (s, .error .streamError)
  | (some code, msgBytes) => handleMsg role code msgBytes s

def readAMsg (role : Role) (s : Inbound) : Inbound × Except Stop Unit :=
  match rawReadInt s with
  | (s, .error e) => (s, .error e)
  | (s, .ok header) => handleTag role (splitTag (int32 (leValue header))) s

/-- The loop of `read_buf` over multiplexed input; each pass reads a message or some data. -/
def readBufLoop (role : Role) : ℕ → ℕ → Inbound → Inbound × Except Stop Bytes
  | 0, _, s => (s, .error .waiting)
  | fuel + 1, len, s =>
    if s.rawInputEndsBefore = 0 then
      match readAMsg role s with
      | (s, .ok ()) => readBufLoop role fuel len s
      | (s, .error e) => (s, .error e)
    else
      let siz := min len (s.rawInputEndsBefore - s.input.pos)
      let siz := if s.input.size ≤ siz then s.input.size else siz
      match rawReadBuf siz s with
      | (s, .error e) => (s, .error e)
      | (s, .ok bs) =>
        let s := { s with log := s.log ++ bs.map .data }
        if len - siz = 0 then (s, .ok bs)
        else match readBufLoop role fuel (len - siz) s with
          | (s, .ok rest) => (s, .ok (bs ++ rest))
          | (s, .error e) => (s, .error e)

/-- `read_buf`; every pass takes a byte at least. -/
def readBuf (role : Role) (len : ℕ) (s : Inbound) : Inbound × Except Stop Bytes :=
  readBufLoop role (s.input.len + s.wire.length + 1) len s

/-- What is done to the input: `read_buf`, and by `perform_io` while it writes and by
    `wait_for_receiver` a call of `read_a_msg` between two frames; while it writes, `perform_io`
    also reads what there is. -/
inductive InCall
  | readBuf (len : ℕ)
  | readAMsg
  | read (k : ℕ)

def inCall (role : Role) (s : Inbound) : InCall → Inbound × Except Stop Bytes
  | .readBuf len => readBuf role len s
  | .readAMsg =>
    if s.rawInputEndsBefore = 0 then
      let r := readAMsg role s
      (r.1, r.2.map fun _ => [])
    else (s, .ok [])
  | .read k => (readInput k (rewindInput s), .ok [])

/-- The calls one after the other, up to one that does not return, with what they return. -/
def inCalls (role : Role) : List InCall → Inbound → Inbound × Except Stop (List Bytes)
  | [], s => (s, .ok [])
  | c :: cs, s =>
    match inCall role s c with
    | (s, .error e) => (s, .error e)
    | (s, .ok bs) =>
      match inCalls role cs s with
      | (s, .ok rest) => (s, .ok (bs :: rest))
      | (s, .error e) => (s, .error e)

/-- `io_start_multiplex_in`, on a buffer that holds nothing. -/
def ioStartMultiplexIn (buf wire : Bytes) (reads : List ℕ) : Inbound where
  input := ⟨buf, 0, 0, buf.length⟩
  rawInputEndsBefore := 0
  wire := wire
  reads := reads
  log := []

/-! ## What is ahead -/

namespace Inbound

/-- The bytes ahead, in the buffer and still with the descriptor. -/
def view (s : Inbound) : Bytes := s.input.contents ++ s.wire

/-- How many of them belong to the `MSG_DATA` frame being read. -/
def pending (s : Inbound) : ℕ := s.rawInputEndsBefore - s.input.pos

/-- The end of a frame lies ahead, maybe behind the end of the buffer. -/
structure Ok (s : Inbound) : Prop where
  input : s.input.Ok
  ends : s.rawInputEndsBefore ≠ 0 → s.input.pos < s.rawInputEndsBefore

/-- The calls of `read` take something each, and are enough for the rest. -/
def Feeds (s : Inbound) : Prop := (∀ k ∈ s.reads, 0 < k) ∧ s.wire.length ≤ s.reads.length

/-- `s'` has the same ahead of it as `s`. -/
structure Same (s s' : Inbound) : Prop where
  ok : s'.Ok
  feeds : s.Feeds → s'.Feeds
  view_eq : s'.view = s.view
  pending_eq : s'.pending = s.pending
  size_eq : s'.input.size = s.input.size
  log_eq : s'.log = s.log

variable {s s' s'' : Inbound}

theorem Same.refl (h : s.Ok) : Same s s := ⟨h, id, rfl, rfl, rfl, rfl⟩

theorem Same.trans (h : Same s s') (h' : Same s' s'') : Same s s'' :=
  ⟨h'.ok, h'.feeds ∘ h.feeds, h'.view_eq.trans h.view_eq, h'.pending_eq.trans h.pending_eq, h'.size_eq.trans h.size_eq,
    h'.log_eq.trans h.log_eq⟩

theorem Ok.pending_eq_zero_iff (h : s.Ok) : s.pending = 0 ↔ s.rawInputEndsBefore = 0 := by
  have hends := h.ends
  unfold Inbound.pending
  omega

end Inbound

open Inbound

variable {s s' : Inbound} {role : Role}

theorem same_rewindInput (h : s.Ok) : Same s (rewindInput s) := by
  unfold rewindInput
  split_ifs with hempty hends
  · have hlt := h.ends hends
    obtain ⟨hlen, -⟩ := hempty
    have hnil : ∀ b : Xbuf, b.len = 0 → b.contents = [] := fun b hb =>
      List.length_eq_zero_iff.1 (by rw [Buf.contents_length, hb])
    refine ⟨⟨⟨(Nat.zero_le _).trans_lt h.input.pos_lt, h.input.len_le, h.input.size_le⟩, fun _ => ?_⟩,
      id, ?_, rfl, rfl, rfl⟩
    · show 0 < s.rawInputEndsBefore - s.input.pos
      omega
    · unfold view
      rw [hnil s.input hlen]
      exact congrArg (· ++ s.wire) (hnil _ hlen)
  · obtain ⟨hlen, -⟩ := hempty
    have hnil : ∀ b : Xbuf, b.len = 0 → b.contents = [] := fun b hb =>
      List.length_eq_zero_iff.1 (by rw [Buf.contents_length, hb])
    rw [not_not] at hends
    refine ⟨⟨⟨(Nat.zero_le _).trans_lt h.input.pos_lt, h.input.len_le, h.input.size_le⟩,
      fun hne => absurd hends hne⟩, id, ?_, ?_, rfl, rfl⟩
    · unfold view
      rw [hnil s.input hlen]
      exact congrArg (· ++ s.wire) (hnil _ hlen)
    · show s.rawInputEndsBefore - 0 = s.rawInputEndsBefore - s.input.pos
      omega
  · exact Same.refl h

/-- A `read` is a push of what the descriptor gave. -/
theorem readInput_eq (h : s.Ok) (k : ℕ) : ∃ got, got ++ (readInput k s).wire = s.wire ∧
    s.input.len + got.length ≤ s.input.size ∧ (readInput k s).input = s.input.push got ∧
    (0 < k → s.input.len < s.input.size → s.wire ≠ [] → 0 < got.length) := by
  have hpos := h.input.pos_lt
  have hlen := h.input.len_le
  have htail : s.input.tail = wrap s.input.size (s.input.pos + s.input.len) := rfl
  -- the cells behind the contents, up to the end of the buffer or the start of the contents
  obtain ⟨room, hnext, hfit, hroom, hsome⟩ : ∃ room,
      (if s.input.size ≤ s.input.pos + s.input.len then
        (s.input.pos + s.input.len - s.input.size, s.input.size - s.input.len)
      else (s.input.pos + s.input.len, s.input.size - (s.input.pos + s.input.len))) =
        (s.input.tail, room) ∧ s.input.tail + room ≤ s.input.size ∧
      s.input.len + room ≤ s.input.size ∧ (s.input.len < s.input.size → 0 < room) := by
    by_cases hwrap : s.input.size ≤ s.input.pos + s.input.len
    · rw [wrap_of_le hwrap] at htail
      rw [if_pos hwrap]
      exact ⟨_, by rw [htail], by omega, by omega, by omega⟩
    · rw [wrap_of_lt (not_le.1 hwrap)] at htail
      rw [if_neg hwrap]
      exact ⟨_, by rw [htail], by omega, by omega, by omega⟩
  have hgot : (s.wire.take (min k room)).length = min (min k room) s.wire.length :=
    List.length_take
  refine ⟨s.wire.take (min k room), ?_, by omega, ?_, fun hk hlt hwire => ?_⟩
  · unfold readInput
    dsimp only
    rw [hnext]
    show s.wire.take (min k room) ++ s.wire.drop (s.wire.take (min k room)).length = s.wire
    rw [hgot]
    rcases le_total (min k room) s.wire.length with hle | hle
    · rw [min_eq_left hle, List.take_append_drop]
    · rw [min_eq_right hle, List.take_of_length_le hle, List.drop_length, List.append_nil]
  · unfold readInput Buf.push
    dsimp only
    rw [hnext, store_eq_overwrite (by omega)]
  · have hwirePos := List.length_pos_iff.2 hwire
    have hroomPos := hsome hlt
    omega

theorem same_readInput (h : s.Ok) (k : ℕ) : Same s (readInput k s) := by
  obtain ⟨got, hwire, hroom, hpush, -⟩ := readInput_eq h k
  refine ⟨⟨?_, ?_⟩, fun hfeeds => ⟨hfeeds.1, ?_⟩, ?_, ?_, ?_, rfl⟩
  · rw [hpush]
    exact h.input.push hroom
  · rw [hpush]
    exact h.ends
  · have hlen := congrArg List.length hwire
    rw [List.length_append] at hlen
    exact (by omega : (readInput k s).wire.length ≤ s.wire.length).trans hfeeds.2
  · unfold view
    rw [hpush, Buf.contents_push h.input hroom, List.append_assoc, hwire]
  · rfl
  · rfl

/-- The loop of `perform_io` leaves what is ahead as it is, and ends with the bytes there when
    they come. -/
theorem same_fillInput (h : s.Ok) {needed : ℕ} (hsize : needed ≤ s.input.size) (ks : List ℕ) :
    Same { s with reads := ks } (fillInput needed ks s).1 ∧
      (fillInput needed ks s).1.input.pos = s.input.pos ∧
      ((fillInput needed ks s).2 = true → needed ≤ (fillInput needed ks s).1.input.len) ∧
      (Feeds { s with reads := ks } → needed ≤ s.view.length → (fillInput needed ks s).2 = true) := by
  induction ks generalizing s with
  | nil =>
    refine ⟨⟨⟨h.input, h.ends⟩, id, rfl, rfl, rfl, rfl⟩, rfl, fun htrue => ?_, fun hfeeds hview => ?_⟩
    · simpa [fillInput] using htrue
    · have hwire : s.wire.length = 0 := Nat.le_zero.1 hfeeds.2
      rw [view, List.length_append, Buf.contents_length, hwire] at hview
      simpa [fillInput] using hview
  | cons k ks ih =>
    unfold fillInput
    split_ifs with hdone
    · exact ⟨⟨⟨h.input, h.ends⟩, id, rfl, rfl, rfl, rfl⟩, rfl, fun _ => hdone, fun _ _ => rfl⟩
    have hread := same_readInput h k
    obtain ⟨got, hwire, -, -, hgot⟩ := readInput_eq h k
    have hlen := congrArg List.length hwire
    rw [List.length_append] at hlen
    obtain ⟨hsame, hpos, hneeded, hfull⟩ := ih hread.ok (hsize.trans hread.size_eq.ge)
    have hfeed : Feeds { s with reads := k :: ks } → Feeds { readInput k s with reads := ks } := by
      rintro ⟨hpos, hle⟩
      refine ⟨fun k' hk' => hpos k' (List.mem_cons_of_mem _ hk'), ?_⟩
      show (readInput k s).wire.length ≤ ks.length
      rw [List.length_cons] at hle
      rcases eq_or_ne s.wire [] with hnil | hne
      · rw [hnil, List.length_nil] at hlen
        omega
      · have hsome := hgot (hpos k List.mem_cons_self) (by omega) hne
        have hle' : s.wire.length ≤ ks.length + 1 := hle
        omega
    refine ⟨⟨hsame.ok, fun hfeeds => hsame.feeds (hfeed hfeeds), ?_, ?_, ?_, ?_⟩, hpos, hneeded,
      fun hfeeds hview => hfull (hfeed hfeeds) (by rw [hread.view_eq]; exact hview)⟩
    · exact hsame.view_eq.trans hread.view_eq
    · exact hsame.pending_eq.trans hread.pending_eq
    · exact hsame.size_eq.trans hread.size_eq
    · exact hsame.log_eq.trans hread.log_eq

/-! ## Taking bytes -/

/-- The bytes of `perform_io` are taken off what is ahead, and off the frame being read. -/
structure Takes (n : ℕ) (s s' : Inbound) (bs : Bytes) : Prop where
  ok : s'.Ok
  feeds : s.Feeds → s'.Feeds
  bytes_eq : bs = s.view.take n
  length_eq : bs.length = n
  view_eq : s'.view = s.view.drop n
  pending_eq : s'.pending = s.pending - n
  size_eq : s'.input.size = s.input.size
  log_eq : s'.log = s.log

/-- Taking `n` bytes of the contents. -/
theorem takes_consumeInput {n : ℕ} (h : s.Ok) (hn : n ≤ s.input.len)
    (hends : s.rawInputEndsBefore ≠ 0 → n ≤ s.pending) :
    Takes n s (consumeInput n s) (cells s.input.buf s.input.size s.input.pos n) := by
  have hpos := h.input.pos_lt
  have hlen := h.input.len_le
  have hinput : (consumeInput n s).input = s.input.pop n := by
    unfold consumeInput Buf.pop wrap
    dsimp only
    split_ifs <;> first | rfl | omega
  have hlt := h.ends
  unfold Inbound.pending at hends
  have hstep : ((consumeInput n s).rawInputEndsBefore = 0 ∧ s.pending - n = 0) ∨
      ((consumeInput n s).rawInputEndsBefore = (consumeInput n s).input.pos + (s.pending - n) ∧
        0 < s.pending - n) := by
    unfold consumeInput Inbound.pending
    dsimp only
    split_ifs <;> dsimp only at * <;> omega
  have htake : cells s.input.buf s.input.size s.input.pos n = s.input.contents.take n := by
    rw [Buf.contents, take_cells (by omega) hn]
  have hcontents : s.input.contents.length = s.input.len := Buf.contents_length _
  refine ⟨⟨?_, ?_⟩, id, ?_, cells_length .., ?_, ?_, ?_, rfl⟩
  · rw [hinput]
    exact h.input.pop hn
  · intro hne
    omega
  · rw [htake, view, List.take_append_of_le_length (by omega)]
  · unfold view
    rw [hinput, Buf.contents_pop h.input hn, List.drop_append_of_le_length (by omega)]
    rfl
  · unfold Inbound.pending at hstep ⊢
    omega
  · rw [hinput]
    rfl

/-- A call that takes `n` bytes, or waits for them. -/
def Yields (n : ℕ) (s : Inbound) (r : Inbound × Except Stop Bytes) : Prop :=
  (∃ s' bs, r = (s', .ok bs) ∧ Takes n s s' bs) ∨
    ∃ s', r = (s', .error .waiting) ∧ Same s s' ∧ (s.Feeds → s.view.length < n)

/-- What comes before the bytes are taken does not count. -/
theorem Takes.of_same {n : ℕ} {s₀ : Inbound} {bs : Bytes} (h₀ : Same s₀ s) (h : Takes n s s' bs) :
    Takes n s₀ s' bs :=
  ⟨h.ok, h.feeds ∘ h₀.feeds, by rw [h.bytes_eq, h₀.view_eq], h.length_eq, by rw [h.view_eq, h₀.view_eq],
    by rw [h.pending_eq, h₀.pending_eq], h.size_eq.trans h₀.size_eq, h.log_eq.trans h₀.log_eq⟩

/-- **`perform_io` for input**: the bytes lie at the position it gives, circularly. -/
theorem performIn_spec {n : ℕ} (h : s.Ok) (hn : n ≤ s.input.size)
    (hends : s.rawInputEndsBefore ≠ 0 → n ≤ s.pending) :
    (∃ s' p, performIn n s = (s', .ok p) ∧ p < s'.input.size ∧
      s'.input.pos = wrap s'.input.size (p + n) ∧ (p = s.input.pos ∨ p = 0) ∧
      Takes n s s' (cells s'.input.buf s'.input.size p n)) ∨
    ∃ s', performIn n s = (s', .error .waiting) ∧ Same s s' ∧ (s.Feeds → s.view.length < n) := by
  have hrewind := same_rewindInput h
  have hstart : (rewindInput s).input.pos = s.input.pos ∨ (rewindInput s).input.pos = 0 := by
    unfold rewindInput
    split_ifs
    · exact .inr rfl
    · exact .inr rfl
    · exact .inl rfl
  have hsize : n ≤ (rewindInput s).input.size := hn.trans hrewind.size_eq.ge
  obtain ⟨hfill, hpos, hneeded, hfull⟩ :=
    same_fillInput hrewind.ok hsize (rewindInput s).reads
  have hsame : Same s (fillInput n (rewindInput s).reads (rewindInput s)).1 := hrewind.trans hfill
  unfold performIn
  dsimp only
  rw [if_neg (not_lt.2 hsize)]
  generalize fillInput n (rewindInput s).reads (rewindInput s) = r at *
  obtain ⟨s', _ | _⟩ := r
  · refine .inr ⟨s', rfl, hsame, fun hfeeds => not_le.1 fun hview => ?_⟩
    have htrue := hfull (hrewind.feeds hfeeds) (by rw [hrewind.view_eq]; exact hview)
    exact absurd htrue (by simp)
  · have hends' : s'.rawInputEndsBefore ≠ 0 → n ≤ s'.pending := fun hne => by
      rw [hsame.pending_eq]
      refine hends fun hzero => hne ?_
      rw [← hsame.ok.pending_eq_zero_iff, hsame.pending_eq, h.pending_eq_zero_iff]
      exact hzero
    have htakes := takes_consumeInput hsame.ok (hneeded rfl) hends'
    have hlt := hsame.ok.input.pos_lt
    have hle := hsame.ok.input.len_le
    refine .inl ⟨consumeInput n s', s'.input.pos, rfl, hlt, ?_, hpos ▸ hstart,
      Takes.of_same hsame htakes⟩
    show (consumeInput n s').input.pos = wrap s'.input.size (s'.input.pos + n)
    unfold consumeInput wrap
    dsimp only
    split_ifs <;> first | rfl | omega

/-- **`raw_read_buf`** takes the next bytes, on both sides of the end of the buffer. -/
theorem rawReadBuf_spec {n : ℕ} (h : s.Ok) (hn : n ≤ s.input.size)
    (hends : s.rawInputEndsBefore ≠ 0 → n ≤ s.pending) : Yields n s (rawReadBuf n s) := by
  unfold rawReadBuf
  dsimp only
  obtain ⟨s', p, hperform, hp, hpos, hstart, htakes⟩ | ⟨s', hperform, hsame, hview⟩ :=
    performIn_spec h hn hends
  · have hsize : n ≤ s'.input.size := hn.trans htakes.size_eq.ge
    have holdPos : s.input.pos < s'.input.size := h.input.pos_lt.trans_eq htakes.size_eq.symm
    rw [hperform]
    dsimp only
    by_cases hwrap : s'.input.pos ≤ s.input.pos ∧ n ≠ 0
    · rw [if_pos hwrap]
      refine .inl ⟨s', _, rfl, ?_⟩
      have hbytes : zslice s'.input.buf p (n - s'.input.pos) ++ zslice s'.input.buf 0 s'.input.pos =
          cells s'.input.buf s'.input.size p n := by
        rcases Nat.lt_or_ge (p + n) s'.input.size with hin | hout
        · -- the bytes were taken from the start, after the buffer was empty
          rw [wrap_of_lt hin] at hpos
          have hp0 : p = 0 := by omega
          rw [hp0, Nat.zero_add] at hpos
          rw [hp0, hpos, Nat.sub_self, zslice_zero, List.nil_append, cells_eq_zslice (by omega)]
        · rw [wrap_of_le hout] at hpos
          have hsplit : n = s'.input.size - p + s'.input.pos := by omega
          have hfirst : n - s'.input.pos = s'.input.size - p := by omega
          have hbehind : wrap s'.input.size (p + (s'.input.size - p)) = 0 := by
            rw [show p + (s'.input.size - p) = s'.input.size by omega, wrap_self]
          conv_rhs => rw [hsplit]
          rw [hfirst, cells_add (by omega), hbehind, cells_eq_zslice (by omega),
            cells_eq_zslice (by omega)]
      rw [hbytes]
      exact htakes
    · rw [if_neg hwrap]
      refine .inl ⟨s', _, rfl, ?_⟩
      have hbytes : zslice s'.input.buf p n = cells s'.input.buf s'.input.size p n := by
        rcases Nat.eq_zero_or_pos n with hzero | hnpos
        · rw [hzero]
          rfl
        · have hin : p + n ≤ s'.input.size := by
            by_contra hout
            rw [wrap_of_le (by omega)] at hpos
            omega
          rw [cells_eq_zslice hin]
      rw [hbytes]
      exact htakes
  · rw [hperform]
    exact .inr ⟨s', rfl, hsame, hview⟩

/-- **`raw_read_int`** takes the next four bytes. -/
theorem rawReadInt_spec (h : s.Ok) (hn : 4 ≤ s.input.size)
    (hends : s.rawInputEndsBefore ≠ 0 → 4 ≤ s.pending) : Yields 4 s (rawReadInt s) := by
  unfold rawReadInt
  split_ifs with hroom
  · obtain ⟨s', p, hperform, hp, hpos, hstart, htakes⟩ | ⟨s', hperform, hsame, hview⟩ :=
      performIn_spec h hn hends
    · rw [hperform]
      refine .inl ⟨s', _, rfl, ?_⟩
      have hin : p + 4 ≤ s'.input.size := by
        rw [htakes.size_eq]
        omega
      rw [← cells_eq_zslice hin]
      exact htakes
    · rw [hperform]
      exact .inr ⟨s', rfl, hsame, hview⟩
  · exact rawReadBuf_spec h hn hends

/-! ## Frames ahead -/

/-- What a frame does to the input. -/
def Frame.events (f : Frame) : List InEvent :=
  if f.code = .data then f.payload.map .data else [.message f]

/-- What a sequence of frames does to the input, in its order. -/
def Frame.eventsOf (fs : List Frame) : List InEvent := fs.flatMap Frame.events

/-- A frame the process takes. -/
def Frame.Valid (role : Role) (f : Frame) : Prop :=
  f.payload.length < 2 ^ 24 ∧ msgAccepted role f.payload.length f.code

/-- The data among the events. -/
def dataIn (log : List InEvent) : Bytes :=
  log.filterMap fun
    | .data b => some b
    | .message _ => none

/-- The messages among the events. -/
def messagesIn (log : List InEvent) : List Frame :=
  log.filterMap fun
    | .data _ => none
    | .message f => some f

@[simp] theorem dataIn_append (l l' : List InEvent) : dataIn (l ++ l') = dataIn l ++ dataIn l' :=
  List.filterMap_append

@[simp] theorem messagesIn_append (l l' : List InEvent) :
    messagesIn (l ++ l') = messagesIn l ++ messagesIn l' := List.filterMap_append

@[simp] theorem dataIn_map_data (bs : Bytes) : dataIn (bs.map .data) = bs := by
  simp [dataIn, List.filterMap_map]

@[simp] theorem messagesIn_map_data (bs : Bytes) : messagesIn (bs.map .data) = [] := by
  simp [messagesIn, List.filterMap_map]

@[simp] theorem dataIn_message (f : Frame) : dataIn [.message f] = [] := rfl

@[simp] theorem messagesIn_message (f : Frame) : messagesIn [.message f] = [f] := rfl

theorem dataIn_eventsOf (fs : List Frame) : dataIn (Frame.eventsOf fs) = Frame.dataOf fs := by
  induction fs with
  | nil => rfl
  | cons f fs ih =>
    show dataIn (f.events ++ Frame.eventsOf fs) = _
    rw [dataIn_append, ih, Frame.events, Frame.dataOf, Frame.dataOf]
    by_cases hcode : f.code = .data <;> simp [hcode]

theorem messagesIn_eventsOf (fs : List Frame) :
    messagesIn (Frame.eventsOf fs) = Frame.messagesOf fs := by
  induction fs with
  | nil => rfl
  | cons f fs ih =>
    show messagesIn (f.events ++ Frame.eventsOf fs) = _
    rw [messagesIn_append, ih, Frame.events, Frame.messagesOf, Frame.messagesOf]
    by_cases hcode : f.code = .data <;> simp [hcode]

theorem ofNum?_num (code : MsgCode) : MsgCode.ofNum? code.num = some code := by
  cases code <;> rfl

/-- **A header is read as it was made.** -/
theorem int32_msgHeader (code : MsgCode) {len : ℕ} (hlen : len < 2 ^ 24) :
    int32 (leValue (msgHeader code len)) = ((mplexBase + code.num : ℕ) : ℤ) * 2 ^ 24 + len := by
  have hnum : code.num ≤ 102 := by cases code <;> decide
  have hint : IsInt32 (((mplexBase + code.num) * 2 ^ 24 + len : ℕ) : ℤ) := by
    unfold IsInt32 mplexBase
    omega
  rw [msgHeader, leValue_sival, int32_toNat hint]
  push_cast
  rfl

theorem splitTag_msgHeader (code : MsgCode) {len : ℕ} (hlen : len < 2 ^ 24) :
    splitTag (int32 (leValue (msgHeader code len))) = (some code, len) := by
  have hsplit : ∀ a : ℕ, (((a : ℤ) * 2 ^ 24 + len) % 2 ^ 24).toNat = len ∧
      ((a : ℤ) * 2 ^ 24 + len) / 2 ^ 24 = a := fun a => by omega
  obtain ⟨hbytes, htag⟩ := hsplit (mplexBase + code.num)
  rw [int32_msgHeader code hlen, splitTag, hbytes, htag, Nat.cast_add, add_sub_cancel_left,
    ofNum?_num]

/-- **What was taken and what is ahead are the frames of the stream**, of which `future` has not
    come to the descriptor yet. -/
structure Reading (role : Role) (events : List InEvent) (future : Bytes) (s : Inbound) : Prop where
  ok : s.Ok
  size_le : bigPathBufLen ≤ s.input.size
  ahead : ∃ (rest : Bytes) (fs : List Frame), rest.length = s.pending ∧
    s.view ++ future = rest ++ Frame.encode fs ∧
    s.log ++ (rest.map .data ++ Frame.eventsOf fs) = events ∧ ∀ f ∈ fs, f.Valid role

/-- A call that stops: what was done is the front of the events.  It waits only for what has not
    come yet, after all of the events that came whole. -/
structure StopsAt (events : List InEvent) (future : Bytes) (s s' : Inbound) (e : Stop) : Prop where
  log_le : s'.log <+: events
  stop_eq : e = .waiting ∨ e = .exited ∧ ∃ f, f.code = .errorExit ∧ InEvent.message f ∈ s'.log
  all : e = .waiting → s.Feeds → future = [] → s'.log = events

section Reads

variable {events : List InEvent} {future : Bytes}

theorem Reading.of_same (h : Reading role events future s) (hsame : Same s s') :
    Reading role events future s' := by
  obtain ⟨rest, fs, hrest, hview, hlog, hvalid⟩ := h.ahead
  exact ⟨hsame.ok, h.size_le.trans hsame.size_eq.ge, rest, fs, by rw [hrest, hsame.pending_eq],
    by rw [hsame.view_eq, hview], by rw [hsame.log_eq, hlog], hvalid⟩

theorem Reading.log_le (h : Reading role events future s) : s.log <+: events := by
  obtain ⟨rest, fs, -, -, hlog, -⟩ := h.ahead
  exact ⟨_, hlog⟩

theorem Takes.zero (h : s.Ok) : Takes 0 s s [] := ⟨h, id, rfl, rfl, rfl, rfl, rfl, rfl⟩

/-- Bytes taken out of what is ahead, whose front is known. -/
theorem Takes.front {n : ℕ} {bs front tail : Bytes} (h : Takes n s s' bs)
    (hview : s.view ++ future = front ++ tail) (hn : n ≤ front.length) :
    bs = front.take n ∧ s'.view ++ future = front.drop n ++ tail := by
  have hle : n ≤ s.view.length := by
    have hlen := h.length_eq
    rw [h.bytes_eq, List.length_take] at hlen
    omega
  constructor
  · rw [h.bytes_eq, ← List.take_append_of_le_length hle, hview, List.take_append_of_le_length hn]
  · rw [h.view_eq, ← List.drop_append_of_le_length hle, hview, List.drop_append_of_le_length hn]

theorem msgAccepted_isInt {code : MsgCode} {len : ℕ} (h : msgAccepted role len code)
    (hint : code.isInt) : len = 4 := by
  cases code <;> simp_all [msgAccepted, MsgCode.isInt]

/-- A message fits into the buffer `read_a_msg` has for it. -/
theorem msgAccepted_le {code : MsgCode} {len : ℕ} (h : msgAccepted role len code)
    (hcode : code ≠ .data) : len ≤ bigPathBufLen := by
  have hlen : len < bigPathBufLen ∨ len = 8 ∨ len = 4 ∨ len = 0 := by
    cases code <;> simp_all [msgAccepted]
  rw [bigPathBufLen] at *
  omega

/-- The payload of a message the process takes. -/
theorem readPayload_spec (h : s.Ok) (hsize : bigPathBufLen ≤ s.input.size)
    (hends : s.rawInputEndsBefore = 0) {code : MsgCode} {len : ℕ}
    (haccepted : msgAccepted role len code) (hcode : code ≠ .data) :
    Yields len s (readPayload code len s) := by
  have hbig : 4 ≤ bigPathBufLen := by decide
  have hzero : Yields 0 s (s, .ok []) := .inl ⟨s, [], rfl, .zero h⟩
  have hint : Yields 4 s (rawReadInt s) :=
    rawReadInt_spec h (hbig.trans hsize) fun hne => absurd hends hne
  unfold readPayload
  split_ifs with hisInt hnoop hexit hfour
  · rw [msgAccepted_isInt haccepted hisInt]
    exact hint
  · rw [hnoop] at haccepted
    have hlen : len = 0 := by simpa [msgAccepted] using haccepted
    rw [hlen]
    exact hzero
  · rw [hfour]
    exact hint
  · rw [hexit] at haccepted
    have hlen : len = 0 := by simpa [msgAccepted, hfour] using haccepted
    rw [hlen]
    exact hzero
  · exact rawReadBuf_spec h ((msgAccepted_le haccepted hcode).trans hsize)
      fun hne => absurd hends hne

/-- **A message, or the header of a `MSG_DATA` frame, behind a header.** -/
theorem handleMsg_spec (h : s.Ok) (hsize : bigPathBufLen ≤ s.input.size)
    (hends : s.rawInputEndsBefore = 0) {f : Frame} {fs : List Frame}
    (hview : s.view ++ future = f.payload ++ Frame.encode fs)
    (hlog : s.log ++ (f.events ++ Frame.eventsOf fs) = events) (hf : f.Valid role)
    (hvalid : ∀ g ∈ fs, g.Valid role) :
    (∃ s', handleMsg role f.code f.payload.length s = (s', .ok ()) ∧
      Reading role events future s' ∧ (s.Feeds → s'.Feeds) ∧ dataIn s'.log = dataIn s.log ∧
      s'.view.length ≤ s.view.length) ∨
    ∃ s' e, handleMsg role f.code f.payload.length s = (s', .error e) ∧
      StopsAt events future s s' e ∧ dataIn s'.log = dataIn s.log := by
  obtain ⟨hlt, haccepted⟩ := hf
  unfold handleMsg
  by_cases hdata : f.code = .data
  · rw [if_pos hdata, if_neg (not_not.2 hends)]
    have hpos := h.input.pos_lt
    refine .inl ⟨_, rfl, ⟨⟨h.input, fun hne => ?_⟩, hsize, f.payload, fs, ?_, hview, ?_, hvalid⟩, id,
      rfl, le_rfl⟩
    · show s.input.pos < if f.payload.length ≠ 0 then _ else _
      split_ifs with hlen
      · omega
      · exact absurd hne (by simp [hlen, hends])
    · show f.payload.length = (if f.payload.length ≠ 0 then _ else _) - s.input.pos
      split_ifs <;> omega
    · rw [Frame.events, if_pos hdata] at hlog
      exact hlog
  rw [if_neg hdata, if_neg (by simp [haccepted])]
  rw [Frame.events, if_neg hdata] at hlog
  obtain ⟨s', payload, hread, htakes⟩ | ⟨s', hread, hsame, hshort⟩ :=
    readPayload_spec h hsize hends haccepted hdata
  · obtain ⟨hpayload, hview'⟩ := htakes.front hview le_rfl
    rw [List.take_length] at hpayload
    rw [List.drop_length, List.nil_append] at hview'
    rw [hread, hpayload]
    dsimp only
    have hlog' : s'.log ++ [.message f] ++ Frame.eventsOf fs = events := by
      rw [htakes.log_eq, List.append_assoc]
      exact hlog
    have hsameData : dataIn (s'.log ++ [.message f]) = dataIn s.log := by
      rw [dataIn_append, dataIn_message, List.append_nil, htakes.log_eq]
    by_cases hexit : f.code = .errorExit
    · rw [if_pos hexit]
      refine .inr ⟨_, _, rfl, ⟨⟨_, hlog'⟩, .inr ⟨rfl, f, hexit, ?_⟩, by simp⟩, hsameData⟩
      exact List.mem_append_right _ List.mem_cons_self
    · rw [if_neg hexit]
      have hpending : s'.pending = 0 := by
        rw [htakes.pending_eq, h.pending_eq_zero_iff.2 hends, Nat.zero_sub]
      refine .inl ⟨_, rfl, ⟨⟨htakes.ok.input, htakes.ok.ends⟩, hsize.trans htakes.size_eq.ge, [], fs,
        hpending.symm, hview', hlog', hvalid⟩, htakes.feeds, hsameData, ?_⟩
      show s'.view.length ≤ s.view.length
      rw [htakes.view_eq, List.length_drop]
      exact Nat.sub_le ..
  · -- the payload has not come
    rw [hread]
    refine .inr ⟨s', _, rfl, ⟨?_, .inl rfl, fun _ hfeeds hfuture => ?_⟩, by rw [hsame.log_eq]⟩
    · rw [hsame.log_eq]
      exact ⟨_, hlog⟩
    · have hlt' := hshort hfeeds
      rw [hfuture, List.append_nil] at hview
      rw [hview, List.length_append] at hlt'
      omega

theorem readAMsg_eq {header : Bytes} {code : MsgCode} {n : ℕ} (hread : rawReadInt s = (s', .ok header))
    (hsplit : splitTag (int32 (leValue header)) = (some code, n)) :
    readAMsg role s = handleMsg role code n s' := by
  have htag : readAMsg role s = handleTag role (splitTag (int32 (leValue header))) s' := by
    unfold readAMsg
    rw [hread]
  rw [htag, hsplit]
  rfl

theorem readAMsg_error {e : Stop} (hread : rawReadInt s = (s', .error e)) :
    readAMsg role s = (s', .error e) := by
  unfold readAMsg
  rw [hread]

/-- **`read_a_msg`** between two frames: it goes behind the next message, or up to the payload of
    the next `MSG_DATA` frame. -/
theorem readAMsg_spec (h : Reading role events future s) (hends : s.rawInputEndsBefore = 0) :
    (∃ s', readAMsg role s = (s', .ok ()) ∧ Reading role events future s' ∧
      (s.Feeds → s'.Feeds) ∧ dataIn s'.log = dataIn s.log ∧ s'.view.length < s.view.length) ∨
    ∃ s' e, readAMsg role s = (s', .error e) ∧ StopsAt events future s s' e ∧
      dataIn s'.log = dataIn s.log := by
  obtain ⟨rest, fs, hrest, hview, hlog, hvalid⟩ := h.ahead
  have hbig : 4 ≤ bigPathBufLen := by decide
  have hnil : rest = [] := by
    rw [← List.length_eq_zero_iff, hrest, h.ok.pending_eq_zero_iff]
    exact hends
  rw [hnil, List.nil_append] at hview
  rw [hnil, List.map_nil, List.nil_append] at hlog
  obtain ⟨s₁, header, hread, htakes⟩ | ⟨s₁, hread, hsame, hshort⟩ :=
    rawReadInt_spec h.ok (hbig.trans h.size_le) fun hne => absurd hends hne
  swap
  · -- the header has not come
    rw [readAMsg_error hread]
    refine .inr ⟨s₁, _, rfl, ⟨?_, .inl rfl, fun _ hfeeds hfuture => ?_⟩, by rw [hsame.log_eq]⟩
    · rw [hsame.log_eq]
      exact h.log_le
    · have hlt := hshort hfeeds
      rw [hfuture, List.append_nil] at hview
      cases fs with
      | nil =>
        rw [hsame.log_eq]
        simpa [Frame.eventsOf] using hlog
      | cons f fs =>
        rw [hview] at hlt
        simp [Frame.encode, Frame.bytes] at hlt
  have hlen := htakes.length_eq
  rw [htakes.bytes_eq, List.length_take] at hlen
  cases fs with
  | nil =>
    -- nothing is ahead
    have hviewNil := congrArg List.length hview
    rw [List.length_append, Frame.encode, List.flatMap_nil, List.length_nil] at hviewNil
    omega
  | cons f fs =>
    have hencode : Frame.encode (f :: fs) =
        msgHeader f.code f.payload.length ++ (f.payload ++ Frame.encode fs) := by
      simp [Frame.encode, Frame.bytes]
    rw [hencode] at hview
    obtain ⟨hheader, hview₁⟩ := htakes.front hview (msgHeader_length ..).ge
    rw [List.take_of_length_le (msgHeader_length ..).le] at hheader
    rw [List.drop_of_length_le (msgHeader_length ..).le, List.nil_append] at hview₁
    have hf := hvalid f List.mem_cons_self
    have hends₁ : s₁.rawInputEndsBefore = 0 := by
      rw [← htakes.ok.pending_eq_zero_iff, htakes.pending_eq, h.ok.pending_eq_zero_iff.2 hends]
    have hlog₁ : s₁.log ++ (f.events ++ Frame.eventsOf fs) = events := by
      rw [htakes.log_eq]
      exact hlog
    have hshorter : s₁.view.length < s.view.length := by
      rw [htakes.view_eq, List.length_drop]
      omega
    have hsplit : splitTag (int32 (leValue header)) = (some f.code, f.payload.length) := by
      rw [hheader]
      exact splitTag_msgHeader f.code hf.1
    rw [readAMsg_eq hread hsplit]
    obtain ⟨s', hhandle, hreading, hfeeds, hdata, hle⟩ | ⟨s', e, hhandle, hstop, hdata⟩ :=
      handleMsg_spec htakes.ok (h.size_le.trans htakes.size_eq.ge) hends₁ hview₁ hlog₁ hf
        fun g hg => hvalid g (List.mem_cons_of_mem _ hg)
    · exact .inl ⟨s', hhandle, hreading, hfeeds ∘ htakes.feeds, by rw [hdata, htakes.log_eq],
        hle.trans_lt hshorter⟩
    · exact .inr ⟨s', e, hhandle, ⟨hstop.log_le, hstop.stop_eq,
        fun hwait hfeed => hstop.all hwait (htakes.feeds hfeed)⟩, by rw [hdata, htakes.log_eq]⟩

/-- **`read_buf`**: it returns the next bytes of the data, or stops where the stream does. -/
theorem readBufLoop_spec {fuel len : ℕ} (h : Reading role events future s)
    (hfuel : s.view.length < fuel) :
    (∃ s' bs, readBufLoop role fuel len s = (s', .ok bs) ∧ Reading role events future s' ∧
      (s.Feeds → s'.Feeds) ∧ bs.length = len ∧ dataIn s'.log = dataIn s.log ++ bs) ∨
    ∃ s' e, readBufLoop role fuel len s = (s', .error e) ∧ StopsAt events future s s' e ∧
      (len ≠ 0 → (dataIn s'.log).length < (dataIn s.log).length + len) := by
  induction fuel generalizing len s with
  | zero => omega
  | succ fuel ih =>
    unfold readBufLoop
    by_cases hends : s.rawInputEndsBefore = 0
    · rw [if_pos hends]
      obtain ⟨s₁, hread, hreading, hfeeds, hdata, hlt⟩ | ⟨s₁, e, hread, hstop, hdata⟩ :=
        readAMsg_spec h hends
      · rw [hread]
        dsimp only
        obtain ⟨s', bs, hloop, hreading', hfeeds', hlen, hbytes⟩ | ⟨s', e, hloop, hstop, hless⟩ :=
          ih hreading (by omega)
        · exact .inl ⟨s', bs, hloop, hreading', hfeeds' ∘ hfeeds, hlen, by rw [hbytes, hdata]⟩
        · refine .inr ⟨s', e, hloop, ⟨hstop.log_le, hstop.stop_eq,
            fun hwait hfeed => hstop.all hwait (hfeeds hfeed)⟩, fun hne => ?_⟩
          rw [← hdata]
          exact hless hne
      · rw [hread]
        refine .inr ⟨s₁, e, rfl, hstop, fun hne => ?_⟩
        rw [hdata]
        omega
    rw [if_neg hends]
    dsimp only
    obtain ⟨rest, fs, hrest, hview, hlog, hvalid⟩ := h.ahead
    have hpending : s.rawInputEndsBefore - s.input.pos = rest.length := hrest.symm
    have hrestPos : 0 < rest.length := by
      have hlt := h.ok.ends hends
      omega
    have hsizePos : 0 < s.input.size := (by decide : 0 < bigPathBufLen).trans_le h.size_le
    set siz := if s.input.size ≤ min len (s.rawInputEndsBefore - s.input.pos) then s.input.size
      else min len (s.rawInputEndsBefore - s.input.pos) with hsiz
    have hle : siz ≤ rest.length ∧ siz ≤ len ∧ siz ≤ s.input.size ∧ (len ≠ 0 → 0 < siz) := by
      rw [hsiz, hpending]
      split_ifs <;> omega
    obtain ⟨hleRest, hleLen, hleSize, hsizPos⟩ := hle
    obtain ⟨s₁, bs, hread, htakes⟩ | ⟨s₁, hread, hsame, hshort⟩ :=
      rawReadBuf_spec h.ok hleSize fun _ => hleRest.trans_eq hrest
    swap
    · -- the bytes have not come
      rw [hread]
      refine .inr ⟨s₁, _, rfl, ⟨?_, .inl rfl, fun _ hfeeds hfuture => ?_⟩, fun hne => ?_⟩
      · rw [hsame.log_eq]
        exact h.log_le
      · have hlt := hshort hfeeds
        rw [hfuture, List.append_nil] at hview
        rw [hview, List.length_append] at hlt
        omega
      · rw [hsame.log_eq]
        omega
    rw [hread]
    dsimp only
    obtain ⟨hbs, hview₁⟩ := htakes.front hview hleRest
    have hbsLen : bs.length = siz := htakes.length_eq
    -- the bytes go from what is ahead into the log
    have hreading : Reading role events future { s₁ with log := s₁.log ++ bs.map .data } := by
      refine ⟨⟨htakes.ok.input, htakes.ok.ends⟩, h.size_le.trans htakes.size_eq.ge, rest.drop siz, fs,
        ?_, hview₁, ?_, hvalid⟩
      · rw [List.length_drop, hrest]
        exact htakes.pending_eq.symm
      · show s₁.log ++ bs.map .data ++ ((rest.drop siz).map .data ++ Frame.eventsOf fs) = events
        rw [htakes.log_eq, hbs, ← hlog, List.append_assoc, ← List.append_assoc (List.map _ _),
          ← List.map_append, List.take_append_drop]
    have hdata : dataIn (s₁.log ++ bs.map .data) = dataIn s.log ++ bs := by
      rw [dataIn_append, dataIn_map_data, htakes.log_eq]
    by_cases hdone : len - siz = 0
    · rw [if_pos hdone]
      exact .inl ⟨_, bs, rfl, hreading, htakes.feeds, by omega, hdata⟩
    rw [if_neg hdone]
    have hshorter : s₁.view.length < s.view.length := by
      have htaken := htakes.length_eq
      rw [htakes.bytes_eq, List.length_take] at htaken
      rw [htakes.view_eq, List.length_drop]
      omega
    obtain ⟨s', more, hloop, hreading', hfeeds', hlen, hbytes⟩ | ⟨s', e, hloop, hstop, hless⟩ :=
      ih hreading (by exact (by omega : s₁.view.length < fuel))
    · rw [hloop]
      refine .inl ⟨s', _, rfl, hreading', hfeeds' ∘ htakes.feeds, ?_, ?_⟩
      · rw [List.length_append]
        omega
      · rw [hbytes, hdata, List.append_assoc]
    · rw [hloop]
      refine .inr ⟨s', e, rfl, ⟨hstop.log_le, hstop.stop_eq,
        fun hwait hfeed => hstop.all hwait (htakes.feeds hfeed)⟩, fun _ => ?_⟩
      have hlt := hless hdone
      rw [hdata, List.length_append] at hlt
      omega

/-- How many bytes a call asks for. -/
def InCall.asked : InCall → ℕ
  | .readBuf len => len
  | _ => 0

/-- A call that does not wait for a message. -/
def InCall.Demands : InCall → Prop
  | .readBuf len => len ≠ 0
  | .readAMsg => False
  | .read _ => True

/-- One call: the bytes it returns are the next ones of the data. -/
theorem inCall_spec (h : Reading role events future s) (c : InCall) :
    (∃ s' bs, inCall role s c = (s', .ok bs) ∧ Reading role events future s' ∧
      (s.Feeds → s'.Feeds) ∧ bs.length = c.asked ∧ dataIn s'.log = dataIn s.log ++ bs) ∨
    ∃ s' e, inCall role s c = (s', .error e) ∧ StopsAt events future s s' e ∧
      (c.Demands → (dataIn s'.log).length < (dataIn s.log).length + c.asked) := by
  cases c with
  | readBuf len =>
    have hfuel : s.view.length < s.input.len + s.wire.length + 1 := by
      rw [view, List.length_append, Buf.contents_length]
      exact Nat.lt_succ_self _
    exact readBufLoop_spec h hfuel
  | readAMsg =>
    unfold inCall
    dsimp only
    split_ifs with hends
    · obtain ⟨s', hread, hreading, hfeeds, hdata, -⟩ | ⟨s', e, hread, hstop, hdata⟩ :=
        readAMsg_spec h hends
      · rw [hread]
        exact .inl ⟨s', [], rfl, hreading, hfeeds, rfl, by rw [hdata, List.append_nil]⟩
      · rw [hread]
        exact .inr ⟨s', e, rfl, hstop, fun hdemands => absurd hdemands id⟩
    · exact .inl ⟨s, [], rfl, h, id, rfl, (List.append_nil _).symm⟩
  | read k =>
    have hrewind := same_rewindInput h.ok
    have hsame := hrewind.trans (same_readInput hrewind.ok k)
    exact .inl ⟨_, [], rfl, h.of_same hsame, hsame.feeds, rfl, by
      rw [hsame.log_eq, List.append_nil]⟩

/-- **A run of calls**, up to the first one that stops. -/
theorem inCalls_spec (h : Reading role events future s) (cs : List InCall) :
    (∃ s' outs, inCalls role cs s = (s', .ok outs) ∧ Reading role events future s' ∧
      outs.map List.length = cs.map InCall.asked ∧
      dataIn s'.log = dataIn s.log ++ outs.flatten) ∨
    ∃ s' e, inCalls role cs s = (s', .error e) ∧ StopsAt events future s s' e ∧
      ((∀ c ∈ cs, c.Demands) →
        (dataIn s'.log).length < (dataIn s.log).length + (cs.map InCall.asked).sum) := by
  induction cs generalizing s with
  | nil => exact .inl ⟨s, [], rfl, h, rfl, (List.append_nil _).symm⟩
  | cons c cs ih =>
    unfold inCalls
    obtain ⟨s₁, bs, hcall, hreading, hfeeds, hlen, hdata⟩ | ⟨s₁, e, hcall, hstop, hless⟩ :=
      inCall_spec h c
    swap
    · rw [hcall]
      refine .inr ⟨s₁, e, rfl, hstop, fun hdemands => ?_⟩
      have hlt := hless (hdemands c List.mem_cons_self)
      rw [List.map_cons, List.sum_cons]
      omega
    rw [hcall]
    dsimp only
    obtain ⟨s', outs, hcalls, hreading', hlens, hdata'⟩ | ⟨s', e, hcalls, hstop, hless⟩ :=
      ih hreading
    · rw [hcalls]
      refine .inl ⟨s', _, rfl, hreading', ?_, ?_⟩
      · rw [List.map_cons, List.map_cons, hlen, hlens]
      · rw [hdata', hdata, List.flatten_cons, List.append_assoc]
    · rw [hcalls]
      refine .inr ⟨s', e, rfl, ⟨hstop.log_le, hstop.stop_eq,
        fun hwait hfeed => hstop.all hwait (hfeeds hfeed)⟩, fun hdemands => ?_⟩
      have hlt := hless fun c' hc' => hdemands c' (List.mem_cons_of_mem _ hc')
      rw [hdata, List.length_append] at hlt
      rw [List.map_cons, List.sum_cons]
      omega

end Reads

/-! ## The stream taken apart -/

variable {buf wire future : Bytes} {fs : List Frame}

theorem Reading.start (hbuf : bigPathBufLen ≤ buf.length) (hfs : ∀ f ∈ fs, f.Valid role)
    (hwire : wire ++ future = Frame.encode fs) (reads : List ℕ) :
    Reading role (Frame.eventsOf fs) future (ioStartMultiplexIn buf wire reads) :=
  ⟨⟨⟨(by decide : 0 < bigPathBufLen).trans_le hbuf, Nat.zero_le _, le_rfl⟩,
    fun hne => absurd rfl hne⟩, hbuf, [], fs, rfl, hwire, rfl, hfs⟩

theorem mem_of_message_mem {f : Frame} (h : InEvent.message f ∈ Frame.eventsOf fs) : f ∈ fs := by
  obtain ⟨g, hg, hfg⟩ := List.mem_flatMap.1 h
  rw [Frame.events] at hfg
  split_ifs at hfg with hdata
  · simp at hfg
  · rw [List.mem_singleton, InEvent.message.injEq] at hfg
    rw [hfg]
    exact hg

/-- What calls do to a stream whose front is on the wire. -/
theorem inCalls_front (hbuf : bigPathBufLen ≤ buf.length) (hfs : ∀ f ∈ fs, f.Valid role)
    (hwire : wire <+: Frame.encode fs) (reads : List ℕ) (calls : List InCall) :
    let r := inCalls role calls (ioStartMultiplexIn buf wire reads)
    r.1.log <+: Frame.eventsOf fs ∧
    (∀ e, r.2 = .error e → e = .waiting ∨ e = .exited ∧ ∃ f ∈ fs, f.code = .errorExit) ∧
    ∀ outs, r.2 = .ok outs →
      outs.flatten = dataIn r.1.log ∧ outs.map List.length = calls.map InCall.asked := by
  obtain ⟨future, hfuture⟩ := hwire
  intro r
  have hstart := Reading.start hbuf hfs hfuture reads
  obtain ⟨s', outs, hcalls, hreading, hlens, hdata⟩ | ⟨s', e, hcalls, hstop, -⟩ :=
    inCalls_spec hstart calls
  · have hr : r = (s', .ok outs) := hcalls
    rw [hr]
    refine ⟨hreading.log_le, fun e he => absurd he (by simp), fun outs' houts => ?_⟩
    rw [← Except.ok.inj houts]
    exact ⟨by rw [hdata]; rfl, hlens⟩
  · have hr : r = (s', .error e) := hcalls
    rw [hr]
    refine ⟨hstop.log_le, fun e' he => ?_, fun outs' houts => absurd houts (by simp)⟩
    rw [← Except.error.inj he]
    refine hstop.stop_eq.imp id fun hexit => ⟨hexit.1, ?_⟩
    obtain ⟨f, hcode, hf⟩ := hexit.2
    exact ⟨f, mem_of_message_mem (hstop.log_le.subset hf), hcode⟩

/-- With the whole stream there, calls that ask for no more data than there are return. -/
theorem inCalls_whole (hbuf : bigPathBufLen ≤ buf.length) (hfs : ∀ f ∈ fs, f.Valid role)
    (hexit : ∀ f ∈ fs, f.code ≠ .errorExit) {reads : List ℕ} (hreads : ∀ k ∈ reads, 0 < k)
    (hlen : (Frame.encode fs).length ≤ reads.length) {calls : List InCall}
    (hcalls : ∀ c ∈ calls, c.Demands)
    (hasked : (calls.map InCall.asked).sum ≤ (Frame.dataOf fs).length) :
    ∃ outs, (inCalls role calls (ioStartMultiplexIn buf (Frame.encode fs) reads)).2 = .ok outs ∧
      outs.flatten = (Frame.dataOf fs).take (calls.map InCall.asked).sum := by
  have hstart : Reading role (Frame.eventsOf fs) [] (ioStartMultiplexIn buf (Frame.encode fs) reads) :=
    Reading.start hbuf hfs (List.append_nil _) reads
  have hsafe := inCalls_front hbuf hfs (List.prefix_refl _) reads calls
  obtain ⟨s', outs, hrun, hreading, hlens, hdata⟩ | ⟨s', e, hrun, hstop, hless⟩ :=
    inCalls_spec hstart calls
  · refine ⟨outs, by rw [hrun], ?_⟩
    have hfront : dataIn s'.log <+: Frame.dataOf fs := by
      rw [← dataIn_eventsOf]
      exact hreading.log_le.filterMap _
    have hflat : outs.flatten = dataIn s'.log := by
      rw [hdata]
      rfl
    have hsum : outs.flatten.length = (calls.map InCall.asked).sum := by
      rw [List.length_flatten, hlens]
    rw [← hsum, hflat]
    exact List.prefix_iff_eq_take.1 hfront
  · -- a call waits only behind all the events
    exfalso
    rw [hrun] at hsafe
    obtain rfl | ⟨-, f, hf, hcode⟩ := hsafe.2.1 e rfl
    · have hall := hstop.all rfl ⟨hreads, hlen⟩ rfl
      have hlt := hless hcalls
      rw [hall, dataIn_eventsOf] at hlt
      have hzero : (dataIn (ioStartMultiplexIn buf (Frame.encode fs) reads).log).length = 0 := rfl
      omega
    · exact hexit f hf hcode

/-- **Demultiplexing**: from the front of a stream of frames, whatever each `read` returns and
    whoever reads the messages, the data come out and the messages are handled in the order of
    the stream, each with its own payload.  A call that does not return waits for more, or exits
    on a message that says so; with the whole stream there, calls that ask for no more data than
    there are return. -/
theorem demultiplexed (hbuf : bigPathBufLen ≤ buf.length) (hfs : ∀ f ∈ fs, f.Valid role)
    (hwire : wire <+: Frame.encode fs) (reads : List ℕ) (calls : List InCall) :
    let r := inCalls role calls (ioStartMultiplexIn buf wire reads)
    r.1.log <+: Frame.eventsOf fs ∧
    (∀ e, r.2 = .error e → e = .waiting ∨ e = .exited ∧ ∃ f ∈ fs, f.code = .errorExit) ∧
    (∀ outs, r.2 = .ok outs →
      outs.flatten = dataIn r.1.log ∧ outs.map List.length = calls.map InCall.asked) ∧
    (wire = Frame.encode fs → (∀ f ∈ fs, f.code ≠ .errorExit) → (∀ k ∈ reads, 0 < k) →
      wire.length ≤ reads.length → (∀ c ∈ calls, c.Demands) →
      (calls.map InCall.asked).sum ≤ (Frame.dataOf fs).length →
      ∃ outs, r.2 = .ok outs ∧ outs.flatten = (Frame.dataOf fs).take (calls.map InCall.asked).sum) := by
  intro r
  obtain ⟨hlog, hstops, houts⟩ := inCalls_front hbuf hfs hwire reads calls
  refine ⟨hlog, hstops, houts, fun hall hexit hreads hlen hcalls hasked => ?_⟩
  subst hall
  exact inCalls_whole hbuf hfs hexit hreads hlen hcalls hasked

/-- A message between the two parts of the data, as far as its header. -/
theorem demultiplexed_header :
    (inCalls ⟨false, false, true⟩ [.readBuf 1, .readBuf 1]
      (ioStartMultiplexIn (List.replicate bigPathBufLen 0)
        (Frame.encode [⟨.data, [1]⟩, ⟨.noop, []⟩]) [2, 9])).1.log <+:
      [.data 1, .message ⟨.noop, []⟩, .data 2] := by
  have hbuf : bigPathBufLen ≤ (List.replicate bigPathBufLen (0 : UInt8)).length := by
    rw [List.length_replicate]
  have hvalid : ∀ f ∈ [⟨.data, [1]⟩, ⟨.noop, []⟩, ⟨.data, [2]⟩],
      Frame.Valid ⟨false, false, true⟩ f := by
    intro f hf
    simp only [List.mem_cons, List.not_mem_nil, or_false] at hf
    obtain rfl | rfl | rfl := hf <;> exact ⟨by norm_num, rfl⟩
  exact (demultiplexed hbuf hvalid
    ⟨Frame.encode [⟨.data, [2]⟩], by rw [← Frame.encode_append]; rfl⟩ [2, 9]
    [.readBuf 1, .readBuf 1]).1

end CloudEdgeBackup
