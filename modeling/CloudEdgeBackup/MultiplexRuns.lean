/-
  Runs of the multiplexed output (`io.c`).

  * `Stream` is what the buffers stand for: the rest of the frame being written, the
    data and the messages behind it, and what was written.  A pass of `perform_io` is
    a step of it (`Outbound.Holds.ioRound`);
  * `Runs` are the states after any interleaving of passes of `perform_io` and copies
    of `write_buf` and `send_msg`.  What the descriptor has taken is always the front
    of whole frames, with the data and the messages in the order they were given
    (`multiplexed_frames`);
  * `writeBuf`, `sendMsg`, `ioFlush` are the calls; they are runs, and with writes
    that take something they come to an end.  `io_flush` waits for room in the buffers
    as they are at that moment: it leaves a few bytes behind where a shortened one
    comes back to its full size, and counts below zero where the room for a header
    went past the end (`ioFlush_ends`).
-/
import CloudEdgeBackup.Multiplex

namespace CloudEdgeBackup

open Zext Codec Circular

/-! ## The stream without the buffers -/

/-- What the buffers stand for: the rest of the `MSG_DATA` frame being written, the data given
    since, the rest of the messages, and what was written. -/
structure Stream where
  frame : Bytes
  data : Bytes
  msgs : Bytes
  sent : Bytes

namespace Stream

/-- `k` bytes are written. -/
def round (need : Need) (k : ℕ) (a : Stream) : Stream :=
  if a.frame ≠ [] then { a with frame := a.frame.drop k, sent := a.sent ++ a.frame.take k }
  else if a.msgs = [] ∧ a.data ≠ [] ∧ need ≠ .msgRoom then
    let frame := (Frame.mk .data a.data).bytes
    { a with frame := frame.drop k, data := [], sent := a.sent ++ frame.take k }
  else { a with msgs := a.msgs.drop k, sent := a.sent ++ a.msgs.take k }

/-- The bytes still to be written. -/
def left (a : Stream) : ℕ :=
  a.frame.length + a.msgs.length + if a.data = [] then 0 else 4 + a.data.length

/-- Nothing can be written. -/
def Idle (need : Need) (a : Stream) : Prop :=
  a.frame = [] ∧ a.msgs = [] ∧ (a.data = [] ∨ need = .msgRoom)

/-- What was written is the front of the frames for `given` and `messages`. -/
def Carries (given : Bytes) (messages : List Frame) (a : Stream) : Prop :=
  ∃ fs, a.sent ++ (a.frame ++ a.msgs) = Frame.encode fs ∧ Frame.dataOf fs ++ a.data = given ∧
    Frame.messagesOf fs = Frame.messagesOf messages ∧ ∀ f ∈ fs, f.payload.length < 2 ^ 24

variable {given bs : Bytes} {messages : List Frame} {a : Stream}

theorem Carries.round (h : a.Carries given messages) (hdata : a.data.length < 2 ^ 24)
    (need : Need) (k : ℕ) : (a.round need k).Carries given messages := by
  obtain ⟨fs, hsent, hgiven, hmessages, hlen⟩ := h
  unfold Stream.round
  split_ifs with hframe hstart
  · refine ⟨fs, ?_, hgiven, hmessages, hlen⟩
    rw [← hsent, List.append_assoc, ← List.append_assoc (a.frame.take k), List.take_append_drop]
  · -- the data begin a frame of their own
    obtain ⟨hmsgs, -, -⟩ := hstart
    rw [not_not] at hframe
    rw [hframe, hmsgs] at hsent
    refine ⟨fs ++ [⟨.data, a.data⟩], ?_, ?_, ?_, ?_⟩
    · rw [Frame.encode_append, Frame.encode_singleton, ← hsent, hmsgs]
      simp only [List.append_nil, List.append_assoc, List.take_append_drop]
    · rw [Frame.dataOf_append, List.append_nil, ← hgiven]
      simp [Frame.dataOf]
    · rw [Frame.messagesOf_append, hmessages]
      simp [Frame.messagesOf]
    · intro f hf
      rcases List.mem_append.1 hf with hf | hf
      · exact hlen f hf
      · rw [List.mem_singleton.1 hf]
        exact hdata
  · refine ⟨fs, ?_, hgiven, hmessages, hlen⟩
    rw [not_not] at hframe
    rw [← hsent, hframe]
    simp only [List.nil_append, List.append_assoc, List.take_append_drop]

theorem Carries.write (h : a.Carries given messages) (bs : Bytes) :
    { a with data := a.data ++ bs }.Carries (given ++ bs) messages := by
  obtain ⟨fs, hsent, hgiven, hrest⟩ := h
  exact ⟨fs, hsent, by rw [← List.append_assoc, hgiven], hrest⟩

theorem Carries.send (h : a.Carries given messages) {f : Frame} (hlen : f.payload.length < 2 ^ 24)
    (hdata : f.code = .data → f.payload = []) :
    { a with msgs := a.msgs ++ f.bytes }.Carries given (messages ++ [f]) := by
  obtain ⟨fs, hsent, hgiven, hmessages, hlens⟩ := h
  refine ⟨fs ++ [f], ?_, ?_, ?_, ?_⟩
  · rw [Frame.encode_append, Frame.encode_singleton, ← hsent]
    simp only [List.append_assoc]
  · have hnone : Frame.dataOf [f] = [] := by
      by_cases hcode : f.code = .data
      · simp [Frame.dataOf, hcode, hdata hcode]
      · simp [Frame.dataOf, hcode]
    rw [Frame.dataOf_append, hnone, List.append_nil, hgiven]
  · rw [Frame.messagesOf_append, Frame.messagesOf_append, hmessages]
  · intro g hg
    rcases List.mem_append.1 hg with hg | hg
    · exact hlens g hg
    · rw [List.mem_singleton.1 hg]
      exact hlen

/-- With the data in a frame of their own, all that was given is on its way. -/
theorem Carries.frames (h : a.Carries given messages) (hdata : a.data.length < 2 ^ 24) :
    ∃ fs, a.sent <+: Frame.encode fs ∧ Frame.dataOf fs = given ∧
      Frame.messagesOf fs = Frame.messagesOf messages ∧ (∀ f ∈ fs, f.payload.length < 2 ^ 24) ∧
      (a.frame = [] → a.data = [] → a.msgs = [] → a.sent = Frame.encode fs) := by
  obtain ⟨fs, hsent, hgiven, hmessages, hlen⟩ := h
  have hfront : a.sent <+: Frame.encode fs := ⟨_, hsent⟩
  by_cases hnil : a.data = []
  · rw [hnil, List.append_nil] at hgiven
    refine ⟨fs, hfront, hgiven, hmessages, hlen, fun hframe _ hmsgs => ?_⟩
    rw [← hsent, hframe, hmsgs]
    simp
  · refine ⟨fs ++ [⟨.data, a.data⟩], ?_, ?_, ?_, ?_, fun _ h _ => absurd h hnil⟩
    · rw [Frame.encode_append]
      exact hfront.trans (List.prefix_append _ _)
    · rw [Frame.dataOf_append, ← hgiven]
      simp [Frame.dataOf]
    · rw [Frame.messagesOf_append, hmessages]
      simp [Frame.messagesOf]
    · intro f hf
      rcases List.mem_append.1 hf with hf | hf
      · exact hlen f hf
      · rw [List.mem_singleton.1 hf]
        exact hdata

theorem left_round {need : Need} (hidle : ¬ a.Idle need) {k : ℕ} (hk : 0 < k) :
    (a.round need k).left < a.left := by
  unfold Stream.round
  split_ifs with hframe hstart
  · have hpos := List.length_pos_iff.2 hframe
    simp only [left, List.length_drop]
    omega
  · obtain ⟨hmsgs, hdata, -⟩ := hstart
    rw [not_not] at hframe
    simp only [left, hframe, hmsgs, if_neg hdata, Frame.bytes, List.length_drop, List.length_append,
      msgHeader_length, List.length_nil, if_true]
    omega
  · rw [not_not] at hframe
    have hmsgs : a.msgs ≠ [] := fun hmsgs => by
      by_cases hdata : a.data = []
      · exact hidle ⟨hframe, hmsgs, .inl hdata⟩
      · exact hidle ⟨hframe, hmsgs, .inr (by_contra fun hneed => hstart ⟨hmsgs, hdata, hneed⟩)⟩
    have hpos := List.length_pos_iff.2 hmsgs
    simp only [left, List.length_drop]
    omega

end Stream

/-! ## The buffers as a stream -/

/-- The buffers of `n` and `m` bytes stand for the stream `a`. -/
structure Outbound.Holds (n m : ℕ) (a : Stream) (s : Outbound) : Prop where
  out : OutHolds n a.frame a.data s.out s.rawDataHeaderPos s.rawFlushingEndsBefore
  msg : MsgHolds m a.msgs s.msg
  sent_eq : a.sent = s.sent

namespace Outbound.Holds

variable {n m : ℕ} {a : Stream} {s : Outbound}

theorem data_lt (h : s.Holds n m a) (hn : BufferSize n) : a.data.length < 2 ^ 24 := by
  have hlen := h.out.len_eq
  have hle := h.out.size_le
  have hlt := hn.lt
  rcases eq_or_ne a.data [] with hnil | hne
  · simp [hnil]
  · have hroom := h.out.len_le hne
    omega

theorem ends_ne_iff (h : s.Holds n m a) : s.rawFlushingEndsBefore ≠ 0 ↔ a.frame ≠ [] := by
  have hends := h.out.ends_eq
  by_cases hframe : a.frame = []
  · simp [hframe, hends]
  · rw [if_neg hframe] at hends
    have hpos := List.length_pos_iff.2 hframe
    exact iff_of_true (by omega) hframe

theorem len_lt_iff (h : s.Holds n m a) (hframe : a.frame = []) :
    outEmptyLen < s.out.len ↔ a.data ≠ [] := by
  have hlen := h.out.len_eq
  rw [hframe, List.length_nil] at hlen
  rw [← List.length_pos_iff, outEmptyLen]
  omega

theorem msg_len_eq_iff (h : s.Holds n m a) : s.msg.len = 0 ↔ a.msgs = [] := by
  rw [h.msg.len_eq, List.length_eq_zero_iff]

/-- A write from the output buffer. -/
theorem writeOut_out (hn : BufferSize n) (h : s.Holds n m a) (hframe : a.frame ≠ []) (k : ℕ) :
    ∃ j, (0 < k → 0 < j) ∧ (writeOut k s .out).Holds n m
      { a with frame := a.frame.drop j, sent := a.sent ++ a.frame.take j } := by
  have hends := h.out.ends_eq
  have hpos := h.out.pos_lt
  have hframePos := List.length_pos_iff.2 hframe
  have hne := h.ends_ne_iff.2 hframe
  rw [if_neg hframe] at hends
  have hwritable : writable s.rawFlushingEndsBefore s.out =
      min a.frame.length (s.out.size - s.out.pos) := by
    unfold writable
    rw [if_pos hne, hends]
    dsimp only
    split_ifs <;> omega
  have hle : min k (writable s.rawFlushingEndsBefore s.out) ≤ a.frame.length := by omega
  have hfit : s.out.pos + min k (writable s.rawFlushingEndsBefore s.out) ≤ s.out.size := by omega
  refine ⟨min k (writable s.rawFlushingEndsBefore s.out), by omega,
    h.out.advance hn hframe hle hfit, h.msg, ?_⟩
  show a.sent ++ _ = s.sent ++ zslice s.out.buf s.out.pos _
  rw [h.sent_eq, h.out.zslice_eq hle hfit]

/-- A write from the message buffer. -/
theorem writeOut_msg (hm : BufferSize m) (h : s.Holds n m a) (hframe : a.frame = [])
    (hmsgs : a.msgs ≠ []) (k : ℕ) :
    ∃ j, (0 < k → 0 < j) ∧ (writeOut k s .msg).Holds n m
      { a with msgs := a.msgs.drop j, sent := a.sent ++ a.msgs.take j } := by
  have hends : s.rawFlushingEndsBefore = 0 := by
    rw [h.out.ends_eq, if_pos hframe]
  have hpos := h.msg.pos_lt
  have hlen := h.msg.len_eq
  have hmsgsPos := List.length_pos_iff.2 hmsgs
  have hwritable : writable s.rawFlushingEndsBefore s.msg =
      min a.msgs.length (s.msg.size - s.msg.pos) := by
    unfold writable
    simp only [hends, ne_eq, not_true_eq_false, if_false, hlen]
    split_ifs <;> omega
  have hle : min k (writable s.rawFlushingEndsBefore s.msg) ≤ s.msg.len := by omega
  have hfit : s.msg.pos + min k (writable s.rawFlushingEndsBefore s.msg) ≤ s.msg.size := by omega
  obtain ⟨hadvance, hends'⟩ := h.msg.advance hm hle hfit
  refine ⟨min k (writable s.rawFlushingEndsBefore s.msg), by omega, ?_, ?_, ?_⟩
  · show OutHolds n a.frame a.data s.out s.rawDataHeaderPos
      (advanceBuf 0 (min k (writable s.rawFlushingEndsBefore s.msg)) s.rawFlushingEndsBefore s.msg).2
    have hout := h.out
    rw [hends] at hout hends' ⊢
    rw [hends']
    exact hout
  · show MsgHolds m _
      (advanceBuf 0 (min k (writable s.rawFlushingEndsBefore s.msg)) s.rawFlushingEndsBefore s.msg).1
    rw [hends] at hadvance ⊢
    exact hadvance
  · show a.sent ++ _ = s.sent ++ zslice s.msg.buf s.msg.pos _
    rw [h.sent_eq, h.msg.zslice_eq hle hfit]

/-- **A pass of `perform_io` is a step of the stream**, which writes something if `write` takes
    something. -/
theorem ioRound (hn : BufferSize n) (hm : BufferSize m) (h : s.Holds n m a) (need : Need) (k : ℕ) :
    ∃ j, (0 < k → 0 < j) ∧ (ioRound need k s).Holds n m (a.round need j) := by
  unfold CloudEdgeBackup.ioRound selectOut
  by_cases hframe : a.frame = []
  swap
  · have hends := h.ends_ne_iff.2 hframe
    obtain ⟨j, hj, hwritten⟩ := h.writeOut_out hn hframe k
    refine ⟨j, hj, ?_⟩
    rw [if_pos (.inl hends), if_neg hends, Stream.round, if_pos hframe]
    exact hwritten
  have hends : s.rawFlushingEndsBefore = 0 := by
    rw [h.out.ends_eq, if_pos hframe]
  simp only [hends, ne_eq, not_true_eq_false, false_or, h.len_lt_iff hframe, h.msg_len_eq_iff,
    if_true]
  by_cases hstart : a.msgs = [] ∧ a.data ≠ [] ∧ need ≠ .msgRoom
  · have hdata := hstart.2.1
    have hout := h.out
    rw [hframe] at hout
    have hheld : (startFlush s).Holds n m
        { a with frame := (Frame.mk .data a.data).bytes, data := [] } :=
      ⟨hout.startFlush hn hdata, h.msg, h.sent_eq⟩
    have hne : (Frame.mk .data a.data).bytes ≠ [] := fun hnil => by
      have hlen := congrArg List.length hnil
      rw [Frame.bytes, List.length_append, msgHeader_length, List.length_nil] at hlen
      omega
    obtain ⟨j, hj, hwritten⟩ := hheld.writeOut_out hn hne k
    refine ⟨j, hj, ?_⟩
    rw [if_pos hstart, Stream.round, if_neg (not_not.2 hframe), if_pos hstart]
    exact hwritten
  rw [if_neg hstart]
  by_cases hmsgs : a.msgs = []
  · refine ⟨k, id, ?_⟩
    have hsame : { a with msgs := a.msgs.drop k, sent := a.sent ++ a.msgs.take k } = a := by
      cases a
      simp_all
    rw [if_neg (not_not.2 hmsgs), Stream.round, if_neg (not_not.2 hframe), if_neg hstart, hsame]
    exact h
  · obtain ⟨j, hj, hwritten⟩ := h.writeOut_msg hm hframe hmsgs k
    refine ⟨j, hj, ?_⟩
    rw [if_pos hmsgs, Stream.round, if_neg (not_not.2 hframe), if_neg hstart]
    exact hwritten

theorem appendOut (h : s.Holds n m a) {bs : Bytes} (hroom : s.out.len + bs.length ≤ s.out.size) :
    (appendOut bs s).Holds n m { a with data := a.data ++ bs } :=
  ⟨h.out.append hroom, h.msg, h.sent_eq⟩

theorem appendMsg (h : s.Holds n m a) {f : Frame}
    (hroom : s.msg.len + (f.payload.length + 4 + 3) ≤ s.msg.size) :
    (appendMsg f s).Holds n m { a with msgs := a.msgs ++ f.bytes } :=
  ⟨h.out, h.msg.append hroom, h.sent_eq⟩

theorem start {outBuf msgBuf : Bytes} (hn : BufferSize outBuf.length)
    (hm : BufferSize msgBuf.length) :
    (ioStartMultiplexOut outBuf msgBuf).Holds outBuf.length msgBuf.length ⟨[], [], [], []⟩ := by
  refine ⟨OutHolds.blank hn rfl rfl rfl rfl, ?_, rfl⟩
  exact ⟨rfl, le_rfl, by simp [ioStartMultiplexOut], hm.pos, Nat.zero_le _, fun _ => rfl, rfl,
    fun hlt => absurd hlt (lt_irrefl _)⟩

end Outbound.Holds

/-! ## Runs -/

/-- The states of the buffers after any interleaving of passes of `perform_io`, copies of
    `write_buf` and copies of `send_msg`, with the data and the messages given so far.  `MSG_DATA`
    messages given to `send_msg` are the empty ones of `maybe_send_keepalive`. -/
inductive Runs (outBuf msgBuf : Bytes) : Bytes → List Frame → Outbound → Prop
  | start : Runs outBuf msgBuf [] [] (ioStartMultiplexOut outBuf msgBuf)
  | round {given messages s} (need : Need) (k : ℕ) (h : Runs outBuf msgBuf given messages s) :
    Runs outBuf msgBuf given messages (ioRound need k s)
  | write {given messages s} (bs : Bytes) (h : Runs outBuf msgBuf given messages s)
    (hroom : s.out.len + bs.length ≤ s.out.size) :
    Runs outBuf msgBuf (given ++ bs) messages (appendOut bs s)
  | send {given messages s} (f : Frame) (h : Runs outBuf msgBuf given messages s)
    (hroom : s.msg.len + (f.payload.length + 4 + 3) ≤ s.msg.size)
    (hdata : f.code = .data → f.payload = []) :
    Runs outBuf msgBuf given (messages ++ [f]) (appendMsg f s)

variable {outBuf msgBuf given : Bytes} {messages : List Frame} {s : Outbound}

/-- In every run the buffers hold a stream that carries what was given. -/
theorem Runs.holds (hn : BufferSize outBuf.length) (hm : BufferSize msgBuf.length)
    (h : Runs outBuf msgBuf given messages s) :
    ∃ a, s.Holds outBuf.length msgBuf.length a ∧ a.Carries given messages := by
  induction h with
  | start => exact ⟨_, .start hn hm, [], by simp [Frame.encode], rfl, rfl, by simp⟩
  | round need k _ ih =>
    obtain ⟨a, ha, hcarries⟩ := ih
    obtain ⟨j, -, hround⟩ := ha.ioRound hn hm need k
    exact ⟨_, hround, hcarries.round (ha.data_lt hn) need j⟩
  | write bs _ hroom ih =>
    obtain ⟨a, ha, hcarries⟩ := ih
    exact ⟨_, ha.appendOut hroom, hcarries.write bs⟩
  | send f _ hroom hdata ih =>
    obtain ⟨a, ha, hcarries⟩ := ih
    have hle := ha.msg.size_le
    have hlt := hm.lt
    exact ⟨_, ha.appendMsg hroom, hcarries.send (by omega) hdata⟩

/-- The frames a run writes. -/
theorem Runs.frames (hn : BufferSize outBuf.length) (hm : BufferSize msgBuf.length)
    (h : Runs outBuf msgBuf given messages s) :
    ∃ fs, s.sent <+: Frame.encode fs ∧ Frame.dataOf fs = given ∧
      Frame.messagesOf fs = Frame.messagesOf messages ∧ (∀ f ∈ fs, f.payload.length < 2 ^ 24) ∧
      (s.out.len = outEmptyLen → s.msg.len = 0 → s.sent = Frame.encode fs) := by
  obtain ⟨a, ha, hcarries⟩ := h.holds hn hm
  obtain ⟨fs, hfront, hdata, hmessages, hlen, hall⟩ := hcarries.frames (ha.data_lt hn)
  rw [ha.sent_eq] at hfront hall
  refine ⟨fs, hfront, hdata, hmessages, hlen, fun hout hmsg => ?_⟩
  have hlenOut := ha.out.len_eq
  rw [outEmptyLen] at hout
  exact hall (List.length_eq_zero_iff.1 (by omega)) (List.length_eq_zero_iff.1 (by omega))
    (ha.msg_len_eq_iff.1 hmsg)

/-- **Framing of the output**: whatever the order of `write_buf` and `send_msg` and however
    little each `write` takes, what has been written is the front of whole frames, with all the
    data and all the messages in the order they were given; with empty buffers it is these
    frames.  No write goes outside the buffers. -/
theorem multiplexed_frames (hn : BufferSize outBuf.length) (hm : BufferSize msgBuf.length)
    (h : Runs outBuf msgBuf given messages s) :
    (∃ fs, s.sent <+: Frame.encode fs ∧ Frame.dataOf fs = given ∧
      Frame.messagesOf fs = Frame.messagesOf messages ∧ (∀ f ∈ fs, f.payload.length < 2 ^ 24) ∧
      (s.out.len = outEmptyLen → s.msg.len = 0 → s.sent = Frame.encode fs)) ∧
    s.out.buf.length = outBuf.length ∧ s.msg.buf.length = msgBuf.length := by
  obtain ⟨a, ha, -⟩ := h.holds hn hm
  exact ⟨h.frames hn hm, ha.out.buf_length, ha.msg.buf_length⟩

/-- Empty buffers of 256 bytes. -/
def blankOutbound : Outbound := ioStartMultiplexOut (List.replicate 256 0) (List.replicate 256 0)

theorem bufferSize_blank : BufferSize (List.replicate 256 (0 : UInt8)).length := by
  rw [List.length_replicate]
  exact ⟨by norm_num, by norm_num, by norm_num⟩

/-- A message given while three bytes of a `MSG_DATA` frame were written. -/
def tornOutbound : Outbound :=
  ioRound .input 5 (appendMsg ⟨.info, [65]⟩ (ioRound .input 3 (appendOut [1, 2] blankOutbound)))

theorem multiplexed_frames_torn :
    ∃ fs, tornOutbound.sent <+: Frame.encode fs ∧ Frame.dataOf fs = [1, 2] ∧
      Frame.messagesOf fs = [⟨.info, [65]⟩] := by
  obtain ⟨⟨fs, hfront, hdata, hmessages, -⟩, -⟩ :=
    multiplexed_frames bufferSize_blank bufferSize_blank
      (.round .input 5 (.send ⟨.info, [65]⟩ (.round .input 3 (.write [1, 2] .start
        (by decide +kernel))) (by decide +kernel) (by simp)))
  exact ⟨fs, hfront, hdata, hmessages⟩

/-! ## The calls -/

/-- How a call ends: it returns, it still waits for `write`, or it exits. -/
inductive IoEnd | done | waiting | protocolError
deriving DecidableEq

/-- The condition at the top of the loop of `perform_io`. -/
def hasRoom (need : Need) (needed : ℕ) (s : Outbound) : Bool :=
  match need with
  | .input => false
  | .outRoom => s.out.len + needed ≤ s.out.size
  | .msgRoom => s.msg.len + needed ≤ s.msg.size

/-- The loop of `perform_io`, while `write` takes the numbers of bytes of the list. -/
def ioLoop (need : Need) (needed : ℕ) : List ℕ → Outbound → Outbound × IoEnd
  | [], s => (s, if hasRoom need needed s then .done else .waiting)
  | k :: ks, s =>
    if hasRoom need needed s then (s, .done) else ioLoop need needed ks (ioRound need k s)

/-- Whether the buffer is too small for what `perform_io` is called for. -/
def tooMuch (need : Need) (needed : ℕ) (s : Outbound) : Bool :=
  match need with
  | .input => false
  | .outRoom => s.out.size - outEmptyLen < needed
  | .msgRoom => s.msg.size < needed

def performIo (need : Need) (needed : ℕ) (ks : List ℕ) (s : Outbound) : Outbound × IoEnd :=
  if tooMuch need needed s then (s, .protocolError) else ioLoop need needed ks s

def writeBuf (bs : Bytes) (ks : List ℕ) (s : Outbound) : Outbound × IoEnd :=
  if s.out.size < s.out.len + bs.length then
    match performIo .outRoom bs.length ks s with
    | (s, .done) => (appendOut bs s, .done)
    | r => r
  else (appendOut bs s, .done)

def sendMsg (f : Frame) (ks : List ℕ) (s : Outbound) : Outbound × IoEnd :=
  let needed := f.payload.length + 4 + 3
  if s.msg.size < s.msg.len + needed then
    match performIo .msgRoom needed ks s with
    | (s, .done) => (appendMsg f s, .done)
    | r => r
  else (appendMsg f s, .done)

/-- The first half of `io_flush`; `size_t` has 64 bits. -/
def flushOut (flushItAll : Bool) (ks : List ℕ) (s : Outbound) : Outbound × IoEnd :=
  if outEmptyLen < s.out.len then
    performIo .outRoom (if flushItAll then s.out.size - outEmptyLen
      else (s.out.size + 2 ^ 64 - s.out.len + 1) % 2 ^ 64) ks s
  else (s, .done)

/-- The second half of `io_flush`. -/
def flushMsg (ks : List ℕ) (s : Outbound) : Outbound × IoEnd :=
  if s.msg.len ≠ 0 then performIo .msgRoom s.msg.size ks s else (s, .done)

def ioFlush (flushItAll : Bool) (ks ks' : List ℕ) (s : Outbound) : Outbound × IoEnd :=
  match flushOut flushItAll ks s with
  | (s, .done) => flushMsg ks' s
  | r => r

theorem Runs.afterLoop (h : Runs outBuf msgBuf given messages s) (need : Need) (needed : ℕ)
    (ks : List ℕ) : Runs outBuf msgBuf given messages (ioLoop need needed ks s).1 := by
  induction ks generalizing s with
  | nil => exact h
  | cons k ks ih =>
    unfold ioLoop
    split_ifs
    · exact h
    · exact ih (h.round need k)

theorem ioLoop_done {need : Need} {needed : ℕ} {ks : List ℕ}
    (h : (ioLoop need needed ks s).2 = .done) : hasRoom need needed (ioLoop need needed ks s).1 := by
  induction ks generalizing s with
  | nil =>
    by_contra hroom
    rw [Bool.not_eq_true] at hroom
    simp [ioLoop, show hasRoom need needed s = false from hroom] at h
  | cons k ks ih =>
    unfold ioLoop at h ⊢
    split_ifs at h ⊢ with hroom
    · exact hroom
    · exact ih h

theorem ioLoop_ne_protocolError {need : Need} {needed : ℕ} (ks : List ℕ) (s : Outbound) :
    (ioLoop need needed ks s).2 ≠ .protocolError := by
  induction ks generalizing s with
  | nil =>
    unfold ioLoop
    split_ifs <;> simp
  | cons k ks ih =>
    unfold ioLoop
    split_ifs
    · simp
    · exact ih _

/-- **`write_buf` as a run**: when it returns, its data have been given. -/
theorem Runs.afterWriteBuf (h : Runs outBuf msgBuf given messages s) (bs : Bytes) (ks : List ℕ) :
    Runs outBuf msgBuf (if (writeBuf bs ks s).2 = .done then given ++ bs else given) messages
      (writeBuf bs ks s).1 := by
  unfold writeBuf performIo
  by_cases hfull : s.out.size < s.out.len + bs.length
  · rw [if_pos hfull]
    by_cases hmuch : tooMuch .outRoom bs.length s
    · simpa [hmuch] using h
    have hloop := h.afterLoop .outRoom bs.length ks
    have hroom : (ioLoop .outRoom bs.length ks s).2 = .done → _ := ioLoop_done
    rw [if_neg hmuch]
    generalize ioLoop .outRoom bs.length ks s = r at hloop hroom
    obtain ⟨s', _ | _ | _⟩ := r
    · exact hloop.write bs (by simpa [hasRoom] using hroom rfl)
    · exact hloop
    · exact hloop
  · rw [if_neg hfull]
    exact h.write bs (not_lt.1 hfull)

/-- **`send_msg` as a run.** -/
theorem Runs.afterSendMsg (h : Runs outBuf msgBuf given messages s) {f : Frame}
    (hdata : f.code = .data → f.payload = []) (ks : List ℕ) :
    Runs outBuf msgBuf given (if (sendMsg f ks s).2 = .done then messages ++ [f] else messages)
      (sendMsg f ks s).1 := by
  unfold sendMsg performIo
  dsimp only
  by_cases hfull : s.msg.size < s.msg.len + (f.payload.length + 4 + 3)
  · rw [if_pos hfull]
    by_cases hmuch : tooMuch .msgRoom (f.payload.length + 4 + 3) s
    · simpa [hmuch] using h
    have hloop := h.afterLoop .msgRoom (f.payload.length + 4 + 3) ks
    have hroom : (ioLoop .msgRoom (f.payload.length + 4 + 3) ks s).2 = .done → _ := ioLoop_done
    rw [if_neg hmuch]
    generalize ioLoop .msgRoom (f.payload.length + 4 + 3) ks s = r at hloop hroom
    obtain ⟨s', _ | _ | _⟩ := r
    · exact hloop.send f (by simpa [hasRoom] using hroom rfl) hdata
    · exact hloop
    · exact hloop
  · rw [if_neg hfull]
    exact h.send f (not_lt.1 hfull) hdata

/-! ## Flushing -/

namespace Outbound.Holds

variable {n m : ℕ} {a : Stream} {s : Outbound}

theorem left_le (h : s.Holds n m a) : a.left ≤ n + 4 + m := by
  have hout := h.out.len_eq
  have hmsg := h.msg.len_eq
  have hframe := h.out.frame_le
  have hsize := h.out.size_le
  have hmsgLe := h.msg.len_le
  have hmsgSize := h.msg.size_le
  unfold Stream.left
  split_ifs with hdata
  · omega
  · have hroom := h.out.len_le hdata
    omega

/-- Nothing can be written only where there is all the room the buffers have. -/
theorem hasRoom_of_idle (h : s.Holds n m a) {need : Need} {needed : ℕ} (hidle : a.Idle need)
    (hinput : need ≠ .input) (hout : need = .outRoom → needed + outEmptyLen ≤ n)
    (hmsg : need = .msgRoom → needed ≤ m) : hasRoom need needed s := by
  obtain ⟨hframe, hmsgs, hdata⟩ := hidle
  cases need with
  | input => exact absurd rfl hinput
  | outRoom =>
    have hnil : a.data = [] := hdata.resolve_right (by simp)
    have hlen := h.out.len_eq
    have hfull : ¬ s.out.size < n := fun hlt => (h.out.shortened hlt).1 hframe
    have hneeded := hout rfl
    rw [hframe, hnil] at hlen
    simp only [hasRoom, decide_eq_true_eq, outEmptyLen, List.length_nil] at hneeded hlen ⊢
    omega
  | msgRoom =>
    have hlen := h.msg_len_eq_iff.2 hmsgs
    have hstart := h.msg.empty_pos hlen
    have hpos := h.msg.pos_lt
    have hfull : ¬ s.msg.size < m := fun hlt => by
      have hshort := h.msg.shortened hlt
      omega
    have hneeded := hmsg rfl
    simp only [hasRoom, decide_eq_true_eq]
    omega

/-- **Writes that take something make room**, in as many passes as there are bytes. -/
theorem ioLoop_done (hn : BufferSize n) (hm : BufferSize m) {need : Need} {needed : ℕ}
    (hinput : need ≠ .input) (hout : need = .outRoom → needed + outEmptyLen ≤ n)
    (hmsg : need = .msgRoom → needed ≤ m) {ks : List ℕ} (hks : ∀ k ∈ ks, 0 < k)
    (h : s.Holds n m a) (hlen : a.left ≤ ks.length) : (ioLoop need needed ks s).2 = .done := by
  induction ks generalizing s a with
  | nil =>
    have hidle : a.Idle need := by_contra fun hidle => by
      have hlt := Stream.left_round hidle Nat.one_pos
      rw [List.length_nil] at hlen
      omega
    rw [ioLoop, if_pos (h.hasRoom_of_idle hidle hinput hout hmsg)]
  | cons k ks ih =>
    unfold ioLoop
    split_ifs with hroom
    · rfl
    have hidle : ¬ a.Idle need := fun hidle => hroom (h.hasRoom_of_idle hidle hinput hout hmsg)
    obtain ⟨j, hj, hround⟩ := h.ioRound hn hm need k
    have hlt := Stream.left_round hidle (hj (hks k List.mem_cons_self))
    rw [List.length_cons] at hlen
    exact ih (fun k' hk' => hks k' (List.mem_cons_of_mem _ hk')) hround (by omega)

/-- While messages are waited for, no data are added to a frame. -/
theorem out_len_le (hn : BufferSize n) (hm : BufferSize m) (h : s.Holds n m a) (k : ℕ) :
    (CloudEdgeBackup.ioRound .msgRoom k s).out.len ≤ s.out.len := by
  obtain ⟨j, -, hround⟩ := h.ioRound hn hm .msgRoom k
  rw [hround.out.len_eq, h.out.len_eq, Stream.round]
  split_ifs with hframe hstart
  · simp only [List.length_drop]
    omega
  · exact absurd rfl hstart.2.2
  · exact le_rfl

end Outbound.Holds

theorem le_restoreIobufSize {b : Xbuf} {k : ℕ} (h : k ≤ b.size) :
    k ≤ (restoreIobufSize b).size := by
  rw [restoreIobufSize_eq]
  split_ifs
  · show k ≤ b.size / 256 * 256 + 256
    omega
  · exact h

theorem advanceBuf_size_le (emptyLen k ends : ℕ) (b : Xbuf) :
    b.size ≤ (advanceBuf emptyLen k ends b).1.size := by
  unfold advanceBuf
  dsimp only
  by_cases hfit : b.pos + k = b.size
  · have hmoved : b.size ≤ (restoreIobufSize { b with pos := 0 }).size :=
      le_restoreIobufSize le_rfl
    rw [if_pos hfit]
    dsimp only
    split_ifs
    · exact le_restoreIobufSize hmoved
    · exact hmoved
  · rw [if_neg hfit]
    dsimp only
    split_ifs
    · exact le_restoreIobufSize le_rfl
    · exact le_rfl

/-- Writing never shortens the message buffer. -/
theorem msg_size_le (need : Need) (k : ℕ) (s : Outbound) :
    s.msg.size ≤ (ioRound need k s).msg.size := by
  unfold ioRound selectOut
  split_ifs
  · exact le_rfl
  · exact le_rfl
  · exact advanceBuf_size_le _ _ _ _
  · exact le_rfl

theorem msg_size_le_ioLoop (need : Need) (needed : ℕ) (ks : List ℕ) (s : Outbound) :
    s.msg.size ≤ (ioLoop need needed ks s).1.msg.size := by
  induction ks generalizing s with
  | nil => exact le_rfl
  | cons k ks ih =>
    unfold ioLoop
    split_ifs
    · exact le_rfl
    · exact (msg_size_le need k s).trans (ih _)

theorem Runs.out_len_le_ioLoop (hn : BufferSize outBuf.length) (hm : BufferSize msgBuf.length)
    (h : Runs outBuf msgBuf given messages s) (needed : ℕ) (ks : List ℕ) :
    (ioLoop .msgRoom needed ks s).1.out.len ≤ s.out.len := by
  induction ks generalizing s with
  | nil => exact le_rfl
  | cons k ks ih =>
    obtain ⟨a, ha, -⟩ := h.holds hn hm
    unfold ioLoop
    split_ifs
    · exact le_rfl
    · exact (ih (h.round .msgRoom k)).trans (ha.out_len_le hn hm k)

theorem flushMsg_ne_protocolError (ks : List ℕ) (s : Outbound) :
    (flushMsg ks s).2 ≠ .protocolError := by
  unfold flushMsg performIo
  rw [if_neg (show ¬ tooMuch .msgRoom s.msg.size s = true by simp [tooMuch])]
  split_ifs
  · exact ioLoop_ne_protocolError _ _
  · simp

theorem Runs.flushMsg_done (hn : BufferSize outBuf.length) (hm : BufferSize msgBuf.length)
    (h : Runs outBuf msgBuf given messages s) {ks : List ℕ} (hks : ∀ k ∈ ks, 0 < k)
    (hlen : outBuf.length + 4 + msgBuf.length ≤ ks.length) :
    (flushMsg ks s).2 = .done ∧ (flushMsg ks s).1.out.len ≤ s.out.len ∧
      (flushMsg ks s).1.msg.len ≤ msgBuf.length - s.msg.size := by
  obtain ⟨a, ha, -⟩ := h.holds hn hm
  unfold flushMsg performIo
  rw [if_neg (show ¬ tooMuch .msgRoom s.msg.size s = true by simp [tooMuch])]
  split_ifs with hmsg
  · have hdone : (ioLoop .msgRoom s.msg.size ks s).2 = .done :=
      ha.ioLoop_done hn hm (by simp) (by simp) (fun _ => ha.msg.size_le) hks (ha.left_le.trans hlen)
    obtain ⟨a', ha', -⟩ := (h.afterLoop .msgRoom s.msg.size ks).holds hn hm
    have hsize := ha'.msg.size_le
    have hroom := ioLoop_done hdone
    simp only [hasRoom, decide_eq_true_eq] at hroom
    exact ⟨hdone, h.out_len_le_ioLoop hn hm s.msg.size ks, by omega⟩
  · rw [not_not] at hmsg
    exact ⟨rfl, le_rfl, hmsg.trans_le (Nat.zero_le _)⟩

theorem flushOut_full_ne_protocolError (ks : List ℕ) (s : Outbound) :
    (flushOut true ks s).2 ≠ .protocolError := by
  unfold flushOut performIo
  rw [if_pos rfl, if_neg (show ¬ tooMuch .outRoom (s.out.size - outEmptyLen) s = true by
    simp [tooMuch])]
  split_ifs
  · exact ioLoop_ne_protocolError _ _
  · simp

theorem Runs.flushOut_done (hn : BufferSize outBuf.length) (hm : BufferSize msgBuf.length)
    (h : Runs outBuf msgBuf given messages s) {ks : List ℕ} (hks : ∀ k ∈ ks, 0 < k)
    (hlen : outBuf.length + 4 + msgBuf.length ≤ ks.length) :
    (flushOut true ks s).2 = .done ∧ Runs outBuf msgBuf given messages (flushOut true ks s).1 ∧
      (flushOut true ks s).1.out.len ≤ outEmptyLen + (outBuf.length - s.out.size) ∧
      s.msg.size ≤ (flushOut true ks s).1.msg.size := by
  obtain ⟨a, ha, -⟩ := h.holds hn hm
  unfold flushOut performIo
  rw [if_pos rfl, if_neg (show ¬ tooMuch .outRoom (s.out.size - outEmptyLen) s = true by
    simp [tooMuch])]
  have hle := ha.out.size_le
  have hge := ha.out.size_ge
  have hlow := hn.low
  have hpos := hn.pos
  split_ifs with hout
  · have hdone : (ioLoop .outRoom (s.out.size - outEmptyLen) ks s).2 = .done := by
      refine ha.ioLoop_done hn hm (by simp) (fun _ => ?_) (by simp) hks (ha.left_le.trans hlen)
      rw [outEmptyLen]
      omega
    have hrun := h.afterLoop .outRoom (s.out.size - outEmptyLen) ks
    obtain ⟨a', ha', -⟩ := hrun.holds hn hm
    have hsize := ha'.out.size_le
    have hroom := ioLoop_done hdone
    simp only [hasRoom, decide_eq_true_eq] at hroom
    refine ⟨hdone, hrun, ?_, msg_size_le_ioLoop _ _ _ _⟩
    rw [outEmptyLen] at *
    omega
  · exact ⟨rfl, h, (not_lt.1 hout).trans (Nat.le_add_right _ _), le_rfl⟩

theorem flushOut_normal_protocolError_iff {s : Outbound} (hsize : 4 ≤ s.out.size)
    (hlt : s.out.size < 2 ^ 24) (hlen : s.out.len ≤ s.out.size + 4) (ks : List ℕ) :
    (flushOut false ks s).2 = .protocolError ↔ s.out.size + 1 < s.out.len := by
  have hneeded : s.out.size - outEmptyLen < (s.out.size + 2 ^ 64 - s.out.len + 1) % 2 ^ 64 ∧
      outEmptyLen < s.out.len ↔ s.out.size + 1 < s.out.len := by
    rw [outEmptyLen]
    rcases le_or_gt s.out.len (s.out.size + 1) with hle | hgt
    · have hmod : (s.out.size + 2 ^ 64 - s.out.len + 1) % 2 ^ 64 = s.out.size + 1 - s.out.len := by
        rw [show s.out.size + 2 ^ 64 - s.out.len + 1 = s.out.size + 1 - s.out.len + 2 ^ 64 by omega,
          Nat.add_mod_right, Nat.mod_eq_of_lt (by omega)]
      rw [hmod]
      omega
    · rw [Nat.mod_eq_of_lt (by omega)]
      omega
  unfold flushOut performIo
  rw [← hneeded, if_neg (show ¬ false = true by simp)]
  by_cases hout : outEmptyLen < s.out.len
  · rw [if_pos hout]
    by_cases hmuch : s.out.size - outEmptyLen < (s.out.size + 2 ^ 64 - s.out.len + 1) % 2 ^ 64
    · rw [if_pos (by simpa [tooMuch] using hmuch)]
      exact iff_of_true rfl ⟨hmuch, hout⟩
    · rw [if_neg (by simpa [tooMuch] using hmuch)]
      exact iff_of_false (ioLoop_ne_protocolError _ _) fun hand => hmuch hand.1
  · rw [if_neg hout]
    exact iff_of_false (by simp) fun hand => hout hand.2

/-- **`io_flush`** in any state a run comes to.  `FULL_FLUSH` never fails; with writes that take
    something it returns, and leaves at most as many bytes behind in a buffer as were missing
    from its size when it was called.  `NORMAL_FLUSH` exits with a protocol error exactly when the
    header that was made room for goes two bytes or more past the size of the output buffer. -/
theorem ioFlush_ends (hn : BufferSize outBuf.length) (hm : BufferSize msgBuf.length)
    (h : Runs outBuf msgBuf given messages s) (ks ks' : List ℕ) :
    (ioFlush true ks ks' s).2 ≠ .protocolError ∧
    ((∀ k ∈ ks ++ ks', 0 < k) → outBuf.length + 4 + msgBuf.length ≤ ks.length →
      outBuf.length + 4 + msgBuf.length ≤ ks'.length →
      (ioFlush true ks ks' s).2 = .done ∧
        (ioFlush true ks ks' s).1.out.len ≤ outEmptyLen + (outBuf.length - s.out.size) ∧
        (ioFlush true ks ks' s).1.msg.len ≤ msgBuf.length - s.msg.size) ∧
    ((ioFlush false ks ks' s).2 = .protocolError ↔ s.out.size + 1 < s.out.len) := by
  refine ⟨?_, fun hpos hks hks' => ?_, ?_⟩
  · have hout := flushOut_full_ne_protocolError ks s
    unfold ioFlush
    split
    · exact flushMsg_ne_protocolError _ _
    · exact hout
  · obtain ⟨hdone, hrun, hlen, hsize⟩ :=
      h.flushOut_done hn hm (fun k hk => hpos k (List.mem_append_left _ hk)) hks
    obtain ⟨hdone', hout, hmsg⟩ :=
      hrun.flushMsg_done hn hm (fun k hk => hpos k (List.mem_append_right _ hk)) hks'
    have hflush : ioFlush true ks ks' s = flushMsg ks' (flushOut true ks s).1 := by
      unfold ioFlush
      rw [← Prod.eta (flushOut true ks s), hdone]
    rw [hflush]
    exact ⟨hdone', hout.trans hlen, by omega⟩
  · obtain ⟨a, ha, -⟩ := h.holds hn hm
    have hsize : 4 ≤ s.out.size := (Nat.le_add_left ..).trans ha.out.header_fits
    have hlen : s.out.len ≤ s.out.size + 4 := by
      have hframe := ha.out.frame_le
      have hlen := ha.out.len_eq
      rcases eq_or_ne a.data [] with hnil | hne
      · rw [hnil, List.length_nil] at hlen
        omega
      · have hroom := ha.out.len_le hne
        omega
    have hiff := flushOut_normal_protocolError_iff hsize (ha.out.size_le.trans_lt hn.lt) hlen ks
    rw [← hiff]
    unfold ioFlush
    split
    · rename_i s' heq
      rw [heq]
      exact iff_of_false (flushMsg_ne_protocolError _ _) (by simp)
    · rfl

/-- A full buffer of which nothing could be written yet. -/
theorem ioFlush_ends_full :
    (ioFlush false [] [] (ioRound .input 0
      (appendOut (List.replicate 251 7) blankOutbound))).2 = .protocolError :=
  (ioFlush_ends bufferSize_blank bufferSize_blank
    (.round .input 0 (.write (List.replicate 251 7) .start (by decide +kernel))) [] []).2.2.2
      (by decide +kernel)

end CloudEdgeBackup
