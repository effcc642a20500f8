/-
  The token stream of a file (`token.c`).

  * `sendToken` and `recvToken` are the two sides, without compression and with
    it.  The compressor is a `Deflate.Pair`; its calls are those of the source,
    with its buffers, and a loop that calls it has its number of passes bounded
    by `fuel`;
  * of `recv_deflated_token`, one pass of its loop is `recvDeflatedPass`;
    `recvTokens` goes on until the last file has ended, and gives the data of a
    matched block to `see_token` as `receive_data` does;
  * `Gets` says what the receiver makes of its input, given enough fuel.
-/
import CloudEdgeBackup.Wire
import CloudEdgeBackup.Lib.Deflate

namespace CloudEdgeBackup

open Codec
open Deflate (Flush Status)

/-! ## Sending -/

/-- A call of `send_token`: the `n` bytes of `buf` at `offset`, and the `toklen` bytes
    after them. -/
structure SendCall where
  token : ℤ
  lit : Bytes
  block : Bytes

/-- The chunks of a literal with their lengths. -/
def writeLiteral (lit : Bytes) : Bytes :=
  if h : lit = [] then []
  else
    let n1 := min chunkSize lit.length
    writeInt n1 ++ lit.take n1 ++ writeLiteral (lit.drop n1)
termination_by lit.length
decreasing_by
  have := List.length_pos_of_ne_nil h
  simp only [List.length_drop, chunkSize]
  omega

def simpleSendToken (c : SendCall) : Bytes :=
  writeLiteral c.lit ++ if c.token ≠ -2 then writeInt (-(c.token + 1)) else []

abbrev endFlag : UInt8 := 0
abbrev tokenLong : ℤ := 0x20
abbrev tokenRunLong : ℤ := 0x21
abbrev deflatedData : ℤ := 0x40
abbrev tokenRel : ℤ := 0x80
abbrev tokenRunRel : ℤ := 0xc0

abbrev maxDataCount : ℕ := 16383

/-- The statics of `send_deflated_token`. -/
structure TxState (z : Deflate.Pair) where
  lastToken : ℤ
  runStart : ℤ
  lastRunEnd : ℤ
  strm : z.Tx
  flushPending : Bool

def TxState.init (z : Deflate.Pair) : TxState z := ⟨-1, 0, 0, z.deflateReset, false⟩

/-- A run of tokens. -/
def sendRun (runStart lastRunEnd lastToken : ℤ) : Bytes :=
  let r := int32 (runStart - lastRunEnd)
  let n := int32 (lastToken - runStart)
  (if 0 ≤ r ∧ r ≤ 63 then [toChar ((if n = 0 then tokenRel else tokenRunRel) + r)]
    else toChar (if n = 0 then tokenLong else tokenRunLong) :: writeInt runStart) ++
  if n ≠ 0 then [toChar n, toChar (n / 2 ^ 8)] else []

section Sending

variable {z : Deflate.Pair}

/-- The first part of `send_deflated_token`: the run before the call, if the call
    does not go on with it. -/
def sendPreviousRun (st : TxState z) (c : SendCall) : TxState z × Bytes :=
  if st.lastToken = -1 then (⟨c.token, c.token, 0, z.deflateReset, false⟩, [])
  else if st.lastToken = -2 then ({ st with lastToken := c.token, runStart := c.token }, [])
  else if c.lit ≠ [] ∨ c.token ≠ int32 (st.lastToken + 1) ∨ int32 (st.runStart + 65536) ≤ c.token then
    ({ st with lastToken := c.token, runStart := c.token, lastRunEnd := st.lastToken },
      sendRun st.runStart st.lastRunEnd st.lastToken)
  else ({ st with lastToken := c.token }, [])

/-- The state of the loop that deflates: `nb` is what has not been given to the
    compressor, `availIn` what it has not taken, `obuf` what stands in the output
    buffer. -/
structure DeflateLoop (z : Deflate.Pair) where
  strm : z.Tx
  nb : Bytes
  availIn : Bytes
  obuf : Bytes
  availOut : ℕ
  flush : Flush

/-- How many bytes stay in the output buffer: when flushing, they may be the last
    four of the flush. -/
def keptBack : Flush → ℕ
  | .no => 0
  | .sync => 4

/-- What the next pass finds in a buffer that was full. -/
def carried : Flush → Bytes → Bytes
  | .no, _ => []
  | .sync, obuf => obuf.drop (maxDataCount - 4)

/-- A `DEFLATED_DATA` record. -/
def dataRecord (d : Bytes) : Bytes :=
  toChar (deflatedData + d.length / 2 ^ 8) :: toChar d.length :: d

/-- What is written of the output buffer. -/
def writeData (obuf : Bytes) (n : ℕ) : Bytes := if 0 < n then dataRecord (obuf.take n) else []

/-- Input and output space for the next pass. -/
def DeflateLoop.feed (token : ℤ) (s : DeflateLoop z) : DeflateLoop z :=
  let more := s.availIn = [] ∧ s.nb ≠ []
  let nb := if more then s.nb.drop chunkSize else s.nb
  let obuf := if s.availOut = 0 then carried s.flush s.obuf else s.obuf
  { s with
    availIn := if more then s.nb.take chunkSize else s.availIn,
    nb := nb,
    obuf := obuf,
    availOut := if s.availOut = 0 then maxDataCount - obuf.length else s.availOut,
    flush := if nb = [] ∧ token ≠ -2 then .sync else s.flush }

/-- One pass of the loop, and what it writes: when flushing, all but the last four
    bytes. -/
def deflatePass (token : ℤ) (s : DeflateLoop z) : Option (DeflateLoop z × Bytes) :=
  let s := s.feed token
  (z.deflate s.strm s.flush s.availIn s.availOut).map fun r =>
    let obuf := s.obuf ++ r.2.2
    let availOut := s.availOut - r.2.2.length
    ({ s with strm := r.1, availIn := s.availIn.drop r.2.1, obuf := obuf, availOut := availOut },
      if s.nb = [] ∨ availOut = 0 then writeData obuf (maxDataCount - availOut - keptBack s.flush)
      else [])

def deflateLoop (token : ℤ) : ℕ → DeflateLoop z → Option (z.Tx × Bytes)
  | 0, _ => none
  | fuel + 1, s => do
    let r ← deflatePass token s
    if r.1.nb ≠ [] ∨ r.1.availOut = 0 then do
      let rs ← deflateLoop token fuel r.1
      some (rs.1, r.2 ++ rs.2)
    else some (r.1.strm, r.2)

/-- The block goes into the history of the compressor; older protocols give it the
    same data again and again. -/
def insertToken (protocolVersion : ℤ) (tx : z.Tx) (buf : Bytes) (toklen : ℕ) : Option z.Tx :=
  let n1 := min toklen Deflate.maxStored
  match z.insertOnly tx (buf.take n1) with
  | none => none
  | some tx =>
    if h : 0 < toklen - n1 then
      insertToken protocolVersion tx (if 31 ≤ protocolVersion then buf.drop n1 else buf) (toklen - n1)
    else some tx
termination_by toklen
decreasing_by
  simp only [Deflate.maxStored] at h ⊢
  omega

/-- The literal of the call, with what is held back of the one before. -/
def sendLiteral (fuel : ℕ) (st : TxState z) (c : SendCall) : Option (TxState z × Bytes) :=
  if c.lit ≠ [] ∨ st.flushPending then
    (deflateLoop c.token fuel ⟨st.strm, c.lit, [], [], 0, .no⟩).map fun r =>
      ({ st with strm := r.1, flushPending := decide (c.token = -2) }, r.2)
  else some (st, [])

/-- The end of the file, or the block into the history. -/
def sendEnd (doCompression : ℕ) (protocolVersion : ℤ) (st : TxState z) (c : SendCall) :
    Option (TxState z × Bytes) :=
  if c.token = -1 then some (st, [endFlag])
  else if c.token ≠ -2 ∧ doCompression = 1 then
    (insertToken protocolVersion st.strm c.block c.block.length).map fun strm =>
      ({ st with strm := strm }, [])
  else some (st, [])

def sendDeflatedToken (doCompression : ℕ) (protocolVersion : ℤ) (fuel : ℕ) (st : TxState z)
    (c : SendCall) : Option (TxState z × Bytes) := do
  let b := sendPreviousRun st c
  let r ← sendLiteral fuel b.1 c
  let e ← sendEnd doCompression protocolVersion r.1 c
  some (e.1, b.2 ++ r.2 ++ e.2)

def sendToken (doCompression : ℕ) (protocolVersion : ℤ) (fuel : ℕ) (st : TxState z) (c : SendCall) :
    Option (TxState z × Bytes) :=
  if doCompression = 0 then some (st, simpleSendToken c)
  else sendDeflatedToken doCompression protocolVersion fuel st c

/-- Calls of `send_token` one after the other. -/
def sendTokens (doCompression : ℕ) (protocolVersion : ℤ) (fuel : ℕ) (calls : List SendCall) :
    Option (TxState z × Bytes) :=
  writeAll (sendToken doCompression protocolVersion fuel) (.init z) calls

end Sending

/-! ## Receiving -/

/-- `recv_state`: what the receiver is in the middle of doing. -/
inductive TokenRecvState
  | init
  | idle
  | running
  | inflating
  | inflated
deriving DecidableEq

/-- The statics of the receiving functions. -/
structure RxState (z : Deflate.Pair) where
  residue : ℕ
  state : TokenRecvState
  rx : z.Rx
  availIn : Bytes
  savedFlag : Option UInt8
  rxToken : ℤ
  rxRun : ℤ

def RxState.start (z : Deflate.Pair) : RxState z := ⟨0, .init, z.inflateReset, [], none, 0, 0⟩

/-- What `recv_token` returns, with the data if it is positive. -/
structure Ret where
  ret : ℤ
  data : Bytes

section Receiving

variable {z : Deflate.Pair}

/-- The next chunk of a literal of `residue` bytes. -/
def recvLiteral (st : RxState z) (residue : ℕ) : In (RxState z × Option Ret) := do
  let n := min chunkSize residue
  let buf ← getN n
  pure ({ st with residue := residue - n }, some ⟨n, buf⟩)

def simpleRecvToken (st : RxState z) : In (RxState z × Option Ret) :=
  if st.residue = 0 then do
    let i ← readInt
    if i ≤ 0 then pure (st, some ⟨i, []⟩) else recvLiteral st i.toNat
  else recvLiteral st st.residue

/-- The number of the first token of a run. -/
def recvTokenNumber (st : RxState z) (flag : UInt8) : In ℤ :=
  if flag &&& 0x80 ≠ 0 then pure (int32 (st.rxToken + (flag &&& 0x3f).toNat)) else readInt

/-- A flag other than `DEFLATED_DATA`, when nothing is left to inflate. -/
def recvFlag (st : RxState z) (flag : UInt8) : In (RxState z × Option Ret) :=
  if flag = endFlag then pure ({ st with state := .init }, some ⟨0, []⟩)
  else do
    let rxToken ← recvTokenNumber st flag
    let flag := if flag &&& 0x80 ≠ 0 then flag >>> 6 else flag
    if flag &&& 1 ≠ 0 then do
      let low ← get1
      let high ← get1
      pure ({ st with rxToken := rxToken, rxRun := low.toNat + high.toNat * 2 ^ 8, state := .running },
        some ⟨int32 (-1 - rxToken), []⟩)
    else pure ({ st with rxToken := rxToken }, some ⟨int32 (-1 - rxToken), []⟩)

/-- A flag in the states `r_idle` and `r_inflated`. -/
def recvFlagByte (st : RxState z) (flag : UInt8) : In (RxState z × Option Ret) :=
  if flag &&& 0xC0 = 0x40 then do
    let low ← get1
    let cbuf ← getN ((flag &&& 0x3f).toNat * 2 ^ 8 + low.toNat)
    pure ({ st with availIn := cbuf, state := .inflating }, none)
  else if st.state = .inflated then
    let r := z.inflate st.rx .sync [] maxLiteral
    if r.status = .error then abort
    else if r.out ≠ [] ∧ r.status ≠ .bufError then
      -- some more data, and the flag is saved for later
      pure ({ st with rx := r.rx, savedFlag := some flag }, some ⟨r.out.length, r.out⟩)
    else if z.inflateSyncPoint r.rx = false then abort
    else
      let r' := z.inflate r.rx .sync Deflate.marker (maxLiteral - r.out.length)
      recvFlag { st with rx := r'.rx, state := .idle } flag
  else recvFlag st flag

/-- One pass of the loop of `recv_deflated_token`. -/
def recvDeflatedPass (st : RxState z) : In (RxState z × Option Ret) :=
  match st.state with
  | .init => pure ({ st with rx := z.inflateReset, state := .idle, rxToken := 0 }, none)
  | .idle | .inflated =>
    match st.savedFlag with
    | some flag => recvFlagByte { st with savedFlag := none } flag
    | none => do
      let flag ← get1
      recvFlagByte st flag
  | .inflating =>
    let r := z.inflate st.rx .no st.availIn maxLiteral
    if r.status ≠ .ok then abort
    else
      let availIn := st.availIn.drop r.used
      pure ({ st with
          rx := r.rx, availIn := availIn,
          state := if availIn = [] then .inflated else .inflating },
        if r.out ≠ [] then some ⟨r.out.length, r.out⟩ else none)
  | .running =>
    let rxToken := int32 (st.rxToken + 1)
    let rxRun := int32 (st.rxRun - 1)
    pure ({ st with
        rxToken := rxToken, rxRun := rxRun, state := if rxRun = 0 then .idle else .running },
      some ⟨int32 (-1 - rxToken), []⟩)

/-- One pass of `recv_token`: the call returns with a value or goes on. -/
def recvTokenPass (doCompression : ℕ) (st : RxState z) : In (RxState z × Option Ret) :=
  if doCompression = 0 then simpleRecvToken st else recvDeflatedPass st

/-- The state of the loop of `see_deflate_token`. -/
structure SeeLoop (z : Deflate.Pair) where
  rx : z.Rx
  availIn : Bytes
  buf : Bytes
  len : ℕ
  blklen : ℕ

/-- What the next pass gives to the decompressor: a fake header of a stored block,
    then its data. -/
def SeeLoop.feed (protocolVersion : ℤ) (s : SeeLoop z) : SeeLoop z :=
  if s.availIn = [] ∧ s.len ≠ 0 then
    if s.blklen = 0 then
      let blklen := min s.len Deflate.maxStored
      { s with availIn := Deflate.storedHeader blklen, blklen := blklen }
    else
      { s with
        availIn := s.buf.take s.blklen,
        buf := if 31 ≤ protocolVersion then s.buf.drop s.blklen else s.buf,
        len := s.len - s.blklen, blklen := 0 }
  else s

def seeLoop (protocolVersion : ℤ) : ℕ → SeeLoop z → Option z.Rx
  | 0, _ => none
  | fuel + 1, s =>
    let s := s.feed protocolVersion
    let r := z.inflate s.rx .sync s.availIn maxLiteral
    if r.status = .error then none
    else if s.len ≠ 0 ∨ r.out.length = maxLiteral then
      seeLoop protocolVersion fuel { s with rx := r.rx, availIn := s.availIn.drop r.used }
    else some r.rx

def seeToken (doCompression : ℕ) (protocolVersion : ℤ) (fuel : ℕ) (st : RxState z) (data : Bytes) :
    Option (RxState z) :=
  if doCompression = 1 then
    (seeLoop protocolVersion fuel ⟨st.rx, [], data, data.length, 0⟩).map fun rx => { st with rx := rx }
  else some st

/-- What the receiver does with a value that `recv_token` returns; `basis` are the
    blocks of the basis file. -/
def takeToken (doCompression : ℕ) (protocolVersion : ℤ) (fuel : ℕ) (basis : ℕ → Bytes)
    (st : RxState z) (r : Ret) : Option (RxState z × Option Token) :=
  if r.ret = 0 then some (st, none)
  else if 0 < r.ret then some (st, some (.data r.data))
  else
    let i := (-(r.ret + 1)).toNat
    (seeToken doCompression protocolVersion fuel st (basis i)).map fun st => (st, some (.block i))

/-- The results of `recv_token` for the files with these bases, one after the other:
    `none` is the 0 that ends a file. -/
def recvTokens (doCompression : ℕ) (protocolVersion : ℤ) :
    ℕ → List (ℕ → Bytes) → RxState z → In (List (Option Token))
  | _, [], _ => pure []
  | 0, _ :: _, _ => abort
  | fuel + 1, basis :: bases, st => do
    let r ← recvTokenPass doCompression st
    match r.2 with
    | none => recvTokens doCompression protocolVersion fuel (basis :: bases) r.1
    | some ret =>
      match takeToken doCompression protocolVersion fuel basis r.1 ret with
      | none => abort
      | some (st, none) => (none :: ·) <$> recvTokens doCompression protocolVersion fuel bases st
      | some (st, some t) =>
        (some t :: ·) <$> recvTokens doCompression protocolVersion fuel (basis :: bases) st

end Receiving

end CloudEdgeBackup
