/-
  The loops of `token.c`, each by itself.

  * `Gets` is what the receiver makes of its input from a state on, given enough
    fuel; it is built from the end, one pass of `recv_token` at a time.  The two
    sides are compared item by item (`Item`), since a literal may be returned in
    other pieces than it was sent;
  * `deflateLoop_spec`: the loop of `send_deflated_token` writes what the compressor
    puts out, in records, without the marker of a flush;
  * `gets_records`, `gets_flag`: the receiver inflates the records, and at the flag
    after them everything is returned;
  * `insertToken_spec`, `seeLoop_spec`: both sides put a block into their history.
-/
import CloudEdgeBackup.Tokens

namespace CloudEdgeBackup

open Codec
open Deflate (Flush Status Phase Deflated Inflated marker)

/-! ## What is sent and what is returned -/

inductive Item
  | byte (b : UInt8)
  | block (i : ℕ)
  | done
deriving DecidableEq

/-- The items of a result of `recv_token`. -/
def resultItems : Option Token → List Item
  | none => [.done]
  | some (.data d) => d.map .byte
  | some (.block i) => [.block i]

/-- The items of a call of `send_token`. -/
def SendCall.items (c : SendCall) : List Item :=
  c.lit.map .byte ++
    if c.token = -1 then [.done] else if c.token = -2 then [] else [.block c.token.toNat]

/-- The calls for the files with these bases: data alone, a block token (of which both
    sides have the same block), and the end of a file. -/
inductive CallsOk (doCompression : ℕ) : List (ℕ → Bytes) → List SendCall → Prop
  | nil : CallsOk doCompression [] []
  | data {basis bases lit cs} : (doCompression ≠ 0 → lit ≠ []) → CallsOk doCompression (basis :: bases) cs →
      CallsOk doCompression (basis :: bases) (⟨-2, lit, []⟩ :: cs)
  | block {basis bases lit block cs} (i : ℕ) : i < 2 ^ 31 → (doCompression = 1 → block ≠ [] ∧ block = basis i) →
      CallsOk doCompression (basis :: bases) cs →
      CallsOk doCompression (basis :: bases) (⟨i, lit, block⟩ :: cs)
  | eof {basis bases lit cs} : CallsOk doCompression bases cs →
      CallsOk doCompression (basis :: bases) (⟨-1, lit, []⟩ :: cs)

/-! ## Reading to the end -/

section Reading

variable {z : Deflate.Pair} (doCompression : ℕ) (protocolVersion : ℤ)

/-- What `recvTokens` does after a pass. -/
def recvRest (fuel : ℕ) (basis : ℕ → Bytes) (bases : List (ℕ → Bytes)) (r : RxState z × Option Ret) :
    In (List (Option Token)) :=
  match r.2 with
  | none => recvTokens doCompression protocolVersion fuel (basis :: bases) r.1
  | some ret =>
    match takeToken doCompression protocolVersion fuel basis r.1 ret with
    | none => abort
    | some (st, none) => (none :: ·) <$> recvTokens doCompression protocolVersion fuel bases st
    | some (st, some t) =>
      (some t :: ·) <$> recvTokens doCompression protocolVersion fuel (basis :: bases) st

theorem recvTokens_succ (fuel : ℕ) (basis : ℕ → Bytes) (bases : List (ℕ → Bytes)) (st : RxState z) :
    recvTokens doCompression protocolVersion (fuel + 1) (basis :: bases) st =
      recvTokenPass doCompression st >>= recvRest doCompression protocolVersion fuel basis bases :=
  rfl

/-- From `st` on the receiver takes `ws` and returns `its`, given enough fuel. -/
def Gets (bases : List (ℕ → Bytes)) (st : RxState z) (ws : Bytes) (its : List Item) : Prop :=
  ∃ N, ∀ fuel, N ≤ fuel → ∃ res, Reads (recvTokens doCompression protocolVersion fuel bases st) ws res ∧
    res.flatMap resultItems = its

/-- The same in the middle of a pass. -/
def GetsM (basis : ℕ → Bytes) (bases : List (ℕ → Bytes)) (m : In (RxState z × Option Ret)) (ws : Bytes)
    (its : List Item) : Prop :=
  ∃ N, ∀ fuel, N ≤ fuel → ∃ res,
    Reads (m >>= recvRest doCompression protocolVersion fuel basis bases) ws res ∧
      res.flatMap resultItems = its

variable {doCompression protocolVersion} {basis : ℕ → Bytes} {bases : List (ℕ → Bytes)}
  {st st' : RxState z} {m : In (RxState z × Option Ret)} {ws ws' : Bytes} {its : List Item}

theorem gets_nil : Gets doCompression protocolVersion [] st [] [] :=
  ⟨0, fun fuel _ => ⟨[], by cases fuel <;> exact Reads.pure _, rfl⟩⟩

theorem gets_of_pass
    (h : GetsM doCompression protocolVersion basis bases (recvTokenPass doCompression st) ws its) :
    Gets doCompression protocolVersion (basis :: bases) st ws its := by
  obtain ⟨N, h⟩ := h
  refine ⟨N + 1, fun fuel hfuel => ?_⟩
  obtain ⟨fuel, rfl⟩ : ∃ k, fuel = k + 1 := ⟨fuel - 1, by omega⟩
  exact h fuel (by omega)

theorem GetsM.cons {k : UInt8 → In (RxState z × Option Ret)} {b : UInt8}
    (h : GetsM doCompression protocolVersion basis bases (k b) ws its) :
    GetsM doCompression protocolVersion basis bases (get1 >>= k) (b :: ws) its := by
  obtain ⟨N, h⟩ := h
  refine ⟨N, fun fuel hfuel => ?_⟩
  obtain ⟨res, hread, hres⟩ := h fuel hfuel
  exact ⟨res, fun rest => hread rest, hres⟩

/-- A pass that returns nothing. -/
theorem getsM_none (hm : Reads m ws (st', none))
    (h : Gets doCompression protocolVersion (basis :: bases) st' ws' its) :
    GetsM doCompression protocolVersion basis bases m (ws ++ ws') its := by
  obtain ⟨N, h⟩ := h
  refine ⟨N, fun fuel hfuel => ?_⟩
  obtain ⟨res, hread, hres⟩ := h fuel hfuel
  exact ⟨res, hm.bind hread, hres⟩

/-- A pass that returns data. -/
theorem getsM_data {d : Bytes} (hm : Reads m ws (st', some ⟨d.length, d⟩)) (hd : d ≠ [])
    (h : Gets doCompression protocolVersion (basis :: bases) st' ws' its) :
    GetsM doCompression protocolVersion basis bases m (ws ++ ws') (d.map .byte ++ its) := by
  obtain ⟨N, h⟩ := h
  have hpos : (0 : ℤ) < d.length := by exact_mod_cast List.length_pos_of_ne_nil hd
  refine ⟨N, fun fuel hfuel => ?_⟩
  obtain ⟨res, hread, hres⟩ := h fuel hfuel
  refine ⟨some (.data d) :: res, hm.bind ?_, by rw [List.flatMap_cons, hres]; rfl⟩
  have htake : takeToken doCompression protocolVersion fuel basis st' ⟨d.length, d⟩ =
      some (st', some (.data d)) := by
    rw [takeToken, if_neg hpos.ne', if_pos hpos]
  simp only [recvRest, htake]
  exact hread.map _

/-- A pass that returns a block token. -/
theorem getsM_block {i : ℕ} {st'' : RxState z} (hm : Reads m ws (st', some ⟨-1 - (i : ℤ), []⟩))
    (hsee : ∃ N, ∀ fuel, N ≤ fuel →
      seeToken doCompression protocolVersion fuel st' (basis i) = some st'')
    (h : Gets doCompression protocolVersion (basis :: bases) st'' ws' its) :
    GetsM doCompression protocolVersion basis bases m (ws ++ ws') (.block i :: its) := by
  obtain ⟨N, h⟩ := h
  obtain ⟨N', hsee⟩ := hsee
  refine ⟨max N N', fun fuel hfuel => ?_⟩
  obtain ⟨res, hread, hres⟩ := h fuel (by omega)
  refine ⟨some (.block i) :: res, hm.bind ?_, by rw [List.flatMap_cons, hres]; rfl⟩
  have hi : (-(-1 - (i : ℤ) + 1)).toNat = i := by omega
  have htake : takeToken doCompression protocolVersion fuel basis st' ⟨-1 - (i : ℤ), []⟩ =
      some (st'', some (.block i)) := by
    simp only [takeToken, hi, hsee fuel (by omega)]
    rw [if_neg (by omega), if_neg (by omega)]
    rfl
  simp only [recvRest, htake]
  exact hread.map _

/-- A pass that ends a file. -/
theorem getsM_done (hm : Reads m ws (st', some ⟨0, []⟩))
    (h : Gets doCompression protocolVersion bases st' ws' its) :
    GetsM doCompression protocolVersion basis bases m (ws ++ ws') (.done :: its) := by
  obtain ⟨N, h⟩ := h
  refine ⟨N, fun fuel hfuel => ?_⟩
  obtain ⟨res, hread, hres⟩ := h fuel hfuel
  exact ⟨none :: res, hm.bind (hread.map _), by rw [List.flatMap_cons, hres]; rfl⟩

end Reading

/-! ## The loop that deflates -/

section Deflating

variable {z : Deflate.Pair} {token : ℤ} {w h : Bytes} {s : DeflateLoop z} {written taken : Bytes}
  {p : Phase}

/-- Between `feed` and the call: the compressor has put out `w` and, in this loop,
    `written` and what is in the buffer; it has taken `taken` of `h`. -/
structure LoopInv (token : ℤ) (w h : Bytes) (s : DeflateLoop z) (written taken : Bytes) (p : Phase) :
    Prop where
  deflated : Deflated z s.strm (w ++ (written ++ s.obuf)) taken p
  input : taken ++ s.availIn ++ s.nb = h
  given : s.nb ≠ [] → s.availIn ≠ []
  room : s.obuf.length + s.availOut = maxDataCount
  room_pos : 0 < s.availOut
  ready : p.Ready s.flush s.availIn
  flush : s.flush = .sync ↔ s.nb = [] ∧ token ≠ -2
  flushed : p.flushed <:+ written ++ s.obuf
  kept : p.flushed ≠ [] → s.obuf.length = 4

/-- What the loop leaves behind. -/
structure LoopEnd (token : ℤ) (w h : Bytes) (tx : z.Tx) (written : Bytes) : Prop where
  unflushed : token = -2 → Deflated z tx (w ++ written) h .fed
  flushed : token ≠ -2 → written ≠ [] ∧ Deflated z tx (w ++ (written ++ marker)) h .synced

/-- What a pass writes. -/
def deflateChunk (s : DeflateLoop z) (out : Bytes) : Bytes :=
  if s.nb = [] ∨ s.availOut - out.length = 0 then
    (s.obuf ++ out).take ((s.obuf ++ out).length - keptBack s.flush)
  else []

def recordOf (chunk : Bytes) : Bytes := if chunk = [] then [] else dataRecord chunk

/-- The state after a call. -/
def DeflateLoop.after (s : DeflateLoop z) (tx : z.Tx) (used : ℕ) (out : Bytes) : DeflateLoop z :=
  { s with
    strm := tx, availIn := s.availIn.drop used, obuf := s.obuf ++ out,
    availOut := s.availOut - out.length }

theorem writeData_eq {obuf : Bytes} {n : ℕ} (h : n ≤ obuf.length) :
    writeData obuf n = recordOf (obuf.take n) := by
  rcases Nat.eq_zero_or_pos n with rfl | hpos
  · rw [List.take_zero]
    rfl
  · rw [writeData, if_pos hpos, recordOf, if_neg]
    intro hnil
    have := congrArg List.length hnil
    rw [List.length_take, List.length_nil] at this
    omega

theorem deflatePass_eq {tx : z.Tx} {used : ℕ} {out : Bytes}
    (hinv : LoopInv token w h (s.feed token) written taken p)
    (hcall : z.deflate (s.feed token).strm (s.feed token).flush (s.feed token).availIn
      (s.feed token).availOut = some (tx, used, out)) (hout : out.length ≤ (s.feed token).availOut) :
    deflatePass token s =
      some ((s.feed token).after tx used out, recordOf (deflateChunk (s.feed token) out)) := by
  have hroom := hinv.room
  have hn : maxDataCount - ((s.feed token).availOut - out.length) =
      ((s.feed token).obuf ++ out).length := by
    rw [List.length_append]
    omega
  simp only [deflatePass, hcall, Option.map_some, DeflateLoop.after, hn]
  rw [writeData_eq (Nat.sub_le _ _), deflateChunk]
  split_ifs <;> rfl

/-- A bound for the number of passes: what the compressor can put out of what it
    holds, what it has not taken, and a half-filled buffer. -/
def loopRank (pending : z.Tx → ℕ) (c : ℕ) (s : DeflateLoop z) : ℕ :=
  pending s.strm + (c + 20) * (s.availIn.length + s.nb.length) +
    if s.availOut + 4 < maxDataCount then 12 else 0

theorem feed_given (token : ℤ) (s : DeflateLoop z) :
    (s.feed token).nb ≠ [] → (s.feed token).availIn ≠ [] := by
  simp only [DeflateLoop.feed]
  by_cases hmore : s.availIn = [] ∧ s.nb ≠ []
  · simp [hmore.1, hmore.2, chunkSize]
  · rw [if_neg hmore, if_neg hmore]
    exact fun hnb hin => hmore ⟨hin, hnb⟩

theorem feed_input (token : ℤ) (s : DeflateLoop z) :
    (s.feed token).availIn ++ (s.feed token).nb = s.availIn ++ s.nb := by
  simp only [DeflateLoop.feed]
  by_cases hmore : s.availIn = [] ∧ s.nb ≠ []
  · rw [if_pos hmore, if_pos hmore, hmore.1, List.take_append_drop, List.nil_append]
  · rw [if_neg hmore, if_neg hmore]

/-- With all given, nothing is held back for another flush. -/
theorem feed_flush {token : ℤ} {s : DeflateLoop z} (h : s.flush = .sync → s.nb = [] ∧ token ≠ -2) :
    (s.feed token).flush = .sync ↔ (s.feed token).nb = [] ∧ token ≠ -2 := by
  simp only [DeflateLoop.feed]
  generalize hnb : (if s.availIn = [] ∧ s.nb ≠ [] then s.nb.drop chunkSize else s.nb) = nb
  by_cases hall : nb = [] ∧ token ≠ -2
  · rw [if_pos hall]
    exact ⟨fun _ => hall, fun _ => rfl⟩
  · rw [if_neg hall]
    refine ⟨fun hfl => ?_, fun h => absurd h hall⟩
    obtain ⟨hnil, htoken⟩ := h hfl
    rw [if_neg (by simp [hnil])] at hnb
    exact ⟨hnb ▸ hnil, htoken⟩

/-- The output buffer at the start of the next pass. -/
theorem after_obuf (token : ℤ) (tx : z.Tx) (used : ℕ)
    (hroom : s.obuf.length + s.availOut = maxDataCount) {out : Bytes} (hout : out.length ≤ s.availOut) (hgo : s.nb ≠ [] ∨ s.availOut - out.length = 0) :
    s.obuf ++ out = deflateChunk s out ++ ((s.after tx used out).feed token).obuf ∧
      ((s.after tx used out).feed token).obuf.length +
        ((s.after tx used out).feed token).availOut = maxDataCount ∧
      0 < ((s.after tx used out).feed token).availOut := by
  have hlen : (s.obuf ++ out).length + (s.availOut - out.length) = maxDataCount := by
    rw [List.length_append]
    omega
  simp only [DeflateLoop.feed, DeflateLoop.after, deflateChunk]
  by_cases hA : s.availOut - out.length = 0
  · rw [hA, Nat.add_zero] at hlen
    simp only [hA, or_true, if_true, hlen]
    cases s.flush with
    | no =>
      rw [keptBack, Nat.sub_zero, ← hlen, List.take_length, hlen]
      exact ⟨by simp [carried], by simp [carried], by simp [carried]⟩
    | sync =>
      rw [keptBack, carried]
      refine ⟨(List.take_append_drop _ _).symm, ?_, ?_⟩ <;>
        simp only [List.length_drop, hlen] <;> norm_num
  · have hnb : s.nb ≠ [] := hgo.resolve_right hA
    simp only [hnb, hA, or_self, if_false, List.nil_append]
    exact ⟨trivial, hlen, by omega⟩

/-- Where a pass goes on, the next one starts as this one did. -/
theorem LoopInv.go_on (hinv : LoopInv token w h s written taken p) {tx : z.Tx} {used : ℕ} {out : Bytes}
    (hcall : z.deflate s.strm s.flush s.availIn s.availOut = some (tx, used, out))
    (hout : out.length ≤ s.availOut) (hall : out.length < s.availOut → used = s.availIn.length)
    (hgo : s.nb ≠ [] ∨ s.availOut - out.length = 0) :
    LoopInv token w h ((s.after tx used out).feed token) (written ++ deflateChunk s out)
      (taken ++ s.availIn.take used) (p.next s.flush out (decide (out.length = s.availOut))) := by
  have hdefl := hinv.deflated.call hinv.room_pos hinv.ready hcall
  obtain ⟨hobuf, hroom, hpos⟩ := after_obuf token tx used hinv.room hout hgo
  have htotal : written ++ deflateChunk s out ++ ((s.after tx used out).feed token).obuf =
      written ++ s.obuf ++ out := by
    rw [List.append_assoc, ← hobuf, List.append_assoc]
  have hflush := feed_flush (s := s.after tx used out) hinv.flush.1
  refine ⟨?_, ?_, feed_given _ _, hroom, hpos, ?_, hflush, ?_, ?_⟩
  · rw [htotal, ← List.append_assoc]
    exact hdefl
  · rw [List.append_assoc, feed_input, ← hinv.input]
    simp only [DeflateLoop.after, List.append_assoc]
    rw [← List.append_assoc (List.take _ _), List.take_append_drop]
  · -- there is something to do
    cases hfl : s.flush with
    | no =>
      by_cases hfull : out.length = s.availOut
      · simp only [Phase.next, hfull, decide_true, if_true]
        trivial
      · have hnb : s.nb ≠ [] := hgo.resolve_right (by omega)
        have hmore : (s.after tx used out).availIn = [] ∧ (s.after tx used out).nb ≠ [] := by
          refine ⟨?_, hnb⟩
          simp only [DeflateLoop.after, hall (by omega), List.drop_length]
        have hgiven : ((s.after tx used out).feed token).availIn ≠ [] := by
          simp only [DeflateLoop.feed, if_pos hmore]
          simpa [chunkSize] using hmore.2
        simp only [Phase.next, hfull, decide_false, Bool.false_eq_true, if_false]
        cases ((s.after tx used out).feed token).flush
        · exact hgiven
        · trivial
    | sync =>
      have hnil := (hinv.flush.1 hfl).1
      have hA : s.availOut - out.length = 0 := hgo.resolve_left (not_not.2 hnil)
      have hfull : out.length = s.availOut := by omega
      simp only [Phase.next, hfull, decide_true, if_true]
      refine hflush.2 ⟨?_, (hinv.flush.1 hfl).2⟩
      simp [DeflateLoop.feed, DeflateLoop.after, hnil]
  · rw [htotal]
    cases hfl : s.flush with
    | no => 
      simp only [Phase.next]
      split_ifs <;> exact List.nil_suffix
    | sync =>
      simp only [Phase.next]
      split_ifs
      · obtain ⟨t, ht⟩ := hinv.flushed
        exact ⟨t, by rw [Phase.flushed, ← List.append_assoc, ht]⟩
      · exact List.nil_suffix
  · intro hne
    cases hfl : s.flush with
    | no =>
      rw [hfl] at hne
      simp only [Phase.next] at hne
      split_ifs at hne <;> exact absurd rfl hne
    | sync =>
      have hnil := (hinv.flush.1 hfl).1
      have hA : s.availOut - out.length = 0 := hgo.resolve_left (not_not.2 hnil)
      have := hinv.room
      simp only [DeflateLoop.feed, DeflateLoop.after, hA, if_true, hfl, carried, List.length_drop,
        List.length_append]
      norm_num at this ⊢
      omega

/-- There are fewer passes to come. -/
theorem LoopInv.rank_lt (hinv : LoopInv token w h s written taken p) {pending : z.Tx → ℕ} {c : ℕ}
    (tx : z.Tx) {used : ℕ} {out : Bytes} (hused : used ≤ s.availIn.length)
    (hout : out.length ≤ s.availOut) (hall : out.length < s.availOut → used = s.availIn.length)
    (hbound : pending tx + out.length ≤ pending s.strm + c * used + 6)
    (hgo : s.nb ≠ [] ∨ s.availOut - out.length = 0) :
    loopRank pending c ((s.after tx used out).feed token) < loopRank pending c s := by
  obtain ⟨-, hroom, -⟩ := after_obuf token tx used hinv.room hout hgo
  have hinput := congrArg List.length (feed_input token (s.after tx used out))
  simp only [List.length_append, DeflateLoop.after, List.length_drop] at hinput
  have hin : ((s.after tx used out).feed token).availIn.length +
      ((s.after tx used out).feed token).nb.length + used = s.availIn.length + s.nb.length := by
    simp only [DeflateLoop.after]
    omega
  have hstrm : ((s.after tx used out).feed token).strm = tx := rfl
  simp only [loopRank, hstrm, ← hin]
  have hmax : maxDataCount = 16383 := rfl
  have hexpand : ∀ k, (c + 20) * (k + used) = (c + 20) * k + c * used + 20 * used := fun k => by ring
  rw [hexpand]
  rcases Nat.eq_zero_or_pos used with h0 | hpos
  · -- the output was filled
    have hfull : out.length = s.availOut := by
      by_contra hne
      have hin0 : s.availIn = [] := List.eq_nil_of_length_eq_zero (by rw [← hall (by omega), h0])
      have hnb : s.nb ≠ [] := hgo.resolve_right (by omega)
      exact hinv.given hnb hin0
    have hnext : ¬ ((s.after tx used out).feed token).availOut + 4 < maxDataCount := by
      have hlen : ((s.after tx used out).feed token).obuf.length ≤ 4 := by
        have := hinv.room
        have hA : (s.after tx used out).availOut = 0 := by
          simp only [DeflateLoop.after]
          omega
        have hcarried : ((s.after tx used out).feed token).obuf = carried s.flush (s.obuf ++ out) :=
          if_pos hA
        rw [hcarried]
        cases s.flush with
        | no => simp [carried]
        | sync =>
          simp only [carried, List.length_drop, List.length_append]
          omega
      omega
    have hpos := hinv.room_pos
    rw [if_neg hnext]
    split_ifs <;> omega
  · split_ifs <;> omega

/-- After the last pass everything is taken, and with a flush everything but its
    marker is written. -/
theorem LoopInv.end_of (hz : Deflate.Inverse z) (hinv : LoopInv token w h s written taken p) {tx : z.Tx}
    {used : ℕ} {out : Bytes}
    (hcall : z.deflate s.strm s.flush s.availIn s.availOut = some (tx, used, out))
    (hall : out.length < s.availOut → used = s.availIn.length)
    (hnb : s.nb = []) (hleft : out.length < s.availOut) :
    LoopEnd token w h tx (written ++ deflateChunk s out) := by
  have hdefl := hinv.deflated.call hinv.room_pos hinv.ready hcall
  have hinput := hinv.input
  rw [hnb, List.append_nil] at hinput
  rw [hall hleft, List.take_length, hinput, decide_eq_false (by omega : ¬ out.length = s.availOut)]
    at hdefl
  constructor
  · intro htoken
    have hfl : s.flush = .no := by
      cases hfl : s.flush with
      | no => rfl
      | sync => exact absurd htoken (hinv.flush.1 hfl).2
    rw [hfl] at hdefl
    rw [deflateChunk, if_pos (Or.inl hnb), hfl, keptBack, Nat.sub_zero, List.take_length,
      ← List.append_assoc, ← List.append_assoc]
    rw [← List.append_assoc] at hdefl
    exact hdefl
  · intro htoken
    have hfl : s.flush = .sync := hinv.flush.2 ⟨hnb, htoken⟩
    rw [hfl] at hdefl hcall
    obtain ⟨b, hb, hmarker⟩ := hz.flush_marker hinv.deflated hcall hleft
    have hlen : 4 ≤ (s.obuf ++ out).length := by
      rw [List.length_append]
      by_cases hp : p.flushed = []
      · rw [hp, List.nil_append] at hmarker
        rw [hmarker, List.length_append]
        simp only [marker, List.length_cons, List.length_nil]
        omega
      · rw [hinv.kept hp]
        omega
    obtain ⟨t, ht⟩ := hinv.flushed
    -- what is kept back is the marker
    have hall : written ++ (s.obuf ++ out) = t ++ b ++ marker := by
      rw [← List.append_assoc, ← ht, List.append_assoc, hmarker, ← List.append_assoc]
    have hsplit : written ++ (s.obuf ++ out).take ((s.obuf ++ out).length - 4) ++
        (s.obuf ++ out).drop ((s.obuf ++ out).length - 4) = t ++ b ++ marker := by
      rw [List.append_assoc, List.take_append_drop, hall]
    obtain ⟨hwritten, hlast⟩ := List.append_inj' hsplit (by
      rw [List.length_drop]
      simp only [marker, List.length_cons, List.length_nil]
      omega)
    rw [deflateChunk, if_pos (Or.inl hnb), hfl, keptBack]
    refine ⟨?_, ?_⟩
    · rw [hwritten]
      simp [hb]
    · rw [← hlast, List.append_assoc, List.take_append_drop, ← List.append_assoc]
      have hsynced : p.next .sync out false = .synced := rfl
      rw [hsynced] at hdefl
      simpa only [List.append_assoc] using hdefl

/-- **The loop writes the output of the compressor** in records, without the marker of
    a flush. -/
theorem deflateLoop_spec (hz : Deflate.Inverse z)
    (hinv : LoopInv token w h (s.feed token) written taken p) :
    ∃ (tx : z.Tx) (chunks : List Bytes), (∃ N, ∀ fuel, N ≤ fuel →
        deflateLoop token fuel s = some (tx, chunks.flatMap dataRecord)) ∧
      (∀ c ∈ chunks, c ≠ [] ∧ c.length ≤ maxDataCount) ∧
      LoopEnd token w h tx (written ++ chunks.flatten) := by
  obtain ⟨pending, c, hbound⟩ := hz.deflate_bound
  induction hn : loopRank pending c (s.feed token) using Nat.strong_induction_on
    generalizing s written taken p with
  | h n ih =>
    obtain ⟨tx, used, out, hcall, hused, hout, hall⟩ :=
      hz.deflate_ok hinv.deflated hinv.ready hinv.room_pos
    have hpass := deflatePass_eq hinv hcall hout
    have hb := hbound hinv.deflated hcall
    generalize hchunk : deflateChunk (s.feed token) out = chunk at hpass
    have hrecord : recordOf chunk = (if chunk = [] then [] else [chunk]).flatMap dataRecord := by
      rw [recordOf]
      split_ifs <;> simp
    have hflat : (if chunk = [] then [] else [chunk]).flatten = chunk := by
      split_ifs with h
      · exact h.symm
      · simp
    have hwf : ∀ d ∈ (if chunk = [] then [] else [chunk]), d ≠ [] ∧ d.length ≤ maxDataCount := by
      intro d hd
      split_ifs at hd with h
      · cases hd
      · obtain rfl := List.mem_singleton.1 hd
        have hroom := hinv.room
        refine ⟨h, ?_⟩
        rw [← hchunk, deflateChunk]
        split_ifs
        · rw [List.length_take, List.length_append]
          omega
        · exact Nat.zero_le _
    by_cases hgo : (s.feed token).nb ≠ [] ∨ (s.feed token).availOut - out.length = 0
    · have hnext := hinv.go_on hcall hout hall hgo
      have hlt := hinv.rank_lt tx hused hout hall hb hgo
      rw [hchunk] at hnext
      obtain ⟨tx', chunks, ⟨N, hloop⟩, hchunks, hend⟩ := ih _ (hn ▸ hlt) hnext rfl
      refine ⟨tx', (if chunk = [] then [] else [chunk]) ++ chunks, ⟨N + 1, fun fuel hfuel => ?_⟩, ?_, ?_⟩
      · obtain ⟨fuel, rfl⟩ : ∃ k, fuel = k + 1 := ⟨fuel - 1, by omega⟩
        have hgo' : ((s.feed token).after tx used out).nb ≠ [] ∨
            ((s.feed token).after tx used out).availOut = 0 := hgo
        simp only [deflateLoop, hpass, Option.bind_eq_bind, Option.bind_some, if_pos hgo',
          hloop fuel (by omega), List.flatMap_append, ← hrecord]
      · intro d hd
        rcases List.mem_append.1 hd with hd | hd
        · exact hwf d hd
        · exact hchunks d hd
      · rw [List.flatten_append, hflat, ← List.append_assoc]
        exact hend
    · obtain ⟨hnb, hleft⟩ := not_or.1 hgo
      have hend := hinv.end_of hz hcall hall (not_not.1 hnb) (by omega)
      rw [hchunk] at hend
      refine ⟨tx, if chunk = [] then [] else [chunk], ⟨1, fun fuel hfuel => ?_⟩, hwf, hflat.symm ▸ hend⟩
      obtain ⟨fuel, rfl⟩ : ∃ k, fuel = k + 1 := ⟨fuel - 1, by omega⟩
      have hgo' : ¬ (((s.feed token).after tx used out).nb ≠ [] ∨
          ((s.feed token).after tx used out).availOut = 0) := hgo
      simp only [deflateLoop, hpass, Option.bind_eq_bind, Option.bind_some, if_neg hgo', ← hrecord]
      rfl

end Deflating

/-! ## Inflating -/

section Inflating

variable {z : Deflate.Pair} {doCompression : ℕ} {protocolVersion : ℤ} {basis : ℕ → Bytes}
  {bases : List (ℕ → Bytes)} {st : RxState z} {ws : Bytes} {its : List Item} {tx : z.Tx}
  {w h v g : Bytes} {p : Phase}

theorem recvTokenPass_deflated (hdc : doCompression ≠ 0) (st : RxState z) :
    recvTokenPass doCompression st = recvDeflatedPass st := if_neg hdc

/-- The data still to come shrinks by what is put out. -/
theorem drop_append_of_isPrefixOf {g out h : Bytes} (hpre : g ++ out <+: h) :
    h.drop g.length = out ++ h.drop (g ++ out).length := by
  obtain ⟨t, rfl⟩ := hpre
  rw [List.append_assoc, List.drop_left, ← List.append_assoc, List.drop_left]

/-- A pass that returns what was put out, if anything. -/
theorem getsM_out {m : In (RxState z × Option Ret)} {st' : RxState z} {out : Bytes}
    (hm : Reads m [] (st', if out ≠ [] then some ⟨out.length, out⟩ else none))
    (hgets : Gets doCompression protocolVersion (basis :: bases) st' ws its) :
    GetsM doCompression protocolVersion basis bases m ws (out.map .byte ++ its) := by
  by_cases hout : out = []
  · rw [if_neg (not_not.2 hout)] at hm
    subst hout
    exact getsM_none hm hgets
  · rw [if_pos hout] at hm
    exact getsM_data hm hout hgets

/-- What a call of `inflate` does for the receiver. -/
theorem inflate_call (hz : Deflate.Inverse z) (hd : Deflated z tx w h p) {rx : z.Rx}
    (hi : Inflated z rx v g) {input : Bytes} (hpre : v ++ input <+: w) (fl : Flush) :
    ∃ r, z.inflate rx fl input maxLiteral = r ∧ r.used ≤ input.length ∧
      (r.out.length ≠ maxLiteral → r.used = input.length) ∧
      r.status = (if r.used = 0 ∧ r.out = [] then .bufError else .ok) ∧ g ++ r.out <+: h ∧
      Inflated z r.rx (v ++ input.take r.used) (g ++ r.out) := by
  obtain ⟨hused, hout, hall, hstatus, hprefix⟩ := hz.inflate_ok fl hd hi hpre
    (by norm_num : 0 < maxLiteral)
  exact ⟨_, rfl, hused, fun hne => hall (by omega), hstatus, hprefix,
    hi.call fl input maxLiteral (by norm_num)⟩

/-- **A record is inflated**, and what it gives is returned. -/
theorem gets_inflating (hz : Deflate.Inverse z) (hdc : doCompression ≠ 0) (hd : Deflated z tx w h p)
    (hstate : st.state = .inflating) (hin : st.availIn ≠ []) (hi : Inflated z st.rx v g)
    (hpre : v ++ st.availIn <+: w)
    (hcont : ∀ rx g', Inflated z rx (v ++ st.availIn) g' → g' <+: h →
      Gets doCompression protocolVersion (basis :: bases)
        { st with rx := rx, state := .inflated, availIn := [] } ws ((h.drop g'.length).map .byte ++ its)) :
    Gets doCompression protocolVersion (basis :: bases) st ws ((h.drop g.length).map .byte ++ its) := by
  induction hn : st.availIn.length + (h.length - g.length) using Nat.strong_induction_on
    generalizing st v g with
  | h n ih =>
    obtain ⟨r, hr, hused, hall, hstatus, hprefix, hi'⟩ := inflate_call hz hd hi hpre .no
    have hpos := List.length_pos_of_ne_nil hin
    have hprogress : ¬ (r.used = 0 ∧ r.out = []) := by
      rintro ⟨h0, hout⟩
      have := hall (by rw [hout]; norm_num)
      omega
    rw [if_neg hprogress] at hstatus
    have hlen := hprefix.length_le
    rw [List.length_append] at hlen
    rw [drop_append_of_isPrefixOf hprefix, List.map_append, List.append_assoc]
    have hpass : Reads (recvTokenPass doCompression st) []
        ({ st with
            rx := r.rx, availIn := st.availIn.drop r.used,
            state := if st.availIn.drop r.used = [] then .inflated else .inflating },
          if r.out ≠ [] then some ⟨r.out.length, r.out⟩ else none) := by
      rw [recvTokenPass_deflated hdc, recvDeflatedPass]
      simp only [hstate, hr, hstatus, ne_eq, not_true_eq_false, if_false]
      exact Reads.pure _
    refine gets_of_pass (getsM_out hpass ?_)
    by_cases hdrop : st.availIn.drop r.used = []
    · have hfull : st.availIn.length ≤ r.used := List.drop_eq_nil_iff.1 hdrop
      rw [List.take_of_length_le hfull] at hi'
      simp only [hdrop, if_true]
      exact hcont r.rx (g ++ r.out) hi' hprefix
    · have hsplit : v ++ st.availIn.take r.used ++ st.availIn.drop r.used = v ++ st.availIn := by
        rw [List.append_assoc, List.take_append_drop]
      refine ih _ ?_ (by simp only [hdrop, if_false]) hdrop hi' (hsplit ▸ hpre) ?_ rfl
      · have hout : r.used = 0 → 0 < r.out.length := fun h0 =>
          List.length_pos_of_ne_nil fun hnil => hprogress ⟨h0, hnil⟩
        simp only [List.length_drop, List.length_append]
        rw [← hn]
        omega
      · intro rx g' hi'' hg'
        refine hcont rx g' ?_ hg'
        rwa [hsplit] at hi''

/-- Between two calls of `recv_token`, with nothing saved: the decompressor has taken
    `v` and put out `g`. -/
structure Waits (st : RxState z) (v g : Bytes) : Prop where
  state : st.state = .idle ∨ st.state = .inflated
  saved : st.savedFlag = none
  inflated : Inflated z st.rx v g

theorem Waits.pass (hdc : doCompression ≠ 0) (hst : Waits st v g) :
    recvTokenPass doCompression st = get1 >>= recvFlagByte st := by
  rw [recvTokenPass_deflated hdc, recvDeflatedPass]
  rcases hst.state with h | h <;> simp only [h, hst.saved]

theorem dataFlag : ∀ k : Fin 64, toChar (deflatedData + (k : ℕ)) &&& 0xC0 = 0x40 ∧
    (toChar (deflatedData + (k : ℕ)) &&& 0x3f).toNat = k := by
  decide

theorem reads_dataRecord (st : RxState z) {d : Bytes} (hlen : d.length ≤ maxDataCount) : ∃ flag rest,
    dataRecord d = flag :: rest ∧
      Reads (recvFlagByte st flag) rest ({ st with availIn := d, state := .inflating }, none) := by
  have hk : d.length / 2 ^ 8 < 64 := by
    simp only [maxDataCount] at hlen
    omega
  obtain ⟨hmark, hhigh⟩ := dataFlag ⟨d.length / 2 ^ 8, hk⟩
  have hcast : ((d.length / 2 ^ 8 : ℕ) : ℤ) = d.length / 2 ^ 8 := by norm_num
  simp only [hcast] at hmark hhigh
  refine ⟨_, _, rfl, ?_⟩
  rw [recvFlagByte, if_pos hmark]
  refine Reads.cons ?_
  have hlow : (toChar d.length).toNat = d.length % 2 ^ 8 := by
    have := toNat_toChar d.length
    omega
  have hsum : d.length / 2 ^ 8 * 2 ^ 8 + d.length % 2 ^ 8 = d.length := by omega
  rw [hhigh, hlow, hsum]
  exact (reads_getN d).bind_nil (Reads.pure _)

/-- **Records are inflated** one after the other. -/
theorem gets_records (hz : Deflate.Inverse z) (hdc : doCompression ≠ 0) (hd : Deflated z tx w h p)
    {chunks : List Bytes} (hchunks : ∀ c ∈ chunks, c ≠ [] ∧ c.length ≤ maxDataCount)
    (hst : Waits st v g) (hg : g <+: h) (hpre : v ++ chunks.flatten <+: w)
    (hcont : ∀ st' g', Waits st' (v ++ chunks.flatten) g' → (chunks ≠ [] → st'.state = .inflated) →
      (chunks = [] → st' = st) → st'.rxToken = st.rxToken → g' <+: h →
      Gets doCompression protocolVersion (basis :: bases) st' ws ((h.drop g'.length).map .byte ++ its)) :
    Gets doCompression protocolVersion (basis :: bases) st (chunks.flatMap dataRecord ++ ws)
      ((h.drop g.length).map .byte ++ its) := by
  induction chunks generalizing st v g with
  | nil =>
    refine hcont st g ?_ (fun hne => absurd rfl hne) (fun _ => rfl) rfl hg
    simpa using hst
  | cons c chunks ih =>
    obtain ⟨hne, hlen⟩ := hchunks c (by simp)
    rw [List.flatten_cons, ← List.append_assoc] at hpre hcont
    obtain ⟨flag, rest, hrecord, hread⟩ := reads_dataRecord st hlen
    rw [List.flatMap_cons, hrecord, List.cons_append, List.cons_append, List.append_assoc]
    refine gets_of_pass ?_
    rw [hst.pass hdc]
    refine GetsM.cons (getsM_none hread ?_)
    have hpre' : v ++ c <+: w := (List.prefix_append _ _).trans hpre
    refine gets_inflating hz hdc hd rfl hne hst.inflated hpre' fun rx g' hi hg' => ?_
    refine ih (fun d hd => hchunks d (by simp [hd])) ⟨Or.inr rfl, hst.saved, hi⟩ hg' hpre ?_
    intro st' g'' hw hstate heq htoken hg''
    refine hcont st' g'' hw (fun _ => ?_) (fun hnil => by cases hnil) htoken hg''
    by_cases hnil : chunks = []
    · rw [heq hnil]
    · exact hstate hnil

/-- **A flag that ends a literal.** Everything the compressor took is returned, the
    marker goes to the decompressor, and the flag is acted upon. -/
theorem gets_flag (hz : Deflate.Inverse z) (hdc : doCompression ≠ 0) (hd : Deflated z tx w h p)
    {flag : UInt8} (hflag : ¬ flag &&& 0xC0 = 0x40) (hst : Waits st v g) (hg : g <+: h)
    (hv : (st.state = .idle ∧ v = w ∧ g = h) ∨ (st.state = .inflated ∧ p = .synced ∧ v ++ marker = w))
    (hcont : ∀ rx, Inflated z rx w h → GetsM doCompression protocolVersion basis bases
      (recvFlag { st with rx := rx, state := .idle } flag) ws its) :
    Gets doCompression protocolVersion (basis :: bases) st (flag :: ws)
      ((h.drop g.length).map .byte ++ its) := by
  refine gets_of_pass ?_
  rw [hst.pass hdc]
  refine GetsM.cons ?_
  rcases hv with ⟨hidle, rfl, rfl⟩ | ⟨hinfl, rfl, hv⟩
  · have hcont := hcont st.rx hst.inflated
    rw [recvFlagByte, if_neg hflag, if_neg (by rw [hidle]; decide), List.drop_length]
    have heq : ({ st with rx := st.rx, state := .idle } : RxState z) = st := by
      rw [← hidle]
    rwa [heq] at hcont
  -- what the decompressor still holds is returned first
  have hi := hst.inflated
  have hsaved := hst.saved
  clear hst
  induction hn : h.length - g.length using Nat.strong_induction_on generalizing st g with
  | h n ih =>
    have hpre : v ++ [] <+: w := by rw [List.append_nil, ← hv]; exact List.prefix_append _ _
    obtain ⟨r, hr, hused, hall, hstatus, hprefix, hi'⟩ := inflate_call hz hd hi hpre .sync
    have hused0 : r.used = 0 := by simpa using hused
    rw [hused0, List.take_zero, List.append_nil] at hi'
    rw [recvFlagByte, if_neg hflag, if_pos hinfl]
    simp only [hr]
    by_cases hout : r.out = []
    · -- nothing is left
      have hspace : (z.inflate st.rx .sync [] maxLiteral).out.length < maxLiteral := by
        rw [hr, hout]
        norm_num
      have hv' : v ++ [] ++ marker = w := by rw [List.append_nil, hv]
      have hgh := hz.inflate_all hd hi (Or.inr rfl) (Or.inr ⟨rfl, hv'⟩) (by norm_num) hspace
      have hsync := hz.sync_point hd hi hv' (by norm_num) hspace
      rw [hr] at hgh hsync
      rw [hout, List.append_nil] at hgh hi'
      subst hgh
      have hmarker : v ++ marker <+: w := by rw [hv]
      obtain ⟨r', hr', -, hall', -, hprefix', hi''⟩ := inflate_call hz hd hi' hmarker .sync
      have hout' : r'.out = [] := by
        have := hprefix'.length_le
        rw [List.length_append] at this
        exact List.eq_nil_of_length_eq_zero (by omega)
      rw [hall' (by rw [hout']; norm_num), List.take_length, hv, hout', List.append_nil] at hi''
      have herr : r.status ≠ .error := by rw [hstatus]; split_ifs <;> decide
      simp only [herr, hout, if_false, hsync, ne_eq, not_true_eq_false, false_and,
        Bool.true_eq_false, List.length_nil, Nat.sub_zero, hr', List.drop_length, List.map_nil,
        List.nil_append]
      exact hcont r'.rx hi''
    · have hok : r.status = .ok := by rw [hstatus, if_neg (fun h => hout h.2)]
      simp only [hok, hout, reduceCtorEq, if_false, ne_eq, not_false_eq_true, and_self, if_true]
      rw [drop_append_of_isPrefixOf hprefix, List.map_append, List.append_assoc]
      refine getsM_data (Reads.pure _) hout (gets_of_pass ?_)
      have hpass : recvTokenPass doCompression
          { st with rx := r.rx, savedFlag := some flag } =
            recvFlagByte { st with rx := r.rx, savedFlag := none } flag := by
        rw [recvTokenPass_deflated hdc, recvDeflatedPass]
        simp only [hinfl]
      rw [hpass]
      have hpos := List.length_pos_of_ne_nil hout
      have hlen := hprefix.length_le
      rw [List.length_append] at hlen
      refine ih _ ?_ hprefix (fun rx hrx => ?_) hinfl hi' rfl rfl
      · rw [List.length_append]
        omega
      · have := hcont rx hrx
        simpa only [hsaved] using this

end Inflating

/-! ## Blocks in the history -/

/-- The pieces in which a block goes into the histories of the two sides. -/
def tokenPieces (protocolVersion : ℤ) (buf : Bytes) (toklen : ℕ) : List Bytes :=
  let n1 := min toklen Deflate.maxStored
  if h : 0 < toklen - n1 then
    buf.take n1 ::
      tokenPieces protocolVersion (if 31 ≤ protocolVersion then buf.drop n1 else buf) (toklen - n1)
  else [buf.take n1]
termination_by toklen
decreasing_by
  simp only [Deflate.maxStored] at h ⊢
  omega

section Blocks

variable {z : Deflate.Pair} {protocolVersion : ℤ} {tx : z.Tx} {w h v g : Bytes} {p : Phase}

/-- The compressor is at rest after `w` and `h`. -/
def Rested (z : Deflate.Pair) (w h : Bytes) : Prop := ∃ tx p, p.AtRest ∧ Deflated z tx w h p

/-- What is left of the buffer after a piece. -/
theorem length_dropPiece {buf : Bytes} {n toklen : ℕ} (hlen : toklen ≤ buf.length) :
    toklen - n ≤ (if 31 ≤ protocolVersion then buf.drop n else buf).length := by
  split_ifs
  · rw [List.length_drop]
    omega
  · omega

/-- The block goes into the compressor's history, as stored blocks. -/
theorem insertToken_spec (hz : Deflate.Inverse z) {buf : Bytes} {toklen : ℕ} (hpos : 0 < toklen)
    (hlen : toklen ≤ buf.length) (hd : Deflated z tx w h p) (hp : p.AtRest) :
    ∃ tx', insertToken protocolVersion tx buf toklen = some tx' ∧
      Deflated z tx' (w ++ (tokenPieces protocolVersion buf toklen).flatMap Deflate.stored)
        (h ++ (tokenPieces protocolVersion buf toklen).flatten) .fresh := by
  induction hn : toklen using Nat.strong_induction_on generalizing buf toklen tx w h p with
  | h n ih =>
    subst hn
    rw [insertToken, tokenPieces]
    have hn1 : (buf.take (min toklen Deflate.maxStored)).length = min toklen Deflate.maxStored := by
      rw [List.length_take]
      omega
    have hne : buf.take (min toklen Deflate.maxStored) ≠ [] := by
      rw [← List.length_pos_iff, hn1]
      simp only [Deflate.maxStored]
      omega
    obtain ⟨tx₁, hinsert⟩ := hz.insert_ok hd hp hne (by omega)
    have hd₁ := hd.insert hp hne (by omega) hinsert
    simp only [hinsert]
    by_cases hmore : 0 < toklen - min toklen Deflate.maxStored
    · rw [dif_pos hmore, dif_pos hmore]
      obtain ⟨tx', hrest, hd'⟩ := ih _ (by simp only [Deflate.maxStored] at hmore ⊢; omega) hmore
        (length_dropPiece hlen) hd₁ (Or.inl rfl) rfl
      refine ⟨tx', hrest, ?_⟩
      simpa only [List.flatMap_cons, List.flatten_cons, List.append_assoc] using hd'
    · rw [dif_neg hmore, dif_neg hmore]
      refine ⟨tx₁, rfl, ?_⟩
      simpa using hd₁

/-- The first piece, as the decompressor gets it. -/
theorem tokenPieces_stored (protocolVersion : ℤ) {buf : Bytes} {toklen : ℕ} (hlen : toklen ≤ buf.length) :
    (tokenPieces protocolVersion buf toklen).flatMap Deflate.stored =
      Deflate.storedHeader (min toklen Deflate.maxStored) ++ (buf.take (min toklen Deflate.maxStored) ++
        if 0 < toklen - min toklen Deflate.maxStored then
          (tokenPieces protocolVersion
            (if 31 ≤ protocolVersion then buf.drop (min toklen Deflate.maxStored) else buf)
            (toklen - min toklen Deflate.maxStored)).flatMap Deflate.stored
        else []) := by
  have htake : (buf.take (min toklen Deflate.maxStored)).length = min toklen Deflate.maxStored := by
    rw [List.length_take]
    omega
  rw [tokenPieces]
  by_cases hmore : 0 < toklen - min toklen Deflate.maxStored
  · rw [dif_pos hmore, if_pos hmore, List.flatMap_cons, Deflate.stored, htake, List.append_assoc]
  · rw [dif_neg hmore, if_neg hmore, List.flatMap_cons, Deflate.stored, htake, List.append_assoc]
    rfl

/-- What the loop of `see_deflate_token` still gives to the decompressor. -/
def SeeLoop.rest (protocolVersion : ℤ) (s : SeeLoop z) : Bytes :=
  if s.len = 0 then []
  else if s.blklen = 0 then (tokenPieces protocolVersion s.buf s.len).flatMap Deflate.stored
  else
    s.buf.take s.blklen ++
      if 0 < s.len - s.blklen then
        (tokenPieces protocolVersion (if 31 ≤ protocolVersion then s.buf.drop s.blklen else s.buf)
          (s.len - s.blklen)).flatMap Deflate.stored
      else []

/-- The lengths in the loop. -/
structure SeeLoop.Ok (s : SeeLoop z) : Prop where
  len : s.len ≤ s.buf.length
  blklen : s.blklen = 0 ∨ s.blklen = min s.len Deflate.maxStored

theorem SeeLoop.Ok.feed (protocolVersion : ℤ) {s : SeeLoop z} (hs : s.Ok) :
    (s.feed protocolVersion).Ok ∧ (s.feed protocolVersion).rx = s.rx ∧
      (s.feed protocolVersion).availIn ++ (s.feed protocolVersion).rest protocolVersion =
        s.availIn ++ s.rest protocolVersion ∧
      ((s.feed protocolVersion).availIn = [] → (s.feed protocolVersion).len = 0) := by
  obtain ⟨hlen, hblk⟩ := hs
  rw [SeeLoop.feed]
  by_cases hmore : s.availIn = [] ∧ s.len ≠ 0
  swap
  · rw [if_neg hmore]
    exact ⟨⟨hlen, hblk⟩, rfl, rfl, fun hnil => by_contra fun h0 => hmore ⟨hnil, h0⟩⟩
  obtain ⟨hin, h0⟩ := hmore
  rw [if_pos ⟨hin, h0⟩, hin]
  by_cases hb : s.blklen = 0
  · -- the header of the next piece
    have hmin : min s.len Deflate.maxStored ≠ 0 := by
      simp only [Deflate.maxStored]
      omega
    simp only [hb, if_true]
    refine ⟨⟨hlen, Or.inr rfl⟩, trivial, ?_, fun hnil => by simp [Deflate.storedHeader] at hnil⟩
    simp only [SeeLoop.rest, h0, hb, hmin, if_true, if_false, List.nil_append]
    exact (tokenPieces_stored protocolVersion hlen).symm
  · -- its data
    obtain hb' := hblk.resolve_left hb
    simp only [hb, if_false]
    refine ⟨⟨?_, Or.inl rfl⟩, trivial, ?_, fun hnil => ?_⟩
    · exact length_dropPiece hlen
    · simp only [SeeLoop.rest, h0, hb, if_true, if_false, List.nil_append]
      congr 1
      split_ifs <;> first | rfl | omega
    · have := congrArg List.length hnil
      rw [List.length_take, List.length_nil] at this
      omega

/-- **The decompressor sees the block** as the compressor did. -/
theorem seeLoop_spec (hz : Deflate.Inverse z) (hd : Deflated z tx w h p) (hp : p.AtRest) {s : SeeLoop z}
    (hs : s.Ok) (hi : Inflated z s.rx v g) (hw : v ++ (s.availIn ++ s.rest protocolVersion) = w) :
    ∃ rx, Inflated z rx w h ∧ ∃ N, ∀ fuel, N ≤ fuel → seeLoop protocolVersion fuel s = some rx := by
  induction hn : (s.availIn ++ s.rest protocolVersion).length + (h.length - g.length)
    using Nat.strong_induction_on generalizing s v g with
  | h n ih =>
    obtain ⟨hok, hrx, hrest, hgiven⟩ := hs.feed protocolVersion
    generalize hs1 : s.feed protocolVersion = s1 at hok hrx hrest hgiven
    rw [← hrest] at hn hw
    rw [← hrx] at hi
    have hpre : v ++ s1.availIn <+: w := by
      rw [← hw, ← List.append_assoc]
      exact List.prefix_append _ _
    obtain ⟨r, hr, hused, hall, hstatus, hprefix, hi'⟩ := inflate_call hz hd hi hpre .sync
    have herr : r.status ≠ .error := by rw [hstatus]; split_ifs <;> decide
    have hlen := hprefix.length_le
    rw [List.length_append] at hlen
    by_cases hgo : s1.len ≠ 0 ∨ r.out.length = maxLiteral
    · have hprogress : 0 < r.used ∨ 0 < r.out.length := by
        by_contra hno
        obtain ⟨h0, hout⟩ := not_or.1 hno
        have hne : r.out.length ≠ maxLiteral := by
          have : 0 < maxLiteral := by norm_num
          omega
        have hnil := List.eq_nil_of_length_eq_zero ((hall hne).symm.trans (by omega))
        exact hgo.elim (fun hlen => hlen (hgiven hnil)) hne
      have hsplit : v ++ s1.availIn.take r.used ++ (s1.availIn.drop r.used ++ s1.rest protocolVersion) =
          w := by
        rw [← hw, List.append_assoc, ← List.append_assoc (List.take _ _), List.take_append_drop]
      obtain ⟨rx, hrx', N, hloop⟩ := ih _ (by
          rw [← hn]
          simp only [List.length_append, List.length_drop] at hlen hused ⊢
          have : SeeLoop.rest protocolVersion
              { s1 with rx := r.rx, availIn := s1.availIn.drop r.used } = s1.rest protocolVersion := rfl
          rw [this]
          omega)
        (s := { s1 with rx := r.rx, availIn := s1.availIn.drop r.used }) ⟨hok.len, hok.blklen⟩ hi' hsplit rfl
      refine ⟨rx, hrx', N + 1, fun fuel hfuel => ?_⟩
      obtain ⟨fuel, rfl⟩ : ∃ k, fuel = k + 1 := ⟨fuel - 1, by omega⟩
      rw [seeLoop]
      simp only [hs1, hr, herr, if_false, if_pos hgo]
      exact hloop fuel (by omega)
    · obtain ⟨hlen0, hspace⟩ := not_or.1 hgo
      have hnil : s1.rest protocolVersion = [] := if_pos (not_not.1 hlen0)
      rw [hnil, List.append_nil] at hw
      rw [hall hspace, List.take_length, hw] at hi'
      have hlt : (z.inflate s1.rx .sync s1.availIn maxLiteral).out.length < maxLiteral := by
        have := (hz.inflate_ok .sync hd hi hpre (by norm_num : 0 < maxLiteral)).2.1
        rw [hr] at this ⊢
        omega
      have hgh := hz.inflate_all hd hi hp (Or.inl hw) (by norm_num) hlt
      rw [hr] at hgh
      rw [hgh] at hi'
      refine ⟨r.rx, hi', 1, fun fuel hfuel => ?_⟩
      obtain ⟨fuel, rfl⟩ : ∃ k, fuel = k + 1 := ⟨fuel - 1, by omega⟩
      rw [seeLoop]
      simp only [hs1, hr, herr, if_false, if_neg hgo]

end Blocks

end CloudEdgeBackup
