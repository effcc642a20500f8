/-
  The token stream comes back: what `send_token` is given is what `recv_token`
  returns.

  * without compression a call is read as it was written (`gets_simple`);
  * with compression, `TxRel` and `RxRel` relate the two sides between two calls to
    a `Mode`: the receiver is owed the data the compressor holds back and the run of
    tokens that is not sent (`Mode.owed`).  `Steps` is one call, and `gets_calls` the
    induction on the calls;
  * `tokens_roundTrip` is the result, for every mode of compression.
-/
import CloudEdgeBackup.TokenLoops

namespace CloudEdgeBackup

open Codec
open Deflate (Phase Deflated Inflated marker)

/-! ## Without compression -/

section Simple

variable {z : Deflate.Pair} {protocolVersion : ℤ} {basis : ℕ → Bytes} {bases : List (ℕ → Bytes)}
  {st : RxState z} {ws : Bytes} {its : List Item}

theorem reads_recvLiteral {lit : Bytes} (hst : st.residue = 0) (h : lit ≠ [])
    (hlen : lit.length ≤ chunkSize) :
    Reads (simpleRecvToken st) (writeInt lit.length ++ lit) (st, some ⟨lit.length, lit⟩) := by
  have hpos := List.length_pos_of_ne_nil h
  have hint : IsInt32 lit.length := by
    simp only [chunkSize] at hlen
    exact ⟨by omega, by omega⟩
  rw [simpleRecvToken, if_pos hst]
  refine (reads_int hint).bind ?_
  rw [if_neg (by omega), Int.toNat_natCast, recvLiteral, min_eq_right hlen]
  refine (reads_getN lit).bind_nil ?_
  rw [Nat.sub_self, ← hst]
  exact Reads.pure _

/-- The chunks of a literal. -/
theorem gets_writeLiteral (hst : st.residue = 0) (lit : Bytes)
    (h : Gets 0 protocolVersion (basis :: bases) st ws its) :
    Gets 0 protocolVersion (basis :: bases) st (writeLiteral lit ++ ws) (lit.map .byte ++ its) := by
  induction lit using writeLiteral.induct with
  | case1 =>
    rw [writeLiteral]
    exact h
  | case2 lit hne n1 ih =>
    have hpos := List.length_pos_of_ne_nil hne
    have hlen : (lit.take n1).length = n1 := by
      rw [List.length_take]
      omega
    have hne' : lit.take n1 ≠ [] := by
      rw [← List.length_pos_iff, hlen]
      simp only [n1, chunkSize]
      omega
    have hread := reads_recvLiteral hst hne' (by omega)
    have hpass := getsM_data hread hne' ih
    rw [hlen] at hpass
    rw [writeLiteral, dif_neg hne]
    have hitems : (lit.take n1).map Item.byte ++ ((lit.drop n1).map Item.byte ++ its) =
        lit.map Item.byte ++ its := by
      rw [← List.append_assoc, ← List.map_append, List.take_append_drop]
    rw [hitems, ← List.append_assoc] at hpass
    exact gets_of_pass hpass

/-- **The receiver gets what is sent**, one call after the other. -/
theorem gets_simple {cs : List SendCall} (h : CallsOk 0 bases cs) (hst : st.residue = 0) :
    Gets 0 protocolVersion bases st (cs.flatMap simpleSendToken) (cs.flatMap SendCall.items) := by
  induction h with
  | nil => exact gets_nil
  | @data basis bases lit cs _ _ ih =>
    have := gets_writeLiteral hst lit ih
    simpa [simpleSendToken, SendCall.items] using this
  | @block basis bases lit block cs i hi _ _ ih =>
    have hread : Reads (simpleRecvToken st) (writeInt (-1 - (i : ℤ))) (st, some ⟨-1 - (i : ℤ), []⟩) := by
      rw [simpleRecvToken, if_pos hst]
      refine (reads_int ⟨by omega, by omega⟩).bind_nil ?_
      rw [if_pos (by omega)]
      exact Reads.pure _
    have hpass := getsM_block hread ⟨0, fun _ _ => rfl⟩ ih
    have := gets_writeLiteral hst lit (gets_of_pass hpass)
    have htoken : -((i : ℤ) + 1) = -1 - i := by ring
    have h2 : (i : ℤ) ≠ -2 := by omega
    have h1 : (i : ℤ) ≠ -1 := by omega
    simpa [simpleSendToken, SendCall.items, h1, h2, htoken] using this
  | @eof basis bases lit cs _ ih =>
    have hread : Reads (simpleRecvToken st) (writeInt 0) (st, some ⟨0, []⟩) := by
      rw [simpleRecvToken, if_pos hst]
      refine (reads_int ⟨by norm_num, by norm_num⟩).bind_nil ?_
      exact Reads.pure _
    have hpass : GetsM 0 protocolVersion basis bases (simpleRecvToken st) _ _ := getsM_done hread ih
    have := gets_writeLiteral hst lit (gets_of_pass hpass)
    simpa [simpleSendToken, SendCall.items] using this

end Simple

/-! ## Runs of tokens -/

section Runs

variable {z : Deflate.Pair} (doCompression : ℕ) (protocolVersion : ℤ) (basis : ℕ → Bytes)

/-- What a block adds to the stream that the decompressor sees. -/
def tokenWire (d : Bytes) : Bytes :=
  if doCompression = 1 then (tokenPieces protocolVersion d d.length).flatMap Deflate.stored else []

def tokenData (d : Bytes) : Bytes :=
  if doCompression = 1 then (tokenPieces protocolVersion d d.length).flatten else []

/-- What `k` blocks from `s` on add to it. -/
def runWire (s : ℕ) : ℕ → Bytes
  | 0 => []
  | k + 1 => runWire s k ++ tokenWire doCompression protocolVersion (basis (s + k))

def runData (s : ℕ) : ℕ → Bytes
  | 0 => []
  | k + 1 => runData s k ++ tokenData doCompression protocolVersion (basis (s + k))

/-- The sender has put the blocks from `s` to `s + n` into its history. -/
structure RunOk (z : Deflate.Pair) (w h : Bytes) (s n : ℕ) : Prop where
  rested : ∀ k ≤ n + 1, Rested z (w ++ runWire doCompression protocolVersion basis s k)
    (h ++ runData doCompression protocolVersion basis s k)
  nonempty : ∀ k ≤ n, doCompression = 1 → basis (s + k) ≠ []
  bound : s + n < 2 ^ 31
  count : n ≤ 65535

def runItems (s n : ℕ) : List Item := (List.range' s n).map .block

variable {doCompression protocolVersion basis} {bases : List (ℕ → Bytes)} {st : RxState z} {ws : Bytes}
  {its : List Item} {w h : Bytes} {s n : ℕ}

/-- The receiver puts a block into its history as the sender did. -/
theorem seeToken_spec (hz : Deflate.Inverse z) {d : Bytes} (hd : doCompression = 1 → d ≠ [])
    (hrested : Rested z (w ++ tokenWire doCompression protocolVersion d)
      (h ++ tokenData doCompression protocolVersion d)) {rx : z.Rx} (hi : Inflated z rx w h) :
    ∃ rx', Inflated z rx' (w ++ tokenWire doCompression protocolVersion d)
        (h ++ tokenData doCompression protocolVersion d) ∧
      ∀ st : RxState z, st.rx = rx → ∃ N, ∀ fuel, N ≤ fuel →
        seeToken doCompression protocolVersion fuel st d = some { st with rx := rx' } := by
  by_cases hdc : doCompression = 1
  · have hlen : d.length ≠ 0 := by simpa using hd hdc
    obtain ⟨tx, p, hp, hdefl⟩ := hrested
    have hrest : SeeLoop.rest protocolVersion (⟨rx, [], d, d.length, 0⟩ : SeeLoop z) =
        tokenWire doCompression protocolVersion d := by
      rw [SeeLoop.rest, if_neg hlen, if_pos rfl, tokenWire, if_pos hdc]
    obtain ⟨rx', hrx, N, hloop⟩ := seeLoop_spec hz hdefl hp
      (s := ⟨rx, [], d, d.length, 0⟩) ⟨le_rfl, Or.inl rfl⟩ hi (by rw [hrest]; rfl)
    refine ⟨rx', hrx, fun st hst => ⟨N, fun fuel hfuel => ?_⟩⟩
    rw [seeToken, if_pos hdc, hst, hloop fuel hfuel]
    rfl
  · refine ⟨rx, ?_, fun st hst => ⟨0, fun _ _ => by rw [seeToken, if_neg hdc, ← hst]⟩⟩
    simpa [tokenWire, tokenData, hdc] using hi

/-- The next token of a run. -/
theorem RunOk.see (hz : Deflate.Inverse z) (hrun : RunOk doCompression protocolVersion basis z w h s n)
    {k : ℕ} (hk : k ≤ n) {rx : z.Rx}
    (hi : Inflated z rx (w ++ runWire doCompression protocolVersion basis s k)
      (h ++ runData doCompression protocolVersion basis s k)) :
    ∃ rx', Inflated z rx' (w ++ runWire doCompression protocolVersion basis s (k + 1))
        (h ++ runData doCompression protocolVersion basis s (k + 1)) ∧
      ∀ st : RxState z, st.rx = rx → ∃ N, ∀ fuel, N ≤ fuel →
        seeToken doCompression protocolVersion fuel st (basis (s + k)) = some { st with rx := rx' } := by
  have hrested := hrun.rested (k + 1) (by omega)
  simp only [runWire, runData, ← List.append_assoc] at hrested ⊢
  exact seeToken_spec hz (hrun.nonempty k hk) hrested hi

/-- **The rest of a run** is returned token by token. -/
theorem gets_running (hz : Deflate.Inverse z) (hdc : doCompression ≠ 0)
    (hrun : RunOk doCompression protocolVersion basis z w h s n) {j : ℕ} (hj : j < n)
    (hstate : st.state = .running) (htoken : st.rxToken = (s + j : ℕ)) (hcount : st.rxRun = (n - j : ℕ))
    (hi : Inflated z st.rx (w ++ runWire doCompression protocolVersion basis s (j + 1))
      (h ++ runData doCompression protocolVersion basis s (j + 1)))
    (hcont : ∀ rx, Inflated z rx (w ++ runWire doCompression protocolVersion basis s (n + 1))
        (h ++ runData doCompression protocolVersion basis s (n + 1)) →
      Gets doCompression protocolVersion (basis :: bases)
        { st with rx := rx, state := .idle, rxToken := (s + n : ℕ), rxRun := 0 } ws its) :
    Gets doCompression protocolVersion (basis :: bases) st ws (runItems (s + (j + 1)) (n - j) ++ its) := by
  induction hn : n - j generalizing st j with
  | zero => omega
  | succ m ih =>
    have hbound := hrun.bound
    have hcount' := hrun.count
    obtain ⟨rx, hrx, hsee⟩ := hrun.see hz (by omega : j + 1 ≤ n) hi
    have hnext : int32 (st.rxToken + 1) = (s + (j + 1) : ℕ) := by
      rw [htoken, int32_eq ⟨by omega, by omega⟩]
      push_cast
      ring
    have hret : int32 (-1 - ((s + (j + 1) : ℕ) : ℤ)) = -1 - ((s + (j + 1) : ℕ) : ℤ) :=
      int32_eq ⟨by omega, by omega⟩
    have hleft : int32 (st.rxRun - 1) = (m : ℕ) := by
      rw [hcount, hn, int32_eq ⟨by omega, by omega⟩]
      push_cast
      ring
    have hpass : Reads (recvTokenPass doCompression st) []
        ({ st with
            rxToken := (s + (j + 1) : ℕ), rxRun := (m : ℕ),
            state := if m = 0 then .idle else .running },
          some ⟨-1 - ((s + (j + 1) : ℕ) : ℤ), []⟩) := by
      rw [recvTokenPass_deflated hdc, recvDeflatedPass]
      simp only [hstate, hnext, hleft, hret, Nat.cast_eq_zero]
      exact Reads.pure _
    rw [runItems, List.range'_succ, List.map_cons, List.cons_append]
    refine gets_of_pass (getsM_block hpass (hsee _ rfl) ?_)
    · rcases Nat.eq_zero_or_pos m with rfl | hm
      · have hlast : j + 1 = n := by omega
        subst hlast
        simpa using hcont rx hrx
      · have hm' : n - (j + 1) = m := by omega
        exact ih (by omega) (by simp only [if_neg hm.ne']) rfl (by rw [hm']) hrx hcont hm'

/-- The flags of a run, by the distance from the last one. -/
theorem relFlag : ∀ r : Fin 64, ∀ base ∈ [tokenRel, tokenRunRel],
    toChar (base + (r : ℕ)) ≠ endFlag ∧ ¬ toChar (base + (r : ℕ)) &&& 0xC0 = 0x40 ∧
      toChar (base + (r : ℕ)) &&& 0x80 ≠ 0 ∧ (toChar (base + (r : ℕ)) &&& 0x3f).toNat = r ∧
      ((toChar (base + (r : ℕ)) >>> 6) &&& 1 ≠ 0 ↔ base = tokenRunRel) := by
  decide

theorem longFlag : ∀ base ∈ [tokenLong, tokenRunLong], toChar base ≠ endFlag ∧
    ¬ toChar base &&& 0xC0 = 0x40 ∧ toChar base &&& 0x80 = 0 ∧
      (toChar base &&& 1 ≠ 0 ↔ base = tokenRunLong) := by
  decide

/-- What `recvFlag` makes of a flag and the token number `tok` stands for. -/
theorem reads_recvFlag {flag : UInt8} {tok : Bytes} {i : ℤ} (hend : flag ≠ endFlag)
    (htok : Reads (recvTokenNumber st flag) tok i) {n : ℕ} (hn : n < 2 ^ 16)
    (hrun : (if flag &&& 0x80 ≠ 0 then flag >>> 6 else flag) &&& 1 ≠ 0 ↔ n ≠ 0) :
    Reads (recvFlag st flag) (tok ++ if n ≠ 0 then [toChar n, toChar (n / 2 ^ 8)] else [])
      (if n ≠ 0 then { st with rxToken := i, rxRun := n, state := .running }
        else { st with rxToken := i }, some ⟨int32 (-1 - i), []⟩) := by
  rw [recvFlag, if_neg hend]
  refine htok.bind ?_
  by_cases h0 : n = 0
  · rw [if_neg (fun h => hrun.1 h h0), if_neg (not_not.2 h0), if_neg (not_not.2 h0)]
    exact Reads.pure _
  · have hlow : (toChar n).toNat = n % 2 ^ 8 := by
      have := toNat_toChar n
      omega
    have hhigh : (toChar (n / 2 ^ 8)).toNat = n / 2 ^ 8 := by
      have := toNat_toChar (n / 2 ^ 8)
      omega
    have hsum : ((n % 2 ^ 8 : ℕ) : ℤ) + (n / 2 ^ 8 : ℕ) * 2 ^ 8 = n := by omega
    rw [if_pos (hrun.2 h0), if_pos h0, if_pos h0]
    refine Reads.cons (Reads.cons ?_)
    rw [hlow, hhigh, hsum]
    exact Reads.pure _

/-- **A run is read as it was sent.** -/
theorem reads_sendRun (z : Deflate.Pair) {e : ℤ} (he : 0 ≤ e ∧ e < 2 ^ 31) (hbound : s + n < 2 ^ 31)
    (hcount : n ≤ 65535) : ∃ flag rest, sendRun s e (s + n : ℕ) = flag :: rest ∧
      ¬ flag &&& 0xC0 = 0x40 ∧ ∀ st : RxState z, st.rxToken = e → Reads (recvFlag st flag) rest
        (if n ≠ 0 then { st with rxToken := s, rxRun := n, state := .running }
          else { st with rxToken := s }, some ⟨-1 - (s : ℤ), []⟩) := by
  have hr : int32 (s - e) = s - e := int32_eq ⟨by omega, by omega⟩
  have hn : int32 ((s + n : ℕ) - (s : ℤ)) = n := by
    rw [int32_eq ⟨by omega, by omega⟩]
    push_cast
    ring
  have hret : int32 (-1 - (s : ℤ)) = -1 - s := int32_eq ⟨by omega, by omega⟩
  have hn0 : ((n : ℤ) = 0) ↔ n = 0 := Nat.cast_eq_zero
  simp only [sendRun, hr, hn, ne_eq, hn0]
  by_cases hrel : 0 ≤ (s : ℤ) - e ∧ (s : ℤ) - e ≤ 63
  · have hbase : (if n = 0 then tokenRel else tokenRunRel) ∈ [tokenRel, tokenRunRel] := by
      split_ifs <;> simp
    obtain ⟨hend, hdata, hbit, hlow, hrun⟩ := relFlag ⟨((s : ℤ) - e).toNat, by omega⟩ _ hbase
    have hcast : ((((s : ℤ) - e).toNat : ℕ) : ℤ) = s - e := Int.toNat_of_nonneg hrel.1
    simp only [hcast] at hend hdata hbit hlow hrun
    rw [if_pos hrel]
    refine ⟨_, _, rfl, hdata, fun st hst => ?_⟩
    rw [← hret]
    rw [← List.nil_append (if ¬ n = 0 then _ else _)]
    refine reads_recvFlag hend ?_ (by omega) ?_
    · rw [recvTokenNumber, if_pos hbit, hlow, hst, hcast, add_sub_cancel, int32_eq ⟨by omega, by omega⟩]
      exact Reads.pure _
    · rw [if_pos hbit, hrun]
      split_ifs with h <;> simp [h]
  · have hbase : (if n = 0 then tokenLong else tokenRunLong) ∈ [tokenLong, tokenRunLong] := by
      split_ifs <;> simp
    obtain ⟨hend, hdata, hbit, hrun⟩ := longFlag _ hbase
    rw [if_neg hrel]
    refine ⟨_, _, rfl, hdata, fun st hst => ?_⟩
    rw [← hret]
    refine reads_recvFlag hend ?_ (by omega) ?_
    · rw [recvTokenNumber, if_neg (not_not.2 hbit)]
      exact reads_int ⟨by omega, by omega⟩
    · rw [if_neg (not_not.2 hbit), hrun]
      split_ifs with h <;> simp [h]

/-- **A run of tokens is returned**, and its blocks go into the history. -/
theorem gets_run (hz : Deflate.Inverse z) (hdc : doCompression ≠ 0)
    (hrun : RunOk doCompression protocolVersion basis z w h s n) {flag : UInt8} {rest : Bytes}
    (hread : Reads (recvFlag st flag) rest
      (if n ≠ 0 then { st with rxToken := s, rxRun := n, state := .running }
        else { st with rxToken := s }, some ⟨-1 - (s : ℤ), []⟩))
    (hst : Waits st w h) (hidle : st.state = .idle)
    (hcont : ∀ st' : RxState z, Waits st' (w ++ runWire doCompression protocolVersion basis s (n + 1))
        (h ++ runData doCompression protocolVersion basis s (n + 1)) →
      st'.state = .idle → st'.rxToken = (s + n : ℕ) →
      Gets doCompression protocolVersion (basis :: bases) st' ws its) :
    GetsM doCompression protocolVersion basis bases (recvFlag st flag) (rest ++ ws)
      (runItems s (n + 1) ++ its) := by
  have hi : Inflated z st.rx (w ++ runWire doCompression protocolVersion basis s 0)
      (h ++ runData doCompression protocolVersion basis s 0) := by
    simpa [runWire, runData] using hst.inflated
  obtain ⟨rx, hrx, hsee⟩ := hrun.see hz (Nat.zero_le n) hi
  rw [runItems, List.range'_succ, List.map_cons, List.cons_append]
  by_cases h0 : n = 0
  · subst h0
    refine getsM_block hread (hsee _ rfl) ?_
    exact hcont _ ⟨Or.inl hidle, hst.saved, hrx⟩ hidle rfl
  · rw [if_pos h0] at hread
    refine getsM_block hread (hsee _ rfl) ?_
    refine gets_running hz hdc hrun (Nat.pos_of_ne_zero h0) rfl rfl rfl hrx fun rx hrx => ?_
    exact hcont _ ⟨Or.inl rfl, hst.saved, hrx⟩ rfl rfl

end Runs

/-! ## Between two calls -/

section Calls

variable {z : Deflate.Pair} (doCompression : ℕ) (protocolVersion : ℤ) (basis : ℕ → Bytes)

/-- Between two calls for a file: nothing was sent for it; a literal was, and its last
    output is held back; or the run of tokens from `s` to `s + n` is not sent.  `w` and
    `h` are what the compressor has put out and taken before the run, and `e` is the
    end of the last run. -/
inductive Mode
  | start
  | data (w h : Bytes) (e : ℕ)
  | run (w h : Bytes) (p : Phase) (s n e : ℕ)

/-- The sender's side, with no run open. -/
structure TxAt (st : TxState z) (w h : Bytes) (p : Phase) (e : ℕ) : Prop where
  deflated : Deflated z st.strm w h p
  phase : (st.flushPending = true ∧ p = .fed) ∨ (st.flushPending = false ∧ p.AtRest)
  lastRunEnd : st.lastRunEnd = e
  bound : e < 2 ^ 31

/-- The sender's side in a run. -/
structure TxRun (st : TxState z) (w h : Bytes) (p : Phase) (s n e : ℕ) : Prop where
  lastToken : st.lastToken = (s + n : ℕ)
  runStart : st.runStart = s
  before : p.AtRest ∧ ∃ tx, Deflated z tx w h p
  run : RunOk doCompression protocolVersion basis z w h s n
  now : ∃ p', p'.AtRest ∧ TxAt st (w ++ runWire doCompression protocolVersion basis s (n + 1))
    (h ++ runData doCompression protocolVersion basis s (n + 1)) p' e

/-- The receiver's side: it has returned `g`, and has seen everything but, perhaps, the
    marker of the last flush. -/
structure RxAt (st : RxState z) (w h : Bytes) (p : Phase) (e : ℕ) (v g : Bytes) : Prop where
  waits : Waits st v g
  returned : g <+: h
  token : st.rxToken = e
  seen : (v = w ∧ (p.AtRest → st.state = .idle ∧ g = h)) ∨
    (p = .synced ∧ st.state = .inflated ∧ v ++ marker = w)

def TxRel (st : TxState z) : Mode → Prop
  | .start => st.lastToken = -1
  | .data w h e => st.lastToken = -2 ∧ TxAt st w h .fed e
  | .run w h p s n e => TxRun doCompression protocolVersion basis st w h p s n e

def RxRel (st : RxState z) (g : Bytes) : Mode → Prop
  | .start => st.state = .init ∧ st.savedFlag = none
  | .data w h e => ∃ v, RxAt st w h .fed e v g
  | .run w h p _ _ e => ∃ v, RxAt st w h p e v g

/-- The data the receiver has not returned. -/
def heldBack (h g : Bytes) : List Item := (h.drop g.length).map .byte

/-- What the receiver has not returned, though the call for it was made. -/
def Mode.owed (g : Bytes) : Mode → List Item
  | .start => []
  | .data _ h _ => heldBack h g
  | .run _ h _ s n _ => heldBack h g ++ runItems s (n + 1)

/-- After `sendPreviousRun` no run is open, and the receiver has what is owed. -/
def Opens (bases : List (ℕ → Bytes)) (st : TxState z) (c : SendCall) (m : Mode) : Prop :=
  ∃ (st' : TxState z) (sent w h : Bytes) (p : Phase) (e : ℕ), sendPreviousRun st c = (st', sent) ∧
    st'.lastToken = c.token ∧ st'.runStart = c.token ∧ TxAt st' w h p e ∧
    ∀ (rst : RxState z) g ws its, RxRel rst g m →
      (∀ (rst' : RxState z) g', RxAt rst' w h p e w g' →
        Gets doCompression protocolVersion (basis :: bases) rst' ws (heldBack h g' ++ its)) →
      Gets doCompression protocolVersion (basis :: bases) rst (sent ++ ws) (m.owed g ++ its)

/-- The call is sent, and the receiver comes along; `bases'` are the files still to come
    after it. -/
def Steps (bases' bases : List (ℕ → Bytes)) (st : TxState z) (c : SendCall) (m : Mode) : Prop :=
  ∃ (st' : TxState z) (sent : Bytes) (m' : Mode),
    (∃ N, ∀ fuel, N ≤ fuel → sendDeflatedToken doCompression protocolVersion fuel st c = some (st', sent)) ∧
    TxRel doCompression protocolVersion (bases'.headD fun _ => []) st' m' ∧ (bases' = [] → m' = .start) ∧
    ∀ (rst : RxState z) g ws its, RxRel rst g m →
      (∀ (rst' : RxState z) g', RxRel rst' g' m' →
        Gets doCompression protocolVersion bases' rst' ws (m'.owed g' ++ its)) →
      Gets doCompression protocolVersion bases rst (sent ++ ws) (m.owed g ++ (c.items ++ its))

variable {doCompression protocolVersion basis} {bases : List (ℕ → Bytes)} {st : TxState z}
  {rst : RxState z} {c : SendCall} {ws : Bytes} {its : List Item} {w h v g : Bytes} {p : Phase}
  {s n e : ℕ}

theorem heldBack_append (hg : g <+: h) (d : Bytes) :
    heldBack (h ++ d) g = heldBack h g ++ d.map .byte := by
  rw [heldBack, heldBack, List.drop_append_of_le_length hg.length_le, List.map_append]

theorem heldBack_self (h : Bytes) : heldBack h h = [] := by
  rw [heldBack, List.drop_length, List.map_nil]

/-- With everything taken, a flag may come. -/
theorem RxAt.flag (hrst : RxAt rst w h p e v g) (hp : p.AtRest) :
    (rst.state = .idle ∧ v = w ∧ g = h) ∨ (rst.state = .inflated ∧ p = .synced ∧ v ++ marker = w) := by
  rcases hrst.seen with ⟨rfl, hrest⟩ | ⟨rfl, hinfl, hv⟩
  · obtain ⟨hidle, rfl⟩ := hrest hp
    exact Or.inl ⟨hidle, rfl, rfl⟩
  · exact Or.inr ⟨hinfl, rfl, hv⟩

/-- **The first call for a file.** -/
theorem previousRun_start (hdc : doCompression ≠ 0) (hst : st.lastToken = -1) :
    sendPreviousRun st c = (⟨c.token, c.token, 0, z.deflateReset, false⟩, []) ∧
      TxAt (⟨c.token, c.token, 0, z.deflateReset, false⟩ : TxState z) [] [] .fresh 0 ∧
      ∀ (rst : RxState z) bases ws its, rst.state = .init → rst.savedFlag = none →
        (∀ rst' : RxState z, RxAt rst' [] [] .fresh 0 [] [] →
          Gets doCompression protocolVersion (basis :: bases) rst' ws its) →
        Gets doCompression protocolVersion (basis :: bases) rst ws its := by
  refine ⟨if_pos hst, ⟨.reset, Or.inr ⟨rfl, Or.inl rfl⟩, rfl, by norm_num⟩, ?_⟩
  intro rst bases ws its hinit hsaved hcont
  have hpass : Reads (recvTokenPass doCompression rst) []
      ({ rst with rx := z.inflateReset, state := .idle, rxToken := 0 }, none) := by
    rw [recvTokenPass_deflated hdc, recvDeflatedPass]
    simp only [hinit]
    exact Reads.pure _
  refine gets_of_pass (getsM_none hpass (hcont _ ⟨⟨Or.inl rfl, hsaved, .reset⟩, ?_, rfl, ?_⟩))
  · exact List.prefix_refl _
  · exact Or.inl ⟨rfl, fun _ => ⟨rfl, rfl⟩⟩

/-- **A call that ends a run.** -/
theorem previousRun_run (hz : Deflate.Inverse z) (hdc : doCompression ≠ 0)
    (hst : TxRun doCompression protocolVersion basis st w h p s n e)
    (hends : c.lit ≠ [] ∨ c.token ≠ int32 (st.lastToken + 1) ∨ int32 (st.runStart + 65536) ≤ c.token) :
    ∃ (st' : TxState z) (sent w' h' : Bytes) (p' : Phase), sendPreviousRun st c = (st', sent) ∧
      st'.lastToken = c.token ∧ st'.runStart = c.token ∧ p'.AtRest ∧ TxAt st' w' h' p' (s + n) ∧
      ∀ (rst : RxState z) v g bases ws its, RxAt rst w h p e v g →
        (∀ rst' : RxState z, RxAt rst' w' h' p' (s + n) w' h' →
          Gets doCompression protocolVersion (basis :: bases) rst' ws its) →
        Gets doCompression protocolVersion (basis :: bases) rst (sent ++ ws)
          (heldBack h g ++ (runItems s (n + 1) ++ its)) := by
  obtain ⟨hlast, hstart, ⟨hp, tx, hd⟩, hrun, p', hp', hnow⟩ := hst
  have hbound := hrun.bound
  have he := hnow.bound
  obtain ⟨flag, rest, hsent, hdata, hread⟩ := reads_sendRun z (e := e) ⟨by omega, by omega⟩ hbound hrun.count
  refine ⟨{ st with lastToken := c.token, runStart := c.token, lastRunEnd := st.lastToken },
    sendRun st.runStart st.lastRunEnd st.lastToken,
    w ++ runWire doCompression protocolVersion basis s (n + 1),
    h ++ runData doCompression protocolVersion basis s (n + 1), p', ?_, ?_⟩
  · rw [sendPreviousRun, if_neg (by omega), if_neg (by omega), if_pos hends]
  refine ⟨rfl, rfl, hp', ⟨hnow.deflated, hnow.phase, hlast, hbound⟩, ?_⟩
  intro rst v g bases ws its hrst hcont
  rw [hlast, hstart, hnow.lastRunEnd, hsent, List.cons_append]
  refine gets_flag hz hdc hd hdata hrst.waits hrst.returned (hrst.flag hp) fun rx hrx => ?_
  refine gets_run hz hdc hrun (hread _ hrst.token) ⟨Or.inl rfl, hrst.waits.saved, hrx⟩ rfl ?_
  intro rst' hw hidle htoken
  exact hcont rst' ⟨hw, List.prefix_refl _, htoken, Or.inl ⟨rfl, fun _ => ⟨hidle, rfl⟩⟩⟩

/-- A sum that overflows wraps. -/
theorem int32_cases {x : ℤ} (hx : 0 ≤ x ∧ x < 2 ^ 32) : (int32 x = x ∧ x < 2 ^ 31) ∨ int32 x = x - 2 ^ 32 := by
  rcases lt_or_ge x (2 ^ 31) with hlt | hge
  · exact Or.inl ⟨int32_eq ⟨by omega, by omega⟩, hlt⟩
  · refine Or.inr ?_
    rw [int32, ← Int.sub_bmod_right, Int.bmod_eq_of_le (by omega) (by omega)]
    norm_num

/-- The first call of the compressor has something to do. -/
theorem ready_feed (hst : TxAt st w h p e) (hgo : c.lit ≠ [] ∨ st.flushPending)
    (hc : c.token = -2 → c.lit ≠ []) :
    p.Ready ((⟨st.strm, c.lit, [], [], 0, .no⟩ : DeflateLoop z).feed c.token).flush
      ((⟨st.strm, c.lit, [], [], 0, .no⟩ : DeflateLoop z).feed c.token).availIn := by
  by_cases hlit : c.lit = []
  · have hpend := hgo.resolve_left (not_not.2 hlit)
    have htoken : c.token ≠ -2 := fun h => hc h hlit
    rcases hst.phase with ⟨-, rfl⟩ | ⟨hno, -⟩
    · simp only [DeflateLoop.feed, hlit, ne_eq, not_true_eq_false, and_false, if_false, htoken,
        not_false_eq_true, and_self, if_true]
      trivial
    · rw [hno] at hpend
      cases hpend
  · have hin : ((⟨st.strm, c.lit, [], [], 0, .no⟩ : DeflateLoop z).feed c.token).availIn ≠ [] := by
      simp [DeflateLoop.feed, hlit, chunkSize]
    rcases hst.phase with ⟨-, rfl⟩ | ⟨-, rfl | rfl⟩
    · cases ((⟨st.strm, c.lit, [], [], 0, .no⟩ : DeflateLoop z).feed c.token).flush
      · exact hin
      · trivial
    · exact hin
    · exact hin

/-- **The literal of a call**, from a state in which no run is open. -/
theorem sendLiteral_spec (hz : Deflate.Inverse z) (hdc : doCompression ≠ 0) (hst : TxAt st w h p e)
    (hc : c.token = -2 → c.lit ≠ []) :
    ∃ (st' : TxState z) (sent w' : Bytes) (p' : Phase),
      (∃ N, ∀ fuel, N ≤ fuel → sendLiteral fuel st c = some (st', sent)) ∧
      st'.lastToken = st.lastToken ∧ st'.runStart = st.runStart ∧
      TxAt st' w' (h ++ c.lit) p' e ∧ (p' = .fed ↔ c.token = -2) ∧
      ∀ (rst : RxState z) g basis bases ws its, RxAt rst w h p e w g →
        (∀ (rst' : RxState z) v' g', RxAt rst' w' (h ++ c.lit) p' e v' g' →
          Gets doCompression protocolVersion (basis :: bases) rst' ws (heldBack (h ++ c.lit) g' ++ its)) →
        Gets doCompression protocolVersion (basis :: bases) rst (sent ++ ws)
          (heldBack h g ++ (c.lit.map .byte ++ its)) := by
  by_cases hgo : c.lit ≠ [] ∨ st.flushPending
  · have hflushed : p.flushed = [] := by
      rcases hst.phase with ⟨-, rfl⟩ | ⟨-, rfl | rfl⟩ <;> rfl
    have hinv : LoopInv c.token w (h ++ c.lit)
        ((⟨st.strm, c.lit, [], [], 0, .no⟩ : DeflateLoop z).feed c.token) [] h p := by
      refine ⟨?_, ?_, feed_given _ _, ?_, ?_, ?_, ?_, ?_, ?_⟩
      · exact (List.append_nil w).symm ▸ hst.deflated
      · rw [List.append_assoc, feed_input]
        rfl
      · simp [DeflateLoop.feed, carried]
      · norm_num [DeflateLoop.feed, carried]
      · exact ready_feed hst hgo hc
      · exact feed_flush fun hfl => by cases hfl
      · rw [hflushed]
        exact List.nil_suffix
      · exact fun hne => absurd hflushed hne
    obtain ⟨tx, chunks, ⟨N, hloop⟩, hchunks, hend⟩ := deflateLoop_spec hz hinv
    rw [List.nil_append] at hend
    have hsend : ∀ fuel, N ≤ fuel → sendLiteral fuel st c =
        some ({ st with strm := tx, flushPending := decide (c.token = -2) },
          chunks.flatMap dataRecord) := fun fuel hfuel => by
      rw [sendLiteral, if_pos hgo, hloop fuel hfuel]
      rfl
    -- what the receiver does with the records, whatever the last flush
    have hrecords : ∀ (w' : Bytes) (p' : Phase) (tx' : z.Tx), Deflated z tx' w' (h ++ c.lit) p' →
        w ++ chunks.flatten <+: w' →
        (∀ (rst' : RxState z) g', Waits rst' (w ++ chunks.flatten) g' → g' <+: h ++ c.lit →
          rst'.rxToken = e → (chunks ≠ [] → rst'.state = .inflated) →
          RxAt rst' w' (h ++ c.lit) p' e (w ++ chunks.flatten) g') →
        ∀ (rst : RxState z) g basis bases ws its, RxAt rst w h p e w g →
          (∀ (rst' : RxState z) v' g', RxAt rst' w' (h ++ c.lit) p' e v' g' →
            Gets doCompression protocolVersion (basis :: bases) rst' ws
              (heldBack (h ++ c.lit) g' ++ its)) →
          Gets doCompression protocolVersion (basis :: bases) rst (chunks.flatMap dataRecord ++ ws)
            (heldBack h g ++ (c.lit.map .byte ++ its)) := by
      intro w' p' tx' hd' hpre hat rst g basis bases ws its hrst hcont
      rw [← List.append_assoc, ← heldBack_append hrst.returned]
      have hg := hrst.returned.trans (List.prefix_append h c.lit)
      refine gets_records hz hdc hd' hchunks hrst.waits hg hpre ?_
      intro rst' g' hw hstate _ htoken hg'
      exact hcont rst' _ g' (hat rst' g' hw hg' (htoken.trans hrst.token) hstate)
    by_cases htoken : c.token = -2
    · have hdefl := hend.unflushed htoken
      refine ⟨_, _, w ++ chunks.flatten, .fed, ⟨N, hsend⟩, rfl, rfl, ?_, ?_, ?_⟩
      · exact ⟨hdefl, Or.inl ⟨decide_eq_true htoken, rfl⟩, hst.lastRunEnd, hst.bound⟩
      · exact ⟨fun _ => htoken, fun _ => rfl⟩
      · refine hrecords _ _ _ hdefl (List.prefix_refl _) fun rst' g' hw hg' htok _ => ?_
        refine ⟨hw, hg', htok, Or.inl ⟨rfl, fun hrest => ?_⟩⟩
        rcases hrest with hp | hp <;> cases hp
    · obtain ⟨hwritten, hdefl⟩ := hend.flushed htoken
      have hne : chunks ≠ [] := by
        rintro rfl
        exact hwritten rfl
      rw [← List.append_assoc] at hdefl
      refine ⟨_, _, w ++ chunks.flatten ++ marker, .synced, ⟨N, hsend⟩, rfl, rfl, ?_, ?_, ?_⟩
      · exact ⟨hdefl, Or.inr ⟨decide_eq_false htoken, Or.inr rfl⟩, hst.lastRunEnd, hst.bound⟩
      · exact ⟨(fun hp => by cases hp), fun h => absurd h htoken⟩
      · refine hrecords _ _ _ hdefl (List.prefix_append _ _) fun rst' g' hw hg' htok hstate => ?_
        exact ⟨hw, hg', htok, Or.inr ⟨rfl, hstate hne, rfl⟩⟩
  · obtain ⟨hlit, hpend⟩ := not_or.1 hgo
    have hlit : c.lit = [] := not_not.1 hlit
    rcases hst.phase with ⟨htrue, -⟩ | ⟨-, hrest⟩
    · exact absurd htrue hpend
    refine ⟨st, [], w, p, ⟨0, fun fuel _ => if_neg hgo⟩, rfl, rfl, ?_, ?_, ?_⟩
    · rwa [hlit, List.append_nil]
    · refine ⟨fun hp => ?_, fun htoken => absurd hlit (hc htoken)⟩
      subst hp
      rcases hrest with hp | hp <;> cases hp
    · intro rst g basis bases ws its hrst hcont
      have := hcont rst w g (by rwa [hlit, List.append_nil])
      rw [heldBack_append hrst.returned, List.append_assoc] at this
      simpa using this

/-- **The end of a file** is returned after everything else. -/
theorem gets_eof (hz : Deflate.Inverse z) (hdc : doCompression ≠ 0) (hst : TxAt st w h p e)
    (hp : p.AtRest) (hrst : RxAt rst w h p e v g)
    (hcont : ∀ rst' : RxState z, rst'.state = .init → rst'.savedFlag = none →
      Gets doCompression protocolVersion bases rst' ws its) :
    Gets doCompression protocolVersion (basis :: bases) rst (endFlag :: ws)
      (heldBack h g ++ .done :: its) := by
  refine gets_flag hz hdc hst.deflated (by decide) hrst.waits hrst.returned (hrst.flag hp) ?_
  intro rx _
  rw [recvFlag, if_pos rfl]
  exact getsM_done (Reads.pure _) (hcont _ rfl hrst.waits.saved)

/-- **The block of a token** goes into the history. -/
theorem sendEnd_block (hz : Deflate.Inverse z) (hst : TxAt st w h p e) (hp : p.AtRest) {i : ℕ}
    (htoken : c.token = i) (hblock : doCompression = 1 → c.block ≠ [] ∧ c.block = basis i) :
    ∃ st', sendEnd doCompression protocolVersion st c = some (st', []) ∧
      st'.lastToken = st.lastToken ∧ st'.runStart = st.runStart ∧
      ∃ p', p'.AtRest ∧ TxAt st' (w ++ tokenWire doCompression protocolVersion (basis i))
        (h ++ tokenData doCompression protocolVersion (basis i)) p' e := by
  have h1 : c.token ≠ -1 := by omega
  have h2 : c.token ≠ -2 := by omega
  have hpend : st.flushPending = false := by
    rcases hst.phase with ⟨-, rfl⟩ | ⟨hno, -⟩
    · rcases hp with hp | hp <;> cases hp
    · exact hno
  by_cases hdc : doCompression = 1
  · obtain ⟨hne, heq⟩ := hblock hdc
    obtain ⟨tx, hinsert, hd⟩ : ∃ tx, insertToken protocolVersion st.strm c.block c.block.length =
        some tx ∧ _ :=
      insertToken_spec hz (List.length_pos_of_ne_nil hne) le_rfl hst.deflated hp
    refine ⟨{ st with strm := tx }, ?_, rfl, rfl, .fresh, Or.inl rfl, ?_⟩
    · rw [sendEnd, if_neg h1, if_pos ⟨h2, hdc⟩, hinsert]
      rfl
    · rw [tokenWire, tokenData, if_pos hdc, if_pos hdc, ← heq]
      exact ⟨hd, Or.inr ⟨hpend, Or.inl rfl⟩, hst.lastRunEnd, hst.bound⟩
  · refine ⟨st, ?_, rfl, rfl, p, hp, ?_⟩
    · rw [sendEnd, if_neg h1, if_neg fun h => hdc h.2]
    · rw [tokenWire, tokenData, if_neg hdc, if_neg hdc, List.append_nil, List.append_nil]
      exact hst

section Opened

variable {m : Mode} (hz : Deflate.Inverse z) (hdc : doCompression ≠ 0)
  (hopens : Opens doCompression protocolVersion basis bases st c m)
include hz hdc hopens

/-- Up to the literal of the call. -/
theorem opened_literal (hc : c.token = -2 → c.lit ≠ []) :
    ∃ (st' : TxState z) (sent w h : Bytes) (p : Phase) (e : ℕ),
      (∃ N, ∀ fuel, N ≤ fuel → sendDeflatedToken doCompression protocolVersion fuel st c =
        (sendEnd doCompression protocolVersion st' c).map fun r => (r.1, sent ++ r.2)) ∧
      st'.lastToken = c.token ∧ st'.runStart = c.token ∧ TxAt st' w h p e ∧ (p = .fed ↔ c.token = -2) ∧
      ∀ (rst : RxState z) g ws its, RxRel rst g m →
        (∀ (rst' : RxState z) v' g', RxAt rst' w h p e v' g' →
          Gets doCompression protocolVersion (basis :: bases) rst' ws (heldBack h g' ++ its)) →
        Gets doCompression protocolVersion (basis :: bases) rst (sent ++ ws)
          (m.owed g ++ (c.lit.map .byte ++ its)) := by
  obtain ⟨st₁, sent₁, w₁, h₁, p₁, e, hprev, hlast₁, hstart₁, hat₁, hrx₁⟩ := hopens
  obtain ⟨st₂, sent₂, w₂, p₂, ⟨N, hsend⟩, hlast₂, hstart₂, hat₂, hphase, hrx₂⟩ :=
    sendLiteral_spec hz hdc hat₁ hc
  refine ⟨st₂, sent₁ ++ sent₂, w₂, h₁ ++ c.lit, p₂, e, ⟨N, fun fuel hfuel => ?_⟩,
    hlast₂.trans hlast₁, hstart₂.trans hstart₁, hat₂, hphase, ?_⟩
  · rw [sendDeflatedToken, hprev]
    simp only [hsend fuel hfuel, Option.bind_eq_bind, Option.bind_some]
    cases sendEnd doCompression protocolVersion st₂ c <;> rfl
  · intro rst g ws its hrst hcont
    rw [List.append_assoc]
    refine hrx₁ rst g _ _ hrst fun rst' g' hrst' => ?_
    exact hrx₂ rst' g' basis bases ws its hrst' hcont

/-- Data alone. -/
theorem steps_data (htoken : c.token = -2) (hlit : c.lit ≠ []) :
    Steps doCompression protocolVersion (basis :: bases) (basis :: bases) st c m := by
  obtain ⟨st', sent, w, h, p, e, ⟨N, hsend⟩, hlast, -, hat, hphase, hrx⟩ :=
    opened_literal hz hdc hopens fun _ => hlit
  obtain rfl := hphase.2 htoken
  refine ⟨st', sent, .data w h e, ⟨N, fun fuel hfuel => ?_⟩, ⟨hlast.trans htoken, hat⟩, nofun, ?_⟩
  · rw [hsend fuel hfuel, sendEnd, if_neg (by omega), if_neg fun h => h.1 htoken]
    simp
  · intro rst g ws its hrst hcont
    have hitems : c.items = c.lit.map .byte := by
      rw [SendCall.items, if_neg (by omega), if_pos htoken, List.append_nil]
    rw [hitems]
    exact hrx rst g ws its hrst fun rst' v' g' hrst' => hcont rst' g' ⟨v', hrst'⟩

/-- A block token. -/
theorem steps_block {i : ℕ} (htoken : c.token = i) (hi : i < 2 ^ 31)
    (hblock : doCompression = 1 → c.block ≠ [] ∧ c.block = basis i) :
    Steps doCompression protocolVersion (basis :: bases) (basis :: bases) st c m := by
  obtain ⟨st₁, sent, w, h, p, e, ⟨N, hsend⟩, hlast, hstart, hat, hphase, hrx⟩ :=
    opened_literal hz hdc hopens (fun h => by omega)
  have hp : p.AtRest := by
    rcases hat.phase with ⟨-, hp⟩ | ⟨-, hp⟩
    · have := hphase.1 hp
      omega
    · exact hp
  obtain ⟨st₂, hend, hlast₂, hstart₂, p₂, hp₂, hat₂⟩ := sendEnd_block hz hat hp htoken hblock
  have hrested : ∀ k ≤ 0 + 1, Rested z (w ++ runWire doCompression protocolVersion basis i k)
      (h ++ runData doCompression protocolVersion basis i k) := by
    intro k hk
    rcases Nat.le_one_iff_eq_zero_or_eq_one.1 hk with rfl | rfl
    · exact ⟨_, p, hp, by simpa [runWire, runData] using hat.deflated⟩
    · exact ⟨_, p₂, hp₂, by simpa [runWire, runData] using hat₂.deflated⟩
  refine ⟨st₂, sent, .run w h p i 0 e, ⟨N, fun fuel hfuel => ?_⟩, ⟨?_, ?_, ⟨hp, _, hat.deflated⟩,
    ⟨hrested, ?_, hi, by norm_num⟩, p₂, hp₂, ?_⟩, nofun, ?_⟩
  · rw [hsend fuel hfuel, hend, Option.map_some, List.append_nil]
  · rw [hlast₂, hlast, htoken, Nat.add_zero]
  · rw [hstart₂, hstart, htoken]
  · intro k hk hdc
    obtain rfl : k = 0 := by omega
    obtain ⟨hne, heq⟩ := hblock hdc
    exact fun hnil => hne (heq.trans hnil)
  · simpa [runWire, runData] using hat₂
  · intro rst g ws its hrst hcont
    have hitems : c.items = c.lit.map .byte ++ runItems i (0 + 1) := by
      rw [SendCall.items, if_neg (by omega), if_neg (by omega), htoken]
      rfl
    rw [hitems, List.append_assoc]
    refine hrx rst g ws _ hrst fun rst' v' g' hrst' => ?_
    rw [← List.append_assoc]
    exact hcont rst' g' ⟨v', hrst'⟩

/-- The end of the file. -/
theorem steps_eof (htoken : c.token = -1) :
    Steps doCompression protocolVersion bases (basis :: bases) st c m := by
  obtain ⟨st', sent, w, h, p, e, ⟨N, hsend⟩, hlast, -, hat, hphase, hrx⟩ :=
    opened_literal hz hdc hopens (fun h => by omega)
  have hp : p.AtRest := by
    rcases hat.phase with ⟨-, hp⟩ | ⟨-, hp⟩
    · have := hphase.1 hp
      omega
    · exact hp
  refine ⟨st', sent ++ [endFlag], .start, ⟨N, fun fuel hfuel => ?_⟩, hlast.trans htoken, fun _ => rfl, ?_⟩
  · rw [hsend fuel hfuel, sendEnd, if_pos htoken]
    rfl
  · intro rst g ws its hrst hcont
    have hitems : c.items = c.lit.map .byte ++ [.done] := by
      rw [SendCall.items, if_pos htoken]
    rw [hitems, List.append_assoc, List.append_assoc]
    refine hrx rst g _ _ hrst fun rst' v' g' hrst' => ?_
    exact gets_eof hz hdc hat hp hrst' fun rst'' hinit hsaved => hcont rst'' [] ⟨hinit, hsaved⟩

end Opened

/-- A call that ends the run, if one is open. -/
theorem opens_of_rel (hz : Deflate.Inverse z) (hdc : doCompression ≠ 0) {m : Mode}
    (hst : TxRel doCompression protocolVersion basis st m)
    (hends : c.lit ≠ [] ∨ c.token ≠ int32 (st.lastToken + 1) ∨ int32 (st.runStart + 65536) ≤ c.token ∨
      st.lastToken < 0) : Opens doCompression protocolVersion basis bases st c m := by
  cases m with
  | start =>
    obtain ⟨hprev, hat, hrx⟩ : sendPreviousRun st c = _ ∧ TxAt _ _ _ _ _ ∧ _ :=
      previousRun_start hdc hst
    refine ⟨_, _, _, _, _, _, hprev, rfl, rfl, hat, ?_⟩
    rintro rst g ws its ⟨hinit, hsaved⟩ hcont
    exact hrx rst bases ws its hinit hsaved fun rst' hrst' => hcont rst' [] hrst'
  | data w h e =>
    obtain ⟨hlast, hat⟩ := hst
    refine ⟨{ st with lastToken := c.token, runStart := c.token }, [], w, h, .fed, e, ?_, rfl, rfl,
      ⟨hat.deflated, hat.phase, hat.lastRunEnd, hat.bound⟩, ?_⟩
    · rw [sendPreviousRun, if_neg (by omega), if_pos hlast]
    · rintro rst g ws its ⟨v, hrst⟩ hcont
      rcases hrst.seen with ⟨rfl, -⟩ | ⟨hp, -⟩
      · exact hcont rst g hrst
      · cases hp
  | run w h p s n e =>
    have hlast := hst.lastToken
    obtain ⟨st', sent, w', h', p', hprev, hlast', hstart', -, hat, hrx⟩ :=
      previousRun_run hz hdc hst (c := c) (by
        rcases hends with h | h | h | h
        · exact Or.inl h
        · exact Or.inr (Or.inl h)
        · exact Or.inr (Or.inr h)
        · omega)
    refine ⟨st', sent, w', h', p', s + n, hprev, hlast', hstart', hat, ?_⟩
    rintro rst g ws its ⟨v, hrst⟩ hcont
    simp only [Mode.owed, List.append_assoc]
    refine hrx rst v g bases ws its hrst fun rst' hrst' => ?_
    have := hcont rst' h' hrst'
    rwa [heldBack_self, List.nil_append] at this

/-- **A call that goes on with the run.** -/
theorem steps_next (hz : Deflate.Inverse z)
    (hst : TxRun doCompression protocolVersion basis st w h p s n e) (hlit : c.lit = []) {i : ℕ}
    (htoken : c.token = i) (hnext : c.token = int32 (st.lastToken + 1))
    (hlt : c.token < int32 (st.runStart + 65536))
    (hblock : doCompression = 1 → c.block ≠ [] ∧ c.block = basis i) :
    Steps doCompression protocolVersion (basis :: bases) (basis :: bases) st c (.run w h p s n e) := by
  obtain ⟨hlast, hstart, hbefore, hrun, p₁, hp₁, hat⟩ := hst
  have hbound := hrun.bound
  rw [hlast, htoken] at hnext
  rw [hstart, htoken] at hlt
  have hnext' := int32_cases (x := ((s + n : ℕ) : ℤ) + 1) ⟨by omega, by omega⟩
  have hlt' := int32_cases (x := (s : ℤ) + 65536) ⟨by omega, by omega⟩
  obtain rfl : i = s + (n + 1) := by omega
  have hcount : n + 1 ≤ 65535 := by omega
  have hbound' : s + (n + 1) < 2 ^ 31 := by omega
  have hpend : st.flushPending = false := by
    rcases hat.phase with ⟨-, rfl⟩ | ⟨hno, -⟩
    · rcases hp₁ with hp | hp <;> cases hp
    · exact hno
  have hat' : TxAt { st with lastToken := c.token } (w ++ runWire doCompression protocolVersion basis s (n + 1))
      (h ++ runData doCompression protocolVersion basis s (n + 1)) p₁ e :=
    ⟨hat.deflated, hat.phase, hat.lastRunEnd, hat.bound⟩
  obtain ⟨st₂, hend, hlast₂, hstart₂, p₂, hp₂, hat₂⟩ := sendEnd_block hz hat' hp₁ htoken hblock
  rw [List.append_assoc, List.append_assoc] at hat₂
  have hrested : ∀ k ≤ n + 1 + 1, Rested z (w ++ runWire doCompression protocolVersion basis s k)
      (h ++ runData doCompression protocolVersion basis s k) := by
    intro k hk
    rcases Nat.lt_or_ge k (n + 1 + 1) with hk | hk'
    · exact hrun.rested k (by omega)
    · obtain rfl : k = n + 1 + 1 := by omega
      exact ⟨_, p₂, hp₂, hat₂.deflated⟩
  refine ⟨st₂, [], .run w h p s (n + 1) e, ⟨0, fun fuel _ => ?_⟩, ⟨?_, ?_, hbefore,
    ⟨hrested, ?_, hbound', hcount⟩, p₂, hp₂, hat₂⟩, nofun, ?_⟩
  · have hprev : sendPreviousRun st c = ({ st with lastToken := c.token }, []) := by
      have hgo : ¬ (c.lit ≠ [] ∨ c.token ≠ int32 (st.lastToken + 1) ∨
          int32 (st.runStart + 65536) ≤ c.token) := by
        rw [hlast, hstart, htoken]
        rintro (h | h | h)
        · exact h hlit
        · exact h hnext
        · exact h.not_gt hlt
      rw [sendPreviousRun, if_neg (by omega), if_neg (by omega), if_neg hgo]
    have hnone : sendLiteral fuel { st with lastToken := c.token } c =
        some ({ st with lastToken := c.token }, []) := if_neg (by simp [hlit, hpend])
    rw [sendDeflatedToken, hprev]
    simp only [hnone, hend, Option.bind_eq_bind, Option.bind_some, List.append_nil]
  · rw [hlast₂, htoken]
  · rw [hstart₂, hstart]
  · intro k hk hdc
    rcases Nat.lt_or_ge k (n + 1) with hk' | hk'
    · exact hrun.nonempty k (by omega) hdc
    · obtain rfl : k = n + 1 := by omega
      obtain ⟨hne, heq⟩ := hblock hdc
      exact fun hnil => hne (heq.trans hnil)
  · rintro rst g ws its ⟨v, hrst⟩ hcont
    have hitems : c.items = [.block (s + (n + 1))] := by
      rw [SendCall.items, if_neg (by omega), if_neg (by omega), hlit, htoken]
      rfl
    have hrun : runItems s (n + 1 + 1) = runItems s (n + 1) ++ [.block (s + (n + 1))] := by
      rw [runItems, runItems, List.range'_concat, List.map_append, one_mul]
      rfl
    have := hcont rst g ⟨v, hrst⟩
    rw [Mode.owed, hrun, List.append_assoc, List.append_assoc] at this
    rw [hitems, Mode.owed, List.append_assoc]
    exact this

/-- **Every call is received**, whatever came before it. -/
theorem steps_of_rel (hz : Deflate.Inverse z) (hdc : doCompression ≠ 0) {m : Mode}
    (hst : TxRel doCompression protocolVersion basis st m) {i : ℕ}
    (htoken : c.token = i) (hi : i < 2 ^ 31) (hblock : doCompression = 1 → c.block ≠ [] ∧ c.block = basis i) :
    Steps doCompression protocolVersion (basis :: bases) (basis :: bases) st c m := by
  by_cases hends : c.lit ≠ [] ∨ c.token ≠ int32 (st.lastToken + 1) ∨
      int32 (st.runStart + 65536) ≤ c.token ∨ st.lastToken < 0
  · exact steps_block hz hdc (opens_of_rel hz hdc hst hends) htoken hi hblock
  · simp only [not_or, not_not, not_le, not_lt] at hends
    obtain ⟨hlit, hnext, hlt, hpos⟩ := hends
    cases m with
    | start =>
      have : st.lastToken = -1 := hst
      omega
    | data w h e =>
      have := hst.1
      omega
    | run w h p s n e => exact steps_next hz hst hlit htoken hnext hlt hblock

/-- **The calls are received one after the other**: by induction on them, with the two
    sides related before each. -/
theorem gets_calls (hz : Deflate.Inverse z) (hdc : doCompression ≠ 0) {cs : List SendCall}
    (h : CallsOk doCompression bases cs) {m : Mode}
    (hst : TxRel doCompression protocolVersion (bases.headD fun _ => []) st m)
    (hstart : bases = [] → m = .start) :
    ∃ r, (∃ N, ∀ fuel, N ≤ fuel →
        writeAll (sendToken doCompression protocolVersion fuel) st cs = some r) ∧
      ∀ (rst : RxState z) g, RxRel rst g m → Gets doCompression protocolVersion bases rst r.2
        (m.owed g ++ cs.flatMap SendCall.items) := by
  -- one call, and the calls after it
  have hcons : ∀ {c : SendCall} {cs bases bases' m} {st : TxState z},
      Steps doCompression protocolVersion bases' bases st c m →
      (∀ {st' : TxState z} {m'}, TxRel doCompression protocolVersion (bases'.headD fun _ => []) st' m' →
        (bases' = [] → m' = .start) → ∃ r, (∃ N, ∀ fuel, N ≤ fuel →
          writeAll (sendToken doCompression protocolVersion fuel) st' cs = some r) ∧
        ∀ (rst : RxState z) g, RxRel rst g m' → Gets doCompression protocolVersion bases' rst r.2
          (m'.owed g ++ cs.flatMap SendCall.items)) →
      ∃ r, (∃ N, ∀ fuel, N ≤ fuel →
          writeAll (sendToken doCompression protocolVersion fuel) st (c :: cs) = some r) ∧
        ∀ (rst : RxState z) g, RxRel rst g m → Gets doCompression protocolVersion bases rst r.2
          (m.owed g ++ (c :: cs).flatMap SendCall.items) := by
    intro c cs bases bases' m st hstep ih
    obtain ⟨st', sent, m', ⟨N, hsend⟩, hrel, hstart', hrx⟩ := hstep
    obtain ⟨r, ⟨N', hrest⟩, hgets⟩ := ih hrel hstart'
    refine ⟨(r.1, sent ++ r.2), ⟨max N N', fun fuel hfuel => ?_⟩, fun rst g hrst => ?_⟩
    · rw [writeAll, sendToken, if_neg hdc, hsend fuel (by omega), Option.bind_eq_bind, Option.bind_some,
        hrest fuel (by omega)]
      rfl
    · exact hrx rst g _ _ hrst fun rst' g' hrst' => hgets rst' g' hrst'
  induction h generalizing st m with
  | nil =>
    obtain rfl := hstart rfl
    exact ⟨(st, []), ⟨0, fun _ _ => rfl⟩, fun _ _ _ => gets_nil⟩
  | @data basis bases lit cs hlit _ ih =>
    refine hcons (steps_data hz hdc (opens_of_rel hz hdc hst ?_) rfl (hlit hdc)) ih
    exact Or.inl (hlit hdc)
  | @block basis bases lit block cs i hi hblock _ ih =>
    exact hcons (steps_of_rel hz hdc hst rfl hi hblock) ih
  | @eof basis bases lit cs _ ih =>
    refine hcons (steps_eof hz hdc (opens_of_rel hz hdc hst ?_) rfl) ih
    cases m with
    | start => exact Or.inr (Or.inr (Or.inr (hst.trans_lt (by norm_num))))
    | data w h e => exact Or.inr (Or.inr (Or.inr (hst.1.trans_lt (by norm_num))))
    | run w h p s n e =>
      have hbound := hst.run.bound
      have hnext := int32_cases (x := ((s + n : ℕ) : ℤ) + 1) ⟨by omega, by omega⟩
      have hne : (-1 : ℤ) ≠ int32 (((s + n : ℕ) : ℤ) + 1) := by omega
      exact Or.inr (Or.inl (hst.lastToken ▸ hne))

end Calls

/-! ## The round trip -/

/-- **What is sent comes back.**  Whatever the literals, the gaps between the tokens and
    the number of files, the results of `recv_token` are the bytes and the block numbers
    that `send_token` was given, with a 0 for the end of each file; with compression,
    for every compressor that behaves as documented. -/
theorem tokens_roundTrip {doCompression : ℕ} {bases : List (ℕ → Bytes)} {cs : List SendCall}
    (protocolVersion : ℤ) (z : Deflate.Pair) (hz : doCompression ≠ 0 → Deflate.Inverse z)
    (h : CallsOk doCompression bases cs) :
    ∃ r N, ∀ fuel, N ≤ fuel →
      (sendTokens doCompression protocolVersion fuel cs : Option (TxState z × Bytes)) = some r ∧
      ∃ res, Reads (recvTokens doCompression protocolVersion fuel bases (.start z)) r.2 res ∧
        res.flatMap resultItems = cs.flatMap SendCall.items := by
  by_cases hdc : doCompression = 0
  · subst hdc
    obtain ⟨N, hgets⟩ := gets_simple h (show (RxState.start z).residue = 0 from rfl)
    refine ⟨(.init z, cs.flatMap simpleSendToken), N, fun fuel hfuel => ⟨?_, hgets fuel hfuel⟩⟩
    rw [sendTokens]
    generalize TxState.init z = st
    clear hgets h
    induction cs generalizing st with
    | nil => rfl
    | cons c cs ih =>
      rw [writeAll, sendToken, if_pos rfl, Option.bind_eq_bind, Option.bind_some, ih]
      rfl
  · have hrel : TxRel doCompression protocolVersion (bases.headD fun _ => []) (TxState.init z) .start := rfl
    obtain ⟨r, ⟨N, hsend⟩, hgets⟩ := gets_calls (hz hdc) hdc h hrel fun _ => rfl
    obtain ⟨N', hgets⟩ := hgets (.start z) [] ⟨rfl, rfl⟩
    exact ⟨r, max N N', fun fuel hfuel => ⟨hsend fuel (by omega), hgets fuel (by omega)⟩⟩

/-- Two files: a literal, a run of two tokens, data alone, a token far away. -/
theorem tokens_roundTrip_twoFiles :
    ∃ r N, ∀ fuel, N ≤ fuel →
      (sendTokens 1 31 fuel [⟨5, [7], [1, 2]⟩, ⟨6, [], [1, 2]⟩, ⟨-2, [9, 9], []⟩, ⟨70000, [], [1, 2]⟩,
        ⟨-1, [3], []⟩, ⟨-1, [], []⟩] : Option (TxState Deflate.storedPair × Bytes)) = some r ∧
      ∃ res, Reads (recvTokens 1 31 fuel [fun _ => [1, 2], fun _ => []] (.start Deflate.storedPair)) r.2
          res ∧
        res.flatMap resultItems = [.byte 7, .block 5, .block 6, .byte 9, .byte 9, .block 70000, .byte 3,
          .done, .done] :=
  tokens_roundTrip 31 Deflate.storedPair (fun _ => Deflate.storedPair_inverse)
    (.block 5 (by norm_num) (fun _ => ⟨by simp, rfl⟩) <| .block 6 (by norm_num) (fun _ => ⟨by simp, rfl⟩) <|
      .data (fun _ => by simp) <| .block 70000 (by norm_num) (fun _ => ⟨by simp, rfl⟩) <| .eof <| .eof .nil)


end CloudEdgeBackup
