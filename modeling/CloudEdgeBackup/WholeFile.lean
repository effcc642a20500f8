/-
  The whole-file branch of `match_sums`, and `receive_data` with `whole_file`.

  * `Accum` are the statics of `checksum.c`: `sumInit`, `sumUpdate`, `sumEnd`.  The
    digest functions of `lib/` are a parameter (`Md`);
  * `matchSumsWhole` sends the file as one literal, its length in an `int32`, and the
    digest; it does not initialise the accumulator.  `recvWhole` reads the tokens and
    as many bytes of digest as the negotiated type has;
  * `wholeFile_iff` says when the two agree.
-/
import CloudEdgeBackup.TokensRoundTrip
import CloudEdgeBackup.RoundTrip

namespace CloudEdgeBackup

open Codec

/-! ## The accumulator -/

/-- `CSUM_NONE`, `CSUM_MD4_ARCHAIC` and so on -/
inductive CsumType
  | none
  | md4Archaic
  | md4Busted
  | md4Old
  | md4
  | md5
deriving DecidableEq

/-- `csum_len_for_type` of a transfer checksum -/
def CsumType.len : CsumType → ℕ
  | none => 1
  | _ => 16

/-- `CSUM_CHUNK` -/
abbrev csumChunk : ℕ := 64

/-- `lib/md5.c` and `lib/mdfour.c`, which share their context. -/
structure Md where
  Ctx : Type
  md5Begin : Ctx
  md5Update : Ctx → Bytes → Ctx
  md5Result : Ctx → Ctx × Bytes
  mdfourBegin : Ctx
  mdfourUpdate : Ctx → Bytes → Ctx
  mdfourResult : Ctx → Ctx × Bytes

/-- Data may be given to MD5 in pieces, and the digests have 16 bytes. -/
structure Md.Lawful (m : Md) : Prop where
  md5Update_append : ∀ c a b, m.md5Update (m.md5Update c a) b = m.md5Update c (a ++ b)
  md5Update_nil : ∀ c, m.md5Update c [] = c
  md5Result_length : ∀ c, (m.md5Result c).2.length = 16
  mdfourResult_length : ∀ c, (m.mdfourResult c).2.length = 16

/-- `cursum_type`, `md` and the `sumresidue` bytes in the buffer of `md`. -/
structure Accum (m : Md) where
  type : CsumType
  md : m.Ctx
  residue : Bytes
  residue_lt : residue.length < csumChunk

section Accumulator

variable {m : Md}

/-- Whole chunks go into the MD4, the rest stays in the buffer. -/
def mdfourChunks (md : m.Ctx) (p : Bytes) : m.Ctx × Bytes :=
  if _h : csumChunk ≤ p.length then mdfourChunks (m.mdfourUpdate md (p.take csumChunk)) (p.drop csumChunk)
  else (md, p)
termination_by p.length
decreasing_by
  simp only [csumChunk, List.length_drop] at _h ⊢
  omega

theorem mdfourChunks_lt (md : m.Ctx) (p : Bytes) : (mdfourChunks md p).2.length < csumChunk := by
  induction md, p using mdfourChunks.induct with
  | case1 md p h ih =>
    rw [mdfourChunks, dif_pos h]
    exact ih
  | case2 md p h =>
    rw [mdfourChunks, dif_neg h]
    exact not_le.1 h

theorem append_lt {p residue : Bytes} (h : p.length + residue.length < csumChunk) :
    (residue ++ p).length < csumChunk := by
  rw [List.length_append]
  omega

theorem nil_lt : ([] : Bytes).length < csumChunk := by decide

def sumUpdate (acc : Accum m) (p : Bytes) : Accum m :=
  match acc.type with
  | .none => acc
  | .md5 => { acc with md := m.md5Update acc.md p }
  | _ =>
    if h : p.length + acc.residue.length < csumChunk then
      { acc with residue := acc.residue ++ p, residue_lt := append_lt h }
    else
      let i := if acc.residue = [] then 0 else csumChunk - acc.residue.length
      let md := if acc.residue = [] then acc.md else m.mdfourUpdate acc.md (acc.residue ++ p.take i)
      let r := mdfourChunks md (p.drop i)
      { acc with md := r.1, residue := r.2, residue_lt := mdfourChunks_lt md (p.drop i) }

def sumInit (acc : Accum m) (type : CsumType) (seed : ℕ) : Accum m :=
  match type with
  | .none => { acc with type := .none }
  | .md5 => { acc with type := .md5, md := m.md5Begin }
  | .md4 => ⟨.md4, m.mdfourBegin, [], nil_lt⟩
  | type => sumUpdate ⟨type, m.mdfourBegin, [], nil_lt⟩ (leBytes 4 seed)

/-- The digest, and what is left of the accumulator. -/
def sumEnd (acc : Accum m) : Accum m × Bytes :=
  match acc.type with
  | .none => (acc, [0])
  | .md5 =>
    let r := m.md5Result acc.md
    ({ acc with md := r.1 }, r.2)
  | type =>
    let md := if acc.residue = [] ∧ (type = .md4Busted ∨ type = .md4Archaic) then acc.md
      else m.mdfourUpdate acc.md acc.residue
    let r := m.mdfourResult md
    ({ acc with md := r.1 }, r.2)

/-- The loop over the chunks of what is sent. -/
def sumPieces (acc : Accum m) (d : Bytes) : Accum m :=
  if _h : d = [] then acc else sumPieces (sumUpdate acc (d.take chunkSize)) (d.drop chunkSize)
termination_by d.length
decreasing_by
  have := List.length_pos_of_ne_nil _h
  simp only [List.length_drop, chunkSize]
  omega

/-- The digest of some data. -/
def digest (m : Md) (type : CsumType) (seed : ℕ) (d : Bytes) : Bytes :=
  (sumEnd (sumUpdate (sumInit ⟨.none, m.md5Begin, [], nil_lt⟩ type seed) d)).2

end Accumulator

/-! ## The two sides -/

section Sides

variable {z : Deflate.Pair} {m : Md}

/-- `match_sums` with `whole_file`: one literal, then the digest. -/
def matchSumsWhole (doCompression : ℕ) (protocolVersion : ℤ) (fuel : ℕ) (acc : Accum m) (st : TxState z)
    (src : Bytes) : Option ((TxState z × Accum m) × Bytes) :=
  let n := int32 src.length
  -- `map_ptr` does not take a negative length
  if doCompression ≠ 0 ∧ n < 0 then none
  else do
    let lit := src.take n.toNat
    let r ← sendToken doCompression protocolVersion fuel st ⟨-1, lit, []⟩
    let e := sumEnd (sumPieces acc lit)
    some ((r.1, e.1), r.2 ++ e.2)

/-- What `receive_data` reads with `whole_file`: the tokens and `sender_file_sum`. -/
def recvWhole (doCompression : ℕ) (protocolVersion : ℤ) (fuel : ℕ) (type : CsumType) (rst : RxState z) :
    In (List Token × Bytes) := do
  let res ← recvTokens doCompression protocolVersion fuel [fun _ => []] rst
  let sum ← getN type.len
  pure (res.reduceOption, sum)

/-- The two sides are between two files. -/
structure BetweenFiles (st : TxState z) (rst : RxState z) : Prop where
  lastToken : st.lastToken = -1
  residue : rst.residue = 0
  state : rst.state = .init
  saved : rst.savedFlag = none

/-- The receiver takes exactly what was sent, writes the source, and the digest is that
    of the source. -/
def WholeFileAgrees (doCompression : ℕ) (protocolVersion : ℤ) (type : CsumType) (seed : ℕ) (acc : Accum m)
    (st : TxState z) (rst : RxState z) (a : Recv) (src : Bytes) : Prop :=
  ∃ sent N, ∀ fuel, N ≤ fuel →
    (∃ s', matchSumsWhole doCompression protocolVersion fuel acc st src = some (s', sent)) ∧
    ∃ toks sum, Reads (recvWhole doCompression protocolVersion fuel type rst) sent (toks, sum) ∧
      (∃ r, receiveData (digest m type seed) a toks sum = some r ∧ r.out = src) ∧
      sum = digest m type seed src

/-- When they do: the length fits an `int32`; the accumulator, as it was left, has no
    type exactly if none was negotiated; and it digests the source like a new one. -/
structure WholeFileOk (type : CsumType) (seed : ℕ) (acc : Accum m) (src : Bytes) : Prop where
  length : src.length < 2 ^ 31
  len : acc.type = CsumType.none ↔ type = CsumType.none
  sameDigest : type ≠ .none → (sumEnd (sumUpdate acc src)).2 = digest m type seed src

end Sides

/-! ## The digest -/

section Digest

variable {m : Md}

theorem mdfourChunks_append (md : m.Ctx) (a b : Bytes) :
    mdfourChunks (mdfourChunks md a).1 ((mdfourChunks md a).2 ++ b) = mdfourChunks md (a ++ b) := by
  induction md, a using mdfourChunks.induct with
  | case1 md a h ih =>
    have hlen : csumChunk ≤ (a ++ b).length := by
      rw [List.length_append]
      omega
    rw [mdfourChunks.eq_1 md a, dif_pos h, ih, mdfourChunks.eq_1 md (a ++ b), dif_pos hlen,
      List.take_append_of_le_length h, List.drop_append_of_le_length h]
  | case2 md a h => rw [mdfourChunks.eq_1 md a, dif_neg h]

/-- The type decides which functions are used. -/
theorem sumUpdate_type (acc : Accum m) (p : Bytes) : (sumUpdate acc p).type = acc.type := by
  rw [sumUpdate]
  split
  · rfl
  · rfl
  · split_ifs <;> rfl

/-- An MD4 takes the chunks of everything it was given. -/
theorem sumUpdate_md4 {acc : Accum m} (h : acc.type ≠ .none) (h5 : acc.type ≠ .md5) (p : Bytes) :
    sumUpdate acc p =
      ⟨acc.type, (mdfourChunks acc.md (acc.residue ++ p)).1, (mdfourChunks acc.md (acc.residue ++ p)).2,
        mdfourChunks_lt _ _⟩ := by
  obtain ⟨type, md, residue, hlt⟩ := acc
  have hupdate : sumUpdate ⟨type, md, residue, hlt⟩ p =
      if h : p.length + residue.length < csumChunk then ⟨type, md, residue ++ p, append_lt h⟩
      else
        let i := if residue = [] then 0 else csumChunk - residue.length
        let md := if residue = [] then md else m.mdfourUpdate md (residue ++ p.take i)
        let r := mdfourChunks md (p.drop i)
        ⟨type, r.1, r.2, mdfourChunks_lt md (p.drop i)⟩ := by
    cases type <;> first | exact absurd rfl h | exact absurd rfl h5 | rfl
  rw [hupdate]
  by_cases hshort : p.length + residue.length < csumChunk
  · have hno : ¬ csumChunk ≤ (residue ++ p).length := by
      rw [List.length_append]
      omega
    have hchunks : mdfourChunks md (residue ++ p) = (md, residue ++ p) := by
      rw [mdfourChunks, dif_neg hno]
    rw [dif_pos hshort]
    simp only [hchunks]
  · rw [dif_neg hshort]
    by_cases hres : residue = []
    · subst hres
      simp
    · have hlong : csumChunk ≤ (residue ++ p).length := by
        rw [List.length_append]
        omega
      have hchunks : mdfourChunks md (residue ++ p) =
          mdfourChunks (m.mdfourUpdate md (residue ++ p.take (csumChunk - residue.length)))
            (p.drop (csumChunk - residue.length)) := by
        rw [mdfourChunks, dif_pos hlong, List.take_append, List.drop_append,
          List.take_of_length_le hlt.le, List.drop_eq_nil_of_le hlt.le, List.nil_append]
      simp only [hres, if_false, hchunks]

variable (hm : m.Lawful)
include hm

/-- Data may be given in pieces. -/
theorem sumUpdate_append (acc : Accum m) (a b : Bytes) :
    sumUpdate (sumUpdate acc a) b = sumUpdate acc (a ++ b) := by
  by_cases h : acc.type = .none
  · have hid : ∀ p, sumUpdate acc p = acc := fun p => by simp only [sumUpdate, h]
    rw [hid, hid, hid]
  by_cases h5 : acc.type = .md5
  · simp only [sumUpdate, h5, hm.md5Update_append]
  · have htype := sumUpdate_type acc a
    rw [sumUpdate_md4 (htype ▸ h) (htype ▸ h5), sumUpdate_md4 h h5, sumUpdate_md4 h h5]
    simp only [mdfourChunks_append, List.append_assoc]

theorem sumUpdate_nil (acc : Accum m) : sumUpdate acc [] = acc := by
  by_cases h : acc.type = .none
  · simp only [sumUpdate, h]
  by_cases h5 : acc.type = .md5
  · obtain ⟨type, md, residue, hlt⟩ := acc
    obtain rfl : type = .md5 := h5
    simp only [sumUpdate, hm.md5Update_nil]
  · have hchunks : mdfourChunks acc.md acc.residue = (acc.md, acc.residue) := by
      rw [mdfourChunks, dif_neg (not_le.2 acc.residue_lt)]
    rw [sumUpdate_md4 h h5, List.append_nil]
    simp only [hchunks]

theorem sumPieces_eq (acc : Accum m) (d : Bytes) : sumPieces acc d = sumUpdate acc d := by
  induction acc, d using sumPieces.induct with
  | case1 acc => rw [sumPieces, dif_pos rfl, sumUpdate_nil hm]
  | case2 acc d hne ih =>
    rw [sumPieces, dif_neg hne, ih, sumUpdate_append hm, List.take_append_drop]

theorem sumEnd_length (acc : Accum m) : (sumEnd acc).2.length = acc.type.len := by
  obtain ⟨type, md, residue, hlt⟩ := acc
  cases type <;> simp only [sumEnd, CsumType.len, hm.md5Result_length, hm.mdfourResult_length,
    List.length_singleton]

end Digest

theorem CsumType.len_eq_iff (a b : CsumType) : a.len = b.len ↔ (a = CsumType.none ↔ b = CsumType.none) := by
  cases a <;> cases b <;> decide

/-! ## The tokens of one literal -/

section Literal

variable {z : Deflate.Pair} {doCompression : ℕ} {protocolVersion : ℤ} {fuel : ℕ} {basis : ℕ → Bytes}
  {rst : RxState z} {res : List (Option Token)} {input rest : Bytes}

/-- The byte of an item. -/
def Item.byte? : Item → Option UInt8
  | .byte b => some b
  | _ => none

/-- Without blocks the results are data, and it is the bytes of the items. -/
theorem decode_reduceOption (hres : ∀ i, .block i ∉ res.flatMap resultItems) (file : Bytes) (sum : SumHead) :
    decode file sum res.reduceOption = (res.flatMap resultItems).filterMap Item.byte? ∧
      ∀ t ∈ res.reduceOption, ∃ d, t = .data d := by
  induction res with
  | nil => exact ⟨rfl, fun t ht => by cases ht⟩
  | cons o res ih =>
    simp only [List.flatMap_cons, List.mem_append, not_or] at hres ⊢
    obtain ⟨hdecode, hdata⟩ := ih fun i => (hres i).2
    rw [List.filterMap_append]
    rcases o with - | (d | i)
    · rw [List.reduceOption_cons_of_none]
      exact ⟨hdecode, hdata⟩
    · rw [List.reduceOption_cons_of_some]
      refine ⟨?_, fun t ht => ?_⟩
      · have hbytes : (resultItems (some (.data d))).filterMap Item.byte? = d := by
          simp [resultItems, List.filterMap_map, Function.comp_def, Item.byte?]
        rw [hbytes, ← hdecode]
        rfl
      · rcases List.mem_cons.1 ht with rfl | ht
        · exact ⟨d, rfl⟩
        · exact hdata t ht
    · exact absurd (by simp [resultItems]) (hres i).1

/-- **One literal comes back.** -/
theorem literal_roundTrip (protocolVersion : ℤ) (hz : doCompression ≠ 0 → Deflate.Inverse z) {st : TxState z}
    (hb : BetweenFiles st rst) (lit : Bytes) :
    ∃ r N, ∀ fuel, N ≤ fuel → sendToken doCompression protocolVersion fuel st ⟨-1, lit, []⟩ = some r ∧
      ∃ res, Reads (recvTokens doCompression protocolVersion fuel [fun _ => []] rst) r.2 res ∧
        res.flatMap resultItems = lit.map .byte ++ [.done] := by
  have hcalls : CallsOk doCompression [fun _ => []] [⟨-1, lit, []⟩] := .eof .nil
  have hitems : [(⟨-1, lit, []⟩ : SendCall)].flatMap SendCall.items = lit.map .byte ++ [.done] := by
    simp [SendCall.items]
  rw [← hitems]
  by_cases hdc : doCompression = 0
  · subst hdc
    obtain ⟨N, hgets⟩ : Gets 0 protocolVersion [fun _ => []] rst _ _ := gets_simple hcalls hb.residue
    refine ⟨(st, simpleSendToken ⟨-1, lit, []⟩), N, fun fuel hfuel => ⟨if_pos rfl, ?_⟩⟩
    simpa using hgets fuel hfuel
  · have hrel : TxRel doCompression protocolVersion (fun _ => []) st .start := hb.lastToken
    obtain ⟨r, ⟨N, hsend⟩, hgets⟩ := gets_calls (hz hdc) hdc hcalls hrel fun _ => rfl
    obtain ⟨N', hgets⟩ := hgets rst [] ⟨hb.state, hb.saved⟩
    refine ⟨r, max N N', fun fuel hfuel => ⟨?_, hgets fuel (by omega)⟩⟩
    have := hsend fuel (by omega)
    obtain ⟨r', hr', hrest⟩ := Option.bind_eq_some_iff.1 this
    obtain rfl := Option.some.inj hrest
    simpa using hr'

end Literal

/-! ## The two sides together -/

section Agree

variable {z : Deflate.Pair} {m : Md} {doCompression : ℕ} {protocolVersion : ℤ} {type : CsumType}
  {seed : ℕ} {acc : Accum m} {st : TxState z} {rst : RxState z} {a : Recv} {src : Bytes}

/-- With `whole_file` the receiver writes the data it gets. -/
theorem receiveData_whole (sumEnd : Bytes → Bytes) (hwhole : a.opts.wholeFile = true)
    (hfd : a.fd.isSome = true) {toks : List Token} (hdata : ∀ t ∈ toks, ∃ d, t = .data d)
    (senderSum : Bytes) : ∃ r, receiveData sumEnd a toks senderSum = some r ∧
      r.out = decode (a.basis.getD []) a.sum toks := by
  have hlen : a.sum.flength = 0 := by
    simp [Recv.sum, hwhole, SumHead.flength, SumHead.noBlocks]
  have hp : a.appendLen = some 0 := by
    rw [Recv.appendLen, hlen]
    split_ifs <;> first | rfl | omega
  have hsafe : ∀ out, a.StreamSafe 0 out toks := by
    induction toks with
    | nil => exact fun _ => trivial
    | cons t ts ih =>
      obtain ⟨d, rfl⟩ := hdata t (by simp)
      exact fun out => ih (fun t ht => hdata t (by simp [ht])) _
  -- a sparse file starts with no length
  have hsparse : a.sparse = true → a.preallocatedLen = 0 ∧ a.start = [] := by
    intro hs
    by_cases hin : a.opts.inplace = true
    · simp [Recv.preallocatedLen, Recv.start, Recv.truncates, hs, hin, hwhole, hfd]
    · have hin : a.opts.inplace = false := by simpa using hin
      exact ⟨by simp [Recv.preallocatedLen, hin], (Recv.start_fresh hp (by simp [hin])).1⟩
  have hgap : ∀ out, a.GapOk 0 out := by
    intro out hs
    exact Or.inr (Or.inr (Or.inl ((hsparse hs).1 ▸ Nat.zero_le _)))
  obtain ⟨r, hr⟩ := Option.isSome_iff_exists.1
    (receiveData_isSome sumEnd senderSum hfd hp (hsafe []) (hgap _))
  refine ⟨r, hr, ?_⟩
  obtain ⟨f, hw, hout, -⟩ := receiveData_ok hr hfd hp (hsafe [])
  have hin : a.opts.inplace = true ∨ (!a.opts.inplace) = true := by cases a.opts.inplace <;> simp
  rw [hout, hw.finish_eq hin]
  · simp [Zext.zresize]
  · intro hs
    rw [(hsparse hs).2]
    exact Written.noStale_of_nil hs

theorem matchSumsWhole_eq {fuel : ℕ} {r : TxState z × Bytes}
    (hneg : ¬ (doCompression ≠ 0 ∧ int32 src.length < 0))
    (hsend : sendToken doCompression protocolVersion fuel st
      ⟨-1, src.take (int32 src.length).toNat, []⟩ = some r) :
    matchSumsWhole doCompression protocolVersion fuel acc st src =
      some ((r.1, (sumEnd (sumPieces acc (src.take (int32 src.length).toNat))).1),
        r.2 ++ (sumEnd (sumPieces acc (src.take (int32 src.length).toNat))).2) := by
  rw [matchSumsWhole, if_neg hneg]
  simp only [hsend, Option.bind_eq_bind, Option.bind_some]

/-- The receiver takes the tokens and a digest of the length it expects. -/
theorem reads_recvWhole {sent sum : Bytes} {fuel : ℕ} {res : List (Option Token)}
    (hread : Reads (recvTokens doCompression protocolVersion fuel [fun _ => []] rst) sent res)
    (hlen : sum.length = type.len) :
    Reads (recvWhole doCompression protocolVersion fuel type rst) (sent ++ sum) (res.reduceOption, sum) :=
  hread.bind ((reads_getN_of_length hlen).bind_nil (Reads.pure _))

/-- It takes exactly what was sent only then. -/
theorem recvWhole_eq {sent sum sum' : Bytes} {fuel : ℕ} {res : List (Option Token)} {toks : List Token}
    (hread : Reads (recvTokens doCompression protocolVersion fuel [fun _ => []] rst) sent res)
    (h : Reads (recvWhole doCompression protocolVersion fuel type rst) (sent ++ sum) (toks, sum')) :
    toks = res.reduceOption ∧ sum' = sum ∧ sum.length = type.len := by
  have hrun : recvWhole doCompression protocolVersion fuel type rst (sent ++ sum ++ []) =
      (getN type.len sum).bind fun p => some ((res.reduceOption, p.1), p.2) := by
    change (recvTokens doCompression protocolVersion fuel [fun _ => []] rst (sent ++ sum ++ [])).bind _ = _
    rw [List.append_nil, hread sum]
    rfl
  rw [h []] at hrun
  by_cases hle : type.len ≤ sum.length
  · have hget : getN type.len sum = some (sum.take type.len, sum.drop type.len) := if_pos hle
    rw [hget] at hrun
    obtain ⟨hfst, hsnd⟩ := Prod.mk.inj (Option.some.inj hrun)
    obtain ⟨rfl, rfl⟩ := Prod.mk.inj hfst
    have hge : sum.length ≤ type.len := List.drop_eq_nil_iff.1 hsnd.symm
    exact ⟨rfl, List.take_of_length_le hge, le_antisymm hge hle⟩
  · have hget : getN type.len sum = none := if_neg hle
    rw [hget] at hrun
    cases hrun

section Whole

variable (hz : doCompression ≠ 0 → Deflate.Inverse z) (hm : m.Lawful) (hb : BetweenFiles st rst)
  (hwhole : a.opts.wholeFile = true) (hfd : a.fd.isSome = true)
include hz hb hwhole hfd

/-- What is sent of the source is what is received. -/
theorem sent_received (protocolVersion : ℤ) (type : CsumType) (seed : ℕ) (lit : Bytes) :
    ∃ r N, ∀ fuel, N ≤ fuel →
      sendToken doCompression protocolVersion fuel st ⟨-1, lit, []⟩ = some r ∧
      ∃ res, Reads (recvTokens doCompression protocolVersion fuel [fun _ => []] rst) r.2 res ∧
        ∀ sum, ∃ rd, receiveData (digest m type seed) a res.reduceOption sum = some rd ∧ rd.out = lit := by
  obtain ⟨r, N, hliteral⟩ := literal_roundTrip protocolVersion hz hb lit
  refine ⟨r, N, fun fuel hfuel => ?_⟩
  obtain ⟨hsend, res, hread, hitems⟩ := hliteral fuel hfuel
  have hno : ∀ i, Item.block i ∉ res.flatMap resultItems := by
    intro i hi
    rw [hitems] at hi
    rcases List.mem_append.1 hi with hi | hi
    · obtain ⟨b, -, hb⟩ := List.mem_map.1 hi
      cases hb
    · simp at hi
  obtain ⟨hdecode, hdata⟩ := decode_reduceOption hno (a.basis.getD []) a.sum
  refine ⟨hsend, res, hread, fun sum => ?_⟩
  obtain ⟨rd, hrd, hout⟩ := receiveData_whole (digest m type seed) hwhole hfd hdata sum
  refine ⟨rd, hrd, ?_⟩
  rw [hout, hdecode, hitems, List.filterMap_append, List.filterMap_map]
  simp [Function.comp_def, Item.byte?]

include hm

theorem wholeFileOk_of_agrees
    (h : WholeFileAgrees doCompression protocolVersion type seed acc st rst a src) :
    WholeFileOk type seed acc src := by
  obtain ⟨r, N, hsent⟩ := sent_received (m := m) hz hb hwhole hfd protocolVersion type seed
    (src.take (int32 src.length).toNat)
  obtain ⟨sent, N', h⟩ := h
  obtain ⟨⟨s', hsend⟩, toks, sum, hreads, ⟨rd, hrd, hout⟩, hsum⟩ := h (max N N') (by omega)
  obtain ⟨htokens, res, hread, hrecv⟩ := hsent (max N N') (by omega)
  have hneg : ¬ (doCompression ≠ 0 ∧ int32 src.length < 0) := by
    intro hneg
    rw [matchSumsWhole, if_pos hneg] at hsend
    cases hsend
  rw [matchSumsWhole_eq hneg htokens] at hsend
  obtain ⟨-, rfl⟩ := Prod.mk.inj (Option.some.inj hsend)
  obtain ⟨rfl, rfl, hlen⟩ := recvWhole_eq hread hreads
  obtain ⟨rd', hrd', hout'⟩ := hrecv (sumEnd (sumPieces acc (src.take (int32 src.length).toNat))).2
  rw [hrd] at hrd'
  obtain rfl := Option.some.inj hrd'
  rw [hout] at hout'
  -- the whole source was sent
  have hshort : src.length < 2 ^ 31 := by
    have hl := congrArg List.length hout'
    rw [List.length_take] at hl
    have := Int.bmod_lt (x := (src.length : ℤ)) (m := 2 ^ 32) (by norm_num)
    rw [int32] at hl
    omega
  rw [← hout', sumPieces_eq hm] at hlen hsum
  rw [sumEnd_length hm, sumUpdate_type, CsumType.len_eq_iff] at hlen
  exact ⟨hshort, hlen, fun _ => hsum⟩

theorem WholeFileOk.agrees (protocolVersion : ℤ) (h : WholeFileOk type seed acc src) :
    WholeFileAgrees doCompression protocolVersion type seed acc st rst a src := by
  obtain ⟨r, N, hsent⟩ := sent_received (m := m) hz hb hwhole hfd protocolVersion type seed src
  have htake : src.take (int32 src.length).toNat = src := by
    rw [int32_of_lt h.length, Int.toNat_natCast, List.take_length]
  have hlen : (sumEnd (sumPieces acc src)).2.length = type.len := by
    rw [sumPieces_eq hm, sumEnd_length hm, sumUpdate_type, CsumType.len_eq_iff]
    exact h.len
  have hsum : (sumEnd (sumPieces acc src)).2 = digest m type seed src := by
    rw [sumPieces_eq hm]
    by_cases htype : type = CsumType.none
    · have hacc := h.len.2 htype
      subst htype
      simp only [sumUpdate, digest, sumInit, sumEnd, hacc]
    · exact h.sameDigest htype
  refine ⟨r.2 ++ (sumEnd (sumPieces acc src)).2, N, fun fuel hfuel => ?_⟩
  obtain ⟨hsend, res, hread, hrecv⟩ := hsent fuel hfuel
  refine ⟨⟨(r.1, (sumEnd (sumPieces acc src)).1), ?_⟩, res.reduceOption, _, reads_recvWhole hread hlen,
    hrecv _, hsum⟩
  have hneg : ¬ (doCompression ≠ 0 ∧ int32 src.length < 0) := by
    rw [int32_of_lt h.length]
    omega
  rw [← htake] at hsend
  rw [matchSumsWhole_eq hneg hsend, htake]

end Whole

end Agree

/-- A digest of the first bytes. -/
def firstBytes (c : Bytes) : Bytes := (c ++ List.replicate 16 0).take 16

abbrev firstBytesMd : Md :=
  ⟨Bytes, [], (· ++ ·), fun c => (c, firstBytes c), [], (· ++ ·), fun c => (c, firstBytes c)⟩

theorem firstBytesMd_lawful : firstBytesMd.Lawful := by
  refine ⟨List.append_assoc, List.append_nil, fun c => ?_, fun c => ?_⟩ <;>
    simp [firstBytes]

/-- An accumulator that was never initialised. -/
def firstAccum : Accum firstBytesMd := ⟨.none, [], [], nil_lt⟩

theorem wholeFile_fresh (_ : false = false) :
    false = false ∧ ∀ b ∈ some ([] : Bytes), b = [] := ⟨rfl, by simp⟩

theorem wholeFile_live (h : false = true) : some ([] : Bytes) = none := by cases h

theorem wholeFile_append (h : (0 : ℤ) < 0) : false = true := absurd h (lt_irrefl 0)

theorem wholeFile_updating (h : false = true) : false = true := h

/-- A new file received whole. -/
def Recv.wholeFile : Recv where
  opts := ⟨false, 0, 0, true, false⟩
  basis := none
  live := false
  fd := some []
  totalSize := 0
  head := .null
  record := false
  sparsePastWrite := 0
  fresh := wholeFile_fresh
  live_eq := wholeFile_live
  append_inplace := wholeFile_append
  updating_inplace := wholeFile_updating

theorem betweenFiles_start (z : Deflate.Pair) : BetweenFiles (TxState.init z) (RxState.start z) :=
  ⟨rfl, rfl, rfl, rfl⟩

end CloudEdgeBackup
