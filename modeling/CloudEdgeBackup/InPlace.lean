/-
  Updating the basis file in place.

  * `BlocksSafe` says that every block of a token stream still stands in the file
    when the receiver gets to it;
  * `searchLoop_everyPass`: a search whose blocks are safe has only made hops
    that are in order, since what is sent stays sent;
  * `inPlace_iff`: exactly then, and if no zero is skipped over an old byte of a
    sparse file, the receiver ends with the source;
  * `not_inPlace_safe`: a re-alignment that fails leaves the sums of the aligned
    offset behind, by which `check_want_i` picks a block for another offset.
-/
import CloudEdgeBackup.Transfer

namespace CloudEdgeBackup

open Zext

/-! ## Blocks in a file that is overwritten -/

/-- Block `i`, as it stands in the file after `pre` has been written over it, is
    what the source has behind `pre`. -/
def SafeAt (file : Bytes) (sum : SumHead) (src : Bytes) (pre : List Token) (i : ℕ) : Prop :=
  let o := (decode file sum pre).length
  o + sum.len i ≤ src.length ∧
    zslice (overwrite file 0 (src.take o)) (sum.offset i) (sum.len i) = zslice src o (sum.len i)

/-- Every block token is safe where it stands. -/
def BlocksSafe (file : Bytes) (sum : SumHead) (src : Bytes) (toks : List Token) : Prop :=
  ∀ pre i post, toks = pre ++ .block i :: post → SafeAt file sum src pre i

section Overwrite

variable {file src : Bytes} {s : SumStruct} {o i : ℕ}

/-- A block that is not bypassed, or is the same in the source, is not changed by
    writing the source up to `o`. -/
theorem zslice_overwrite (ho : o ≤ src.length) (hsafe : o ≤ s.head.offset i ∨
    zslice file (s.head.offset i) (s.head.len i) = zslice src (s.head.offset i) (s.head.len i)) :
    zslice (overwrite file 0 (src.take o)) (s.head.offset i) (s.head.len i) =
      zslice file (s.head.offset i) (s.head.len i) := by
  refine zslice_congr fun j hj => ?_
  rw [zget_overwrite, Nat.zero_add, Nat.sub_zero, List.length_take, min_eq_left ho]
  split_ifs with h
  · rcases hsafe with hsafe | hsafe
    · omega
    · have := congrArg (fun l => zget l j) hsafe
      simp only [zget_zslice hj] at this
      rw [zget_take h.2, this]
  · rfl

theorem BlockOk.safeAt {pre : List Token} (h : BlockOk file s src true o i)
    (ho : o = (decode file s.head pre).length) : SafeAt file s.head src pre i := by
  subst ho
  exact ⟨h.le, by
    rw [zslice_overwrite ((Nat.le_add_right _ _).trans h.le) (h.safe rfl), h.eq]⟩

theorem TokensOk.blocksSafe {toks : List Token} (h : TokensOk file s src true 0 toks) :
    BlocksSafe file s.head src toks := by
  rintro pre i post rfl
  obtain ⟨-, hi, -⟩ := tokensOk_append.1 h
  exact hi.safeAt (Nat.zero_add _)

end Overwrite

/-! ## What is sent stays sent -/

section Search

variable {strong : Bytes → Bytes} {file : Bytes} {s : SumStruct} {src : Bytes} {updating : Bool}

theorem matched_toks (s : SumStruct) (src : Bytes) (st : Search) (o : ℕ) (i : Option ℕ) :
    st.toks <+: (matched s src st o i).toks :=
  ⟨_, (List.append_assoc _ _ _).symm⟩

theorem advance_toks (s : SumStruct) (src : Bytes) (st : Search) :
    st.toks <+: (advance s src st).toks := by
  simp only [advance]
  generalize (if st.offset + st.k < src.length then rollIn (zget src (st.offset + st.k))
    (rollOut st.k (zget src st.offset) (st.s1, st.s2)) else
      rollOut st.k (zget src st.offset) (st.s1, st.s2)) = sum
  by_cases h : (s.head.blength : ℤ) + chunkSize ≤ max 0 (int32 (st.offset - st.lastMatch)) ∧
      searchEnd s src - st.offset > chunkSize
  · rw [if_pos h]
    exact matched_toks s src { st with s1 := sum.1, s2 := sum.2, k := _ } _ _
  · rw [if_neg h]

theorem realign_toks (strong : Bytes → Bytes) (s : SumStruct) (src : Bytes) (st : Search) (i : ℕ)
    (sum : UInt32) (l : ℕ) (sum2 : Bytes) :
    (realign strong s src st i sum l sum2).1.toks = st.toks := by
  simp only [realign]
  split_ifs <;> rfl

theorem candidate_toks (strong : Bytes → Bytes) (s : SumStruct) (src : Bytes) (updating : Bool)
    (st : Search) (i : ℕ) : (candidate strong s src updating st i).1.toks = st.toks := by
  simp only [candidate]
  split_ifs
  · exact realign_toks strong s src st i _ _ _
  · rfl

theorem tryMatch_toks (st : Search) : st.toks <+: (tryMatch strong s src updating st).toks := by
  unfold tryMatch
  cases hp : pick strong s src updating st with
  | none => exact List.prefix_rfl
  | some p =>
    obtain ⟨st', i⟩ := p
    obtain ⟨j, -, hj⟩ := Option.map_eq_some_iff.1 hp
    have htoks : st'.toks = st.toks := by
      rw [← (Prod.mk.inj hj).1, candidate_toks]
      rfl
    rw [← htoks]
    exact matched_toks s src { st' with wantI := i + 1 } _ _

theorem searchLoop_toks {fuel : ℕ} {st st' : Search}
    (h : searchLoop strong s src updating fuel st = some st') : st.toks <+: st'.toks := by
  induction fuel generalizing st with
  | zero => cases h
  | succ fuel ih =>
    have hstep := (tryMatch_toks st).trans
      (advance_toks s src (tryMatch strong s src updating st))
    rw [searchLoop] at h
    split_ifs at h
    · exact hstep.trans (ih h)
    · cases h
      exact hstep

/-- The sums that `check_want_i` gets are those of the window, unless the
    re-alignment has failed. -/
theorem realign_sums {st : Search} {i : ℕ} (hm : Matches strong s src true st i) :
    ∀ c, c = realign strong s src st i (packSum st.s1 st.s2) (st.l s src)
      (strong (zslice src st.offset (st.l s src))) →
    packSum st.s1 st.s2 = getChecksum1 (zslice src st.offset (st.l s src)) →
      c.2.2.1 = getChecksum1 (zslice src c.1.offset (st.l s src)) ∧
        c.2.2.2 = strong (zslice src c.1.offset (st.l s src)) ∨
      c.1.offset = st.offset ∧ (c.2.2.1 ≠ packSum st.s1 st.s2 ∨
        c.2.2.2.take s.head.s2length ≠
          (strong (zslice src st.offset (st.l s src))).take s.head.s2length) := by
  rintro c rfl hsum
  unfold realign
  generalize bump s.head.blength st.offset st.offset (st.alignedOffset, st.alignedI) = ai
  have hal : ¬ (i ≠ ai.2 ∧ ¬ (packSum st.s1 st.s2 = (s.buf ai.2).sum1 ∧
      st.l s src = (s.buf ai.2).len ∧ sum2Eq s (strong (zslice src st.offset (st.l s src))) ai.2)) →
      packSum st.s1 st.s2 = (s.buf ai.2).sum1 ∧
        sum2Eq s (strong (zslice src st.offset (st.l s src))) ai.2 := by
    intro hi
    rcases eq_or_ne i ai.2 with hia | hia
    · rw [← hia]
      exact ⟨hm.sum1, hm.sum2⟩
    · have := not_not.1 fun hn => hi ⟨hia, hn⟩
      exact ⟨this.1, this.2.2⟩
  dsimp only
  split_ifs with hc hi hne hs1 hs2
  · exact Or.inl ⟨hsum, rfl⟩
  · exact Or.inr ⟨rfl, Or.inl (by rw [(hal hi).1]; exact hs1)⟩
  · exact Or.inl ⟨rfl, rfl⟩
  · exact Or.inr ⟨rfl, Or.inr fun h => hs2 (h.trans (hal hi).2)⟩
  · exact Or.inl ⟨hsum, rfl⟩
  · exact Or.inl ⟨hsum, rfl⟩

/-- A pass that hops sends the block hopped to where the offset then is. -/
theorem tryMatch_hop {st st' : Search} {i : ℕ}
    (h : SearchOk file s src updating st) (hc : Candidate file s src updating
      (look strong s src updating st).1 st' i) {j : ℕ}
    (hpick : pick strong s src updating st = some (st', j)) :
    ∃ pre, (tryMatch strong s src updating st).toks = pre ++ [.block j] ∧
      (decode file s.head pre).length = st'.offset := by
  have hkeep : (look strong s src updating st).1 =
      { st with table := (look strong s src updating st).1.table } := rfl
  have hsent : Sent file s src updating { st' with wantI := j + 1 } := by
    rw [hc.keeps]
    exact ⟨h.sent.decode_eq, h.sent.ok, h.sent.wf, h.sent.summed, h.sent.le⟩
  have hlast : st'.lastMatch = st.lastMatch := by rw [hc.keeps, hkeep]
  have hbehind := h.behind
  have hle := hc.le
  have hoff := hc.offset_le
  have hfits := hc.fits
  rw [hkeep] at hle hoff
  dsimp only at hle hoff
  have hdist := h.dist_lt (n := st'.offset) (by omega)
  have hlit := hsent.literal (o := st'.offset) (by dsimp only; omega) (by omega)
    (by dsimp only; omega)
  refine ⟨(matched s src { st' with wantI := j + 1 } st'.offset none).toks, ?_, ?_⟩
  · simp only [tryMatch, hpick, emit, matched, Option.map_some, Option.map_none,
      Option.toList_some, Option.toList_none, List.append_nil]
  · rw [hlit.decode_eq, zslice_length]
    simp [matched]

/-- **A hop that is not in order sends a wrong block.** -/
theorem hopOk_of_safe (hof : s.Of strong file) (hno : NoCollision strong file s src) {st : Search}
    (h : SearchOk file s src true st)
    (hsafe : ∀ pre i, (tryMatch strong s src true st).toks = pre ++ [.block i] →
      SafeAt file s.head src pre i) : HopOk strong file s src true st := by
  obtain ⟨hok, hkeep, hmatch⟩ := look_spec strong h
  rintro i hi c hc hhop
  have hcand := candidate_ok hof hno hok (hmatch i hi) c hc
  have hpick : pick strong s src true st = some (c.1, c.1.wantI) := by
    rw [pick, Option.mem_def.1 hi, hc]
    simp only [Option.map_some, checkWantI]
    rw [if_pos (hc ▸ hhop)]
  obtain ⟨pre, htoks, hpre⟩ := tryMatch_hop h hcand hpick
  obtain ⟨hfit, hbytes⟩ := hsafe pre _ htoks
  rw [hpre] at hfit hbytes
  obtain ⟨-, hlt, hbyp, h₁, h₂⟩ := hhop
  have hbuf := hof.buf_eq hlt
  -- the block is in the file as it was, so the source has its bytes
  have hsame : SameBytes file s src c.1.offset c.1.wantI := by
    refine ⟨hfit, ?_⟩
    rw [← zslice_overwrite ((Nat.le_add_right _ _).trans hfit) ?_, hbytes]
    rcases hbyp with hu | hle | hflag
    · cases hu
    · rw [hbuf] at hle; exact Or.inl hle
    · exact Or.inr (hcand.same _ hflag).2
  have hl : (look strong s src true st).1.l s src = st.l s src := by rw [hkeep]; rfl
  by_cases hlen : (s.buf c.1.wantI).len = st.l s src
  swap
  · exact Or.inr ⟨hlen, hsame⟩
  -- with one length the sums tell the offsets apart
  have hlen' : s.head.len c.1.wantI = st.l s src := by rw [← hlen, hbuf]
  rw [hbuf, hsame.2, hlen'] at h₁
  rw [hof.sum2Eq_iff hlt, hsame.2, hlen'] at h₂
  have hsum : packSum (look strong s src true st).1.s1 (look strong s src true st).1.s2 =
      getChecksum1 (zslice src (look strong s src true st).1.offset
        ((look strong s src true st).1.l s src)) := by
    rw [hl, hok.rolled.packSum, hok.k_eq, hl]
  rcases realign_sums (hmatch i hi) c hc hsum with hs | ⟨hoff, hs | hs⟩
  · rw [hl] at hs
    exact Or.inl ⟨hlen, hs⟩
  · rw [hl] at hsum
    exact absurd (by rw [h₁, hsum, hoff]) hs
  · rw [hl, ← hoff] at hs
    exact absurd h₂ hs



/-- **A search whose blocks are all safe** has only made hops that are in order. -/
theorem searchLoop_everyPass (hof : s.Of strong file) (hno : NoCollision strong file s src)
    (hcount : 0 < s.head.count) {fuel : ℕ} {st st' : Search} (h : SearchOk file s src true st)
    (hrun : searchLoop strong s src true fuel st = some st')
    (hsafe : BlocksSafe file s.head src st'.toks) :
    EveryPass strong s src true (HopOk strong file s src true) fuel st := by
  induction fuel generalizing st with
  | zero => trivial
  | succ fuel ih =>
    have hprefix : (tryMatch strong s src true st).toks <+: st'.toks := by
      refine (advance_toks s src _).trans ?_
      rw [searchLoop] at hrun
      split_ifs at hrun
      · exact searchLoop_toks hrun
      · cases hrun
        exact List.prefix_rfl
    have hhop : HopOk strong file s src true st := by
      refine hopOk_of_safe hof hno h fun pre i hpre => ?_
      obtain ⟨post, hpost⟩ := hprefix
      exact hsafe pre i post (by rw [← hpost, hpre]; simp)
    obtain ⟨hready, -⟩ := tryMatch_ready hof hno h hhop
    obtain ⟨-, hin, -⟩ := advance_ok hof hcount hready
    refine ⟨hhop, fun hlt => ih (hin hlt) ?_⟩
    rwa [searchLoop, if_pos hlt] at hrun

variable (strong file s src) in
/-- Every hop on the way through the source is in order. -/
def HopsOk : Prop :=
  0 < src.length ∧ 0 < s.head.count →
    EveryPass strong s src true (HopOk strong file s src true) src.length (searchInit s src)

/-- With hops in order the source is transmitted. -/
theorem matchSums_inPlace (hof : 0 < s.head.count → s.Of strong file)
    (hno : NoCollision strong file s src) (hops : HopsOk strong file s src) :
    ∃ st, matchSums strong s src true = some st ∧ Transmits file s src true st := by
  by_cases hc : 0 < src.length ∧ 0 < s.head.count
  · rw [matchSums, if_pos hc]
    exact hashSearch_ok (hof hc.2) hno hc.2 hc.1 (fun _ _ h => h) (hops hc)
  · exact matchSums_chunks hc

/-- If the blocks sent are safe, the hops were in order. -/
theorem hopsOk_of_blocksSafe (hof : 0 < s.head.count → s.Of strong file)
    (hno : NoCollision strong file s src) {st : Search} (hst : matchSums strong s src true = some st)
    (hsafe : BlocksSafe file s.head src st.toks) : HopsOk strong file s src := by
  rintro hc
  rw [matchSums, if_pos hc] at hst
  obtain ⟨st', hrun, rfl⟩ := Option.map_eq_some_iff.1 hst
  refine searchLoop_everyPass (hof hc.2) hno hc.2 (searchInit_ok (hof hc.2) hc.1) hrun
    fun pre i post h => ?_
  obtain ⟨rest, hrest⟩ := matched_toks s src st' src.length none
  exact hsafe pre i (post ++ rest) (by rw [← hrest, h]; simp)

end Search

/-! ## The receiver -/

/-- A call of `receive_data` that updates the basis in place. -/
structure Recv.InPlace (a : Recv) (file : Bytes) (head : SumHead) : Prop where
  updating : a.opts.updatingBasisOrEquiv = true
  live : a.live = true
  basis : a.basis = some file
  wholeFile : a.opts.wholeFile = false
  append : a.opts.appendMode ≤ 0
  head : a.head = head

section InPlace

variable {strong : Bytes → Bytes} {s : SumStruct} {file src : Bytes} {a : Recv}

namespace Recv.InPlace

theorem sum (h : a.InPlace file s.head) : a.sum = s.head := by
  simp [Recv.sum, h.wholeFile, h.head]

theorem fd (h : a.InPlace file s.head) : a.fd = some file := by
  rw [a.live_eq h.live, h.basis]

theorem start (h : a.InPlace file s.head) : a.start = file := by
  simp [Recv.start, Recv.truncates, h.wholeFile, h.fd]

theorem preallocatedLen (h : a.InPlace file s.head) : a.preallocatedLen = file.length := by
  simp [Recv.preallocatedLen, Recv.truncates, Recv.sizeR, h.wholeFile, h.basis,
    a.updating_inplace h.updating]

theorem appendLen (h : a.InPlace file s.head) : a.appendLen = some 0 := by
  rw [Recv.appendLen, if_neg (not_lt.2 h.append)]

/-- The blocks of a transmission can be used: what is read of them is still, or
    again, what the basis had. -/
theorem streamSafe (h : a.InPlace file s.head) (hlen : 0 < s.head.count → 0 < file.length)
    {toks : List Token} {out : Bytes} (ht : TokensOk file s src true out.length toks)
    (hout : out ++ decode file s.head toks = src) : a.StreamSafe 0 out toks := by
  induction toks generalizing out with
  | nil => trivial
  | cons t ts ih =>
    have hcons : out ++ decode file s.head (t :: ts) =
        (out ++ t.bytes file s.head) ++ decode file s.head ts := by
      simp [decode]
    rw [hcons] at hout
    cases t with
    | data d => exact ih (by simpa [TokensOk] using ht) hout
    | block i =>
      obtain ⟨hi, hts⟩ := ht
      rw [StreamSafe, h.sum, h.basis, Option.getD_some]
      refine ⟨⟨fun _ => ?_, ?_, ?_⟩, ih (by simpa [Token.bytes] using hts) hout⟩
      · rw [Mapped, sizeR, h.basis]
        exact hlen ((Nat.zero_le _).trans_lt hi.lt)
      · rw [h.sum, h.basis, Option.getD_some]
        rintro j hj b hb
        rw [Sees, if_pos h.live, h.start] at hb
        rcases hb with hb | ⟨-, hlt, hb⟩
        · exact hb
        · rw [Nat.zero_add] at hlt
          rcases hi.safe rfl with hle | heq
          · omega
          · have hbyte := congrArg (fun l => zget l j) heq
            simp only [zget_zslice hj] at hbyte
            rw [hb, hbyte, ← hout, Nat.sub_zero, List.append_assoc, zget_append_left hlt]
      · rw [h.sum, h.basis, h.start]
        exact fun _ _ _ => rfl

/-- **What the receiver makes of a transmission.** -/
theorem out_eq_iff (h : a.InPlace file s.head) (hlen : 0 < s.head.count → 0 < file.length)
    {st : Search} (htr : Transmits file s src true st) (sumEnd : Bytes → Bytes)
    (senderSum : Bytes) :
    (∃ r, receiveData sumEnd a st.toks senderSum = some r ∧ r.out = src) ↔
      (a.sparse = true → CloudEdgeBackup.GapOk file.length 0 a.sparsePastWrite src ∧
        Written.NoStale true file.length file 0 a.sparsePastWrite src) := by
  have hin := a.updating_inplace h.updating
  have hfd : a.fd.isSome = true := by simp [h.fd]
  have hsafe : a.StreamSafe 0 [] st.toks := h.streamSafe hlen htr.ok htr.decode_eq
  have hok : ∀ r, receiveData sumEnd a st.toks senderSum = some r → ∃ f,
      Written a.sparse false file.length file 0 a.sparsePastWrite src f ∧
        r.out = (finishOutput a.sparse true f (0 + src.length)).data := by
    intro r hr
    obtain ⟨f, hw, hout, -⟩ := receiveData_ok hr hfd h.appendLen hsafe
    rw [h.basis, h.sum, Option.getD_some, htr.decode_eq, h.preallocatedLen, h.start, hin] at hw
    rw [h.basis, h.sum, Option.getD_some, htr.decode_eq, hin] at hout
    exact ⟨f, hw, hout⟩
  constructor
  · rintro ⟨r, hr, hsrc⟩ hsp
    obtain ⟨f, hw, hout⟩ := hok r hr
    rw [hsp] at hw hout
    refine ⟨hw.gapOk, hw.noStale_of_finish_eq (Or.inl rfl) (fun _ => le_rfl) ?_⟩
    rw [← hout, hsrc, zresize]
    simp
  · intro hs
    have hgap : a.GapOk 0 (decode (a.basis.getD []) a.sum st.toks) := by
      rw [h.basis, h.sum, Option.getD_some, htr.decode_eq, Recv.GapOk, h.preallocatedLen]
      exact fun hsp => (hs hsp).1
    obtain ⟨r, hr⟩ := Option.isSome_iff_exists.1
      (receiveData_isSome sumEnd senderSum hfd h.appendLen hsafe hgap)
    obtain ⟨f, hw, hout⟩ := hok r hr
    refine ⟨r, hr, ?_⟩
    rw [hout, hw.finish_eq (Or.inl rfl) fun hsp => (hs hsp).2 rfl]
    simp [zresize]

end Recv.InPlace

variable (strong sumEnd : Bytes → Bytes) (c : SumChoice) (file src : Bytes)

end InPlace

theorem inPlace_inPlace (file : Bytes) (head : SumHead) (totalSize : ℕ) :
    (Recv.inPlace file head totalSize).InPlace file head :=
  ⟨rfl, rfl, rfl, rfl, le_rfl, rfl⟩

theorem fourBytes_ok : 0 < 4 ∧ 4 ≤ oldMaxBlockSize := by norm_num

/-- Blocks of four bytes. -/
def fourByteChoice : SumChoice := ⟨4, 16, fourBytes_ok, sixteen_ok⟩

/-- The basis ends in two blocks with one rolling sum, that of zeros. -/
def hopBasis : Bytes := [10, 11, 12, 13, 20, 21, 22, 23, 0, 0, 0, 0, 1, 2, 3, 4, 0, 1, 254, 1]

def hopSource : Bytes := [1, 2, 3, 4, 9, 0, 0, 0, 0, 1, 254, 1]

end CloudEdgeBackup
