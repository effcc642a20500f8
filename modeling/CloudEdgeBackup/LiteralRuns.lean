/-
  The calls of `matched` on the delta path (`match.c`), with any sums that
  `receive_sums` accepts.

  * `MatchedCall` is a call with `last_match` as it is then; `searchCalls` are
    those of `hash_search`, `chunkCalls` those of the loop without sums,
    `matchSumsCalls` all calls of `match_sums`;
  * `Close` and `Begins` bound how far `last_match` is behind, around `null_hash`
    and in front of a pass;
  * `callsFit_iff`: the literal run of every call fits an `int32`, unless
    appending to more than the source has.
-/
import CloudEdgeBackup.ChecksumExchange
import CloudEdgeBackup.SearchPasses

namespace CloudEdgeBackup

open Zext Codec

/-! ## The calls -/

/-- A call of `matched`: its offset, `last_match`, and the length of the block. -/
structure MatchedCall where
  offset : ℤ
  lastMatch : ℤ
  len : ℤ
  deriving DecidableEq, Repr

/-- `n` is not negative, and with the block it fits an `int32`. -/
def MatchedCall.Fits (c : MatchedCall) : Prop :=
  0 ≤ c.offset - c.lastMatch ∧ c.offset - c.lastMatch + c.len ≤ 2 ^ 31 - 1

instance (c : MatchedCall) : Decidable c.Fits := by unfold MatchedCall.Fits; infer_instance

section Definitions

variable (strong : Bytes → Bytes) (s : SumStruct) (src : Bytes) (updating : Bool)

/-- The call for a block that matches at the offset. -/
def blockCalls (st : Search) : List MatchedCall :=
  if Stalls s updating (look strong s src updating st).1 then []
  else (pick strong s src updating st).toList.map fun p =>
    ⟨p.1.offset, p.1.lastMatch, (s.buf p.2).len⟩

/-- The call that sends literal data early. -/
def earlyCalls (st : Search) : List MatchedCall :=
  if s.head.blength + chunkSize ≤ st.backup ∧ searchEnd s src - st.offset > chunkSize then
    [⟨st.offset - s.head.blength, st.lastMatch, 0⟩]
  else []

/-- The calls of the loop from a pass on, and the one behind the loop. -/
def searchCalls : ℕ → Search → List MatchedCall
  | 0, _ => []
  | fuel + 1, st =>
    blockCalls strong s src updating st ++
      match pass strong s src updating st with
      | none => []
      | some st' => earlyCalls s src (tryMatch strong s src updating st) ++
        if (st'.offset : ℤ) < searchEnd s src then searchCalls fuel st'
        else [⟨src.length, st'.lastMatch, 0⟩]

end Definitions

/-- Without sums the data behind `last_match` goes out in chunks. -/
def chunkCalls (len lastMatch : ℤ) : List MatchedCall :=
  if lastMatch + chunkSize < len then
    ⟨lastMatch + chunkSize, lastMatch, 0⟩ :: chunkCalls len (lastMatch + chunkSize)
  else [⟨len, lastMatch, 0⟩]
termination_by (len - lastMatch).toNat
decreasing_by
  have : (0 : ℤ) < chunkSize := by norm_num
  omega

/-- The calls of `match_sums` within `fuel` passes of the search.  An empty source
    is not mapped, so that there is nothing to verify the receiver's part with. -/
def matchSumsCalls (strong : Bytes → Bytes) (o : SumOpts) (r : ReceivedSums) (src : Bytes)
    (updating : Bool) (fuel : ℕ) : List MatchedCall :=
  if 0 < o.appendMode then
    let flength := r.flength.getD 0
    if o.appendMode = 2 ∧ src = [] ∧ 0 < flength then [] else chunkCalls src.length flength
  else if 0 < src.length ∧ 0 < r.head.count then
    searchCalls strong ⟨r.head, r.sums⟩ src updating fuel (searchInit ⟨r.head, r.sums⟩ src)
  else chunkCalls src.length 0

/-- Every call of `match_sums` fits. -/
def CallsFit (strong : Bytes → Bytes) (o : SumOpts) (r : ReceivedSums) (src : Bytes)
    (updating : Bool) : Prop :=
  ∀ fuel, ∀ c ∈ matchSumsCalls strong o r src updating fuel, c.Fits

/-! ## The sums that arrive -/

theorem readSums_len {head : SumHead} {n i offset : ℕ} {wire rest : Bytes} {sums : List SumBuf}
    {flength : ℕ} (h : readSums head n i offset wire = some ((sums, flength), rest)) :
    ∀ b ∈ sums, b.len ≤ head.blength := by
  induction n generalizing i offset wire sums flength with
  | zero =>
    cases h
    simp
  | succ n ih =>
    obtain ⟨sum1, _, -, h⟩ := bind_eq_some_iff.1 h
    obtain ⟨sum2, _, -, h⟩ := bind_eq_some_iff.1 h
    obtain ⟨r, _, hr, h⟩ := bind_eq_some_iff.1 h
    cases h
    intro b hb
    rcases List.mem_cons.1 hb with rfl | hb
    · exact head.len_le i
    · exact ih hr b hb

/-- What `receive_sums` accepts. -/
theorem receiveSumsFrom_spec {o : SumOpts} {wire rest : Bytes} {r : ReceivedSums}
    (h : receiveSumsFrom o wire = some (r, rest)) :
    (∀ i, ((⟨r.head, r.sums⟩ : SumStruct).buf i).len ≤ r.head.blength) ∧
      (0 < o.appendMode → r.flength = some r.head.flength) := by
  obtain ⟨head, wire', -, h⟩ := bind_eq_some_iff.1 h
  split_ifs at h with happend hcount
  · cases h
    exact ⟨fun i => Nat.zero_le _, fun _ => rfl⟩
  · cases h
    exact ⟨fun i => Nat.zero_le _, fun hpos => absurd hpos happend⟩
  · obtain ⟨⟨sums, flength⟩, _, hr, h⟩ := bind_eq_some_iff.1 h
    cases h
    refine ⟨fun i => ?_, fun hpos => absurd hpos happend⟩
    simp only [SumStruct.buf]
    rcases Nat.lt_or_ge i sums.length with hi | hi
    · rw [List.getD_eq_getElem _ _ hi]
      exact readSums_len hr _ (List.getElem_mem hi)
    · rw [List.getD_eq_default _ _ hi]
      exact Nat.zero_le _

/-! ## Chunk by chunk -/

theorem chunkCalls_fit {len lastMatch : ℤ} (h : lastMatch ≤ len) :
    ∀ c ∈ chunkCalls len lastMatch, c.Fits := by
  have hch : chunkSize = 2 ^ 15 := by norm_num
  induction lastMatch using chunkCalls.induct len with
  | case1 lastMatch hlt ih =>
    rw [chunkCalls, if_pos hlt]
    intro c hc
    rcases List.mem_cons.1 hc with rfl | hc
    · simp only [MatchedCall.Fits, hch]
      omega
    · exact ih hlt.le c hc
  | case2 lastMatch hge =>
    rw [chunkCalls, if_neg hge]
    intro c hc
    obtain rfl := List.mem_singleton.1 hc
    rw [hch] at hge
    simp only [MatchedCall.Fits]
    omega

/-- Behind the end of the source there is one call, with a negative length. -/
theorem not_chunkCalls_fit {len lastMatch : ℤ} (h : len < lastMatch) :
    ¬ ∀ c ∈ chunkCalls len lastMatch, c.Fits := by
  have hch : (0 : ℤ) < chunkSize := by norm_num
  rw [chunkCalls, if_neg (by omega)]
  intro hfit
  have := (hfit _ (List.mem_singleton_self _)).1
  dsimp only at this
  omega

/-! ## The search -/

section Search

variable {strong : Bytes → Bytes} {s : SumStruct} {src : Bytes} {updating : Bool}

/-- Around `null_hash`: `last_match` is not far behind, and the aligned offset not
    far ahead. -/
structure Close (s : SumStruct) (src : Bytes) (st : Search) : Prop where
  last_le : st.lastMatch ≤ st.offset + 1
  within : st.lastMatch ≤ src.length
  near : (st.offset : ℤ) - st.lastMatch ≤
    s.head.blength + chunkSize + max 0 (st.offset + chunkSize - searchEnd s src)
  inside : (st.offset : ℤ) < searchEnd s src ∨ st.offset ≤ st.lastMatch
  aligned_le : st.alignedOffset ≤ st.offset + 1 + s.head.blength

/-- In front of a pass. -/
structure Begins (s : SumStruct) (src : Bytes) (st : Search) : Prop extends Close s src st where
  behind : st.lastMatch ≤ st.offset
  aligned : st.alignedOffset ≤ st.offset + s.head.blength

theorem Close.dist {st : Search} (h : Close s src st) :
    (st.offset : ℤ) - st.lastMatch ≤ s.head.blength + 2 * chunkSize := by
  have hnear := h.near
  have hb : (0 : ℤ) ≤ s.head.blength := Nat.cast_nonneg _
  have hch : (0 : ℤ) ≤ chunkSize := by norm_num
  rcases h.inside with h₂ | h₂
  · have : max 0 ((st.offset : ℤ) + chunkSize - searchEnd s src) ≤ chunkSize := by
      refine max_le hch ?_
      linarith
    linarith
  · have : (st.offset : ℤ) ≤ st.lastMatch := by exact_mod_cast h₂
    linarith

theorem searchEnd_gt (hlen : ∀ i, (s.buf i).len ≤ s.head.blength) :
    (src.length : ℤ) - s.head.blength < searchEnd s src := by
  have := hlen (s.head.count - 1)
  unfold searchEnd
  omega

theorem bump_near (blength offset : ℕ) : ∀ (n : ℕ) (p : ℕ × ℕ),
    (bump blength offset n p).1 ≤ max p.1 (offset + blength) ∧
      (offset ≤ p.1 + n * blength → offset ≤ (bump blength offset n p).1)
  | 0, p => ⟨le_max_left _ _, fun h => by simpa [bump] using h⟩
  | n + 1, p => by
    rw [bump]
    split_ifs with hlt
    · obtain ⟨h₁, h₂⟩ := bump_near blength offset n (p.1 + blength, p.2 + 1)
      refine ⟨h₁.trans ?_, fun h => h₂ ?_⟩
      · dsimp only
        omega
      · dsimp only
        rw [Nat.succ_mul] at h
        omega
    · exact ⟨le_max_left _ _, fun _ => not_lt.1 hlt⟩

/-- Re-alignment moves the offset forward by a block at most. -/
theorem realign_near (st : Search) (halign : st.alignedOffset ≤ st.offset + s.head.blength)
    (hstall : 0 < s.head.blength ∨ st.offset ≤ st.alignedOffset) (i : ℕ) (sum : UInt32) (l : ℕ)
    (sum2 : Bytes) : ∀ c, c = realign strong s src st i sum l sum2 →
      c.1.lastMatch = st.lastMatch ∧ st.offset ≤ c.1.offset ∧
        c.1.offset ≤ st.offset + s.head.blength ∧
        c.1.alignedOffset ≤ c.1.offset + s.head.blength := by
  rintro c rfl
  obtain ⟨h₁, h₂⟩ := bump_near s.head.blength st.offset st.offset (st.alignedOffset, st.alignedI)
  have hge := h₂ (by
    dsimp only
    rcases hstall with hpos | hle
    · have := Nat.le_mul_of_pos_right st.offset hpos
      omega
    · omega)
  unfold realign
  generalize bump s.head.blength st.offset st.offset (st.alignedOffset, st.alignedI) = a at h₁ hge
  have hle : a.1 ≤ st.offset + s.head.blength := by
    dsimp only at h₁
    omega
  dsimp only
  split_ifs
  all_goals refine ⟨rfl, ?_, ?_, ?_⟩
  all_goals dsimp only
  all_goals omega

/-- The block picked is at the offset, or ahead by a block at most. -/
theorem pick_near {st : Search} (h : Begins s src st)
    (hstall : ¬ Stalls s updating (look strong s src updating st).1) :
    ∀ p ∈ pick strong s src updating st,
      p.1.lastMatch = st.lastMatch ∧ st.offset ≤ p.1.offset ∧
        p.1.offset ≤ st.offset + s.head.blength ∧
        p.1.alignedOffset ≤ p.1.offset + s.head.blength := by
  intro p hp
  obtain ⟨i, -, rfl⟩ := Option.map_eq_some_iff.1 hp
  have halign := h.aligned
  unfold candidate
  dsimp only
  split_ifs with hup
  · have hmoves : 0 < s.head.blength ∨ st.offset ≤ st.alignedOffset := by
      rcases Nat.eq_zero_or_pos s.head.blength with h0 | hpos
      · exact Or.inr (not_lt.1 fun hlt => hstall ⟨hup, h0, hlt⟩)
      · exact Or.inl hpos
    exact realign_near (look strong s src updating st).1 halign hmoves _ _ _ _ _ rfl
  · exact ⟨rfl, le_rfl, Nat.le_add_right _ _, halign⟩

theorem blockCalls_fit (hlen : ∀ i, (s.buf i).len ≤ s.head.blength) {st : Search}
    (h : Begins s src st) : ∀ c ∈ blockCalls strong s src updating st, c.Fits := by
  intro c hc
  unfold blockCalls at hc
  split_ifs at hc with hstall
  · simp at hc
  obtain ⟨p, hp, rfl⟩ := List.mem_map.1 hc
  obtain ⟨hlast, hge, hle, -⟩ := pick_near h hstall p (Option.mem_toList.1 hp)
  have hdist := h.dist
  have hbehind := h.behind
  have hblock := hlen p.2
  have hbl := s.head.blength_le
  have hbl' : oldMaxBlockSize = 2 ^ 29 := rfl
  have hch : (chunkSize : ℤ) = 2 ^ 15 := by norm_num
  simp only [MatchedCall.Fits]
  omega

/-- Behind a block there is a byte to trim off only within the source. -/
theorem Trims.lt {st : Search} (h : Trims src st)
    (hk : st.k = min s.head.blength (src.length - st.offset))
    (hlast : st.lastMatch = st.offset + 1) : st.offset < src.length := by
  by_contra hge
  have hzero : st.k = 0 := by omega
  have hneg : (st.offset : ℤ) - st.lastMatch = -1 := by omega
  unfold Trims Search.backup at h
  rw [hneg, if_neg (by omega), hzero] at h
  exact absurd h (by decide)

/-- **A look keeps `last_match` close**, if the process survives it. -/
theorem Begins.tryMatch {st : Search} (h : Begins s src st)
    (hs : ComesOut strong s src updating st) :
    Close s src (tryMatch strong s src updating st) := by
  obtain ⟨hstall, hmaps, htrim⟩ := hs
  unfold CloudEdgeBackup.tryMatch at htrim ⊢
  cases hp : pick strong s src updating st with
  | none => exact ⟨h.last_le, h.within, h.near, h.inside, h.aligned_le⟩
  | some p =>
    obtain ⟨st', i⟩ := p
    have hlook : (look strong s src updating st).2.isSome = true := by
      rw [← Option.isSome_map]
      exact Option.isSome_iff_exists.2 ⟨_, hp⟩
    obtain ⟨hlast, hge, hle, halign⟩ := pick_near h (hstall hlook) _ hp
    obtain ⟨h₁, h₂⟩ := hmaps _ hp
    rw [hp] at htrim
    have hwithin := htrim.lt rfl (by simp only [emit, matched, Option.elim_some] at h₁ ⊢; omega)
    simp only [emit, matched] at hwithin hlast hge halign h₁ h₂ ⊢
    have hch : (0 : ℤ) ≤ chunkSize := by norm_num
    refine ⟨?_, ?_, ?_, Or.inr ?_, ?_⟩
    all_goals dsimp only [Option.elim_some]
    all_goals omega

/-- **The step to the next offset**: its call fits, and `last_match` stays close. -/
theorem Close.advance (hlen : ∀ i, (s.buf i).len ≤ s.head.blength) {st : Search}
    (h : Close s src st) :
    (∀ c ∈ earlyCalls s src st, c.Fits) ∧
      (((advance s src st).offset : ℤ) < searchEnd s src → Begins s src (advance s src st)) ∧
      (searchEnd s src ≤ (advance s src st).offset →
        (⟨src.length, (advance s src st).lastMatch, 0⟩ : MatchedCall).Fits) := by
  have hdist := h.dist
  have hend : searchEnd s src ≤ src.length + 1 := searchEnd_le
  have hend' : (src.length : ℤ) - s.head.blength < searchEnd s src := searchEnd_gt hlen
  have hbl := s.head.blength_le
  have hbl' : oldMaxBlockSize = 2 ^ 29 := rfl
  have hch : chunkSize = 2 ^ 15 := by norm_num
  have hlast := h.last_le
  have hwithin := h.within
  have halign := h.aligned_le
  have hin := h.inside
  have hsmall : st.offset - st.lastMatch < 2 ^ 31 := by
    rw [hch] at hdist
    omega
  have hback : st.backup = ((st.offset - st.lastMatch : ℕ) : ℤ) := backup_eq hlast hsmall
  obtain ⟨k₁, k₂, k₃⟩ := advance_near hlast hsmall h.near
  have hoff : (CloudEdgeBackup.advance s src st).offset = st.offset + 1 := rfl
  have hfix : (CloudEdgeBackup.advance s src st).alignedOffset = st.alignedOffset := by
    unfold CloudEdgeBackup.advance
    dsimp only
    split_ifs <;> rfl
  have hflush : (CloudEdgeBackup.advance s src st).lastMatch ≤ max st.lastMatch st.offset := by
    unfold CloudEdgeBackup.advance
    dsimp only
    split_ifs
    all_goals simp only [matched, Option.elim_none]
    all_goals omega
  refine ⟨fun c hc => ?_, fun hlt => ?_, fun hge => ?_⟩
  · unfold earlyCalls at hc
    split_ifs at hc with hearly
    · obtain rfl := List.mem_singleton.1 hc
      rw [hback, hch] at hearly
      rw [hch] at hdist
      simp only [MatchedCall.Fits]
      omega
    · simp at hc
  · rw [hoff] at hlt
    refine ⟨⟨?_, ?_, ?_, Or.inl ?_, ?_⟩, ?_, ?_⟩
    · omega
    · omega
    · rw [hoff]
      push_cast
      omega
    · rw [hoff]
      exact hlt
    · omega
    · omega
    · omega
  · rw [hoff] at hge
    rw [hch] at hdist
    simp only [MatchedCall.Fits]
    omega

/-- **Every call of the loop fits**, and so does the one behind it. -/
theorem searchCalls_fit (hlen : ∀ i, (s.buf i).len ≤ s.head.blength) (fuel : ℕ) {st : Search}
    (h : Begins s src st) : ∀ c ∈ searchCalls strong s src updating fuel st, c.Fits := by
  induction fuel generalizing st with
  | zero => simp [searchCalls]
  | succ fuel ih =>
    intro c hc
    rw [searchCalls] at hc
    rcases List.mem_append.1 hc with hc | hc
    · exact blockCalls_fit hlen h c hc
    unfold pass at hc
    split_ifs at hc with hs
    · obtain ⟨hearly, hnext, hend⟩ := (h.tryMatch hs).advance hlen
      dsimp only at hc
      rcases List.mem_append.1 hc with hc | hc
      · exact hearly c hc
      split_ifs at hc with hlt
      · exact ih (hnext hlt) c hc
      · obtain rfl := List.mem_singleton.1 hc
        exact hend (not_lt.1 hlt)
    · simp at hc

theorem begins_first : Begins s src (searchInit s src) := by
  have hb : (0 : ℤ) ≤ s.head.blength := Nat.cast_nonneg _
  have hch : (0 : ℤ) ≤ chunkSize := by norm_num
  refine ⟨⟨?_, ?_, ?_, Or.inr ?_, ?_⟩, ?_, ?_⟩
  all_goals simp only [searchInit]
  all_goals omega

end Search

/-! ## `match_sums` -/

section MatchSums

variable {strong : Bytes → Bytes} {o : SumOpts} {r : ReceivedSums} {src : Bytes} {updating : Bool}

/-- **Literal runs fit an `int32`** whatever sums arrive, exactly if the part that is
    appended to is no longer than the source (or is to be verified with an empty
    source, where the process stops before any call). -/
theorem callsFit_iff {wire rest : Bytes} (h : receiveSumsFrom o wire = some (r, rest)) :
    CallsFit strong o r src updating ↔ (0 < o.appendMode →
      r.head.flength ≤ src.length ∨ o.appendMode = 2 ∧ src = []) := by
  obtain ⟨hlen, hflength⟩ := receiveSumsFrom_spec h
  unfold CallsFit matchSumsCalls
  by_cases happend : 0 < o.appendMode
  · simp only [if_pos happend, hflength happend, Option.getD_some, forall_const]
    constructor
    · intro hfit _
      by_contra hc
      rw [not_or, not_le] at hc
      rw [if_neg fun h => hc.2 ⟨h.1, h.2.1⟩] at hfit
      exact not_chunkCalls_fit hc.1 hfit
    · intro hle
      split_ifs with hempty
      · simp
      · refine chunkCalls_fit (hle happend |>.elim id fun hc => ?_)
        have : r.head.flength ≤ 0 := not_lt.1 fun hpos => hempty ⟨hc.1, hc.2, hpos⟩
        exact this.trans (Int.natCast_nonneg _)
  · refine ⟨fun _ hpos => absurd hpos happend, fun _ fuel => ?_⟩
    rw [if_neg happend]
    split_ifs
    · exact searchCalls_fit hlen fuel begins_first
    · exact chunkCalls_fit (Int.natCast_nonneg _)

/-- Appending, with the protocol and the options of a plain run. -/
def appendOpts : SumOpts := ⟨31, 0, 2, 1, by norm_num, by norm_num⟩

/-- The sums for a receiver that has three bytes, short of one block of four. -/
def threeBytes : Bytes := [1, 0, 0, 0, 4, 0, 0, 0, 2, 0, 0, 0, 3, 0, 0, 0]

/-- A source of one byte, as it has shrunk to after the file list was made: the
    literal run has length -2. -/
theorem not_callsFit_shrunk : ∃ r, receiveSumsFrom appendOpts threeBytes = some (r, []) ∧
    matchSumsCalls id appendOpts r [97] false 0 = [⟨1, 3, 0⟩] ∧
      ¬ CallsFit id appendOpts r [97] false := by
  obtain ⟨r, hr, hflength⟩ : ∃ r, receiveSumsFrom appendOpts threeBytes = some (r, []) ∧
      r.flength.getD 0 = 3 := ⟨_, rfl, by decide⟩
  have hcalls : matchSumsCalls id appendOpts r [97] false 0 = [⟨1, 3, 0⟩] := by
    unfold matchSumsCalls
    rw [hflength, if_pos (by decide), if_neg (by decide), chunkCalls, if_neg (by decide)]
    rfl
  refine ⟨r, hr, hcalls, fun hfit => ?_⟩
  have hneg := hfit 0
  rw [hcalls] at hneg
  exact absurd (hneg _ (List.mem_singleton_self _)) (by decide)

/-- A source of four bytes fits. -/
theorem callsFit_grown : ∃ r, receiveSumsFrom appendOpts threeBytes = some (r, []) ∧
    CallsFit id appendOpts r [97, 97, 97, 97] false := by
  obtain ⟨r, hr, hflength⟩ : ∃ r, receiveSumsFrom appendOpts threeBytes = some (r, []) ∧
      r.head.flength = 3 := ⟨_, rfl, by decide⟩
  refine ⟨r, hr, (callsFit_iff hr).2 fun _ => Or.inl ?_⟩
  rw [hflength]
  decide

end MatchSums

end CloudEdgeBackup
