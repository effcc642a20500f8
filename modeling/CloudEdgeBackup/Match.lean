/-
  The sender's search for blocks of the basis (`match.c`).

  * `Search` are the locals and statics of `hash_search`; `findMatch`,
    `realign`, `checkWantI` are the parts of one look at an offset, `tryMatch`
    the look, `advance` the step to the next offset, `hashSearch` the function;
  * `BlockOk` says that a block token is right at an output offset, `Sent` what
    the tokens sent so far stand for, `SearchOk` is the loop invariant;
  * `hashSearch_ok`: if every block picked is right, the tokens stand for the
    source.

  `map_ptr` on the source file, which does not change, is the zero-extended
  slice (`mapPtr_eq`).
-/
import CloudEdgeBackup.Checksum
import CloudEdgeBackup.Receiver

namespace CloudEdgeBackup

open Zext

/-! ## The hash table -/

/-- `TRADITIONAL_TABLESIZE` -/
abbrev traditionalTablesize : ℕ := 2 ^ 16

/-- `tablesize` -/
def tablesize (count : ℕ) : ℕ := max (count / 8 * 10 + 11) traditionalTablesize

/-- `SUM2HASH2` -/
def sum2hash2 (s1 s2 : UInt32) : ℕ := ((s1 + s2) &&& (0xffff : UInt32)).toNat

/-- `SUM2HASH` or `BIG_SUM2HASH` -/
def hashEntry (count : ℕ) (s1 s2 : UInt32) : ℕ :=
  if tablesize count = traditionalTablesize then sum2hash2 s1 s2
  else (packSum s1 s2).toNat % tablesize count

/-- Entry `i` of the sums. -/
def SumStruct.buf (s : SumStruct) (i : ℕ) : SumBuf := s.sums.getD i ⟨0, 0, 0, []⟩

/-- `build_hash_table`: the chain of every hash value, the last block first. -/
def buildHashTable (s : SumStruct) : ℕ → List ℕ :=
  (List.range s.head.count).foldl
    (fun table i =>
      let sum := splitSum (s.buf i).sum1
      let t := hashEntry s.head.count sum.1 sum.2
      fun t' => if t' = t then i :: table t' else table t')
    fun _ => []

/-! ## The search -/

/-- The locals of `hash_search`, `last_match`, the hash table with the flags of
    the sums, and what has been sent and summed. -/
structure Search where
  offset : ℕ
  alignedOffset : ℕ
  alignedI : ℕ
  wantI : ℕ
  k : ℕ
  s1 : UInt32
  s2 : UInt32
  lastMatch : ℕ
  table : ℕ → List ℕ
  /-- `SUMFLG_SAME_OFFSET` -/
  sameOffset : ℕ → Bool
  toks : List Token
  summed : Bytes

section Definitions

variable (strong : Bytes → Bytes) (s : SumStruct) (src : Bytes) (updating : Bool)

/-- The literal part of `send_token`: chunks of the source. -/
def literal (src : Bytes) (offset n : ℕ) : List Token :=
  (List.range ((n + (chunkSize - 1)) / chunkSize)).map fun j =>
    .data (zslice src (offset + j * chunkSize) (min chunkSize (n - j * chunkSize)))

/-- `matched`: the literal data up to `offset`, then block `i`, if there is one
    (without one `i` is -1 or -2). -/
def matched (st : Search) (offset : ℕ) (i : Option ℕ) : Search :=
  let n := int32 (offset - st.lastMatch)
  let len := i.elim 0 fun i => (s.buf i).len
  { st with
    toks := st.toks ++ literal src st.lastMatch n.toNat ++ (i.map Token.block).toList
    summed := st.summed ++ zslice src st.lastMatch (n + len).toNat
    lastMatch := offset + len }

/-- `memcmp(sum2, s->sums[i].sum2, s->s2length) == 0` -/
def sum2Eq (sum2 : Bytes) (i : ℕ) : Prop :=
  sum2.take s.head.s2length = (s.buf i).sum2.take s.head.s2length

instance (sum2 : Bytes) (i : ℕ) : Decidable (sum2Eq s sum2 i) := by unfold sum2Eq; infer_instance

/-- The walk along a chain: the chain without the entries that can never be used
    any more, and the first block with the sums and the length looked for. -/
def findMatch (st : Search) (sum : UInt32) (l : ℕ) (sum2 : Bytes) : List ℕ → List ℕ × Option ℕ
  | [] => ([], none)
  | i :: chain =>
    if updating = true ∧ (s.buf i).offset < st.offset ∧ st.sameOffset i = false then
      findMatch st sum l sum2 chain
    else if sum = (s.buf i).sum1 ∧ l = (s.buf i).len ∧ sum2Eq s sum2 i then (i :: chain, some i)
    else
      let r := findMatch st sum l sum2 chain
      (i :: r.1, r.2)

/-- `while (aligned_offset < offset)`, at most `n` times. -/
def bump (blength offset : ℕ) : ℕ → ℕ × ℕ → ℕ × ℕ
  | 0, p => p
  | n + 1, p => if p.1 < offset then bump blength offset n (p.1 + blength, p.2 + 1) else p

/-- The preference for a block at its own offset when updating in place: the
    state, the block, and `sum` and `sum2` as they are when `check_want_i` is
    reached.  A re-alignment that fails has moved the sums to the aligned offset
    but not the offset. -/
def realign (st : Search) (i : ℕ) (sum : UInt32) (l : ℕ) (sum2 : Bytes) :
    Search × ℕ × UInt32 × Bytes :=
  let a := bump s.head.blength st.offset st.offset (st.alignedOffset, st.alignedI)
  let st := { st with alignedOffset := a.1, alignedI := a.2 }
  if (st.offset = a.1 ∨ sum = 0 ∧ l = s.head.blength ∧ a.1 + l ≤ src.length) ∧ a.2 < s.head.count then
    if i ≠ a.2 ∧ ¬ (sum = (s.buf a.2).sum1 ∧ l = (s.buf a.2).len ∧ sum2Eq s sum2 a.2) then
      (st, i, sum, sum2)
    else
      let same := fun j => if j = a.2 then true else st.sameOffset j
      if st.offset ≠ a.1 then
        let map := zslice src a.1 l
        if getChecksum1 map ≠ (s.buf a.2).sum1 then (st, a.2, getChecksum1 map, sum2)
        else if ¬ sum2Eq s (strong map) a.2 then (st, a.2, getChecksum1 map, strong map)
        else
          ({ st with offset := a.1, sameOffset := same, wantI := a.2 }, a.2, getChecksum1 map,
            strong map)
      else ({ st with sameOffset := same, wantI := a.2 }, a.2, sum, sum2)
  else (st, i, sum, sum2)

/-- `want_i` is a better match by the sums at hand.  Its length is not looked at. -/
def Hops (st : Search) (i : ℕ) (sum : UInt32) (sum2 : Bytes) : Prop :=
  i ≠ st.wantI ∧ st.wantI < s.head.count ∧
    (updating = false ∨ st.offset ≤ (s.buf st.wantI).offset ∨ st.sameOffset st.wantI = true) ∧
    sum = (s.buf st.wantI).sum1 ∧ sum2Eq s sum2 st.wantI

instance (st : Search) (i : ℕ) (sum : UInt32) (sum2 : Bytes) :
    Decidable (Hops s updating st i sum sum2) := by unfold Hops; infer_instance

/-- `check_want_i` -/
def checkWantI (st : Search) (i : ℕ) (sum : UInt32) (sum2 : Bytes) : ℕ :=
  if Hops s updating st i sum sum2 then st.wantI else i

/-- The length of a block that starts at the offset. -/
def Search.l (st : Search) : ℕ := min s.head.blength (src.length - st.offset)

/-- The first block of the chain that matches at the offset, with the pruned
    table. -/
def look (st : Search) : Search × Option ℕ :=
  let entry := hashEntry s.head.count st.s1 st.s2
  let r := findMatch s updating st (packSum st.s1 st.s2) (st.l s src)
    (strong (zslice src st.offset (st.l s src))) (st.table entry)
  ({ st with table := fun t => if t = entry then r.1 else st.table t }, r.2)

/-- What `check_want_i` starts from when block `i` matches at the offset. -/
def candidate (st : Search) (i : ℕ) : Search × ℕ × UInt32 × Bytes :=
  let sum := packSum st.s1 st.s2
  let sum2 := strong (zslice src st.offset (st.l s src))
  if updating then realign strong s src st i sum (st.l s src) sum2 else (st, i, sum, sum2)

/-- The block sent at the offset, if there is a match. -/
def pick (st : Search) : Option (Search × ℕ) :=
  let r := look strong s src updating st
  r.2.map fun i =>
    let c := candidate strong s src updating r.1 i
    (c.1, checkWantI s updating c.1 c.2.1 c.2.2.1 c.2.2.2)

/-- Block `i` is sent, and the window placed on its last byte. -/
def emit (st : Search) (i : ℕ) : Search :=
  let st := matched s src { st with wantI := i + 1 } st.offset (some i)
  let offset := st.offset + (s.buf i).len - 1
  let k := min s.head.blength (src.length - offset)
  let sum := splitSum (getChecksum1 (zslice src offset k))
  { st with offset := offset, k := k, s1 := sum.1, s2 := sum.2 }

/-- The look at an offset. -/
def tryMatch (st : Search) : Search :=
  match pick strong s src updating st with
  | none => (look strong s src updating st).1
  | some (st, i) => emit s src st i

/-- `end` -/
def searchEnd : ℤ := src.length + 1 - (s.buf (s.head.count - 1)).len

/-- `null_hash`: the window moves on by a byte; literal data far behind it is
    sent early. -/
def advance (st : Search) : Search :=
  let backup := max 0 (int32 (st.offset - st.lastMatch))
  let more := st.offset + st.k < src.length
  let out := rollOut st.k (zget src st.offset) (st.s1, st.s2)
  let sum := if more then rollIn (zget src (st.offset + st.k)) out else out
  let k := if more then st.k else st.k - 1
  let st' := { st with s1 := sum.1, s2 := sum.2, k := k }
  let st' :=
    if s.head.blength + chunkSize ≤ backup ∧ searchEnd s src - st.offset > chunkSize then
      matched s src st' (st.offset - s.head.blength) none
    else st'
  { st' with offset := st.offset + 1 }

/-- The `do ... while` loop; `none` is out of fuel. -/
def searchLoop : ℕ → Search → Option Search
  | 0, _ => none
  | fuel + 1, st =>
    let st := advance s src (tryMatch strong s src updating st)
    if (st.offset : ℤ) < searchEnd s src then searchLoop fuel st else some st

/-- The state `hash_search` starts in. -/
def searchInit : Search :=
  let k := min src.length s.head.blength
  let sum := splitSum (getChecksum1 (zslice src 0 k))
  ⟨0, 0, 0, 0, k, sum.1, sum.2, 0, buildHashTable s, fun _ => false, [], []⟩

/-- `hash_search` -/
def hashSearch : Option Search :=
  (searchLoop strong s src updating src.length (searchInit s src)).map fun st =>
    matched s src st src.length none

/-- `match_sums`, not appending: without sums the source goes out in chunks. -/
def matchSums : Option Search :=
  if 0 < src.length ∧ 0 < s.head.count then hashSearch strong s src updating
  else
    let st := (List.range ((src.length - 1) / chunkSize)).foldl
      (fun st m => matched s src st (chunkSize * (m + 1)) none) (searchInit s src)
    some (matched s src st src.length none)

end Definitions

/-! ## What has been sent -/

theorem literal_pieces (src : Bytes) (offset c n m : ℕ) :
    (List.range m).flatMap (fun j => zslice src (offset + j * c) (min c (n - j * c))) =
      zslice src offset (min n (m * c)) := by
  induction m with
  | zero => simp
  | succ m ih =>
    rw [List.range_succ, List.flatMap_append, ih, List.flatMap_singleton]
    have hmul : (m + 1) * c = m * c + c := by ring
    rcases le_total n (m * c) with h | h
    · rw [min_eq_left h, min_eq_left (by omega : n ≤ (m + 1) * c)]
      simp [Nat.sub_eq_zero_of_le h]
    · rw [min_eq_right h, ← zslice_add]
      congr 1
      omega

theorem literal_spec (src : Bytes) (offset n : ℕ) (file : Bytes) (sum : SumHead) :
    decode file sum (literal src offset n) = zslice src offset n ∧
      ∀ t ∈ literal src offset n, t.Wf ∧ ∃ d, t = .data d := by
  have hc : 0 < chunkSize := by norm_num
  have hm : n ≤ (n + (chunkSize - 1)) / chunkSize * chunkSize := by
    have h₁ := Nat.div_add_mod (n + (chunkSize - 1)) chunkSize
    have h₂ := Nat.mod_lt (n + (chunkSize - 1)) hc
    rw [Nat.mul_comm]
    omega
  constructor
  · have := literal_pieces src offset chunkSize n ((n + (chunkSize - 1)) / chunkSize)
    rw [min_eq_left hm] at this
    rw [← this, decode, literal, List.flatMap_map]
    rfl
  · intro t ht
    obtain ⟨j, hj, rfl⟩ := List.mem_map.1 ht
    refine ⟨⟨fun h => ?_, ?_⟩, _, rfl⟩
    · -- chunk `j` starts before the end
      have hlen := congrArg List.length h
      rw [zslice_length, List.length_nil] at hlen
      have h₁ : (j + 1) * chunkSize ≤ n + (chunkSize - 1) :=
        (Nat.mul_le_mul_right _ (List.mem_range.1 hj)).trans (Nat.div_mul_le_self _ _)
      rw [Nat.succ_mul] at h₁
      omega
    · rw [zslice_length]
      exact (min_le_left _ _).trans (by norm_num)

section Sent

variable (file : Bytes) (s : SumStruct) (src : Bytes) (updating : Bool)

/-- Block `i` is right at output offset `o`: it is what the source has there, and
    when updating in place nothing of it has been replaced by another byte. -/
structure BlockOk (o i : ℕ) : Prop where
  lt : i < s.head.count
  eq : zslice file (s.head.offset i) (s.head.len i) = zslice src o (s.head.len i)
  le : o + s.head.len i ≤ src.length
  safe : updating = true → o ≤ s.head.offset i ∨
    zslice file (s.head.offset i) (s.head.len i) = zslice src (s.head.offset i) (s.head.len i)

/-- Every block token is right at the output offset where it stands. -/
def TokensOk (o : ℕ) : List Token → Prop
  | [] => True
  | .data d :: ts => TokensOk (o + d.length) ts
  | .block i :: ts => BlockOk file s src updating o i ∧ TokensOk (o + s.head.len i) ts

/-- The tokens sent stand for the source up to `last_match`. -/
structure Sent (st : Search) : Prop where
  decode_eq : decode file s.head st.toks = zslice src 0 st.lastMatch
  ok : TokensOk file s src updating 0 st.toks
  wf : ∀ t ∈ st.toks, t.Wf
  summed : st.summed = zslice src 0 st.lastMatch
  le : st.lastMatch ≤ src.length

variable {file s src updating}

theorem tokensOk_append {o : ℕ} {ts us : List Token} :
    TokensOk file s src updating o (ts ++ us) ↔
      TokensOk file s src updating o ts ∧
        TokensOk file s src updating (o + (decode file s.head ts).length) us := by
  induction ts generalizing o with
  | nil => simp [TokensOk, decode]
  | cons t ts ih =>
    cases t with
    | data d => simp [TokensOk, ih, decode, Token.bytes, Nat.add_assoc]
    | block i => simp [TokensOk, ih, decode, Token.bytes, Nat.add_assoc, and_assoc]

theorem tokensOk_data {o : ℕ} {ts : List Token} (h : ∀ t ∈ ts, ∃ d, t = .data d) :
    TokensOk file s src updating o ts := by
  induction ts generalizing o with
  | nil => trivial
  | cons t ts ih =>
    obtain ⟨d, rfl⟩ := h t (by simp)
    exact ih fun t ht => h t (by simp [ht])

theorem decode_append (file : Bytes) (sum : SumHead) (ts us : List Token) :
    decode file sum (ts ++ us) = decode file sum ts ++ decode file sum us := by
  simp [decode]

/-- The distance to `last_match` fits an `int32`. -/
theorem int32_sub {a b : ℕ} (hle : b ≤ a) (h : a - b < 2 ^ 31) :
    int32 ((a : ℤ) - b) = ((a - b : ℕ) : ℤ) := by
  rw [← Nat.cast_sub hle, int32_of_lt h]

/-- Literal data is sent up to `o`. -/
theorem Sent.literal {st : Search} (h : Sent file s src updating st) {o : ℕ}
    (hle : st.lastMatch ≤ o) (ho : o ≤ src.length) (hn : o - st.lastMatch < 2 ^ 31) :
    Sent file s src updating (matched s src st o none) := by
  obtain ⟨hdec, hlit⟩ := literal_spec src st.lastMatch (o - st.lastMatch) file s.head
  have hadd : zslice src 0 st.lastMatch ++ zslice src st.lastMatch (o - st.lastMatch) =
      zslice src 0 o := by
    have := zslice_add src 0 st.lastMatch (o - st.lastMatch)
    rw [Nat.zero_add] at this
    rw [← this, Nat.add_sub_cancel' hle]
  simp only [matched, int32_sub hle hn, Option.elim_none, Option.map_none, Option.toList_none,
    List.append_nil, Int.toNat_natCast, Nat.cast_zero, add_zero]
  refine ⟨?_, ?_, fun t ht => ?_, by simp only [h.summed, hadd], ho⟩
  · simp only [decode_append, h.decode_eq, hdec, hadd]
  · exact tokensOk_append.2 ⟨h.ok, tokensOk_data fun t ht => (hlit t ht).2⟩
  · rcases List.mem_append.1 ht with ht | ht
    · exact h.wf t ht
    · exact (hlit t ht).1

/-- Literal data is sent up to `o`, then a block that is right there. -/
theorem Sent.block {strong : Bytes → Bytes} (hof : s.Of strong file) {st : Search}
    (h : Sent file s src updating st) {o i : ℕ} (hle : st.lastMatch ≤ o)
    (hn : o - st.lastMatch < 2 ^ 31) (hi : BlockOk file s src updating o i) :
    Sent file s src updating (matched s src st o (some i)) := by
  have hlen : (s.buf i).len = s.head.len i := by
    have hlt : i < s.sums.length := hof.length_eq ▸ hi.lt
    rw [SumStruct.buf, List.getD_eq_getElem _ _ hlt, hof.get_eq i hlt]
  have hl := h.literal hle ((Nat.le_add_right _ _).trans hi.le) hn
  have hnat : (((o - st.lastMatch : ℕ) : ℤ) + (s.head.len i : ℕ)).toNat =
      o - st.lastMatch + s.head.len i := by omega
  have hadd : zslice src 0 o ++ zslice src o (s.head.len i) = zslice src 0 (o + s.head.len i) := by
    rw [zslice_add, Nat.zero_add]
  have hsum : st.summed ++ zslice src st.lastMatch (o - st.lastMatch + s.head.len i) =
      zslice src 0 (o + s.head.len i) := by
    rw [h.summed, zslice_add, ← hadd, ← List.append_assoc]
    have := zslice_add src 0 st.lastMatch (o - st.lastMatch)
    rw [Nat.zero_add, Nat.add_sub_cancel' hle] at this
    rw [← this, Nat.add_sub_cancel' hle]
  obtain ⟨l₁, l₂, l₃, -, -⟩ := hl
  simp only [matched, int32_sub hle hn, Option.elim_none, Option.map_none, Option.toList_none,
    List.append_nil, Int.toNat_natCast, Nat.cast_zero, add_zero] at l₁ l₂ l₃
  simp only [matched, int32_sub hle hn, Option.elim_some, Option.map_some, Option.toList_some,
    Int.toNat_natCast, hlen, hnat]
  refine ⟨?_, ?_, fun t ht => ?_, hsum, hi.le⟩
  · simp only
    rw [decode_append, l₁, ← hadd, ← hi.eq]
    simp [decode, Token.bytes]
  · simp only
    rw [tokensOk_append, l₁, zslice_length, Nat.zero_add]
    exact ⟨l₂, hi, trivial⟩
  · rcases List.mem_append.1 ht with ht | ht
    · exact l₃ t ht
    · obtain rfl := List.mem_singleton.1 ht
      exact hi.lt.trans s.head.count_lt

end Sent

/-! ## The loop invariant -/

section Search

variable (strong : Bytes → Bytes) (file : Bytes) (s : SumStruct) (src : Bytes) (updating : Bool)

/-- Equal rolling and truncated strong checksums mean equal data, between the
    blocks of the basis and the pieces of the source of their lengths. -/
def NoCollision : Prop :=
  ∀ i < s.head.count, ∀ o, o + s.head.len i ≤ src.length →
    getChecksum1 (zslice src o (s.head.len i)) =
      getChecksum1 (zslice file (s.head.offset i) (s.head.len i)) →
    (strong (zslice src o (s.head.len i))).take s.head.s2length =
      (strong (zslice file (s.head.offset i) (s.head.len i))).take s.head.s2length →
    zslice file (s.head.offset i) (s.head.len i) = zslice src o (s.head.len i)

/-- What holds around `null_hash`: the window and its sums belong to the offset,
    and `last_match` is not far behind. -/
structure Ready (st : Search) : Prop where
  sent : Sent file s src updating st
  lt : st.offset < src.length
  k_eq : st.k = st.l s src
  last_le : st.lastMatch ≤ st.offset + 1
  near : (st.offset : ℤ) - st.lastMatch ≤
    s.head.blength + chunkSize + max 0 (st.offset + chunkSize - searchEnd s src)
  inside : (st.offset : ℤ) < searchEnd s src ∨ st.offset ≤ st.lastMatch
  rolled : Rolled (zslice src st.offset st.k) st.s1 st.s2
  table : ∀ t, ∀ i ∈ st.table t, i < s.head.count
  aligned : st.alignedOffset = s.head.offset st.alignedI
  aligned_le : st.alignedOffset ≤ st.offset + s.head.blength
  same : ∀ i, st.sameOffset i = true → i < s.head.count ∧
    zslice file (s.head.offset i) (s.head.len i) = zslice src (s.head.offset i) (s.head.len i)

/-- The loop invariant. -/
structure SearchOk (st : Search) : Prop extends Ready file s src updating st where
  behind : st.lastMatch ≤ st.offset

/-- Block `i` matches at the offset. -/
structure Matches (st : Search) (i : ℕ) : Prop where
  lt : i < s.head.count
  sum1 : packSum st.s1 st.s2 = (s.buf i).sum1
  len : st.l s src = (s.buf i).len
  sum2 : sum2Eq s (strong (zslice src st.offset (st.l s src))) i
  safe : updating = true → st.offset ≤ (s.buf i).offset ∨ st.sameOffset i = true

variable {strong file s src updating}

theorem SumStruct.Of.buf_eq (h : s.Of strong file) {i : ℕ} (hi : i < s.head.count) :
    s.buf i = ⟨s.head.offset i, s.head.len i,
      getChecksum1 (zslice file (s.head.offset i) (s.head.len i)),
      (strong (zslice file (s.head.offset i) (s.head.len i))).take s.head.s2length⟩ := by
  have hlt : i < s.sums.length := h.length_eq ▸ hi
  rw [SumStruct.buf, List.getD_eq_getElem _ _ hlt, h.get_eq i hlt]

theorem SumStruct.Of.len_pos (h : s.Of strong file) (i : ℕ) : 0 < s.head.len i := by
  have := h.blength_pos
  unfold SumHead.len
  split_ifs <;> omega

theorem SumStruct.Of.sum2Eq_iff (h : s.Of strong file) {i : ℕ} (hi : i < s.head.count)
    (sum2 : Bytes) : sum2Eq s sum2 i ↔ sum2.take s.head.s2length =
      (strong (zslice file (s.head.offset i) (s.head.len i))).take s.head.s2length := by
  rw [sum2Eq, h.buf_eq hi, List.take_take, min_self]

/-- The first entry found matches, and the chain only loses entries. -/
theorem findMatch_spec (s : SumStruct) (updating : Bool) (st : Search) (sum : UInt32) (l : ℕ) (sum2 : Bytes) (chain : List ℕ) :
    (∀ i ∈ (findMatch s updating st sum l sum2 chain).1, i ∈ chain) ∧
    ∀ i ∈ (findMatch s updating st sum l sum2 chain).2, i ∈ chain ∧ sum = (s.buf i).sum1 ∧
      l = (s.buf i).len ∧ sum2Eq s sum2 i ∧
      (updating = true → st.offset ≤ (s.buf i).offset ∨ st.sameOffset i = true) := by
  induction chain with
  | nil => simp [findMatch]
  | cons i chain ih =>
    obtain ⟨ih₁, ih₂⟩ := ih
    rw [findMatch]
    split_ifs with hprune hmatch
    · exact ⟨fun j hj => by simp [ih₁ j hj], fun j hj => by
        obtain ⟨h₁, h₂⟩ := ih₂ j hj
        exact ⟨by simp [h₁], h₂⟩⟩
    · refine ⟨fun j hj => hj, fun j hj => ?_⟩
      obtain rfl : i = j := by simpa using hj
      refine ⟨by simp, hmatch.1, hmatch.2.1, hmatch.2.2, fun hu => ?_⟩
      by_contra hc
      rw [not_or, not_le] at hc
      exact hprune ⟨hu, hc.1, by simpa using hc.2⟩
    · refine ⟨fun j hj => ?_, fun j hj => ?_⟩
      · rcases List.mem_cons.1 hj with rfl | hj
        · simp
        · simp [ih₁ j hj]
      · obtain ⟨h₁, h₂⟩ := ih₂ j hj
        exact ⟨by simp [h₁], h₂⟩

/-- A look prunes the table and finds a block that matches. -/
theorem look_spec (strong : Bytes → Bytes) {st : Search} (h : SearchOk file s src updating st) :
    SearchOk file s src updating (look strong s src updating st).1 ∧
    (look strong s src updating st).1 =
      { st with table := (look strong s src updating st).1.table } ∧
    ∀ i ∈ (look strong s src updating st).2, Matches strong s src updating
      (look strong s src updating st).1 i := by
  obtain ⟨h₁, h₂⟩ := findMatch_spec s updating st (packSum st.s1 st.s2)
    (st.l s src) (strong (zslice src st.offset (st.l s src)))
    (st.table (hashEntry s.head.count st.s1 st.s2))
  refine ⟨?_, rfl, fun i hi => ?_⟩
  · refine { h with
      sent := ⟨h.sent.decode_eq, h.sent.ok, h.sent.wf, h.sent.summed, h.sent.le⟩
      table := fun t i hi => ?_ }
    simp only [look] at hi
    split_ifs at hi
    · exact h.table _ i (h₁ i hi)
    · exact h.table t i hi
  · obtain ⟨h₃, h₄, h₅, h₆, h₇⟩ := h₂ i hi
    exact ⟨h.table _ i h₃, h₄, h₅, h₆, h₇⟩

/-- A block that matches is right. -/
theorem Matches.blockOk (hof : s.Of strong file) (hno : NoCollision strong file s src) {st : Search}
    (h : Ready file s src updating st) {i : ℕ} (hm : Matches strong s src updating st i) :
    BlockOk file s src updating st.offset i := by
  have hbuf := hof.buf_eq hm.lt
  have hlen : st.l s src = s.head.len i := by rw [hm.len, hbuf]
  have hle : st.offset + s.head.len i ≤ src.length := by
    have := h.lt
    have : st.l s src ≤ src.length - st.offset := Nat.min_le_right _ _
    omega
  refine ⟨hm.lt, hno i hm.lt _ hle ?_ ?_, hle, fun hu => (hm.safe hu).imp (fun hs => ?_) fun hs => ?_⟩
  · have := hm.sum1
    rw [hbuf, h.rolled.packSum, h.k_eq, hlen] at this
    exact this
  · have := (hof.sum2Eq_iff hm.lt _).1 hm.sum2
    rwa [hlen] at this
  · rwa [hbuf] at hs
  · exact (h.same i hs).2

theorem bump_spec {blength : ℕ} (hb : 0 < blength) (offset : ℕ) :
    ∀ (n ai : ℕ), offset ≤ ai * blength + n →
      ∃ ai', bump blength offset n (ai * blength, ai) = (ai' * blength, ai') ∧
        offset ≤ ai' * blength ∧ (ai' * blength ≤ ai * blength ∨ ai' * blength ≤ offset + blength)
  | 0, ai, h => ⟨ai, rfl, h, Or.inl le_rfl⟩
  | n + 1, ai, h => by
    rw [bump]
    split_ifs with hlt
    · dsimp only at hlt ⊢
      have hmul : ai * blength + blength = (ai + 1) * blength := by ring
      obtain ⟨ai', h₁, h₂, h₃⟩ := bump_spec hb offset n (ai + 1) (by omega)
      rw [hmul]
      exact ⟨ai', h₁, h₂, Or.inr (by omega)⟩
    · exact ⟨ai, rfl, not_lt.1 hlt, Or.inl le_rfl⟩

/-- What `candidate` makes of a match: the offset may move forward to the aligned
    one, and the block is right where the offset is then. -/
structure Candidate (file : Bytes) (s : SumStruct) (src : Bytes) (updating : Bool)
    (st st' : Search) (i : ℕ) : Prop where
  keeps : st' = { st with
    offset := st'.offset, alignedOffset := st'.alignedOffset, alignedI := st'.alignedI,
    wantI := st'.wantI, sameOffset := st'.sameOffset }
  le : st.offset ≤ st'.offset
  offset_le : st'.offset ≤ st.offset + s.head.blength
  fits : st'.offset + st.l s src ≤ src.length
  ok : BlockOk file s src updating st'.offset i
  aligned : st'.alignedOffset = s.head.offset st'.alignedI
  aligned_le : st'.alignedOffset ≤ st'.offset + s.head.blength
  same : ∀ i, st'.sameOffset i = true → i < s.head.count ∧
    zslice file (s.head.offset i) (s.head.len i) = zslice src (s.head.offset i) (s.head.len i)

/-- The block at an aligned offset, compared by the sums of the window there. -/
theorem blockOk_aligned (hof : s.Of strong file) (hno : NoCollision strong file s src)
    {ai l o : ℕ} (hlt : ai < s.head.count) (hl : l = (s.buf ai).len)
    (ho : o + l ≤ src.length) (hsafe : updating = true → o ≤ s.head.offset ai)
    (h₁ : getChecksum1 (zslice src o l) = (s.buf ai).sum1)
    (h₂ : sum2Eq s (strong (zslice src o l)) ai) : BlockOk file s src updating o ai := by
  have hbuf := hof.buf_eq hlt
  have hlen : l = s.head.len ai := by rw [hl, hbuf]
  rw [hbuf] at h₁
  rw [hof.sum2Eq_iff hlt] at h₂
  rw [hlen] at ho h₁ h₂
  exact ⟨hlt, hno ai hlt o ho h₁ h₂, ho, fun hu => Or.inl (hsafe hu)⟩

/-- **Re-alignment keeps the block right**, whether it succeeds or fails. -/
theorem realign_ok (hof : s.Of strong file) (hno : NoCollision strong file s src) {st : Search}
    (h : SearchOk file s src updating st) {i : ℕ} (hm : Matches strong s src updating st i) :
    ∀ c, c = realign strong s src st i (packSum st.s1 st.s2) (st.l s src)
      (strong (zslice src st.offset (st.l s src))) →
      Candidate file s src updating st c.1 c.2.1 := by
  rintro c rfl
  have hl : st.l s src ≤ src.length - st.offset := Nat.min_le_right _ _
  have hlt := h.lt
  have hfits : st.offset + st.l s src ≤ src.length := by omega
  have hsum : packSum st.s1 st.s2 = getChecksum1 (zslice src st.offset (st.l s src)) := by
    rw [h.rolled.packSum, h.k_eq]
  have hok := hm.blockOk hof hno h.toReady
  have hb := hof.blength_pos
  obtain ⟨ai, hbump, hge, hle⟩ := bump_spec hb st.offset st.offset st.alignedI (by omega)
  have hale : ai * s.head.blength ≤ st.offset + s.head.blength := by
    have := h.aligned_le
    rw [h.aligned] at this
    exact hle.elim (fun h => h.trans this) id
  have hal := h.aligned
  simp only [SumHead.offset] at hal
  unfold realign
  simp only [hal, hbump]
  split_ifs with hc hi hne hs1 hs2
  · -- the aligned block is another one
    exact ⟨rfl, le_rfl, Nat.le_add_right _ _, hfits, hok, rfl, hale, h.same⟩
  all_goals try
    have hal' : ai < s.head.count ∧ packSum st.s1 st.s2 = (s.buf ai).sum1 ∧
        st.l s src = (s.buf ai).len ∧ sum2Eq s (strong (zslice src st.offset (st.l s src))) ai := by
      by_cases hia : i = ai
      · exact hia ▸ ⟨hm.lt, hm.sum1, hm.len, hm.sum2⟩
      · exact ⟨hc.2, by_contra fun hn => hi ⟨hia, hn⟩⟩
    obtain ⟨ha, h₁, h₂, h₃⟩ := hal'
    rw [hsum] at h₁
  · -- the rolling sum fails at the aligned offset
    exact ⟨rfl, le_rfl, Nat.le_add_right _ _, hfits,
      blockOk_aligned hof hno ha h₂ hfits (fun _ => hge) h₁ h₃, rfl, hale, h.same⟩
  · -- the offset moves to the aligned one
    have hfits' : ai * s.head.blength + st.l s src ≤ src.length :=
      (hc.1.resolve_left fun he => hne he).2.2
    have hok' : BlockOk file s src updating (ai * s.head.blength) ai :=
      blockOk_aligned hof hno ha h₂ hfits' (fun _ => le_rfl) (not_not.1 hs1) hs2
    refine ⟨rfl, hge, hale, hfits', hok', rfl, Nat.le_add_right _ _, fun j hj => ?_⟩
    by_cases hja : j = ai
    · rw [hja]; exact ⟨ha, hok'.eq⟩
    · exact h.same j (by simpa [hja] using hj)
  · -- the strong sum fails at the aligned offset
    exact ⟨rfl, le_rfl, Nat.le_add_right _ _, hfits,
      blockOk_aligned hof hno ha h₂ hfits (fun _ => hge) h₁ h₃, rfl, hale, h.same⟩
  · -- the block is at its own offset
    have heq : st.offset = ai * s.head.blength := not_not.1 hne
    have hok' : BlockOk file s src updating st.offset ai :=
      blockOk_aligned hof hno ha h₂ hfits (fun _ => hge) h₁ h₃
    refine ⟨rfl, le_rfl, Nat.le_add_right _ _, hfits, hok', rfl, hale, fun j hj => ?_⟩
    by_cases hja : j = ai
    · rw [hja]
      refine ⟨ha, ?_⟩
      have := hok'.eq
      rwa [heq] at this
    · exact h.same j (by simpa [hja] using hj)
  · -- no block is at an aligned offset
    exact ⟨rfl, le_rfl, Nat.le_add_right _ _, hfits, hok, rfl, hale, h.same⟩

/-- What `check_want_i` starts from is right. -/
theorem candidate_ok (hof : s.Of strong file) (hno : NoCollision strong file s src) {st : Search}
    (h : SearchOk file s src updating st) {i : ℕ} (hm : Matches strong s src updating st i) :
    ∀ c, c = candidate strong s src updating st i → Candidate file s src updating st c.1 c.2.1 := by
  intro c hc
  unfold candidate at hc
  dsimp only at hc
  split_ifs at hc with hu
  · exact realign_ok hof hno h hm c hc
  · rw [hc]
    have hl : st.l s src ≤ src.length - st.offset := Nat.min_le_right _ _
    have hlt := h.lt
    exact ⟨rfl, le_rfl, Nat.le_add_right _ _, by dsimp only; omega, hm.blockOk hof hno h.toReady,
      h.aligned, h.aligned_le, h.same⟩

variable (file s src) in
/-- Block `i` holds what the source has at `o`. -/
def SameBytes (o i : ℕ) : Prop :=
  o + s.head.len i ≤ src.length ∧
    zslice file (s.head.offset i) (s.head.len i) = zslice src o (s.head.len i)

variable (strong file s src updating) in
/-- A hop to `want_i` goes by the sums of the bytes at the offset, to a block of
    the length that is looked for; or to a block of another length, which happens
    to have the right bytes. -/
def HopOk (st : Search) : Prop :=
  ∀ i ∈ (look strong s src updating st).2,
    ∀ c, c = candidate strong s src updating (look strong s src updating st).1 i →
      Hops s updating c.1 c.2.1 c.2.2.1 c.2.2.2 →
        (s.buf c.1.wantI).len = st.l s src ∧
          c.2.2.1 = getChecksum1 (zslice src c.1.offset (st.l s src)) ∧
          c.2.2.2 = strong (zslice src c.1.offset (st.l s src)) ∨
        (s.buf c.1.wantI).len ≠ st.l s src ∧ SameBytes file s src c.1.offset c.1.wantI

/-- **The block picked is right**, if a hop to `want_i` is in order. -/
theorem pick_ok (hof : s.Of strong file) (hno : NoCollision strong file s src) {st : Search}
    (h : SearchOk file s src updating st) (hhop : HopOk strong file s src updating st) :
    ∀ p ∈ pick strong s src updating st,
      Candidate file s src updating (look strong s src updating st).1 p.1 p.2 := by
  intro p hp
  obtain ⟨i, hi, rfl⟩ := Option.map_eq_some_iff.1 hp
  obtain ⟨hok, hkeep, hmatch⟩ := look_spec strong h
  have hc := candidate_ok hof hno hok (hmatch i hi) _ rfl
  have hhop := hhop i hi _ rfl
  set c := candidate strong s src updating (look strong s src updating st).1 i
  have hl : (look strong s src updating st).1.l s src = st.l s src := by rw [hkeep]; rfl
  unfold checkWantI
  dsimp only
  split_ifs with hh
  swap
  · exact hc
  replace hhop := hhop hh
  have hfits := hc.fits
  rw [hl] at hfits
  refine { hc with ok := ?_ }
  obtain ⟨-, hlt, hsafe, hs1, hs2⟩ := hh
  have hbuf := hof.buf_eq hlt
  have hsame : SameBytes file s src c.1.offset c.1.wantI := by
    rcases hhop with ⟨h₃, h₁, h₂⟩ | ⟨-, hsame⟩
    · have hok' : BlockOk file s src false c.1.offset c.1.wantI :=
        blockOk_aligned hof hno hlt h₃.symm hfits (by simp) (by rw [← h₁, hs1]) (by rwa [← h₂])
      exact ⟨hok'.le, hok'.eq⟩
    · exact hsame
  refine ⟨hlt, hsame.2, hsame.1, fun hu => ?_⟩
  rcases hsafe with hs | hs | hs
  · simp [hu] at hs
  · rw [hbuf] at hs; exact Or.inl hs
  · exact Or.inr (hc.same _ hs).2

/-- `last_match` is at most two chunks and a block behind. -/
theorem Ready.dist {st : Search} (h : Ready file s src updating st) :
    (st.offset : ℤ) - st.lastMatch ≤ s.head.blength + 2 * chunkSize := by
  have h₁ := h.near
  have hb : (0 : ℤ) ≤ s.head.blength := Nat.cast_nonneg _
  rcases h.inside with h₂ | h₂
  · have : max 0 ((st.offset : ℤ) + chunkSize - searchEnd s src) ≤ chunkSize := by
      refine max_le (by norm_num) ?_
      linarith
    linarith
  · have : (0 : ℤ) ≤ chunkSize := by norm_num
    have : (st.offset : ℤ) ≤ st.lastMatch := by exact_mod_cast h₂
    linarith

theorem Ready.dist_lt {st : Search} (h : Ready file s src updating st) {n : ℕ}
    (hn : n ≤ st.offset + 2 * s.head.blength) : n - st.lastMatch < 2 ^ 31 := by
  have h₁ := h.dist
  have h₂ := s.head.blength_le
  have h₃ : oldMaxBlockSize = 2 ^ 29 := rfl
  have h₄ : chunkSize = 2 ^ 15 := by norm_num
  rw [h₄] at h₁
  rw [h₃] at h₂
  push_cast at h₁
  omega

/-- After a block the window stands on its last byte. -/
theorem emit_ready (hof : s.Of strong file) {st st' : Search} (h : SearchOk file s src updating st)
    {i : ℕ} (hc : Candidate file s src updating st st' i) :
    Ready file s src updating (emit s src st' i) := by
  have hlen : (s.buf i).len = s.head.len i := by rw [hof.buf_eq hc.ok.lt]
  have hpos := hof.len_pos i
  have hfit := hc.ok.le
  have hle := hc.le
  have hbehind := h.behind
  have hkeep := hc.keeps
  have hlast : st'.lastMatch = st.lastMatch := by rw [hkeep]
  have hsent : Sent file s src updating { st' with wantI := i + 1 } := by
    rw [hkeep]
    exact ⟨h.sent.decode_eq, h.sent.ok, h.sent.wf, h.sent.summed, h.sent.le⟩
  have hdist := h.dist_lt (n := st'.offset) (by have := hc.offset_le; omega)
  have hblock := hsent.block hof (o := st'.offset) (by dsimp only; omega) (by dsimp only; omega) hc.ok
  have hcast : (0 : ℤ) ≤ max 0 (((st'.offset + s.head.len i - 1 : ℕ) : ℤ) + chunkSize -
      searchEnd s src) := le_max_left _ _
  have hch : (0 : ℤ) ≤ chunkSize := by norm_num
  unfold emit
  simp only [matched, Option.elim_some, hlen] at hblock ⊢
  refine {
    sent := ⟨hblock.decode_eq, hblock.ok, hblock.wf, hblock.summed, hblock.le⟩
    lt := by dsimp only; omega
    k_eq := rfl
    last_le := by dsimp only; omega
    near := by dsimp only; omega
    inside := Or.inr (by dsimp only; omega)
    rolled := rolled_splitSum _
    table := ?_
    aligned := hc.aligned
    aligned_le := hc.aligned_le.trans (by dsimp only; omega)
    same := hc.same }
  dsimp only
  rw [hkeep]
  exact h.table

theorem tryMatch_ready (hof : s.Of strong file) (hno : NoCollision strong file s src) {st : Search}
    (h : SearchOk file s src updating st) (hhop : HopOk strong file s src updating st) :
    Ready file s src updating (tryMatch strong s src updating st) ∧
      st.offset ≤ (tryMatch strong s src updating st).offset := by
  obtain ⟨hok, hkeep, -⟩ := look_spec strong h
  unfold tryMatch
  cases hp : pick strong s src updating st with
  | none => exact ⟨hok.toReady, by rw [hkeep]⟩
  | some p =>
    obtain ⟨st', i⟩ := p
    have hc := pick_ok hof hno h hhop _ hp
    refine ⟨emit_ready hof hok hc, ?_⟩
    have := hc.le
    have hpos := hof.len_pos i
    have hlen : (s.buf i).len = s.head.len i := by rw [hof.buf_eq hc.ok.lt]
    rw [hkeep] at this
    simp only [emit, matched, hlen] at this ⊢
    omega

/-- The window one byte further. -/
theorem rolled_advance {o k : ℕ} {s1 s2 : UInt32} (hk : 0 < k) (n : ℕ) (h : Rolled (zslice src o k) s1 s2) :
    let out := rollOut k (zget src o) (s1, s2)
    let sum := if o + k < n then rollIn (zget src (o + k)) out else out
    Rolled (zslice src (o + 1) (if o + k < n then k else k - 1)) sum.1 sum.2 := by
  have hcons : zslice src o k = zget src o :: zslice src (o + 1) (k - 1) := by
    have := zslice_add src o 1 (k - 1)
    rw [show 1 + (k - 1) = k by omega] at this
    rw [this]
    simp [zslice]
  rw [hcons] at h
  have hout := Rolled.rollOut (s := (s1, s2)) h
  rw [zslice_length, show k - 1 + 1 = k by omega] at hout
  dsimp only
  split_ifs with hmore
  · have := hout.rollIn (b := zget src (o + k))
    have hsnoc : zslice src (o + 1) (k - 1) ++ [zget src (o + k)] = zslice src (o + 1) k := by
      have := zslice_add src (o + 1) (k - 1) 1
      rw [show k - 1 + 1 = k by omega] at this
      rw [this]
      simp [zslice, show o + 1 + (k - 1) = o + k by omega]
    rwa [hsnoc] at this
  · exact hout

/-- The window after the step to the next offset. -/
theorem advance_window (s : SumStruct) (src : Bytes) (st : Search) :
    (advance s src st).k = (if st.offset + st.k < src.length then st.k else st.k - 1) ∧
      ((advance s src st).s1, (advance s src st).s2) = (if st.offset + st.k < src.length then
        rollIn (zget src (st.offset + st.k)) (rollOut st.k (zget src st.offset) (st.s1, st.s2))
        else rollOut st.k (zget src st.offset) (st.s1, st.s2)) := by
  unfold advance
  dsimp only
  split_ifs <;> exact ⟨rfl, rfl⟩

/-- `backup` is the distance to `last_match`, which may be a byte ahead. -/
theorem backup_eq {st : Search} (hlast : st.lastMatch ≤ st.offset + 1)
    (hdist : st.offset - st.lastMatch < 2 ^ 31) :
    max 0 (int32 ((st.offset : ℤ) - st.lastMatch)) = ((st.offset - st.lastMatch : ℕ) : ℤ) := by
  rcases Nat.lt_or_ge st.offset st.lastMatch with hlt | hge
  · have heq : (st.offset : ℤ) - st.lastMatch = -1 := by omega
    rw [heq, show st.offset - st.lastMatch = 0 by omega]
    decide
  · rw [int32_sub hge hdist]
    omega

/-- Early or not, the step to the next offset leaves `last_match` not far behind. -/
theorem advance_near {st : Search} (hlast : st.lastMatch ≤ st.offset + 1)
    (hdist : st.offset - st.lastMatch < 2 ^ 31)
    (hnear : (st.offset : ℤ) - st.lastMatch ≤
      s.head.blength + chunkSize + max 0 (st.offset + chunkSize - searchEnd s src)) :
    (advance s src st).lastMatch ≤ st.offset + 1 ∧
      (st.offset : ℤ) + 1 - (advance s src st).lastMatch ≤ s.head.blength + chunkSize +
        max 0 ((st.offset : ℤ) + 1 + chunkSize - searchEnd s src) ∧
      (st.offset : ℤ) + 1 - (advance s src st).lastMatch ≤
        max ((s.head.blength : ℤ) + 1) (st.offset + 1 - st.lastMatch) := by
  have hback := backup_eq hlast hdist
  have hch : (0 : ℤ) < chunkSize := by norm_num
  unfold advance
  dsimp only
  rw [hback]
  by_cases hflush : (s.head.blength + chunkSize : ℤ) ≤ ((st.offset - st.lastMatch : ℕ) : ℤ) ∧
      searchEnd s src - st.offset > chunkSize
  · rw [if_pos hflush]
    simp only [matched, Option.elim_none, add_zero]
    refine ⟨?_, ?_, ?_⟩
    all_goals omega
  · rw [if_neg hflush]
    dsimp only
    have h₂ : (s.head.blength : ℤ) + chunkSize ≤ ((st.offset - st.lastMatch : ℕ) : ℤ) →
        searchEnd s src - st.offset ≤ chunkSize := fun h₁ => by
      by_contra hc
      exact hflush ⟨h₁, by omega⟩
    omega

/-- What the loop leaves behind at its end. -/
structure Done (file : Bytes) (s : SumStruct) (src : Bytes) (updating : Bool) (st : Search) :
    Prop where
  sent : Sent file s src updating st
  dist : src.length - st.lastMatch < 2 ^ 31

/-- **The step to the next offset.** -/
theorem advance_ok (hof : s.Of strong file) (hcount : 0 < s.head.count) {st : Search}
    (h : Ready file s src updating st) :
    (advance s src st).offset = st.offset + 1 ∧
    (((advance s src st).offset : ℤ) < searchEnd s src →
      SearchOk file s src updating (advance s src st)) ∧
    (searchEnd s src ≤ (advance s src st).offset → Done file s src updating (advance s src st)) := by
  have hb := hof.blength_pos
  have hlt := h.lt
  have hk : st.k = min s.head.blength (src.length - st.offset) := h.k_eq
  have hkpos : 0 < st.k := by omega
  have hdist := h.dist
  have hlast := h.last_le
  have hroll := rolled_advance hkpos src.length h.rolled
  have hbl := s.head.blength_le
  have hbl' : oldMaxBlockSize = 2 ^ 29 := rfl
  have hch : chunkSize = 2 ^ 15 := by norm_num
  -- the last block has at least a byte
  have hend : searchEnd s src ≤ src.length ∧ (src.length : ℤ) - s.head.blength < searchEnd s src := by
    have h₁ := hof.len_pos (s.head.count - 1)
    have h₂ := s.head.len_le (s.head.count - 1)
    have h₃ : (s.buf (s.head.count - 1)).len = s.head.len (s.head.count - 1) := by
      rw [hof.buf_eq (by omega)]
    unfold searchEnd
    rw [h₃]
    omega
  set st' := advance s src st with hst'
  have hnear := advance_near h.last_le (h.dist_lt (by omega)) h.near
  rw [← hst'] at hnear
  obtain ⟨k₂, k₃, k₄⟩ := hnear
  -- early or not, what has been sent is right
  have k₁ : Sent file s src updating st' := by
    have hback := backup_eq h.last_le (h.dist_lt (n := st.offset) (by omega))
    have hsent : ∀ (a b : UInt32) (k : ℕ),
        Sent file s src updating { st with s1 := a, s2 := b, k := k } := fun _ _ _ =>
      ⟨h.sent.decode_eq, h.sent.ok, h.sent.wf, h.sent.summed, h.sent.le⟩
    rw [hst']
    unfold advance
    dsimp only
    rw [hback]
    by_cases hflush : (s.head.blength + chunkSize : ℤ) ≤ ((st.offset - st.lastMatch : ℕ) : ℤ) ∧
        searchEnd s src - st.offset > chunkSize
    · rw [if_pos hflush]
      have hle : st.lastMatch ≤ st.offset - s.head.blength := by omega
      have := (hsent _ _ _).literal (o := st.offset - s.head.blength) hle (by omega)
        (h.dist_lt (by omega))
      exact ⟨this.decode_eq, this.ok, this.wf, this.summed, this.le⟩
    · rw [if_neg hflush]
      have := hsent (if st.offset + st.k < src.length then rollIn (zget src (st.offset + st.k))
        (rollOut st.k (zget src st.offset) (st.s1, st.s2)) else
          rollOut st.k (zget src st.offset) (st.s1, st.s2)).1 (if st.offset + st.k < src.length then
            rollIn (zget src (st.offset + st.k)) (rollOut st.k (zget src st.offset) (st.s1, st.s2))
          else rollOut st.k (zget src st.offset) (st.s1, st.s2)).2
          (if st.offset + st.k < src.length then st.k else st.k - 1)
      exact ⟨this.decode_eq, this.ok, this.wf, this.summed, this.le⟩
  have hoff : st'.offset = st.offset + 1 := rfl
  have hfix : st'.table = st.table ∧ st'.alignedOffset = st.alignedOffset ∧
      st'.alignedI = st.alignedI ∧ st'.sameOffset = st.sameOffset := by
    rw [hst']
    unfold advance
    dsimp only
    split_ifs <;> exact ⟨rfl, rfl, rfl, rfl⟩
  obtain ⟨f₁, f₂, f₃, f₄⟩ := hfix
  obtain ⟨f₅, f₆⟩ : _ ∧ (st'.s1, st'.s2) = _ := advance_window s src st
  refine ⟨hoff, fun hin => ?_, fun hout => ⟨k₁, ?_⟩⟩
  · rw [hoff] at hin
    refine {
      sent := k₁
      lt := by rw [hoff]; omega
      k_eq := ?_
      last_le := by rw [hoff]; omega
      near := by rw [hoff]; push_cast; omega
      inside := Or.inl (by rw [hoff]; exact hin)
      rolled := ?_
      table := by rw [f₁]; exact h.table
      aligned := by rw [f₂, f₃]; exact h.aligned
      aligned_le := by rw [f₂, hoff]; have := h.aligned_le; omega
      same := by rw [f₄]; exact h.same
      behind := by rw [hoff]; exact k₂ }
    · rw [f₅, Search.l, hoff]
      split_ifs <;> omega
    · rw [f₅, hoff]
      have h₁ : st'.s1 = (st'.s1, st'.s2).1 := rfl
      have h₂ : st'.s2 = (st'.s1, st'.s2).2 := rfl
      rw [h₁, h₂, f₆]
      exact hroll
  · rw [hoff] at hout
    push_cast at hout
    omega

variable (strong s src updating) in
/-- `P` holds of the state at the start of every pass of the loop. -/
def EveryPass (P : Search → Prop) : ℕ → Search → Prop
  | 0, _ => True
  | fuel + 1, st =>
    P st ∧
      (((advance s src (tryMatch strong s src updating st)).offset : ℤ) < searchEnd s src →
        EveryPass P fuel (advance s src (tryMatch strong s src updating st)))

/-- **The whole loop**: it ends within the length of the source, if every hop on
    the way is in order. -/
theorem searchLoop_ok (hof : s.Of strong file) (hno : NoCollision strong file s src)
    (hcount : 0 < s.head.count) {P : Search → Prop}
    (hP : ∀ st, SearchOk file s src updating st → P st → HopOk strong file s src updating st) {fuel : ℕ}
    {st : Search} (h : SearchOk file s src updating st) (hfuel : src.length ≤ st.offset + fuel)
    (hpass : EveryPass strong s src updating P fuel st) :
    ∃ st', searchLoop strong s src updating fuel st = some st' ∧ Done file s src updating st' := by
  induction fuel generalizing st with
  | zero => have := h.lt; omega
  | succ fuel ih =>
    obtain ⟨hhop, hnext⟩ := hpass
    obtain ⟨hready, hge⟩ := tryMatch_ready hof hno h (hP st h hhop)
    obtain ⟨hoff, hin, hout⟩ := advance_ok hof hcount hready
    rw [searchLoop]
    split_ifs with hlt
    · exact ih (hin hlt) (by omega) (hnext hlt)
    · exact ⟨_, rfl, hout (not_lt.1 hlt)⟩

theorem buildHashTable_lt (s : SumStruct) : ∀ t, ∀ i ∈ buildHashTable s t, i < s.head.count := by
  suffices h : ∀ (l : List ℕ) (table : ℕ → List ℕ), (∀ i ∈ l, i < s.head.count) →
      (∀ t, ∀ i ∈ table t, i < s.head.count) → ∀ t, ∀ i ∈ l.foldl (fun table i =>
        let sum := splitSum (s.buf i).sum1
        let t := hashEntry s.head.count sum.1 sum.2
        fun t' => if t' = t then i :: table t' else table t') table t, i < s.head.count from
    h _ _ (fun i hi => List.mem_range.1 hi) (by simp)
  intro l
  induction l with
  | nil => exact fun table _ ht => ht
  | cons j l ih =>
    intro table hl ht
    refine ih _ (fun i hi => hl i (by simp [hi])) fun t i hi => ?_
    dsimp only at hi
    split_ifs at hi
    · rcases List.mem_cons.1 hi with rfl | hi
      · exact hl i (by simp)
      · exact ht t i hi
    · exact ht t i hi

/-- The search starts in order. -/
theorem searchInit_ok (hof : s.Of strong file) (hlen : 0 < src.length) :
    SearchOk file s src updating (searchInit s src) := by
  have h₁ : (0 : ℤ) ≤ s.head.blength := Nat.cast_nonneg _
  have h₂ : (0 : ℤ) ≤ chunkSize := by norm_num
  have h₃ := hof.blength_pos
  refine {
    sent := ⟨by simp [searchInit, decode], trivial, by simp [searchInit], by simp [searchInit],
      Nat.zero_le _⟩
    lt := hlen
    k_eq := by simp [searchInit, Search.l, min_comm]
    last_le := Nat.zero_le _
    near := by simp only [searchInit]; omega
    inside := Or.inr le_rfl
    rolled := rolled_splitSum _
    table := buildHashTable_lt s
    aligned := by simp [searchInit, SumHead.offset]
    aligned_le := Nat.zero_le _
    same := by simp [searchInit]
    behind := le_rfl }

/-- The tokens are right, and they stand for the source. -/
structure Transmits (file : Bytes) (s : SumStruct) (src : Bytes) (updating : Bool) (st : Search) :
    Prop where
  decode_eq : decode file s.head st.toks = src
  ok : TokensOk file s src updating 0 st.toks
  wf : ∀ t ∈ st.toks, t.Wf
  summed : st.summed = src

theorem Sent.transmits {st : Search} (h : Sent file s src updating st)
    (hlast : st.lastMatch = src.length) : Transmits file s src updating st := by
  have h₁ := h.decode_eq
  have h₂ := h.summed
  rw [hlast, zslice_self] at h₁ h₂
  exact ⟨h₁, h.ok, h.wf, h₂⟩

/-- **`hash_search` ends and transmits the source**, if every hop to `want_i` is
    in order. -/
theorem hashSearch_ok (hof : s.Of strong file) (hno : NoCollision strong file s src)
    (hcount : 0 < s.head.count) (hlen : 0 < src.length) {P : Search → Prop}
    (hP : ∀ st, SearchOk file s src updating st → P st → HopOk strong file s src updating st)
    (hpass : EveryPass strong s src updating P src.length (searchInit s src)) :
    ∃ st, hashSearch strong s src updating = some st ∧ Transmits file s src updating st := by
  obtain ⟨st, hst, hdone⟩ := searchLoop_ok hof hno hcount hP (searchInit_ok hof hlen) (by omega)
    hpass
  refine ⟨_, by rw [hashSearch, hst]; rfl, ?_⟩
  exact (hdone.sent.literal hdone.sent.le le_rfl hdone.dist).transmits (by simp [matched])

/-- Chunk by chunk, without sums. -/
theorem chunks_ok (file : Bytes) (s : SumStruct) (updating : Bool) (m : ℕ) (hm : chunkSize * m ≤ src.length) :
    let st := (List.range m).foldl (fun st m => matched s src st (chunkSize * (m + 1)) none)
      (searchInit s src)
    Sent file s src updating st ∧ st.lastMatch = chunkSize * m := by
  induction m with
  | zero =>
    refine ⟨⟨by simp [searchInit, decode], trivial, by simp [searchInit], by simp [searchInit],
      Nat.zero_le _⟩, by simp [searchInit]⟩
  | succ m ih =>
    obtain ⟨h₁, h₂⟩ := ih (le_trans (Nat.mul_le_mul_left _ (Nat.le_succ m)) hm)
    have hmul : chunkSize * (m + 1) = chunkSize * m + chunkSize := by ring
    have hch : chunkSize < 2 ^ 31 := by norm_num
    simp only [List.range_succ, List.foldl_append, List.foldl_cons, List.foldl_nil] at h₁ h₂ ⊢
    exact ⟨h₁.literal (by rw [h₂]; omega) hm (by rw [h₂]; omega), by simp [matched]⟩

/-- Without sums, or without data, `match_sums` sends the source as it is. -/
theorem matchSums_chunks (h : ¬ (0 < src.length ∧ 0 < s.head.count)) :
    ∃ st, matchSums strong s src updating = some st ∧ Transmits file s src updating st := by
  have hm : chunkSize * ((src.length - 1) / chunkSize) ≤ src.length :=
    (Nat.mul_div_le _ _).trans (Nat.sub_le _ _)
  obtain ⟨h₁, h₂⟩ := chunks_ok file s updating _ hm
  rw [matchSums, if_neg h]
  refine ⟨_, rfl, (h₁.literal (by rw [h₂]; exact hm) le_rfl ?_).transmits (by simp [matched])⟩
  rw [h₂]
  have := Nat.div_add_mod (src.length - 1) chunkSize
  have := Nat.mod_lt (src.length - 1) (show 0 < chunkSize by norm_num)
  have : chunkSize < 2 ^ 30 := by norm_num
  omega

/-! ### Not updating in place -/

variable (strong file s src) in
/-- Equal truncated strong checksums mean equal data, between the blocks of the
    basis and the pieces of the source. -/
def StrongNoCollision : Prop :=
  ∀ i < s.head.count, ∀ o n, n ≤ s.head.blength → o + n ≤ src.length →
    (strong (zslice src o n)).take s.head.s2length =
      (strong (zslice file (s.head.offset i) (s.head.len i))).take s.head.s2length →
    zslice src o n = zslice file (s.head.offset i) (s.head.len i)

theorem StrongNoCollision.noCollision (h : StrongNoCollision strong file s src) :
    NoCollision strong file s src :=
  fun i hi o ho _ h₂ => (h i hi o _ (s.head.len_le i) ho h₂).symm

/-- Not in place the sums are always those of the bytes at the offset, and strong
    checksums tell lengths apart. -/
theorem hopOk_of_strong (hof : s.Of strong file) (hno : StrongNoCollision strong file s src)
    {st : Search} (h : SearchOk file s src false st) : HopOk strong file s src false st := by
  rintro i hi c rfl ⟨-, hlt, -, -, hs2⟩
  simp only [candidate, Bool.false_eq_true, if_false] at hlt hs2 ⊢
  obtain ⟨-, hkeep, -⟩ := look_spec strong h
  have hl : (look strong s src false st).1.l s src = st.l s src := by rw [hkeep]; rfl
  have hsum : packSum (look strong s src false st).1.s1 (look strong s src false st).1.s2 =
      getChecksum1 (zslice src (look strong s src false st).1.offset (st.l s src)) := by
    rw [hkeep]
    dsimp only
    rw [h.rolled.packSum, h.k_eq]
  rw [hof.sum2Eq_iff hlt, hl] at hs2
  have hfits : (look strong s src false st).1.offset + st.l s src ≤ src.length := by
    have h₁ := h.lt
    have h₂ : st.l s src ≤ src.length - st.offset := Nat.min_le_right _ _
    rw [hkeep]
    dsimp only
    omega
  have heq := hno _ hlt _ _ (Nat.min_le_left _ _) hfits hs2
  have hlen := congrArg List.length heq
  rw [zslice_length, zslice_length] at hlen
  exact Or.inl ⟨by rw [hof.buf_eq hlt]; exact hlen.symm, hsum, by rw [hl]⟩

/-- **`match_sums` transmits the source** when not updating in place. -/
theorem matchSums_ok (hof : 0 < s.head.count → s.Of strong file)
    (hno : StrongNoCollision strong file s src) :
    ∃ st, matchSums strong s src false = some st ∧ Transmits file s src false st := by
  by_cases h : 0 < src.length ∧ 0 < s.head.count
  · rw [matchSums, if_pos h]
    refine hashSearch_ok (hof h.2) hno.noCollision h.2 h.1 (P := fun _ => True)
      (fun st hst _ => hopOk_of_strong (hof h.2) hno hst) ?_
    generalize src.length = fuel
    generalize searchInit s src = st
    induction fuel generalizing st with
    | zero => trivial
    | succ fuel ih => exact ⟨trivial, fun _ => ih _⟩
  · exact matchSums_chunks h

end Search

end CloudEdgeBackup
