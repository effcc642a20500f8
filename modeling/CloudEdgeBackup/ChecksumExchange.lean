/-
  The checksums of a basis on the wire: `sum_sizes_sqroot`, `write_sum_head` and
  `generate_and_send_sums` in the generator, `read_sum_head` and `receive_sums` in
  the sender.

  * `sumSizesSqroot` chooses the block length and the length of the strong sums; both
    are within what `read_sum_head` accepts (`blockLength_bounds`, `s2Length_le`);
  * `generateAndSendSums` is what is written, `receiveSumsFrom` reads it;
  * `Tiles` says what a received `sum_struct` is to be.  In the append modes only the
    header is sent, and the sender works the length of the basis out of it.
-/
import CloudEdgeBackup.Checksum
import CloudEdgeBackup.Wire

namespace CloudEdgeBackup

open Codec Zext

/-! ## Block sizes -/

abbrev maxBlockSize : ℕ := 2 ^ 17
abbrev blocksumBias : ℕ := 10

/-- The options the checksums depend on; `--block-size` was checked by the options. -/
structure SumOpts where
  protocolVersion : ℤ
  blockSize : ℕ
  csumLength : ℕ
  /-- `append_mode`: negative in the redo phase. -/
  appendMode : ℤ
  blockSize_le : blockSize ≤ maxBlockSize
  csumLength_le : csumLength ≤ sumLength

/-- `max_blength` -/
def SumOpts.maxBlength (o : SumOpts) : ℕ :=
  if o.protocolVersion < 30 then oldMaxBlockSize else maxBlockSize

/-- `for (c = 1, l = len; l >>= 2; c <<= 1) {}` -/
def rootBit (l c : ℕ) : ℕ := if l / 4 = 0 then c else rootBit (l / 4) (c * 2)
termination_by l

/-- The loop that sets the bits of the square root, down to a multiple of 8. -/
def rootLoop (len c blength : ℕ) : ℕ :=
  let with_c := blength ||| c
  let blength := if len < with_c * with_c then with_c.ldiff c else with_c
  if 8 ≤ c / 2 then rootLoop len (c / 2) blength else blength
termination_by c

/-- The block length for a file of length `len`. -/
def blockLength (o : SumOpts) (len : ℕ) : ℕ :=
  if o.blockSize ≠ 0 then o.blockSize
  else if len ≤ defaultBlockSize * defaultBlockSize then defaultBlockSize
  else
    let c := rootBit len 1
    if int32 c < 0 ∨ (o.maxBlength : ℤ) ≤ int32 c then o.maxBlength
    else max (rootLoop len c 0) defaultBlockSize

/-- `for (l = len; l >>= 1; b += 2) {}` -/
def biasUp (l b : ℕ) : ℕ := if l / 2 = 0 then b else biasUp (l / 2) (b + 2)
termination_by l

/-- `for (c = blength; (c >>= 1) && b; b--) {}` -/
def biasDown (c b : ℕ) : ℕ := if c / 2 = 0 ∨ b = 0 then b else biasDown (c / 2) (b - 1)
termination_by c

/-- The length of the strong sums for a file of length `len`. -/
def s2Length (o : SumOpts) (len : ℕ) : ℕ :=
  if o.protocolVersion < 27 then o.csumLength
  else if o.csumLength = sumLength then sumLength
  else
    let b := biasDown (blockLength o len) (biasUp len blocksumBias)
    -- add a bit, subtract rollsum, round up.
    min (max (Int.tdiv ((b : ℤ) + 1 - 32 + 7) 8).toNat o.csumLength) sumLength

theorem defaultBlockSize_le (o : SumOpts) : defaultBlockSize ≤ o.maxBlength := by
  unfold SumOpts.maxBlength
  split_ifs <;> decide

theorem maxBlength_le (o : SumOpts) : o.maxBlength ≤ oldMaxBlockSize := by
  unfold SumOpts.maxBlength
  split_ifs <;> decide

theorem maxBlength_eq_pow (o : SumOpts) : ∃ m, o.maxBlength = 2 ^ m := by
  unfold SumOpts.maxBlength
  split_ifs
  · exact ⟨29, rfl⟩
  · exact ⟨17, rfl⟩

/-- The loop sets no bit above the one it starts with. -/
theorem rootLoop_lt {m len c blength : ℕ} (hc : c < 2 ^ m) (hb : blength < 2 ^ m) :
    rootLoop len c blength < 2 ^ m := by
  have hstep {c blength : ℕ} (hc : c < 2 ^ m) (hb : blength < 2 ^ m) :
      (if len < (blength ||| c) * (blength ||| c) then (blength ||| c).ldiff c else blength ||| c) < 2 ^ m := by
    have hor : blength ||| c < 2 ^ m := Nat.or_lt_two_pow hb hc
    split_ifs
    · refine Nat.lt_pow_two_of_testBit _ fun i hi => ?_
      rw [Nat.testBit_ldiff, Nat.testBit_lt_two_pow (hor.trans_le (Nat.pow_le_pow_right two_pos hi))]
      rfl
    · exact hor
  fun_induction rootLoop len c blength with
  | case1 c blength with_c blength' hc8 ih =>
    exact ih (lt_of_le_of_lt (Nat.div_le_self _ _) hc) (hstep hc hb)
  | case2 c blength with_c blength' hc8 => exact hstep hc hb

/-- The first bit is at most the square root. -/
theorem rootBit_mul_self_le {l c : ℕ} (hl : 0 < l) : rootBit l c * rootBit l c ≤ c * c * l := by
  fun_induction rootBit l c with
  | case1 l c h => exact Nat.le_mul_of_pos_right _ hl
  | case2 l c h ih =>
    have hdiv : 4 * (l / 4) ≤ l := Nat.mul_div_le l 4
    calc rootBit (l / 4) (c * 2) * rootBit (l / 4) (c * 2)
        ≤ c * 2 * (c * 2) * (l / 4) := ih (Nat.pos_of_ne_zero h)
      _ = c * c * (4 * (l / 4)) := by ring
      _ ≤ c * c * l := Nat.mul_le_mul_left _ hdiv

/-- **The block length is one the receiver of the header accepts.** -/
theorem blockLength_bounds (o : SumOpts) {len : ℕ} (hlen : len < 2 ^ 63) :
    0 < blockLength o len ∧ blockLength o len ≤ o.maxBlength := by
  have hdef := defaultBlockSize_le o
  have hmaxBlock : maxBlockSize ≤ o.maxBlength := by
    unfold SumOpts.maxBlength
    split_ifs <;> decide
  unfold blockLength
  split_ifs with hopt hsmall
  · exact ⟨Nat.pos_of_ne_zero hopt, o.blockSize_le.trans hmaxBlock⟩
  · exact ⟨by decide, hdef⟩
  · dsimp only
    split_ifs with hbig
    · exact ⟨lt_of_lt_of_le (by decide) hdef, le_rfl⟩
    · refine ⟨lt_of_lt_of_le (by decide : 0 < defaultBlockSize) (le_max_right _ _), max_le ?_ hdef⟩
      obtain ⟨hpos, hlt⟩ := not_or.1 hbig
      have hsq : rootBit len 1 * rootBit len 1 ≤ len := by
        have := @rootBit_mul_self_le len 1 (by omega)
        omega
      have hc32 : rootBit len 1 < 2 ^ 32 := by
        by_contra hge
        have := Nat.mul_le_mul (not_lt.1 hge) (not_lt.1 hge)
        omega
      obtain ⟨m, hm⟩ := maxBlength_eq_pow o
      have hc : rootBit len 1 < 2 ^ m := by
        rw [← hm]
        rw [int32] at hpos hlt
        rw [Int.bmod_def] at hpos hlt
        have := maxBlength_le o
        omega
      rw [hm]
      exact (rootLoop_lt hc (Nat.two_pow_pos m)).le

theorem blockLength_le (o : SumOpts) {len : ℕ} (hlen : len < 2 ^ 63) :
    0 < blockLength o len ∧ blockLength o len ≤ oldMaxBlockSize :=
  ⟨(blockLength_bounds o hlen).1, (blockLength_bounds o hlen).2.trans (maxBlength_le o)⟩

theorem s2Length_le (o : SumOpts) (len : ℕ) : s2Length o len ≤ maxDigestLen := by
  unfold s2Length
  split_ifs
  · exact o.csumLength_le
  · exact le_rfl
  · exact min_le_right _ _

/-! ## The writer -/

/-- `sum_sizes_sqroot`; `none` is a length or a count that does not fit. -/
def sumSizesSqroot (o : SumOpts) (len : ℤ) : Option SumHead :=
  if h : 0 ≤ len ∧ len.toNat < 2 ^ 63 then
    sumSizes (blockLength o len.toNat) (s2Length o len.toNat) len.toNat (blockLength_le o h.2)
      (s2Length_le o len.toNat)
  else none

/-- `write_sum_head` -/
def writeSumHead (o : SumOpts) (head : SumHead) : Bytes :=
  writeInt head.count ++ writeInt head.blength ++
    (if 27 ≤ o.protocolVersion then writeInt head.s2length else []) ++ writeInt head.remainder

/-- `write_int(f_out, sum1); write_buf(f_out, sum2, sum.s2length);` -/
def writeSum (p : UInt32 × Bytes) : Bytes := writeInt p.1.toInt32.toInt ++ p.2

/-- The blocks the loop of `generate_and_send_sums` maps. -/
def mapBlocks (file : Bytes) (head : SumHead) : ℕ → ℕ → ℕ → List Bytes
  | 0, _, _ => []
  | n + 1, offset, len =>
    let n1 := min len head.blength
    zslice file offset n1 :: mapBlocks file head n (offset + n1) (len - n1)

/-- `generate_and_send_sums`: what is written to `f_out`, and what to `f_copy` where
    there is one.  `none` is a file that is too large. -/
def generateAndSendSums (strong : Bytes → Bytes) (o : SumOpts) (fCopy : Bool) (file : Bytes)
    (len : ℤ) : Option (Bytes × Bytes) := do
  let head ← sumSizesSqroot o len
  let sent := writeSumHead o head
  if 0 < o.appendMode ∧ ¬ fCopy then some (sent, [])
  else
    let copied := if fCopy then (mapBlocks file head head.count 0 len.toNat).flatten else []
    let sums := if 0 < o.appendMode then []
      else (sendSums strong file head head.count 0 len.toNat).flatMap writeSum
    some (sent ++ sums, copied)

/-! ## The reader -/

/-- What `read_sum_head` checks. -/
structure HeadOk (o : SumOpts) (count blength s2length remainder : ℤ) : Prop where
  count_ok : 0 ≤ count ∧ count.toNat < 2 ^ 31
  blength_ok : 0 ≤ blength ∧ blength ≤ o.maxBlength
  s2length_ok : 0 ≤ s2length ∧ s2length ≤ maxDigestLen
  remainder_ok : 0 ≤ remainder ∧ remainder ≤ blength

section Head

variable {o : SumOpts} {count blength s2length remainder : ℤ}

theorem headOk_iff : HeadOk o count blength s2length remainder ↔
    (0 ≤ count ∧ count.toNat < 2 ^ 31) ∧ (0 ≤ blength ∧ blength ≤ o.maxBlength) ∧
      (0 ≤ s2length ∧ s2length ≤ maxDigestLen) ∧ 0 ≤ remainder ∧ remainder ≤ blength := by
  constructor
  · rintro ⟨h₁, h₂, h₃, h₄⟩
    exact ⟨h₁, h₂, h₃, h₄⟩
  · rintro ⟨h₁, h₂, h₃, h₄⟩
    exact ⟨h₁, h₂, h₃, h₄⟩

instance : Decidable (HeadOk o count blength s2length remainder) := decidable_of_iff _ headOk_iff.symm

theorem HeadOk.blength_le (h : HeadOk o count blength s2length remainder) :
    blength.toNat ≤ oldMaxBlockSize := by
  have := maxBlength_le o
  have := h.blength_ok
  omega

theorem HeadOk.remainder_le (h : HeadOk o count blength s2length remainder) :
    remainder.toNat ≤ blength.toNat := Int.toNat_le_toNat h.remainder_ok.2

theorem HeadOk.s2length_le (h : HeadOk o count blength s2length remainder) :
    s2length.toNat ≤ maxDigestLen := by
  have := h.s2length_ok
  omega

end Head

/-- The header with these values, if they pass the checks. -/
def checkSumHead (o : SumOpts) (count blength s2length remainder : ℤ) : In SumHead :=
  if h : HeadOk o count blength s2length remainder then
    pure ⟨count.toNat, blength.toNat, remainder.toNat, s2length.toNat, h.count_ok.2, h.blength_le,
      h.remainder_le, h.s2length_le⟩
  else abort

/-- `protocol_version < 27 ? csum_length : (int)read_int(f)` -/
def readS2length (o : SumOpts) : In ℤ :=
  if o.protocolVersion < 27 then pure (o.csumLength : ℤ) else readInt

/-- `read_sum_head` -/
def readSumHead (o : SumOpts) : In SumHead := do
  let count ← readInt
  let blength ← readInt
  let s2length ← readS2length o
  let remainder ← readInt
  checkSumHead o count blength s2length remainder

/-- The `sum_struct` of `receive_sums`; `flength` is not set for no blocks. -/
structure ReceivedSums where
  head : SumHead
  sums : List SumBuf
  flength : Option ℤ

/-- The loop of `receive_sums` over `n` blocks, with the final `offset`. -/
def readSums (head : SumHead) : ℕ → ℕ → ℕ → In (List SumBuf × ℕ)
  | 0, _, offset => pure ([], offset)
  | n + 1, i, offset => do
    let sum1 ← readInt
    let sum2 ← getN head.s2length
    let r ← readSums head n (i + 1) (offset + head.len i)
    pure (⟨offset, head.len i, (Int32.ofInt sum1).toUInt32, sum2⟩ :: r.1, r.2)

/-- `receive_sums` -/
def receiveSumsFrom (o : SumOpts) : In ReceivedSums := do
  let head ← readSumHead o
  if 0 < o.appendMode then pure ⟨head, [], some head.flength⟩
  else if head.count = 0 then pure ⟨head, [], none⟩
  else do
    let r ← readSums head head.count 0 0
    pure ⟨head, r.1, some r.2⟩

/-! ## The header -/

section Sizes

variable {o : SumOpts} {len : ℤ} {head : SumHead}

theorem sumSizesSqroot_eq (h : sumSizesSqroot o len = some head) :
    0 ≤ len ∧ head.count = blockCount head.blength len.toNat ∧ head.remainder = len.toNat % head.blength ∧
      head.s2length = s2Length o len.toNat ∧ 0 < head.blength ∧ head.blength ≤ o.maxBlength ∧
      head.Cuts len.toNat := by
  unfold sumSizesSqroot at h
  by_cases hlen : 0 ≤ len ∧ len.toNat < 2 ^ 63
  swap
  · rw [dif_neg hlen] at h; cases h
  rw [dif_pos hlen] at h
  have hcuts := sumSizes_cuts h
  unfold sumSizes at h
  by_cases hc : blockCount (blockLength o len.toNat) len.toNat < 2 ^ 31
  swap
  · rw [dif_neg hc] at h; cases h
  rw [dif_pos hc] at h
  cases h
  exact ⟨hlen.1, rfl, rfl, rfl, (blockLength_bounds o hlen.2).1, (blockLength_bounds o hlen.2).2, hcuts⟩

theorem isInt32_natCast {n : ℕ} (h : n < 2 ^ 31) : IsInt32 n := by
  unfold IsInt32; omega

/-- A header that passes the checks comes back as it was. -/
theorem reads_writeSumHead (hok : HeadOk o head.count head.blength head.s2length head.remainder)
    (hs2 : o.protocolVersion < 27 → head.s2length = o.csumLength) :
    Reads (readSumHead o) (writeSumHead o head) head := by
  have hble := head.blength_le
  have hs2le := head.s2length_le
  have hremle := head.remainder_le
  have hcount : IsInt32 head.count := isInt32_natCast head.count_lt
  have hblength : IsInt32 head.blength := isInt32_natCast (by simp only [oldMaxBlockSize] at hble; omega)
  have hs2length : IsInt32 head.s2length := isInt32_natCast (by simp only [maxDigestLen] at hs2le; omega)
  have hremainder : IsInt32 head.remainder := isInt32_natCast (by simp only [oldMaxBlockSize] at hble; omega)
  have hdone : Reads (checkSumHead o head.count head.blength head.s2length head.remainder) [] head := by
    rw [checkSumHead, dif_pos hok]
    exact Reads.pure head
  have hfields : Reads (readS2length o)
      (if 27 ≤ o.protocolVersion then writeInt head.s2length else []) head.s2length := by
    rw [readS2length]
    by_cases hv : o.protocolVersion < 27
    · rw [if_pos hv, if_neg (not_le.2 hv), hs2 hv]
      exact Reads.pure _
    · rw [if_neg hv, if_pos (not_lt.1 hv)]
      exact reads_int hs2length
  unfold readSumHead writeSumHead
  rw [List.append_assoc, List.append_assoc]
  exact (reads_int hcount).bind ((reads_int hblength).bind (hfields.bind
    ((reads_int hremainder).bind_nil hdone)))

/-- **The header is accepted** and comes back as it was. -/
theorem reads_sumHead (h : sumSizesSqroot o len = some head) :
    Reads (readSumHead o) (writeSumHead o head) head := by
  obtain ⟨-, -, -, hs2, -, hble, -⟩ := sumSizesSqroot_eq h
  have hs2le := head.s2length_le
  have hremle := head.remainder_le
  have hcountlt := head.count_lt
  refine reads_writeSumHead ⟨by omega, by omega, by omega, by omega⟩ fun hv => ?_
  rw [hs2, s2Length, if_pos hv]

/-- The blocks before block `n` are as long as `n` full blocks, or the whole file. -/
theorem sum_len (h : sumSizesSqroot o len = some head) {n : ℕ} (hn : n ≤ head.count) :
    ((List.range n).map head.len).sum = min (n * head.blength) len.toNat := by
  obtain ⟨-, -, -, -, -, -, hcuts⟩ := sumSizesSqroot_eq h
  induction n with
  | zero => simp
  | succ n ih =>
    have hlen := hcuts.len_eq n (by omega)
    rw [List.range_succ, List.map_append, List.sum_append, ih (by omega), List.map_singleton,
      List.sum_singleton, ← hlen, SumHead.offset, Nat.succ_mul]
    omega

/-- All blocks are the file. -/
theorem sum_len_count (h : sumSizesSqroot o len = some head) :
    ((List.range head.count).map head.len).sum = len.toNat := by
  obtain ⟨-, hcount, -, -, hpos, -, -⟩ := sumSizesSqroot_eq h
  have hcover : len.toNat ≤ head.count * head.blength := by
    have hdm := Nat.div_add_mod len.toNat head.blength
    have hmod := Nat.mod_lt len.toNat hpos
    rw [hcount, blockCount, Nat.add_mul, Nat.mul_comm (len.toNat / head.blength)]
    split_ifs with hrem <;> omega
  rw [sum_len h le_rfl, min_eq_right hcover]

/-- Where a block starts, the blocks before it end. -/
theorem offset_eq_sum (h : sumSizesSqroot o len = some head) {i : ℕ} (hi : i < head.count) :
    head.offset i = ((List.range i).map head.len).sum := by
  obtain ⟨-, -, -, -, -, -, hcuts⟩ := sumSizesSqroot_eq h
  have hfull : ∀ j ∈ List.range i, head.len j = head.blength := fun j hj =>
    hcuts.len_full j (by have := List.mem_range.1 hj; omega)
  rw [List.map_congr_left hfull, List.map_const', List.sum_replicate, List.length_range, smul_eq_mul]
  rfl

/-- The length the append mode works out of the header. -/
theorem flength_eq (h : sumSizesSqroot o len = some head) : head.flength = len := by
  obtain ⟨hlen, hcount, hrem, -, hpos, -, -⟩ := sumSizesSqroot_eq h
  have hmod := Nat.mod_lt len.toNat hpos
  have hdm : (head.blength : ℤ) * (len.toNat / head.blength : ℕ) + (len.toNat % head.blength : ℕ) = len := by
    rw [← Int.toNat_of_nonneg hlen]
    exact_mod_cast Nat.div_add_mod len.toNat head.blength
  rw [SumHead.flength, hcount, blockCount, hrem]
  split_ifs with h0
  · push_cast at hdm ⊢
    linarith [mul_comm (head.blength : ℤ) (len.toNat / head.blength)]
  · rw [not_not] at h0
    rw [h0] at hdm
    push_cast at hdm ⊢
    linarith [mul_comm (head.blength : ℤ) (len.toNat / head.blength)]

end Sizes

/-! ## The sums -/

/-- **The sums are read as they were written**; the reader works out the blocks. -/
theorem reads_sums (head : SumHead) {wire : List (UInt32 × Bytes)}
    (hwire : ∀ p ∈ wire, p.2.length = head.s2length) (i offset : ℕ) :
    Reads (readSums head wire.length i offset) (wire.flatMap writeSum)
      (receiveSums head i offset wire,
        offset + ((List.range wire.length).map fun j => head.len (i + j)).sum) := by
  induction wire generalizing i offset with
  | nil => exact Reads.pure _
  | cons p wire ih =>
    have hsum1 : Reads readInt (writeInt p.1.toInt32.toInt) p.1.toInt32.toInt :=
      reads_int ⟨p.1.toInt32.le_toInt, p.1.toInt32.toInt_lt⟩
    have hsum2 : Reads (getN head.s2length) p.2 p.2 :=
      reads_getN_of_length (hwire p List.mem_cons_self)
    have hrest := ih (fun q hq => hwire q (List.mem_cons_of_mem _ hq)) (i + 1) (offset + head.len i)
    have hback : (Int32.ofInt p.1.toInt32.toInt).toUInt32 = p.1 := by
      rw [Int32.ofInt_toInt, UInt32.toUInt32_toInt32]
    have htotal : offset + ((List.range (p :: wire).length).map fun j => head.len (i + j)).sum =
        offset + head.len i + ((List.range wire.length).map fun j => head.len (i + 1 + j)).sum := by
      rw [List.length_cons, List.range_succ_eq_map, List.map_cons, List.sum_cons, List.map_map,
        Nat.add_assoc]
      simp [Function.comp_def, Nat.add_comm, Nat.add_left_comm]
    rw [List.flatMap_cons, writeSum, List.append_assoc, List.length_cons, readSums]
    refine hsum1.bind (hsum2.bind (hrest.bind_nil ?_))
    rw [hback, ← htotal, receiveSums]
    exact Reads.pure _

/-! ## The exchange -/

/-- The blocks of a received `sum_struct`, as offset and length: in the append modes
    they are only in the header. -/
def ReceivedSums.blocks (o : SumOpts) (r : ReceivedSums) : List (ℕ × ℕ) :=
  if 0 < o.appendMode then (List.range r.head.count).map fun i => (r.head.offset i, r.head.len i)
  else r.sums.map fun b => (b.offset, b.len)

/-- **The blocks tile a basis** of length `len`, and the sums are theirs. -/
structure Tiles (strong : Bytes → Bytes) (o : SumOpts) (file : Bytes) (len : ℤ) (r : ReceivedSums) :
    Prop where
  count_eq : (r.blocks o).length = r.head.count
  /-- The offsets start at 0 and are consecutive. -/
  offset_eq : ∀ i (h : i < (r.blocks o).length),
    (r.blocks o)[i].1 = (((r.blocks o).take i).map Prod.snd).sum
  len_eq : ∀ i (h : i < (r.blocks o).length), (r.blocks o)[i].2 =
    if i + 1 = r.head.count ∧ r.head.remainder ≠ 0 then r.head.remainder else r.head.blength
  total_eq : (((r.blocks o).map Prod.snd).sum : ℤ) = len
  /-- `receive_sums` does not set the length where it returns without a block. -/
  flength_eq : 0 < o.appendMode ∨ 0 < len → r.flength = some len
  sum_eq : ∀ b ∈ r.sums, b.sum1 = getChecksum1 (zslice file b.offset b.len) ∧
    b.sum2 = (strong (zslice file b.offset b.len)).take r.head.s2length
  /-- Without an append mode there is a sum for every block. -/
  sums_length : r.sums.length = if 0 < o.appendMode then 0 else r.head.count

section Exchange

variable {strong : Bytes → Bytes} {o : SumOpts} {file : Bytes} {len : ℤ} {head : SumHead}

/-- The blocks the header stands for tile the basis. -/
theorem tiles_of_blocks (h : sumSizesSqroot o len = some head) {r : ReceivedSums} (hhead : r.head = head)
    (hblocks : r.blocks o = (List.range head.count).map fun i => (head.offset i, head.len i))
    (hflength : 0 < o.appendMode ∨ 0 < len → r.flength = some len)
    (hsum : ∀ b ∈ r.sums, b.sum1 = getChecksum1 (zslice file b.offset b.len) ∧
      b.sum2 = (strong (zslice file b.offset b.len)).take r.head.s2length)
    (hlength : r.sums.length = if 0 < o.appendMode then 0 else r.head.count) :
    Tiles strong o file len r := by
  subst hhead
  have hlen : (r.blocks o).length = r.head.count := by rw [hblocks, List.length_map, List.length_range]
  refine ⟨hlen, fun i hi => ?_, fun i hi => ?_, ?_, hflength, hsum, hlength⟩
  · have hi' : i < r.head.count := hlen ▸ hi
    simp only [hblocks, List.getElem_map, List.getElem_range, ← List.map_take, List.map_map,
      List.take_range, min_eq_left hi'.le]
    exact offset_eq_sum h hi'
  · simp only [hblocks, List.getElem_map, List.getElem_range]
    rfl
  · rw [hblocks, List.map_map]
    change (((List.range r.head.count).map r.head.len).sum : ℤ) = len
    rw [sum_len_count h, Int.toNat_of_nonneg (sumSizesSqroot_eq h).1]

/-- The strong sums on the wire have the length the header says. -/
theorem sendSums_sum2_length (hstrong : ∀ b, (strong b).length = sumLength) (n offset rest : ℕ) :
    ∀ p ∈ sendSums strong file head n offset rest, p.2.length = head.s2length := by
  induction n generalizing offset rest with
  | zero => exact fun p hp => absurd hp List.not_mem_nil
  | succ n ih =>
    intro p hp
    rcases List.mem_cons.1 hp with rfl | hp
    · exact List.length_take_of_le ((hstrong _).symm ▸ head.s2length_le)
    · exact ih _ _ p hp

/-- The options of a redo phase. -/
def redoOpts : SumOpts := ⟨30, 0, sumLength, 0, by decide, le_rfl⟩

/-- The MD5 of the byte 97, whatever the block. -/
def md5OfA (_ : Bytes) : Bytes :=
  [0x0c, 0xc1, 0x75, 0xb9, 0xc0, 0xf1, 0xb6, 0xa8, 0x31, 0xc3, 0x99, 0xe2, 0x69, 0x77, 0x26, 0x61]

end Exchange

end CloudEdgeBackup
