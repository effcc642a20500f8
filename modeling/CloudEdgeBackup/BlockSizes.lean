/-
  The block size of a basis for every `--block-size`: `sum_sizes_sqroot` (`generator.c`) and
  the check of `parse_arguments` (`options.c`).

  * `sumSizesSqroot64` is `sum_sizes_sqroot` with `block_size` as the `long` it is: the check
    lets negative values through, whose low 32 bits become the block length;
  * without the option the block length is the largest multiple of 8 that is not above the
    square root, within bounds (`blockLength_root`);
  * `Sized` is what the sizes have to be.  `sizesRight_iff`: for every length they are,
    exactly where those low bits are a length that the peer accepts.
-/
import CloudEdgeBackup.ChecksumExchange

namespace CloudEdgeBackup

open Codec

/-! ## The square root -/

/-- The first bit is the power of two at the square root. -/
theorem rootBit_spec {l c : ℕ} (hl : 0 < l) : ∃ k, rootBit l c = c * 2 ^ k ∧ 4 ^ k ≤ l ∧ l < 4 ^ (k + 1) := by
  fun_induction rootBit l c with
  | case1 l c h => exact ⟨0, by omega, by omega, by omega⟩
  | case2 l c h ih =>
    obtain ⟨k, heq, hle, hlt⟩ := ih (Nat.pos_of_ne_zero h)
    refine ⟨k + 1, ?_, ?_, ?_⟩
    · rw [heq, pow_succ]
      ring
    · rw [pow_succ]
      omega
    · rw [pow_succ] at hlt ⊢
      omega

theorem or_two_pow {k b : ℕ} (hb : 2 ^ (k + 1) ∣ b) : b ||| 2 ^ k = b + 2 ^ k := by
  obtain ⟨q, rfl⟩ := hb
  exact (Nat.two_pow_add_eq_or_of_lt (Nat.pow_lt_pow_right one_lt_two (Nat.lt_succ_self k)) q).symm

theorem ldiff_two_pow {k b : ℕ} (hb : 2 ^ (k + 1) ∣ b) : (b + 2 ^ k).ldiff (2 ^ k) = b := by
  rw [← or_two_pow hb]
  obtain ⟨q, rfl⟩ := hb
  refine Nat.eq_of_testBit_eq fun i => ?_
  rw [Nat.testBit_ldiff, Nat.testBit_or, Nat.testBit_two_pow, Nat.testBit_two_pow_mul]
  by_cases hi : k = i
  · subst hi
    simp
  · simp [hi]

/-- **The loop sets the bits of the square root** down to the multiple of 8; `b` are the bits
    that are set already. -/
theorem rootLoop_spec {len k b : ℕ} (hk : 3 ≤ k) (hb : 2 ^ (k + 1) ∣ b) (hle : b * b ≤ len)
    (hlt : len < (b + 2 ^ (k + 1)) * (b + 2 ^ (k + 1))) :
    8 ∣ rootLoop len (2 ^ k) b ∧ rootLoop len (2 ^ k) b * rootLoop len (2 ^ k) b ≤ len ∧
      len < (rootLoop len (2 ^ k) b + 8) * (rootLoop len (2 ^ k) b + 8) := by
  induction k, hk using Nat.le_induction generalizing b with
  | base =>
    have hstop : ¬8 ≤ 2 ^ 3 / 2 := by decide
    have h8 : 8 ∣ b := dvd_trans (by decide) hb
    rw [rootLoop]
    simp only [if_neg hstop, or_two_pow hb, ldiff_two_pow hb]
    split_ifs with hbit
    · exact ⟨h8, hle, by simpa using hbit⟩
    · refine ⟨?_, not_lt.1 hbit, ?_⟩
      · omega
      · have hsum : b + 2 ^ 3 + 8 = b + 2 ^ (3 + 1) := by omega
        rwa [hsum]
  | succ k hk ih =>
    have hhalf : 2 ^ (k + 1) / 2 = 2 ^ k := by
      rw [pow_succ]
      omega
    have hgo : 8 ≤ 2 ^ k := Nat.pow_le_pow_right two_pos hk
    have hdvd : 2 ^ (k + 1) ∣ b := dvd_trans (pow_dvd_pow 2 (Nat.le_succ _)) hb
    rw [rootLoop]
    simp only [hhalf, if_pos hgo, or_two_pow hb, ldiff_two_pow hb]
    split_ifs with hbit
    · exact ih hdvd hle hbit
    · refine ih (hdvd.add (dvd_refl _)) (not_lt.1 hbit) ?_
      have hsum : b + 2 ^ (k + 1) + 2 ^ (k + 1) = b + 2 ^ (k + 1 + 1) := by
        rw [pow_succ 2 (k + 1)]
        ring
      rwa [hsum]

/-- The multiples of 8 that are not above the square root. -/
def rootMultiples (len : ℕ) : Set ℕ := {m | 8 ∣ m ∧ m * m ≤ len}

theorem isGreatest_rootMultiples {len m : ℕ} (hdvd : 8 ∣ m) (hle : m * m ≤ len) (hlt : len < (m + 8) * (m + 8)) :
    IsGreatest (rootMultiples len) m := by
  refine ⟨⟨hdvd, hle⟩, ?_⟩
  rintro n ⟨hn, hnle⟩
  have hnm : n < m + 8 := Nat.mul_self_lt_mul_self_iff.1 (hnle.trans_lt hlt)
  omega

theorem exists_rootMultiple (len : ℕ) : ∃ m, IsGreatest (rootMultiples len) m := by
  refine ⟨8 * (Nat.sqrt len / 8), isGreatest_rootMultiples (Dvd.intro _ rfl) ?_ ?_⟩
  · have hle : 8 * (Nat.sqrt len / 8) ≤ Nat.sqrt len := Nat.mul_div_le _ 8
    exact (Nat.mul_le_mul hle hle).trans (Nat.sqrt_le len)
  · have hlt : Nat.sqrt len + 1 ≤ 8 * (Nat.sqrt len / 8) + 8 := by omega
    exact (Nat.lt_succ_sqrt len).trans_le (Nat.mul_le_mul hlt hlt)

/-- **The block length of the square root**: the largest multiple of 8 that is not above it,
    at least 700 and at most the protocol's bound. -/
theorem blockLength_root {o : SumOpts} (hopt : o.blockSize = 0) {len : ℕ} (hlen : len < 2 ^ 63) :
    ∃ m, IsGreatest (rootMultiples len) m ∧ blockLength o len = max defaultBlockSize (min m o.maxBlength) := by
  have hdef := defaultBlockSize_le o
  rw [blockLength, if_neg (not_not.2 hopt)]
  by_cases hsmall : len ≤ defaultBlockSize * defaultBlockSize
  · obtain ⟨m, hm⟩ := exists_rootMultiple len
    have hle : m ≤ defaultBlockSize := Nat.mul_self_le_mul_self_iff.1 (hm.1.2.trans hsmall)
    exact ⟨m, hm, by rw [if_pos hsmall, max_eq_left ((min_le_left _ _).trans hle)]⟩
  rw [if_neg hsmall]
  have hpos : 0 < len := by omega
  obtain ⟨k, hk, hle, hlt⟩ := @rootBit_spec len 1 hpos
  rw [one_mul] at hk
  have hsq : ∀ n : ℕ, 2 ^ n * 2 ^ n = 4 ^ n := fun n => by rw [← Nat.mul_pow]
  have hk31 : k ≤ 31 := by
    by_contra hgt
    have : 4 ^ 32 ≤ 4 ^ k := Nat.pow_le_pow_right (by decide) (by omega)
    omega
  have hk8 : 9 ≤ k := by
    by_contra hgt
    have : 4 ^ (k + 1) ≤ 4 ^ 9 := Nat.pow_le_pow_right (by decide) (by omega)
    simp only [defaultBlockSize] at hsmall
    omega
  simp only [hk]
  obtain ⟨b, hb⟩ := maxBlength_eq_pow o
  have hbmax := maxBlength_le o
  have hb29 : b ≤ 29 := by
    rw [hb] at hbmax
    exact (Nat.pow_le_pow_iff_right one_lt_two).1 hbmax
  -- the first bit as an `int32`: the last power of two is negative
  have hbig : (int32 (2 ^ k : ℕ) < 0 ∨ (o.maxBlength : ℤ) ≤ int32 (2 ^ k : ℕ)) ↔ b ≤ k := by
    rcases Nat.lt_or_ge k 31 with hk' | hk'
    · have hlt : 2 ^ k < 2 ^ 31 := Nat.pow_lt_pow_right one_lt_two hk'
      rw [hb, int32_of_lt hlt, Nat.cast_le, Nat.pow_le_pow_iff_right one_lt_two,
        or_iff_right (Int.not_lt.2 (Int.natCast_nonneg _))]
    · obtain rfl : k = 31 := by omega
      exact iff_of_true (.inl (by decide)) (by omega)
  obtain ⟨m, hm⟩ := exists_rootMultiple len
  refine ⟨m, hm, ?_⟩
  by_cases hbk : b ≤ k
  · -- the square root is at least the bound, which is a multiple of 8
    rw [if_pos (hbig.2 hbk)]
    have hb3 : 3 ≤ b := by
      by_contra hlt
      have : 2 ^ b ≤ 2 ^ 2 := Nat.pow_le_pow_right two_pos (by omega)
      rw [hb] at hdef
      simp only [defaultBlockSize] at hdef
      omega
    have hmem : o.maxBlength ∈ rootMultiples len := by
      rw [hb]
      refine ⟨(Nat.pow_dvd_pow_iff_le_right (by decide : 1 < 2)).2 hb3, ?_⟩
      calc 2 ^ b * 2 ^ b ≤ 2 ^ k * 2 ^ k := Nat.mul_le_mul (Nat.pow_le_pow_right two_pos hbk) (Nat.pow_le_pow_right two_pos hbk)
        _ = 4 ^ k := hsq k
        _ ≤ len := hle
    rw [min_eq_right (hm.2 hmem), max_eq_right hdef]
  · rw [if_neg (fun h => hbk (hbig.1 h))]
    obtain ⟨hdvd, hsqle, hsqlt⟩ := @rootLoop_spec len k 0 (by omega) (dvd_zero _) (by omega)
      (by rw [zero_add, hsq]; exact hlt)
    have heq : m = rootLoop len (2 ^ k) 0 := hm.unique (isGreatest_rootMultiples hdvd hsqle hsqlt)
    have hmmax : m ≤ o.maxBlength := by
      refine Nat.mul_self_le_mul_self_iff.1 (hm.1.2.trans ?_)
      rw [hb, hsq]
      exact hlt.le.trans (Nat.pow_le_pow_right (by decide) (by omega))
    rw [min_eq_left hmmax, ← heq, max_comm]

/-! ## `sum_sizes_sqroot` -/

theorem zero_le_maxBlockSize : 0 ≤ maxBlockSize := Nat.zero_le _

/-- The options `sum_sizes_sqroot` reads: `block_size` is a `long`. -/
structure SizeOpts where
  protocolVersion : ℤ
  blockSize : ℤ
  csumLength : ℕ
  csumLength_le : csumLength ≤ sumLength

namespace SizeOpts

variable (o : SizeOpts)

/-- The check of `parse_arguments`. -/
def letThrough : Bool := ¬(maxBlockSize : ℤ) < o.blockSize

/-- The same options without `--block-size`. -/
def plain : SumOpts := ⟨o.protocolVersion, 0, o.csumLength, 0, zero_le_maxBlockSize, o.csumLength_le⟩

/-- `max_blength` -/
def maxBlength : ℕ := o.plain.maxBlength

/-- `blength = block_size`, or the square root. -/
def blength (len : ℕ) : ℤ := if o.blockSize ≠ 0 then int32 o.blockSize else blockLength o.plain len

end SizeOpts

/-- `for (c = blength; (c >>= 1) && b; b--) {}`: the shift keeps the sign. -/
def biasDownInt : ℤ → ℕ → ℕ
  | _, 0 => 0
  | c, b + 1 => if c / 2 = 0 then b + 1 else biasDownInt (c / 2) b

/-- `s2length` for a block length. -/
def SizeOpts.s2length (o : SizeOpts) (blength : ℤ) (len : ℕ) : ℤ :=
  if o.protocolVersion < 27 then o.csumLength
  else if o.csumLength = sumLength then sumLength
  else
    let b := biasDownInt blength (biasUp len blocksumBias)
    -- add a bit, subtract rollsum, round up.
    min (max (Int.tdiv ((b : ℤ) + 1 - 32 + 7) 8) o.csumLength) sumLength

/-- `struct sum_struct` without its sums. -/
structure SumSizes where
  flength : ℤ
  blength : ℤ
  s2length : ℤ
  remainder : ℤ
  count : ℤ
deriving DecidableEq

/-- `sum_sizes_sqroot`; `none` is a division by zero. -/
def sumSizesSqroot64 (o : SizeOpts) (sum : SumSizes) (len : ℤ) : Option SumSizes :=
  if len < 0 then some { sum with count := -1 }
  else
    let blength := o.blength len.toNat
    if blength = 0 then none
    else
      let remainder := int32 (Int.tmod len blength)
      let l := Int.tdiv len blength + if remainder ≠ 0 then 1 else 0
      let count := int32 l
      some ⟨len, blength, o.s2length blength len.toNat, remainder, if count ≠ l then -1 else count⟩

/-- `write_sum_head` -/
def SumSizes.write (o : SizeOpts) (sum : SumSizes) : Bytes :=
  writeInt sum.count ++ writeInt sum.blength ++
    (if 27 ≤ o.protocolVersion then writeInt sum.s2length else []) ++ writeInt sum.remainder

/-! ## What the sizes have to be -/

/-- The same header at the receiver. -/
structure SumSizes.Arrives (sum : SumSizes) (head : SumHead) : Prop where
  count : (head.count : ℤ) = sum.count
  blength : (head.blength : ℤ) = sum.blength
  s2length : (head.s2length : ℤ) = sum.s2length
  remainder : (head.remainder : ℤ) = sum.remainder

/-- The peer that runs the same protocol; before 27 both have the length of the strong sums
    from their own side. -/
structure SizeOpts.Peer (o : SizeOpts) (peer : SumOpts) : Prop where
  protocolVersion : peer.protocolVersion = o.protocolVersion
  csumLength : o.protocolVersion < 27 → peer.csumLength = o.csumLength

/-- The sizes cut a file of length `len`. -/
structure Sized (o : SizeOpts) (len : ℤ) (sum : SumSizes) : Prop where
  blength : 1 ≤ sum.blength ∧ sum.blength ≤ o.maxBlength
  covers : sum.count * sum.blength -
    (if sum.remainder ≠ 0 then sum.blength - sum.remainder else 0) = len
  remainder : 0 ≤ sum.remainder ∧ sum.remainder < sum.blength
  s2length : 27 ≤ o.protocolVersion → (o.csumLength : ℤ) ≤ sum.s2length ∧ sum.s2length ≤ 16
  root : o.blockSize = 0 → ∃ m, IsGreatest (rootMultiples len.toNat) m ∧
    sum.blength = max 700 (min m o.maxBlength : ℕ)
  accepted : ∀ peer, o.Peer peer → ∃ head, Reads (readSumHead peer) (sum.write o) head ∧ sum.Arrives head

/-- **For every length** the sizes are right, or the overflow is reported. -/
def SizesRight (o : SizeOpts) : Prop :=
  ∀ sum len, 0 ≤ len → len < 2 ^ 63 → ∃ sum', sumSizesSqroot64 o sum len = some sum' ∧
    (sum'.count = -1 ∨ Sized o len sum')

section Right

variable {o : SizeOpts} {len : ℤ}

theorem s2length_bounds (o : SizeOpts) (blength : ℤ) (len : ℕ) :
    (o.csumLength : ℤ) ≤ o.s2length blength len ∧ o.s2length blength len ≤ sumLength := by
  have hcsum : (o.csumLength : ℤ) ≤ sumLength := by exact_mod_cast o.csumLength_le
  rw [SizeOpts.s2length]
  split_ifs
  · exact ⟨le_rfl, hcsum⟩
  · exact ⟨hcsum, le_rfl⟩
  · exact ⟨le_min (le_max_right _ _) hcsum, min_le_right _ _⟩

/-- Where the low 32 bits are a length within the bound, so is the block length. -/
theorem blength_bounds (h : o.blockSize = 0 ∨ 1 ≤ int32 o.blockSize ∧ int32 o.blockSize ≤ o.maxBlength)
    (hlen : len < 2 ^ 63) : 1 ≤ o.blength len.toNat ∧ o.blength len.toNat ≤ o.maxBlength := by
  rw [SizeOpts.blength]
  by_cases hopt : o.blockSize = 0
  · rw [if_neg (not_not.2 hopt)]
    obtain ⟨hpos, hle⟩ := blockLength_bounds o.plain (show len.toNat < 2 ^ 63 by omega)
    exact ⟨by omega, by exact_mod_cast hle⟩
  · rw [if_pos hopt]
    exact h.resolve_left hopt

/-- The header of such sizes comes back as it was. -/
theorem accepted_of_bounds {peer : SumOpts} (hpeer : o.Peer peer) {sum : SumSizes}
    (hcount : 0 ≤ sum.count ∧ sum.count < 2 ^ 31) (hble : 1 ≤ sum.blength ∧ sum.blength ≤ o.maxBlength)
    (hrem : 0 ≤ sum.remainder ∧ sum.remainder < sum.blength)
    (hs2 : 0 ≤ sum.s2length ∧ sum.s2length ≤ 16 ∧ (o.protocolVersion < 27 → sum.s2length = o.csumLength)) :
    ∃ head, Reads (readSumHead peer) (sum.write o) head ∧ sum.Arrives head := by
  have hmaxEq : peer.maxBlength = o.maxBlength := by
    rw [SizeOpts.maxBlength, SumOpts.maxBlength, SumOpts.maxBlength, hpeer.protocolVersion]
    rfl
  have hmax : o.maxBlength ≤ 2 ^ 29 := maxBlength_le o.plain
  obtain ⟨count, hc⟩ := Int.eq_ofNat_of_zero_le hcount.1
  obtain ⟨blength, hb⟩ := Int.eq_ofNat_of_zero_le (show 0 ≤ sum.blength by omega)
  obtain ⟨remainder, hr⟩ := Int.eq_ofNat_of_zero_le hrem.1
  obtain ⟨s2length, hs⟩ := Int.eq_ofNat_of_zero_le hs2.1
  rw [hc] at hcount
  rw [hb] at hble hrem
  rw [hr] at hrem
  rw [hs] at hs2
  let head : SumHead := ⟨count, blength, remainder, s2length, by omega,
    by simp only [oldMaxBlockSize]; omega, by omega, by simp only [maxDigestLen]; omega⟩
  have hok : HeadOk peer head.count head.blength head.s2length head.remainder := by
    rw [headOk_iff, hmaxEq]
    simp only [head, maxDigestLen]
    omega
  have hwrite : sum.write o = writeSumHead peer head := by
    rw [SumSizes.write, writeSumHead, hc, hb, hr, hs, hpeer.protocolVersion]
  refine ⟨head, ?_, ⟨hc.symm, hb.symm, hs.symm, hr.symm⟩⟩
  rw [hwrite]
  refine reads_writeSumHead hok fun hv => ?_
  rw [hpeer.protocolVersion] at hv
  rw [hpeer.csumLength hv]
  exact_mod_cast hs2.2.2 hv

theorem sizesRight_of_bounds
    (h : o.blockSize = 0 ∨ 1 ≤ int32 o.blockSize ∧ int32 o.blockSize ≤ o.maxBlength) : SizesRight o := by
  intro sum len hlen hlt
  obtain ⟨hpos, hmax⟩ := blength_bounds h hlt
  have hmax29 : o.maxBlength ≤ 2 ^ 29 := maxBlength_le o.plain
  rw [sumSizesSqroot64, if_neg (not_lt.2 hlen)]
  dsimp only
  set blength := o.blength len.toNat with hblength
  have hmod := Int.emod_nonneg len (show blength ≠ 0 by omega)
  have hmodlt := Int.emod_lt_of_pos len (show 0 < blength by omega)
  have hrem : int32 (Int.tmod len blength) = len % blength := by
    rw [Int.tmod_eq_emod_of_nonneg hlen]
    exact int32_eq (by rw [IsInt32]; omega)
  rw [if_neg (by omega), hrem, Int.tdiv_eq_ediv_of_nonneg hlen]
  refine ⟨_, rfl, ?_⟩
  set l := len / blength + if len % blength ≠ 0 then 1 else 0 with hl
  by_cases hfits : int32 l ≠ l
  · exact .inl (if_pos hfits)
  rw [if_neg hfits, not_not.1 hfits]
  right
  have hdiv := Int.mul_ediv_add_emod len blength
  have hquot : 0 ≤ len / blength := Int.ediv_nonneg hlen (by omega)
  have hl0 : 0 ≤ l := by
    rw [hl]
    split_ifs <;> omega
  have hl31 : l < 2 ^ 31 := by
    rw [not_not, int32, Int.bmod_def] at hfits
    omega
  obtain ⟨hs2, hs2le⟩ := s2length_bounds o blength len.toNat
  simp only [sumLength] at hs2le
  constructor
  · exact ⟨hpos, hmax⟩
  · simp only [hl]
    split_ifs with hzero
    · calc (len / blength + 1) * blength - (blength - len % blength)
          = blength * (len / blength) + len % blength := by ring
        _ = len := hdiv
    · rw [not_not] at hzero
      calc (len / blength + 0) * blength - 0 = blength * (len / blength) + len % blength := by
            rw [hzero]
            ring
        _ = len := hdiv
  · exact ⟨hmod, hmodlt⟩
  · exact fun _ => ⟨hs2, by exact_mod_cast hs2le⟩
  · intro hopt
    obtain ⟨m, hm, hroot⟩ := @blockLength_root o.plain rfl len.toNat (by omega)
    refine ⟨m, hm, ?_⟩
    have heq : blength = blockLength o.plain len.toNat := by
      rw [hblength, SizeOpts.blength, if_neg (not_not.2 hopt)]
    simp only [heq, hroot]
    push_cast
    rfl
  · intro peer hpeer
    refine accepted_of_bounds hpeer ⟨hl0, hl31⟩ ⟨hpos, hmax⟩ ⟨hmod, hmodlt⟩
      ⟨(Int.natCast_nonneg _).trans hs2, by exact_mod_cast hs2le, ?_⟩
    intro hv
    simp only [SizeOpts.s2length, if_pos hv]

/-- **The sizes are right for every length** exactly where there is no `--block-size`, or its
    low 32 bits are a block length that the protocol allows. -/
theorem sizesRight_iff (o : SizeOpts) :
    SizesRight o ↔ o.blockSize = 0 ∨ 1 ≤ int32 o.blockSize ∧ int32 o.blockSize ≤ o.maxBlength := by
  refine ⟨fun h => ?_, sizesRight_of_bounds⟩
  by_contra hbad
  obtain ⟨hopt, hbounds⟩ := not_or.1 hbad
  have hblength : ∀ len, o.blength len = int32 o.blockSize := fun len => if_pos hopt
  have hrange : -2 ^ 31 ≤ int32 o.blockSize ∧ int32 o.blockSize < 2 ^ 31 := by
    rw [int32, Int.bmod_def]
    omega
  rcases lt_trichotomy (int32 o.blockSize) 0 with hneg | hzero | hpos
  · -- a file of two blocks of the length without its sign: their number is -2
    obtain ⟨sum', hrun, hsum'⟩ := h ⟨0, 0, 0, 0, 0⟩ (2 * -int32 o.blockSize) (by omega) (by omega)
    rw [sumSizesSqroot64, if_neg (by omega)] at hrun
    simp only [hblength, if_neg hneg.ne] at hrun
    have hmod : Int.tmod (2 * -int32 o.blockSize) (int32 o.blockSize) = 0 :=
      Int.tmod_eq_zero_of_dvd ((dvd_neg.2 (dvd_refl _)).mul_left 2)
    have hdiv : Int.tdiv (2 * -int32 o.blockSize) (int32 o.blockSize) = -2 := by
      rw [show 2 * -int32 o.blockSize = -2 * int32 o.blockSize by ring]
      exact Int.mul_tdiv_cancel _ hneg.ne
    have hz : int32 0 = 0 := rfl
    have h2 : int32 (-2) = -2 := rfl
    simp only [hmod, hdiv, hz, ne_eq, not_true_eq_false, if_false, add_zero, h2, Option.some_inj] at hrun
    subst hrun
    rcases hsum' with hcount | hsized
    · cases hcount
    · have := hsized.blength.1
      dsimp only at this
      omega
  · obtain ⟨sum', hrun, -⟩ := h ⟨0, 0, 0, 0, 0⟩ 0 le_rfl (by norm_num)
    rw [sumSizesSqroot64, if_neg (lt_irrefl 0)] at hrun
    simp only [hblength, hzero, if_true, reduceCtorEq] at hrun
  · -- an empty file has no blocks, but the length is above the bound
    obtain ⟨sum', hrun, hsum'⟩ := h ⟨0, 0, 0, 0, 0⟩ 0 le_rfl (by norm_num)
    have hz : int32 0 = 0 := rfl
    rw [sumSizesSqroot64, if_neg (lt_irrefl 0)] at hrun
    simp only [hblength, if_neg hpos.ne', Int.zero_tmod, Int.zero_tdiv, hz, ne_eq, not_true_eq_false, if_false,
      add_zero, Option.some_inj] at hrun
    subst hrun
    rcases hsum' with hcount | hsized
    · cases hcount
    · exact hbounds ⟨by omega, hsized.blength.2⟩

/-- What a `--block-size` is meant to be is right. -/
theorem sizesRight_of_nonneg (h : o.letThrough = true) (h₀ : 0 ≤ o.blockSize) : SizesRight o := by
  refine sizesRight_of_bounds ?_
  have hle : o.blockSize ≤ maxBlockSize := not_lt.1 (of_decide_eq_true h)
  have hmax : maxBlockSize ≤ o.maxBlength := by
    rw [SizeOpts.maxBlength, SumOpts.maxBlength]
    split_ifs <;> decide
  simp only [maxBlockSize] at hle hmax
  rcases h₀.eq_or_lt with hzero | hpos
  · exact .inl hzero.symm
  · rw [int32_eq (by rw [IsInt32]; omega)]
    omega

end Right

/-- `--block-size=-5` -/
def negativeBlocks : SizeOpts := ⟨30, -5, 2, by decide⟩

/-- The check lets it through, and a file of 10 bytes has -2 blocks of -5 bytes. -/
theorem not_sizesRight_negative : negativeBlocks.letThrough = true ∧ ¬SizesRight negativeBlocks := by
  refine ⟨by decide, fun h => ?_⟩
  obtain ⟨sum', hrun, hsum'⟩ := h ⟨0, 0, 0, 0, 0⟩ 10 (by norm_num) (by norm_num)
  have hblength : negativeBlocks.blength (Int.toNat 10) = -5 := rfl
  rw [sumSizesSqroot64, if_neg (by decide)] at hrun
  simp only [hblength] at hrun
  cases hrun
  rcases hsum' with hcount | hsized
  · exact absurd hcount (by decide)
  · exact absurd hsized.blength.1 (by decide)

end CloudEdgeBackup
