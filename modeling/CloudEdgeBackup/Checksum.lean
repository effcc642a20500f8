/-
  Block checksums (`checksum.c`, and their exchange between the generator and
  the sender).

  * `getChecksum1` is the rolling checksum with its loop unrolled by four;
    `rollOut`, `rollIn` are the two updates by which `hash_search` moves the
    window by a byte, and `Rolled` says what the two halves `s1`, `s2` must be:
    the sums of the window modulo 2^16 (`Rolled.rollOut`, `Rolled.rollIn`);
  * the strong checksum is a parameter `strong`;
  * `buildSums` is `generate_and_send_sums` followed by `receive_sums`, and
    `SumStruct.Of` says whose blocks a `sum_struct` describes.
-/
import CloudEdgeBackup.FileIO

namespace CloudEdgeBackup

open Zext

/-! ## The rolling checksum -/

/-- A byte as a `signed char`, widened to the `uint32` it is added to. -/
def schar (b : UInt8) : UInt32 := b.toInt8.toInt32.toUInt32

/-- The two loops of `get_checksum1`. -/
def checksum1Loop (s1 s2 : UInt32) : Bytes → UInt32 × UInt32
  | b0 :: b1 :: b2 :: b3 :: b4 :: buf =>
    checksum1Loop
      (s1 + (schar b0 + schar b1 + schar b2 + schar b3 + 4 * charOffset))
      (s2 + (4 * (s1 + schar b0) + 3 * schar b1 + 2 * schar b2 + schar b3 + 10 * charOffset))
      (b4 :: buf)
  | b0 :: buf =>
    checksum1Loop (s1 + (schar b0 + charOffset)) (s2 + (s1 + (schar b0 + charOffset))) buf
  | [] => (s1, s2)

/-- `get_checksum1` -/
def getChecksum1 (buf : Bytes) : UInt32 :=
  let r := checksum1Loop 0 0 buf
  (r.1 &&& (0xffff : UInt32)) + (r.2 <<< 16)

/-- `sum & 0xFFFF`, `sum >> 16` -/
def splitSum (sum : UInt32) : UInt32 × UInt32 := (sum &&& (0xffff : UInt32), sum >>> 16)

/-- `(s1 & 0xffff) | (s2 << 16)` -/
def packSum (s1 s2 : UInt32) : UInt32 := (s1 &&& (0xffff : UInt32)) ||| (s2 <<< 16)

/-- The two sums of a window. -/
def sums : Bytes → UInt32 × UInt32
  | [] => (0, 0)
  | b :: w => ((sums w).1 + schar b, (sums w).2 + UInt32.ofNat (w.length + 1) * schar b)

theorem sums_append (w : Bytes) (b : UInt8) :
    sums (w ++ [b]) = ((sums w).1 + schar b, (sums w).2 + ((sums w).1 + schar b)) := by
  induction w with
  | nil => simp [sums]
  | cons c w ih =>
    simp only [List.cons_append, sums, ih, List.length_append, List.length_singleton,
      UInt32.ofNat_add]
    ext1 <;> simp only <;> grind

/-- The unrolled loop adds the sums of the buffer. -/
theorem checksum1Loop_eq (s1 s2 : UInt32) (buf : Bytes) :
    checksum1Loop s1 s2 buf =
      (s1 + (sums buf).1, s2 + UInt32.ofNat buf.length * s1 + (sums buf).2) := by
  induction s1, s2, buf using checksum1Loop.induct with
  | case1 s1 s2 b0 b1 b2 b3 b4 buf ih =>
    rw [checksum1Loop, ih]
    simp only [sums, List.length_cons, UInt32.ofNat_add, charOffset]
    ext1 <;> simp only <;> grind
  | case2 s1 s2 b0 buf h ih =>
    rw [checksum1Loop.eq_2 _ _ _ _ h, ih]
    simp only [sums, List.length_cons, UInt32.ofNat_add, charOffset]
    ext1 <;> simp only <;> grind
  | case3 s1 s2 => simp [checksum1Loop, sums]

theorem getChecksum1_eq (buf : Bytes) :
    getChecksum1 buf = ((sums buf).1 &&& (0xffff : UInt32)) + ((sums buf).2 <<< 16) := by
  simp [getChecksum1, checksum1Loop_eq]

theorem and_toNat (a : UInt32) : (a &&& (0xffff : UInt32)).toNat = a.toNat % 2 ^ 16 := by
  rw [UInt32.toNat_and]
  exact Nat.and_two_pow_sub_one_eq_mod a.toNat 16

theorem shiftLeft_toNat (a : UInt32) : (a <<< 16).toNat = a.toNat % 2 ^ 16 * 2 ^ 16 := by
  rw [UInt32.toNat_shiftLeft]
  simp only [Nat.shiftLeft_eq, UInt32.reduceToNat, Nat.reduceMod]
  omega

theorem shiftRight_toNat (a : UInt32) : (a >>> 16).toNat = a.toNat / 2 ^ 16 := by
  rw [UInt32.toNat_shiftRight]
  simp [Nat.shiftRight_eq_div_pow]

theorem toUInt16_eq_iff {a b : UInt32} :
    a.toUInt16 = b.toUInt16 ↔ a.toNat % 2 ^ 16 = b.toNat % 2 ^ 16 := by
  rw [← UInt16.toNat_inj, UInt32.toNat_toUInt16, UInt32.toNat_toUInt16]

/-- `s1`, `s2` are the sums of the window as far as the checksum goes. -/
structure Rolled (w : Bytes) (s1 s2 : UInt32) : Prop where
  s1_eq : s1.toUInt16 = (sums w).1.toUInt16
  s2_eq : s2.toUInt16 = (sums w).2.toUInt16

/-- The checksum of the window from the rolled sums. -/
theorem Rolled.packSum {w : Bytes} {s1 s2 : UInt32} (h : Rolled w s1 s2) :
    packSum s1 s2 = getChecksum1 w := by
  have h₁ := toUInt16_eq_iff.1 h.s1_eq
  have h₂ := toUInt16_eq_iff.1 h.s2_eq
  rw [getChecksum1_eq, ← UInt32.toNat_inj, CloudEdgeBackup.packSum, UInt32.toNat_or,
    UInt32.toNat_add, and_toNat, shiftLeft_toNat, and_toNat, shiftLeft_toNat, ← h₁, ← h₂,
    Nat.or_comm, ← Nat.shiftLeft_eq, ← Nat.shiftLeft_add_eq_or_of_lt (Nat.mod_lt _ (by norm_num)),
    Nat.shiftLeft_eq]
  omega

theorem getChecksum1_toNat (w : Bytes) : (getChecksum1 w).toNat =
    (sums w).1.toNat % 2 ^ 16 + (sums w).2.toNat % 2 ^ 16 * 2 ^ 16 := by
  rw [getChecksum1_eq, UInt32.toNat_add, and_toNat, shiftLeft_toNat]
  omega

/-- The two halves of a checksum are rolled sums. -/
theorem rolled_splitSum (w : Bytes) :
    Rolled w (splitSum (getChecksum1 w)).1 (splitSum (getChecksum1 w)).2 := by
  have h := getChecksum1_toNat w
  constructor
  · rw [toUInt16_eq_iff, splitSum, and_toNat, h]
    omega
  · rw [toUInt16_eq_iff, splitSum, shiftRight_toNat, h]
    omega

/-- The first byte of the window goes out. -/
def rollOut (k : ℕ) (b : UInt8) (s : UInt32 × UInt32) : UInt32 × UInt32 :=
  (s.1 - (schar b + charOffset), s.2 - UInt32.ofNat k * (schar b + charOffset))

/-- A byte comes in behind the window. -/
def rollIn (b : UInt8) (s : UInt32 × UInt32) : UInt32 × UInt32 :=
  (s.1 + (schar b + charOffset), s.2 + (s.1 + (schar b + charOffset)))

theorem Rolled.rollOut {b : UInt8} {w : Bytes} {s : UInt32 × UInt32} (h : Rolled (b :: w) s.1 s.2) :
    Rolled w (rollOut (w.length + 1) b s).1 (rollOut (w.length + 1) b s).2 := by
  obtain ⟨h₁, h₂⟩ := h
  simp only [sums, UInt32.toUInt16_add, UInt32.toUInt16_mul] at h₁ h₂
  constructor
  · simp only [CloudEdgeBackup.rollOut, charOffset, UInt32.add_zero, UInt32.toUInt16_sub, h₁]
    grind
  · simp only [CloudEdgeBackup.rollOut, charOffset, UInt32.add_zero, UInt32.toUInt16_sub, h₂,
      UInt32.toUInt16_mul]
    grind

theorem Rolled.rollIn {b : UInt8} {w : Bytes} {s : UInt32 × UInt32} (h : Rolled w s.1 s.2) :
    Rolled (w ++ [b]) (rollIn b s).1 (rollIn b s).2 := by
  obtain ⟨h₁, h₂⟩ := h
  constructor
  · simp only [CloudEdgeBackup.rollIn, sums_append, charOffset, UInt32.add_zero, UInt32.toUInt16_add, h₁]
  · simp only [CloudEdgeBackup.rollIn, sums_append, charOffset, UInt32.add_zero, UInt32.toUInt16_add, h₁, h₂]

/-! ## The sums of a file -/

/-- `sum_buf`, without the chain and the flags of the sender's search. -/
structure SumBuf where
  offset : ℕ
  len : ℕ
  sum1 : UInt32
  sum2 : Bytes
  deriving DecidableEq, Repr

/-- The number of blocks of a file of length `len`. -/
def blockCount (blength len : ℕ) : ℕ := len / blength + if len % blength ≠ 0 then 1 else 0

/-- `sum_sizes_sqroot`, once it has chosen the block length and the length of
    the strong checksum: how a file of length `len` is cut.  `none` is a count
    that does not fit. -/
def sumSizes (blength s2length len : ℕ) (hb : 0 < blength ∧ blength ≤ oldMaxBlockSize)
    (hs : s2length ≤ maxDigestLen) : Option SumHead :=
  if h : blockCount blength len < 2 ^ 31 then
    some ⟨blockCount blength len, blength, len % blength, s2length, h, hb.2, (Nat.mod_lt _ hb.1).le, hs⟩
  else none

/-- The loop of `generate_and_send_sums` over `n` blocks: what goes over the wire. -/
def sendSums (strong : Bytes → Bytes) (file : Bytes) (head : SumHead) :
    ℕ → ℕ → ℕ → List (UInt32 × Bytes)
  | 0, _, _ => []
  | n + 1, offset, len =>
    let n1 := min len head.blength
    let map := zslice file offset n1
    (getChecksum1 map, (strong map).take head.s2length) ::
      sendSums strong file head n (offset + n1) (len - n1)

/-- The loop of `receive_sums`. -/
def receiveSums (head : SumHead) : ℕ → ℕ → List (UInt32 × Bytes) → List SumBuf
  | i, offset, (sum1, sum2) :: wire =>
    ⟨offset, head.len i, sum1, sum2⟩ :: receiveSums head (i + 1) (offset + head.len i) wire
  | _, _, [] => []

/-- `sum_struct` -/
structure SumStruct where
  head : SumHead
  sums : List SumBuf

/-- `generate_and_send_sums` on a file of stated length `len`, received by
    `receive_sums`.  The file is read through `map_ptr`, so with zeros past its
    end. -/
def buildSums (strong : Bytes → Bytes) (file : Bytes) (head : SumHead) (len : ℕ) : SumStruct :=
  ⟨head, receiveSums head 0 0 (sendSums strong file head head.count 0 len)⟩

/-- The sums are those of the blocks of `file`. -/
structure SumStruct.Of (strong : Bytes → Bytes) (file : Bytes) (s : SumStruct) : Prop where
  blength_pos : 0 < s.head.blength
  length_eq : s.sums.length = s.head.count
  get_eq : ∀ i (h : i < s.sums.length), s.sums[i] =
    let block := zslice file (s.head.offset i) (s.head.len i)
    ⟨s.head.offset i, s.head.len i, getChecksum1 block, (strong block).take s.head.s2length⟩

theorem sendSums_length (strong : Bytes → Bytes) (file : Bytes) (head : SumHead) (n offset len : ℕ) :
    (sendSums strong file head n offset len).length = n := by
  induction n generalizing offset len with
  | zero => rfl
  | succ n ih => simp [sendSums, ih]

theorem receiveSums_length (head : SumHead) (i offset : ℕ) (wire : List (UInt32 × Bytes)) :
    (receiveSums head i offset wire).length = wire.length := by
  induction wire generalizing i offset with
  | nil => rfl
  | cons p wire ih => simp [receiveSums, ih]

/-- The blocks of a file of length `len` cover it, and only the last is shorter. -/
structure SumHead.Cuts (head : SumHead) (len : ℕ) : Prop where
  blength_pos : 0 < head.blength
  len_eq : ∀ i < head.count, min (len - head.offset i) head.blength = head.len i
  len_full : ∀ i, i + 1 < head.count → head.len i = head.blength

theorem sumSizes_cuts {blength s2length len : ℕ} {hb : 0 < blength ∧ blength ≤ oldMaxBlockSize}
    {hs : s2length ≤ maxDigestLen} {head : SumHead}
    (h : sumSizes blength s2length len hb hs = some head) : head.Cuts len := by
  unfold sumSizes at h
  by_cases hc : blockCount blength len < 2 ^ 31
  swap
  · rw [dif_neg hc] at h; cases h
  rw [dif_pos hc] at h
  cases h
  have hdm := Nat.div_add_mod len blength
  have hmod := Nat.mod_lt len hb.1
  refine ⟨hb.1, fun i hi => ?_, fun i hi => ?_⟩
  · simp only [SumHead.offset, SumHead.len] at hi ⊢
    have hcount : blockCount blength len = len / blength + if len % blength = 0 then 0 else 1 := by
      unfold blockCount; split_ifs <;> simp_all
    -- block `i` is followed by `j` full blocks and the remainder
    obtain ⟨j, hj⟩ : ∃ j, len / blength = i + j :=
      Nat.exists_eq_add_of_le (by split_ifs at hcount <;> omega)
    have hmul : blength * (len / blength) = i * blength + j * blength := by rw [hj]; ring
    rcases Nat.eq_zero_or_pos j with rfl | hjpos
    · have hr : len % blength ≠ 0 := fun h0 => by rw [if_pos h0] at hcount; omega
      rw [if_neg hr] at hcount
      rw [if_pos ⟨by omega, hr⟩]
      omega
    · have hle : blength ≤ j * blength := Nat.le_mul_of_pos_left _ hjpos
      rw [if_neg]
      · omega
      · rintro ⟨h₁, h₂⟩
        rw [if_neg h₂] at hcount
        omega
  · simp only [SumHead.len] at hi ⊢
    rw [if_neg (by omega)]

theorem receiveSums_sendSums (strong : Bytes → Bytes) (file : Bytes) {head : SumHead} {len : ℕ}
    (hcut : head.Cuts len) {n i : ℕ} (hn : i + n = head.count) (j : ℕ)
    (hj : j < (receiveSums head i (head.offset i)
      (sendSums strong file head n (head.offset i) (len - head.offset i))).length) :
    (receiveSums head i (head.offset i)
      (sendSums strong file head n (head.offset i) (len - head.offset i)))[j] =
      let block := zslice file (head.offset (i + j)) (head.len (i + j))
      ⟨head.offset (i + j), head.len (i + j), getChecksum1 block,
        (strong block).take head.s2length⟩ := by
  induction n generalizing i j with
  | zero => simp [receiveSums_length, sendSums_length] at hj
  | succ n ih =>
    have hlen := hcut.len_eq i (by omega)
    cases j with
    | zero => simp only [sendSums, receiveSums, hlen, List.getElem_cons_zero, Nat.add_zero]
    | succ j =>
      have hj' : j < n := by simpa [receiveSums_length, sendSums_length] using hj
      have hfull := hcut.len_full i (by omega)
      have hoff : head.offset i + head.len i = head.offset (i + 1) := by
        rw [hfull]; simp only [SumHead.offset]; ring
      simp only [sendSums, receiveSums, List.getElem_cons_succ, hlen, Nat.sub_sub, hoff]
      have := ih (i := i + 1) (by omega) j (by simpa [receiveSums_length, sendSums_length] using hj')
      rw [this, show i + 1 + j = i + (j + 1) by omega]

/-- **The sums that arrive at the sender** are those of the blocks of the file. -/
theorem buildSums_of (strong : Bytes → Bytes) (file : Bytes) {head : SumHead} {len : ℕ}
    (hcut : head.Cuts len) : (buildSums strong file head len).Of strong file := by
  refine ⟨hcut.blength_pos, by simp [buildSums, receiveSums_length, sendSums_length], fun i hi => ?_⟩
  have h0 : head.offset 0 = 0 := by simp [SumHead.offset]
  have := receiveSums_sendSums strong file hcut (i := 0) (n := head.count) (by omega) i
  simp only [h0, Nat.sub_zero, Nat.zero_add] at this
  exact this hi

end CloudEdgeBackup
