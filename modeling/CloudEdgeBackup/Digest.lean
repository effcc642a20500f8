/-
  The whole-file digest (`checksum.c`, `lib/mdfour.c`, `lib/md5.c`).

  * `mdfourUpdate`, `md5Update` are the two accumulators, over their rounds
    `mdfour64` and `md5Process`;
  * `sumInit`, `sumUpdate`, `sumEnd` are the functions through which a file is
    summed; `none` is a copy beyond the 64 bytes of a context;
  * `Holds` says what has been summed: the full blocks have gone into the state,
    the rest waits in the buffer.  A call of `sumUpdate` adds its bytes to it,
    wherever it cuts (`Holds.update`);
  * `mdLib` is the library as the whole-file branch takes it, and `sumChunks_eq` says
    that the code computes the `digest` of that branch;
  * `digest_chunks`: the digest depends on the bytes alone.
-/
import CloudEdgeBackup.Lib.Blocks
import CloudEdgeBackup.WholeFile

namespace CloudEdgeBackup

open Blocks Codec

/-! ## The rounds -/

/-- The four words of a hash. -/
structure HashWords where
  A : UInt32
  B : UInt32
  C : UInt32
  D : UInt32
  deriving DecidableEq, Repr

namespace HashWords

/-- `mdfour_begin`, `md5_begin` -/
def begin : HashWords := ⟨0x67452301, 0xefcdab89, 0x98badcfe, 0x10325476⟩

instance : Add HashWords := ⟨fun x y => ⟨x.A + y.A, x.B + y.B, x.C + y.C, x.D + y.D⟩⟩

/-- The words take turns: the one that was changed comes second. -/
def turn (x : HashWords) (a : UInt32) : HashWords := ⟨x.D, a, x.B, x.C⟩

/-- The digest. -/
def bytes (x : HashWords) : Bytes := [x.A, x.B, x.C, x.D].flatMap fun w => leBytes 4 w.toNat

end HashWords

/-- `M[k]`, `X[k]`: word `k` of a block. -/
def word (block : Bytes) (k : ℕ) : UInt32 :=
  UInt32.ofNat (leValue ((block.drop (4 * k)).take 4))

/-- `lshift`, `S` -/
def lshift (x s : UInt32) : UInt32 := (x <<< s) ||| (x >>> (32 - s))

/-- `ROUND1`, `ROUND2`, `ROUND3` -/
def mdfourRound (f : UInt32 → UInt32 → UInt32 → UInt32) (t : UInt32) (block : Bytes) (x : HashWords)
    (ks : ℕ × UInt32) : HashWords :=
  x.turn (lshift (x.A + f x.B x.C x.D + word block ks.1 + t) ks.2)

/-- `mdfour64` -/
def mdfour64 (m : HashWords) (block : Bytes) : HashWords :=
  let r := [(0, 3), (1, 7), (2, 11), (3, 19), (4, 3), (5, 7), (6, 11), (7, 19),
      (8, 3), (9, 7), (10, 11), (11, 19), (12, 3), (13, 7), (14, 11), (15, 19)].foldl
    (mdfourRound (fun X Y Z => (X &&& Y) ||| (~~~X &&& Z)) 0 block) m
  let r := [(0, 3), (4, 5), (8, 9), (12, 13), (1, 3), (5, 5), (9, 9), (13, 13),
      (2, 3), (6, 5), (10, 9), (14, 13), (3, 3), (7, 5), (11, 9), (15, 13)].foldl
    (mdfourRound (fun X Y Z => (X &&& Y) ||| (X &&& Z) ||| (Y &&& Z)) 0x5A827999 block) r
  let r := [(0, 3), (8, 9), (4, 11), (12, 15), (2, 3), (10, 9), (6, 11), (14, 15),
      (1, 3), (9, 9), (5, 11), (13, 15), (3, 3), (11, 9), (7, 11), (15, 15)].foldl
    (mdfourRound (fun X Y Z => X ^^^ Y ^^^ Z) 0x6ED9EBA1 block) r
  r + m

/-- `P` -/
def md5Round (f : UInt32 → UInt32 → UInt32 → UInt32) (block : Bytes) (x : HashWords)
    (kst : ℕ × UInt32 × UInt32) : HashWords :=
  x.turn (lshift (x.A + f x.B x.C x.D + word block kst.1 + kst.2.2) kst.2.1 + x.B)

/-- `md5_process` -/
def md5Process (m : HashWords) (block : Bytes) : HashWords :=
  let r := [(0, 7, 0xD76AA478), (1, 12, 0xE8C7B756), (2, 17, 0x242070DB), (3, 22, 0xC1BDCEEE),
      (4, 7, 0xF57C0FAF), (5, 12, 0x4787C62A), (6, 17, 0xA8304613), (7, 22, 0xFD469501),
      (8, 7, 0x698098D8), (9, 12, 0x8B44F7AF), (10, 17, 0xFFFF5BB1), (11, 22, 0x895CD7BE),
      (12, 7, 0x6B901122), (13, 12, 0xFD987193), (14, 17, 0xA679438E), (15, 22, 0x49B40821)].foldl
    (md5Round (fun x y z => z ^^^ (x &&& (y ^^^ z))) block) m
  let r := [(1, 5, 0xF61E2562), (6, 9, 0xC040B340), (11, 14, 0x265E5A51), (0, 20, 0xE9B6C7AA),
      (5, 5, 0xD62F105D), (10, 9, 0x02441453), (15, 14, 0xD8A1E681), (4, 20, 0xE7D3FBC8),
      (9, 5, 0x21E1CDE6), (14, 9, 0xC33707D6), (3, 14, 0xF4D50D87), (8, 20, 0x455A14ED),
      (13, 5, 0xA9E3E905), (2, 9, 0xFCEFA3F8), (7, 14, 0x676F02D9), (12, 20, 0x8D2A4C8A)].foldl
    (md5Round (fun x y z => y ^^^ (z &&& (x ^^^ y))) block) r
  let r := [(5, 4, 0xFFFA3942), (8, 11, 0x8771F681), (11, 16, 0x6D9D6122), (14, 23, 0xFDE5380C),
      (1, 4, 0xA4BEEA44), (4, 11, 0x4BDECFA9), (7, 16, 0xF6BB4B60), (10, 23, 0xBEBFBC70),
      (13, 4, 0x289B7EC6), (0, 11, 0xEAA127FA), (3, 16, 0xD4EF3085), (6, 23, 0x04881D05),
      (9, 4, 0xD9D4D039), (12, 11, 0xE6DB99E5), (15, 16, 0x1FA27CF8), (2, 23, 0xC4AC5665)].foldl
    (md5Round (fun x y z => x ^^^ y ^^^ z) block) r
  let r := [(0, 6, 0xF4292244), (7, 10, 0x432AFF97), (14, 15, 0xAB9423A7), (5, 21, 0xFC93A039),
      (12, 6, 0x655B59C3), (3, 10, 0x8F0CCC92), (10, 15, 0xFFEFF47D), (1, 21, 0x85845DD1),
      (8, 6, 0x6FA87E4F), (15, 10, 0xFE2CE6E0), (6, 15, 0xA3014314), (13, 21, 0x4E0811A1),
      (4, 6, 0xF7537E82), (11, 10, 0xBD3AF235), (2, 15, 0x2AD7D2BB), (9, 21, 0xEB86D391)].foldl
    (md5Round (fun x y z => y ^^^ (x ||| ~~~z)) block) r
  m + r

/-! ## The accumulators -/

/-- An `md_context` without its buffer: the hash, and the count of what went in. -/
structure MdState extends HashWords where
  totalN : UInt32
  totalN2 : UInt32
  deriving DecidableEq, Repr

/-- `md_context` -/
structure MdContext extends MdState where
  buffer : Bytes
  buffer_length : buffer.length = csumChunk

/-- `mdfour_begin`, `md5_begin` -/
def mdBegin : MdState := ⟨HashWords.begin, 0, 0⟩

namespace MdContext

theorem copy_length (m : MdContext) {off : ℕ} {p : Bytes} (h : off + p.length ≤ csumChunk) :
    (m.buffer.take off ++ p ++ m.buffer.drop (off + p.length)).length = csumChunk := by
  have := m.buffer_length
  simp only [List.length_append, List.length_take, List.length_drop]
  omega

/-- `memcpy(md.buffer + off, p, len)`; `none` is a copy beyond the buffer. -/
def copy (m : MdContext) (off : ℕ) (p : Bytes) : Option MdContext :=
  if h : off + p.length ≤ csumChunk then
    some ⟨m.toMdState, m.buffer.take off ++ p ++ m.buffer.drop (off + p.length), m.copy_length h⟩
  else none

/-- The buffer stays. -/
def withState (m : MdContext) (st : MdState) : MdContext := ⟨st, m.buffer, m.buffer_length⟩

@[simp] theorem withState_toMdState (m : MdContext) (st : MdState) :
    (m.withState st).toMdState = st := rfl

@[simp] theorem withState_buffer (m : MdContext) (st : MdState) :
    (m.withState st).buffer = m.buffer := rfl

end MdContext

/-- A full block of MD4, counted in bits. -/
def mdfourBlock (m : MdState) (block : Bytes) : MdState :=
  let totalN := m.totalN + 512
  ⟨mdfour64 m.toHashWords block, totalN, if totalN < 512 then m.totalN2 + 1 else m.totalN2⟩

section Definitions

variable (protocolVersion : ℤ)

/-- `mdfour_tail`, for less than a block -/
def mdfourTail (m : MdState) (input : Bytes) : MdState :=
  let length := UInt32.ofNat input.length
  let totalN := m.totalN + length <<< 3
  let totalN2 := (if totalN < length <<< 3 then m.totalN2 + 1 else m.totalN2) + length >>> 29
  let count := leBytes 4 totalN.toNat ++
    if 27 ≤ protocolVersion then leBytes 4 totalN2.toNat else List.replicate 4 0
  let pad := fun n => input ++ 0x80 :: List.replicate (n - (input.length + 1)) 0 ++ count
  if input.length ≤ 55 then ⟨mdfour64 m.toHashWords (pad 56), totalN, totalN2⟩
  else
    let buf := pad 120
    ⟨mdfour64 (mdfour64 m.toHashWords (buf.take 64)) (buf.drop 64), totalN, totalN2⟩

/-- `mdfour_update` -/
def mdfourUpdate (m : MdState) (input : Bytes) : MdState :=
  if input = [] then mdfourTail protocolVersion m input
  else
    let r := eachBlock mdfourBlock csumChunk input.length m input
    if r.2 = [] then r.1 else mdfourTail protocolVersion r.1 r.2

/-- `md5_process` on a context -/
def md5Block (m : MdState) (block : Bytes) : MdState :=
  ⟨md5Process m.toHashWords block, m.totalN, m.totalN2⟩

/-- `totalN`, `totalN2` of `md5_update`: the bytes, in 64 bits. -/
def md5Count (m : MdContext) (length : UInt32) : MdContext :=
  let totalN := m.totalN + length
  m.withState ⟨m.toHashWords, totalN, if totalN < length then m.totalN2 + 1 else m.totalN2⟩

/-- `md5_update` -/
def md5Update (m : MdContext) (input : Bytes) : Option MdContext :=
  if input = [] then some m
  else
    let left := (m.totalN &&& (0x3f : UInt32)).toNat
    let fill := csumChunk - left
    let m := md5Count m (UInt32.ofNat input.length)
    if left ≠ 0 ∧ fill ≤ input.length then do
      let m ← m.copy left (input.take fill)
      let r := eachBlock md5Block csumChunk input.length (md5Block m.toMdState m.buffer)
        (input.drop fill)
      (m.withState r.1).copy 0 r.2
    else
      let r := eachBlock md5Block csumChunk input.length m.toMdState input
      (m.withState r.1).copy left r.2

/-- `md5_padding` -/
def md5Padding : Bytes := 0x80 :: List.replicate 63 0

/-- The padding: `padn` bytes, up to where the length goes. -/
def md5Pad (m : MdState) : Bytes :=
  let last := (m.totalN &&& (0x3f : UInt32)).toNat
  md5Padding.take (if last < 56 then 56 - last else 120 - last)

/-- `msglen`: the length in bits. -/
def md5Msglen (m : MdState) : Bytes :=
  let high := (m.totalN >>> 29) ||| (m.totalN2 <<< 3)
  let low := m.totalN <<< 3
  leBytes 4 low.toNat ++ leBytes 4 high.toNat

/-- `md5_result` -/
def md5Result (m : MdContext) : Option Bytes := do
  let msglen := md5Msglen m.toMdState
  let m ← md5Update m (md5Pad m.toMdState)
  let m ← md5Update m msglen
  some m.toHashWords.bytes

end Definitions

/-! ## The digest of a file -/

/-- `parse_csum_name(NULL, 0)`: the kind that goes with the protocol. -/
def parseCsumName (protocolVersion : ℤ) : CsumType :=
  if 30 ≤ protocolVersion then .md5
  else if 27 ≤ protocolVersion then .md4Old
  else if 21 ≤ protocolVersion then .md4Busted
  else .md4Archaic

/-- `cursum_type`, `sumresidue` and `md` -/
structure SumState where
  cursumType : CsumType
  sumresidue : ℕ
  md : MdContext

namespace SumState

variable (protocolVersion : ℤ)

/-- `if (sumresidue)`: the buffer is filled up and goes in; what is left of `p`. -/
def fillUp (st : SumState) (p : Bytes) : Option (MdContext × Bytes) :=
  if st.sumresidue = 0 then some (st.md, p)
  else
    let i := csumChunk - st.sumresidue
    (st.md.copy st.sumresidue (p.take i)).map fun md =>
      (md.withState (mdfourUpdate protocolVersion md.toMdState md.buffer), p.drop i)

/-- `sum_update` on one of the MD4 kinds -/
def mdfourFeed (st : SumState) (p : Bytes) : Option SumState :=
  if int32 ((p.length : ℤ) + st.sumresidue) < csumChunk then
    (st.md.copy st.sumresidue p).map fun md => ⟨st.cursumType, st.sumresidue + p.length, md⟩
  else do
    let q ← fillUp protocolVersion st p
    let r := eachBlock (mdfourUpdate protocolVersion) csumChunk q.2.length q.1.toMdState q.2
    let md ← (q.1.withState r.1).copy 0 r.2
    some ⟨st.cursumType, r.2.length, md⟩

/-- `sum_update` -/
def sumUpdate (st : SumState) (p : Bytes) : Option SumState :=
  match st.cursumType with
  | .md5 => (md5Update st.md p).map fun md => { st with md := md }
  | .md4 | .md4Old | .md4Busted | .md4Archaic => mdfourFeed protocolVersion st p
  | .none => some st

/-- `sum_init`; a negative kind stands for the one of the protocol. -/
def sumInit (st : SumState) (csumType : Option CsumType) (seed : ℤ) : Option SumState :=
  let t := csumType.getD (parseCsumName protocolVersion)
  match t with
  | .md5 => some ⟨t, st.sumresidue, st.md.withState mdBegin⟩
  | .md4 => some ⟨t, 0, st.md.withState mdBegin⟩
  | .md4Old | .md4Busted | .md4Archaic =>
    sumUpdate protocolVersion ⟨t, 0, st.md.withState mdBegin⟩ (sival seed)
  | .none => some ⟨t, st.sumresidue, st.md⟩

/-- `sum_end`: the digest; its length is the one of the kind. -/
def sumEnd (st : SumState) : Option Bytes :=
  let rest := st.md.buffer.take st.sumresidue
  match st.cursumType with
  | .md5 => md5Result st.md
  | .md4 | .md4Old => some (mdfourUpdate protocolVersion st.md.toMdState rest).toHashWords.bytes
  | .md4Busted | .md4Archaic =>
    if st.sumresidue = 0 then some st.md.toHashWords.bytes
    else some (mdfourUpdate protocolVersion st.md.toMdState rest).toHashWords.bytes
  | .none => some [0]

/-- The digest of what `sum_update` is called with, from any earlier state. -/
def sumChunks (st : SumState) (csumType : Option CsumType) (seed : ℤ) (ps : List Bytes) :
    Option Bytes := do
  let st ← sumInit protocolVersion st csumType seed
  let st ← ps.foldlM (sumUpdate protocolVersion) st
  sumEnd protocolVersion st

end SumState

/-! ## What has been summed -/

theorem MdContext.copy_spec (m : MdContext) (off : ℕ) (p : Bytes) (h : off + p.length ≤ csumChunk) :
    ∃ m', m.copy off p = some m' ∧ m'.toMdState = m.toMdState ∧
      m'.buffer.take (off + p.length) = m.buffer.take off ++ p := by
  refine ⟨_, dif_pos h, rfl, ?_⟩
  have hlen : (m.buffer.take off).length = off := by
    rw [List.length_take, m.buffer_length]
    omega
  exact List.take_left' (by rw [List.length_append, hlen])

/-- On a full block `mdfour_update` is the compression. -/
theorem mdfourUpdate_block (protocolVersion : ℤ) (m : MdState) {block : Bytes}
    (h : block.length = csumChunk) : mdfourUpdate protocolVersion m block = mdfourBlock m block := by
  have hne : block ≠ [] := fun hnil => by simp [hnil] at h
  have hfull : feedAll mdfourBlock csumChunk (m, []) block = (mdfourBlock m block, []) :=
    feedAll_full hne (by simpa using h)
  rw [mdfourUpdate, if_neg hne, ← feedAll_eachBlock (by norm_num) le_rfl, hfull]
  rfl

/-- The state of MD4 after the bytes `l`, with those that wait. -/
def mdfourAfter (l : Bytes) : MdState × Bytes := feedAll mdfourBlock csumChunk (mdBegin, []) l

/-- The hash of MD5 after the bytes `l`, with those that wait. -/
def md5After (l : Bytes) : HashWords × Bytes := feedAll md5Process csumChunk (HashWords.begin, []) l

/-- MD4 has been fed with `l`. -/
structure MdfourHolds (l : Bytes) (st : SumState) : Prop where
  state : st.md.toMdState = (mdfourAfter l).1
  rest : st.md.buffer.take st.sumresidue = (mdfourAfter l).2
  residue : st.sumresidue = (mdfourAfter l).2.length

/-- MD5 has been fed with `l`. -/
structure Md5Holds (l : Bytes) (m : MdContext) : Prop where
  chain : m.toHashWords = (md5After l).1
  rest : m.buffer.take (l.length % csumChunk) = (md5After l).2
  low : m.totalN.toNat = l.length % 2 ^ 32
  high : m.totalN2.toNat = l.length / 2 ^ 32 % 2 ^ 32

theorem mdfourAfter_length_lt (l : Bytes) : (mdfourAfter l).2.length < csumChunk :=
  feedAll_length_lt (by norm_num) l

theorem md5After_length (l : Bytes) : (md5After l).2.length = l.length % csumChunk := by
  rw [md5After, feedAll_length (by norm_num), List.length_nil, Nat.zero_add]

section Update

variable (protocolVersion : ℤ) {l p : Bytes}

/-- Filling up the buffer leaves a string that starts with a block. -/
theorem MdfourHolds.fillUp {st : SumState} (h : MdfourHolds l st)
    (hfull : csumChunk ≤ st.sumresidue + p.length) :
    ∃ q, SumState.fillUp protocolVersion st p = some q ∧ feedAll mdfourBlock csumChunk (mdfourAfter l) p =
      eachBlock mdfourBlock csumChunk q.2.length q.1.toMdState q.2 := by
  obtain ⟨hstate, hrest, hres⟩ := h
  have hlt := mdfourAfter_length_lt l
  unfold SumState.fillUp
  by_cases h0 : st.sumresidue = 0
  · rw [if_pos h0]
    have hnil : (mdfourAfter l).2 = [] := List.length_eq_zero_iff.1 (by omega)
    refine ⟨_, rfl, ?_⟩
    rw [hstate, ← feedAll_eachBlock (by norm_num) le_rfl, ← hnil]
  · rw [if_neg h0]
    have htake : (p.take (csumChunk - st.sumresidue)).length = csumChunk - st.sumresidue :=
      List.length_take_of_le (by omega)
    obtain ⟨m', hm', hst', hbuf⟩ := st.md.copy_spec st.sumresidue
      (p.take (csumChunk - st.sumresidue)) (by omega)
    have hblock : mdfourBlock (mdfourAfter l).1
          ((mdfourAfter l).2 ++ p.take (csumChunk - (mdfourAfter l).2.length)) =
        mdfourUpdate protocolVersion m'.toMdState m'.buffer := by
      have hwhole : m'.buffer = (mdfourAfter l).2 ++ p.take (csumChunk - st.sumresidue) := by
        rw [← hrest, ← hbuf, htake]
        exact (List.take_of_length_le (by rw [m'.buffer_length]; omega)).symm
      rw [mdfourUpdate_block protocolVersion _ m'.buffer_length, hwhole, hst', hstate, hres]
    refine ⟨(m'.withState (mdfourUpdate protocolVersion m'.toMdState m'.buffer),
      p.drop (csumChunk - st.sumresidue)), by dsimp only; rw [hm']; rfl, ?_⟩
    change feedAll mdfourBlock csumChunk ((mdfourAfter l).1, (mdfourAfter l).2) p = _
    rw [feedAll_fill hlt (by omega) le_rfl, hblock, hres]
    rfl

/-- **A call of `sum_update` adds its bytes**, on the MD4 kinds: they wait in the
    buffer, or fill it up and go in block by block. -/
theorem MdfourHolds.update {st : SumState} (h : MdfourHolds l st) (hp : p.length + 63 < 2 ^ 31) :
    ∃ st', SumState.mdfourFeed protocolVersion st p = some st' ∧ st'.cursumType = st.cursumType ∧
      MdfourHolds (l ++ p) st' := by
  have hlt := mdfourAfter_length_lt l
  have hch : csumChunk = 64 := rfl
  have hres := h.residue
  have hadd : mdfourAfter (l ++ p) = feedAll mdfourBlock csumChunk (mdfourAfter l) p :=
    feedAll_append _ _ _
  have hsum : int32 ((p.length : ℤ) + st.sumresidue) = ((p.length + st.sumresidue : ℕ) : ℤ) := by
    rw [← Nat.cast_add]
    exact int32_of_lt (by omega)
  unfold SumState.mdfourFeed
  rw [hsum]
  by_cases hfew : ((p.length + st.sumresidue : ℕ) : ℤ) < csumChunk
  · rw [if_pos hfew]
    obtain ⟨m', hm', hst', htake⟩ := st.md.copy_spec st.sumresidue p (by omega)
    have hfeed : feedAll mdfourBlock csumChunk (mdfourAfter l) p =
        ((mdfourAfter l).1, (mdfourAfter l).2 ++ p) := feedAll_lt (by omega)
    rw [hfeed] at hadd
    refine ⟨⟨st.cursumType, st.sumresidue + p.length, m'⟩, by rw [hm']; rfl, rfl, ?_, ?_, ?_⟩
    · rw [hadd, hst', h.state]
    · rw [hadd, htake, h.rest]
    · rw [hadd, List.length_append, ← hres]
  · rw [if_neg hfew]
    obtain ⟨q, hq, hfeed⟩ := h.fillUp protocolVersion (p := p) (by omega)
    have hloop : eachBlock (mdfourUpdate protocolVersion) csumChunk q.2.length q.1.toMdState q.2 =
        mdfourAfter (l ++ p) := by
      rw [hadd, hfeed]
      exact eachBlock_congr (fun m _ hb => mdfourUpdate_block protocolVersion m hb) _ _ _
    have hrest := mdfourAfter_length_lt (l ++ p)
    obtain ⟨m', hm', hst', hbuf⟩ := (q.1.withState (mdfourAfter (l ++ p)).1).copy_spec 0
      (mdfourAfter (l ++ p)).2 (by omega)
    simp only [hq, hloop, hm', Option.bind_eq_bind, Option.bind_some]
    exact ⟨_, rfl, rfl, hst', by simpa using hbuf, rfl⟩

/-- The bits of a count below a block. -/
theorem and_3f (x : UInt32) : (x &&& (0x3f : UInt32)).toNat = x.toNat % csumChunk := by
  rw [UInt32.toNat_and]
  exact Nat.and_two_pow_sub_one_eq_mod x.toNat 6

/-- The count goes up by the length, with a carry. -/
theorem md5Count_spec {m : MdContext} {n k : ℕ} (hlow : m.totalN.toNat = n % 2 ^ 32)
    (hhigh : m.totalN2.toNat = n / 2 ^ 32 % 2 ^ 32) (hk : k < 2 ^ 32) :
    (md5Count m (UInt32.ofNat k)).totalN.toNat = (n + k) % 2 ^ 32 ∧
      (md5Count m (UInt32.ofNat k)).totalN2.toNat = (n + k) / 2 ^ 32 % 2 ^ 32 := by
  have hlen : (UInt32.ofNat k).toNat = k := UInt32.toNat_ofNat_of_lt' hk
  have hsum : (m.totalN + UInt32.ofNat k).toNat = (n + k) % 2 ^ 32 := by
    rw [UInt32.toNat_add, hlow, hlen]
    omega
  refine ⟨hsum, ?_⟩
  simp only [md5Count, MdContext.withState]
  split_ifs with hcarry
  all_goals rw [UInt32.lt_iff_toNat_lt, hsum, hlen] at hcarry
  · rw [UInt32.toNat_add, hhigh, UInt32.toNat_one]
    omega
  · rw [hhigh]
    omega

/-- The loop of `md5_update` leaves the count alone. -/
theorem eachBlock_md5Block (fuel : ℕ) (m : MdState) (q : Bytes) :
    eachBlock md5Block csumChunk fuel m q =
      (⟨(eachBlock md5Process csumChunk fuel m.toHashWords q).1, m.totalN, m.totalN2⟩,
        (eachBlock md5Process csumChunk fuel m.toHashWords q).2) :=
  eachBlock_map (fun c : HashWords => (⟨c, m.totalN, m.totalN2⟩ : MdState)) (fun _ _ => rfl) fuel
    m.toHashWords q

/-- What is left over goes into the buffer, behind what waits there. -/
theorem Md5Holds.of_copy {m : MdContext} {off : ℕ} {w : Bytes} (hchain : m.toHashWords = (md5After l).1)
    (hoff : off ≤ csumChunk) (hrest : m.buffer.take off ++ w = (md5After l).2)
    (hlow : m.totalN.toNat = l.length % 2 ^ 32)
    (hhigh : m.totalN2.toNat = l.length / 2 ^ 32 % 2 ^ 32) :
    ∃ m', m.copy off w = some m' ∧ Md5Holds l m' := by
  have hlen : off + w.length = l.length % csumChunk := by
    rw [← md5After_length, ← hrest, List.length_append, List.length_take, m.buffer_length,
      Nat.min_eq_left hoff]
  have hlt : l.length % csumChunk < csumChunk := Nat.mod_lt _ (by norm_num)
  obtain ⟨m', hm', hst', hbuf⟩ := m.copy_spec off w (by omega)
  refine ⟨m', hm', ?_, ?_, ?_, ?_⟩
  · rw [hst', hchain]
  · rw [← hlen, hbuf, hrest]
  · rw [hst', hlow]
  · rw [hst', hhigh]

/-- **A call of `md5_update` adds its bytes**, likewise. -/
theorem Md5Holds.update {m : MdContext} (h : Md5Holds l m) (hp : p.length < 2 ^ 32) :
    ∃ m', md5Update m p = some m' ∧ Md5Holds (l ++ p) m' := by
  have hch : csumChunk = 64 := rfl
  unfold md5Update
  by_cases hnil : p = []
  · rw [if_pos hnil, hnil, List.append_nil]
    exact ⟨m, rfl, h⟩
  rw [if_neg hnil]
  obtain ⟨hchain, hrest, hlow, hhigh⟩ := h
  have hadd : md5After (l ++ p) = feedAll md5Process csumChunk (md5After l) p :=
    feedAll_append _ _ _
  have hwait := md5After_length l
  have hlt : (md5After l).2.length < csumChunk := by
    rw [hwait]
    exact Nat.mod_lt _ (by norm_num)
  have hleft : (m.totalN &&& (0x3f : UInt32)).toNat = (md5After l).2.length := by
    rw [and_3f, hlow, hwait, hch]
    omega
  obtain ⟨hlow', hhigh'⟩ := md5Count_spec hlow hhigh hp
  rw [← List.length_append] at hlow' hhigh'
  rw [← hwait] at hrest
  have hcount : (md5Count m (UInt32.ofNat p.length)).toHashWords = (md5After l).1 ∧
      (md5Count m (UInt32.ofNat p.length)).buffer = m.buffer := ⟨hchain, rfl⟩
  obtain ⟨hchain₀, hbuf₀⟩ := hcount
  rw [← hbuf₀] at hrest
  generalize md5Count m (UInt32.ofNat p.length) = m₀ at hlow' hhigh' hchain₀ hrest
  simp only [hleft]
  split_ifs with hfill
  · -- the buffer is filled up
    obtain ⟨hpos, hle⟩ := hfill
    have htake : (p.take (csumChunk - (md5After l).2.length)).length =
        csumChunk - (md5After l).2.length := List.length_take_of_le hle
    obtain ⟨m', hm', hst', hbuf⟩ := m₀.copy_spec (md5After l).2.length
      (p.take (csumChunk - (md5After l).2.length)) (by omega)
    have hwhole : m'.buffer = (md5After l).2 ++ p.take (csumChunk - (md5After l).2.length) := by
      rw [hrest, htake, Nat.add_sub_cancel' hlt.le] at hbuf
      rw [← hbuf, List.take_of_length_le m'.buffer_length.le]
    have hloop : eachBlock md5Process csumChunk p.length (md5Process m'.toHashWords m'.buffer)
        (p.drop (csumChunk - (md5After l).2.length)) = md5After (l ++ p) := by
      rw [hadd, hwhole, hst', hchain₀]
      exact (feedAll_fill hlt (by omega) (by rw [List.length_drop]; omega)).symm
    rw [hm', Option.bind_eq_bind, Option.bind_some, eachBlock_md5Block]
    refine Md5Holds.of_copy (congrArg Prod.fst hloop) (Nat.zero_le _) (congrArg Prod.snd hloop) ?_ ?_
    · simp only [MdContext.withState_toMdState, md5Block, hst', hlow']
    · simp only [MdContext.withState_toMdState, md5Block, hst', hhigh']
  · rw [eachBlock_md5Block]
    rcases Nat.eq_zero_or_pos (md5After l).2.length with h0 | hpos
    · -- the string starts with a block
      have hloop : eachBlock md5Process csumChunk p.length m₀.toHashWords p = md5After (l ++ p) := by
        rw [hadd, ← feedAll_eachBlock (by norm_num) le_rfl, hchain₀, ← List.length_eq_zero_iff.1 h0]
      rw [h0]
      exact Md5Holds.of_copy (congrArg Prod.fst hloop) (Nat.zero_le _) (congrArg Prod.snd hloop)
        hlow' hhigh'
    · -- less than a block
      have hfew : p.length < csumChunk - (md5After l).2.length :=
        not_le.1 fun hle => hfill ⟨hpos.ne', hle⟩
      have hfeed : feedAll md5Process csumChunk (md5After l) p =
          ((md5After l).1, (md5After l).2 ++ p) := feedAll_lt (by omega)
      rw [eachBlock_lt (by omega)]
      rw [hfeed] at hadd
      refine Md5Holds.of_copy ?_ hlt.le ?_ hlow' hhigh'
      · rw [hadd]
        exact hchain₀
      · rw [hadd]
        exact congrArg (· ++ p) hrest

end Update

theorem HashWords.bytes_length (x : HashWords) : x.bytes.length = 16 := by
  simp [HashWords.bytes]

/-- The count after the bytes `l`. -/
def md5Counted (l : Bytes) : MdState :=
  ⟨(md5After l).1, UInt32.ofNat l.length, UInt32.ofNat (l.length / 2 ^ 32)⟩

/-- The MD5 of the bytes `l`. -/
def md5Digest (l : Bytes) : Bytes :=
  (md5After (l ++ md5Pad (md5Counted l) ++ md5Msglen (md5Counted l))).1.bytes

/-- `md5_result` gives the MD5 of what has been fed. -/
theorem Md5Holds.result {l : Bytes} {m : MdContext} (h : Md5Holds l m) :
    md5Result m = some (md5Digest l) := by
  have hN : m.totalN = (md5Counted l).totalN :=
    UInt32.toNat_inj.1 (h.low.trans UInt32.toNat_ofNat'.symm)
  have hN2 : m.totalN2 = (md5Counted l).totalN2 :=
    UInt32.toNat_inj.1 (h.high.trans UInt32.toNat_ofNat'.symm)
  have hpadEq : md5Pad m.toMdState = md5Pad (md5Counted l) := by rw [md5Pad, md5Pad, hN]
  have hmsgEq : md5Msglen m.toMdState = md5Msglen (md5Counted l) := by
    rw [md5Msglen, md5Msglen, hN, hN2]
  have hpad : (md5Pad (md5Counted l)).length < 2 ^ 32 := by
    have hlen : md5Padding.length = 64 := by simp [md5Padding]
    rw [md5Pad, List.length_take]
    omega
  have hmsg : (md5Msglen (md5Counted l)).length < 2 ^ 32 := by
    rw [md5Msglen, List.length_append, leBytes_length, leBytes_length]
    norm_num
  obtain ⟨m₁, hm₁, h₁⟩ := h.update hpad
  obtain ⟨m₂, hm₂, h₂⟩ := h₁.update hmsg
  simp only [md5Result, hpadEq, hmsgEq, hm₁, hm₂, Option.bind_eq_bind, Option.bind_some]
  rw [h₂.chain, md5Digest]

/-! ## The library -/

/-- `lib/md5.c` and `lib/mdfour.c`: MD5 as a function of all that it has been fed. -/
abbrev mdLib (protocolVersion : ℤ) : Md where
  Ctx := Bytes × MdState
  md5Begin := ([], mdBegin)
  md5Update c p := (c.1 ++ p, c.2)
  md5Result c := (c, md5Digest c.1)
  mdfourBegin := ([], mdBegin)
  mdfourUpdate c p := (c.1, mdfourUpdate protocolVersion c.2 p)
  mdfourResult c := (c, c.2.toHashWords.bytes)

theorem mdLib_lawful (protocolVersion : ℤ) : (mdLib protocolVersion).Lawful where
  md5Update_append _ _ _ := Prod.ext (List.append_assoc _ _ _) rfl
  md5Update_nil _ := Prod.ext (List.append_nil _) rfl
  md5Result_length _ := HashWords.bytes_length _
  mdfourResult_length _ := HashWords.bytes_length _

/-- The chunks that go into an MD4 are the full blocks. -/
theorem mdfourChunks_eq {m : Md} (md : m.Ctx) (l : Bytes) :
    mdfourChunks md l = feedAll m.mdfourUpdate csumChunk (md, []) l := by
  induction md, l using mdfourChunks.induct with
  | case1 md l h ih =>
    have htake : (l.take csumChunk).length = csumChunk := List.length_take_of_le h
    have hblock : feedAll m.mdfourUpdate csumChunk (md, []) (l.take csumChunk) =
        (m.mdfourUpdate md (l.take csumChunk), []) := by
      refine feedAll_full (fun hnil => ?_) (by rw [List.length_nil, Nat.zero_add, htake])
      rw [hnil] at htake
      exact absurd htake (by decide)
    rw [mdfourChunks, dif_pos h, ih, ← hblock, ← feedAll_append, List.take_append_drop]
  | case2 md l h =>
    rw [mdfourChunks, dif_neg h, feedAll_lt (by rw [List.length_nil]; omega), List.nil_append]

theorem mdfourChunks_mdLib (protocolVersion : ℤ) (l : Bytes) :
    mdfourChunks (mdLib protocolVersion).mdfourBegin l =
      (([], (mdfourAfter l).1), (mdfourAfter l).2) :=
  (mdfourChunks_eq _ l).trans (feedAll_map (fun x => ([], x))
    (fun x _ hb => congrArg (Prod.mk []) (mdfourUpdate_block protocolVersion x hb).symm) mdBegin [] l)

/-- The MD4 of the bytes `l`: the older kinds do not pad full blocks. -/
def mdfourDigest (protocolVersion : ℤ) (t : CsumType) (l : Bytes) : Bytes :=
  let r := mdfourAfter l
  if r.2 = [] ∧ (t = .md4Busted ∨ t = .md4Archaic) then r.1.toHashWords.bytes
  else (mdfourUpdate protocolVersion r.1 r.2).toHashWords.bytes

/-- The digest of the bytes `l`. -/
def digestOf (protocolVersion : ℤ) (t : CsumType) (l : Bytes) : Bytes :=
  match t with
  | .none => [0]
  | .md5 => md5Digest l
  | t => mdfourDigest protocolVersion t l

theorem digestOf_length (protocolVersion : ℤ) (t : CsumType) (l : Bytes) :
    (digestOf protocolVersion t l).length = t.len := by
  have hmdfour : ∀ t, (mdfourDigest protocolVersion t l).length = 16 := by
    intro t
    unfold mdfourDigest
    dsimp only
    split_ifs <;> exact HashWords.bytes_length _
  cases t with
  | none => rfl
  | md5 => exact HashWords.bytes_length _
  | _ => exact hmdfour _

/-- The bytes of the seed, which the older kinds sum first. -/
def seedBytes (t : CsumType) (seed : ℤ) : Bytes :=
  match t with
  | .md4Old | .md4Busted | .md4Archaic => sival seed
  | _ => []

theorem sumEnd_md4 {m : Md} {acc : Accum m} (h : acc.type ≠ .none) (h5 : acc.type ≠ .md5) :
    (sumEnd acc).2 = (m.mdfourResult
      (if acc.residue = [] ∧ (acc.type = .md4Busted ∨ acc.type = .md4Archaic) then acc.md
        else m.mdfourUpdate acc.md acc.residue)).2 := by
  obtain ⟨type, md, residue, hlt⟩ := acc
  cases type <;> first | exact absurd rfl h | exact absurd rfl h5 | rfl

theorem sumEnd_mdLib (protocolVersion : ℤ) {t : CsumType} (h : t ≠ .none) (h5 : t ≠ .md5) (l : Bytes) :
    (sumEnd (sumUpdate ⟨t, (mdLib protocolVersion).mdfourBegin, [], nil_lt⟩ l)).2 =
      mdfourDigest protocolVersion t l := by
  have hupdate := @sumUpdate_md4 _ ⟨t, (mdLib protocolVersion).mdfourBegin, [], nil_lt⟩ h h5 l
  generalize sumUpdate ⟨t, (mdLib protocolVersion).mdfourBegin, [], nil_lt⟩ l = acc at hupdate
  have htype : acc.type = t := by rw [hupdate]
  have hmd : acc.md = ([], (mdfourAfter l).1) := by
    rw [hupdate]
    exact congrArg Prod.fst (mdfourChunks_mdLib protocolVersion l)
  have hres : acc.residue = (mdfourAfter l).2 := by
    rw [hupdate]
    exact congrArg Prod.snd (mdfourChunks_mdLib protocolVersion l)
  rw [sumEnd_md4 (by rwa [htype]) (by rwa [htype]), htype, hmd, hres, mdfourDigest]
  dsimp only
  split_ifs <;> rfl

/-- The digest of a whole file, with this library. -/
theorem digest_mdLib (protocolVersion : ℤ) (t : CsumType) (seed : ℤ) (l : Bytes) :
    digest (mdLib protocolVersion) t (seed % 2 ^ 32).toNat l =
      digestOf protocolVersion t (seedBytes t seed ++ l) := by
  have happend : ∀ t, t ≠ CsumType.none → t ≠ CsumType.md5 →
      (sumEnd (sumUpdate (sumUpdate ⟨t, (mdLib protocolVersion).mdfourBegin, [], nil_lt⟩
        (sival seed)) l)).2 = mdfourDigest protocolVersion t (sival seed ++ l) := by
    intro t h h5
    rw [sumUpdate_append (mdLib_lawful protocolVersion), sumEnd_mdLib protocolVersion h h5]
  cases t with
  | none => rfl
  | md5 => rfl
  | md4 => exact sumEnd_mdLib protocolVersion (by decide) (by decide) l
  | md4Old => exact happend .md4Old (by decide) (by decide)
  | md4Busted => exact happend .md4Busted (by decide) (by decide)
  | md4Archaic => exact happend .md4Archaic (by decide) (by decide)

/-! ## The digest of the code -/

/-- What has been summed: the bytes `l`, for a digest of kind `t`. -/
def Holds (t : CsumType) (l : Bytes) (st : SumState) : Prop :=
  st.cursumType = t ∧ match t with
    | .md5 => Md5Holds l st.md
    | .none => True
    | _ => MdfourHolds l st

section Chunks

variable (protocolVersion : ℤ) {t : CsumType} {l : Bytes} {st : SumState}

/-- **A call of `sum_update` adds its bytes.** -/
theorem Holds.update (h : Holds t l st) {p : Bytes} (hp : p.length + 63 < 2 ^ 31) :
    ∃ st', SumState.sumUpdate protocolVersion st p = some st' ∧ Holds t (l ++ p) st' := by
  obtain ⟨ht, hl⟩ := h
  unfold SumState.sumUpdate
  simp only [ht]
  cases t with
  | none => exact ⟨st, rfl, ht, trivial⟩
  | md5 =>
    obtain ⟨m, hm, hm'⟩ := Md5Holds.update hl (p := p) (by omega)
    exact ⟨⟨.md5, st.sumresidue, m⟩, by rw [hm]; rfl, rfl, hm'⟩
  | _ =>
    obtain ⟨st', hst', ht', hl'⟩ := MdfourHolds.update protocolVersion hl hp
    exact ⟨st', hst', ht'.trans ht, hl'⟩

/-- So does a run of calls. -/
theorem Holds.updates (h : Holds t l st) {ps : List Bytes}
    (hps : ∀ p ∈ ps, p.length + 63 < 2 ^ 31) :
    ∃ st', ps.foldlM (SumState.sumUpdate protocolVersion) st = some st' ∧
      Holds t (l ++ ps.flatten) st' := by
  induction ps generalizing l st with
  | nil => exact ⟨st, rfl, by simpa using h⟩
  | cons p ps ih =>
    obtain ⟨st', hst', h'⟩ := h.update protocolVersion (hps p (by simp))
    obtain ⟨st'', hst'', h''⟩ := ih h' fun q hq => hps q (by simp [hq])
    refine ⟨st'', ?_, ?_⟩
    · rw [List.foldlM_cons, hst', Option.bind_eq_bind, Option.bind_some, hst'']
    · rwa [List.flatten_cons, ← List.append_assoc]

/-- `sum_init` forgets what was there, and sums the seed. -/
theorem sumInit_holds (st : SumState) (csumType : Option CsumType) (seed : ℤ) :
    ∃ st', SumState.sumInit protocolVersion st csumType seed = some st' ∧
      Holds (csumType.getD (parseCsumName protocolVersion))
        (seedBytes (csumType.getD (parseCsumName protocolVersion)) seed) st' := by
  unfold SumState.sumInit
  generalize csumType.getD (parseCsumName protocolVersion) = t
  have hnil : ∀ t, MdfourHolds [] ⟨t, 0, st.md.withState mdBegin⟩ := fun t => ⟨rfl, rfl, rfl⟩
  have hseed : (sival seed).length + 63 < 2 ^ 31 := by
    rw [sival_length]
    norm_num
  cases t with
  | none => exact ⟨_, rfl, rfl, trivial⟩
  | md5 =>
    have hmd5 : Md5Holds [] (st.md.withState mdBegin) :=
      ⟨rfl, rfl, by simp [mdBegin], by simp [mdBegin]⟩
    exact ⟨_, rfl, rfl, hmd5⟩
  | md4 => exact ⟨_, rfl, rfl, hnil _⟩
  | md4Old => exact Holds.update protocolVersion (t := .md4Old) ⟨rfl, hnil _⟩ hseed
  | md4Busted => exact Holds.update protocolVersion (t := .md4Busted) ⟨rfl, hnil _⟩ hseed
  | md4Archaic => exact Holds.update protocolVersion (t := .md4Archaic) ⟨rfl, hnil _⟩ hseed

/-- `sum_end` gives the digest of what has been summed. -/
theorem Holds.end_eq (h : Holds t l st) :
    SumState.sumEnd protocolVersion st = some (digestOf protocolVersion t l) := by
  obtain ⟨ht, hl⟩ := h
  have hmdfour : MdfourHolds l st → (st.sumresidue = 0 ↔ (mdfourAfter l).2 = []) := fun hl => by
    rw [hl.residue, List.length_eq_zero_iff]
  unfold SumState.sumEnd digestOf mdfourDigest
  simp only [ht]
  cases t with
  | none => rfl
  | md5 => exact Md5Holds.result hl
  | md4 => simp [hl.state, hl.rest]
  | md4Old => simp [hl.state, hl.rest]
  | md4Busted => simp only [hmdfour hl, hl.state, hl.rest, true_or, and_true, apply_ite some]
  | md4Archaic => simp only [hmdfour hl, hl.state, hl.rest, or_true, and_true, apply_ite some]

/-- The functions compute the digest of the bytes they are called with. -/
theorem sumChunks_eq (st : SumState) (csumType : Option CsumType) (seed : ℤ) {ps : List Bytes}
    (hps : ∀ p ∈ ps, p.length + 63 < 2 ^ 31) :
    SumState.sumChunks protocolVersion st csumType seed ps =
      some (digest (mdLib protocolVersion) (csumType.getD (parseCsumName protocolVersion))
        (seed % 2 ^ 32).toNat ps.flatten) := by
  obtain ⟨a, ha, hinit⟩ := sumInit_holds protocolVersion st csumType seed
  obtain ⟨b, hb, hend⟩ := hinit.updates protocolVersion hps
  have hd := hend.end_eq protocolVersion
  simp only [SumState.sumChunks, ha, hb, hd, Option.bind_eq_bind, Option.bind_some, digest_mdLib]

/-- **The digest depends on the bytes alone**: two ways of cutting them into calls of
    `sum_update`, from any two earlier states, end with the same digest, of the
    length of its kind.  No caller passes more than a block (2^29 bytes) at a time. -/
theorem digest_chunks (st st' : SumState) (csumType : Option CsumType) (seed : ℤ)
    {ps qs : List Bytes} (h : ps.flatten = qs.flatten) (hps : ∀ p ∈ ps, p.length + 63 < 2 ^ 31)
    (hqs : ∀ q ∈ qs, q.length + 63 < 2 ^ 31) :
    ∃ d, SumState.sumChunks protocolVersion st csumType seed ps = some d ∧
      SumState.sumChunks protocolVersion st' csumType seed qs = some d ∧
      d.length = (csumType.getD (parseCsumName protocolVersion)).len := by
  refine ⟨_, sumChunks_eq protocolVersion st csumType seed hps, ?_, ?_⟩
  · rw [h]
    exact sumChunks_eq protocolVersion st' csumType seed hqs
  · rw [digest_mdLib]
    exact digestOf_length _ _ _

/-- Nothing has been summed yet. -/
def sumBlank : SumState :=
  ⟨.none, 0, ⟨mdBegin, List.replicate csumChunk 0, List.length_replicate⟩⟩

/-- A block and a byte, at once and in two pieces that meet inside the block. -/
theorem digest_chunks_two : ∃ d,
    SumState.sumChunks 29 sumBlank (some .md4Old) 7 [List.replicate 65 97] = some d ∧
      SumState.sumChunks 29 sumBlank (some .md4Old) 7
        [List.replicate 33 97, List.replicate 32 97] = some d ∧ d.length = 16 :=
  digest_chunks 29 sumBlank sumBlank (some .md4Old) 7 (by decide) (by decide) (by decide)

/-- The MD5 of "abc". -/
example : SumState.sumChunks 30 sumBlank none 7 [[97], [98, 99]] =
    some [144, 1, 80, 152, 60, 210, 79, 176, 214, 150, 63, 125, 40, 225, 127, 114] := by
  decide +kernel

end Chunks

end CloudEdgeBackup
