/-
  Numbers and strings on the wire (`io.c`).

  * `writeVarint`, `writeVarlong` put the number of bytes of a number into the
    leading bits of its first byte; both are `packVar`, and their readers are
    `unpackVar`.  A reader fails where the source exits;
  * `reads_varint`, `reads_varlong`, `reads_longint`, `reads_vstring`: every
    reader takes exactly what its writer wrote;
  * `fields_roundTrip`: so any concatenation of values comes back.
-/
import CloudEdgeBackup.Rsync
import CloudEdgeBackup.Lib.Codec

namespace CloudEdgeBackup

open Codec

/-- A reader of the connection. -/
abbrev In := Get UInt8

/-! ## Fixed-width integers -/

/-- `SIVAL`: the four bytes of an `int32`. -/
def sival (x : ℤ) : Bytes := leBytes 4 (x % 2 ^ 32).toNat

/-- `SIVAL64`: the eight bytes of an `int64`. -/
def sival64 (x : ℤ) : Bytes := leBytes 8 (x % 2 ^ 64).toNat

def writeInt (x : ℤ) : Bytes := sival x

def readInt : In ℤ := do
  let b ← getN 4
  pure (int32 (leValue b))

/-- The numbers an `int32` holds. -/
def IsInt32 (x : ℤ) : Prop := -2 ^ 31 ≤ x ∧ x < 2 ^ 31

/-- The numbers an `int64` holds. -/
def IsInt64 (x : ℤ) : Prop := -2 ^ 63 ≤ x ∧ x < 2 ^ 63

instance : DecidablePred IsInt32 := fun x => by unfold IsInt32; infer_instance

instance : DecidablePred IsInt64 := fun x => by unfold IsInt64; infer_instance

theorem leValue_sival (x : ℤ) : leValue (sival x) = (x % 2 ^ 32).toNat := by
  rw [sival, leValue_leBytes]
  omega

theorem leValue_sival64 (x : ℤ) : leValue (sival64 x) = (x % 2 ^ 64).toNat := by
  rw [sival64, leValue_leBytes]
  omega

theorem int32_toNat {x : ℤ} (h : IsInt32 x) : int32 ((x % 2 ^ 32).toNat : ℤ) = x := by
  obtain ⟨hlo, hhi⟩ := h
  have hmod : Int.bmod (x % 2 ^ 32) (2 ^ 32) = Int.bmod x (2 ^ 32) := Int.emod_bmod x (2 ^ 32)
  rw [int32, Int.toNat_of_nonneg (by omega), hmod]
  exact Int.bmod_eq_of_le (by omega) (by omega)

theorem offT_toNat {x : ℤ} (h : IsInt64 x) : offT ((x % 2 ^ 64).toNat : ℤ) = x := by
  obtain ⟨hlo, hhi⟩ := h
  have hmod : Int.bmod (x % 2 ^ 64) (2 ^ 64) = Int.bmod x (2 ^ 64) := Int.emod_bmod x (2 ^ 64)
  rw [offT, Int.toNat_of_nonneg (by omega), hmod]
  exact Int.bmod_eq_of_le (by omega) (by omega)

@[simp] theorem sival_length (x : ℤ) : (sival x).length = 4 := leBytes_length _ _

@[simp] theorem sival64_length (x : ℤ) : (sival64 x).length = 8 := leBytes_length _ _

theorem reads_int {x : ℤ} (h : IsInt32 x) : Reads readInt (writeInt x) x := by
  have hval : int32 (leValue (sival x)) = x := by rw [leValue_sival, int32_toNat h]
  refine (reads_getN_of_length (sival_length x)).bind_nil ?_
  rw [hval]
  exact Reads.pure x

/-! ## Variable-length integers -/

/-- `int_byte_extra`: how many bytes more there are, by the first byte over 4. -/
def intByteExtra : List ℕ :=
  List.replicate 32 0 ++ List.replicate 16 1 ++ [2, 2, 2, 2, 2, 2, 2, 2, 3, 3, 3, 3, 4, 4, 5, 6]

/-- The loop over the high bytes that are zero; `b[cnt]` of the source is entry
    `cnt - 1` of `b`. -/
def dropZeroBytes (minBytes : ℕ) (b : Bytes) : ℕ → ℕ
  | 0 => 0
  | cnt + 1 =>
    if minBytes < cnt + 1 ∧ b.getD cnt 0 = 0 then dropZeroBytes minBytes b cnt else cnt + 1

/-- The bytes `b` of a number, as `write_varint` and `write_varlong` send them. -/
def packVar (minBytes : ℕ) (b : Bytes) : Bytes :=
  let cnt := dropZeroBytes minBytes b b.length
  let bit := UInt8.ofNat (2 ^ (7 + minBytes - cnt))
  let top := b.getD (cnt - 1) 0
  if bit ≤ top then ~~~(bit - 1) :: b.take cnt
  else if minBytes < cnt then (top ||| ~~~(bit * 2 - 1)) :: b.take (cnt - 1)
  else top :: b.take (cnt - 1)

/-- The number of `width` bytes that `read_varint` and `read_varlong` make of what
    they read; the union they read it into has one byte more. -/
def unpackVar (width minBytes : ℕ) : In ℕ := do
  let b2 ← getN minBytes
  let ch := b2.headD 0
  let extra := intByteExtra.getD (ch.toNat / 4) 0
  if extra ≠ 0 then
    let bit := UInt8.ofNat (2 ^ (8 - extra))
    if width + 1 < minBytes + extra then abort
    else do
      let more ← getN extra
      pure (leValue ((b2.tail ++ more ++ [ch &&& (bit - 1)]).take width))
  else pure (leValue (b2.tail ++ [ch]))

def writeVarint (x : ℤ) : Bytes := packVar 1 (sival x)

def readVarint : In ℤ := do
  let n ← unpackVar 4 1
  pure (int32 n)

def writeVarlong (x : ℤ) (minBytes : ℕ) : Bytes := packVar minBytes (sival64 x)

def readVarlong (minBytes : ℕ) : In ℤ := do
  let n ← unpackVar 8 minBytes
  pure (offT n)

/-- A first byte with room for the top byte: it tells the number of bytes more and
    gives the top byte back. -/
theorem firstByte_top {k : ℕ} (hk : k ≤ 6) {top : UInt8} (h : ¬ UInt8.ofNat (2 ^ (7 - k)) ≤ top) :
    let ch := if 0 < k then top ||| ~~~(UInt8.ofNat (2 ^ (7 - k)) * 2 - 1) else top
    intByteExtra.getD (ch.toNat / 4) 0 = k ∧
      (0 < k → ch &&& (UInt8.ofNat (2 ^ (8 - k)) - 1) = top) := by
  have hall : ∀ k ≤ 6, ∀ t : Fin 256, ¬ UInt8.ofNat (2 ^ (7 - k)) ≤ UInt8.ofNat t →
      let ch := if 0 < k then UInt8.ofNat t ||| ~~~(UInt8.ofNat (2 ^ (7 - k)) * 2 - 1)
        else UInt8.ofNat t
      intByteExtra.getD (ch.toNat / 4) 0 = k ∧
        (0 < k → ch &&& (UInt8.ofNat (2 ^ (8 - k)) - 1) = UInt8.ofNat t) := by
    decide +kernel
  have := hall k hk ⟨top.toNat, top.toNat_lt⟩
  simp only [UInt8.ofNat_toNat] at this
  exact this h

/-- A first byte without room for the top byte. -/
theorem firstByte_full : ∀ k ≤ 5, intByteExtra.getD
      ((~~~(UInt8.ofNat (2 ^ (7 - k)) - 1)).toNat / 4) 0 = k + 1 ∧
    ~~~(UInt8.ofNat (2 ^ (7 - k)) - 1) &&& (UInt8.ofNat (2 ^ (8 - (k + 1))) - 1) = 0 := by
  decide

/-- What is dropped is zero. -/
theorem dropZeroBytes_spec {minBytes : ℕ} {b : Bytes} (hmin : 1 ≤ minBytes) {n : ℕ}
    (hn : minBytes ≤ n) (hle : n ≤ b.length) :
    minBytes ≤ dropZeroBytes minBytes b n ∧ dropZeroBytes minBytes b n ≤ n ∧
      b.take n = b.take (dropZeroBytes minBytes b n) ++
        List.replicate (n - dropZeroBytes minBytes b n) 0 := by
  induction n with
  | zero => omega
  | succ n ih =>
    rw [dropZeroBytes]
    by_cases h : minBytes < n + 1 ∧ b.getD n 0 = 0
    · obtain ⟨hlo, hhi, htake⟩ := ih (by omega) (by omega)
      rw [if_pos h]
      refine ⟨hlo, by omega, ?_⟩
      have hget : b[n] = 0 := by
        rw [← List.getD_eq_getElem b 0 (by omega)]
        exact h.2
      rw [List.take_succ_eq_append_getElem (by omega), htake, hget, List.append_assoc,
        ← List.replicate_succ', Nat.succ_sub hhi]
    · rw [if_neg h]
      exact ⟨hn, le_rfl, by simp⟩

/-- The reader on a first byte and as many bytes more as it asks for. -/
theorem reads_unpackVar {width minBytes : ℕ} {ch : UInt8} {body : Bytes} {extra : ℕ}
    (hmin : 1 ≤ minBytes) (hextra : intByteExtra.getD (ch.toNat / 4) 0 = extra)
    (hbody : body.length + 1 = minBytes + extra) (hwidth : minBytes + extra ≤ width + 1) :
    Reads (unpackVar width minBytes) (ch :: body)
      (leValue (if extra = 0 then body ++ [ch]
        else (body ++ [ch &&& (UInt8.ofNat (2 ^ (8 - extra)) - 1)]).take width)) := by
  obtain ⟨m, rfl⟩ : ∃ m, minBytes = m + 1 := ⟨minBytes - 1, by omega⟩
  have hsplit : ch :: body = (ch :: body.take m) ++ body.drop m := by simp
  have hlen : (ch :: body.take m).length = m + 1 := by simp; omega
  rw [hsplit]
  refine (reads_getN_of_length hlen).bind ?_
  simp only [List.headD_cons, List.tail_cons, hextra]
  by_cases h0 : extra = 0
  · have hdrop : body.drop m = [] := List.drop_eq_nil_of_le (by omega)
    have htake : body.take m = body := List.take_of_length_le (by omega)
    rw [if_neg (by omega), if_pos h0, hdrop, htake]
    exact Reads.pure _
  · rw [if_pos h0, if_neg (by omega), if_neg h0]
    have hmore : (body.drop m).length = extra := by rw [List.length_drop]; omega
    refine (reads_getN_of_length hmore).bind_nil ?_
    rw [List.take_append_drop]
    exact Reads.pure _

/-- **The bytes of a number come back** through its first byte. -/
theorem reads_packVar {width minBytes : ℕ} {b : Bytes} (hb : b.length = width)
    (hmin : 1 ≤ minBytes) (hle : minBytes ≤ width) (hwidth : width ≤ minBytes + 5) :
    Reads (unpackVar width minBytes) (packVar minBytes b) (leValue b) := by
  obtain ⟨hlo, hhi, htake⟩ := dropZeroBytes_spec (b := b) hmin hle hb.ge
  set cnt := dropZeroBytes minBytes b width with hcnt
  obtain ⟨k, hk⟩ : ∃ k, cnt = minBytes + k := ⟨cnt - minBytes, by omega⟩
  have hget : b.getD (cnt - 1) 0 = b[cnt - 1] := List.getD_eq_getElem _ _ (by omega)
  have hvalue : leValue b = leValue (b.take cnt) := by
    rw [← leValue_append_zeros (b.take cnt), ← htake, List.take_of_length_le hb.le]
  have hsplit : b.take cnt = b.take (cnt - 1) ++ [b[cnt - 1]] := by
    rw [← List.take_succ_eq_append_getElem (by omega)]
    congr 1
    omega
  have hshift : 7 + minBytes - cnt = 7 - k := by omega
  rw [packVar, hb, ← hcnt, hget, hvalue]
  simp only [hshift]
  by_cases hfull : UInt8.ofNat (2 ^ (7 - k)) ≤ b[cnt - 1]
  · -- the first byte only tells the length
    obtain ⟨hextra, hmask⟩ := firstByte_full k (by omega)
    have hlen : (b.take cnt).length = cnt := by rw [List.length_take]; omega
    have hread : Reads (unpackVar width minBytes) _ _ :=
      reads_unpackVar hmin hextra (by omega : (b.take cnt).length + 1 = minBytes + (k + 1)) (by omega)
    have htop : (b.take cnt ++ [(0 : UInt8)]).take width =
        b.take cnt ++ List.replicate (min 1 (width - cnt)) 0 := by
      rw [List.take_append, hlen, List.take_of_length_le (by omega),
        show [(0 : UInt8)] = List.replicate 1 0 from rfl, List.take_replicate, min_comm]
    rw [if_neg (by omega), hmask, htop, leValue_append_zeros] at hread
    rw [if_pos hfull]
    exact hread
  · obtain ⟨hextra, hmask⟩ := firstByte_top (by omega) hfull
    rw [if_neg hfull]
    have hif : (if minBytes < cnt then
          (b[cnt - 1] ||| ~~~(UInt8.ofNat (2 ^ (7 - k)) * 2 - 1)) :: b.take (cnt - 1)
        else b[cnt - 1] :: b.take (cnt - 1)) =
        (if 0 < k then b[cnt - 1] ||| ~~~(UInt8.ofNat (2 ^ (7 - k)) * 2 - 1) else b[cnt - 1]) ::
          b.take (cnt - 1) := by
      split_ifs <;> first | rfl | omega
    rw [hif]
    have hlen : (b.take (cnt - 1)).length = cnt - 1 := by rw [List.length_take]; omega
    have hread : Reads (unpackVar width minBytes) _ _ :=
      reads_unpackVar hmin hextra (by omega : (b.take (cnt - 1)).length + 1 = minBytes + k) (by omega)
    by_cases hk0 : k = 0
    · simpa [hk0, hsplit] using hread
    · have hall : (b.take cnt).take width = b.take cnt :=
        List.take_of_length_le (by rw [List.length_take]; omega)
      rw [if_neg hk0, hmask (by omega), ← hsplit, hall] at hread
      exact hread

theorem reads_varint {x : ℤ} (h : IsInt32 x) : Reads readVarint (writeVarint x) x := by
  have hread := reads_packVar (sival_length x) le_rfl (by norm_num) (by norm_num)
  refine hread.bind_nil ?_
  rw [leValue_sival, int32_toNat h]
  exact Reads.pure x

theorem reads_varlong {x : ℤ} (h : IsInt64 x) {minBytes : ℕ} (hlo : 3 ≤ minBytes)
    (hhi : minBytes ≤ 8) : Reads (readVarlong minBytes) (writeVarlong x minBytes) x := by
  have hread := reads_packVar (sival64_length x) (by omega) hhi (by omega)
  refine hread.bind_nil ?_
  rw [leValue_sival64, offT_toNat h]
  exact Reads.pure x

/-! ## Long integers and strings -/

def writeLongint (x : ℤ) : Bytes :=
  if 0 ≤ x ∧ x ≤ 0x7FFFFFFF then sival x
  else List.replicate 4 0xFF ++ (sival x ++ sival (x / 2 ^ 32))

def readLongint : In ℤ := do
  let num ← readInt
  if num ≠ int32 0xFFFFFFFF then pure num
  else do
    let b ← getN 8
    pure (offT (leValue (b.take 4) ||| leValue (b.drop 4) <<< 32 : ℕ))

/-- `write_vstring`, which exits on a string that is too long. -/
def writeVstring (str : Bytes) : Option Bytes :=
  let len := str.length
  if 0x7F < len then
    if 0x7FFF < len then none
    else some ([UInt8.ofNat (len / 0x100 + 0x80), UInt8.ofNat len] ++ str)
  else some ([UInt8.ofNat len] ++ str)

/-- The length that `read_vstring` reads. -/
def readVstringLen : In ℕ := do
  let len ← get1
  if len &&& 0x80 ≠ 0 then do
    let low ← get1
    pure ((len &&& ~~~0x80).toNat * 0x100 + low.toNat)
  else pure len.toNat

/-- `read_vstring`; `none` is the return value -1. -/
def readVstring (bufsize : ℕ) : In (Option Bytes) := do
  let len ← readVstringLen
  if bufsize ≤ len then pure none
  else do
    let buf ← getN len
    pure (some buf)

theorem reads_longint {x : ℤ} (h : IsInt64 x) : Reads readLongint (writeLongint x) x := by
  have hones : int32 0xFFFFFFFF = -1 := by decide
  by_cases hx : 0 ≤ x ∧ x ≤ 0x7FFFFFFF
  · have hint : IsInt32 x := ⟨by omega, by omega⟩
    have hne : x ≠ int32 0xFFFFFFFF := by omega
    rw [writeLongint, if_pos hx]
    refine (reads_int hint).bind_nil ?_
    rw [if_pos hne]
    exact Reads.pure x
  · have hmark : Reads readInt (List.replicate 4 0xFF) (-1) := by
      have hbytes : writeInt (-1) = List.replicate 4 0xFF := by decide
      rw [← hbytes]
      exact reads_int (by decide)
    have hlen : (sival x ++ sival (x / 2 ^ 32)).length = 8 := by simp
    have hlow : (x % 2 ^ 32).toNat < 2 ^ 32 := by omega
    have hor : leValue (sival x) ||| leValue (sival (x / 2 ^ 32)) <<< 32 = (x % 2 ^ 64).toNat := by
      rw [leValue_sival, leValue_sival, Nat.or_comm, Nat.shiftLeft_eq, Nat.mul_comm,
        ← Nat.two_pow_add_eq_or_of_lt hlow]
      omega
    rw [writeLongint, if_neg hx]
    refine hmark.bind ?_
    rw [if_neg (not_not.2 hones.symm)]
    refine (reads_getN_of_length hlen).bind_nil ?_
    rw [List.take_left' (sival_length x), List.drop_left' (sival_length x), hor, offT_toNat h]
    exact Reads.pure x

/-- The two ways a length is sent. -/
theorem reads_vstringLen {n : ℕ} (h : n < 0x8000) : Reads readVstringLen
    (if 0x7F < n then [UInt8.ofNat (n / 0x100 + 0x80), UInt8.ofNat n] else [UInt8.ofNat n]) n := by
  have hshort : ∀ k : Fin 128, UInt8.ofNat k &&& 0x80 = 0 := by decide
  have hlong : ∀ k : Fin 128, UInt8.ofNat (k + 0x80) &&& 0x80 ≠ 0 ∧
      (UInt8.ofNat (k + 0x80) &&& ~~~0x80).toNat = k := by decide
  split_ifs with hn
  · obtain ⟨hbit, hhigh⟩ := hlong ⟨n / 0x100, by omega⟩
    refine Reads.cons ?_
    rw [if_pos hbit]
    refine Reads.cons ?_
    have hsum : n / 0x100 * 0x100 + n % 2 ^ 8 = n := by omega
    rw [hhigh, UInt8.toNat_ofNat', hsum]
    exact Reads.pure n
  · refine Reads.cons ?_
    rw [if_neg (not_not.2 (hshort ⟨n, by omega⟩)), UInt8.toNat_ofNat', Nat.mod_eq_of_lt (by omega)]
    exact Reads.pure n

theorem reads_vstring {str : Bytes} {bufsize : ℕ} (h : str.length < 0x8000)
    (hbuf : str.length < bufsize) :
    ∃ ws, writeVstring str = some ws ∧ Reads (readVstring bufsize) ws (some str) := by
  refine ⟨(if 0x7F < str.length then
      [UInt8.ofNat (str.length / 0x100 + 0x80), UInt8.ofNat str.length]
    else [UInt8.ofNat str.length]) ++ str, ?_, ?_⟩
  · rw [writeVstring]
    split_ifs <;> first | rfl | omega
  · refine (reads_vstringLen h).bind ?_
    rw [if_neg (by omega)]
    exact (reads_getN str).bind_nil (Reads.pure _)

/-! ## Sequences of values -/

/-- A value with the writer it is given to and what its reader is called with. -/
inductive Field
  | varint (x : ℤ)
  | varlong (minBytes : ℕ) (x : ℤ)
  | longint (x : ℤ)
  | vstring (bufsize : ℕ) (str : Bytes)

/-- The readers. -/
inductive FieldKind
  | varint
  | varlong (minBytes : ℕ)
  | longint
  | vstring (bufsize : ℕ)

/-- What a reader returns. -/
inductive Value
  | num (x : ℤ)
  | str (s : Option Bytes)
deriving DecidableEq

namespace Field

def write : Field → Option Bytes
  | varint x => some (writeVarint x)
  | varlong minBytes x => some (writeVarlong x minBytes)
  | longint x => some (writeLongint x)
  | vstring _ str => writeVstring str

def kind : Field → FieldKind
  | varint _ => .varint
  | varlong minBytes _ => .varlong minBytes
  | longint _ => .longint
  | vstring bufsize _ => .vstring bufsize

def value : Field → Value
  | varint x | varlong _ x | longint x => .num x
  | vstring _ str => .str (some str)

/-- The values the writers are given: 32 and 64 bit integers, the `min_bytes` in
    use, strings that fit the buffer and the length bytes. -/
def Ok : Field → Prop
  | varint x => IsInt32 x
  | varlong minBytes x => (minBytes = 3 ∨ minBytes = 4) ∧ IsInt64 x
  | longint x => IsInt64 x
  | vstring bufsize str => str.length < 0x8000 ∧ str.length < bufsize

end Field

def FieldKind.read : FieldKind → In Value
  | .varint => Value.num <$> readVarint
  | .varlong minBytes => Value.num <$> readVarlong minBytes
  | .longint => Value.num <$> readLongint
  | .vstring bufsize => Value.str <$> readVstring bufsize

/-- Values one after the other. -/
def writeFields (fs : List Field) : Option Bytes :=
  (writeAll (fun _ f => f.write.map fun ws => ((), ws)) () fs).map Prod.snd

def readFields (ks : List FieldKind) : In (List Value) :=
  Prod.fst <$> readAll (fun k _ => (fun v => (v, ())) <$> k.read) () ks

/-- One value is read as it was written. -/
theorem Field.reads {f : Field} (h : f.Ok) :
    ∃ ws, f.write = some ws ∧ Reads f.kind.read ws f.value := by
  cases f with
  | varint x => exact ⟨_, rfl, (reads_varint h).map _⟩
  | varlong minBytes x =>
    obtain ⟨hmin, hx⟩ := h
    exact ⟨_, rfl, (reads_varlong hx (by omega) (by omega)).map _⟩
  | longint x => exact ⟨_, rfl, (reads_longint h).map _⟩
  | vstring bufsize str =>
    obtain ⟨ws, hws, hread⟩ := reads_vstring h.1 h.2
    exact ⟨ws, hws, hread.map _⟩

/-- **Any concatenation of values decodes to the same sequence.**  The readers take
    exactly what the writers wrote, and none of them exits. -/
theorem fields_roundTrip (fs : List Field) (h : ∀ f ∈ fs, f.Ok) :
    ∃ ws, writeFields fs = some ws ∧
      Reads (readFields (fs.map Field.kind)) ws (fs.map Field.value) := by
  have hstep : InStep (fun _ f => f.write.map fun ws => ((), ws))
      (fun k _ => (fun v => (v, ())) <$> FieldKind.read k) Field.kind
      (fun _ _ : Unit => True) (fun _ => Field.Ok) (fun f v => f.value = v) := by
    refine ⟨fun _ _ f _ hf => ?_⟩
    obtain ⟨ws, hws, hreads⟩ := f.reads hf
    exact ⟨((), ws), f.value, (), by rw [hws]; rfl, hreads.map _, rfl, trivial⟩
  obtain ⟨r, vs, _, hwrite, hread, hvs, -⟩ := hstep.reads_all (t := ()) trivial
    (admits_of_forall h ())
  have hmap : fs.map Field.value = vs := by
    rw [← List.forall₂_eq_eq_eq, List.forall₂_map_left_iff]
    exact hvs
  exact ⟨r.2, by rw [writeFields, hwrite]; rfl, hmap ▸ hread.map _⟩

/-- One value of each codec, boundary values among them. -/
theorem fields_roundTrip_boundaries : ∃ ws,
    writeFields [.varint (-1), .varlong 3 (-2 ^ 63), .longint (2 ^ 31), .vstring 4 [1, 2, 3]] =
        some ws ∧
      Reads (readFields [.varint, .varlong 3, .longint, .vstring 4]) ws
        [.num (-1), .num (-2 ^ 63), .num (2 ^ 31), .str (some [1, 2, 3])] :=
  fields_roundTrip [.varint (-1), .varlong 3 (-2 ^ 63), .longint (2 ^ 31), .vstring 4 [1, 2, 3]] (by
    intro f hf
    simp only [List.mem_cons, List.not_mem_nil, or_false] at hf
    rcases hf with rfl | rfl | rfl | rfl <;> simp [Field.Ok, IsInt32, IsInt64])

/-! ## File-list indexes -/

/-- The statics of `write_ndx` and of `read_ndx`. -/
structure NdxState where
  prevPositive : ℤ
  prevNegative : ℤ
deriving DecidableEq

def NdxState.init : NdxState := ⟨-1, 1⟩

/-- `NDX_DONE` -/
abbrev ndxDone : ℤ := -1

/-- A number stored in a `char`. -/
def toChar (x : ℤ) : UInt8 := UInt8.ofNat (x % 256).toNat

/-- What `write_ndx` sends of a number and its distance from the last one. -/
def ndxBytes (ndx diff : ℤ) : Bytes :=
  if diff < 0xFE ∧ 0 < diff then [toChar diff]
  else if diff < 0 ∨ 0x7FFF < diff then
    [0xFE, toChar (ndx / 2 ^ 24) ||| 0x80, toChar ndx, toChar (ndx / 2 ^ 8), toChar (ndx / 2 ^ 16)]
  else [0xFE, toChar (diff / 2 ^ 8), toChar diff]

def writeNdx (protocolVersion : ℤ) (readBatch : Bool) (st : NdxState) (ndx : ℤ) :
    NdxState × Bytes :=
  if protocolVersion < 30 ∨ readBatch then (st, writeInt ndx)
  else if 0 ≤ ndx then
    ({ st with prevPositive := ndx }, ndxBytes ndx (int32 (ndx - st.prevPositive)))
  else if ndx = ndxDone then (st, [0])
  else
    let neg := int32 (-ndx)
    ({ st with prevNegative := neg }, 0xFF :: ndxBytes neg (int32 (neg - st.prevNegative)))

/-- What `read_ndx` makes of the byte `b` and the ones it asks for. -/
def readNdxNum (prev : ℤ) (b : UInt8) : In ℤ :=
  if b = 0xFE then do
    let b0 ← get1
    let b1 ← get1
    if b0 &&& 0x80 ≠ 0 then do
      let b2 ← getN 2
      pure (int32 (leValue (b1 :: b2 ++ [b0 &&& ~~~0x80])))
    else pure (int32 (b0.toNat * 2 ^ 8 + b1.toNat + prev))
  else pure (int32 (b.toNat + prev))

def readNdx (protocolVersion : ℤ) (st : NdxState) : In (ℤ × NdxState) :=
  if protocolVersion < 30 then do
    let num ← readInt
    pure (num, st)
  else do
    let b ← get1
    if b = 0xFF then do
      let b ← get1
      let num ← readNdxNum st.prevNegative b
      pure (int32 (-num), { st with prevNegative := num })
    else if b = 0 then pure (ndxDone, st)
    else do
      let num ← readNdxNum st.prevPositive b
      pure (num, { st with prevPositive := num })

/-- A sequence of indexes. -/
def writeNdxs (protocolVersion : ℤ) (readBatch : Bool) (ndxs : List ℤ) : Option (NdxState × Bytes) :=
  writeAll (fun st ndx => some (writeNdx protocolVersion readBatch st ndx)) .init ndxs

def readNdxs (protocolVersion : ℤ) (n : ℕ) : In (List ℤ × NdxState) :=
  readAll (fun _ => readNdx protocolVersion) .init (List.replicate n ())

theorem int32_eq {x : ℤ} (h : IsInt32 x) : int32 x = x := by
  obtain ⟨hlo, hhi⟩ := h
  exact Int.bmod_eq_of_le (by omega) (by omega)

theorem toNat_toChar (x : ℤ) : ((toChar x).toNat : ℤ) = x % 256 := by
  rw [toChar, UInt8.toNat_ofNat']
  omega

/-- The high bit that marks four bytes. -/
theorem highBit : ∀ k : Fin 128, UInt8.ofNat k &&& 0x80 = 0 ∧
    (UInt8.ofNat k ||| 0x80) &&& 0x80 ≠ 0 ∧ (UInt8.ofNat k ||| 0x80) &&& ~~~0x80 = UInt8.ofNat k := by
  decide

/-- The first byte of a number is none of the marks, and the rest is read as it was
    written: `prev` and `ndx` are what the two sides had and have. -/
theorem reads_ndxBytes {prev ndx : ℤ} (hprev : -1 ≤ prev ∧ prev < 2 ^ 31)
    (hndx : 0 ≤ ndx ∧ ndx < 2 ^ 31) :
    ∃ b bs, ndxBytes ndx (int32 (ndx - prev)) = b :: bs ∧ b ≠ 0xFF ∧ b ≠ 0 ∧
      Reads (readNdxNum prev b) bs ndx := by
  have hint : int32 ndx = ndx := int32_eq ⟨by omega, by omega⟩
  by_cases hsmall : int32 (ndx - prev) < 0xFE ∧ 0 < int32 (ndx - prev)
  · have hdiff : int32 (ndx - prev) = ndx - prev := by
      by_contra hne
      rw [int32, Int.bmod] at hsmall hne
      push_cast at hsmall hne
      split_ifs at hsmall hne <;> omega
    rw [hdiff] at hsmall ⊢
    have hval := toNat_toChar (ndx - prev)
    have hnat : (toChar (ndx - prev)).toNat < 254 ∧ 0 < (toChar (ndx - prev)).toNat := by omega
    have hne : ∀ m : UInt8, 254 ≤ m.toNat ∨ m.toNat = 0 → toChar (ndx - prev) ≠ m := by
      rintro m hm rfl
      omega
    refine ⟨toChar (ndx - prev), [], if_pos hsmall, hne _ (by decide), hne _ (by decide), ?_⟩
    rw [readNdxNum, if_neg (hne _ (by decide)), hval, Int.emod_eq_of_lt (by omega) (by omega),
      Int.sub_add_cancel, hint]
    exact Reads.pure ndx
  by_cases hlarge : int32 (ndx - prev) < 0 ∨ 0x7FFF < int32 (ndx - prev)
  · obtain ⟨-, hmark, hclear⟩ := highBit ⟨(ndx / 2 ^ 24).toNat, by omega⟩
    have hchar : toChar (ndx / 2 ^ 24) = UInt8.ofNat (ndx / 2 ^ 24).toNat := by
      rw [toChar, Int.emod_eq_of_lt (by omega) (by omega)]
    refine ⟨0xFE, _, by rw [ndxBytes, if_neg hsmall, if_pos hlarge], by decide, by decide, ?_⟩
    rw [readNdxNum, if_pos rfl, hchar]
    refine Reads.cons (Reads.cons ?_)
    rw [if_pos hmark]
    refine (reads_getN [toChar (ndx / 2 ^ 8), toChar (ndx / 2 ^ 16)]).bind_nil ?_
    rw [hclear, ← hchar]
    have hvalue : (leValue [toChar ndx, toChar (ndx / 2 ^ 8), toChar (ndx / 2 ^ 16),
        toChar (ndx / 2 ^ 24)] : ℤ) = ndx := by
      simp only [leValue]
      push_cast
      simp only [toNat_toChar]
      omega
    rw [List.cons_append, List.cons_append, List.singleton_append, hvalue, hint]
    exact Reads.pure ndx
  · have hdiff : int32 (ndx - prev) = ndx - prev := by
      by_contra hne
      rw [int32, Int.bmod] at hsmall hne hlarge
      push_cast at hsmall hne hlarge
      split_ifs at hsmall hne hlarge <;> omega
    rw [hdiff] at hsmall hlarge ⊢
    have hchar : toChar ((ndx - prev) / 2 ^ 8) = UInt8.ofNat ((ndx - prev) / 2 ^ 8).toNat := by
      rw [toChar, Int.emod_eq_of_lt (by omega) (by omega)]
    obtain ⟨hmark, -, -⟩ := highBit ⟨((ndx - prev) / 2 ^ 8).toNat, by omega⟩
    refine ⟨0xFE, _, by rw [ndxBytes, if_neg hsmall, if_neg hlarge], by decide, by decide, ?_⟩
    rw [readNdxNum, if_pos rfl]
    refine Reads.cons (Reads.cons ?_)
    rw [if_neg (by rw [hchar]; exact not_not.2 hmark), toNat_toChar, toNat_toChar]
    have hsum : (ndx - prev) / 2 ^ 8 % 256 * 2 ^ 8 + (ndx - prev) % 256 + prev = ndx := by omega
    rw [hsum, hint]
    exact Reads.pure ndx

/-- What the two sides' statics are. -/
def NdxState.Ok (st : NdxState) : Prop :=
  (-1 ≤ st.prevPositive ∧ st.prevPositive < 2 ^ 31) ∧
    (1 ≤ st.prevNegative ∧ st.prevNegative < 2 ^ 31)

/-- One index is read as it was written and leaves both sides the same statics. -/
theorem reads_ndx {v : ℤ} (hv : 30 ≤ v) {st : NdxState} (hst : st.Ok) {ndx : ℤ}
    (hndx : -2 ^ 31 < ndx ∧ ndx < 2 ^ 31) :
    Reads (readNdx v st) (writeNdx v false st ndx).2 (ndx, (writeNdx v false st ndx).1) ∧
      (writeNdx v false st ndx).1.Ok := by
  obtain ⟨hpos, hneg⟩ := hst
  have hold : ¬ (v < 30 ∨ false = true) := by simp [not_lt.2 hv]
  rw [writeNdx, if_neg hold, readNdx, if_neg (by omega)]
  by_cases h0 : 0 ≤ ndx
  · obtain ⟨b, bs, hbytes, hff, hzero, hread⟩ := reads_ndxBytes hpos ⟨h0, hndx.2⟩
    rw [if_pos h0, hbytes]
    refine ⟨Reads.cons ?_, ⟨by simp only; omega, hndx.2⟩, hneg⟩
    rw [if_neg hff, if_neg hzero]
    exact hread.bind_nil (Reads.pure _)
  by_cases hdone : ndx = ndxDone
  · rw [if_neg h0, if_pos hdone, hdone]
    exact ⟨Reads.cons (Reads.pure _), hpos, hneg⟩
  · have hint : int32 (-ndx) = -ndx := int32_eq ⟨by omega, by omega⟩
    have hprev : -1 ≤ st.prevNegative ∧ st.prevNegative < 2 ^ 31 := ⟨by omega, hneg.2⟩
    have hnum : 0 ≤ -ndx ∧ -ndx < 2 ^ 31 := by omega
    obtain ⟨b, bs, hbytes, -, -, hread⟩ := reads_ndxBytes hprev hnum
    simp only [if_neg h0, if_neg hdone, hint, hbytes]
    refine ⟨Reads.cons (Reads.cons (hread.bind_nil ?_)), hpos, ?_⟩
    · rw [neg_neg, int32_eq ⟨by omega, by omega⟩]
      exact Reads.pure _
    · simp only [ndxDone] at hdone
      constructor <;> simp only <;> omega

/-- With a batch file being read, indexes are plain integers (and the receiver takes
    them with `read_int`). -/
theorem readInt_writeNdx {v : ℤ} {st : NdxState} {ndx : ℤ} (h : IsInt32 ndx) :
    Reads readInt (writeNdx v true st ndx).2 ndx := by
  rw [writeNdx, if_pos (Or.inr rfl)]
  exact reads_int h

/-- **The indexes come back**, and the two sides' statics end equal. -/
theorem ndxs_roundTrip {v : ℤ} (hv : 30 ≤ v) (ndxs : List ℤ)
    (h : ∀ ndx ∈ ndxs, -2 ^ 31 < ndx ∧ ndx < 2 ^ 31) :
    ∃ r, writeNdxs v false ndxs = some r ∧ Reads (readNdxs v ndxs.length) r.2 (ndxs, r.1) := by
  have hstep : InStep (fun st ndx => some (writeNdx v false st ndx)) (fun _ : Unit => readNdx v)
      (fun _ => ()) (fun s t => s = t ∧ s.Ok) (fun _ ndx => -2 ^ 31 < ndx ∧ ndx < 2 ^ 31) Eq := by
    constructor
    rintro s _ ndx ⟨rfl, hs⟩ hndx
    obtain ⟨hread, hok⟩ := reads_ndx hv hs hndx
    exact ⟨_, ndx, _, rfl, hread, rfl, rfl, hok⟩
  have hinit : NdxState.init.Ok := by unfold NdxState.Ok NdxState.init; norm_num
  obtain ⟨r, cs, t, hwrite, hread, hcs, rfl, -⟩ := hstep.reads_all ⟨rfl, hinit⟩
    (admits_of_forall h _)
  rw [List.forall₂_eq_eq_eq] at hcs
  subst hcs
  rw [List.map_const'] at hread
  exact ⟨r, hwrite, hread⟩

/-- The boundaries of the four layouts, in both directions. -/
theorem ndxs_roundTrip_boundaries : ∃ r,
    writeNdxs 31 false [0, 0, 254, 0x8000, 5, -1, -2, -300, 2147483647] = some r ∧
      Reads (readNdxs 31 9) r.2 ([0, 0, 254, 0x8000, 5, -1, -2, -300, 2147483647], r.1) :=
  ndxs_roundTrip (by norm_num) _ (by decide)

/-- With a batch file being read `read_ndx` does not decode `write_ndx`. -/
theorem not_ndxs_roundTrip_readBatch :
    ¬ ∃ r, writeNdxs 31 true [0] = some r ∧ Reads (readNdxs 31 1) r.2 ([0], r.1) := by
  rintro ⟨r, hwrite, hread⟩
  obtain rfl : (NdxState.init, [0, 0, 0, 0]) = r := by
    rw [← Option.some.injEq, ← hwrite]
    decide
  have hone : readNdxs 31 1 [0, 0, 0, 0] = some (([-1], NdxState.init), [0, 0, 0]) := by
    decide
  have := (hread []).symm.trans hone
  simp at this

end CloudEdgeBackup
