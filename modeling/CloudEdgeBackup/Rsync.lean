/-
  The data the transfer code shares (`rsync.h`): sizes, the block checksum
  header, tokens, and the options that decide how a file is received.

  A file is a list of bytes; lengths and offsets (`OFF_T`) are natural numbers.
  Where a number is printed it goes through its C type first (`int32`, `offT`).
-/
import CloudEdgeBackup.Lib.Bytes

namespace CloudEdgeBackup

/-- The contents of a file, or a C string without its final NUL. -/
abbrev Bytes := List UInt8

/-- The bytes of a string literal. -/
def cstr (s : String) : Bytes := s.toList.map fun c => UInt8.ofNat c.toNat

theorem cstr_ofList (l : List Char) :
    cstr (String.ofList l) = l.map fun c => UInt8.ofNat c.toNat := by
  rw [cstr, String.toList_ofList]

/-- Bytes in the order of `strcmp`; the order of strings is the one of lists. -/
instance byteLinearOrder : LinearOrder UInt8 where
  le_refl := UInt8.le_refl
  le_trans _ _ _ := UInt8.le_trans
  le_antisymm _ _ := UInt8.le_antisymm
  le_total := UInt8.le_total
  lt_iff_le_not_ge _ _ := by rw [UInt8.not_le, iff_and_self]; exact UInt8.le_of_lt
  toDecidableLE := inferInstance
  toDecidableLT := inferInstance

/-! ## Sizes -/

abbrev chunkSize : ℕ := 32 * 1024
abbrev sparseWriteSize : ℕ := 1024
abbrev writeSize : ℕ := 32 * 1024
abbrev maxMapSize : ℕ := 256 * 1024
abbrev defaultBlockSize : ℕ := 700
abbrev oldMaxBlockSize : ℕ := 2 ^ 29
abbrev sumLength : ℕ := 16
abbrev maxDigestLen : ℕ := 16
abbrev maxPathLen : ℕ := 4096
abbrev maxBackupNum : ℕ := 100
abbrev charOffset : UInt32 := 0

/-- `AVAIL_OUT_SIZE(CHUNK_SIZE)`: the longest literal `recv_token` returns (the
    inflate buffer; without compression it is `chunkSize`). -/
abbrev maxLiteral : ℕ := chunkSize * 1001 / 1000 + 16

/-- The value an `int` has after a number was stored in it. -/
def int32 (x : ℤ) : ℤ := Int.bmod x (2 ^ 32)

/-- The value an `OFF_T` (or `long`) has after a number was stored in it. -/
def offT (x : ℤ) : ℤ := Int.bmod x (2 ^ 64)

theorem int32_of_lt {n : ℕ} (h : n < 2 ^ 31) : int32 n = n := by
  rw [int32, Int.bmod_eq_of_le] <;> omega

theorem offT_of_lt {n : ℕ} (h : n < 2 ^ 63) : offT n = n := by
  rw [offT, Int.bmod_eq_of_le] <;> omega

/-- `backup_type` -/
inductive BackupType
  | incremental
  | differential
deriving DecidableEq, Repr

/-! ## Block checksums -/

/-- The part of a `sum_struct` that goes over the wire; the bounds are those
    `read_sum_head` checks. -/
structure SumHead where
  count : ℕ
  blength : ℕ
  remainder : ℕ
  s2length : ℕ
  count_lt : count < 2 ^ 31
  blength_le : blength ≤ oldMaxBlockSize
  remainder_le : remainder ≤ blength
  s2length_le : s2length ≤ maxDigestLen

namespace SumHead

/-- The header `write_sum_head` sends for a `NULL` sum. -/
def null : SumHead := ⟨0, 0, 0, 0, by norm_num, by norm_num, le_rfl, by norm_num⟩

variable (h : SumHead)

/-- The header without its blocks. -/
def noBlocks : SumHead :=
  { h with count := 0, remainder := 0, count_lt := by norm_num, remainder_le := Nat.zero_le _ }

/-- The length of block `i`: the last block may be shorter. -/
def len (i : ℕ) : ℕ := if i + 1 = h.count ∧ h.remainder ≠ 0 then h.remainder else h.blength

/-- The offset of block `i` in the basis. -/
def offset (i : ℕ) : ℕ := i * h.blength

/-- The length of the file the blocks cut up, as the append mode computes it. -/
def flength : ℤ :=
  (h.count : ℤ) * h.blength - if h.remainder ≠ 0 then (h.blength : ℤ) - h.remainder else 0

theorem len_le (i : ℕ) : h.len i ≤ h.blength := by
  unfold len; split_ifs
  · exact h.remainder_le
  · exact le_rfl

end SumHead

/-! ## Tokens -/

/-- What `recv_token` returns: literal data or a block number (`-(n+1)`).  The
    final 0 is the end of the list. -/
inductive Token where
  | data (d : Bytes)
  | block (i : ℕ)
  deriving DecidableEq, Repr

/-- Literals are non-empty and fit the token buffer, block numbers are `int32`. -/
def Token.Wf : Token → Prop
  | .data d => d ≠ [] ∧ d.length ≤ maxLiteral
  | .block i => i < 2 ^ 31

instance : DecidablePred Token.Wf := fun t => by
  cases t <;> unfold Token.Wf <;> infer_instance

/-- The results of `recv_token` for one file. -/
structure TokenStream where
  toks : List Token
  wf : ∀ t ∈ toks, t.Wf

/-! ## Options -/

/-- The options (and the globals derived from them) that `receive_data` reads. -/
structure Opts where
  inplace : Bool
  /-- `append_mode`: 1 is `--append`, 2 `--append-verify`; negative in the redo phase. -/
  appendMode : ℤ
  /-- `sparse_files`: negative in the redo phase of an append. -/
  sparseFiles : ℤ
  wholeFile : Bool
  /-- `updating_basis_or_equiv`: in place, over the basis or an identical copy of it. -/
  updatingBasisOrEquiv : Bool

end CloudEdgeBackup
