/-
  The delta file: the records `receive_data` writes for a backup and the loop
  that rebuilds a file from them.  The loop stands three times in the source
  (`combine_incremental_files`, `combine_differental_files`,
  `update_incre_full_backup`) with one text; `applyDelta` is that text.

  A delta file is a metadata line and records in text, a literal record being
  followed by the literal bytes themselves.  The reader takes lines of at most
  `1024*100 - 1` bytes, so a literal with newlines or with text that looks like
  a record is told from one only by the length in front of it.

  * `metadataLine`, `Rec.bytes` are what is written, `Rec.replay` what a record
    stands for;
  * `applyDelta_records`: reading back any list of records gives what they
    stand for, whatever bytes the literals hold.
-/
import CloudEdgeBackup.Lib.Format
import CloudEdgeBackup.FileIO

namespace CloudEdgeBackup

open Zext Cfmt

/-! ## Writing -/

def metadataFmt : List Piece :=
  fmt ("[delta file metadata] file_size = %ld, content_size = %ld, block_size = %d, " ++
    "block_count = %d, remainder_block = %d\n")

def unmatchFmt : List Piece := fmt "unmatch data length = %d, offset = %ld\n"

/-- The writer's format has a blank before the newline, the reader's has not. -/
def matchFmt : List Piece := fmt "match token = %d, offset = %ld, offset2 = %ld \n"

/-- A record of a delta file. -/
inductive Rec where
  | unmatch (offset : ℕ) (data : Bytes)
  | matched (token offset offset2 : ℕ)
  deriving DecidableEq, Repr

/-- The first line of a delta file. -/
def metadataLine (totalSize sizeR : ℕ) (sum : SumHead) : Bytes :=
  print metadataFmt [offT totalSize, offT sizeR, int32 sum.blength, int32 sum.count,
    int32 sum.remainder]

def Rec.bytes : Rec → Bytes
  | .unmatch offset data => print unmatchFmt [int32 data.length, offT offset] ++ data
  | .matched token offset offset2 => print matchFmt [int32 token, offT offset, offT offset2]

/-! ## Reading -/

/-- `sizeof(line)`, `sizeof(unmatch_data)` -/
abbrev lineSize : ℕ := 1024 * 100
abbrev unmatchSize : ℕ := 1024 * 1000

/-- What the reader keeps of the metadata line. -/
structure DeltaMeta where
  contentSize : ℤ
  blockLength : ℤ
  blockCount : ℤ
  remainderLength : ℤ

/-- A field the line lacks keeps its initial value -1. -/
def parseMetadata (line : Bytes) : DeltaMeta :=
  let v := scan metadataFmt line
  ⟨offT (v.getD 1 (-1)), int32 (v.getD 2 (-1)), int32 (v.getD 3 (-1)), int32 (v.getD 4 (-1))⟩

/-- `map_len` -/
def DeltaMeta.mapLen (m : DeltaMeta) (token : ℤ) : ℤ :=
  if token = m.blockCount - 1 ∧ m.remainderLength ≠ 0 then m.remainderLength else m.blockLength

/-- A match record: the block is read from the full file.  A negative length or
    offset ends the process in `map_ptr`. -/
def readMatch (full : Bytes) (m : DeltaMeta) (mapbuf : MapStruct) (line : Bytes) :
    Option (Bytes × MapStruct) :=
  let v := scan (fmt "match token = %d, offset = %ld, offset2 = %ld\n") line
  let len := m.mapLen (int32 (v.getD 0 (-1)))
  let offset2 := offT (v.getD 2 (-1))
  if 0 ≤ len ∧ 0 ≤ offset2 then
    let r := mapPtr full mapbuf offset2.toNat len.toNat
    some (r.1.getD [], r.2)
  else none

/-- A literal record: the number of bytes that follow.  `none` where the buffer
    overflows or the file ends too early (the buffer then holds stale bytes). -/
def readUnmatch (line rest : Bytes) : Option ℕ :=
  let v := scan (fmt "unmatch data length = %ld, offset = %ld\n") line
  -- `unmatch_len` is a `size_t`
  let len := (offT (v.getD 0 0) % 2 ^ 64).toNat
  if len ≤ unmatchSize ∧ len ≤ rest.length then some len else none

/-- One line of the loop: the bytes written to the rebuilt file, the moved window,
    and how many bytes behind the line belong to the record. -/
def readRecord (full : Bytes) (m : DeltaMeta) (mapbuf : MapStruct) (line rest : Bytes) :
    Option (Bytes × MapStruct × ℕ) :=
  if line = cstr "\n" ∨ line = cstr "\r\n" then some ([], mapbuf, 0)
  else if cstr "match token" <+: line then
    (readMatch full m mapbuf line).map fun r => (r.1, r.2, 0)
  else if cstr "unmatch data length" <+: line then
    (readUnmatch line rest).map fun len => (rest.take len, mapbuf, len)
  else some ([], mapbuf, 0)

/-- The loop over the lines; `out` is what has been written so far. -/
def readRecords (full : Bytes) (m : DeltaMeta) (mapbuf : MapStruct) (out s : Bytes) :
    Option Bytes :=
  if s = [] then some out
  else
    let line := (fgets (lineSize - 1) s).1
    let rest := (fgets (lineSize - 1) s).2
    match readRecord full m mapbuf line rest with
    | none => none
    | some (d, mapbuf, len) => readRecords full m mapbuf (out ++ d) (rest.drop len)
termination_by s.length
decreasing_by
  have := fgets_pos (n := lineSize - 1) (by norm_num) ‹s ≠ []›
  rw [List.length_drop]
  omega

/-- The file rebuilt from `full` by a delta file. -/
def applyDelta (full delta : Bytes) : Option Bytes :=
  let m := parseMetadata (fgets (lineSize - 1) delta).1
  let rest := (fgets (lineSize - 1) delta).2
  if rest = [] then some []
  else if m.blockLength < 0 then none
  else
    let readSize := max (int32 (2 * m.blockLength)) (16 * 1024)
    readRecords full m (mapFile m.contentSize readSize.toNat m.blockLength.toNat) [] rest

/-! ## What a record stands for -/

/-- The bytes a record puts into the rebuilt file. -/
def Rec.replay (full : Bytes) (sum : SumHead) : Rec → Bytes
  | .unmatch _ data => data
  | .matched token _ offset2 => zslice full offset2 (sum.len token)

/-- Literals fit the buffer of the reader, block numbers are those of the header. -/
def Rec.Wf (sum : SumHead) : Rec → Prop
  | .unmatch _ data => data.length ≤ unmatchSize
  | .matched token _ offset2 => token < 2 ^ 31 ∧ offset2 = sum.offset token

/-! ## Lines -/

theorem unmatchFmt_eq : unmatchFmt =
    (cstr "unmatch data length").map .chr ++ fmt " = %d, offset = %ld\n" := by
  rw [unmatchFmt, fmt_ofList, cstr_ofList, fmt_ofList]
  decide

theorem matchFmt_eq : matchFmt =
    (cstr "match token").map .chr ++ fmt " = %d, offset = %ld, offset2 = %ld \n" := by
  rw [matchFmt, fmt_ofList, cstr_ofList, fmt_ofList]
  decide

theorem metadataFmt_eq : metadataFmt = fmtChars
    ("[delta file metadata] file_size = %ld, content_size = %ld, block_size = %d, ".toList ++
      "block_count = %d, remainder_block = %d\n".toList) := by
  rw [metadataFmt, fmt, String.toList_append]

theorem print_map_chr (b : Bytes) (f : List Piece) (as : List ℤ) :
    print (b.map .chr ++ f) as = b ++ print f as := by
  induction b with
  | nil => rfl
  | cons c b ih => simp [print, ih]

/-- The range of a `long`. -/
def IsLong (x : ℤ) : Prop := -2 ^ 63 ≤ x ∧ x < 2 ^ 63

theorem isLong_offT (x : ℤ) : IsLong (offT x) := by
  have h₁ := Int.le_bmod (x := x) (m := 2 ^ 64) (by norm_num)
  have h₂ := Int.bmod_lt (x := x) (m := 2 ^ 64) (by norm_num)
  norm_num at h₁ h₂
  unfold offT IsLong
  norm_num
  omega

theorem isLong_int32 (x : ℤ) : IsLong (int32 x) := by
  have h₁ := Int.le_bmod (x := x) (m := 2 ^ 32) (by norm_num)
  have h₂ := Int.bmod_lt (x := x) (m := 2 ^ 32) (by norm_num)
  norm_num at h₁ h₂
  unfold int32 IsLong
  norm_num
  omega

theorem offT_offT (x : ℤ) : offT (offT x) = offT x := Int.bmod_bmod

/-- A printed record line is read back as one line: it has one newline, at the
    end, and is short. -/
theorem fgets_print {f : List Piece} {as : List ℤ} (hf : Piece.chr 10 ∉ f)
    (hlen : f.length + 20 * arity f < lineSize - 1)
    (has : ∀ a ∈ as, IsLong a) (ha : arity f = as.length) (r : Bytes) :
    fgets (lineSize - 1) (print (f ++ [.chr 10]) as ++ r) = (print (f ++ [.chr 10]) as, r) := by
  have hsplit : print (f ++ [.chr 10]) as = print f as ++ [10] := by
    have := print_append f [.chr 10] as [] ha
    simpa [print] using this
  have hnl : (10 : UInt8) ∉ print f as := fun h => by
    rcases mem_print h with h | h | h
    · exact hf h
    · exact absurd h (by decide)
    · exact absurd h (by decide)
  have hle := print_length_le (m := 20) (f := f) fun a ha' =>
    showInt_length_le (has a ha').1 (has a ha').2
  rw [hsplit, List.append_assoc]
  exact fgets_line hnl r (by omega)

theorem arity_metadataFmt : arity metadataFmt = 5 := by
  rw [metadataFmt_eq, String.toList_ofList, String.toList_ofList]
  decide

theorem separated_metadataFmt : Separated metadataFmt = true := by
  rw [metadataFmt_eq, String.toList_ofList, String.toList_ofList]
  decide

theorem fgets_metadataLine (totalSize sizeR : ℕ) (sum : SumHead) (r : Bytes) :
    fgets (lineSize - 1) (metadataLine totalSize sizeR sum ++ r) =
      (metadataLine totalSize sizeR sum, r) := by
  obtain ⟨hf, hn, hl, ha⟩ : metadataFmt = metadataFmt.dropLast ++ [.chr 10] ∧
      Piece.chr 10 ∉ metadataFmt.dropLast ∧
      metadataFmt.dropLast.length + 20 * arity metadataFmt.dropLast < lineSize - 1 ∧
      arity metadataFmt.dropLast = 5 := by
    rw [metadataFmt_eq, String.toList_ofList, String.toList_ofList]
    decide
  rw [metadataLine, hf]
  refine fgets_print hn hl ?_ (by rw [ha]; rfl) r
  simp [isLong_offT, isLong_int32]

theorem fgets_unmatch (len offset : ℤ) (r : Bytes) :
    fgets (lineSize - 1) (print unmatchFmt [int32 len, offT offset] ++ r) =
      (print unmatchFmt [int32 len, offT offset], r) := by
  have hf : unmatchFmt = fmt "unmatch data length = %d, offset = %ld" ++ [.chr 10] := by
    rw [unmatchFmt, fmt_ofList, fmt_ofList]
    decide
  rw [hf, fmt_ofList]
  refine fgets_print (by decide) (by decide) ?_ (by rfl) r
  simp [isLong_offT, isLong_int32]

theorem fgets_matched (token offset offset2 : ℤ) (r : Bytes) :
    fgets (lineSize - 1) (print matchFmt [int32 token, offT offset, offT offset2] ++ r) =
      (print matchFmt [int32 token, offT offset, offT offset2], r) := by
  have hf : matchFmt = fmt "match token = %d, offset = %ld, offset2 = %ld " ++ [.chr 10] := by
    rw [matchFmt, fmt_ofList, fmt_ofList]
    decide
  rw [hf, fmt_ofList]
  refine fgets_print (by decide) (by decide) ?_ (by rfl) r
  simp [isLong_offT, isLong_int32]

/-! ## Reading back -/

/-- What the reader makes of the metadata line of `sum`. -/
def SumHead.toMeta (sum : SumHead) (sizeR : ℕ) : DeltaMeta :=
  ⟨offT sizeR, sum.blength, sum.count, sum.remainder⟩

namespace SumHead

variable (sum : SumHead)

theorem int32_blength : int32 sum.blength = sum.blength :=
  int32_of_lt (lt_of_le_of_lt sum.blength_le (by norm_num))

theorem int32_count : int32 sum.count = sum.count := int32_of_lt sum.count_lt

theorem int32_remainder : int32 sum.remainder = sum.remainder :=
  int32_of_lt (lt_of_le_of_lt (sum.remainder_le.trans sum.blength_le) (by norm_num))

theorem offset_lt {i : ℕ} (hi : i < 2 ^ 31) : sum.offset i < 2 ^ 63 := by
  have h : sum.offset i ≤ 2 ^ 31 * 2 ^ 29 := Nat.mul_le_mul hi.le sum.blength_le
  exact lt_of_le_of_lt h (by norm_num)

theorem mapLen_toMeta (sizeR i : ℕ) : (sum.toMeta sizeR).mapLen i = sum.len i := by
  have h : ((i : ℤ) = sum.count - 1 ∧ (sum.remainder : ℤ) ≠ 0) ↔
      (i + 1 = sum.count ∧ sum.remainder ≠ 0) := by omega
  simp only [DeltaMeta.mapLen, toMeta, len, h]
  split_ifs <;> rfl

end SumHead

theorem parseMetadata_metadataLine (totalSize sizeR : ℕ) (sum : SumHead) :
    parseMetadata (metadataLine totalSize sizeR sum) = sum.toMeta sizeR := by
  have hscan := scan_print metadataFmt [offT totalSize, offT sizeR, int32 sum.blength,
    int32 sum.count, int32 sum.remainder] [] separated_metadataFmt
    arity_metadataFmt (by simp)
  rw [List.append_nil] at hscan
  rw [parseMetadata, metadataLine, hscan]
  simp only [SumHead.toMeta, List.getD_cons_zero, List.getD_cons_succ, offT_offT,
    sum.int32_blength, sum.int32_count, sum.int32_remainder]

theorem separated_matchFmt : Separated matchFmt = true ∧ arity matchFmt = 3 := by
  rw [matchFmt, fmt_ofList]
  decide

theorem separated_unmatchFmt : Separated unmatchFmt = true ∧ arity unmatchFmt = 2 := by
  rw [unmatchFmt, fmt_ofList]
  decide

theorem readMatch_print {full : Bytes} {sum : SumHead} (sizeR : ℕ) {mapbuf : MapStruct} {i : ℕ}
    (hi : i < 2 ^ 31) (hm : mapbuf.Forall fun x b => b = zget full x) (offset : ℕ) :
    ∃ mapbuf', readMatch full (sum.toMeta sizeR) mapbuf
        (print matchFmt [int32 i, offT offset, offT (sum.offset i)]) =
          some (zslice full (sum.offset i) (sum.len i), mapbuf') ∧
      mapbuf'.Forall fun x b => b = zget full x := by
  -- both formats are the same up to the last conversion
  have hscan : scan (fmt "match token = %d, offset = %ld, offset2 = %ld\n")
      (print matchFmt [int32 i, offT offset, offT (sum.offset i)]) =
        [int32 i, offT offset, offT (sum.offset i)] := by
    have hread : fmt "match token = %d, offset = %ld, offset2 = %ld\n" =
        fmt "match token = %d, offset = %ld, offset2 = %ld" ++ [.chr 10] := by
      rw [fmt_ofList, fmt_ofList]
      decide
    have hwrite : fmt "match token = %d, offset = %ld, offset2 = %ld" ++ [.chr 32, .chr 10] =
        matchFmt := by
      rw [matchFmt, fmt_ofList, fmt_ofList]
      decide
    rw [hread, scan_append_chr _ _ (by rfl), ← scan_append_chr _ [.chr 32, .chr 10] (by rfl), hwrite]
    have := scan_print matchFmt [int32 i, offT offset, offT (sum.offset i)] []
      separated_matchFmt.1 separated_matchFmt.2 (by simp)
    rwa [List.append_nil] at this
  rw [readMatch, hscan]
  simp only [List.getD_cons_zero, List.getD_cons_succ, offT_of_lt (sum.offset_lt hi), int32_of_lt hi, sum.mapLen_toMeta]
  rw [if_pos ⟨by positivity, by positivity⟩]
  simp only [Int.toNat_natCast]
  by_cases hlen : sum.len i = 0
  · rw [hlen]
    exact ⟨mapbuf, by simp [mapPtr], hm⟩
  · obtain ⟨h₁, h₂⟩ := mapPtr_eq (sum.offset i) hlen hm
    exact ⟨_, by rw [h₁]; rfl, h₂⟩

theorem readUnmatch_print {data rest : Bytes} (hd : data.length ≤ unmatchSize) (offset : ℕ) :
    readUnmatch (print unmatchFmt [int32 data.length, offT offset]) (data ++ rest) =
      some data.length := by
  have hscan : scan (fmt "unmatch data length = %ld, offset = %ld\n")
      (print unmatchFmt [int32 data.length, offT offset]) = [int32 data.length, offT offset] := by
    have hread : fmt "unmatch data length = %ld, offset = %ld\n" = unmatchFmt := by
      rw [unmatchFmt, fmt_ofList, fmt_ofList]
      decide
    rw [hread]
    have := scan_print unmatchFmt [int32 data.length, offT offset] []
      separated_unmatchFmt.1 separated_unmatchFmt.2 (by simp)
    rwa [List.append_nil] at this
  have hlt : data.length < 2 ^ 31 := lt_of_le_of_lt hd (by norm_num)
  have hval : (offT (int32 data.length) % 2 ^ 64).toNat = data.length := by
    rw [int32_of_lt hlt, offT_of_lt (hlt.trans (by norm_num))]
    omega
  simp only [readUnmatch, hscan, List.getD_cons_zero, hval]
  rw [if_pos ⟨hd, by simp⟩]

/-- The first characters tell a record line from the others. -/
theorem matched_line (as : List ℤ) : cstr "match token" <+: print matchFmt as := by
  rw [matchFmt_eq, print_map_chr]; exact List.prefix_append _ _

theorem unmatch_line (as : List ℤ) : cstr "unmatch data length" <+: print unmatchFmt as := by
  rw [unmatchFmt_eq, print_map_chr]; exact List.prefix_append _ _

theorem head_ne {p line : Bytes} (hp : p <+: line) {q : Bytes} (h : p.head? ≠ q.head?)
    (h₀ : p ≠ []) : line ≠ q ∧ (q ≠ [] → ¬ q <+: line) := by
  obtain ⟨c, p, rfl⟩ := List.exists_cons_of_ne_nil h₀
  obtain ⟨t, rfl⟩ := hp
  refine ⟨by rintro rfl; simp at h, fun hq hpre => ?_⟩
  obtain ⟨d, q, rfl⟩ := List.exists_cons_of_ne_nil hq
  obtain ⟨u, hu⟩ := hpre
  simp at h hu
  exact h hu.1.symm

/-- A literal record is taken for nothing else by the loop. -/
theorem unmatch_line_ne (as : List ℤ) : print unmatchFmt as ≠ [] ∧
    ¬ (print unmatchFmt as = cstr "\n" ∨ print unmatchFmt as = cstr "\r\n") ∧
    ¬ cstr "match token" <+: print unmatchFmt as := by
  have hline := unmatch_line as
  rw [cstr_ofList] at hline
  rw [cstr_ofList, cstr_ofList, cstr_ofList, not_or]
  exact ⟨(head_ne hline (by decide) (by decide)).1,
    ⟨(head_ne hline (by decide) (by decide)).1, (head_ne hline (by decide) (by decide)).1⟩,
    (head_ne hline (by decide) (by decide)).2 (by decide)⟩

/-- Nor is a match record taken for an empty line. -/
theorem matched_line_ne (as : List ℤ) : print matchFmt as ≠ [] ∧
    ¬ (print matchFmt as = cstr "\n" ∨ print matchFmt as = cstr "\r\n") := by
  have hline := matched_line as
  rw [cstr_ofList] at hline
  rw [cstr_ofList, cstr_ofList, not_or]
  exact ⟨(head_ne hline (by decide) (by decide)).1,
    (head_ne hline (by decide) (by decide)).1, (head_ne hline (by decide) (by decide)).1⟩

theorem Rec.bytes_ne_nil (r : Rec) : r.bytes ≠ [] := by
  cases r with
  | unmatch offset data => simp [Rec.bytes, (unmatch_line_ne _).1]
  | matched token offset offset2 => exact (matched_line_ne _).1

theorem readRecords_line {full : Bytes} {m : DeltaMeta} {mapbuf mapbuf' : MapStruct}
    {line rest d : Bytes} {len : ℕ} (hline : line ≠ [])
    (hget : fgets (lineSize - 1) (line ++ rest) = (line, rest))
    (hrec : readRecord full m mapbuf line rest = some (d, mapbuf', len)) (out : Bytes) :
    readRecords full m mapbuf out (line ++ rest) =
      readRecords full m mapbuf' (out ++ d) (rest.drop len) := by
  rw [readRecords, if_neg (by simp [hline]), hget]
  simp only [hrec]

/-- One record is read, whatever follows it. -/
theorem readRecords_record {full : Bytes} {sum : SumHead} (sizeR : ℕ) {mapbuf : MapStruct}
    {r : Rec} (hr : r.Wf sum) (hm : mapbuf.Forall fun x b => b = zget full x) (out s : Bytes) :
    ∃ mapbuf', readRecords full (sum.toMeta sizeR) mapbuf out (r.bytes ++ s) =
        readRecords full (sum.toMeta sizeR) mapbuf' (out ++ r.replay full sum) s ∧
      mapbuf'.Forall fun x b => b = zget full x := by
  cases r with
  | unmatch offset data =>
    obtain ⟨hne, hempty, hmt⟩ := unmatch_line_ne [int32 data.length, offT offset]
    have hrec : readRecord full (sum.toMeta sizeR) mapbuf
        (print unmatchFmt [int32 data.length, offT offset]) (data ++ s) =
          some (data, mapbuf, data.length) := by
      rw [readRecord, if_neg hempty, if_neg hmt, if_pos (unmatch_line _), readUnmatch_print hr]
      simp
    refine ⟨mapbuf, ?_, hm⟩
    rw [Rec.bytes, List.append_assoc, readRecords_line hne (fgets_unmatch _ _ _) hrec,
      List.drop_left]
    rfl
  | matched token offset offset2 =>
    obtain ⟨hi, rfl⟩ := hr
    obtain ⟨hne, hempty⟩ := matched_line_ne [int32 token, offT offset, offT (sum.offset token)]
    obtain ⟨mapbuf', hread, hm'⟩ := readMatch_print sizeR hi hm offset
    have hrec : readRecord full (sum.toMeta sizeR) mapbuf
        (print matchFmt [int32 token, offT offset, offT (sum.offset token)]) s =
          some (zslice full (sum.offset token) (sum.len token), mapbuf', 0) := by
      rw [readRecord, if_neg hempty, if_pos (matched_line _), hread]
      rfl
    refine ⟨mapbuf', ?_, hm'⟩
    rw [Rec.bytes, readRecords_line hne (fgets_matched _ _ _ _) hrec, List.drop_zero]
    rfl

theorem readRecords_records {full : Bytes} {sum : SumHead} {sizeR : ℕ} {rs : List Rec}
    (hrs : ∀ r ∈ rs, r.Wf sum) {mapbuf : MapStruct}
    (hm : mapbuf.Forall fun x b => b = zget full x) (out : Bytes) :
    readRecords full (sum.toMeta sizeR) mapbuf out (rs.flatMap Rec.bytes) =
      some (out ++ rs.flatMap (Rec.replay full sum)) := by
  induction rs generalizing mapbuf out with
  | nil => rw [List.flatMap_nil, readRecords, if_pos rfl]; simp
  | cons r rs ih =>
    obtain ⟨mapbuf', hread, hm'⟩ := readRecords_record sizeR (hrs r (by simp)) hm out
      (rs.flatMap Rec.bytes)
    rw [List.flatMap_cons, hread, ih (fun r' h => hrs r' (by simp [h])) hm']
    simp

/-- **A delta file is read back as what its records stand for**, whatever bytes
    its literals hold. -/
theorem applyDelta_records (full : Bytes) (totalSize sizeR : ℕ) {sum : SumHead} {rs : List Rec}
    (hrs : ∀ r ∈ rs, r.Wf sum) :
    applyDelta full (metadataLine totalSize sizeR sum ++ rs.flatMap Rec.bytes) =
      some (rs.flatMap (Rec.replay full sum)) := by
  unfold applyDelta
  simp only [fgets_metadataLine, parseMetadata_metadataLine]
  by_cases hnil : rs = []
  · simp [hnil]
  · have hb : ¬ (sum.toMeta sizeR).blockLength < 0 := by simp [SumHead.toMeta]
    have hne : rs.flatMap Rec.bytes ≠ [] := by
      obtain ⟨r, rs, rfl⟩ := List.exists_cons_of_ne_nil hnil
      simp [Rec.bytes_ne_nil]
    rw [if_neg hne, if_neg hb, readRecords_records hrs (MapStruct.forall_mapFile _ _ _ _)]
    simp

end CloudEdgeBackup
