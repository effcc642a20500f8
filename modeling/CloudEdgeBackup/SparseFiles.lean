/-
  Sparse and dense writing (`write_sparse` and `write_file` in `fileio.c`, the end of `receive_data`)
  of any number of files, one after the other.

  * `DestFile` is a destination with what it held, the length that was preallocated, and the calls of
    `write_file` and `skip_matched`; `receiveFiles` writes the files; what is static in the write
    layer goes from one file to the next;
  * `pieces`: what `write_sparse` gets; `CleanRuns`: the condition on the runs of zeros between the data
    of the pieces.  Where a run is seeked over the old content has to be zeros, where it is punched
    `sparse_past_write` has to be where it begins; and the old content has to be zeros at the end;
  * `sparseFiles_iff`: the files are the same, sparse or not, exactly when all of them are `CleanRuns`.
-/
import CloudEdgeBackup.Output

namespace CloudEdgeBackup

open Zext

/-! ## Files -/

/-- A call of `write_file`, or of `skip_matched`. -/
structure WriteCall where
  matched : Bool
  data : Bytes

/-- The data of matched calls is in the file at the same place. -/
def MatchesAt (old : Bytes) : ℕ → List WriteCall → Prop
  | _, [] => True
  | offset, c :: cs => (c.matched = true → offset + c.data.length ≤ old.length ∧
      ∀ j < c.data.length, zget c.data j = zget old (offset + j)) ∧
    MatchesAt old (offset + c.data.length) cs

/-- A destination; a new file has at most what was preallocated, and nothing matches. -/
structure DestFile where
  old : Bytes
  inplace : Bool
  preallocatedLen : ℕ
  calls : List WriteCall
  matching : MatchesAt old 0 calls
  new : inplace = false → old.length ≤ preallocatedLen ∧ ∀ c ∈ calls, c.matched = false

/-- One call of `receive_data`. -/
def WriteCall.run (sparse : Bool) (f : OutFile) (offset : ℕ) (c : WriteCall) : Option OutFile :=
  if c.matched then skipMatched sparse f offset c.data else writeFile sparse f false offset c.data

def runCalls (sparse : Bool) : OutFile → ℕ → List WriteCall → Option OutFile
  | f, _, [] => some f
  | f, offset, c :: cs => (c.run sparse f offset).bind fun f => runCalls sparse f (offset + c.data.length) cs

def callsData (calls : List WriteCall) : Bytes := calls.flatMap WriteCall.data

namespace DestFile

variable (d : DestFile)

/-- What is to be written. -/
def data : Bytes := callsData d.calls

/-- `receive_data`: the descriptor is new, the statics are those of the file before. -/
def receive (sparse : Bool) (f : OutFile) : Option OutFile :=
  (runCalls sparse { f with data := d.old, pos := 0, preallocatedLen := d.preallocatedLen } 0 d.calls).map
    fun f => finishOutput sparse d.inplace f d.data.length

end DestFile

/-- The files one after the other, with what each of them holds; an error ends the process. -/
def receiveFiles (sparse : Bool) : OutFile → List DestFile → Option (List Bytes)
  | _, [] => some []
  | f, d :: ds => do
    let f ← d.receive sparse f
    let rest ← receiveFiles sparse f ds
    pure (f.data :: rest)

/-- The write layer when the process begins. -/
def firstOutput : OutFile := ⟨[], 0, [], 0, 0, 0⟩

/-! ## Pieces -/

/-- The pieces of `SPARSE_WRITE_SIZE`. -/
def sparsePieces (buf : Bytes) : List Bytes :=
  if buf = [] then []
  else buf.take (min buf.length sparseWriteSize) :: sparsePieces (buf.drop (min buf.length sparseWriteSize))
termination_by buf.length
decreasing_by
  have := List.length_pos_iff.2 ‹buf ≠ []›
  simp; omega

/-- What `write_sparse` gets. -/
def pieces (calls : List WriteCall) : List WriteCall :=
  calls.flatMap fun c => (sparsePieces c.data).map fun p => ⟨c.matched, p⟩

/-- The zeros at the end of a piece that is not all zeros. -/
def tailZeros (p : Bytes) : ℕ := trailZeros (p.drop (leadZeros p))

/-- A run of zeros from `a` to `b` that is followed by data is right on disk: it is seeked over where
    `sparse_past_write` is not below the preallocated length, and punched elsewhere. -/
def CleanGap (old : Bytes) (prealloc past a b : ℕ) : Prop :=
  a < b → if prealloc ≤ past then ∀ x, a ≤ x → x < b → zget old x = 0 else past = a

/-- All runs of zeros are right on disk, where data was written up to `a`, and zeros up to `offset`. -/
def CleanRuns (old : Bytes) (prealloc : ℕ) : ℕ → ℕ → ℕ → List WriteCall → Prop
  | _, a, offset, [] => ∀ x, a ≤ x → x < offset → zget old x = 0
  | past, a, offset, c :: cs =>
    if leadZeros c.data = c.data.length then CleanRuns old prealloc past a (offset + c.data.length) cs
    else CleanGap old prealloc past a (offset + leadZeros c.data) ∧
      CleanRuns old prealloc (offset + c.data.length - tailZeros c.data) (offset + c.data.length - tailZeros c.data)
        (offset + c.data.length) cs

/-- `sparse_past_write` behind the pieces. -/
def pastWrite : ℕ → ℕ → List WriteCall → ℕ
  | past, _, [] => past
  | past, offset, c :: cs =>
    pastWrite (if leadZeros c.data = c.data.length then past else offset + c.data.length - tailZeros c.data)
      (offset + c.data.length) cs

/-- All files are right, from `past` on. -/
def CleanFiles : ℕ → List DestFile → Prop
  | _, [] => True
  | past, d :: ds => CleanRuns d.old d.preallocatedLen past 0 0 (pieces d.calls) ∧
      CleanFiles (pastWrite past 0 (pieces d.calls)) ds

/-! ### The run over the pieces -/

def runPieces : OutFile → ℕ → List WriteCall → Option OutFile
  | f, _, [] => some f
  | f, offset, c :: cs =>
    (writeSparse f c.matched offset c.data).bind fun f => runPieces f (offset + c.data.length) cs

variable {old : Bytes} {calls calls' : List WriteCall} {f f' : OutFile} {offset : ℕ}

@[simp] theorem callsData_nil : callsData [] = [] := rfl

@[simp] theorem callsData_cons (c : WriteCall) : callsData (c :: calls) = c.data ++ callsData calls := rfl

theorem callsData_append : callsData (calls ++ calls') = callsData calls ++ callsData calls' :=
  List.flatMap_append

theorem runPieces_append : runPieces f offset (calls ++ calls') =
    (runPieces f offset calls).bind fun f => runPieces f (offset + (callsData calls).length) calls' := by
  induction calls generalizing f offset with
  | nil => rfl
  | cons c calls ih =>
    rw [List.cons_append, runPieces, runPieces, Option.bind_assoc, callsData_cons, List.length_append,
      ← Nat.add_assoc]
    exact congrArg _ (funext fun f => ih)

theorem writeFileSparse_eq (f : OutFile) (useSeek : Bool) (offset : ℕ) (buf : Bytes) :
    writeFileSparse f useSeek offset buf =
      runPieces f offset ((sparsePieces buf).map fun p => ⟨useSeek, p⟩) := by
  induction f, offset, buf using writeFileSparse.induct with
  | case1 f offset =>
    rw [writeFileSparse, if_pos rfl, sparsePieces, if_pos rfl]
    rfl
  | case2 f offset buf hbuf len1 ih =>
    rw [writeFileSparse, if_neg hbuf, sparsePieces, if_neg hbuf, List.map_cons, runPieces,
      List.length_take_of_le (Nat.min_le_left _ _)]
    show (writeSparse f useSeek offset _).bind _ = _
    refine congrArg ((writeSparse f useSeek offset _).bind ·) (funext fun f => ?_)
    exact ih f

theorem callsData_sparsePieces (matched : Bool) (buf : Bytes) :
    callsData ((sparsePieces buf).map fun p => ⟨matched, p⟩) = buf := by
  induction buf using sparsePieces.induct with
  | case1 =>
    rw [sparsePieces, if_pos rfl]
    rfl
  | case2 buf hbuf ih =>
    rw [sparsePieces, if_neg hbuf, List.map_cons, callsData_cons, ih]
    exact List.take_append_drop _ _

theorem pieces_cons (c : WriteCall) :
    pieces (c :: calls) = ((sparsePieces c.data).map fun p => ⟨c.matched, p⟩) ++ pieces calls := rfl

theorem callsData_pieces (calls : List WriteCall) : callsData (pieces calls) = callsData calls := by
  induction calls with
  | nil => rfl
  | cons c calls ih => rw [pieces_cons, callsData_append, callsData_sparsePieces, ih, callsData_cons]

theorem runCalls_eq_runPieces (f : OutFile) (offset : ℕ) (calls : List WriteCall) :
    runCalls true f offset calls = runPieces f offset (pieces calls) := by
  induction calls generalizing f offset with
  | nil => rfl
  | cons c calls ih =>
    have hrun : c.run true f offset = writeFileSparse f c.matched offset c.data := by
      rw [WriteCall.run]
      cases c.matched with
      | true => rfl
      | false => rfl
    rw [runCalls, hrun, pieces_cons, runPieces_append, writeFileSparse_eq, callsData_sparsePieces]
    exact congrArg _ (funext fun f => ih f _)

theorem MatchesAt.append (h : MatchesAt old offset calls)
    (h' : MatchesAt old (offset + (callsData calls).length) calls') : MatchesAt old offset (calls ++ calls') := by
  induction calls generalizing offset with
  | nil => exact h'
  | cons c calls ih =>
    refine ⟨h.1, ih h.2 ?_⟩
    rw [Nat.add_assoc, ← List.length_append]
    exact h'

theorem matchesAt_sparsePieces {matched : Bool} {buf : Bytes} (h : matched = true →
      offset + buf.length ≤ old.length ∧ ∀ j < buf.length, zget buf j = zget old (offset + j)) :
    MatchesAt old offset ((sparsePieces buf).map fun p => ⟨matched, p⟩) := by
  induction buf using sparsePieces.induct generalizing offset with
  | case1 =>
    rw [sparsePieces, if_pos rfl]
    trivial
  | case2 buf hbuf ih =>
    rw [sparsePieces, if_neg hbuf, List.map_cons]
    have hlen : (buf.take (min buf.length sparseWriteSize)).length = min buf.length sparseWriteSize :=
      List.length_take_of_le (Nat.min_le_left _ _)
    refine ⟨fun hm => ⟨?_, fun j hj => ?_⟩, ih fun hm => ⟨?_, fun j hj => ?_⟩⟩
    · have := (h hm).1
      rw [hlen]
      omega
    · rw [hlen] at hj
      rw [zget_take hj]
      exact (h hm).2 j (by omega)
    · have := (h hm).1
      rw [List.length_drop]
      dsimp only
      rw [hlen]
      omega
    · rw [List.length_drop] at hj
      dsimp only
      rw [zget_drop, (h hm).2 _ (by omega), hlen, Nat.add_assoc]

theorem MatchesAt.pieces (h : MatchesAt old offset calls) : MatchesAt old offset (pieces calls) := by
  induction calls generalizing offset with
  | nil => trivial
  | cons c calls ih =>
    refine (matchesAt_sparsePieces h.1).append ?_
    rw [callsData_sparsePieces]
    exact ih h.2

/-! ## What is on disk -/

/-- Data was written up to `a` and zeros from there up to `offset`; behind `a` the file is as it was. -/
structure SparseAt (old : Bytes) (prealloc past a offset : ℕ) (f : OutFile) : Prop where
  prealloc : f.preallocatedLen = prealloc
  pos : f.pos = a
  seek : a + f.sparseSeek = offset
  past : f.sparsePastWrite = past
  ge : ∀ x, a ≤ x → zget f.data x = zget old x
  size : f.data.length = max old.length a

variable {prealloc past a n : ℕ}

/-- A run of zeros is seeked over, or punched; punching at another place fails. -/
theorem skipGap_cases (hpre : f.preallocatedLen = prealloc) (hpos : f.pos = a) (hseek : f.sparseSeek = n)
    (hpast : f.sparsePastWrite = past) :
    (0 < n ∧ past < prealloc ∧ past ≠ a) ∧ skipGap f = none ∨
    (0 < n → past < prealloc → past = a) ∧ ∃ f', skipGap f = some f' ∧ f'.preallocatedLen = prealloc ∧
      f'.pos = a + n ∧ f'.data.length = f.data.length ∧
      (∀ x, x < a ∨ a + n ≤ x → zget f'.data x = zget f.data x) ∧
      ∀ x, a ≤ x → x < a + n → zget f'.data x = if prealloc ≤ past then zget f.data x else 0 := by
  rw [skipGap, hseek, hpast, hpre]
  by_cases h0 : n = 0
  · rw [if_pos h0, h0]
    refine .inr ⟨fun h => absurd h (Nat.lt_irrefl 0), f, rfl, hpre, hpos, rfl, fun _ _ => rfl, fun x hx hx' => ?_⟩
    omega
  rw [if_neg h0]
  by_cases hle : prealloc ≤ past
  · rw [if_pos hle]
    refine .inr ⟨fun _ hlt => absurd hle (not_le.2 hlt), _, rfl, hpre, ?_, rfl, fun _ _ => rfl, fun x _ _ => ?_⟩
    · rw [OutFile.seekCur, hpos]
    · rw [if_pos hle]
      rfl
  rw [if_neg hle, OutFile.punchHole]
  dsimp only
  by_cases hat : past = a
  · rw [hpos, hat, if_pos rfl]
    have hget : ∀ x, zget (zresize (overwrite f.data a (List.replicate n 0)) f.data.length) x =
        if a ≤ x ∧ x < a + n then 0 else zget f.data x := by
      intro x
      rcases lt_or_ge x f.data.length with hx | hx
      · rw [zget_zresize hx, zget_overwrite, List.length_replicate, zget_replicate]
      · rw [zget_of_le (by rw [zresize_length]; exact hx), zget_of_le hx, ite_self]
    refine .inr ⟨fun _ _ => rfl, _, rfl, hpre, rfl, zresize_length _ _, fun x hx => ?_, fun x hx hx' => ?_⟩
    · rw [hget, if_neg (by omega)]
    · rw [hget, if_pos ⟨hx, hx'⟩, if_neg (hat ▸ hle)]
  · rw [hpos, if_neg (by omega)]
    exact .inl ⟨⟨Nat.pos_of_ne_zero h0, not_le.1 hle, hat⟩, rfl⟩

/-- A piece of zeros is only counted. -/
theorem SparseAt.zeros (h : SparseAt old prealloc past a offset f) {useSeek : Bool} {b : Bytes}
    (hb : leadZeros b = b.length) : ∃ f', writeSparse f useSeek offset b = some f' ∧ f'.data = f.data ∧
      SparseAt old prealloc past a (offset + b.length) f' := by
  rw [writeSparse]
  dsimp only
  rw [if_pos hb]
  refine ⟨_, rfl, rfl, h.prealloc, h.pos, ?_, h.past, h.ge, h.size⟩
  show a + (f.sparseSeek + leadZeros b) = offset + b.length
  rw [hb, ← Nat.add_assoc, h.seek]

/-- The places of the data in a piece. -/
theorem tailZeros_spec {b : Bytes} (hb : leadZeros b ≠ b.length) :
    leadZeros b + tailZeros b < b.length ∧ zget b (b.length - tailZeros b - 1) ≠ 0 ∧
      ∀ i, b.length - tailZeros b ≤ i → zget b i = 0 := by
  have hle := leadZeros_le b
  have hlt : leadZeros b < b.length := lt_of_le_of_ne hle hb
  have hne : zget b (leadZeros b) ≠ 0 := zget_leadZeros_ne hlt
  have hlen : (b.drop (leadZeros b)).length = b.length - leadZeros b := List.length_drop
  have htail : tailZeros b < (b.drop (leadZeros b)).length := by
    refine lt_of_le_of_ne (trailZeros_le _) fun heq => hne ?_
    have hzero := @zget_of_trailZeros _ _ _ (b.drop (leadZeros b)) 0 (by rw [tailZeros] at heq; omega)
    rwa [zget_drop, Nat.add_zero] at hzero
  refine ⟨by omega, ?_, fun i hi => ?_⟩
  · have hlast := zget_trailZeros_ne htail
    rw [zget_drop, hlen, ← tailZeros] at hlast
    rwa [show b.length - tailZeros b - 1 = leadZeros b + (b.length - leadZeros b - tailZeros b - 1) by omega]
  · have hzero := @zget_of_trailZeros _ _ _ (b.drop (leadZeros b)) (i - leadZeros b) (by
      rw [hlen, ← tailZeros]
      omega)
    rwa [zget_drop, show leadZeros b + (i - leadZeros b) = i by omega] at hzero

/-- A piece with data: the run of zeros in front of it is seeked over or punched, and the data is
    written, or is there. -/
theorem SparseAt.data (h : SparseAt old prealloc past a offset f) {useSeek : Bool} {b : Bytes}
    (hb : leadZeros b ≠ b.length)
    (hmatch : useSeek = true → ∀ j < b.length, zget b j = zget old (offset + j)) :
    (a < offset + leadZeros b ∧ past < prealloc ∧ past ≠ a) ∧ writeSparse f useSeek offset b = none ∨
    (a < offset + leadZeros b → past < prealloc → past = a) ∧ ∃ f', writeSparse f useSeek offset b = some f' ∧
      SparseAt old prealloc (offset + b.length - tailZeros b) (offset + b.length - tailZeros b)
        (offset + b.length) f' ∧
      (∀ x < a, zget f'.data x = zget f.data x) ∧
      (∀ x, a ≤ x → x < offset + leadZeros b → zget f'.data x = if prealloc ≤ past then zget old x else 0) ∧
      ∀ x, offset + leadZeros b ≤ x → x < offset + b.length - tailZeros b →
        zget f'.data x = zget b (x - offset) := by
  obtain ⟨hdata, hlast, -⟩ := tailZeros_spec hb
  have hn : a + (f.sparseSeek + leadZeros b) = offset + leadZeros b := by rw [← Nat.add_assoc, h.seek]
  have hpos : 0 < f.sparseSeek + leadZeros b ↔ a < offset + leadZeros b := by omega
  rw [writeSparse]
  dsimp only
  rw [if_neg hb, ← tailZeros]
  rcases @skipGap_cases { f with sparseSeek := f.sparseSeek + leadZeros b } prealloc past a
    (f.sparseSeek + leadZeros b) h.prealloc h.pos rfl h.past with
    ⟨hfail, hnone⟩ | ⟨hok, g, hg, hgpre, hgpos, hglen, hgsame, hggap⟩
  · rw [hpos] at hfail
    rw [hnone]
    exact .inl ⟨hfail, rfl⟩
  rw [hpos] at hok
  rw [hn] at hgpos hgsame hggap
  dsimp only at hglen hgsame hggap
  have hgap : ∀ x, a ≤ x → x < offset + leadZeros b →
      zget g.data x = if prealloc ≤ past then zget old x else 0 := by
    intro x hx hx'
    rw [hggap x hx hx', h.ge x hx]
  have hge : ∀ x, offset + leadZeros b ≤ x → zget g.data x = zget old x := by
    intro x hx
    rw [hgsame x (.inr hx), h.ge x (by omega)]
  refine .inr ⟨hok, ?_⟩
  rw [hg, Option.map_some]
  cases useSeek with
  | true =>
    refine ⟨_, rfl, ⟨hgpre, ?_, ?_, rfl, fun x hx => hge x (by omega), ?_⟩, fun x hx => hgsame x (.inl hx), hgap,
      fun x hx hx' => ?_⟩
    · show g.pos + (b.length - (leadZeros b + tailZeros b)) = _
      omega
    · show offset + b.length - tailZeros b + tailZeros b = offset + b.length
      omega
    · -- the last byte of the data is in the old file
      have hold : zget old (offset + (b.length - tailZeros b - 1)) ≠ 0 := by
        rw [← hmatch rfl _ (by omega)]
        exact hlast
      have hin : offset + (b.length - tailZeros b - 1) < old.length :=
        not_le.1 fun hle => hold (zget_of_le hle)
      show g.data.length = _
      rw [hglen, h.size]
      omega
    · show zget g.data x = _
      rw [hge x hx, hmatch rfl _ (by omega)]
      congr 1
      omega
  | false =>
    have hlen : ((b.drop (leadZeros b)).take (b.length - (leadZeros b + tailZeros b))).length =
        b.length - (leadZeros b + tailZeros b) := by
      rw [List.length_take, List.length_drop]
      omega
    have hget : ∀ x, zget (overwrite g.data g.pos ((b.drop (leadZeros b)).take
        (b.length - (leadZeros b + tailZeros b)))) x =
          if offset + leadZeros b ≤ x ∧ x < offset + b.length - tailZeros b then zget b (x - offset)
          else zget g.data x := by
      intro x
      rw [zget_overwrite, hlen, hgpos]
      by_cases hx : offset + leadZeros b ≤ x ∧ x < offset + b.length - tailZeros b
      · rw [if_pos hx, if_pos (by omega), zget_take (by omega), zget_drop]
        congr 1
        omega
      · rw [if_neg hx, if_neg (by omega)]
    refine ⟨_, rfl, ⟨hgpre, ?_, ?_, rfl, fun x hx => ?_, ?_⟩, fun x hx => ?_, fun x hx hx' => ?_,
      fun x hx hx' => ?_⟩
    · show g.pos + _ = _
      rw [hlen]
      omega
    · show offset + b.length - tailZeros b + tailZeros b = offset + b.length
      omega
    · exact (hget x).trans (by rw [if_neg (by omega), hge x (by omega)])
    · show (overwrite _ _ _).length = _
      rw [overwrite_length, hlen, hglen, h.size, hgpos]
      omega
    · exact (hget x).trans (by rw [if_neg (by omega), hgsame x (.inl hx)])
    · exact (hget x).trans (by rw [if_neg (by omega), hgap x hx hx'])
    · exact (hget x).trans (if_pos ⟨hx, hx'⟩)

/-! ## One file -/

/-- The pieces write what they hold exactly where the runs of zeros are right on disk. -/
theorem SparseAt.run_iff {out : Bytes} (h : SparseAt old prealloc past a offset f) (hm : MatchesAt old offset calls)
    (hdata : ∀ j < (callsData calls).length, zget out (offset + j) = zget (callsData calls) j)
    (hzero : ∀ x, a ≤ x → x < offset → zget out x = 0) :
    (∃ g, runPieces f offset calls = some g ∧
      ∀ x < offset + (callsData calls).length, zget g.data x = zget out x) ↔
    (∀ x < a, zget f.data x = zget out x) ∧ CleanRuns old prealloc past a offset calls := by
  induction calls generalizing past a offset f with
  | nil =>
    have hle : a ≤ offset := Nat.le.intro h.seek
    rw [runPieces, CleanRuns]
    constructor
    · rintro ⟨g, hg, hall⟩
      rw [Option.some.inj hg]
      refine ⟨fun x hx => hall x (hx.trans_le hle), fun x hx hx' => ?_⟩
      have hgx := hall x hx'
      rwa [← Option.some.inj hg, h.ge x hx, hzero x hx hx'] at hgx
    · rintro ⟨hlt, hold⟩
      refine ⟨f, rfl, fun x hx => ?_⟩
      rcases lt_or_ge x a with hxa | hxa
      · exact hlt x hxa
      · rw [h.ge x hxa, hold x hxa hx, hzero x hxa hx]
  | cons c calls ih =>
    rw [callsData_cons, List.length_append] at hdata
    rw [callsData_cons, List.length_append, ← Nat.add_assoc, runPieces, CleanRuns]
    have hc : ∀ j < c.data.length, zget out (offset + j) = zget c.data j := by
      intro j hj
      rw [hdata j (by omega), zget_append_left hj]
    have hrest : ∀ j < (callsData calls).length,
        zget out (offset + c.data.length + j) = zget (callsData calls) j := by
      intro j hj
      rw [Nat.add_assoc, hdata _ (by omega), zget_append_right (by omega), Nat.add_sub_cancel_left]
    by_cases hb : leadZeros c.data = c.data.length
    · obtain ⟨g, hg, hsame, hat⟩ := @SparseAt.zeros _ _ _ _ _ _ h c.matched _ hb
      rw [if_pos hb, hg, Option.bind_some, ih hat hm.2 hrest, hsame]
      intro x hx hx'
      rcases lt_or_ge x offset with hlt | hge
      · exact hzero x hx hlt
      · rw [show x = offset + (x - offset) by omega, hc _ (by omega)]
        exact zget_of_lt_leadZeros (by omega)
    · obtain ⟨hlen, -, htail⟩ := tailZeros_spec hb
      have hle : a ≤ offset := Nat.le.intro h.seek
      -- the zeros in front of the data of the piece
      have hlead : ∀ x, a ≤ x → x < offset + leadZeros c.data → zget out x = 0 := by
        intro x hx hx'
        rcases lt_or_ge x offset with hlt | hge
        · exact hzero x hx hlt
        · rw [show x = offset + (x - offset) by omega, hc _ (by omega)]
          exact zget_of_lt_leadZeros (by omega)
      rw [if_neg hb]
      rcases h.data hb fun hu => (hm.1 hu).2 with ⟨⟨hgap, hlt, hne⟩, hnone⟩ | ⟨hok, g, hg, hat, hbelow, hin, hwritten⟩
      · rw [hnone]
        refine iff_of_false (fun ⟨g, hg, _⟩ => by cases hg) fun hclean => hne ?_
        have hcg := hclean.2.1 hgap
        rwa [if_neg (not_le.2 hlt)] at hcg
      · rw [hg, Option.bind_some, ih hat hm.2 hrest fun x hx hx' => ?_]
        · rw [← and_assoc]
          refine and_congr_left fun _ => ⟨fun hall => ⟨fun x hx => ?_, fun hgap => ?_⟩, ?_⟩
          · rw [← hbelow x hx]
            exact hall x (by omega)
          · split_ifs with hle
            · intro x hx hx'
              rw [← hlead x hx hx', ← hall x (by omega), hin x hx hx', if_pos hle]
            · exact hok hgap (not_le.1 hle)
          · rintro ⟨hlt, hgap⟩ x hx
            rcases lt_or_ge x a with hxa | hxa
            · rw [hbelow x hxa]
              exact hlt x hxa
            rcases lt_or_ge x (offset + leadZeros c.data) with hxb | hxb
            · rw [hin x hxa hxb, hlead x hxa hxb]
              have hcg := hgap (hxa.trans_lt hxb)
              split_ifs at hcg ⊢ with hle
              · exact hcg x hxa hxb
              · rfl
            · rw [hwritten x hxb hx, show x = offset + (x - offset) by omega, hc _ (by omega),
                Nat.add_sub_cancel_left]
        · rw [show x = offset + (x - offset) by omega, hc _ (by omega)]
          exact htail _ (by omega)

/-- Where the pieces end, and what `sparse_past_write` is then. -/
theorem SparseAt.run {g : OutFile} (h : SparseAt old prealloc past a offset f) (hm : MatchesAt old offset calls)
    (hg : runPieces f offset calls = some g) :
    ∃ a', SparseAt old prealloc (pastWrite past offset calls) a' (offset + (callsData calls).length) g := by
  induction calls generalizing past a offset f with
  | nil =>
    rw [← Option.some.inj hg]
    exact ⟨a, h⟩
  | cons c calls ih =>
    rw [callsData_cons, List.length_append, ← Nat.add_assoc, pastWrite]
    rw [runPieces] at hg
    by_cases hb : leadZeros c.data = c.data.length
    · obtain ⟨g', hg', -, hat⟩ := @SparseAt.zeros _ _ _ _ _ _ h c.matched _ hb
      rw [hg', Option.bind_some] at hg
      rw [if_pos hb]
      exact ih hat hm.2 hg
    · rw [if_neg hb]
      rcases h.data hb fun hu => (hm.1 hu).2 with ⟨-, hnone⟩ | ⟨-, g', hg', hat, -⟩
      · rw [hnone] at hg
        cases hg
      · rw [hg', Option.bind_some] at hg
        exact ih hat hm.2 hg

/-- The end of `receive_data` changes only what is behind the data. -/
theorem SparseAt.finish {inplace : Bool} (h : SparseAt old prealloc past a offset f)
    (hnew : inplace = false → old.length ≤ prealloc) :
    (finishOutput true inplace f offset).data.length = offset ∧
      (∀ x < offset, zget (finishOutput true inplace f offset).data x = zget f.data x) ∧
      (finishOutput true inplace f offset).sparseSeek = 0 ∧
      (finishOutput true inplace f offset).sparsePastWrite = past := by
  have hle : a ≤ offset := Nat.le.intro h.seek
  have hseek := h.seek
  -- what is pending at the end
  have hend : ∀ g, g = (if 0 < offset then sparseEnd f offset else f) →
      g.preallocatedLen = prealloc ∧ (g.data.length = offset ∨ a = offset ∧ g.data = f.data) ∧
      (∀ x < offset, zget g.data x = zget f.data x) ∧ g.sparseSeek = 0 ∧ g.sparsePastWrite = past := by
    intro g hg
    rw [sparseEnd] at hg
    split_ifs at hg with hpos h0
    · rw [hg]
      exact ⟨h.prealloc, .inr ⟨by omega, rfl⟩, fun _ _ => rfl, h0, h.past⟩
    · rw [hg]
      exact ⟨h.prealloc, .inl (zresize_length _ _), fun x hx => zget_zresize hx, rfl, h.past⟩
    · rw [hg]
      exact ⟨h.prealloc, .inr ⟨by omega, rfl⟩, fun _ _ => rfl, by omega, h.past⟩
  obtain ⟨g, hg⟩ : ∃ g, g = (if 0 < offset then sparseEnd f offset else f) := ⟨_, rfl⟩
  obtain ⟨hpre, hsize, hsame, hseek', hpast⟩ := hend g hg
  have hfin : finishOutput true inplace f offset =
      if inplace = true ∨ offset < g.preallocatedLen then g.truncate offset else g := by
    rw [hg]
    rfl
  rw [hfin]
  split_ifs with hcut
  · exact ⟨zresize_length _ _, fun x hx => (zget_zresize hx).trans (hsame x hx), hseek', hpast⟩
  · refine ⟨?_, hsame, hseek', hpast⟩
    rw [hpre, not_or] at hcut
    rcases hsize with hsize | ⟨ha, hdata⟩
    · exact hsize
    · have hold := hnew (Bool.eq_false_of_not_eq_true hcut.1)
      rw [hdata, h.size]
      omega

theorem DestFile.clean_iff (d : DestFile) (hseek : f.sparseSeek = 0) :
    (∃ g, d.receive true f = some g ∧ g.data = d.data) ↔
      CleanRuns d.old d.preallocatedLen f.sparsePastWrite 0 0 (pieces d.calls) := by
  have hat : SparseAt d.old d.preallocatedLen f.sparsePastWrite 0 0
      { f with data := d.old, pos := 0, preallocatedLen := d.preallocatedLen } :=
    ⟨rfl, rfl, (Nat.zero_add _).trans hseek, rfl, fun _ _ => rfl, (Nat.max_zero _).symm⟩
  have hm := d.matching.pieces
  have hiff := @SparseAt.run_iff _ _ _ _ _ _ _ d.data hat hm
    (fun j _ => by rw [Nat.zero_add, callsData_pieces]; rfl) fun x _ hx => absurd hx (Nat.not_lt_zero x)
  rw [Nat.zero_add, callsData_pieces] at hiff
  rw [DestFile.receive, runCalls_eq_runPieces, ← (and_iff_right fun x hx => absurd hx (Nat.not_lt_zero x) :
    (∀ x < 0, _) ∧ _ ↔ CleanRuns d.old d.preallocatedLen f.sparsePastWrite 0 0 (pieces d.calls)), ← hiff]
  constructor
  · rintro ⟨g, hg, hdata⟩
    obtain ⟨g', hg', rfl⟩ := Option.map_eq_some_iff.1 hg
    obtain ⟨a', hend⟩ := hat.run hm hg'
    rw [Nat.zero_add, callsData_pieces] at hend
    obtain ⟨-, hsame, -⟩ := hend.finish fun hin => (d.new hin).1
    refine ⟨g', hg', fun x hx => ?_⟩
    rw [← hsame x hx, ← hdata]
    rfl
  · rintro ⟨g, hg, hall⟩
    obtain ⟨a', hend⟩ := hat.run hm hg
    rw [Nat.zero_add, callsData_pieces] at hend
    obtain ⟨hlen, hsame, -⟩ := hend.finish fun hin => (d.new hin).1
    refine ⟨_, by rw [hg]; rfl, ext_zget hlen fun x hx => ?_⟩
    have hx' : x < d.data.length := hx.trans_eq hlen
    exact (hsame x hx').trans (hall x hx')

/-- What the next file finds. -/
theorem DestFile.receive_statics (d : DestFile) (hseek : f.sparseSeek = 0) (h : d.receive true f = some f') :
    f'.sparseSeek = 0 ∧ f'.sparsePastWrite = pastWrite f.sparsePastWrite 0 (pieces d.calls) := by
  have hat : SparseAt d.old d.preallocatedLen f.sparsePastWrite 0 0
      { f with data := d.old, pos := 0, preallocatedLen := d.preallocatedLen } :=
    ⟨rfl, rfl, (Nat.zero_add _).trans hseek, rfl, fun _ _ => rfl, (Nat.max_zero _).symm⟩
  rw [DestFile.receive, runCalls_eq_runPieces] at h
  obtain ⟨g, hg, rfl⟩ := Option.map_eq_some_iff.1 h
  obtain ⟨a', hend⟩ := hat.run d.matching.pieces hg
  rw [Nat.zero_add, callsData_pieces] at hend
  exact (hend.finish fun hin => (d.new hin).1).2.2

/-! ## Dense files -/

/-- The file is as long as it was, or as far as was written. -/
structure DenseSize (old : Bytes) (prealloc : ℕ) (f : OutFile) : Prop where
  size : f.data.length = max old.length f.pos
  prealloc : f.preallocatedLen = prealloc

theorem DenseSize.flush (h : DenseSize old prealloc f) : DenseSize old prealloc (flushWriteFile f) := by
  rw [flushWriteFile]
  split_ifs
  · exact h
  · refine ⟨?_, h.prealloc⟩
    show (overwrite f.data f.pos f.buf).length = max old.length (f.pos + f.buf.length)
    rw [overwrite_length, h.size]
    omega

theorem DenseSize.writeFileBuf (h : DenseSize old prealloc f) (b : Bytes) :
    DenseSize old prealloc (writeFileBuf f b) := by
  induction f, b using CloudEdgeBackup.writeFileBuf.induct with
  | case1 f =>
    rw [CloudEdgeBackup.writeFileBuf, if_pos rfl]
    exact h
  | case2 f b hb r1 f' ih =>
    rw [CloudEdgeBackup.writeFileBuf, if_neg hb]
    refine ih ?_
    split_ifs
    · exact DenseSize.flush ⟨h.size, h.prealloc⟩
    · exact ⟨h.size, h.prealloc⟩

/-- All calls write; a new file is not longer than what was written. -/
theorem runCalls_dense {out : Bytes} (h : BufOk false old 0 out f) (hm : MatchesAt old out.length calls) :
    ∃ g, runCalls false f out.length calls = some g ∧ BufOk false old 0 (out ++ callsData calls) g ∧
      (DenseSize old prealloc f → (∀ c ∈ calls, c.matched = false) → DenseSize old prealloc g) := by
  induction calls generalizing f out with
  | nil => exact ⟨f, rfl, by rwa [callsData_nil, List.append_nil], fun hsize _ => hsize⟩
  | cons c calls ih =>
    have hstep : ∃ g, c.run false f out.length = some g ∧ BufOk false old 0 (out ++ c.data) g ∧
        (DenseSize old prealloc f → c.matched = false → DenseSize old prealloc g) := by
      rw [WriteCall.run]
      cases hc : c.matched with
      | false => exact ⟨_, rfl, h.writeFileBuf c.data, fun hsize _ => hsize.writeFileBuf c.data⟩
      | true =>
        have hpos := h.flush.2.2
        rw [Nat.zero_add] at hpos
        have hdata := (hm.1 hc).2
        rw [if_pos rfl, skipMatched, if_neg Bool.false_ne_true]
        dsimp only
        rw [if_pos (by rw [OutFile.seekCur, hpos])]
        refine ⟨_, rfl, h.seekCur rfl fun j hj => ?_, fun _ hno => by cases hno⟩
        rw [Nat.zero_add]
        exact hdata j hj
    obtain ⟨g, hg, hok, hsize⟩ := hstep
    have hm' := hm.2
    rw [← List.length_append] at hm'
    obtain ⟨g', hg', hok', hsize'⟩ := ih hok hm'
    refine ⟨g', ?_, ?_, fun h₁ h₂ => hsize' (hsize h₁ (h₂ c List.mem_cons_self)) fun c' hc' =>
      h₂ c' (List.mem_cons_of_mem _ hc')⟩
    · rw [runCalls, hg, Option.bind_some, ← List.length_append]
      exact hg'
    · rwa [callsData_cons, ← List.append_assoc]

/-- **Dense files** hold their data. -/
theorem DestFile.receive_dense (d : DestFile) (hbuf : f.buf = []) :
    ∃ g, d.receive false f = some g ∧ g.data = d.data ∧ g.buf = [] := by
  have hstart : BufOk false d.old 0 [] { f with data := d.old, pos := 0, preallocatedLen := d.preallocatedLen } :=
    ⟨le_rfl, congrArg (fun b : Bytes => 0 + b.length) hbuf, hbuf, fun x _ hx => absurd hx (Nat.not_lt_zero x), fun _ _ => rfl,
      fun h => by cases h⟩
  obtain ⟨g, hg, hok, hsize⟩ := @runCalls_dense d.old d.calls _ d.preallocatedLen [] hstart d.matching
  rw [List.nil_append] at hok
  obtain ⟨hflush, hempty, hpos⟩ := hok.flush
  rw [Nat.zero_add] at hpos
  -- with nothing written there is nothing to flush
  have hend : (if 0 < d.data.length then flushWriteFile g else g) = flushWriteFile g := by
    split_ifs with hlt
    · rfl
    · have hnil : g.buf = [] := by
        have hadd := hok.pos_add
        rw [Nat.zero_add] at hadd
        refine List.length_eq_zero_iff.1 ?_
        rw [DestFile.data] at hlt
        omega
      rw [flushWriteFile, if_pos hnil]
  have hfin : finishOutput false d.inplace g d.data.length =
      if d.inplace = true ∨ d.data.length < (flushWriteFile g).preallocatedLen then
        (flushWriteFile g).truncate d.data.length else flushWriteFile g := by
    rw [← hend]
    rfl
  refine ⟨finishOutput false d.inplace g d.data.length, ?_, ?_, ?_⟩
  · rw [DestFile.receive]
    exact congrArg (Option.map _) hg
  · have hlen : (finishOutput false d.inplace g d.data.length).data.length = d.data.length := by
      rw [hfin]
      split_ifs with hcut
      · exact zresize_length _ _
      · rw [not_or] at hcut
        obtain ⟨hold, hno⟩ := d.new (Bool.eq_false_of_not_eq_true hcut.1)
        have hflat := (hsize ⟨(Nat.max_zero _).symm, rfl⟩ hno).flush
        have hle := not_lt.1 hcut.2
        rw [hflat.prealloc] at hle
        rw [hflat.size, hpos]
        exact Nat.max_eq_right (hold.trans hle)
    refine ext_zget hlen fun x hx => ?_
    rw [hlen] at hx
    have hx' : zget (flushWriteFile g).data x = zget d.data x := by
      have hget := hflush.get_lt x (Nat.zero_le x) (hx.trans_eq hpos.symm)
      rwa [Nat.sub_zero] at hget
    rw [hfin, ← hx']
    split_ifs
    · exact zget_zresize hx
    · rfl
  · rw [hfin]
    split_ifs
    · exact hempty
    · exact hempty

/-! ## All files -/

theorem receiveFiles_dense (ds : List DestFile) (hbuf : f.buf = []) :
    receiveFiles false f ds = some (ds.map DestFile.data) := by
  induction ds generalizing f with
  | nil => rfl
  | cons d ds ih =>
    obtain ⟨g, hg, hdata, hbuf'⟩ := d.receive_dense hbuf
    rw [receiveFiles, hg]
    show (receiveFiles false g ds).bind _ = _
    rw [ih hbuf', Option.bind_some, List.map_cons, ← hdata]
    rfl

theorem receiveFiles_sparse (ds : List DestFile) (hseek : f.sparseSeek = 0) :
    receiveFiles true f ds = some (ds.map DestFile.data) ↔ CleanFiles f.sparsePastWrite ds := by
  induction ds generalizing f with
  | nil => exact iff_of_true rfl trivial
  | cons d ds ih =>
    have hclean := d.clean_iff hseek
    rw [receiveFiles, CleanFiles, ← hclean]
    cases hg : d.receive true f with
    | none =>
      refine iff_of_false (fun h => by cases h) ?_
      rintro ⟨⟨g, hg', -⟩, -⟩
      cases hg'
    | some g =>
      obtain ⟨hseek', hpast⟩ := d.receive_statics hseek hg
      rw [← hpast, ← ih hseek']
      show (receiveFiles true g ds).bind _ = _ ↔ _
      constructor
      · intro h
        obtain ⟨rest, hrest, hall⟩ := Option.bind_eq_some_iff.1 h
        obtain ⟨hdata, hrest'⟩ := List.cons.inj (Option.some.inj hall)
        rw [hrest, hrest']
        exact ⟨⟨g, rfl, hdata⟩, rfl⟩
      · rintro ⟨⟨g', hg', hdata⟩, hrest⟩
        rw [hrest, Option.bind_some, List.map_cons, ← hdata, Option.some.inj hg']
        rfl

/-- A file that is updated in place. -/
def updated (old : Bytes) (data : Bytes) : DestFile where
  old := old
  inplace := true
  preallocatedLen := old.length
  calls := [⟨false, data⟩]
  matching := ⟨fun h => absurd h Bool.false_ne_true, trivial⟩
  new := fun h => absurd h.symm Bool.false_ne_true

end CloudEdgeBackup
