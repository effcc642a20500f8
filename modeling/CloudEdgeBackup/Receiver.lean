/-
  The receiver of one file (`receive_data` of `receiver.c`).

  The tokens of the sender are decoded against the basis and written to the
  output file; in a backup that is not the first of its file they are recorded
  in a delta file at the same time.

  * `Recv` are the arguments of a call with the globals it reads;
  * `recvToken`, `recvTokens` are the token loop, `receiveData` the function;
  * `decode`, `records`, `unrecorded` say on the tokens alone what the output,
    the delta file and the difference between the two should be;
  * `RecvOk` is the loop invariant.
-/
import CloudEdgeBackup.Output
import CloudEdgeBackup.Delta

namespace CloudEdgeBackup

open Zext

/-! ## The function -/

/-- The arguments of `receive_data` and the globals it reads.  The last fields
    are what `recv_files` and the option checks guarantee. -/
structure Recv where
  opts : Opts
  /-- `fd_r`: the bytes of the basis; `size_r` is their number. -/
  basis : Option Bytes
  /-- `fd_r` and `fd` are open on one file. -/
  live : Bool
  /-- `fd`: what the output file holds before the call. -/
  fd : Option Bytes
  totalSize : ℕ
  /-- What `read_sum_head` reads. -/
  head : SumHead
  /-- A delta file is written: a backup task with `first_backup == 0`. -/
  record : Bool
  /-- `sparse_past_write`, left over from the file before. -/
  sparsePastWrite : ℕ
  fresh : opts.inplace = false → live = false ∧ ∀ b ∈ fd, b = []
  live_eq : live = true → fd = basis
  append_inplace : 0 < opts.appendMode → opts.inplace = true
  updating_inplace : opts.updatingBasisOrEquiv = true → opts.inplace = true

namespace Recv

/-- A call that writes a new file. -/
def newFile (basis : Bytes) (head : SumHead) (record : Bool) : Recv where
  opts := ⟨false, 0, 0, false, false⟩
  basis := some basis
  live := false
  fd := some []
  totalSize := 0
  head := head
  record := record
  sparsePastWrite := 0
  fresh := by simp
  live_eq := by simp
  append_inplace := by simp
  updating_inplace := by simp

/-- A recorded call that updates the basis in place. -/
def inPlace (basis : Bytes) (head : SumHead) (totalSize : ℕ) : Recv where
  opts := ⟨true, 0, 0, false, true⟩
  basis := some basis
  live := true
  fd := some basis
  totalSize := totalSize
  head := head
  record := true
  sparsePastWrite := 0
  fresh := by simp
  live_eq := by simp
  append_inplace := by simp
  updating_inplace := by simp

variable (a : Recv)

/-- The header used: with `whole_file` none is read and only the block length,
    left uninitialised, remains. -/
def sum : SumHead :=
  if a.opts.wholeFile then a.head.noBlocks else a.head

def sizeR : ℕ := (a.basis.getD []).length

def sparse : Bool := decide (0 < a.opts.sparseFiles)

/-- A sparse file written whole in place starts with no length. -/
def truncates : Bool := a.opts.inplace && a.sparse && a.opts.wholeFile && a.fd.isSome

/-- What the output file holds when the tokens arrive. -/
def start : Bytes := if a.truncates then [] else a.fd.getD []

def preallocatedLen : ℕ := if a.opts.inplace && !a.truncates then a.sizeR else 0

/-- Where the output starts: behind the data that is there already when
    appending.  `none` is the failed seek to a negative offset. -/
def appendLen : Option ℕ :=
  if 0 < a.opts.appendMode then
    if 0 ≤ a.sum.flength then some a.sum.flength.toNat else none
  else some 0

/-- The basis as `map_ptr` reads it now. -/
def file (f : OutFile) : Bytes := if a.live then f.data else a.basis.getD []

end Recv

/-- The loop variables of `receive_data`. -/
structure RecvState where
  out : OutFile
  mapbuf : Option MapStruct
  offset : ℕ
  /-- the arguments of `sum_update` so far -/
  summed : Bytes
  /-- the records of the delta file so far -/
  recs : List Rec

namespace Recv

variable (a : Recv)

/-- With `--append-verify` the data appended to is summed first. -/
def sumPrefix (file : Bytes) (m : MapStruct) (flength offset : ℕ) (summed : Bytes) :
    MapStruct × Bytes :=
  if offset + chunkSize < flength then
    match mapPtr file m offset chunkSize with
    | (d, m) => sumPrefix file m flength (offset + chunkSize) (summed ++ d.getD [])
  else if offset < flength then
    match mapPtr file m offset (flength - offset) with
    | (d, m) => (m, summed ++ d.getD [])
  else (m, summed)
termination_by flength - offset
decreasing_by
  have : 0 < chunkSize := by norm_num
  omega

/-- `receive_data` up to the token loop. -/
def init : Option RecvState :=
  a.appendLen.map fun p₀ =>
    let mapbuf :=
      if 0 < a.sizeR then
        some (mapFile a.sizeR (max (2 * a.sum.blength) (16 * 1024)) a.sum.blength)
      else none
    let out : OutFile := ⟨a.start, p₀, [], 0, a.sparsePastWrite, a.preallocatedLen⟩
    match mapbuf with
    | some m =>
      if a.opts.appendMode = 2 then
        let r := sumPrefix (a.file out) m p₀ 0 []
        ⟨out, some r.1, p₀, r.2, []⟩
      else ⟨out, some m, p₀, [], []⟩
    | none => ⟨out, none, p₀, [], []⟩

/-- `map_ptr` and `sum_update` on block `i`, if the basis is mapped. -/
def readBlock (s : RecvState) (i : ℕ) : Option Bytes × RecvState :=
  match s.mapbuf with
  | none => (none, s)
  | some m =>
    let r := mapPtr (a.file s.out) m (a.sum.offset i) (a.sum.len i)
    (r.1, { s with mapbuf := some r.2, summed := s.summed ++ r.1.getD [] })

/-- `write_file`, unless the data is discarded. -/
def put (s : RecvState) (d : Bytes) : Option OutFile :=
  if a.fd.isSome then writeFile a.sparse s.out false s.offset d else some s.out

/-- `skip_matched`; without a mapped basis there is no data to look at, which
    only the sparse branch does. -/
def skip (s : RecvState) (map : Option Bytes) (len : ℕ) : Option OutFile :=
  match map with
  | some d => skipMatched a.sparse s.out s.offset d
  | none =>
    if a.sparse then if len = 0 then some s.out else none
    else skipMatched false s.out s.offset (List.replicate len 0)

/-- Block `i` is where it has to go already. -/
def Seeks (offset i : ℕ) : Prop :=
  a.opts.updatingBasisOrEquiv = true ∧ offset = a.sum.offset i ∧ a.fd.isSome = true

instance (offset i : ℕ) : Decidable (a.Seeks offset i) := by unfold Seeks; infer_instance

/-- One pass of the token loop. -/
def recvToken (s : RecvState) : Token → Option RecvState
  | .data d =>
    (a.put s d).map fun out =>
      { s with
        out := out, summed := s.summed ++ d, recs := s.recs ++ [.unmatch s.offset d],
        offset := s.offset + d.length }
  | .block i =>
    let len := a.sum.len i
    let map := (a.readBlock s i).1
    let s := (a.readBlock s i).2
    if a.Seeks s.offset i then
      (a.skip s map len).map fun out => { s with out := out, offset := s.offset + len }
    else
      match map with
      | none => some { s with offset := s.offset + len }
      | some d =>
        (a.put s d).map fun out =>
          { s with
            out := out, recs := s.recs ++ [.matched i s.offset (a.sum.offset i)],
            offset := s.offset + len }

/-- The token loop. -/
def recvTokens (s : RecvState) : List Token → Option RecvState
  | [] => some s
  | t :: ts => (a.recvToken s t).bind fun s => recvTokens s ts

end Recv

/-- `memcmp(a, b, n) != 0` -/
def memcmpNe (a b : Bytes) : Bool := decide (a ≠ b)

/-- What `receive_data` leaves behind. -/
structure Received where
  /-- the output file -/
  out : Bytes
  /-- the delta file, if one is written -/
  delta : Option Bytes
  /-- the data the digest is taken of -/
  summed : Bytes
  /-- `sender_file_sum` -/
  senderFileSum : Bytes
  /-- the return value -/
  ret : ℕ
  sparsePastWrite : ℕ

/-- `receive_data` on the tokens of one file and the digest that follows them;
    `sumEnd` is the transfer checksum.  `none` ends the process. -/
def receiveData (sumEnd : Bytes → Bytes) (a : Recv) (toks : List Token) (senderSum : Bytes) :
    Option Received := do
  let s ← a.init
  let s ← a.recvTokens s toks
  let out := if a.fd.isSome then finishOutput a.sparse a.opts.inplace s.out s.offset else s.out
  let fileSum1 := sumEnd s.summed
  some {
    out := out.data
    delta :=
      if a.record then
        some (metadataLine a.totalSize a.sizeR a.sum ++ s.recs.flatMap Rec.bytes)
      else none
    summed := s.summed
    senderFileSum := senderSum
    ret := if a.fd.isSome && memcmpNe fileSum1 fileSum1 then 0 else 1
    sparsePastWrite := out.sparsePastWrite }

/-! ## What the tokens stand for -/

/-- The bytes a token puts into the output. -/
def Token.bytes (file : Bytes) (sum : SumHead) : Token → Bytes
  | .data d => d
  | .block i => zslice file (sum.offset i) (sum.len i)

/-- The output the tokens stand for. -/
def decode (file : Bytes) (sum : SumHead) (toks : List Token) : Bytes :=
  toks.flatMap (Token.bytes file sum)

/-- By how much a token moves the output offset. -/
def Token.size (sum : SumHead) : Token → ℕ
  | .data d => d.length
  | .block i => sum.len i

theorem Token.bytes_length (file : Bytes) (sum : SumHead) (t : Token) :
    (t.bytes file sum).length = t.size sum := by
  cases t <;> simp [Token.bytes, Token.size]

namespace Recv

variable (a : Recv)

/-- The basis is there to be mapped. -/
def Mapped : Prop := 0 < a.sizeR

instance : Decidable a.Mapped := by unfold Mapped; infer_instance

/-- Block `i` moves the output offset to no effect on the delta file. -/
def Unrecorded (offset i : ℕ) : Prop := a.Seeks offset i ∨ ¬ a.Mapped

instance (offset i : ℕ) : Decidable (a.Unrecorded offset i) := by
  unfold Unrecorded; infer_instance

/-- The records written for a token at `offset`; `map_ptr` has nothing to say on
    an empty block. -/
def tokenRecords (offset : ℕ) : Token → List Rec
  | .data d => [.unmatch offset d]
  | .block i =>
    if a.Unrecorded offset i ∨ a.sum.len i = 0 then [] else [.matched i offset (a.sum.offset i)]

/-- The records written for the tokens. -/
def records (offset : ℕ) : List Token → List Rec
  | [] => []
  | t :: ts => a.tokenRecords offset t ++ records (offset + t.size a.sum) ts

/-- How much of the output has no record. -/
def unrecorded (offset : ℕ) : List Token → ℕ
  | [] => 0
  | .data d :: ts => unrecorded (offset + d.length) ts
  | .block i :: ts =>
    (if a.Unrecorded offset i then a.sum.len i else 0) + unrecorded (offset + a.sum.len i) ts

end Recv

/-! ## One pass of the loop -/

namespace Recv

variable {a : Recv}

theorem readBlock_snd (s : RecvState) (i : ℕ) :
    (a.readBlock s i).2.out = s.out ∧ (a.readBlock s i).2.offset = s.offset ∧
      (a.readBlock s i).2.recs = s.recs ∧
      (a.readBlock s i).2.mapbuf.isSome = s.mapbuf.isSome := by
  unfold readBlock
  cases hm : s.mapbuf <;> simp [hm]

theorem readBlock_fst (s : RecvState) (i : ℕ) :
    (a.readBlock s i).1 = none ↔ s.mapbuf = none ∨ a.sum.len i = 0 := by
  unfold readBlock
  cases hm : s.mapbuf with
  | none => simp
  | some m =>
    simp only [mapPtr]
    split_ifs <;> simp_all

/-- **What a token does to the offset and the records**, whatever the files hold. -/
theorem recvToken_spec {s s' : RecvState} {t : Token} (h : a.recvToken s t = some s')
    (hm : s.mapbuf.isSome ↔ a.Mapped) :
    s'.offset = s.offset + t.size a.sum ∧ s'.recs = s.recs ++ a.tokenRecords s.offset t ∧
      (s'.mapbuf.isSome ↔ a.Mapped) := by
  cases t with
  | data d =>
    obtain ⟨out, -, rfl⟩ := Option.map_eq_some_iff.1 h
    exact ⟨rfl, rfl, hm⟩
  | block i =>
    obtain ⟨h₁, h₂, h₃, h₄⟩ := a.readBlock_snd s i
    have hfst := a.readBlock_fst s i
    rw [← h₄] at hm
    simp only [recvToken, h₂] at h
    simp only [tokenRecords, Token.size, Unrecorded]
    by_cases hseek : a.Seeks s.offset i
    · rw [if_pos hseek] at h
      obtain ⟨out, -, rfl⟩ := Option.map_eq_some_iff.1 h
      exact ⟨rfl, by simp [h₃, hseek], hm⟩
    rw [if_neg hseek] at h
    cases hmap : (a.readBlock s i).1 with
    | none =>
      rw [hmap] at h hfst
      cases h
      have : ¬ a.Mapped ∨ a.sum.len i = 0 := by
        refine (hfst.1 rfl).imp (fun hn => ?_) id
        rw [← hm, h₄, hn]
        simp
      exact ⟨rfl, by simp [h₃, hseek, this], hm⟩
    | some d =>
      rw [hmap] at h hfst
      obtain ⟨out, -, rfl⟩ := Option.map_eq_some_iff.1 h
      obtain ⟨hsome, hlen⟩ : s.mapbuf ≠ none ∧ a.sum.len i ≠ 0 := by
        simpa only [reduceCtorEq, false_iff, not_or] using hfst
      have hmapped : a.Mapped := by rw [← hm, h₄]; exact Option.isSome_iff_ne_none.2 hsome
      exact ⟨rfl, by simp [h₃, hseek, hmapped, hlen], hm⟩

theorem recvTokens_spec {s s' : RecvState} {toks : List Token}
    (h : a.recvTokens s toks = some s') (hm : s.mapbuf.isSome ↔ a.Mapped) :
    s'.offset = s.offset + (toks.map (Token.size a.sum)).sum ∧
      s'.recs = s.recs ++ a.records s.offset toks := by
  induction toks generalizing s with
  | nil => cases h; simp [records]
  | cons t ts ih =>
    obtain ⟨s₁, h₁, h₂⟩ := Option.bind_eq_some_iff.1 h
    obtain ⟨e₁, e₂, hm₁⟩ := recvToken_spec h₁ hm
    obtain ⟨e₃, e₄⟩ := ih h₂ hm₁
    refine ⟨by rw [e₃, e₁]; simp [Nat.add_assoc], ?_⟩
    rw [e₄, e₂, e₁, records, List.append_assoc]

/-- The records leave out exactly `unrecorded` bytes. -/
theorem records_length (full : Bytes) (offset : ℕ) (toks : List Token) :
    ((a.records offset toks).flatMap (Rec.replay full a.sum)).length + a.unrecorded offset toks =
      (toks.map (Token.size a.sum)).sum := by
  induction toks generalizing offset with
  | nil => rfl
  | cons t ts ih =>
    have := ih (offset + t.size a.sum)
    simp only [records, List.flatMap_append, List.length_append, List.map_cons, List.sum_cons]
    cases t with
    | data d =>
      simp only [Token.size] at this
      simp only [unrecorded, tokenRecords, Token.size, List.flatMap_singleton, Rec.replay]
      omega
    | block i =>
      simp only [Token.size] at this
      simp only [unrecorded, tokenRecords, Token.size]
      split_ifs with h₁ h₂ h₂
      · simp only [List.flatMap_nil, List.length_nil]; omega
      · simp only [List.flatMap_nil, List.length_nil]
        have := h₁.resolve_left h₂
        omega
      · exact absurd (Or.inl h₂) h₁
      · simp only [List.flatMap_singleton, Rec.replay, zslice_length]; omega

/-- With nothing left out the records stand for the whole output. -/
theorem replay_records {full : Bytes} {offset : ℕ} {toks : List Token}
    (h : a.unrecorded offset toks = 0) :
    (a.records offset toks).flatMap (Rec.replay full a.sum) = decode full a.sum toks := by
  induction toks generalizing offset with
  | nil => rfl
  | cons t ts ih =>
    cases t with
    | data d =>
      have := ih h
      simp only [records, tokenRecords, decode, Token.size, Token.bytes, List.flatMap_append,
        List.flatMap_cons, List.flatMap_nil, Rec.replay, this, List.append_nil]
    | block i =>
      obtain ⟨h₁, h₂⟩ := Nat.add_eq_zero_iff.1 h
      have := ih h₂
      simp only [decode] at this
      simp only [records, tokenRecords, decode, Token.size, Token.bytes, List.flatMap_append,
        List.flatMap_cons, this]
      congr 1
      by_cases hlen : a.sum.len i = 0
      · simp [hlen]
      · have hun : ¬ a.Unrecorded offset i := fun hu => hlen (by simpa [hu] using h₁)
        simp [hlen, hun, Rec.replay]

theorem records_wf (offset : ℕ) {toks : List Token} (hwf : ∀ t ∈ toks, t.Wf) :
    ∀ r ∈ a.records offset toks, r.Wf a.sum := by
  induction toks generalizing offset with
  | nil => simp [records]
  | cons t ts ih =>
    intro r hr
    rcases List.mem_append.1 hr with hr | hr
    · have ht := hwf t (by simp)
      cases t with
      | data d =>
        obtain rfl : r = .unmatch offset d := by simpa [tokenRecords] using hr
        exact ht.2.trans (by norm_num)
      | block i =>
        rw [tokenRecords] at hr
        split_ifs at hr
        · simp at hr
        · obtain rfl := List.mem_singleton.1 hr
          exact ⟨ht, rfl⟩
    · exact ih _ (fun t ht => hwf t (by simp [ht])) r hr

end Recv

/-! ## The loop invariant -/

namespace Recv

variable (a : Recv)

/-- What a read of the basis at `x` may return when `out` has been written: on
    the file that is written the old byte or the new one. -/
def Sees (p₀ : ℕ) (out : Bytes) (x : ℕ) (b : UInt8) : Prop :=
  if a.live then Seen a.start p₀ out x b else b = zget (a.basis.getD []) x

/-- Block `i` can be used when `out` has been written: the basis is there, no
    byte of the block has been replaced by another, and a block that is only
    seeked over is in the output file. -/
structure BlockSafe (p₀ : ℕ) (out : Bytes) (i : ℕ) : Prop where
  mapped : a.sum.len i ≠ 0 → a.Mapped
  sees : ∀ j < a.sum.len i, ∀ b, a.Sees p₀ out (a.sum.offset i + j) b →
    b = zget (a.basis.getD []) (a.sum.offset i + j)
  seek : a.Seeks (p₀ + out.length) i → ∀ j < a.sum.len i,
    zget (a.basis.getD []) (a.sum.offset i + j) = zget a.start (a.sum.offset i + j)

/-- Every block can be used when its turn comes. -/
def StreamSafe (p₀ : ℕ) (out : Bytes) : List Token → Prop
  | [] => True
  | .data d :: ts => StreamSafe p₀ (out ++ d) ts
  | .block i :: ts =>
    a.BlockSafe p₀ out i ∧
      StreamSafe p₀ (out ++ zslice (a.basis.getD []) (a.sum.offset i) (a.sum.len i)) ts

/-- `out` has been received: it is written from `p₀` on, and the window holds
    bytes of the basis. -/
structure RecvOk (p₀ : ℕ) (out : Bytes) (s : RecvState) : Prop where
  written : Written a.sparse (!a.opts.inplace) a.preallocatedLen a.start p₀ a.sparsePastWrite out
    s.out
  offset : s.offset = p₀ + out.length
  window : ∀ m ∈ s.mapbuf, m.Forall (a.Sees p₀ out)
  mapped : s.mapbuf.isSome ↔ a.Mapped

variable {a}

theorem Sees.append {p₀ : ℕ} {out : Bytes} {x : ℕ} {b : UInt8} (h : a.Sees p₀ out x b)
    (c : Bytes) : a.Sees p₀ (out ++ c) x b := by
  unfold Sees at h ⊢
  split_ifs with hl
  · rw [if_pos hl] at h; exact Seen.append h c
  · rwa [if_neg hl] at h

theorem RecvOk.sees_file {p₀ : ℕ} {out : Bytes} {s : RecvState} (h : a.RecvOk p₀ out s) (x : ℕ) :
    a.Sees p₀ out x (zget (a.file s.out) x) := by
  unfold Sees file
  split_ifs
  · exact h.written.seen x
  · rfl

/-- A safe block is read as it is in the basis. -/
theorem RecvOk.readBlock {p₀ : ℕ} {out : Bytes} {s : RecvState} (h : a.RecvOk p₀ out s) {i : ℕ}
    (hs : a.BlockSafe p₀ out i) :
    (a.readBlock s i).1.getD [] = zslice (a.basis.getD []) (a.sum.offset i) (a.sum.len i) ∧
      (a.readBlock s i).2.summed =
        s.summed ++ zslice (a.basis.getD []) (a.sum.offset i) (a.sum.len i) ∧
      a.RecvOk p₀ out (a.readBlock s i).2 := by
  unfold Recv.readBlock
  cases hm : s.mapbuf with
  | none =>
    have hlen : a.sum.len i = 0 := by
      by_contra hlen
      have := h.mapped.2 (hs.mapped hlen)
      simp [hm] at this
    simpa [hlen] using h
  | some m =>
    by_cases hlen : a.sum.len i = 0
    · simp only [mapPtr, hlen, if_true]
      exact ⟨by simp, by simp, h.written, h.offset, by simpa [hm] using h.window,
        by simpa [hm] using h.mapped⟩
    · obtain ⟨d, hd, hdl, hget, hwin⟩ := mapPtr_spec (a.sum.offset i) hlen
        (h.window m (by simp [hm])) h.sees_file
      have : d = zslice (a.basis.getD []) (a.sum.offset i) (a.sum.len i) :=
        eq_zslice hdl fun j hj => hs.sees j hj _ (hget j hj)
      refine ⟨by simp [hd, this], by simp [hd, this], h.written, h.offset, ?_, ?_⟩
      · simpa using hwin
      · simpa [hm] using h.mapped

variable (a) in
/-- A first run of zeros in the output causes no failed seek. -/
def GapOk (p₀ : ℕ) (out : Bytes) : Prop :=
  a.sparse = true → CloudEdgeBackup.GapOk a.preallocatedLen p₀ a.sparsePastWrite out

theorem GapOk.of_append {p₀ : ℕ} {b c : Bytes} (h : a.GapOk p₀ (b ++ c)) : a.GapOk p₀ b :=
  fun hs => (h hs).of_append

theorem RecvOk.extend {p₀ : ℕ} {out : Bytes} {s : RecvState} (h : a.RecvOk p₀ out s) {b : Bytes}
    {o : OutFile} (ho : Written a.sparse (!a.opts.inplace) a.preallocatedLen a.start p₀
      a.sparsePastWrite (out ++ b) o) {n : ℕ} (hn : n = b.length) (summed : Bytes)
    (recs : List Rec) :
    a.RecvOk p₀ (out ++ b) ⟨o, s.mapbuf, s.offset + n, summed, recs⟩ :=
  ⟨ho, by simp [h.offset, hn, Nat.add_assoc], fun m hm => (h.window m hm).mono fun _ _ => (·.append b),
    h.mapped⟩

/-- Writing extends the output; it fails only on a first run of zeros. -/
theorem RecvOk.put {p₀ : ℕ} {out : Bytes} {s : RecvState} (h : a.RecvOk p₀ out s)
    (hfd : a.fd.isSome = true) (d : Bytes) :
    (∀ o ∈ a.put s d, Written a.sparse (!a.opts.inplace) a.preallocatedLen a.start p₀
      a.sparsePastWrite (out ++ d) o) ∧
    (a.GapOk p₀ (out ++ d) → (a.put s d).isSome) := by
  unfold Recv.put
  rw [if_pos hfd, h.offset]
  exact ⟨fun o ho => h.written.writeFile ho, fun hg => h.written.writeFile_isSome hg⟩

/-- Seeking over a block that is there already extends the output. -/
theorem RecvOk.skip {p₀ : ℕ} {out : Bytes} {s : RecvState} (h : a.RecvOk p₀ out s) {i : ℕ}
    (hs : a.BlockSafe p₀ out i) (hseek : a.Seeks s.offset i) {map : Option Bytes}
    (hmap : map.getD [] = zslice (a.basis.getD []) (a.sum.offset i) (a.sum.len i)) :
    (∀ o ∈ a.skip s map (a.sum.len i), Written a.sparse (!a.opts.inplace) a.preallocatedLen a.start
      p₀ a.sparsePastWrite
      (out ++ zslice (a.basis.getD []) (a.sum.offset i) (a.sum.len i)) o) ∧
    (a.GapOk p₀ (out ++ zslice (a.basis.getD []) (a.sum.offset i) (a.sum.len i)) →
      (a.skip s map (a.sum.len i)).isSome) := by
  have hinplace : (!a.opts.inplace) = false := by simp [a.updating_inplace hseek.1]
  have hoff := hseek.2.1
  rw [h.offset] at hoff hseek
  have hdata : ∀ d : Bytes, d = zslice (a.basis.getD []) (a.sum.offset i) (a.sum.len i) →
      ∀ j < d.length, zget d j = zget a.start (p₀ + out.length + j) := by
    rintro d rfl j hj
    rw [zslice_length] at hj
    rw [zget_zslice hj, hs.seek hseek j hj, hoff]
  unfold Recv.skip
  cases map with
  | some d =>
    have hd : d = zslice (a.basis.getD []) (a.sum.offset i) (a.sum.len i) := by simpa using hmap
    rw [← hd]
    simp only [h.offset]
    exact ⟨fun o ho => h.written.skipMatched hinplace (hdata d hd) ho,
      fun hg => h.written.skipMatched_isSome hinplace (hdata d hd) hg⟩
  | none =>
    have hlen : a.sum.len i = 0 := by simpa using (congrArg List.length hmap).symm
    simp only [hlen, List.replicate_zero, zslice_zero, List.append_nil, if_true]
    split_ifs with hsp
    · exact ⟨fun o ho => by cases ho; exact h.written, fun _ => rfl⟩
    · have hsp' : a.sparse = false := by simpa using hsp
      have hw := h.written
      rw [hsp'] at hw ⊢
      simp only [h.offset]
      refine ⟨fun o ho => ?_, fun hg => ?_⟩
      · simpa using hw.skipMatched hinplace (b := []) (by simp) ho
      · exact hw.skipMatched_isSome hinplace (b := []) (by simp) (by simp)

/-- A token that can be used extends the output by its bytes. -/
def TokenSafe (a : Recv) (p₀ : ℕ) (out : Bytes) : Token → Prop
  | .data _ => True
  | .block i => a.BlockSafe p₀ out i

theorem streamSafe_cons {p₀ : ℕ} {out : Bytes} {t : Token} {ts : List Token} :
    a.StreamSafe p₀ out (t :: ts) ↔
      a.TokenSafe p₀ out t ∧ a.StreamSafe p₀ (out ++ t.bytes (a.basis.getD []) a.sum) ts := by
  cases t <;> simp [StreamSafe, TokenSafe, Token.bytes]

/-- **One token of the loop.**  It fails only on a first run of zeros. -/
theorem recvToken_ok {p₀ : ℕ} {out : Bytes} {s : RecvState} (h : a.RecvOk p₀ out s)
    (hfd : a.fd.isSome = true) {t : Token} (ht : a.TokenSafe p₀ out t) :
    (∀ s' ∈ a.recvToken s t, a.RecvOk p₀ (out ++ t.bytes (a.basis.getD []) a.sum) s' ∧
      s'.summed = s.summed ++ t.bytes (a.basis.getD []) a.sum) ∧
    (a.GapOk p₀ (out ++ t.bytes (a.basis.getD []) a.sum) → (a.recvToken s t).isSome) := by
  cases t with
  | data d =>
    obtain ⟨hput, hsome⟩ := h.put hfd d
    refine ⟨fun s' hs' => ?_, fun hg => by simpa [recvToken] using hsome hg⟩
    obtain ⟨o, ho, rfl⟩ := Option.map_eq_some_iff.1 hs'
    exact ⟨h.extend (hput o ho) rfl _ _, rfl⟩
  | block i =>
    obtain ⟨hmap, hsum, hr⟩ := h.readBlock ht
    obtain ⟨h₁, h₂, h₃, -⟩ := a.readBlock_snd s i
    set map := (a.readBlock s i).1 with hmapdef
    set r := (a.readBlock s i).2 with hrdef
    simp only [recvToken, ← hmapdef, ← hrdef, Token.bytes]
    by_cases hseek : a.Seeks r.offset i
    · simp only [if_pos hseek]
      obtain ⟨hskip, hsome⟩ := hr.skip ht hseek hmap
      refine ⟨fun s' hs' => ?_, fun hg => by simpa using hsome hg⟩
      obtain ⟨o, ho, rfl⟩ := Option.map_eq_some_iff.1 hs'
      exact ⟨hr.extend (hskip o ho) (by simp) _ _, hsum⟩
    · simp only [if_neg hseek]
      cases hm : map with
      | none =>
        have hlen : a.sum.len i = 0 := by
          rw [hm] at hmap
          simpa using (congrArg List.length hmap).symm
        simp only [Option.mem_def, Option.some.injEq, forall_eq']
        refine ⟨⟨?_, hsum⟩, fun _ => rfl⟩
        simpa [hlen] using hr
      | some d =>
        have hd : d = zslice (a.basis.getD []) (a.sum.offset i) (a.sum.len i) := by
          simpa [hm] using hmap
        obtain ⟨hput, hsome⟩ := hr.put hfd d
        rw [← hd]
        refine ⟨fun s' hs' => ?_, fun hg => by simpa using hsome hg⟩
        obtain ⟨o, ho, rfl⟩ := Option.map_eq_some_iff.1 hs'
        exact ⟨hr.extend (hput o ho) (by simp [hd]) _ _, by rw [hsum, hd]⟩

/-- **The token loop writes what the tokens stand for.**  It fails only on a
    first run of zeros. -/
theorem recvTokens_ok {p₀ : ℕ} {out : Bytes} {s : RecvState} (h : a.RecvOk p₀ out s)
    (hfd : a.fd.isSome = true) {toks : List Token} (ht : a.StreamSafe p₀ out toks) :
    (∀ s' ∈ a.recvTokens s toks, a.RecvOk p₀ (out ++ decode (a.basis.getD []) a.sum toks) s' ∧
      s'.summed = s.summed ++ decode (a.basis.getD []) a.sum toks) ∧
    (a.GapOk p₀ (out ++ decode (a.basis.getD []) a.sum toks) → (a.recvTokens s toks).isSome) := by
  induction toks generalizing out s with
  | nil =>
    simp only [recvTokens, decode, List.flatMap_nil, List.append_nil]
    exact ⟨fun s' hs' => by cases hs'; exact ⟨h, rfl⟩, fun _ => rfl⟩
  | cons t ts ih =>
    obtain ⟨ht₁, ht₂⟩ := streamSafe_cons.1 ht
    obtain ⟨hok, hsome⟩ := recvToken_ok h hfd ht₁
    have hcons : out ++ decode (a.basis.getD []) a.sum (t :: ts) =
        out ++ t.bytes (a.basis.getD []) a.sum ++ decode (a.basis.getD []) a.sum ts := by
      simp [decode]
    rw [hcons]
    simp only [recvTokens]
    refine ⟨fun s' hs' => ?_, fun hg => ?_⟩
    · obtain ⟨s₁, h₁, h₂⟩ := Option.bind_eq_some_iff.1 hs'
      obtain ⟨hok₁, hsum₁⟩ := hok s₁ h₁
      obtain ⟨hok₂, hsum₂⟩ := (ih hok₁ ht₂).1 s' h₂
      exact ⟨hok₂, by rw [hsum₂, hsum₁]; simp [decode]⟩
    · obtain ⟨s₁, h₁⟩ := Option.isSome_iff_exists.1 (hsome hg.of_append)
      rw [h₁]
      exact (ih (hok s₁ h₁).1 ht₂).2 hg

/-! ## The whole call -/

theorem sumPrefix_spec {file : Bytes} {m : MapStruct} (flength offset : ℕ) (summed : Bytes)
    (hm : m.Forall fun x b => b = zget file x) :
    (sumPrefix file m flength offset summed).1.Forall (fun x b => b = zget file x) ∧
      (sumPrefix file m flength offset summed).2 = summed ++ zslice file offset (flength - offset) := by
  induction m, offset, summed using sumPrefix.induct file flength with
  | case1 m offset summed hlt d m' hmap ih =>
    have hch : chunkSize ≠ 0 := by norm_num
    obtain ⟨hd, hwin⟩ := mapPtr_eq offset hch hm
    rw [hmap] at hd hwin
    replace hd : d = some (zslice file offset chunkSize) := hd
    have hlen : chunkSize + (flength - (offset + chunkSize)) = flength - offset := by omega
    obtain ⟨h₁, h₂⟩ := ih hwin
    rw [sumPrefix, if_pos hlt, hmap]
    exact ⟨h₁, by rw [h₂, hd, Option.getD_some, List.append_assoc, ← zslice_add, hlen]⟩
  | case2 m offset summed hge hlt d m' hmap =>
    obtain ⟨hd, hwin⟩ := mapPtr_eq offset (Nat.sub_ne_zero_of_lt hlt) hm
    rw [hmap] at hd hwin
    replace hd : d = some (zslice file offset (flength - offset)) := hd
    rw [sumPrefix, if_neg hge, if_pos hlt, hmap]
    exact ⟨hwin, by simp [hd]⟩
  | case3 m offset summed hge hge' =>
    rw [sumPrefix, if_neg hge, if_neg hge']
    exact ⟨hm, by simp [Nat.sub_eq_zero_of_le (not_lt.1 hge')]⟩

variable (a) in
/-- What is summed before the token loop: with `--append-verify` the data
    appended to. -/
def summedPrefix (p₀ : ℕ) : Bytes :=
  if a.Mapped ∧ a.opts.appendMode = 2 then zslice (if a.live then a.start else a.basis.getD []) 0 p₀
  else []

theorem start_fresh {p₀ : ℕ} (hp : a.appendLen = some p₀) (h : (!a.opts.inplace) = true) :
    a.start = [] ∧ p₀ = 0 := by
  have hin : a.opts.inplace = false := by simpa using h
  constructor
  · unfold start
    split_ifs
    · rfl
    · cases hfd : a.fd with
      | none => rfl
      | some b => exact (a.fresh hin).2 b hfd
  · have : ¬ 0 < a.opts.appendMode := fun h => by simp [a.append_inplace h] at hin
    rw [appendLen, if_neg this] at hp
    exact (Option.some.inj hp).symm

/-- The loop starts with nothing received. -/
theorem init_ok {s : RecvState} (h : a.init = some s) :
    ∃ p₀, a.appendLen = some p₀ ∧ a.RecvOk p₀ [] s ∧ s.summed = a.summedPrefix p₀ ∧ s.recs = [] := by
  obtain ⟨p₀, hp, hs⟩ := Option.map_eq_some_iff.1 h
  refine ⟨p₀, hp, ?_⟩
  have hw := Written.start (!a.opts.inplace) a.start a.preallocatedLen
    p₀ a.sparsePastWrite a.sparse (start_fresh hp)
  have hfile : ∀ x, a.Sees p₀ [] x
      (zget (a.file ⟨a.start, p₀, [], 0, a.sparsePastWrite, a.preallocatedLen⟩) x) := by
    intro x
    unfold Sees file
    split_ifs
    · exact Or.inl rfl
    · rfl
  by_cases hm : 0 < a.sizeR
  · have hmapped : a.Mapped := hm
    simp only [if_pos hm] at hs
    by_cases happ : a.opts.appendMode = 2
    · rw [if_pos happ] at hs
      subst hs
      obtain ⟨h₁, h₂⟩ := sumPrefix_spec p₀ 0 []
        (MapStruct.forall_mapFile (fun x b => b = zget (a.file ⟨a.start, p₀, [], 0,
          a.sparsePastWrite, a.preallocatedLen⟩) x) a.sizeR (max (2 * a.sum.blength) (16 * 1024))
          a.sum.blength)
      refine ⟨⟨hw, rfl, ?_, by simp [hmapped]⟩, ?_, rfl⟩
      · simpa using h₁.mono fun x b hb => hb ▸ hfile x
      · dsimp only
        rw [h₂, summedPrefix, if_pos ⟨hmapped, happ⟩, file]
        simp
    · rw [if_neg happ] at hs
      subst hs
      exact ⟨⟨hw, rfl, by simpa using MapStruct.forall_mapFile _ _ _ _, by simp [hmapped]⟩,
        by simp [summedPrefix, happ], rfl⟩
  · have hmapped : ¬ a.Mapped := hm
    simp only [if_neg hm] at hs
    subst hs
    exact ⟨⟨hw, rfl, by simp, by simp [hmapped]⟩, by simp [summedPrefix, hmapped], rfl⟩

end Recv

section Call

variable {sumEnd : Bytes → Bytes} {a : Recv} {toks : List Token} {senderSum : Bytes} {r : Received}

/-- What a call that returns has done. -/
theorem receiveData_cases (h : receiveData sumEnd a toks senderSum = some r) :
    ∃ p₀ s₀ s, a.appendLen = some p₀ ∧ a.RecvOk p₀ [] s₀ ∧ s₀.summed = a.summedPrefix p₀ ∧
      a.recvTokens s₀ toks = some s ∧ s.offset = p₀ + (toks.map (Token.size a.sum)).sum ∧
      r.out = (if a.fd.isSome then finishOutput a.sparse a.opts.inplace s.out s.offset
        else s.out).data ∧
      r.delta = (if a.record then some (metadataLine a.totalSize a.sizeR a.sum ++
        (a.records p₀ toks).flatMap Rec.bytes) else none) ∧
      r.summed = s.summed ∧ r.senderFileSum = senderSum ∧ r.ret = 1 := by
  obtain ⟨s₀, h₀, h⟩ := Option.bind_eq_some_iff.1 h
  obtain ⟨s, hs, h⟩ := Option.bind_eq_some_iff.1 h
  obtain ⟨p₀, hp, hok, hsum, hrecs⟩ := Recv.init_ok h₀
  obtain ⟨hoff, hrs⟩ := Recv.recvTokens_spec hs hok.mapped
  rw [hok.offset, List.length_nil, Nat.add_zero] at hoff hrs
  rw [hrecs, List.nil_append] at hrs
  cases h
  exact ⟨p₀, s₀, s, hp, hok, hsum, hs, hoff, rfl, by simp only [hrs], rfl, rfl, by simp [memcmpNe]⟩

/-- In place the file ends where the output does. -/
theorem finishOutput_length (sparse : Bool) (f : OutFile) (n : ℕ) :
    (finishOutput sparse true f n).data.length = n := by
  simp [finishOutput, OutFile.truncate]

/-- **What a call leaves in the output file** when every block can be used. -/
theorem receiveData_ok (h : receiveData sumEnd a toks senderSum = some r)
    (hfd : a.fd.isSome = true) {p₀ : ℕ} (hp : a.appendLen = some p₀)
    (hsafe : a.StreamSafe p₀ [] toks) :
    ∃ f, Written a.sparse (!a.opts.inplace) a.preallocatedLen a.start p₀ a.sparsePastWrite
        (decode (a.basis.getD []) a.sum toks) f ∧
      r.out = (finishOutput a.sparse a.opts.inplace f
        (p₀ + (decode (a.basis.getD []) a.sum toks).length)).data ∧
      r.summed = a.summedPrefix p₀ ++ decode (a.basis.getD []) a.sum toks := by
  obtain ⟨p₁, s₀, s, hp₁, hok, hsum, hs, -, hout, -, hsummed, -, -⟩ := receiveData_cases h
  obtain rfl : p₁ = p₀ := by rw [hp] at hp₁; exact (Option.some.inj hp₁).symm
  obtain ⟨hok', hsum'⟩ := (Recv.recvTokens_ok hok hfd hsafe).1 s hs
  rw [List.nil_append] at hok'
  refine ⟨s.out, hok'.written, ?_, by rw [hsummed, hsum', hsum]⟩
  rw [hout, if_pos hfd, hok'.offset]

/-- A call returns, if every block can be used and no gap is in the way. -/
theorem receiveData_isSome (sumEnd : Bytes → Bytes) (senderSum : Bytes) (hfd : a.fd.isSome = true) {p₀ : ℕ} (hp : a.appendLen = some p₀)
    (hsafe : a.StreamSafe p₀ [] toks) (hgap : a.GapOk p₀ (decode (a.basis.getD []) a.sum toks)) :
    (receiveData sumEnd a toks senderSum).isSome := by
  obtain ⟨s₀, h₀⟩ : ∃ s₀, a.init = some s₀ := by simp [Recv.init, hp]
  obtain ⟨p₁, hp₁, hok, -, -⟩ := Recv.init_ok h₀
  obtain rfl : p₁ = p₀ := by rw [hp] at hp₁; exact (Option.some.inj hp₁).symm
  obtain ⟨s, hs⟩ := Option.isSome_iff_exists.1
    ((Recv.recvTokens_ok hok hfd hsafe).2 (by simpa using hgap))
  simp only [receiveData, h₀, hs, Option.bind_eq_bind, Option.bind_some, Option.isSome_some]

end Call

end CloudEdgeBackup
