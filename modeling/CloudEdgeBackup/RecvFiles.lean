/-
  The receive loop of a run (`recv_files` of `receiver.c`) with the version
  stores it keeps.

  * a `World` is what a run of `recv_files` finds and leaves: the files, the
    version stores, and the globals that survive from one file to the next
    (`first_backup`, `delta_backup_fname`, `sparse_past_write`);
  * a `Request` is one pass of the loop: what the sender sends for a file and how
    the system calls end;
  * `setUp` looks for a full backup, `receiveInto` receives (or discards),
    `install` moves the new file into place, `copyFull` and `manage` keep the
    store; `recvFile` is the pass, `recvFiles` the loop.  `none` ends the process;
  * `receiveInto_eq`, `install_stores` and the `@[simp]` lemmas say what each part
    changes; `EveryFile` is a property of all passes of a run.
-/
import CloudEdgeBackup.Transfer
import CloudEdgeBackup.Recovery

namespace CloudEdgeBackup

open Zext Versions

/-! ## Paths -/

/-- The part of `fname` after the last slash. -/
def fileNameOf (fname : Bytes) : Bytes := fname.rtakeWhile fun b => decide (b ≠ slash)

/-- The part of `fname` before the last slash, `"."` without one. -/
def dirNameOf (fname : Bytes) : Bytes :=
  if slash ∈ fname then (fname.rdropWhile fun b => decide (b ≠ slash)).dropLast else cstr "."

/-! ## The state of a run -/

def Backups.set (b : Backups) (kind : BackupType) (s : Store) : Backups :=
  match kind with
  | .incremental => { b with incremental := s }
  | .differential => { b with differential := s }

/-- What `recv_files` finds and leaves. -/
structure World where
  /-- the regular files, by path -/
  files : Bytes → Option Bytes
  /-- the version stores, by the file they belong to -/
  backups : Bytes → Backups
  /-- `first_backup`: -1 until a file has been set up -/
  firstBackup : ℤ
  /-- the file whose delta `delta_backup_fname` names, if it is not empty -/
  deltaBackup : Option Bytes
  sparsePastWrite : ℕ
  /-- `delayed_bits` -/
  delayed : List Bytes

namespace World

def setFile (w : World) (path : Bytes) (content : Option Bytes) : World :=
  { w with files := fun p => if p = path then content else w.files p }

def store (w : World) (kind : BackupType) (fname : Bytes) : Store := (w.backups fname).get kind

def setStore (w : World) (kind : BackupType) (fname : Bytes) (s : Store) : World :=
  { w with backups := fun f => if f = fname then (w.backups f).set kind s else w.backups f }

/-- A run begins. -/
def begin (files : Bytes → Option Bytes) (backups : Bytes → Backups) : World :=
  ⟨files, backups, -1, none, 0, []⟩

end World

/-- The options of a run. -/
structure RunOpts where
  /-- `task_type_backup_or_recovery_receiver == 0` -/
  backup : Bool
  backupType : BackupType
  backupVersion : Bytes
  backupVersionNum : ℤ
  wholeFile : Bool
  inplace : Bool
  appendMode : ℤ
  sparseFiles : Bool
  delayUpdates : Bool
  keepPartial : Bool
  /-- `partial_dir_fname`, if there is a `partial_dir` -/
  partialDir : Option (Bytes → Option Bytes)
  /-- `get_backup_name` -/
  backupName : Bytes → Option Bytes
  basisDir : List Bytes
  /-- what the filters of a daemon exclude -/
  excluded : Bytes → Bool
  append_inplace : appendMode ≠ 0 → inplace = true

/-! ## One file of the run -/

/-- `fnamecmp_type` with the name that goes with it. -/
inductive FnameCmp
  | fname
  | partialDir
  | backup
  | fuzzy (xname : Bytes)
  | basisDir (i : ℕ)
  | basisDirFuzzy (i : ℕ) (xname : Bytes)
  deriving DecidableEq

/-- How `finish_transfer` ends. -/
inductive Finish
  /-- the new file is in place -/
  | done
  /-- the rename failed: what is at the target now, and whether the new file was
      kept at `partialptr` -/
  | failed (left : Option Bytes) (kept : Bool)
  deriving DecidableEq

/-- The way a pass of the loop takes. -/
inductive Fate
  /-- discarded before anything is set up: a batch that is not wanted, a dry run
      of a batch, `write_batch < 0` -/
  | skipped
  /-- discarded after the set-up: no `fstat`, a directory, no output file -/
  | unopened
  /-- received; `handle_partial_dir` makes the partial dir or not -/
  | received (dirMade : Bool) (finish : Finish)
  deriving DecidableEq

/-- One pass of the loop. -/
structure Request where
  fname : Bytes
  /-- `file->dirname` -/
  dirname : Option Bytes
  /-- `F_LENGTH(file)` -/
  length : ℕ
  cmp : FnameCmp
  /-- `FLAG_FILE_SENT`: the file is sent again -/
  redoing : Bool
  head : SumHead
  toks : TokenStream
  senderSum : Bytes
  fate : Fate

/-- `pathjoin` -/
def pathjoin (dir name : Bytes) : Bytes := dir ++ cstr "/" ++ name

namespace Request

variable (r : Request) (o : RunOpts)

/-- `partialptr` -/
def partialptr : Option Bytes :=
  match o.partialDir with
  | some partialDirFname => partialDirFname r.fname
  | none => some r.fname

/-- The basis the type names; `none` is an invalid index. -/
def basisName : Option (Option Bytes) :=
  match r.cmp with
  | .fname => some (some r.fname)
  | .partialDir => some (r.partialptr o)
  | .backup => some (o.backupName r.fname)
  | .fuzzy xname => some (some (r.dirname.elim xname (pathjoin · xname)))
  | .basisDir i => (o.basisDir[i]?).map fun dir => some (pathjoin dir r.fname)
  | .basisDirFuzzy i xname =>
    (o.basisDir[i]?).map fun dir => some (pathjoin dir (r.dirname.elim xname (pathjoin · xname)))

/-- `fnamecmp`, and whether its type is `FNAMECMP_BACKUP`. -/
def fnamecmp : Option (Bytes × Bool) :=
  (r.basisName o).map fun name =>
    match name with
    | some path => if o.excluded path then (r.fname, false) else (path, decide (r.cmp = .backup))
    | none => (r.fname, false)

/-- `append_mode` in this pass. -/
def appendMode : ℤ := if r.redoing then -o.appendMode else o.appendMode

/-- `sparse_files` in this pass. -/
def sparseFiles : ℤ :=
  let n : ℤ := if o.sparseFiles then 1 else 0
  if r.redoing ∧ o.appendMode ≠ 0 then -n else n

theorem appendMode_inplace (h : 0 < r.appendMode o) : o.inplace = true := by
  refine o.append_inplace ?_
  rintro h0
  simp [appendMode, h0] at h

end Request

/-- Is a delta recorded? -/
def World.records (w : World) (o : RunOpts) : Bool := o.backup && decide (w.firstBackup = 0)

section Calls

variable (o : RunOpts) (w : World) (r : Request)

theorem discard_fresh (_ : o.inplace = false) :
    false = false ∧ ∀ b ∈ (none : Option Bytes), b = [] := ⟨rfl, by simp⟩

theorem discard_live (_ : false = true) : (none : Option Bytes) = none := rfl

theorem discard_updating (h : false = true) : o.inplace = true := by cases h

/-- `discard_receive_data`; `updating_basis_or_equiv` does not matter without an
    output file. -/
def discardRecv : Recv where
  opts := ⟨o.inplace, r.appendMode o, r.sparseFiles o, o.wholeFile, false⟩
  basis := none
  live := false
  fd := none
  totalSize := r.length
  head := r.head
  record := w.records o
  sparsePastWrite := w.sparsePastWrite
  fresh := discard_fresh o
  live_eq := discard_live
  append_inplace := r.appendMode_inplace o
  updating_inplace := discard_updating o

/-- The output file: the file itself in place, a temporary one otherwise. -/
def outputFile : Option Bytes := some (if o.inplace then (w.files r.fname).getD [] else [])

/-- The basis and the output file are one. -/
def sameFile (cmp : Bytes) : Bool := o.inplace && decide (cmp = r.fname) && (w.files cmp).isSome

theorem recv_fresh (cmp : Bytes) (h : o.inplace = false) :
    sameFile o w r cmp = false ∧ ∀ b ∈ outputFile o w r, b = [] := by
  simp [sameFile, outputFile, h]

theorem recv_live (cmp : Bytes) (h : sameFile o w r cmp = true) :
    outputFile o w r = w.files cmp := by
  simp only [sameFile, Bool.and_eq_true, decide_eq_true_eq] at h
  obtain ⟨c, hc⟩ := Option.isSome_iff_exists.1 h.2
  rw [outputFile, h.1.1, if_pos rfl, ← h.1.2, hc]
  rfl

theorem recv_updating (cmp : Bytes × Bool) (h : (o.inplace && (decide (cmp.1 = r.fname) || cmp.2)) = true) :
    o.inplace = true := by
  simp only [Bool.and_eq_true] at h
  exact h.1

/-- The call of `receive_data` for a file that is opened. -/
def recvOf (cmp : Bytes × Bool) : Recv where
  opts := ⟨o.inplace, r.appendMode o, r.sparseFiles o, o.wholeFile,
    o.inplace && (decide (cmp.1 = r.fname) || cmp.2)⟩
  basis := w.files cmp.1
  live := sameFile o w r cmp.1
  fd := outputFile o w r
  totalSize := r.length
  head := r.head
  record := w.records o
  sparsePastWrite := w.sparsePastWrite
  fresh := recv_fresh o w r cmp.1
  live_eq := recv_live o w r cmp.1
  append_inplace := r.appendMode_inplace o
  updating_inplace := recv_updating o r cmp

end Calls

/-- There is a full backup of the file. -/
def World.hasFull (w : World) (o : RunOpts) (fname : Bytes) : Bool :=
  (w.store o.backupType fname).full.keys.any fun name =>
    (fullPrefix (fileNameOf fname)).isPrefixOf name

/-- The part of a pass that looks for a full backup of the file. -/
def setUp (o : RunOpts) (w : World) (fname : Bytes) : World :=
  if o.backup then
    { w with
      firstBackup := if w.hasFull o fname then 0 else 1
      deltaBackup := some fname }
  else { w with firstBackup := 1, deltaBackup := none }

/-- `full_backup_fname`, below its directory. -/
def fullName (o : RunOpts) (fname : Bytes) : Bytes := fullPrefix (fileNameOf fname) ++ o.backupVersion

/-- `delta_backup_fname`, below its directory. -/
def deltaName (o : RunOpts) (fname : Bytes) : Bytes := deltaPrefix (fileNameOf fname) ++ o.backupVersion

/-- `receive_data`, with the delta file it writes under the name of
    `delta_backup_fname`. -/
def receiveInto (sumEnd : Bytes → Bytes) (o : RunOpts) (w : World) (a : Recv) (r : Request) :
    Option (Received × World) := do
  let res ← receiveData sumEnd a r.toks.toks r.senderSum
  let w := { w with sparsePastWrite := res.sparsePastWrite }
  match res.delta with
  | none => some (res, w)
  | some delta => do
    let fname ← w.deltaBackup
    let s := w.store o.backupType fname
    let deltas ← s.delta.create (deltaName o fname) delta
    some (res, w.setStore o.backupType fname { s with delta := deltas })

/-- `finish_transfer` of a temporary file. -/
def finishTransfer (w : World) (fname : Bytes) (partialptr : Option Bytes) (out : Bytes) :
    Finish → World × Bool
  | .done => (w.setFile fname (some out), true)
  | .failed left kept =>
    match kept, partialptr with
    | true, some path => ((w.setFile fname left).setFile path (some out), false)
    | _, _ => (w.setFile fname left, false)

/-- The new file goes to the partial dir: with `delay_updates` it stays there. -/
def keepInPartialDir (o : RunOpts) (w : World) (fname path : Bytes) (finish : Finish)
    (res : Received) : World × ℤ :=
  let f := finishTransfer w path none res.out finish
  if f.2 then
    if o.delayUpdates ∧ res.ret ≠ 0 then ({ f.1 with delayed := f.1.delayed ++ [fname] }, 2)
    else (f.1, res.ret)
  else (f.1, -1)

/-- The new file goes to its place; a basis in the partial dir is no longer needed. -/
def putInPlace (w : World) (fname cmp : Bytes) (partialptr : Option Bytes) (finish : Finish)
    (res : Received) : World × ℤ :=
  let partialptr := if partialptr = some fname then none else partialptr
  let f := finishTransfer w fname partialptr res.out finish
  if f.2 then (if partialptr = some cmp then f.1.setFile cmp none else f.1, res.ret) else (f.1, -1)

/-- The new file is moved into place, or to the partial dir; the value of
    `recv_ok` after that.  A file updated in place is there already. -/
def install (o : RunOpts) (w : World) (r : Request) (cmp : Bytes) (dirMade : Bool) (finish : Finish)
    (res : Received) : World × ℤ :=
  if o.inplace then (w.setFile r.fname (some res.out), res.ret)
  else if res.ret ≠ 0 ∧ (o.delayUpdates = false ∨ r.partialptr o = none) then
    putInPlace w r.fname cmp (r.partialptr o) finish res
  else
    match r.partialptr o with
    | none => (w, res.ret)
    | some path =>
      if o.keepPartial = false then (w, res.ret)
      else if dirMade = false then (w, -1)
      else keepInPartialDir o w r.fname path finish res

/-- The size of the buffer the full backup is copied with. -/
abbrev copyBufSize : ℕ := 1024 * 100

/-- The loop that copies the file to its full backup. -/
def copyLoop (src out : Bytes) : Bytes :=
  if src = [] then out
  else
    let buf := src.take copyBufSize
    if buf.length < copyBufSize then out ++ buf else copyLoop (src.drop copyBufSize) (out ++ buf)
termination_by src.length
decreasing_by
  have := List.length_pos_iff.2 ‹src ≠ []›
  simp [copyBufSize]; omega

/-- The full backup is written from the file as it is now.  Without a file the
    copy is closed unopened. -/
def copyFull (o : RunOpts) (w : World) (fname : Bytes) : Option (Bytes × World) := do
  let content ← w.files fname
  let s := w.store o.backupType fname
  let copy := copyLoop content []
  let fulls ← s.full.create (fullName o fname) copy
  some (copy, w.setStore o.backupType fname { s with full := fulls })

/-- `manage_backup_version` on a store of the file. -/
def manageStore (o : RunOpts) (fname : Bytes) (s : Store) : Option Store :=
  manageBackupVersion (backupPath (dirNameOf fname) (fileNameOf fname) o.backupType) o.backupType
    o.backupVersionNum s

def manage (o : RunOpts) (w : World) (fname : Bytes) : Option World := do
  let s ← manageStore o fname (w.store o.backupType fname)
  some (w.setStore o.backupType fname s)

/-- What a pass of the loop leaves behind. -/
structure Pass where
  world : World
  /-- `recv_ok` at the end, unless the data was discarded -/
  recvOk : Option ℤ
  received : Received
  /-- what was written to the full backup -/
  full : Option Bytes

/-- A full backup is due: the first backup, or whole files. -/
def World.fullDue (w : World) (o : RunOpts) : Bool :=
  o.backup && (decide (w.firstBackup = 1) || o.wholeFile)

/-- The store after a file was received. -/
def keepVersions (o : RunOpts) (w : World) (fname : Bytes) : Option (Option Bytes × World) :=
  if o.backup then
    if w.fullDue o then do
      let r ← copyFull o w fname
      let w ← manage o r.2 fname
      some (some r.1, w)
    else do
      let w ← manage o w fname
      some (none, w)
  else some (none, w)

/-- A pass from the set-up until the new file is in place: what was received, the
    world and `recv_ok`. -/
def receiveFile (sumEnd : Bytes → Bytes) (o : RunOpts) (w : World) (r : Request) (dirMade : Bool)
    (finish : Finish) : Option (Received × World × ℤ) := do
  let cmp ← r.fnamecmp o
  let w := setUp o w r.fname
  let d ← receiveInto sumEnd o w (recvOf o w r cmp) r
  some (d.1, install o d.2 r cmp.1 dirMade finish d.1)

/-- One pass of the loop of `recv_files`. -/
def recvFile (sumEnd : Bytes → Bytes) (o : RunOpts) (w : World) (r : Request) : Option Pass :=
  match r.fate with
  | .skipped => do
    let d ← receiveInto sumEnd o w (discardRecv o w r) r
    some ⟨d.2, none, d.1, none⟩
  | .unopened => do
    let w := setUp o w r.fname
    let d ← receiveInto sumEnd o w (discardRecv o w r) r
    some ⟨d.2, none, d.1, none⟩
  | .received dirMade finish => do
    let i ← receiveFile sumEnd o w r dirMade finish
    let k ← keepVersions o i.2.1 r.fname
    some ⟨k.2, some i.2.2, i.1, k.1⟩

/-- `MSG_REDO`: the file is asked for again. -/
def Pass.asksRedo (p : Pass) (r : Request) : Bool := decide (p.recvOk = some 0) && !r.redoing

/-- The loop of `recv_files`. -/
def recvFiles (sumEnd : Bytes → Bytes) (o : RunOpts) (w : World) : List Request → Option World
  | [] => some w
  | r :: rs => do
    let p ← recvFile sumEnd o w r
    recvFiles sumEnd o p.world rs

/-- `handle_delayed_updates` when no rename fails. -/
def handleDelayedUpdates (o : RunOpts) (w : World) : World :=
  w.delayed.foldl (fun w fname =>
    match o.partialDir.bind (· fname) with
    | some path => (w.setFile fname (w.files path)).setFile path none
    | none => w) w

/-! ## What each part changes -/

section Frames

variable {sumEnd : Bytes → Bytes} {o : RunOpts} {w : World} {r : Request}

theorem Backups.get_set (b : Backups) (k k' : BackupType) (s : Store) :
    (b.set k s).get k' = if k' = k then s else b.get k' := by
  cases k <;> cases k' <;> rfl

@[simp] theorem store_setStore (kind kind' : BackupType) (f f' : Bytes) (s : Store) :
    (w.setStore kind f s).store kind' f' = if f' = f ∧ kind' = kind then s else w.store kind' f' := by
  by_cases hf : f' = f
  · simp [World.store, World.setStore, hf, Backups.get_set]
  · simp [World.store, World.setStore, hf]

@[simp] theorem files_setStore (kind : BackupType) (f : Bytes) (s : Store) :
    (w.setStore kind f s).files = w.files := rfl

@[simp] theorem files_setFile (path path' : Bytes) (c : Option Bytes) :
    (w.setFile path c).files path' = if path' = path then c else w.files path' := rfl

@[simp] theorem backups_setFile (path : Bytes) (c : Option Bytes) :
    (w.setFile path c).backups = w.backups := rfl

@[simp] theorem setUp_files (f : Bytes) : (setUp o w f).files = w.files := by
  unfold setUp; split_ifs <;> rfl

@[simp] theorem setUp_backups (f : Bytes) : (setUp o w f).backups = w.backups := by
  unfold setUp; split_ifs <;> rfl

theorem recvOf_temp (hin : o.inplace = false) (hwhole : o.wholeFile = false) (cmp : Bytes × Bool) :
    (recvOf o w r cmp).Temp ((w.files cmp.1).getD []) r.head :=
  ⟨hin, rfl, hwhole, rfl, rfl⟩

theorem receiveInto_of_unrecorded {a : Recv} {res : Received}
    (h : receiveData sumEnd a r.toks.toks r.senderSum = some res) (hdelta : res.delta = none) :
    receiveInto sumEnd o w a r = some (res, { w with sparsePastWrite := res.sparsePastWrite }) := by
  rw [receiveInto, h, Option.bind_eq_bind, Option.bind_some, hdelta]

theorem receiveInto_of_recorded {a : Recv} {res : Received} {delta fname : Bytes}
    (h : receiveData sumEnd a r.toks.toks r.senderSum = some res) (hdelta : res.delta = some delta)
    (hname : w.deltaBackup = some fname)
    (hok : NameOk (deltaName o fname)) :
    receiveInto sumEnd o w a r =
      some (res, ({ w with sparsePastWrite := res.sparsePastWrite } : World).setStore o.backupType fname
        { w.store o.backupType fname with
          delta := (w.store o.backupType fname).delta.insert (deltaName o fname) delta }) := by
  rw [receiveInto, h, Option.bind_eq_bind, Option.bind_some, hdelta]
  simp only [hname, Option.bind_eq_bind, Option.bind_some, Dir.create, if_pos hok]
  rfl

/-- Nothing but the delta file changes in the stores, and that only when a delta
    is recorded. -/
theorem receiveInto_eq {a : Recv} {d : Received × World} (h : receiveInto sumEnd o w a r = some d) :
    receiveData sumEnd a r.toks.toks r.senderSum = some d.1 ∧ d.2.files = w.files ∧
      (d.1.delta = none → d.2.backups = w.backups) := by
  obtain ⟨res, hres, h⟩ := Option.bind_eq_some_iff.1 h
  cases hdelta : res.delta with
  | none =>
    simp only [hdelta, Option.some.injEq] at h
    subst h
    exact ⟨hres, rfl, fun _ => rfl⟩
  | some delta =>
    simp only [hdelta] at h
    obtain ⟨f, -, h⟩ := Option.bind_eq_some_iff.1 h
    obtain ⟨deltas, -, h⟩ := Option.bind_eq_some_iff.1 h
    rw [Option.some.injEq] at h
    subst h
    exact ⟨hres, rfl, fun hn => by simp [hdelta] at hn⟩

/-- Two worlds with the same stores and the same `first_backup`. -/
structure SameStores (w w' : World) : Prop where
  backups : w'.backups = w.backups
  firstBackup : w'.firstBackup = w.firstBackup

/-- Where a delta goes that was recorded. -/
theorem receiveInto_recorded {a : Recv} {d : Received × World} {delta : Bytes}
    (h : receiveInto sumEnd o w a r = some d) (hdelta : d.1.delta = some delta) :
    ∃ fname, w.deltaBackup = some fname ∧
      d.2.backups = (w.setStore o.backupType fname { w.store o.backupType fname with
        delta := (w.store o.backupType fname).delta.insert (deltaName o fname) delta }).backups := by
  obtain ⟨res, hres, h⟩ := Option.bind_eq_some_iff.1 h
  cases hr : res.delta with
  | none =>
    simp only [hr, Option.some.injEq] at h
    subst h
    rw [hr] at hdelta
    cases hdelta
  | some delta' =>
    simp only [hr] at h
    obtain ⟨fname, hname, h⟩ := Option.bind_eq_some_iff.1 h
    obtain ⟨deltas, hcreate, h⟩ := Option.bind_eq_some_iff.1 h
    rw [Option.some.injEq] at h
    subst h
    obtain rfl : delta' = delta := Option.some.inj (hr.symm.trans hdelta)
    rw [Dir.create] at hcreate
    split_ifs at hcreate
    obtain rfl := Option.some.inj hcreate
    exact ⟨fname, hname, rfl⟩

theorem finishTransfer_stores (fname : Bytes) (partialptr : Option Bytes) (out : Bytes)
    (finish : Finish) : SameStores w (finishTransfer w fname partialptr out finish).1 := by
  unfold finishTransfer
  split
  · exact ⟨rfl, rfl⟩
  · split <;> exact ⟨rfl, rfl⟩

theorem putInPlace_stores (fname cmp : Bytes) (partialptr : Option Bytes) (finish : Finish)
    (res : Received) : SameStores w (putInPlace w fname cmp partialptr finish res).1 := by
  unfold putInPlace
  dsimp only
  generalize (if partialptr = some fname then none else partialptr) = path
  have := finishTransfer_stores (w := w) fname path res.out finish
  split_ifs <;> exact ⟨this.backups, this.firstBackup⟩

theorem keepInPartialDir_stores (fname path : Bytes) (finish : Finish) (res : Received) :
    SameStores w (keepInPartialDir o w fname path finish res).1 := by
  have := finishTransfer_stores (w := w) path none res.out finish
  unfold keepInPartialDir
  dsimp only
  split_ifs <;> exact ⟨this.backups, this.firstBackup⟩

/-- The install step leaves the stores alone. -/
theorem install_stores (cmp : Bytes) (dirMade : Bool) (finish : Finish) (res : Received) :
    SameStores w (install o w r cmp dirMade finish res).1 := by
  unfold install
  cases r.partialptr o with
  | none =>
    dsimp only
    split_ifs
    · exact ⟨rfl, rfl⟩
    · exact putInPlace_stores _ _ _ _ _
    · exact ⟨rfl, rfl⟩
  | some path =>
    dsimp only
    split_ifs
    · exact ⟨rfl, rfl⟩
    · exact putInPlace_stores _ _ _ _ _
    · exact ⟨rfl, rfl⟩
    · exact ⟨rfl, rfl⟩
    · exact keepInPartialDir_stores _ _ _ _

end Frames

/-! ## Every pass of a run -/

/-- What holds of a request, the world before it and the pass it makes, in every
    pass of a run. -/
def EveryFile (P : World → Request → Pass → Prop) (sumEnd : Bytes → Bytes) (o : RunOpts) :
    World → List Request → Prop
  | _, [] => True
  | w, r :: rs => ∀ p, recvFile sumEnd o w r = some p → P w r p ∧ EveryFile P sumEnd o p.world rs

/-- A law of one pass is one of every pass of a run. -/
theorem EveryFile.imp {P Q : World → Request → Pass → Prop} {sumEnd : Bytes → Bytes} {o : RunOpts}
    (himp : ∀ w r p, recvFile sumEnd o w r = some p → P w r p → Q w r p) {w : World}
    {rs : List Request} (h : EveryFile P sumEnd o w rs) : EveryFile Q sumEnd o w rs := by
  induction rs generalizing w with
  | nil => trivial
  | cons r rs ih =>
    intro p hp
    obtain ⟨hP, hrest⟩ := h p hp
    exact ⟨himp w r p hp hP, ih hrest⟩

end CloudEdgeBackup
