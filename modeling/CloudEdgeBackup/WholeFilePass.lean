/-
  The combined pass of a whole-file run (`send_file_list_and_file` and
  `recv_file_list_and_file` of `flist.c`): the file list, then the data of what
  the variable `file` holds on either side.

  * `sendArg` is the loop over the arguments, `sendLoop` the loop over the data:
    it runs once from protocol 29 on, and never before;
  * `recvName` is the name the receiver takes: the one of the entry that came
    last; `listAndData` puts the two sides together;
  * `transfersAll_iff`: all regular files arrive only if there is just one;
  * `recvListed` is the loop of the receiver with the version stores, which it
    does not touch; `versioned_iff`: they are right only if they were before.
-/
import CloudEdgeBackup.Selection
import CloudEdgeBackup.WholeFile

namespace CloudEdgeBackup

/-! ## The sender -/

inductive FileKind
  | regular
  | directory
  | other
  deriving DecidableEq

/-- An entry of the file list; the content is that of a regular file. -/
structure Entry where
  name : Bytes
  kind : FileKind
  content : Bytes
  deriving DecidableEq

/-- `name_type` -/
inductive NameType
  | normal
  | slashEnding
  | dotdir
  | missing
  deriving DecidableEq

/-- An argument that is neither missing nor excluded. -/
structure SourceArg where
  nameType : NameType
  /-- `send_implied_dirs` -/
  implied : List Entry
  /-- what `send_file_name` makes of it -/
  entry : Option Entry
  /-- `send_directory` and `send_if_directory` -/
  below : List Entry

structure PassOpts where
  protocolVersion : ℕ
  recurse : Bool
  xferDirs : Bool
  incRecurse : Bool

/-- The list as it is sent, and `file`: without a value until the first
    assignment, and perhaps null. -/
structure ListState where
  sent : List Entry
  file : Option (Option Entry)

/-- One argument; `none` is one that is skipped. -/
def sendArg (o : PassOpts) (s : ListState) : Option SourceArg → ListState
  | none => s
  | some a =>
    if o.recurse ∨ (o.xferDirs ∧ a.nameType ≠ .normal) then
      match a.entry with
      | none => ⟨s.sent ++ a.implied, some none⟩
      | some e => ⟨s.sent ++ a.implied ++ e :: a.below, some (some e)⟩
    else { s with sent := s.sent ++ a.implied ++ a.entry.toList }

def sendList (o : PassOpts) (args : List (Option SourceArg)) : ListState :=
  args.foldl (sendArg o) ⟨[], none⟩

def maxPhase (o : PassOpts) : ℕ := if 29 ≤ o.protocolVersion then 2 else 1

/-- The loop over the data, `n` phases before its end: `file` is the same in each.
    A file that cannot be opened is left out. -/
def sendLoop (opened : Bytes → Option Bytes) (file : Option (Option Entry)) :
    ℕ → Option (List Bytes)
  | 0 => some []
  | n + 1 =>
    match file with
    | some (some e) => (sendLoop opened file n).map fun ds => (opened e.name).toList ++ ds
    | _ => none

/-- The data: `phase` starts at 1 and is counted up before it is tested. -/
def sendData (o : PassOpts) (opened : Bytes → Option Bytes) (s : ListState) : Option (List Bytes) :=
  sendLoop opened s.file (maxPhase o - 1)

/-! ## The receiver -/

/-- `flist_sort_and_clean` clears the last entry: an earlier one has its path and
    is not the one that gives way. -/
def LastCleared (es : List Entry) : Prop :=
  ∃ l ∈ es.getLast?, ∃ e ∈ es.dropLast, e.name = l.name ∧
    (e.kind = .directory ∨ l.kind ≠ .directory)

instance (es : List Entry) : Decidable (LastCleared es) := by unfold LastCleared; infer_instance

/-- The name under which an entry goes: a list of one takes the one that
    `get_local_name` finds, if it does. -/
def target (localName : Option Bytes) (es : List Entry) (e : Entry) : Bytes :=
  if es.length = 1 then localName.getD e.name else e.name

/-- The name of the file that is received, that of the entry that `file` is. -/
def recvName (localName : Option Bytes) (es : List Entry) : Option Bytes := do
  let l ← es.getLast?
  if LastCleared es then none else some (target localName es l)

/-- How many items of further lists `recv_additional_file_list` reads. -/
def itemsRead (o : PassOpts) (es : List Entry) : ℕ :=
  if o.incRecurse ∧ es.length = 1 then 1 else 0

/-- The combined pass: what is written, and under which names.  `items` are the
    further lists (or their end) which the sender sends before the data; the
    receiver goes on with the data.  `none` is undefined: a variable without a
    value, or bytes that are taken for something else. -/
def listAndData (o : PassOpts) (args : List (Option SourceArg)) (items : ℕ)
    (opened : Bytes → Option Bytes) (localName : Option Bytes) : Option (List (Bytes × Bytes)) := do
  let s := sendList o args
  let ds ← sendData o opened s
  let name ← recvName localName s.sent
  if items ≠ itemsRead o s.sent then none
  else
    match ds with
    | [] => none
    | d :: _ => some [(name, d)]

/-! ## What arrives -/

/-- The regular files of the list, with the names they go under. -/
def wanted (localName : Option Bytes) (es : List Entry) : List (Bytes × Bytes) :=
  (es.filter fun e => decide (e.kind = .regular)).map fun e => (target localName es e, e.content)

/-- The pass transfers all regular files and nothing else. -/
def TransfersAll (o : PassOpts) (args : List (Option SourceArg)) (items : ℕ)
    (opened : Bytes → Option Bytes) (localName : Option Bytes) : Prop :=
  ∃ ws, listAndData o args items opened localName = some ws ∧
    ∀ w, w ∈ ws ↔ w ∈ wanted localName (sendList o args).sent

/-- There is a regular file, and just one: it has the path of the entry that came
    last, and its content is under the path of the one that `file` holds. -/
structure OneFile (o : PassOpts) (args : List (Option SourceArg)) (items : ℕ)
    (opened : Bytes → Option Bytes) : Prop where
  protocol : 29 ≤ o.protocolVersion
  /-- the further lists are read -/
  items : items = itemsRead o (sendList o args).sent
  kept : ¬ LastCleared (sendList o args).sent
  regular : ∃ e ∈ (sendList o args).sent, e.kind = .regular
  file : ∃ f l, (sendList o args).file = some (some f) ∧ (sendList o args).sent.getLast? = some l ∧
    ∀ e ∈ (sendList o args).sent, e.kind = .regular → e.name = l.name ∧ opened f.name = some e.content

section Pass

variable {o : PassOpts} {args : List (Option SourceArg)} {items : ℕ} {opened : Bytes → Option Bytes}
  {localName : Option Bytes}

/-- Before protocol 29 no data is sent, from it on the data of one file. -/
theorem sendData_eq {s : ListState} {ds : List Bytes} : sendData o opened s = some ds ↔
    (o.protocolVersion < 29 ∧ ds = []) ∨
      29 ≤ o.protocolVersion ∧ ∃ f, s.file = some (some f) ∧ ds = (opened f.name).toList := by
  rw [sendData, maxPhase]
  by_cases h : 29 ≤ o.protocolVersion
  · rw [if_pos h]
    obtain ⟨sent, file⟩ := s
    rcases file with _ | _ | f
    · simp [sendLoop, h]
    · simp [sendLoop, h]
    · simp only [sendLoop, Option.map_some, List.append_nil, Option.some.injEq, h, not_lt.2 h,
        false_and, false_or, true_and, exists_eq_left']
      exact eq_comm
  · rw [if_neg h, Nat.sub_self, sendLoop, Option.some.injEq]
    simp only [h, not_le.1 h, true_and, false_and, or_false]
    exact eq_comm

theorem listAndData_eq {ws : List (Bytes × Bytes)} : listAndData o args items opened localName = some ws ↔
    29 ≤ o.protocolVersion ∧ items = itemsRead o (sendList o args).sent ∧
      ¬ LastCleared (sendList o args).sent ∧
      ∃ f l d, (sendList o args).file = some (some f) ∧ (sendList o args).sent.getLast? = some l ∧
        opened f.name = some d ∧ ws = [(target localName (sendList o args).sent l, d)] := by
  constructor
  · intro h
    obtain ⟨ds, hds, h⟩ := Option.bind_eq_some_iff.1 h
    obtain ⟨name, hname, h⟩ := Option.bind_eq_some_iff.1 h
    obtain ⟨l, hl, hname⟩ := Option.bind_eq_some_iff.1 hname
    split_ifs at hname h with hc hitems
    obtain rfl := Option.some.inj hname
    rcases sendData_eq.1 hds with ⟨-, rfl⟩ | ⟨hprot, f, hf, rfl⟩
    · cases h
    · cases hd : opened f.name with
      | none => simp [hd] at h
      | some d =>
        rw [hd] at h
        exact ⟨hprot, not_not.1 hitems, hc, f, l, d, hf, hl, hd, (Option.some.inj h).symm⟩
  · rintro ⟨hprot, hitems, hc, f, l, d, hf, hl, hd, rfl⟩
    have hds : sendData o opened (sendList o args) = some [d] :=
      sendData_eq.2 (Or.inr ⟨hprot, f, hf, by rw [hd]; rfl⟩)
    simp only [listAndData, hds, recvName, hl, if_neg hc, Option.bind_eq_bind, Option.bind_some]
    rw [if_neg (not_not.2 hitems)]

theorem mem_wanted {es : List Entry} {w : Bytes × Bytes} : w ∈ wanted localName es ↔
    ∃ e ∈ es, e.kind = .regular ∧ (target localName es e, e.content) = w := by
  simp only [wanted, List.mem_map, List.mem_filter, decide_eq_true_eq, and_assoc]

theorem target_eq_iff {es : List Entry} {e e' : Entry} (he : e ∈ es) (he' : e' ∈ es) :
    target localName es e = target localName es e' ↔ e.name = e'.name := by
  by_cases hlen : es.length = 1
  · obtain ⟨a, rfl⟩ := List.length_eq_one_iff.1 hlen
    rw [List.mem_singleton] at he he'
    rw [he, he']
    simp
  · simp [target, hlen]

/-- Of two regular files one is missing. -/
theorem not_oneFile_of_two {e e' : Entry} (he : e ∈ (sendList o args).sent)
    (he' : e' ∈ (sendList o args).sent) (hr : e.kind = .regular) (hr' : e'.kind = .regular)
    (hne : e.name ≠ e'.name) : ¬ OneFile o args items opened := by
  rintro ⟨-, -, -, -, f, l, -, -, hall⟩
  exact hne ((hall e he hr).1.trans (hall e' he' hr').1.symm)

end Pass

/-- A recursive run over protocol 31. -/
def recursiveOpts : PassOpts := ⟨31, true, true, false⟩

/-- An argument that is a regular file. -/
def fileArg (e : Entry) : Option SourceArg := some ⟨.normal, [], some e, []⟩

def fileA : Entry := ⟨cstr "a", .regular, [1]⟩
def fileB : Entry := ⟨cstr "b", .regular, [2]⟩

section Recv

variable (o : RunOpts) (w : World) (r : Request)

theorem wholeRecv_fresh (h : o.inplace = false) :
    false = false ∧ ∀ b ∈ outputFile o w r, b = [] := by
  simp [outputFile, h]

theorem wholeRecv_live (h : false = true) : outputFile o w r = none := by cases h

theorem wholeRecv_updating (h : false = true) : o.inplace = true := by cases h

/-- The call of `receive_data` of the combined pass: no basis is opened. -/
def wholeRecv : Recv where
  opts := ⟨o.inplace, r.appendMode o, r.sparseFiles o, o.wholeFile, false⟩
  basis := none
  live := false
  fd := outputFile o w r
  totalSize := r.length
  head := r.head
  record := w.records o
  sparsePastWrite := w.sparsePastWrite
  fresh := wholeRecv_fresh o w r
  live_eq := wholeRecv_live o w r
  append_inplace := r.appendMode_inplace o
  updating_inplace := wholeRecv_updating o

end Recv

/-- The pass that ends the loop: the file, what was received, `recv_ok`. -/
structure WholePass where
  request : Request
  received : Received
  recvOk : ℤ

/-- The loop of `recv_file_list_and_file`: data is discarded until a file can be
    opened, and the loop ends with the first one received. -/
def recvListed (sumEnd : Bytes → Bytes) (o : RunOpts) (w : World) :
    List Request → Option (World × Option WholePass)
  | [] => some (w, none)
  | r :: rs =>
    match r.fate with
    | .received dirMade finish => do
      let d ← receiveInto sumEnd o w (wholeRecv o w r) r
      let i := install o d.2 r r.fname dirMade finish d.1
      some (i.1, some ⟨r, d.1, i.2⟩)
    | _ => do
      let d ← receiveInto sumEnd o w (discardRecv o w r) r
      recvListed sumEnd o d.2 rs

/-- Two stores hold the same files. -/
def SameFiles (s s' : Store) : Prop :=
  (∀ name, s.full.lookup name = s'.full.lookup name) ∧ ∀ name, s.delta.lookup name = s'.delta.lookup name

/-- What `recv_files` makes of a store for whole files: the content is the full
    backup of the version, and the store is managed. -/
def versioned (o : RunOpts) (fname : Bytes) (s : Store) (content : Bytes) : Option Store := do
  let fulls ← s.full.create (fullName o fname) content
  manageStore o fname { s with full := fulls }

/-- A file that was received successfully. -/
def WholePass.Succeeded (p : WholePass) : Prop := p.recvOk = 1 ∨ p.recvOk = 2

/-- The store of a file that was received is the one `recv_files` would have left,
    with the received content as the full backup of the version. -/
def WholePass.Versioned (o : RunOpts) (w w' : World) (p : WholePass) : Prop :=
  (w'.store o.backupType p.request.fname).full.lookup (fullName o p.request.fname) = some p.received.out ∧
    ∃ s, versioned o p.request.fname (w.store o.backupType p.request.fname) p.received.out = some s ∧
      SameFiles (w'.store o.backupType p.request.fname) s

/-- The store is versioned for the file before the run: it has this content as the
    full backup of this version, and no more backups than are kept. -/
structure HeldBefore (o : RunOpts) (s : Store) (fname content : Bytes) : Prop where
  held : s.full.lookup (fullName o fname) = some content
  name : NameOk (fullName o fname)
  fulls : (s.full.keys.length : ℤ) ≤ o.backupVersionNum ∧ s.full.keys.length ≤ maxBackupNum
  deltas : (s.delta.keys.length : ℤ) ≤ o.backupVersionNum ∧ s.delta.keys.length ≤ maxBackupNum

section Stores

variable {sumEnd : Bytes → Bytes} {o : RunOpts} {w : World} {s s' : Store}

/-- The keeping of versions of `recv_files` is `versioned`, if the file is there. -/
theorem keepVersions_whole {fname content : Bytes} (hb : o.backup = true) (hwhole : o.wholeFile = true)
    (hc : w.files fname = some content) :
    (keepVersions o w fname).map (fun k => k.2.store o.backupType fname) =
      versioned o fname (w.store o.backupType fname) content := by
  have hdue : w.fullDue o = true := by simp [World.fullDue, hb, hwhole]
  simp only [keepVersions, if_pos hb, if_pos hdue, copyFull, hc, copyLoop_eq, List.nil_append,
    versioned, Option.bind_eq_bind, Option.bind_some]
  cases hcreate : (w.store o.backupType fname).full.create (fullName o fname) content with
  | none => rfl
  | some fulls =>
    simp only [Option.bind_some, manage, store_setStore, and_self, if_true]
    cases manageStore o fname { w.store o.backupType fname with full := fulls } with
    | none => rfl
    | some s => simp

theorem receiveInto_firstBackup {a : Recv} {r : Request} {d : Received × World}
    (h : receiveInto sumEnd o w a r = some d) : d.2.firstBackup = w.firstBackup := by
  obtain ⟨res, -, h⟩ := Option.bind_eq_some_iff.1 h
  cases hdelta : res.delta with
  | none =>
    simp only [hdelta, Option.some.injEq] at h
    rw [← h]
  | some delta =>
    simp only [hdelta] at h
    obtain ⟨f, -, h⟩ := Option.bind_eq_some_iff.1 h
    obtain ⟨deltas, -, h⟩ := Option.bind_eq_some_iff.1 h
    rw [← Option.some.inj h]
    rfl

/-- No delta is recorded as long as no file was set up, so no store changes. -/
theorem recvListed_backups {rs : List Request} {res : World × Option WholePass}
    (hfirst : w.firstBackup = -1) (h : recvListed sumEnd o w rs = some res) :
    res.1.backups = w.backups := by
  induction rs generalizing w with
  | nil =>
    obtain rfl := Option.some.inj h
    rfl
  | cons r rs ih =>
    have hrec : w.records o = false := by simp [World.records, hfirst]
    have hskip : ∀ d, receiveInto sumEnd o w (discardRecv o w r) r = some d →
        recvListed sumEnd o d.2 rs = some res → res.1.backups = w.backups := by
      intro d hd hrest
      rw [ih ((receiveInto_firstBackup hd).trans hfirst) hrest, receiveInto_unrecorded hd hrec]
    rw [recvListed] at h
    cases hfate : r.fate with
    | skipped =>
      rw [hfate] at h
      obtain ⟨d, hd, hrest⟩ := Option.bind_eq_some_iff.1 h
      exact hskip d hd hrest
    | unopened =>
      rw [hfate] at h
      obtain ⟨d, hd, hrest⟩ := Option.bind_eq_some_iff.1 h
      exact hskip d hd hrest
    | received dirMade finish =>
      rw [hfate] at h
      obtain ⟨d, hd, hres⟩ := Option.bind_eq_some_iff.1 h
      rw [← Option.some.inj hres]
      exact (install_stores _ _ _ _).backups.trans (receiveInto_unrecorded hd hrec)

/-! ## Managing a store -/

theorem readSort_mem {dirName : Bytes} {d : Dir} {names : List Bytes}
    (h : readSortDirFiles dirName d = some names) :
    d.keys.length ≤ maxBackupNum ∧ names.length = d.keys.length ∧ ∀ name, name ∈ names ↔ name ∈ d.keys := by
  rw [readSortDirFiles] at h
  split_ifs at h with hlen
  rw [← Option.some.inj h]
  exact ⟨hlen, List.length_mergeSort _, fun name => List.mem_mergeSort⟩

theorem dropOldestFull_spec {fullDir deltaDir : Bytes} {fulls deltas : List Bytes} {r : Store × ℕ}
    (h : dropOldestFull fullDir deltaDir fulls deltas s = some r) :
    ∃ oldest ∈ fulls, r.1.full = s.full.erase oldest := by
  obtain ⟨oldest, ho, h⟩ := Option.bind_eq_some_iff.1 h
  obtain ⟨next, -, h⟩ := Option.bind_eq_some_iff.1 h
  obtain ⟨t, -, h⟩ := Option.bind_eq_some_iff.1 h
  obtain ⟨t', -, h⟩ := Option.bind_eq_some_iff.1 h
  obtain ⟨i, -, h⟩ := Option.bind_eq_some_iff.1 h
  rw [← Option.some.inj h]
  exact ⟨oldest, List.mem_of_getElem? ho, rfl⟩

theorem dropOldestDelta_spec {deltaDir : Bytes} {kind : BackupType} {fulls deltas : List Bytes} {i j : ℕ}
    (h : dropOldestDelta deltaDir kind fulls deltas s i j = some s') :
    ∃ delta ∈ deltas, s'.delta.lookup delta = none := by
  obtain ⟨delta, hd, h⟩ := Option.bind_eq_some_iff.1 h
  refine ⟨delta, List.mem_of_getElem? hd, ?_⟩
  cases kind with
  | differential =>
    rw [← Option.some.inj h]
    exact AList.lookup_erase _ _
  | incremental =>
    obtain ⟨full, -, h⟩ := Option.bind_eq_some_iff.1 h
    obtain ⟨r, -, h⟩ := Option.bind_eq_some_iff.1 h
    rw [← Option.some.inj h]
    exact AList.lookup_erase _ _

/-- **Managing a store** leaves it alone, or a file of it is gone. -/
theorem manage_cases {path : Bytes} {kind : BackupType} {N : ℤ}
    (h : manageBackupVersion path kind N s = some s') :
    (s.full.keys.length ≤ maxBackupNum ∧ s.delta.keys.length ≤ maxBackupNum) ∧
      (((s.full.keys.length : ℤ) ≤ N ∧ (s.delta.keys.length : ℤ) ≤ N ∧ s' = s) ∨
        (∃ name ∈ s.full, s'.full.lookup name = none) ∨ ∃ name ∈ s.delta, s'.delta.lookup name = none) := by
  obtain ⟨fulls, hfulls, h⟩ := Option.bind_eq_some_iff.1 h
  obtain ⟨deltas, hdeltas, h⟩ := Option.bind_eq_some_iff.1 h
  obtain ⟨hnf, hlf, hmf⟩ := readSort_mem hfulls
  obtain ⟨hnd, hld, hmd⟩ := readSort_mem hdeltas
  refine ⟨⟨hnf, hnd⟩, ?_⟩
  rw [hlf, hld] at h
  by_cases hidle : (s.full.keys.length : ℤ) ≤ N ∧ (s.delta.keys.length : ℤ) ≤ N
  · rw [if_pos hidle] at h
    exact Or.inl ⟨hidle.1, hidle.2, (Option.some.inj h).symm⟩
  rw [if_neg hidle] at h
  obtain ⟨r, hr, h⟩ : ∃ r : Store × ℕ, (N < (s.full.keys.length : ℤ) →
        ∃ oldest ∈ fulls, r.1.full = s.full.erase oldest) ∧
      (¬ N < (s.full.keys.length : ℤ) → r.2 = 0) ∧
      (if N < (s.delta.keys.length : ℤ) - r.2 then dropOldestDelta (path ++ cstr "delta/") kind fulls
          deltas r.1 r.2 (if N < (s.full.keys.length : ℤ) then 1 else 0)
        else some r.1) = some s' := by
    by_cases hfull : N < (s.full.keys.length : ℤ)
    · simp only [if_pos hfull] at h
      obtain ⟨r, hr, h⟩ := Option.bind_eq_some_iff.1 h
      refine ⟨r, fun _ => dropOldestFull_spec hr, fun hn => absurd hfull hn, ?_⟩
      rwa [if_pos hfull]
    · simp only [if_neg hfull] at h
      refine ⟨(s, 0), fun hf => absurd hf hfull, fun _ => rfl, ?_⟩
      rwa [if_neg hfull]
  obtain ⟨hkept, h⟩ := h
  by_cases hdelta : N < (s.delta.keys.length : ℤ) - r.2
  · rw [if_pos hdelta] at h
    obtain ⟨delta, hmem, hgone⟩ := dropOldestDelta_spec h
    exact Or.inr (Or.inr ⟨delta, AList.mem_keys.2 ((hmd _).1 hmem), hgone⟩)
  rw [if_neg hdelta] at h
  obtain rfl := Option.some.inj h
  by_cases hfull : N < (s.full.keys.length : ℤ)
  · obtain ⟨oldest, hmem, herase⟩ := hr hfull
    refine Or.inr (Or.inl ⟨oldest, AList.mem_keys.2 ((hmf _).1 hmem), ?_⟩)
    rw [herase]
    exact AList.lookup_erase _ _
  · rw [hkept hfull] at hdelta
    exact absurd ⟨not_lt.1 hfull, by simpa using hdelta⟩ hidle

theorem keys_insert_length {d : Dir} {name content : Bytes} (h : name ∈ d) :
    (d.insert name content).keys.length = d.keys.length := by
  refine List.Perm.length_eq ((List.perm_ext_iff_of_nodup (AList.keys_nodup _) d.keys_nodup).2 fun x => ?_)
  rw [← AList.mem_keys, ← AList.mem_keys, AList.mem_insert]
  constructor
  · rintro (rfl | hx)
    · exact h
    · exact hx
  · exact Or.inr

theorem lookup_insert_held {d : Dir} {name content : Bytes} (h : d.lookup name = some content)
    (x : Bytes) : (d.insert name content).lookup x = d.lookup x := by
  by_cases hx : x = name
  · rw [hx, AList.lookup_insert, h]
  · exact AList.lookup_insert_ne hx

/-- A store is versioned by what was there before only if it was versioned. -/
theorem versioned_held {fname content : Bytes} :
    (s.full.lookup (fullName o fname) = some content ∧
      ∃ s', versioned o fname s content = some s' ∧ SameFiles s s') ↔ HeldBefore o s fname content := by
  constructor
  · rintro ⟨hheld, s', hs', hfull, hdelta⟩
    obtain ⟨fulls, hcreate, hmanage⟩ := Option.bind_eq_some_iff.1 hs'
    rw [Dir.create] at hcreate
    split_ifs at hcreate with hname
    obtain rfl := Option.some.inj hcreate
    have hmem : fullName o fname ∈ s.full := AList.lookup_isSome.1 (by rw [hheld]; rfl)
    obtain ⟨⟨hnf, hnd⟩, hcases⟩ := manage_cases hmanage
    rw [keys_insert_length hmem] at hnf hcases
    rcases hcases with ⟨hf, hd, -⟩ | ⟨name, hmem, hgone⟩ | ⟨name, hmem, hgone⟩
    · exact ⟨hheld, hname, ⟨hf, hnf⟩, hd, hnd⟩
    · rw [← hfull, ← lookup_insert_held hheld] at hgone
      exact absurd hmem (AList.lookup_eq_none.1 hgone)
    · rw [← hdelta] at hgone
      exact absurd hmem (AList.lookup_eq_none.1 hgone)
  · rintro ⟨hheld, hname, ⟨hf, hnf⟩, hd, hnd⟩
    have hmem : fullName o fname ∈ s.full := AList.lookup_isSome.1 (by rw [hheld]; rfl)
    refine ⟨hheld, { s with full := s.full.insert (fullName o fname) content }, ?_,
      fun x => (lookup_insert_held hheld x).symm, fun _ => rfl⟩
    rw [versioned, Dir.create, if_pos hname, Option.bind_eq_bind, Option.bind_some, manageStore,
      manageBackupVersion]
    simp only [readSortDirFiles, keys_insert_length hmem, if_pos hnf, if_pos hnd, Option.bind_eq_bind,
      Option.bind_some, List.length_mergeSort, if_pos (And.intro hf hd)]

end Stores

/-! ## The versions after a run -/

section Run

variable {sumEnd : Bytes → Bytes} {o : RunOpts} {files : Bytes → Option Bytes} {backups : Bytes → Backups}

/-- **When a whole-file run is versioned**: only if no file is received, or the
    store of the one that is holds its version already. -/
theorem wholeVersions_iff {rs : List Request} {res : World × Option WholePass}
    (h : recvListed sumEnd o (.begin files backups) rs = some res) :
    (∀ p, res.2 = some p → p.Succeeded → p.Versioned o (.begin files backups) res.1) ↔
      ∀ p, res.2 = some p → p.Succeeded →
        HeldBefore o ((backups p.request.fname).get o.backupType) p.request.fname p.received.out := by
  have hstore : ∀ fname, res.1.store o.backupType fname = (backups fname).get o.backupType := by
    intro fname
    rw [World.store, recvListed_backups rfl h]
    rfl
  refine forall_congr' fun p => forall_congr' fun _ => forall_congr' fun _ => ?_
  rw [WholePass.Versioned, hstore]
  exact versioned_held

/-- A full backup of the version itself is what a recovery rebuilds. -/
theorem recover_held {l : KindVersions} {dirName fileName V content : Bytes} {b : Backups}
    {kind : BackupType} (h : l.In fileName (b.get kind)) (hmem : (V, content) ∈ l.fulls)
    (hcount : l.fulls.length ≤ maxBackupNum ∧ l.deltas.length ≤ maxBackupNum)
    (hfit : Fits 128 V l.fulls) : recover dirName fileName b kind V = some (some content) := by
  have hnewest : Versions.newest V l.fulls = some (V, content) :=
    h.full.ascending.newest_eq_some.2 ⟨hmem, le_rfl, fun _ _ hle => hle⟩
  have hfull : l.full V = some V := by rw [KindVersions.full, hnewest, Option.map_some]
  obtain ⟨m, hm⟩ : ∃ m, l.newest V = some m := ⟨_, by rw [KindVersions.newest, hfull, Option.map_some]⟩
  obtain ⟨hmV, -, hmax, -⟩ := KindVersions.newest_spec h.full.ascending h.delta.ascending hm
  obtain rfl : m = V := le_antisymm hmV (hmax _ hmem le_rfl)
  rw [recover_of_holds h.full h.delta, if_pos hcount]
  refine (combineFiles_eq h).2 ⟨⟨hfit, fun f hf hne => absurd (Option.some.inj (hfull.symm.trans hf)).symm hne⟩,
    ?_, m, hm, ?_⟩
  · cases kind with
    | incremental => exact Option.isSome_iff_exists.2 ⟨m, hfull⟩
    | differential => exact ⟨m, hfull, Or.inl rfl⟩
  · cases kind with
    | incremental => simp [KindVersions.content, hnewest, between_eq_nil le_rfl, Versions.replay]
    | differential => simp [KindVersions.content, hnewest]

/-- The full backup of a store that is versioned is rebuilt. -/
theorem HeldBefore.recover {l : KindVersions} {dirName fname content : Bytes} {b : Backups}
    (h : l.In (fileNameOf fname) (b.get o.backupType))
    (hheld : HeldBefore o (b.get o.backupType) fname content) (hfit : Fits 128 o.backupVersion l.fulls) :
    CloudEdgeBackup.recover dirName (fileNameOf fname) b o.backupType o.backupVersion =
      some (some content) := by
  have hlen : ∀ p (d : Dir) l, d.Holds p l → d.keys.length = l.length := fun p d l hd => by
    rw [hd.keys_perm.length_eq, Dir.Holds.names, List.length_map]
  obtain ⟨v, hv, hmem⟩ := (h.full.lookup _ _).1 hheld.held
  obtain rfl : o.backupVersion = v := List.append_cancel_left hv
  refine recover_held h hmem ⟨?_, ?_⟩ hfit
  · exact hlen _ _ _ h.full ▸ hheld.fulls.2
  · exact hlen _ _ _ h.delta ▸ hheld.deltas.2

end Run

/-! ## One file -/

/-- A backup run with whole files. -/
def wholeOpts : RunOpts := { plainRun .incremental (cstr "2") 3 with wholeFile := true }

theorem recvListed_literal (files : Bytes → Option Bytes) (backups : Bytes → Backups) :
    ∃ res p, recvListed id wholeOpts (.begin files backups) [literalRequest (.received true .done)] =
      some res ∧ res.2 = some p ∧ p.Succeeded ∧ p.request.fname = cstr "f" ∧ p.received.out = [66] := by
  set r := literalRequest (.received true .done) with hr
  set w := World.begin files backups
  have hdata : ∀ t ∈ r.toks.toks, ∃ d, t = .data d := fun t ht => ⟨[66], List.mem_singleton.1 ht⟩
  obtain ⟨d, hd, hout⟩ := receiveData_whole (a := wholeRecv wholeOpts w r) id rfl rfl hdata r.senderSum
  have hdelta : d.delta = none := by
    obtain ⟨p₀, -, -, -, -, -, -, -, -, hdelta, -⟩ := receiveData_cases hd
    exact hdelta.trans (if_neg fun h => Bool.noConfusion h)
  have hinto := receiveInto_of_unrecorded (o := wholeOpts) (w := w) (r := r) hd hdelta
  have hfate : r.fate = .received true .done := rfl
  set w' : World := { w with sparsePastWrite := d.sparsePastWrite }
  set i := install wholeOpts w' r r.fname true .done d with hi
  have hok : i.2 = 1 ∨ i.2 = 2 := (install_recvOk (receiveData_verdict hd).2.2).2 (by decide)
  refine ⟨(i.1, some ⟨r, d, i.2⟩), ⟨r, d, i.2⟩, ?_, rfl, hok, rfl, hout⟩
  simp only [recvListed, hfate, hinto, Option.bind_eq_bind, Option.bind_some, hi]

/-- The store of `f` holds `B` as the full backup of version `2`. -/
def heldBackups (fname : Bytes) : Backups :=
  if fname = cstr "f" then
    ⟨⟨(∅ : Dir).insert (fullName wholeOpts (cstr "f")) [66], ∅⟩, ⟨∅, ∅⟩⟩
  else ⟨⟨∅, ∅⟩, ⟨∅, ∅⟩⟩

theorem wholeVersions_held : ∃ res p,
    recvListed id wholeOpts (.begin (fun _ => none) heldBackups) [literalRequest (.received true .done)] =
      some res ∧ res.2 = some p ∧ p.Versioned wholeOpts (.begin (fun _ => none) heldBackups) res.1 := by
  obtain ⟨res, p, hrun, hp, hsucc, hname, hout⟩ := recvListed_literal (fun _ => none) heldBackups
  refine ⟨res, p, hrun, hp, (wholeVersions_iff hrun).2 (fun p' hp' _ => ?_) p hp hsucc⟩
  obtain rfl : p = p' := Option.some.inj (hp.symm.trans hp')
  rw [hname, hout]
  exact ⟨rfl, by decide, by decide, by decide⟩

/-- **A file that is received has no backup afterwards.** -/
theorem not_wholeVersions : ∃ res p,
    recvListed id wholeOpts (.begin (fun _ => none) fun _ => ⟨⟨∅, ∅⟩, ⟨∅, ∅⟩⟩)
        [literalRequest (.received true .done)] = some res ∧ res.2 = some p ∧ p.Succeeded ∧
      ¬ p.Versioned wholeOpts (.begin (fun _ => none) fun _ => ⟨⟨∅, ∅⟩, ⟨∅, ∅⟩⟩) res.1 := by
  obtain ⟨res, p, hrun, hp, hsucc, -, -⟩ := recvListed_literal (fun _ => none) fun _ => ⟨⟨∅, ∅⟩, ⟨∅, ∅⟩⟩
  refine ⟨res, p, hrun, hp, hsucc, ?_⟩
  rintro ⟨hheld, -⟩
  rw [World.store, recvListed_backups rfl hrun] at hheld
  cases hheld

end CloudEdgeBackup
