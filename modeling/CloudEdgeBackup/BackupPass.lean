/-
  A backup of one file by a delta transfer: a pass of `recv_files` that writes a
  new file and installs it.

  * `DeltaPass` are the passes meant: a backup task, not in place, no whole
    files, the basis is the destination file, the rename succeeds;
  * `recvFile_first`: without a full backup in the store the new file becomes
    one; `recvFile_later`: with one the tokens become a delta;
  * `recover` rebuilds a version from one kind of backup, on the files it finds.
-/
import CloudEdgeBackup.Outcomes

namespace CloudEdgeBackup

open Zext Versions

/-! ## The pass -/

/-- A pass that updates the file `dest` by a delta transfer. -/
structure DeltaPass (o : RunOpts) (r : Request) (dest : Bytes) : Prop where
  backup : o.backup = true
  inplace : o.inplace = false
  wholeFile : o.wholeFile = false
  direct : r.Direct o
  received : ∃ dirMade, r.fate = .received dirMade .done
  /-- the basis is the file itself -/
  basis : ∃ isBackup, r.fnamecmp o = some (r.fname, isBackup)
  /-- blocks are only sent when there is something to match -/
  blocks : ∀ i, Token.block i ∈ r.toks.toks → dest ≠ []

section Pass

variable {sumEnd : Bytes → Bytes} {o : RunOpts} {w : World} {r : Request} {dest : Bytes}

theorem streamSafe_of_blocks {a : Recv} (hin : a.opts.inplace = false) {toks : List Token}
    (hblocks : ∀ i, Token.block i ∈ toks → a.Mapped) (out : Bytes) : a.StreamSafe 0 out toks := by
  by_cases hm : a.Mapped
  · exact Recv.streamSafe_fresh hin hm 0 toks out
  · induction toks generalizing out with
    | nil => trivial
    | cons t ts ih =>
      cases t with
      | data d => exact ih (fun i hi => hblocks i (by simp [hi])) _
      | block i => exact absurd (hblocks i (by simp)) hm

/-- What a delta pass receives, and what its delta rebuilds. -/
theorem DeltaPass.receive (h : DeltaPass o r dest) (hdest : (w.files r.fname).getD [] = dest) (sumEnd : Bytes → Bytes) {cmp : Bytes × Bool}
    (hcmp : r.fnamecmp o = some cmp) :
    ∃ res, receiveData sumEnd (recvOf o (setUp o w r.fname) r cmp) r.toks.toks r.senderSum = some res ∧
      res.out = decode dest r.head r.toks.toks ∧
      (res.delta.isSome ↔ w.hasFull o r.fname = true) ∧
      ∀ delta ∈ res.delta, ∀ full, applyDelta full delta = some (decode full r.head r.toks.toks) := by
  obtain ⟨isBackup, hb⟩ := h.basis
  obtain rfl : cmp = (r.fname, isBackup) := Option.some.inj (hcmp.symm.trans hb)
  set a := recvOf o (setUp o w r.fname) r (r.fname, isBackup) with ha
  have htemp : a.Temp dest (SumStruct.mk r.head []).head := by
    have := recvOf_temp (w := setUp o w r.fname) (r := r) h.inplace h.wholeFile (r.fname, isBackup)
    rwa [setUp_files, hdest] at this
  have hmapped : ∀ i, Token.block i ∈ r.toks.toks → a.Mapped := fun i hi => by
    rw [Recv.Mapped, Recv.sizeR, htemp.basis]
    exact List.length_pos_iff.2 (h.blocks i hi)
  have hsafe := streamSafe_of_blocks h.inplace hmapped []
  obtain ⟨res, hres, hout, -⟩ := receiveData_temp htemp hsafe sumEnd r.senderSum
  refine ⟨res, hres, hout, ?_, fun delta hd full => applyDelta_temp htemp r.toks.wf hsafe hres hd full⟩
  obtain ⟨p₀, -, -, -, -, -, -, -, -, hdelta, -⟩ := receiveData_cases hres
  have hrec : a.record = true ↔ w.hasFull o r.fname = true := by
    simp only [ha, recvOf, World.records, setUp, h.backup]
    cases w.hasFull o r.fname <;> simp
  rw [hdelta, ← hrec]
  split_ifs with hr <;> simp [hr]

/-- What is left of the pass once the file is received: it is installed, and the
    store kept. -/
theorem DeltaPass.pass_of_keep (h : DeltaPass o r dest) {cmp : Bytes × Bool} {s : Store}
    {d : Received × World} (hcmp : r.fnamecmp o = some cmp)
    (hd : receiveInto sumEnd o (setUp o w r.fname) (recvOf o (setUp o w r.fname) r cmp) r = some d)
    (hk : ∀ w', w'.files r.fname = some d.1.out → SameStores d.2 w' →
      ∃ k, keepVersions o w' r.fname = some k ∧ k.2.files = w'.files ∧
        k.2.store o.backupType r.fname = s) :
    ∃ p, recvFile sumEnd o w r = some p ∧ p.world.files r.fname = some d.1.out ∧
      p.world.store o.backupType r.fname = s := by
  obtain ⟨dirMade, hfate⟩ := h.received
  have hret := (receiveData_verdict (receiveInto_eq hd).1).2.2
  have hfiles : (install o d.2 r cmp.1 dirMade .done d.1).1.files r.fname = some d.1.out := by
    rw [install_files hret, if_pos (show r.Placed o dirMade .done from Or.inr ⟨Or.inl h.direct, rfl⟩)]
  obtain ⟨k, hk, hkf, hks⟩ := hk _ hfiles (install_stores _ _ _ _)
  refine ⟨⟨k.2, some (install o d.2 r cmp.1 dirMade .done d.1).2, d.1, k.1⟩, ?_, ?_, hks⟩
  · simp only [recvFile, hfate, receiveFile, hcmp, hd, hk, Option.bind_eq_bind, Option.bind_some]
  · rw [hkf, hfiles]

/-- A full backup that is due is written, and the store managed. -/
theorem keepVersions_full {fname content : Bytes} {s' : Store} (hb : o.backup = true)
    (hfirst : w.firstBackup = 1) (hc : w.files fname = some content)
    (hname : NameOk (fullName o fname))
    (hs : manageStore o fname { w.store o.backupType fname with
      full := (w.store o.backupType fname).full.insert (fullName o fname) content } = some s') :
    ∃ k, keepVersions o w fname = some k ∧ k.2.files = w.files ∧ k.2.store o.backupType fname = s' := by
  have hdue : w.fullDue o = true := by simp [World.fullDue, hb, hfirst]
  refine ⟨(some content, (w.setStore o.backupType fname { w.store o.backupType fname with
    full := (w.store o.backupType fname).full.insert (fullName o fname) content }).setStore
      o.backupType fname s'), ?_, rfl, by simp⟩
  simp only [keepVersions, if_pos hb, if_pos hdue, copyFull, hc, copyLoop_eq, List.nil_append,
    Dir.create, if_pos hname, manage, store_setStore, and_self, if_true, hs, Option.bind_eq_bind,
    Option.bind_some]

/-- Without one the store is only managed. -/
theorem keepVersions_delta {fname : Bytes} {s' : Store} (hb : o.backup = true)
    (hfirst : w.firstBackup = 0) (hwhole : o.wholeFile = false)
    (hs : manageStore o fname (w.store o.backupType fname) = some s') :
    ∃ k, keepVersions o w fname = some k ∧ k.2.files = w.files ∧ k.2.store o.backupType fname = s' := by
  have hdue : ¬ w.fullDue o = true := by simp [World.fullDue, hfirst, hwhole]
  refine ⟨(none, w.setStore o.backupType fname s'), ?_, rfl, by simp⟩
  simp only [keepVersions, if_pos hb, if_neg hdue, manage, hs, Option.bind_eq_bind, Option.bind_some]

/-- **The first backup of a file** makes the new file its full backup. -/
theorem recvFile_first (h : DeltaPass o r dest) (hdest : (w.files r.fname).getD [] = dest)
    (sumEnd : Bytes → Bytes) (hfull : w.hasFull o r.fname = false) (hname : NameOk (fullName o r.fname)) {s' : Store}
    (hs : manageStore o r.fname { w.store o.backupType r.fname with
      full := (w.store o.backupType r.fname).full.insert (fullName o r.fname)
        (decode dest r.head r.toks.toks) } = some s') :
    ∃ p, recvFile sumEnd o w r = some p ∧
      p.world.files r.fname = some (decode dest r.head r.toks.toks) ∧
      p.world.store o.backupType r.fname = s' := by
  obtain ⟨isBackup, hcmp⟩ := h.basis
  obtain ⟨res, hres, hout, hdelta, -⟩ := h.receive hdest sumEnd hcmp
  have hnone : res.delta = none := by
    rw [← Option.not_isSome_iff_eq_none, hdelta, hfull]
    decide
  rw [← hout] at hs ⊢
  refine h.pass_of_keep hcmp (receiveInto_of_unrecorded hres hnone) fun w' hfiles hsame => ?_
  have hstore : w'.store o.backupType r.fname = w.store o.backupType r.fname := by
    rw [World.store, hsame.backups]
    exact congrArg (fun b : Bytes → Backups => (b r.fname).get o.backupType) (setUp_backups _)
  have hfirst : w'.firstBackup = 1 := by
    rw [hsame.firstBackup]
    simp [setUp, h.backup, hfull]
  refine keepVersions_full h.backup hfirst hfiles hname ?_
  rw [hstore]
  exact hs

/-- **A later backup** makes the tokens a delta. -/
theorem recvFile_later (h : DeltaPass o r dest) (hdest : (w.files r.fname).getD [] = dest)
    (sumEnd : Bytes → Bytes) (hfull : w.hasFull o r.fname = true) (hname : NameOk (deltaName o r.fname)) :
    ∃ delta, (∀ full, applyDelta full delta = some (decode full r.head r.toks.toks)) ∧
      ∀ s', manageStore o r.fname { w.store o.backupType r.fname with
          delta := (w.store o.backupType r.fname).delta.insert (deltaName o r.fname) delta } = some s' →
        ∃ p, recvFile sumEnd o w r = some p ∧
          p.world.files r.fname = some (decode dest r.head r.toks.toks) ∧
          p.world.store o.backupType r.fname = s' := by
  obtain ⟨isBackup, hcmp⟩ := h.basis
  obtain ⟨res, hres, hout, hdelta, happly⟩ := h.receive hdest sumEnd hcmp
  obtain ⟨delta, hsome⟩ := Option.isSome_iff_exists.1 (hdelta.2 hfull)
  refine ⟨delta, happly delta hsome, fun s' hs => ?_⟩
  have hdb : (setUp o w r.fname).deltaBackup = some r.fname := by simp [setUp, h.backup]
  rw [← hout]
  refine h.pass_of_keep hcmp (receiveInto_of_recorded hres hsome hdb hname) fun w' hfiles hsame => ?_
  have hfirst : w'.firstBackup = 0 := by
    rw [hsame.firstBackup]
    simp [World.setStore, setUp, h.backup, hfull]
  refine keepVersions_delta h.backup hfirst h.wholeFile ?_
  rw [World.store, hsame.backups, ← World.store, store_setStore, if_pos ⟨rfl, rfl⟩]
  simpa [World.store] using hs

end Pass

/-! ## Backup after backup -/

/-- One backup of a file, with the source it was made of. -/
structure Backup where
  opts : RunOpts
  req : Request
  content : Bytes

/-- The version a backup is made under, and what it is a backup of. -/
def Backup.entry (b : Backup) : Bytes × Bytes := (b.opts.backupVersion, b.content)

/-- Backups of a file, each in a process of its own. -/
def backupRun (sumEnd : Bytes → Bytes) (w : World) : List Backup → Option World
  | [] => some w
  | b :: bs => do
    let p ← recvFile sumEnd b.opts (.begin w.files w.backups) b.req
    backupRun sumEnd p.world bs

/-- The buffers the versions are copied to, the names of the files and the array
    of files are long enough for the backups `bs`. -/
structure BuffersFit (fname : Bytes) (N : ℕ) (bs : List Backup) : Prop where
  versions : ∀ b ∈ bs, b.opts.backupVersion.length < 128
  fullNames : ∀ b ∈ bs, NameOk (fullName b.opts fname)
  deltaNames : ∀ b ∈ bs.tail, NameOk (deltaName b.opts fname)
  files : N < maxBackupNum ∨ bs.length ≤ maxBackupNum + 1

/-- One kind of backup rebuilds the version `R`: its combine function on the lists
    that are read. -/
def recover (dirName fileName : Bytes) (b : Backups) (kind : BackupType) (R : Bytes) :
    Option (Option Bytes) := do
  let ls ← readListing dirName fileName b kind
  combineFiles dirName fileName kind (b.get kind) ls R

theorem recover_of_holds {dirName fileName : Bytes} {b : Backups} {kind : BackupType}
    {fl dl : List (Bytes × Bytes)} (hfull : (b.get kind).full.Holds (fullPrefix fileName) fl)
    (hdelta : (b.get kind).delta.Holds (deltaPrefix fileName) dl) (R : Bytes) :
    recover dirName fileName b kind R =
      if fl.length ≤ maxBackupNum ∧ dl.length ≤ maxBackupNum then
        combineFiles dirName fileName kind (b.get kind)
          ⟨Dir.Holds.names (fullPrefix fileName) fl, Dir.Holds.names (deltaPrefix fileName) dl⟩ R
      else none := by
  rw [recover, readListing, hfull.readSort, hdelta.readSort]
  by_cases hf : fl.length ≤ maxBackupNum
  · by_cases hd : dl.length ≤ maxBackupNum <;> simp [hf, hd]
  · simp [hf]

theorem hasFull_of_holds {w : World} {o : RunOpts} {fname : Bytes} {fl : List (Bytes × Bytes)}
    (h : (w.store o.backupType fname).full.Holds (fullPrefix (fileNameOf fname)) fl) :
    w.hasFull o fname = true ↔ fl ≠ [] := by
  rw [World.hasFull, List.any_eq_true]
  constructor
  · rintro ⟨name, hname, -⟩ rfl
    obtain ⟨e, he, -⟩ := (h.mem_keys name).1 hname
    cases he
  · intro hne
    obtain ⟨e, he⟩ := List.exists_mem_of_ne_nil _ hne
    refine ⟨fullPrefix (fileNameOf fname) ++ e.1, (h.mem_keys _).2 ⟨e, he, rfl⟩, ?_⟩
    exact List.isPrefixOf_iff_prefix.2 (List.prefix_append _ _)

/-- The name of a full backup fits where the one of a delta does. -/
theorem nameOk_full {o : RunOpts} {fname : Bytes} (h : NameOk (deltaName o fname)) :
    NameOk (fullName o fname) := by
  obtain ⟨hlen, hslash⟩ := h
  simp only [deltaName, deltaPrefix, List.length_append, List.mem_append, not_or] at hlen hslash
  refine ⟨?_, ?_⟩
  · simp only [fullName, fullPrefix, List.length_append]
    have : (cstr ".full.").length ≤ (cstr ".delta.").length := by decide
    omega
  · simp only [fullName, fullPrefix, List.mem_append, not_or]
    exact ⟨⟨hslash.1.1, by decide⟩, hslash.2⟩

/-- A backup of the one file, sent as a literal. -/
def literalBackup (kind : BackupType) (version : Bytes) : Backup :=
  ⟨plainRun kind version 1, literalRequest (.received true .done), [66]⟩

theorem literalBackup_pass (kind : BackupType) (version dest : Bytes) :
    DeltaPass (literalBackup kind version).opts (literalBackup kind version).req dest :=
  ⟨rfl, rfl, rfl, Or.inl rfl, ⟨true, rfl⟩, ⟨false, rfl⟩, fun i hi => by
    simp [literalBackup, literalRequest, oneLiteral] at hi⟩

/-- A version string that is one byte too long for `recovery_version` and the
    timestamps it is compared with. -/
def longVersion : Bytes := List.replicate 128 49

theorem longVersion_noDot : dot ∉ longVersion := by
  intro hmem
  exact absurd (List.eq_of_mem_replicate hmem) (by decide)

end CloudEdgeBackup
