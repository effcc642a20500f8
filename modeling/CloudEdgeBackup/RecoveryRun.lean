/-
  A recovery run of one file: the generator asks for the file by what it sees of
  the latest one, the sender sends the version that it rebuilds.

  * `unchangedFile` is the quick check of `generator.c`, `generatorRequest` what
    `recv_generator` makes of it: the sums, if the file is asked for at all;
  * `sendRecovery` is the recovery branch of `send_files`; `recoveryRun` puts the
    two and the receiver together;
  * `rebuild_eq`, `rebuild_eq_none`: which content the sender finds;
  * `recovery_iff`: what the local file is after a run.
-/
import CloudEdgeBackup.Selection

namespace CloudEdgeBackup

open Zext Versions

/-! ## The quick check -/

/-- A local file, with what `stat` says of its time. -/
structure LocalFile where
  content : Bytes
  mtime : ℤ
  mtimeNsec : ℕ

/-- What the file list says of the latest file on the server. -/
structure FlistEntry where
  fname : Bytes
  /-- `F_LENGTH(file)` -/
  length : ℕ
  modtime : ℤ
  /-- `F_MOD_NSEC(file)` -/
  modNsec : ℕ
  /-- `F_SUM(file)` -/
  sum : Bytes

/-- The options of the comparison. -/
structure CompareOpts where
  alwaysChecksum : Bool
  sizeOnly : Bool
  ignoreTimes : Bool
  modifyWindow : ℤ

/-- The default is to compare the size and the time. -/
def CompareOpts.default : CompareOpts := ⟨false, false, false, 0⟩

/-- `cmp_time` -/
def cmpTime (modifyWindow f1Sec : ℤ) (f1Nsec : ℕ) (f2Sec : ℤ) (f2Nsec : ℕ) : ℤ :=
  if f1Sec < f2Sec then
    if modifyWindow ≤ 0 ∨ (f1Sec + modifyWindow < f2Sec ∧ f1Sec < f1Sec + modifyWindow) then -1 else 0
  else if f2Sec < f1Sec then
    if modifyWindow ≤ 0 ∨ (f2Sec + modifyWindow < f1Sec ∧ f2Sec < f2Sec + modifyWindow) then 1 else 0
  else if modifyWindow < 0 then
    if f1Nsec < f2Nsec then -1 else if f2Nsec < f1Nsec then 1 else 0
  else 0

/-- `time_diff` -/
def timeDiff (q : CompareOpts) (st : LocalFile) (file : FlistEntry) : ℤ :=
  cmpTime q.modifyWindow st.mtime st.mtimeNsec file.modtime file.modNsec

/-- `unchanged_file` -/
def unchangedFile (fileChecksum : Bytes → Bytes) (q : CompareOpts) (file : FlistEntry)
    (st : LocalFile) : Bool :=
  if st.content.length ≠ file.length then false
  else if q.alwaysChecksum then decide (fileChecksum st.content = file.sum)
  else if q.sizeOnly then true
  else if q.ignoreTimes then false
  else decide (timeDiff q st file = 0)

theorem cmpTime_zero {f1 f2 : ℤ} {n1 n2 : ℕ} : cmpTime 0 f1 n1 f2 n2 = 0 ↔ f1 = f2 := by
  unfold cmpTime
  split_ifs <;> simp <;> omega

/-- By default a file is unchanged if it has the size and the time. -/
theorem unchangedFile_default (fileChecksum : Bytes → Bytes) (file : FlistEntry) (st : LocalFile) :
    unchangedFile fileChecksum .default file st = true ↔
      st.content.length = file.length ∧ st.mtime = file.modtime := by
  by_cases hlen : st.content.length = file.length
  · simp [unchangedFile, CompareOpts.default, timeDiff, cmpTime_zero, hlen]
  · simp [unchangedFile, hlen]

/-! ## The run -/

section Run

variable (fileChecksum strong sumEnd : Bytes → Bytes) (c : SumChoice) (q : CompareOpts)
  (o : RunOpts) (b : Backups) (path R : Bytes) (file : FlistEntry)

/-- `recv_generator` in a recovery: nothing for an unchanged file, otherwise the
    sums of the file there is. -/
def generatorRequest : Option LocalFile → Option SumStruct
  | none => some ⟨.null, []⟩
  | some st =>
    if unchangedFile fileChecksum q file st then none
    else some (generatorSums strong c st.content st.content.length)

/-- `send_files` in a recovery, once the file is asked for: the tokens and the
    digest of what it rebuilds.  `some none` is `MSG_NO_SEND`: the path of the
    recovery is empty. -/
def sendRecovery (sums : SumStruct) : Option (Option (TokenStream × Bytes)) := do
  match ← rebuild (dirNameOf path) (fileNameOf path) b R with
  | none => some none
  | some src => do
    let st ← matchSums strong sums src false
    if h : ∀ t ∈ st.toks, t.Wf then some (some (⟨st.toks, h⟩, sumEnd src)) else none

/-- The pass of `recv_files` for the file. -/
def recoveryPass (sums : SumStruct) (sent : TokenStream × Bytes) : Request where
  fname := file.fname
  dirname := none
  length := file.length
  cmp := .fname
  redoing := false
  head := sums.head
  toks := sent.1
  senderSum := sent.2
  fate := .received false .done

/-- The file is where the run finds it; a recovery keeps no versions. -/
def localWorld (prior : Option LocalFile) : World :=
  .begin (fun p => if p = file.fname then prior.map (·.content) else none)
    fun _ => ⟨⟨∅, ∅⟩, ⟨∅, ∅⟩⟩

/-- A recovery run of the file; `none` is undefined behaviour of the sender. -/
def recoveryRun (prior : Option LocalFile) : Option World :=
  match generatorRequest fileChecksum strong c q file prior with
  | none => some (localWorld file prior)
  | some sums => do
    match ← sendRecovery strong sumEnd b path R sums with
    | none => some (localWorld file prior)
    | some sent => do
      let p ← recvFile sumEnd o (localWorld file prior) (recoveryPass file sums sent)
      some p.world

end Run

/-- The options a recovery runs with: a new file is written and put in its place. -/
structure RunOpts.Recovers (o : RunOpts) : Prop where
  recovery : o.backup = false
  inplace : o.inplace = false
  wholeFile : o.wholeFile = false
  delayUpdates : o.delayUpdates = false

/-! ## What the sender finds -/

section Rebuild

variable {V : BackupType → KindVersions} {R c dirName fileName : Bytes} {b : Backups}
  {l : KindVersions} {s : Store} {kind : BackupType}

/-- The error of a combine function: nothing it could rebuild. -/
theorem combineFiles_eq_none (h : l.In fileName s) :
    combineFiles dirName fileName kind s (l.listing fileName) R = some none ↔
      l.CombineFits kind R ∧ ¬ l.Answers kind R := by
  have hd := h.delta.ascending
  cases hfull : Versions.newest R l.fulls with
  | none =>
    have hnone : l.full R = none := by rw [KindVersions.full, hfull, Option.map_none]
    cases kind with
    | incremental =>
      rw [combineFiles, KindVersions.listing, combineIncrementalFiles_eq h.full h.delta, hfull]
      simp [KindVersions.CombineFits, KindVersions.Answers, hnone]
    | differential =>
      rw [combineFiles, KindVersions.listing, combineDifferentalFiles_eq h.full h.delta, hfull]
      simp [KindVersions.CombineFits, KindVersions.Answers, hnone]
  | some e =>
    have hsome : l.full R = some e.1 := by rw [KindVersions.full, hfull, Option.map_some]
    cases kind with
    | incremental =>
      rw [combineFiles, KindVersions.listing, combineIncrementalFiles_eq h.full h.delta, hfull]
      simp [KindVersions.Answers, hsome]
    | differential =>
      rw [combineFiles, KindVersions.listing, combineDifferentalFiles_eq h.full h.delta, hfull]
      simp only [KindVersions.CombineFits, KindVersions.Answers, hsome, Option.some.injEq,
        exists_eq_left', forall_eq']
      rw [and_assoc]
      refine and_congr_right fun _ => ?_
      by_cases heR : e.1 = R
      · simp [heR]
      rw [if_neg heR, hd.getLast?_between]
      cases hdelta : Versions.newest R l.deltas with
      | none => simp [heR, KindVersions.delta, hdelta]
      | some d =>
        have hdelta' : l.delta R = some d.1 := by rw [KindVersions.delta, hdelta, Option.map_some]
        by_cases hlt : e.1 < d.1 <;> simp [heR, hdelta', hlt, Option.filter_some]

variable (V R)

/-- The lists fit their arrays, and the timestamps their buffers. -/
def Readable : Prop :=
  (∀ kind, (V kind).fulls.length ≤ maxBackupNum ∧ (V kind).deltas.length ≤ maxBackupNum) ∧
    DecideFits V R ∧ ∀ kind, chosen V R = some kind → (V kind).CombineFits kind R

/-- The newest version of the kind that is chosen stands for `c`. -/
def Rebuilds (c : Bytes) : Prop :=
  ∃ kind m, chosen V R = some kind ∧ (V kind).Answers kind R ∧ (V kind).newest R = some m ∧
    (V kind).content kind m = some c

/-- No kind is chosen, or one that has nothing its combine function could use. -/
def Lost : Prop := ∀ kind, chosen V R = some kind → ¬ (V kind).Answers kind R

variable {V R}

/-- What `send_files` rebuilds: what the combine function of the kind makes. -/
theorem rebuild_iff (h : ∀ kind, (V kind).In fileName (b.get kind)) {r : Option Bytes} :
    rebuild dirName fileName b R = some r ↔
      (∀ kind, (V kind).fulls.length ≤ maxBackupNum ∧ (V kind).deltas.length ≤ maxBackupNum) ∧
        DecideFits V R ∧
        match chosen V R with
        | none => r = none
        | some kind => combineFiles dirName fileName kind (b.get kind) ((V kind).listing fileName) R = some r := by
  constructor
  · intro hr
    obtain ⟨incre, hincre, hr⟩ := Option.bind_eq_some_iff.1 hr
    obtain ⟨diffe, hdiffe, hr⟩ := Option.bind_eq_some_iff.1 hr
    obtain ⟨kind, hkind, hr⟩ := Option.bind_eq_some_iff.1 hr
    obtain ⟨hni, rfl⟩ := (readListing_of_holds (h .incremental)).1 hincre
    obtain ⟨hnd, rfl⟩ := (readListing_of_holds (h .differential)).1 hdiffe
    obtain ⟨hfits, rfl⟩ := (decideRecoveryType_eq h).1 hkind
    refine ⟨by rintro (_ | _) <;> assumption, hfits, ?_⟩
    cases hc : chosen V R with
    | none =>
      rw [hc] at hr
      exact (Option.some.inj hr).symm
    | some kind =>
      rw [hc] at hr
      cases kind <;> exact hr
  · rintro ⟨hcount, hfits, hr⟩
    rw [rebuild, (readListing_of_holds (h .incremental)).2 ⟨hcount _, rfl⟩,
      (readListing_of_holds (h .differential)).2 ⟨hcount _, rfl⟩, Option.bind_eq_bind,
      Option.bind_some, Option.bind_eq_bind, Option.bind_some,
      (decideRecoveryType_eq h).2 ⟨hfits, rfl⟩, Option.bind_some]
    cases hc : chosen V R with
    | none =>
      rw [hc] at hr
      rw [hr]
    | some kind =>
      rw [hc] at hr
      cases kind <;> exact hr

theorem rebuild_eq (h : ∀ kind, (V kind).In fileName (b.get kind)) :
    rebuild dirName fileName b R = some (some c) ↔ Readable V R ∧ Rebuilds V R c := by
  rw [rebuild_iff h, Readable, Rebuilds]
  cases hc : chosen V R with
  | none => simp
  | some kind =>
    simp only [combineFiles_eq (h kind), Option.some.injEq, forall_eq', exists_and_left,
      exists_eq_left']
    tauto

theorem rebuild_eq_none (h : ∀ kind, (V kind).In fileName (b.get kind)) :
    rebuild dirName fileName b R = some none ↔ Readable V R ∧ Lost V R := by
  rw [rebuild_iff h, Readable, Lost]
  cases hc : chosen V R with
  | none => simp
  | some kind =>
    simp only [combineFiles_eq_none (h kind), Option.some.injEq, forall_eq']
    tauto

end Rebuild

/-! ## The run -/

section Recovery

variable {fileChecksum strong sumEnd : Bytes → Bytes} {c : SumChoice} {o : RunOpts} {b : Backups}
  {path R src : Bytes} {file : FlistEntry} {prior : Option LocalFile} {sums : SumStruct}

/-- What is in a file, nothing without one. -/
def basisOf (prior : Option LocalFile) : Bytes := (prior.map (·.content)).getD []

/-- The size and the time are those of the latest file. -/
def QuickCheck (file : FlistEntry) (prior : Option LocalFile) : Prop :=
  ∃ st, prior = some st ∧ st.content.length = file.length ∧ st.mtime = file.modtime

theorem localWorld_files : (localWorld file prior).files file.fname = prior.map (·.content) :=
  if_pos rfl

theorem generatorRequest_default (fileChecksum strong : Bytes → Bytes) (c : SumChoice)
    (file : FlistEntry) (prior : Option LocalFile) : generatorRequest fileChecksum strong c .default file prior =
    some (generatorSums strong c (basisOf prior) (basisOf prior).length) ∧ ¬ QuickCheck file prior ∨
    generatorRequest fileChecksum strong c .default file prior = none ∧ QuickCheck file prior := by
  cases prior with
  | none =>
    refine Or.inl ⟨rfl, ?_⟩
    rintro ⟨st, hst, -⟩
    cases hst
  | some st =>
    rw [generatorRequest]
    by_cases h : unchangedFile fileChecksum .default file st = true
    · refine Or.inr ⟨if_pos h, st, rfl, (unchangedFile_default _ _ _).1 h⟩
    · refine Or.inl ⟨if_neg h, ?_⟩
      rintro ⟨st', hst, hquick⟩
      obtain rfl := Option.some.inj hst
      exact h ((unchangedFile_default _ _ _).2 hquick)

/-- **The receiver installs** what the tokens stand for. -/
theorem recvFile_recovery (ho : o.Recovers) (sumEnd : Bytes → Bytes) (file : FlistEntry)
    (sums : SumStruct) {sent : TokenStream × Bytes}
    (hblocks : ∀ i, Token.block i ∈ sent.1.toks → basisOf prior ≠ []) :
    ∃ p, recvFile sumEnd o (localWorld file prior) (recoveryPass file sums sent) = some p ∧
      p.world.files file.fname = some (decode (basisOf prior) sums.head sent.1.toks) := by
  set r := recoveryPass file sums sent with hr
  set w := setUp o (localWorld file prior) file.fname with hw
  have hcmp : r.fnamecmp o = some (file.fname, false) := by
    by_cases hex : o.excluded file.fname = true <;>
      simp [hr, Request.fnamecmp, Request.basisName, recoveryPass, hex]
  set a := recvOf o w r (file.fname, false) with ha
  have htemp : a.Temp (basisOf prior) (SumStruct.mk sums.head []).head := by
    have := recvOf_temp (w := w) (r := r) ho.inplace ho.wholeFile (file.fname, false)
    rwa [hw, setUp_files, localWorld_files] at this
  have hmapped : ∀ i, Token.block i ∈ sent.1.toks → a.Mapped := fun i hi => by
    rw [Recv.Mapped, Recv.sizeR, htemp.basis]
    exact List.length_pos_iff.2 (hblocks i hi)
  obtain ⟨res, hres, hout, -⟩ := receiveData_temp htemp
    (streamSafe_of_blocks ho.inplace hmapped []) sumEnd r.senderSum
  have hdelta : res.delta = none := by
    obtain ⟨p₀, -, -, -, -, -, -, -, -, hdelta, -⟩ := receiveData_cases hres
    rw [hdelta, if_neg]
    simp [ha, recvOf, World.records, ho.recovery]
  have hd := receiveInto_of_unrecorded (o := o) (w := w) (r := r) hres hdelta
  set w' : World := { w with sparsePastWrite := res.sparsePastWrite }
  have hfiles : (install o w' r file.fname false .done res).1.files r.fname = some res.out := by
    have hplaced : r.Placed o false .done := Or.inr ⟨Or.inl (Or.inl ho.delayUpdates), rfl⟩
    rw [install_files (receiveData_verdict hres).2.2, if_pos hplaced]
  refine ⟨⟨(install o w' r file.fname false .done res).1, some (install o w' r file.fname false .done res).2,
    res, none⟩, ?_, hfiles.trans (congrArg some hout)⟩
  have hfate : r.fate = .received false .done := rfl
  have hname : r.fname = file.fname := rfl
  simp only [recvFile, hfate, receiveFile, hcmp, hname, ← hw, ← ha, hd, keepVersions, ho.recovery,
    Bool.false_eq_true, if_false, Option.bind_eq_bind, Option.bind_some]

/-- What `send_files` sends of the file it rebuilds, against the sums of the local
    file. -/
theorem sendRecovery_eq (sumEnd : Bytes → Bytes) (hsrc : rebuild (dirNameOf path) (fileNameOf path) b R = some (some src))
    (hno : StrongNoCollision strong (basisOf prior)
      (generatorSums strong c (basisOf prior) (basisOf prior).length) src) :
    ∃ sent, sendRecovery strong sumEnd b path R
        (generatorSums strong c (basisOf prior) (basisOf prior).length) = some (some sent) ∧
      decode (basisOf prior) (generatorSums strong c (basisOf prior) (basisOf prior).length).head
        sent.1.toks = src ∧
      ∀ i, Token.block i ∈ sent.1.toks → basisOf prior ≠ [] := by
  have hspec := generatorSums_spec strong c (basisOf prior) (basisOf prior).length
  set s := generatorSums strong c (basisOf prior) (basisOf prior).length
  obtain ⟨st, hst, htr⟩ := matchSums_ok (fun h => (hspec h).1) hno
  refine ⟨(⟨st.toks, htr.wf⟩, sumEnd src), ?_, htr.decode_eq, fun i hi => ?_⟩
  · simp only [sendRecovery, hsrc, hst, Option.bind_eq_bind, Option.bind_some]
    rw [dif_pos htr.wf]
  · obtain ⟨pre, post, hsplit⟩ : ∃ pre post, st.toks = pre ++ Token.block i :: post :=
      List.append_of_mem hi
    have hok := htr.ok
    rw [hsplit, tokensOk_append] at hok
    exact List.length_pos_iff.1 (hspec (by have := hok.2.1.lt; omega)).2

/-- The local file after a run, by what the generator and the sender do. -/
theorem recoveryRun_eq (ho : o.Recovers)
    (hno : ∀ src, rebuild (dirNameOf path) (fileNameOf path) b R = some (some src) →
      StrongNoCollision strong (basisOf prior)
        (generatorSums strong c (basisOf prior) (basisOf prior).length) src) :
    (recoveryRun fileChecksum strong sumEnd c .default o b path R file prior).map (·.files file.fname) =
      open Classical in
      if QuickCheck file prior then some (prior.map (·.content))
      else (rebuild (dirNameOf path) (fileNameOf path) b R).map fun r =>
        r.elim (prior.map (·.content)) some := by
  rcases generatorRequest_default fileChecksum strong c file prior with ⟨hreq, hq⟩ | ⟨hreq, hq⟩
  · rw [recoveryRun, hreq, if_neg hq]
    dsimp only
    cases hsrc : rebuild (dirNameOf path) (fileNameOf path) b R with
    | none => simp [sendRecovery, hsrc]
    | some r =>
      cases r with
      | none => simp [sendRecovery, hsrc, localWorld_files]
      | some src =>
        obtain ⟨sent, hsend, hdec, hblocks⟩ := sendRecovery_eq sumEnd hsrc (hno src hsrc)
        obtain ⟨p, hp, hfiles⟩ := recvFile_recovery ho sumEnd file
          (generatorSums strong c (basisOf prior) (basisOf prior).length) hblocks
        simp only [hsend, hp, Option.bind_eq_bind, Option.bind_some]
        simp [hfiles, hdec]
  · rw [recoveryRun, hreq, if_pos hq]
    simp [localWorld_files]

/-- When a run leaves `v` in the local file: it is there and stays, because of the
    quick check or because nothing is sent, or it is what the sender rebuilds. -/
def Installs (V : BackupType → KindVersions) (R : Bytes) (file : FlistEntry)
    (prior : Option LocalFile) (v : Bytes) : Prop :=
  prior.map (·.content) = some v ∧ (QuickCheck file prior ∨ Readable V R ∧ Lost V R) ∨
    ¬ QuickCheck file prior ∧ Readable V R ∧ Rebuilds V R v

/-- **When a recovery installs the version.**  The file is only asked for if its
    size or time differ from those of the latest file, not of the version. -/
theorem recovery_iff {V : BackupType → KindVersions}
    (h : ∀ kind, (V kind).In (fileNameOf path) (b.get kind)) (ho : o.Recovers)
    (hno : ∀ src, rebuild (dirNameOf path) (fileNameOf path) b R = some (some src) →
      StrongNoCollision strong (basisOf prior)
        (generatorSums strong c (basisOf prior) (basisOf prior).length) src) :
    ∀ v, (∃ kind, (V kind).Rebuildable kind R v) →
      ((∃ w, recoveryRun fileChecksum strong sumEnd c .default o b path R file prior = some w ∧
        w.files file.fname = some v) ↔ Installs V R file prior v) := by
  intro v _
  rw [← Option.map_eq_some_iff, recoveryRun_eq ho hno, Installs]
  by_cases hq : QuickCheck file prior
  · rw [if_pos hq, Option.some.injEq]
    simp [hq]
  rw [if_neg hq, Option.map_eq_some_iff]
  simp only [hq, false_or, not_false_eq_true, true_and]
  rw [← rebuild_eq_none h, ← rebuild_eq h]
  constructor
  · rintro ⟨r, hr, helim⟩
    cases r with
    | none => exact Or.inl ⟨helim, hr⟩
    | some src =>
      obtain rfl : src = v := Option.some.inj helim
      exact Or.inr hr
  · rintro (⟨hprior, hr⟩ | hr)
    · exact ⟨none, hr, hprior⟩
    · exact ⟨some v, hr, rfl⟩

end Recovery

/-- A version that a kind holds is what the sender rebuilds, if the choice is
    right and the kinds agree about the version. -/
theorem rebuilds_of_selectable {V : BackupType → KindVersions} {R v fileName : Bytes} {b : Backups}
    (h : ∀ kind, (V kind).In fileName (b.get kind))
    (hv : ∃ kind, (V kind).Rebuildable kind R v)
    (hagree : ∀ kind v', (V kind).Rebuildable kind R v' → v' = v)
    (hsel : Selectable V R) : Rebuilds V R v := by
  have hf : ∀ kind, Ascending (V kind).fulls := fun kind => (h kind).full.ascending
  have hd : ∀ kind, Ascending (V kind).deltas := fun kind => (h kind).delta.ascending
  obtain ⟨k, hv⟩ := hv
  obtain ⟨m, hm, hle⟩ := hv.le_newest (hf k) (hd k) le_rfl
  obtain ⟨-, kind, hchosen, ⟨-, hanswers⟩, hmax⟩ :=
    (selectable_iff (fun kind => ⟨hf kind, hd kind⟩) ⟨k, m, hm⟩).1 hsel
  obtain ⟨n, hn, hmn⟩ := hmax k m hm
  obtain rfl : n = R := le_antisymm (KindVersions.newest_spec (hf kind) (hd kind) hn).1 (hle.trans hmn)
  obtain ⟨c, hc⟩ := (h kind).rebuildable kind hn
  exact ⟨kind, n, hchosen, hanswers, hn, hagree kind c hc ▸ hc.2⟩

/-! ## A file that is not asked for -/

/-- A recovery run with the default options. -/
def recoveryOpts : RunOpts := { plainRun .incremental [] 0 with backup := false }

theorem recoveryOpts_recovers : recoveryOpts.Recovers := ⟨rfl, rfl, rfl, rfl⟩

/-- The latest file on the server has one byte. -/
def latestEntry : FlistEntry := ⟨cstr "f", 1, 0, 0, []⟩

/-- The full backup of version `1`, in a store of the latest file. -/
def latestBackups : Backups := oneFullBackups (fileNameOf (cstr "f")) .incremental

/-- Without a local file the version is sent. -/
theorem recovery_missing :
    ∃ w, recoveryRun id id id oneByteChoice .default recoveryOpts latestBackups (cstr "f") (cstr "1")
      latestEntry none = some w ∧ w.files (cstr "f") = some (cstr "x") := by
  have hno : ∀ src, StrongNoCollision id (basisOf none)
      (generatorSums id oneByteChoice (basisOf none) (basisOf none).length) src :=
    fun src i hi => absurd hi (Nat.not_lt_zero i)
  refine (recovery_iff (oneFull_in _ .incremental) recoveryOpts_recovers (fun src _ => hno src)
    (cstr "x") ⟨.incremental, ?_⟩).2
    (Or.inr ⟨?_, ⟨?_, ?_, ?_⟩, .incremental, cstr "1", rfl, rfl, by decide, by decide⟩)
  · rw [oneFull, if_pos rfl]
    exact ⟨Or.inl (List.mem_singleton.2 rfl), by decide⟩
  · rintro ⟨st, hst, -⟩
    cases hst
  · rintro (_ | _) <;> decide
  · exact fun _ h => absurd rfl h
  · intro kind hkind
    obtain rfl : BackupType.incremental = kind := Option.some.inj hkind
    refine ⟨?_, fun f hf hne => ?_⟩
    · intro i hi _ _
      obtain rfl : i = 0 := Nat.lt_one_iff.1 hi
      show (cstr "1").length < 128
      decide
    · have : some (cstr "1") = some f := hf
      exact absurd (Option.some.inj this).symm hne

/-- **A file of the latest size and time is not**: it keeps its content. -/
theorem not_recovery : (∀ kind, (oneFull .incremental kind).In (fileNameOf (cstr "f")) (latestBackups.get kind)) ∧
    (oneFull .incremental .incremental).Rebuildable .incremental (cstr "1") (cstr "x") ∧
    ∀ strong sumEnd fileChecksum : Bytes → Bytes,
      ¬ ∃ w, recoveryRun fileChecksum strong sumEnd oneByteChoice .default recoveryOpts latestBackups
        (cstr "f") (cstr "1") latestEntry (some ⟨cstr "y", 0, 0⟩) = some w ∧
        w.files (cstr "f") = some (cstr "x") := by
  refine ⟨oneFull_in _ _, ⟨Or.inl (List.mem_singleton.2 rfl), by decide⟩, fun strong sumEnd fileChecksum => ?_⟩
  rintro ⟨w, hw, hx⟩
  have hrun : recoveryRun fileChecksum strong sumEnd oneByteChoice .default recoveryOpts latestBackups
      (cstr "f") (cstr "1") latestEntry (some ⟨cstr "y", 0, 0⟩) =
      some (localWorld latestEntry (some ⟨cstr "y", 0, 0⟩)) := rfl
  rw [hrun] at hw
  obtain rfl := Option.some.inj hw
  revert hx
  decide

end CloudEdgeBackup
