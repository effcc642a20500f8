/-
  What is left of a store when `update_incre_full_backup` cannot open a file.

  * `Access` says which files can be opened and removed; `manageBackupVersionAt` is
    `manage_backup_version` with these outcomes, and the function of before when nothing
    fails (`manageBackupVersionAt_all`);
  * `manage_backup_version` drops the result of the merge and removes the two files it
    was made from, so the history is kept only if they cannot be removed either
    (`mergeFailure_iff`).
-/
import CloudEdgeBackup.BackupPass

namespace CloudEdgeBackup

/-! ## The functions, with the outcomes of the calls -/

/-- Which of the calls on a path succeed. -/
structure Access where
  /-- `fopen(path, "rb")`, `do_open(path, O_RDONLY)` -/
  reads : Bytes → Bool
  /-- `fopen(path, "wb")` -/
  creates : Bytes → Bool
  /-- `remove(path)` -/
  removes : Bytes → Bool

def Access.all : Access := ⟨fun _ => true, fun _ => true, fun _ => true⟩

section Functions

variable (a : Access)

/-- `remove`; its result is not looked at. -/
def removeFile (dirName : Bytes) (d : Dir) (name : Bytes) : Dir :=
  if a.removes (dirName ++ name) then d.erase name else d

/-- `fopen(name, "wb")` -/
def createFile (dirName : Bytes) (d : Dir) (name : Bytes) : Option Dir :=
  if a.creates (dirName ++ name) then d.create name [] else none

def readFile (dirName : Bytes) (d : Dir) (name : Bytes) : Option Bytes :=
  if a.reads (dirName ++ name) then d.lookup name else none

/-- The full backup's name without what follows the first dot, as that of the delta's
    version. -/
def updatedName (full newTimestamp : Bytes) : Bytes :=
  fullPrefix (full.takeWhile fun b => decide (b ≠ dot)) ++ newTimestamp

/-- `update_incre_full_backup`: all three files are opened before the result of any is
    looked at. -/
def updateIncreFullBackupAt (fullDir deltaDir : Bytes) (s : Store) (full delta : Bytes) :
    Option (ℤ × Store) := do
  let newTimestamp ← extractFileNameTimestamp maxPathLen (deltaDir ++ delta)
  if dot ∈ full then
    let updated := updatedName full newTimestamp
    match createFile a fullDir s.full updated with
    | none => some (-1, s)
    | some created =>
      match readFile a deltaDir s.delta delta, readFile a fullDir created full with
      | some d, some f => do
        let content ← applyDelta f d
        some (0, { s with full := created.insert updated content })
      | _, _ => some (-1, { s with full := created })
  else none

/-- The oldest full backup goes, with the deltas up to the next one. -/
def dropOldestFullAt (fullDir deltaDir : Bytes) (fulls deltas : List Bytes) (s : Store) :
    Option (Store × ℕ) := do
  let oldest ← fulls[0]?
  let next ← fulls[1]?
  let _ ← extractFileNameTimestamp maxPathLen (fullDir ++ oldest)
  let t ← extractFileNameTimestamp maxPathLen (fullDir ++ next)
  let i ← staleDeltas deltaDir t deltas
  some (⟨removeFile a fullDir s.full oldest, (deltas.take i).foldl (removeFile a deltaDir) s.delta⟩, i)

/-- The last part of `manage_backup_version`. -/
def dropOldestDeltaAt (fullDir deltaDir : Bytes) (backupType : BackupType) (fulls deltas : List Bytes)
    (s : Store) (i j : ℕ) : Option Store := do
  let delta ← deltas[i]?
  match backupType with
  | .differential => some { s with delta := removeFile a deltaDir s.delta delta }
  | .incremental =>
    let full ← fulls[j]?
    let r ← updateIncreFullBackupAt a fullDir deltaDir s full delta
    some ⟨removeFile a fullDir r.2.full full, removeFile a deltaDir r.2.delta delta⟩

/-- `manage_backup_version` -/
def manageBackupVersionAt (backupPath : Bytes) (backupType : BackupType) (backupVersionNum : ℤ)
    (s : Store) : Option Store := do
  let fullDir := backupPath ++ cstr "full/"
  let deltaDir := backupPath ++ cstr "delta/"
  let fulls ← readSortDirFiles fullDir s.full
  let deltas ← readSortDirFiles deltaDir s.delta
  if fulls.length ≤ backupVersionNum ∧ deltas.length ≤ backupVersionNum then some s
  else
    let r ←
      if backupVersionNum < fulls.length then dropOldestFullAt a fullDir deltaDir fulls deltas s
      else some (s, 0)
    if backupVersionNum < (deltas.length : ℤ) - r.2 then
      dropOldestDeltaAt a fullDir deltaDir backupType fulls deltas r.1 r.2
        (if backupVersionNum < fulls.length then 1 else 0)
    else some r.1

end Functions

/-! ## Nothing fails -/

theorem updateIncreFullBackupAt_all (fullDir deltaDir : Bytes) (s : Store) (full delta : Bytes) :
    updateIncreFullBackupAt .all fullDir deltaDir s full delta =
      updateIncreFullBackup deltaDir s full delta := rfl

/-- **With every call successful** this is `manage_backup_version` as it is elsewhere. -/
theorem manageBackupVersionAt_all (path : Bytes) (kind : BackupType) (N : ℤ) (s : Store) :
    manageBackupVersionAt .all path kind N s = manageBackupVersion path kind N s := rfl

/-! ## A merge that fails -/

/-- The versions that can be recovered and the files they are made from are all kept. -/
structure KeepsHistory (dirName fileName : Bytes) (s s' : Store) : Prop where
  full : ∀ n c, s.full.lookup n = some c → s'.full.lookup n = some c
  delta : ∀ n c, s.delta.lookup n = some c → s'.delta.lookup n = some c
  versions : ∀ t R c, recover dirName fileName ⟨s, t⟩ .incremental R = some (some c) →
    recover dirName fileName ⟨s', t⟩ .incremental R = some (some c)

theorem KeepsHistory.refl (dirName fileName : Bytes) (s : Store) : KeepsHistory dirName fileName s s :=
  ⟨fun _ _ h => h, fun _ _ h => h, fun _ _ _ h => h⟩

/-- Up to the merge: what is listed, the store with the oldest full backup dropped if
    there are too many, and the two files to be merged. -/
structure MergePlan (a : Access) (path : Bytes) (N : ℤ) (s : Store) (fulls deltas : List Bytes)
    (s₁ : Store) (i : ℕ) (full delta : Bytes) : Prop where
  readFulls : readSortDirFiles (path ++ cstr "full/") s.full = some fulls
  readDeltas : readSortDirFiles (path ++ cstr "delta/") s.delta = some deltas
  dropped : (if N < fulls.length then
      dropOldestFullAt a (path ++ cstr "full/") (path ++ cstr "delta/") fulls deltas s
    else some (s, 0)) = some (s₁, i)
  tooMany : N < (deltas.length : ℤ) - i
  oldDelta : deltas[i]? = some delta
  oldFull : fulls[if N < fulls.length then 1 else 0]? = some full

/-- None of the files that are removed can be. -/
structure RemovesNothing (a : Access) (path : Bytes) (N : ℤ) (fulls deltas : List Bytes) (i : ℕ)
    (full delta : Bytes) : Prop where
  oldest : N < fulls.length → ∀ f, fulls[0]? = some f → a.removes (path ++ cstr "full/" ++ f) = false
  stale : ∀ f ∈ deltas.take i, a.removes (path ++ cstr "delta/" ++ f) = false
  oldDelta : a.removes (path ++ cstr "delta/" ++ delta) = false
  oldFull : a.removes (path ++ cstr "full/" ++ full) = false

section MergeFailure

variable {a : Access} {path : Bytes} {N : ℤ} {s s₁ : Store} {fulls deltas : List Bytes} {i : ℕ}
  {full delta : Bytes}

theorem lookup_removeFile (a : Access) (dirName : Bytes) (d : Dir) (name n : Bytes) :
    AList.lookup n (removeFile a dirName d name) =
      if n = name ∧ a.removes (dirName ++ name) = true then none else d.lookup n := by
  rw [removeFile]
  by_cases hrem : a.removes (dirName ++ name) = true
  · rw [if_pos hrem]
    by_cases hn : n = name
    · rw [if_pos ⟨hn, hrem⟩, hn, AList.lookup_erase]
    · rw [if_neg fun h => hn h.1, AList.lookup_erase_ne hn]
  · rw [if_neg hrem, if_neg fun h => hrem h.2]

theorem removeFile_eq {dirName name : Bytes} {d : Dir} (h : a.removes (dirName ++ name) = false) :
    removeFile a dirName d name = d := by
  rw [removeFile, h]
  rfl

theorem lookup_removeFiles (a : Access) (dirName : Bytes) (names : List Bytes) (d : Dir) (n : Bytes) :
    AList.lookup n (names.foldl (removeFile a dirName) d) =
      if n ∈ names ∧ a.removes (dirName ++ n) = true then none else d.lookup n := by
  induction names generalizing d with
  | nil => rw [List.foldl_nil, if_neg fun h => List.not_mem_nil h.1]
  | cons m ms ih =>
    rw [List.foldl_cons, ih, lookup_removeFile]
    by_cases hn : n = m
    · subst hn
      by_cases hrem : a.removes (dirName ++ n) = true <;> simp [hrem]
    · simp [hn]

theorem removeFiles_eq {dirName : Bytes} {names : List Bytes} {d : Dir}
    (h : ∀ f ∈ names, a.removes (dirName ++ f) = false) : names.foldl (removeFile a dirName) d = d := by
  induction names generalizing d with
  | nil => rfl
  | cons m ms ih =>
    rw [List.foldl_cons, removeFile_eq (h m (List.mem_cons_self ..))]
    exact ih fun f hf => h f (List.mem_cons_of_mem _ hf)

theorem mem_of_readSort {dirName : Bytes} {d : Dir} {l : List Bytes} (h : readSortDirFiles dirName d = some l)
    {n : Bytes} (hn : n ∈ l) : ∃ c, d.lookup n = some c := by
  rw [readSortDirFiles] at h
  split_ifs at h
  rw [Option.some.injEq] at h
  rw [← h, List.mem_mergeSort, ← AList.mem_keys, ← AList.lookup_isSome] at hn
  exact Option.isSome_iff_exists.1 hn

/-- What the first part of `manage_backup_version` leaves. -/
theorem MergePlan.dropped_eq (h : MergePlan a path N s fulls deltas s₁ i full delta) :
    s₁.delta = (deltas.take i).foldl (removeFile a (path ++ cstr "delta/")) s.delta ∧
      (N < fulls.length → ∃ oldest, fulls[0]? = some oldest ∧
        s₁.full = removeFile a (path ++ cstr "full/") s.full oldest) ∧
      (¬ N < fulls.length → s₁.full = s.full) := by
  have hdropped := h.dropped
  by_cases hN : N < fulls.length
  · rw [if_pos hN, dropOldestFullAt] at hdropped
    obtain ⟨oldest, hold, hdropped⟩ := Option.bind_eq_some_iff.1 hdropped
    obtain ⟨next, -, hdropped⟩ := Option.bind_eq_some_iff.1 hdropped
    obtain ⟨t₀, -, hdropped⟩ := Option.bind_eq_some_iff.1 hdropped
    obtain ⟨t, -, hdropped⟩ := Option.bind_eq_some_iff.1 hdropped
    obtain ⟨k, -, hdropped⟩ := Option.bind_eq_some_iff.1 hdropped
    rw [Option.some.injEq, Prod.mk.injEq] at hdropped
    obtain ⟨rfl, rfl⟩ := hdropped
    exact ⟨rfl, fun _ => ⟨oldest, hold, rfl⟩, fun hno => absurd hN hno⟩
  · rw [if_neg hN, Option.some.injEq, Prod.mk.injEq] at hdropped
    obtain ⟨rfl, rfl⟩ := hdropped
    exact ⟨rfl, fun hlt => absurd hlt hN, fun _ => rfl⟩

/-- The two files are removed whatever the merge said. -/
theorem MergePlan.manage (h : MergePlan a path N s fulls deltas s₁ i full delta) {r : ℤ × Store}
    (hr : updateIncreFullBackupAt a (path ++ cstr "full/") (path ++ cstr "delta/") s₁ full delta = some r) :
    manageBackupVersionAt a path .incremental N s =
      some ⟨removeFile a (path ++ cstr "full/") r.2.full full,
        removeFile a (path ++ cstr "delta/") r.2.delta delta⟩ := by
  have hmany : ¬ ((fulls.length : ℤ) ≤ N ∧ (deltas.length : ℤ) ≤ N) := by
    have := h.tooMany
    omega
  have hdropped := h.dropped
  have hfull := h.oldFull
  rw [manageBackupVersionAt]
  simp only [h.readFulls, h.readDeltas, Option.bind_eq_bind, Option.bind_some, if_neg hmany]
  by_cases hN : N < fulls.length
  · rw [if_pos hN] at hdropped hfull
    rw [if_pos hN, hdropped, Option.bind_some, if_pos h.tooMany, if_pos hN, dropOldestDeltaAt, h.oldDelta]
    simp only [Option.bind_eq_bind, Option.bind_some, hfull, hr]
  · rw [if_neg hN, Option.some.injEq, Prod.mk.injEq] at hdropped
    rw [if_neg hN] at hfull
    obtain ⟨rfl, rfl⟩ := hdropped
    rw [if_neg hN, if_pos h.tooMany, if_neg hN, dropOldestDeltaAt, h.oldDelta]
    simp only [Option.bind_eq_bind, Option.bind_some, hfull, hr]

/-- A merge that fails has created the new full backup, empty, or nothing. -/
theorem updateIncreFullBackupAt_failed {fullDir deltaDir : Bytes} {s₂ : Store}
    (h : updateIncreFullBackupAt a fullDir deltaDir s₁ full delta = some (-1, s₂)) :
    ∃ t, extractFileNameTimestamp maxPathLen (deltaDir ++ delta) = some t ∧
      s₂ = match createFile a fullDir s₁.full (updatedName full t) with
        | none => s₁
        | some created => { s₁ with full := created } := by
  rw [updateIncreFullBackupAt] at h
  obtain ⟨t, ht, h⟩ := Option.bind_eq_some_iff.1 h
  refine ⟨t, ht, ?_⟩
  split_ifs at h
  cases hcreate : createFile a fullDir s₁.full (updatedName full t) with
  | none =>
    simp only [hcreate] at h
    cases h
    rfl
  | some created =>
    simp only [hcreate] at h
    split at h
    · obtain ⟨c, -, hc⟩ := Option.bind_eq_some_iff.1 h
      cases hc
    · cases h
      rfl

/-- The first delta that stays is later than the full backup. -/
theorem staleDeltas_next {deltaDir t₁ f v : Bytes} {l : List Bytes} (h : staleDeltas deltaDir t₁ l = some i)
    (hf : l[i]? = some f) (hv : extractFileNameTimestamp maxPathLen (deltaDir ++ f) = some v) : t₁ < v := by
  induction l generalizing i with
  | nil => cases hf
  | cons g gs ih =>
    rw [staleDeltas] at h
    obtain ⟨u, hu, h⟩ := Option.bind_eq_some_iff.1 h
    split_ifs at h with hle
    · obtain ⟨k, hk, rfl⟩ := Option.map_eq_some_iff.1 h
      exact ih hk (by simpa using hf)
    · rw [Option.some.injEq] at h
      subst h
      rw [List.getElem?_cons_zero, Option.some.injEq] at hf
      rw [hf, hv, Option.some.injEq] at hu
      rw [hu]
      exact not_le.1 hle

/-- The new full backup is not the one that is dropped as the oldest. -/
theorem MergePlan.updated_ne {fileName t : Bytes} {fl dl : List (Bytes × Bytes)}
    (h : MergePlan a path N s fulls deltas s₁ i full delta)
    (hfl : s.full.Holds (fullPrefix fileName) fl) (hdl : s.delta.Holds (deltaPrefix fileName) dl)
    (hN : N < fulls.length)
    (ht : extractFileNameTimestamp maxPathLen (path ++ cstr "delta/" ++ delta) = some t) {oldest : Bytes}
    (hold : fulls[0]? = some oldest) : oldest ≠ updatedName full t := by
  have hfulls := h.readFulls
  rw [hfl.readSort] at hfulls
  split_ifs at hfulls
  have hnext := h.oldFull
  rw [if_pos hN] at hnext
  rw [Option.some.injEq] at hfulls
  have hdropped := h.dropped
  rw [if_pos hN, dropOldestFullAt] at hdropped
  obtain ⟨o, -, hdropped⟩ := Option.bind_eq_some_iff.1 hdropped
  obtain ⟨next, hnext', hdropped⟩ := Option.bind_eq_some_iff.1 hdropped
  obtain ⟨t₀, -, hdropped⟩ := Option.bind_eq_some_iff.1 hdropped
  obtain ⟨t₁, ht₁, hdropped⟩ := Option.bind_eq_some_iff.1 hdropped
  obtain ⟨k, hstale, hdropped⟩ := Option.bind_eq_some_iff.1 hdropped
  rw [Option.some.injEq, Prod.mk.injEq] at hdropped
  obtain ⟨-, rfl⟩ := hdropped
  obtain rfl : next = full := Option.some.inj (hnext'.symm.trans hnext)
  rw [← hfulls, Dir.Holds.names, List.getElem?_map, Option.map_eq_some_iff] at hold hnext
  obtain ⟨e₀, he₀, rfl⟩ := hold
  obtain ⟨e₁, he₁, rfl⟩ := hnext
  have hdot₀ := hfl.noDot _ (List.mem_of_getElem? he₀)
  have hdot₁ := hfl.noDot _ (List.mem_of_getElem? he₁)
  rw [ extract_prefix (fullPrefix_eq fileName) hdot₁] at ht₁
  split_ifs at ht₁
  rw [Option.some.injEq] at ht₁
  subst ht₁
  -- the oldest full backup is before the next one, and that one before the delta
  obtain ⟨hi₀, rfl⟩ := List.getElem?_eq_some_iff.1 he₀
  obtain ⟨hi₁, rfl⟩ := List.getElem?_eq_some_iff.1 he₁
  have hlt := List.pairwise_iff_getElem.1 hfl.ascending 0 1 hi₀ hi₁ Nat.one_pos
  have hlater := staleDeltas_next hstale h.oldDelta ht
  intro heq
  have hdeltas := h.readDeltas
  rw [hdl.readSort] at hdeltas
  split_ifs at hdeltas
  have hdelta := h.oldDelta
  rw [Option.some.injEq] at hdeltas
  rw [← hdeltas, Dir.Holds.names, List.getElem?_map, Option.map_eq_some_iff] at hdelta
  obtain ⟨d, hd, rfl⟩ := hdelta
  have hdotd := hdl.noDot _ (List.mem_of_getElem? hd)
  rw [ extract_prefix (deltaPrefix_eq fileName) hdotd] at ht
  split_ifs at ht
  rw [Option.some.injEq] at ht
  subst ht
  rw [updatedName, fullPrefix_eq, fullPrefix_eq, List.append_assoc, List.append_assoc _ [dot],
    List.singleton_append, List.singleton_append] at heq
  have hstamp := congrArg (List.rtakeWhile fun b => decide (b ≠ dot)) heq
  rw [rtakeWhile_dot hdot₀, rtakeWhile_dot hdotd] at hstamp
  exact (hlt.trans hlater).ne hstamp

/-- What `manage_backup_version` leaves if the merge fails. -/
theorem MergePlan.lookup_kept {fileName t : Bytes} {fl dl : List (Bytes × Bytes)} {s₂ : Store}
    (h : MergePlan a path N s fulls deltas s₁ i full delta)
    (hfl : s.full.Holds (fullPrefix fileName) fl) (hdl : s.delta.Holds (deltaPrefix fileName) dl)
    (ht : extractFileNameTimestamp maxPathLen (path ++ cstr "delta/" ++ delta) = some t)
    (hs₂ : s₂ = match createFile a (path ++ cstr "full/") s₁.full (updatedName full t) with
      | none => s₁
      | some created => { s₁ with full := created })
    (hfull : ∀ n c, s.full.lookup n = some c →
      (removeFile a (path ++ cstr "full/") s₂.full full).lookup n = some c)
    (hdelta : ∀ n c, s.delta.lookup n = some c →
      (removeFile a (path ++ cstr "delta/") s₂.delta delta).lookup n = some c) :
    RemovesNothing a path N fulls deltas i full delta := by
  obtain ⟨hdeltaEq, hold, -⟩ := h.dropped_eq
  have hs₂d : s₂.delta = s₁.delta := by
    rw [hs₂]
    cases createFile a (path ++ cstr "full/") s₁.full (updatedName full t) <;> rfl
  have hnot : ∀ {b : Bool}, ¬ b = true → b = false := fun hb => by simpa using hb
  constructor
  · intro hN f hf
    refine hnot fun hrem => ?_
    obtain ⟨oldest, hold', hs₁⟩ := hold hN
    obtain rfl : f = oldest := Option.some.inj (hf.symm.trans hold')
    obtain ⟨c, hc⟩ := mem_of_readSort h.readFulls (List.mem_of_getElem? hf)
    have hkept := hfull f c hc
    rw [lookup_removeFile] at hkept
    split_ifs at hkept
    have hgone : AList.lookup f s₁.full = none := by rw [hs₁, lookup_removeFile, if_pos ⟨rfl, hrem⟩]
    rw [hs₂] at hkept
    cases hcreate : createFile a (path ++ cstr "full/") s₁.full (updatedName full t) with
    | none =>
      simp only [hcreate, hgone] at hkept
      cases hkept
    | some created =>
      simp only [hcreate] at hkept
      rw [createFile, Dir.create] at hcreate
      split_ifs at hcreate
      rw [Option.some.injEq] at hcreate
      rw [← hcreate, AList.lookup_insert_ne (h.updated_ne hfl hdl hN ht hf), hgone] at hkept
      cases hkept
  · intro f hf
    refine hnot fun hrem => ?_
    obtain ⟨c, hc⟩ := mem_of_readSort h.readDeltas (List.mem_of_mem_take hf)
    have hkept := hdelta f c hc
    have hgone : AList.lookup f s₂.delta = none := by
      rw [hs₂d, hdeltaEq, lookup_removeFiles]
      exact if_pos ⟨hf, hrem⟩
    rw [lookup_removeFile, hgone, ite_self] at hkept
    cases hkept
  · refine hnot fun hrem => ?_
    obtain ⟨c, hc⟩ := mem_of_readSort h.readDeltas (List.mem_of_getElem? h.oldDelta)
    have hkept := hdelta delta c hc
    rw [lookup_removeFile, if_pos ⟨rfl, hrem⟩] at hkept
    cases hkept
  · refine hnot fun hrem => ?_
    obtain ⟨c, hc⟩ := mem_of_readSort h.readFulls (List.mem_of_getElem? h.oldFull)
    have hkept := hfull full c hc
    rw [lookup_removeFile, if_pos ⟨rfl, hrem⟩] at hkept
    cases hkept

theorem MergePlan.dropped_nothing (h : MergePlan a path N s fulls deltas s₁ i full delta)
    (hno : RemovesNothing a path N fulls deltas i full delta) : s₁ = s := by
  obtain ⟨hdelta, hold, hkeep⟩ := h.dropped_eq
  have hd : s₁.delta = s.delta := by rw [hdelta, removeFiles_eq hno.stale]
  have hf : s₁.full = s.full := by
    by_cases hN : N < fulls.length
    · obtain ⟨oldest, ho, hs₁⟩ := hold hN
      rw [hs₁, removeFile_eq (hno.oldest hN oldest ho)]
    · exact hkeep hN
  cases s₁
  cases s
  simp only at hd hf
  rw [hd, hf]

/-- **After a merge that failed** the history is kept just when none of the files that are
    removed can be, and the empty full backup that was created, if it was, hides nothing. -/
theorem mergeFailure_iff (a : Access) (dirName fileName : Bytes) (N : ℤ) (s s₁ s₂ : Store)
    (fl dl : List (Bytes × Bytes)) (fulls deltas : List Bytes) (i : ℕ) (full delta t : Bytes)
    (hfl : s.full.Holds (fullPrefix fileName) fl) (hdl : s.delta.Holds (deltaPrefix fileName) dl)
    (hplan : MergePlan a (backupPath dirName fileName .incremental) N s fulls deltas s₁ i full delta)
    (hfail : updateIncreFullBackupAt a (fullDir dirName fileName .incremental)
      (deltaDir dirName fileName .incremental) s₁ full delta = some (-1, s₂))
    (ht : extractFileNameTimestamp maxPathLen (deltaDir dirName fileName .incremental ++ delta) = some t) :
    ∃ s', manageBackupVersionAt a (backupPath dirName fileName .incremental) .incremental N s = some s' ∧
      (KeepsHistory dirName fileName s s' ↔
        RemovesNothing a (backupPath dirName fileName .incremental) N fulls deltas i full delta ∧
          ∀ created, createFile a (fullDir dirName fileName .incremental) s.full (updatedName full t) =
            some created → KeepsHistory dirName fileName s { s with full := created }) := by
  refine ⟨_, hplan.manage hfail, ?_⟩
  obtain ⟨t', ht', hs₂⟩ := updateIncreFullBackupAt_failed hfail
  obtain rfl : t = t' := Option.some.inj (ht.symm.trans ht')
  have hmade : RemovesNothing a (backupPath dirName fileName .incremental) N fulls deltas i full delta →
      (⟨removeFile a (backupPath dirName fileName .incremental ++ cstr "full/") s₂.full full,
        removeFile a (backupPath dirName fileName .incremental ++ cstr "delta/") s₂.delta delta⟩ : Store) =
        match createFile a (fullDir dirName fileName .incremental) s.full (updatedName full t) with
        | none => s
        | some created => { s with full := created } := by
    intro hno
    rw [hplan.dropped_nothing hno] at hs₂
    rw [removeFile_eq hno.oldFull, removeFile_eq hno.oldDelta, ← hs₂]
  constructor
  · intro hkeeps
    have hno := hplan.lookup_kept hfl hdl ht hs₂ hkeeps.full hkeeps.delta
    refine ⟨hno, fun created hcreate => ?_⟩
    rw [hmade hno, hcreate] at hkeeps
    exact hkeeps
  · rintro ⟨hno, hharmless⟩
    rw [hmade hno]
    cases hcreate : createFile a (fullDir dirName fileName .incremental) s.full (updatedName full t) with
    | none => exact .refl _ _ _
    | some created => exact hharmless created hcreate

end MergeFailure

/-! ## A file that cannot be read -/

def noReads : Access := ⟨fun _ => false, fun _ => true, fun _ => true⟩

/-- One full backup and two deltas. -/
def threeVersions : Store :=
  ⟨(∅ : Dir).insert (fullPrefix (cstr "f") ++ cstr "1") (cstr "x"),
    ((∅ : Dir).insert (deltaPrefix (cstr "f") ++ cstr "2") []).insert (deltaPrefix (cstr "f") ++ cstr "3") []⟩

theorem threeVersions_full : threeVersions.full.Holds (fullPrefix (cstr "f")) [(cstr "1", cstr "x")] :=
  (Dir.Holds.empty _).insert (by decide) fun _ he => absurd he List.not_mem_nil

theorem threeVersions_delta :
    threeVersions.delta.Holds (deltaPrefix (cstr "f")) [(cstr "2", []), (cstr "3", [])] := by
  have hone := (Dir.Holds.empty (deltaPrefix (cstr "f"))).insert (v := cstr "2") (c := []) (by decide)
    fun _ he => absurd he List.not_mem_nil
  exact hone.insert (by decide) (by decide)

theorem threeVersions_plan : MergePlan noReads (backupPath (cstr "d") (cstr "f") .incremental) 1 threeVersions
    [fullPrefix (cstr "f") ++ cstr "1"] [deltaPrefix (cstr "f") ++ cstr "2", deltaPrefix (cstr "f") ++ cstr "3"]
    threeVersions 0 (fullPrefix (cstr "f") ++ cstr "1") (deltaPrefix (cstr "f") ++ cstr "2") where
  readFulls := threeVersions_full.readSort _
  readDeltas := threeVersions_delta.readSort _
  dropped := rfl
  tooMany := by decide
  oldDelta := rfl
  oldFull := rfl

/-- The new full backup is created, and nothing else. -/
def afterFailure : Store :=
  { threeVersions with full := threeVersions.full.insert (fullPrefix (cstr "f") ++ cstr "2") [] }

theorem threeVersions_fails : updateIncreFullBackupAt noReads (fullDir (cstr "d") (cstr "f") .incremental)
    (deltaDir (cstr "d") (cstr "f") .incremental) threeVersions (fullPrefix (cstr "f") ++ cstr "1")
    (deltaPrefix (cstr "f") ++ cstr "2") = some (-1, afterFailure) := by
  have hstamp : extractFileNameTimestamp maxPathLen (deltaDir (cstr "d") (cstr "f") .incremental ++
      (deltaPrefix (cstr "f") ++ cstr "2")) = some (cstr "2") := by decide
  have hname : updatedName (fullPrefix (cstr "f") ++ cstr "1") (cstr "2") = fullPrefix (cstr "f") ++ cstr "2" := by
    decide
  rw [updateIncreFullBackupAt, hstamp, Option.bind_eq_bind, Option.bind_some, if_pos (by decide), hname]
  simp only [createFile, Dir.create, noReads, if_true, if_pos (show NameOk (fullPrefix (cstr "f") ++ cstr "2")
    by decide), readFile, Bool.false_eq_true, if_false]
  rfl

theorem mergeFailure_threeVersions :
    ∃ s', manageBackupVersionAt noReads (backupPath (cstr "d") (cstr "f") .incremental) .incremental 1
        threeVersions = some s' ∧
      (KeepsHistory (cstr "d") (cstr "f") threeVersions s' ↔
        RemovesNothing noReads (backupPath (cstr "d") (cstr "f") .incremental) 1
            [fullPrefix (cstr "f") ++ cstr "1"]
            [deltaPrefix (cstr "f") ++ cstr "2", deltaPrefix (cstr "f") ++ cstr "3"] 0
            (fullPrefix (cstr "f") ++ cstr "1") (deltaPrefix (cstr "f") ++ cstr "2") ∧
          ∀ created, createFile noReads (fullDir (cstr "d") (cstr "f") .incremental) threeVersions.full
            (updatedName (fullPrefix (cstr "f") ++ cstr "1") (cstr "2")) = some created →
              KeepsHistory (cstr "d") (cstr "f") threeVersions { threeVersions with full := created }) :=
  mergeFailure_iff noReads _ _ _ _ _ _ _ _ _ _ _ _ _ _ threeVersions_full threeVersions_delta
    threeVersions_plan threeVersions_fails (by decide)

/-- **The merge fails, and the full backup and the delta are gone.** -/
theorem not_keepsHistory :
    updateIncreFullBackupAt noReads (fullDir (cstr "d") (cstr "f") .incremental)
        (deltaDir (cstr "d") (cstr "f") .incremental) threeVersions (fullPrefix (cstr "f") ++ cstr "1")
        (deltaPrefix (cstr "f") ++ cstr "2") = some (-1, afterFailure) ∧
      ∃ s', manageBackupVersionAt noReads (backupPath (cstr "d") (cstr "f") .incremental) .incremental 1
          threeVersions = some s' ∧ ¬ KeepsHistory (cstr "d") (cstr "f") threeVersions s' := by
  refine ⟨threeVersions_fails, _, threeVersions_plan.manage threeVersions_fails, fun hkeeps => ?_⟩
  have hlost := hkeeps.full _ _ (threeVersions_full.lookup_of_mem (List.mem_cons_self ..))
  rw [lookup_removeFile, if_pos ⟨rfl, rfl⟩] at hlost
  cases hlost

end CloudEdgeBackup
