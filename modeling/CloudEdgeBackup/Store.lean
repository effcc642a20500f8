/-
  The version store of a file: the directories `full/` and `delta/` of one kind
  of backup, and `manage_backup_version`.

  * a `Dir` is what a directory holds; the fixed buffers of the source are where
    a function fails (`none`): the array of `read_sort_dir_files`, the char
    arrays timestamps are copied to;
  * `Dir.Holds` says that the files of a directory are the versions of one list;
    every function of the source on a directory becomes one on that list.
-/
import CloudEdgeBackup.Delta
import CloudEdgeBackup.Lib.Versions

namespace CloudEdgeBackup

open Versions

/-! ## Names -/

abbrev dot : UInt8 := 46
abbrev slash : UInt8 := 47

/-- What a directory can hold as a file name. -/
def NameOk (name : Bytes) : Prop := name.length ≤ 255 ∧ slash ∉ name

instance (name : Bytes) : Decidable (NameOk name) := by unfold NameOk; infer_instance

/-- The directory of a kind, below the one of the file. -/
def BackupType.dirName : BackupType → Bytes
  | .incremental => cstr "incremental"
  | .differential => cstr "differential"

/-- `"%s/%s.backup/%s/"` -/
def backupPath (dirName fileName : Bytes) (kind : BackupType) : Bytes :=
  dirName ++ cstr "/" ++ fileName ++ cstr ".backup/" ++ kind.dirName ++ cstr "/"

/-- `"%s.full."` -/
def fullPrefix (fileName : Bytes) : Bytes := fileName ++ cstr ".full."

/-- `"%s.delta."` -/
def deltaPrefix (fileName : Bytes) : Bytes := fileName ++ cstr ".delta."

/-- `extract_file_name_timestamp` into a buffer of `size` bytes: what follows the
    last dot.  Without a dot the buffer is left uninitialised. -/
def extractFileNameTimestamp (size : ℕ) (fileName : Bytes) : Option Bytes :=
  if dot ∈ fileName then
    let t := fileName.rtakeWhile fun b => decide (b ≠ dot)
    if t.length < size then some t else none
  else none

/-! ## Directories -/

/-- The files of a directory. -/
abbrev Dir := AList fun _ : Bytes => Bytes

/-- `fopen(name, "wb")`, and `content` written to it. -/
def Dir.create (d : Dir) (name content : Bytes) : Option Dir :=
  if NameOk name then some (d.insert name content) else none

/-- The two directories of one kind of backup. -/
structure Store where
  full : Dir
  delta : Dir

/-- `read_sort_dir_files`: the names, in the order of their paths.  The array
    that takes them has `MAXBACKUPNUM` places. -/
def readSortDirFiles (dirName : Bytes) (d : Dir) : Option (List Bytes) :=
  if d.keys.length ≤ maxBackupNum then
    some (d.keys.mergeSort fun a b => decide (dirName ++ a ≤ dirName ++ b))
  else none

/-! ## `manage_backup_version` -/

/-- `update_incre_full_backup`: the full backup `full` and the delta `delta` make
    the full backup of the delta's version.  The new file is there before the old
    one is read. -/
def updateIncreFullBackup (deltaDir : Bytes) (s : Store) (full delta : Bytes) :
    Option (ℤ × Store) := do
  let newTimestamp ← extractFileNameTimestamp maxPathLen (deltaDir ++ delta)
  if dot ∈ full then
    let fileNameRow := full.takeWhile fun b => decide (b ≠ dot)
    let updated := fullPrefix fileNameRow ++ newTimestamp
    match s.full.create updated [] with
    | none => some (-1, s)
    | some created =>
      match s.delta.lookup delta, created.lookup full with
      | some d, some f => do
        let content ← applyDelta f d
        some (0, { s with full := created.insert updated content })
      | _, _ => some (-1, { s with full := created })
  else none

/-- How many deltas, from the oldest on, are not later than a full backup. -/
def staleDeltas (deltaDir fullTimestamp : Bytes) : List Bytes → Option ℕ
  | [] => some 0
  | f :: fs => do
    let t ← extractFileNameTimestamp maxPathLen (deltaDir ++ f)
    if t ≤ fullTimestamp then (staleDeltas deltaDir fullTimestamp fs).map (· + 1) else some 0

/-- The oldest full backup goes, with the deltas up to the next one; the number
    of these deltas. -/
def dropOldestFull (fullDir deltaDir : Bytes) (fulls deltas : List Bytes) (s : Store) :
    Option (Store × ℕ) := do
  let oldest ← fulls[0]?
  let next ← fulls[1]?
  let _ ← extractFileNameTimestamp maxPathLen (fullDir ++ oldest)
  let t ← extractFileNameTimestamp maxPathLen (fullDir ++ next)
  let i ← staleDeltas deltaDir t deltas
  some (⟨s.full.erase oldest, (deltas.take i).foldl (fun d f => d.erase f) s.delta⟩, i)

/-- The last part of `manage_backup_version`: delta `i` goes, merged into full
    backup `j` if the backups are incremental. -/
def dropOldestDelta (deltaDir : Bytes) (backupType : BackupType) (fulls deltas : List Bytes)
    (s : Store) (i j : ℕ) : Option Store := do
  let delta ← deltas[i]?
  match backupType with
  | .differential => some { s with delta := s.delta.erase delta }
  | .incremental =>
    let full ← fulls[j]?
    let r ← updateIncreFullBackup deltaDir s full delta
    some ⟨r.2.full.erase full, r.2.delta.erase delta⟩

/-- `manage_backup_version` on the store at `backupPath`; reading an entry beyond
    the last one is a failure. -/
def manageBackupVersion (backupPath : Bytes) (backupType : BackupType) (backupVersionNum : ℤ)
    (s : Store) : Option Store := do
  let fullDir := backupPath ++ cstr "full/"
  let deltaDir := backupPath ++ cstr "delta/"
  let fulls ← readSortDirFiles fullDir s.full
  let deltas ← readSortDirFiles deltaDir s.delta
  if fulls.length ≤ backupVersionNum ∧ deltas.length ≤ backupVersionNum then some s
  else
    let r ←
      if backupVersionNum < fulls.length then dropOldestFull fullDir deltaDir fulls deltas s
      else some (s, 0)
    if backupVersionNum < (deltas.length : ℤ) - r.2 then
      dropOldestDelta deltaDir backupType fulls deltas r.1 r.2
        (if backupVersionNum < fulls.length then 1 else 0)
    else some r.1

/-! ## Directories of versions -/

/-- The files of `d` are the entries of `l`, named `p` and the version. -/
structure Dir.Holds (p : Bytes) (d : Dir) (l : List (Bytes × Bytes)) : Prop where
  ascending : Ascending l
  noDot : ∀ e ∈ l, dot ∉ e.1
  lookup : ∀ name content, d.lookup name = some content ↔
    ∃ v, name = p ++ v ∧ (v, content) ∈ l

theorem append_le_append_iff {p a b : Bytes} : p ++ a ≤ p ++ b ↔ a ≤ b := by
  have hmono : StrictMono (p ++ · : Bytes → Bytes) := fun _ _ h => List.Lex.append_left _ h p
  exact hmono.le_iff_le

theorem rtakeWhile_dot {p v : Bytes} (hv : dot ∉ v) :
    (p ++ dot :: v).rtakeWhile (fun b => decide (b ≠ dot)) = v := by
  have hall : ∀ b ∈ v.reverse, decide (b ≠ dot) = true := by
    intro b hb
    rw [decide_eq_true_eq]
    rintro rfl
    exact hv (List.mem_reverse.1 hb)
  rw [List.rtakeWhile, List.reverse_append, List.reverse_cons, List.append_assoc,
    List.takeWhile_append_of_pos hall]
  simp

/-- The timestamp of a file name is its version. -/
theorem extract_version (size : ℕ) {p v : Bytes} (hv : dot ∉ v) :
    extractFileNameTimestamp size (p ++ dot :: v) = if v.length < size then some v else none := by
  rw [extractFileNameTimestamp, if_pos (by simp), rtakeWhile_dot hv]

namespace Dir.Holds

variable {p : Bytes} {d : Dir} {l : List (Bytes × Bytes)}

theorem mem_keys (h : Dir.Holds p d l) (name : Bytes) :
    name ∈ d.keys ↔ ∃ e ∈ l, name = p ++ e.1 := by
  rw [← AList.mem_keys, ← AList.lookup_isSome, Option.isSome_iff_exists]
  constructor
  · rintro ⟨c, hc⟩
    obtain ⟨v, hv, hmem⟩ := (h.lookup name c).1 hc
    exact ⟨_, hmem, hv⟩
  · rintro ⟨e, he, hname⟩
    exact ⟨e.2, (h.lookup name e.2).2 ⟨e.1, hname, he⟩⟩

/-- The names of the versions, in order. -/
def names (p : Bytes) (l : List (Bytes × Bytes)) : List Bytes := l.map fun e => p ++ e.1

theorem keys_perm (h : Dir.Holds p d l) : d.keys.Perm (names p l) := by
  refine (List.perm_ext_iff_of_nodup d.keys_nodup ?_).2 fun name => ?_
  · rw [names, ← Function.comp_def (p ++ ·) Prod.fst, ← List.map_map]
    exact h.ascending.nodup.map (List.append_right_injective p)
  · rw [h.mem_keys, names, List.mem_map]
    constructor
    · rintro ⟨e, he, rfl⟩; exact ⟨e, he, rfl⟩
    · rintro ⟨e, he, rfl⟩; exact ⟨e, he, rfl⟩

/-- **Listing a directory of versions** gives them in order. -/
theorem readSort (h : Dir.Holds p d l) (dirName : Bytes) :
    readSortDirFiles dirName d = if l.length ≤ maxBackupNum then some (names p l) else none := by
  have hlen : d.keys.length = l.length := by rw [h.keys_perm.length_eq, names, List.length_map]
  rw [readSortDirFiles, hlen]
  split_ifs
  · congr 1
    have hanti : ∀ a b : Bytes, dirName ++ a ≤ dirName ++ b → dirName ++ b ≤ dirName ++ a → a = b :=
      fun a b hab hba => List.append_right_injective dirName (le_antisymm hab hba)
    refine ((List.mergeSort_perm _ _).trans h.keys_perm).eq_of_pairwise (fun a b _ _ => hanti a b)
      ?_ ?_
    · refine (List.pairwise_mergeSort ?_ ?_ _).imp fun h => by simpa using h
      · intro a b c hab hbc
        simp only [decide_eq_true_eq] at hab hbc ⊢
        exact hab.trans hbc
      · intro a b
        simpa using le_total (dirName ++ a) (dirName ++ b)
    · refine List.pairwise_map.2 (h.ascending.imp fun hlt => ?_)
      rw [← List.append_assoc, ← List.append_assoc, append_le_append_iff]
      exact hlt.le
  · rfl

theorem lookup_of_mem (h : Dir.Holds p d l) {e : Bytes × Bytes} (he : e ∈ l) :
    AList.lookup (p ++ e.1) d = some e.2 :=
  (h.lookup _ _).2 ⟨e.1, rfl, he⟩

/-- A later version goes to the end. -/
theorem insert (h : Dir.Holds p d l) {v c : Bytes} (hv : dot ∉ v) (hlt : ∀ e ∈ l, e.1 < v) :
    Dir.Holds p (AList.insert (p ++ v) c d) (l ++ [(v, c)]) := by
  refine ⟨?_, ?_, fun name content => ?_⟩
  · exact List.pairwise_append.2 ⟨h.ascending, List.pairwise_singleton _ _, fun a ha b hb => by
      rw [List.mem_singleton.1 hb]
      exact hlt a ha⟩
  · intro e he
    rcases List.mem_append.1 he with he | he
    · exact h.noDot e he
    · rw [List.mem_singleton.1 he]
      exact hv
  · by_cases hname : name = p ++ v
    · subst hname
      rw [AList.lookup_insert]
      constructor
      · rintro ⟨⟩
        exact ⟨v, rfl, by simp⟩
      · rintro ⟨v', hv', hmem⟩
        obtain rfl := List.append_cancel_left hv'
        rcases List.mem_append.1 hmem with hmem | hmem
        · exact absurd (hlt _ hmem) (lt_irrefl _)
        · rw [(Prod.mk.inj (List.mem_singleton.1 hmem)).2]
    · rw [AList.lookup_insert_ne hname, h.lookup]
      constructor
      · rintro ⟨v', hv', hmem⟩
        exact ⟨v', hv', by simp [hmem]⟩
      · rintro ⟨v', rfl, hmem⟩
        refine ⟨v', rfl, ?_⟩
        rcases List.mem_append.1 hmem with hmem | hmem
        · exact hmem
        · rw [(Prod.mk.inj (List.mem_singleton.1 hmem)).1] at hname
          exact absurd rfl hname

/-- The oldest version goes from the front. -/
theorem erase {e : Bytes × Bytes} (h : Dir.Holds p d (e :: l)) :
    Dir.Holds p (AList.erase (p ++ e.1) d) l := by
  obtain ⟨hlt, hasc⟩ := List.pairwise_cons.1 h.ascending
  refine ⟨hasc, fun e' he' => h.noDot e' (by simp [he']), fun name content => ?_⟩
  by_cases hname : name = p ++ e.1
  · subst hname
    rw [AList.lookup_erase]
    constructor
    · rintro ⟨⟩
    · rintro ⟨v, hv, hmem⟩
      obtain rfl := List.append_cancel_left hv
      exact absurd (hlt _ hmem) (lt_irrefl _)
  · rw [AList.lookup_erase_ne hname, h.lookup]
    constructor
    · rintro ⟨v, rfl, hmem⟩
      refine ⟨v, rfl, ?_⟩
      rcases List.mem_cons.1 hmem with rfl | hmem
      · exact absurd rfl hname
      · exact hmem
    · rintro ⟨v, rfl, hmem⟩
      exact ⟨v, rfl, by simp [hmem]⟩

theorem empty (p : Bytes) : Dir.Holds p ∅ [] :=
  ⟨List.Pairwise.nil, by simp, by simp⟩

end Dir.Holds

/-! ## Retention with one full backup -/

theorem fullPrefix_eq (fileName : Bytes) :
    fullPrefix fileName = fileName ++ cstr ".full" ++ [dot] := by
  rw [fullPrefix, List.append_assoc, show cstr ".full." = cstr ".full" ++ [dot] by decide]

theorem deltaPrefix_eq (fileName : Bytes) :
    deltaPrefix fileName = fileName ++ cstr ".delta" ++ [dot] := by
  rw [deltaPrefix, List.append_assoc, show cstr ".delta." = cstr ".delta" ++ [dot] by decide]

/-- The timestamp in a path that ends in a prefix and a version. -/
theorem extract_prefix {size : ℕ} {dirName p q v : Bytes} (hp : p = q ++ [dot]) (hv : dot ∉ v) :
    extractFileNameTimestamp size (dirName ++ (p ++ v)) =
      if v.length < size then some v else none := by
  rw [hp, List.append_assoc, List.singleton_append, ← List.append_assoc, extract_version size hv]

/-- The name of a file without dots, out of the name of a full backup. -/
theorem takeWhile_fullName {fileName : Bytes} (hf : dot ∉ fileName) (v : Bytes) :
    (fullPrefix fileName ++ v).takeWhile (fun b => decide (b ≠ dot)) = fileName := by
  have hall : ∀ b ∈ fileName, decide (b ≠ dot) = true := by
    intro b hb
    rw [decide_eq_true_eq]
    rintro rfl
    exact hf hb
  rw [fullPrefix, show cstr ".full." = dot :: cstr "full." by decide, List.append_assoc,
    List.takeWhile_append_of_pos hall]
  simp

section Retention

variable {path fileName : Bytes} {s : Store} {f c : Bytes} {dl : List (Bytes × Bytes)} {N : ℤ}

/-- What `manage_backup_version` reads off a store with one full backup. -/
theorem manage_oneFull (hfull : s.full.Holds (fullPrefix fileName) [(f, c)])
    (hdelta : s.delta.Holds (deltaPrefix fileName) dl) (hN : 1 ≤ N) (kind : BackupType) :
    manageBackupVersion path kind N s =
      if maxBackupNum < dl.length then none
      else if dl.length ≤ N then some s
      else dropOldestDelta (path ++ cstr "delta/") kind [fullPrefix fileName ++ f]
        (Dir.Holds.names (deltaPrefix fileName) dl) s 0 0 := by
  have hlen : (Dir.Holds.names (deltaPrefix fileName) dl).length = dl.length := by
    simp [Dir.Holds.names]
  rw [manageBackupVersion, hfull.readSort, hdelta.readSort]
  simp only [List.length_singleton, show (1 : ℕ) ≤ maxBackupNum by norm_num, if_true,
    Option.bind_eq_bind, Option.bind_some]
  by_cases hmax : maxBackupNum < dl.length
  · rw [if_pos hmax, if_neg (by omega), Option.bind_none]
  rw [if_neg hmax, if_pos (by omega), Option.bind_some, hlen]
  simp only [Dir.Holds.names, List.map_cons, List.map_nil, List.length_singleton, Nat.cast_one, hN,
    true_and]
  split_ifs <;> first | rfl | omega

variable {v d : Bytes}

/-- The oldest delta of a differential store goes. -/
theorem dropOldestDelta_differential (hdelta : s.delta.Holds (deltaPrefix fileName) ((v, d) :: dl))
    (path : Bytes) (fulls : List Bytes) :
    dropOldestDelta path .differential fulls (Dir.Holds.names (deltaPrefix fileName) ((v, d) :: dl))
        s 0 0 = some { s with delta := s.delta.erase (deltaPrefix fileName ++ v) } ∧
      Dir.Holds (deltaPrefix fileName) (AList.erase (deltaPrefix fileName ++ v) s.delta) dl :=
  ⟨rfl, hdelta.erase⟩

/-- **The oldest delta of an incremental store is merged into the full backup.** -/
theorem dropOldestDelta_incremental (hfile : dot ∉ fileName)
    (hfull : s.full.Holds (fullPrefix fileName) [(f, c)])
    (hdelta : s.delta.Holds (deltaPrefix fileName) ((v, d) :: dl)) (path : Bytes) (hlt : f < v)
    (hname : NameOk (fullPrefix fileName ++ v)) {c' : Bytes} (hc : applyDelta c d = some c') :
    ∃ s', dropOldestDelta path .incremental [fullPrefix fileName ++ f]
        (Dir.Holds.names (deltaPrefix fileName) ((v, d) :: dl)) s 0 0 = some s' ∧
      s'.full.Holds (fullPrefix fileName) [(v, c')] ∧ s'.delta.Holds (deltaPrefix fileName) dl := by
  have hv := hdelta.noDot _ (List.mem_cons_self ..)
  have hvlen : v.length < maxPathLen := by
    have := hname.1
    rw [List.length_append] at this
    simp only [maxPathLen]
    omega
  have hne : fullPrefix fileName ++ f ≠ fullPrefix fileName ++ v := fun h =>
    hlt.ne (List.append_cancel_left h)
  have hdot : dot ∈ fullPrefix fileName ++ f := by simp [fullPrefix_eq]
  have hcreate : ∀ content, Dir.create s.full (fullPrefix fileName ++ v) content =
      some (s.full.insert (fullPrefix fileName ++ v) content) := fun content => if_pos hname
  have hd := hdelta.lookup_of_mem (List.mem_cons_self ..)
  have hf : AList.lookup (fullPrefix fileName ++ f)
      (AList.insert (fullPrefix fileName ++ v) [] s.full) = some c := by
    rw [AList.lookup_insert_ne hne]
    exact hfull.lookup_of_mem (List.mem_cons_self ..)
  refine ⟨⟨AList.erase (fullPrefix fileName ++ f) (AList.insert (fullPrefix fileName ++ v) c'
    (AList.insert (fullPrefix fileName ++ v) [] s.full)),
    AList.erase (deltaPrefix fileName ++ v) s.delta⟩, ?_, ?_, hdelta.erase⟩
  · simp only [dropOldestDelta, Dir.Holds.names, List.map_cons, List.getElem?_cons_zero,
      Option.bind_eq_bind, Option.bind_some, updateIncreFullBackup,
      extract_prefix (deltaPrefix_eq fileName) hv, hvlen, if_true, hdot,
      takeWhile_fullName hfile, hcreate, hd, hf, hc]
  · rw [AList.insert_insert]
    have := (hfull.insert hv (by simpa using hlt) (c := c')).erase
    simpa using this

end Retention

end CloudEdgeBackup
