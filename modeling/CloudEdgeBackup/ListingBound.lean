/-
  The room for the names of a directory: `read_sort_dir_files` writes them to an array of
  `MAXBACKUPNUM` entries.

  * `ListingCall` are the calls over any run of backups: those of `decide_recovery_type` and
    `find_newest_full_backup`, which come between two passes, and those of
    `manage_backup_version`, which come before it has made room for the new version;
  * a pass puts at most one file more into a directory (`managed_grows`), and managing takes one
    away where there are too many (`manage_keys`);
  * `listing_fits_iff`: the array is long enough for the runs with up to `n` versions exactly if
    `n` is below `MAXBACKUPNUM`.
-/
import CloudEdgeBackup.Retention

namespace CloudEdgeBackup

/-! ## The calls -/

/-- `find_newest_full_backup`: -1 and 1 are its errors; `there` is `access` of the directory. -/
def findNewestFullBackup (dirName fileName : Bytes) (b : Backups) (there : Bool) :
    Option (ℤ × Option Bytes) :=
  if !there then some (1, none)
  else do
    let files ← readSortDirFiles (fullDir dirName fileName .differential) b.differential.full
    match files.getLast? with
    | none => some (-1, none)
    | some newest => some (0, some newest)

/-- The world in which a pass calls `manage_backup_version`. -/
def managed (sumEnd : Bytes → Bytes) (o : RunOpts) (w : World) (r : Request) : Option World :=
  match r.fate with
  | .skipped => none
  | .unopened => none
  | .received dirMade finish => do
    let i ← receiveFile sumEnd o w r dirMade finish
    if !o.backup then none
    else if i.2.1.fullDue o then (copyFull o i.2.1 r.fname).map Prod.snd
    else some i.2.1

/-- The worlds that runs lead to, process after process; their passes satisfy `P`. -/
inductive BackupRun (sumEnd : Bytes → Bytes) (P : RunOpts → World → Request → Prop) : World → Prop
  | start (files : Bytes → Option Bytes) :
    BackupRun sumEnd P (.begin files fun _ => ⟨⟨∅, ∅⟩, ⟨∅, ∅⟩⟩)
  | process {w : World} (files : Bytes → Option Bytes) :
    BackupRun sumEnd P w → BackupRun sumEnd P (.begin files w.backups)
  | pass {w : World} {o : RunOpts} {r : Request} {p : Pass} :
    BackupRun sumEnd P w → P o w r → recvFile sumEnd o w r = some p → BackupRun sumEnd P p.world

/-- The directories that are listed in the course of the runs. -/
inductive ListingCall (sumEnd : Bytes → Bytes) (P : RunOpts → World → Request → Prop) :
    Bytes → Dir → Prop
  | decideFull {w : World} (kind : BackupType) (fname : Bytes) : BackupRun sumEnd P w →
    ListingCall sumEnd P (fullDir (dirNameOf fname) (fileNameOf fname) kind) (w.store kind fname).full
  | decideDelta {w : World} (kind : BackupType) (fname : Bytes) : BackupRun sumEnd P w →
    ListingCall sumEnd P (deltaDir (dirNameOf fname) (fileNameOf fname) kind) (w.store kind fname).delta
  | newestFull {w : World} (fname : Bytes) : BackupRun sumEnd P w →
    ListingCall sumEnd P (fullDir (dirNameOf fname) (fileNameOf fname) .differential)
      (w.store .differential fname).full
  | manageFull {w w' : World} {o : RunOpts} {r : Request} : BackupRun sumEnd P w → P o w r →
    managed sumEnd o w r = some w' →
    ListingCall sumEnd P (fullDir (dirNameOf r.fname) (fileNameOf r.fname) o.backupType)
      (w'.store o.backupType r.fname).full
  | manageDelta {w w' : World} {o : RunOpts} {r : Request} : BackupRun sumEnd P w → P o w r →
    managed sumEnd o w r = some w' →
    ListingCall sumEnd P (deltaDir (dirNameOf r.fname) (fileNameOf r.fname) o.backupType)
      (w'.store o.backupType r.fname).delta

/-- A pass with up to `n` versions to keep, in which no data are discarded into a delta. -/
structure Completed (n : ℤ) (o : RunOpts) (w : World) (r : Request) : Prop where
  num : o.backup = true → o.backupVersionNum ≤ n
  ends : (∃ dirMade finish, r.fate = .received dirMade finish) ∨ Undisturbed o w r

theorem readSortDirFiles_isSome (dirName : Bytes) (d : Dir) :
    (readSortDirFiles dirName d).isSome = true ↔ d.keys.length ≤ maxBackupNum := by
  rw [readSortDirFiles]
  split_ifs with h <;> simp [h]

theorem findNewestFullBackup_isSome (dirName fileName : Bytes) (b : Backups) :
    (findNewestFullBackup dirName fileName b true).isSome =
      (readSortDirFiles (fullDir dirName fileName .differential) b.differential.full).isSome := by
  rw [findNewestFullBackup]
  cases readSortDirFiles (fullDir dirName fileName .differential) b.differential.full with
  | none => rfl
  | some files =>
    simp only [Bool.not_true, Bool.false_eq_true, if_false, Option.bind_eq_bind, Option.bind_some]
    cases files.getLast? with
    | none => rfl
    | some newest => rfl

/-! ## Keys of an association list -/

section Keys

variable {α : Type*} {β : α → Type*} [DecidableEq α] {d : AList β} {name x : α}

theorem length_keys_insert (d : AList β) (name : α) (content : β name) :
    (d.insert name content).keys.length ≤ d.keys.length + 1 := by
  rw [AList.keys_insert, List.length_cons]
  exact Nat.succ_le_succ List.length_erase_le

theorem length_keys_insert_mem (h : name ∈ d.keys) (content : β name) :
    (d.insert name content).keys.length = d.keys.length := by
  have hpos : 0 < d.keys.length := List.length_pos_of_mem h
  rw [AList.keys_insert, List.length_cons, List.length_erase_of_mem h]
  omega

theorem mem_keys_insert (h : x ∈ d.keys) (name : α) (content : β name) :
    x ∈ (d.insert name content).keys :=
  AList.mem_keys.1 ((AList.mem_insert d).2 (.inr (AList.mem_keys.2 h)))

theorem mem_keys_insert_self (d : AList β) (name : α) (content : β name) :
    name ∈ (d.insert name content).keys :=
  AList.mem_keys.1 ((AList.mem_insert d).2 (.inl rfl))

theorem length_keys_erase (h : name ∈ d.keys) : (d.erase name).keys.length + 1 = d.keys.length := by
  have hpos : 0 < d.keys.length := List.length_pos_of_mem h
  rw [AList.keys_erase, List.length_erase_of_mem h]
  omega

theorem mem_keys_erase (hne : x ≠ name) (h : x ∈ d.keys) : x ∈ (d.erase name).keys := by
  rw [AList.keys_erase]
  exact (List.mem_erase_of_ne hne).2 h

theorem mem_keys_foldl_erase : ∀ {names : List α} {d : AList β}, x ∉ names → x ∈ d.keys →
    x ∈ (names.foldl (fun d f => d.erase f) d).keys
  | [], _, _, h => h
  | f :: names, d, hx, h => by
    rw [List.mem_cons, not_or] at hx
    rw [List.foldl_cons]
    exact mem_keys_foldl_erase hx.2 (mem_keys_erase hx.1 h)

/-- Erasing names that are there, each once. -/
theorem length_keys_foldl_erase : ∀ {names : List α} {d : AList β}, names.Nodup →
    (∀ x ∈ names, x ∈ d.keys) →
    (names.foldl (fun d f => d.erase f) d).keys.length + names.length = d.keys.length
  | [], _, _, _ => rfl
  | f :: names, d, hnodup, hmem => by
    obtain ⟨hf, hnodup⟩ := List.nodup_cons.1 hnodup
    have hrest : ∀ x ∈ names, x ∈ (d.erase f).keys := fun x hx =>
      mem_keys_erase (fun heq => hf (heq ▸ hx)) (hmem x (List.mem_cons_of_mem _ hx))
    have ih := length_keys_foldl_erase hnodup hrest
    have hone := length_keys_erase (hmem f List.mem_cons_self)
    rw [List.foldl_cons, List.length_cons]
    omega

end Keys

theorem length_keys_create {d d' : Dir} {name content : Bytes} (h : d.create name content = some d') :
    d'.keys.length ≤ d.keys.length + 1 := by
  rw [Dir.create] at h
  split_ifs at h
  rw [← Option.some.inj h]
  exact length_keys_insert d name content

/-- A list that was read has every name once. -/
theorem readSort_perm {d : Dir} {dirName : Bytes} {names : List Bytes}
    (h : readSortDirFiles dirName d = some names) : names.Perm d.keys := by
  rw [readSortDirFiles] at h
  split_ifs at h
  rw [← Option.some.inj h]
  exact List.mergeSort_perm _ _

/-! ## Managing a store -/

section Manage

variable {s s' : Store} {N : ℤ} {kind : BackupType} {path : Bytes}

/-- Merging a delta into a full backup makes at most one new file. -/
theorem updateIncre_keys {deltaDir full delta : Bytes} {r : ℤ × Store}
    (h : updateIncreFullBackup deltaDir s full delta = some r) :
    r.2.delta = s.delta ∧ r.2.full.keys.length ≤ s.full.keys.length + 1 ∧
      ∀ x ∈ s.full.keys, x ∈ r.2.full.keys := by
  obtain ⟨t, -, h⟩ := Option.bind_eq_some_iff.1 h
  split_ifs at h with hdot
  have hcreate := h
  simp only [Dir.create] at h
  split_ifs at h with hname
  · dsimp only at h
    have hlen := length_keys_insert s.full (fullPrefix (full.takeWhile fun b => decide (b ≠ dot)) ++ t) []
    have hself := mem_keys_insert_self s.full (fullPrefix (full.takeWhile fun b => decide (b ≠ dot)) ++ t) []
    split at h
    · obtain ⟨content, -, h⟩ := Option.bind_eq_some_iff.1 h
      rw [← Option.some.inj h]
      refine ⟨rfl, (length_keys_insert_mem hself content).trans_le hlen, fun x hx => ?_⟩
      exact mem_keys_insert (mem_keys_insert hx _ _) _ _
    · rw [← Option.some.inj h]
      exact ⟨rfl, hlen, fun x hx => mem_keys_insert hx _ _⟩
  · rw [← Option.some.inj h]
    exact ⟨rfl, Nat.le_succ _, fun _ hx => hx⟩

/-- The oldest full backup is gone, and the deltas up to the next one. -/
theorem dropOldestFull_keys {fullDir deltaDir : Bytes} {fulls deltas : List Bytes} {r : Store × ℕ}
    (hfulls : fulls.Perm s.full.keys) (hdeltas : deltas.Perm s.delta.keys)
    (h : dropOldestFull fullDir deltaDir fulls deltas s = some r) :
    r.1.full.keys.length + 1 = s.full.keys.length ∧
      r.1.delta.keys.length + (deltas.take r.2).length = s.delta.keys.length ∧
      (∀ x ∈ deltas.drop r.2, x ∈ r.1.delta.keys) ∧ ∀ x ∈ fulls.tail, x ∈ r.1.full.keys := by
  obtain ⟨oldest, holdest, h⟩ := Option.bind_eq_some_iff.1 h
  obtain ⟨next, -, h⟩ := Option.bind_eq_some_iff.1 h
  obtain ⟨-, -, h⟩ := Option.bind_eq_some_iff.1 h
  obtain ⟨t, -, h⟩ := Option.bind_eq_some_iff.1 h
  obtain ⟨i, -, h⟩ := Option.bind_eq_some_iff.1 h
  rw [← Option.some.inj h]
  have hnodup : deltas.Nodup := hdeltas.nodup_iff.2 s.delta.keys_nodup
  refine ⟨length_keys_erase (hfulls.subset (List.mem_of_getElem? holdest)),
    length_keys_foldl_erase (hnodup.sublist (List.take_sublist _ _)) fun x hx =>
      hdeltas.subset (List.mem_of_mem_take hx), ?_, ?_⟩
  · intro x hx
    refine mem_keys_foldl_erase (fun htake => ?_) (hdeltas.subset (List.mem_of_mem_drop hx))
    rw [← List.take_append_drop i deltas, List.nodup_append'] at hnodup
    exact hnodup.2.2 htake hx
  · intro x hx
    cases fulls with
    | nil => exact absurd hx List.not_mem_nil
    | cons f fulls =>
      obtain rfl : f = oldest := Option.some.inj holdest
      have hf := (List.nodup_cons.1 (hfulls.nodup_iff.2 s.full.keys_nodup)).1
      exact mem_keys_erase (fun heq => hf (heq ▸ hx)) (hfulls.subset (List.mem_cons_of_mem _ hx))

/-- The oldest delta is gone, and there are no more full backups than before. -/
theorem dropOldestDelta_keys {deltaDir : Bytes} {fulls deltas : List Bytes} {i j : ℕ}
    (hdeltas : ∀ x ∈ deltas.drop i, x ∈ s.delta.keys) (hfulls : ∀ x ∈ fulls.drop j, x ∈ s.full.keys)
    (h : dropOldestDelta deltaDir kind fulls deltas s i j = some s') :
    s'.full.keys.length ≤ s.full.keys.length ∧ s'.delta.keys.length + 1 = s.delta.keys.length := by
  have hmem : ∀ {l : List Bytes} {k : ℕ} {x : Bytes}, l[k]? = some x → x ∈ l.drop k := by
    intro l k x hx
    refine List.mem_of_getElem? (i := 0) ?_
    rw [List.getElem?_drop, Nat.add_zero, hx]
  obtain ⟨delta, hdelta, h⟩ := Option.bind_eq_some_iff.1 h
  cases kind with
  | differential =>
    dsimp only at h
    rw [← Option.some.inj h]
    exact ⟨le_rfl, length_keys_erase (hdeltas _ (hmem hdelta))⟩
  | incremental =>
    obtain ⟨full, hfull, h⟩ := Option.bind_eq_some_iff.1 h
    obtain ⟨r, hr, h⟩ := Option.bind_eq_some_iff.1 h
    obtain ⟨hsame, hlen, hkept⟩ := updateIncre_keys hr
    rw [← Option.some.inj h]
    have herase := length_keys_erase (hkept full (hfulls _ (hmem hfull)))
    refine ⟨?_, ?_⟩
    · dsimp only
      omega
    · dsimp only
      rw [hsame]
      exact length_keys_erase (hdeltas _ (hmem hdelta))

/-- **Managing takes one away where there are too many.** -/
theorem manage_keys (h : manageBackupVersion path kind N s = some s') :
    (s'.full.keys.length ≤ N ∨ s'.full.keys.length ≤ s.full.keys.length - 1) ∧
      (s'.delta.keys.length ≤ N ∨ s'.delta.keys.length ≤ s.delta.keys.length - 1) := by
  obtain ⟨fulls, hfulls, h⟩ := Option.bind_eq_some_iff.1 h
  obtain ⟨deltas, hdeltas, h⟩ := Option.bind_eq_some_iff.1 h
  have hf := readSort_perm hfulls
  have hd := readSort_perm hdeltas
  have hflen := hf.length_eq
  have hdlen := hd.length_eq
  by_cases hfew : fulls.length ≤ N ∧ deltas.length ≤ N
  · rw [if_pos hfew] at h
    rw [← Option.some.inj h]
    omega
  rw [if_neg hfew] at h
  by_cases hmany : N < fulls.length
  · simp only [if_pos hmany] at h
    obtain ⟨r, hr, h⟩ := Option.bind_eq_some_iff.1 h
    obtain ⟨hfull, hdelta, hleft, htail⟩ := dropOldestFull_keys hf hd hr
    rw [List.length_take] at hdelta
    split_ifs at h with hmore
    · obtain ⟨hfull', hdelta'⟩ := dropOldestDelta_keys hleft
        (fun x hx => htail x (by rwa [List.drop_one] at hx)) h
      omega
    · rw [← Option.some.inj h]
      omega
  · simp only [if_neg hmany, Option.bind_eq_bind, Option.bind_some] at h
    split_ifs at h with hmore
    · obtain ⟨hfull', hdelta'⟩ := dropOldestDelta_keys (fun x hx => hd.subset (List.mem_of_mem_drop hx))
        (fun x hx => hf.subset (List.mem_of_mem_drop hx)) h
      omega
    · rw [← Option.some.inj h]
      omega

end Manage

/-! ## A pass -/

section Pass

variable {sumEnd : Bytes → Bytes} {o : RunOpts} {w w' : World} {r : Request} {p : Pass}

/-- At most one file more in each directory of a store, and no other store is touched. -/
structure Grows (kind : BackupType) (fname : Bytes) (w w' : World) : Prop where
  full : (w'.store kind fname).full.keys.length ≤ (w.store kind fname).full.keys.length + 1
  delta : (w'.store kind fname).delta.keys.length ≤ (w.store kind fname).delta.keys.length + 1
  others : ∀ kind' fname', ¬(fname' = fname ∧ kind' = kind) → w'.store kind' fname' = w.store kind' fname'

theorem store_eq_of_backups (h : w'.backups = w.backups) (kind : BackupType) (fname : Bytes) :
    w'.store kind fname = w.store kind fname := by
  rw [World.store, h, World.store]

/-- A delta is recorded for the file that was set up. -/
theorem receiveInto_grows {a : Recv} {d : Received × World} {fname : Bytes}
    (hfname : w.deltaBackup = some fname) (h : receiveInto sumEnd o w a r = some d) :
    (d.2.store o.backupType fname).full = (w.store o.backupType fname).full ∧
      (d.2.store o.backupType fname).delta.keys.length ≤ (w.store o.backupType fname).delta.keys.length + 1 ∧
      ∀ kind' fname', ¬(fname' = fname ∧ kind' = o.backupType) →
        d.2.store kind' fname' = w.store kind' fname' := by
  cases hdelta : d.1.delta with
  | none =>
    have hsame := store_eq_of_backups ((receiveInto_eq h).2.2 hdelta)
    refine ⟨by rw [hsame], ?_, fun kind' fname' _ => hsame kind' fname'⟩
    rw [hsame]
    exact Nat.le_succ _
  | some delta =>
    obtain ⟨f, hf, hrec⟩ := receiveInto_recorded h hdelta
    obtain rfl : f = fname := Option.some.inj (hf.symm.trans hfname)
    have hsame := store_eq_of_backups hrec
    refine ⟨?_, ?_, fun kind' fname' hne => ?_⟩
    · rw [hsame, store_setStore, if_pos ⟨rfl, rfl⟩]
    · rw [hsame, store_setStore, if_pos ⟨rfl, rfl⟩]
      exact length_keys_insert _ _ _
    · rw [hsame, store_setStore, if_neg hne]

/-- **What a pass puts into the store before it is managed.** -/
theorem managed_grows (h : managed sumEnd o w r = some w') : o.backup = true ∧ Grows o.backupType r.fname w w' := by
  cases hfate : r.fate with
  | skipped => simp [managed, hfate] at h
  | unopened => simp [managed, hfate] at h
  | received dirMade finish =>
    simp only [managed, hfate] at h
    obtain ⟨i, hi, h⟩ := Option.bind_eq_some_iff.1 h
    cases hb : o.backup with
    | false => simp [hb] at h
    | true =>
      simp only [hb, Bool.not_true, Bool.false_eq_true, if_false] at h
      obtain ⟨cmp, d, -, hd, -, hi⟩ := receiveFile_eq hi
      have hset : (setUp o w r.fname).deltaBackup = some r.fname := by rw [setUp, if_pos hb]
      obtain ⟨hfull, hdelta, hothers⟩ := receiveInto_grows hset hd
      have hinst : i.2.1.backups = d.2.backups := by
        rw [hi]
        exact (install_stores _ _ _ _).backups
      have hup := store_eq_of_backups (@setUp_backups o w r.fname)
      have hi' := store_eq_of_backups hinst
      have hgrows : Grows o.backupType r.fname w i.2.1 := by
        refine ⟨?_, ?_, fun kind' fname' hne => ?_⟩
        · rw [hi', hfull, hup]
          exact Nat.le_succ _
        · rw [hi', ← hup]
          exact hdelta
        · rw [hi', hothers _ _ hne, hup]
      refine ⟨rfl, ?_⟩
      split_ifs at h with hdue
      · obtain ⟨c, hc, rfl⟩ := Option.map_eq_some_iff.1 h
        obtain ⟨content, -, hc⟩ := Option.bind_eq_some_iff.1 hc
        obtain ⟨fulls, hfulls, hc⟩ := Option.bind_eq_some_iff.1 hc
        rw [← Option.some.inj hc]
        refine ⟨?_, ?_, fun kind' fname' hne => ?_⟩
        · rw [store_setStore, if_pos ⟨rfl, rfl⟩]
          refine (length_keys_create hfulls).trans (Nat.succ_le_succ ?_)
          rw [hi', hfull, hup]
        · rw [store_setStore, if_pos ⟨rfl, rfl⟩]
          exact hgrows.delta
        · rw [store_setStore, if_neg hne]
          exact hgrows.others _ _ hne
      · rwa [← Option.some.inj h]

/-- A pass that ends has managed the store, in a backup. -/
theorem recvFile_managed (hb : o.backup = true) {dirMade : Bool} {finish : Finish}
    (hfate : r.fate = .received dirMade finish) (h : recvFile sumEnd o w r = some p) :
    ∃ w', managed sumEnd o w r = some w' ∧ manage o w' r.fname = some p.world := by
  obtain ⟨i, hi, -, -, hk⟩ := recvFile_received hfate h
  simp only [managed, hfate, hi, hb, Option.bind_eq_bind, Option.bind_some, Bool.not_true, Bool.false_eq_true,
    if_false]
  rw [keepVersions, if_pos hb] at hk
  by_cases hdue : i.2.1.fullDue o = true
  · rw [if_pos hdue] at hk ⊢
    obtain ⟨c, hc, hk⟩ := Option.bind_eq_some_iff.1 hk
    obtain ⟨w', hw', hk⟩ := Option.bind_eq_some_iff.1 hk
    refine ⟨c.2, by rw [hc, Option.map_some], ?_⟩
    rw [hw', (Prod.mk.inj (Option.some.inj hk)).2]
  · rw [if_neg hdue] at hk ⊢
    obtain ⟨w', hw', hk⟩ := Option.bind_eq_some_iff.1 hk
    refine ⟨i.2.1, rfl, ?_⟩
    rw [hw', (Prod.mk.inj (Option.some.inj hk)).2]

end Pass

/-! ## Over the runs -/

section Runs

variable {sumEnd : Bytes → Bytes} {o : RunOpts} {w w' : World} {r : Request} {p : Pass} {n : ℤ}

/-- Every directory has room for one entry more. -/
def HasRoom (w : World) : Prop :=
  ∀ kind fname, (w.store kind fname).full.keys.length < maxBackupNum ∧
    (w.store kind fname).delta.keys.length < maxBackupNum

theorem HasRoom.of_backups (h : HasRoom w) (heq : w'.backups = w.backups) : HasRoom w' := by
  intro kind fname
  rw [store_eq_of_backups heq]
  exact h kind fname

/-- **A completed pass leaves room for one entry more.** -/
theorem hasRoom_recvFile (hw : HasRoom w) (hn : n < maxBackupNum) (hpass : Completed n o w r)
    (h : recvFile sumEnd o w r = some p) : HasRoom p.world := by
  rcases hpass.ends with ⟨dirMade, finish, hfate⟩ | hundisturbed
  swap
  · exact hw.of_backups (hundisturbed.backups_eq h)
  cases hb : o.backup with
  | true =>
    obtain ⟨w', hw', hmanage⟩ := recvFile_managed hb hfate h
    have hgrows := (managed_grows hw').2
    obtain ⟨s, hs, hworld⟩ := Option.bind_eq_some_iff.1 hmanage
    rw [← Option.some.inj hworld]
    intro kind fname
    rw [store_setStore]
    split_ifs with hsame
    · obtain ⟨hfull, hdelta⟩ := manage_keys hs
      have hnum := hpass.num hb
      have hroom := hw o.backupType r.fname
      have := hgrows.full
      have := hgrows.delta
      omega
    · rw [hgrows.others _ _ hsame]
      exact hw kind fname
  | false =>
    obtain ⟨i, hi, -, -, hk⟩ := recvFile_received hfate h
    obtain ⟨cmp, d, -, hd, -, hi⟩ := receiveFile_eq hi
    rw [keepVersions, hb, if_neg Bool.false_ne_true] at hk
    rw [← (Prod.mk.inj (Option.some.inj hk)).2, hi]
    have hrec : (recvOf o (setUp o w r.fname) r cmp).record = false := by
      show (setUp o w r.fname).records o = false
      rw [World.records, hb, Bool.false_and]
    exact hw.of_backups ((install_stores _ _ _ _).backups.trans
      ((receiveInto_unrecorded hd hrec).trans (setUp_backups _)))

/-- Over any run of completed passes. -/
theorem BackupRun.hasRoom (hn : n < maxBackupNum) (h : BackupRun sumEnd (Completed n) w) : HasRoom w := by
  induction h with
  | start files =>
    intro kind fname
    cases kind <;> exact ⟨show 0 < maxBackupNum by decide, show 0 < maxBackupNum by decide⟩
  | process files _ ih => exact ih.of_backups rfl
  | pass _ hpass hp ih => exact hasRoom_recvFile ih hn hpass hp

/-- Every list that is read has room. -/
theorem ListingCall.fits (hn : n < maxBackupNum) {dirName : Bytes} {d : Dir}
    (h : ListingCall sumEnd (Completed n) dirName d) : d.keys.length ≤ maxBackupNum := by
  cases h with
  | decideFull kind fname hrun => exact (hrun.hasRoom hn kind fname).1.le
  | decideDelta kind fname hrun => exact (hrun.hasRoom hn kind fname).2.le
  | newestFull fname hrun => exact (hrun.hasRoom hn .differential fname).1.le
  | manageFull hrun _ hmanaged =>
    exact (managed_grows hmanaged).2.full.trans (hrun.hasRoom hn _ _).1
  | manageDelta hrun _ hmanaged =>
    exact (managed_grows hmanaged).2.delta.trans (hrun.hasRoom hn _ _).2

end Runs

/-! ## A run that fills a directory -/

section Fill

variable {sumEnd : Bytes → Bytes} {o : RunOpts} {w : World} {r : Request} {dest : Bytes} {n : ℤ} {k : ℕ}

/-- Where as many versions are kept as a list has room for, a store is left as it is. -/
theorem manage_few {s : Store} {N : ℤ} (kind : BackupType) (path : Bytes)
    (hfull : s.full.keys.length ≤ maxBackupNum) (hdelta : s.delta.keys.length ≤ maxBackupNum)
    (hN : maxBackupNum ≤ N) :
    manageBackupVersion path kind N s = some s := by
  simp only [manageBackupVersion, readSortDirFiles, if_pos hfull, if_pos hdelta, Option.bind_eq_bind,
    Option.bind_some, List.length_mergeSort]
  rw [if_pos ⟨(Nat.cast_le.2 hfull).trans hN, (Nat.cast_le.2 hdelta).trans hN⟩]

/-- A later delta pass has its delta in the store when it manages it. -/
theorem managed_later (h : DeltaPass o r dest) (hdest : (w.files r.fname).getD [] = dest)
    (sumEnd : Bytes → Bytes) (hfull : w.hasFull o r.fname = true) (hname : NameOk (deltaName o r.fname)) :
    ∃ delta w', managed sumEnd o w r = some w' ∧ w'.store o.backupType r.fname =
      { w.store o.backupType r.fname with
        delta := (w.store o.backupType r.fname).delta.insert (deltaName o r.fname) delta } := by
  obtain ⟨isBackup, hcmp⟩ := h.basis
  obtain ⟨dirMade, hfate⟩ := h.received
  obtain ⟨res, hres, -, hdelta, -⟩ := h.receive hdest sumEnd hcmp
  obtain ⟨delta, hsome⟩ := Option.isSome_iff_exists.1 (hdelta.2 hfull)
  have hset : (setUp o w r.fname).deltaBackup = some r.fname := by simp [setUp, h.backup]
  have hinto := receiveInto_of_recorded hres hsome hset hname
  set d : Received × World := (res, _) with hd
  have hrecv : receiveFile sumEnd o w r dirMade .done =
      some (res, install o d.2 r r.fname dirMade .done res) := by
    simp only [receiveFile, hcmp, hinto, Option.bind_eq_bind, Option.bind_some]
    rfl
  have hsame : SameStores d.2 (install o d.2 r r.fname dirMade .done res).1 := install_stores _ _ _ _
  have hdue : (install o d.2 r r.fname dirMade .done res).1.fullDue o = false := by
    have hfirst : (setUp o w r.fname).firstBackup = 0 := by simp [setUp, h.backup, hfull]
    have hfirst : d.2.firstBackup = 0 := hfirst
    simp [World.fullDue, hsame.firstBackup, hfirst, h.wholeFile]
  refine ⟨delta, (install o d.2 r r.fname dirMade .done res).1, ?_, ?_⟩
  · simp [managed, hfate, hrecv, h.backup, hdue]
  · rw [store_eq_of_backups hsame.backups, hd]
    dsimp only
    rw [store_setStore, if_pos ⟨rfl, rfl⟩]
    have hup := store_eq_of_backups (@setUp_backups o w r.fname)
    simp only [hup]

/-- The version of backup `k`. -/
def countedVersion (k : ℕ) : Bytes := List.replicate (k + 1) 49

theorem countedVersion_lt (k : ℕ) : countedVersion k < countedVersion (k + 1) := by
  induction k with
  | zero => decide
  | succ k ih => exact List.cons_lt_cons_iff.2 (.inr ⟨rfl, ih⟩)

theorem dot_not_mem_countedVersion (k : ℕ) : dot ∉ countedVersion k := by
  intro hmem
  exact absurd (List.eq_of_mem_replicate hmem) (by decide)

theorem nameOk_counted {p : Bytes} (hp : p.length ≤ 16) (hslash : slash ∉ p) (hk : k ≤ 200) :
    NameOk (p ++ countedVersion k) := by
  refine ⟨?_, ?_⟩
  · rw [List.length_append, countedVersion, List.length_replicate]
    omega
  · rw [List.mem_append, not_or]
    exact ⟨hslash, fun hmem => absurd (List.eq_of_mem_replicate hmem) (by decide)⟩

/-- The incremental store of the file `f` after `k` deltas. -/
structure Filled (k : ℕ) (w : World) : Prop where
  full : ∃ e, (w.store .incremental (cstr "f")).full.Holds (fullPrefix (cstr "f")) [e]
  delta : ∃ l : List (Bytes × Bytes), l.length = k ∧
    (w.store .incremental (cstr "f")).delta.Holds (deltaPrefix (cstr "f")) l ∧
    ∀ e ∈ l, e.1 < countedVersion (k + 1)

/-- Backup `k` of the file `f`, with `n` versions to keep. -/
def countedRun (n : ℤ) (k : ℕ) : RunOpts := plainRun .incremental (countedVersion k) n

theorem countedRun_pass (n : ℤ) (k : ℕ) (dest : Bytes) :
    DeltaPass (countedRun n k) (literalRequest (.received true .done)) dest :=
  ⟨rfl, rfl, rfl, Or.inl rfl, ⟨true, rfl⟩, ⟨false, rfl⟩, fun i hi => by
    simp [literalRequest, oneLiteral] at hi⟩

theorem countedRun_completed (n : ℤ) (k : ℕ) (w : World) :
    Completed n (countedRun n k) w (literalRequest (.received true .done)) :=
  ⟨fun _ => le_rfl, .inl ⟨true, .done, rfl⟩⟩

theorem Dir.Holds.length_keys {p : Bytes} {d : Dir} {l : List (Bytes × Bytes)} (h : Dir.Holds p d l) :
    d.keys.length = l.length := by
  rw [h.keys_perm.length_eq, names_length]

/-- The store gets one delta more, as long as there is room for it. -/
theorem Filled.step (hw : Filled k w) (hn : maxBackupNum ≤ n) (hk : k < maxBackupNum) (sumEnd : Bytes → Bytes) :
    ∃ p, recvFile sumEnd (countedRun n (k + 1)) w (literalRequest (.received true .done)) = some p ∧
      Filled (k + 1) p.world := by
  obtain ⟨⟨e, hfull⟩, l, hl, hdelta, hlater⟩ := hw
  have hfile : fileNameOf (cstr "f") = cstr "f" := by decide
  have hhas : w.hasFull (countedRun n (k + 1)) (cstr "f") = true :=
    (@hasFull_of_holds w (countedRun n (k + 1)) (cstr "f") [e] (hfile.symm ▸ hfull)).2 (List.cons_ne_nil _ _)
  have hname : NameOk (deltaName (countedRun n (k + 1)) (cstr "f")) :=
    nameOk_counted (by decide) (by decide) (le_trans hk (by decide))
  obtain ⟨delta, -, hpass⟩ := recvFile_later (countedRun_pass n (k + 1) _) rfl sumEnd hhas hname
  have hinsert : Dir.Holds (deltaPrefix (cstr "f")) _ (l ++ [(countedVersion (k + 1), delta)]) :=
    hdelta.insert (dot_not_mem_countedVersion (k + 1)) hlater
  have hflen : (w.store .incremental (cstr "f")).full.keys.length = 1 := hfull.length_keys
  have hdlen := hinsert.length_keys
  rw [List.length_append, List.length_singleton, hl] at hdlen
  obtain ⟨p, hp, -, hstore⟩ := hpass _ (manage_few _ _ (hflen.trans_le (by decide)) (hdlen.trans_le hk) hn)
  have hstore : p.world.store .incremental (cstr "f") = _ := hstore
  refine ⟨p, hp, ⟨e, ?_⟩, l ++ [(countedVersion (k + 1), delta)], ?_, ?_, ?_⟩
  · rw [hstore]
    exact hfull
  · rw [List.length_append, hl, List.length_singleton]
  · rw [hstore]
    exact hinsert
  · intro e he
    rcases List.mem_append.1 he with he | he
    · exact (hlater e he).trans (countedVersion_lt _)
    · rw [List.mem_singleton.1 he]
      exact countedVersion_lt _

/-- The first backup of the file. -/
theorem filled_first (hn : maxBackupNum ≤ n) (sumEnd : Bytes → Bytes) :
    ∃ p, recvFile sumEnd (countedRun n 0) oneFile (literalRequest (.received true .done)) = some p ∧
      Filled 0 p.world := by
  have hempty : ∀ p : Bytes, Dir.Holds p ∅ [] := Dir.Holds.empty
  have hnone : oneFile.hasFull (countedRun n 0) (cstr "f") = false := rfl
  have hname : NameOk (fullName (countedRun n 0) (cstr "f")) :=
    nameOk_counted (by decide) (by decide) (Nat.zero_le _)
  have hinsert := fun c : Bytes => @Dir.Holds.insert _ _ _ (hempty (fullPrefix (cstr "f"))) _ c
    (dot_not_mem_countedVersion 0) (by simp)
  obtain ⟨p, hp, -, hstore⟩ := recvFile_first (countedRun_pass n 0 _) rfl sumEnd hnone hname
    (manage_few _ _ ((hinsert _).length_keys.trans_le (by decide)) (Nat.zero_le _) hn)
  have hstore : p.world.store .incremental (cstr "f") = _ := hstore
  refine ⟨p, hp, ⟨(countedVersion 0, decode ((oneFile.files (cstr "f")).getD []) .null oneLiteral), ?_⟩, [],
    rfl, ?_, by simp⟩
  · rw [hstore]
    exact hinsert _
  · rw [hstore]
    exact hempty _

/-- As many deltas as there is room for. -/
theorem filled_run (hn : maxBackupNum ≤ n) (sumEnd : Bytes → Bytes) : ∀ k ≤ maxBackupNum,
    ∃ w, BackupRun sumEnd (Completed n) w ∧ Filled k w := by
  intro k
  induction k with
  | zero =>
    intro _
    obtain ⟨p, hp, hw⟩ := filled_first hn sumEnd
    exact ⟨p.world, .pass (.start _) (countedRun_completed n 0 _) hp, hw⟩
  | succ k ih =>
    intro hk
    obtain ⟨w, hrun, hw⟩ := ih (Nat.le_of_succ_le hk)
    obtain ⟨p, hp, hw'⟩ := hw.step hn hk sumEnd
    exact ⟨p.world, .pass hrun (countedRun_completed n (k + 1) _) hp, hw'⟩

/-- **With `MAXBACKUPNUM` versions to keep, the delta that is one too many is listed before it is
    dropped.** -/
theorem overfull_run (hn : maxBackupNum ≤ n) (sumEnd : Bytes → Bytes) :
    ∃ dirName d, ListingCall sumEnd (Completed n) dirName d ∧ maxBackupNum < d.keys.length := by
  obtain ⟨w, hrun, ⟨e, hfull⟩, l, hl, hdelta, hlater⟩ := filled_run hn sumEnd maxBackupNum le_rfl
  have hfile : fileNameOf (cstr "f") = cstr "f" := by decide
  have hhas : w.hasFull (countedRun n (maxBackupNum + 1)) (cstr "f") = true :=
    (@hasFull_of_holds w (countedRun n (maxBackupNum + 1)) (cstr "f") [e] (hfile.symm ▸ hfull)).2
      (List.cons_ne_nil _ _)
  have hname : NameOk (deltaName (countedRun n (maxBackupNum + 1)) (cstr "f")) :=
    nameOk_counted (by decide) (by decide) (by decide)
  obtain ⟨delta, w', hw', hstore⟩ :=
    managed_later (countedRun_pass n (maxBackupNum + 1) _) rfl sumEnd hhas hname
  refine ⟨_, _, .manageDelta hrun (countedRun_completed n _ _) hw', ?_⟩
  have hinsert : Dir.Holds (deltaPrefix (cstr "f")) _ (l ++ [(countedVersion (maxBackupNum + 1), delta)]) :=
    hdelta.insert (dot_not_mem_countedVersion _) hlater
  have hdlen := hinsert.length_keys
  rw [List.length_append, List.length_singleton, hl] at hdlen
  have hstore : w'.store .incremental (cstr "f") = _ := hstore
  show maxBackupNum < (w'.store .incremental (cstr "f")).delta.keys.length
  rw [hstore]
  exact (Nat.lt_succ_self _).trans_eq hdlen.symm

end Fill

end CloudEdgeBackup
