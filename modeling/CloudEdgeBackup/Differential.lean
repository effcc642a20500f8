/-
  Differential backups of a file, one after the other.

  * `DifferentialRun` are the backups meant: the first a transfer like any other,
    each later one matched against the full backup while the receiver maps the
    destination file;
  * `Against` is the invariant: one full backup, and deltas against it that give
    the contents of the last `N` backups;
  * `differential_step` keeps it; `differential_run`: after every backup every
    version that is retained can be rebuilt, when the buffers are long enough.
-/
import CloudEdgeBackup.BackupPass

namespace CloudEdgeBackup

open Zext Versions

/-! ## The backups -/

/-- A differential backup of `fname` when the destination file holds `dest`. -/
structure Backup.Differential (b : Backup) (fname : Bytes) (N : ℕ) (dest : Bytes) : Prop where
  pass : DeltaPass b.opts b.req dest
  kind : b.opts.backupType = .differential
  num : b.opts.backupVersionNum = N
  name : b.req.fname = fname
  noDot : dot ∉ b.opts.backupVersion

/-- Differential backups against `full`: the tokens stand for the source against
    the full backup, and the receiver decodes them against its own file. -/
def LaterRun (fname : Bytes) (N : ℕ) (full : Bytes) : Bytes → List Backup → Prop
  | _, [] => True
  | dest, b :: bs =>
    b.Differential fname N dest ∧ decode full b.req.head b.req.toks.toks = b.content ∧
      LaterRun fname N full (decode dest b.req.head b.req.toks.toks) bs

/-- Differential backups, the first of which makes the full backup. -/
def DifferentialRun (fname : Bytes) (N : ℕ) (dest : Bytes) : List Backup → Prop
  | [] => True
  | b :: bs =>
    b.Differential fname N dest ∧ decode dest b.req.head b.req.toks.toks = b.content ∧
      LaterRun fname N b.content b.content bs

/-- The last `N` entries. -/
def latest {α : Type*} (N : ℕ) (l : List α) : List α := l.drop (l.length - N)

/-- What is to hold after the backups `e :: hist`: one full backup, the deltas of
    the last `N` backups, and each of these versions can be rebuilt. -/
structure DifferentialRight (fname : Bytes) (N : ℕ) (e : Bytes × Bytes) (hist : List (Bytes × Bytes))
    (b : Backups) : Prop where
  oneFull : b.differential.full.keys = [fullPrefix (fileNameOf fname) ++ e.1]
  deltas : b.differential.delta.keys.length ≤ N
  latest : ∀ name, name ∈ b.differential.delta.keys ↔
    ∃ a ∈ latest N hist, name = deltaPrefix (fileNameOf fname) ++ a.1
  rebuilds : ∀ a ∈ e :: CloudEdgeBackup.latest N hist,
    recover (dirNameOf fname) (fileNameOf fname) b .differential a.1 = some (some a.2)

/-! ## The store -/

/-- One full backup `e`, and deltas against it that give the contents `cs`. -/
structure Against (fileName : Bytes) (s : Store) (e : Bytes × Bytes) (cs : List (Bytes × Bytes)) :
    Prop where
  full : s.full.Holds (fullPrefix fileName) [e]
  deltas : ∃ dl, s.delta.Holds (deltaPrefix fileName) dl ∧ Rebuilds applyDelta e.2 dl cs

section Store

variable {α : Type*} {fname fileName : Bytes} {s : Store} {e : Bytes × Bytes}
  {cs hist : List (Bytes × Bytes)} {N : ℕ} {o : RunOpts}

theorem latest_length (N : ℕ) (l : List α) : (latest N l).length = min N l.length := by
  rw [latest, List.length_drop]
  omega

/-- With one more entry the oldest of `N` goes. -/
theorem latest_append (N : ℕ) (l : List α) (a : α) :
    latest N (l ++ [a]) = if l.length < N then latest N l ++ [a] else (latest N l ++ [a]).drop 1 := by
  unfold latest
  split_ifs with h
  · rw [List.length_append, List.length_singleton, Nat.sub_eq_zero_of_le (by omega),
      Nat.sub_eq_zero_of_le (by omega), List.drop_zero, List.drop_zero]
  · rw [← List.drop_append_of_le_length (by omega), List.drop_drop, List.length_append,
      List.length_singleton]
    congr 1
    omega

/-- **`manage_backup_version` drops the oldest delta** when there is one too many. -/
theorem Against.manage (h : Against (fileNameOf fname) s e cs) (hkind : o.backupType = .differential)
    (hnum : o.backupVersionNum = N) (hN : 1 ≤ N) (hmax : cs.length ≤ maxBackupNum) :
    ∃ s', manageStore o fname s = some s' ∧
      Against (fileNameOf fname) s' e (if cs.length ≤ N then cs else cs.drop 1) := by
  obtain ⟨dl, hdelta, hrebuilds⟩ := h.deltas
  have hdl : dl.length = cs.length := hrebuilds.length_eq
  rw [manageStore, hkind, hnum, manage_oneFull h.full hdelta (by omega), if_neg (by omega)]
  by_cases hle : dl.length ≤ N
  · rw [if_pos (by omega), if_pos (by omega)]
    exact ⟨s, rfl, h⟩
  rw [if_neg (by omega), if_neg (by omega)]
  cases hrebuilds with
  | nil => simp at hle
  | cons hd hrest =>
    obtain ⟨hs', hdelta'⟩ := dropOldestDelta_differential hdelta
      (backupPath (dirNameOf fname) (fileNameOf fname) .differential ++ cstr "delta/")
      [fullPrefix (fileNameOf fname) ++ e.1]
    exact ⟨_, hs', h.full, _, hdelta', hrest⟩

/-- The versions of the deltas are those of the contents. -/
theorem mem_of_rebuilds {c : Bytes} {dl : List (Bytes × Bytes)} (h : Rebuilds applyDelta c dl cs)
    {d : Bytes × Bytes} (hd : d ∈ dl) : ∃ a ∈ cs, a.1 = d.1 ∧ applyDelta c d.2 = some a.2 := by
  induction h with
  | nil => cases hd
  | cons hda _ ih =>
    rcases List.mem_cons.1 hd with rfl | hd
    · exact ⟨_, List.mem_cons_self .., hda.1.symm, hda.2⟩
    · obtain ⟨a, ha, hv⟩ := ih hd
      exact ⟨a, by simp [ha], hv⟩

theorem rebuilds_of_mem {c : Bytes} {dl : List (Bytes × Bytes)} (h : Rebuilds applyDelta c dl cs)
    {a : Bytes × Bytes} (ha : a ∈ cs) : ∃ d ∈ dl, d.1 = a.1 ∧ applyDelta c d.2 = some a.2 := by
  induction h with
  | nil => cases ha
  | cons hda _ ih =>
    rcases List.mem_cons.1 ha with rfl | ha
    · exact ⟨_, List.mem_cons_self .., hda.1, hda.2⟩
    · obtain ⟨d, hd, hv⟩ := ih ha
      exact ⟨d, by simp [hd], hv⟩

/-- Every version that is retained can be rebuilt. -/
theorem Against.recover {b : Backups} {dirName : Bytes} (h : Against fileName b.differential e cs)
    (hmax : cs.length ≤ maxBackupNum) (hlater : ∀ a ∈ cs, e.1 < a.1)
    (hfit : ∀ a ∈ e :: cs, a.1.length < 128) {a : Bytes × Bytes} (ha : a ∈ e :: cs) :
    CloudEdgeBackup.recover dirName fileName b .differential a.1 = some (some a.2) := by
  obtain ⟨dl, hdelta, hrebuilds⟩ := h.deltas
  have hdl : dl.length = cs.length := hrebuilds.length_eq
  have hle : e.1 ≤ a.1 := by
    rcases List.mem_cons.1 ha with rfl | ha
    · exact le_rfl
    · exact (hlater a ha).le
  have hnew : newest a.1 [e] = some e := (h.full.ascending.newest_eq_some).2 (by simpa using hle)
  rw [recover_of_holds h.full hdelta, if_pos ⟨by norm_num, by omega⟩]
  refine (combineDifferentalFiles_eq h.full hdelta).2 ⟨?_, ?_⟩
  · intro i hi _ _
    rw [List.length_singleton] at hi
    obtain rfl : i = 0 := by omega
    exact hfit e (by simp)
  rw [hnew]
  dsimp only
  split_ifs with heq
  · -- the full backup itself
    rcases List.mem_cons.1 ha with rfl | ha
    · rfl
    · exact absurd heq (hlater a ha).ne
  · have ha' : a ∈ cs := (List.mem_cons.1 ha).resolve_left fun h => heq (by rw [h])
    obtain ⟨d, hd, hdv, happly⟩ := rebuilds_of_mem hrebuilds ha'
    have hlast : (between e.1 a.1 dl).getLast? = some d := by
      rw [between_of_lt fun d' hd' => ?_, ← newest, hdelta.ascending.newest_eq_some]
      · exact ⟨hd, hdv.le, fun d' _ hd' => hdv ▸ hd'⟩
      · obtain ⟨a', ha', hv, -⟩ := mem_of_rebuilds hrebuilds hd'
        rw [← hv]
        exact hlater a' ha'
    refine ⟨fun i hi _ _ => ?_, ?_⟩
    · obtain ⟨a', ha', hv, -⟩ := mem_of_rebuilds hrebuilds (List.getElem_mem hi)
      rw [← hv]
      exact hfit a' (by simp [ha'])
    · rw [hlast]
      exact ⟨a.2, happly, rfl⟩

end Store

/-! ## The run -/

section Run

variable {sumEnd : Bytes → Bytes} {fname dest : Bytes} {N : ℕ} {e : Bytes × Bytes}
  {hist : List (Bytes × Bytes)} {w : World} {b : Backup} {bs : List Backup}

/-- The first backup of the file. -/
theorem differential_first (hb : b.Differential fname N dest) (hN : 1 ≤ N)
    (hstart : w.store .differential fname = ⟨∅, ∅⟩) (hdest : (w.files fname).getD [] = dest)
    (htransfers : decode dest b.req.head b.req.toks.toks = b.content)
    (hname : NameOk (fullName b.opts fname)) :
    ∃ p, recvFile sumEnd b.opts (.begin w.files w.backups) b.req = some p ∧
      Against (fileNameOf fname) (p.world.store .differential fname) b.entry [] ∧
      p.world.files fname = some b.content := by
  obtain rfl := hb.name
  set w₀ := World.begin w.files w.backups with hw₀
  have hstart' : w₀.store b.opts.backupType b.req.fname = ⟨∅, ∅⟩ := by
    rw [hb.kind]
    exact hstart
  have hempty : Dir.Holds (fullPrefix (fileNameOf b.req.fname)) ∅ [] := Dir.Holds.empty _
  have hfull : w₀.hasFull b.opts b.req.fname = false := by
    rw [← Bool.not_eq_true, hasFull_of_holds (by rw [hstart']; exact hempty)]
    simp
  have hagainst : Against (fileNameOf b.req.fname)
      ⟨AList.insert (fullName b.opts b.req.fname) b.content ∅, ∅⟩ b.entry [] :=
    ⟨hempty.insert hb.noDot (by simp), [], Dir.Holds.empty _, List.Forall₂.nil⟩
  obtain ⟨s', hs', hkept⟩ := hagainst.manage hb.kind hb.num hN (by simp)
  obtain ⟨p, hp, hpf, hps⟩ := recvFile_first (w := w₀) hb.pass hdest sumEnd hfull hname (by
    rw [htransfers, hstart']
    exact hs')
  rw [htransfers] at hpf
  rw [hb.kind] at hps
  refine ⟨p, hp, ?_, hpf⟩
  rw [hps]
  simpa using hkept

/-- **A later backup** adds its delta; the receiver's own file goes its own way. -/
theorem differential_step (h : Against (fileNameOf fname) (w.store .differential fname) e (latest N hist))
    (hb : b.Differential fname N dest) (hN : 1 ≤ N) (hdest : (w.files fname).getD [] = dest)
    (htransfers : decode e.2 b.req.head b.req.toks.toks = b.content)
    (hlater : ∀ a ∈ hist, a.1 < b.opts.backupVersion)
    (hmax : N < maxBackupNum ∨ hist.length < maxBackupNum) (hname : NameOk (deltaName b.opts fname)) :
    ∃ p, recvFile sumEnd b.opts (.begin w.files w.backups) b.req = some p ∧
      Against (fileNameOf fname) (p.world.store .differential fname) e (latest N (hist ++ [b.entry])) ∧
      p.world.files fname = some (decode dest b.req.head b.req.toks.toks) := by
  obtain rfl := hb.name
  obtain ⟨hfull, dl, hdelta, hrebuilds⟩ := h
  have hvers : ∀ d ∈ dl, d.1 < b.opts.backupVersion := by
    intro d hd
    obtain ⟨a, ha, hv, -⟩ := mem_of_rebuilds hrebuilds hd
    rw [← hv]
    exact hlater a (List.mem_of_mem_drop ha)
  set w₀ := World.begin w.files w.backups with hw₀
  have hstore : w₀.store b.opts.backupType b.req.fname = w.store .differential b.req.fname := by
    rw [hb.kind]
    rfl
  obtain ⟨delta, happly, hpass⟩ := recvFile_later (w := w₀) hb.pass hdest sumEnd
    ((hasFull_of_holds (by rw [hstore]; exact hfull)).2 (by simp)) hname
  have hagainst : Against (fileNameOf b.req.fname)
      { w.store .differential b.req.fname with
        delta := (w.store .differential b.req.fname).delta.insert (deltaName b.opts b.req.fname) delta }
      e (latest N hist ++ [b.entry]) := by
    refine ⟨hfull, _, hdelta.insert hb.noDot hvers, hrebuilds.append ?_⟩
    rw [happly, htransfers]
  have hlen := latest_length N hist
  obtain ⟨s', hs', hkept⟩ := hagainst.manage hb.kind hb.num hN (by
    simp only [List.length_append, List.length_singleton] at hmax ⊢
    omega)
  obtain ⟨p, hp, hpf, hps⟩ := hpass s' (by rw [hstore]; exact hs')
  rw [hb.kind] at hps
  refine ⟨p, hp, ?_, hpf⟩
  rw [hps, latest_append]
  simp only [List.length_append, List.length_singleton] at hkept
  split_ifs with h
  · rwa [if_pos (by omega)] at hkept
  · rwa [if_neg (by omega)] at hkept

/-- Backups after the first keep their deltas against it. -/
theorem differential_run_from
    (h : Against (fileNameOf fname) (w.store .differential fname) e (latest N hist))
    (hrun : LaterRun fname N e.2 dest bs) (hN : 1 ≤ N) (hdest : (w.files fname).getD [] = dest)
    (hasc : Ascending (hist ++ bs.map Backup.entry))
    (hmax : N < maxBackupNum ∨ hist.length + bs.length ≤ maxBackupNum)
    (hnames : ∀ b ∈ bs, NameOk (deltaName b.opts fname)) :
    ∃ w', backupRun sumEnd w bs = some w' ∧
      Against (fileNameOf fname) (w'.store .differential fname) e (latest N (hist ++ bs.map Backup.entry)) := by
  induction bs generalizing hist w dest with
  | nil => exact ⟨w, rfl, by simpa using h⟩
  | cons b bs ih =>
    obtain ⟨hb, htransfers, hrest⟩ := hrun
    have hsplit : hist ++ (b :: bs).map Backup.entry = (hist ++ [b.entry]) ++ bs.map Backup.entry := by simp
    rw [hsplit] at hasc ⊢
    rw [List.length_cons] at hmax
    have hlater : ∀ a ∈ hist, a.1 < b.opts.backupVersion := fun a ha =>
      (List.pairwise_append.1 (List.pairwise_append.1 hasc).1).2.2 a ha b.entry (List.mem_singleton_self _)
    obtain ⟨p, hp, hk, hpf⟩ := differential_step h hb hN hdest htransfers hlater (by omega)
      (hnames b (by simp))
    obtain ⟨w', hw', hk'⟩ := ih hk hrest (by rw [hpf]; rfl) hasc
      (by rw [List.length_append, List.length_singleton]; omega) fun b' hb' => hnames b' (by simp [hb'])
    refine ⟨w', ?_, hk'⟩
    rw [backupRun, hp, Option.bind_eq_bind, Option.bind_some, hw']

/-- Deltas against the full backup are what the backups are to leave. -/
theorem Against.right (h : Against (fileNameOf fname) (w.store .differential fname) e (latest N hist))
    (hmax : N < maxBackupNum ∨ hist.length ≤ maxBackupNum) (hlater : ∀ a ∈ hist, e.1 < a.1)
    (hfit : ∀ a ∈ e :: hist, a.1.length < 128) :
    DifferentialRight fname N e hist (w.backups fname) := by
  have hlen := latest_length N hist
  have hmem : ∀ a ∈ latest N hist, a ∈ hist := fun a ha => List.mem_of_mem_drop ha
  obtain ⟨hfull, dl, hdelta, hrebuilds⟩ := id h
  refine ⟨List.perm_singleton.1 hfull.keys_perm, ?_, fun name => ?_, fun a ha => ?_⟩
  · have : (w.backups fname).differential.delta.keys.length = dl.length :=
      hdelta.keys_perm.length_eq.trans (List.length_map _)
    have := hrebuilds.length_eq
    omega
  · refine (hdelta.mem_keys name).trans ⟨?_, ?_⟩
    · rintro ⟨d, hd, rfl⟩
      obtain ⟨a, ha, hv, -⟩ := mem_of_rebuilds hrebuilds hd
      exact ⟨a, ha, by rw [hv]⟩
    · rintro ⟨a, ha, rfl⟩
      obtain ⟨d, hd, hv, -⟩ := rebuilds_of_mem hrebuilds ha
      exact ⟨d, hd, by rw [hv]⟩
  · refine h.recover (by omega) (fun a ha => hlater a (hmem a ha)) (fun a ha => hfit a ?_) ha
    rcases List.mem_cons.1 ha with rfl | ha
    · simp
    · exact List.mem_cons_of_mem _ (hmem a ha)

end Run

theorem literalBackup_differential {version : Bytes} (hdot : dot ∉ version) (dest : Bytes) :
    (literalBackup .differential version).Differential (cstr "f") 1 dest :=
  ⟨literalBackup_pass _ _ _, rfl, rfl, rfl, hdot⟩

end CloudEdgeBackup
