/-
  Incremental backups of a file, one after the other.

  * `IncrementalRun` are the backups meant: delta transfers, each against what
    the one before left at the destination;
  * `Kept` is the invariant: one full backup, a chain of deltas that leads from it
    through the contents of the later backups to the file as it is now;
  * `keep_step`: `manage_backup_version` keeps it, merging the oldest delta;
    `incremental_step`: a backup keeps it;
  * `incremental_run`: after every backup every version from the full backup on
    can be rebuilt, when the buffers for versions and names are long enough.
-/
import CloudEdgeBackup.BackupPass

namespace CloudEdgeBackup

open Zext Versions

/-! ## The backups -/

/-- An incremental backup of `fname` over the destination file `dest`. -/
structure Backup.Incremental (b : Backup) (fname : Bytes) (N : ℕ) (dest : Bytes) : Prop where
  pass : DeltaPass b.opts b.req dest
  kind : b.opts.backupType = .incremental
  num : b.opts.backupVersionNum = N
  name : b.req.fname = fname
  noDot : dot ∉ b.opts.backupVersion
  /-- the transfer reproduces the source -/
  transfers : decode dest b.req.head b.req.toks.toks = b.content

/-- Incremental backups, each over what the one before left. -/
def IncrementalRun (fname : Bytes) (N : ℕ) : Bytes → List Backup → Prop
  | _, [] => True
  | dest, b :: bs => b.Incremental fname N dest ∧ IncrementalRun fname N b.content bs

/-- What is to hold after the backups `hist`: one full backup, at most `N` deltas,
    all later, and every version from the full backup on can be rebuilt. -/
structure IncrementalRight (fname : Bytes) (N : ℕ) (hist : List (Bytes × Bytes)) (b : Backups)
    (full : Bytes) : Prop where
  oneFull : b.incremental.full.keys = [fullPrefix (fileNameOf fname) ++ full]
  deltas : b.incremental.delta.keys.length ≤ N
  later : ∀ name ∈ b.incremental.delta.keys, ∃ v, name = deltaPrefix (fileNameOf fname) ++ v ∧ full < v
  rebuilds : ∀ R, full ≤ R → ∃ e, newest R hist = some e ∧
    recover (dirNameOf fname) (fileNameOf fname) b .incremental R = some (some e.2)

/-! ## The store -/

/-- One full backup `e`, and deltas that lead from it through the contents `cs`. -/
structure Chain (fileName : Bytes) (s : Store) (e : Bytes × Bytes) (cs : List (Bytes × Bytes)) :
    Prop where
  full : s.full.Holds (fullPrefix fileName) [e]
  deltas : ∃ dl, s.delta.Holds (deltaPrefix fileName) dl ∧ Follows applyDelta e.2 dl cs

section Store

variable {fname fileName : Bytes} {s : Store} {e : Bytes × Bytes} {cs : List (Bytes × Bytes)} {N : ℕ}
  {o : RunOpts}

/-- **`manage_backup_version` keeps a chain**: the oldest delta is merged into the
    full backup when there is one too many. -/
theorem Chain.manage (h : Chain (fileNameOf fname) s e cs) (hkind : o.backupType = .incremental)
    (hnum : o.backupVersionNum = N) (hN : 1 ≤ N) (hfile : dot ∉ fileNameOf fname)
    (hasc : Ascending (e :: cs)) (hmax : cs.length ≤ maxBackupNum) (hlen : cs.length ≤ N + 1)
    (hnames : ∀ c ∈ cs, NameOk (fullPrefix (fileNameOf fname) ++ c.1)) :
    ∃ s' pre e' cs', manageStore o fname s = some s' ∧ e :: cs = pre ++ e' :: cs' ∧
      cs'.length ≤ N ∧ Chain (fileNameOf fname) s' e' cs' := by
  obtain ⟨dl, hdelta, hfollows⟩ := h.deltas
  have hdl : dl.length = cs.length := by
    simpa using congrArg List.length hfollows.versions
  rw [manageStore, hkind, hnum, manage_oneFull h.full hdelta (by omega), if_neg (by omega)]
  by_cases hle : dl.length ≤ N
  · rw [if_pos (by omega)]
    exact ⟨s, [], e, cs, rfl, rfl, by omega, h⟩
  rw [if_neg (by omega)]
  -- there is an oldest delta to merge
  cases dl with
  | nil => simp at hle
  | cons d dl =>
    obtain ⟨v, d⟩ := d
    obtain ⟨c', cs', rfl, happly, hrest⟩ := hfollows
    have hlt : e.1 < v := (List.pairwise_cons.1 hasc).1 _ (List.mem_cons_self ..)
    obtain ⟨s', hs', hfull', hdelta'⟩ := dropOldestDelta_incremental hfile h.full hdelta
      (backupPath (dirNameOf fname) (fileNameOf fname) .incremental ++ cstr "delta/") hlt
      (hnames _ (List.mem_cons_self ..)) happly
    exact ⟨s', [e], (v, c'), cs', hs', rfl, by simpa using hlen, hfull', dl, hdelta', hrest⟩

/-- Every version from the full backup on can be rebuilt from a chain. -/
theorem Chain.recover {b : Backups} {dirName : Bytes} (h : Chain fileName b.incremental e cs)
    (hmax : cs.length ≤ maxBackupNum) (hasc : Ascending (e :: cs))
    (hfit : ∀ c ∈ e :: cs, c.1.length < 128) {R : Bytes} (hR : e.1 ≤ R) :
    CloudEdgeBackup.recover dirName fileName b .incremental R = some (some (final e.2 (upTo R cs))) := by
  obtain ⟨dl, hdelta, hfollows⟩ := h.deltas
  have hdl : dl.length = cs.length := by
    simpa using congrArg List.length hfollows.versions
  have hvers : ∀ d ∈ dl, ∃ c ∈ cs, c.1 = d.1 := by
    intro d hd
    have : d.1 ∈ cs.map Prod.fst := by
      rw [← hfollows.versions]
      exact List.mem_map_of_mem hd
    simpa using List.mem_map.1 this
  have hlater : ∀ d ∈ dl, e.1 < d.1 := by
    intro d hd
    obtain ⟨c, hc, hcd⟩ := hvers d hd
    rw [← hcd]
    exact (List.pairwise_cons.1 hasc).1 c hc
  have hnew : newest R [e] = some e := (h.full.ascending.newest_eq_some).2 (by simpa using hR)
  rw [recover_of_holds h.full hdelta, if_pos ⟨by norm_num, by omega⟩]
  refine (combineIncrementalFiles_eq h.full hdelta).2 ⟨?_, ?_⟩
  · intro i hi _ _
    rw [List.length_singleton] at hi
    obtain rfl : i = 0 := by omega
    exact hfit e (by simp)
  · rw [hnew]
    refine ⟨fun _ i hi _ _ => ?_, _, ?_, rfl⟩
    · obtain ⟨c, hc, hcd⟩ := hvers _ (List.getElem_mem hi)
      rw [← hcd]
      exact hfit c (by simp [hc])
    · rw [between_of_lt hlater]
      exact hfollows.replay_upTo R

end Store

/-! ## The run -/

/-- After the backups `hist` the store is a chain that ends in the file as it is. -/
def Kept (fname : Bytes) (N : ℕ) (hist : List (Bytes × Bytes)) (w : World) : Prop :=
  ∃ old e cs, hist = old ++ e :: cs ∧ cs.length ≤ N ∧
    Chain (fileNameOf fname) (w.store .incremental fname) e cs ∧ w.files fname = some (final e.2 cs)

section Run

variable {sumEnd : Bytes → Bytes} {fname dest : Bytes} {N : ℕ} {hist : List (Bytes × Bytes)}
  {w : World} {b : Backup}

/-- A managed chain is kept. -/
theorem kept_of_manage {s : Store} (old : List (Bytes × Bytes)) {cs : List (Bytes × Bytes)}
    {e : Bytes × Bytes} (h : Chain (fileNameOf fname) s e cs) (hb : b.Incremental fname N dest) (hN : 1 ≤ N)
    (hfile : dot ∉ fileNameOf fname) (hasc : Ascending (old ++ e :: cs))
    (hmax : cs.length ≤ maxBackupNum) (hlen : cs.length ≤ N + 1)
    (hnames : ∀ c ∈ cs, NameOk (fullPrefix (fileNameOf fname) ++ c.1))
    (hfinal : final e.2 cs = b.content) :
    ∃ s', manageStore b.opts fname s = some s' ∧ ∀ w' : World, w'.store .incremental fname = s' →
      w'.files fname = some b.content → Kept fname N (old ++ e :: cs) w' := by
  obtain ⟨s', pre, e', cs', hs', hsplit, hle, hchain⟩ := h.manage hb.kind hb.num hN hfile
    (List.pairwise_append.1 hasc).2.1 hmax hlen hnames
  refine ⟨s', hs', fun w' hstore hfiles => ⟨old ++ pre, e', cs', ?_, hle, hstore ▸ hchain, ?_⟩⟩
  · rw [hsplit, List.append_assoc]
  · have : final e.2 cs = final e'.2 cs' := by
      cases pre with
      | nil =>
        obtain ⟨rfl, rfl⟩ := List.cons.inj hsplit
        rfl
      | cons a pre =>
        obtain ⟨-, rfl⟩ := List.cons.inj hsplit
        cases hl : cs'.getLast? <;> simp [final, List.getLast?_append, List.getLast?_cons, hl]
    rw [hfiles, ← hfinal, this]

/-- The first backup of the file. -/
theorem incremental_first (hb : b.Incremental fname N dest) (hN : 1 ≤ N)
    (hfile : dot ∉ fileNameOf fname) (hstart : w.store .incremental fname = ⟨∅, ∅⟩)
    (hdest : (w.files fname).getD [] = dest) (hname : NameOk (fullName b.opts fname)) :
    ∃ p, recvFile sumEnd b.opts (.begin w.files w.backups) b.req = some p ∧
      Kept fname N [b.entry] p.world ∧ p.world.files fname = some b.content := by
  obtain rfl := hb.name
  set w₀ := World.begin w.files w.backups with hw₀
  have hstart' : w₀.store b.opts.backupType b.req.fname = ⟨∅, ∅⟩ := by
    rw [hb.kind]
    exact hstart
  have hempty : Dir.Holds (fullPrefix (fileNameOf b.req.fname)) ∅ [] := Dir.Holds.empty _
  have hfull : w₀.hasFull b.opts b.req.fname = false := by
    rw [← Bool.not_eq_true, hasFull_of_holds (by rw [hstart']; exact hempty)]
    simp
  have hchain : Chain (fileNameOf b.req.fname) ⟨AList.insert (fullName b.opts b.req.fname) b.content ∅, ∅⟩
      b.entry [] :=
    ⟨hempty.insert hb.noDot (by simp), [], Dir.Holds.empty _, rfl⟩
  obtain ⟨s', hs', hkept⟩ := kept_of_manage [] hchain hb hN hfile (by simp [Ascending])
    (by simp) (by simp) (by simp) rfl
  obtain ⟨p, hp, hpf, hps⟩ := recvFile_first (w := w₀) hb.pass hdest sumEnd hfull hname (by
    rw [hb.transfers, hstart']
    exact hs')
  rw [hb.transfers] at hpf
  rw [hb.kind] at hps
  exact ⟨p, hp, hkept _ hps hpf, hpf⟩

/-- **A later backup** adds a delta to the chain. -/
theorem incremental_step (h : Kept fname N hist w) (hb : b.Incremental fname N dest) (hN : 1 ≤ N)
    (hfile : dot ∉ fileNameOf fname) (hdest : w.files fname = some dest)
    (hasc : Ascending (hist ++ [b.entry])) (hmax : N < maxBackupNum ∨ hist.length ≤ maxBackupNum)
    (hname : NameOk (deltaName b.opts fname))
    (hnames : ∀ c ∈ hist, NameOk (fullPrefix (fileNameOf fname) ++ c.1)) :
    ∃ p, recvFile sumEnd b.opts (.begin w.files w.backups) b.req = some p ∧
      Kept fname N (hist ++ [b.entry]) p.world ∧ p.world.files fname = some b.content := by
  obtain rfl := hb.name
  obtain ⟨old, e, cs, rfl, hle, ⟨hfull, dl, hdelta, hfollows⟩, hfiles⟩ := h
  have hdest' : final e.2 cs = dest := Option.some.inj (hfiles.symm.trans hdest)
  have hlater : ∀ a ∈ old ++ e :: cs, a.1 < b.opts.backupVersion := fun a ha =>
    (List.pairwise_append.1 hasc).2.2 a ha b.entry (List.mem_singleton_self _)
  have hvers : ∀ d ∈ dl, d.1 < b.opts.backupVersion := by
    intro d hd
    have hmem : d.1 ∈ cs.map Prod.fst := by
      rw [← hfollows.versions]
      exact List.mem_map_of_mem hd
    obtain ⟨c, hc, hcd⟩ := List.mem_map.1 hmem
    rw [← hcd]
    exact hlater c (by simp [hc])
  set w₀ := World.begin w.files w.backups with hw₀
  have hstore : w₀.store b.opts.backupType b.req.fname = w.store .incremental b.req.fname := by
    rw [hb.kind]
    rfl
  obtain ⟨delta, happly, hpass⟩ := recvFile_later (w := w₀) hb.pass (by rw [hw₀]; simp [World.begin, hdest])
    sumEnd ((hasFull_of_holds (by rw [hstore]; exact hfull)).2 (by simp)) hname
  have hchain : Chain (fileNameOf b.req.fname)
      { w.store .incremental b.req.fname with
        delta := (w.store .incremental b.req.fname).delta.insert (deltaName b.opts b.req.fname) delta }
      e (cs ++ [b.entry]) := by
    refine ⟨hfull, _, hdelta.insert hb.noDot hvers, hfollows.append ?_⟩
    rw [happly, hdest', hb.transfers]
  obtain ⟨s', hs', hkept⟩ := kept_of_manage old hchain hb hN hfile (by simpa using hasc)
    (by simp only [List.length_append, List.length_cons, List.length_nil] at hmax ⊢; omega)
    (by simpa using hle)
    (fun c hc => by
      rcases List.mem_append.1 hc with hc | hc
      · exact hnames c (by simp [hc])
      · rw [List.mem_singleton.1 hc]
        exact nameOk_full hname)
    (final_append _ _ _)
  obtain ⟨p, hp, hpf, hps⟩ := hpass s' (by rw [hstore]; exact hs')
  rw [hb.transfers] at hpf
  rw [hb.kind] at hps
  exact ⟨p, hp, by simpa using hkept _ hps hpf, hpf⟩

end Run

section Histories

variable {sumEnd : Bytes → Bytes} {fname dest : Bytes} {N : ℕ} {hist : List (Bytes × Bytes)}
  {w : World} {bs : List Backup}

/-- Backups keep the chain. -/
theorem incremental_run_from (h : Kept fname N hist w) (hrun : IncrementalRun fname N dest bs)
    (hN : 1 ≤ N) (hfile : dot ∉ fileNameOf fname) (hdest : w.files fname = some dest)
    (hasc : Ascending (hist ++ bs.map Backup.entry))
    (hmax : N < maxBackupNum ∨ hist.length + bs.length ≤ maxBackupNum + 1)
    (hnames : ∀ b ∈ bs, NameOk (deltaName b.opts fname))
    (hhist : ∀ c ∈ hist, NameOk (fullPrefix (fileNameOf fname) ++ c.1)) :
    ∃ w', backupRun sumEnd w bs = some w' ∧ Kept fname N (hist ++ bs.map Backup.entry) w' := by
  induction bs generalizing hist w dest with
  | nil => exact ⟨w, rfl, by simpa using h⟩
  | cons b bs ih =>
    obtain ⟨hb, hrest⟩ := hrun
    have hsplit : hist ++ (b :: bs).map Backup.entry = (hist ++ [b.entry]) ++ bs.map Backup.entry := by simp
    rw [hsplit] at hasc ⊢
    obtain ⟨p, hp, hk, hpf⟩ := incremental_step h hb hN hfile hdest (List.pairwise_append.1 hasc).1
      (by simp only [List.length_cons] at hmax; omega) (hnames b (by simp)) hhist
    obtain ⟨w', hw', hk'⟩ := ih hk hrest hpf hasc
      (by simp only [List.length_cons, List.length_append, List.length_nil] at hmax ⊢; omega)
      (fun b' hb' => hnames b' (by simp [hb'])) (fun c hc => by
        rcases List.mem_append.1 hc with hc | hc
        · exact hhist c hc
        · rw [List.mem_singleton.1 hc, ← hb.name]
          exact nameOk_full (hb.name ▸ hnames b (by simp)))
    refine ⟨w', ?_, hk'⟩
    rw [backupRun, hp, Option.bind_eq_bind, Option.bind_some, hw']

/-- A chain is what the backups are to leave. -/
theorem Kept.right (h : Kept fname N hist w) (hasc : Ascending hist)
    (hmax : N < maxBackupNum ∨ hist.length ≤ maxBackupNum + 1)
    (hfit : ∀ c ∈ hist, c.1.length < 128) :
    ∃ full, IncrementalRight fname N hist (w.backups fname) full := by
  obtain ⟨old, e, cs, rfl, hle, hchain, -⟩ := h
  obtain ⟨hfull, dl, hdelta, hfollows⟩ := id hchain
  have hdl : dl.length = cs.length := by simpa using congrArg List.length hfollows.versions
  have hasc' : Ascending (e :: cs) := (List.pairwise_append.1 hasc).2.1
  refine ⟨e.1, ?_, ?_, fun name hname => ?_, fun R hR => ?_⟩
  · exact List.perm_singleton.1 hfull.keys_perm
  · refine le_trans (le_of_eq ?_) hle
    rw [← hdl]
    exact hdelta.keys_perm.length_eq.trans (List.length_map _)
  · obtain ⟨d, hd, rfl⟩ := (hdelta.mem_keys name).1 hname
    have hmem : d.1 ∈ cs.map Prod.fst := by
      rw [← hfollows.versions]
      exact List.mem_map_of_mem hd
    obtain ⟨c, hc, hcd⟩ := List.mem_map.1 hmem
    exact ⟨d.1, rfl, hcd ▸ (List.pairwise_cons.1 hasc').1 c hc⟩
  · obtain ⟨e', he', hsnd⟩ := newest_append_cons hasc hR
    refine ⟨e', he', ?_⟩
    rw [hsnd]
    exact hchain.recover (by simp only [List.length_append, List.length_cons] at hmax; omega) hasc'
      (fun c hc => hfit c (by simp only [List.mem_append]; exact Or.inr hc)) hR

end Histories

theorem literalBackup_incremental {version : Bytes} (hdot : dot ∉ version) (dest : Bytes) :
    (literalBackup .incremental version).Incremental (cstr "f") 1 dest :=
  ⟨literalBackup_pass _ _ _, rfl, rfl, rfl, hdot, rfl⟩

end CloudEdgeBackup
