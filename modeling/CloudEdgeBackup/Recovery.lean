/-
  Recovery: which backups of a file rebuild a version (`sender.c`).

  * `decideRecoveryType` chooses the kind of backup, `combineIncrementalFiles`
    and `combineDifferentalFiles` rebuild the version from one kind, `rebuild` is
    what `send_files` makes of them.  Outside the buffers for timestamps they
    fail (`none`); `some none` is the error they report;
  * on directories of versions each is a function of the lists of versions:
    `findLe_eq`, `deltaWindow_eq`, `combineIncrementalFiles_eq`,
    `combineDifferentalFiles_eq`.
-/
import CloudEdgeBackup.Store

namespace CloudEdgeBackup

open Versions

/-! ## The functions -/

/-- The loop from the newest file down to the first one up to `R`: its index and
    its timestamp, which is copied to a buffer of `size` bytes. -/
def findLe (size : ℕ) (dirName R : Bytes) (files : List Bytes) : ℕ → Option (Option (ℕ × Bytes))
  | 0 => some none
  | k + 1 => do
    let t ← extractFileNameTimestamp size (dirName ++ files.getD k [])
    if t ≤ R then some (some (k, t)) else findLe size dirName R files k

/-- The backups of a file. -/
structure Backups where
  incremental : Store
  differential : Store

def Backups.get (b : Backups) : BackupType → Store
  | .incremental => b.incremental
  | .differential => b.differential

/-- A `backup_files_list` for the fulls of a kind and one for its deltas. -/
structure Listing where
  fulls : List Bytes
  deltas : List Bytes

def fullDir (dirName fileName : Bytes) (kind : BackupType) : Bytes :=
  backupPath dirName fileName kind ++ cstr "full/"

def deltaDir (dirName fileName : Bytes) (kind : BackupType) : Bytes :=
  backupPath dirName fileName kind ++ cstr "delta/"

section Functions

variable (dirName fileName : Bytes)

def readListing (b : Backups) (kind : BackupType) : Option Listing := do
  let fulls ← readSortDirFiles (fullDir dirName fileName kind) (b.get kind).full
  let deltas ← readSortDirFiles (deltaDir dirName fileName kind) (b.get kind).delta
  some ⟨fulls, deltas⟩

/-- `decide_recovery_type` on the four lists it reads; `some none` is -1. -/
def decideRecoveryType (incre diffe : Listing) (recoveryTimestamp : Bytes) :
    Option (Option BackupType) :=
  if incre.fulls = [] ∧ diffe.fulls = [] then some none
  else if incre.fulls = [] then some (some .differential)
  else if diffe.fulls = [] then some (some .incremental)
  else do
    let find := fun dirName (files : List Bytes) =>
      findLe 100 dirName recoveryTimestamp files files.length
    let increDelta ← find (deltaDir dirName fileName .incremental) incre.deltas
    let diffeDelta ← find (deltaDir dirName fileName .differential) diffe.deltas
    let increFull ← find (fullDir dirName fileName .incremental) incre.fulls
    let diffeFull ← find (fullDir dirName fileName .differential) diffe.fulls
    match increDelta, diffeDelta with
    | none, none =>
      match increFull, diffeFull with
      | some (_, i), some (_, d) => if d < i then some (some .incremental) else some (some .differential)
      | some _, none => some (some .incremental)
      | none, some _ => some (some .differential)
      | none, none => some none
    | none, some _ => if increFull.isSome then some (some .incremental) else some (some .differential)
    | some _, none => if diffeFull.isSome then some (some .differential) else some (some .incremental)
    | some (_, i), some (_, d) => if d < i then some (some .incremental) else some (some .differential)

/-- The loop of `combine_incremental_files` over the deltas, from the newest down:
    the first and the last delta to be applied. -/
def deltaWindow (dirName fullTimestamp recoveryVersion : Bytes) (files : List Bytes) :
    ℕ → Option ℕ → Option ℕ → Option (Option ℕ × Option ℕ)
  | 0, start, stop => some (start, stop)
  | k + 1, start, stop => do
    let t ← extractFileNameTimestamp 128 (dirName ++ files.getD k [])
    let stop := if stop = none ∧ t ≤ recoveryVersion then some k else stop
    if stop ≠ none ∧ fullTimestamp < t then
      deltaWindow dirName fullTimestamp recoveryVersion files k (some k) stop
    else if stop ≠ none then some (start, stop)
    else deltaWindow dirName fullTimestamp recoveryVersion files k start stop

/-- The loop over the deltas to be applied, each to what the ones before it made
    of the full backup; `some none` is a delta file that cannot be opened. -/
def applyDeltas (delta : Dir) : Bytes → List Bytes → Option (Option Bytes)
  | cur, [] => some (some cur)
  | cur, f :: fs =>
    match delta.lookup f with
    | none => some none
    | some d => do
      let cur ← applyDelta cur d
      applyDeltas delta cur fs

/-- `combine_incremental_files`: what is in the file at `recovery_file_path`. -/
def combineIncrementalFiles (s : Store) (ls : Listing) (recoveryVersion : Bytes) :
    Option (Option Bytes) := do
  match ← findLe 128 (fullDir dirName fileName .incremental) recoveryVersion ls.fulls
      ls.fulls.length with
  | none => some none
  | some (i, fullTimestamp) =>
    match s.full.lookup (ls.fulls.getD i []) with
    | none => some none
    | some full =>
      if fullTimestamp = recoveryVersion then some (some full)
      else
        match ← deltaWindow (deltaDir dirName fileName .incremental) fullTimestamp recoveryVersion
            ls.deltas ls.deltas.length none none with
        | (some start, some stop) =>
          if start ≤ stop then
            applyDeltas s.delta full ((ls.deltas.drop start).take (stop + 1 - start))
          else some (some full)
        | _ => some (some full)

/-- The loop of `combine_differental_files` over the deltas. -/
def findDelta (dirName fullTimestamp recoveryVersion : Bytes) (files : List Bytes) :
    ℕ → Option (Option ℕ)
  | 0 => some none
  | k + 1 => do
    let t ← extractFileNameTimestamp 128 (dirName ++ files.getD k [])
    if t ≤ recoveryVersion ∧ fullTimestamp < t then some (some k)
    else findDelta dirName fullTimestamp recoveryVersion files k

/-- `combine_differental_files`: what is in the file at `recovery_file_path`. -/
def combineDifferentalFiles (s : Store) (ls : Listing) (recoveryVersion : Bytes) :
    Option (Option Bytes) := do
  match ← findLe 128 (fullDir dirName fileName .differential) recoveryVersion ls.fulls
      ls.fulls.length with
  | none => some none
  | some (i, fullTimestamp) =>
    match s.full.lookup (ls.fulls.getD i []) with
    | none => some none
    | some full =>
      if fullTimestamp = recoveryVersion then some (some full)
      else
        match ← findDelta (deltaDir dirName fileName .differential) fullTimestamp recoveryVersion
            ls.deltas ls.deltas.length with
        | none => some none
        | some k => applyDeltas s.delta full [ls.deltas.getD k []]

/-- The matching combine function. -/
def combineFiles (kind : BackupType) (s : Store) (ls : Listing) (recoveryVersion : Bytes) :
    Option (Option Bytes) :=
  match kind with
  | .incremental => combineIncrementalFiles dirName fileName s ls recoveryVersion
  | .differential => combineDifferentalFiles dirName fileName s ls recoveryVersion

/-- What `send_files` rebuilds for a recovery; `some none` is a recovery path that
    is left empty. -/
def rebuild (b : Backups) (recoveryVersion : Bytes) : Option (Option Bytes) := do
  let incre ← readListing dirName fileName b .incremental
  let diffe ← readListing dirName fileName b .differential
  match ← decideRecoveryType dirName fileName incre diffe recoveryVersion with
  | some .incremental => combineIncrementalFiles dirName fileName b.incremental incre recoveryVersion
  | some .differential => combineDifferentalFiles dirName fileName b.differential diffe recoveryVersion
  | none => some none

end Functions

/-! ## On directories of versions -/

/-- The timestamps below position `k` down to the one before position `m` fit a
    buffer of `size` bytes. -/
def FitsBelow (size m k : ℕ) (l : List (Bytes × Bytes)) : Prop :=
  ∀ i, ∀ h : i < l.length, i < k → m ≤ i + 1 → l[i].1.length < size

/-- The timestamps that a loop from the newest version down copies until it meets
    one up to `R` fit a buffer of `size` bytes. -/
def Fits (size : ℕ) (R : Bytes) (l : List (Bytes × Bytes)) : Prop :=
  FitsBelow size (rank R l) l.length l

section Lists

variable {l : List (Bytes × Bytes)} {p q f R : Bytes} {size m k : ℕ}

theorem FitsBelow.of_le (h : k < m) : FitsBelow size m k l :=
  fun _ _ _ _ => by omega

theorem fitsBelow_succ (hk : k < l.length) (hm : m ≤ k + 1) :
    FitsBelow size m (k + 1) l ↔ l[k].1.length < size ∧ FitsBelow size m k l := by
  constructor
  · intro h
    exact ⟨h k hk (by omega) hm, fun i hi hik hmi => h i hi (by omega) hmi⟩
  · rintro ⟨hlen, h⟩ i hi hik hmi
    rcases Nat.lt_succ_iff_lt_or_eq.1 hik with hlt | rfl
    · exact h i hi hlt hmi
    · exact hlen

theorem getD_names (hk : k < l.length) : (Dir.Holds.names p l).getD k [] = p ++ l[k].1 := by
  rw [List.getD_eq_getElem _ _ (by simpa [Dir.Holds.names] using hk)]
  simp [Dir.Holds.names]

/-- One timestamp of a directory of versions. -/
theorem extract_names (hdot : ∀ e ∈ l, dot ∉ e.1) (hp : p = q ++ [dot]) (dirName : Bytes)
    (hk : k < l.length) : extractFileNameTimestamp size (dirName ++ (Dir.Holds.names p l).getD k []) =
      if l[k].1.length < size then some l[k].1 else none := by
  rw [getD_names hk, extract_prefix hp (hdot _ (List.getElem_mem _))]

/-- **The search for the newest version up to `R`.** -/
theorem findLe_eq (hasc : Ascending l) (hdot : ∀ e ∈ l, dot ∉ e.1) (hp : p = q ++ [dot])
    {dirName : Bytes} {r : Option (ℕ × Bytes)} :
    findLe size dirName R (Dir.Holds.names p l) l.length = some r ↔
      Fits size R l ∧ r = (newest R l).map fun e => (rank R l - 1, e.1) := by
  suffices key : ∀ k ≤ l.length, rank R l ≤ k →
      (findLe size dirName R (Dir.Holds.names p l) k = some r ↔ FitsBelow size (rank R l) k l ∧
        r = (newest R l).map fun e => (rank R l - 1, e.1)) from
    key l.length le_rfl (rank_le R l)
  intro k
  induction k with
  | zero =>
    intro _ hr
    rw [findLe, newest_eq_getElem?, if_pos (Nat.le_zero.1 hr), Option.some.injEq, eq_comm]
    simp [FitsBelow]
  | succ k ih =>
    intro hk hr
    have hle := hasc.getElem_le_iff R (by omega : k < l.length)
    rw [findLe, extract_names hdot hp _ (by omega), fitsBelow_succ (by omega) hr]
    by_cases hlen : l[k].1.length < size
    swap
    · simp [hlen]
    rw [if_pos hlen, Option.bind_eq_bind, Option.bind_some]
    by_cases htR : l[k].1 ≤ R
    · -- the newest version up to `R` is here
      have hrk : rank R l = k + 1 := by have := hle.1 htR; omega
      rw [if_pos htR, newest_eq_getElem?, hrk, if_neg (by omega), Nat.add_sub_cancel,
        List.getElem?_eq_getElem (by omega), Option.some.injEq, eq_comm]
      simp [hlen, FitsBelow.of_le]
    · rw [if_neg htR, ih (by omega) (not_lt.1 fun h => htR (hle.2 h))]
      simp [hlen]

/-- The window once its end is known: it starts at the first version after `f`. -/
theorem deltaWindow_stop (hasc : Ascending l) (hdot : ∀ e ∈ l, dot ∉ e.1) (hp : p = q ++ [dot])
    {dirName : Bytes} {stop : ℕ} {r : Option ℕ × Option ℕ} (hk : k ≤ l.length)
    (hr : rank f l ≤ k) {start : Option ℕ} :
    deltaWindow dirName f R (Dir.Holds.names p l) k start (some stop) = some r ↔
      FitsBelow 128 (rank f l) k l ∧
        r = (if rank f l < k then some (rank f l) else start, some stop) := by
  induction k generalizing start with
  | zero =>
    rw [deltaWindow, if_neg (by omega), Option.some.injEq, eq_comm]
    simp [FitsBelow]
  | succ k ih =>
    have hle := hasc.getElem_le_iff f (by omega : k < l.length)
    rw [deltaWindow, extract_names hdot hp _ (by omega), fitsBelow_succ (by omega) hr]
    by_cases hlen : l[k].1.length < 128
    swap
    · simp [hlen]
    simp only [hlen, Option.bind_eq_bind, Option.bind_some, reduceCtorEq, false_and, if_false,
      ne_eq, not_false_eq_true, true_and, if_true]
    by_cases hlt : f < l[k].1
    · have hrk : rank f l ≤ k := not_lt.1 fun h => not_le.2 hlt (hle.2 h)
      rw [if_pos hlt, ih (by omega) hrk, if_pos (by omega : rank f l < k + 1)]
      refine and_congr_right fun _ => ?_
      split_ifs with h
      · rfl
      · rw [show rank f l = k by omega]
    · have hrk : rank f l = k + 1 := by have := hle.1 (not_lt.1 hlt); omega
      rw [if_neg hlt, if_neg (by omega), Option.some.injEq, eq_comm]
      simp [hrk, FitsBelow.of_le]

/-- **The deltas that `combine_incremental_files` applies** are those after the
    full backup up to the recovery version. -/
theorem deltaWindow_eq (hasc : Ascending l) (hdot : ∀ e ∈ l, dot ∉ e.1) (hp : p = q ++ [dot])
    {dirName : Bytes} (hfR : f ≤ R) {r : Option ℕ × Option ℕ} :
    deltaWindow dirName f R (Dir.Holds.names p l) l.length none none = some r ↔
      Fits 128 f l ∧ r = (if rank f l < rank R l then some (rank f l) else none,
        if rank R l = 0 then none else some (rank R l - 1)) := by
  have hmono := rank_mono hfR l
  suffices key : ∀ k ≤ l.length, rank R l ≤ k →
      (deltaWindow dirName f R (Dir.Holds.names p l) k none none = some r ↔
        FitsBelow 128 (rank f l) k l ∧ r = (if rank f l < rank R l then some (rank f l) else none,
            if rank R l = 0 then none else some (rank R l - 1))) from
    key l.length le_rfl (rank_le R l)
  intro k
  induction k with
  | zero =>
    intro _ hr
    rw [deltaWindow, if_neg (by omega), if_pos (by omega), Option.some.injEq, eq_comm]
    simp [FitsBelow]
  | succ k ih =>
    intro hk hr
    have hR := hasc.getElem_le_iff R (by omega : k < l.length)
    have hf := hasc.getElem_le_iff f (by omega : k < l.length)
    rw [deltaWindow, extract_names hdot hp _ (by omega), fitsBelow_succ (by omega) (by omega)]
    by_cases hlen : l[k].1.length < 128
    swap
    · simp [hlen]
    simp only [hlen, if_true, Option.bind_eq_bind, Option.bind_some, true_and]
    by_cases htR : l[k].1 ≤ R
    · -- the window ends here
      have hrk : rank R l = k + 1 := by have := hR.1 htR; omega
      simp only [if_pos htR, ne_eq, reduceCtorEq, not_false_eq_true, true_and, if_true, hrk,
        Nat.add_sub_cancel, Nat.succ_ne_zero, if_false]
      by_cases hlt : f < l[k].1
      · have hfk : rank f l ≤ k := not_lt.1 fun h => not_le.2 hlt (hf.2 h)
        rw [if_pos hlt, deltaWindow_stop hasc hdot hp (by omega) hfk,
          if_pos (by omega : rank f l < k + 1)]
        refine and_congr_right fun _ => ?_
        split_ifs with h
        · rfl
        · rw [show rank f l = k by omega]
      · have hfk : rank f l = k + 1 := by have := hf.1 (not_lt.1 hlt); omega
        rw [if_neg hlt, if_neg (by omega), Option.some.injEq, eq_comm]
        simp [hfk, FitsBelow.of_le]
    · have hrk : rank R l ≤ k := not_lt.1 fun h => htR (hR.2 h)
      simp only [if_neg htR, ne_eq, not_true_eq_false, false_and, if_false]
      exact ih (by omega) hrk

/-- **The delta that `combine_differental_files` applies** is the newest one after
    the full backup up to the recovery version; without one the search goes to
    the end. -/
theorem findDelta_eq (hasc : Ascending l) (hdot : ∀ e ∈ l, dot ∉ e.1) (hp : p = q ++ [dot])
    {dirName : Bytes} {r : Option ℕ} :
    findDelta dirName f R (Dir.Holds.names p l) l.length = some r ↔
      FitsBelow 128 (if rank f l < rank R l then rank R l else 0) l.length l ∧
        r = if rank f l < rank R l then some (rank R l - 1) else none := by
  set m := if rank f l < rank R l then rank R l else 0 with hm
  suffices key : ∀ k ≤ l.length, m ≤ k → (findDelta dirName f R (Dir.Holds.names p l) k = some r ↔
      FitsBelow 128 m k l ∧ r = if rank f l < rank R l then some (rank R l - 1) else none) from
    key l.length le_rfl (by have := rank_le R l; rw [hm]; split_ifs <;> omega)
  intro k
  induction k with
  | zero =>
    intro _ hr
    rw [findDelta, if_neg (by rw [hm] at hr; split_ifs at hr <;> omega), Option.some.injEq, eq_comm]
    simp [FitsBelow]
  | succ k ih =>
    intro hk hr
    have hR := hasc.getElem_le_iff R (by omega : k < l.length)
    have hf := hasc.getElem_le_iff f (by omega : k < l.length)
    rw [findDelta, extract_names hdot hp _ (by omega), fitsBelow_succ (by omega) hr]
    by_cases hlen : l[k].1.length < 128
    swap
    · simp [hlen]
    simp only [hlen, if_true, Option.bind_eq_bind, Option.bind_some, true_and]
    by_cases ht : l[k].1 ≤ R ∧ f < l[k].1
    · have hRk := hR.1 ht.1
      have hfk : rank f l ≤ k := not_lt.1 fun h => not_le.2 ht.2 (hf.2 h)
      have hrk : rank R l = k + 1 := by
        rw [hm, if_pos (by omega)] at hr
        omega
      have hmk : m = k + 1 := by rw [hm, if_pos (by omega), hrk]
      rw [if_pos ht, if_pos (by omega), hrk, Nat.add_sub_cancel, Option.some.injEq, eq_comm]
      simp [hmk, FitsBelow.of_le]
    · rw [if_neg ht, ih (by omega) ?_]
      by_contra hmk
      have hrk : m = k + 1 := by omega
      have hlt : rank f l < rank R l := by
        by_contra h
        rw [hm, if_neg h] at hrk
        omega
      rw [hm, if_pos hlt] at hrk
      exact ht ⟨hR.2 (by omega), not_le.1 fun h => by have := hf.1 h; omega⟩

/-- Deltas of the directory are applied as `replay` does. -/
theorem applyDeltas_names {d : Dir} (h : d.Holds p l) {es : List (Bytes × Bytes)} (hes : es ⊆ l)
    (cur : Bytes) :
    applyDeltas d cur (Dir.Holds.names p es) = (replay applyDelta cur es).map some := by
  induction es generalizing cur with
  | nil => rfl
  | cons e es ih =>
    obtain ⟨he, hes⟩ := List.cons_subset.1 hes
    simp only [Dir.Holds.names, List.map_cons, applyDeltas, h.lookup_of_mem he, replay,
      Option.bind_eq_bind]
    cases applyDelta cur e.2 with
    | none => rfl
    | some cur => exact ih hes cur

theorem names_between (p : Bytes) (f R : Bytes) (l : List (Bytes × Bytes)) :
    ((Dir.Holds.names p l).drop (rank f l)).take (rank R l - rank f l) =
      Dir.Holds.names p (between f R l) := by
  rw [between_eq, Dir.Holds.names, Dir.Holds.names, ← List.map_drop, ← List.map_take]

theorem between_eq_nil (h : rank R l ≤ rank f l) : between f R l = [] := by
  rw [between_eq, Nat.sub_eq_zero_of_le h, List.take_zero]

end Lists

section Combine

variable {dirName fileName R : Bytes} {s : Store} {fl dl : List (Bytes × Bytes)}
  {r : Option Bytes}

/-- A fallible result, by what it is when it does not fail. -/
theorem option_of_iff {α : Type*} {o : Option α} {P : Prop} {x : α}
    (h : ∀ r, o = some r ↔ P ∧ r = x) : (P → o = some x) ∧ (¬ P → o = none) :=
  ⟨fun hP => (h x).2 ⟨hP, rfl⟩,
    fun hP => Option.eq_none_iff_forall_ne_some.2 fun r hr => hP ((h r).1 hr).1⟩

/-- The full backup that the search has found. -/
theorem lookup_newest (hfull : s.full.Holds (fullPrefix fileName) fl) {e : Bytes × Bytes}
    (he : newest R fl = some e) :
    AList.lookup ((Dir.Holds.names (fullPrefix fileName) fl).getD (rank R fl - 1) []) s.full =
      some e.2 := by
  rw [newest_eq_getElem?] at he
  split_ifs at he with h0
  obtain ⟨hi, rfl⟩ := List.getElem?_eq_some_iff.1 he
  rw [getD_names hi]
  exact hfull.lookup_of_mem (List.getElem_mem hi)

/-- **`combine_incremental_files`** applies the deltas from the newest full backup
    up to the recovery version. -/
theorem combineIncrementalFiles_eq (hfull : s.full.Holds (fullPrefix fileName) fl)
    (hdelta : s.delta.Holds (deltaPrefix fileName) dl) :
    combineIncrementalFiles dirName fileName s ⟨Dir.Holds.names (fullPrefix fileName) fl,
        Dir.Holds.names (deltaPrefix fileName) dl⟩ R = some r ↔
      Fits 128 R fl ∧
        match newest R fl with
        | none => r = none
        | some e => (e.1 ≠ R → Fits 128 e.1 dl) ∧
            ∃ c, replay applyDelta e.2 (between e.1 R dl) = some c ∧ r = some c := by
  have hlen : ∀ p l, (Dir.Holds.names p l).length = l.length := fun p l => List.length_map _
  have hiff : ∀ r, findLe 128 (fullDir dirName fileName .incremental) R
      (Dir.Holds.names (fullPrefix fileName) fl) fl.length = some r ↔
        Fits 128 R fl ∧ r = (newest R fl).map fun e => (rank R fl - 1, e.1) :=
    fun r => findLe_eq hfull.ascending hfull.noDot (fullPrefix_eq fileName)
  obtain ⟨hfind, hnone⟩ := option_of_iff hiff
  by_cases hfit : Fits 128 R fl
  swap
  · simp [combineIncrementalFiles, hlen, hnone hfit, hfit]
  simp only [combineIncrementalFiles, hlen, hfind hfit, Option.bind_eq_bind, Option.bind_some, hfit,
    true_and]
  cases he : newest R fl with
  | none => simp [eq_comm]
  | some e =>
    simp only [Option.map_some, lookup_newest hfull he]
    have heR : e.1 ≤ R := (hfull.ascending.newest_eq_some.1 he).2.1
    by_cases hR : e.1 = R
    · rw [if_pos hR, hR, between_eq_nil le_rfl]
      simp [replay, eq_comm]
    rw [if_neg hR]
    have hiff : ∀ r, deltaWindow (deltaDir dirName fileName .incremental) e.1 R
        (Dir.Holds.names (deltaPrefix fileName) dl) dl.length none none = some r ↔
          Fits 128 e.1 dl ∧ r = (if rank e.1 dl < rank R dl then some (rank e.1 dl) else none,
            if rank R dl = 0 then none else some (rank R dl - 1)) :=
      fun r => deltaWindow_eq hdelta.ascending hdelta.noDot (deltaPrefix_eq fileName) heR
    obtain ⟨hwin, hnone⟩ := option_of_iff hiff
    by_cases hfd : Fits 128 e.1 dl
    swap
    · simp [hnone hfd, hfd, hR]
    rw [hwin hfd, Option.bind_some]
    by_cases hlt : rank e.1 dl < rank R dl
    · simp only [if_pos hlt, if_neg (by omega : ¬ rank R dl = 0)]
      rw [if_pos (by omega), Nat.sub_add_cancel (by omega), names_between,
        applyDeltas_names hdelta (fun e he => (hdelta.ascending.mem_between.1 he).1)]
      simp [hfd, eq_comm]
    · simp only [if_neg hlt]
      rw [between_eq_nil (not_lt.1 hlt)]
      simp [replay, hfd, eq_comm]

/-- What the loop of `combine_differental_files` over the deltas copies: down to
    the newest delta after `f` up to `R`, or all without one. -/
def FitsDelta (f R : Bytes) (l : List (Bytes × Bytes)) : Prop :=
  FitsBelow 128 (if rank f l < rank R l then rank R l else 0) l.length l

/-- **`combine_differental_files`** applies the newest delta after the full backup
    to it.  Without one it only succeeds on the version of the full backup. -/
theorem combineDifferentalFiles_eq (hfull : s.full.Holds (fullPrefix fileName) fl)
    (hdelta : s.delta.Holds (deltaPrefix fileName) dl) :
    combineDifferentalFiles dirName fileName s ⟨Dir.Holds.names (fullPrefix fileName) fl,
        Dir.Holds.names (deltaPrefix fileName) dl⟩ R = some r ↔
      Fits 128 R fl ∧
        match newest R fl with
        | none => r = none
        | some e =>
          if e.1 = R then r = some e.2
          else FitsDelta e.1 R dl ∧
            match (between e.1 R dl).getLast? with
            | none => r = none
            | some d => ∃ c, applyDelta e.2 d.2 = some c ∧ r = some c := by
  have hlen : ∀ p l, (Dir.Holds.names p l).length = l.length := fun p l => List.length_map _
  have hiff : ∀ r, findLe 128 (fullDir dirName fileName .differential) R
      (Dir.Holds.names (fullPrefix fileName) fl) fl.length = some r ↔
        Fits 128 R fl ∧ r = (newest R fl).map fun e => (rank R fl - 1, e.1) :=
    fun r => findLe_eq hfull.ascending hfull.noDot (fullPrefix_eq fileName)
  obtain ⟨hfind, hnone⟩ := option_of_iff hiff
  by_cases hfit : Fits 128 R fl
  swap
  · simp [combineDifferentalFiles, hlen, hnone hfit, hfit]
  simp only [combineDifferentalFiles, hlen, hfind hfit, Option.bind_eq_bind, Option.bind_some, hfit,
    true_and]
  cases he : newest R fl with
  | none => simp [eq_comm]
  | some e =>
    simp only [Option.map_some, lookup_newest hfull he]
    by_cases hR : e.1 = R
    · rw [if_pos hR, if_pos hR, Option.some.injEq, eq_comm]
    rw [if_neg hR, if_neg hR]
    have hiff : ∀ r, findDelta (deltaDir dirName fileName .differential) e.1 R
        (Dir.Holds.names (deltaPrefix fileName) dl) dl.length = some r ↔
          FitsDelta e.1 R dl ∧ r = if rank e.1 dl < rank R dl then some (rank R dl - 1) else none :=
      fun r => findDelta_eq hdelta.ascending hdelta.noDot (deltaPrefix_eq fileName)
    obtain ⟨hwin, hnone⟩ := option_of_iff hiff
    by_cases hfd : FitsDelta e.1 R dl
    swap
    · simp [hnone hfd, hfd]
    rw [hwin hfd, Option.bind_some, and_iff_right hfd]
    by_cases hlt : rank e.1 dl < rank R dl
    · have hk : rank R dl - 1 < dl.length := by have := rank_le R dl; omega
      have hlast : (between e.1 R dl).getLast? = some dl[rank R dl - 1] := by
        rw [between_eq, List.getLast?_take, if_neg (by omega), List.getElem?_drop,
          show rank e.1 dl + (rank R dl - rank e.1 dl - 1) = rank R dl - 1 by omega,
          List.getElem?_eq_getElem hk]
        rfl
      simp only [if_pos hlt, hlast]
      have hmem : [dl[rank R dl - 1]] ⊆ dl :=
        List.cons_subset.2 ⟨List.getElem_mem hk, List.nil_subset _⟩
      have happ := applyDeltas_names hdelta hmem e.2
      rw [getD_names hk, show [deltaPrefix fileName ++ dl[rank R dl - 1].1] =
        Dir.Holds.names (deltaPrefix fileName) [dl[rank R dl - 1]] from rfl, happ, replay]
      simp [replay, eq_comm]
    · simp only [if_neg hlt]
      rw [between_eq_nil (not_lt.1 hlt)]
      simp [eq_comm]

end Combine

end CloudEdgeBackup
