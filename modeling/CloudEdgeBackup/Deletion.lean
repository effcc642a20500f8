/-
  Deleting files and directories (`delete.c`).

  * a tree carries with each file and directory how the system calls on it end (`LeafInfo`,
    `DirInfo`), so that a statement about every tree is one about every outcome; `rmdir` fails on a
    directory that is not empty;
  * `deleteItem` removes one item, a directory after its contents; `deleteKids` is the loop of
    `delete_dir_contents`, from the last entry to the first;
  * the events are what really happened, next to the counters of `stats`. `Deletes` says what a
    part of a run does: the counters grow with the events, the limit holds, and a directory goes
    after all that was in it. `deleteKids_spec` proves it over the tree, `deleteItems_spec` over a
    sequence of calls.

  A device counts as a symlink, and a file that `make_backup` does not find counts as removed.
-/
import CloudEdgeBackup.Rsync

namespace CloudEdgeBackup

/-! ## Trees and outcomes -/

/-- What a file is that is no directory. -/
inductive LeafKind where
  | reg | lnk | device | special
  deriving DecidableEq

inductive Errno where
  | enoent | enotempty | other
  deriving DecidableEq

/-- What `make_backup` returns: 0 with `errno`, 1, 2, or 3 where it finds no file (which need not
    be gone). -/
inductive BackupResult where
  | failed (errno : Errno)
  | renamed
  | copied
  | noFile (gone : Bool)

/-- A file: whether the list of its directory has it, and what `make_backup` and `unlink` return. -/
structure LeafInfo where
  fname : Bytes
  kind : LeafKind
  listed : Bool
  backup : BackupResult
  unlink : Option Errno

/-- A directory: besides, whether it is a mount point, whether the filters keep something in it
    that is not perishable, and what `rmdir` returns once it is empty. -/
structure DirInfo where
  fname : Bytes
  listed : Bool
  mountDir : Bool
  nonPerishable : Bool
  rmdir : Option Errno

inductive DelNode where
  | leaf (info : LeafInfo)
  | dir (info : DirInfo) (kids : List DelNode)

mutual

/-- A node and all below it. -/
def DelNode.items : DelNode → List DelNode
  | .leaf info => [.leaf info]
  | .dir info kids => .dir info kids :: DelNode.itemsOf kids

def DelNode.itemsOf : List DelNode → List DelNode
  | [] => []
  | k :: ks => DelNode.items k ++ DelNode.itemsOf ks

end

/-- The node is in the list of its directory. -/
def DelNode.Listed : DelNode → Bool
  | .leaf info => info.listed
  | .dir info _ => info.listed

/-! ## Events and counters -/

/-- What happened to a node: it was removed, somebody else had removed it (with all in it), or
    `make_backup` did not find it. -/
inductive DelEvent where
  | removed (n : DelNode)
  | vanished (n : DelNode)
  | missed (info : LeafInfo) (gone : Bool)

structure DelStats where
  deletedFiles : ℕ
  deletedDirs : ℕ
  deletedSymlinks : ℕ
  deletedDevices : ℕ
  deletedSpecials : ℕ
  skippedDeletes : ℕ

structure DelState where
  stats : DelStats
  events : List DelEvent

inductive DelRet where
  | success | failure | atLimit | notEmpty
  deriving DecidableEq

structure DelOpts where
  makeBackups : ℤ
  backupDir : Bool
  backupSuffix : Bytes
  maxDelete : ℤ

/-- The flags of a call; `makeRoom` is any of `DEL_MAKE_ROOM`. -/
structure DelFlags where
  recurse : Bool
  dirIsEmpty : Bool
  makeRoom : Bool
  forBackup : Bool

/-- `is_backup_file`. -/
def DelOpts.isBackupFile (o : DelOpts) (fname : Bytes) : Bool :=
  decide (o.backupSuffix.length < fname.length) && o.backupSuffix.isSuffixOf fname

/-- The count of a file that was deleted. -/
def DelStats.countLeaf (s : DelStats) : LeafKind → DelStats
  | .reg => { s with deletedFiles := s.deletedFiles + 1 }
  | .lnk => { s with deletedFiles := s.deletedFiles + 1, deletedSymlinks := s.deletedSymlinks + 1 }
  | .device => { s with deletedFiles := s.deletedFiles + 1, deletedSymlinks := s.deletedSymlinks + 1 }
  | .special => { s with deletedFiles := s.deletedFiles + 1, deletedSpecials := s.deletedSpecials + 1 }

def DelStats.countDir (s : DelStats) : DelStats :=
  { s with deletedFiles := s.deletedFiles + 1, deletedDirs := s.deletedDirs + 1 }

namespace DelState

def skip (st : DelState) : DelState :=
  { st with stats := { st.stats with skippedDeletes := st.stats.skippedDeletes + 1 } }

def event (st : DelState) (e : DelEvent) : DelState := { st with events := st.events ++ [e] }

end DelState

section Model

variable (o : DelOpts)

/-- The limit is reached. -/
def atLimit (flags : DelFlags) (st : DelState) : Bool :=
  !flags.makeRoom && decide (0 ≤ o.maxDelete) && decide (o.maxDelete ≤ st.stats.deletedFiles)

/-- How the attempt on a file ends. -/
inductive Attempt where
  | done
  | missed (gone : Bool)
  | failed (errno : Errno)

def LeafInfo.tryUnlink (info : LeafInfo) : Attempt :=
  match info.unlink with
  | none => .done
  | some errno => .failed errno

def LeafInfo.attempt (flags : DelFlags) (info : LeafInfo) : Attempt :=
  if o.makeBackups > 0 ∧ flags.forBackup = false ∧ (o.backupDir = true ∨ o.isBackupFile info.fname = false) then
    match info.backup with
    | .failed errno => .failed errno
    | .renamed => .done
    | .copied => info.tryUnlink
    | .noFile gone => .missed gone
  else info.tryUnlink

/-- `delete_item` on a file; the second component says whether it is gone. -/
def removeLeaf (flags : DelFlags) (info : LeafInfo) (st : DelState) : DelRet × Bool × DelState :=
  if atLimit o flags st then (.atLimit, false, st.skip)
  else
    let counted : DelState := if flags.makeRoom then st else { st with stats := st.stats.countLeaf info.kind }
    match info.attempt o flags with
    | .done => (.success, true, counted.event (.removed (.leaf info)))
    | .missed gone => (.success, gone, counted.event (.missed info gone))
    | .failed errno =>
      if errno ≠ .enoent then (.failure, false, st) else (.success, true, st.event (.vanished (.leaf info)))

/-- The end of `delete_item` on a directory of which `left` is still there. -/
def removeDir (flags : DelFlags) (info : DirInfo) (kids left : List DelNode) (st : DelState) :
    DelRet × Bool × DelState :=
  if atLimit o flags st then (.atLimit, false, st.skip)
  else
    let counted : DelState := if flags.makeRoom then st else { st with stats := st.stats.countDir }
    match if left.isEmpty then info.rmdir else some (info.rmdir.getD .enotempty) with
    | none => (.success, true, counted.event (.removed (.dir info kids)))
    | some .enotempty => (.notEmpty, false, st)
    | some .enoent => (.success, true, st.event (.vanished (.dir info kids)))
    | some .other => (.failure, false, st)

/-- The flags for the contents of a directory. -/
def DelFlags.contents (flags : DelFlags) : DelFlags :=
  { flags with recurse := false, dirIsEmpty := true, makeRoom := false }

/-- `delete_dir_contents` but for its loop, which is given. -/
def dirContents (info : DirInfo) (kids : List DelNode) (recurse : Bool)
    (loop : DelState → Bool × List DelNode × DelState) (st : DelState) : DelRet × List DelNode × DelState :=
  let ret : DelRet := if info.nonPerishable then .notEmpty else .success
  if kids.all fun k => !k.Listed then (ret, kids, st)
  else if recurse = false then (.notEmpty, kids, st)
  else
    let r := loop st
    (if r.1 then .notEmpty else ret, r.2.1, r.2.2)

mutual

/-- One round of the loop of `delete_dir_contents`: whether the directory stays, and what is left
    of the entry. -/
def deleteKid (flags : DelFlags) : DelNode → DelState → Bool × Option DelNode × DelState
  | .leaf info, st =>
    if info.listed then
      let r := removeLeaf o flags info st
      (decide (r.1 ≠ .success), if r.2.1 then none else some (.leaf info), r.2.2)
    else (false, some (.leaf info), st)
  | .dir info kids, st =>
    if info.listed = false then (false, some (.dir info kids), st)
    else if info.mountDir then (true, some (.dir info kids), st)
    else
      let r := dirContents info kids true (deleteKids flags kids) st
      let r' := removeDir o flags info kids r.2.1 r.2.2
      (decide (r.1 ≠ .success ∨ r'.1 ≠ .success), if r'.2.1 then none else some (.dir info r.2.1), r'.2.2)

/-- The loop, from the last entry. -/
def deleteKids (flags : DelFlags) : List DelNode → DelState → Bool × List DelNode × DelState
  | [], st => (false, [], st)
  | k :: ks, st =>
    let r := deleteKids flags ks st
    let r' := deleteKid flags k r.2.2
    (r.1 || r'.1, r'.2.1.toList ++ r.2.1, r'.2.2)

end

/-- `delete_item`. -/
def deleteItem (flags : DelFlags) (n : DelNode) (st : DelState) : DelRet × DelState :=
  match n with
  | .leaf info =>
    let r := removeLeaf o flags info st
    (r.1, r.2.2)
  | .dir info kids =>
    if flags.dirIsEmpty then
      let r := removeDir o flags info kids kids st
      (r.1, r.2.2)
    else
      let r := dirContents info kids flags.recurse (deleteKids o flags.contents kids) st
      if r.1 = .notEmpty ∨ r.1 = .atLimit then (r.1, r.2.2)
      else
        let r' := removeDir o flags info kids r.2.1 r.2.2
        (r'.1, r'.2.2)

/-- A sequence of calls. -/
def deleteItems : List (DelFlags × DelNode) → DelState → DelState
  | [], st => st
  | (flags, n) :: calls, st => deleteItems calls (deleteItem o flags n st).2

end Model

/-! ## What a run does -/

namespace DelEvent

/-- The node is gone by the event. -/
def Gone (x : DelNode) : DelEvent → Prop
  | removed n => x = n
  | vanished n => x ∈ n.items
  | missed info gone => gone = true ∧ x = .leaf info

/-- A file of the kind was counted, rightly or not. -/
def countsLeaf (kind : LeafKind) : DelEvent → Bool
  | removed (.leaf info) => info.kind = kind
  | missed info _ => info.kind = kind
  | _ => false

/-- A file of the kind was removed. -/
def removesLeaf (kind : LeafKind) : DelEvent → Bool
  | removed (.leaf info) => info.kind = kind
  | _ => false

def removesDir : DelEvent → Bool
  | removed (.dir _ _) => true
  | _ => false

/-- An item was removed. -/
def removes : DelEvent → Bool
  | removed _ => true
  | _ => false

/-- Something was counted. -/
def counts : DelEvent → Bool
  | vanished _ => false
  | _ => true

end DelEvent

/-- A directory is removed after everything below it is gone. -/
def Ordered (ℓ : List DelEvent) : Prop :=
  ∀ i info kids, ℓ[i]? = some (.removed (.dir info kids)) →
    ∀ x ∈ DelNode.itemsOf kids, ∃ e ∈ ℓ.take i, e.Gone x

/-- Everything in the list is gone by the events. -/
def Covers (ℓ : List DelEvent) (ns : List DelNode) : Prop := ∀ x ∈ ns, ∃ e ∈ ℓ, e.Gone x

/-- From `st` to `st'`, with the events `ℓ` and a limit of `m`. -/
structure Deletes (m : ℤ) (st st' : DelState) (ℓ : List DelEvent) : Prop where
  events : st'.events = st.events ++ ℓ
  files : st'.stats.deletedFiles = st.stats.deletedFiles + ℓ.countP DelEvent.counts
  dirs : st'.stats.deletedDirs = st.stats.deletedDirs + ℓ.countP DelEvent.removesDir
  symlinks : st'.stats.deletedSymlinks = st.stats.deletedSymlinks +
    (ℓ.countP (DelEvent.countsLeaf .lnk) + ℓ.countP (DelEvent.countsLeaf .device))
  devices : st'.stats.deletedDevices = st.stats.deletedDevices
  specials : st'.stats.deletedSpecials = st.stats.deletedSpecials + ℓ.countP (DelEvent.countsLeaf .special)
  limit : 0 ≤ m → (st.stats.deletedFiles : ℤ) ≤ m → (st'.stats.deletedFiles : ℤ) ≤ m

section Steps

variable {m : ℤ} {st st' st'' : DelState} {ℓ ℓ' : List DelEvent} {ns : List DelNode}

theorem Deletes.refl (m : ℤ) (st : DelState) : Deletes m st st [] := by
  constructor <;> simp

theorem Deletes.trans (h : Deletes m st st' ℓ) (h' : Deletes m st' st'' ℓ') :
    Deletes m st st'' (ℓ ++ ℓ') := by
  constructor
  case events => rw [h'.events, h.events, List.append_assoc]
  case files => rw [h'.files, h.files, List.countP_append, add_assoc]
  case dirs => rw [h'.dirs, h.dirs, List.countP_append, add_assoc]
  case symlinks =>
    rw [h'.symlinks, h.symlinks, List.countP_append, List.countP_append]
    omega
  case devices => rw [h'.devices, h.devices]
  case specials => rw [h'.specials, h.specials, List.countP_append, add_assoc]
  case limit => exact fun h0 hm => h'.limit h0 (h.limit h0 hm)

/-- A call that reaches the limit only counts what it leaves. -/
theorem Deletes.skip (m : ℤ) (st : DelState) : Deletes m st st.skip [] := by
  constructor <;> simp [DelState.skip]

/-- Nothing is counted for what somebody else removed. -/
theorem Deletes.vanished (m : ℤ) (st : DelState) (n : DelNode) :
    Deletes m st (st.event (.vanished n)) [.vanished n] := by
  constructor <;>
    simp [DelState.event, DelEvent.counts, DelEvent.removesDir, DelEvent.countsLeaf]

theorem Ordered.nil : Ordered [] := fun i info kids h => by simp at h

theorem Ordered.append (h : Ordered ℓ) (h' : Ordered ℓ') : Ordered (ℓ ++ ℓ') := by
  intro i info kids hi x hx
  rcases lt_or_ge i ℓ.length with hlt | hge
  · rw [List.getElem?_append_left hlt] at hi
    obtain ⟨e, he, hgone⟩ := h i info kids hi x hx
    refine ⟨e, ?_, hgone⟩
    rw [List.take_append_of_le_length hlt.le]
    exact he
  · rw [List.getElem?_append_right hge] at hi
    obtain ⟨e, he, hgone⟩ := h' _ info kids hi x hx
    refine ⟨e, ?_, hgone⟩
    rw [List.take_append, List.mem_append]
    exact .inr he

/-- An event that removes no directory. -/
theorem Ordered.concat_other (h : Ordered ℓ) {e : DelEvent} (he : e.removesDir = false) : Ordered (ℓ ++ [e]) := by
  refine h.append fun i info kids hi => ?_
  rw [List.getElem?_singleton] at hi
  split_ifs at hi
  obtain rfl := Option.some.inj hi
  cases he

/-- A directory whose contents are gone. -/
theorem Ordered.concat_dir (h : Ordered ℓ) {info : DirInfo} {kids : List DelNode}
    (hcov : Covers ℓ (DelNode.itemsOf kids)) : Ordered (ℓ ++ [.removed (.dir info kids)]) := by
  intro i info' kids' hi x hx
  rcases lt_or_ge i ℓ.length with hlt | hge
  · rw [List.getElem?_append_left hlt] at hi
    rw [List.take_append_of_le_length hlt.le]
    exact h i info' kids' hi x hx
  · rw [List.getElem?_append_right hge] at hi
    obtain ⟨hi0, heq⟩ := List.getElem?_eq_some_iff.1 hi
    rw [List.length_singleton, Nat.lt_one_iff] at hi0
    obtain rfl : i = ℓ.length := by omega
    simp at heq
    obtain ⟨-, rfl⟩ := heq
    rw [List.take_left]
    exact hcov x hx

theorem Covers.append_left (h : Covers ℓ ns) : Covers (ℓ ++ ℓ') ns := by
  intro x hx
  obtain ⟨e, he, hgone⟩ := h x hx
  exact ⟨e, List.mem_append_left _ he, hgone⟩

theorem Covers.append_right (h : Covers ℓ' ns) : Covers (ℓ ++ ℓ') ns := by
  intro x hx
  obtain ⟨e, he, hgone⟩ := h x hx
  exact ⟨e, List.mem_append_right _ he, hgone⟩

end Steps

/-! ## The calls -/

section Calls

variable {o : DelOpts} {flags : DelFlags}

theorem atLimit_eq_false (hflags : flags.makeRoom = false) {st : DelState} (h : ¬atLimit o flags st = true) :
    0 ≤ o.maxDelete → (st.stats.deletedFiles : ℤ) < o.maxDelete := by
  intro h0
  simp only [atLimit, hflags, Bool.not_false, Bool.true_and, Bool.and_eq_true, decide_eq_true_eq, not_and,
    not_le] at h
  exact h h0

/-- A file is counted once it was removed, or where it was not found. -/
theorem Deletes.leaf {st : DelState} {info : LeafInfo} {m : ℤ} {e : DelEvent}
    (hm : 0 ≤ m → (st.stats.deletedFiles : ℤ) < m)
    (he : e = .removed (.leaf info) ∨ ∃ gone, e = .missed info gone) :
    Deletes m st (DelState.event { st with stats := st.stats.countLeaf info.kind } e) [e] := by
  have hcounts : e.counts = true ∧ e.removesDir = false ∧
      ∀ kind, e.countsLeaf kind = decide (info.kind = kind) := by
    rcases he with rfl | ⟨gone, rfl⟩ <;> exact ⟨rfl, rfl, fun _ => rfl⟩
  obtain ⟨hc, hd, hk⟩ := hcounts
  have hone : ∀ p : DelEvent → Bool, [e].countP p = if p e then 1 else 0 := fun p => by
    rw [List.countP_singleton]
  constructor
  case events => rfl
  case limit =>
    intro h0 _
    have hlt := hm h0
    have hfiles : (st.stats.countLeaf info.kind).deletedFiles = st.stats.deletedFiles + 1 := by
      cases info.kind <;> rfl
    change ((st.stats.countLeaf info.kind).deletedFiles : ℤ) ≤ m
    rw [hfiles]
    push_cast
    omega
  all_goals
    simp only [hone, hc, hd, hk, DelState.event]
    cases info.kind <;> rfl

/-- A directory is counted once it was removed. -/
theorem Deletes.dir {st : DelState} {info : DirInfo} {kids : List DelNode} {m : ℤ}
    (hm : 0 ≤ m → (st.stats.deletedFiles : ℤ) < m) :
    Deletes m st (DelState.event { st with stats := st.stats.countDir } (.removed (.dir info kids)))
      [.removed (.dir info kids)] := by
  constructor
  case events => rfl
  case limit =>
    intro h0 _
    have hlt := hm h0
    simp only [DelState.event, DelStats.countDir]
    push_cast
    omega
  all_goals
    simp [DelState.event, DelStats.countDir, DelEvent.counts, DelEvent.removesDir, DelEvent.countsLeaf]

/-- **`delete_item` on a file.** -/
theorem removeLeaf_spec (hflags : flags.makeRoom = false) (info : LeafInfo) (st : DelState) :
    ∃ ℓ, Deletes o.maxDelete st (removeLeaf o flags info st).2.2 ℓ ∧ Ordered ℓ ∧
      ((removeLeaf o flags info st).2.1 = true → Covers ℓ [.leaf info]) := by
  rw [removeLeaf]
  by_cases hlim : atLimit o flags st = true
  · rw [if_pos hlim]
    exact ⟨[], .skip _ _, .nil, fun h => by cases h⟩
  · have hm := atLimit_eq_false hflags hlim
    rw [if_neg hlim]
    simp only [hflags, Bool.false_eq_true, if_false]
    cases info.attempt o flags with
    | done =>
      refine ⟨_, .leaf hm (.inl rfl), Ordered.nil.concat_other rfl, fun _ x hx => ?_⟩
      exact ⟨_, List.mem_singleton_self _, List.mem_singleton.1 hx⟩
    | missed gone =>
      refine ⟨_, .leaf hm (.inr ⟨gone, rfl⟩), Ordered.nil.concat_other rfl, fun hgone x hx => ?_⟩
      exact ⟨_, List.mem_singleton_self _, hgone, List.mem_singleton.1 hx⟩
    | failed errno =>
      dsimp only
      split_ifs with he
      · exact ⟨[], .refl _ _, .nil, fun h => by cases h⟩
      · refine ⟨_, .vanished _ _ _, Ordered.nil.concat_other rfl, fun _ x hx => ?_⟩
        refine ⟨_, List.mem_singleton_self _, ?_⟩
        rwa [DelEvent.Gone, DelNode.items]

/-- **The end of `delete_item` on a directory**, after the events `ℓ`. -/
theorem removeDir_spec (hflags : flags.makeRoom = false) (info : DirInfo) (kids left : List DelNode)
    {ℓ : List DelEvent} (hord : Ordered ℓ) (hcov : left = [] → Covers ℓ (DelNode.itemsOf kids)) (st : DelState) :
    ∃ ℓ', Deletes o.maxDelete st (removeDir o flags info kids left st).2.2 ℓ' ∧ Ordered (ℓ ++ ℓ') ∧
      ((removeDir o flags info kids left st).2.1 = true →
        Covers (ℓ ++ ℓ') (DelNode.items (.dir info kids))) := by
  rw [removeDir]
  by_cases hlim : atLimit o flags st = true
  · rw [if_pos hlim]
    exact ⟨[], .skip _ _, by rwa [List.append_nil], fun h => by cases h⟩
  · have hm := atLimit_eq_false hflags hlim
    rw [if_neg hlim]
    simp only [hflags, Bool.false_eq_true, if_false]
    cases hres : (if left.isEmpty then info.rmdir else some (info.rmdir.getD .enotempty)) with
    | none =>
      have hleft : left = [] := by
        rw [← List.isEmpty_iff]
        by_contra hne
        simp [hne] at hres
      refine ⟨_, .dir hm, hord.concat_dir (hcov hleft), fun _ x hx => ?_⟩
      rw [DelNode.items, List.mem_cons] at hx
      rcases hx with rfl | hx
      · exact ⟨_, List.mem_append_right _ (List.mem_singleton_self _), rfl⟩
      · exact (hcov hleft).append_left x hx
    | some errno =>
      cases errno with
      | enotempty => exact ⟨[], .refl _ _, by rwa [List.append_nil], fun h => by cases h⟩
      | other => exact ⟨[], .refl _ _, by rwa [List.append_nil], fun h => by cases h⟩
      | enoent =>
        refine ⟨_, .vanished _ _ _, hord.concat_other rfl, fun _ x hx => ?_⟩
        exact ⟨_, List.mem_append_right _ (List.mem_singleton_self _), hx⟩

/-- `delete_dir_contents`, given what its loop does. -/
theorem dirContents_spec (info : DirInfo) {kids : List DelNode} (recurse : Bool)
    {loop : DelState → Bool × List DelNode × DelState} {st : DelState}
    (hloop : ∃ ℓ, Deletes o.maxDelete st (loop st).2.2 ℓ ∧ Ordered ℓ ∧
      ((loop st).2.1 = [] → Covers ℓ (DelNode.itemsOf kids))) :
    ∃ ℓ, Deletes o.maxDelete st (dirContents info kids recurse loop st).2.2 ℓ ∧ Ordered ℓ ∧
      ((dirContents info kids recurse loop st).2.1 = [] → Covers ℓ (DelNode.itemsOf kids)) := by
  have hstay : kids = [] → Covers [] (DelNode.itemsOf kids) := by
    rintro rfl x hx
    exact absurd hx (by simp [DelNode.itemsOf])
  rw [dirContents]
  by_cases hempty : (kids.all fun k => !k.Listed) = true
  · rw [if_pos hempty]
    exact ⟨[], .refl _ _, .nil, hstay⟩
  · rw [if_neg hempty]
    by_cases hrec : recurse = false
    · rw [if_pos hrec]
      exact ⟨[], .refl _ _, .nil, hstay⟩
    · rw [if_neg hrec]
      exact hloop

mutual

theorem deleteKid_spec (hflags : flags.makeRoom = false) : ∀ (n : DelNode) (st : DelState),
    ∃ ℓ, Deletes o.maxDelete st (deleteKid o flags n st).2.2 ℓ ∧ Ordered ℓ ∧
      ((deleteKid o flags n st).2.1 = none → Covers ℓ n.items)
  | .leaf info, st => by
    rw [deleteKid]
    split_ifs
    · obtain ⟨ℓ, hdel, hord, hcov⟩ := removeLeaf_spec (o := o) hflags info st
      refine ⟨ℓ, hdel, hord, fun hnone => ?_⟩
      rw [DelNode.items]
      refine hcov ?_
      dsimp only at hnone
      split_ifs at hnone with hgone
      exact hgone
    · exact ⟨[], .refl _ _, .nil, fun h => by cases h⟩
  | .dir info kids, st => by
    rw [deleteKid]
    split_ifs
    · exact ⟨[], .refl _ _, .nil, fun h => by cases h⟩
    · exact ⟨[], .refl _ _, .nil, fun h => by cases h⟩
    · obtain ⟨ℓ, hdel, hord, hcov⟩ := dirContents_spec info true (deleteKids_spec hflags kids st)
      obtain ⟨ℓ', hdel', hord', hcov'⟩ := removeDir_spec (o := o) hflags info kids _ hord hcov
        (dirContents info kids true (deleteKids o flags kids) st).2.2
      refine ⟨ℓ ++ ℓ', hdel.trans hdel', hord', fun hnone => hcov' ?_⟩
      dsimp only at hnone
      split_ifs at hnone with hgone
      exact hgone

/-- **The loop over a directory**: what it removes, in which order, and what is gone if nothing is
    left. -/
theorem deleteKids_spec (hflags : flags.makeRoom = false) : ∀ (ns : List DelNode) (st : DelState),
    ∃ ℓ, Deletes o.maxDelete st (deleteKids o flags ns st).2.2 ℓ ∧ Ordered ℓ ∧
      ((deleteKids o flags ns st).2.1 = [] → Covers ℓ (DelNode.itemsOf ns))
  | [], st => ⟨[], .refl _ _, .nil, fun _ x hx => absurd hx (by simp [DelNode.itemsOf])⟩
  | n :: ns, st => by
    obtain ⟨ℓ, hdel, hord, hcov⟩ := deleteKids_spec hflags ns st
    obtain ⟨ℓ', hdel', hord', hcov'⟩ := deleteKid_spec hflags n (deleteKids o flags ns st).2.2
    rw [deleteKids]
    refine ⟨ℓ ++ ℓ', hdel.trans hdel', hord.append hord', fun hnil => ?_⟩
    obtain ⟨hn, hns⟩ := List.append_eq_nil_iff.1 hnil
    intro x hx
    rw [DelNode.itemsOf, List.mem_append] at hx
    rcases hx with hx | hx
    · exact (hcov' (by simpa using hn)).append_right x hx
    · exact (hcov hns).append_left x hx

end

/-- **One call of `delete_item`.** -/
theorem deleteItem_spec (hflags : flags.makeRoom = false) (n : DelNode) (st : DelState) :
    ∃ ℓ, Deletes o.maxDelete st (deleteItem o flags n st).2 ℓ ∧ Ordered ℓ := by
  cases n with
  | leaf info =>
    obtain ⟨ℓ, hdel, hord, -⟩ := removeLeaf_spec (o := o) hflags info st
    exact ⟨ℓ, hdel, hord⟩
  | dir info kids =>
    rw [deleteItem]
    split_ifs
    · obtain ⟨ℓ, hdel, hord, -⟩ := removeDir_spec (o := o) hflags info kids kids
        Ordered.nil (fun hk x hx => by simp [hk, DelNode.itemsOf] at hx) st
      exact ⟨ℓ, hdel, hord⟩
    · obtain ⟨ℓ, hdel, hord, hcov⟩ := dirContents_spec (o := o) info flags.recurse
        (deleteKids_spec (rfl : flags.contents.makeRoom = false) kids st)
      dsimp only
      split_ifs
      · exact ⟨ℓ, hdel, hord⟩
      · obtain ⟨ℓ', hdel', hord', -⟩ := removeDir_spec (o := o) hflags info kids _ hord hcov
          (dirContents info kids flags.recurse (deleteKids o flags.contents kids) st).2.2
        exact ⟨ℓ ++ ℓ', hdel.trans hdel', hord'⟩

/-- **A sequence of calls.** -/
theorem deleteItems_spec {calls : List (DelFlags × DelNode)} (hcalls : ∀ c ∈ calls, c.1.makeRoom = false)
    (st : DelState) : ∃ ℓ, Deletes o.maxDelete st (deleteItems o calls st) ℓ ∧ Ordered ℓ := by
  induction calls generalizing st with
  | nil => exact ⟨[], .refl _ _, .nil⟩
  | cons c calls ih =>
    obtain ⟨ℓ, hdel, hord⟩ := deleteItem_spec (o := o) (hcalls c List.mem_cons_self) c.2 st
    obtain ⟨ℓ', hdel', hord'⟩ := ih (fun c' hc' => hcalls c' (List.mem_cons_of_mem _ hc')) _
    exact ⟨ℓ ++ ℓ', hdel.trans hdel', hord.append hord'⟩

end Calls

/-! ## The counters -/

/-- The counters grew by what was removed. -/
structure CountsRight (st st' : DelState) (ℓ : List DelEvent) : Prop where
  files : st'.stats.deletedFiles = st.stats.deletedFiles + ℓ.countP DelEvent.removes
  dirs : st'.stats.deletedDirs = st.stats.deletedDirs + ℓ.countP DelEvent.removesDir
  symlinks : st'.stats.deletedSymlinks = st.stats.deletedSymlinks + ℓ.countP (DelEvent.removesLeaf .lnk)
  devices : st'.stats.deletedDevices = st.stats.deletedDevices + ℓ.countP (DelEvent.removesLeaf .device)
  specials : st'.stats.deletedSpecials = st.stats.deletedSpecials + ℓ.countP (DelEvent.removesLeaf .special)

/-- `make_backup` did not find the file. -/
def DelEvent.misses : DelEvent → Bool
  | missed _ _ => true
  | _ => false

theorem countP_counts (ℓ : List DelEvent) :
    ℓ.countP DelEvent.counts = ℓ.countP DelEvent.removes + ℓ.countP DelEvent.misses := by
  induction ℓ with
  | nil => rfl
  | cons e ℓ ih =>
    rw [List.countP_cons, List.countP_cons, List.countP_cons, ih]
    cases e <;> simp [DelEvent.counts, DelEvent.removes, DelEvent.misses] <;> omega

theorem countP_countsLeaf {ℓ : List DelEvent} (h : ∀ e ∈ ℓ, e.misses = false) (kind : LeafKind) :
    ℓ.countP (DelEvent.countsLeaf kind) = ℓ.countP (DelEvent.removesLeaf kind) := by
  refine List.countP_congr fun e he => ?_
  cases e with
  | removed n => cases n <;> rfl
  | vanished n => rfl
  | missed info gone => cases h _ he

theorem Deletes.countsRight_iff {m : ℤ} {st st' : DelState} {ℓ : List DelEvent} (h : Deletes m st st' ℓ) :
    CountsRight st st' ℓ ↔ ∀ e ∈ ℓ, e.misses = false ∧ e.removesLeaf .device = false := by
  constructor
  · intro hc
    have hfiles := hc.files
    have hdevices := hc.devices
    rw [h.files, countP_counts] at hfiles
    rw [h.devices] at hdevices
    have hmiss : ℓ.countP DelEvent.misses = 0 := by omega
    have hdev : ℓ.countP (DelEvent.removesLeaf .device) = 0 := by omega
    rw [List.countP_eq_zero] at hmiss hdev
    exact fun e he => ⟨by simpa using hmiss e he, by simpa using hdev e he⟩
  · intro hall
    have hmiss : ∀ e ∈ ℓ, e.misses = false := fun e he => (hall e he).1
    have hm0 : ℓ.countP DelEvent.misses = 0 :=
      List.countP_eq_zero.2 fun e he => by simp [hmiss e he]
    have hd0 : ℓ.countP (DelEvent.removesLeaf .device) = 0 :=
      List.countP_eq_zero.2 fun e he => by simp [(hall e he).2]
    constructor
    case files => rw [h.files, countP_counts, hm0, add_zero]
    case dirs => exact h.dirs
    case symlinks => rw [h.symlinks, countP_countsLeaf hmiss, countP_countsLeaf hmiss, hd0, add_zero]
    case devices => rw [h.devices, hd0, add_zero]
    case specials => rw [h.specials, countP_countsLeaf hmiss]

end CloudEdgeBackup
