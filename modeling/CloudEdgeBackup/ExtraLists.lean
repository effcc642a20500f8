/-
  Sending the file lists of an incremental recursion (`add_dirs_to_tree` and
  `send_extra_file_list` in `flist.c`).

  * the directories are in one list, `dir_flist`, and are linked in it: parent, first child and next
    sibling.  `sendDirList` is one round: it sends the contents of a directory (and of its
    duplicates), links the directories that were found, and goes on to the next one;
  * `Walk` is the depth-first order of a directory tree, one list of directories for each file list;
  * `ListsInv`: the links are those of the tree, in which the walk is at `sendDirNdx`, and the
    directories that were sent and those that are still to be sent are all of `dir_flist`;
  * `extraLists_walk`: over every run the lists are sent in the order of the walk, each directory is
    sent once, and the end is announced once, behind the last list.

  What is found in directories (`send1extra`, and the sorting) is a parameter, and so is the number
  of entries of a list.
-/
import Mathlib

namespace CloudEdgeBackup

/-! ## The list of directories -/

/-- A directory in a file list: its entry, whether it is ".", and `FLAG_DUPLICATE`. -/
structure SubDir (α : Type) where
  file : α
  isDot : Bool
  duplicate : Bool

/-- `F_DIR_NODE_P` -/
structure DirNode where
  parent : ℤ
  firstChild : ℤ
  nextSibling : ℤ

/-- The list of the contents of some directories, or `NDX_FLIST_EOF`. -/
inductive ListMsg where
  | dirList (dirs : List ℕ)
  | flistEof

/-- `dir_flist` and the links in it, `send_dir_ndx`, `file_total`, `flist_eof`, and what was sent. -/
structure ListsState (α : Type) where
  files : List (SubDir α)
  nodes : ℕ → DirNode
  sendDirNdx : ℤ
  fileTotal : ℤ
  flistEof : Bool
  sent : List ListMsg

section Run

variable {α : Type}

namespace ListsState

def setNode (st : ListsState α) (x : ℕ) (node : DirNode) : ListsState α :=
  { st with nodes := Function.update st.nodes x node }

/-- The links to and of the new directory `ndx`; `dp` is the one in front of it. -/
def linkDir (parentNdx : ℤ) (dp : Option ℕ) (ndx : ℕ) (st : ListsState α) : ListsState α :=
  let st := match dp with
    | some d => st.setNode d { st.nodes d with nextSibling := ndx }
    | none =>
      if 0 ≤ parentNdx then
        st.setNode parentNdx.toNat { st.nodes parentNdx.toNat with firstChild := ndx }
      else { st with sendDirNdx := ndx }
  st.setNode ndx { st.nodes ndx with parent := parentNdx, firstChild := -1 }

/-- The loop of `add_dirs_to_tree`, and the last link. -/
def addDirs (parentNdx : ℤ) : List (SubDir α) → Option ℕ → ListsState α → ListsState α
  | [], none, st => st
  | [], some d, st => st.setNode d { st.nodes d with nextSibling := -1 }
  | file :: found, dp, st =>
    let ndx := st.files.length
    let st := { st with files := st.files ++ [file] }
    if file.isDot then addDirs parentNdx found dp st
    else addDirs parentNdx found (some ndx) (linkDir parentNdx dp ndx st)

/-- `add_dirs_to_tree` -/
def addDirsToTree (parentNdx : ℤ) (found : List (SubDir α)) (st : ListsState α) : ListsState α :=
  addDirs parentNdx found none st

/-- The duplicates that follow a directory. -/
def followDups (st : ListsState α) : ℕ → ℕ → List ℕ
  | 0, _ => []
  | n + 1, x =>
    let next := (st.nodes x).nextSibling
    if 0 ≤ next ∧ (st.files[next.toNat]?.map SubDir.duplicate) = some true then
      next.toNat :: followDups st n next.toNat
    else []

/-- The next directory behind `x` and its contents. -/
def climb (nodes : ℕ → DirNode) : ℕ → ℕ → Option ℤ
  | 0, _ => none
  | n + 1, x =>
    if (nodes x).nextSibling < 0 then
      if (nodes x).parent < 0 then none else climb nodes n (nodes x).parent.toNat
    else some (nodes x).nextSibling

/-- Goes on from the directory `dp`, whose contents were sent. -/
def goOn (dp : ℕ) (st : ListsState α) : ListsState α :=
  if 0 ≤ (st.nodes dp).firstChild then { st with sendDirNdx := (st.nodes dp).firstChild }
  else
    match climb st.nodes (st.files.length + 1) dp with
    | none => { st with sendDirNdx := -1, flistEof := true, sent := st.sent ++ [.flistEof] }
    | some next => { st with sendDirNdx := next }

variable (scan : List α → List (SubDir α)) (count : List α → ℕ)

/-- One round of the loop of `send_extra_file_list`. -/
def sendDirList (st : ListsState α) : ListsState α :=
  let x := st.sendDirNdx.toNat
  let dups := followDups st st.files.length x
  let dp := dups.getLastD x
  let dirs := (x :: dups).filterMap fun i => st.files[i]?.map SubDir.file
  let st := addDirsToTree dp (scan dirs) { st with sent := st.sent ++ [.dirList (x :: dups)] }
  goOn dp { st with fileTotal := st.fileTotal + count dirs }

/-- The loop of `send_extra_file_list`, for `n` rounds at most. -/
def extraLoop (atLeast fileOldTotal : ℤ) : ℕ → ListsState α → ListsState α
  | 0, st => st
  | n + 1, st =>
    if st.flistEof = false ∧ st.fileTotal - fileOldTotal < atLeast then
      extraLoop atLeast fileOldTotal n (sendDirList scan count st)
    else st

/-- `send_extra_file_list` -/
def sendExtraFileList (n : ℕ) (atLeast fileOldTotal : ℤ) (st : ListsState α) : ListsState α :=
  let atLeast := if atLeast < 0 then st.fileTotal - fileOldTotal + 1 else atLeast
  extraLoop scan count atLeast fileOldTotal n st

/-- Some calls of `send_extra_file_list`, each with its `at_least` and the `file_old_total` of then. -/
def afterCalls (n : ℕ) (calls : List (ℤ × ℤ)) (st : ListsState α) : ListsState α :=
  calls.foldl (fun st c => sendExtraFileList scan count n c.1 c.2 st) st

/-- The part of `send_file_list` behind its own list, in which `roots` are the directories; the links
    of a new directory are anything. -/
def startLists (roots : List (SubDir α)) (fileTotal : ℤ) (nodes : ℕ → DirNode) : ListsState α :=
  let st := addDirsToTree (-1) roots ⟨[], nodes, -1, fileTotal, false, []⟩
  if st.sendDirNdx < 0 then { st with flistEof := true, sent := st.sent ++ [.flistEof] } else st

end ListsState

/-! ## Trees -/

/-- **The depth-first order of the directories.** A list has a directory and the duplicates that
    follow it; then come the directories in them, and then the ones behind them. -/
inductive Walk (scan : List α → List (SubDir α)) : List (SubDir α) → List (List α) → Prop
  | nil : Walk scan [] []
  | dir {d : SubDir α} {rest : List (SubDir α)} {w w' : List (List α)} :
      Walk scan ((scan ((d :: rest.takeWhile (·.duplicate)).map SubDir.file)).filter (!·.isDot)) w →
      Walk scan (rest.dropWhile (·.duplicate)) w' →
      Walk scan (d :: rest) ((d :: rest.takeWhile (·.duplicate)).map SubDir.file :: (w ++ w'))

/-- The walk of what is left on each level. -/
inductive Walks (scan : List α → List (SubDir α)) : List (List (SubDir α)) → List (List α) → Prop
  | nil : Walks scan [] []
  | level {l : List (SubDir α)} {ls : List (List (SubDir α))} {w w' : List (List α)} :
      Walk scan l w → Walks scan ls w' → Walks scan (l :: ls) (w ++ w')

/-- The directories of a list but for ".", with their places. -/
def newDirs : ℕ → List (SubDir α) → List (ℕ × SubDir α)
  | _, [] => []
  | n, file :: found => if file.isDot then newDirs (n + 1) found else (n, file) :: newDirs (n + 1) found

theorem newDirs_append (n : ℕ) (l l' : List (SubDir α)) :
    newDirs n (l ++ l') = newDirs n l ++ newDirs (n + l.length) l' := by
  induction l generalizing n with
  | nil => rfl
  | cons e l ih =>
    rw [List.cons_append, newDirs, newDirs, ih, List.length_cons, Nat.add_right_comm, Nat.add_assoc]
    split_ifs
    · rfl
    · rfl

theorem map_newDirs (n : ℕ) (l : List (SubDir α)) :
    (newDirs n l).map Prod.snd = l.filter (!·.isDot) := by
  induction l generalizing n with
  | nil => rfl
  | cons e l ih =>
    rw [newDirs, List.filter_cons]
    cases he : e.isDot with
    | true => simpa using ih (n + 1)
    | false => simpa using ih (n + 1)

theorem le_of_mem_newDirs {n : ℕ} {l : List (SubDir α)} {y : ℕ × SubDir α} (h : y ∈ newDirs n l) :
    n ≤ y.1 := by
  induction l generalizing n with
  | nil => cases h
  | cons e l ih =>
    rw [newDirs] at h
    split_ifs at h
    · exact (Nat.le_succ n).trans (ih h)
    · rcases List.mem_cons.1 h with rfl | h
      · exact le_rfl
      · exact (Nat.le_succ n).trans (ih h)

theorem lt_of_mem_newDirs {n : ℕ} {l : List (SubDir α)} {y : ℕ × SubDir α} (h : y ∈ newDirs n l) :
    y.1 < n + l.length := by
  induction l generalizing n with
  | nil => cases h
  | cons e l ih =>
    rw [newDirs] at h
    rw [List.length_cons]
    split_ifs at h
    · have := ih h
      omega
    · rcases List.mem_cons.1 h with rfl | h
      · exact Nat.lt_add_of_pos_right (Nat.succ_pos _)
      · have := ih h
        omega

theorem nodup_newDirs (n : ℕ) (l : List (SubDir α)) : ((newDirs n l).map Prod.fst).Nodup := by
  induction l generalizing n with
  | nil => exact List.nodup_nil
  | cons e l ih =>
    rw [newDirs]
    split_ifs
    · exact ih (n + 1)
    · refine List.nodup_cons.2 ⟨fun hmem => ?_, ih (n + 1)⟩
      obtain ⟨y, hy, heq⟩ := List.mem_map.1 hmem
      have hle := le_of_mem_newDirs hy
      rw [heq] at hle
      exact Nat.not_succ_le_self n hle

theorem length_newDirs_le (n : ℕ) (l : List (SubDir α)) : (newDirs n l).length ≤ l.length := by
  rw [← List.length_map Prod.snd, map_newDirs]
  exact List.length_filter_le _ _

/-! ## Links -/

/-- The directories `l` are linked as siblings from `p` on, and nothing is below them yet. -/
def Siblings (st : ListsState α) (parent : ℤ) : ℤ → List (ℕ × SubDir α) → Prop
  | p, [] => p < 0
  | p, (x, e) :: l => p = x ∧ st.files[x]? = some e ∧ (st.nodes x).parent = parent ∧ parent < x ∧
      (st.nodes x).firstChild < 0 ∧ Siblings st parent (st.nodes x).nextSibling l

/-- The directories that are left behind `p` and behind those that it is in. -/
def Ups (st : ListsState α) : ℤ → List (List (ℕ × SubDir α)) → Prop
  | p, [] => p < 0
  | p, rest :: ups => ∃ a : ℕ, p = a ∧ a < st.files.length ∧ (st.nodes a).parent < a ∧
      Siblings st (st.nodes a).parent (st.nodes a).nextSibling rest ∧ Ups st (st.nodes a).parent ups

variable {st st' : ListsState α} {parent p : ℤ} {l : List (ℕ × SubDir α)} {ups : List (List (ℕ × SubDir α))}

theorem Siblings.mem (h : Siblings st parent p l) : ∀ y ∈ l,
    st.files[y.1]? = some y.2 ∧ parent < y.1 ∧ (st.nodes y.1).firstChild < 0 := by
  induction l generalizing p with
  | nil => exact fun y hy => absurd hy List.not_mem_nil
  | cons y l ih =>
    obtain ⟨-, hfile, -, hlt, hchild, hrest⟩ := h
    intro z hz
    rcases List.mem_cons.1 hz with rfl | hz
    · exact ⟨hfile, hlt, hchild⟩
    · exact ih hrest z hz

theorem Siblings.congr (h : Siblings st parent p l) (hfiles : st.files <+: st'.files)
    (hnodes : ∀ y ∈ l, st'.nodes y.1 = st.nodes y.1) : Siblings st' parent p l := by
  induction l generalizing p with
  | nil => exact h
  | cons y l ih =>
    obtain ⟨hp, hfile, hparent, hlt, hchild, hrest⟩ := h
    have hnode : st'.nodes y.1 = st.nodes y.1 := hnodes y List.mem_cons_self
    refine ⟨hp, ?_, by rwa [hnode], hlt, by rwa [hnode], ?_⟩
    · obtain ⟨rest, hrest⟩ := hfiles
      rw [← hrest, List.getElem?_append_left (List.getElem?_eq_some_iff.1 hfile).1]
      exact hfile
    · rw [hnode]
      exact ih hrest fun z hz => hnodes z (List.mem_cons_of_mem _ hz)

theorem Ups.congr (h : Ups st p ups) (hfiles : st.files <+: st'.files)
    (hold : ∀ x < st.files.length, (st'.nodes x).parent = (st.nodes x).parent ∧
      (st'.nodes x).nextSibling = (st.nodes x).nextSibling)
    (hnodes : ∀ rest ∈ ups, ∀ y ∈ rest, st'.nodes y.1 = st.nodes y.1) : Ups st' p ups := by
  induction ups generalizing p with
  | nil => exact h
  | cons rest ups ih =>
    obtain ⟨a, hp, ha, hlt, hrest, hups⟩ := h
    obtain ⟨hparent, hnext⟩ := hold a ha
    refine ⟨a, hp, ha.trans_le hfiles.length_le, by rwa [hparent], ?_, ?_⟩
    · rw [hparent, hnext]
      exact hrest.congr hfiles (hnodes rest List.mem_cons_self)
    · rw [hparent]
      exact ih hups fun rest hrest => hnodes rest (List.mem_cons_of_mem _ hrest)

/-- The directories above are in front of those below. -/
theorem Ups.length_le (h : Ups st p ups) : (ups.length : ℤ) ≤ max 0 (p + 1) := by
  induction ups generalizing p with
  | nil => exact le_max_left _ _
  | cons rest ups ih =>
    obtain ⟨a, rfl, -, hlt, -, hups⟩ := h
    have := ih hups
    rw [List.length_cons]
    push_cast
    omega

/-! ## Adding directories -/

/-- The directories `found` were added to the list; nothing was sent. -/
structure Adds (st st' : ListsState α) (found : List (SubDir α)) : Prop where
  files : st'.files = st.files ++ found
  fileTotal : st'.fileTotal = st.fileTotal
  flistEof : st'.flistEof = st.flistEof
  sent : st'.sent = st.sent

theorem linkDir_adds (parent : ℤ) (dp : Option ℕ) (ndx : ℕ) (st : ListsState α) :
    Adds st (ListsState.linkDir parent dp ndx st) [] := by
  cases dp with
  | some d => exact ⟨(List.append_nil _).symm, rfl, rfl, rfl⟩
  | none =>
    by_cases hparent : 0 ≤ parent
    · simp only [ListsState.linkDir, if_pos hparent]
      exact ⟨(List.append_nil _).symm, rfl, rfl, rfl⟩
    · simp only [ListsState.linkDir, if_neg hparent]
      exact ⟨(List.append_nil _).symm, rfl, rfl, rfl⟩

theorem linkDir_self (parent : ℤ) (dp : Option ℕ) (ndx : ℕ) (st : ListsState α) :
    ((ListsState.linkDir parent dp ndx st).nodes ndx).parent = parent ∧
      ((ListsState.linkDir parent dp ndx st).nodes ndx).firstChild = -1 := by
  simp [ListsState.linkDir, ListsState.setNode]

theorem addDirs_adds (parent : ℤ) (found : List (SubDir α)) (dp : Option ℕ) (st : ListsState α) :
    Adds st (ListsState.addDirs parent found dp st) found := by
  induction found generalizing dp st with
  | nil =>
    cases dp with
    | none => exact ⟨(List.append_nil _).symm, rfl, rfl, rfl⟩
    | some d => exact ⟨(List.append_nil _).symm, rfl, rfl, rfl⟩
  | cons e found ih =>
    have hfiles : st.files ++ e :: found = (st.files ++ [e]) ++ found := by
      rw [List.append_assoc]
      rfl
    rw [ListsState.addDirs]
    split_ifs
    · obtain ⟨h1, h2, h3, h4⟩ := ih dp { st with files := st.files ++ [e] }
      exact ⟨h1.trans hfiles.symm, h2, h3, h4⟩
    · obtain ⟨g1, g2, g3, g4⟩ := linkDir_adds parent dp st.files.length { st with files := st.files ++ [e] }
      obtain ⟨h1, h2, h3, h4⟩ := ih (some st.files.length)
        (ListsState.linkDir parent dp st.files.length { st with files := st.files ++ [e] })
      rw [List.append_nil] at g1
      refine ⟨?_, h2.trans g2, h3.trans g3, h4.trans g4⟩
      rw [h1, g1, hfiles]

/-- Behind the directory `d` the new ones are linked. -/
theorem addDirs_some {found : List (SubDir α)} {d : ℕ} (hd : d < st.files.length)
    (hparent : parent < st.files.length) :
    let st' := ListsState.addDirs parent found (some d) st
    Siblings st' parent (st'.nodes d).nextSibling (newDirs st.files.length found) ∧
      (∀ x < st.files.length, x ≠ d → st'.nodes x = st.nodes x) ∧
      (st'.nodes d).parent = (st.nodes d).parent ∧ (st'.nodes d).firstChild = (st.nodes d).firstChild ∧
      st'.sendDirNdx = st.sendDirNdx := by
  induction found generalizing d st with
  | nil =>
    intro st'
    have hself : st'.nodes d = { st.nodes d with nextSibling := -1 } := Function.update_self ..
    refine ⟨?_, fun x _ hne => Function.update_of_ne hne _ _, ?_, ?_, rfl⟩
    · show (st'.nodes d).nextSibling < 0
      rw [hself]
      exact Int.negSucc_lt_zero 0
    · rw [hself]
    · rw [hself]
  | cons e found ih =>
    obtain ⟨st₁, hst₁⟩ : ∃ st₁, st₁ = { st with files := st.files ++ [e] } := ⟨_, rfl⟩
    have hlen : st₁.files.length = st.files.length + 1 := by
      rw [hst₁, List.length_append]
      rfl
    have hnodes : st₁.nodes = st.nodes := by rw [hst₁]
    have hsend : st₁.sendDirNdx = st.sendDirNdx := by rw [hst₁]
    rw [ListsState.addDirs, newDirs]
    dsimp only
    rw [← hst₁]
    split_ifs with hdot
    · have h := @ih st₁ d (by omega) (by rw [hlen]; push_cast; omega)
      dsimp only at h
      rw [hlen, hnodes, hsend] at h
      exact ⟨h.1, fun x hx hne => h.2.1 x (Nat.lt_succ_of_lt hx) hne, h.2.2⟩
    · obtain ⟨st₂, hst₂⟩ : ∃ st₂, st₂ = ListsState.linkDir parent (some d) st.files.length st₁ := ⟨_, rfl⟩
      have hadds := linkDir_adds parent (some d) st.files.length st₁
      have hself := linkDir_self parent (some d) st.files.length st₁
      rw [← hst₂] at hadds hself ⊢
      have hlen₂ : st₂.files.length = st.files.length + 1 := by
        rw [hadds.files, List.append_nil, hlen]
      have hne : d ≠ st.files.length := hd.ne
      have hd₂ : st₂.nodes d = { st.nodes d with nextSibling := st.files.length } := by
        rw [hst₂, ← hnodes]
        exact (Function.update_of_ne hne _ _).trans (Function.update_self ..)
      have hother : ∀ x < st.files.length, x ≠ d → st₂.nodes x = st.nodes x := by
        intro x hx hxd
        rw [hst₂, ← hnodes]
        exact (Function.update_of_ne hx.ne _ _).trans (Function.update_of_ne hxd _ _)
      have h := @ih st₂ st.files.length (by omega) (by rw [hlen₂]; push_cast; omega)
      dsimp only at h
      rw [hlen₂] at h
      obtain ⟨hsiblings, hold, hparent', hchild', hsend'⟩ := h
      have hd' := hold d (by omega) hne
      refine ⟨⟨?_, ?_, ?_, hparent, ?_, hsiblings⟩, ?_, ?_, ?_, ?_⟩
      · rw [hd', hd₂]
      · rw [(addDirs_adds _ _ _ _).files, hadds.files, List.append_nil, hst₁]
        simp
      · rw [hparent', hself.1]
      · rw [hchild', hself.2]
        exact Int.negSucc_lt_zero 0
      · intro x hx hxd
        rw [hold x (by omega) hx.ne, hother x hx hxd]
      · rw [hd', hd₂]
      · rw [hd', hd₂]
      · rw [hsend', hst₂]
        exact hsend

/-- The new directories are linked below their parent, or are where the walk starts. -/
theorem addDirsToTree_spec {found : List (SubDir α)} (hparent : parent < st.files.length) :
    let st' := ListsState.addDirsToTree parent found st
    (newDirs st.files.length found ≠ [] → Siblings st' parent
      (if 0 ≤ parent then (st'.nodes parent.toNat).firstChild else st'.sendDirNdx)
      (newDirs st.files.length found)) ∧
      (newDirs st.files.length found = [] → st'.nodes = st.nodes) ∧
      (∀ x < st.files.length, (x : ℤ) ≠ parent → st'.nodes x = st.nodes x) ∧
      (∀ x < st.files.length, (st'.nodes x).parent = (st.nodes x).parent ∧
        (st'.nodes x).nextSibling = (st.nodes x).nextSibling) ∧
      (0 ≤ parent ∨ newDirs st.files.length found = [] → st'.sendDirNdx = st.sendDirNdx) := by
  rw [ListsState.addDirsToTree]
  induction found generalizing st with
  | nil => exact ⟨fun h => absurd rfl h, fun _ => rfl, fun x _ _ => rfl, fun x _ => ⟨rfl, rfl⟩, fun _ => rfl⟩
  | cons e found ih =>
    obtain ⟨st₁, hst₁⟩ : ∃ st₁, st₁ = { st with files := st.files ++ [e] } := ⟨_, rfl⟩
    have hlen : st₁.files.length = st.files.length + 1 := by
      rw [hst₁, List.length_append]
      rfl
    have hnodes : st₁.nodes = st.nodes := by rw [hst₁]
    have hsend : st₁.sendDirNdx = st.sendDirNdx := by rw [hst₁]
    rw [ListsState.addDirs, newDirs]
    dsimp only
    rw [← hst₁]
    by_cases hdot : e.isDot = true
    · have h := @ih st₁ (by rw [hlen]; push_cast; omega)
      dsimp only at h
      rw [hlen, hnodes, hsend] at h
      rw [if_pos hdot, if_pos hdot]
      exact ⟨h.1, h.2.1, fun x hx => h.2.2.1 x (Nat.lt_succ_of_lt hx),
        fun x hx => h.2.2.2.1 x (Nat.lt_succ_of_lt hx), h.2.2.2.2⟩
    · rw [if_neg hdot, if_neg hdot]
      obtain ⟨st₂, hst₂⟩ : ∃ st₂, st₂ = ListsState.linkDir parent none st.files.length st₁ := ⟨_, rfl⟩
      have hadds := linkDir_adds parent none st.files.length st₁
      have hself := linkDir_self parent none st.files.length st₁
      rw [← hst₂] at hadds hself ⊢
      have hlen₂ : st₂.files.length = st.files.length + 1 := by
        rw [hadds.files, List.append_nil, hlen]
      obtain ⟨hsiblings, hold, hparent', hchild', hsend'⟩ := @addDirs_some α st₂ parent found st.files.length
        (by omega) (by rw [hlen₂]; push_cast; omega)
      rw [hlen₂] at hsiblings hold
      have hfile : (ListsState.addDirs parent found (some st.files.length) st₂).files[st.files.length]? =
          some e := by
        rw [(addDirs_adds _ _ _ _).files, hadds.files, List.append_nil, hst₁]
        simp
      have hlist : ∀ q : ℤ, q = st.files.length →
          Siblings (ListsState.addDirs parent found (some st.files.length) st₂) parent q
            ((st.files.length, e) :: newDirs (st.files.length + 1) found) := by
        intro q hq
        refine ⟨hq, hfile, by rw [hparent', hself.1], hparent, ?_, hsiblings⟩
        rw [hchild', hself.2]
        exact Int.negSucc_lt_zero 0
      by_cases hpos : 0 ≤ parent
      · obtain ⟨q, rfl⟩ := Int.eq_ofNat_of_zero_le hpos
        have hq : q < st.files.length := by omega
        have hq₂ : st₂.nodes q = { st.nodes q with firstChild := st.files.length } := by
          rw [hst₂, ← hnodes]
          simp only [ListsState.linkDir, if_pos hpos]
          exact (Function.update_of_ne hq.ne _ _).trans (Function.update_self ..)
        have hother : ∀ x < st.files.length, x ≠ q → st₂.nodes x = st.nodes x := by
          intro x hx hxq
          rw [hst₂, ← hnodes]
          simp only [ListsState.linkDir, if_pos hpos]
          exact (Function.update_of_ne hx.ne _ _).trans (Function.update_of_ne hxq _ _)
        have hq' := (hold q (by omega) hq.ne).trans hq₂
        refine ⟨fun _ => ?_, fun h => absurd h (List.cons_ne_nil _ _), ?_, ?_, fun _ => ?_⟩
        · rw [if_pos hpos]
          refine hlist _ ?_
          show (((ListsState.addDirs (q : ℤ) found (some st.files.length) st₂).nodes q).firstChild) = _
          rw [hq']
        · intro x hx hne
          rw [hold x (by omega) hx.ne, hother x hx fun h => hne (by rw [h])]
        · intro x hx
          rw [hold x (by omega) hx.ne]
          by_cases hxq : x = q
          · rw [hxq, hq₂]
            exact ⟨rfl, rfl⟩
          · rw [hother x hx hxq]
            exact ⟨rfl, rfl⟩
        · rw [hsend', hst₂]
          simp only [ListsState.linkDir, if_pos hpos]
          exact hsend
      · have hother : ∀ x < st.files.length, st₂.nodes x = st.nodes x := by
          intro x hx
          rw [hst₂, ← hnodes]
          simp only [ListsState.linkDir, if_neg hpos]
          exact Function.update_of_ne hx.ne _ _
        refine ⟨fun _ => ?_, fun h => absurd h (List.cons_ne_nil _ _), ?_, ?_, ?_⟩
        · rw [if_neg hpos]
          refine hlist _ ?_
          rw [hsend', hst₂]
          simp only [ListsState.linkDir, if_neg hpos]
          rfl
        · intro x hx _
          rw [hold x (by omega) hx.ne, hother x hx]
        · intro x hx
          rw [hold x (by omega) hx.ne, hother x hx]
          exact ⟨rfl, rfl⟩
        · rintro (h | h)
          · exact absurd h hpos
          · cases h

/-! ## One round -/

theorem followDups_eq {n x : ℕ} (h : Siblings st parent (st.nodes x).nextSibling l) (hn : l.length ≤ n) :
    ListsState.followDups st n x = (l.takeWhile (·.2.duplicate)).map Prod.fst := by
  induction n generalizing x l with
  | zero =>
    obtain rfl : l = [] := List.length_eq_zero_iff.1 (Nat.le_zero.1 hn)
    rfl
  | succ n ih =>
    rw [ListsState.followDups]
    cases l with
    | nil =>
      have hneg : (st.nodes x).nextSibling < 0 := h
      rw [if_neg fun h' => absurd h'.1 (not_le.2 hneg)]
      rfl
    | cons y l =>
      obtain ⟨hp, hfile, -, -, -, hrest⟩ := h
      have hnext : (st.nodes x).nextSibling.toNat = y.1 := by rw [hp, Int.toNat_natCast]
      rw [hnext, hfile, Option.map_some, List.takeWhile_cons]
      cases hdup : y.2.duplicate with
      | false => rw [if_neg (fun h' => by cases h'.2), if_neg Bool.false_ne_true, List.map_nil]
      | true =>
        rw [if_pos ⟨by rw [hp]; exact Int.natCast_nonneg _, rfl⟩, if_pos rfl, List.map_cons,
          ih hrest (Nat.le_of_succ_le_succ hn)]

/-- The siblings behind the duplicates. -/
theorem Siblings.dropWhile {x : ℕ} (h : Siblings st parent (st.nodes x).nextSibling l)
    (hx : (st.nodes x).parent = parent) (b : SubDir α → Bool) :
    let y := ((l.takeWhile fun z => b z.2).map Prod.fst).getLastD x
    (st.nodes y).parent = parent ∧ Siblings st parent (st.nodes y).nextSibling (l.dropWhile fun z => b z.2) := by
  induction l generalizing x with
  | nil => exact ⟨hx, h⟩
  | cons y l ih =>
    obtain ⟨hp, hfile, hparent, hlt, hchild, hrest⟩ := h
    rw [List.takeWhile_cons, List.dropWhile_cons]
    cases hb : b y.2 with
    | false => exact ⟨hx, hp, hfile, hparent, hlt, hchild, hrest⟩
    | true =>
      simp only [if_true, List.map_cons, List.getLastD_cons]
      exact ih hrest hparent

/-- The way up to the next directory. -/
theorem climb_eq {n x : ℕ} (hx : (st.nodes x).parent = p) (hl : Siblings st p (st.nodes x).nextSibling l)
    (hups : Ups st p ups) (hn : ups.length < n) :
    (ListsState.climb st.nodes n x = none ∧ ∀ rest ∈ l :: ups, rest = []) ∨
      ∃ next l' ups' k q, ListsState.climb st.nodes n x = some next ∧ l' ≠ [] ∧
        l :: ups = List.replicate k [] ++ l' :: ups' ∧ Siblings st q next l' ∧ Ups st q ups' := by
  induction ups generalizing n x l p with
  | nil =>
    obtain ⟨n, rfl⟩ : ∃ m, n = m + 1 := ⟨n - 1, by omega⟩
    rw [ListsState.climb]
    cases l with
    | nil =>
      have hneg : (st.nodes x).nextSibling < 0 := hl
      have hpneg : p < 0 := hups
      rw [if_pos hneg, if_pos (by rwa [hx])]
      exact .inl ⟨rfl, by simp⟩
    | cons y l =>
      have hpos : ¬(st.nodes x).nextSibling < 0 := by
        rw [hl.1]
        exact not_lt.2 (Int.natCast_nonneg _)
      rw [if_neg hpos]
      exact .inr ⟨_, y :: l, [], 0, p, rfl, List.cons_ne_nil _ _, rfl, hl, hups⟩
  | cons rest ups ih =>
    obtain ⟨n, rfl⟩ : ∃ m, n = m + 1 := ⟨n - 1, by omega⟩
    rw [ListsState.climb]
    cases l with
    | nil =>
      have hneg : (st.nodes x).nextSibling < 0 := hl
      obtain ⟨a, rfl, -, -, hrest, hups⟩ := hups
      rw [if_pos hneg, hx, if_neg (not_lt.2 (Int.natCast_nonneg a)), Int.toNat_natCast]
      rcases ih rfl hrest hups (Nat.lt_of_succ_lt_succ hn) with ⟨hnone, hall⟩ | hsome
      · exact .inl ⟨hnone, List.forall_mem_cons.2 ⟨rfl, hall⟩⟩
      · obtain ⟨next, l', ups', k, q, hclimb, hne, heq, hsib, hups'⟩ := hsome
        exact .inr ⟨next, l', ups', k + 1, q, hclimb, hne, by rw [heq]; rfl, hsib, hups'⟩
    | cons y l =>
      have hpos : ¬(st.nodes x).nextSibling < 0 := by
        rw [hl.1]
        exact not_lt.2 (Int.natCast_nonneg _)
      rw [if_neg hpos]
      exact .inr ⟨_, y :: l, rest :: ups, 0, p, rfl, List.cons_ne_nil _ _, rfl, hl, hups⟩

/-- Levels on which nothing is left do not matter for the walk. -/
theorem walks_empty {scan : List α → List (SubDir α)} {k : ℕ} {ls : List (List (SubDir α))} {w : List (List α)} :
    Walks scan (List.replicate k [] ++ ls) w ↔ Walks scan ls w := by
  induction k with
  | zero => exact Iff.rfl
  | succ k ih =>
    rw [List.replicate_succ, List.cons_append, ← ih]
    constructor
    · rintro (_ | ⟨⟨⟩, h⟩)
      exact h
    · exact fun h => .level .nil h

variable {scan : List α → List (SubDir α)} {count : List α → ℕ} {level : List (ℕ × SubDir α)}
  {groups : List (List (ℕ × SubDir α))} {left : List (List α)}

/-- What was sent for some lists of directories. -/
def dirLists (groups : List (List (ℕ × SubDir α))) : List ListMsg :=
  groups.map fun g => .dirList (g.map Prod.fst)

/-- The directories of some lists. -/
def filesOf (groups : List (List (ℕ × SubDir α))) : List (List α) :=
  groups.map fun g => g.map fun y => y.2.file

/-- **The walk in the middle**: the lists of `groups` were sent, and what is `left` of the walk is
    that of `level` and of the levels above it. -/
structure ListsInv (scan : List α → List (SubDir α)) (st : ListsState α) (level : List (ℕ × SubDir α))
    (ups groups : List (List (ℕ × SubDir α))) (left : List (List α)) : Prop where
  going : st.flistEof = false
  nonempty : level ≠ []
  links : ∃ p, Siblings st p st.sendDirNdx level ∧ Ups st p ups
  walks : Walks scan ((level :: ups).map fun l => l.map Prod.snd) left
  sent : st.sent = dirLists groups
  perm : (groups.flatten ++ (level :: ups).flatten).Perm (newDirs 0 st.files)

/-- The walk at its end. -/
structure ListsDone (st : ListsState α) (groups : List (List (ℕ × SubDir α))) : Prop where
  eof : st.flistEof = true
  sent : st.sent = dirLists groups ++ [.flistEof]
  perm : groups.flatten.Perm (newDirs 0 st.files)

theorem filterMap_files (h : ∀ y ∈ l, st.files[y.1]? = some y.2) :
    ((l.map Prod.fst).filterMap fun i => st.files[i]?.map SubDir.file) = l.map fun y => y.2.file := by
  induction l with
  | nil => rfl
  | cons y l ih =>
    rw [List.map_cons, List.filterMap_cons, h y List.mem_cons_self, Option.map_some, List.map_cons,
      ih fun z hz => h z (List.mem_cons_of_mem _ hz)]

theorem goOn_fileTotal (n : ℕ) (st : ListsState α) : (ListsState.goOn n st).fileTotal = st.fileTotal := by
  rw [ListsState.goOn]
  split_ifs
  · rfl
  · split
    · rfl
    · rfl

/-- Going on from a directory whose contents were sent. -/
theorem goOn_spec {n : ℕ} (hgoing : st.flistEof = false) (hx : (st.nodes n).parent = p)
    (hn : n < st.files.length) (hlt : p < n)
    (hchild : level ≠ [] → Siblings st n (st.nodes n).firstChild level)
    (hnochild : level = [] → (st.nodes n).firstChild < 0)
    (hl : Siblings st p (st.nodes n).nextSibling l) (hups : Ups st p ups)
    (hwalks : Walks scan ((level :: l :: ups).map fun l => l.map Prod.snd) left)
    (hsent : st.sent = dirLists groups)
    (hperm : (groups.flatten ++ (level :: l :: ups).flatten).Perm (newDirs 0 st.files)) :
    (∃ level' ups', ListsInv scan (ListsState.goOn n st) level' ups' groups left) ∨
      ListsDone (ListsState.goOn n st) groups ∧ left = [] := by
  by_cases hlevel : level = []
  · subst hlevel
    have hwalks' : Walks scan ((l :: ups).map fun l => l.map Prod.snd) left :=
      (@walks_empty α scan 1 _ left).1 hwalks
    have hlen : ups.length < st.files.length + 1 := by
      have := hups.length_le
      omega
    rw [ListsState.goOn, if_neg (not_le.2 (hnochild rfl))]
    rcases climb_eq hx hl hups hlen with ⟨hnone, hall⟩ |
      ⟨next, l', ups', k, q, hclimb, hne, heq, hsib, hups'⟩
    · right
      rw [hnone]
      have hempty : l :: ups = List.replicate (ups.length + 1) [] := List.eq_replicate_iff.2 ⟨rfl, hall⟩
      refine ⟨⟨rfl, by rw [← hsent], ?_⟩, ?_⟩
      · rw [List.flatten_cons, List.nil_append, hempty, List.flatten_replicate_nil, List.append_nil] at hperm
        exact hperm
      · rw [hempty, List.map_replicate, List.map_nil, ← List.append_nil (List.replicate _ _),
          walks_empty] at hwalks'
        cases hwalks'
        rfl
    · left
      rw [hclimb]
      refine ⟨l', ups', hgoing, hne, ⟨q, ?_, ?_⟩, ?_, hsent, ?_⟩
      · exact hsib.congr (List.prefix_refl _) fun _ _ => rfl
      · exact hups'.congr (List.prefix_refl _) (fun _ _ => ⟨rfl, rfl⟩) fun _ _ _ _ => rfl
      · rw [heq, List.map_append, List.map_replicate, List.map_nil, walks_empty] at hwalks'
        exact hwalks'
      · rw [heq, List.flatten_cons, List.nil_append, List.flatten_append, List.flatten_replicate_nil,
          List.nil_append] at hperm
        exact hperm
  · left
    have hsib := hchild hlevel
    have hpos : 0 ≤ (st.nodes n).firstChild := by
      cases level with
      | nil => exact absurd rfl hlevel
      | cons y level =>
        rw [hsib.1]
        exact Int.natCast_nonneg _
    rw [ListsState.goOn, if_pos hpos]
    refine ⟨level, l :: ups, hgoing, hlevel, ⟨n, ?_, n, rfl, hn, ?_, ?_, ?_⟩, hwalks, hsent, hperm⟩
    · exact hsib.congr (List.prefix_refl _) fun _ _ => rfl
    · show (st.nodes n).parent < n
      rwa [hx]
    · show Siblings _ (st.nodes n).parent (st.nodes n).nextSibling l
      rw [hx]
      exact hl.congr (List.prefix_refl _) fun _ _ => rfl
    · show Ups _ (st.nodes n).parent ups
      rw [hx]
      exact hups.congr (List.prefix_refl _) (fun _ _ => ⟨rfl, rfl⟩) fun _ _ _ _ => rfl

/-- **One round sends the next list of the walk.** -/
theorem ListsInv.step (h : ListsInv scan st level ups groups left) : ∃ g left',
    left = (g.map fun y => y.2.file) :: left' ∧
      (ListsState.sendDirList scan count st).fileTotal = st.fileTotal + count (g.map fun y => y.2.file) ∧
      ((∃ level' ups', ListsInv scan (ListsState.sendDirList scan count st) level' ups' (groups ++ [g]) left') ∨
        ListsDone (ListsState.sendDirList scan count st) (groups ++ [g]) ∧ left' = []) := by
  obtain ⟨p, hlevel, hups⟩ := h.links
  cases hlist : level with
  | nil => exact absurd hlist h.nonempty
  | cons y rest =>
  have hwalks := h.walks
  have hperm := h.perm
  rw [hlist] at hlevel hwalks hperm
  obtain ⟨g, hg⟩ : ∃ g, g = y :: rest.takeWhile (·.2.duplicate) := ⟨_, rfl⟩
  obtain ⟨after, hafter⟩ : ∃ after, after = rest.dropWhile (·.2.duplicate) := ⟨_, rfl⟩
  have hsplit : y :: rest = g ++ after := by
    rw [hg, hafter, List.cons_append, List.takeWhile_append_dropWhile]
  have hmem := hlevel.mem
  have hlt : ∀ z ∈ y :: rest, z.1 < st.files.length := fun z hz =>
    (List.getElem?_eq_some_iff.1 (hmem z hz).1).1
  -- The directory and its duplicates.
  have hdups : ListsState.followDups st st.files.length y.1 =
      (rest.takeWhile (·.2.duplicate)).map Prod.fst := by
    refine followDups_eq hlevel.2.2.2.2.2 ?_
    have := hperm.length_eq.le.trans (length_newDirs_le 0 st.files)
    rw [List.length_append, List.flatten_cons, List.length_append, List.length_cons] at this
    omega
  obtain ⟨last, hlast⟩ : ∃ last, last = ((rest.takeWhile (·.2.duplicate)).map Prod.fst).getLastD y.1 := ⟨_, rfl⟩
  obtain ⟨hparent, hnext⟩ := hlevel.2.2.2.2.2.dropWhile hlevel.2.2.1 SubDir.duplicate
  rw [← hlast] at hparent hnext
  rw [← hafter] at hnext
  obtain ⟨z, hz, rfl⟩ : ∃ z ∈ g, z.1 = last := by
    rw [hg, hlast]
    exact ⟨_, List.getLastD_mem_cons, List.getLastD_map.symm⟩
  obtain ⟨-, hplt, hchild⟩ := hmem z (hsplit ▸ List.mem_append_left after hz)
  have hzlt := hlt z (hsplit ▸ List.mem_append_left after hz)
  have hdirs : ((y.1 :: (rest.takeWhile (·.2.duplicate)).map Prod.fst).filterMap
      fun i => st.files[i]?.map SubDir.file) = g.map fun y => y.2.file := by
    rw [hg, ← List.map_cons]
    exact filterMap_files fun x hx => (hmem x (by rw [hsplit, hg]; exact List.mem_append_left _ hx)).1
  -- What is left of the walk.
  obtain ⟨w, w', w'', hsub, hrest, hups', rfl⟩ : ∃ w w' w'',
      Walk scan ((scan (g.map fun y => y.2.file)).filter (!·.isDot)) w ∧
        Walk scan (after.map Prod.snd) w' ∧ Walks scan (ups.map fun l => l.map Prod.snd) w'' ∧
        left = (g.map fun y => y.2.file) :: ((w ++ w') ++ w'') := by
    rw [List.map_cons, List.map_cons] at hwalks
    cases hwalks with
    | @level _ _ _ w'' hlevel hups =>
    cases hlevel with
    | @dir _ _ w w' hsub hrest =>
    have hfiles : (y.2 :: (rest.map Prod.snd).takeWhile (·.duplicate)).map SubDir.file =
        g.map fun y => y.2.file := by
      rw [List.takeWhile_map, ← List.map_cons, List.map_map, hg]
      rfl
    have hbehind : (rest.map Prod.snd).dropWhile (·.duplicate) = after.map Prod.snd := by
      rw [List.dropWhile_map, hafter]
      rfl
    rw [hfiles] at hsub ⊢
    rw [hbehind] at hrest
    exact ⟨w, w', w'', hsub, hrest, hups, rfl⟩
  refine ⟨g, (w ++ w') ++ w'', rfl, ?_⟩
  -- The new directories.
  obtain ⟨st₀, hst₀⟩ : ∃ st₀, st₀ = { st with sent := st.sent ++ [ListMsg.dirList (g.map Prod.fst)] } := ⟨_, rfl⟩
  have hfiles₀ : st₀.files = st.files := by rw [hst₀]
  have hnodes₀ : st₀.nodes = st.nodes := by rw [hst₀]
  obtain ⟨found, hfound⟩ : ∃ found, found = scan (g.map fun y => y.2.file) := ⟨_, rfl⟩
  have hround : ListsState.sendDirList scan count st = ListsState.goOn z.1
      { ListsState.addDirsToTree (z.1 : ℤ) found st₀ with
        fileTotal := (ListsState.addDirsToTree (z.1 : ℤ) found st₀).fileTotal +
          count (g.map fun y => y.2.file) } := by
    have hy : st.sendDirNdx.toNat = y.1 := by rw [hlevel.1, Int.toNat_natCast]
    have hgfst : g.map Prod.fst = y.1 :: (rest.takeWhile (·.2.duplicate)).map Prod.fst := by
      rw [hg, List.map_cons]
    rw [ListsState.sendDirList, hy, hdups, hdirs, ← hlast, ← hgfst, ← hst₀, hfound]
  have hadds := addDirs_adds (z.1 : ℤ) found none st₀
  have hspec := @addDirsToTree_spec α st₀ z.1 found (by rw [hfiles₀]; exact_mod_cast hzlt)
  rw [hround]
  rw [← ListsState.addDirsToTree] at hadds
  dsimp only at hspec
  obtain ⟨st₁, hst₁⟩ : ∃ st₁, st₁ = ListsState.addDirsToTree (z.1 : ℤ) found st₀ := ⟨_, rfl⟩
  rw [← hst₁] at hadds hspec ⊢
  rw [hfiles₀, hnodes₀] at hspec
  obtain ⟨hnew, hsame, hother, hfields, -⟩ := hspec
  have hperm' : ((groups.flatten ++ g) ++ (after ++ ups.flatten)).Perm (newDirs 0 st.files) := by
    rw [List.flatten_cons, hsplit] at hperm
    simpa only [List.append_assoc] using hperm
  have hnodup := (hperm'.map Prod.fst).nodup_iff.2 (nodup_newDirs 0 st.files)
  have hkeep : ∀ x ∈ after ++ ups.flatten, st₁.nodes x.1 = st.nodes x.1 := by
    intro x hx
    have hlt := lt_of_mem_newDirs (hperm'.mem_iff.1 (List.mem_append_right _ hx))
    rw [Nat.zero_add] at hlt
    refine hother x.1 hlt fun heq => ?_
    rw [List.map_append] at hnodup
    refine (List.disjoint_of_nodup_append hnodup) (a := x.1) ?_ (List.mem_map_of_mem hx)
    rw [Nat.cast_inj.1 heq]
    exact List.mem_map_of_mem (List.mem_append_right _ hz)
  have hgrown : st.files <+: st₁.files := by
    rw [hadds.files, hfiles₀]
    exact List.prefix_append _ _
  obtain ⟨hzparent, hznext⟩ := hfields z.1 hzlt
  refine ⟨?_, ?_⟩
  · rw [goOn_fileTotal]
    show st₁.fileTotal + _ = _
    rw [hadds.fileTotal, hst₀]
  refine @goOn_spec α _ p after ups scan (newDirs st.files.length found) (groups ++ [g]) _ z.1 ?_
    (hzparent.trans hparent) ?_ hplt ?_ ?_ ?_ ?_ ?_ ?_ ?_
  · show st₁.flistEof = false
    rw [hadds.flistEof, hst₀]
    exact h.going
  · exact hzlt.trans_le hgrown.length_le
  · intro hne
    have hnew := hnew hne
    rw [if_pos (Int.natCast_nonneg _), Int.toNat_natCast] at hnew
    exact hnew.congr (List.prefix_refl _) fun _ _ => rfl
  · intro hnil
    show (st₁.nodes z.1).firstChild < 0
    rw [hsame hnil]
    exact hchild
  · show Siblings _ p (st₁.nodes z.1).nextSibling after
    rw [hznext]
    exact hnext.congr hgrown fun x hx => hkeep x (List.mem_append_left _ hx)
  · refine hups.congr hgrown hfields fun rest hrest x hx => hkeep x (List.mem_append_right _ ?_)
    exact List.mem_flatten.2 ⟨rest, hrest, hx⟩
  · rw [List.map_cons, map_newDirs, List.append_assoc, List.map_cons]
    rw [hfound]
    exact .level hsub (.level hrest hups')
  · show st₁.sent = _
    rw [hadds.sent, hst₀, h.sent, dirLists, dirLists, List.map_append]
    rfl
  · show List.Perm _ (newDirs 0 st₁.files)
    rw [hadds.files, hfiles₀, newDirs_append, Nat.zero_add, List.flatten_append, List.flatten_cons,
      List.flatten_nil, List.append_nil, List.flatten_cons, List.flatten_cons]
    refine (List.perm_append_comm.append_left _).trans ?_
    simpa only [List.append_assoc] using hperm'.append_right (newDirs st.files.length found)

/-! ## Runs -/

variable {w : List (List α)}

/-- The lists of `groups` were sent on the walk `w`. -/
def ListsAt (scan : List α → List (SubDir α)) (w : List (List α)) (st : ListsState α)
    (groups : List (List (ℕ × SubDir α))) : Prop :=
  (∃ level ups left, ListsInv scan st level ups groups left ∧ w = filesOf groups ++ left) ∨
    ListsDone st groups ∧ w = filesOf groups

theorem ListsAt.step (h : ListsAt scan w st groups) (hgoing : st.flistEof = false) : ∃ g,
    ListsAt scan w (ListsState.sendDirList scan count st) (groups ++ [g]) ∧
      (ListsState.sendDirList scan count st).fileTotal = st.fileTotal + count (g.map fun y => y.2.file) := by
  rcases h with ⟨level, ups, left, h, rfl⟩ | ⟨h, -⟩
  · obtain ⟨g, left', rfl, htotal, hnext⟩ := @ListsInv.step α st ups scan count level groups left h
    have hfiles : filesOf groups ++ (g.map fun y => y.2.file) :: left' = filesOf (groups ++ [g]) ++ left' := by
      rw [filesOf, filesOf, List.map_append, List.append_assoc]
      rfl
    refine ⟨g, ?_, htotal⟩
    rw [hfiles]
    rcases hnext with ⟨level', ups', hnext⟩ | ⟨hdone, rfl⟩
    · exact .inl ⟨level', ups', left', hnext, rfl⟩
    · exact .inr ⟨hdone, List.append_nil _⟩
  · rw [h.eof] at hgoing
    cases hgoing

theorem ListsAt.length_le (h : ListsAt scan w st groups) : groups.length ≤ w.length := by
  rcases h with ⟨level, ups, left, -, rfl⟩ | ⟨-, rfl⟩
  · rw [List.length_append, filesOf, List.length_map]
    exact Nat.le_add_right _ _
  · rw [filesOf, List.length_map]

/-- The number of entries in some lists. -/
def countOf (count : List α → ℕ) (groups : List (List (ℕ × SubDir α))) : ℕ := ((filesOf groups).map count).sum

theorem countOf_append (groups more : List (List (ℕ × SubDir α))) :
    countOf count (groups ++ more) = countOf count groups + countOf count more := by
  rw [countOf, filesOf, List.map_append, List.map_append, List.sum_append]
  rfl

/-- A call goes on until the end, or until there are enough entries. -/
theorem extraLoop_spec {atLeast fileOldTotal : ℤ} {n : ℕ} (h : ListsAt scan w st groups) :
    ∃ more, ListsAt scan w (ListsState.extraLoop scan count atLeast fileOldTotal n st) (groups ++ more) ∧
      (ListsState.extraLoop scan count atLeast fileOldTotal n st).fileTotal =
        st.fileTotal + countOf count more ∧
      (w.length < groups.length + n →
        (ListsState.extraLoop scan count atLeast fileOldTotal n st).flistEof = true ∨
          atLeast ≤ (ListsState.extraLoop scan count atLeast fileOldTotal n st).fileTotal - fileOldTotal) := by
  induction n generalizing st groups with
  | zero =>
    refine ⟨[], by rwa [List.append_nil], (add_zero _).symm, fun hlt => absurd h.length_le ?_⟩
    exact Nat.not_le.2 hlt
  | succ n ih =>
    rw [ListsState.extraLoop]
    split_ifs with hcond
    · obtain ⟨g, hnext, htotal⟩ := @ListsAt.step α st scan count groups w h hcond.1
      obtain ⟨more, hmore, hsum, hends⟩ := ih hnext
      refine ⟨g :: more, by rwa [List.append_assoc] at hmore, ?_, fun hlt => hends ?_⟩
      · rw [hsum, htotal, add_assoc]
        congr 1
      · rw [List.length_append, List.length_singleton]
        omega
    · refine ⟨[], by rwa [List.append_nil], (add_zero _).symm, fun _ => ?_⟩
      by_cases heof : st.flistEof = true
      · exact .inl heof
      · exact .inr (not_lt.1 fun hlt => hcond ⟨Bool.eq_false_of_not_eq_true heof, hlt⟩)

theorem listsAt_start {roots : List (SubDir α)} {fileTotal : ℤ} {nodes : ℕ → DirNode}
    (hw : Walk scan (roots.filter (!·.isDot)) w) :
    ListsAt scan w (ListsState.startLists roots fileTotal nodes) [] ∧
      (ListsState.startLists roots fileTotal nodes).fileTotal = fileTotal := by
  obtain ⟨st₀, hst₀⟩ : ∃ st₀ : ListsState α, st₀ = ⟨[], nodes, -1, fileTotal, false, []⟩ := ⟨_, rfl⟩
  have hlen : st₀.files.length = 0 := by
    rw [hst₀]
    rfl
  have hadds := addDirs_adds (-1) roots none st₀
  have hspec := @addDirsToTree_spec α st₀ (-1) roots (by rw [hlen]; decide)
  rw [← ListsState.addDirsToTree] at hadds
  dsimp only at hspec
  rw [ListsState.startLists, ← hst₀]
  obtain ⟨st₁, hst₁⟩ : ∃ st₁, st₁ = ListsState.addDirsToTree (-1) roots st₀ := ⟨_, rfl⟩
  rw [← hst₁] at hadds hspec ⊢
  obtain ⟨hnew, -, -, -, hsend⟩ := hspec
  rw [if_neg (by decide), hlen] at hnew
  rw [hlen] at hsend
  have hfiles : st₁.files = roots := by
    rw [hadds.files, hst₀]
    rfl
  have htotal : st₁.fileTotal = fileTotal := by rw [hadds.fileTotal, hst₀]
  have hsent : st₁.sent = [] := by rw [hadds.sent, hst₀]
  by_cases hnil : newDirs 0 roots = []
  · have hneg : st₁.sendDirNdx < 0 := by
      rw [hsend (.inr hnil), hst₀]
      exact Int.negSucc_lt_zero 0
    rw [if_pos hneg]
    refine ⟨.inr ⟨⟨rfl, by rw [hsent]; rfl, ?_⟩, ?_⟩, htotal⟩
    · rw [hfiles, hnil]
      exact .refl _
    · rw [← map_newDirs 0, hnil] at hw
      cases hw
      rfl
  · have hsib := hnew hnil
    have hpos : ¬st₁.sendDirNdx < 0 := by
      cases hroots : newDirs 0 roots with
      | nil => exact absurd hroots hnil
      | cons y l =>
        rw [hroots] at hsib
        rw [hsib.1]
        exact not_lt.2 (Int.natCast_nonneg _)
    rw [if_neg hpos]
    refine ⟨.inl ⟨newDirs 0 roots, [], w, ⟨?_, hnil, ⟨-1, hsib, Int.negSucc_lt_zero 0⟩, ?_, hsent, ?_⟩, rfl⟩,
      htotal⟩
    · rw [hadds.flistEof, hst₀]
    · rw [List.map_singleton, map_newDirs, ← List.append_nil w]
      exact .level hw .nil
    · rw [hfiles, List.flatten_singleton]
      exact .refl _

/-- What has been sent at any time. -/
theorem ListsAt.spec (h : ListsAt scan w st groups) : filesOf groups <+: w ∧
    st.sent = dirLists groups ++ (if st.flistEof then [.flistEof] else []) ∧
    (groups.flatten.map Prod.fst).Nodup ∧ (∀ y ∈ groups.flatten, y ∈ newDirs 0 st.files) ∧
    (st.flistEof = true → filesOf groups = w ∧ ∀ y ∈ newDirs 0 st.files, y ∈ groups.flatten) := by
  have hnodup := nodup_newDirs 0 st.files
  rcases h with ⟨level, ups, left, h, rfl⟩ | ⟨h, rfl⟩
  · rw [← (h.perm.map Prod.fst).nodup_iff, List.map_append] at hnodup
    refine ⟨List.prefix_append _ _, ?_, hnodup.of_append_left, ?_, ?_⟩
    · rw [h.sent, h.going, if_neg Bool.false_ne_true, List.append_nil]
    · exact fun y hy => h.perm.mem_iff.1 (List.mem_append_left _ hy)
    · rw [h.going]
      exact fun h => by cases h
  · rw [← (h.perm.map Prod.fst).nodup_iff] at hnodup
    refine ⟨List.prefix_refl _, ?_, hnodup, fun y hy => h.perm.mem_iff.1 hy, fun _ => ⟨rfl, ?_⟩⟩
    · rw [h.sent, h.eof, if_pos rfl]
    · exact fun y hy => h.perm.mem_iff.2 hy

/-- What was sent after some calls of `send_extra_file_list`. -/
theorem listsAt_calls {roots : List (SubDir α)} {fileTotal : ℤ} {nodes : ℕ → DirNode} {n : ℕ}
    (hw : Walk scan (roots.filter (!·.isDot)) w) (calls : List (ℤ × ℤ)) :
    ∃ groups, ListsAt scan w (ListsState.afterCalls scan count n calls
        (ListsState.startLists roots fileTotal nodes)) groups ∧
      (ListsState.afterCalls scan count n calls (ListsState.startLists roots fileTotal nodes)).fileTotal =
        fileTotal + countOf count groups := by
  induction calls using List.reverseRecOn with
  | nil =>
    obtain ⟨hstart, htotal⟩ := @listsAt_start α scan w roots fileTotal nodes hw
    exact ⟨[], hstart, htotal.trans (add_zero _).symm⟩
  | append_singleton calls c ih =>
    obtain ⟨groups, hat, htotal⟩ := ih
    rw [ListsState.afterCalls, List.foldl_concat]
    obtain ⟨more, hmore, hsum, -⟩ := @extraLoop_spec α _ scan count groups w
      (if c.1 < 0 then _ - c.2 + 1 else c.1) c.2 n hat
    refine ⟨groups ++ more, hmore, ?_⟩
    rw [countOf_append]
    refine hsum.trans ?_
    rw [htotal, Nat.cast_add, add_assoc]

/-- **The lists are sent in the order of the walk, each directory but "." once, and then the end.** -/
theorem extraLists_walk (scan : List α → List (SubDir α)) (count : List α → ℕ) (roots : List (SubDir α))
    (fileTotal : ℤ) (nodes : ℕ → DirNode) {w : List (List α)} (hw : Walk scan (roots.filter (!·.isDot)) w)
    {n : ℕ} (hn : w.length < n) (calls : List (ℤ × ℤ)) (atLeast fileOldTotal : ℤ) :
    let st := ListsState.afterCalls scan count n calls (ListsState.startLists roots fileTotal nodes)
    let st' := ListsState.sendExtraFileList scan count n atLeast fileOldTotal st
    (st'.flistEof = true ∨
      (if atLeast < 0 then st.fileTotal - fileOldTotal + 1 else atLeast) ≤ st'.fileTotal - fileOldTotal) ∧
      ∃ groups : List (List (ℕ × SubDir α)),
        filesOf groups <+: w ∧
        st.sent = dirLists groups ++ (if st.flistEof then [.flistEof] else []) ∧
        (groups.flatten.map Prod.fst).Nodup ∧ (∀ y ∈ groups.flatten, y ∈ newDirs 0 st.files) ∧
        (st.flistEof = true → filesOf groups = w ∧ ∀ y ∈ newDirs 0 st.files, y ∈ groups.flatten) ∧
        st.fileTotal = fileTotal + countOf count groups := by
  intro st st'
  obtain ⟨groups, hat, htotal⟩ := @listsAt_calls α scan count w roots fileTotal nodes n hw calls
  refine ⟨?_, groups, ?_⟩
  · obtain ⟨more, -, -, hends⟩ := @extraLoop_spec α st scan count groups w
      (if atLeast < 0 then st.fileTotal - fileOldTotal + 1 else atLeast) fileOldTotal n hat
    exact hends (hn.trans_le (Nat.le_add_left _ _))
  · obtain ⟨hgrown, hsent, hnodup, hmem, hall⟩ := hat.spec
    exact ⟨hgrown, hsent, hnodup, hmem, hall, htotal⟩

end Run

/-- A directory 0 with a directory 2 in it, and a directory 1. -/
def scanTwo (l : List ℕ) : List (SubDir ℕ) := if l = [0] then [⟨2, false, false⟩] else []

theorem extraLists_walk_two : ∃ groups : List (List (ℕ × SubDir ℕ)),
    filesOf groups = [[0], [2], [1]] ∧ (groups.flatten.map Prod.fst).Nodup ∧
    (ListsState.afterCalls scanTwo List.length 4 [(-1, 0), (10, 1)]
      (ListsState.startLists [⟨0, false, false⟩, ⟨1, false, false⟩] 1 fun _ => ⟨0, 0, 0⟩)).sent =
        dirLists groups ++ [.flistEof] := by
  have hinner : Walk scanTwo [⟨2, false, false⟩] [[2]] :=
    @Walk.dir ℕ scanTwo ⟨2, false, false⟩ [] [] [] .nil .nil
  have hbehind : Walk scanTwo [⟨1, false, false⟩] [[1]] :=
    @Walk.dir ℕ scanTwo ⟨1, false, false⟩ [] [] [] .nil .nil
  have hw : Walk scanTwo ([⟨0, false, false⟩, ⟨1, false, false⟩].filter (!·.isDot)) [[0], [2], [1]] :=
    @Walk.dir ℕ scanTwo ⟨0, false, false⟩ [⟨1, false, false⟩] [[2]] [[1]] hinner hbehind
  obtain ⟨-, groups, -, hsent, hnodup, -, hall, -⟩ := extraLists_walk scanTwo List.length
    [⟨0, false, false⟩, ⟨1, false, false⟩] 1 (fun _ => ⟨0, 0, 0⟩) hw (show 3 < 4 by decide)
    [(-1, 0), (10, 1)] 0 0
  have heof : (ListsState.afterCalls scanTwo List.length 4 [(-1, 0), (10, 1)]
      (ListsState.startLists [⟨0, false, false⟩, ⟨1, false, false⟩] 1 fun _ => ⟨0, 0, 0⟩)).flistEof = true := by
    decide
  rw [heof] at hsent hall
  exact ⟨groups, (hall rfl).1, hnodup, hsent⟩

/-- "." is in `dir_flist`, and no list is sent for it. -/
theorem not_extraLists_dot :
    let st := ListsState.startLists [⟨0, true, false⟩] 1 fun _ => ⟨0, 0, 0⟩
    st.files = [⟨0, true, false⟩] ∧ st.flistEof = true ∧
      (ListsState.sendExtraFileList scanTwo List.length 4 10 0 st).sent = [.flistEof] :=
  ⟨rfl, rfl, rfl⟩

end CloudEdgeBackup
