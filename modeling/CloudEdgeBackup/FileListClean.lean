/-
  What `flist_sort_and_clean` (`flist.c`) leaves of a file list.

  * the sort: `fsort` orders the names (`fsort_sorts`);
  * the run: `Scanned` holds after the last position (`Scanned.run`);
  * `Clean` is what the list has to be.  It is, but where leading slashes are stripped in
    the end: an absolute and a relative name may then be one name, or be in the wrong
    order (`StripSafe`, `sortAndClean_clean_iff`).
-/
import CloudEdgeBackup.FileList

namespace CloudEdgeBackup

/-! ## The names that are received -/

namespace ListFile

/-- A name that went through `clean_fname`: no two slashes at its start. -/
structure Canonical (f : ListFile) : Prop extends f.Named where
  lead : ∀ s, f.path ≠ slashChar :: slashChar :: s

/-- The name starts with a slash. -/
def isAbsolute (f : ListFile) : Bool := f.path.head? = some slashChar

end ListFile

/-- The entries of a list; two share a dirname's storage only with its contents. -/
structure ReceivedList (files : List ListFile) : Prop where
  canonical : ∀ f ∈ files, f.Canonical
  shared : ∀ f ∈ files, ∀ g ∈ files, f.dirname.map DirName.ptr = g.dirname.map DirName.ptr →
    f.dirname.map DirName.str = g.dirname.map DirName.str

/-! ## The sort -/

/-- What a sort by `f_name_cmp` promises. -/
structure Sorts (v29 : Bool) (files sorted : List ListFile) : Prop where
  perm : sorted.Perm files
  ordered : sorted.Pairwise fun f g => fNameCmp v29 f g ≤ 0

section Sorting

variable {v29 : Bool} {files : List ListFile}

theorem ReceivedList.compares (h : ReceivedList files) {f g : ListFile} (hf : f ∈ files) (hg : g ∈ files) :
    Compares (fNameCmp v29 f g) (f.key v29) (g.key v29) :=
  fNameCmp_spec (h.canonical f hf).toSpelled (h.canonical g hg).toSpelled (h.shared f hf g hg)

theorem pairwise_of_length_le {α : Type} {R : α → α → Prop} {l : List α} (h : l.length ≤ 1) :
    l.Pairwise R := by
  rcases Nat.le_one_iff_eq_zero_or_eq_one.1 h with h0 | h1
  · rw [List.length_eq_zero_iff.1 h0]
    exact .nil
  · obtain ⟨x, rfl⟩ := List.length_eq_one_iff.1 h1
    exact List.pairwise_singleton R x

theorem fsortTmp_perm (v29 : Bool) (n : ℕ) (fp : List ListFile) : (fsortTmp v29 n fp).Perm fp := by
  induction n generalizing fp with
  | zero => exact .refl _
  | succ n ih =>
    have hhalf : ∀ l : List ListFile, (if 1 < l.length then fsortTmp v29 n l else l).Perm l := by
      intro l
      split_ifs
      · exact ih l
      · exact .refl _
    rw [fsortTmp]
    refine (List.merge_perm_append _).trans ?_
    refine ((hhalf _).append (hhalf _)).trans ?_
    rw [List.take_append_drop]

/-- **The merge sort orders the keys.** -/
theorem fsortTmp_keys {n : ℕ} {fp : List ListFile} (hn : fp.length ≤ n)
    (hcmp : ∀ f ∈ fp, ∀ g ∈ fp, Compares (fNameCmp v29 f g) (f.key v29) (g.key v29)) :
    ((fsortTmp v29 n fp).map (ListFile.key v29)).Pairwise (· ≤ ·) := by
  induction n generalizing fp with
  | zero =>
    rw [fsortTmp, List.length_eq_zero_iff.1 (Nat.le_zero.1 hn)]
    exact .nil
  | succ n ih =>
    have hhalf : ∀ l : List ListFile, (1 < l.length → l.length ≤ n) → (∀ f ∈ l, f ∈ fp) →
        ((if 1 < l.length then fsortTmp v29 n l else l).map (ListFile.key v29)).Pairwise (· ≤ ·) := by
      intro l hl hsub
      split_ifs with hlen
      · exact ih (hl hlen) fun f hf g hg => hcmp f (hsub f hf) g (hsub g hg)
      · exact pairwise_of_length_le (by rw [List.length_map]; omega)
    have hmem : ∀ (l : List ListFile) (f : ListFile), (∀ g ∈ l, g ∈ fp) →
        f ∈ (if 1 < l.length then fsortTmp v29 n l else l) → f ∈ fp := by
      intro l f hsub hf
      split_ifs at hf
      · exact hsub f ((fsortTmp_perm v29 n l).mem_iff.1 hf)
      · exact hsub f hf
    have htake : ∀ g ∈ fp.take (fp.length / 2), g ∈ fp := fun g => List.mem_of_mem_take
    have hdrop : ∀ g ∈ fp.drop (fp.length / 2), g ∈ fp := fun g => List.mem_of_mem_drop
    rw [fsortTmp]
    simp only
    rw [List.map_merge (s := fun a b => decide (a ≤ b))]
    · have hsorted := @List.pairwise_merge _ (fun a b : List ℕ => decide (a ≤ b))
        (fun a b c h h' => by simpa using le_trans (of_decide_eq_true h) (of_decide_eq_true h'))
        (fun a b => by simpa using le_total a b) _ _
        ((hhalf _ (by rw [List.length_take]; omega) htake).imp decide_eq_true)
        ((hhalf _ (by rw [List.length_drop]; omega) hdrop).imp decide_eq_true)
      exact hsorted.imp of_decide_eq_true
    · intro f hf g hg
      exact decide_eq_decide.2 (hcmp f (hmem _ f htake hf) g (hmem _ g hdrop hg)).le_iff

/-- **The list is sorted.** -/
theorem fsort_sorts {o : CleanOpts} (h : ReceivedList files)
    (hq : o.useQsort = true → Sorts o.v29 files (o.qsort files)) : Sorts o.v29 files (fsort o files) := by
  rw [fsort]
  by_cases hlen : files.length ≤ 1
  · rw [if_pos hlen]
    exact ⟨.refl _, pairwise_of_length_le hlen⟩
  rw [if_neg hlen]
  by_cases huse : o.useQsort = true
  · rw [if_pos huse]
    exact hq huse
  rw [if_neg huse]
  have hperm := fsortTmp_perm o.v29 files.length files
  refine ⟨hperm, ?_⟩
  have hkeys := List.pairwise_map.1 (@fsortTmp_keys o.v29 _ files le_rfl fun f hf g hg => h.compares hf hg)
  refine hkeys.imp_of_mem fun hf hg hle => ?_
  exact (h.compares (hperm.mem_iff.1 hf) (hperm.mem_iff.1 hg)).le_iff.2 hle

end Sorting

/-! ## The run -/

/-- The sorted names by position. -/
def sortedNames (o : CleanOpts) (files : List ListFile) (i : ℕ) : ListFile := (fsort o files).getD i .empty

section Run

variable {o : CleanOpts} {files : List ListFile} {names : ℕ → ListFile} {v29 : Bool} {n i : ℕ}
  {sorted : ℕ → ListFile} {low prev : ℕ}

theorem sortedNames_mem (h : (fsort o files).Perm files) (hi : i < files.length) :
    sortedNames o files i ∈ files := by
  have hi' : i < (fsort o files).length := by rwa [h.length_eq]
  rw [sortedNames, List.getD_eq_getElem _ _ hi', ← h.mem_iff]
  exact List.getElem_mem hi'

theorem exists_sortedNames (h : (fsort o files).Perm files) {f : ListFile} (hf : f ∈ files) :
    ∃ i < files.length, sortedNames o files i = f := by
  obtain ⟨i, hi, hget⟩ := List.getElem_of_mem (h.mem_iff.2 hf)
  exact ⟨i, by rwa [← h.length_eq], by rw [sortedNames, List.getD_eq_getElem _ _ hi, hget]⟩

theorem sortedNames_ok (hr : ReceivedList files) (hs : Sorts o.v29 files (fsort o files)) :
    SortedNames o.v29 (sortedNames o files) files.length := by
  constructor
  · exact fun i hi => (hr.canonical _ (sortedNames_mem hs.perm hi)).toNamed
  · exact fun i hi j hj => hr.shared _ (sortedNames_mem hs.perm hi) _ (sortedNames_mem hs.perm hj)
  · intro i j hij hj
    rcases hij.eq_or_lt with rfl | hlt
    · exact le_rfl
    have hj' : j < (fsort o files).length := by rwa [hs.perm.length_eq]
    have hcmp := List.pairwise_iff_getElem.1 hs.ordered i j (hlt.trans hj') hj' hlt
    rw [← List.getD_eq_getElem _ .empty (hlt.trans hj'), ← List.getD_eq_getElem _ .empty hj'] at hcmp
    exact (hr.compares (sortedNames_mem hs.perm (hlt.trans hj)) (sortedNames_mem hs.perm hj)).le_iff.1 hcmp

/-- The first name is scanned before the loop. -/
theorem Scanned.start (hs : SortedNames v29 names n) (hn : 0 < n) : Scanned names v29 n 1 names 0 0 := by
  have hzero : ∀ {m}, m < 1 → m = 0 := fun hm => Nat.lt_one_iff.1 hm
  have hact : active names 0 = true := active_of_named (hs.named 0 hn)
  constructor
  · exact le_rfl
  · exact Nat.one_pos
  · exact hact
  · exact hact
  · intro m hm
    omega
  · intro m hm hm'
    omega
  · exact fun m _ _ => rfl
  · exact fun m _ _ => .refl _
  · rfl
  · intro m hm m' hm' _ _ _
    rw [hzero hm, hzero hm']
  · intro m hm
    exact ⟨m, hm, by rw [hzero hm]; exact hact, rfl⟩
  · intro m hm _
    obtain rfl := hzero hm
    exact .first fun m hm => absurd hm (Nat.not_lt_zero m)
  · refine ⟨fun m hm hidle => ?_, fun m hm hidle => ?_⟩
    · rw [hzero hm, hact] at hidle
      cases hidle
    · rw [hzero hm, hact] at hidle
      cases hidle

/-- **The scan to the last position.** -/
theorem Scanned.run {k : ℕ} (h : Scanned names v29 n i sorted low prev) (hs : SortedNames v29 names n)
    (hi0 : 0 < i) (hk : i + k = n) :
    ∃ st, (List.range' i k).foldlM (cleanStep v29) ⟨sorted, low, prev⟩ = some st ∧
      Scanned names v29 n n st.sorted st.low st.prev := by
  induction k generalizing i sorted low prev with
  | zero =>
    subst hk
    exact ⟨_, rfl, h⟩
  | succ k ih =>
    obtain ⟨st, hstep, hst⟩ := h.step hs (by omega) hi0
    obtain ⟨st', hrun, hst'⟩ := ih hst (by omega) (by omega)
    refine ⟨st', ?_, hst'⟩
    rw [List.range'_succ, List.foldlM_cons, hstep]
    exact hrun

end Run

/-! ## The leading slashes -/

namespace ListFile

variable {f g : ListFile}

@[simp] theorem strip_basename (f : ListFile) : f.strip.basename = f.basename := by
  rw [strip]
  cases f.dirname <;> rfl

@[simp] theorem strip_isDir (f : ListFile) : f.strip.isDir = f.isDir := by
  rw [strip]
  cases f.dirname <;> rfl

@[simp] theorem strip_topDir (f : ListFile) : f.strip.topDir = f.topDir := by
  rw [strip]
  cases f.dirname <;> rfl

@[simp] theorem strip_contentDir (f : ListFile) : f.strip.contentDir = f.contentDir := by
  rw [strip]
  cases f.dirname <;> rfl

@[simp] theorem strip_impliedDir (f : ListFile) : f.strip.impliedDir = f.impliedDir := by
  rw [strip]
  cases f.dirname <;> rfl

@[simp] theorem strip_depth (f : ListFile) : f.strip.depth = f.depth := by
  rw [strip]
  cases f.dirname <;> rfl

@[simp] theorem strip_len32 (f : ListFile) : f.strip.len32 = f.len32 := by
  rw [strip]
  cases f.dirname <;> rfl

theorem strip_baseKey (v29 : Bool) (f : ListFile) : f.strip.baseKey v29 = f.baseKey v29 := by
  rw [baseKey, baseKey, strip_basename, strip_isDir]

theorem path_of_some {d : DirName} (hd : f.dirname = some d) : f.path = d.str ++ slashChar :: f.basename := by
  rw [path, hd]

theorem strip_of_some {d : DirName} (hd : f.dirname = some d) :
    f.strip = { f with
      dirname := if d.str.dropWhile (· = slashChar) = [] then none
        else some ⟨d.ptr, d.str.dropWhile (· = slashChar)⟩ } := by
  rw [strip, hd]

/-- A relative name stays as it is. -/
theorem strip_relative (h : f.isAbsolute = false) : f.strip = f := by
  rw [isAbsolute] at h
  cases hd : f.dirname with
  | none => rw [strip, hd]
  | some d =>
    rw [path_of_some hd] at h
    rw [strip_of_some hd]
    cases hstr : d.str with
    | nil =>
      rw [hstr] at h
      simp at h
    | cons b s =>
      rw [hstr] at h
      have hb : b ≠ slashChar := by simpa using h
      have hdrop : (b :: s).dropWhile (· = slashChar) = b :: s :=
        List.dropWhile_cons_of_neg (by simpa using hb)
      rw [hdrop, if_neg (List.cons_ne_nil b s), ← hstr, ← hd]

/-- An absolute name loses its slash. -/
theorem strip_absolute (hf : f.Canonical) (h : f.isAbsolute = true) :
    f.dirBytes = slashChar :: f.strip.dirBytes := by
  have hlead := hf.lead
  rw [isAbsolute] at h
  cases hd : f.dirname with
  | none =>
    rw [path, hd] at h
    have hmem : slashChar ∈ f.basename := List.mem_of_mem_head? (of_decide_eq_true h)
    exact absurd hmem hf.basename_slash
  | some d =>
    rw [path_of_some hd] at h hlead
    rw [strip_of_some hd, dirBytes, dirBytes, hd]
    rcases hstr : d.str with _ | ⟨b, _ | ⟨c, s⟩⟩
    · simp [hstr]
    · rw [hstr] at h hlead
      obtain rfl : b = slashChar := by simpa using h
      exact absurd rfl (hlead _)
    · rw [hstr] at h hlead
      obtain rfl : b = slashChar := by simpa using h
      have hc : c ≠ slashChar := by
        rintro rfl
        exact hlead _ rfl
      simp [hc, hstr]

theorem path_absolute (hf : f.Canonical) (h : f.isAbsolute = true) : f.path = slashChar :: f.strip.path := by
  rw [path_eq, path_eq, strip_absolute hf h, strip_basename]
  rfl

theorem key_absolute (v29 : Bool) (hf : f.Canonical) (h : f.isAbsolute = true) :
    f.key v29 = tag v29 slashChar :: f.strip.key v29 := by
  rw [key_eq, key_eq, strip_absolute hf h, strip_baseKey]
  rfl

theorem strip_named (hf : f.Named) : f.strip.Named := by
  have hdirname : ∀ d, f.strip.dirname = some d →
      ∃ d', f.dirname = some d' ∧ d.str = d'.str.dropWhile (· = slashChar) ∧ d.str ≠ [] := by
    intro d hd
    cases hf' : f.dirname with
    | none =>
      rw [strip, hf'] at hd
      simp only [hf', reduceCtorEq] at hd
    | some d' =>
      rw [strip_of_some hf'] at hd
      simp only at hd
      split_ifs at hd with hnil
      rw [Option.some.injEq] at hd
      subst hd
      exact ⟨d', rfl, rfl, hnil⟩
  refine ⟨⟨?_, ?_, ?_, fun d hd => ?_⟩, fun hdot => ⟨?_, fun d hd => ?_⟩⟩
  · rw [strip_basename]
    exact hf.basename_ne
  · rw [strip_basename]
    exact hf.basename_zero
  · rw [strip_basename]
    exact hf.basename_slash
  · obtain ⟨d', hd', hstr, -⟩ := hdirname d hd
    rw [hstr]
    exact fun hmem => hf.dirname_zero d' hd' ((List.dropWhile_sublist _).subset hmem)
  · rw [strip_isDir]
    exact (hf.dot (by rwa [strip_basename] at hdot)).1
  · obtain ⟨d', hd', hstr, hne⟩ := hdirname d hd
    rw [strip_basename] at hdot
    rw [(hf.dot hdot).2 d' hd'] at hstr
    exact absurd hstr hne

/-- Names that share their dirname share it afterwards. -/
theorem strip_shared (h : f.dirname.map DirName.ptr = g.dirname.map DirName.ptr →
      f.dirname.map DirName.str = g.dirname.map DirName.str)
    (hptr : f.strip.dirname.map DirName.ptr = g.strip.dirname.map DirName.ptr) :
    f.strip.dirname.map DirName.str = g.strip.dirname.map DirName.str := by
  cases hf : f.dirname with
  | none =>
    cases hg : g.dirname with
    | none =>
      rw [strip, hf, strip, hg]
      simp only [hf, hg]
    | some e =>
      rw [strip, hf, strip_of_some hg] at hptr ⊢
      simp only [hf] at hptr ⊢
      split_ifs at hptr ⊢
      · rfl
      · cases hptr
  | some d =>
    cases hg : g.dirname with
    | none =>
      rw [strip_of_some hf, strip, hg] at hptr ⊢
      simp only [hg] at hptr ⊢
      split_ifs at hptr ⊢
      · rfl
      · cases hptr
    | some e =>
      rw [hf, hg] at h
      rw [strip_of_some hf, strip_of_some hg] at hptr ⊢
      simp only at hptr ⊢
      split_ifs at hptr ⊢
      · rfl
      · cases hptr
      · cases hptr
      · have hstr := h hptr
        simp only [Option.map_some, Option.some.injEq] at hstr ⊢
        rw [hstr]

end ListFile

/-! ## A clean list -/

/-- The name that an entry has in the end. -/
def shown (o : CleanOpts) (f : ListFile) : ListFile := if o.stripRoot then f.strip else f

/-- `e` stands for the files of its path: a directory if one of them is, with the flags of
    the directories. -/
structure Stands (files : List ListFile) (e : ListFile) : Prop where
  one : ∃ f ∈ files, f.path = e.path
  dir : e.isDir = true ↔ ∃ f ∈ files, f.path = e.path ∧ f.isDir = true
  top : e.isDir = true → (e.topDir = true ↔
    ∃ f ∈ files, f.path = e.path ∧ f.isDir = true ∧ f.topDir = true)
  content : e.isDir = true → (e.contentDir = true ↔
    ∃ f ∈ files, f.path = e.path ∧ f.isDir = true ∧ f.contentDir = true)
  implied : e.isDir = true → (e.impliedDir = true ↔
    ∀ f ∈ files, f.path = e.path → f.isDir = true → f.impliedDir = true)

/-- `low` and `high` are the first and the last active position. -/
structure Bounds (out : Flist) : Prop where
  empty : out.used = 0 → out.low = 0 ∧ out.high = -1
  low : out.used ≠ 0 → ∃ l : ℕ, out.low = l ∧ l < out.used ∧ active out.sorted l = true ∧
    ∀ m < l, active out.sorted m = false
  high : out.used ≠ 0 → ∃ h : ℕ, out.high = h ∧ h < out.used ∧ active out.sorted h = true ∧
    ∀ m, h < m → m < out.used → active out.sorted m = false

/-- `flist_find` searches the list for every name; only hints are different afterwards. -/
def Searchable (v29 : Bool) (out : Flist) : Prop :=
  ∀ f : ListFile, f.Spelled →
    (∀ m < out.used, (out.sorted m).dirname.map DirName.ptr = f.dirname.map DirName.ptr →
      (out.sorted m).dirname.map DirName.str = f.dirname.map DirName.str) →
    ∃ r sorted', flistFind v29 out.sorted out.low out.high f = some (r, sorted') ∧
      SameActive out.sorted sorted' ∧ Gapped sorted' out.used ∧
      FlistFinds v29 f out.sorted out.low out.high r

/-- **What a file list has to be** after it was sorted and cleaned. -/
structure Clean (o : CleanOpts) (files : List ListFile) (out : Flist) : Prop where
  used : out.used = files.length
  ascending : ∀ m m', m < m' → m' < out.used → active out.sorted m = true → active out.sorted m' = true →
    fNameCmp o.v29 (out.sorted m) (out.sorted m') < 0
  distinct : ∀ m < out.used, ∀ m' < out.used, active out.sorted m = true → active out.sorted m' = true →
    (out.sorted m).path = (out.sorted m').path → m = m'
  covers : ∀ f ∈ files, ∃! m, m < out.used ∧ active out.sorted m = true ∧
    (out.sorted m).path = (shown o f).path
  stands : ∀ m < out.used, active out.sorted m = true → Stands (files.map (shown o)) (out.sorted m)
  bounds : Bounds out
  gaps : Gapped out.sorted out.used
  searchable : Searchable o.v29 out

/-- A file that no directory of its name takes the place of. -/
def Stays (files : List ListFile) (f : ListFile) : Prop :=
  f ∈ files ∧ (f.isDir = true ∨ ∀ g ∈ files, g.path = f.path → g.isDir = false)

/-- Without its slash `a` is still another name than `r`, on the same side of it. -/
def KeepsPlace (v29 : Bool) (a r : ListFile) : Prop :=
  (fNameCmp v29 a.strip r < 0 ↔ fNameCmp v29 a r < 0) ∧ a.strip.path ≠ r.path

/-- The leading slashes of absolute names are stripped, and no relative name is in their
    way. -/
def StripSafe (o : CleanOpts) (files : List ListFile) : Prop :=
  o.stripRoot = true → ∀ a r, Stays files a → Stays files r → a.isAbsolute = true →
    r.isAbsolute = false → KeepsPlace o.v29 a r

/-- Without its slash `a` is on the same side of `r`, and not equal to it. -/
def KeepsOrder (v29 : Bool) (a r : ListFile) : Prop :=
  (fNameCmp v29 a.strip r < 0 ↔ fNameCmp v29 a r < 0) ∧ fNameCmp v29 a.strip r ≠ 0

/-- The names are in order without the leading slashes, too. -/
def StripSorted (o : CleanOpts) (files : List ListFile) : Prop :=
  o.stripRoot = true → ∀ a r, Stays files a → Stays files r → a.isAbsolute = true →
    r.isAbsolute = false → KeepsOrder o.v29 a r

section Shown

variable {o : CleanOpts} {files : List ListFile} {a b f g : ListFile}

theorem shown_named (hf : f.Named) : (shown o f).Named := by
  rw [shown]
  split_ifs
  · exact ListFile.strip_named hf
  · exact hf

theorem shown_shared (h : f.dirname.map DirName.ptr = g.dirname.map DirName.ptr →
      f.dirname.map DirName.str = g.dirname.map DirName.str)
    (hptr : (shown o f).dirname.map DirName.ptr = (shown o g).dirname.map DirName.ptr) :
    (shown o f).dirname.map DirName.str = (shown o g).dirname.map DirName.str := by
  rw [shown, shown] at hptr ⊢
  split_ifs at hptr ⊢
  · exact ListFile.strip_shared h hptr
  · exact h hptr

theorem shown_isDir (o : CleanOpts) (f : ListFile) : (shown o f).isDir = f.isDir := by
  rw [shown]
  split_ifs
  · exact f.strip_isDir
  · rfl

theorem SameName.strip (h : SameName f g) : SameName f.strip g.strip := by
  refine ⟨?_, by simp [h.basename], by simp [h.isDir]⟩
  rw [ListFile.strip, ListFile.strip, h.dirname]
  cases hd : g.dirname with
  | none => simp only [h.dirname, hd]
  | some d => rfl

theorem SameName.shown (h : SameName f g) (o : CleanOpts) : SameName (shown o f) (shown o g) := by
  rw [CloudEdgeBackup.shown, CloudEdgeBackup.shown]
  split_ifs
  · exact h.strip
  · exact h

/-- One path is one path in the end, too. -/
theorem shown_path (hf : f.Canonical) (hg : g.Canonical) (h : f.path = g.path) :
    (shown o f).path = (shown o g).path := by
  rw [shown, shown]
  split_ifs
  · have habs : f.isAbsolute = g.isAbsolute := by rw [ListFile.isAbsolute, ListFile.isAbsolute, h]
    cases hg' : g.isAbsolute with
    | true =>
      rw [ListFile.path_absolute hf (habs.trans hg'), ListFile.path_absolute hg hg'] at h
      exact (List.cons.inj h).2
    | false =>
      rw [ListFile.strip_relative (habs.trans hg'), ListFile.strip_relative hg', h]
  · exact h

theorem ReceivedList.shown_compares (h : ReceivedList files) (hf : f ∈ files) (hg : g ∈ files) :
    Compares (fNameCmp o.v29 (shown o f) (shown o g)) ((shown o f).key o.v29) ((shown o g).key o.v29) :=
  fNameCmp_spec (shown_named (h.canonical f hf).toNamed).toSpelled
    (shown_named (h.canonical g hg).toNamed).toSpelled (shown_shared (h.shared f hf g hg))

/-- A name that stays relative is compared as it is. -/
theorem ReceivedList.strip_compares (h : ReceivedList files) (ha : a ∈ files) (hb : b ∈ files)
    (hrel : b.isAbsolute = false) :
    Compares (fNameCmp o.v29 a.strip b) (a.strip.key o.v29) (b.key o.v29) := by
  have hshared := ListFile.strip_shared (h.shared a ha b hb)
  rw [ListFile.strip_relative hrel] at hshared
  exact fNameCmp_spec (ListFile.strip_named (h.canonical a ha).toNamed).toSpelled
    (h.canonical b hb).toSpelled hshared

theorem StripSafe.stripSorted (h : StripSafe o files) (hr : ReceivedList files) : StripSorted o files := by
  intro hstrip a r ha hb haa hba
  obtain ⟨hside, hpath⟩ := h hstrip a r ha hb haa hba
  refine ⟨hside, fun hzero => hpath ?_⟩
  have hkey := (hr.strip_compares (o := o) ha.1 hb.1 hba).zero.1 hzero
  exact ((key_inj (ListFile.strip_named (hr.canonical a ha.1).toNamed)
    (hr.canonical r hb.1).toNamed).1 hkey).1

/-- **The names that stay** are in order in the end. -/
theorem StripSorted.shown_lt (h : StripSorted o files) (hr : ReceivedList files) (ha : Stays files a)
    (hb : Stays files b) (hlt : a.key o.v29 < b.key o.v29) :
    (shown o a).key o.v29 < (shown o b).key o.v29 := by
  rw [shown, shown]
  split_ifs with hstrip
  swap
  · exact hlt
  cases haa : a.isAbsolute <;> cases hba : b.isAbsolute
  · rwa [ListFile.strip_relative haa, ListFile.strip_relative hba]
  · obtain ⟨hside, hne⟩ := h hstrip b a hb ha hba haa
    rw [ListFile.strip_relative haa]
    have hcmp := hr.strip_compares (o := o) hb.1 ha.1 haa
    have hnot : ¬ b.strip.key o.v29 < a.key o.v29 := fun hgt =>
      lt_asymm hlt ((hr.compares hb.1 ha.1).neg.1 (hside.1 (hcmp.neg.2 hgt)))
    exact lt_of_le_of_ne (not_lt.1 hnot) fun heq => hne (hcmp.zero.2 heq.symm)
  · obtain ⟨hside, -⟩ := h hstrip a b ha hb haa hba
    rw [ListFile.strip_relative hba]
    exact (hr.strip_compares ha.1 hb.1 hba).neg.1 (hside.2 ((hr.compares ha.1 hb.1).neg.2 hlt))
  · rwa [ListFile.key_absolute _ (hr.canonical a ha.1) haa, ListFile.key_absolute _ (hr.canonical b hb.1) hba,
      List.cons_lt_cons_self] at hlt

/-- They are different, too. -/
theorem StripSafe.shown_path_ne (h : StripSafe o files) (hr : ReceivedList files) (ha : Stays files a)
    (hb : Stays files b) (hne : a.path ≠ b.path) : (shown o a).path ≠ (shown o b).path := by
  rw [shown, shown]
  split_ifs with hstrip
  swap
  · exact hne
  cases haa : a.isAbsolute <;> cases hba : b.isAbsolute
  · rwa [ListFile.strip_relative haa, ListFile.strip_relative hba]
  · rw [ListFile.strip_relative haa]
    exact (h hstrip b a hb ha hba haa).2.symm
  · rw [ListFile.strip_relative hba]
    exact (h hstrip a b ha hb haa hba).2
  · rw [ListFile.path_absolute (hr.canonical a ha.1) haa, ListFile.path_absolute (hr.canonical b hb.1) hba] at hne
    exact fun heq => hne (by rw [heq])

end Shown

/-! ## The list in the end -/

/-- The entries in the end. -/
def finalList (o : CleanOpts) (st : CleanState) : ℕ → ListFile := if o.stripRoot then stripRange st else st.sorted

section Final

variable {o : CleanOpts} {files : List ListFile} {st : CleanState} {m m' : ℕ}

theorem finalList_hints (o : CleanOpts) (st : CleanState) (m : ℕ) :
    active (finalList o st) m = active st.sorted m ∧ (finalList o st m).depth = (st.sorted m).depth ∧
      (finalList o st m).len32 = (st.sorted m).len32 := by
  rw [active, active, ListFile.isActive, ListFile.isActive, finalList]
  split_ifs
  · rw [stripRange]
    split_ifs
    · rw [ListFile.strip_basename, ListFile.strip_depth, ListFile.strip_len32]
      exact ⟨rfl, rfl, rfl⟩
    · exact ⟨rfl, rfl, rfl⟩
  · exact ⟨rfl, rfl, rfl⟩

/-- What is known of the list when the scan is over. -/
structure ScanDone (o : CleanOpts) (files : List ListFile) (st : CleanState) : Prop where
  received : ReceivedList files
  perm : (fsort o files).Perm files
  sorted : SortedNames o.v29 (sortedNames o files) files.length
  scanned : Scanned (sortedNames o files) o.v29 files.length files.length st.sorted st.low st.prev

namespace ScanDone

theorem active_eq (h : ScanDone o files st) (hm : m < files.length) (ha : active st.sorted m = true) :
    finalList o st m = shown o (st.sorted m) := by
  have hrange := h.scanned.mem_range hm ha
  rw [finalList, shown]
  split_ifs
  · exact if_pos hrange
  · rfl

theorem sameName (h : ScanDone o files st) (hm : m < files.length) (ha : active st.sorted m = true) :
    SameName (finalList o st m) (shown o (sortedNames o files m)) := by
  rw [h.active_eq hm ha]
  exact (h.scanned.name m hm ha).shown o

theorem canonical (h : ScanDone o files st) (hm : m < files.length) : (sortedNames o files m).Canonical :=
  h.received.canonical _ (sortedNames_mem h.perm hm)

/-- An entry is a name that stays. -/
theorem stays (h : ScanDone o files st) (hm : m < files.length) (ha : active st.sorted m = true) :
    Stays files (sortedNames o files m) := by
  have hname := h.scanned.name m hm ha
  have hmerged := h.scanned.merged m hm ha
  refine ⟨sortedNames_mem h.perm hm, ?_⟩
  by_cases hdir : (sortedNames o files m).isDir = true
  · exact .inl hdir
  refine .inr fun g hg hpath => ?_
  by_contra hgdir
  obtain ⟨j, hj, rfl⟩ := exists_sortedNames h.perm hg
  refine hdir ?_
  rw [← hname.isDir]
  exact hmerged.dir.2 ⟨j, hj, by rw [hpath, hname.path], by simpa using hgdir⟩

/-- A name that stays has an entry. -/
theorem entry (h : ScanDone o files st) {f : ListFile} (hf : Stays files f) :
    ∃ m < files.length, active st.sorted m = true ∧ (sortedNames o files m).path = f.path ∧
      (sortedNames o files m).isDir = f.isDir := by
  obtain ⟨j, hj, rfl⟩ := exists_sortedNames h.perm hf.1
  obtain ⟨m, hm, ha, hpath⟩ := h.scanned.cover j hj
  have hname := h.scanned.name m hm ha
  refine ⟨m, hm, ha, hname.path.symm.trans hpath, ?_⟩
  have hdir := (h.scanned.merged m hm ha).dir
  rw [hname.isDir, hpath] at hdir
  rw [Bool.eq_iff_iff, hdir]
  constructor
  · rintro ⟨k, hk, hkpath, hkdir⟩
    rcases hf.2 with hisDir | hno
    · exact hisDir
    · rw [hno _ (sortedNames_mem h.perm hk) hkpath] at hkdir
      cases hkdir
  · exact fun hisDir => ⟨j, hj, rfl, hisDir⟩

theorem key_lt (h : ScanDone o files st) (hlt : m < m') (hm' : m' < files.length)
    (ha : active st.sorted m = true) (ha' : active st.sorted m' = true) :
    (sortedNames o files m).key o.v29 < (sortedNames o files m').key o.v29 ∧
      (sortedNames o files m).path ≠ (sortedNames o files m').path := by
  have hname := h.scanned.name m (hlt.trans hm') ha
  have hname' := h.scanned.name m' hm' ha'
  have hasc := h.scanned.ascends h.sorted le_rfl m m' (h.scanned.mem_range (hlt.trans hm') ha).1 hlt
    (h.scanned.mem_range hm' ha').2 ha ha'
  rw [hname.key, hname'.key] at hasc
  refine ⟨hasc, fun hpath => hlt.ne ?_⟩
  refine h.scanned.uniq m (hlt.trans hm') m' hm' ha ha' ?_
  rw [hname.path, hname'.path, hpath]

theorem compares (h : ScanDone o files st) (hm : m < files.length) (hm' : m' < files.length)
    (ha : active st.sorted m = true) (ha' : active st.sorted m' = true) :
    Compares (fNameCmp o.v29 (finalList o st m) (finalList o st m'))
      ((shown o (sortedNames o files m)).key o.v29) ((shown o (sortedNames o files m')).key o.v29) := by
  have hname := h.sameName hm ha
  have hname' := h.sameName hm' ha'
  have hcmp := @fNameCmp_spec o.v29 _ _
    (hname.named (shown_named (h.canonical hm).toNamed)).toSpelled
    (hname'.named (shown_named (h.canonical hm').toNamed)).toSpelled fun hptr => by
      rw [hname.dirname, hname'.dirname] at hptr ⊢
      exact shown_shared (h.received.shared _ (sortedNames_mem h.perm hm) _ (sortedNames_mem h.perm hm')) hptr
  rwa [hname.key, hname'.key] at hcmp

/-- **In the final list** the names are in order where stripping keeps them so. -/
theorem shown_key_lt (h : ScanDone o files st) (hs : StripSorted o files) (hlt : m < m') (hm' : m' < files.length)
    (ha : active st.sorted m = true) (ha' : active st.sorted m' = true) :
    (shown o (sortedNames o files m)).key o.v29 < (shown o (sortedNames o files m')).key o.v29 :=
  hs.shown_lt h.received (h.stays (hlt.trans hm') ha) (h.stays hm' ha') (h.key_lt hlt hm' ha ha').1

section Safe

variable (h : ScanDone o files st) (hsafe : StripSafe o files)

include h hsafe

theorem shown_lt (hlt : m < m') (hm' : m' < files.length) (ha : active st.sorted m = true)
    (ha' : active st.sorted m' = true) :
    (shown o (sortedNames o files m)).key o.v29 < (shown o (sortedNames o files m')).key o.v29 ∧
      (shown o (sortedNames o files m)).path ≠ (shown o (sortedNames o files m')).path :=
  ⟨h.shown_key_lt (hsafe.stripSorted h.received) hlt hm' ha ha',
    hsafe.shown_path_ne h.received (h.stays (hlt.trans hm') ha) (h.stays hm' ha') (h.key_lt hlt hm' ha ha').2⟩

theorem distinct (hm : m < files.length) (hm' : m' < files.length) (ha : active st.sorted m = true)
    (ha' : active st.sorted m' = true)
    (hpath : (shown o (sortedNames o files m)).path = (shown o (sortedNames o files m')).path) : m = m' := by
  rcases lt_trichotomy m m' with hlt | heq | hgt
  · exact absurd hpath (h.shown_lt hsafe hlt hm' ha ha').2
  · exact heq
  · exact absurd hpath.symm (h.shown_lt hsafe hgt hm ha' ha).2

/-- A name has the path of an entry in the end only if it had it before. -/
theorem path_iff (hm : m < files.length) (ha : active st.sorted m = true) {f : ListFile} (hf : f ∈ files) :
    (shown o f).path = (finalList o st m).path ↔ f.path = (st.sorted m).path := by
  rw [(h.sameName hm ha).path, (h.scanned.name m hm ha).path]
  constructor
  · intro hpath
    obtain ⟨j, hj, rfl⟩ := exists_sortedNames h.perm hf
    obtain ⟨k, hk, hka, hkpath⟩ := h.scanned.cover j hj
    rw [(h.scanned.name k hk hka).path] at hkpath
    have hshown := shown_path (o := o) (h.canonical hk) (h.canonical hj) hkpath
    rw [← hkpath, h.distinct hsafe hk hm hka ha (hshown.trans hpath)]
  · exact shown_path (h.received.canonical f hf) (h.canonical hm)

theorem stands (hm : m < files.length) (ha : active st.sorted m = true) :
    Stands (files.map (shown o)) (finalList o st m) := by
  have hmerged := h.scanned.merged m hm ha
  have hflags : ∀ f, (shown o f).isDir = f.isDir ∧ (shown o f).topDir = f.topDir ∧
      (shown o f).contentDir = f.contentDir ∧ (shown o f).impliedDir = f.impliedDir := by
    intro f
    rw [shown]
    split_ifs
    · exact ⟨f.strip_isDir, f.strip_topDir, f.strip_contentDir, f.strip_impliedDir⟩
    · exact ⟨rfl, rfl, rfl, rfl⟩
  have hex : ∀ P Q : ListFile → Prop, (∀ f, P (shown o f) ↔ Q f) →
      ((∃ f ∈ files.map (shown o), f.path = (finalList o st m).path ∧ P f) ↔
        ∃ j < files.length, (sortedNames o files j).path = (st.sorted m).path ∧ Q (sortedNames o files j)) := by
    intro P Q hPQ
    constructor
    · rintro ⟨_, hmem, hpath, hP⟩
      obtain ⟨f, hf, rfl⟩ := List.mem_map.1 hmem
      obtain ⟨j, hj, rfl⟩ := exists_sortedNames h.perm hf
      exact ⟨j, hj, (h.path_iff hsafe hm ha hf).1 hpath, (hPQ _).1 hP⟩
    · rintro ⟨j, hj, hpath, hQ⟩
      have hmem := sortedNames_mem h.perm hj
      exact ⟨_, List.mem_map_of_mem hmem, (h.path_iff hsafe hm ha hmem).2 hpath, (hPQ _).2 hQ⟩
  have hfinal := h.active_eq hm ha
  have hisDir : (finalList o st m).isDir = (st.sorted m).isDir := by rw [hfinal, (hflags _).1]
  constructor
  · have hmem := sortedNames_mem h.perm hm
    exact ⟨_, List.mem_map_of_mem hmem, (h.sameName hm ha).path.symm⟩
  · rw [hisDir, hmerged.dir, hex (fun f => f.isDir = true) (fun f => f.isDir = true)
      fun f => by rw [(hflags f).1]]
  · intro hd
    rw [hisDir] at hd
    rw [hfinal, (hflags _).2.1, hmerged.top hd, ← hfinal,
      hex (fun f => f.isDir = true ∧ f.topDir = true) (fun f => f.isDir = true ∧ f.topDir = true)
        fun f => by rw [(hflags f).1, (hflags f).2.1]]
  · intro hd
    rw [hisDir] at hd
    rw [hfinal, (hflags _).2.2.1, hmerged.content hd, ← hfinal,
      hex (fun f => f.isDir = true ∧ f.contentDir = true) (fun f => f.isDir = true ∧ f.contentDir = true)
        fun f => by rw [(hflags f).1, (hflags f).2.2.1]]
  · intro hd
    rw [hisDir] at hd
    have himplied := hex (fun f => f.isDir = true ∧ ¬ f.impliedDir = true)
      (fun f => f.isDir = true ∧ ¬ f.impliedDir = true) fun f => by rw [(hflags f).1, (hflags f).2.2.2]
    rw [hfinal, (hflags _).2.2.2, hmerged.implied hd, ← hfinal]
    have hneg := not_congr himplied
    push Not at hneg
    exact hneg.symm

/-- **The list is clean.** -/
theorem clean : Clean o files ⟨finalList o st, files.length, st.low, st.prev⟩ := by
  have hact : ∀ {m}, active (finalList o st) m = active st.sorted m := fun {m} => (finalList_hints o st m).1
  have hgap := h.scanned.gapped.congr (finalList_hints o st)
  constructor
  · rfl
  · intro m m' hlt hm' ha ha'
    rw [hact] at ha ha'
    exact (h.compares (hlt.trans hm') hm' ha ha').neg.2 (h.shown_lt hsafe hlt hm' ha ha').1
  · intro m hm m' hm' ha ha' hpath
    rw [hact] at ha ha'
    rw [(h.sameName hm ha).path, (h.sameName hm' ha').path] at hpath
    exact h.distinct hsafe hm hm' ha ha' hpath
  · intro f hf
    obtain ⟨j, hj, rfl⟩ := exists_sortedNames h.perm hf
    obtain ⟨m, hm, ha, hpath⟩ := h.scanned.cover j hj
    have hm₁ := (h.path_iff hsafe hm ha hf).2 hpath.symm
    refine ⟨m, ⟨hm, hact.trans ha, hm₁.symm⟩, ?_⟩
    rintro k ⟨hk, hka, hkpath⟩
    rw [hact] at hka
    refine h.distinct hsafe hk hm hka ha ?_
    rw [← (h.sameName hk hka).path, ← (h.sameName hm ha).path]
    exact hkpath.trans hm₁
  · intro m hm ha
    rw [hact] at ha
    exact h.stands hsafe hm ha
  · have hprev := h.scanned.prev_lt
    constructor
    · intro hused
      have hlen : files.length = 0 := hused
      omega
    · intro _
      refine ⟨st.low, rfl, h.scanned.low_le.trans_lt hprev, hact.trans h.scanned.low_active, ?_⟩
      exact fun m hm => hact.trans (h.scanned.below m hm)
    · intro _
      refine ⟨st.prev, rfl, hprev, hact.trans h.scanned.prev_active, ?_⟩
      exact fun m hm hm' => hact.trans (h.scanned.above m hm hm')
  · exact hgap
  · intro f hf hshared
    refine flistFind_spec hgap (hact.trans h.scanned.low_active) (hact.trans h.scanned.prev_active)
      h.scanned.low_le h.scanned.prev_lt ?_ ?_
    · intro m m' _ hlt hm' ha ha'
      have hm'' := hm'.trans_lt h.scanned.prev_lt
      rw [hact] at ha ha'
      rw [(h.sameName (hlt.trans hm'') ha).key, (h.sameName hm'' ha').key]
      exact (h.shown_lt hsafe hlt hm'' ha ha').1
    · intro m ha _ hm
      have hm' := hm.trans_lt h.scanned.prev_lt
      rw [hact] at ha
      refine fNameCmp_spec ?_ hf (hshared m hm')
      exact ((h.sameName hm' ha).named (shown_named (h.canonical hm').toNamed)).toSpelled

end Safe

/-- The entry of a name that stays, before and after the slashes are stripped. -/
theorem entry_keys (h : ScanDone o files st) {f : ListFile} (hf : Stays files f) :
    ∃ m < files.length, active st.sorted m = true ∧ (sortedNames o files m).path = f.path ∧
      (sortedNames o files m).key o.v29 = f.key o.v29 ∧
      (shown o (sortedNames o files m)).key o.v29 = (shown o f).key o.v29 := by
  obtain ⟨m, hm, ha, hpath, hdir⟩ := h.entry hf
  have hfc := h.received.canonical f hf.1
  refine ⟨m, hm, ha, hpath, (key_inj (h.canonical hm).toNamed hfc.toNamed).2 ⟨hpath, fun _ => hdir⟩, ?_⟩
  refine (key_inj (shown_named (h.canonical hm).toNamed) (shown_named hfc.toNamed)).2
    ⟨shown_path (h.canonical hm) hfc hpath, fun _ => ?_⟩
  rw [shown_isDir, shown_isDir, hdir]

/-- A list in order is one that stripping keeps so. -/
theorem stripSorted (h : ScanDone o files st)
    (hasc : ∀ m m', m < m' → m' < files.length → active st.sorted m = true → active st.sorted m' = true →
      (shown o (sortedNames o files m)).key o.v29 < (shown o (sortedNames o files m')).key o.v29) :
    StripSorted o files := by
  intro hstrip a r ha hr haabs hrrel
  obtain ⟨m, hm, hma, hmpath, hbefore, hkey⟩ := h.entry_keys ha
  obtain ⟨m', hm', hma', hmpath', hbefore', hkey'⟩ := h.entry_keys hr
  rw [shown.eq_def o a, if_pos hstrip] at hkey
  rw [shown.eq_def o r, if_pos hstrip, ListFile.strip_relative hrrel] at hkey'
  have hne : m ≠ m' := by
    rintro rfl
    rw [ListFile.isAbsolute, ← hmpath] at haabs
    rw [ListFile.isAbsolute, ← hmpath', haabs] at hrrel
    cases hrrel
  have hafter := h.received.strip_compares (o := o) ha.1 hr.1 hrrel
  have hcmp := (@ReceivedList.compares o.v29 files h.received a r ha.1 hr.1).neg
  rw [← hkey, ← hkey'] at hafter
  rw [← hbefore, ← hbefore'] at hcmp
  rw [KeepsOrder, hafter.neg, hcmp, ne_eq, hafter.zero]
  rcases lt_or_gt_of_ne hne with hlt | hgt
  · have hfinal := hasc m m' hlt hm' hma hma'
    exact ⟨iff_of_true hfinal (h.key_lt hlt hm' hma hma').1, hfinal.ne⟩
  · have hfinal := hasc m' m hgt hm hma' hma
    exact ⟨iff_of_false (lt_asymm hfinal) (lt_asymm (h.key_lt hgt hm hma' hma).1), hfinal.ne'⟩

/-- **Only then is it clean.** -/
theorem safe (h : ScanDone o files st) (hclean : Clean o files ⟨finalList o st, files.length, st.low, st.prev⟩) :
    StripSafe o files := by
  intro hstrip a r ha hr haabs hrrel
  have hact : ∀ {m}, active (finalList o st) m = active st.sorted m := fun {m} => (finalList_hints o st m).1
  have hsorted := h.stripSorted fun m m' hlt hm' hma hma' =>
    (h.compares (hlt.trans hm') hm' hma hma').neg.1
      (hclean.ascending m m' hlt hm' (hact.trans hma) (hact.trans hma'))
  refine ⟨(hsorted hstrip a r ha hr haabs hrrel).1, fun heq => ?_⟩
  obtain ⟨m, hm, hma, hmpath, -⟩ := h.entry_keys ha
  obtain ⟨m', hm', hma', hmpath', -⟩ := h.entry_keys hr
  have hshown := shown_path (o := o) (h.canonical hm) (h.received.canonical a ha.1) hmpath
  have hshown' := shown_path (o := o) (h.canonical hm') (h.received.canonical r hr.1) hmpath'
  rw [shown.eq_def o a, if_pos hstrip] at hshown
  rw [shown.eq_def o r, if_pos hstrip, ListFile.strip_relative hrrel] at hshown'
  have hmm : m = m' := by
    refine hclean.distinct m hm m' hm' (hact.trans hma) (hact.trans hma') ?_
    rw [(h.sameName hm hma).path, (h.sameName hm' hma').path, hshown, hshown', heq]
  subst hmm
  rw [ListFile.isAbsolute, ← hmpath] at haabs
  rw [ListFile.isAbsolute, ← hmpath', haabs] at hrrel
  cases hrrel

end ScanDone

/-- **The list is sorted and scanned** to its end. -/
theorem sortAndClean_ready (hne : files ≠ []) (hr : ReceivedList files)
    (hq : o.useQsort = true → Sorts o.v29 files (o.qsort files)) :
    ∃ st, sortAndClean o files = some ⟨finalList o st, files.length, st.low, st.prev⟩ ∧ ScanDone o files st := by
  have hsorts := fsort_sorts hr hq
  have hs := sortedNames_ok hr hsorts
  have hpos : 0 < files.length := List.length_pos_of_ne_nil hne
  have hfirst : firstActive (sortedNames o files) files.length 0 = 0 := by
    obtain ⟨n, hn⟩ := Nat.exists_eq_succ_of_ne_zero hpos.ne'
    rw [hn, firstActive, if_pos]
    exact active_of_named (hs.named 0 hpos)
  obtain ⟨st, hrun, hscanned⟩ := (Scanned.start hs hpos).run hs Nat.one_pos
    (show 1 + (files.length - 1) = files.length by omega)
  refine ⟨st, ?_, hr, hsorts.perm, hs, hscanned⟩
  have hfirst' : firstActive (fun i => (fsort o files).getD i .empty) files.length 0 = 0 := hfirst
  rw [sortAndClean, if_neg hne]
  simp only [hfirst', ite_self, zero_add]
  change (List.foldlM (cleanStep o.v29) ⟨sortedNames o files, 0, 0⟩ _).map _ = _
  rw [hrun]
  rfl

theorem clean_nil (o : CleanOpts) : Clean o [] ⟨fun _ => .empty, 0, 0, -1⟩ := by
  have hno : ∀ {m}, ¬ m < 0 := fun {m} => Nat.not_lt_zero m
  constructor
  · rfl
  · exact fun m m' _ hm' => absurd hm' hno
  · exact fun m hm => absurd hm hno
  · exact fun f hf => absurd hf List.not_mem_nil
  · exact fun m hm => absurd hm hno
  · exact ⟨fun _ => ⟨rfl, rfl⟩, fun hused => absurd rfl hused, fun hused => absurd rfl hused⟩
  · exact ⟨fun m hm => absurd hm hno, fun m hm => absurd hm hno⟩
  · intro f _ _
    refine ⟨none, _, rfl, .refl _, ⟨fun m hm => absurd hm hno, fun m hm => absurd hm hno⟩, ?_⟩
    intro j hj hj'
    have hj₁ : (j : ℤ) ≤ -1 := hj'
    omega

/-- **`flist_sort_and_clean` leaves a clean list**, unless a name that starts with a slash
    is in the way of another one without it. -/
theorem sortAndClean_clean_iff (o : CleanOpts) (files : List ListFile) (hr : ReceivedList files)
    (hq : o.useQsort = true → Sorts o.v29 files (o.qsort files)) :
    ∃ out, sortAndClean o files = some out ∧ (Clean o files out ↔ StripSafe o files) := by
  by_cases hne : files = []
  · subst hne
    refine ⟨_, rfl, iff_of_true (clean_nil o) ?_⟩
    exact fun _ a _ ha => absurd ha.1 List.not_mem_nil
  · obtain ⟨st, hrun, hready⟩ := sortAndClean_ready hne hr hq
    exact ⟨_, hrun, hready.safe, hready.clean⟩

/-- The options of `rsync -R`. -/
def relativeOpts : CleanOpts := ⟨true, false, id, true⟩

/-- `/f` and `f`. -/
def slashF : ListFile := ⟨some ⟨1, []⟩, [102], false, false, false, false, 0, 0⟩

def plainF : ListFile := ⟨none, [102], false, false, false, false, 0, 0⟩

theorem slash_received : ReceivedList [slashF, plainF] := by
  constructor
  · intro f hf
    simp only [List.mem_cons, List.not_mem_nil, or_false] at hf
    rcases hf with rfl | rfl
    · refine ⟨⟨⟨by decide, by decide, by decide, ?_⟩, nofun⟩, nofun⟩
      rintro _ ⟨⟩
      decide
    · exact ⟨⟨⟨by decide, by decide, by decide, nofun⟩, nofun⟩, nofun⟩
  · decide

/-- `rsync -R /f f`: both entries are named `f` in the end. -/
theorem not_clean_slash : ∃ out, sortAndClean relativeOpts [slashF, plainF] = some out ∧
    ¬ Clean relativeOpts [slashF, plainF] out := by
  obtain ⟨st, hrun, hready⟩ := sortAndClean_ready (o := relativeOpts) (List.cons_ne_nil slashF [plainF])
    slash_received nofun
  refine ⟨_, hrun, fun hclean => ?_⟩
  have hkeeps := hready.safe hclean rfl slashF plainF ⟨by decide, .inr (by decide)⟩
    ⟨by decide, .inr (by decide)⟩ (by decide) (by decide)
  exact hkeeps.2 (by decide)

/-- The same list without `-R`. -/
theorem sortAndClean_clean_slash :
    ∃ out, sortAndClean { relativeOpts with stripRoot := false } [slashF, plainF] = some out ∧
      (Clean { relativeOpts with stripRoot := false } [slashF, plainF] out ↔
        StripSafe { relativeOpts with stripRoot := false } [slashF, plainF]) :=
  sortAndClean_clean_iff _ _ slash_received nofun

end Final

end CloudEdgeBackup
