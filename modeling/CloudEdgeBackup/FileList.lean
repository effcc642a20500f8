/-
  Cleaning a file list: `flist_sort_and_clean`, `flist_find` and `clear_file`
  (`flist.c`), on the receiving side.

  * the list is sorted and then scanned for duplicates: an entry is dropped by clearing
    it in place, a cleared entry keeps hints (`F_DEPTH` and `len32`) that `flist_find`
    follows, and corrects;
  * `flistFind_spec`: on a list with gaps `flist_find` finds an entry exactly when it is
    there, and leaves the hints right;
  * `Scanned` is what holds after each position of the scan (`Scanned.step`): one entry
    for each path so far, a directory's before another file's, with the merged flags.

  `--prune-empty-dirs` is off: it removes entries on purpose.
-/
import CloudEdgeBackup.NameOrder
import CloudEdgeBackup.Lib.Gaps

namespace CloudEdgeBackup

open Gaps

/-! ## The list -/

/-- `struct file_list`: the entries by position. -/
structure Flist where
  sorted : ℕ → ListFile
  used : ℕ
  low : ℤ
  high : ℤ

namespace ListFile

/-- A position with nothing in it. -/
def empty : ListFile := ⟨none, [], false, false, false, false, 0, 0⟩

/-- `clear_file` -/
def clear (_ : ListFile) : ListFile := { empty with len32 := 1, depth := 1 }

/-- The flags of a dropped directory go to the one that is kept. -/
def mergeFlags (fp file : ListFile) : ListFile :=
  { fp with
    topDir := fp.topDir || file.topDir
    contentDir := fp.contentDir || file.contentDir
    impliedDir := fp.impliedDir && file.impliedDir }

/-- The leading slashes of a dirname are stripped. -/
def strip (f : ListFile) : ListFile := match f.dirname with
  | none => f
  | some d =>
    let str := d.str.dropWhile (· = slashChar)
    { f with dirname := if str = [] then none else some ⟨d.ptr, str⟩ }

end ListFile

/-! ## `flist_find` -/

section Find

variable (sorted : ℕ → ListFile) (fuel : ℕ)

def active (m : ℕ) : Bool := (sorted m).isActive

/-- One step along the hint to the next entry. -/
def upHint (m : ℕ) : ℕ := m + (sorted m).depth

/-- One step along the hint to the entry before. -/
def downHint (m : ℕ) : ℕ := m - (sorted m).len32

/-- `mid_up`, and the list with the hint of `mid` brought up-to-date. -/
def midUp (mid : ℕ) : Option (ℕ × (ℕ → ListFile)) :=
  if active sorted mid then some (mid, sorted)
  else
    let up := upHint sorted mid
    if active sorted up then some (up, sorted)
    else (seek (active sorted) (upHint sorted) fuel up).map fun up =>
      (up, Function.update sorted mid { sorted mid with depth := up - mid })

/-- With nothing left above `mid`, a non-empty entry below it. -/
def midDown (mid : ℕ) : Option (ℕ × (ℕ → ListFile)) :=
  let high := downHint sorted mid
  if active sorted high then some (high, sorted)
  else (seek (active sorted) (downHint sorted) fuel high).map fun high =>
    (high, Function.update sorted mid { sorted mid with len32 := mid - high })

end Find

/-- The loop of `flist_find`; the outer `none` is a loop that does not end. -/
def findLoop (v29 : Bool) (fuel : ℕ) (f : ListFile) :
    ℕ → (ℕ → ListFile) → ℤ → ℤ → Option (Option ℕ × (ℕ → ListFile))
  | 0, _, _, _ => none
  | n + 1, sorted, low, high =>
    if high < low then some (none, sorted)
    else
      let mid := ((low + high) / 2).toNat
      match midUp sorted fuel mid with
      | none => none
      | some (up, sorted) =>
        if high < up then
          match midDown sorted fuel mid with
          | none => none
          | some (high, sorted) => findLoop v29 fuel f n sorted low high
        else
          let diff := fNameCmp v29 (sorted up) f
          if diff = 0 then
            some (if !v29 && (sorted up).isDir ≠ f.isDir then none else some up, sorted)
          else if diff < 0 then findLoop v29 fuel f n sorted (up + 1) high
          else findLoop v29 fuel f n sorted low (mid - 1)

/-- `flist_find` -/
def flistFind (v29 : Bool) (sorted : ℕ → ListFile) (low high : ℤ) (f : ListFile) :
    Option (Option ℕ × (ℕ → ListFile)) :=
  findLoop v29 ((high - low).toNat + 2) f ((high - low).toNat + 2) sorted low high

/-! ## `flist_sort_and_clean` -/

structure CleanOpts where
  /-- `protocol_version >= 29` -/
  v29 : Bool
  useQsort : Bool
  /-- The C library's `qsort` by `f_name_cmp`. -/
  qsort : List ListFile → List ListFile
  /-- `relative_paths` -/
  stripRoot : Bool

/-- `fsort_tmp`: the sorted halves are merged, of equal names the first half's first; `n`
    bounds the halvings. -/
def fsortTmp (v29 : Bool) : ℕ → List ListFile → List ListFile
  | 0, fp => fp
  | n + 1, fp =>
    let n1 := fp.length / 2
    let half := fun l : List ListFile => if 1 < l.length then fsortTmp v29 n l else l
    (half (fp.take n1)).merge (half (fp.drop n1)) fun f g => fNameCmp v29 f g ≤ 0

/-- `fsort` -/
def fsort (o : CleanOpts) (fp : List ListFile) : List ListFile :=
  if fp.length ≤ 1 then fp
  else if o.useQsort then o.qsort fp
  else fsortTmp o.v29 fp.length fp

/-- The entries, `low` and `prev_i` while the list is scanned. -/
structure CleanState where
  sorted : ℕ → ListFile
  low : ℕ
  prev : ℕ

/-- From `j` on the first active position, at most `n` further. -/
def firstActive (sorted : ℕ → ListFile) : ℕ → ℕ → ℕ
  | 0, j => j
  | n + 1, j => if active sorted j then j else firstActive sorted n (j + 1)

/-- The earlier entry that `file`, at position `i`, is a duplicate of. -/
def findDuplicate (v29 : Bool) (st : CleanState) (file : ListFile) :
    Option (Option ℕ × (ℕ → ListFile)) :=
  if fNameCmp v29 file (st.sorted st.prev) = 0 then some (some st.prev, st.sorted)
  else if v29 && file.isDir then
    -- this directory must not duplicate a non-directory earlier in the list
    flistFind v29 st.sorted st.low st.prev { file with isDir := false }
  else some (none, st.sorted)

/-- Position `i` has an entry that duplicates the one at `j`: one of them is dropped. -/
def dropDuplicate (st : CleanState) (i j : ℕ) : CleanState :=
  let file := st.sorted i
  let fp := st.sorted j
  if file.isDir && !fp.isDir then
    let sorted := Function.update st.sorted j fp.clear
    ⟨sorted, if st.low = j then firstActive sorted (i - (j + 1)) (j + 1) else st.low, i⟩
  else
    let sorted := if file.isDir then Function.update st.sorted j (fp.mergeFlags file) else st.sorted
    ⟨Function.update sorted i file.clear, st.low, st.prev⟩

/-- One position of the scan. -/
def cleanStep (v29 : Bool) (st : CleanState) (i : ℕ) : Option CleanState :=
  let file := st.sorted i
  if !file.isActive then some st
  else match findDuplicate v29 st file with
  | none => none
  | some (none, sorted) => some ⟨sorted, st.low, i⟩
  | some (some j, sorted) => some (dropDuplicate ⟨sorted, st.low, st.prev⟩ i j)

/-- The leading slashes are stripped after the sorting phase. -/
def stripRange (st : CleanState) : ℕ → ListFile := fun i =>
  if st.low ≤ i ∧ i ≤ st.prev then (st.sorted i).strip else st.sorted i

/-- `flist_sort_and_clean`, not on the sender. -/
def sortAndClean (o : CleanOpts) (files : List ListFile) : Option Flist :=
  if files = [] then some ⟨fun _ => .empty, 0, 0, -1⟩
  else
    let sorted := fun i => (fsort o files).getD i .empty
    let i := firstActive sorted files.length 0
    let prev := if i = files.length then 0 else i
    ((List.range' (i + 1) (files.length - (i + 1))).foldlM (cleanStep o.v29) ⟨sorted, prev, prev⟩).map
      fun st => ⟨if o.stripRoot then stripRange st else st.sorted, files.length, st.low, st.prev⟩

/-! ## Searching a list with gaps -/

/-- The hints of the empty positions below `n` lead over empty positions only. -/
structure Gapped (sorted : ℕ → ListFile) (n : ℕ) : Prop where
  up : SkipsUp (active sorted) (upHint sorted) n
  down : SkipsDown (active sorted) (downHint sorted) n

/-- Nothing but hints of empty positions is different. -/
def SameActive (sorted sorted' : ℕ → ListFile) : Prop :=
  ∀ m, active sorted' m = active sorted m ∧ (active sorted m = true → sorted' m = sorted m)

theorem SameActive.refl (sorted : ℕ → ListFile) : SameActive sorted sorted := fun _ => ⟨rfl, fun _ => rfl⟩

theorem SameActive.trans {s s' s'' : ℕ → ListFile} (h : SameActive s s') (h' : SameActive s' s'') :
    SameActive s s'' := by
  intro m
  refine ⟨(h' m).1.trans (h m).1, fun hm => ?_⟩
  rw [(h' m).2 (by rw [(h m).1, hm]), (h m).2 hm]

section Search

variable {sorted : ℕ → ListFile} {n fuel mid : ℕ}

/-- Bringing the hint of one empty position up-to-date. -/
theorem sameActive_update {e : ListFile} (hidle : active sorted mid = false)
    (he : e.basename = (sorted mid).basename) : SameActive sorted (Function.update sorted mid e) := by
  intro m
  by_cases hm : m = mid
  · subst hm
    refine ⟨?_, fun h => absurd (hidle.symm.trans h) (by decide)⟩
    rw [active, active, Function.update_self, ListFile.isActive, ListFile.isActive, he]
  · exact ⟨by simp only [active, Function.update_of_ne hm], fun _ => Function.update_of_ne hm _ _⟩

theorem Gapped.updateUp (h : Gapped sorted n) (hidle : active sorted mid = false) {up : ℕ} (hlt : mid < up)
    (hall : ∀ x, mid ≤ x → x < up → active sorted x = false) :
    Gapped (Function.update sorted mid { sorted mid with depth := up - mid }) n := by
  have hsame := sameActive_update (e := { sorted mid with depth := up - mid }) hidle rfl
  have hact : ∀ m, active sorted m = false →
      active (Function.update sorted mid { sorted mid with depth := up - mid }) m = false :=
    fun m hm => (hsame m).1.trans hm
  constructor
  · refine h.up.mono hact fun m _ hm => ?_
    by_cases hmid : m = mid
    · subst hmid
      have hhint : upHint (Function.update sorted m { sorted m with depth := up - m }) m = up := by
        simp only [upHint, Function.update_self]
        omega
      rw [hhint]
      exact .inr ⟨hlt, fun x hx hx' => hact x (hall x hx hx')⟩
    · refine .inl ⟨(hsame m).1.symm.trans hm, ?_⟩
      simp only [upHint, Function.update_of_ne hmid]
  · refine h.down.mono hact fun m _ hm => .inl ⟨(hsame m).1.symm.trans hm, ?_⟩
    by_cases hmid : m = mid
    · subst hmid
      simp only [downHint, Function.update_self]
    · simp only [downHint, Function.update_of_ne hmid]

theorem Gapped.updateDown (h : Gapped sorted n) (hidle : active sorted mid = false) {down : ℕ}
    (hlt : down < mid) (hall : ∀ x, down < x → x ≤ mid → active sorted x = false) :
    Gapped (Function.update sorted mid { sorted mid with len32 := mid - down }) n := by
  have hsame := sameActive_update (e := { sorted mid with len32 := mid - down }) hidle rfl
  have hact : ∀ m, active sorted m = false →
      active (Function.update sorted mid { sorted mid with len32 := mid - down }) m = false :=
    fun m hm => (hsame m).1.trans hm
  constructor
  · refine h.up.mono hact fun m _ hm => .inl ⟨(hsame m).1.symm.trans hm, ?_⟩
    by_cases hmid : m = mid
    · subst hmid
      simp only [upHint, Function.update_self]
    · simp only [upHint, Function.update_of_ne hmid]
  · refine h.down.mono hact fun m _ hm => ?_
    by_cases hmid : m = mid
    · subst hmid
      have hhint : downHint (Function.update sorted m { sorted m with len32 := m - down }) m = down := by
        simp only [downHint, Function.update_self]
        omega
      rw [hhint]
      exact .inr ⟨fun _ => hlt, fun x hx hx' => hact x (hall x hx hx')⟩
    · refine .inl ⟨(hsame m).1.symm.trans hm, ?_⟩
      simp only [downHint, Function.update_of_ne hmid]

/-- **`mid_up` is the first entry from `mid` on.** -/
theorem midUp_spec (h : Gapped sorted n) {a : ℕ} (ha : active sorted a = true) (han : a < n)
    (hmid : mid ≤ a) (hfuel : a - mid < fuel) :
    ∃ up sorted', midUp sorted fuel mid = some (up, sorted') ∧ SameActive sorted sorted' ∧
      Gapped sorted' n ∧ active sorted up = true ∧ mid ≤ up ∧ up ≤ a ∧
      ∀ x, mid ≤ x → x < up → active sorted x = false := by
  rw [midUp]
  by_cases hact : active sorted mid = true
  · rw [if_pos hact]
    exact ⟨mid, sorted, rfl, .refl _, h, hact, le_rfl, hmid, fun x hx hx' => absurd hx' (not_lt.2 hx)⟩
  · have hidle : active sorted mid = false := by simpa using hact
    obtain ⟨hlt, hall⟩ := h.up mid (hmid.trans_lt han) hidle
    have hle : upHint sorted mid ≤ a := by
      by_contra hgt
      rw [hall a hmid (not_le.1 hgt)] at ha
      cases ha
    rw [if_neg hact]
    by_cases hnext : active sorted (upHint sorted mid) = true
    · simp only [hnext, if_true]
      exact ⟨_, sorted, rfl, .refl _, h, hnext, hlt.le, hle, hall⟩
    · obtain ⟨up, hseek, hup, hge, hupa, hbelow⟩ := seek_up h.up ha han hle
        (show a - upHint sorted mid < fuel by omega)
      have hall' : ∀ x, mid ≤ x → x < up → active sorted x = false := by
        intro x hx hx'
        by_cases hxn : x < upHint sorted mid
        · exact hall x hx hxn
        · exact hbelow x (not_lt.1 hxn) hx'
      simp only [hnext, Bool.false_eq_true, if_false, hseek, Option.map_some]
      exact ⟨up, _, rfl, sameActive_update hidle rfl, h.updateUp hidle (hlt.trans_le hge) hall', hup,
        (hlt.trans_le hge).le, hupa, hall'⟩

/-- **`midDown` is the last entry before `mid`.** -/
theorem midDown_spec (h : Gapped sorted n) (hidle : active sorted mid = false) {a : ℕ}
    (ha : active sorted a = true) (hmn : mid < n) (hmid : a ≤ mid) (hfuel : mid - a < fuel) :
    ∃ down sorted', midDown sorted fuel mid = some (down, sorted') ∧ SameActive sorted sorted' ∧
      Gapped sorted' n ∧ a ≤ down ∧ down < mid ∧
      ∀ x, down < x → x ≤ mid → active sorted x = false := by
  obtain ⟨hlt, hall⟩ := h.down mid hmn hidle
  have hne : a ≠ mid := by
    rintro rfl
    rw [ha] at hidle
    cases hidle
  have hlt' := hlt (by omega)
  have hle : a ≤ downHint sorted mid := by
    by_contra hgt
    rw [hall a (not_le.1 hgt) hmid] at ha
    cases ha
  rw [midDown]
  by_cases hnext : active sorted (downHint sorted mid) = true
  · simp only [hnext, if_true]
    exact ⟨_, sorted, rfl, .refl _, h, hle, hlt', hall⟩
  · obtain ⟨down, hseek, -, hdle, had, habove⟩ := seek_down h.down ha (hlt'.trans hmn) hle
      (show downHint sorted mid - a < fuel by omega)
    have hall' : ∀ x, down < x → x ≤ mid → active sorted x = false := by
      intro x hx hx'
      by_cases hxn : downHint sorted mid < x
      · exact hall x hxn hx'
      · exact habove x hx (not_lt.1 hxn)
    simp only [hnext, Bool.false_eq_true, if_false, hseek, Option.map_some]
    exact ⟨down, _, rfl, sameActive_update hidle rfl, h.updateDown hidle (hdle.trans_lt hlt') hall', had,
      hdle.trans_lt hlt', hall'⟩

end Search

/-- An entry with the name that is looked for. -/
def Hit (v29 : Bool) (f e : ListFile) : Prop :=
  e.isActive = true ∧ e.key v29 = f.key v29 ∧ (v29 = false → e.isDir = f.isDir)

/-- In `[low, high]` the names of the entries ascend. -/
def Ascends (v29 : Bool) (sorted : ℕ → ListFile) (low high : ℕ) : Prop :=
  ∀ m m', low ≤ m → m < m' → m' ≤ high → active sorted m = true → active sorted m' = true →
    (sorted m).key v29 < (sorted m').key v29

/-- What a search in `[low, high]` finds. -/
def FlistFinds (v29 : Bool) (f : ListFile) (sorted : ℕ → ListFile) (low high : ℤ) : Option ℕ → Prop
  | some j => low ≤ j ∧ j ≤ high ∧ Hit v29 f (sorted j)
  | none => ∀ j : ℕ, low ≤ j → j ≤ high → ¬ Hit v29 f (sorted j)

section FindSpec

variable {v29 : Bool} {f : ListFile} {n fuel flow fhigh : ℕ}

theorem Hit.of_sameActive {s s' : ℕ → ListFile} (h : SameActive s s') {j : ℕ} :
    Hit v29 f (s' j) ↔ Hit v29 f (s j) := by
  constructor
  · rintro ⟨hact, hrest⟩
    have hact' : active s j = true := (h j).1.symm.trans hact
    rw [(h j).2 hact'] at hrest
    exact ⟨hact', hrest⟩
  · intro hhit
    rwa [(h j).2 hhit.1]

theorem FlistFinds.of_sameActive {s s' : ℕ → ListFile} (h : SameActive s s') {low high : ℤ} {r : Option ℕ}
    (hr : FlistFinds v29 f s' low high r) : FlistFinds v29 f s low high r := by
  cases r with
  | some j => exact ⟨hr.1, hr.2.1, (Hit.of_sameActive h).1 hr.2.2⟩
  | none => exact fun j hj hj' hhit => hr j hj hj' ((Hit.of_sameActive h).2 hhit)

theorem FlistFinds.widen {s : ℕ → ListFile} {low high low' high' : ℤ} {r : Option ℕ}
    (hr : FlistFinds v29 f s low' high' r) (hlow : low ≤ low') (hhigh : high' ≤ high)
    (hmiss : ∀ j : ℕ, low ≤ j → j ≤ high → (j < low' ∨ high' < j) → ¬ Hit v29 f (s j)) :
    FlistFinds v29 f s low high r := by
  cases r with
  | some j => exact ⟨hlow.trans hr.1, hr.2.1.trans hhigh, hr.2.2⟩
  | none =>
    intro j hj hj'
    by_cases hin : low' ≤ j ∧ (j : ℤ) ≤ high'
    · exact hr j hin.1 hin.2
    · exact hmiss j hj hj' (by omega)

/-- **The loop of `flist_find`** narrows `[low, high]` and ends. -/
theorem findLoop_spec {sorted : ℕ → ListFile} {low high : ℤ} (hgap : Gapped sorted n)
    (hflow : active sorted flow = true) (hfhigh : active sorted fhigh = true) (hn : fhigh < n)
    (hasc : Ascends v29 sorted flow fhigh)
    (hcmp : ∀ m, active sorted m = true → flow ≤ m → m ≤ fhigh →
      Compares (fNameCmp v29 (sorted m) f) ((sorted m).key v29) (f.key v29))
    (hfuel : fhigh - flow < fuel) (hlow : (flow : ℤ) ≤ low) (hhigh : high ≤ fhigh) {k : ℕ}
    (hk : high - low + 2 ≤ k) (hk0 : 0 < k) :
    ∃ r sorted', findLoop v29 fuel f k sorted low high = some (r, sorted') ∧
      SameActive sorted sorted' ∧ Gapped sorted' n ∧ FlistFinds v29 f sorted low high r := by
  induction k generalizing sorted low high with
  | zero => omega
  | succ k ih =>
    rw [findLoop]
    by_cases hempty : high < low
    · rw [if_pos hempty]
      exact ⟨none, sorted, rfl, .refl _, hgap, fun j hj hj' => by omega⟩
    have hle := not_lt.1 hempty
    obtain ⟨mid, hmid⟩ : ∃ mid : ℕ, ((low + high) / 2).toNat = mid := ⟨_, rfl⟩
    have hlm : low ≤ mid := by omega
    have hmh : (mid : ℤ) ≤ high := by omega
    obtain ⟨up, s₁, hup, hsame₁, hgap₁, hact, hmu, hua, hbetween⟩ := midUp_spec hgap hfhigh hn
      (show mid ≤ fhigh by omega) (show fhigh - mid < fuel by omega)
    have hupEq : s₁ up = sorted up := (hsame₁ up).2 hact
    have hactive₁ : ∀ {m}, active sorted m = true → active s₁ m = true :=
      fun hm => (hsame₁ _).1.trans hm
    have hasc₁ : Ascends v29 s₁ flow fhigh := by
      intro m m' hm hlt hm' ha ha'
      have h₁ := (hsame₁ m).1.symm.trans ha
      have h₂ := (hsame₁ m').1.symm.trans ha'
      rw [(hsame₁ m).2 h₁, (hsame₁ m').2 h₂]
      exact hasc m m' hm hlt hm' h₁ h₂
    have hcmp₁ : ∀ m, active s₁ m = true → flow ≤ m → m ≤ fhigh →
        Compares (fNameCmp v29 (s₁ m) f) ((s₁ m).key v29) (f.key v29) := by
      intro m hm hlo hhi
      have h₁ := (hsame₁ m).1.symm.trans hm
      rw [(hsame₁ m).2 h₁]
      exact hcmp m h₁ hlo hhi
    rw [if_neg hempty]
    simp only [hmid, hup]
    by_cases habove : high < up
    · -- nothing is left above `mid`
      have hne : mid ≠ up := by omega
      have hidle : active s₁ mid = false := (hsame₁ mid).1.trans (hbetween mid le_rfl (by omega))
      obtain ⟨down, s₂, hdown, hsame₂, hgap₂, hfd, hdm, hbelow⟩ := midDown_spec hgap₁ hidle
        (hactive₁ hflow) (show mid < n by omega) (show flow ≤ mid by omega)
        (show mid - flow < fuel by omega)
      have hsame := hsame₁.trans hsame₂
      have hactive₂ : ∀ {m}, active sorted m = true → active s₂ m = true :=
        fun hm => (hsame _).1.trans hm
      rw [if_pos habove, hdown]
      simp only
      obtain ⟨r, s₃, hloop, hsame₃, hgap₃, hfinds⟩ := ih hgap₂ (hactive₂ hflow) (hactive₂ hfhigh)
        (fun m m' hm hlt hm' ha ha' => by
          have h₁ := (hsame₂ m).1.symm.trans ha
          have h₂ := (hsame₂ m').1.symm.trans ha'
          rw [(hsame₂ m).2 h₁, (hsame₂ m').2 h₂]
          exact hasc₁ m m' hm hlt hm' h₁ h₂)
        (fun m hm hlo hhi => by
          have h₁ := (hsame₂ m).1.symm.trans hm
          rw [(hsame₂ m).2 h₁]
          exact hcmp₁ m h₁ hlo hhi)
        hlow (show (down : ℤ) ≤ fhigh by omega) (by omega) (by omega)
      refine ⟨r, s₃, hloop, hsame.trans hsame₃, hgap₃,
        (hfinds.of_sameActive hsame).widen le_rfl (by omega) fun j hj hj' hout hhit => ?_⟩
      have hj1 : active sorted j = true := hhit.1
      by_cases hjm : j ≤ mid
      · have := (hsame₁ j).1.symm.trans (hbelow j (by omega) hjm)
        rw [hj1] at this
        cases this
      · rw [hbetween j (by omega) (by omega)] at hj1
        cases hj1
    · rw [if_neg habove, hupEq]
      have hcomp := hcmp up hact (by omega) (by omega)
      by_cases hzero : fNameCmp v29 (sorted up) f = 0
      · have hkey := hcomp.zero.1 hzero
        rw [if_pos hzero]
        refine ⟨_, s₁, rfl, hsame₁, hgap₁, ?_⟩
        split_ifs with hdir
        · intro j hj hj' hhit
          rw [Bool.and_eq_true, Bool.not_eq_true', decide_eq_true_eq] at hdir
          rcases lt_trichotomy j up with hlt | rfl | hgt
          · have := hasc j up (by omega) hlt (by omega) hhit.1 hact
            rw [hkey, hhit.2.1] at this
            exact lt_irrefl _ this
          · exact hdir.2 (hhit.2.2 hdir.1)
          · have := hasc up j (by omega) hgt (by omega) hact hhit.1
            rw [hkey, hhit.2.1] at this
            exact lt_irrefl _ this
        · rw [Bool.and_eq_true, Bool.not_eq_true', decide_eq_true_eq, not_and, not_not] at hdir
          exact ⟨by omega, by omega, hact, hkey, hdir⟩
      rw [if_neg hzero]
      by_cases hneg : fNameCmp v29 (sorted up) f < 0
      · obtain ⟨r, s₂, hloop, hsame₂, hgap₂, hfinds⟩ := ih hgap₁ (hactive₁ hflow) (hactive₁ hfhigh) hasc₁
          hcmp₁ (show (flow : ℤ) ≤ up + 1 by omega) hhigh (by omega) (by omega)
        rw [if_pos hneg]
        refine ⟨r, s₂, hloop, hsame₁.trans hsame₂, hgap₂,
          (hfinds.of_sameActive hsame₁).widen (by omega) le_rfl fun j hj hj' hout hhit => ?_⟩
        have hlt : (sorted up).key v29 < f.key v29 := hcomp.neg.1 hneg
        rcases lt_or_eq_of_le (show j ≤ up by omega) with hju | rfl
        · have := hasc j up (by omega) hju (by omega) hhit.1 hact
          rw [hhit.2.1] at this
          exact lt_asymm this hlt
        · rw [hhit.2.1] at hlt
          exact lt_irrefl _ hlt
      · obtain ⟨r, s₂, hloop, hsame₂, hgap₂, hfinds⟩ := ih hgap₁ (hactive₁ hflow) (hactive₁ hfhigh) hasc₁
          hcmp₁ hlow (show (mid : ℤ) - 1 ≤ fhigh by omega) (by omega) (by omega)
        rw [if_neg hneg]
        refine ⟨r, s₂, hloop, hsame₁.trans hsame₂, hgap₂,
          (hfinds.of_sameActive hsame₁).widen le_rfl (by omega) fun j hj hj' hout hhit => ?_⟩
        have hgt : f.key v29 < (sorted up).key v29 := by
          rcases lt_trichotomy ((sorted up).key v29) (f.key v29) with h | h | h
          · exact absurd (hcomp.neg.2 h) hneg
          · exact absurd (hcomp.zero.2 h) hzero
          · exact h
        rcases lt_trichotomy j up with hju | rfl | hju
        · have hidle := hbetween j (by omega) hju
          rw [show active sorted j = true from hhit.1] at hidle
          cases hidle
        · rw [hhit.2.1] at hgt
          exact lt_irrefl _ hgt
        · have := hasc up j (by omega) hju (by omega) hact hhit.1
          rw [hhit.2.1] at this
          exact lt_asymm this hgt

/-- **`flist_find` finds an entry exactly when it is there.** -/
theorem flistFind_spec {sorted : ℕ → ListFile} (hgap : Gapped sorted n)
    (hflow : active sorted flow = true) (hfhigh : active sorted fhigh = true) (hle : flow ≤ fhigh)
    (hn : fhigh < n) (hasc : Ascends v29 sorted flow fhigh)
    (hcmp : ∀ m, active sorted m = true → flow ≤ m → m ≤ fhigh →
      Compares (fNameCmp v29 (sorted m) f) ((sorted m).key v29) (f.key v29)) :
    ∃ r sorted', flistFind v29 sorted flow fhigh f = some (r, sorted') ∧ SameActive sorted sorted' ∧
      Gapped sorted' n ∧ FlistFinds v29 f sorted flow fhigh r :=
  findLoop_spec hgap hflow hfhigh hn hasc hcmp (by omega) le_rfl le_rfl (by omega) (by omega)

end FindSpec

/-! ## The scan for duplicates -/

/-- The same file as far as names and kinds go. -/
structure SameName (f g : ListFile) : Prop where
  dirname : f.dirname = g.dirname
  basename : f.basename = g.basename
  isDir : f.isDir = g.isDir

namespace SameName

variable {f g : ListFile}

theorem refl (f : ListFile) : SameName f f := ⟨rfl, rfl, rfl⟩

theorem key (h : SameName f g) (v29 : Bool) : f.key v29 = g.key v29 := by
  rw [ListFile.key, ListFile.key, ListFile.baseKey, ListFile.baseKey, h.dirname, h.basename, h.isDir]

theorem path (h : SameName f g) : f.path = g.path := by
  rw [ListFile.path, ListFile.path, h.dirname, h.basename]

theorem named (h : SameName f g) (hg : g.Named) : f.Named where
  basename_ne := h.basename ▸ hg.basename_ne
  basename_zero := h.basename ▸ hg.basename_zero
  basename_slash := h.basename ▸ hg.basename_slash
  dirname_zero d hd := hg.dirname_zero d (h.dirname ▸ hd)
  dot hdot := by
    rw [h.isDir]
    refine ⟨(hg.dot (h.basename ▸ hdot)).1, fun d hd => ?_⟩
    exact (hg.dot (h.basename ▸ hdot)).2 d (h.dirname ▸ hd)

end SameName

/-- A sorted list of `n` names. -/
structure SortedNames (v29 : Bool) (names : ℕ → ListFile) (n : ℕ) : Prop where
  named : ∀ i < n, (names i).Named
  shared : ∀ i < n, ∀ j < n, (names i).dirname.map DirName.ptr = (names j).dirname.map DirName.ptr →
    (names i).dirname.map DirName.str = (names j).dirname.map DirName.str
  mono : ∀ i j, i ≤ j → j < n → (names i).key v29 ≤ (names j).key v29

/-- `e` stands for the files of its path among the first `i`: a directory if one of them
    is, with the flags of the directories. -/
structure Merged (names : ℕ → ListFile) (i : ℕ) (e : ListFile) : Prop where
  dir : e.isDir = true ↔ ∃ m < i, (names m).path = e.path ∧ (names m).isDir = true
  top : e.isDir = true → (e.topDir = true ↔
    ∃ m < i, (names m).path = e.path ∧ (names m).isDir = true ∧ (names m).topDir = true)
  content : e.isDir = true → (e.contentDir = true ↔
    ∃ m < i, (names m).path = e.path ∧ (names m).isDir = true ∧ (names m).contentDir = true)
  implied : e.isDir = true → (e.impliedDir = true ↔
    ∀ m < i, (names m).path = e.path → (names m).isDir = true → (names m).impliedDir = true)

/-- **After the first `i` positions** have been scanned. -/
structure Scanned (names : ℕ → ListFile) (v29 : Bool) (n i : ℕ) (sorted : ℕ → ListFile) (low prev : ℕ) :
    Prop where
  low_le : low ≤ prev
  prev_lt : prev < i
  low_active : active sorted low = true
  prev_active : active sorted prev = true
  below : ∀ m < low, active sorted m = false
  above : ∀ m, prev < m → m < i → active sorted m = false
  rest : ∀ m, i ≤ m → m < n → sorted m = names m
  name : ∀ m < i, active sorted m = true → SameName (sorted m) (names m)
  last : (sorted prev).key v29 = (names (i - 1)).key v29
  uniq : ∀ m < i, ∀ m' < i, active sorted m = true → active sorted m' = true →
    (sorted m).path = (sorted m').path → m = m'
  cover : ∀ m < i, ∃ m' < i, active sorted m' = true ∧ (sorted m').path = (names m).path
  merged : ∀ m < i, active sorted m = true → Merged names i (sorted m)
  gapped : Gapped sorted i

section Scan

variable {names : ℕ → ListFile} {v29 : Bool} {n i : ℕ} {sorted : ℕ → ListFile} {low prev : ℕ}

theorem active_of_named {f : ListFile} (h : f.Named) : f.isActive = true := decide_eq_true h.basename_ne

/-- The comparison of two names of the list. -/
theorem SortedNames.compares (h : SortedNames v29 names n) {j : ℕ} (hi : i < n) (hj : j < n)
    {f g : ListFile} (hf : SameName f (names i)) (hg : g.dirname = (names j).dirname) (hgs : g.Spelled) :
    Compares (fNameCmp v29 f g) (f.key v29) (g.key v29) := by
  refine fNameCmp_spec (hf.named (h.named i hi)).toSpelled hgs fun hptr => ?_
  rw [hf.dirname, hg] at hptr ⊢
  exact h.shared i hi j hj hptr

theorem Scanned.ascends (h : Scanned names v29 n i sorted low prev) (hs : SortedNames v29 names n) (hi : i ≤ n) :
    Ascends v29 sorted low prev := by
  intro m m' _ hlt hm' ha ha'
  have hmi : m' < i := hm'.trans_lt h.prev_lt
  have hname := h.name m (hlt.trans hmi) ha
  have hname' := h.name m' hmi ha'
  refine lt_of_le_of_ne ?_ fun heq => ?_
  · rw [hname.key, hname'.key]
    exact hs.mono m m' hlt.le (hmi.trans_le hi)
  · have hpath := ((key_inj (hname.named (hs.named m (by omega)))
      (hname'.named (hs.named m' (by omega)))).1 heq).1
    exact hlt.ne (h.uniq m (hlt.trans hmi) m' hmi ha ha' hpath)

theorem Scanned.mem_range (h : Scanned names v29 n i sorted low prev) {m : ℕ} (hm : m < i)
    (ha : active sorted m = true) : low ≤ m ∧ m ≤ prev := by
  constructor
  · by_contra hlt
    rw [h.below m (not_le.1 hlt)] at ha
    cases ha
  · by_contra hgt
    rw [h.above m (not_le.1 hgt) hm] at ha
    cases ha

/-- What the search for a duplicate of the file at `i` may answer. -/
def Duplicate (v29 : Bool) (sorted : ℕ → ListFile) (prev : ℕ) (file : ListFile) (i : ℕ) : Option ℕ → Prop
  | none => ∀ m < i, active sorted m = true → (sorted m).path ≠ file.path
  | some j => j < i ∧ active sorted j = true ∧ (sorted j).path = file.path ∧
      (j = prev ∧ (sorted j).key v29 = file.key v29 ∨
        file.isDir = true ∧ (sorted j).isDir = false)

/-- **A duplicate is found exactly when there is one.** -/
theorem Scanned.findDuplicate (h : Scanned names v29 n i sorted low prev) (hs : SortedNames v29 names n) (hi : i < n)
    (hi0 : 0 < i) :
    ∃ r sorted', findDuplicate v29 ⟨sorted, low, prev⟩ (names i) = some (r, sorted') ∧
      SameActive sorted sorted' ∧ Gapped sorted' i ∧ Duplicate v29 sorted prev (names i) i r := by
  have hnamed := hs.named i hi
  have hprevName := h.name prev h.prev_lt h.prev_active
  have hprevNamed := hprevName.named (hs.named _ (h.prev_lt.trans hi))
  have hcomp := hs.compares hi (h.prev_lt.trans hi) (SameName.refl _) hprevName.dirname
    hprevNamed.toSpelled
  simp only [CloudEdgeBackup.findDuplicate]
  by_cases hzero : fNameCmp v29 (names i) (sorted prev) = 0
  · have hkey := (hcomp.zero.1 hzero).symm
    rw [if_pos hzero]
    exact ⟨_, _, rfl, .refl _, h.gapped, h.prev_lt, h.prev_active, ((key_inj hprevNamed hnamed).1 hkey).1,
      .inl ⟨rfl, hkey⟩⟩
  have hlt : ∀ m < i, active sorted m = true → (sorted m).key v29 < (names i).key v29 := by
    intro m hm ha
    have hle : (sorted m).key v29 ≤ (names (i - 1)).key v29 := by
      rw [(h.name m hm ha).key]
      exact hs.mono m (i - 1) (by omega) (by omega)
    have hlast : (names (i - 1)).key v29 ≠ (names i).key v29 := by
      rw [← h.last]
      exact fun heq => hzero (hcomp.zero.2 heq.symm)
    exact hle.trans_lt (lt_of_le_of_ne (hs.mono (i - 1) i (by omega) hi) hlast)
  have hdiffers : ∀ m < i, active sorted m = true → (sorted m).path = (names i).path →
      v29 = true ∧ (names i).isDir = true ∧ (sorted m).isDir = false := by
    intro m hm ha hpath
    have hmNamed := (h.name m hm ha).named (hs.named m (hm.trans hi))
    have hne : ¬ (v29 = true → (sorted m).isDir = (names i).isDir) := fun hsame =>
      (hlt m hm ha).ne ((key_inj hmNamed hnamed).2 ⟨hpath, hsame⟩)
    rw [Classical.not_imp] at hne
    obtain ⟨hv, hne⟩ := hne
    subst hv
    cases hdir : (names i).isDir with
    | true =>
      rw [hdir] at hne
      exact ⟨rfl, rfl, by simpa using hne⟩
    | false =>
      rw [hdir] at hne
      have hgt := file_lt_dir hnamed hmNamed hpath.symm hdir (by simpa using hne)
      exact absurd (hlt m hm ha) (lt_asymm hgt)
  rw [if_neg hzero]
  by_cases hdir : (v29 && (names i).isDir) = true
  · obtain ⟨hv, hisDir⟩ := Bool.and_eq_true_iff.1 hdir
    subst hv
    have htarget : ListFile.Spelled { names i with isDir := false } :=
      ⟨hnamed.basename_ne, hnamed.basename_zero, hnamed.basename_slash, hnamed.dirname_zero⟩
    obtain ⟨r, sorted', hfind, hsame, hgap, hfinds⟩ := flistFind_spec h.gapped h.low_active h.prev_active
      h.low_le h.prev_lt (h.ascends hs hi.le) fun m ha hlo hhi =>
        hs.compares ((hhi.trans_lt h.prev_lt).trans hi) hi (h.name m (hhi.trans_lt h.prev_lt) ha)
          (g := { names i with isDir := false }) rfl htarget
    rw [if_pos hdir, hfind]
    refine ⟨r, sorted', rfl, hsame, hgap, ?_⟩
    cases r with
    | some j =>
      obtain ⟨-, hj, hact, hkey, -⟩ := hfinds
      have hji : j < i := by have := h.prev_lt; omega
      have hjNamed := (h.name j hji hact).named (hs.named j (hji.trans hi))
      obtain ⟨hpath, hfile⟩ := (key_file_inj hjNamed htarget rfl).1 hkey
      exact ⟨hji, hact, hpath, .inr ⟨hisDir, hfile⟩⟩
    | none =>
      intro m hm ha hpath
      obtain ⟨-, -, hfile⟩ := hdiffers m hm ha hpath
      have hmNamed := (h.name m hm ha).named (hs.named m (hm.trans hi))
      obtain ⟨hlo, hhi⟩ := h.mem_range hm ha
      exact hfinds m (by omega) (by omega)
        ⟨ha, (key_file_inj hmNamed htarget rfl).2 ⟨hpath, hfile⟩, nofun⟩
  · rw [if_neg hdir]
    refine ⟨none, _, rfl, .refl _, h.gapped, fun m hm ha hpath => hdir ?_⟩
    obtain ⟨hv, hisDir, -⟩ := hdiffers m hm ha hpath
    rw [hv, hisDir]
    rfl

/-! ### What one position changes -/

theorem Gapped.congr {s s' : ℕ → ListFile} (h : Gapped s n)
    (hs : ∀ m, active s' m = active s m ∧ (s' m).depth = (s m).depth ∧ (s' m).len32 = (s m).len32) :
    Gapped s' n := by
  have hact : ∀ m, active s m = false → active s' m = false := fun m hm => (hs m).1.trans hm
  constructor
  · exact h.up.mono hact fun m _ hm => .inl ⟨(hs m).1.symm.trans hm, by
      rw [upHint, upHint, (hs m).2.1]⟩
  · exact h.down.mono hact fun m _ hm => .inl ⟨(hs m).1.symm.trans hm, by
      rw [downHint, downHint, (hs m).2.2]⟩

theorem active_clear (s : ℕ → ListFile) (j m : ℕ) :
    active (Function.update s j (s j).clear) m = if m = j then false else active s m := by
  by_cases hm : m = j
  · subst hm
    rw [if_pos rfl, active, Function.update_self]
    rfl
  · rw [if_neg hm, active, Function.update_of_ne hm]
    rfl

/-- A cleared entry is alone for now. -/
theorem Gapped.clear {s : ℕ → ListFile} (h : Gapped s n) (j : ℕ) :
    Gapped (Function.update s j (s j).clear) n := by
  have hact : ∀ m, active s m = false → active (Function.update s j (s j).clear) m = false := by
    intro m hm
    rw [active_clear]
    split_ifs
    · rfl
    · exact hm
  have hself : active (Function.update s j (s j).clear) j = false := by rw [active_clear, if_pos rfl]
  have hold : ∀ m, m ≠ j → active (Function.update s j (s j).clear) m = false → active s m = false := by
    intro m hm hidle
    rwa [active_clear, if_neg hm] at hidle
  constructor
  · refine h.up.mono hact fun m _ hm => ?_
    by_cases hmj : m = j
    · subst hmj
      have hhint : upHint (Function.update s m (s m).clear) m = m + 1 := by
        rw [upHint, Function.update_self]
        rfl
      rw [hhint]
      refine .inr ⟨by omega, fun x hx hx' => ?_⟩
      rw [show x = m by omega]
      exact hself
    · exact .inl ⟨hold m hmj hm, by rw [upHint, Function.update_of_ne hmj, upHint]⟩
  · refine h.down.mono hact fun m _ hm => ?_
    by_cases hmj : m = j
    · subst hmj
      have hhint : downHint (Function.update s m (s m).clear) m = m - 1 := by
        rw [downHint, Function.update_self]
        rfl
      rw [hhint]
      refine .inr ⟨by omega, fun x hx hx' => ?_⟩
      rw [show x = m by omega]
      exact hself
    · exact .inl ⟨hold m hmj hm, by rw [downHint, Function.update_of_ne hmj, downHint]⟩

theorem Gapped.succ {s : ℕ → ListFile} (h : Gapped s i) (hi : active s i = true) : Gapped s (i + 1) := by
  have hne : ∀ m, active s m = false → m ≠ i := by
    rintro m hm rfl
    rw [hi] at hm
    cases hm
  constructor
  · intro m hm hidle
    have := hne m hidle
    exact h.up m (by omega) hidle
  · intro m hm hidle
    have := hne m hidle
    exact h.down m (by omega) hidle

namespace Merged

variable {e : ListFile}

theorem other (h : Merged names i e) (hne : (names i).path ≠ e.path) : Merged names (i + 1) e where
  dir := by
    rw [h.dir, Nat.exists_lt_succ_right]
    simp [hne]
  top hd := by
    rw [h.top hd, Nat.exists_lt_succ_right]
    simp [hne]
  content hd := by
    rw [h.content hd, Nat.exists_lt_succ_right]
    simp [hne]
  implied hd := by
    rw [h.implied hd, Nat.forall_lt_succ_right]
    simp [hne]

/-- The first directory of its path, or the first file. -/
theorem first (h : ∀ m < i, (names m).path = (names i).path → (names m).isDir = false) :
    Merged names (i + 1) (names i) := by
  have hno : ∀ P : ℕ → Prop, ¬ ∃ m < i, (names m).path = (names i).path ∧ (names m).isDir = true ∧ P m := by
    rintro P ⟨m, hm, hpath, hdir, -⟩
    rw [h m hm hpath] at hdir
    cases hdir
  have hno' : ¬ ∃ m < i, (names m).path = (names i).path ∧ (names m).isDir = true := by
    rintro ⟨m, hm, hpath, hdir⟩
    rw [h m hm hpath] at hdir
    cases hdir
  constructor
  · rw [Nat.exists_lt_succ_right, or_iff_right hno']
    simp
  · intro hd
    rw [Nat.exists_lt_succ_right, or_iff_right (hno _)]
    simp [hd]
  · intro hd
    rw [Nat.exists_lt_succ_right, or_iff_right (hno _)]
    simp [hd]
  · intro hd
    rw [Nat.forall_lt_succ_right]
    constructor
    · intro himp
      refine ⟨fun m hm hpath hdir => ?_, fun _ _ => himp⟩
      rw [h m hm hpath] at hdir
      cases hdir
    · exact fun hall => hall.2 rfl hd

/-- A file is dropped for `e`. -/
theorem file (h : Merged names i e) (hfile : (names i).isDir = false) : Merged names (i + 1) e where
  dir := by
    rw [h.dir, Nat.exists_lt_succ_right]
    simp [hfile]
  top hd := by
    rw [h.top hd, Nat.exists_lt_succ_right]
    simp [hfile]
  content hd := by
    rw [h.content hd, Nat.exists_lt_succ_right]
    simp [hfile]
  implied hd := by
    rw [h.implied hd, Nat.forall_lt_succ_right]
    simp [hfile]

/-- A directory is dropped for the directory `e`. -/
theorem directory (h : Merged names i e) (hpath : (names i).path = e.path) (hd : e.isDir = true)
    (hdir : (names i).isDir = true) : Merged names (i + 1) (e.mergeFlags (names i)) := by
  have hpath' : (e.mergeFlags (names i)).path = e.path := rfl
  have hdir' : (e.mergeFlags (names i)).isDir = true := hd
  constructor
  · rw [hpath', Nat.exists_lt_succ_right]
    exact iff_of_true hdir' (.inr ⟨hpath, hdir⟩)
  · intro _
    rw [hpath', Nat.exists_lt_succ_right, ← h.top hd]
    simp [ListFile.mergeFlags, hpath, hdir]
  · intro _
    rw [hpath', Nat.exists_lt_succ_right, ← h.content hd]
    simp [ListFile.mergeFlags, hpath, hdir]
  · intro _
    rw [hpath', Nat.forall_lt_succ_right, ← h.implied hd]
    simp [ListFile.mergeFlags, hpath, hdir]

end Merged

/-! ### One position -/

/-- A search only changes hints. -/
theorem Scanned.searched (h : Scanned names v29 n i sorted low prev) (hs : SortedNames v29 names n)
    {sorted' : ℕ → ListFile} (hsame : SameActive sorted sorted') (hgap : Gapped sorted' i) :
    Scanned names v29 n i sorted' low prev := by
  have hback : ∀ {m}, active sorted' m = true → active sorted m = true ∧ sorted' m = sorted m := by
    intro m hm
    have hact := (hsame m).1.symm.trans hm
    exact ⟨hact, (hsame m).2 hact⟩
  have hfwd : ∀ {m b}, active sorted m = b → active sorted' m = b := fun hm => (hsame _).1.trans hm
  constructor
  · exact h.low_le
  · exact h.prev_lt
  · exact hfwd h.low_active
  · exact hfwd h.prev_active
  · exact fun m hm => hfwd (h.below m hm)
  · exact fun m hm hmi => hfwd (h.above m hm hmi)
  · intro m hm hmn
    have hnames := h.rest m hm hmn
    have hact : active sorted m = true := by
      rw [active, hnames]
      exact active_of_named (hs.named m hmn)
    exact ((hsame m).2 hact).trans hnames
  · intro m hm ha
    rw [(hback ha).2]
    exact h.name m hm (hback ha).1
  · rw [(hsame prev).2 h.prev_active]
    exact h.last
  · intro m hm m' hm' ha ha' hpath
    rw [(hback ha).2, (hback ha').2] at hpath
    exact h.uniq m hm m' hm' (hback ha).1 (hback ha').1 hpath
  · intro m hm
    obtain ⟨m', hm', ha, hpath⟩ := h.cover m hm
    refine ⟨m', hm', hfwd ha, ?_⟩
    rwa [(hsame m').2 ha]
  · intro m hm ha
    rw [(hback ha).2]
    exact h.merged m hm (hback ha).1
  · exact hgap

/-- No earlier file has the path of a new one. -/
theorem Scanned.new_path (h : Scanned names v29 n i sorted low prev)
    (hnew : ∀ m < i, active sorted m = true → (sorted m).path ≠ (names i).path) :
    ∀ m < i, (names m).path ≠ (names i).path := by
  intro m hm hpath
  obtain ⟨m', hm', ha, hpath'⟩ := h.cover m hm
  exact hnew m' hm' ha (hpath'.trans hpath)

/-- **A new name stays.** -/
theorem Scanned.keep (h : Scanned names v29 n i sorted low prev) (hs : SortedNames v29 names n) (hi : i < n)
    (hnew : ∀ m < i, active sorted m = true → (sorted m).path ≠ (names i).path) :
    Scanned names v29 n (i + 1) sorted low i := by
  have hself : sorted i = names i := h.rest i le_rfl hi
  have hact : active sorted i = true := by
    rw [active, hself]
    exact active_of_named (hs.named i hi)
  have hcases : ∀ {m}, m < i + 1 → m < i ∨ m = i := fun hm => Nat.lt_succ_iff_lt_or_eq.1 hm
  constructor
  · exact h.low_le.trans h.prev_lt.le
  · exact Nat.lt_succ_self i
  · exact h.low_active
  · exact hact
  · exact h.below
  · intro m hm hm'
    omega
  · exact fun m hm => h.rest m (by omega)
  · intro m hm ha
    rcases hcases hm with hlt | rfl
    · exact h.name m hlt ha
    · rw [hself]
      exact .refl _
  · simp only [Nat.add_sub_cancel, hself]
  · intro m hm m' hm' ha ha' hpath
    rcases hcases hm with hlt | rfl <;> rcases hcases hm' with hlt' | rfl
    · exact h.uniq m hlt m' hlt' ha ha' hpath
    · exact absurd (hpath.trans (by rw [hself])) (hnew m hlt ha)
    · exact absurd (hpath.symm.trans (by rw [hself])) (hnew m' hlt' ha')
    · rfl
  · intro m hm
    rcases hcases hm with hlt | rfl
    · obtain ⟨m', hm', ha, hpath⟩ := h.cover m hlt
      exact ⟨m', by omega, ha, hpath⟩
    · exact ⟨m, hm, hact, by rw [hself]⟩
  · intro m hm ha
    rcases hcases hm with hlt | rfl
    · exact (h.merged m hlt ha).other fun hpath => hnew m hlt ha hpath.symm
    · simp only [hself]
      exact .first fun m' hm' hpath => absurd hpath (h.new_path hnew m' hm')
  · exact h.gapped.succ hact

theorem firstActive_spec (s : ℕ → ListFile) (k j : ℕ) :
    j ≤ firstActive s k j ∧ firstActive s k j ≤ j + k ∧
      (∀ m, j ≤ m → m < firstActive s k j → active s m = false) ∧
      (firstActive s k j < j + k → active s (firstActive s k j) = true) := by
  induction k generalizing j with
  | zero => exact ⟨le_rfl, le_rfl, fun m hm hm' => absurd hm' (not_lt.2 hm), fun h => absurd h (lt_irrefl j)⟩
  | succ k ih =>
    rw [firstActive]
    split_ifs with hact
    · exact ⟨le_rfl, by omega, fun m hm hm' => absurd hm' (not_lt.2 hm), fun _ => hact⟩
    · obtain ⟨hle, hub, hidle, hend⟩ := ih (j + 1)
      refine ⟨by omega, by omega, fun m hm hm' => ?_, fun hlt => hend (by omega)⟩
      rcases eq_or_lt_of_le hm with rfl | hlt
      · simpa using hact
      · exact hidle m hlt hm'

/-- **A directory takes the place of a file.** -/
theorem Scanned.replace (h : Scanned names v29 n i sorted low prev) (hs : SortedNames v29 names n) (hi : i < n) {j : ℕ}
    (hj : j < i) (hja : active sorted j = true) (hpath : (sorted j).path = (names i).path)
    (hfile : (sorted j).isDir = false) :
    Scanned names v29 n (i + 1) (Function.update sorted j (sorted j).clear)
      (if low = j then
        firstActive (Function.update sorted j (sorted j).clear) (i - (j + 1)) (j + 1)
      else low) i := by
  set s' := Function.update sorted j (sorted j).clear with hs'
  have hact' : ∀ m, active s' m = if m = j then false else active sorted m := active_clear _ _
  have hne' : ∀ {m}, m ≠ j → s' m = sorted m := fun hm => Function.update_of_ne hm _ _
  have hself : s' i = names i := (hne' (by omega)).trans (h.rest i le_rfl hi)
  have hacti : active s' i = true := by
    rw [active, hself]
    exact active_of_named (hs.named i hi)
  have hback : ∀ {m}, m < i + 1 → active s' m = true → m < i ∧ m ≠ j ∧ active sorted m = true ∨ m = i := by
    intro m hm ha
    rcases Nat.lt_succ_iff_lt_or_eq.1 hm with hlt | rfl
    · rw [hact'] at ha
      split_ifs at ha with hmj
      exact .inl ⟨hlt, hmj, ha⟩
    · exact .inr rfl
  have hother : ∀ {m}, m < i → m ≠ j → active sorted m = true → (sorted m).path ≠ (names i).path :=
    fun hm hmj ha heq => hmj (h.uniq _ hm j hj ha hja (heq.trans hpath.symm))
  have hnodir : ∀ m < i, (names m).path = (names i).path → (names m).isDir = false := by
    intro m hm heq
    by_contra hdir
    have := (h.merged j hj hja).dir.2 ⟨m, hm, heq.trans hpath.symm, by simpa using hdir⟩
    rw [hfile] at this
    cases this
  obtain ⟨hfle, hfub, hfidle, hfact⟩ := firstActive_spec s' (i - (j + 1)) (j + 1)
  have hlowi : (if low = j then firstActive s' (i - (j + 1)) (j + 1) else low) ≤ i := by
    have hlow := h.low_le.trans_lt h.prev_lt
    split_ifs <;> omega
  constructor
  · exact hlowi
  · exact Nat.lt_succ_self i
  · change active s' (if low = j then _ else _) = true
    split_ifs with hlow
    · rcases lt_or_eq_of_le (show firstActive s' (i - (j + 1)) (j + 1) ≤ i by omega) with hlt | heq
      · exact hfact (by omega)
      · rw [heq]
        exact hacti
    · rw [hact', if_neg hlow]
      exact h.low_active
  · exact hacti
  · intro m hm
    change m < (if low = j then _ else _) at hm
    rw [hact']
    split_ifs at hm ⊢ with hmj hlow
    · rfl
    · rfl
    · rcases lt_or_gt_of_ne hmj with hlt | hgt
      · exact h.below m (by omega)
      · have := hfidle m (by omega) hm
        rwa [hact', if_neg hmj] at this
    · exact h.below m hm
  · intro m hm hm'
    omega
  · exact fun m hm hmn => (hne' (by omega)).trans (h.rest m (by omega) hmn)
  · intro m hm ha
    rcases hback hm ha with ⟨hlt, hmj, ha'⟩ | rfl
    · simp only [hne' hmj]
      exact h.name m hlt ha'
    · simp only [hself]
      exact .refl _
  · simp only [Nat.add_sub_cancel, hself]
  · intro m hm m' hm' ha ha' heq
    rcases hback hm ha with ⟨hlt, hmj, ham⟩ | rfl <;> rcases hback hm' ha' with ⟨hlt', hmj', ham'⟩ | rfl
    · simp only [hne' hmj, hne' hmj'] at heq
      exact h.uniq m hlt m' hlt' ham ham' heq
    · simp only [hne' hmj, hself] at heq
      exact absurd heq (hother hlt hmj ham)
    · simp only [hne' hmj', hself] at heq
      exact absurd heq.symm (hother hlt' hmj' ham')
    · rfl
  · intro m hm
    rcases Nat.lt_succ_iff_lt_or_eq.1 hm with hlt | rfl
    · obtain ⟨m', hm', ha, hp⟩ := h.cover m hlt
      by_cases hmj : m' = j
      · subst hmj
        exact ⟨i, Nat.lt_succ_self i, hacti, by simp only [hself]; exact hpath.symm.trans hp⟩
      · exact ⟨m', by omega, by rw [hact', if_neg hmj]; exact ha, by simp only [hne' hmj]; exact hp⟩
    · exact ⟨m, hm, hacti, by simp only [hself]⟩
  · intro m hm ha
    rcases hback hm ha with ⟨hlt, hmj, ha'⟩ | rfl
    · simp only [hne' hmj]
      exact (h.merged m hlt ha').other fun heq => hother hlt hmj ha' heq.symm
    · simp only [hself]
      exact .first hnodir
  · have hgap := h.gapped.succ (s := sorted) (i := i) (by
      rw [active, h.rest i le_rfl hi]
      exact active_of_named (hs.named i hi))
    exact hgap.clear j

/-- **A duplicate is dropped** for the last name. -/
theorem Scanned.drop (h : Scanned names v29 n i sorted low prev) (hs : SortedNames v29 names n) (hi : i < n)
    (hi0 : 0 < i) {e : ListFile} (hname : SameName e (sorted prev))
    (hhints : e.depth = (sorted prev).depth ∧ e.len32 = (sorted prev).len32)
    (hkey : (sorted prev).key v29 = (names i).key v29)
    (hpath : (sorted prev).path = (names i).path) (hmerged : Merged names (i + 1) e) :
    Scanned names v29 n (i + 1) (Function.update (Function.update sorted prev e) i (sorted i).clear)
      low prev := by
  have hpi := h.prev_lt
  set s₁ := Function.update sorted prev e with hs₁
  have hprev₁ : s₁ prev = e := Function.update_self ..
  have hne₁ : ∀ {m}, m ≠ prev → s₁ m = sorted m := fun hm => Function.update_of_ne hm _ _
  have hact₁ : ∀ m, active s₁ m = active sorted m ∧ (s₁ m).depth = (sorted m).depth ∧
      (s₁ m).len32 = (sorted m).len32 := by
    intro m
    by_cases hm : m = prev
    · subst hm
      rw [active, hprev₁, active, ListFile.isActive, ListFile.isActive, hname.basename]
      exact ⟨rfl, hhints⟩
    · rw [active, hne₁ hm]
      exact ⟨rfl, rfl, rfl⟩
  have hclear : (sorted i).clear = (s₁ i).clear := rfl
  rw [hclear]
  set s' := Function.update s₁ i (s₁ i).clear with hs'
  have hact' : ∀ m, active s' m = if m = i then false else active sorted m := by
    intro m
    rw [← (hact₁ m).1]
    exact active_clear _ _ _
  have hne' : ∀ {m}, m ≠ i → s' m = s₁ m := fun hm => Function.update_of_ne hm _ _
  have hprev' : s' prev = e := (hne' hpi.ne).trans hprev₁
  have hback : ∀ {m}, m < i + 1 → active s' m = true → m < i ∧ active sorted m = true := by
    intro m hm ha
    rw [hact'] at ha
    split_ifs at ha with hmi
    exact ⟨by omega, ha⟩
  have hsn : ∀ {m}, m < i → SameName (s' m) (sorted m) := by
    intro m hm
    rw [hne' hm.ne]
    by_cases hmp : m = prev
    · subst hmp
      rw [hprev₁]
      exact hname
    · rw [hne₁ hmp]
      exact .refl _
  constructor
  · exact h.low_le
  · exact hpi.trans (Nat.lt_succ_self i)
  · have hlow := h.low_le.trans_lt hpi
    rw [hact', if_neg hlow.ne]
    exact h.low_active
  · rw [hact', if_neg hpi.ne]
    exact h.prev_active
  · intro m hm
    have hlow := h.low_le.trans_lt hpi
    rw [hact', if_neg ((show m < low from hm).trans hlow).ne]
    exact h.below m hm
  · intro m hm hm'
    rw [hact']
    split_ifs with hmi
    · rfl
    · exact h.above m hm (by omega)
  · intro m hm hmn
    rw [hne' (by omega), hne₁ (by omega)]
    exact h.rest m (by omega) hmn
  · intro m hm ha
    obtain ⟨hlt, ha'⟩ := hback hm ha
    have h₁ := hsn hlt
    have h₂ := h.name m hlt ha'
    exact ⟨h₁.dirname.trans h₂.dirname, h₁.basename.trans h₂.basename, h₁.isDir.trans h₂.isDir⟩
  · rw [hprev', hname.key, hkey, Nat.add_sub_cancel]
  · intro m hm m' hm' ha ha' heq
    obtain ⟨hlt, ham⟩ := hback hm ha
    obtain ⟨hlt', ham'⟩ := hback hm' ha'
    have h₁ := (hsn hlt).path
    have h₂ := (hsn hlt').path
    exact h.uniq m hlt m' hlt' ham ham' (h₁.symm.trans (heq.trans h₂))
  · intro m hm
    rcases Nat.lt_succ_iff_lt_or_eq.1 hm with hlt | rfl
    · obtain ⟨m', hm', ha, hp⟩ := h.cover m hlt
      refine ⟨m', by omega, ?_, (hsn hm').path.trans hp⟩
      rw [hact', if_neg hm'.ne]
      exact ha
    · refine ⟨prev, by omega, ?_, ?_⟩
      · rw [hact', if_neg hpi.ne]
        exact h.prev_active
      · rw [hprev', hname.path, hpath]
  · intro m hm ha
    obtain ⟨hlt, ha'⟩ := hback hm ha
    by_cases hmp : m = prev
    · subst hmp
      rw [hprev']
      exact hmerged
    · rw [hne' hlt.ne, hne₁ hmp]
      refine (h.merged m hlt ha').other fun heq => hmp ?_
      exact h.uniq m hlt prev hpi ha' h.prev_active (heq.symm.trans hpath.symm)
  · have hgap := h.gapped.succ (s := sorted) (i := i) (by
      rw [active, h.rest i le_rfl hi]
      exact active_of_named (hs.named i hi))
    exact (hgap.congr hact₁).clear i

/-- **One position of the scan.** -/
theorem Scanned.step (h : Scanned names v29 n i sorted low prev) (hs : SortedNames v29 names n) (hi : i < n)
    (hi0 : 0 < i) : ∃ st', cleanStep v29 ⟨sorted, low, prev⟩ i = some st' ∧
      Scanned names v29 n (i + 1) st'.sorted st'.low st'.prev := by
  obtain ⟨r, sorted', hfind, hsame, hgap, hdup⟩ := h.findDuplicate hs hi hi0
  have h' := h.searched hs hsame hgap
  have hself : sorted i = names i := h.rest i le_rfl hi
  have hself' : sorted' i = names i := h'.rest i le_rfl hi
  have hback : ∀ {m}, active sorted' m = true → active sorted m = true ∧ sorted' m = sorted m := by
    intro m hm
    have hact := (hsame m).1.symm.trans hm
    exact ⟨hact, (hsame m).2 hact⟩
  simp only [cleanStep, hself, active_of_named (hs.named i hi), Bool.not_true, Bool.false_eq_true, if_false, hfind]
  cases r with
  | none =>
    refine ⟨_, rfl, h'.keep hs hi fun m hm ha => ?_⟩
    simp only [(hback ha).2]
    exact hdup m hm (hback ha).1
  | some j =>
    obtain ⟨hj, hja, hpath, hor⟩ := hdup
    have hj' : sorted' j = sorted j := (hsame j).2 hja
    have hja' : active sorted' j = true := (hsame j).1.trans hja
    refine ⟨_, rfl, ?_⟩
    rw [dropDuplicate]
    simp only [hself']
    by_cases hrepl : (names i).isDir = true ∧ (sorted' j).isDir = false
    · have hcond : ((names i).isDir && !(sorted' j).isDir) = true := by rw [hrepl.1, hrepl.2]; rfl
      rw [if_pos hcond]
      exact h'.replace hs hi hj hja' (by simp only [hj']; exact hpath) hrepl.2
    · have hcond : ¬ (((names i).isDir && !(sorted' j).isDir) = true) := by
        simpa using hrepl
      rcases hor with ⟨rfl, hkey⟩ | ⟨hdir, hfile⟩
      · rw [if_neg hcond]
        have hmerged := h'.merged j h.prev_lt hja'
        rw [← hj'] at hkey hpath
        cases hdir : (names i).isDir with
        | true =>
          have hpdir : (sorted' j).isDir = true := by
            by_contra hno
            exact hrepl ⟨hdir, by simpa using hno⟩
          have hdrop := h'.drop hs hi hi0 (e := (sorted' j).mergeFlags (names i))
            ⟨rfl, rfl, rfl⟩ ⟨rfl, rfl⟩ hkey hpath (hmerged.directory hpath.symm hpdir hdir)
          simp only [hself'] at hdrop
          simpa using hdrop
        | false =>
          have hdrop := h'.drop hs hi hi0 (e := sorted' j) (.refl _) ⟨rfl, rfl⟩ hkey hpath
            (hmerged.file hdir)
          simp only [hself', Function.update_eq_self] at hdrop
          simpa using hdrop
      · rw [← hj'] at hfile
        exact absurd ⟨hdir, hfile⟩ hrepl

end Scan

end CloudEdgeBackup
