/-
  The sort of the file list (`flist.c`): `fsort` and `fsort_tmp` on the array of pointers.

  * `fsortTmp?` sorts the entries of `fp` with the scratch entries of `tmp`: the halves one
    after the other with the same `tmp`, then the merge, which copies out what is left of
    the first half where the second's first belongs.  An access beyond an array, or a
    comparison that reads beyond a string, ends it;
  * `fsortTmp?_eq`: within the arrays it is the merge sort of the library, for every
    comparison, when `tmp` has half the entries (`fsort?_inside`);
  * `SortsStably` is a stable sort by `f_name_cmp`;
  * `fsort?_sortsStably_iff`: it is one exactly if no entry is followed by a twin of it.
-/
import CloudEdgeBackup.NameLaws
import CloudEdgeBackup.FileListClean
import CloudEdgeBackup.Lib.MergeSort

namespace CloudEdgeBackup

open MergeSort

/-! ## The arrays -/

/-- Why a sort ends early. -/
inductive SortFault
  /-- `f_name_cmp` reads beyond a string. -/
  | compare
  /-- An access beyond `fp` or `tmp`. -/
  | outside
deriving DecidableEq

namespace FileSort

section Arrays

variable {α : Type}

def load (a : List α) (i : ℕ) : Except SortFault α := match a[i]? with
  | some x => .ok x
  | none => .error .outside

def store (a : List α) (i : ℕ) (x : α) : Except SortFault (List α) :=
  if i < a.length then .ok (a.set i x) else .error .outside

/-- `memcpy(dst + i, src + j, n * PTR_SIZE)` -/
def memcpy (src : List α) : List α → ℕ → ℕ → ℕ → Except SortFault (List α)
  | dst, _, _, 0 => .ok dst
  | dst, i, j, n + 1 => do
    let x ← load src j
    let dst ← store dst i x
    memcpy src dst (i + 1) (j + 1) n

variable (cmp : α → α → Option ℤ)

/-- `f_name_cmp(*f1, *f2)` -/
def compare (x y : α) : Except SortFault ℤ := match cmp x y with
  | some d => .ok d
  | none => .error .compare

/-! ## `fsort_tmp` -/

/-- `f1` and `n1` behind the entries of the first half that stay where they are; none when
    all of them do. -/
def skipSorted (fp : List α) (f2 : ℕ) : ℕ → ℕ → Except SortFault (Option (ℕ × ℕ))
  | _, 0 => .ok none
  | f1, n1 + 1 => do
    let x ← load fp f1
    let y ← load fp f2
    let d ← compare cmp x y
    if d ≤ 0 then skipSorted fp f2 (f1 + 1) n1
    else .ok (some (f1, n1 + 1))

/-- `while (n1 > 0 && n2 > 0)`, and the copy of what is left in `tmp`. -/
def mergeLoop (tmp : List α) : ℕ → List α → ℕ → ℕ → ℕ → ℕ → ℕ → Except SortFault (List α)
  | 0, fp, _, _, _, _, _ => .ok fp
  | fuel + 1, fp, f1, f2, t, n1, n2 =>
    if 0 < n1 ∧ 0 < n2 then do
      let x ← load tmp t
      let y ← load fp f2
      let d ← compare cmp x y
      if d ≤ 0 then do
        let fp ← store fp f1 x
        mergeLoop tmp fuel fp (f1 + 1) f2 (t + 1) (n1 - 1) n2
      else do
        let fp ← store fp f1 y
        mergeLoop tmp fuel fp (f1 + 1) (f2 + 1) t n1 (n2 - 1)
    else memcpy tmp fp f1 t n1

/-- The sorted halves, of `n1` and `n2` entries, become one: `fp` and `tmp`. -/
def mergeHalves (fp : List α) (n1 n2 : ℕ) (tmp : List α) : Except SortFault (List α × List α) := do
  let rest ← skipSorted cmp fp n1 0 n1
  match rest with
  | none => .ok (fp, tmp)
  | some (f1, left) => do
    let tmp ← memcpy fp tmp 0 f1 left
    let y ← load fp n1
    let fp ← store fp f1 y
    let fp ← mergeLoop cmp tmp (left + n2) fp (f1 + 1) (n1 + 1) 0 left (n2 - 1)
    .ok (fp, tmp)

/-- `fsort_tmp(fp, num, tmp)` on the `num` entries of `fp`; `n` bounds the halvings. -/
def fsortTmp? : ℕ → List α → List α → Except SortFault (List α × List α)
  | 0, fp, tmp => .ok (fp, tmp)
  | n + 1, fp, tmp =>
    let half := fun (f tmp : List α) => if 1 < f.length then fsortTmp? n f tmp else .ok (f, tmp)
    let n1 := fp.length / 2
    let n2 := fp.length - n1
    do
      let left ← half (fp.take n1) tmp
      let right ← half (fp.drop n1) left.2
      mergeHalves cmp (left.1 ++ right.1) n1 n2 right.2

/-- `fsort(fp, num)`; `garbage` is what `new_array` returns. -/
def fsort? (garbage : ℕ → α) (fp : List α) : Except SortFault (List α) :=
  if fp.length ≤ 1 then .ok fp
  else do
    let tmp := (List.range ((fp.length + 1) / 2)).map garbage
    let sorted ← fsortTmp? cmp fp.length fp tmp
    .ok sorted.1

/-! ## The merge sort of the library -/

/-- The outcome of comparisons, as a fault. -/
def compared {β : Type} : Option β → Except SortFault β
  | some b => .ok b
  | none => .error .compare

/-- The entries come out as `o` says, and `tmp` keeps its length. -/
def Gives (r : Except SortFault (List α × List α)) (o : Option (List α)) (len : ℕ) : Prop :=
  match o with
  | none => r = .error .compare
  | some out => ∃ tmp, tmp.length = len ∧ r = .ok (out, tmp)

variable {cmp}

theorem load_append (p : List α) (x : α) (r : List α) : load (p ++ x :: r) p.length = .ok x := by
  simp [load]

theorem store_append (p : List α) (g : α) (r : List α) (x : α) :
    store (p ++ g :: r) p.length x = .ok (p ++ x :: r) := by
  simp [store]

theorem memcpy_eq (a b p r : List α) {s g : List α} (hg : g.length = s.length) :
    memcpy (a ++ (s ++ b)) (p ++ (g ++ r)) p.length a.length s.length = .ok (p ++ (s ++ r)) := by
  induction s generalizing a p g with
  | nil =>
    rw [List.length_eq_zero_iff.1 hg]
    rfl
  | cons x s ih =>
    cases g with
    | nil => cases hg
    | cons y g =>
      have hrest := ih (a ++ [x]) (p ++ [x]) (Nat.succ.inj hg)
      simp only [List.append_assoc, List.singleton_append, List.length_append, List.length_singleton] at hrest
      simp only [List.cons_append, List.length_cons, memcpy, load_append, store_append]
      exact hrest

theorem bind_ok {β γ : Type} (b : β) (f : β → Except SortFault γ) : (Except.ok b >>= f) = f b := rfl

theorem bind_error {β γ : Type} (e : SortFault) (f : β → Except SortFault γ) :
    (Except.error e >>= f) = .error e := rfl

/-- **The loop merges what is in `tmp` with what follows the gap.** -/
theorem mergeLoop_eq (a b done gap : List α) {ts rest : List α} {fuel : ℕ} (hgap : gap.length = ts.length)
    (hfuel : ts.length + rest.length < fuel) :
    mergeLoop cmp (a ++ (ts ++ b)) fuel (done ++ (gap ++ rest)) done.length (done.length + gap.length) a.length
      ts.length rest.length = compared ((merge? cmp ts rest).map (done ++ ·)) := by
  induction fuel generalizing a done gap ts rest with
  | zero => omega
  | succ fuel ih =>
    rw [mergeLoop]
    cases ts with
    | nil =>
      rw [if_neg (by simp), List.length_eq_zero_iff.1 hgap, merge?_nil_left]
      rfl
    | cons x ts =>
      cases rest with
      | nil =>
        rw [if_neg (by simp), merge?_nil_right, memcpy_eq a b done [] hgap, List.append_nil]
        rfl
      | cons y rest =>
        have hload : load (done ++ (gap ++ y :: rest)) (done.length + gap.length) = .ok y := by
          rw [← List.append_assoc, ← List.length_append]
          exact load_append _ y rest
        obtain ⟨g, gap, rfl⟩ := List.exists_cons_of_length_eq_add_one hgap
        simp only [List.length_cons] at hgap hfuel
        rw [if_pos (by simp), List.cons_append, load_append, bind_ok, hload, bind_ok]
        cases hcmp : cmp x y with
        | none =>
          simp only [compare, hcmp, merge?, bind_error]
          rfl
        | some d =>
          simp only [compare, hcmp, merge?, bind_ok]
          by_cases hd : d ≤ 0
          · -- `*f1++ = *t++, n1--`
            have hstep := @ih (a ++ [x]) (done ++ [x]) gap ts (y :: rest) (by omega) (by
              rw [List.length_cons]
              omega)
            have hf2 : done.length + (gap.length + 1) = done.length + 1 + gap.length := by omega
            simp only [List.append_assoc, List.length_append, List.length_cons, List.length_nil, Nat.zero_add,
              List.cons_append, List.nil_append] at hstep
            rw [if_pos hd, if_pos hd, List.cons_append, store_append, bind_ok]
            simp only [List.length_cons, Nat.add_sub_cancel]
            rw [hf2, hstep, Option.map_map]
            simp [Function.comp_def]
          · -- `*f1++ = *f2++, n2--`
            have hstep := @ih a (done ++ [y]) (gap ++ [y]) (x :: ts) rest (by
              rw [List.length_append, List.length_singleton, List.length_cons]
              omega) (by
              rw [List.length_cons]
              omega)
            have hf2 : done.length + (gap.length + 1) + 1 = done.length + 1 + (gap.length + 1) := by omega
            simp only [List.append_assoc, List.length_append, List.length_cons, List.length_nil, Nat.zero_add,
              List.cons_append, List.nil_append] at hstep
            rw [if_neg hd, if_neg hd, List.cons_append, store_append, bind_ok]
            simp only [List.length_cons, Nat.add_sub_cancel]
            rw [hf2, hstep, Option.map_map]
            simp [Function.comp_def]

/-- What the first loop leaves where it is: all of the first half, or `kept`. -/
theorem skipSorted_spec (pre xs : List α) (y : α) (ys : List α) :
    (skipSorted cmp (pre ++ (xs ++ y :: ys)) (pre.length + xs.length) pre.length xs.length = .error .compare ∧
      merge? cmp xs (y :: ys) = none) ∨
    (skipSorted cmp (pre ++ (xs ++ y :: ys)) (pre.length + xs.length) pre.length xs.length = .ok none ∧
      merge? cmp xs (y :: ys) = some (xs ++ y :: ys)) ∨
    ∃ kept x rest, xs = kept ++ x :: rest ∧
      skipSorted cmp (pre ++ (xs ++ y :: ys)) (pre.length + xs.length) pre.length xs.length =
        .ok (some (pre.length + kept.length, rest.length + 1)) ∧
      merge? cmp xs (y :: ys) = (merge? cmp (x :: rest) ys).map fun l => kept ++ y :: l := by
  induction xs generalizing pre with
  | nil => exact .inr (.inl ⟨rfl, merge?_nil_left _⟩)
  | cons x xs ih =>
    have hload : load (pre ++ (x :: xs ++ y :: ys)) (pre.length + (x :: xs).length) = .ok y := by
      rw [← List.append_assoc, ← List.length_append]
      exact load_append _ y ys
    have hstep := ih (pre ++ [x])
    simp only [List.append_assoc, List.singleton_append, List.length_append, List.length_singleton] at hstep
    rw [List.length_cons, skipSorted, List.cons_append, load_append, bind_ok]
    rw [List.length_cons, List.cons_append] at hload
    rw [hload, bind_ok]
    cases hcmp : cmp x y with
    | none =>
      left
      simp only [compare, hcmp, merge?, bind_error, and_self]
    | some d =>
      simp only [compare, hcmp, merge?, bind_ok]
      by_cases hd : d ≤ 0
      · simp only [if_pos hd]
        rw [show pre.length + (xs.length + 1) = pre.length + 1 + xs.length by omega]
        rcases hstep with ⟨hskip, hmerge⟩ | ⟨hskip, hmerge⟩ | ⟨kept, z, rest, rfl, hskip, hmerge⟩
        · exact .inl ⟨hskip, by rw [hmerge]; rfl⟩
        · exact .inr (.inl ⟨hskip, by rw [hmerge]; rfl⟩)
        · refine .inr (.inr ⟨x :: kept, z, rest, rfl, ?_, ?_⟩)
          · rw [hskip, List.length_cons]
            congr 3
            omega
          · rw [hmerge, Option.map_map]
            rfl
      · simp only [if_neg hd]
        exact .inr (.inr ⟨[], x, xs, rfl, rfl, rfl⟩)

/-- **The merge in place is the merge of the two halves.** -/
theorem mergeHalves_eq (xs : List α) {ys tmp : List α} (hys : ys ≠ []) (htmp : xs.length ≤ tmp.length) :
    Gives (mergeHalves cmp (xs ++ ys) xs.length ys.length tmp) (merge? cmp xs ys) tmp.length := by
  obtain ⟨y, ys, rfl⟩ := List.exists_cons_of_ne_nil hys
  have hskip := @skipSorted_spec _ cmp [] xs y ys
  simp only [List.nil_append, List.length_nil, Nat.zero_add] at hskip
  rw [mergeHalves]
  rcases hskip with ⟨hskip, hmerge⟩ | ⟨hskip, hmerge⟩ | ⟨kept, x, rest, rfl, hskip, hmerge⟩
  · rw [hskip, hmerge]
    rfl
  · rw [hskip, hmerge]
    exact ⟨tmp, rfl, rfl⟩
  · have hlen : rest.length + 1 ≤ tmp.length := by
      rw [List.length_append, List.length_cons] at htmp
      omega
    obtain ⟨g, b, rfl, hg⟩ : ∃ g b, tmp = g ++ b ∧ g.length = (x :: rest).length :=
      ⟨tmp.take (rest.length + 1), tmp.drop (rest.length + 1), (List.take_append_drop _ _).symm, by
        rw [List.length_take, List.length_cons]
        omega⟩
    have hcopy := memcpy_eq kept (y :: ys) [] b hg
    have hload := load_append (kept ++ x :: rest) y ys
    have hstore := store_append kept x (rest ++ y :: ys) y
    have hloop := @mergeLoop_eq _ cmp [] b (kept ++ [y]) (rest ++ [y]) (x :: rest) ys
      (rest.length + 1 + (ys.length + 1)) (by simp) (by
        rw [List.length_cons]
        omega)
    have hf2 : (kept ++ x :: rest).length + 1 = kept.length + 1 + (rest.length + 1) := by
      rw [List.length_append, List.length_cons]
      omega
    simp only [List.append_assoc, List.cons_append, List.nil_append, List.length_append, List.length_cons,
      List.length_nil, Nat.zero_add] at hcopy hload hstore hloop hskip hf2 ⊢
    rw [hskip, bind_ok]
    simp only
    rw [hcopy, bind_ok, hload, bind_ok, hstore, bind_ok, Nat.add_sub_cancel, hf2, hloop, hmerge]
    cases merge? cmp (x :: rest) ys with
    | none => rfl
    | some l =>
      refine ⟨x :: (rest ++ b), ?_, ?_⟩
      · simp only [List.length_cons, List.length_append] at hg ⊢
        omega
      · simp [compared, bind_ok]

theorem length_of_gives {n len : ℕ} {f out : List α} {r : Except SortFault (List α × List α)}
    (h : Gives r (sortBy? cmp n f) len) (hr : sortBy? cmp n f = some out) :
    ∃ tmp, tmp.length = len ∧ r = .ok (out, tmp) ∧ out.length = f.length := by
  rw [hr] at h
  obtain ⟨tmp, hlen, hok⟩ := h
  exact ⟨tmp, hlen, hok, (sortBy?_perm hr).length_eq⟩

/-- **`fsort_tmp` is the merge sort**, whatever the comparison, as long as `tmp` has room
    for half of the entries. -/
theorem fsortTmp?_eq {n : ℕ} {fp tmp : List α} (hlen : 1 < fp.length) (hn : fp.length ≤ n)
    (htmp : fp.length / 2 ≤ tmp.length) :
    Gives (fsortTmp? cmp n fp tmp) (sortBy? cmp n fp) tmp.length := by
  induction n generalizing fp tmp with
  | zero => omega
  | succ n ih =>
    -- a half is sorted, or is one entry
    have hhalf : ∀ f tmp' : List α, f.length ≤ n → f.length / 2 ≤ tmp'.length →
        Gives (if 1 < f.length then fsortTmp? cmp n f tmp' else .ok (f, tmp')) (sortBy? cmp n f) tmp'.length := by
      intro f tmp' hf htmp'
      split_ifs with h1
      · exact ih h1 hf htmp'
      · have hone : sortBy? cmp n f = some f := by
          cases n with
          | zero => rfl
          | succ n => rw [sortBy?, if_pos (not_lt.1 h1)]
        rw [hone]
        exact ⟨tmp', rfl, rfl⟩
    have hleft := hhalf (fp.take (fp.length / 2)) tmp (by rw [List.length_take]; omega)
      (by rw [List.length_take]; omega)
    rw [fsortTmp?, sortBy?, if_neg (not_le.2 hlen)]
    cases hl : sortBy? cmp n (fp.take (fp.length / 2)) with
    | none =>
      rw [hl] at hleft
      simp only [Gives] at hleft ⊢
      rw [hleft]
      rfl
    | some xs =>
      obtain ⟨tmp₁, htmp₁, hok₁, hxs⟩ := length_of_gives hleft hl
      have hright := hhalf (fp.drop (fp.length / 2)) tmp₁ (by rw [List.length_drop]; omega)
        (by rw [List.length_drop]; omega)
      simp only [hok₁, bind_ok]
      cases hr : sortBy? cmp n (fp.drop (fp.length / 2)) with
      | none =>
        rw [hr] at hright
        simp only [Gives] at hright ⊢
        rw [hright]
        rfl
      | some ys =>
        obtain ⟨tmp₂, htmp₂, hok₂, hys⟩ := length_of_gives hright hr
        rw [List.length_take, Nat.min_eq_left (Nat.div_le_self _ _)] at hxs
        rw [List.length_drop] at hys
        have hmerge := @mergeHalves_eq _ cmp xs ys tmp₂ (by
          intro h0
          rw [h0, List.length_nil] at hys
          omega) (by omega)
        rw [hxs, hys, htmp₂, htmp₁] at hmerge
        simp only [hok₂, bind_ok]
        exact hmerge

/-- **`fsort` is the merge sort of the library.** -/
theorem fsort?_eq (garbage : ℕ → α) (fp : List α) :
    fsort? cmp garbage fp = compared (sortBy? cmp fp.length fp) := by
  rw [fsort?]
  split_ifs with hlen
  · rcases Nat.le_one_iff_eq_zero_or_eq_one.1 hlen with h0 | h1
    · rw [List.length_eq_zero_iff.1 h0]
      rfl
    · rw [h1, sortBy?, if_pos hlen]
      rfl
  · have htmp := @fsortTmp?_eq _ cmp fp.length fp ((List.range ((fp.length + 1) / 2)).map garbage)
      (not_le.1 hlen) le_rfl (by rw [List.length_map, List.length_range]; omega)
    cases hs : sortBy? cmp fp.length fp with
    | none =>
      rw [hs] at htmp
      simp only [Gives] at htmp
      simp only [htmp, bind_error]
      rfl
    | some out =>
      obtain ⟨tmp, -, hok, -⟩ := length_of_gives htmp hs
      simp only [hok, bind_ok]
      rfl

/-- **No access is beyond the entries or the `(num + 1) / 2` scratch entries.** -/
theorem fsort?_inside (garbage : ℕ → α) (fp : List α) : fsort? cmp garbage fp ≠ .error .outside := by
  rw [fsort?_eq]
  cases sortBy? cmp fp.length fp with
  | none => nofun
  | some out => nofun

end Arrays

end FileSort

open FileSort

/-! ## The file list -/

section Files

variable (v29 : Bool) (files : ℕ → ListFile)

/-- `f_name_cmp` of the entries two pointers point at. -/
def cmpAt (p q : ℕ) : Option ℤ := fNameCmp? v29 (files p) (files q)

/-- The sort of `fp` ends, with the pointers of `fp`, sorted by `file_compare`, those that
    are equal in the order they had. -/
def SortsStably (garbage : ℕ → ℕ) (fp : List ℕ) : Prop :=
  ∃ out, fsort? (cmpAt v29 files) garbage fp = .ok out ∧ out.Perm fp ∧
    (out.Pairwise fun p q => ∃ d ≤ 0, cmpAt v29 files p q = some d) ∧
    ∀ l : List ℕ, l.Sublist fp → (l.Pairwise fun p q => cmpAt v29 files p q = some 0) → l.Sublist out

variable {v29 files}

theorem map_merge? {xs ys l : List ℕ} (h : merge? (cmpAt v29 files) xs ys = some l) :
    l.map files = (xs.map files).merge (ys.map files) fun f g => fNameCmp v29 f g ≤ 0 := by
  induction xs, ys using merge?.induct (cmpAt v29 files) generalizing l with
  | case1 ys =>
    cases h.symm.trans (merge?_nil_left ys)
    rw [List.map_nil, List.nil_merge]
  | case2 xs =>
    cases h.symm.trans (merge?_nil_right xs)
    rw [List.map_nil, List.merge_right]
  | case3 x xs y ys hcmp =>
    simp [merge?, hcmp] at h
  | case4 x xs y ys d hcmp hd ih =>
    simp only [merge?, hcmp, if_pos hd, Option.map_eq_some_iff] at h
    obtain ⟨l', hl', rfl⟩ := h
    have hle : fNameCmp v29 (files x) (files y) ≤ 0 := by
      rw [fNameCmp, show fNameCmp? v29 (files x) (files y) = some d from hcmp]
      exact hd
    rw [List.map_cons, ih hl', List.map_cons, List.map_cons, List.cons_merge_cons_pos _ _ _ (decide_eq_true hle)]
  | case5 x xs y ys d hcmp hd ih =>
    simp only [merge?, hcmp, if_neg hd, Option.map_eq_some_iff] at h
    obtain ⟨l', hl', rfl⟩ := h
    have hgt : ¬fNameCmp v29 (files x) (files y) ≤ 0 := by
      rw [fNameCmp, show fNameCmp? v29 (files x) (files y) = some d from hcmp]
      exact hd
    rw [List.map_cons, ih hl', List.map_cons, List.map_cons,
      List.cons_merge_cons_neg _ _ _ (by rw [decide_eq_true_eq]; exact hgt)]

theorem map_sortBy? {n : ℕ} {l out : List ℕ} (h : sortBy? (cmpAt v29 files) n l = some out) :
    out.map files = if 1 < l.length then fsortTmp v29 n (l.map files) else l.map files := by
  induction n generalizing l out with
  | zero =>
    cases h
    split_ifs <;> rfl
  | succ n ih =>
    obtain ⟨hlen, rfl⟩ | ⟨hlen, xs, ys, hx, hy, hm⟩ := sortBy?_cases h
    · rw [if_neg (not_lt.2 hlen)]
    · rw [if_pos (not_le.1 hlen), fsortTmp, map_merge? hm, ih hx, ih hy]
      simp only [List.length_map, ← List.map_take, ← List.map_drop]

/-- **The entries end up as the sort of the list puts them.** -/
theorem map_fsort? {garbage : ℕ → ℕ} {fp out : List ℕ}
    (h : fsort? (cmpAt v29 files) garbage fp = .ok out) {o : CleanOpts} (hv : o.v29 = v29)
    (hq : o.useQsort = false) : out.map files = fsort o (fp.map files) := by
  rw [fsort?_eq] at h
  cases hsort : sortBy? (cmpAt v29 files) fp.length fp with
  | none =>
    rw [hsort] at h
    cases h
  | some out' =>
    rw [hsort] at h
    cases h
    rw [map_sortBy? hsort, fsort, hv, hq, List.length_map]
    by_cases hlen : fp.length ≤ 1
    · rw [if_neg (not_lt.2 hlen), if_pos hlen]
    · rw [if_pos (not_le.1 hlen), if_neg hlen, if_neg Bool.false_ne_true]

variable (v29 files)

/-- Where an entry stands in the order of `f_name_cmp`. -/
def standsAt (f : ListFile) : WithBot (List ℕ) := if f.isActive then ↑(f.key v29) else ⊥

/-- What the pointers of `fp` point at. -/
def pointedAt (fp : List ℕ) : Set ListFile := {f | ∃ p ∈ fp, files p = f}

/-- The second of two twins is a directory "." behind a dirname of its own, from protocol
    29 on. -/
def Twins (f g : ListFile) : Prop := v29 = true ∧ f.DotTwins g

variable {v29 files}

theorem standsAt_active {f : ListFile} (h : f.isActive = true) : standsAt v29 f = ↑(f.key v29) := if_pos h

theorem standsAt_removed {f : ListFile} (h : f.isActive = false) : standsAt v29 f = ⊥ := if_neg (by simp [h])

section Ranks

variable {S : Set ListFile} (hS : Legible S) {f g h : ListFile} (hf : f ∈ S) (hg : g ∈ S)
include hS hf hg

/-- **`f_name_cmp` compares where the entries stand**, or reads beyond the ".". -/
theorem fNameCmp?_standsAt (v29 : Bool) : (fNameCmp? v29 f g = none ∧ Twins v29 f g) ∨
    (¬Twins v29 f g ∧ ∃ d, fNameCmp? v29 f g = some d ∧ (d ≤ 0 ↔ standsAt v29 f ≤ standsAt v29 g) ∧
      (d = 0 ↔ standsAt v29 f = standsAt v29 g)) := by
  by_cases hfa : f.isActive = true
  · by_cases hga : g.isActive = true
    · have hfs := hS.spelled f hf hfa
      have hgs := hS.spelled g hg hga
      have hover : Overruns v29 f g ↔ Twins v29 f g := by
        cases v29 with
        | false => simp [Overruns, Twins, ListFile.dotDir]
        | true => simpa [Twins] using overruns_iff hfs hgs
      have hcomp := compares_keyDif (zero_notMem_key v29 hfs) (zero_notMem_key v29 hgs)
      rw [fNameCmp?_eq hfs hgs (hS.shared f hf g hg)]
      split_ifs with htwins
      · exact .inl ⟨rfl, hover.1 htwins⟩
      · refine .inr ⟨mt hover.2 htwins, _, rfl, ?_, ?_⟩
        · rw [standsAt_active hfa, standsAt_active hga, WithBot.coe_le_coe, hcomp.le_iff]
        · rw [standsAt_active hfa, standsAt_active hga, WithBot.coe_inj, hcomp.zero]
    · rw [Bool.not_eq_true] at hga
      refine .inr ⟨fun h => ?_, 1, by simp [fNameCmp?, hfa, hga], ?_, ?_⟩
      · simp [ListFile.isActive, h.2.dot] at hga
      · exact iff_of_false (by decide) (by
          rw [standsAt_removed hga, standsAt_active hfa, le_bot_iff]
          exact WithBot.coe_ne_bot)
      · exact iff_of_false (by decide) (by
          rw [standsAt_removed hga, standsAt_active hfa]
          exact WithBot.coe_ne_bot)
  · rw [Bool.not_eq_true] at hfa
    have hno : ¬Twins v29 f g := fun h => by simp [h.2.active] at hfa
    by_cases hga : g.isActive = true
    · refine .inr ⟨hno, -1, by simp [fNameCmp?, hfa, hga], ?_, ?_⟩
      · exact iff_of_true (by decide) (by
          rw [standsAt_removed hfa]
          exact bot_le)
      · exact iff_of_false (by decide) (by
          rw [standsAt_removed hfa, standsAt_active hga]
          exact WithBot.bot_ne_coe)
    · rw [Bool.not_eq_true] at hga
      have heq : standsAt v29 f = standsAt v29 g := (standsAt_removed hfa).trans (standsAt_removed hga).symm
      exact .inr ⟨hno, 0, by simp [fNameCmp?, hfa, hga], iff_of_true le_rfl heq.le, iff_of_true rfl heq⟩

theorem standsAt_of_twins (htwins : Twins v29 f g) : standsAt v29 f = standsAt v29 g := by
  have hga : g.isActive = true := decide_eq_true (by rw [htwins.2.dot]; exact List.cons_ne_nil _ _)
  rw [htwins.1, standsAt_active htwins.2.active, standsAt_active hga, WithBot.coe_inj,
    key_eq_iff (hS.spelled f hf htwins.2.active) (hS.spelled g hg hga)]
  exact ⟨htwins.2.dir.trans htwins.2.dotDir.symm, htwins.2.place⟩

/-- At one place, a twin of an entry is a twin of one of two neighbours between them. -/
theorem Twins.split (hh : h ∈ S) (htwins : Twins v29 f h) (hrank : standsAt v29 f = standsAt v29 g) :
    Twins v29 f g ∨ Twins v29 g h := by
  have hfh := standsAt_of_twins hS hf hh htwins
  obtain ⟨rfl, htwins⟩ := htwins
  have hga : g.isActive = true := by
    by_contra hga
    rw [standsAt_active htwins.active, standsAt_removed (by simpa using hga)] at hrank
    exact WithBot.coe_ne_bot hrank
  have hha : h.isActive = true := decide_eq_true (by rw [htwins.dot]; exact List.cons_ne_nil _ _)
  have hgs := hS.spelled g hg hga
  rw [standsAt_active htwins.active, standsAt_active hga, WithBot.coe_inj,
    key_eq_iff (hS.spelled f hf htwins.active) hgs] at hrank
  have hgdir : g.isDir = true := hrank.1.symm.trans htwins.dir
  have hgh : g.place = h.place := hrank.2.symm.trans htwins.place
  by_cases hshares : Shares g h
  · -- `g` has the dirname of `h`, so it is the same "."
    left
    have hbytes := dirBytes_of_shares hshares (hS.shared g hg h hh)
    have hdot : g.basename = [dotChar] := by
      by_contra hdot
      rw [ListFile.place, ListFile.place, if_pos hgdir, if_pos htwins.dotDir, if_neg hdot, if_pos htwins.dot,
        path_eq, hbytes, List.append_assoc, List.append_right_eq_self] at hgh
      exact List.append_ne_nil_of_right_ne_nil _ (List.cons_ne_nil _ _) hgh
    refine ⟨rfl, fun hfg => htwins.apart (hfg.trans hshares), htwins.active, htwins.dir, ?_, hgdir, hdot,
      hrank.2⟩
    intro hnone
    rw [Shares, hnone, Option.map_none, eq_comm, Option.map_eq_none_iff] at hshares
    exact htwins.dirname hshares
  · exact .inr ⟨rfl, hshares, hga, hgdir, htwins.dirname, htwins.dotDir, htwins.dot, hgh⟩

end Ranks

section Sorting

variable {fp : List ℕ} (hS : Legible (pointedAt files fp))
include hS

theorem cmpAt_orders : Orders (cmpAt v29 files) {p | p ∈ fp} fun p => standsAt v29 (files p) := by
  intro p hp q hq d hd
  rcases fNameCmp?_standsAt hS ⟨p, hp, rfl⟩ ⟨q, hq, rfl⟩ v29 with ⟨hnone, -⟩ | ⟨-, e, he, hle, -⟩
  · cases hnone.symm.trans hd
  · cases he.symm.trans hd
    exact hle

theorem cmpAt_eq_none {p q : ℕ} (hp : p ∈ fp) (hq : q ∈ fp) :
    cmpAt v29 files p q = none ↔ Twins v29 (files p) (files q) := by
  rcases fNameCmp?_standsAt hS ⟨p, hp, rfl⟩ ⟨q, hq, rfl⟩ v29 with ⟨hnone, htwins⟩ | ⟨hno, e, he, -⟩
  · exact iff_of_true hnone htwins
  · exact iff_of_false (by rw [cmpAt, he]; exact Option.some_ne_none e) hno

/-- **A sort that ends has compared its way through every place.** -/
theorem no_twins {out : List ℕ} (h : SortOf (cmpAt v29 files) (fun p => standsAt v29 (files p)) fp out) :
    fp.Pairwise fun p q => ¬Twins v29 (files p) (files q) := by
  have hclass := h.class_pairwise (R := fun p q => ¬Twins v29 (files p) (files q))
    (fun p hp q hq hcmp => mt (cmpAt_eq_none hS hp hq).2 hcmp)
    (fun p hp q hq r hr hpq hqr hleft hright htwins =>
      (Twins.split hS ⟨p, hp, rfl⟩ ⟨q, hq, rfl⟩ ⟨r, hr, rfl⟩ htwins hpq).elim hleft hright)
  refine hclass.imp_of_mem fun hp hq hno htwins => ?_
  exact hno (standsAt_of_twins hS ⟨_, hp, rfl⟩ ⟨_, hq, rfl⟩ htwins) htwins

/-- Entries that are equal to the first of them stand where it does. -/
theorem standsAt_of_equal {p : ℕ} {l : List ℕ} (hl : ∀ q ∈ p :: l, q ∈ fp)
    (heq : (p :: l).Pairwise fun q r => cmpAt v29 files q r = some 0) :
    ∀ q ∈ p :: l, standsAt v29 (files q) = standsAt v29 (files p) := by
  intro q hq
  rcases List.mem_cons.1 hq with rfl | hq
  · rfl
  · have hzero := List.rel_of_pairwise_cons heq hq
    rcases fNameCmp?_standsAt hS ⟨p, hl p List.mem_cons_self, rfl⟩
      ⟨q, hl q (List.mem_cons_of_mem p hq), rfl⟩ v29 with ⟨hnone, -⟩ | ⟨-, e, he, -, hz⟩
    · cases hnone.symm.trans hzero
    · cases he.symm.trans hzero
      exact (hz.1 rfl).symm

end Sorting

end Files

end CloudEdgeBackup
