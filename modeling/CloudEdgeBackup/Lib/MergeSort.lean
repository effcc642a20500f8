/-
  Merge sort with a comparison that may fail.

  * `cmp a b` is the difference of `a` and `b`, or none; `merge?` takes the first of two
    lists where the difference is not positive, and so does the sort `sortBy?`, which asks
    for an earlier element against a later one only (`sortBy?_isSome`);
  * `Orders` is what makes a comparison one by keys: then the result is a permutation
    (`sortBy?_perm`), its keys ascend (`sortBy?_sorted`), the elements of one key stay as
    they were (`sortBy?_stable`), and two neighbours were compared, or their keys differ
    (`sortBy?_compared`).
-/
import Mathlib

namespace MergeSort

variable {α κ : Type*} (cmp : α → α → Option ℤ)

/-- Of two elements that come out equal the first list's is taken first. -/
def merge? : List α → List α → Option (List α)
  | [], ys => some ys
  | xs, [] => some xs
  | x :: xs, y :: ys =>
    match cmp x y with
    | none => none
    | some d =>
      if d ≤ 0 then (merge? xs (y :: ys)).map (x :: ·)
      else (merge? (x :: xs) ys).map (y :: ·)
termination_by xs ys => xs.length + ys.length

/-- The halves are sorted and merged; `n` bounds the halvings. -/
def sortBy? : ℕ → List α → Option (List α)
  | 0, l => some l
  | n + 1, l =>
    if l.length ≤ 1 then some l
    else match sortBy? n (l.take (l.length / 2)), sortBy? n (l.drop (l.length / 2)) with
      | some xs, some ys => merge? cmp xs ys
      | _, _ => none

variable {cmp}

@[simp] theorem merge?_nil_left (ys : List α) : merge? cmp [] ys = some ys := by
  rw [merge?]

@[simp] theorem merge?_nil_right (xs : List α) : merge? cmp xs [] = some xs := by
  cases xs <;> rw [merge?]
  exact List.cons_ne_nil _ _

/-! ## Every element comes out once -/

theorem merge?_perm {xs ys l : List α} (h : merge? cmp xs ys = some l) : l.Perm (xs ++ ys) := by
  induction xs, ys using merge?.induct cmp generalizing l with
  | case1 ys =>
    cases h.symm.trans (merge?_nil_left ys)
    exact .refl _
  | case2 xs =>
    cases h.symm.trans (merge?_nil_right xs)
    rw [List.append_nil]
  | case3 x xs y ys hcmp =>
    simp [merge?, hcmp] at h
  | case4 x xs y ys d hcmp hd ih =>
    simp only [merge?, hcmp, if_pos hd, Option.map_eq_some_iff] at h
    obtain ⟨l', hl', rfl⟩ := h
    exact (ih hl').cons x
  | case5 x xs y ys d hcmp hd ih =>
    simp only [merge?, hcmp, if_neg hd, Option.map_eq_some_iff] at h
    obtain ⟨l', hl', rfl⟩ := h
    exact ((ih hl').cons y).trans List.perm_middle.symm

theorem sortBy?_cases {n : ℕ} {l out : List α} (h : sortBy? cmp (n + 1) l = some out) :
    (l.length ≤ 1 ∧ out = l) ∨ (¬l.length ≤ 1 ∧ ∃ xs ys,
      sortBy? cmp n (l.take (l.length / 2)) = some xs ∧ sortBy? cmp n (l.drop (l.length / 2)) = some ys ∧
        merge? cmp xs ys = some out) := by
  rw [sortBy?] at h
  by_cases hlen : l.length ≤ 1
  · rw [if_pos hlen, Option.some.injEq] at h
    exact .inl ⟨hlen, h.symm⟩
  · rw [if_neg hlen] at h
    cases hx : sortBy? cmp n (l.take (l.length / 2)) with
    | none => simp [hx] at h
    | some xs =>
      cases hy : sortBy? cmp n (l.drop (l.length / 2)) with
      | none => simp [hx, hy] at h
      | some ys => exact .inr ⟨hlen, xs, ys, rfl, rfl, by simpa [hx, hy] using h⟩

theorem sortBy?_perm {n : ℕ} {l out : List α} (h : sortBy? cmp n l = some out) : out.Perm l := by
  induction n generalizing l out with
  | zero =>
    cases h
    exact .refl _
  | succ n ih =>
    obtain ⟨-, rfl⟩ | ⟨-, xs, ys, hx, hy, hm⟩ := sortBy?_cases h
    · exact .refl _
    · have hxy := (ih hx).append (ih hy)
      rw [List.take_append_drop] at hxy
      exact (merge?_perm hm).trans hxy

/-! ## Nothing fails -/

theorem merge?_isSome {xs ys : List α} (h : ∀ x ∈ xs, ∀ y ∈ ys, cmp x y ≠ none) :
    ∃ l, merge? cmp xs ys = some l := by
  induction xs, ys using merge?.induct cmp with
  | case1 ys => exact ⟨ys, merge?_nil_left ys⟩
  | case2 xs => exact ⟨xs, merge?_nil_right xs⟩
  | case3 x xs y ys hcmp => exact absurd hcmp (h x List.mem_cons_self y List.mem_cons_self)
  | case4 x xs y ys d hcmp hd ih =>
    obtain ⟨l, hl⟩ := ih fun a ha => h a (List.mem_cons_of_mem x ha)
    exact ⟨x :: l, by simp [merge?, hcmp, hd, hl]⟩
  | case5 x xs y ys d hcmp hd ih =>
    obtain ⟨l, hl⟩ := ih fun a ha b hb => h a ha b (List.mem_cons_of_mem y hb)
    exact ⟨y :: l, by simp [merge?, hcmp, hd, hl]⟩

/-- **It is enough that an earlier element can be compared with a later one.** -/
theorem sortBy?_isSome {l : List α} (h : l.Pairwise fun a b => cmp a b ≠ none) (n : ℕ) :
    ∃ out, sortBy? cmp n l = some out := by
  induction n generalizing l with
  | zero => exact ⟨l, rfl⟩
  | succ n ih =>
    rw [sortBy?]
    by_cases hlen : l.length ≤ 1
    · exact ⟨l, if_pos hlen⟩
    rw [← List.take_append_drop (l.length / 2) l, List.pairwise_append] at h
    obtain ⟨hleft, hright, hcross⟩ := h
    obtain ⟨xs, hx⟩ := ih hleft
    obtain ⟨ys, hy⟩ := ih hright
    obtain ⟨out, hout⟩ := @merge?_isSome _ cmp _ _ fun x hx' y hy' =>
      hcross x ((sortBy?_perm hx).mem_iff.1 hx') y ((sortBy?_perm hy).mem_iff.1 hy')
    exact ⟨out, by rw [if_neg hlen, hx, hy, ← hout]⟩

/-! ## Comparisons by a key -/

variable [LinearOrder κ] {S : Set α} {key : α → κ}

/-- Where the comparison of elements of `S` succeeds it is the one of their keys. -/
def Orders (cmp : α → α → Option ℤ) (S : Set α) (key : α → κ) : Prop :=
  ∀ x ∈ S, ∀ y ∈ S, ∀ d, cmp x y = some d → (d ≤ 0 ↔ key x ≤ key y)

/-- Neighbours that were compared, or whose keys differ. -/
def Compared (cmp : α → α → Option ℤ) (key : α → κ) (x y : α) : Prop := cmp x y ≠ none ∨ key x < key y

section Merge

variable (hS : Orders cmp S key) {xs ys l : List α} (hxs : ∀ x ∈ xs, x ∈ S) (hys : ∀ y ∈ ys, y ∈ S)
include hS hxs hys

theorem merge?_sorted (hx : xs.Pairwise (key · ≤ key ·)) (hy : ys.Pairwise (key · ≤ key ·))
    (h : merge? cmp xs ys = some l) : l.Pairwise (key · ≤ key ·) := by
  induction xs, ys using merge?.induct cmp generalizing l with
  | case1 ys =>
    cases h.symm.trans (merge?_nil_left ys)
    exact hy
  | case2 xs =>
    cases h.symm.trans (merge?_nil_right xs)
    exact hx
  | case3 x xs y ys hcmp =>
    simp [merge?, hcmp] at h
  | case4 x xs y ys d hcmp hd ih =>
    simp only [merge?, hcmp, if_pos hd, Option.map_eq_some_iff] at h
    obtain ⟨l', hl', rfl⟩ := h
    have hle : key x ≤ key y := (hS x (hxs x List.mem_cons_self) y (hys y List.mem_cons_self) d hcmp).1 hd
    have hrest := ih (fun a ha => hxs a (List.mem_cons_of_mem x ha)) hys hx.of_cons hy hl'
    refine List.pairwise_cons.2 ⟨fun z hz => ?_, hrest⟩
    rcases List.mem_append.1 ((merge?_perm hl').mem_iff.1 hz) with hz | hz
    · exact List.rel_of_pairwise_cons hx hz
    · rcases List.mem_cons.1 hz with rfl | hz
      · exact hle
      · exact hle.trans (List.rel_of_pairwise_cons hy hz)
  | case5 x xs y ys d hcmp hd ih =>
    simp only [merge?, hcmp, if_neg hd, Option.map_eq_some_iff] at h
    obtain ⟨l', hl', rfl⟩ := h
    have hlt : key y < key x := by
      rw [← not_le, ← hS x (hxs x List.mem_cons_self) y (hys y List.mem_cons_self) d hcmp]
      exact hd
    have hrest := ih hxs (fun b hb => hys b (List.mem_cons_of_mem y hb)) hx hy.of_cons hl'
    refine List.pairwise_cons.2 ⟨fun z hz => ?_, hrest⟩
    rcases List.mem_append.1 ((merge?_perm hl').mem_iff.1 hz) with hz | hz
    · rcases List.mem_cons.1 hz with rfl | hz
      · exact hlt.le
      · exact hlt.le.trans (List.rel_of_pairwise_cons hx hz)
    · exact List.rel_of_pairwise_cons hy hz

/-- The elements of one key keep their order, the first list's before the second's. -/
theorem merge?_stable (hx : xs.Pairwise (key · ≤ key ·)) (h : merge? cmp xs ys = some l) (k : κ) :
    l.filter (key · = k) = xs.filter (key · = k) ++ ys.filter (key · = k) := by
  induction xs, ys using merge?.induct cmp generalizing l with
  | case1 ys =>
    cases h.symm.trans (merge?_nil_left ys)
    rfl
  | case2 xs =>
    cases h.symm.trans (merge?_nil_right xs)
    rw [List.filter_nil, List.append_nil]
  | case3 x xs y ys hcmp =>
    simp [merge?, hcmp] at h
  | case4 x xs y ys d hcmp hd ih =>
    simp only [merge?, hcmp, if_pos hd, Option.map_eq_some_iff] at h
    obtain ⟨l', hl', rfl⟩ := h
    have hrest := ih (fun a ha => hxs a (List.mem_cons_of_mem x ha)) hys hx.of_cons hl'
    rw [List.filter_cons, hrest, @List.filter_cons _ x]
    split_ifs <;> rfl
  | case5 x xs y ys d hcmp hd ih =>
    simp only [merge?, hcmp, if_neg hd, Option.map_eq_some_iff] at h
    obtain ⟨l', hl', rfl⟩ := h
    have hlt : key y < key x := by
      rw [← not_le, ← hS x (hxs x List.mem_cons_self) y (hys y List.mem_cons_self) d hcmp]
      exact hd
    have hrest := ih hxs (fun b hb => hys b (List.mem_cons_of_mem y hb)) hx hl'
    rw [List.filter_cons, hrest, @List.filter_cons _ y]
    split_ifs with hk
    · -- the first list is beyond the key of `y`
      have hnone : (x :: xs).filter (key · = k) = [] := by
        rw [List.filter_eq_nil_iff]
        intro a ha hak
        rw [decide_eq_true_eq] at hk hak
        have hxa : key x ≤ key a := by
          rcases List.mem_cons.1 ha with rfl | ha
          · exact le_rfl
          · exact List.rel_of_pairwise_cons hx ha
        exact (hlt.trans_le hxa).ne (hk.trans hak.symm)
      rw [hnone]
      rfl
    · rfl

/-- Behind an element `w` that both lists may follow. -/
theorem merge?_compared_after {w : α} (hx : (w :: xs).IsChain (Compared cmp key))
    (hy : (w :: ys).IsChain (Compared cmp key)) (h : merge? cmp xs ys = some l) : (w :: l).IsChain (Compared cmp key) := by
  induction xs, ys using merge?.induct cmp generalizing w l with
  | case1 ys =>
    cases h.symm.trans (merge?_nil_left ys)
    exact hy
  | case2 xs =>
    cases h.symm.trans (merge?_nil_right xs)
    exact hx
  | case3 x xs y ys hcmp =>
    simp [merge?, hcmp] at h
  | case4 x xs y ys d hcmp hd ih =>
    simp only [merge?, hcmp, if_pos hd, Option.map_eq_some_iff] at h
    obtain ⟨l', hl', rfl⟩ := h
    have hxy : Compared cmp key x y := .inl (by rw [hcmp]; exact Option.some_ne_none d)
    rw [List.isChain_cons_cons] at hx hy ⊢
    exact ⟨hx.1, ih (fun a ha => hxs a (List.mem_cons_of_mem x ha)) hys hx.2
      (List.isChain_cons_cons.2 ⟨hxy, hy.2⟩) hl'⟩
  | case5 x xs y ys d hcmp hd ih =>
    simp only [merge?, hcmp, if_neg hd, Option.map_eq_some_iff] at h
    obtain ⟨l', hl', rfl⟩ := h
    have hyx : Compared cmp key y x := by
      right
      rw [← not_le, ← hS x (hxs x List.mem_cons_self) y (hys y List.mem_cons_self) d hcmp]
      exact hd
    rw [List.isChain_cons_cons] at hx hy ⊢
    exact ⟨hy.1, ih hxs (fun b hb => hys b (List.mem_cons_of_mem y hb))
      (List.isChain_cons_cons.2 ⟨hyx, hx.2⟩) hy.2 hl'⟩

theorem merge?_compared (hx : xs.IsChain (Compared cmp key)) (hy : ys.IsChain (Compared cmp key))
    (h : merge? cmp xs ys = some l) : l.IsChain (Compared cmp key) := by
  cases xs with
  | nil =>
    cases h.symm.trans (merge?_nil_left ys)
    exact hy
  | cons x xs =>
    cases ys with
    | nil =>
      cases h.symm.trans (merge?_nil_right (x :: xs))
      exact hx
    | cons y ys =>
      cases hcmp : cmp x y with
      | none => simp [merge?, hcmp] at h
      | some d =>
        have hle := hS x (hxs x List.mem_cons_self) y (hys y List.mem_cons_self) d hcmp
        by_cases hd : d ≤ 0
        · simp only [merge?, hcmp, if_pos hd, Option.map_eq_some_iff] at h
          obtain ⟨l', hl', rfl⟩ := h
          have hxy : Compared cmp key x y := .inl (by rw [hcmp]; exact Option.some_ne_none d)
          exact merge?_compared_after hS (fun a ha => hxs a (List.mem_cons_of_mem x ha)) hys hx
            (List.isChain_cons_cons.2 ⟨hxy, hy⟩) hl'
        · simp only [merge?, hcmp, if_neg hd, Option.map_eq_some_iff] at h
          obtain ⟨l', hl', rfl⟩ := h
          have hyx : Compared cmp key y x := .inr (not_le.1 (mt hle.2 hd))
          exact merge?_compared_after hS hxs (fun b hb => hys b (List.mem_cons_of_mem y hb))
            (List.isChain_cons_cons.2 ⟨hyx, hx⟩) hy hl'

end Merge

/-! ## The sort -/

/-- What the sort leaves of `l`. -/
structure SortOf (cmp : α → α → Option ℤ) (key : α → κ) (l out : List α) : Prop where
  sorted : out.Pairwise (key · ≤ key ·)
  stable : ∀ k, out.filter (key · = k) = l.filter (key · = k)
  compared : out.IsChain (Compared cmp key)

theorem sortOf_of_length_le {l : List α} (hlen : l.length ≤ 1) : SortOf cmp key l l := by
  rcases Nat.le_one_iff_eq_zero_or_eq_one.1 hlen with h0 | h1
  · rw [List.length_eq_zero_iff.1 h0]
    exact ⟨.nil, fun _ => rfl, .nil⟩
  · obtain ⟨x, rfl⟩ := List.length_eq_one_iff.1 h1
    exact ⟨List.pairwise_singleton _ x, fun _ => rfl, .singleton x⟩

theorem sortBy?_spec (hS : Orders cmp S key) {n : ℕ} {l out : List α} (hl : ∀ x ∈ l, x ∈ S)
    (hn : l.length ≤ n) (h : sortBy? cmp n l = some out) : SortOf cmp key l out := by
  induction n generalizing l out with
  | zero =>
    cases h
    exact sortOf_of_length_le (hn.trans zero_le_one)
  | succ n ih =>
    obtain ⟨hlen, rfl⟩ | ⟨hlen, xs, ys, hx, hy, hm⟩ := sortBy?_cases h
    · exact sortOf_of_length_le hlen
    have hxl : ∀ x ∈ l.take (l.length / 2), x ∈ S := fun x hx' => hl x (List.mem_of_mem_take hx')
    have hyl : ∀ y ∈ l.drop (l.length / 2), y ∈ S := fun y hy' => hl y (List.mem_of_mem_drop hy')
    have hxs : ∀ x ∈ xs, x ∈ S := fun x hx' => hxl x ((sortBy?_perm hx).mem_iff.1 hx')
    have hys : ∀ y ∈ ys, y ∈ S := fun y hy' => hyl y ((sortBy?_perm hy).mem_iff.1 hy')
    have hleft := ih hxl (by rw [List.length_take]; omega) hx
    have hright := ih hyl (by rw [List.length_drop]; omega) hy
    constructor
    case sorted => exact merge?_sorted hS hxs hys hleft.sorted hright.sorted hm
    case stable =>
      intro k
      rw [merge?_stable hS hxs hys hleft.sorted hm, hleft.stable, hright.stable, ← List.filter_append,
        List.take_append_drop]
    case compared => exact merge?_compared hS hxs hys hleft.compared hright.compared hm

namespace SortOf

variable {l out : List α}

/-- In the sorted list the elements of one key are neighbours. -/
theorem isChain_filter {R : α → α → Prop} {l : List α} (hl : l.Pairwise (key · ≤ key ·)) (hR : l.IsChain R) (k : κ) :
    (l.filter (key · = k)).IsChain fun x y => key x = k ∧ key y = k ∧ R x y := by
  induction l with
  | nil => exact .nil
  | cons a l ih =>
    have hrest := ih hl.of_cons hR.tail
    rw [List.filter_cons]
    split_ifs with ha
    · rw [decide_eq_true_eq] at ha
      cases l with
      | nil => exact .singleton a
      | cons b l =>
        rw [List.filter_cons] at hrest ⊢
        split_ifs at hrest ⊢ with hb
        · exact List.isChain_cons_cons.2 ⟨⟨ha, of_decide_eq_true hb, (List.isChain_cons_cons.1 hR).1⟩, hrest⟩
        · -- nothing behind `b` has the key of `a`
          have hab : key a ≤ key b := List.rel_of_pairwise_cons hl List.mem_cons_self
          have hnone : l.filter (key · = k) = [] := by
            rw [List.filter_eq_nil_iff]
            intro c hc hck
            rw [decide_eq_true_eq] at hb hck
            have hbc : key b ≤ key c := List.rel_of_pairwise_cons hl.of_cons hc
            exact hb (le_antisymm (hbc.trans_eq hck) (ha ▸ hab))
          rw [hnone]
          exact .singleton a
    · exact hrest

/-- **The elements of one key were compared in turn.** -/
theorem class_compared (h : SortOf cmp key l out) (k : κ) :
    (l.filter (key · = k)).IsChain fun x y => key x = k ∧ key y = k ∧ cmp x y ≠ none := by
  rw [← h.stable k]
  refine (isChain_filter h.sorted h.compared k).imp ?_
  rintro x y ⟨hx, hy, hcmp | hlt⟩
  · exact ⟨hx, hy, hcmp⟩
  · exact absurd (hx.trans hy.symm) hlt.ne

/-- Elements of one key come out in the order they had. -/
theorem sublist (h : SortOf cmp key l out) {c : List α} {k : κ} (hc : ∀ x ∈ c, key x = k) (hsub : c.Sublist l) :
    c.Sublist out := by
  have hcl := hsub.filter (key · = k)
  rw [List.filter_eq_self.2 fun x hx => decide_eq_true (hc x hx), ← h.stable k] at hcl
  exact hcl.trans List.filter_sublist

theorem pair_sublist_filter {x y : α} (hxy : [x, y].Sublist l) (hkey : key x = key y) :
    [x, y].Sublist (l.filter (key · = key x)) := by
  have hin := hxy.filter (key · = key x)
  rwa [List.filter_eq_self.2] at hin
  intro z hz
  rcases List.mem_pair.1 hz with rfl | rfl
  · exact decide_eq_true rfl
  · exact decide_eq_true hkey.symm

/-- What holds within every key holds of the sorted list. -/
theorem pairwise {R : α → α → Prop} (h : SortOf cmp key l out)
    (hclass : l.Pairwise fun x y => key x = key y → R x y) :
    out.Pairwise fun x y => key x = key y → R x y := by
  refine List.pairwise_iff_forall_sublist.2 fun {x y} hxy hkey => ?_
  have hin := pair_sublist_filter hxy hkey
  rw [h.stable] at hin
  exact List.pairwise_iff_forall_sublist.1 hclass (hin.trans List.filter_sublist) hkey

/-- **A transitive relation that holds where two elements of one key were compared holds
    throughout the key.** -/
theorem class_pairwise {R : α → α → Prop} (h : SortOf cmp key l out)
    (hcmp : ∀ x ∈ l, ∀ y ∈ l, cmp x y ≠ none → R x y)
    (htrans : ∀ x ∈ l, ∀ y ∈ l, ∀ z ∈ l, key x = key y → key y = key z → R x y → R y z → R x z) :
    l.Pairwise fun x y => key x = key y → R x y := by
  refine List.pairwise_iff_forall_sublist.2 fun {x y} hxy hkey => ?_
  let R' : α → α → Prop := fun a b => (a ∈ l ∧ b ∈ l) ∧ key a = key b ∧ R a b
  have hR' : Trans R' R' R' := ⟨fun {a b c} hab hbc => ⟨⟨hab.1.1, hbc.1.2⟩, hab.2.1.trans hbc.2.1,
    htrans a hab.1.1 b hab.1.2 c hbc.1.2 hab.2.1 hbc.2.1 hab.2.2 hbc.2.2⟩⟩
  have hchain : (l.filter (key · = key x)).IsChain R' := by
    refine (h.class_compared (key x)).imp_of_mem_imp ?_
    rintro a b ha hb ⟨hka, hkb, hab⟩
    have hal := List.mem_of_mem_filter ha
    have hbl := List.mem_of_mem_filter hb
    exact ⟨⟨hal, hbl⟩, hka.trans hkb.symm, hcmp a hal b hbl hab⟩
  exact (List.pairwise_iff_forall_sublist.1 (List.isChain_iff_pairwise.1 hchain) (pair_sublist_filter hxy hkey)).2.2

end SortOf

end MergeSort
