/-
  Zero-extended strings: finite strings over a type with a zero, read as if
  they went on with zeros for ever.  This is how a file is seen through `read`
  with a zero-filled buffer, `ftruncate` and a seek past the end.

  * `zget l i` is the entry at `i`, zero past the end;
  * `zslice l o n` are the `n` entries from `o` on, `zresize l n` is the string
    cut or zero-extended to length `n`;
  * `overwrite l p b` writes `b` at position `p`;
  * two strings of one length are equal iff `zget` agrees below it (`ext_zget`),
    which is how every equality of file contents below is proved;
  * `leadZeros`, `trailZeros` measure the runs of zeros at the two ends.
-/
import Mathlib

namespace Zext

variable {α : Type*} [Zero α]

/-! ## Reading past the end -/

/-- The entry at `i`, zero past the end. -/
def zget (l : List α) (i : ℕ) : α := l.getD i 0

/-- The `n` entries from `o` on, zeros past the end. -/
def zslice (l : List α) (o n : ℕ) : List α := (List.range n).map fun j => zget l (o + j)

/-- The string cut or zero-extended to length `n`. -/
def zresize (l : List α) (n : ℕ) : List α := zslice l 0 n

/-- `b` written at position `p`; a gap before it is filled with zeros. -/
def overwrite (l : List α) (p : ℕ) (b : List α) : List α :=
  zresize l p ++ b ++ l.drop (p + b.length)

@[simp] theorem zget_nil (i : ℕ) : zget ([] : List α) i = 0 := by simp [zget]

theorem zget_of_lt {l : List α} {i : ℕ} (h : i < l.length) : zget l i = l[i] :=
  List.getD_eq_getElem _ _ h

theorem zget_of_le {l : List α} {i : ℕ} (h : l.length ≤ i) : zget l i = 0 :=
  List.getD_eq_default _ _ h

theorem zget_append (a b : List α) (i : ℕ) :
    zget (a ++ b) i = if i < a.length then zget a i else zget b (i - a.length) := by
  split_ifs with h
  · simp [zget, List.getElem?_append_left h]
  · simp [zget, List.getElem?_append_right (not_lt.1 h)]

theorem zget_append_left {a b : List α} {i : ℕ} (h : i < a.length) :
    zget (a ++ b) i = zget a i := by
  rw [zget_append, if_pos h]

theorem zget_append_right {a b : List α} {i : ℕ} (h : a.length ≤ i) :
    zget (a ++ b) i = zget b (i - a.length) := by
  rw [zget_append, if_neg (not_lt.2 h)]

@[simp] theorem zget_replicate (n i : ℕ) : zget (List.replicate n (0 : α)) i = 0 := by
  rcases lt_or_ge i n with h | h
  · rw [zget_of_lt (by simpa using h)]; simp
  · exact zget_of_le (by simpa using h)

@[simp] theorem zget_drop (l : List α) (o i : ℕ) : zget (l.drop o) i = zget l (o + i) := by
  simp [zget]

theorem zget_take {l : List α} {n i : ℕ} (h : i < n) : zget (l.take n) i = zget l i := by
  simp [zget, h]

/-- **Extensionality.** Strings of one length with the same entries are equal. -/
theorem ext_zget {a b : List α} (hl : a.length = b.length)
    (h : ∀ i < a.length, zget a i = zget b i) : a = b := by
  refine List.ext_getElem hl fun i h₁ h₂ => ?_
  have := h i h₁
  rwa [zget_of_lt h₁, zget_of_lt h₂] at this

/-! ## Slices -/

@[simp] theorem zslice_length (l : List α) (o n : ℕ) : (zslice l o n).length = n := by
  simp [zslice]

@[simp] theorem zslice_zero (l : List α) (o : ℕ) : zslice l o 0 = [] := by simp [zslice]

theorem zget_zslice {l : List α} {o n i : ℕ} (h : i < n) : zget (zslice l o n) i = zget l (o + i) := by
  rw [zget_of_lt (by simpa using h)]; simp [zslice]

theorem zslice_congr {a b : List α} {o o' n : ℕ}
    (h : ∀ j < n, zget a (o + j) = zget b (o' + j)) : zslice a o n = zslice b o' n := by
  refine List.map_congr_left fun j hj => h j (by simpa using hj)

/-- A string of length `n` that reads like `l` from `o` on is that slice. -/
theorem eq_zslice {a l : List α} {o n : ℕ} (hl : a.length = n)
    (h : ∀ j < n, zget a j = zget l (o + j)) : a = zslice l o n := by
  refine ext_zget (by simp [hl]) fun i hi => ?_
  rw [hl] at hi
  rw [h i hi, zget_zslice hi]

theorem zslice_add (l : List α) (o m n : ℕ) :
    zslice l o (m + n) = zslice l o m ++ zslice l (o + m) n := by
  refine ext_zget (by simp) fun i hi => ?_
  rw [zslice_length] at hi
  rw [zget_zslice hi, zget_append, zslice_length]
  split_ifs with h
  · rw [zget_zslice h]
  · rw [zget_zslice (by omega)]; congr 1; omega

/-- Inside the string a slice is a slice. -/
theorem zslice_eq_take {l : List α} {o n : ℕ} (h : o + n ≤ l.length) :
    zslice l o n = (l.drop o).take n := by
  refine (eq_zslice (by simp; omega) fun j hj => ?_).symm
  rw [zget_take hj, zget_drop]

@[simp] theorem zslice_self (l : List α) : zslice l 0 l.length = l := by
  rw [zslice_eq_take (by simp)]; simp

@[simp] theorem zresize_length (l : List α) (n : ℕ) : (zresize l n).length = n := by
  simp [zresize]

@[simp] theorem zresize_self (l : List α) : zresize l l.length = l := zslice_self l

theorem zget_zresize {l : List α} {n i : ℕ} (h : i < n) : zget (zresize l n) i = zget l i := by
  rw [zresize, zget_zslice h, Nat.zero_add]

@[simp] theorem zresize_nil (n : ℕ) : zresize ([] : List α) n = List.replicate n 0 := by
  refine ext_zget (by simp) fun i hi => ?_
  rw [zget_zresize (by simpa using hi)]; simp

/-! ## Overwriting -/

theorem overwrite_length (l : List α) (p : ℕ) (b : List α) :
    (overwrite l p b).length = max l.length (p + b.length) := by
  simp [overwrite]; omega

theorem zget_overwrite (l : List α) (p : ℕ) (b : List α) (x : ℕ) :
    zget (overwrite l p b) x =
      if p ≤ x ∧ x < p + b.length then zget b (x - p) else zget l x := by
  rw [overwrite, List.append_assoc, zget_append, zresize_length]
  split_ifs with h₁ h₂ h₂
  · omega
  · exact zget_zresize h₁
  · rw [zget_append_left (by omega)]
  · rw [zget_append_right (by omega), zget_drop]; congr 1; omega

/-! ## Runs of zeros at the ends -/

variable [DecidableEq α]

/-- The number of zeros the string starts with. -/
def leadZeros (l : List α) : ℕ := (l.takeWhile (· = 0)).length

/-- The number of zeros the string ends with. -/
def trailZeros (l : List α) : ℕ := leadZeros l.reverse

theorem leadZeros_le (l : List α) : leadZeros l ≤ l.length := (List.takeWhile_prefix _).length_le

theorem trailZeros_le (l : List α) : trailZeros l ≤ l.length := by
  simpa [trailZeros] using leadZeros_le l.reverse

theorem zget_of_lt_leadZeros : ∀ {l : List α} {i : ℕ}, i < leadZeros l → zget l i = 0
  | [], _, _ => by simp
  | a :: l, i, h => by
    by_cases ha : a = 0
    · cases i with
      | zero => simp [zget, ha]
      | succ i =>
        have : i < leadZeros l := by simpa [leadZeros, ha] using h
        simpa [zget] using zget_of_lt_leadZeros this
    · simp [leadZeros, ha] at h

theorem zget_leadZeros_ne : ∀ {l : List α}, leadZeros l < l.length → zget l (leadZeros l) ≠ 0
  | [], h => by simp at h
  | a :: l, h => by
    by_cases ha : a = 0
    · have hl : leadZeros (a :: l) = leadZeros l + 1 := by simp [leadZeros, ha]
      rw [hl] at h ⊢
      simpa [zget] using zget_leadZeros_ne (l := l) (by simpa using h)
    · have hl : leadZeros (a :: l) = 0 := by simp [leadZeros, ha]
      rw [hl]; simpa [zget] using ha

omit [DecidableEq α] in
theorem zget_reverse {l : List α} {i : ℕ} (h : i < l.length) :
    zget l.reverse i = zget l (l.length - 1 - i) := by
  rw [zget_of_lt (by simpa using h), zget_of_lt (by omega)]; simp

theorem zget_of_trailZeros {l : List α} {i : ℕ} (h : l.length - trailZeros l ≤ i) :
    zget l i = 0 := by
  rcases lt_or_ge i l.length with hi | hi
  · have h' : l.length - 1 - i < leadZeros l.reverse := by
      have := trailZeros_le l
      have : trailZeros l = leadZeros l.reverse := rfl
      omega
    have := zget_of_lt_leadZeros h'
    rw [zget_reverse (by omega)] at this
    rwa [show l.length - 1 - (l.length - 1 - i) = i by omega] at this
  · exact zget_of_le hi

theorem zget_trailZeros_ne {l : List α} (h : trailZeros l < l.length) :
    zget l (l.length - trailZeros l - 1) ≠ 0 := by
  have h' : leadZeros l.reverse < l.reverse.length := by simpa [trailZeros] using h
  have := zget_leadZeros_ne h'
  rw [zget_reverse (by simpa using h')] at this
  rwa [show l.length - trailZeros l - 1 = l.length - 1 - leadZeros l.reverse by
    simp only [trailZeros]; omega]

theorem leadZeros_append_of_lt {a : List α} (h : leadZeros a < a.length) (b : List α) :
    leadZeros (a ++ b) = leadZeros a := by
  have : (a.takeWhile (· = 0)).length ≠ a.length := h.ne
  simp [leadZeros, List.takeWhile_append, this]

theorem leadZeros_append_of_eq {a : List α} (h : leadZeros a = a.length) (b : List α) :
    leadZeros (a ++ b) = a.length + leadZeros b := by
  have : (a.takeWhile (· = 0)).length = a.length := h
  simp [leadZeros, List.takeWhile_append, this]

theorem leadZeros_eq_length {a : List α} (h : ∀ i, zget a i = 0) : leadZeros a = a.length := by
  rcases (leadZeros_le a).lt_or_eq with hlt | heq
  · exact absurd (h _) (zget_leadZeros_ne hlt)
  · exact heq

theorem leadZeros_le_append (a b : List α) : leadZeros a ≤ leadZeros (a ++ b) := by
  rcases (leadZeros_le a).lt_or_eq with h | h
  · exact (leadZeros_append_of_lt h b).ge
  · rw [leadZeros_append_of_eq h, h]; omega

theorem leadZeros_take_leadZeros (a : List α) :
    leadZeros (a.take (leadZeros a)) = (a.take (leadZeros a)).length := by
  refine leadZeros_eq_length fun i => ?_
  rcases lt_or_ge i (leadZeros a) with h | h
  · rw [zget_take h]; exact zget_of_lt_leadZeros h
  · exact zget_of_le ((List.length_take_le _ _).trans h)

theorem leadZeros_lt_length {a : List α} {i : ℕ} (h : zget a i ≠ 0) :
    leadZeros a ≤ i ∧ i < a.length := by
  constructor
  · exact not_lt.1 fun hi => h (zget_of_lt_leadZeros hi)
  · exact not_le.1 fun hi => h (zget_of_le hi)

/-- The run of zeros at the start is fixed by the entries. -/
theorem leadZeros_eq {l : List α} {n : ℕ} (h₀ : ∀ i < n, zget l i = 0)
    (h₁ : n < l.length → zget l n ≠ 0) (hn : n ≤ l.length) : leadZeros l = n := by
  rcases lt_trichotomy (leadZeros l) n with h | h | h
  · exact absurd (h₀ _ h) (zget_leadZeros_ne (by omega))
  · exact h
  · exact absurd (zget_of_lt_leadZeros h) (h₁ (lt_of_lt_of_le h (leadZeros_le l)))

/-- The run of zeros at the end is fixed by the entries. -/
theorem trailZeros_eq {l : List α} {n : ℕ} (h₀ : ∀ i, l.length - n ≤ i → zget l i = 0)
    (h₁ : n < l.length → zget l (l.length - n - 1) ≠ 0) (hn : n ≤ l.length) : trailZeros l = n := by
  rcases lt_trichotomy (trailZeros l) n with h | h | h
  · exact absurd (h₀ _ (by omega)) (zget_trailZeros_ne (by omega))
  · exact h
  · exact absurd (zget_of_trailZeros (by omega)) (h₁ (lt_of_lt_of_le h (trailZeros_le l)))

end Zext
