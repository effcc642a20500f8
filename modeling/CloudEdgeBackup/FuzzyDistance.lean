/-
  The distance of two names in the search for a similar file (`util.c`, `fuzzy_distance`).

  * the function fills one row of the table of the Levenshtein distance after the other, where a
    change costs a `UNIT` and a little more for characters that differ much; an empty string has a
    branch of its own;
  * every value goes through `store` when it is put into a `uint32`: `wrapped` is what the machine
    does, `checked` stops at a value that does not fit;
  * `Cells`: each cell of a row lies between `UNIT` and `UNIT + 255` times the edit distance of the
    two prefixes it stands for. `fuzzyRow_spec` is the step from a row to the next.

  In the branch for an empty string the characters are signed, so that a byte from 128 on is
  subtracted.
-/
import CloudEdgeBackup.Lib.EditDistance
import CloudEdgeBackup.Rsync

namespace CloudEdgeBackup

open EditDistance

/-- `UNIT`: a single change between two strings. -/
abbrev fuzzyUnit : ℤ := 2 ^ 16

/-- The value of a `char`. -/
def charVal (b : UInt8) : ℤ := b.toInt8.toInt

/-- The value of a `uchar`. -/
def ucharVal (b : UInt8) : ℤ := b.toNat

/-- What a `uint32` holds after a number was put into it. -/
def wrapped (x : ℤ) : Option ℤ := some (x % 2 ^ 32)

/-- A `uint32` that takes no number that does not fit. -/
def checked (x : ℤ) : Option ℤ := if 0 ≤ x ∧ x < 2 ^ 32 then some x else none

section Model

variable (store : ℤ → Option ℤ)

/-- The inner loop: the new row of `a`. -/
def fuzzyRow (c1 : UInt8) (diag above : ℤ) : Bytes → List ℤ → Option (List ℤ)
  | c2 :: s2, left :: a => do
    let diff := ucharVal c1 - ucharVal c2
    let cost := if diff = 0 then 0 else if diff < 0 then fuzzyUnit - diff else fuzzyUnit + diff
    let diagInc ← store (diag + cost)
    let leftInc ← store (left + fuzzyUnit + ucharVal c1)
    let aboveInc ← store (above + fuzzyUnit + ucharVal c2)
    let cell := if left < above then (if leftInc < diagInc then leftInc else diagInc)
      else (if aboveInc < diagInc then aboveInc else diagInc)
    let row ← fuzzyRow c1 left cell s2 a
    pure (cell :: row)
  | _, _ => some []

/-- The outer loop. -/
def fuzzyRows (s2 : Bytes) : ℕ → Bytes → List ℤ → Option (List ℤ)
  | _, [], a => some a
  | i1, c1 :: s1, a => do
    let diag ← store (i1 * fuzzyUnit)
    let above ← store ((i1 + 1) * fuzzyUnit)
    let a ← fuzzyRow store c1 diag above s2 a
    fuzzyRows s2 (i1 + 1) s1 a

/-- The first row of `a`, from the index `i2` on. -/
def firstRow : ℕ → Bytes → Option (List ℤ)
  | _, [] => some []
  | i2, _ :: s2 => do
    let cell ← store ((i2 + 1) * fuzzyUnit)
    let row ← firstRow (i2 + 1) s2
    pure (cell :: row)

/-- `fuzzy_distance`. -/
def fuzzyDistance (s1 s2 : Bytes) : Option ℤ :=
  if s1 = [] ∨ s2 = [] then
    let s := if s1 = [] then s2 else s1
    let cost := s.foldl (fun cost c => int32 (cost + charVal c)) 0
    store (int32 (s.length * fuzzyUnit + cost))
  else do
    let a ← firstRow store 0 s2
    let a ← fuzzyRows store s2 0 s1 a
    a.getLast?

end Model

/-! ## The bounds -/

/-- The bounds the edit distance puts on a value. -/
def Near (d : ℤ) (L : ℕ) : Prop := fuzzyUnit * L ≤ d ∧ d ≤ (fuzzyUnit + 255) * L

theorem near_iff {d : ℤ} {L : ℕ} : Near d L ↔ 65536 * L ≤ d ∧ d ≤ 65791 * L := by
  norm_num [Near, fuzzyUnit]

/-- The cells of a row: `u` and `v` are the prefixes before, from their ends. -/
def Cells (u : Bytes) : Bytes → Bytes → List ℤ → Prop
  | _, [], row => row = []
  | v, c :: s, row => ∃ cell rest, row = cell :: rest ∧ Near cell (levenshtein u (c :: v)) ∧ Cells u (c :: v) s rest

/-- The function that stores a value keeps one that fits. -/
def Stores (store : ℤ → Option ℤ) : Prop := ∀ x, 0 ≤ x → x < 2 ^ 32 → store x = some x

theorem stores_wrapped : Stores wrapped := by
  intro x h0 h
  rw [wrapped, Int.emod_eq_of_lt h0 h]

theorem stores_checked : Stores checked := fun _ h0 h => if_pos ⟨h0, h⟩

theorem ucharVal_bounds (c : UInt8) : 0 ≤ ucharVal c ∧ ucharVal c ≤ 255 := by
  have h := c.toNat_lt
  rw [ucharVal]
  omega

theorem ucharVal_inj {c d : UInt8} : ucharVal c - ucharVal d = 0 ↔ c = d := by
  rw [ucharVal, ucharVal, sub_eq_zero, Nat.cast_inj, UInt8.toNat_inj]

/-- The least of the three ways to a cell, or a way as good within the bounds. -/
theorem near_cell {diag left above x y cost : ℤ} {Ld Ll La e : ℕ} (hd : Near diag Ld) (hl : Near left Ll)
    (ha : Near above La) (hx : 0 ≤ x ∧ x ≤ 255) (hy : 0 ≤ y ∧ y ≤ 255)
    (hcost : Near cost e) :
    Near (if left < above then (if left + fuzzyUnit + x < diag + cost then left + fuzzyUnit + x else diag + cost)
      else (if above + fuzzyUnit + y < diag + cost then above + fuzzyUnit + y else diag + cost))
      (min (Ll + 1) (min (La + 1) (Ld + e))) := by
  simp only [near_iff, fuzzyUnit] at *
  split_ifs <;> omega

/-- A value within the bounds of a distance fits, also with the cost of a change. -/
theorem Stores.add {store : ℤ → Option ℤ} (hstore : Stores store) {d x : ℤ} {L : ℕ} (h : Near d L)
    (hL : L ≤ 2 ^ 14) (hx : 0 ≤ x) (hx' : x ≤ fuzzyUnit + 255) : store (d + x) = some (d + x) := by
  rw [near_iff] at h
  rw [fuzzyUnit] at hx'
  exact hstore _ (by omega) (by omega)

/-- The first column and the first row. -/
theorem Stores.unit {store : ℤ → Option ℤ} (hstore : Stores store) {n : ℕ} (h : n ≤ maxPathLen) :
    store (n * fuzzyUnit) = some (n * fuzzyUnit) := by
  have hmax : maxPathLen = 4096 := rfl
  exact hstore _ (by rw [fuzzyUnit]; omega) (by rw [fuzzyUnit]; omega)

theorem near_unit (n : ℕ) : Near (n * fuzzyUnit) n := by
  rw [near_iff, fuzzyUnit]
  omega

/-! ## The table -/

/-- **From a row to the next.** -/
theorem fuzzyRow_spec {c1 : UInt8} {u : Bytes} (hu : u.length < maxPathLen) :
    ∀ {s v : Bytes} {row : List ℤ} {diag above : ℤ}, v.length + s.length ≤ maxPathLen →
      Cells u v s row → Near diag (levenshtein u v) → Near above (levenshtein (c1 :: u) v) →
      ∃ row', (∀ store, Stores store → fuzzyRow store c1 diag above s row = some row') ∧
        Cells (c1 :: u) v s row'
  | [], v, row, diag, above, _, hrow, _, _ => ⟨[], fun _ _ => by rw [fuzzyRow]; simp, rfl⟩
  | c2 :: s, v, row, diag, above, hlen, hrow, hdiag, habove => by
    obtain ⟨left, rest, rfl, hleft, hrest⟩ := hrow
    rw [List.length_cons] at hlen
    have hx := ucharVal_bounds c1
    have hy := ucharVal_bounds c2
    -- the cost of a change
    obtain ⟨cost, hcost⟩ : ∃ cost, cost = if ucharVal c1 - ucharVal c2 = 0 then 0
        else if ucharVal c1 - ucharVal c2 < 0 then fuzzyUnit - (ucharVal c1 - ucharVal c2)
        else fuzzyUnit + (ucharVal c1 - ucharVal c2) := ⟨_, rfl⟩
    have hnear : Near cost (if c1 = c2 then 0 else 1) := by
      rw [hcost]
      simp only [near_iff, fuzzyUnit, ucharVal_inj]
      split_ifs <;> constructor <;> push_cast <;> omega
    -- the three sums fit
    have hmax : maxPathLen = 4096 := rfl
    rw [hmax] at hu hlen
    have hd := levenshtein_le_length u v
    have hl := levenshtein_le_length u (c2 :: v)
    have ha := levenshtein_le_length (c1 :: u) v
    rw [List.length_cons] at hl ha
    have hbounds : 0 ≤ cost ∧ cost ≤ fuzzyUnit + 255 := by
      rw [near_iff] at hnear
      rw [fuzzyUnit]
      split_ifs at hnear <;> constructor <;> omega
    have hcell := near_cell hdiag hleft habove hx hy hnear
    rw [← levenshtein_cons_cons] at hcell
    obtain ⟨row', hrow', hcells⟩ := fuzzyRow_spec hu (by rw [List.length_cons]; omega) hrest hleft hcell
    refine ⟨_ :: row', fun store hstore => ?_, _, row', rfl, hcell, hcells⟩
    have h₁ : store (diag + cost) = some (diag + cost) :=
      hstore.add hdiag (by omega) hbounds.1 hbounds.2
    have h₂ : store (left + fuzzyUnit + ucharVal c1) = some (left + fuzzyUnit + ucharVal c1) := by
      rw [add_assoc]
      exact hstore.add hleft (by omega) (by rw [fuzzyUnit]; omega) (by rw [fuzzyUnit]; omega)
    have h₃ : store (above + fuzzyUnit + ucharVal c2) = some (above + fuzzyUnit + ucharVal c2) := by
      rw [add_assoc]
      exact hstore.add habove (by omega) (by rw [fuzzyUnit]; omega) (by rw [fuzzyUnit]; omega)
    rw [fuzzyRow]
    simp only [← hcost, h₁, h₂, h₃, hrow' store hstore, Option.bind_eq_bind, Option.bind_some]
    rfl

theorem firstRow_spec : ∀ {s v : Bytes}, v.length + s.length ≤ maxPathLen →
    ∃ row, (∀ store, Stores store → firstRow store v.length s = some row) ∧ Cells [] v s row
  | [], _, _ => ⟨[], fun _ _ => rfl, rfl⟩
  | c :: s, v, hlen => by
    rw [List.length_cons] at hlen
    obtain ⟨row, hrow, hcells⟩ := firstRow_spec (s := s) (v := c :: v) (by rw [List.length_cons]; omega)
    refine ⟨(v.length + 1 : ℕ) * fuzzyUnit :: row, fun store hstore => ?_, _, row, rfl, ?_, hcells⟩
    · have hcell := hstore.unit (n := v.length + 1) (by omega)
      rw [firstRow, ← Nat.cast_succ, hcell, ← List.length_cons, hrow store hstore]
      rfl
    · rw [levenshtein, List.length_cons]
      exact near_unit _

/-- The rows of the whole table. -/
theorem fuzzyRows_spec {s2 : Bytes} (hs2 : s2.length ≤ maxPathLen) :
    ∀ {s1 u : Bytes} {row : List ℤ}, u.length + s1.length ≤ maxPathLen → Cells u [] s2 row →
      ∃ row', (∀ store, Stores store → fuzzyRows store s2 u.length s1 row = some row') ∧
        Cells (s1.reverse ++ u) [] s2 row'
  | [], u, row, _, hrow => ⟨row, fun _ _ => rfl, hrow⟩
  | c1 :: s1, u, row, hlen, hrow => by
    rw [List.length_cons] at hlen
    have hdiag : Near (u.length * fuzzyUnit) (levenshtein u []) := by
      rw [levenshtein_nil_right]
      exact near_unit _
    have habove : Near ((u.length + 1 : ℕ) * fuzzyUnit) (levenshtein (c1 :: u) []) := by
      rw [levenshtein_nil_right, List.length_cons]
      exact near_unit _
    obtain ⟨next, hnext, hcells⟩ := fuzzyRow_spec (by omega) (by simpa using hs2) hrow hdiag habove
    obtain ⟨row', hrow', hrest⟩ := fuzzyRows_spec hs2
      (by rw [List.length_cons]; omega : (c1 :: u).length + s1.length ≤ maxPathLen) hcells
    refine ⟨row', fun store hstore => ?_, ?_⟩
    · have h₁ := hstore.unit (n := u.length) (by omega)
      have h₂ := hstore.unit (n := u.length + 1) (by omega)
      rw [fuzzyRows, h₁, ← Nat.cast_succ, h₂]
      simp only [Option.bind_eq_bind, Option.bind_some, hnext store hstore]
      rw [← List.length_cons, hrow' store hstore]
    · rwa [List.reverse_cons, List.append_assoc]

/-- The last cell of a row stands for the whole strings. -/
theorem Cells.last {u : Bytes} : ∀ {s v : Bytes} {row : List ℤ}, Cells u v s row → s ≠ [] →
    ∃ d, row.getLast? = some d ∧ Near d (levenshtein u (s.reverse ++ v))
  | [], _, _, _, hne => absurd rfl hne
  | [c], v, _, ⟨d, _, rfl, hd, rfl⟩, _ => ⟨d, rfl, hd⟩
  | c :: c' :: s, v, _, ⟨d, rest, rfl, _, hrest⟩, _ => by
    obtain ⟨e, he, hnear⟩ := hrest.last (List.cons_ne_nil c' s)
    obtain ⟨d', rest', rfl, -⟩ := hrest
    refine ⟨e, by rwa [List.getLast?_cons_cons], ?_⟩
    rwa [List.reverse_cons, List.append_assoc]

/-- **Two strings that are not empty.** -/
theorem fuzzyDistance_near {s1 s2 : Bytes} (h1 : s1.length ≤ maxPathLen) (h2 : s2.length ≤ maxPathLen)
    (hne1 : s1 ≠ []) (hne2 : s2 ≠ []) :
    ∃ d, (∀ store, Stores store → fuzzyDistance store s1 s2 = some d) ∧ Near d (levenshtein s1 s2) := by
  obtain ⟨first, hfirst, hcells⟩ := firstRow_spec (s := s2) (v := []) (by simpa using h2)
  obtain ⟨row, hrow, hcells'⟩ := fuzzyRows_spec h2
    (by simpa using h1 : ([] : Bytes).length + s1.length ≤ maxPathLen) hcells
  obtain ⟨d, hd, hnear⟩ := hcells'.last hne2
  refine ⟨d, fun store hstore => ?_, ?_⟩
  · rw [fuzzyDistance, if_neg (not_or.2 ⟨hne1, hne2⟩)]
    have hf := hfirst store hstore
    have hr := hrow store hstore
    rw [List.length_nil] at hf hr
    simp only [hf, hr, hd, Option.bind_eq_bind, Option.bind_some]
  · rwa [List.append_nil, List.append_nil, levenshtein_reverse] at hnear

/-! ## An empty string -/

/-- What the characters of a string add up to. -/
def charSum (s : Bytes) : ℤ := (s.map charVal).sum

theorem charVal_bounds (c : UInt8) : -128 ≤ charVal c ∧ charVal c ≤ 127 := by
  have hlow := c.toInt8.le_toInt
  have hhigh := c.toInt8.toInt_lt
  rw [charVal]
  omega

theorem charSum_cons (c : UInt8) (s : Bytes) : charSum (c :: s) = charVal c + charSum s := by
  rw [charSum, List.map_cons, List.sum_cons, charSum]

theorem charSum_bounds (s : Bytes) : -(128 * s.length) ≤ charSum s ∧ charSum s ≤ 127 * s.length := by
  induction s with
  | nil => simp [charSum]
  | cons c s ih =>
    have h := charVal_bounds c
    rw [charSum_cons, List.length_cons]
    omega

theorem int32_of_small {x : ℤ} (h : -2 ^ 31 ≤ x) (h' : x < 2 ^ 31) : int32 x = x := by
  rw [int32, Int.bmod_eq_of_le] <;> omega

theorem foldl_charSum {s : Bytes} {cost : ℤ} (h : -(2 ^ 20) + 128 * (s.length : ℤ) ≤ cost)
    (h' : cost + 128 * s.length ≤ 2 ^ 20) :
    s.foldl (fun cost c => int32 (cost + charVal c)) cost = cost + charSum s := by
  induction s generalizing cost with
  | nil => simp [charSum]
  | cons c s ih =>
    have hc := charVal_bounds c
    rw [List.length_cons] at h h'
    rw [List.foldl_cons, int32_of_small (by omega) (by omega), ih (by omega) (by omega), charSum_cons,
      add_assoc]

/-- **A string next to the empty one: its length in units, and the sum of its characters.** -/
theorem fuzzyDistance_empty {s1 s2 : Bytes} (h1 : s1.length ≤ maxPathLen) (h2 : s2.length ≤ maxPathLen)
    (hempty : s1 = [] ∨ s2 = []) {store : ℤ → Option ℤ} (hstore : Stores store) :
    fuzzyDistance store s1 s2 = some (levenshtein s1 s2 * fuzzyUnit + charSum (s1 ++ s2)) := by
  have hmax : maxPathLen = 4096 := rfl
  have hone : ∀ s : Bytes, s.length ≤ maxPathLen →
      store (int32 (s.length * fuzzyUnit + s.foldl (fun cost c => int32 (cost + charVal c)) 0)) =
        some (s.length * fuzzyUnit + charSum s) := by
    intro s hs
    have hb := charSum_bounds s
    rw [foldl_charSum (by omega) (by omega), zero_add, fuzzyUnit, int32_of_small (by omega) (by omega)]
    exact hstore _ (by omega) (by omega)
  rw [fuzzyDistance, if_pos hempty]
  by_cases hs1 : s1 = []
  · subst hs1
    rw [List.nil_append, levenshtein]
    exact hone s2 h2
  · obtain rfl := hempty.resolve_left hs1
    rw [List.append_nil, levenshtein_nil_right]
    simp only [hs1, if_false]
    exact hone s1 h1

/-! ## The function and the edit distance -/

/-- The function says what the edit distance is, up to the weights, and no value wraps. -/
def Measures (s1 s2 : Bytes) : Prop :=
  ∃ d, fuzzyDistance checked s1 s2 = some d ∧ fuzzyDistance wrapped s1 s2 = some d ∧ Near d (levenshtein s1 s2)

/-- No string is empty, or the characters of the other one do not add up to less than nothing. -/
def NoNegativeSum (s1 s2 : Bytes) : Prop := (s1 ≠ [] ∧ s2 ≠ []) ∨ 0 ≤ charSum (s1 ++ s2)

theorem measures_iff {s1 s2 : Bytes} (h1 : s1.length ≤ maxPathLen) (h2 : s2.length ≤ maxPathLen) :
    Measures s1 s2 ↔ NoNegativeSum s1 s2 := by
  by_cases hne : s1 ≠ [] ∧ s2 ≠ []
  · obtain ⟨d, hd, hnear⟩ := fuzzyDistance_near h1 h2 hne.1 hne.2
    exact iff_of_true ⟨d, hd checked stores_checked, hd wrapped stores_wrapped, hnear⟩ (.inl hne)
  · have hempty : s1 = [] ∨ s2 = [] := by
      rwa [not_and_or, not_not, not_not] at hne
    have hc := fuzzyDistance_empty h1 h2 hempty stores_checked
    have hw := fuzzyDistance_empty h1 h2 hempty stores_wrapped
    have hlen : levenshtein s1 s2 = (s1 ++ s2).length := by
      rcases hempty with rfl | rfl
      · rw [levenshtein, List.nil_append]
      · rw [levenshtein_nil_right, List.append_nil]
    have hb := charSum_bounds (s1 ++ s2)
    rw [← hlen] at hb
    constructor
    · rintro ⟨d, hd, -, hnear⟩
      rw [hc, Option.some.injEq] at hd
      rw [← hd, near_iff, fuzzyUnit] at hnear
      exact .inr (by omega)
    · intro h
      have hsum := h.resolve_left hne
      refine ⟨_, hc, hw, ?_⟩
      rw [near_iff, fuzzyUnit]
      omega

/-- **The bounds hold unless one string is empty and the characters of the other one add up to
    less than nothing**; and where they hold for two pairs, one with a distance of at most 257
    comes before one with a greater distance. -/
theorem fuzzyDistance_measures_iff {s1 s2 : Bytes} (h1 : s1.length ≤ maxPathLen)
    (h2 : s2.length ≤ maxPathLen) :
    (Measures s1 s2 ↔ NoNegativeSum s1 s2) ∧
    ∀ {t1 t2 : Bytes}, t1.length ≤ maxPathLen → t2.length ≤ maxPathLen →
      NoNegativeSum s1 s2 → NoNegativeSum t1 t2 → levenshtein s1 s2 ≤ 257 → levenshtein s1 s2 < levenshtein t1 t2 →
      ∃ d e, fuzzyDistance wrapped s1 s2 = some d ∧ fuzzyDistance wrapped t1 t2 = some e ∧ d < e := by
  refine ⟨measures_iff h1 h2, fun ht1 ht2 hs ht h257 hlt => ?_⟩
  obtain ⟨d, -, hd, hnear⟩ := (measures_iff h1 h2).2 hs
  obtain ⟨e, -, he, hnear'⟩ := (measures_iff ht1 ht2).2 ht
  refine ⟨d, e, hd, he, ?_⟩
  rw [near_iff] at hnear hnear'
  omega

/-- Two names of the usual kind. -/
theorem fuzzyDistance_measures_iff_names : Measures [97, 98] [97, 99, 98] := by
  have hlen : ([97, 98] : Bytes).length ≤ maxPathLen := by decide
  have hlen' : ([97, 99, 98] : Bytes).length ≤ maxPathLen := by decide
  exact (fuzzyDistance_measures_iff hlen hlen').1.2 (.inl ⟨List.cons_ne_nil _ _, List.cons_ne_nil _ _⟩)

/-- One byte from 128 on next to the empty string: less than a unit for one change. -/
theorem not_measures_highByte : ¬∀ s1 s2 : Bytes, s1.length ≤ maxPathLen → s2.length ≤ maxPathLen →
    Measures s1 s2 := by
  intro h
  obtain ⟨d, hd, -, hnear⟩ := h [] [128] (by decide) (by decide)
  have hd' : fuzzyDistance checked [] [128] = some 65408 := by decide
  rw [hd', Option.some.injEq] at hd
  rw [← hd, near_iff, levenshtein] at hnear
  exact absurd hnear.1 (by decide)

end CloudEdgeBackup
