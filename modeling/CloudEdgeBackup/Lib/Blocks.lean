/-
  Strings that are taken in blocks of a fixed length.

  * `feed` takes one symbol: it waits with the ones in front of it until they are
    a block, which `step` then takes into the state.  `feedAll` takes a string, and
    so does not know how it was cut (`feedAll_flatten`);
  * `eachBlock` is the loop that takes whole blocks off the front of a string, and
    does the same (`feedAll_eachBlock`).
-/
import Mathlib

namespace Blocks

variable {σ α : Type} (step : σ → List α → σ) (n : ℕ)

/-- One symbol more: the state, and the symbols that wait. -/
def feed (s : σ × List α) (a : α) : σ × List α :=
  if s.2.length + 1 = n then (step s.1 (s.2 ++ [a]), []) else (s.1, s.2 ++ [a])

/-- A string, symbol by symbol. -/
def feedAll (s : σ × List α) (l : List α) : σ × List α := l.foldl (feed step n) s

/-- `while (length >= n)`: whole blocks, and what is left. -/
def eachBlock : ℕ → σ → List α → σ × List α
  | 0, s, l => (s, l)
  | fuel + 1, s, l =>
    if n ≤ l.length then eachBlock fuel (step s (l.take n)) (l.drop n) else (s, l)

variable {step n}

@[simp] theorem feedAll_nil (s : σ × List α) : feedAll step n s [] = s := rfl

theorem feedAll_append (s : σ × List α) (l m : List α) :
    feedAll step n s (l ++ m) = feedAll step n (feedAll step n s l) m := List.foldl_append

/-- Taking pieces is taking the whole. -/
theorem feedAll_flatten (s : σ × List α) (ps : List (List α)) :
    ps.foldl (feedAll step n) s = feedAll step n s ps.flatten := by
  induction ps generalizing s with
  | nil => rfl
  | cons p ps ih => rw [List.foldl_cons, ih, List.flatten_cons, feedAll_append]

/-- Less than a block waits. -/
theorem feedAll_lt {s : σ × List α} {l : List α} (h : s.2.length + l.length < n) :
    feedAll step n s l = (s.1, s.2 ++ l) := by
  induction l generalizing s with
  | nil => simp
  | cons a l ih =>
    rw [List.length_cons] at h
    have hfeed : feed step n s a = (s.1, s.2 ++ [a]) := if_neg (by omega)
    change feedAll step n (feed step n s a) l = _
    rw [hfeed, ih (by simp only [List.length_append, List.length_singleton]; omega),
      List.append_assoc, List.singleton_append]

/-- A string that makes up the block is taken with what has waited. -/
theorem feedAll_full {s : σ × List α} {l : List α} (hl : l ≠ []) (h : s.2.length + l.length = n) :
    feedAll step n s l = (step s.1 (s.2 ++ l), []) := by
  obtain ⟨w, a, rfl⟩ := List.eq_nil_or_concat' l |>.resolve_left hl
  rw [List.length_append, List.length_singleton] at h
  have hw : feedAll step n s w = (s.1, s.2 ++ w) := feedAll_lt (by omega)
  rw [feedAll_append, hw]
  change feed step n (s.1, s.2 ++ w) a = _
  rw [feed, if_pos (by simp only [List.length_append]; omega), List.append_assoc]

/-- What waits is less than a block. -/
theorem feedAll_length_lt {s : σ × List α} (h : s.2.length < n) (l : List α) :
    (feedAll step n s l).2.length < n := by
  induction l generalizing s with
  | nil => exact h
  | cons a l ih =>
    refine ih ?_
    unfold feed
    split_ifs with hfull
    · exact Nat.pos_of_ne_zero (by omega)
    · simp only [List.length_append, List.length_singleton]
      omega

/-- How much waits. -/
theorem feedAll_length {s : σ × List α} (h : s.2.length < n) (l : List α) :
    (feedAll step n s l).2.length = (s.2.length + l.length) % n := by
  induction l generalizing s with
  | nil => exact (Nat.mod_eq_of_lt h).symm
  | cons a l ih =>
    change (feedAll step n (feed step n s a) l).2.length = _
    unfold feed
    split_ifs with hfull
    · rw [ih (by dsimp only [List.length_nil]; omega), List.length_nil, List.length_cons,
        show s.2.length + (l.length + 1) = l.length + n by omega, Nat.add_mod_right, Nat.zero_add]
    · rw [ih (by simp only [List.length_append, List.length_singleton]; omega)]
      simp only [List.length_append, List.length_cons, List.length_nil]
      rw [Nat.add_assoc, Nat.zero_add, Nat.add_comm 1]

/-- **The loop over whole blocks** takes the string. -/
theorem feedAll_eachBlock (hn : 0 < n) {fuel : ℕ} {s : σ} {l : List α} (h : l.length ≤ fuel) :
    feedAll step n (s, []) l = eachBlock step n fuel s l := by
  induction fuel generalizing s l with
  | zero =>
    obtain rfl := List.length_eq_zero_iff.1 (Nat.le_zero.1 h)
    rfl
  | succ fuel ih =>
    rw [eachBlock]
    split_ifs with hfull
    · have htake : (l.take n).length = n := List.length_take_of_le hfull
      have hblock : feedAll step n (s, []) (l.take n) = (step s (l.take n), []) := by
        refine feedAll_full (fun hnil => ?_) ?_
        · rw [hnil, List.length_nil] at htake
          omega
        · rw [List.length_nil, Nat.zero_add, htake]
      rw [← ih (by rw [List.length_drop]; omega)]
      conv_lhs => rw [← List.take_append_drop n l]
      rw [feedAll_append, hblock]
    · exact feedAll_lt (by rw [List.length_nil]; omega)

theorem eachBlock_lt {fuel : ℕ} {s : σ} {l : List α} (h : l.length < n) :
    eachBlock step n fuel s l = (s, l) := by
  cases fuel with
  | zero => rfl
  | succ fuel => exact if_neg (by omega)

/-- A string that makes up the block that waits, and more. -/
theorem feedAll_fill {fuel : ℕ} {s : σ} {w l : List α} (hw : w.length < n)
    (hfull : n ≤ w.length + l.length) (h : (l.drop (n - w.length)).length ≤ fuel) :
    feedAll step n (s, w) l = eachBlock step n fuel (step s (w ++ l.take (n - w.length)))
      (l.drop (n - w.length)) := by
  have htake : (l.take (n - w.length)).length = n - w.length := List.length_take_of_le (by omega)
  have hblock : feedAll step n (s, w) (l.take (n - w.length)) =
      (step s (w ++ l.take (n - w.length)), []) := by
    refine feedAll_full (fun hnil => ?_) (by dsimp only; omega)
    rw [hnil, List.length_nil] at htake
    omega
  rw [← feedAll_eachBlock (by omega) h]
  conv_lhs => rw [← List.take_append_drop (n - w.length) l]
  rw [feedAll_append, hblock]

/-- The loop takes only whole blocks. -/
theorem eachBlock_congr {step' : σ → List α → σ} (h : ∀ s b, b.length = n → step s b = step' s b)
    (fuel : ℕ) (s : σ) (l : List α) : eachBlock step n fuel s l = eachBlock step' n fuel s l := by
  induction fuel generalizing s l with
  | zero => rfl
  | succ fuel ih =>
    rw [eachBlock, eachBlock]
    split_ifs with hfull
    · rw [h s _ (List.length_take_of_le hfull), ih]
    · rfl

/-- A part of the state that goes its own way. -/
theorem feedAll_map {τ : Type} {step' : τ → List α → τ} (f : τ → σ)
    (h : ∀ t b, b.length = n → f (step' t b) = step (f t) b) (t : τ) (w l : List α) :
    feedAll step n (f t, w) l =
      (f (feedAll step' n (t, w) l).1, (feedAll step' n (t, w) l).2) := by
  induction l generalizing t w with
  | nil => rfl
  | cons a l ih =>
    change feedAll step n (feed step n (f t, w) a) l =
      (f (feedAll step' n (feed step' n (t, w) a) l).1,
        (feedAll step' n (feed step' n (t, w) a) l).2)
    by_cases hfull : w.length + 1 = n
    · have hblock : (w ++ [a]).length = n := by rw [List.length_append, List.length_singleton, hfull]
      rw [feed, feed, if_pos hfull, if_pos hfull, ← h t _ hblock, ih]
    · rw [feed, feed, if_neg hfull, if_neg hfull, ih]

/-- Likewise for the loop. -/
theorem eachBlock_map {τ : Type} {step' : τ → List α → τ} (f : τ → σ)
    (h : ∀ t b, f (step' t b) = step (f t) b) (fuel : ℕ) (t : τ) (l : List α) :
    eachBlock step n fuel (f t) l =
      (f (eachBlock step' n fuel t l).1, (eachBlock step' n fuel t l).2) := by
  induction fuel generalizing t l with
  | zero => rfl
  | succ fuel ih =>
    rw [eachBlock, eachBlock]
    split_ifs with hfull
    · rw [← h, ih]
    · rfl

end Blocks
