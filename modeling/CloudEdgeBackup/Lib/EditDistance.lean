/-
  The edit distance of two lists.

  * `levenshtein` is the Levenshtein distance, by recursion on the first symbols;
  * `Edits xs ys n` is a script of `n` changes that leads from one list to the other; the distance
    is the length of a shortest one (`edits_levenshtein`, `Edits.levenshtein_le`);
  * scripts can be read from either end, so that the distance can be computed over prefixes
    (`levenshtein_reverse`).
-/
import Mathlib

namespace EditDistance

variable {α : Type*}

/-! ## Scripts -/

/-- `n` insertions, deletions and changes of a symbol lead from one list to the other. -/
inductive Edits : List α → List α → ℕ → Prop where
  | nil : Edits [] [] 0
  | keep (x : α) {xs ys : List α} {n : ℕ} : Edits xs ys n → Edits (x :: xs) (x :: ys) n
  | change (x y : α) {xs ys : List α} {n : ℕ} : Edits xs ys n → Edits (x :: xs) (y :: ys) (n + 1)
  | delete (x : α) {xs ys : List α} {n : ℕ} : Edits xs ys n → Edits (x :: xs) ys (n + 1)
  | insert (y : α) {xs ys : List α} {n : ℕ} : Edits xs ys n → Edits xs (y :: ys) (n + 1)

namespace Edits

theorem append {xs ys xs' ys' : List α} {m n : ℕ} (h : Edits xs ys m) (h' : Edits xs' ys' n) :
    Edits (xs ++ xs') (ys ++ ys') (n + m) := by
  induction h with
  | nil => exact h'
  | keep x _ ih => exact .keep x ih
  | change x y _ ih => exact .change x y ih
  | delete x _ ih => exact .delete x ih
  | insert y _ ih => exact .insert y ih

theorem reverse {xs ys : List α} {n : ℕ} (h : Edits xs ys n) : Edits xs.reverse ys.reverse n := by
  induction h with
  | nil => exact .nil
  | keep x _ ih =>
    rw [List.reverse_cons, List.reverse_cons]
    simpa using ih.append (.keep x .nil)
  | change x y _ ih =>
    rw [List.reverse_cons, List.reverse_cons]
    simpa [add_comm] using ih.append (.change x y .nil)
  | delete x _ ih =>
    rw [List.reverse_cons]
    simpa [add_comm] using ih.append (.delete x .nil)
  | insert y _ ih =>
    rw [List.reverse_cons]
    simpa [add_comm] using ih.append (.insert y .nil)

/-- All symbols can be inserted. -/
theorem of_nil (ys : List α) : Edits [] ys ys.length := by
  induction ys with
  | nil => exact .nil
  | cons y ys ih => exact .insert y ih

/-- All symbols can be deleted. -/
theorem to_nil (xs : List α) : Edits xs [] xs.length := by
  induction xs with
  | nil => exact .nil
  | cons x xs ih => exact .delete x ih

end Edits

/-! ## The distance -/

variable [DecidableEq α]

/-- The Levenshtein distance. -/
def levenshtein : List α → List α → ℕ
  | [], ys => ys.length
  | x :: xs, [] => (x :: xs).length
  | x :: xs, y :: ys =>
    min (levenshtein xs (y :: ys) + 1) (min (levenshtein (x :: xs) ys + 1) (levenshtein xs ys + if x = y then 0 else 1))

variable {x y : α} {xs ys : List α}

theorem levenshtein_nil_right (xs : List α) : levenshtein xs [] = xs.length := by
  cases xs <;> rw [levenshtein]

theorem levenshtein_cons_cons : levenshtein (x :: xs) (y :: ys) =
    min (levenshtein xs (y :: ys) + 1) (min (levenshtein (x :: xs) ys + 1) (levenshtein xs ys + if x = y then 0 else 1)) := by
  rw [levenshtein]

theorem levenshtein_cons_left_le : levenshtein (x :: xs) ys ≤ levenshtein xs ys + 1 := by
  cases ys with
  | nil => rw [levenshtein_nil_right, levenshtein_nil_right, List.length_cons]
  | cons y ys =>
    rw [levenshtein_cons_cons]
    exact min_le_left _ _

theorem levenshtein_cons_right_le : levenshtein xs (y :: ys) ≤ levenshtein xs ys + 1 := by
  cases xs with
  | nil => rw [levenshtein, levenshtein, List.length_cons]
  | cons x xs =>
    rw [levenshtein_cons_cons]
    exact (min_le_right _ _).trans (min_le_left _ _)

theorem levenshtein_cons_cons_le : levenshtein (x :: xs) (y :: ys) ≤ levenshtein xs ys + if x = y then 0 else 1 := by
  rw [levenshtein_cons_cons]
  exact (min_le_right _ _).trans (min_le_right _ _)

/-- No script is shorter than the distance. -/
theorem Edits.levenshtein_le {n : ℕ} (h : Edits xs ys n) : levenshtein xs ys ≤ n := by
  induction h with
  | nil => rw [levenshtein, List.length_nil]
  | keep x _ ih => exact levenshtein_cons_cons_le.trans (by simpa using ih)
  | change x y _ ih =>
    refine levenshtein_cons_cons_le.trans ?_
    split_ifs <;> omega
  | delete x _ ih => exact levenshtein_cons_left_le.trans (Nat.succ_le_succ ih)
  | insert y _ ih => exact levenshtein_cons_right_le.trans (Nat.succ_le_succ ih)

/-- Some script has the length of the distance. -/
theorem edits_levenshtein (xs ys : List α) : Edits xs ys (levenshtein xs ys) := by
  fun_induction levenshtein xs ys with
  | case1 ys => exact .of_nil ys
  | case2 x xs => exact .to_nil (x :: xs)
  | case3 x xs y ys ihdel ihins ihchg =>
    rcases min_choice (levenshtein xs (y :: ys) + 1)
      (min (levenshtein (x :: xs) ys + 1) (levenshtein xs ys + if x = y then 0 else 1)) with h | h
    · rw [h]
      exact .delete x ihdel
    · rw [h]
      rcases min_choice (levenshtein (x :: xs) ys + 1) (levenshtein xs ys + if x = y then 0 else 1) with h | h
      · rw [h]
        exact .insert y ihins
      · rw [h]
        split_ifs with heq
        · exact heq ▸ .keep x ihchg
        · exact .change x y ihchg

theorem levenshtein_le_length (xs ys : List α) : levenshtein xs ys ≤ xs.length + ys.length := by
  simpa [add_comm] using ((Edits.to_nil xs).append (.of_nil ys)).levenshtein_le

/-- **The distance is the same from the other end.** -/
theorem levenshtein_reverse (xs ys : List α) : levenshtein xs.reverse ys.reverse = levenshtein xs ys := by
  refine le_antisymm (edits_levenshtein xs ys).reverse.levenshtein_le ?_
  simpa using (edits_levenshtein xs.reverse ys.reverse).reverse.levenshtein_le

end EditDistance
