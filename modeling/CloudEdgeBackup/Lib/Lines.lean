/-
  Lines and fields of a text.

  * `tokens` are the fields between separators that `strtok` returns call after
    call: none of them is empty.  A separator cuts them (`tokens_append_cons`), and
    separators around a text change nothing (`tokens_trim`);
  * `takeLine` is one line read through a buffer: up to the end of the line or until
    the buffer is full;
  * `lines` are the whole lines of a text.
-/
import Mathlib

namespace Lines

variable {α : Type*}

/-! ## Fields -/

/-- The fields between separators, without the empty ones. -/
def tokens (sep : α → Bool) (s : List α) : List (List α) :=
  (s.splitOnP sep).filter fun t => !t.isEmpty

variable {sep : α → Bool} {s t : List α}

theorem tokens_nil : tokens sep [] = [] := rfl

theorem tokens_append_cons (s t : List α) {c : α} (hc : sep c) :
    tokens sep (s ++ c :: t) = tokens sep s ++ tokens sep t := by
  rw [tokens, List.splitOnP_append_cons _ _ hc, List.filter_append]; rfl

theorem tokens_single (h : ∀ c ∈ s, sep c = false) (hne : s ≠ []) : tokens sep s = [s] := by
  rw [tokens, List.splitOnP_eq_singleton h, List.filter_cons_of_pos (by simp [hne])]; rfl

theorem tokens_cons {c : α} (hc : sep c) : tokens sep (c :: s) = tokens sep s :=
  tokens_append_cons [] s hc

theorem tokens_concat {c : α} (hc : sep c) : tokens sep (s ++ [c]) = tokens sep s := by
  rw [tokens_append_cons s [] hc, tokens_nil, List.append_nil]

theorem tokens_append_seps (h : ∀ c ∈ t, sep c) : tokens sep (s ++ t) = tokens sep s := by
  induction t using List.reverseRecOn with
  | nil => rw [List.append_nil]
  | append_singleton t c ih =>
    have hc : sep c := h c (List.mem_append_right _ List.mem_cons_self)
    rw [← List.append_assoc, tokens_concat hc, ih fun x hx => h x (List.mem_append_left _ hx)]

theorem tokens_seps_append (h : ∀ c ∈ t, sep c) : tokens sep (t ++ s) = tokens sep s := by
  induction t with
  | nil => rfl
  | cons c t ih =>
    rw [List.cons_append, tokens_cons (h c List.mem_cons_self),
      ih fun x hx => h x (List.mem_cons_of_mem _ hx)]

/-- A text without the symbols `p` at its ends. -/
def trim (p : α → Bool) (s : List α) : List α := (s.dropWhile p).rdropWhile p

/-- Separators at the ends of a text do not make fields. -/
theorem tokens_trim {p : α → Bool} (h : ∀ c, p c → sep c) (s : List α) :
    tokens sep (trim p s) = tokens sep s := by
  have hfront : tokens sep s = tokens sep (s.dropWhile p) := by
    conv_lhs => rw [← List.takeWhile_append_dropWhile (p := p) (l := s)]
    exact tokens_seps_append fun c hc => h c (List.mem_takeWhile_imp hc)
  have hback : tokens sep (s.dropWhile p) = tokens sep (trim p s) := by
    conv_lhs => rw [← List.rdropWhile_append_rtakeWhile (p := p) (l := s.dropWhile p)]
    exact tokens_append_seps fun c hc => h c (List.mem_rtakeWhile_imp hc)
  rw [hfront, hback]

/-- The fields of a text are those of its parts between some of the separators. -/
theorem tokens_splitOn [DecidableEq α] {c : α} (hc : sep c) (s : List α) :
    tokens sep s = (s.splitOn c).flatMap (tokens sep) := by
  have hparts (parts : List (List α)) :
      tokens sep ([c].intercalate parts) = parts.flatMap (tokens sep) := by
    induction parts with
    | nil => rfl
    | cons p parts ih =>
      cases parts with
      | nil => simp
      | cons q parts =>
        rw [List.intercalate_cons_of_ne_nil (List.cons_ne_nil _ _), List.append_assoc,
          List.singleton_append, tokens_append_cons _ _ hc, ih]; rfl
  have := hparts (s.splitOn c)
  rwa [List.intercalate_splitOn] at this

theorem not_mem_of_mem_splitOn [DecidableEq α] {c : α} (h : t ∈ s.splitOn c) : c ∉ t := by
  induction s generalizing t with
  | nil =>
    rw [List.splitOn_nil, List.mem_singleton] at h
    rw [h]; exact List.not_mem_nil
  | cons x s ih =>
    rw [List.splitOn_cons_eq_if_modifyHead] at h
    split_ifs at h with hx
    · rcases List.mem_cons.1 h with rfl | h
      · exact List.not_mem_nil
      · exact ih h
    · rcases hsplit : s.splitOn c with _ | ⟨t', ts⟩
      · exact absurd hsplit (List.splitOn_ne_nil c s)
      · rw [hsplit] at h ih
        rcases List.mem_cons.1 h with rfl | h
        · refine List.not_mem_cons_of_ne_of_not_mem (fun heq => hx ?_) (ih List.mem_cons_self)
          rw [heq]; exact beq_self_eq_true _
        · exact ih (List.mem_cons_of_mem _ h)

/-! ## Lines -/

variable [DecidableEq α]

/-- The next line with its end, at most `n` symbols of it. -/
def takeLine (nl : α) : ℕ → List α → List α
  | 0, _ => []
  | _ + 1, [] => []
  | n + 1, c :: s => if c = nl then [c] else c :: takeLine nl n s

variable {nl : α} {n : ℕ}

theorem takeLine_whole (h : nl ∉ s) (hn : s.length < n) (t : List α) :
    takeLine nl n (s ++ nl :: t) = s ++ [nl] := by
  induction s generalizing n with
  | nil =>
    obtain ⟨n, rfl⟩ := Nat.exists_eq_succ_of_ne_zero (Nat.ne_of_gt hn)
    exact if_pos rfl
  | cons c s ih =>
    obtain ⟨hc, hs⟩ := not_or.1 (mt List.mem_cons.2 h)
    obtain ⟨n, rfl⟩ := Nat.exists_eq_succ_of_ne_zero (Nat.ne_of_gt (Nat.zero_lt_of_lt hn))
    rw [List.cons_append, takeLine, if_neg (Ne.symm hc), ih hs (Nat.lt_of_succ_lt_succ hn)]; rfl

theorem takeLine_full (h : nl ∉ s) (hn : s.length = n) (t : List α) :
    takeLine nl n (s ++ t) = s := by
  induction s generalizing n with
  | nil => rw [← hn]; rfl
  | cons c s ih =>
    obtain ⟨hc, hs⟩ := not_or.1 (mt List.mem_cons.2 h)
    rw [← hn, List.length_cons, List.cons_append, takeLine, if_neg (Ne.symm hc), ih hs rfl]

theorem takeLine_last (h : nl ∉ s) (hn : s.length ≤ n) : takeLine nl n s = s := by
  induction s generalizing n with
  | nil => cases n <;> rfl
  | cons c s ih =>
    obtain ⟨hc, hs⟩ := not_or.1 (mt List.mem_cons.2 h)
    obtain ⟨n, rfl⟩ := Nat.exists_eq_succ_of_ne_zero (Nat.ne_of_gt (Nat.zero_lt_of_lt hn))
    rw [takeLine, if_neg (Ne.symm hc), ih hs (Nat.le_of_succ_le_succ hn)]

end Lines
