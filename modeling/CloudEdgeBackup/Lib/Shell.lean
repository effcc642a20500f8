/-
  A word of a POSIX shell command, read from its text.

  * `expand` goes over the text of one word and says what is left after quote removal. It gives
    nothing where the text is not one word with a value of its own: where a blank or an operator
    ends the word, and where an expansion would put something else in its place;
  * `Mode.braced` is the word in `${1:-word}`, which ends at a `}`; what follows the brace belongs
    to the same word of the command;
  * `expand_append` and `expand_single` read literal and quoted text; `expand_count_le` and
    `expand_squote` say what quote removal costs, so that a text can be shown not to give a value.
-/
import Mathlib

namespace Shell

abbrev tab : UInt8 := 9
abbrev newline : UInt8 := 10
abbrev blank : UInt8 := 32
abbrev dquote : UInt8 := 34
abbrev hash : UInt8 := 35
abbrev dollar : UInt8 := 36
abbrev squote : UInt8 := 39
abbrev bslash : UInt8 := 92
abbrev backtick : UInt8 := 96
abbrev closeBrace : UInt8 := 125
abbrev tilde : UInt8 := 126

/-- Where the text stands: in a command, or in the braces of `${1:-word}`. -/
inductive Mode where
  | plain
  | braced
  deriving DecidableEq

/-- The quoting in force. -/
inductive Quote where
  | no
  | escaped
  | single
  | double
  | doubleEscaped
  deriving DecidableEq

/-- The bytes that stand for something else outside of quotes: blanks, operators (not between
    braces), expansions and patterns. -/
def special : Mode → List UInt8
  | .plain => [blank, tab, newline, 124, 38, 59, 60, 62, 40, 41, dollar, backtick, 42, 63, 91]
  | .braced => [blank, tab, newline, dollar, backtick, 42, 63, 91]

/-- The bytes that quote. -/
def quoting : List UInt8 := [squote, dquote, bslash]

/-- A byte that stands for itself outside of quotes. -/
def literal (m : Mode) (c : UInt8) : Prop :=
  c ∉ quoting ∧ c ∉ special m ∧ ¬(m = .braced ∧ c = closeBrace)

instance (m : Mode) (c : UInt8) : Decidable (literal m c) := by unfold literal; infer_instance

/-- A byte that does not stand for itself at the start of a word. -/
def startsSpecial (m : Mode) (c : UInt8) : Prop := c = tilde ∨ (m = .plain ∧ c = hash)

instance (m : Mode) (c : UInt8) : Decidable (startsSpecial m c) := by unfold startsSpecial; infer_instance

/-- What the text of a word stands for; `start` at its first byte. -/
def expand (m : Mode) : Quote → Bool → List UInt8 → Option (List UInt8)
  | .no, _, [] => if m = .plain then some [] else none
  | _, _, [] => none
  | .no, start, c :: t =>
    if c = squote then expand m .single false t
    else if c = dquote then expand m .double false t
    else if c = bslash then expand m .escaped start t
    else if m = .braced ∧ c = closeBrace then expand .plain .no false t
    else if c ∈ special m ∨ start = true ∧ startsSpecial m c then none
    else (expand m .no false t).map (c :: ·)
  | .escaped, start, c :: t =>
    if c = newline then expand m .no start t else (expand m .no false t).map (c :: ·)
  | .single, _, c :: t =>
    if c = squote then expand m .no false t else (expand m .single false t).map (c :: ·)
  | .double, _, c :: t =>
    if c = dquote then expand m .no false t
    else if c = dollar ∨ c = backtick then none
    else if c = bslash then expand m .doubleEscaped false t
    else (expand m .double false t).map (c :: ·)
  | .doubleEscaped, _, c :: t =>
    if c = newline then expand m .double false t
    else if c = dollar ∨ c = backtick ∨ c = dquote ∨ c = bslash then (expand m .double false t).map (c :: ·)
    else (expand m .double false t).map ([bslash, c] ++ ·)

/-- The word a text gives. A text that leaves nothing gives one only with quotes. -/
def word (m : Mode) (t : List UInt8) : Option (List UInt8) :=
  match expand m .no true t with
  | some [] => if squote ∈ t ∨ dquote ∈ t then some [] else none
  | r => r

variable {m : Mode} {start : Bool} {t v p s : List UInt8} {c : UInt8}

theorem word_eq_some_iff (hv : v ≠ []) : word m t = some v ↔ expand m .no true t = some v := by
  rw [word]
  cases h : expand m .no true t with
  | none => rfl
  | some w =>
    cases w with
    | nil =>
      simp only [Option.some.injEq]
      split_ifs <;> simp [hv.symm]
    | cons a w => rfl

/-! ## Literal and quoted text -/

theorem expand_literal (hc : literal m c) (hstart : start = true → ¬startsSpecial m c) :
    expand m .no start (c :: t) = (expand m .no false t).map (c :: ·) := by
  obtain ⟨hquote, hspecial, hbrace⟩ := hc
  simp only [quoting, List.mem_cons, List.not_mem_nil, or_false, not_or] at hquote
  rw [expand, if_neg hquote.1, if_neg hquote.2.1, if_neg hquote.2.2, if_neg hbrace, if_neg]
  rintro (h | ⟨h, h'⟩)
  · exact hspecial h
  · exact hstart h h'

/-- Text of bytes that stand for themselves. -/
theorem expand_append (start : Bool) (t : List UInt8) (hp : ∀ c ∈ p, literal m c)
    (hstart : start = true → ∀ c, p.head? = some c → ¬startsSpecial m c) :
    expand m .no start (p ++ t) = (expand m .no (start && p.isEmpty) t).map (p ++ ·) := by
  induction p generalizing start with
  | nil => simp
  | cons c p ih =>
    rw [List.cons_append, expand_literal (hp c List.mem_cons_self) fun h => hstart h c rfl,
      ih false (fun d hd => hp d (List.mem_cons_of_mem _ hd)) (fun h => by cases h), Option.map_map]
    simp [Function.comp_def]

/-- Text between single quotes. -/
theorem expand_single (hs : squote ∉ s) :
    expand m .no start (squote :: s ++ squote :: t) = (expand m .no false t).map (s ++ ·) := by
  have hin : expand m .single false (s ++ squote :: t) = (expand m .no false t).map (s ++ ·) := by
    induction s with
    | nil => simp [expand]
    | cons c s ih =>
      rw [List.mem_cons, not_or] at hs
      rw [List.cons_append, expand, if_neg (Ne.symm hs.1), ih hs.2, Option.map_map]
      rfl
  rw [List.cons_append, expand, if_pos rfl, hin]

/-- A byte that ends the word or is expanded. -/
theorem expand_special (hq : c ∉ quoting) (hb : ¬(m = .braced ∧ c = closeBrace))
    (hc : c ∈ special m ∨ start = true ∧ startsSpecial m c) : expand m .no start (c :: t) = none := by
  simp only [quoting, List.mem_cons, List.not_mem_nil, or_false, not_or] at hq
  rw [expand, if_neg hq.1, if_neg hq.2.1, if_neg hq.2.2, if_neg hb, if_pos hc]

/-! ## What quote removal takes away -/

/-- What a byte counts for that was read and is not yet put out. -/
def pending (q : Quote) (x : UInt8) : ℕ := if q = .doubleEscaped ∧ x = bslash then 1 else 0

theorem pending_of_ne {q : Quote} (hq : q ≠ .doubleEscaped) (x : UInt8) : pending q x = 0 :=
  if_neg fun h => hq h.1

/-- No byte is there more often than in the text. -/
theorem expand_count_le {q : Quote} (h : expand m q start t = some v) (x : UInt8) :
    v.count x ≤ t.count x + pending q x := by
  fun_induction expand m q start t generalizing v with
  | case1 =>
    cases h
    exact Nat.zero_le _
  | case2 | case3 | case8 | case15 => cases h
  -- a byte that quotes is read
  | case4 | case5 | case6 | case7 | case10 | case12 | case14 | case16 | case18 =>
    rename_i ih
    have hle := ih h
    simp only [pending, List.count_cons, beq_iff_eq] at hle ⊢
    simp only [reduceCtorEq, false_and, true_and, if_false, add_zero] at hle ⊢
    split_ifs at hle ⊢ <;> first | omega | simp_all
  -- a byte is put out
  | case9 | case11 | case13 | case17 | case19 =>
    rename_i ih
    obtain ⟨u, hu, rfl⟩ := Option.map_eq_some_iff.1 h
    have hle := ih hu
    simp only [pending, List.count_cons, reduceCtorEq, false_and, if_false, add_zero] at hle ⊢
    omega
  | case20 =>
    rename_i ih
    obtain ⟨u, hu, rfl⟩ := Option.map_eq_some_iff.1 h
    have hle := ih hu
    simp only [pending, List.count_append, List.count_cons, List.count_nil, beq_iff_eq] at hle ⊢
    simp only [reduceCtorEq, false_and, true_and, if_false, add_zero, zero_add] at hle ⊢
    split_ifs at hle ⊢ <;> first | omega | simp_all

/-- A single quote is only there where something else was taken away. -/
theorem expand_squote {q : Quote} (hq : q = .no ∨ q = .single) (h : expand m q start t = some v)
    (hv : squote ∈ v) : v.count dquote < t.count dquote ∨ v.count bslash < t.count bslash := by
  have hcons : ∀ {c : UInt8} {w u : List UInt8}, c ≠ dquote → c ≠ bslash →
      (u.count dquote < w.count dquote ∨ u.count bslash < w.count bslash) →
      u.count dquote < (c :: w).count dquote ∨ u.count bslash < (c :: w).count bslash := by
    intro c w u hd hb hlt
    rwa [List.count_cons_of_ne hd, List.count_cons_of_ne hb]
  have hkeep : ∀ {c : UInt8} {w u : List UInt8},
      (u.count dquote < w.count dquote ∨ u.count bslash < w.count bslash) →
      (c :: u).count dquote < (c :: w).count dquote ∨ (c :: u).count bslash < (c :: w).count bslash := by
    intro c w u hlt
    simp only [List.count_cons]
    omega
  fun_induction expand m q start t generalizing v with
  | case1 =>
    cases h
    exact absurd hv List.not_mem_nil
  | case2 | case3 | case8 => cases h
  | case4 m start t ih => exact hcons (by decide) (by decide) (ih (.inr rfl) h hv)
  | case5 m start t _ ih =>
    refine .inl ((expand_count_le h dquote).trans_lt ?_)
    rw [pending_of_ne (by decide), List.count_cons_self]
    omega
  | case6 m start t _ _ ih =>
    refine .inr ((expand_count_le h bslash).trans_lt ?_)
    rw [pending_of_ne (by decide), List.count_cons_self]
    omega
  | case7 m start c t _ hd hb _ ih => exact hcons hd hb (ih (.inl rfl) h hv)
  | case9 m start c t hs _ _ _ _ ih =>
    obtain ⟨u, hu, rfl⟩ := Option.map_eq_some_iff.1 h
    exact hkeep (ih (.inl rfl) hu ((List.mem_cons.1 hv).resolve_left (Ne.symm hs)))
  | case12 m start t ih => exact hcons (by decide) (by decide) (ih (.inl rfl) h hv)
  | case13 m start c t hs ih =>
    obtain ⟨u, hu, rfl⟩ := Option.map_eq_some_iff.1 h
    exact hkeep (ih (.inr rfl) hu ((List.mem_cons.1 hv).resolve_left (Ne.symm hs)))
  | case10 | case11 | case14 | case15 | case16 | case17 | case18 | case19 | case20 => simp at hq

theorem exists_first_quoting (h : ¬∀ d ∈ p, d ∉ quoting) :
    ∃ a c b, p = a ++ c :: b ∧ (∀ d ∈ a, d ∉ quoting) ∧ c ∈ quoting := by
  induction p with
  | nil => exact absurd (fun d hd => absurd hd List.not_mem_nil) h
  | cons d p ih =>
    by_cases hd : d ∈ quoting
    · exact ⟨[], d, p, rfl, fun e he => absurd he List.not_mem_nil, hd⟩
    · obtain ⟨a, c, b, rfl, ha, hc⟩ := ih fun hp => h (List.forall_mem_cons.2 ⟨hd, hp⟩)
      exact ⟨d :: a, c, b, rfl, List.forall_mem_cons.2 ⟨hd, ha⟩, hc⟩

/-- The first byte that quotes is taken away. -/
theorem expand_quoting (hp : ∀ d ∈ p, d ∉ quoting) (hc : c ∈ quoting)
    (h : expand m .no start (p ++ c :: t) = some v) : v.count c < (p ++ c :: t).count c := by
  induction p generalizing m start v with
  | nil =>
    rw [List.nil_append, List.count_cons_self]
    simp only [quoting, List.mem_cons, List.not_mem_nil, or_false] at hc
    have hdone : ∀ {q : Quote} {start : Bool}, q ≠ .doubleEscaped → expand m q start t = some v →
        v.count c < t.count c + 1 := by
      intro q start hq h
      have hle := expand_count_le h c
      rw [pending_of_ne hq] at hle
      omega
    rw [List.nil_append, expand] at h
    rcases hc with rfl | rfl | rfl
    · exact hdone (by decide) ((if_pos rfl).symm.trans h)
    · rw [if_neg (by decide), if_pos rfl] at h
      exact hdone (by decide) h
    · rw [if_neg (by decide), if_neg (by decide), if_pos rfl] at h
      exact hdone (by decide) h
  | cons d p ih =>
    have hd := hp d List.mem_cons_self
    simp only [quoting, List.mem_cons, List.not_mem_nil, or_false, not_or] at hd
    rw [List.cons_append, expand, if_neg hd.1, if_neg hd.2.1, if_neg hd.2.2] at h
    rw [List.cons_append, List.count_cons]
    split_ifs at h
    · exact (ih (fun e he => hp e (List.mem_cons_of_mem _ he)) h).trans_le (Nat.le_add_right _ _)
    · obtain ⟨u, hu, rfl⟩ := Option.map_eq_some_iff.1 h
      rw [List.count_cons]
      exact Nat.add_lt_add_right (ih (fun e he => hp e (List.mem_cons_of_mem _ he)) hu) _

/-- Text that is not quoted is literal, or else no word comes out. -/
theorem literal_of_expand (hp : ∀ d ∈ p, d ∉ quoting) (hb : m = .braced → closeBrace ∉ p)
    (h : expand m .no start (p ++ t) = some v) : ∀ d ∈ p, literal m d := by
  induction p generalizing start v with
  | nil => exact fun d hd => absurd hd List.not_mem_nil
  | cons d p ih =>
    have hd := hp d List.mem_cons_self
    have hbrace : ¬(m = .braced ∧ d = closeBrace) := by
      rintro ⟨hm, rfl⟩
      exact hb hm List.mem_cons_self
    have hspecial : ¬(d ∈ special m ∨ start = true ∧ startsSpecial m d) := by
      intro hc
      rw [List.cons_append, expand_special hd hbrace hc] at h
      cases h
    rw [not_or, not_and] at hspecial
    rw [List.cons_append, expand_literal ⟨hd, hspecial.1, hbrace⟩ hspecial.2] at h
    obtain ⟨u, hu, -⟩ := Option.map_eq_some_iff.1 h
    have hrest := ih (fun e he => hp e (List.mem_cons_of_mem _ he))
      (fun hm hmem => hb hm (List.mem_cons_of_mem _ hmem)) hu
    intro e he
    rcases List.mem_cons.1 he with rfl | he
    · exact ⟨hd, hspecial.1, hbrace⟩
    · exact hrest e he

end Shell
