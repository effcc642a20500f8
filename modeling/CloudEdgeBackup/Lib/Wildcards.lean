/-
  Wildcard patterns, and a matcher that knows when to give up.

  * a pattern is a list of elements: one symbol of a set, something that nothing matches, or a
    star, which stands for every string or for those without the separator;
  * `lang` is the language of a pattern: the product of the languages of its elements;
  * `scan` reads a text from the left and tries every place behind a star. Where it fails, it says
    how much is lost with this place: only this place, all up to the next separator, or all.
-/
import Mathlib.Computability.Language
import Mathlib.Data.List.Chain

namespace Wildcards

variable {α : Type*}

/-! ## Patterns -/

/-- The elements of a pattern. -/
inductive Elem (α : Type*) where
  | one (accepts : α → Bool)
  | never
  | star (deep : Bool)

namespace Elem

/-- The strings an element stands for; only a deep star passes the separator. -/
def lang (sep : α) : Elem α → Language α
  | one accepts => {w | ∃ c, w = [c] ∧ accepts c = true}
  | never => 0
  | star deep => {w | deep = true ∨ sep ∉ w}

/-- The element is a star. -/
def IsStar : Elem α → Prop
  | star _ => True
  | _ => False

/-- An element that accepts the separator accepts nothing else. -/
def Proper (sep : α) : Elem α → Prop
  | one accepts => accepts sep = true → ∀ c, accepts c = true → c = sep
  | _ => True

end Elem

/-- The language of a pattern. -/
def lang (sep : α) (p : List (Elem α)) : Language α :=
  (p.map (Elem.lang sep)).prod

/-- Patterns as the matcher expects them: no star stands next to another. -/
structure Legal (sep : α) (p : List (Elem α)) : Prop where
  apart : p.IsChain fun e e' => e.IsStar → ¬e'.IsStar
  proper : ∀ e ∈ p, e.Proper sep

section Language

variable {sep : α} {p : List (Elem α)} {accepts : α → Bool} {deep : Bool} {t : List α}

theorem mem_lang_nil : t ∈ lang sep [] ↔ t = [] :=
  Language.mem_one t

theorem mem_lang_cons {e : Elem α} :
    t ∈ lang sep (e :: p) ↔ ∃ u ∈ e.lang sep, ∃ v ∈ lang sep p, u ++ v = t := by
  rw [lang, List.map_cons, List.prod_cons]
  exact Language.mem_mul

theorem mem_lang_one : t ∈ lang sep (.one accepts :: p) ↔
    ∃ c v, t = c :: v ∧ accepts c = true ∧ v ∈ lang sep p := by
  rw [mem_lang_cons]
  constructor
  · rintro ⟨u, ⟨c, rfl, hc⟩, v, hv, rfl⟩
    exact ⟨c, v, rfl, hc, hv⟩
  · rintro ⟨c, v, rfl, hc, hv⟩
    exact ⟨[c], ⟨c, rfl, hc⟩, v, hv, rfl⟩

theorem cons_mem_lang_one {c : α} :
    c :: t ∈ lang sep (.one accepts :: p) ↔ accepts c = true ∧ t ∈ lang sep p := by
  rw [mem_lang_one]
  constructor
  · rintro ⟨c', v, heq, hc, hv⟩
    obtain ⟨rfl, rfl⟩ := List.cons.inj heq
    exact ⟨hc, hv⟩
  · rintro ⟨hc, ht⟩
    exact ⟨c, t, rfl, hc, ht⟩

theorem not_mem_lang_never : t ∉ lang sep (.never :: p) := by
  rw [mem_lang_cons]
  rintro ⟨u, hu, -⟩
  exact Language.notMem_zero u hu

theorem mem_lang_star : t ∈ lang sep (.star deep :: p) ↔
    ∃ u v, t = u ++ v ∧ (deep = true ∨ sep ∉ u) ∧ v ∈ lang sep p := by
  rw [mem_lang_cons]
  constructor
  · rintro ⟨u, hu, v, hv, rfl⟩
    exact ⟨u, v, rfl, hu, hv⟩
  · rintro ⟨u, v, rfl, hu, hv⟩
    exact ⟨u, hu, v, hv, rfl⟩

/-- A star takes nothing, or the first symbol and then what follows. -/
theorem cons_mem_lang_star {c : α} : c :: t ∈ lang sep (.star deep :: p) ↔
    c :: t ∈ lang sep p ∨ (deep = true ∨ c ≠ sep) ∧ t ∈ lang sep (.star deep :: p) := by
  rw [mem_lang_star, mem_lang_star]
  constructor
  · rintro ⟨u, v, heq, hu, hv⟩
    cases u with
    | nil => exact .inl (heq ▸ hv)
    | cons d u =>
      obtain ⟨rfl, rfl⟩ := List.cons.inj heq
      refine .inr ⟨hu.imp_right fun h heq => h (heq ▸ List.mem_cons_self), u, v, rfl, ?_, hv⟩
      exact hu.imp_right fun h hmem => h (List.mem_cons_of_mem _ hmem)
  · rintro (h | ⟨hc, u, v, rfl, hu, hv⟩)
    · exact ⟨[], c :: t, rfl, .inr List.not_mem_nil, h⟩
    · refine ⟨c :: u, v, rfl, ?_, hv⟩
      rcases hc with hc | hc
      · exact .inl hc
      · refine hu.imp_right fun h hmem => ?_
        rcases List.mem_cons.1 hmem with heq | hmem
        · exact hc heq.symm
        · exact h hmem

theorem nil_mem_lang_star : [] ∈ lang sep (.star deep :: p) ↔ [] ∈ lang sep p := by
  rw [mem_lang_star]
  constructor
  · rintro ⟨u, v, heq, -, hv⟩
    rw [List.nil_eq_append_iff] at heq
    exact heq.2 ▸ hv
  · intro h
    exact ⟨[], [], rfl, .inr List.not_mem_nil, h⟩

theorem exists_cons_eq_append_sep {c : α} {L : Language α} :
    (∃ u v, c :: t = u ++ sep :: v ∧ v ∈ L) ↔ (c = sep ∧ t ∈ L) ∨ ∃ u v, t = u ++ sep :: v ∧ v ∈ L := by
  constructor
  · rintro ⟨u, v, heq, hv⟩
    cases u with
    | nil =>
      obtain ⟨rfl, rfl⟩ := List.cons.inj heq
      exact .inl ⟨rfl, hv⟩
    | cons d u => exact .inr ⟨u, v, (List.cons.inj heq).2, hv⟩
  · rintro (⟨rfl, ht⟩ | ⟨u, v, rfl, hv⟩)
    · exact ⟨[], t, rfl, ht⟩
    · exact ⟨c :: u, v, rfl, hv⟩

theorem Legal.tail {e : Elem α} (h : Legal sep (e :: p)) : Legal sep p :=
  ⟨h.apart.tail, fun e' he' => h.proper e' (List.mem_cons_of_mem _ he')⟩

/-- What follows a star needs at least one symbol. -/
theorem Legal.nil_not_mem (h : Legal sep (.star deep :: p)) (hp : p ≠ []) : [] ∉ lang sep p := by
  cases p with
  | nil => exact absurd rfl hp
  | cons e p =>
    cases e with
    | one accepts =>
      rw [mem_lang_one]
      rintro ⟨c, v, heq, -⟩
      cases heq
    | never => exact not_mem_lang_never
    | star => exact absurd trivial ((List.isChain_cons_cons.1 h.apart).1 trivial)

end Language

/-! ## The matcher -/

/-- How an attempt ends: what fails for good is not tried again further on. -/
inductive Outcome where
  | yes
  | no
  | abortAll
  | abortToStarstar
  deriving DecidableEq

/-- What an outcome says about a text and a language. -/
def Outcome.Right (sep : α) (L : Language α) (t : List α) : Outcome → Prop
  | yes => t ∈ L
  | no => t ∉ L
  | abortAll => ∀ v, v <:+ t → v ∉ L
  | abortToStarstar => ∀ u v, t = u ++ v → sep ∉ u → v ∉ L

theorem Outcome.Right.iff {sep : α} {L : Language α} {t : List α} {o : Outcome} (h : o.Right sep L t) :
    o = .yes ↔ t ∈ L := by
  cases o with
  | yes => exact iff_of_true rfl h
  | no => exact iff_of_false (by simp) h
  | abortAll => exact iff_of_false (by simp) (h t List.suffix_rfl)
  | abortToStarstar => exact iff_of_false (by simp) (h [] t rfl List.not_mem_nil)

/-- A place that failed is left for the next one. -/
theorem Outcome.Right.step {sep : α} {p : List (Elem α)} {deep : Bool} {t : List α} {o : Outcome}
    {c : α} (hnot : c :: t ∉ lang sep p)
    (hpass : deep = true ∨ c ≠ sep) (h : o.Right sep (lang sep (.star deep :: p)) t) :
    o.Right sep (lang sep (.star deep :: p)) (c :: t) := by
  have hcons : t ∉ lang sep (.star deep :: p) → c :: t ∉ lang sep (.star deep :: p) := by
    rintro ht hmem
    rcases cons_mem_lang_star.1 hmem with hmem | ⟨-, hmem⟩
    · exact hnot hmem
    · exact ht hmem
  cases o with
  | yes => exact cons_mem_lang_star.2 (.inr ⟨hpass, h⟩)
  | no => exact hcons h
  | abortAll =>
    intro v hv
    rcases List.suffix_cons_iff.1 hv with rfl | hv
    · exact hcons (h t List.suffix_rfl)
    · exact h v hv
  | abortToStarstar =>
    intro u v heq hu
    cases u with
    | nil =>
      obtain rfl : c :: t = v := heq
      exact hcons (h [] t rfl List.not_mem_nil)
    | cons d u =>
      obtain ⟨-, hrest⟩ := List.cons.inj heq
      exact h u v hrest fun hmem => hu (List.mem_cons_of_mem _ hmem)

variable [DecidableEq α]

/-- The places behind a star, from the left. -/
def starLoop (sep : α) (deep : Bool) (f : List α → Outcome) : List α → Outcome
  | [] => .abortAll
  | c :: t =>
    match f (c :: t) with
    | .yes => .yes
    | .abortAll => .abortAll
    | .no => if !deep && c == sep then .abortToStarstar else starLoop sep deep f t
    | .abortToStarstar => if deep then starLoop sep deep f t else .abortToStarstar

/-- The matcher. -/
def scan (sep : α) : List (Elem α) → List α → Outcome
  | [], t => if t.isEmpty then .yes else .no
  | .one _ :: _, [] => .abortAll
  | .one accepts :: p, c :: t => if accepts c then scan sep p t else .no
  | .never :: _, _ => .abortAll
  | [.star deep], t => if !deep && t.contains sep then .no else .yes
  | .star deep :: e :: p, t => starLoop sep deep (scan sep (e :: p)) t

section Scan

variable {sep : α} {p : List (Elem α)} {deep : Bool} {f : List α → Outcome} {t : List α}

/-- The loop behind a star is right when the attempts are. -/
theorem starLoop_right (hnil : [] ∉ lang sep p) (hf : ∀ t, (f t).Right sep (lang sep p) t) (t : List α) :
    (starLoop sep deep f t).Right sep (lang sep (.star deep :: p)) t := by
  induction t with
  | nil =>
    intro v hv
    rw [List.suffix_nil.1 hv, nil_mem_lang_star]
    exact hnil
  | cons c t ih =>
    have hct := hf (c :: t)
    rw [starLoop]
    cases ho : f (c :: t) with
    | yes =>
      rw [ho] at hct
      exact cons_mem_lang_star.2 (.inl hct)
    | abortAll =>
      rw [ho] at hct
      intro v hv hmem
      obtain ⟨u, w, rfl, -, hw⟩ := mem_lang_star.1 hmem
      exact hct w ((List.suffix_append u w).trans hv) hw
    | no =>
      rw [ho] at hct
      by_cases hstop : deep = false ∧ c = sep
      · -- a place behind the separator is out of the star's reach
        obtain ⟨rfl, rfl⟩ := hstop
        simp only [Bool.not_false, beq_self_eq_true, Bool.and_self, if_true]
        intro u v heq hu hmem
        cases u with
        | nil =>
          obtain rfl : c :: t = v := heq
          rcases cons_mem_lang_star.1 hmem with hmem | ⟨hpass, -⟩
          · exact hct hmem
          · simp at hpass
        | cons d u =>
          obtain ⟨rfl, -⟩ := List.cons.inj heq
          exact hu List.mem_cons_self
      · have hpass : deep = true ∨ c ≠ sep := by
          rcases Bool.eq_false_or_eq_true deep with h | h
          · exact .inl h
          · exact .inr fun heq => hstop ⟨h, heq⟩
        have hcond : (!deep && c == sep) = false := by
          rcases hpass with h | h <;> simp [h]
        simp only [hcond, Bool.false_eq_true, if_false]
        exact ih.step hct hpass
    | abortToStarstar =>
      rw [ho] at hct
      cases deep with
      | true => exact ih.step (hct [] (c :: t) rfl List.not_mem_nil) (.inl rfl)
      | false =>
        intro u v heq hu hmem
        obtain ⟨u', w, rfl, hu', hw⟩ := mem_lang_star.1 hmem
        rw [← List.append_assoc] at heq
        refine hct (u ++ u') w heq ?_ hw
        rw [List.mem_append]
        rintro (h | h)
        · exact hu h
        · exact (hu'.resolve_left (by simp)) h

/-- **The matcher is right, and so are the places it does not try.** -/
theorem scan_right (h : Legal sep p) (t : List α) : (scan sep p t).Right sep (lang sep p) t := by
  induction p generalizing t with
  | nil =>
    cases t with
    | nil => exact mem_lang_nil.2 rfl
    | cons c t => exact fun hmem => List.cons_ne_nil _ _ (mem_lang_nil.1 hmem)
  | cons e p ih =>
    cases e with
    | one accepts =>
      cases t with
      | nil =>
        intro v hv hmem
        obtain ⟨c, w, rfl, -⟩ := mem_lang_one.1 hmem
        exact List.cons_ne_nil _ _ (List.suffix_nil.1 hv)
      | cons c t =>
        rw [scan]
        cases hc : accepts c with
        | false =>
          intro hmem
          rw [(cons_mem_lang_one.1 hmem).1] at hc
          cases hc
        | true =>
          have ht := ih h.tail t
          rw [if_pos rfl]
          cases ho : scan sep p t with
          | yes =>
            rw [ho] at ht
            exact cons_mem_lang_one.2 ⟨hc, ht⟩
          | no =>
            rw [ho] at ht
            exact fun hmem => ht (cons_mem_lang_one.1 hmem).2
          | abortAll =>
            rw [ho] at ht
            intro v hv hmem
            obtain ⟨d, w, rfl, -, hw⟩ := mem_lang_one.1 hmem
            refine ht w ?_ hw
            rcases List.suffix_cons_iff.1 hv with heq | hv
            · exact (List.cons.inj heq).2 ▸ List.suffix_rfl
            · exact (List.suffix_cons d w).trans hv
          | abortToStarstar =>
            rw [ho] at ht
            intro u v heq hu hmem
            obtain ⟨d, w, rfl, hd, hw⟩ := mem_lang_one.1 hmem
            cases u with
            | nil => exact ht [] t rfl List.not_mem_nil ((List.cons.inj heq).2 ▸ hw)
            | cons c' u =>
              obtain ⟨rfl, rfl⟩ := List.cons.inj heq
              refine ht (u ++ [d]) w (by simp) ?_ hw
              rw [List.mem_append, List.mem_singleton]
              rintro (hmem | rfl)
              · exact hu (List.mem_cons_of_mem _ hmem)
              · -- an element that takes the separator took it at the first place, too
                exact hu (h.proper _ List.mem_cons_self hd c hc ▸ List.mem_cons_self)
    | never =>
      intro v _
      exact not_mem_lang_never
    | star deep =>
      cases p with
      | nil =>
        have hiff : t ∈ lang sep [.star deep] ↔ deep = true ∨ sep ∉ t := by
          rw [mem_lang_star]
          constructor
          · rintro ⟨u, v, rfl, hu, hv⟩
            rwa [mem_lang_nil.1 hv, List.append_nil]
          · intro ht
            exact ⟨t, [], (List.append_nil t).symm, ht, mem_lang_nil.2 rfl⟩
        rw [scan]
        split_ifs with hc
        · rw [Bool.and_eq_true, Bool.not_eq_true', List.contains_iff_mem] at hc
          exact fun hmem => (hiff.1 hmem).elim (by simp [hc.1]) fun hnot => hnot hc.2
        · refine hiff.2 ?_
          rw [Bool.and_eq_true, Bool.not_eq_true', List.contains_iff_mem, not_and] at hc
          exact (Bool.eq_false_or_eq_true deep).imp_right hc
      | cons e' p => exact starLoop_right (h.nil_not_mem (List.cons_ne_nil _ _)) (ih h.tail) t

/-- **The matcher says yes to the words of the pattern's language.** -/
theorem scan_eq_yes_iff (h : Legal sep p) : scan sep p t = .yes ↔ t ∈ lang sep p :=
  (scan_right h t).iff

end Scan

/-! ## Attempts behind every separator -/

/-- The attempts behind the separators of a text, from the left. -/
def afterSeps (sep : α) (f : List α → Outcome) : List α → Bool
  | [] => false
  | c :: t =>
    if c = sep then
      match f t with
      | .yes => true
      | .abortAll => false
      | .no => afterSeps sep f t
      | .abortToStarstar => afterSeps sep f t
    else afterSeps sep f t

/-- **An attempt behind a separator succeeds when a word of the language ends the text there.** -/
theorem afterSeps_eq_true_iff {sep : α} {f : List α → Outcome} {L : Language α}
    (hf : ∀ t, (f t).Right sep L t) (t : List α) :
    afterSeps sep f t = true ↔ ∃ u v, t = u ++ sep :: v ∧ v ∈ L := by
  induction t with
  | nil => simp [afterSeps]
  | cons c t ih =>
    rw [afterSeps, exists_cons_eq_append_sep]
    by_cases hc : c = sep
    · have ht := hf t
      rw [if_pos hc]
      cases ho : f t with
      | yes =>
        rw [ho] at ht
        exact iff_of_true rfl (.inl ⟨hc, ht⟩)
      | no =>
        rw [ho] at ht
        rw [ih]
        exact (or_iff_right fun h => ht h.2).symm
      | abortToStarstar =>
        rw [ho] at ht
        rw [ih]
        exact (or_iff_right fun h => ht [] t rfl List.not_mem_nil h.2).symm
      | abortAll =>
        rw [ho] at ht
        refine iff_of_false Bool.false_ne_true ?_
        rintro (⟨-, hmem⟩ | ⟨u, v, rfl, hv⟩)
        · exact ht t List.suffix_rfl hmem
        · exact ht v ((List.suffix_cons sep v).trans (List.suffix_append u _)) hv
    · rw [if_neg hc, ih]
      exact (or_iff_right fun h => hc h.1).symm

end Wildcards
