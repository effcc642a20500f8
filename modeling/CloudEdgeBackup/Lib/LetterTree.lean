/-
  Trees of words.

  A node is a letter, whether a word ends at it, the tree of what comes behind it (`child`), and the
  other letters in its place (`sibling`), in the order of their keys.

  * `Has` is that a word is in a tree;
  * `place` goes along the siblings to a letter, makes its node where there is none, and changes what
    is behind it; what it adds is one lemma (`has_place`), and it keeps the order (`Sorted.place`);
  * `walk` looks a word up letter by letter and gives up at the first larger letter.  In a sorted
    tree it finds the words of the tree (`walk_iff`).
-/
import Mathlib

inductive LetterTree (α : Type*) where
  | nil
  | node (letter : α) (wordEnd : Bool) (child sibling : LetterTree α)

variable {α κ : Type*}

namespace LetterTree

/-- The words of a tree; none of them is empty. -/
def Has : LetterTree α → List α → Prop
  | .nil, _ => False
  | .node _ _ _ _, [] => False
  | .node l e c s, x :: r => (x = l ∧ (r = [] ∧ e = true ∨ c.Has r)) ∨ s.Has (x :: r)

theorem not_has_empty (t : LetterTree α) : ¬t.Has [] := by
  cases t with
  | nil => exact id
  | node l e c s => exact id

theorem has_node {l x : α} {e : Bool} {c s : LetterTree α} {r : List α} :
    (node l e c s).Has (x :: r) ↔ (x = l ∧ (r = [] ∧ e = true ∨ c.Has r)) ∨ s.Has (x :: r) := Iff.rfl

section Order

variable [LinearOrder κ] (key : α → κ)

/-- The first letter of a tree is behind `k`. -/
def Behind (k : κ) : LetterTree α → Prop
  | .nil => True
  | .node l _ _ _ => k < key l

/-- The letters in one place are in the order of their keys. -/
def Sorted : LetterTree α → Prop
  | .nil => True
  | .node l _ c s => Behind key (key l) s ∧ c.Sorted ∧ s.Sorted

variable {key}

theorem Behind.mono {k k' : κ} {t : LetterTree α} (h : Behind key k t) (hk : k' ≤ k) : Behind key k' t := by
  cases t with
  | nil => trivial
  | node l e c s => exact lt_of_le_of_lt hk h

/-- No word starts with a letter in front of the first one. -/
theorem Sorted.not_has {t : LetterTree α} (h : t.Sorted key) {x : α} (hx : Behind key (key x) t) (r : List α) :
    ¬t.Has (x :: r) := by
  induction t with
  | nil => exact id
  | node l e c s _ ih =>
    rintro (⟨rfl, -⟩ | hs)
    · exact lt_irrefl _ hx
    · exact ih h.2.2 (h.1.mono hx.le) hs

end Order

/-! ## Adding words -/

section Place

variable [DecidableEq α] [LinearOrder κ] (key : α → κ)

/-- The node of a letter that was not there. -/
def fresh (x : α) (behind : Option (LetterTree α → LetterTree α)) (s : LetterTree α) : LetterTree α :=
  .node x behind.isNone (behind.elim .nil fun f => f .nil) s

/-- Goes to the letter `x` and changes what is behind it, or lets a word end there. -/
def place (x : α) (behind : Option (LetterTree α → LetterTree α)) : LetterTree α → LetterTree α
  | .nil => fresh x behind .nil
  | .node l e c s =>
    if l = x then
      behind.elim (.node l true c s) fun f => .node l e (f c) s
    else if key x < key l then fresh x behind (.node l e c s)
    else .node l e c (place x behind s)

/-- What is added behind a letter. -/
def Adds (behind : Option (LetterTree α → LetterTree α)) (P : List α → Prop) : Prop :=
  match behind with
  | none => ∀ r, P r ↔ r = []
  | some f => ∀ c r, (f c).Has r ↔ c.Has r ∨ P r

variable {key} {x : α} {behind : Option (LetterTree α → LetterTree α)} {P : List α → Prop} {t : LetterTree α}

omit [DecidableEq α] in
theorem has_fresh (h : Adds behind P) (s : LetterTree α) (w : List α) :
    (fresh x behind s).Has w ↔ s.Has w ∨ ∃ r, w = x :: r ∧ P r := by
  cases w with
  | nil =>
    refine iff_of_false (not_has_empty _) ?_
    rintro (hs | ⟨r, hr, -⟩)
    · exact not_has_empty s hs
    · cases hr
  | cons y r =>
    have hr : (r = [] ∧ behind.isNone = true ∨ (behind.elim .nil fun f => f .nil : LetterTree α).Has r) ↔ P r := by
      cases behind with
      | none => exact ⟨fun h' => (h r).2 (h'.elim And.left False.elim), fun h' => .inl ⟨(h r).1 h', rfl⟩⟩
      | some f => exact ⟨fun h' => h'.elim (fun h'' => by cases h''.2) fun h'' => ((h .nil r).1 h'').elim
          False.elim id, fun h' => .inr ((h .nil r).2 (.inr h'))⟩
    rw [fresh, has_node, hr, or_comm]
    refine or_congr_right ⟨?_, ?_⟩
    · rintro ⟨rfl, hp⟩
      exact ⟨r, rfl, hp⟩
    · rintro ⟨r', heq, hp⟩
      obtain ⟨rfl, rfl⟩ := List.cons.inj heq
      exact ⟨rfl, hp⟩

/-- **What `place` adds.** -/
theorem has_place (h : Adds behind P) (t : LetterTree α) (w : List α) :
    (place key x behind t).Has w ↔ t.Has w ∨ ∃ r, w = x :: r ∧ P r := by
  induction t with
  | nil => exact has_fresh h .nil w
  | node l e c s _ ih =>
    rw [place]
    split_ifs with hl hlt
    · subst hl
      cases w with
      | nil =>
        refine iff_of_false (not_has_empty _) ?_
        rintro (hs | ⟨r, hr, -⟩)
        · exact not_has_empty _ hs
        · cases hr
      | cons y r =>
        have hword : (∃ r', y :: r = l :: r' ∧ P r') ↔ y = l ∧ P r := by
          constructor
          · rintro ⟨r', heq, hp⟩
            obtain ⟨rfl, rfl⟩ := List.cons.inj heq
            exact ⟨rfl, hp⟩
          · rintro ⟨rfl, hp⟩
            exact ⟨r, rfl, hp⟩
        rw [hword]
        cases behind with
        | none =>
          rw [Option.elim_none, has_node, has_node, h r]
          constructor
          · rintro (⟨hy, ⟨hr, -⟩ | hc⟩ | hs)
            · exact .inr ⟨hy, hr⟩
            · exact .inl (.inl ⟨hy, .inr hc⟩)
            · exact .inl (.inr hs)
          · rintro ((⟨hy, ⟨hr, -⟩ | hc⟩ | hs) | ⟨hy, hr⟩)
            · exact .inl ⟨hy, .inl ⟨hr, rfl⟩⟩
            · exact .inl ⟨hy, .inr hc⟩
            · exact .inr hs
            · exact .inl ⟨hy, .inl ⟨hr, rfl⟩⟩
        | some f =>
          rw [Option.elim_some, has_node, has_node, h c r, ← or_assoc, and_or_left, or_right_comm]
    · exact has_fresh h _ w
    · cases w with
      | nil =>
        refine iff_of_false (not_has_empty _) ?_
        rintro (hs | ⟨r, hr, -⟩)
        · exact not_has_empty _ hs
        · cases hr
      | cons y r => rw [has_node, has_node, ih, or_assoc]

theorem behind_place {k : κ} (hk : k < key x) (h : Behind key k t) : Behind key k (place key x behind t) := by
  cases t with
  | nil => exact hk
  | node l e c s =>
    rw [place]
    split_ifs with hl hlt
    · cases behind with
      | none => exact h
      | some f => exact h
    · exact hk
    · exact h

/-- The order is kept. -/
theorem Sorted.place (hkey : Function.Injective key)
    (hbehind : ∀ f ∈ behind, ∀ c : LetterTree α, c.Sorted key → (f c).Sorted key) (ht : t.Sorted key) :
    (LetterTree.place key x behind t).Sorted key := by
  have hfresh : ∀ s : LetterTree α, Behind key (key x) s → s.Sorted key → (fresh x behind s).Sorted key := by
    intro s hs hsorted
    refine ⟨hs, ?_, hsorted⟩
    cases behind with
    | none => trivial
    | some f => exact hbehind f rfl .nil trivial
  induction t with
  | nil => exact hfresh .nil trivial trivial
  | node l e c s _ ih =>
    obtain ⟨hfirst, hc, hs⟩ := ht
    rw [LetterTree.place]
    split_ifs with hl hlt
    · cases behind with
      | none => exact ⟨hfirst, hc, hs⟩
      | some f => exact ⟨hfirst, hbehind f rfl c hc, hs⟩
    · exact hfresh _ hlt ⟨hfirst, hc, hs⟩
    · have hgt : key l < key x :=
        lt_of_le_of_ne (not_lt.1 hlt) fun h => hl (hkey h)
      exact ⟨behind_place hgt hfirst, hc, ih hs⟩

end Place

/-! ## Looking a word up -/

section Walk

variable [DecidableEq α] [LinearOrder κ] (key : α → κ)

/-- Looks up the word `x :: r`. -/
def walk : LetterTree α → α → List α → Bool
  | .nil, _, _ => false
  | .node l e c s, x, r =>
    if l = x then
      match r with
      | [] => e
      | y :: r => walk c y r
    else if key x < key l then false
    else walk s x r

variable {key}

/-- **In a sorted tree the walk finds the words.** -/
theorem walk_iff {t : LetterTree α} (h : t.Sorted key) (x : α) (r : List α) :
    walk key t x r = true ↔ t.Has (x :: r) := by
  induction t generalizing x r with
  | nil => exact iff_of_false Bool.false_ne_true id
  | node l e c s ihc ihs =>
    obtain ⟨hfirst, hc, hs⟩ := h
    rw [walk.eq_def, has_node]
    dsimp only
    split_ifs with hl hlt
    · subst hl
      have hno := hs.not_has hfirst r
      cases r with
      | nil => simp [hno, not_has_empty]
      | cons y r => simp [hno, ihc hc y r]
    · refine iff_of_false (fun h => by cases h) ?_
      rintro (⟨rfl, -⟩ | hword)
      · exact hl rfl
      · exact hs.not_has (hfirst.mono hlt.le) r hword
    · rw [ihs hs x r]
      exact ⟨.inr, fun h => h.resolve_left fun h' => hl h'.1.symm⟩

end Walk

end LetterTree
