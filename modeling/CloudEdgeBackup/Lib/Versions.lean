/-
  Version stores over any linear order of versions.

  * a list of entries is `Ascending` when its versions increase; `upTo R` are the
    entries at most `R`, `newest R` is the last of them, `between f R` those
    after `f`;
  * `Follows` relates a chain of deltas to the contents it goes through, `replay`
    rebuilds a content from the deltas up to it;
  * `Rebuilds` relates deltas that are all against one full to the contents.
-/
import Mathlib

namespace Versions

section Sorted

variable {V X : Type*} [LinearOrder V]

/-! ## Sorted entries -/

/-- The versions increase. -/
def Ascending (l : List (V × X)) : Prop := l.Pairwise fun a b => a.1 < b.1

/-- The entries up to version `R`. -/
def upTo (R : V) (l : List (V × X)) : List (V × X) := l.takeWhile fun e => decide (e.1 ≤ R)

/-- How many entries there are up to version `R`. -/
def rank (R : V) (l : List (V × X)) : ℕ := (upTo R l).length

/-- The newest entry up to version `R`. -/
def newest (R : V) (l : List (V × X)) : Option (V × X) := (upTo R l).getLast?

/-- The entries after `f` up to version `R`. -/
def between (f R : V) (l : List (V × X)) : List (V × X) := (upTo R l).drop (rank f l)

variable {l : List (V × X)} {f R : V}

theorem Ascending.nodup (h : Ascending l) : (l.map Prod.fst).Nodup :=
  List.pairwise_map.2 (h.imp fun hlt => hlt.ne)

theorem upTo_nil (R : V) : upTo R ([] : List (V × X)) = [] := rfl

theorem upTo_cons (R : V) (e : V × X) (l : List (V × X)) :
    upTo R (e :: l) = if e.1 ≤ R then e :: upTo R l else [] := by
  simp only [upTo, List.takeWhile_cons, decide_eq_true_eq]

theorem rank_le (R : V) (l : List (V × X)) : rank R l ≤ l.length :=
  (List.takeWhile_prefix _).length_le

theorem upTo_eq_take (R : V) (l : List (V × X)) : upTo R l = l.take (rank R l) :=
  List.prefix_iff_eq_take.1 (List.takeWhile_prefix _)

theorem rank_mono (h : f ≤ R) (l : List (V × X)) : rank f l ≤ rank R l := by
  induction l with
  | nil => exact le_rfl
  | cons e l ih =>
    simp only [rank, upTo_cons] at ih ⊢
    by_cases hf : e.1 ≤ f
    · rw [if_pos hf, if_pos (hf.trans h)]
      simpa using ih
    · rw [if_neg hf]
      exact Nat.zero_le _

/-- **The entries up to `R` are the first ones.** -/
theorem Ascending.getElem_le_iff (h : Ascending l) (R : V) {i : ℕ} (hi : i < l.length) :
    l[i].1 ≤ R ↔ i < rank R l := by
  induction l generalizing i with
  | nil => simp at hi
  | cons e l ih =>
    obtain ⟨hlt, h⟩ := List.pairwise_cons.1 h
    rw [rank, upTo_cons]
    by_cases he : e.1 ≤ R
    · rw [if_pos he]
      cases i with
      | zero => simp [he]
      | succ i => simpa [rank] using ih h (by simpa using hi)
    · rw [if_neg he]
      cases i with
      | zero => simpa using he
      | succ i =>
        have := hlt _ (List.getElem_mem (by simpa using hi : i < l.length))
        simp only [List.getElem_cons_succ, List.length_nil, not_lt_zero, iff_false, not_le]
        exact (not_le.1 he).trans this

theorem Ascending.mem_upTo (h : Ascending l) {e : V × X} : e ∈ upTo R l ↔ e ∈ l ∧ e.1 ≤ R := by
  rw [upTo_eq_take]
  constructor
  · intro he
    obtain ⟨i, hi, rfl⟩ := List.getElem_of_mem he
    rw [List.length_take] at hi
    rw [List.getElem_take]
    exact ⟨List.getElem_mem _, (h.getElem_le_iff R _).2 (by omega)⟩
  · rintro ⟨he, hR⟩
    obtain ⟨i, hi, rfl⟩ := List.getElem_of_mem he
    have := (h.getElem_le_iff R hi).1 hR
    exact List.mem_take_iff_getElem.2 ⟨i, by omega, rfl⟩

theorem newest_eq_getElem? (R : V) (l : List (V × X)) :
    newest R l = if rank R l = 0 then none else l[rank R l - 1]? := by
  rw [newest, upTo_eq_take, List.getLast?_take]
  have := rank_le R l
  split_ifs with h
  · rfl
  · rw [List.getElem?_eq_getElem (by omega)]
    rfl

/-- The newest entry, by what it is. -/
theorem Ascending.newest_eq_some (h : Ascending l) {e : V × X} :
    newest R l = some e ↔ e ∈ l ∧ e.1 ≤ R ∧ ∀ e' ∈ l, e'.1 ≤ R → e'.1 ≤ e.1 := by
  rw [newest_eq_getElem?]
  have hle := rank_le R l
  constructor
  · intro he
    split_ifs at he with h0
    obtain ⟨hi, rfl⟩ := List.getElem?_eq_some_iff.1 he
    refine ⟨List.getElem_mem _, (h.getElem_le_iff R hi).2 (by omega), fun e' he' hR => ?_⟩
    obtain ⟨j, hj, rfl⟩ := List.getElem_of_mem he'
    have hjr := (h.getElem_le_iff R hj).1 hR
    rcases Nat.lt_or_ge j (rank R l - 1) with hlt | hge
    · exact (List.pairwise_iff_getElem.1 h j _ hj hi hlt).le
    · obtain rfl : j = rank R l - 1 := by omega
      exact le_rfl
  · rintro ⟨he, hR, hmax⟩
    obtain ⟨i, hi, rfl⟩ := List.getElem_of_mem he
    have hir := (h.getElem_le_iff R hi).1 hR
    rw [if_neg (by omega), List.getElem?_eq_getElem (by omega)]
    rcases Nat.lt_or_ge i (rank R l - 1) with hlt | hge
    · have := hmax _ (List.getElem_mem (by omega : rank R l - 1 < l.length))
        ((h.getElem_le_iff R _).2 (by omega))
      exact absurd (List.pairwise_iff_getElem.1 h i _ hi (by omega) hlt) (not_lt.2 this)
    · obtain rfl : i = rank R l - 1 := by omega
      rfl

theorem Ascending.newest_eq_none (h : Ascending l) : newest R l = none ↔ ∀ e ∈ l, R < e.1 := by
  rw [newest, List.getLast?_eq_none_iff]
  constructor
  · intro hn e he
    by_contra hR
    have := h.mem_upTo.2 ⟨he, not_lt.1 hR⟩
    rw [hn] at this
    cases this
  · intro hall
    refine List.eq_nil_iff_forall_not_mem.2 fun e he => ?_
    obtain ⟨hmem, hR⟩ := h.mem_upTo.1 he
    exact not_lt.2 hR (hall e hmem)

/-- Nothing lies between two versions: the entries up to them are the same. -/
theorem upTo_congr {m : V} (h : ∀ e ∈ l, e.1 ≤ R ↔ e.1 ≤ m) : upTo R l = upTo m l := by
  induction l with
  | nil => rfl
  | cons e l ih =>
    have he := h e (List.mem_cons_self ..)
    rw [upTo_cons, upTo_cons, ih fun e he => h e (List.mem_cons_of_mem _ he)]
    split_ifs with h₁ h₂ h₂
    · rfl
    · exact absurd (he.1 h₁) h₂
    · exact absurd (he.2 h₂) h₁
    · rfl

theorem between_eq (f R : V) (l : List (V × X)) :
    between f R l = (l.drop (rank f l)).take (rank R l - rank f l) := by
  rw [between, upTo_eq_take, List.drop_take]

theorem Ascending.mem_between (h : Ascending l) {e : V × X} :
    e ∈ between f R l ↔ e ∈ l ∧ f < e.1 ∧ e.1 ≤ R := by
  rw [between_eq]
  constructor
  · intro he
    obtain ⟨i, hi, rfl⟩ := List.getElem_of_mem he
    simp only [List.length_take, List.length_drop] at hi
    rw [List.getElem_take, List.getElem_drop]
    have hlt : rank f l + i < l.length := by omega
    refine ⟨List.getElem_mem _, ?_, (h.getElem_le_iff R hlt).2 (by omega)⟩
    rw [← not_le, h.getElem_le_iff f hlt]
    omega
  · rintro ⟨he, hf, hR⟩
    obtain ⟨i, hi, rfl⟩ := List.getElem_of_mem he
    rw [← not_le, h.getElem_le_iff f hi] at hf
    rw [h.getElem_le_iff R hi] at hR
    refine List.mem_take_iff_getElem.2 ⟨i - rank f l, by simp; omega, ?_⟩
    rw [List.getElem_drop]
    congr 1
    omega

/-- With everything after `f`, only the upper end counts. -/
theorem between_of_lt (h : ∀ e ∈ l, f < e.1) (R : V) : between f R l = upTo R l := by
  have : rank f l = 0 := by
    cases l with
    | nil => rfl
    | cons e l => rw [rank, upTo_cons, if_neg (not_le.2 (h e (by simp)))]; rfl
  rw [between, this, List.drop_zero]

/-- A last entry after `f` is the end of the window. -/
theorem between_append_singleton {e : V × X} (hl : ∀ a ∈ l, a.1 ≤ e.1) (hf : f < e.1) :
    between f e.1 (l ++ [e]) = between f e.1 l ++ [e] := by
  have hall : ∀ a ∈ l, decide (a.1 ≤ e.1) = true := fun a ha => by simpa using hl a ha
  have hup : upTo e.1 (l ++ [e]) = l ++ [e] := by
    rw [upTo, List.takeWhile_append_of_pos hall]
    simp
  have hup' : upTo e.1 l = l := List.takeWhile_eq_self_iff.2 hall
  have hrank : rank f (l ++ [e]) = rank f l := by
    unfold rank upTo
    rw [List.takeWhile_append]
    split_ifs with h
    · simp [hf, h]
    · rfl
  rw [between, between, hup, hup', hrank, List.drop_append_of_le_length (rank_le f l)]

/-- The last entry between two versions is the newest one, if it is after the first. -/
theorem Ascending.getLast?_between (h : Ascending l) :
    (between f R l).getLast? = (newest R l).filter fun e => decide (f < e.1) := by
  rw [between, List.getLast?_drop]
  cases hn : newest R l with
  | none =>
    rw [newest] at hn
    simp [hn]
  | some e =>
    have hlt : rank R l ≤ rank f l ↔ ¬ f < e.1 := by
      have hn := hn
      rw [newest_eq_getElem?] at hn
      split_ifs at hn with h0
      obtain ⟨hi, rfl⟩ := List.getElem?_eq_some_iff.1 hn
      rw [not_lt, h.getElem_le_iff f hi]
      omega
    rw [newest] at hn
    rw [rank] at hlt
    by_cases hf : f < e.1 <;> simp [hn, hlt, hf, Option.filter_some]

/-- The entries after a version. -/
theorem Ascending.drop_rank (h : Ascending l) (f : V) [DecidablePred fun d : V × X => f < d.1] :
    l.drop (rank f l) = l.filter fun d => decide (f < d.1) := by
  induction l with
  | nil => rfl
  | cons e l ih =>
    obtain ⟨hlt, hasc⟩ := List.pairwise_cons.1 h
    rw [rank, upTo_cons]
    by_cases he : e.1 ≤ f
    · rw [if_pos he, List.length_cons, List.drop_succ_cons, ← rank, ih hasc,
        List.filter_cons_of_neg (by simpa using he)]
    · rw [if_neg he, List.length_nil, List.drop_zero]
      refine (List.filter_eq_self.2 fun d hd => ?_).symm
      rw [decide_eq_true_eq]
      rcases List.mem_cons.1 hd with rfl | hd
      · exact not_le.1 he
      · exact (not_le.1 he).trans (hlt d hd)

theorem upTo_all (h : ∀ e ∈ l, e.1 ≤ R) : upTo R l = l :=
  List.takeWhile_eq_self_iff.2 fun e he => by simpa using h e he

/-- The last entry is the newest. -/
theorem Ascending.getLast_max (h : Ascending l) {e : V × X} (he : l.getLast? = some e) :
    e ∈ l ∧ ∀ a ∈ l, a.1 ≤ e.1 := by
  obtain ⟨pre, rfl⟩ := List.getLast?_eq_some_iff.1 he
  refine ⟨by simp, fun a ha => ?_⟩
  rcases List.mem_append.1 ha with ha | ha
  · exact ((List.pairwise_append.1 h).2.2 a ha e (List.mem_singleton_self e)).le
  · rw [List.mem_singleton.1 ha]

theorem Ascending.filter_tail {e : V × X} (h : Ascending (e :: l))
    [DecidablePred fun d : V × X => e.1 < d.1] :
    l.filter (fun a => decide (e.1 < a.1)) = l :=
  List.filter_eq_self.2 fun a ha => by simpa using (List.pairwise_cons.1 h).1 a ha

end Sorted

/-! ## Chains of deltas -/

section Chain

variable {V C D : Type*} (apply : C → D → Option C)

/-- Deltas applied one after the other. -/
def replay : C → List (V × D) → Option C
  | c, [] => some c
  | c, (_, d) :: ds => (apply c d).bind fun c => replay c ds

/-- Each delta leads from the content before it to its own. -/
def Follows : C → List (V × D) → List (V × C) → Prop
  | _, [], cs => cs = []
  | c, (v, d) :: ds, cs => ∃ c' cs', cs = (v, c') :: cs' ∧ apply c d = some c' ∧ Follows c' ds cs'

/-- Each delta leads from one content to its own. -/
def Rebuilds (c : C) (ds : List (V × D)) (cs : List (V × C)) : Prop :=
  List.Forall₂ (fun d e => d.1 = e.1 ∧ apply c d.2 = some e.2) ds cs

/-- The content at the end of a chain that starts with `c`. -/
def final (c : C) (cs : List (V × C)) : C := ((cs.getLast?).map Prod.snd).getD c

variable {apply} {c c' : C} {ds : List (V × D)} {cs : List (V × C)}

theorem final_append (c : C) (cs : List (V × C)) (e : V × C) : final c (cs ++ [e]) = e.2 := by
  simp [final]

theorem final_cons (c : C) (cs : List (V × C)) (e : V × C) : final c (e :: cs) = final e.2 cs := by
  cases h : cs.getLast? <;> simp [final, List.getLast?_cons, h]

theorem Follows.versions (h : Follows apply c ds cs) : ds.map Prod.fst = cs.map Prod.fst := by
  induction ds generalizing c cs with
  | nil => rw [show cs = [] from h]; rfl
  | cons e ds ih =>
    obtain ⟨c', cs', rfl, -, h⟩ := h
    simp [ih h]

theorem replay_append (c : C) (ds ds' : List (V × D)) :
    replay apply c (ds ++ ds') = (replay apply c ds).bind fun c => replay apply c ds' := by
  induction ds generalizing c with
  | nil => rfl
  | cons e ds ih =>
    rw [List.cons_append, replay, replay]
    cases h : apply c e.2 with
    | none => rfl
    | some c' => exact ih c'

/-- A further delta is against the content reached. -/
theorem Follows.append (h : Follows apply c ds cs) {v : V} {d : D}
    (hd : apply (final c cs) d = some c') :
    Follows apply c (ds ++ [(v, d)]) (cs ++ [(v, c')]) := by
  induction ds generalizing c cs with
  | nil =>
    obtain rfl : cs = [] := h
    exact ⟨c', [], rfl, hd, rfl⟩
  | cons e ds ih =>
    obtain ⟨c₁, cs', rfl, h₁, h⟩ := h
    rw [final_cons] at hd
    exact ⟨c₁, cs' ++ [(v, c')], rfl, h₁, ih h hd⟩

/-- **Replaying the deltas up to `R` rebuilds the newest content up to `R`.** -/
theorem Follows.replay_upTo [LinearOrder V] (h : Follows apply c ds cs) (R : V) :
    replay apply c (upTo R ds) = some (final c (upTo R cs)) := by
  induction ds generalizing c cs with
  | nil =>
    obtain rfl : cs = [] := h
    rfl
  | cons e ds ih =>
    obtain ⟨c₁, cs', rfl, h₁, h⟩ := h
    rw [upTo_cons, upTo_cons]
    by_cases he : e.1 ≤ R
    · rw [if_pos he, if_pos he, replay, h₁, final_cons]
      exact ih h
    · rw [if_neg he, if_neg he]
      rfl

/-- In a history the newest entry from `e` on is the end of the chain up to `R`. -/
theorem newest_append_cons [LinearOrder V] {old cs : List (V × C)} {e : V × C}
    (h : Ascending (old ++ e :: cs)) {R : V} (hR : e.1 ≤ R) :
    ∃ e', newest R (old ++ e :: cs) = some e' ∧ e'.2 = final e.2 (upTo R cs) := by
  have hold : ∀ a ∈ old, decide (a.1 ≤ R) = true := by
    intro a ha
    rw [decide_eq_true_eq]
    exact ((List.pairwise_append.1 h).2.2 a ha e (List.mem_cons_self ..)).le.trans hR
  have hup : upTo R (old ++ e :: cs) = old ++ e :: upTo R cs := by
    rw [upTo, List.takeWhile_append_of_pos hold, ← upTo, upTo_cons, if_pos hR]
  refine ⟨(upTo R cs).getLast?.getD e, ?_, ?_⟩
  · rw [newest, hup, List.getLast?_append, List.getLast?_cons]
    rfl
  · cases hl : (upTo R cs).getLast? <;> simp [final, hl]

theorem Rebuilds.versions (h : Rebuilds apply c ds cs) : ds.map Prod.fst = cs.map Prod.fst := by
  induction h with
  | nil => rfl
  | cons h _ ih => simp [h.1, ih]

theorem Rebuilds.append (h : Rebuilds apply c ds cs) {v : V} {d : D} (hd : apply c d = some c') :
    Rebuilds apply c (ds ++ [(v, d)]) (cs ++ [(v, c')]) :=
  List.rel_append h (List.Forall₂.cons ⟨rfl, hd⟩ List.Forall₂.nil)

end Chain

end Versions
