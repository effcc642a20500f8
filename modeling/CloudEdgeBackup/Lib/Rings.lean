/-
  Half-circular doubly linked lists in a heap: `prev` leads from the first cell round to the
  last one, `next` of the last cell leads nowhere.

  * `Linked h p l`: the cells of the list `l` of addresses and values are linked one after the
    other in the heap `h`, and `prev` of the first one is `p`;
  * `Ring h first l`: they are all cells of the ring that starts at `first`;
  * `Ring.push`, `Ring.pop`, `Ring.modify`: a cell at the end, the first cell gone, another value.
-/
import CloudEdgeBackup.Lib.Bytes
import Mathlib.Data.List.Nodup
import Mathlib.Logic.Function.Basic

namespace Rings

variable {α : Type}

structure Cell (α : Type) where
  prev : Option ℕ
  next : Option ℕ
  val : α
deriving DecidableEq

abbrev Heap (α : Type) := ℕ → Option (Cell α)

/-- A change of the cell at an address. -/
def modify (h : Heap α) (a : ℕ) (f : Cell α → Cell α) : Heap α :=
  Function.update h a ((h a).map f)

@[simp] theorem modify_same (h : Heap α) (a : ℕ) (f : Cell α → Cell α) :
    modify h a f a = (h a).map f := Function.update_self ..

theorem modify_other {h : Heap α} {a b : ℕ} (f : Cell α → Cell α) (hb : b ≠ a) :
    modify h a f b = h b := Function.update_of_ne hb ..

/-- The cells of a list are linked one after the other. -/
def Linked (h : Heap α) : Option ℕ → List (ℕ × α) → Prop
  | _, [] => True
  | p, x :: l => h x.1 = some ⟨p, l.head?.map Prod.fst, x.2⟩ ∧ Linked h (some x.1) l

/-- The cells of a list form a ring that starts at `first`. -/
structure Ring (h : Heap α) (first : Option ℕ) (l : List (ℕ × α)) : Prop where
  nodup : (l.map Prod.fst).Nodup
  first_eq : first = l.head?.map Prod.fst
  linked : Linked h (l.getLast?.map Prod.fst) l

variable {h h' : Heap α} {p first : Option ℕ} {l pre post : List (ℕ × α)} {x : ℕ × α} {a b : ℕ}
  {v w : α}

theorem Linked.congr (hl : Linked h p l) (heq : ∀ y ∈ l, h' y.1 = h y.1) : Linked h' p l := by
  induction l generalizing p with
  | nil => trivial
  | cons y l ih =>
    refine ⟨(heq y List.mem_cons_self).trans hl.1, ih hl.2 ?_⟩
    exact fun z hz => heq z (List.mem_cons_of_mem _ hz)

/-- The cell in the middle of a list. -/
theorem Linked.cell (hl : Linked h p (pre ++ x :: post)) :
    h x.1 = some ⟨(pre.getLast?.map Prod.fst).or p, post.head?.map Prod.fst, x.2⟩ := by
  induction pre generalizing p with
  | nil => exact hl.1
  | cons y pre ih =>
    rw [ih hl.2]
    cases hlast : pre.getLast? with
    | none => simp [List.getLast?_eq_none_iff.1 hlast]
    | some z => simp [List.getLast?_cons, hlast]

/-- A new cell behind the last one. -/
theorem Linked.push {y : ℕ × α} (hl : Linked h p (pre ++ [x]))
    (hx : x.1 ∉ pre.map Prod.fst) (hsame : ∀ z ∈ pre, h' z.1 = h z.1)
    (hlast : h' x.1 = (h x.1).map fun c => { c with next := some y.1 })
    (hnew : h' y.1 = some ⟨some x.1, none, y.2⟩) : Linked h' p (pre ++ [x, y]) := by
  induction pre generalizing p with
  | nil =>
    have hcell : h x.1 = some ⟨p, none, x.2⟩ := hl.1
    exact ⟨by rw [hlast, hcell]; rfl, hnew, trivial⟩
  | cons z pre ih =>
    refine ⟨?_, ih hl.2 (fun hin => hx (List.mem_cons_of_mem _ hin))
      fun u hu => hsame u (List.mem_cons_of_mem _ hu)⟩
    rw [hsame z List.mem_cons_self, hl.1]
    cases pre <;> rfl

namespace Ring

theorem empty : Ring h none [] := ⟨List.nodup_nil, rfl, trivial⟩

theorem single (a : ℕ) (v : α) (ha : h a = some ⟨some a, none, v⟩) : Ring h (some a) [(a, v)] :=
  ⟨List.nodup_singleton a, rfl, ha, trivial⟩

theorem congr (hr : Ring h first l) (heq : ∀ y ∈ l, h' y.1 = h y.1) : Ring h' first l :=
  ⟨hr.nodup, hr.first_eq, hr.linked.congr heq⟩

/-- The cell of the ring at a position. -/
theorem cell (hr : Ring h first (pre ++ x :: post)) :
    h x.1 = some ⟨(pre.getLast?.map Prod.fst).or ((pre ++ x :: post).getLast?.map Prod.fst),
      post.head?.map Prod.fst, x.2⟩ := hr.linked.cell

theorem live (hr : Ring h first l) (hx : x ∈ l) : ∃ c, h x.1 = some c ∧ c.val = x.2 := by
  obtain ⟨pre, post, rfl⟩ := List.append_of_mem hx
  exact ⟨_, hr.cell, rfl⟩

/-- A cell of the ring has a `prev`. -/
theorem prev_isSome (hr : Ring h first l) (hx : x ∈ l) {c : Cell α} (hc : h x.1 = some c) :
    ∃ p, c.prev = some p := by
  obtain ⟨pre, post, rfl⟩ := List.append_of_mem hx
  rw [hr.cell, Option.some.injEq] at hc
  rw [← hc]
  cases pre.getLast? with
  | some y => exact ⟨y.1, rfl⟩
  | none =>
    rw [List.getLast?_append, List.getLast?_cons]
    exact ⟨_, rfl⟩

theorem notMem_of_nodup (hr : Ring h first (pre ++ x :: post)) :
    x.1 ∉ pre.map Prod.fst ∧ x.1 ∉ post.map Prod.fst := by
  have hnd := hr.nodup
  rw [List.map_append, List.map_cons, List.nodup_append] at hnd
  refine ⟨fun hin => hnd.2.2 x.1 hin x.1 List.mem_cons_self rfl, ?_⟩
  exact (List.nodup_cons.1 hnd.2.1).1

/-- **Another value in a cell** leaves the links alone. -/
theorem modify (hr : Ring h first (pre ++ (a, v) :: post)) (w : α) :
    Ring (Rings.modify h a fun c => { c with val := w }) first (pre ++ (a, w) :: post) := by
  obtain ⟨hpre, hpost⟩ : a ∉ pre.map Prod.fst ∧ a ∉ post.map Prod.fst := hr.notMem_of_nodup
  refine ⟨by simpa using hr.nodup, ?_, ?_⟩
  · rw [hr.first_eq]
    cases pre <;> rfl
  have hlast : (pre ++ (a, w) :: post).getLast?.map Prod.fst =
      (pre ++ (a, v) :: post).getLast?.map Prod.fst := by
    rw [← List.getLast?_map, ← List.getLast?_map, List.map_append, List.map_append]
    rfl
  rw [hlast]
  have hlinked := hr.linked
  revert hlinked
  generalize (pre ++ (a, v) :: post).getLast?.map Prod.fst = q
  clear hr hlast
  induction pre generalizing q with
  | nil =>
    intro hl
    refine ⟨by rw [modify_same, hl.1]; rfl, hl.2.congr ?_⟩
    intro y hy
    exact modify_other _ fun heq => hpost (heq ▸ List.mem_map_of_mem hy)
  | cons y pre ih =>
    intro hl
    refine ⟨?_, ih (fun hin => hpre (List.mem_cons_of_mem _ hin)) _ hl.2⟩
    have hya : y.1 ≠ a := fun heq => hpre (heq ▸ List.mem_cons_self)
    rw [modify_other _ hya, hl.1]
    cases pre <;> rfl

/-- **A cell at the end** of a ring that is not empty, linked in as `prev->next` and
    `first->prev`. -/
theorem push {y : ℕ × α} (hr : Ring h (some a) (pre ++ [x]))
    (hy : y.1 ∉ (pre ++ [x]).map Prod.fst) :
    Ring (Rings.modify (Rings.modify (Function.update h y.1 (some ⟨some x.1, none, y.2⟩)) x.1
      fun c => { c with next := some y.1 }) a fun c => { c with prev := some y.1 })
      (some a) (pre ++ [x, y]) := by
  have hxy : x.1 ≠ y.1 := fun heq => hy (by rw [← heq]; simp)
  obtain ⟨hxpre, -⟩ := hr.notMem_of_nodup
  set h₁ := Function.update h y.1 (some (⟨some x.1, none, y.2⟩ : Cell α)) with hh₁
  set h₂ := Rings.modify h₁ x.1 fun c => { c with next := some y.1 } with hh₂
  have hother : ∀ z ∈ pre, h₂ z.1 = h z.1 := by
    intro z hz
    have hzx : z.1 ≠ x.1 := fun heq => hxpre (heq ▸ List.mem_map_of_mem hz)
    have hzy : z.1 ≠ y.1 := fun heq => hy (by
      rw [← heq]
      exact List.mem_map_of_mem (List.mem_append_left _ hz))
    rw [hh₂, modify_other _ hzx, hh₁, Function.update_of_ne hzy]
  have hold : h₁ x.1 = h x.1 := by rw [hh₁, Function.update_of_ne hxy]
  have hpush : Linked h₂ ((pre ++ [x]).getLast?.map Prod.fst) (pre ++ [x, y]) := by
    refine hr.linked.push hxpre hother (by rw [hh₂, modify_same, hold]) ?_
    rw [hh₂, modify_other _ hxy.symm, hh₁, Function.update_self]
  refine ⟨?_, ?_, ?_⟩
  · have hnd := hr.nodup
    rw [List.append_cons, List.map_append, List.map_singleton, List.nodup_append]
    refine ⟨hnd, List.nodup_singleton _, ?_⟩
    intro u hu u' hu' heq
    rw [List.mem_singleton.1 hu'] at heq
    exact hy (heq ▸ hu)
  · rw [hr.first_eq]
    cases pre <;> rfl
  · -- the first cell alone changes once more
    have hfirst := hr.first_eq
    rw [show (pre ++ [x, y]).getLast? = some y by rw [List.append_cons]; simp]
    have hnd : a ∉ ((pre ++ [x, y]).tail).map Prod.fst := by
      cases pre with
      | nil =>
        have hax : a = x.1 := Option.some.inj hfirst
        simp [hax, hxy]
      | cons z pre =>
        have haz : a = z.1 := Option.some.inj hfirst
        have hnd := hr.nodup
        rw [List.cons_append, List.map_cons, List.nodup_cons] at hnd
        have hzy : z.1 ≠ y.1 := fun heq => hy (by rw [← heq]; simp)
        rw [haz]
        simpa [hzy] using hnd.1
    generalize hlist : pre ++ [x, y] = l' at hpush hnd ⊢
    cases l' with
    | nil => exact trivial
    | cons z l' =>
      have haz : a = z.1 := by
        cases pre <;> simp_all
      refine ⟨?_, hpush.2.congr ?_⟩
      · rw [haz, modify_same, hpush.1]
        rfl
      · intro u hu
        exact modify_other _ fun heq => hnd (heq ▸ List.mem_map_of_mem hu)

/-- **The first cell gone**: `next->prev` takes over its `prev`. -/
theorem pop {y : ℕ × α} (hr : Ring h first (x :: y :: l))
    (hp : p = (x :: y :: l).getLast?.map Prod.fst) :
    Ring (Function.update (Rings.modify h y.1 fun c => { c with prev := p }) x.1 none) (some y.1)
      (y :: l) := by
  have hnd := hr.nodup
  rw [List.map_cons, List.nodup_cons, List.map_cons, List.nodup_cons] at hnd
  have hxy : y.1 ≠ x.1 := fun heq => hnd.1 (heq ▸ List.mem_cons_self)
  refine ⟨List.nodup_cons.2 hnd.2, rfl, ?_, ?_⟩
  · rw [Function.update_of_ne hxy, modify_same, hr.linked.2.1, hp]
    rfl
  · refine hr.linked.2.2.congr fun z hz => ?_
    have hzx : z.1 ≠ x.1 := fun heq =>
      hnd.1 (heq ▸ List.mem_cons_of_mem _ (List.mem_map_of_mem hz))
    have hzy : z.1 ≠ y.1 := fun heq => hnd.2.1 (heq ▸ List.mem_map_of_mem hz)
    rw [Function.update_of_ne hzx, modify_other _ hzy]

end Ring

end Rings
