/-
  Paths below a root directory.

  * a directory is the list of the names that lead to it from the root, the
    innermost first; a path is a list of components (`Comp`);
  * `walk` follows a path and fails where it would go above the root, `clamp`
    follows it as a process confined to the root does: `up` at the root stays;
  * `Normal` is a path in normal form, some `up`s and then components that do not go
    up.  `Normal.push` adds a component to it.  A normal form never goes above the
    root from deep enough (`Normal.walk_path`), and pushing a whole path onto the
    empty one leads where the path leads when clamped (`Normal.place_run`).
-/
import Mathlib

namespace Paths

variable {α : Type*}

/-- A component of a path. -/
inductive Comp (α : Type*) where
  | stay
  | up
  | name (a : α)
  deriving DecidableEq

/-! ## Following a path -/

/-- The directory a path leads to from `d`, `none` when it goes above the root. -/
def walk : List α → List (Comp α) → Option (List α)
  | d, [] => some d
  | d, .stay :: cs => walk d cs
  | [], .up :: _ => none
  | _ :: d, .up :: cs => walk d cs
  | d, .name a :: cs => walk (a :: d) cs

/-- The directory a path leads to when `up` stays at the root. -/
def clamp : List α → List (Comp α) → List α
  | d, [] => d
  | d, .stay :: cs => clamp d cs
  | d, .up :: cs => clamp d.tail cs
  | d, .name a :: cs => clamp (a :: d) cs

theorem walk_append (d : List α) (cs cs' : List (Comp α)) :
    walk d (cs ++ cs') = (walk d cs).bind fun d' => walk d' cs' := by
  fun_induction walk d cs with
  | case1 d => rfl
  | case2 d cs ih => rw [List.cons_append, walk, ih]
  | case3 cs => rfl
  | case4 a d cs ih => rw [List.cons_append, walk, ih]
  | case5 d a cs ih => rw [List.cons_append, walk, ih]

/-- A path that stays below the root is not changed by the clamping. -/
theorem clamp_of_walk {d place : List α} {cs : List (Comp α)} (h : walk d cs = some place) :
    clamp d cs = place := by
  fun_induction walk d cs with
  | case1 d => exact Option.some.inj h
  | case2 d cs ih => exact ih h
  | case3 cs => cases h
  | case4 a d cs ih => exact ih h
  | case5 d a cs ih => exact ih h

theorem walk_ups {d : List α} {k : ℕ} (h : k ≤ d.length) :
    walk d (List.replicate k .up) = some (d.drop k) := by
  induction k generalizing d with
  | zero => rfl
  | succ k ih =>
    cases d with
    | nil => cases h
    | cons a d => exact ih (Nat.le_of_succ_le_succ h)

/-- Without `up` a path stays below the directory it starts from. -/
theorem walk_down {d : List α} {cs : List (Comp α)} (h : .up ∉ cs) :
    ∃ place, walk d cs = some place := by
  induction cs generalizing d with
  | nil => exact ⟨d, rfl⟩
  | cons c cs ih =>
    obtain ⟨hc, hcs⟩ := not_or.1 (mt List.mem_cons.2 h)
    cases c with
    | stay => exact ih hcs
    | up => exact absurd rfl hc
    | name a => exact ih hcs

/-! ## Normal forms -/

/-- Some `up`s and then components that do not go up, the last one first. -/
structure Normal (α : Type*) where
  ups : ℕ
  stack : List (Comp α)
  down : .up ∉ stack

namespace Normal

/-- The empty path. -/
def nil : Normal α := ⟨0, [], List.not_mem_nil⟩

/-- The path a normal form stands for. -/
def path (n : Normal α) : List (Comp α) := List.replicate n.ups .up ++ n.stack.reverse

theorem down_tail (n : Normal α) : .up ∉ n.stack.tail := fun h => n.down (List.mem_of_mem_tail h)

theorem down_name (n : Normal α) (a : α) : .up ∉ .name a :: n.stack :=
  List.not_mem_cons_of_ne_of_not_mem nofun n.down

theorem down_stay (n : Normal α) : .up ∉ .stay :: n.stack :=
  List.not_mem_cons_of_ne_of_not_mem nofun n.down

/-- Add a component: `up` takes the last one away or, where there is none, stays
    an `up` as long as there are fewer than `depth`; `stay` is kept on request. -/
def push (depth : ℕ) (keep : Bool) (n : Normal α) : Comp α → Normal α
  | .stay => if keep then ⟨n.ups, .stay :: n.stack, n.down_stay⟩ else n
  | .name a => ⟨n.ups, .name a :: n.stack, n.down_name a⟩
  | .up =>
    if n.stack = [] ∧ n.ups < depth then { n with ups := n.ups + 1 }
    else ⟨n.ups, n.stack.tail, n.down_tail⟩

/-- Add the components of a path. -/
def run (depth : ℕ) (keep : Bool) (n : Normal α) (cs : List (Comp α)) : Normal α :=
  cs.foldl (push depth keep) n

variable {depth : ℕ} {keep : Bool} {n : Normal α} {c : Comp α} {cs : List (Comp α)}

theorem run_cons : run depth keep n (c :: cs) = run depth keep (push depth keep n c) cs := rfl

theorem push_ups_le (h : n.ups ≤ depth) : (push depth keep n c).ups ≤ depth := by
  cases c with
  | stay => rw [push]; split_ifs <;> exact h
  | up =>
    rw [push]
    split_ifs with hup
    · exact hup.2
    · exact h
  | name a => exact h

theorem run_ups_le (h : n.ups ≤ depth) : (run depth keep n cs).ups ≤ depth := by
  induction cs generalizing n with
  | nil => exact h
  | cons c cs ih => exact ih (push_ups_le h)

/-- **A normal form with at most `depth` `up`s never goes above the root** from a
    directory that lies `depth` levels below it. -/
theorem walk_path {d : List α} (h : n.ups ≤ d.length) : ∃ place, walk d n.path = some place := by
  obtain ⟨place, hplace⟩ := walk_down (d := d.drop n.ups) (mt List.mem_reverse.1 n.down)
  exact ⟨place, by rw [path, walk_append, walk_ups h, Option.bind_some, hplace]⟩

/-! ### The place a normal form leads to -/

/-- The components `stack` below the directory `n.ups` levels up from `d`. -/
def place (n : Normal α) (d : List α) : List α := clamp d n.path

theorem clamp_append (d : List α) (cs cs' : List (Comp α)) :
    clamp d (cs ++ cs') = clamp (clamp d cs) cs' := by
  fun_induction clamp d cs with
  | case1 d => rfl
  | case2 d cs ih => exact ih
  | case3 d cs ih => exact ih
  | case4 d a cs ih => exact ih

/-- Only names are on the stack, as when `stay` is not kept. -/
def Named (n : Normal α) : Prop := ∀ c ∈ n.stack, ∃ a, c = .name a

theorem named_nil : (nil : Normal α).Named := fun _ h => absurd h List.not_mem_nil

theorem Named.push (h : n.Named) : (n.push depth false c).Named := by
  intro x hx
  cases c with
  | stay => exact h x hx
  | up =>
    rw [Normal.push] at hx
    split_ifs at hx
    · exact h x hx
    · exact h x (List.mem_of_mem_tail hx)
  | name a =>
    rcases List.mem_cons.1 hx with rfl | hx
    · exact ⟨a, rfl⟩
    · exact h x hx

/-- One component: the place moves as it does when clamped. -/
theorem place_push {d : List α} (hn : n.Named) (hups : n.ups ≤ d.length) :
    (n.push d.length false c).place d = clamp (n.place d) [c] := by
  cases c with
  | stay => rfl
  | name a => simp only [push, place, path, List.reverse_cons, ← List.append_assoc, clamp_append]
  | up =>
    obtain ⟨ups, stack, down⟩ := n
    have hroot : clamp d (List.replicate ups .up) = d.drop ups := clamp_of_walk (walk_ups hups)
    rw [push]
    split_ifs with h
    · obtain ⟨rfl, -⟩ : stack = [] ∧ ups < d.length := h
      simp only [place, path, List.replicate_succ', List.reverse_nil, List.append_nil, clamp_append]
    · rcases stack with _ | ⟨c, stack⟩
      · have hd : d.drop ups = [] := List.drop_of_length_le (not_lt.1 fun hlt => h ⟨rfl, hlt⟩)
        simp [place, path, hroot, hd, clamp]
      · obtain ⟨a, rfl⟩ := hn c List.mem_cons_self
        simp only [place, path, List.tail_cons, List.reverse_cons, clamp_append, clamp]

/-- **A path pushed onto the empty one leads where the path leads when clamped.** -/
theorem place_run {d : List α} (hn : n.Named) (hups : n.ups ≤ d.length) :
    (n.run d.length false cs).place d = clamp (n.place d) cs := by
  induction cs generalizing n with
  | nil => rfl
  | cons c cs ih =>
    have hstep : clamp (n.place d) (c :: cs) = clamp (clamp (n.place d) [c]) cs :=
      clamp_append _ [c] cs
    rw [run_cons, ih hn.push (push_ups_le hups), place_push hn hups, hstep]

end Normal

end Paths
