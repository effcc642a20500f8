/-
  Paths through directories that hold links.

  * `Node` is what a name in a directory is; a link has a path of its own, followed
    from the directory it lies in;
  * `Leads` follows a path to its end, `Leaves` up to the point where it goes above the
    root; `ViaLink` are the paths on which a link is met;
  * a path without a link leads where it leads as a list of names (`Leads.walk`); links
    whose paths alone stay below the root are left only through an `up` behind a link
    (`leaves_iff`).
-/
import CloudEdgeBackup.Lib.Paths

namespace Paths

variable {α : Type*}

/-- What a name is; a link leads from its directory, or from elsewhere. -/
inductive Node (α : Type*) where
  | dir
  | file
  | link (elsewhere : Bool) (path : List (Comp α))

section Links

variable (look : List α → α → Option (Node α))

/-- Following `cs` from `d` ends in a directory. -/
inductive Leads : List α → List (Comp α) → List α → Prop
  | done (d : List α) : Leads d [] d
  | stay {d e : List α} {cs : List (Comp α)} : Leads d cs e → Leads d (.stay :: cs) e
  | up {d e : List α} {cs : List (Comp α)} (a : α) : Leads d cs e → Leads (a :: d) (.up :: cs) e
  | dir {d e : List α} {cs : List (Comp α)} {a : α} :
    look d a = some .dir → Leads (a :: d) cs e → Leads d (.name a :: cs) e
  | link {d d' e : List α} {cs path : List (Comp α)} {a : α} :
    look d a = some (.link false path) → Leads d path d' → Leads d' cs e → Leads d (.name a :: cs) e

/-- Following `cs` from `d` goes above the root, or elsewhere. -/
inductive Leaves : List α → List (Comp α) → Prop
  | top (cs : List (Comp α)) : Leaves [] (.up :: cs)
  | elsewhere {d : List α} {cs path : List (Comp α)} {a : α} :
    look d a = some (.link true path) → Leaves d (.name a :: cs)
  | stay {d : List α} {cs : List (Comp α)} : Leaves d cs → Leaves d (.stay :: cs)
  | up {d : List α} {cs : List (Comp α)} (a : α) : Leaves d cs → Leaves (a :: d) (.up :: cs)
  | dir {d : List α} {cs : List (Comp α)} {a : α} :
    look d a = some .dir → Leaves (a :: d) cs → Leaves d (.name a :: cs)
  | into {d : List α} {cs path : List (Comp α)} {a : α} :
    look d a = some (.link false path) → Leaves d path → Leaves d (.name a :: cs)
  | past {d d' : List α} {cs path : List (Comp α)} {a : α} :
    look d a = some (.link false path) → Leads look d path d' → Leaves d' cs → Leaves d (.name a :: cs)

/-- A link is met on `cs` itself. -/
def ViaLink (d : List α) (cs : List (Comp α)) : Prop :=
  ∃ pre a post e path, cs = pre ++ .name a :: post ∧ Leads look d pre e ∧ look e a = some (.link false path)

variable {look} {d e : List α} {cs cs' : List (Comp α)}

/-! ## Paths one after the other -/

theorem Leads.append (h : Leads look d cs e) {e' : List α} (h' : Leads look e cs' e') :
    Leads look d (cs ++ cs') e' := by
  induction h with
  | done d => exact h'
  | stay _ ih => exact .stay (ih h')
  | up a _ ih => exact .up a (ih h')
  | dir hlook _ ih => exact .dir hlook (ih h')
  | link hlook hpath _ _ ih => exact .link hlook hpath (ih h')

theorem Leads.leaves (h : Leads look d cs e) (h' : Leaves look e cs') : Leaves look d (cs ++ cs') := by
  induction h with
  | done d => exact h'
  | stay _ ih => exact .stay (ih h')
  | up a _ ih => exact .up a (ih h')
  | dir hlook _ ih => exact .dir hlook (ih h')
  | link hlook hpath _ _ ih => exact .past hlook hpath (ih h')

/-- **Where no link is met** a path leads where its names do. -/
theorem Leads.walk (h : Leads look d cs e) (hvia : ¬ ViaLink look d cs) : walk d cs = some e := by
  induction h with
  | done d => rfl
  | @stay d e cs _ ih =>
    refine ih fun ⟨pre, a, post, e', path, hcs, hpre, hlook⟩ => hvia ?_
    exact ⟨.stay :: pre, a, post, e', path, by rw [hcs, List.cons_append], .stay hpre, hlook⟩
  | @up d e cs b _ ih =>
    refine ih fun ⟨pre, a, post, e', path, hcs, hpre, hlook⟩ => hvia ?_
    exact ⟨.up :: pre, a, post, e', path, by rw [hcs, List.cons_append], .up b hpre, hlook⟩
  | @dir d e cs b hdir _ ih =>
    refine ih fun ⟨pre, a, post, e', path, hcs, hpre, hlook⟩ => hvia ?_
    exact ⟨.name b :: pre, a, post, e', path, by rw [hcs, List.cons_append], .dir hdir hpre, hlook⟩
  | @link d d' e cs path a hlook hpath _ _ _ =>
    exact absurd ⟨[], a, cs, d, path, rfl, .done d, hlook⟩ hvia

/-! ## Where links leave -/

/-- Some link has an `up` in its path that is met at the root. -/
def Exposed (look : List α → α → Option (Node α)) : Prop :=
  ∃ d a path pre post, look d a = some (.link false path) ∧ path = pre ++ .up :: post ∧ Leads look d pre []

/-- A path that leaves, as what is left of a link's path, does so by an `up` at the root. -/
theorem Leaves.exposed (h : Leaves look d cs) (hhere : ∀ d a path, look d a ≠ some (.link true path))
    {d₀ : List α} {a₀ : α} {path pre : List (Comp α)} (hlink : look d₀ a₀ = some (.link false path))
    (hsplit : path = pre ++ cs) (hpre : Leads look d₀ pre d) : Exposed look := by
  induction h generalizing d₀ a₀ path pre with
  | top cs => exact ⟨d₀, a₀, path, pre, cs, hlink, hsplit, hpre⟩
  | elsewhere hlook => exact absurd hlook (hhere _ _ _)
  | stay _ ih =>
    exact ih hlink (by rw [hsplit, List.append_assoc]; rfl) (hpre.append (.stay (.done _)))
  | up a _ ih =>
    exact ih hlink (by rw [hsplit, List.append_assoc]; rfl) (hpre.append (.up a (.done _)))
  | dir hdir _ ih =>
    exact ih hlink (by rw [hsplit, List.append_assoc]; rfl) (hpre.append (.dir hdir (.done _)))
  | into hlook _ ih => exact ih hlook rfl (.done _)
  | past hlook hpath _ ih =>
    exact ih hlink (by rw [hsplit, List.append_assoc]; rfl) (hpre.append (.link hlook hpath (.done _)))

/-- **Links that alone stay below the root are left just through an `up`, behind another
    link, that is met at the root.** -/
theorem leaves_iff (hsafe : ∀ d a away path, look d a = some (.link away path) →
      away = false ∧ (Paths.walk d path).isSome) :
    (∀ d a away path, look d a = some (.link away path) → ¬ Leaves look d [.name a]) ↔
      ∀ d a path, look d a = some (.link false path) → ∀ pre post, path = pre ++ .up :: post →
        ViaLink look d pre → ¬ Leads look d pre [] := by
  have hhere : ∀ d a path, look d a ≠ some (.link true path) := fun d a path h =>
    Bool.noConfusion (hsafe d a true path h).1
  constructor
  · intro h d a path hlook pre post hsplit _ hpre
    refine h d a false path hlook (.into hlook ?_)
    rw [hsplit]
    exact hpre.leaves (.top post)
  · intro h d a away path hlook hleaves
    obtain ⟨rfl, -⟩ := hsafe d a away path hlook
    obtain ⟨d₀, a₀, path₀, pre, post, hlink, hsplit, hpre⟩ : Exposed look := by
      cases hleaves with
      | elsewhere hlook' => exact absurd hlook' (hhere _ _ _)
      | dir hdir _ => rw [hlook] at hdir; cases hdir
      | into hlook' hpath => exact hpath.exposed hhere hlook' rfl (.done _)
      | past _ _ hnil => cases hnil
    by_cases hvia : ViaLink look d₀ pre
    · exact h d₀ a₀ path₀ hlink pre post hsplit hvia hpre
    · -- without a link the names alone go above the root
      have hsome := (hsafe d₀ a₀ false path₀ hlink).2
      rw [hsplit, walk_append, hpre.walk hvia] at hsome
      cases hsome

end Links

end Paths
