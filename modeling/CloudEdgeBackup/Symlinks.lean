/-
  Links that stay in the tree (`--safe-links`): `unsafe_symlink` in `util.c`.

  * the function counts how deep the link lies and how far its target goes up, on the
    names alone: a target is accepted just when its names stay below the top
    (`unsafeSymlink_iff`);
  * `SourceTree` is what is transferred; a target is followed through the links that are
    met on the way (`Paths.Leaves`);
  * accepted links keep in the tree unless an `up` behind a link is met at the top
    (`safeLinks_iff`).
-/
import CloudEdgeBackup.Sanitize
import CloudEdgeBackup.Lib.Links

namespace CloudEdgeBackup

open Paths

/-! ## `unsafe_symlink` -/

/-- A "." or ".." with a slash behind it. -/
def dotSegment (name : Bytes) : Bool :=
  decide (name[0]? = some dot ∧
    (name[1]? = some slash ∨ name[1]? = some dot ∧ name[2]? = some slash))

/-- Past the next slash, and those behind it. -/
def nextName (name : Bytes) : Bytes :=
  (name.dropWhile fun b => decide (b ≠ slash)).dropWhile fun b => decide (b = slash)

theorem nextName_append {a : Bytes} (ha : slash ∉ a) (r : Bytes) :
    nextName (a ++ slash :: r) = r.dropWhile fun b => decide (b = slash) := by
  have hall : ∀ b ∈ a, decide (b ≠ slash) = true := by
    intro b hb
    rw [decide_eq_true_eq]
    rintro rfl
    exact ha hb
  rw [nextName, List.dropWhile_append_of_pos hall, List.dropWhile_cons_of_neg (by simp),
    List.dropWhile_cons_of_pos (by simp)]

theorem nextName_lt {name : Bytes} (h : slash ∈ name) : (nextName name).length < name.length := by
  obtain ⟨a, r, rfl, ha⟩ := List.eq_append_cons_of_mem h
  rw [nextName_append ha, List.length_append, List.length_cons]
  have := (List.dropWhile_suffix (l := r) fun b => decide (b = slash)).length_le
  omega

/-- What is the safety margin: the first loop. -/
def srcDepth (depth : ℤ) (name : Bytes) : ℤ :=
  if h : slash ∈ name then
    srcDepth (if dotSegment name then (if name[1]? = some dot then 0 else depth) else depth + 1)
      (nextName name)
  else if name = [dot, dot] then 0 else depth
termination_by name.length
decreasing_by all_goals exact nextName_lt h

/-- The second loop and what follows it; `none` is outside before the end. -/
def destDepth (depth : ℤ) (name : Bytes) : Option ℤ :=
  if h : slash ∈ name then
    if dotSegment name then
      if name[1]? = some dot then
        if depth - 1 < 0 then none else destDepth (depth - 1) (nextName name)
      else destDepth depth (nextName name)
    else destDepth (depth + 1) (nextName name)
  else some (if name = [dot, dot] then depth - 1 else depth)
termination_by name.length
decreasing_by all_goals exact nextName_lt h

/-- `unsafe_symlink`; a missing target is empty. -/
def unsafeSymlink (dest src : Bytes) : Bool :=
  if dest = [] ∨ dest.head? = some slash then true
  else
    match destDepth (srcDepth 0 src) dest with
    | none => true
    | some depth => decide (depth < 0)

/-! ## What is accepted -/

/-- The names of a tree. -/
structure IsName (a : Bytes) : Prop where
  ne_nil : a ≠ []
  no_slash : slash ∉ a
  ne_dot : a ≠ [dot]
  ne_dots : a ≠ [dot, dot]

/-- The path of `a` in the directory `ds`, outermost name first. -/
def pathOf : List Bytes → Bytes → Bytes
  | [], a => a
  | d :: ds, a => d ++ slash :: pathOf ds a

section Lexical

variable {a r name : Bytes}

theorem dotSegment_append (ha : slash ∉ a) (r : Bytes) :
    dotSegment (a ++ slash :: r) = decide (a = [dot] ∨ a = [dot, dot]) := by
  rw [dotSegment, decide_eq_decide]
  rcases a with _ | ⟨x, _ | ⟨y, _ | ⟨z, a⟩⟩⟩
  · simp [show slash ≠ dot by decide]
  · simp
  · have hy : y ≠ slash := fun h => ha (by simp [h])
    simp [hy]
  · have hy : y ≠ slash := fun h => ha (by simp [h])
    have hz : z ≠ slash := fun h => ha (by simp [h])
    simp [hy, hz]

/-- The slashes behind a component separate nothing. -/
theorem comps_dropWhile (r : Bytes) : comps (r.dropWhile fun b => decide (b = slash)) = comps r := by
  induction r with
  | nil => rfl
  | cons b r ih =>
    by_cases hb : b = slash
    · rw [List.dropWhile_cons_of_pos (by simpa using hb), ih, hb, comps_slash]
    · rw [List.dropWhile_cons_of_neg (by simpa using hb)]

theorem head_dropWhile (r : Bytes) : (r.dropWhile fun b => decide (b = slash)).head? ≠ some slash := by
  intro h
  have := List.head?_dropWhile_not (fun b => decide (b = slash)) r
  rw [h] at this
  simp at this

theorem name_dropWhile (h : IsName a) (r : Bytes) :
    (a ++ r).dropWhile (fun b => decide (b = slash)) = a ++ r := by
  obtain ⟨b, a, rfl⟩ := List.exists_cons_of_ne_nil h.ne_nil
  have hb : b ≠ slash := fun heq => h.no_slash (by simp [heq])
  rw [List.cons_append, List.dropWhile_cons_of_neg (by simpa using hb)]

theorem dropWhile_pathOf {ds : List Bytes} (h : ∀ x ∈ ds, IsName x) (ha : IsName a) :
    (pathOf ds a).dropWhile (fun b => decide (b = slash)) = pathOf ds a := by
  cases ds with
  | nil =>
    have := name_dropWhile ha []
    rwa [List.append_nil] at this
  | cons d ds => exact name_dropWhile (h d List.mem_cons_self) _

/-- **The first loop** counts the directories of a path. -/
theorem srcDepth_pathOf {ds : List Bytes} (h : ∀ x ∈ ds, IsName x) (ha : IsName a) (depth : ℤ) :
    srcDepth depth (pathOf ds a) = depth + ds.length := by
  induction ds generalizing depth with
  | nil =>
    rw [pathOf, srcDepth, dif_neg ha.no_slash, if_neg ha.ne_dots]
    simp
  | cons d ds ih =>
    have hd := h d List.mem_cons_self
    have hrest : ∀ x ∈ ds, IsName x := fun x hx => h x (List.mem_cons_of_mem _ hx)
    have hclean : (pathOf ds a).dropWhile (fun b => decide (b = slash)) = pathOf ds a :=
      dropWhile_pathOf hrest ha
    rw [pathOf, srcDepth, dif_pos (by simp), dotSegment_append hd.no_slash,
      decide_eq_false (not_or.2 ⟨hd.ne_dot, hd.ne_dots⟩), if_neg Bool.false_ne_true,
      nextName_append hd.no_slash, hclean, ih hrest]
    push_cast [List.length_cons]
    ring

/-- **The second loop** follows the names of the target. -/
theorem destDepth_walk (hname : name.head? ≠ some slash) (d : List Bytes) :
    (∃ k, destDepth d.length name = some k ∧ 0 ≤ k) ↔ (walk d (comps name)).isSome := by
  induction hn : name.length using Nat.strong_induction_on generalizing name d with
  | _ n ih =>
    subst hn
    by_cases hslash : slash ∈ name
    · have hlt := nextName_lt hslash
      obtain ⟨a, r, rfl, ha⟩ := List.eq_append_cons_of_mem hslash
      have hne : a ≠ [] := by
        rintro rfl
        exact hname rfl
      have hnext : comps (nextName (a ++ slash :: r)) = comps r := by
        rw [nextName_append ha, comps_dropWhile]
      have hhead : (nextName (a ++ slash :: r)).head? ≠ some slash := by
        rw [nextName_append ha]
        exact head_dropWhile r
      have hrest := fun d => ih _ hlt hhead d rfl
      rw [hnext] at hrest
      rw [destDepth, dif_pos hslash, dotSegment_append ha, comps_component hne ha]
      by_cases hdot : a = [dot]
      · subst hdot
        rw [if_pos (by simp), if_neg (show ¬ ([dot] ++ slash :: r)[1]? = some dot from fun h =>
          absurd (Option.some.inj h) (by decide))]
        exact hrest d
      by_cases hdots : a = [dot, dot]
      · subst hdots
        rw [if_pos (by simp), if_pos (show ([dot, dot] ++ slash :: r)[1]? = some dot from rfl),
          show compOf [dot, dot] = .up from rfl]
        cases d with
        | nil =>
          rw [if_pos (by simp)]
          simp [walk]
        | cons x d =>
          rw [if_neg (by push_cast [List.length_cons]; omega), walk, ← hrest d]
          push_cast [List.length_cons]
          rw [add_sub_cancel_right]
      · rw [if_neg (by simp [hdot, hdots]), compOf, if_neg hdot, if_neg hdots, walk, ← hrest (a :: d)]
        push_cast [List.length_cons]
        rfl
    · rw [destDepth, dif_neg hslash]
      by_cases hdots : name = [dot, dot]
      · subst hdots
        rw [if_pos rfl, show comps [dot, dot] = [.up] from rfl]
        cases d with
        | nil => simp [walk]
        | cons x d => simp [walk]
      · rw [if_neg hdots]
        by_cases hnil : name = []
        · subst hnil
          simp [comps_nil, walk]
        · rw [comps_single hnil hslash, compOf, if_neg hdots]
          split_ifs <;> simp [walk]

/-- **What is accepted**: a relative target whose names stay below the top. -/
theorem unsafeSymlink_iff {d : List Bytes} (h : ∀ x ∈ d, IsName x) (ha : IsName a) (target : Bytes) :
    unsafeSymlink target (pathOf d.reverse a) = false ↔
      target ≠ [] ∧ target.head? ≠ some slash ∧ (walk d (comps target)).isSome := by
  have hdepth : srcDepth 0 (pathOf d.reverse a) = d.length := by
    rw [srcDepth_pathOf (fun x hx => h x (List.mem_reverse.1 hx)) ha, List.length_reverse, zero_add]
  rw [unsafeSymlink, hdepth]
  by_cases hrel : target = [] ∨ target.head? = some slash
  · rw [if_pos hrel]
    constructor
    · intro hno
      cases hno
    · rintro ⟨hne, hhead, -⟩
      exact absurd hrel (not_or.2 ⟨hne, hhead⟩)
  · rw [if_neg hrel]
    obtain ⟨hne, hhead⟩ := not_or.1 hrel
    rw [← destDepth_walk hhead]
    cases destDepth d.length target with
    | none => simp
    | some k => simp [hne, hhead]

end Lexical

/-! ## Following the links of a tree -/

/-- What a name of the tree is. -/
inductive TreeEntry where
  | dir
  | file
  | link (target : Bytes)

/-- What is transferred: the entries of each directory, given as the names that lead to
    it from the top, innermost first. -/
structure SourceTree where
  entry : List Bytes → Bytes → Option TreeEntry
  names : ∀ d a, (entry d a).isSome → ∀ x ∈ a :: d, IsName x
  dirs : ∀ d a b, (entry (a :: d) b).isSome → entry d a = some .dir

/-- How the system follows an entry. -/
def TreeEntry.node : TreeEntry → Node Bytes
  | .dir => .dir
  | .file => .file
  | .link target => .link (decide (target.head? = some slash)) (comps target)

namespace SourceTree

variable (t : SourceTree)

def look (d : List Bytes) (a : Bytes) : Option (Node Bytes) := (t.entry d a).map TreeEntry.node

/-- Every link is accepted. -/
def Accepted : Prop :=
  ∀ d a target, t.entry d a = some (.link target) → unsafeSymlink target (pathOf d.reverse a) = false

/-- Following a link never leads outside. -/
def StaysInside : Prop :=
  ∀ d a target, t.entry d a = some (.link target) → ¬ Leaves t.look d [.name a]

/-- No `up` that is behind a link in its target is met at the top. -/
def UpsBelowTop : Prop :=
  ∀ d a target, t.entry d a = some (.link target) → ∀ pre post, comps target = pre ++ .up :: post →
    ViaLink t.look d pre → ¬ Leads t.look d pre []

variable {t}

theorem look_link {d : List Bytes} {a : Bytes} {away : Bool} {path : List (Comp Bytes)} :
    t.look d a = some (.link away path) ↔ ∃ target, t.entry d a = some (.link target) ∧
      away = decide (target.head? = some slash) ∧ path = comps target := by
  rw [look]
  constructor
  · intro h
    obtain ⟨e, he, hnode⟩ := Option.map_eq_some_iff.1 h
    cases e with
    | dir => cases hnode
    | file => cases hnode
    | link target =>
      obtain ⟨rfl, rfl⟩ := Node.link.inj hnode
      exact ⟨target, he, rfl, rfl⟩
  · rintro ⟨target, he, rfl, rfl⟩
    rw [he]
    rfl

end SourceTree

/-- **Accepted links stay in the tree** just when no `up` behind a link is met at the top. -/
theorem safeLinks_iff (t : SourceTree) (h : t.Accepted) : t.StaysInside ↔ t.UpsBelowTop := by
  have hlink : ∀ d a target, t.entry d a = some (.link target) →
      decide (target.head? = some slash) = false ∧ (walk d (comps target)).isSome := by
    intro d a target he
    have hnames := t.names d a (by rw [he]; rfl)
    obtain ⟨-, hhead, hwalk⟩ := (unsafeSymlink_iff (fun x hx => hnames x (List.mem_cons_of_mem _ hx))
      (hnames a List.mem_cons_self) target).1 (h d a target he)
    exact ⟨decide_eq_false hhead, hwalk⟩
  have hiff := @leaves_iff _ t.look fun d a away path hlook => by
    obtain ⟨target, he, rfl, rfl⟩ := SourceTree.look_link.1 hlook
    exact hlink d a target he
  constructor
  · intro hstays d a target he pre post hsplit hvia
    refine hiff.1 (fun d a away path hlook => ?_) d a (comps target)
      (SourceTree.look_link.2 ⟨target, he, (hlink d a target he).1.symm, rfl⟩) pre post hsplit hvia
    obtain ⟨target, he, -, -⟩ := SourceTree.look_link.1 hlook
    exact hstays d a target he
  · intro hups d a target he
    refine hiff.2 (fun d a path hlook pre post hsplit hvia => ?_) d a _ (comps target)
      (SourceTree.look_link.2 ⟨target, he, rfl, rfl⟩)
    obtain ⟨target, he, -, rfl⟩ := SourceTree.look_link.1 hlook
    exact hups d a target he pre post hsplit hvia

/-- Targets that only go up before their first name have no such `up`. -/
theorem SourceTree.upsBelowTop_of_leading {t : SourceTree}
    (h : ∀ d a target, t.entry d a = some (.link target) → ∀ pre post, comps target = pre ++ .up :: post →
      ∀ b, .name b ∉ pre) : t.UpsBelowTop := by
  rintro d a target he pre post hsplit ⟨pre', b, post', e, path, rfl, -, -⟩
  exact absurd (by simp) (h d a target he _ post hsplit b)

/-! ## A link behind which a target goes up -/

/-- `p/q/up` leads to `..`, and `m` to `target`. -/
def upEntry (target : Bytes) : List Bytes → Bytes → Option TreeEntry
  | [], a => if a = cstr "p" then some .dir else if a = cstr "m" then some (.link target) else none
  | [d], a => if d = cstr "p" ∧ a = cstr "q" then some .dir else none
  | [d, d'], a => if d = cstr "q" ∧ d' = cstr "p" ∧ a = cstr "up" then some (.link (cstr "..")) else none
  | _, _ => none

theorem upEntry_some {target : Bytes} {d : List Bytes} {a : Bytes} {e : TreeEntry} (h : upEntry target d a = some e) :
    (d = [] ∧ a = cstr "p" ∧ e = .dir) ∨ (d = [] ∧ a = cstr "m" ∧ e = .link target) ∨
      (d = [cstr "p"] ∧ a = cstr "q" ∧ e = .dir) ∨
      d = [cstr "q", cstr "p"] ∧ a = cstr "up" ∧ e = .link (cstr "..") := by
  rcases d with _ | ⟨x, _ | ⟨y, _ | ⟨z, d⟩⟩⟩
  · rw [upEntry] at h
    split_ifs at h with hp hm
    · exact Or.inl ⟨rfl, hp, (Option.some.inj h).symm⟩
    · exact Or.inr (Or.inl ⟨rfl, hm, (Option.some.inj h).symm⟩)
  · rw [upEntry] at h
    split_ifs at h with hq
    exact Or.inr (Or.inr (Or.inl ⟨by rw [hq.1], hq.2, (Option.some.inj h).symm⟩))
  · rw [upEntry] at h
    split_ifs at h with hu
    exact Or.inr (Or.inr (Or.inr ⟨by rw [hu.1, hu.2.1], hu.2.2, (Option.some.inj h).symm⟩))
  · cases h

theorem isName_upEntry : ∀ x ∈ [cstr "p", cstr "m", cstr "q", cstr "up"], IsName x := by
  have hall : ∀ x ∈ [cstr "p", cstr "m", cstr "q", cstr "up"],
      x ≠ [] ∧ slash ∉ x ∧ x ≠ [dot] ∧ x ≠ [dot, dot] := by decide
  intro x hx
  obtain ⟨h₁, h₂, h₃, h₄⟩ := hall x hx
  exact ⟨h₁, h₂, h₃, h₄⟩

theorem upEntry_names (target : Bytes) (d : List Bytes) (a : Bytes) (h : (upEntry target d a).isSome) :
    ∀ x ∈ a :: d, IsName x := by
  obtain ⟨e, he⟩ := Option.isSome_iff_exists.1 h
  rcases upEntry_some he with ⟨rfl, rfl, -⟩ | ⟨rfl, rfl, -⟩ | ⟨rfl, rfl, -⟩ | ⟨rfl, rfl, -⟩ <;>
    intro x hx <;> refine isName_upEntry x ?_ <;> revert x <;> decide

theorem upEntry_dirs (target : Bytes) (d : List Bytes) (a b : Bytes) (h : (upEntry target (a :: d) b).isSome) :
    upEntry target d a = some .dir := by
  obtain ⟨e, he⟩ := Option.isSome_iff_exists.1 h
  rcases upEntry_some he with ⟨hd, -⟩ | ⟨hd, -⟩ | ⟨hd, -⟩ | ⟨hd, -⟩
  · cases hd
  · cases hd
  · cases hd
    rfl
  · cases hd
    rfl

def upTree (target : Bytes) : SourceTree := ⟨upEntry target, upEntry_names target, upEntry_dirs target⟩

theorem upTree_accepted {target : Bytes} (h : target ≠ [] ∧ target.head? ≠ some slash ∧
    (walk [] (comps target)).isSome) : (upTree target).Accepted := by
  intro d a t he
  rcases upEntry_some he with ⟨-, -, ht⟩ | ⟨rfl, rfl, ht⟩ | ⟨-, -, ht⟩ | ⟨rfl, rfl, ht⟩
  · cases ht
  · cases ht
    exact (unsafeSymlink_iff (by simp) (isName_upEntry _ (by decide)) target).2 h
  · cases ht
  · cases ht
    have hd : ∀ x ∈ [cstr "q", cstr "p"], x ∈ [cstr "p", cstr "m", cstr "q", cstr "up"] := by decide
    exact (unsafeSymlink_iff (fun x hx => isName_upEntry x (hd x hx)) (isName_upEntry _ (by decide)) _).2
      (by decide)

theorem safeLinks_iff_inside : (upTree (cstr "p/q/../../p/q/up")).StaysInside ↔
    (upTree (cstr "p/q/../../p/q/up")).UpsBelowTop :=
  safeLinks_iff _ (upTree_accepted (by decide))

/-- **A link to `..` behind which a target goes up twice** is left, although both are accepted. -/
theorem not_safeLinks : (upTree (cstr "p/q/up/../..")).Accepted ∧ ¬ (upTree (cstr "p/q/up/../..")).StaysInside := by
  refine ⟨upTree_accepted (by decide), fun h => h [] (cstr "m") (cstr "p/q/up/../..") rfl ?_⟩
  have hpath : comps (cstr "p/q/up/../..") =
      [.name (cstr "p"), .name (cstr "q"), .name (cstr "up"), .up, .up] := by decide
  refine .into rfl ?_
  rw [hpath]
  -- p/q/up is p, from where the first .. leads to the top
  have hup : Leads (upTree (cstr "p/q/up/../..")).look [cstr "q", cstr "p"] [.up] [cstr "p"] :=
    .up (cstr "q") (.done _)
  exact .dir rfl (.dir rfl (.past rfl hup (.up (cstr "p") (.top []))))

end CloudEdgeBackup
