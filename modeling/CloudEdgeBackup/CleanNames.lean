/-
  Cleaning a path in place (`clean_fname` in `util.c`).

  * `cleanFnameFlags` is the function: `t` is what was written, `f` what is left to read, and
    `limit` ends the ".." elements that are kept in front;
  * `Elements` splits a path into its elements, each with or without a slash behind it, and
    `KeptElements` is what was written, element by element (`cleanLoop_eq`);
  * `Cleans` is what a cleaned name should be: it leads to the same place, is not longer, has no
    doubled slash and no ".." behind a name, and stays as it is;
  * `cleans_iff`: so it is for all flags that are used, except that `glob_expand` keeps "."
    elements, and a ".." takes back the nearest of those instead of the name before it.
-/
import CloudEdgeBackup.Sanitize

namespace CloudEdgeBackup

open Paths

/-! ## The function -/

/-- `CFN_KEEP_DOT_DIRS` and the other flags. -/
structure CleanFlags where
  keepDotDirs : Bool
  keepTrailingSlash : Bool
  dropTrailingDotDir : Bool
  collapseDotDotDirs : Bool
  refuseDotDotDirs : Bool
deriving DecidableEq

/-- `DOT_IS_DOT_DOT_DIR`, at a dot. -/
def dotIsDotDotDir (bp : Bytes) : Bool :=
  bp[1]? = some dot && (bp[2]? = some slash || bp[2]? = none)

/-- `while (s > limit && *--s != '/') {}`, with `s` and `limit` counted from 1. -/
def searchBack (name : Bytes) (limit : ℕ) : ℕ → ℕ
  | 0 => 0
  | s + 1 =>
    if limit < s + 1 then
      if 0 < s ∧ name[s - 1]? = some slash then s else searchBack name limit s
    else s + 1

/-- The loop of `clean_fname`, at the start of an element or `inside` the loop that copies one;
    `none` is -1. -/
def cleanLoop (fl : CleanFlags) (anchored inside : Bool) (t : Bytes) (limit : ℕ) (f : Bytes) :
    Option Bytes :=
  match f with
  | [] => some t
  | c :: f' =>
    if inside then cleanLoop fl anchored (c ≠ slash) (t ++ [c]) limit f'
    -- discard extra slashes
    else if c = slash then cleanLoop fl anchored false t limit f'
    -- discard interior "." dirs
    else if c = dot ∧ f'.head? = some slash ∧ !fl.keepDotDirs then
      cleanLoop fl anchored false t limit f'.tail
    else if c = dot ∧ f' = [] ∧ fl.dropTrailingDotDir then some t
    -- collapse ".." dirs
    else if c = dot ∧ (fl.collapseDotDotDirs || fl.refuseDotDotDirs) ∧ dotIsDotDotDir (c :: f') then
      if fl.refuseDotDotDirs then none
      else if anchored ∧ t.length = 1 then cleanLoop fl anchored false t limit f'.tail
      else
        let s := searchBack t limit t.length
        if s ≠ t.length ∧ (s = 0 ∨ t[s - 1]? = some slash) then
          cleanLoop fl anchored false (t.take s) limit f'.tail
        else cleanLoop fl anchored true (t ++ [c]) (t.length + 3) f'
    else cleanLoop fl anchored true (t ++ [c]) limit f'
termination_by f.length

/-- `clean_fname` up to its loop and with it. -/
def cleanBody (fl : CleanFlags) (name : Bytes) : Option Bytes :=
  if name.head? = some slash then cleanLoop fl true false [slash] 0 name.tail
  else if fl.keepDotDirs ∧ [dot, slash] <+: name then cleanLoop fl false false [dot, slash] 0 (name.drop 2)
  else if fl.refuseDotDotDirs ∧ name.head? = some dot ∧ dotIsDotDotDir name then none
  else cleanLoop fl false false [] 0 name

/-- The end of `clean_fname`. -/
def cleanEnd (fl : CleanFlags) (anchored : Bool) (t : Bytes) : Bytes :=
  let t := if (if anchored then 1 else 0) < t.length ∧ t.getLast? = some slash ∧ !fl.keepTrailingSlash
    then t.dropLast else t
  if t = [] then [dot] else t

/-- `clean_fname`: the name and the number that is returned. -/
def cleanFnameFlags (fl : CleanFlags) (name : Bytes) : Option (Bytes × ℕ) :=
  (cleanBody fl name).map fun t =>
    let t := cleanEnd fl (name.head? = some slash) t
    (t, t.length)

/-! ## Elements -/

/-- An element of a path, and whether a slash is behind it. -/
abbrev Element := Bytes × Bool

def elementText (e : Element) : Bytes := if e.2 then e.1 ++ [slash] else e.1

/-- The elements of a path. -/
inductive Elements : Bytes → List Element → Prop
  | nil : Elements [] []
  | slash {f : Bytes} {es : List Element} : Elements f es → Elements (slash :: f) es
  | elem {a f : Bytes} {es : List Element} :
      a ≠ [] → slash ∉ a → Elements f es → Elements (a ++ slash :: f) ((a, true) :: es)
  | last {a : Bytes} : a ≠ [] → slash ∉ a → Elements a [(a, false)]

theorem exists_elements (f : Bytes) : ∃ es, Elements f es := by
  induction hn : f.length using Nat.strong_induction_on generalizing f with
  | _ n ih =>
    cases f with
    | nil => exact ⟨[], .nil⟩
    | cons b f =>
      by_cases hb : b = slash
      · obtain ⟨es, hes⟩ := ih f.length (by rw [← hn]; exact Nat.lt_succ_self _) f rfl
        exact ⟨es, hb ▸ .slash hes⟩
      · obtain ⟨a, r, hne, hslash, hsplit⟩ := exists_first f hb
        rcases hsplit with hsplit | ⟨hsplit, rfl⟩
        · have hlt : r.length < n := by
            rw [← hn, hsplit, List.length_append, List.length_cons]
            omega
          obtain ⟨es, hes⟩ := ih r.length hlt r rfl
          rw [hsplit]
          exact ⟨_, .elem hne hslash hes⟩
        · rw [hsplit]
          exact ⟨_, .last hne hslash⟩

theorem Elements.comps {f : Bytes} {es : List Element} (h : Elements f es) :
    comps f = es.map fun e => compOf e.1 := by
  induction h with
  | nil => rfl
  | slash _ ih => rw [comps_slash, ih]
  | elem hne hslash _ ih => rw [comps_component hne hslash, ih, List.map_cons]
  | last hne hslash => exact comps_single hne hslash

/-- The elements that were written: the ".." elements in front, and the others. -/
structure KeptElements where
  ups : List Element
  stack : List Element

def KeptElements.text (k : KeptElements) : Bytes := k.ups.flatMap elementText ++ k.stack.flatMap elementText

/-- What the loop does with one element. -/
def keepElement (fl : CleanFlags) (anchored : Bool) (k : KeptElements) (e : Element) : Option KeptElements :=
  if e.1 = [dot] ∧ (if e.2 then !fl.keepDotDirs else fl.dropTrailingDotDir) then some k
  else if e.1 = [dot, dot] ∧ (fl.collapseDotDotDirs || fl.refuseDotDotDirs) then
    if fl.refuseDotDotDirs then none
    else if k.stack ≠ [] then some { k with stack := k.stack.dropLast }
    else if anchored then some k
    else some ⟨k.ups ++ [e], []⟩
  else some { k with stack := k.stack ++ [e] }

/-- The slash in front of an absolute path. -/
def anchor (anchored : Bool) : Bytes := if anchored then [slash] else []

/-- An element with a slash behind it. -/
def Closed (e : Element) : Prop := e.1 ≠ [] ∧ slash ∉ e.1 ∧ e.2 = true

/-- What was written, at the start of an element. -/
structure WrittenElements (anchored : Bool) (k : KeptElements) (t : Bytes) (limit : ℕ) : Prop where
  text : t = anchor anchored ++ k.text
  closed : ∀ e ∈ k.ups ++ k.stack, Closed e
  ups : anchored = true → k.ups = []
  limit : limit = (k.ups.flatMap elementText).length

section Loop

variable {fl : CleanFlags} {anchored : Bool} {k : KeptElements} {t a f : Bytes} {limit : ℕ}

theorem cleanLoop_slash (f : Bytes) :
    cleanLoop fl anchored false t limit (slash :: f) = cleanLoop fl anchored false t limit f := by
  rw [cleanLoop]
  rfl

/-- What is behind an element. -/
def Behind (closed : Bool) (r : Bytes) : Prop :=
  (closed = true ∧ ∃ f, r = slash :: f) ∨ (closed = false ∧ r = [])

variable {b : Bool} {r : Bytes}

theorem cleanLoop_behind (hr : Behind b r) :
    cleanLoop fl anchored false t limit r = cleanLoop fl anchored false t limit r.tail := by
  rcases hr with ⟨-, f, rfl⟩ | ⟨-, rfl⟩
  · exact cleanLoop_slash f
  · rfl

/-- The inner loop copies an element and the slash behind it. -/
theorem cleanLoop_copy (ha : slash ∉ a) (hr : Behind b r) :
    cleanLoop fl anchored true t limit (a ++ r) =
      cleanLoop fl anchored false (t ++ elementText (a, b)) limit r.tail := by
  induction a generalizing t with
  | nil =>
    rcases hr with ⟨rfl, f, rfl⟩ | ⟨rfl, rfl⟩
    · rw [List.nil_append, cleanLoop]
      rfl
    · show cleanLoop fl anchored true t limit [] = cleanLoop fl anchored false (t ++ []) limit []
      rw [cleanLoop, cleanLoop, List.append_nil]
  | cons c a ih =>
    obtain ⟨hc, ha⟩ := not_or.1 (mt List.mem_cons.2 ha)
    have hinside : decide (c ≠ slash) = true := decide_eq_true (Ne.symm hc)
    have htext : elementText (c :: a, b) = c :: elementText (a, b) := by
      cases b <;> rfl
    rw [List.cons_append, cleanLoop]
    dsimp only
    rw [if_pos rfl, hinside, ih ha, htext, List.append_assoc t [c], List.singleton_append]

/-- A ".." element is recognised. -/
theorem dotIsDotDotDir_iff (ha : slash ∉ dot :: a) (hr : Behind b r) :
    dotIsDotDotDir (dot :: (a ++ r)) = true ↔ dot :: a = [dot, dot] := by
  have hslash : slash ≠ dot := by decide
  rcases a with _ | ⟨x, _ | ⟨y, a⟩⟩
  · rcases hr with ⟨-, f, rfl⟩ | ⟨-, rfl⟩
    · simp [dotIsDotDotDir, hslash]
    · simp [dotIsDotDotDir]
  · rcases hr with ⟨-, f, rfl⟩ | ⟨-, rfl⟩
    · simp [dotIsDotDotDir]
    · simp [dotIsDotDotDir]
  · have hy : y ≠ slash := fun h => ha (by simp [h])
    simp [dotIsDotDotDir, hy]

/-- An element that is neither dropped nor collapsed is copied. -/
theorem cleanLoop_element_copy (hne : a ≠ []) (ha : slash ∉ a) (hr : Behind b r)
    (hdot : ¬(a = [dot] ∧ (if b then !fl.keepDotDirs else fl.dropTrailingDotDir) = true))
    (hup : ¬(a = [dot, dot] ∧ (fl.collapseDotDotDirs || fl.refuseDotDotDirs) = true)) :
    cleanLoop fl anchored false t limit (a ++ r) =
      cleanLoop fl anchored false (t ++ elementText (a, b)) limit r.tail := by
  obtain ⟨c, a, rfl⟩ := List.exists_cons_of_ne_nil hne
  have hc : c ≠ slash := fun h => ha (h ▸ List.mem_cons_self)
  have htail : slash ∉ a := fun h => ha (List.mem_cons_of_mem _ h)
  have htext : elementText (c :: a, b) = c :: elementText (a, b) := by
    cases b <;> rfl
  have hinterior : ¬(c = dot ∧ (a ++ r).head? = some slash ∧ (!fl.keepDotDirs) = true) := by
    rintro ⟨rfl, hhead, hkeep⟩
    cases a with
    | nil =>
      rcases hr with ⟨rfl, f, rfl⟩ | ⟨rfl, rfl⟩
      · exact hdot ⟨rfl, hkeep⟩
      · cases hhead
    | cons x a => exact htail (by rw [Option.some.inj hhead]; exact List.mem_cons_self)
  have htrailing : ¬(c = dot ∧ a ++ r = [] ∧ fl.dropTrailingDotDir = true) := by
    rintro ⟨rfl, hnil, hdrop⟩
    obtain ⟨rfl, rfl⟩ := List.append_eq_nil_iff.1 hnil
    rcases hr with ⟨rfl, f, hf⟩ | ⟨rfl, -⟩
    · cases hf
    · exact hdot ⟨rfl, hdrop⟩
  have hdotdot : ¬(c = dot ∧ (fl.collapseDotDotDirs || fl.refuseDotDotDirs) = true ∧
      dotIsDotDotDir (c :: (a ++ r)) = true) := by
    rintro ⟨rfl, hflag, hdd⟩
    exact hup ⟨(dotIsDotDotDir_iff ha hr).1 hdd, hflag⟩
  rw [List.cons_append, cleanLoop]
  dsimp only
  rw [if_neg Bool.false_ne_true, if_neg hc, if_neg hinterior, if_neg htrailing, if_neg hdotdot,
    cleanLoop_copy htail hr, htext, List.append_assoc, List.singleton_append]

/-- A "." element is dropped. -/
theorem cleanLoop_dot (hr : Behind b r)
    (hdrop : (if b then !fl.keepDotDirs else fl.dropTrailingDotDir) = true) :
    cleanLoop fl anchored false t limit ([dot] ++ r) =
      cleanLoop fl anchored false t limit r.tail := by
  rcases hr with ⟨rfl, f, rfl⟩ | ⟨rfl, rfl⟩
  · rw [List.singleton_append, cleanLoop]
    dsimp only
    rw [if_neg Bool.false_ne_true, if_neg (by decide), if_pos ⟨rfl, rfl, hdrop⟩]
  · have hhead : ¬(dot = dot ∧ ([] : Bytes).head? = some slash ∧ (!fl.keepDotDirs) = true) :=
      fun h => by cases h.2.1
    rw [List.append_nil, cleanLoop]
    dsimp only
    rw [if_neg Bool.false_ne_true, if_neg (by decide), if_neg hhead, if_pos ⟨rfl, rfl, hdrop⟩]
    show some t = cleanLoop fl anchored false t limit []
    rw [cleanLoop]

theorem searchBack_succ {base tail : Bytes} (ha : slash ∉ a) (hlimit : limit ≤ base.length)
    (hbase : base = [] ∨ base.getLast? = some slash) {j : ℕ} (hj : j ≤ a.length) :
    searchBack (base ++ (a ++ tail)) limit (base.length + j + 1) = base.length := by
  induction j with
  | zero =>
    rw [Nat.add_zero, searchBack, if_pos (by omega)]
    rcases hbase with rfl | hbase
    · rfl
    · obtain ⟨base, rfl⟩ := List.getLast?_eq_some_iff.1 hbase
      have hpos : 0 < (base ++ [slash]).length := by
        rw [List.length_append]
        exact Nat.succ_pos _
      refine if_pos ⟨hpos, ?_⟩
      rw [List.getElem?_append_left (Nat.sub_lt hpos Nat.one_pos)]
      simp
  | succ j ih =>
    have hstep : ¬(0 < base.length + (j + 1) ∧
        (base ++ (a ++ tail))[base.length + (j + 1) - 1]? = some slash) := by
      rintro ⟨-, hget⟩
      have hidx : base.length + (j + 1) - 1 - base.length = j := by omega
      rw [List.getElem?_append_right (by omega), hidx, List.getElem?_append_left hj] at hget
      exact ha (List.mem_of_getElem? hget)
    rw [searchBack, if_pos (by omega), if_neg hstep]
    exact ih (Nat.le_of_succ_le hj)

/-- The search stops behind the slash in front of the last element. -/
theorem searchBack_spec {base : Bytes} (ha : slash ∉ a) (hlimit : limit ≤ base.length)
    (hbase : base = [] ∨ base.getLast? = some slash) :
    searchBack (base ++ (a ++ [slash])) limit (base ++ (a ++ [slash])).length = base.length := by
  have hlen : (base ++ (a ++ [slash])).length = base.length + a.length + 1 := by
    simp only [List.length_append, List.length_singleton, Nat.add_assoc]
  rw [hlen]
  exact searchBack_succ ha hlimit hbase le_rfl

/-- It does not go back behind its limit. -/
theorem searchBack_limit {name : Bytes} {s : ℕ} (h : s ≤ limit) : searchBack name limit s = s := by
  cases s with
  | zero => rfl
  | succ s => exact if_neg (not_lt.2 h)

theorem Closed.text {e : Element} (h : Closed e) : elementText e = e.1 ++ [slash] := by
  rw [elementText, if_pos h.2.2]

theorem getLast?_closed {es : List Element} (h : ∀ e ∈ es, Closed e) {pre : Bytes}
    (hpre : pre = [] ∨ pre.getLast? = some slash) :
    pre ++ es.flatMap elementText = [] ∨ (pre ++ es.flatMap elementText).getLast? = some slash := by
  induction es using List.reverseRecOn with
  | nil =>
    rw [List.flatMap_nil, List.append_nil]
    exact hpre
  | append_singleton es e _ =>
    have he : Closed e := h e (List.mem_append_right _ List.mem_cons_self)
    right
    rw [List.flatMap_append, List.flatMap_singleton, he.text, ← List.append_assoc,
      ← List.append_assoc, List.getLast?_concat]

theorem anchor_cases (anchored : Bool) :
    anchor anchored = [] ∨ (anchor anchored).getLast? = some slash := by
  cases anchored
  · exact .inl rfl
  · exact .inr rfl

theorem WrittenElements.ups_closed (hw : WrittenElements anchored k t limit) : ∀ e ∈ k.ups, Closed e :=
  fun e he => hw.closed e (List.mem_append_left _ he)

theorem WrittenElements.stack_closed (hw : WrittenElements anchored k t limit) : ∀ e ∈ k.stack, Closed e :=
  fun e he => hw.closed e (List.mem_append_right _ he)

/-- The round for a ".." element that is collapsed. -/
theorem cleanLoop_dotdot (hr : Behind b r) (hcollapse : fl.collapseDotDotDirs = true)
    (hrefuse : fl.refuseDotDotDirs = false) :
    cleanLoop fl anchored false t limit ([dot, dot] ++ r) =
      if anchored ∧ t.length = 1 then cleanLoop fl anchored false t limit r
      else if searchBack t limit t.length ≠ t.length ∧ (searchBack t limit t.length = 0 ∨
          t[searchBack t limit t.length - 1]? = some slash) then
        cleanLoop fl anchored false (t.take (searchBack t limit t.length)) limit r
      else cleanLoop fl anchored true (t ++ [dot]) (t.length + 3) (dot :: r) := by
  have hinterior : ¬(dot = dot ∧ (dot :: r).head? = some slash ∧ (!fl.keepDotDirs) = true) := by
    rintro ⟨-, hhead, -⟩
    exact absurd (Option.some.inj hhead) (by decide)
  have htrailing : ¬(dot = dot ∧ dot :: r = [] ∧ fl.dropTrailingDotDir = true) := by
    rintro ⟨-, hnil, -⟩
    cases hnil
  have hdotdot : dot = dot ∧ (fl.collapseDotDotDirs || fl.refuseDotDotDirs) = true ∧
      dotIsDotDotDir (dot :: dot :: r) = true :=
    ⟨rfl, by rw [hcollapse]; rfl, (@dotIsDotDotDir_iff [dot] b r (by decide) hr).2 rfl⟩
  show cleanLoop fl anchored false t limit (dot :: dot :: r) = _
  rw [cleanLoop]
  dsimp only
  rw [if_neg Bool.false_ne_true, if_neg (by decide), if_neg hinterior, if_neg htrailing,
    if_pos hdotdot, hrefuse, if_neg Bool.false_ne_true]
  rfl

/-- A ".." element is refused. -/
theorem cleanLoop_refuse (hr : Behind b r) (hrefuse : fl.refuseDotDotDirs = true) :
    cleanLoop fl anchored false t limit ([dot, dot] ++ r) = none := by
  have hinterior : ¬(dot = dot ∧ (dot :: r).head? = some slash ∧ (!fl.keepDotDirs) = true) := by
    rintro ⟨-, hhead, -⟩
    exact absurd (Option.some.inj hhead) (by decide)
  have htrailing : ¬(dot = dot ∧ dot :: r = [] ∧ fl.dropTrailingDotDir = true) := by
    rintro ⟨-, hnil, -⟩
    cases hnil
  have hdotdot : dot = dot ∧ (fl.collapseDotDotDirs || fl.refuseDotDotDirs) = true ∧
      dotIsDotDotDir (dot :: dot :: r) = true :=
    ⟨rfl, by rw [hrefuse, Bool.or_true], (@dotIsDotDotDir_iff [dot] b r (by decide) hr).2 rfl⟩
  show cleanLoop fl anchored false t limit (dot :: dot :: r) = _
  rw [cleanLoop]
  dsimp only
  rw [if_neg Bool.false_ne_true, if_neg (by decide), if_neg hinterior, if_neg htrailing,
    if_pos hdotdot, if_pos hrefuse]

/-- A ".." element takes the last element back. -/
theorem cleanLoop_up (hw : WrittenElements anchored k t limit) (hr : Behind b r)
    (hcollapse : fl.collapseDotDotDirs = true) (hrefuse : fl.refuseDotDotDirs = false)
    (hstack : k.stack ≠ []) :
    cleanLoop fl anchored false t limit ([dot, dot] ++ r) =
      cleanLoop fl anchored false
        (anchor anchored ++ ({ k with stack := k.stack.dropLast } : KeptElements).text) limit r.tail := by
  obtain ⟨es, e, hes⟩ : ∃ es e, k.stack = es ++ [e] :=
    ⟨_, _, (List.dropLast_append_getLast hstack).symm⟩
  have he : Closed e := hw.stack_closed e (by rw [hes]; simp)
  have hclosed : ∀ e ∈ es, Closed e := fun e he => hw.stack_closed e (by rw [hes]; simp [he])
  obtain ⟨base, hbase⟩ : ∃ base, base = anchor anchored ++
      (k.ups.flatMap elementText ++ es.flatMap elementText) := ⟨_, rfl⟩
  have ht : t = base ++ (e.1 ++ [slash]) := by
    rw [hw.text, KeptElements.text, hes, List.flatMap_append, List.flatMap_singleton, he.text, hbase]
    simp only [List.append_assoc]
  have hends : base = [] ∨ base.getLast? = some slash := by
    rw [hbase, ← List.append_assoc]
    exact getLast?_closed hclosed (getLast?_closed hw.ups_closed (anchor_cases anchored))
  have hlimit : limit ≤ base.length := by
    rw [hw.limit, hbase, List.length_append, List.length_append]
    omega
  have hback : searchBack t limit t.length = base.length := by
    rw [ht]
    exact searchBack_spec he.2.1 hlimit hends
  have hlen : base.length + 2 ≤ t.length := by
    rw [ht, List.length_append, List.length_append, List.length_singleton]
    have := List.length_pos_of_ne_nil he.1
    omega
  have hanchored : ¬(anchored = true ∧ t.length = 1) := by
    rintro ⟨-, hone⟩
    omega
  have hslash : base.length ≠ t.length ∧
      (base.length = 0 ∨ t[base.length - 1]? = some slash) := by
    refine ⟨by omega, ?_⟩
    rcases hends with hnil | hlast
    · exact .inl (by rw [hnil]; rfl)
    · right
      obtain ⟨base', hbase'⟩ := List.getLast?_eq_some_iff.1 hlast
      rw [ht, hbase']
      simp
  rw [cleanLoop_dotdot hr hcollapse hrefuse, if_neg hanchored, hback, if_pos hslash,
    cleanLoop_behind hr, ht, List.take_left, hbase, KeptElements.text]
  dsimp only
  rw [hes, List.dropLast_concat]

/-- Without one it stays, or is dropped at the root. -/
theorem cleanLoop_up_nil (hw : WrittenElements anchored k t limit) (hr : Behind b r)
    (hcollapse : fl.collapseDotDotDirs = true) (hrefuse : fl.refuseDotDotDirs = false)
    (hstack : k.stack = []) :
    cleanLoop fl anchored false t limit ([dot, dot] ++ r) =
      if anchored then cleanLoop fl anchored false t limit r.tail
      else cleanLoop fl anchored false (t ++ elementText ([dot, dot], b)) (t.length + 3) r.tail := by
  have htext := hw.text
  rw [KeptElements.text, hstack, List.flatMap_nil, List.append_nil] at htext
  rw [cleanLoop_dotdot hr hcollapse hrefuse]
  cases anchored with
  | true =>
    have hone : t.length = 1 := by
      rw [htext, hw.ups rfl]
      rfl
    rw [if_pos ⟨rfl, hone⟩, if_pos rfl, cleanLoop_behind hr]
  | false =>
    have hlimit : t.length = limit := by
      rw [htext, hw.limit]
      rfl
    have hback : searchBack t limit t.length = t.length := searchBack_limit hlimit.le
    have hdots : elementText ([dot, dot], b) = dot :: elementText ([dot], b) := by
      cases b <;> rfl
    rw [if_neg (fun h => Bool.false_ne_true h.1), hback, if_neg (fun h => h.1 rfl),
      if_neg Bool.false_ne_true]
    show cleanLoop fl false true (t ++ [dot]) (t.length + 3) ([dot] ++ r) = _
    rw [cleanLoop_copy (by decide) hr, hdots, List.append_assoc, List.singleton_append]

theorem WrittenElements.push (hw : WrittenElements anchored k t limit) {e : Element} (he : Closed e) :
    WrittenElements anchored { k with stack := k.stack ++ [e] } (t ++ elementText e) limit where
  text := by
    rw [hw.text, KeptElements.text, KeptElements.text, List.flatMap_append, List.flatMap_singleton]
    simp only [List.append_assoc]
  closed := by
    intro x hx
    rw [← List.append_assoc, List.mem_append, List.mem_singleton] at hx
    rcases hx with hx | rfl
    · exact hw.closed x hx
    · exact he
  ups := hw.ups
  limit := hw.limit

/-- **One element.** -/
theorem cleanLoop_element (hw : WrittenElements anchored k t limit) (hne : a ≠ []) (ha : slash ∉ a)
    (hr : Behind b r) :
    (keepElement fl anchored k (a, b) = none ∧
      cleanLoop fl anchored false t limit (a ++ r) = none) ∨
    ∃ k' limit', keepElement fl anchored k (a, b) = some k' ∧
      cleanLoop fl anchored false t limit (a ++ r) =
        cleanLoop fl anchored false (anchor anchored ++ k'.text) limit' r.tail ∧
      (b = true → WrittenElements anchored k' (anchor anchored ++ k'.text) limit') := by
  have hsame : WrittenElements anchored k (anchor anchored ++ k.text) limit := hw.text ▸ hw
  rw [keepElement]
  dsimp only
  by_cases hdot : a = [dot] ∧ (if b then !fl.keepDotDirs else fl.dropTrailingDotDir) = true
  · rw [if_pos hdot, hdot.1, cleanLoop_dot hr hdot.2]
    exact .inr ⟨k, limit, rfl, by rw [← hw.text], fun _ => hsame⟩
  rw [if_neg hdot]
  by_cases hup : a = [dot, dot] ∧ (fl.collapseDotDotDirs || fl.refuseDotDotDirs) = true
  · rw [if_pos hup]
    obtain ⟨rfl, hflags⟩ := hup
    by_cases hrefuse : fl.refuseDotDotDirs = true
    · rw [if_pos hrefuse]
      exact .inl ⟨rfl, cleanLoop_refuse hr hrefuse⟩
    rw [if_neg hrefuse]
    have hrefuse := Bool.eq_false_of_not_eq_true hrefuse
    have hcollapse : fl.collapseDotDotDirs = true := by
      rwa [hrefuse, Bool.or_false] at hflags
    right
    by_cases hstack : k.stack ≠ []
    · rw [if_pos hstack, cleanLoop_up hw hr hcollapse hrefuse hstack]
      refine ⟨_, limit, rfl, rfl, fun _ => ⟨rfl, fun e he => hw.closed e ?_, hw.ups, hw.limit⟩⟩
      rw [List.mem_append] at he ⊢
      exact he.imp_right fun he => List.mem_of_mem_dropLast he
    · rw [if_neg hstack, cleanLoop_up_nil hw hr hcollapse hrefuse (not_not.1 hstack)]
      cases anchored with
      | true =>
        rw [if_pos rfl, if_pos rfl]
        exact ⟨k, limit, rfl, by rw [← hw.text], fun _ => hsame⟩
      | false =>
        rw [if_neg Bool.false_ne_true, if_neg Bool.false_ne_true]
        have htext : t ++ elementText ([dot, dot], b) =
            anchor false ++ KeptElements.text ⟨k.ups ++ [([dot, dot], b)], []⟩ := by
          rw [hw.text, KeptElements.text, KeptElements.text, not_not.1 hstack, List.flatMap_append,
            List.flatMap_singleton]
          simp only [List.flatMap_nil, List.append_nil, List.append_assoc]
        refine ⟨_, t.length + 3, rfl, by rw [htext], ?_⟩
        rintro rfl
        refine ⟨rfl, fun e he => ?_, fun h => absurd h Bool.false_ne_true, ?_⟩
        · rw [List.append_nil, List.mem_append, List.mem_singleton] at he
          rcases he with he | rfl
          · exact hw.ups_closed e he
          · exact ⟨by decide, by decide, rfl⟩
        · rw [hw.text, KeptElements.text, not_not.1 hstack, List.flatMap_append, List.length_append,
            List.flatMap_nil, List.append_nil, List.length_append]
          show 0 + (k.ups.flatMap elementText).length + 3 = (k.ups.flatMap elementText).length + 3
          rw [Nat.zero_add]
  · rw [if_neg hup]
    right
    rw [cleanLoop_element_copy hne ha hr hdot hup]
    have htext : t ++ elementText (a, b) =
        anchor anchored ++ KeptElements.text { k with stack := k.stack ++ [(a, b)] } := by
      rw [hw.text, KeptElements.text, KeptElements.text, List.flatMap_append, List.flatMap_singleton]
      simp only [List.append_assoc]
    refine ⟨_, limit, rfl, by rw [htext], ?_⟩
    rintro rfl
    exact htext ▸ hw.push ⟨hne, ha, rfl⟩

/-- **The loop keeps what `keepElement` keeps.** -/
theorem cleanLoop_eq {es : List Element} (hes : Elements f es) (hw : WrittenElements anchored k t limit) :
    cleanLoop fl anchored false t limit f =
      (es.foldlM (keepElement fl anchored) k).map fun k => anchor anchored ++ k.text := by
  induction hes generalizing k t limit with
  | nil =>
    rw [cleanLoop, hw.text]
    rfl
  | slash _ ih => rw [cleanLoop_slash, ih hw]
  | @elem a f es hne ha _ ih =>
    rw [List.foldlM_cons]
    rcases cleanLoop_element hw hne ha (.inl ⟨rfl, f, rfl⟩) with
      ⟨hnone, hloop⟩ | ⟨k', limit', hsome, hloop, hw'⟩
    · rw [hnone, hloop]
      rfl
    · rw [hsome, hloop, List.tail_cons, ih (hw' rfl)]
      rfl
  | @last a hne ha =>
    rw [List.foldlM_cons]
    have hend := @cleanLoop_element fl anchored k t a limit false [] hw hne ha (.inr ⟨rfl, rfl⟩)
    rw [List.append_nil] at hend
    rcases hend with ⟨hnone, hloop⟩ | ⟨k', limit', hsome, hloop, -⟩
    · rw [hnone, hloop]
      rfl
    · rw [hsome, hloop, List.tail_nil, cleanLoop]
      rfl

theorem written_nil (anchored : Bool) : WrittenElements anchored ⟨[], []⟩ (anchor anchored) 0 where
  text := by rw [KeptElements.text, List.flatMap_nil, List.append_nil, List.append_nil]
  closed := fun _ he => absurd he List.not_mem_nil
  ups := fun _ => rfl
  limit := rfl

/-- The special cases at the start make no difference. -/
theorem cleanBody_eq (name : Bytes) : cleanBody fl name =
    cleanLoop fl (name.head? = some slash) false (anchor (name.head? = some slash)) 0
      (if name.head? = some slash then name.tail else name) := by
  rw [cleanBody]
  by_cases hanchored : name.head? = some slash
  · rw [if_pos hanchored, if_pos hanchored, decide_eq_true hanchored]
    rfl
  rw [if_neg hanchored, if_neg hanchored, decide_eq_false hanchored]
  by_cases hkeep : fl.keepDotDirs = true ∧ [dot, slash] <+: name
  · rw [if_pos hkeep]
    obtain ⟨hkeep, f, rfl⟩ := hkeep
    have hbehind : Behind true (slash :: f) := .inl ⟨rfl, f, rfl⟩
    have hdot : ¬([dot] = [dot] ∧ (if true then !fl.keepDotDirs else fl.dropTrailingDotDir) = true) := by
      rintro ⟨-, h⟩
      rw [if_pos rfl, hkeep] at h
      cases h
    have hcopy := @cleanLoop_element_copy fl false [] [dot] 0 true (slash :: f) (by decide) (by decide)
      hbehind hdot fun h => absurd h.1 (by decide)
    exact hcopy.symm
  rw [if_neg hkeep]
  by_cases hrefuse : fl.refuseDotDotDirs = true ∧ name.head? = some dot ∧ dotIsDotDotDir name = true
  · rw [if_pos hrefuse]
    obtain ⟨hrefuse, hhead, hdd⟩ := hrefuse
    obtain ⟨b, r, hr, rfl⟩ : ∃ b r, Behind b r ∧ name = [dot, dot] ++ r := by
      rw [dotIsDotDotDir, Bool.and_eq_true, Bool.or_eq_true, decide_eq_true_eq, decide_eq_true_eq,
        decide_eq_true_eq] at hdd
      rcases name with _ | ⟨x, _ | ⟨y, _ | ⟨z, f⟩⟩⟩
      · cases hhead
      · cases hdd.1
      · exact ⟨false, [], .inr ⟨rfl, rfl⟩, by rw [Option.some.inj hhead, Option.some.inj hdd.1]; rfl⟩
      · obtain ⟨hy, hz⟩ := hdd
        have hz : z = slash := Option.some.inj (hz.resolve_right (by simp))
        exact ⟨true, slash :: f, .inl ⟨rfl, f, rfl⟩,
          by rw [Option.some.inj hhead, Option.some.inj hy, hz]; rfl⟩
    exact (cleanLoop_refuse hr hrefuse).symm
  · rw [if_neg hrefuse]
    rfl

end Loop

/-! ## What was kept -/

/-- An element that can be read off a path. -/
def Whole (e : Element) : Prop := e.1 ≠ [] ∧ slash ∉ e.1

/-- An element that the loop neither drops nor collapses. -/
def Remains (fl : CleanFlags) (e : Element) : Prop :=
  ¬(e.1 = [dot] ∧ (if e.2 then !fl.keepDotDirs else fl.dropTrailingDotDir) = true) ∧
    ¬(e.1 = [dot, dot] ∧ (fl.collapseDotDotDirs || fl.refuseDotDotDirs) = true)

/-- What the loop leaves, which it would leave again. -/
structure Settled (fl : CleanFlags) (anchored : Bool) (k : KeptElements) : Prop where
  whole : ∀ e ∈ k.ups ++ k.stack, Whole e
  closed : ∀ e ∈ (k.ups ++ k.stack).dropLast, e.2 = true
  dots : ∀ e ∈ k.ups, e.1 = [dot, dot]
  flags : k.ups ≠ [] →
    fl.collapseDotDotDirs = true ∧ fl.refuseDotDotDirs = false ∧ anchored = false
  stays : ∀ e ∈ k.stack, Remains fl e

section Settled

variable {fl : CleanFlags} {anchored : Bool} {k k' : KeptElements} {e : Element} {f : Bytes}
  {es : List Element}

theorem settled_nil : Settled fl anchored ⟨[], []⟩ where
  whole := fun _ he => absurd he List.not_mem_nil
  closed := fun _ he => absurd he List.not_mem_nil
  dots := fun _ he => absurd he List.not_mem_nil
  flags := fun h => absurd rfl h
  stays := fun _ he => absurd he List.not_mem_nil

/-- What `keepElement` can do. -/
theorem keepElement_cases (h : keepElement fl anchored k e = some k') :
    (k' = k ∧ (e.1 = [dot] ∨ e.1 = [dot, dot] ∧ k.stack = [] ∧ anchored = true)) ∨
    (k.stack ≠ [] ∧ e.1 = [dot, dot] ∧ fl.collapseDotDotDirs = true ∧
      k' = { k with stack := k.stack.dropLast }) ∨
    (k.stack = [] ∧ e.1 = [dot, dot] ∧ fl.collapseDotDotDirs = true ∧ fl.refuseDotDotDirs = false ∧
      anchored = false ∧ k' = ⟨k.ups ++ [e], []⟩) ∨
    (Remains fl e ∧ k' = { k with stack := k.stack ++ [e] }) := by
  rw [keepElement] at h
  by_cases hdot : e.1 = [dot] ∧ (if e.2 then !fl.keepDotDirs else fl.dropTrailingDotDir) = true
  · rw [if_pos hdot] at h
    exact .inl ⟨(Option.some.inj h).symm, .inl hdot.1⟩
  rw [if_neg hdot] at h
  by_cases hup : e.1 = [dot, dot] ∧ (fl.collapseDotDotDirs || fl.refuseDotDotDirs) = true
  · rw [if_pos hup] at h
    by_cases hrefuse : fl.refuseDotDotDirs = true
    · rw [if_pos hrefuse] at h
      cases h
    rw [if_neg hrefuse] at h
    have hrefuse := Bool.eq_false_of_not_eq_true hrefuse
    have hcollapse : fl.collapseDotDotDirs = true := by
      rw [← hup.2, hrefuse, Bool.or_false]
    by_cases hstack : k.stack ≠ []
    · rw [if_pos hstack] at h
      exact .inr (.inl ⟨hstack, hup.1, hcollapse, (Option.some.inj h).symm⟩)
    · rw [if_neg hstack] at h
      cases anchored with
      | true =>
        rw [if_pos rfl] at h
        exact .inl ⟨(Option.some.inj h).symm, .inr ⟨hup.1, not_not.1 hstack, rfl⟩⟩
      | false =>
        rw [if_neg Bool.false_ne_true] at h
        exact .inr (.inr (.inl ⟨not_not.1 hstack, hup.1, hcollapse, hrefuse, rfl,
          (Option.some.inj h).symm⟩))
  · rw [if_neg hup] at h
    exact .inr (.inr (.inr ⟨⟨hdot, hup⟩, (Option.some.inj h).symm⟩))

theorem Settled.keepElement (hk : Settled fl anchored k) (hclosed : ∀ e ∈ k.ups ++ k.stack, e.2 = true)
    (he : Whole e) (h : keepElement fl anchored k e = some k') :
    Settled fl anchored k' ∧ (e.2 = true → ∀ e ∈ k'.ups ++ k'.stack, e.2 = true) := by
  rcases keepElement_cases h with ⟨rfl, -⟩ | ⟨hstack, -, -, rfl⟩ |
    ⟨hstack, hdots, hcollapse, hrefuse, hanchored, rfl⟩ | ⟨hstays, rfl⟩
  · exact ⟨hk, fun _ => hclosed⟩
  · have hsub : ∀ x ∈ k.ups ++ k.stack.dropLast, x ∈ k.ups ++ k.stack := by
      intro x hx
      rw [List.mem_append] at hx ⊢
      exact hx.imp_right List.mem_of_mem_dropLast
    refine ⟨⟨fun x hx => hk.whole x (hsub x hx), fun x hx => ?_, hk.dots, hk.flags, ?_⟩,
      fun _ x hx => hclosed x (hsub x hx)⟩
    · exact hclosed x (hsub x (List.mem_of_mem_dropLast hx))
    · intro x hx
      exact hk.stays x (List.mem_of_mem_dropLast hx)
  · rw [hstack, List.append_nil] at hclosed
    have hwhole := hk.whole
    rw [hstack, List.append_nil] at hwhole
    refine ⟨⟨?_, ?_, ?_, fun _ => ⟨hcollapse, hrefuse, hanchored⟩, fun x hx => absurd hx List.not_mem_nil⟩, ?_⟩
    · intro x hx
      rw [List.append_nil, List.mem_append, List.mem_singleton] at hx
      rcases hx with hx | rfl
      · exact hwhole x hx
      · exact he
    · intro x hx
      rw [List.append_nil, List.dropLast_concat] at hx
      exact hclosed x hx
    · intro x hx
      rcases List.mem_append.1 hx with hx | hx
      · exact hk.dots x hx
      · rw [List.mem_singleton.1 hx]
        exact hdots
    · intro hlast x hx
      rw [List.append_nil, List.mem_append, List.mem_singleton] at hx
      rcases hx with hx | rfl
      · exact hclosed x hx
      · exact hlast
  · refine ⟨⟨?_, ?_, hk.dots, hk.flags, ?_⟩, ?_⟩
    · intro x hx
      rw [← List.append_assoc, List.mem_append, List.mem_singleton] at hx
      rcases hx with hx | rfl
      · exact hk.whole x hx
      · exact he
    · intro x hx
      rw [← List.append_assoc, List.dropLast_concat] at hx
      exact hclosed x hx
    · intro x hx
      rcases List.mem_append.1 hx with hx | hx
      · exact hk.stays x hx
      · rw [List.mem_singleton.1 hx]
        exact hstays
    · intro hlast x hx
      rw [← List.append_assoc, List.mem_append, List.mem_singleton] at hx
      rcases hx with hx | rfl
      · exact hclosed x hx
      · exact hlast

/-- What is left of a whole path. -/
theorem Settled.foldlM (hes : Elements f es) (hk : Settled fl anchored k)
    (hclosed : ∀ e ∈ k.ups ++ k.stack, e.2 = true)
    (h : es.foldlM (CloudEdgeBackup.keepElement fl anchored) k = some k') :
    Settled fl anchored k' := by
  induction hes generalizing k with
  | nil =>
    obtain rfl := Option.some.inj h
    exact hk
  | slash _ ih => exact ih hk hclosed h
  | elem hne ha _ ih =>
    rw [List.foldlM_cons] at h
    obtain ⟨k₁, hk₁, h⟩ := Option.bind_eq_some_iff.1 h
    obtain ⟨hsettled, hclosed'⟩ := hk.keepElement hclosed ⟨hne, ha⟩ hk₁
    exact ih hsettled (hclosed' rfl) h
  | last hne ha =>
    rw [List.foldlM_cons] at h
    obtain ⟨k₁, hk₁, h⟩ := Option.bind_eq_some_iff.1 h
    obtain rfl := Option.some.inj h
    exact (hk.keepElement hclosed ⟨hne, ha⟩ hk₁).1

/-- The elements of a text that is made of elements. -/
theorem elements_flatMap (hwhole : ∀ e ∈ es, Whole e) (hclosed : ∀ e ∈ es.dropLast, e.2 = true) :
    Elements (es.flatMap elementText) es := by
  induction es with
  | nil => exact .nil
  | cons e es ih =>
    obtain ⟨hne, ha⟩ := hwhole e List.mem_cons_self
    obtain ⟨a, b⟩ := e
    cases es with
    | nil =>
      cases b with
      | false =>
        show Elements (a ++ []) [(a, false)]
        rw [List.append_nil]
        exact .last hne ha
      | true =>
        show Elements ((a ++ [CloudEdgeBackup.slash]) ++ []) [(a, true)]
        rw [List.append_nil]
        exact .elem hne ha .nil
    | cons e' es =>
      have hb : b = true := hclosed (a, b) List.mem_cons_self
      have htail := ih (fun x hx => hwhole x (List.mem_cons_of_mem _ hx))
        fun x hx => hclosed x (List.mem_cons_of_mem _ hx)
      rw [hb, List.flatMap_cons]
      show Elements ((a ++ [CloudEdgeBackup.slash]) ++ _) _
      rw [List.append_assoc]
      exact .elem hne ha htail

/-- What was kept is kept again. -/
theorem Settled.again (hk : Settled fl anchored k) :
    (k.ups ++ k.stack).foldlM (CloudEdgeBackup.keepElement fl anchored) ⟨[], []⟩ = some k := by
  have hups : ∀ l : List Element, (∀ e ∈ l, e.1 = [dot, dot]) →
      (l ≠ [] → fl.collapseDotDotDirs = true ∧ fl.refuseDotDotDirs = false ∧ anchored = false) →
      ∀ u, l.foldlM (CloudEdgeBackup.keepElement fl anchored) ⟨u, []⟩ = some ⟨u ++ l, []⟩ := by
    intro l
    induction l with
    | nil =>
      intro _ _ u
      rw [List.append_nil]
      rfl
    | cons e l ih =>
      intro hdots hflags u
      obtain ⟨hcollapse, hrefuse, hanchored⟩ := hflags (List.cons_ne_nil _ _)
      have he := hdots e List.mem_cons_self
      have hstep : CloudEdgeBackup.keepElement fl anchored ⟨u, []⟩ e = some ⟨u ++ [e], []⟩ := by
        rw [CloudEdgeBackup.keepElement, if_neg (by rw [he]; exact fun h => absurd h.1 (by decide)),
          if_pos ⟨he, by rw [hcollapse]; rfl⟩, hrefuse, hanchored]
        rfl
      rw [List.foldlM_cons, hstep]
      show l.foldlM (CloudEdgeBackup.keepElement fl anchored) ⟨u ++ [e], []⟩ = _
      rw [ih (fun x hx => hdots x (List.mem_cons_of_mem _ hx))
        (fun _ => ⟨hcollapse, hrefuse, hanchored⟩), List.append_assoc, List.singleton_append]
  have hstack : ∀ l : List Element, (∀ e ∈ l, Remains fl e) →
      ∀ u s, l.foldlM (CloudEdgeBackup.keepElement fl anchored) ⟨u, s⟩ = some ⟨u, s ++ l⟩ := by
    intro l
    induction l with
    | nil =>
      intro _ u s
      rw [List.append_nil]
      rfl
    | cons e l ih =>
      intro hstays u s
      obtain ⟨hdot, hup⟩ := hstays e List.mem_cons_self
      rw [List.foldlM_cons, CloudEdgeBackup.keepElement, if_neg hdot, if_neg hup]
      show l.foldlM (CloudEdgeBackup.keepElement fl anchored) ⟨u, s ++ [e]⟩ = _
      rw [ih fun x hx => hstays x (List.mem_cons_of_mem _ hx), List.append_assoc,
        List.singleton_append]
  rw [List.foldlM_append, hups k.ups hk.dots hk.flags []]
  exact hstack k.stack hk.stays k.ups []

/-- The slash at the end of the last element is removed. -/
def trimElements (fl : CleanFlags) (es : List Element) : List Element :=
  if fl.keepTrailingSlash then es else es.dropLast ++ (es.getLast?.map fun e => (e.1, false)).toList

def KeptElements.trim (fl : CleanFlags) (k : KeptElements) : KeptElements :=
  if k.stack = [] then ⟨trimElements fl k.ups, []⟩ else ⟨k.ups, trimElements fl k.stack⟩

theorem trimElements_concat (es : List Element) (e : Element) :
    trimElements fl (es ++ [e]) = es ++ [(e.1, e.2 && fl.keepTrailingSlash)] := by
  rw [trimElements]
  cases hkeep : fl.keepTrailingSlash with
  | true => rw [if_pos rfl, Bool.and_true]
  | false =>
    rw [if_neg Bool.false_ne_true, Bool.and_false, List.dropLast_concat, List.getLast?_concat]
    rfl

theorem trimElements_nil : trimElements fl [] = [] := by
  rw [trimElements]
  split_ifs <;> rfl

theorem trimElements_trimElements (es : List Element) :
    trimElements fl (trimElements fl es) = trimElements fl es := by
  rcases List.eq_nil_or_concat' es with rfl | ⟨es, e, rfl⟩
  · rw [trimElements_nil, trimElements_nil]
  · rw [trimElements_concat, trimElements_concat, Bool.and_assoc, Bool.and_self]

theorem trimElements_eq_nil : trimElements fl es = [] ↔ es = [] := by
  rcases List.eq_nil_or_concat' es with rfl | ⟨es, e, rfl⟩
  · rw [trimElements_nil]
  · rw [trimElements_concat]
    simp

theorem map_trimElements {β : Type} (g : Bytes → β) (es : List Element) :
    (trimElements fl es).map (fun e => g e.1) = es.map fun e => g e.1 := by
  rcases List.eq_nil_or_concat' es with rfl | ⟨es, e, rfl⟩
  · rw [trimElements_nil]
  · rw [trimElements_concat, List.map_append, List.map_append]
    rfl

theorem whole_trimElements (h : ∀ e ∈ es, Whole e) : ∀ e ∈ trimElements fl es, Whole e := by
  intro e he
  rcases List.eq_nil_or_concat' es with rfl | ⟨es, x, rfl⟩
  · rw [trimElements_nil] at he
    cases he
  · rw [trimElements_concat, List.mem_append, List.mem_singleton] at he
    rcases he with he | rfl
    · exact h e (List.mem_append_left _ he)
    · exact h x (List.mem_append_right _ List.mem_cons_self)

theorem closed_trimElements (h : ∀ e ∈ es.dropLast, e.2 = true) :
    ∀ e ∈ (trimElements fl es).dropLast, e.2 = true := by
  intro e he
  rcases List.eq_nil_or_concat' es with rfl | ⟨es, x, rfl⟩
  · rw [trimElements_nil] at he
    cases he
  · rw [trimElements_concat, List.dropLast_concat] at he
    rw [List.dropLast_concat] at h
    exact h e he

theorem KeptElements.trim_elements (k : KeptElements) :
    (k.trim fl).ups ++ (k.trim fl).stack = trimElements fl (k.ups ++ k.stack) := by
  rw [KeptElements.trim]
  rcases List.eq_nil_or_concat' k.stack with hnil | ⟨es, e, hes⟩
  · rw [if_pos hnil, hnil, List.append_nil, List.append_nil]
  · rw [hes, if_neg (by simp), ← List.append_assoc, trimElements_concat, trimElements_concat,
      List.append_assoc]

/-- What is kept without the slash at the end is kept again, too. -/
theorem Settled.trim (hk : Settled fl anchored k)
    (hfl : ¬(fl.keepDotDirs = true ∧ fl.dropTrailingDotDir = true)) :
    Settled fl anchored (k.trim fl) where
  whole := by
    rw [KeptElements.trim_elements]
    exact whole_trimElements hk.whole
  closed := by
    rw [KeptElements.trim_elements]
    exact closed_trimElements hk.closed
  dots := by
    intro e he
    rw [KeptElements.trim] at he
    split_ifs at he with hstack
    · rcases List.eq_nil_or_concat' k.ups with hnil | ⟨es, x, hes⟩
      · rw [hnil, trimElements_nil] at he
        cases he
      · have hdots := hk.dots
        rw [hes] at hdots he
        rw [trimElements_concat, List.mem_append, List.mem_singleton] at he
        rcases he with he | rfl
        · exact hdots e (List.mem_append_left _ he)
        · exact hdots x (List.mem_append_right _ List.mem_cons_self)
    · exact hk.dots e he
  flags := by
    intro hne
    refine hk.flags fun hnil => hne ?_
    rw [KeptElements.trim, hnil, trimElements_nil]
    split_ifs <;> rfl
  stays := by
    intro e he
    rw [KeptElements.trim] at he
    split_ifs at he with hstack
    · cases he
    · rcases List.eq_nil_or_concat' k.stack with hnil | ⟨es, x, hes⟩
      · exact absurd hnil hstack
      · have hstays := hk.stays
        rw [hes] at hstays he
        rw [trimElements_concat, List.mem_append, List.mem_singleton] at he
        rcases he with he | rfl
        · exact hstays e (List.mem_append_left _ he)
        · obtain ⟨hdot, hup⟩ := hstays x (List.mem_append_right _ List.mem_cons_self)
          refine ⟨?_, hup⟩
          -- A "." that lost its slash was kept with it, so that it is not dropped at the end.
          rintro ⟨hx, hdrop⟩
          refine hdot ⟨hx, ?_⟩
          cases hb : x.2 with
          | false =>
            rw [hb] at hdrop
            exact hdrop
          | true =>
            rw [hb, Bool.true_and] at hdrop
            cases hkeep : fl.keepTrailingSlash with
            | true =>
              rw [hkeep] at hdrop
              exact hdrop
            | false =>
              rw [hkeep] at hdrop
              cases hdirs : fl.keepDotDirs with
              | true => exact absurd ⟨hdirs, hdrop⟩ hfl
              | false => rfl

theorem cleanEnd_keep {t : Bytes} (hne : t ≠ [])
    (h : t.getLast? ≠ some slash ∨ fl.keepTrailingSlash = true) : cleanEnd fl anchored t = t := by
  have hkeep : ¬((if anchored then 1 else 0) < t.length ∧ t.getLast? = some slash ∧
      (!fl.keepTrailingSlash) = true) := by
    rintro ⟨-, hlast, hstrip⟩
    rcases h with h | h
    · exact h hlast
    · rw [h] at hstrip
      cases hstrip
  rw [cleanEnd, if_neg hkeep, if_neg hne]

theorem cleanEnd_strip {t : Bytes} (hne : t ≠ []) (hlt : (anchor anchored).length < t.length + 1)
    (h : fl.keepTrailingSlash = false) : cleanEnd fl anchored (t ++ [slash]) = t := by
  have hanchor : (anchor anchored).length = if anchored then 1 else 0 := by
    cases anchored <;> rfl
  have hstrip : (if anchored then 1 else 0) < (t ++ [slash]).length ∧
      (t ++ [slash]).getLast? = some slash ∧ (!fl.keepTrailingSlash) = true := by
    rw [← hanchor, List.length_append, List.length_singleton, h]
    exact ⟨hlt, List.getLast?_concat, rfl⟩
  rw [cleanEnd, if_pos hstrip, List.dropLast_concat, if_neg hne]

/-- **The end of the function.** -/
theorem cleanEnd_eq (hwhole : ∀ e ∈ es, Whole e) :
    cleanEnd fl anchored (anchor anchored ++ es.flatMap elementText) =
      if anchored = false ∧ es = [] then [dot]
      else anchor anchored ++ (trimElements fl es).flatMap elementText := by
  rcases List.eq_nil_or_concat' es with rfl | ⟨es, e, rfl⟩
  · rw [List.flatMap_nil, trimElements_nil, List.flatMap_nil, List.append_nil]
    cases anchored <;> simp [cleanEnd, anchor]
  obtain ⟨hne, ha⟩ := hwhole e (List.mem_append_right _ List.mem_cons_self)
  have hnonempty : ¬(anchored = false ∧ es ++ [e] = []) := fun h => by simp at h
  obtain ⟨t, ht⟩ : ∃ t, t = anchor anchored ++ es.flatMap elementText ++ e.1 := ⟨_, rfl⟩
  have htne : t ≠ [] := by
    rw [ht]
    exact fun h => hne (List.append_eq_nil_iff.1 h).2
  have hlt : (anchor anchored).length < t.length + 1 := by
    rw [ht, List.length_append, List.length_append]
    omega
  rw [if_neg hnonempty, trimElements_concat, List.flatMap_append, List.flatMap_append,
    List.flatMap_singleton, List.flatMap_singleton, ← List.append_assoc, ← List.append_assoc]
  obtain ⟨a, b⟩ := e
  cases b with
  | false =>
    have hlast : t.getLast? ≠ some slash := by
      rw [ht, List.getLast?_append_of_ne_nil _ hne]
      exact fun h => ha (List.mem_of_getLast? h)
    show cleanEnd fl anchored (anchor anchored ++ es.flatMap elementText ++ a) = _
    rw [← ht, cleanEnd_keep htne (.inl hlast), ht]
    rfl
  | true =>
    have htext : anchor anchored ++ es.flatMap elementText ++ elementText (a, true) = t ++ [slash] := by
      rw [ht, List.append_assoc _ a]
      rfl
    rw [htext, Bool.true_and]
    cases hkeep : fl.keepTrailingSlash with
    | true => rw [cleanEnd_keep (by simp) (.inr hkeep), htext]
    | false =>
      rw [cleanEnd_strip htne hlt hkeep, ht]
      rfl

end Settled

/-! ## The cleaned name -/

/-- The place a name leads to from the directory `d`. -/
def placeOf (name : Bytes) (d : List Bytes) : List Bytes :=
  clamp (if name.head? = some slash then [] else d) (comps name)

/-- **What a cleaned name should be.** -/
structure Cleans (fl : CleanFlags) (name cleaned : Bytes) (n : ℕ) : Prop where
  place : ∀ d, placeOf cleaned d = placeOf name d
  short : cleaned.length ≤ name.length ∨ cleaned = [dot]
  slashes : cleaned.IsChain fun a b => ¬(a = slash ∧ b = slash)
  ups : fl.collapseDotDotDirs = true →
    ∀ u v, comps cleaned = u ++ .up :: v → ∀ a, .name a ∉ u
  length : n = cleaned.length
  again : cleanFnameFlags fl cleaned = some (cleaned, n)

/-- The parts of a name that was cleaned. -/
structure CleanedFrom (fl : CleanFlags) (anchored : Bool) (f cleaned : Bytes) (es : List Element)
    (k : KeptElements) : Prop where
  elements : Elements f es
  kept : es.foldlM (keepElement fl anchored) ⟨[], []⟩ = some k
  settled : Settled fl anchored k
  eq : cleaned = if anchored = false ∧ k.ups ++ k.stack = [] then [dot]
    else anchor anchored ++ (trimElements fl (k.ups ++ k.stack)).flatMap elementText

section Cleaned

variable {fl : CleanFlags} {anchored : Bool} {name cleaned f : Bytes} {n : ℕ} {es : List Element}
  {k : KeptElements}

theorem cleanLoop_start (fl : CleanFlags) (anchored : Bool) (hes : Elements f es) :
    (cleanLoop fl anchored false (anchor anchored) 0 f).map (cleanEnd fl anchored) =
      (es.foldlM (keepElement fl anchored) ⟨[], []⟩).map fun k =>
        if anchored = false ∧ k.ups ++ k.stack = [] then [dot]
        else anchor anchored ++ (trimElements fl (k.ups ++ k.stack)).flatMap elementText := by
  rw [cleanLoop_eq hes (written_nil anchored), Option.map_map]
  cases hk : es.foldlM (keepElement fl anchored) ⟨[], []⟩ with
  | none => rfl
  | some k =>
    have hsettled := (@settled_nil fl anchored).foldlM hes
      (fun _ he => absurd he List.not_mem_nil) hk
    rw [Option.map_some, Option.map_some, Function.comp_apply, KeptElements.text, ← List.flatMap_append,
      cleanEnd_eq hsettled.whole]

theorem cleanFnameFlags_start (hes : Elements
    (if name.head? = some slash then name.tail else name) es) :
    cleanFnameFlags fl name =
      (es.foldlM (keepElement fl (name.head? = some slash)) ⟨[], []⟩).map fun k =>
        let r := if decide (name.head? = some slash) = false ∧ k.ups ++ k.stack = [] then [dot]
          else anchor (name.head? = some slash) ++ (trimElements fl (k.ups ++ k.stack)).flatMap elementText
        (r, r.length) := by
  have h := cleanLoop_start fl (name.head? = some slash) hes
  rw [← cleanBody_eq] at h
  have hpair : cleanFnameFlags fl name =
      ((cleanBody fl name).map (cleanEnd fl (name.head? = some slash))).map fun r => (r, r.length) := by
    rw [Option.map_map]
    rfl
  rw [hpair, h, Option.map_map]
  rfl

theorem exists_cleanedFrom (h : cleanFnameFlags fl name = some (cleaned, n)) :
    n = cleaned.length ∧ ∃ es k, CleanedFrom fl (name.head? = some slash)
      (if name.head? = some slash then name.tail else name) cleaned es k := by
  obtain ⟨es, hes⟩ := exists_elements (if name.head? = some slash then name.tail else name)
  rw [cleanFnameFlags_start hes] at h
  obtain ⟨k, hk, h⟩ := Option.map_eq_some_iff.1 h
  obtain ⟨rfl, rfl⟩ := Prod.mk.inj h
  exact ⟨rfl, es, k, hes, hk, settled_nil.foldlM hes (fun _ he => absurd he List.not_mem_nil) hk, rfl⟩

theorem head_flatMap (hwhole : ∀ e ∈ es, Whole e) :
    (es.flatMap elementText).head? ≠ some slash := by
  cases es with
  | nil => exact fun h => by cases h
  | cons e es =>
    obtain ⟨hne, ha⟩ := hwhole e List.mem_cons_self
    obtain ⟨a, b⟩ := e
    obtain ⟨c, a, rfl⟩ := List.exists_cons_of_ne_nil hne
    intro hhead
    have hc : ((c :: a, b) :: es).flatMap elementText =
        c :: (elementText (a, b) ++ es.flatMap elementText) := by
      cases b <;> rfl
    rw [hc] at hhead
    exact ha (Option.some.inj hhead ▸ List.mem_cons_self)

/-- The name starts with a slash exactly as before. -/
theorem CleanedFrom.head (h : CleanedFrom fl anchored f cleaned es k) :
    decide (cleaned.head? = some slash) = anchored := by
  rw [h.eq]
  cases anchored with
  | true => rfl
  | false =>
    by_cases hnil : k.ups ++ k.stack = []
    · rw [if_pos ⟨rfl, hnil⟩]
      rfl
    · rw [if_neg fun h => hnil h.2]
      exact decide_eq_false (head_flatMap (whole_trimElements h.settled.whole))

/-- **A cleaned name is not changed again.** -/
theorem CleanedFrom.again (h : CleanedFrom fl anchored f cleaned es k)
    (hfl : ¬(fl.keepDotDirs = true ∧ fl.dropTrailingDotDir = true)) :
    cleanFnameFlags fl cleaned = some (cleaned, cleaned.length) := by
  have hhead := h.head
  by_cases hnil : anchored = false ∧ k.ups ++ k.stack = []
  · have hdot : cleaned = [dot] := by rw [h.eq, if_pos hnil]
    have hes : Elements (if ([dot] : Bytes).head? = some slash then [] else [dot]) [([dot], false)] :=
      .last (by decide) (by decide)
    rw [hdot, cleanFnameFlags_start hes]
    show (keepElement fl false ⟨[], []⟩ ([dot], false) >>= pure).map _ = _
    rw [bind_pure, keepElement]
    cases hdrop : fl.dropTrailingDotDir with
    | true => rfl
    | false =>
      rw [if_neg (fun h => by simp at h), if_neg (fun h => absurd h.1 (by decide))]
      show some (_, _) = _
      simp only [trimElements]
      cases fl.keepTrailingSlash <;> rfl
  · have heq : cleaned = anchor anchored ++
        (trimElements fl (k.ups ++ k.stack)).flatMap elementText := by
      rw [h.eq, if_neg hnil]
    have hbody : (if cleaned.head? = some slash then cleaned.tail else cleaned) =
        (trimElements fl (k.ups ++ k.stack)).flatMap elementText := by
      cases anchored with
      | true =>
        rw [if_pos (of_decide_eq_true hhead), heq]
        rfl
      | false =>
        rw [if_neg (of_decide_eq_false hhead), heq]
        rfl
    have hsettled := h.settled.trim hfl
    have hes : Elements (if cleaned.head? = some slash then cleaned.tail else cleaned)
        (trimElements fl (k.ups ++ k.stack)) := by
      rw [hbody, ← KeptElements.trim_elements]
      exact elements_flatMap hsettled.whole hsettled.closed
    have hagain := hsettled.again
    rw [KeptElements.trim_elements] at hagain
    have hne : ¬(anchored = false ∧ trimElements fl (k.ups ++ k.stack) = []) := by
      rwa [trimElements_eq_nil]
    rw [cleanFnameFlags_start hes, hhead, hagain, Option.map_some, KeptElements.trim_elements]
    dsimp only
    rw [if_neg hne, trimElements_trimElements, ← heq]

/-- The components of a cleaned name. -/
theorem CleanedFrom.comps (h : CleanedFrom fl anchored f cleaned es k) :
    comps cleaned = (k.ups ++ k.stack).map (fun e => compOf e.1) ∨
      k.ups ++ k.stack = [] ∧ comps cleaned = [.stay] := by
  rw [h.eq]
  by_cases hnil : anchored = false ∧ k.ups ++ k.stack = []
  · rw [if_pos hnil]
    exact .inr ⟨hnil.2, rfl⟩
  · left
    rw [if_neg hnil]
    have hanchor : ∀ x, CloudEdgeBackup.comps (anchor anchored ++ x) = CloudEdgeBackup.comps x := by
      intro x
      cases anchored with
      | true => exact comps_slash x
      | false => rfl
    have hes := elements_flatMap (whole_trimElements h.settled.whole)
      (@closed_trimElements fl _ h.settled.closed)
    rw [hanchor, hes.comps, map_trimElements]

/-- A cleaned name is not longer. -/
theorem keepElement_length {e : Element} {k' : KeptElements} (h : keepElement fl anchored k e = some k') :
    k'.text.length ≤ k.text.length + (elementText e).length := by
  rcases keepElement_cases h with ⟨rfl, -⟩ | ⟨hstack, -, -, rfl⟩ | ⟨hstack, -, -, -, -, rfl⟩ | ⟨-, rfl⟩
  · exact Nat.le_add_right _ _
  · obtain ⟨es, x, hes⟩ := (List.eq_nil_or_concat' k.stack).resolve_left hstack
    rw [KeptElements.text, KeptElements.text, hes, List.dropLast_concat, List.flatMap_append]
    simp only [List.length_append]
    omega
  · rw [KeptElements.text, KeptElements.text, hstack, List.flatMap_append, List.flatMap_singleton]
    simp only [List.flatMap_nil, List.length_append, List.length_nil]
    omega
  · rw [KeptElements.text, KeptElements.text, List.flatMap_append, List.flatMap_singleton]
    simp only [List.length_append]
    omega

theorem foldlM_length (hes : Elements f es) {k k' : KeptElements}
    (h : es.foldlM (keepElement fl anchored) k = some k') :
    k'.text.length ≤ k.text.length + f.length := by
  induction hes generalizing k with
  | nil =>
    obtain rfl := Option.some.inj h
    exact le_rfl
  | slash _ ih =>
    have := ih h
    rw [List.length_cons]
    omega
  | @elem a f es hne ha _ ih =>
    rw [List.foldlM_cons] at h
    obtain ⟨k₁, hk₁, h⟩ := Option.bind_eq_some_iff.1 h
    have hlen := keepElement_length hk₁
    have htext : (elementText (a, true)).length = a.length + 1 := List.length_append
    have hrest := ih h
    rw [List.length_append, List.length_cons]
    omega
  | @last a hne ha =>
    rw [List.foldlM_cons] at h
    obtain ⟨k₁, hk₁, h⟩ := Option.bind_eq_some_iff.1 h
    obtain rfl := Option.some.inj h
    exact keepElement_length hk₁

theorem length_trimElements (es : List Element) :
    ((trimElements fl es).flatMap elementText).length ≤ (es.flatMap elementText).length := by
  rcases List.eq_nil_or_concat' es with rfl | ⟨es, ⟨a, b⟩, rfl⟩
  · rw [trimElements_nil]
  · rw [trimElements_concat, List.flatMap_append, List.flatMap_append, List.flatMap_singleton,
      List.flatMap_singleton, List.length_append, List.length_append]
    refine Nat.add_le_add_left ?_ _
    cases b with
    | false => exact le_rfl
    | true =>
      rw [Bool.true_and]
      cases fl.keepTrailingSlash with
      | true => exact le_rfl
      | false =>
        show a.length ≤ (a ++ [CloudEdgeBackup.slash]).length
        rw [List.length_append]
        exact Nat.le_add_right _ _

theorem CleanedFrom.short (h : CleanedFrom fl anchored f cleaned es k) :
    cleaned.length ≤ (anchor anchored ++ f).length ∨ cleaned = [dot] := by
  by_cases hnil : anchored = false ∧ k.ups ++ k.stack = []
  · right
    rw [h.eq, if_pos hnil]
  · left
    have hlen := foldlM_length h.elements h.kept
    have htext : k.text = (k.ups ++ k.stack).flatMap elementText := by
      rw [KeptElements.text, List.flatMap_append]
    rw [h.eq, if_neg hnil, List.length_append, List.length_append]
    refine Nat.add_le_add_left ((length_trimElements _).trans ?_) _
    rw [← htext]
    refine hlen.trans ?_
    show 0 + f.length ≤ f.length
    rw [Nat.zero_add]

theorem isChain_elements {a : Bytes} (ha : slash ∉ a) :
    a.IsChain fun x y => ¬(x = slash ∧ y = slash) := by
  induction a with
  | nil => exact .nil
  | cons c a ih =>
    obtain ⟨hc, ha⟩ := not_or.1 (mt List.mem_cons.2 ha)
    cases a with
    | nil => exact .singleton c
    | cons d a => exact .cons_cons (fun h => hc h.1.symm) (ih ha)

/-- No slash is doubled between elements. -/
theorem isChain_flatMap (hwhole : ∀ e ∈ es, Whole e) :
    (es.flatMap elementText).IsChain fun x y => ¬(x = slash ∧ y = slash) := by
  induction es with
  | nil => exact .nil
  | cons e es ih =>
    obtain ⟨hne, ha⟩ := hwhole e List.mem_cons_self
    have htail : ∀ x ∈ es, Whole x := fun x hx => hwhole x (List.mem_cons_of_mem _ hx)
    rw [List.flatMap_cons, List.isChain_append]
    refine ⟨?_, ih htail, fun x _ y hy hxy => head_flatMap htail (hxy.2 ▸ hy)⟩
    obtain ⟨a, b⟩ := e
    cases b with
    | false => exact isChain_elements ha
    | true =>
      show (a ++ [CloudEdgeBackup.slash]).IsChain _
      rw [List.isChain_append]
      refine ⟨isChain_elements ha, .singleton _, fun x hx y _ hxy => ha ?_⟩
      rw [← hxy.1]
      exact List.mem_of_getLast? hx

theorem CleanedFrom.slashes (h : CleanedFrom fl anchored f cleaned es k) :
    cleaned.IsChain fun a b => ¬(a = slash ∧ b = slash) := by
  rw [h.eq]
  by_cases hnil : anchored = false ∧ k.ups ++ k.stack = []
  · rw [if_pos hnil]
    exact .singleton _
  · have hwhole := @whole_trimElements fl _ h.settled.whole
    rw [if_neg hnil, List.isChain_append]
    refine ⟨?_, isChain_flatMap hwhole, fun x _ y hy hxy => head_flatMap hwhole (hxy.2 ▸ hy)⟩
    cases anchored with
    | true => exact .singleton _
    | false => exact .nil

theorem compOf_up {a : Bytes} : compOf a = .up ↔ a = [dot, dot] := by
  rw [compOf]
  split_ifs with hdot hup
  · rw [hdot]
    simp
  · exact iff_of_true rfl hup
  · exact iff_of_false (fun h => by cases h) hup

/-- A ".." that is left is in front of all names. -/
theorem CleanedFrom.ups (h : CleanedFrom fl anchored f cleaned es k)
    (hcollapse : fl.collapseDotDotDirs = true) {u v : List (Comp Bytes)}
    (hsplit : CloudEdgeBackup.comps cleaned = u ++ .up :: v) (a : Bytes) : .name a ∉ u := by
  rcases h.comps with hcomps | ⟨-, hcomps⟩
  · have hups : ∀ c ∈ k.ups.map (fun e => compOf e.1), c = .up := by
      intro c hc
      obtain ⟨e, he, rfl⟩ := List.mem_map.1 hc
      exact compOf_up.2 (h.settled.dots e he)
    have hstack : ∀ c ∈ k.stack.map (fun e => compOf e.1), c ≠ .up := by
      intro c hc hup
      obtain ⟨e, he, rfl⟩ := List.mem_map.1 hc
      exact (h.settled.stays e he).2 ⟨compOf_up.1 hup, by rw [hcollapse]; rfl⟩
    rw [hcomps, List.map_append] at hsplit
    intro hmem
    rcases List.append_eq_append_iff.1 hsplit with ⟨w, hu, hw⟩ | ⟨w, hu, hw⟩
    · -- The ".." would be among the elements behind the ones in front.
      refine hstack .up ?_ rfl
      rw [hw]
      exact List.mem_append_right _ List.mem_cons_self
    · have hname := hups (.name a) (by rw [hu]; exact List.mem_append_left _ hmem)
      cases hname
  · rw [hcomps] at hsplit
    rcases u with _ | ⟨c, u⟩
    · exact List.not_mem_nil
    · have := congrArg List.length hsplit
      simp at this

end Cleaned

/-! ## Places -/

section Places

variable {α : Type} {s cs p q u v : List (Comp α)} {c : Comp α} {d : List α}

/-- What is left of some elements, the last one first, behind one more: a ".." takes back the
    nearest element, be it a name or a ".". -/
def takeBack (s : List (Comp α)) : Comp α → List (Comp α)
  | .up => s.tail
  | c => c :: s

/-- The elements of a path that no ".." behind them takes back, the last one first. -/
def pending (cs : List (Comp α)) : List (Comp α) := cs.foldl takeBack []

/-- No ".." takes back a "." -/
def TakesNames (cs : List (Comp α)) : Prop :=
  ∀ u, u ++ [.up] <+: cs → (pending u).head? ≠ some .stay

/-- No ".." takes back a ".", except in front of a point up to which all names of an absolute path
    are taken back. -/
def PlaceKept (anchored : Bool) (cs : List (Comp α)) : Prop :=
  ∃ p q, cs = p ++ q ∧ (p = [] ∨ anchored = true ∧ ∀ c ∈ pending p, c = .stay) ∧ TakesNames q

theorem placeKept_false : PlaceKept false cs ↔ TakesNames cs := by
  constructor
  · rintro ⟨p, q, rfl, rfl | ⟨h, -⟩, hq⟩
    · exact hq
    · cases h
  · exact fun h => ⟨[], cs, rfl, .inl rfl, h⟩

theorem takesNames_iff : TakesNames cs ↔
    ∀ i < cs.length, cs[i]? = some .up → (pending (cs.take i)).head? ≠ some .stay := by
  constructor
  · intro h i hi hup
    refine h _ ?_
    rw [← (List.getElem?_eq_some_iff.1 hup).2, List.take_append_getElem]
    exact List.take_prefix _ _
  · rintro h u ⟨v, rfl⟩
    have hup := h u.length (by simp) (by simp)
    rwa [List.append_assoc, List.take_left] at hup

theorem placeKept_iff {anchored : Bool} : PlaceKept anchored cs ↔ ∃ i ≤ cs.length,
    (i = 0 ∨ anchored = true ∧ ∀ c ∈ pending (cs.take i), c = .stay) ∧ TakesNames (cs.drop i) := by
  constructor
  · rintro ⟨p, q, rfl, hp, hq⟩
    refine ⟨p.length, by simp, ?_, by rwa [List.drop_left]⟩
    rw [List.take_left, List.length_eq_zero_iff]
    exact hp
  · rintro ⟨i, -, hp, hq⟩
    refine ⟨cs.take i, cs.drop i, (List.take_append_drop i cs).symm, hp.imp_left ?_, hq⟩
    rintro rfl
    exact List.take_zero

instance [DecidableEq α] : Decidable (TakesNames cs) := decidable_of_iff _ takesNames_iff.symm

instance [DecidableEq α] (anchored : Bool) : Decidable (PlaceKept anchored cs) :=
  decidable_of_iff _ placeKept_iff.symm

/-- The names among some elements. -/
def namesOf : List (Comp α) → List α
  | [] => []
  | .name a :: s => a :: namesOf s
  | _ :: s => namesOf s

theorem namesOf_append (s t : List (Comp α)) : namesOf (s ++ t) = namesOf s ++ namesOf t := by
  induction s with
  | nil => rfl
  | cons c s ih =>
    cases c with
    | stay => exact ih
    | up => exact ih
    | name a => exact congrArg (a :: ·) ih

theorem namesOf_eq_nil (h : ∀ c ∈ s, c = .stay) : namesOf s = [] := by
  induction s with
  | nil => rfl
  | cons c s ih =>
    rw [h c List.mem_cons_self]
    exact ih fun x hx => h x (List.mem_cons_of_mem _ hx)

theorem pending_concat (cs : List (Comp α)) (c : Comp α) :
    pending (cs ++ [c]) = takeBack (pending cs) c := by
  rw [pending, List.foldl_append]
  rfl

theorem up_notMem_pending (cs : List (Comp α)) : .up ∉ pending cs := by
  induction cs using List.reverseRecOn with
  | nil => exact List.not_mem_nil
  | append_singleton cs c ih =>
    rw [pending_concat]
    cases c with
    | stay => exact List.not_mem_cons_of_ne_of_not_mem (fun h => by cases h) ih
    | up => exact fun h => ih (List.mem_of_mem_tail h)
    | name a => exact List.not_mem_cons_of_ne_of_not_mem (fun h => by cases h) ih

/-- A path behind another one takes back its own elements first. -/
theorem pending_append (p q : List (Comp α)) :
    ∃ k, pending (p ++ q) = pending q ++ (pending p).drop k := by
  induction q using List.reverseRecOn with
  | nil => exact ⟨0, by rw [List.append_nil]; rfl⟩
  | append_singleton q c ih =>
    obtain ⟨k, hk⟩ := ih
    rw [← List.append_assoc, pending_concat, pending_concat, hk]
    cases c with
    | stay => exact ⟨k, rfl⟩
    | name a => exact ⟨k, rfl⟩
    | up =>
      cases hq : pending q with
      | nil => exact ⟨k + 1, by rw [takeBack, takeBack, List.nil_append, List.tail_drop]; rfl⟩
      | cons x s => exact ⟨k, rfl⟩

theorem clamp_concat (d : List α) (cs : List (Comp α)) (c : Comp α) :
    clamp d (cs ++ [c]) = clamp (clamp d cs) [c] := Normal.clamp_append d cs [c]

/-- Elements without ".." lead to their names. -/
theorem clamp_reverse (h : .up ∉ s) (d : List α) : clamp d s.reverse = namesOf s ++ d := by
  induction s with
  | nil => rfl
  | cons c s ih =>
    obtain ⟨hc, hs⟩ := not_or.1 (mt List.mem_cons.2 h)
    rw [List.reverse_cons, clamp_concat, ih hs]
    cases c with
    | stay => rfl
    | up => exact absurd rfl hc
    | name a => rfl

/-- At most as many names are really left as there are pending. -/
theorem length_clamp_le (cs : List (Comp α)) :
    (clamp ([] : List α) cs).length ≤ (namesOf (pending cs)).length := by
  induction cs using List.reverseRecOn with
  | nil => exact le_rfl
  | append_singleton cs c ih =>
    rw [clamp_concat, pending_concat]
    cases c with
    | stay => exact ih
    | name a => exact Nat.succ_le_succ ih
    | up =>
      show (clamp ([] : List α) cs).tail.length ≤ _
      rw [List.length_tail, takeBack]
      rcases hp : pending cs with _ | ⟨x | x | a, s⟩
      · rw [hp] at ih
        exact (Nat.sub_le _ _).trans ih
      · rw [hp] at ih
        exact (Nat.sub_le _ _).trans ih
      · exact absurd (hp ▸ List.mem_cons_self) (up_notMem_pending cs)
      · rw [hp] at ih
        exact Nat.sub_le_of_le_add ih

theorem TakesNames.of_prefix (h : TakesNames (q ++ u)) : TakesNames q :=
  fun _ hpre => h _ (hpre.trans (List.prefix_append _ _))

/-- Where no "." is taken back, the pending names are those that are really left. -/
theorem TakesNames.clamp_eq (h : TakesNames q) : namesOf (pending q) = clamp [] q := by
  induction q using List.reverseRecOn with
  | nil => rfl
  | append_singleton q c ih =>
    have hq := ih h.of_prefix
    rw [clamp_concat, pending_concat, ← hq]
    cases c with
    | stay => rfl
    | name a => rfl
    | up =>
      have hhead := h q List.prefix_rfl
      rw [takeBack]
      rcases hp : pending q with _ | ⟨x | x | a, s⟩
      · rfl
      · rw [hp] at hhead
        exact absurd rfl hhead
      · exact absurd (hp ▸ List.mem_cons_self) (up_notMem_pending q)
      · rfl

/-- The last point at which all names are taken back. -/
theorem exists_root (cs : List (Comp α)) : ∃ p q, cs = p ++ q ∧ namesOf (pending p) = [] ∧
    ∀ u, u ≠ [] → u <+: q → namesOf (pending (p ++ u)) ≠ [] := by
  induction cs using List.reverseRecOn with
  | nil =>
    refine ⟨[], [], rfl, rfl, fun u hu hpre => ?_⟩
    exact absurd (List.prefix_nil.1 hpre) hu
  | append_singleton cs c ih =>
    by_cases hroot : namesOf (pending (cs ++ [c])) = []
    · refine ⟨cs ++ [c], [], (List.append_nil _).symm, hroot, fun u hu hpre => ?_⟩
      exact absurd (List.prefix_nil.1 hpre) hu
    · obtain ⟨p, q, rfl, hp, hq⟩ := ih
      refine ⟨p, q ++ [c], List.append_assoc _ _ _, hp, fun u hu hpre => ?_⟩
      rcases List.prefix_concat_iff.1 hpre with rfl | hpre
      · rwa [← List.append_assoc]
      · exact hq u hu hpre

/-- Once more names are pending than are left, it stays so until the root is reached. -/
theorem length_lt_of_up (hne : namesOf (pending cs) ≠ [])
    (hhead : (pending cs).head? = some .stay) :
    (clamp ([] : List α) (cs ++ [.up])).length < (namesOf (pending (cs ++ [.up]))).length := by
  have hle := length_clamp_le cs
  have hpos := List.length_pos_of_ne_nil hne
  rw [clamp_concat, pending_concat, takeBack]
  show (clamp ([] : List α) cs).tail.length < _
  rw [List.length_tail]
  rcases hp : pending cs with _ | ⟨x, s⟩
  · rw [hp] at hhead
    cases hhead
  · rw [hp] at hhead hle hpos
    obtain rfl := Option.some.inj hhead
    have hnames : namesOf (Comp.stay :: s) = namesOf s := rfl
    rw [hnames] at hle hpos
    show _ < (namesOf s).length
    omega

theorem length_lt_concat (hlt : (clamp ([] : List α) cs).length < (namesOf (pending cs)).length)
    (hne : namesOf (pending (cs ++ [c])) ≠ []) :
    (clamp ([] : List α) (cs ++ [c])).length < (namesOf (pending (cs ++ [c]))).length := by
  have hpos := List.length_pos_of_ne_nil hne
  rw [pending_concat] at hpos ⊢
  rw [clamp_concat]
  cases c with
  | stay => exact hlt
  | name a => exact Nat.succ_lt_succ hlt
  | up =>
    rw [takeBack] at hpos ⊢
    show (clamp ([] : List α) cs).tail.length < _
    rw [List.length_tail]
    rcases hp : pending cs with _ | ⟨x | x | a, s⟩
    · rw [hp] at hlt
      exact absurd hlt (Nat.not_lt_zero _)
    · rw [hp] at hlt
      exact (Nat.sub_le _ _).trans_lt hlt
    · exact absurd (hp ▸ List.mem_cons_self) (up_notMem_pending cs)
    · rw [hp] at hlt hpos
      have hnames : (namesOf (Comp.name a :: s)).length = (namesOf s).length + 1 := rfl
      rw [hnames] at hlt
      show _ < (namesOf s).length
      have hpos : 0 < (namesOf s).length := hpos
      omega

/-- **The place of an absolute path.** -/
theorem clamp_pending_iff (cs : List (Comp α)) :
    clamp [] (pending cs).reverse = clamp ([] : List α) cs ↔ PlaceKept true cs := by
  rw [clamp_reverse (up_notMem_pending cs), List.append_nil]
  constructor
  · intro heq
    obtain ⟨p, q, rfl, hp, hq⟩ := exists_root cs
    have hstay : ∀ c ∈ pending p, c = .stay := by
      intro c hc
      cases c with
      | stay => rfl
      | up => exact absurd hc (up_notMem_pending p)
      | name a =>
        obtain ⟨s, t, hst⟩ := List.append_of_mem hc
        rw [hst, namesOf_append] at hp
        exact absurd (List.append_eq_nil_iff.1 hp).2 (List.cons_ne_nil _ _)
    refine ⟨p, q, rfl, .inr ⟨rfl, hstay⟩, fun u hu hhead => ?_⟩
    -- Behind that ".." there are more names pending than are left, up to the end.
    obtain ⟨v, rfl⟩ := hu
    have hune : u ≠ [] := by
      rintro rfl
      cases hhead
    have hlt : ∀ w, w <+: v → (clamp ([] : List α) (p ++ (u ++ [.up] ++ w))).length <
        (namesOf (pending (p ++ (u ++ [.up] ++ w)))).length := by
      intro w
      induction w using List.reverseRecOn with
      | nil =>
        intro _
        obtain ⟨k, hk⟩ := pending_append p u
        have hhead' : (pending (p ++ u)).head? = some .stay := by
          rw [hk]
          rcases hpu : pending u with _ | ⟨x, s⟩
          · rw [hpu] at hhead
            cases hhead
          · rw [hpu] at hhead
            exact hhead
        rw [List.append_nil, ← List.append_assoc]
        refine length_lt_of_up (hq u hune ?_) hhead'
        rw [List.append_assoc]
        exact List.prefix_append _ _
      | append_singleton w c ih =>
        intro hpre
        have hw := ih ((List.prefix_append _ _).trans hpre)
        have hassoc : p ++ (u ++ [.up] ++ (w ++ [c])) = p ++ (u ++ [.up] ++ w) ++ [c] := by
          simp only [List.append_assoc]
        rw [hassoc]
        refine length_lt_concat hw ?_
        rw [← hassoc]
        refine hq _ (by simp) ?_
        obtain ⟨t, rfl⟩ := hpre
        exact ⟨t, List.append_assoc _ _ _⟩
    have hend := hlt v List.prefix_rfl
    rw [heq] at hend
    exact absurd hend (lt_irrefl _)
  · rintro ⟨p, q, rfl, hp, hq⟩
    have hroot : namesOf (pending p) = [] ∧ clamp ([] : List α) p = [] := by
      rcases hp with rfl | ⟨-, hp⟩
      · exact ⟨rfl, rfl⟩
      · have hnames := namesOf_eq_nil hp
        have hle := length_clamp_le p
        rw [hnames] at hle
        exact ⟨hnames, List.length_eq_zero_iff.1 (Nat.le_zero.1 hle)⟩
    obtain ⟨k, hk⟩ := pending_append p q
    have hdrop : namesOf ((pending p).drop k) = [] := by
      have hsplit := namesOf_append ((pending p).take k) ((pending p).drop k)
      rw [List.take_append_drop, hroot.1] at hsplit
      exact (List.append_eq_nil_iff.1 hsplit.symm).2
    rw [hk, namesOf_append, hdrop, List.append_nil, Normal.clamp_append, hroot.2, hq.clamp_eq]

/-- The ".." elements that find nothing to take back, and the elements that are pending. -/
def collapsed (cs : List (Comp α)) : ℕ × List (Comp α) :=
  cs.foldl (fun st c => match st, c with
    | (ups, []), .up => (ups + 1, [])
    | (ups, s), c => (ups, takeBack s c)) (0, [])

theorem collapsed_concat (cs : List (Comp α)) (c : Comp α) : collapsed (cs ++ [c]) =
    match collapsed cs, c with
    | (ups, []), .up => (ups + 1, [])
    | (ups, s), c => (ups, takeBack s c) := by
  rw [collapsed, List.foldl_append]
  rfl

theorem collapsed_snd (cs : List (Comp α)) : (collapsed cs).2 = pending cs := by
  induction cs using List.reverseRecOn with
  | nil => rfl
  | append_singleton cs c ih =>
    rw [collapsed_concat, pending_concat, ← ih]
    rcases collapsed cs with ⟨ups, _ | ⟨x, s⟩⟩ <;> cases c <;> rfl

theorem collapsed_up (h : pending cs = []) :
    (collapsed (cs ++ [.up])).1 = (collapsed cs).1 + 1 := by
  have hsnd := collapsed_snd cs
  rw [collapsed_concat]
  rcases hc : collapsed cs with ⟨ups, s⟩
  rw [hc, h] at hsnd
  obtain rfl : s = [] := hsnd
  rfl

theorem collapsed_same (h : c ≠ .up ∨ pending cs ≠ []) :
    (collapsed (cs ++ [c])).1 = (collapsed cs).1 := by
  have hsnd := collapsed_snd cs
  rw [collapsed_concat]
  rcases hc : collapsed cs with ⟨ups, _ | ⟨x, s⟩⟩
  · rw [hc] at hsnd
    cases c with
    | stay => rfl
    | up => exact absurd hsnd.symm (h.resolve_left (not_not.2 rfl))
    | name a => rfl
  · cases c <;> rfl

/-- How many levels a path goes down. -/
def levelOf : List (Comp α) → ℤ
  | [] => 0
  | .stay :: cs => levelOf cs
  | .up :: cs => levelOf cs - 1
  | .name _ :: cs => levelOf cs + 1

theorem levelOf_append (cs cs' : List (Comp α)) : levelOf (cs ++ cs') = levelOf cs + levelOf cs' := by
  induction cs with
  | nil => exact (zero_add _).symm
  | cons c cs ih =>
    cases c with
    | stay => exact ih
    | up =>
      show levelOf (cs ++ cs') - 1 = levelOf cs - 1 + levelOf cs'
      omega
    | name a =>
      show levelOf (cs ++ cs') + 1 = levelOf cs + 1 + levelOf cs'
      omega

theorem length_clamp_deep (h : cs.length ≤ d.length) :
    ((clamp d cs).length : ℤ) = d.length + levelOf cs := by
  induction cs generalizing d with
  | nil => exact (add_zero _).symm
  | cons c cs ih =>
    rw [List.length_cons] at h
    cases c with
    | stay => exact ih (Nat.le_of_succ_le h)
    | up =>
      show ((clamp d.tail cs).length : ℤ) = d.length + (levelOf cs - 1)
      rw [ih (by rw [List.length_tail]; omega), List.length_tail]
      omega
    | name a =>
      show ((clamp (a :: d) cs).length : ℤ) = d.length + (levelOf cs + 1)
      rw [ih (by rw [List.length_cons]; omega), List.length_cons]
      push_cast
      ring

/-- The level of what is left: a "." that is taken back leaves it too deep. -/
theorem levelOf_le_collapsed (cs : List (Comp α)) :
    levelOf cs ≤ (namesOf (pending cs)).length - (collapsed cs).1 ∧
      (¬TakesNames cs → levelOf cs < (namesOf (pending cs)).length - (collapsed cs).1) := by
  induction cs using List.reverseRecOn with
  | nil =>
    refine ⟨le_rfl, fun h => absurd (fun u hu => ?_) h⟩
    exact absurd (List.prefix_nil.1 hu) (by simp)
  | append_singleton cs c ih =>
    obtain ⟨hle, hlt⟩ := ih
    have htakes : ¬TakesNames (cs ++ [c]) → ¬TakesNames cs ∨
        c = .up ∧ (pending cs).head? = some .stay := by
      intro h
      by_contra hno
      rw [not_or, not_not] at hno
      refine h fun u hu hhead => ?_
      rcases List.prefix_concat_iff.1 hu with heq | hu
      · obtain ⟨rfl, hc⟩ := List.append_inj' heq rfl
        exact hno.2 ⟨(List.cons.inj hc).1.symm, hhead⟩
      · exact hno.1 u hu hhead
    rw [levelOf_append, pending_concat]
    cases c with
    | stay =>
      have hlevel : levelOf [(Comp.stay : Comp α)] = 0 := rfl
      have hnames : namesOf (takeBack (pending cs) .stay) = namesOf (pending cs) := rfl
      rw [collapsed_same (.inl fun h => by cases h), hlevel, hnames, add_zero]
      exact ⟨hle, fun h => hlt ((htakes h).resolve_right fun h => by cases h.1)⟩
    | name a =>
      have hlevel : levelOf [Comp.name a] = 1 := rfl
      have hnames : (namesOf (takeBack (pending cs) (.name a))).length =
          (namesOf (pending cs)).length + 1 := rfl
      rw [collapsed_same (.inl fun h => by cases h), hlevel, hnames]
      push_cast
      refine ⟨by omega, fun h => ?_⟩
      have := hlt ((htakes h).resolve_right fun h => by cases h.1)
      omega
    | up =>
      have hlevel : levelOf [(Comp.up : Comp α)] = -1 := rfl
      rw [hlevel, takeBack]
      rcases hp : pending cs with _ | ⟨x | x | a, s⟩
      · rw [hp] at hle hlt htakes
        have hnames : (namesOf ([] : List (Comp α))).length = 0 := rfl
        rw [hnames] at hle hlt
        rw [collapsed_up hp, List.tail_nil, hnames]
        push_cast at hle hlt ⊢
        refine ⟨by omega, fun h => ?_⟩
        have := hlt ((htakes h).resolve_right fun h => by cases h.2)
        omega
      · rw [hp] at hle
        have hnames : namesOf (Comp.stay :: s) = namesOf s := rfl
        rw [hnames] at hle
        rw [collapsed_same (.inr (by rw [hp]; exact List.cons_ne_nil _ _)), List.tail_cons]
        exact ⟨by omega, fun _ => by omega⟩
      · exact absurd (hp ▸ List.mem_cons_self) (up_notMem_pending cs)
      · rw [hp] at hle hlt htakes
        have hnames : (namesOf (Comp.name a :: s)).length = (namesOf s).length + 1 := rfl
        rw [hnames] at hle hlt
        push_cast at hle hlt
        rw [collapsed_same (.inr (by rw [hp]; exact List.cons_ne_nil _ _)), List.tail_cons]
        refine ⟨by omega, fun h => ?_⟩
        have := hlt ((htakes h).resolve_right fun h => by cases h.2)
        omega

/-- Where no "." is taken back, a path leads where its ".." elements and its names lead. -/
theorem TakesNames.clamp_collapsed (h : TakesNames cs) (d : List α) :
    clamp d cs = namesOf (pending cs) ++ clamp d (List.replicate (collapsed cs).1 .up) := by
  induction cs using List.reverseRecOn with
  | nil => rfl
  | append_singleton cs c ih =>
    have hhead := h cs
    rw [clamp_concat, ih h.of_prefix, pending_concat]
    cases c with
    | stay =>
      rw [collapsed_same (.inl fun h => by cases h)]
      rfl
    | name a =>
      rw [collapsed_same (.inl fun h => by cases h)]
      rfl
    | up =>
      rw [takeBack]
      rcases hp : pending cs with _ | ⟨x | x | a, s⟩
      · rw [collapsed_up hp, List.replicate_succ', clamp_concat]
        rfl
      · exact absurd (by rw [hp]; rfl) (hhead List.prefix_rfl)
      · exact absurd (hp ▸ List.mem_cons_self) (up_notMem_pending cs)
      · rw [collapsed_same (.inr (by rw [hp]; exact List.cons_ne_nil _ _))]
        rfl

theorem levelOf_replicate (n : ℕ) : levelOf (List.replicate n (Comp.up : Comp α)) = -n := by
  induction n with
  | zero => rfl
  | succ n ih =>
    show levelOf (List.replicate n Comp.up) - 1 = _
    rw [ih]
    push_cast
    ring

/-- **The place of a path that is not absolute.** -/
theorem clamp_collapsed_iff (a : α) (cs : List (Comp α)) :
    (∀ d, clamp d (List.replicate (collapsed cs).1 .up ++ (pending cs).reverse) = clamp d cs) ↔
      TakesNames cs := by
  have hcollapsed : ∀ d : List α,
      clamp d (List.replicate (collapsed cs).1 .up ++ (pending cs).reverse) =
        namesOf (pending cs) ++ clamp d (List.replicate (collapsed cs).1 .up) := by
    intro d
    rw [Normal.clamp_append, clamp_reverse (up_notMem_pending cs)]
  constructor
  · intro h
    by_contra hno
    have hlt := (levelOf_le_collapsed cs).2 hno
    have hdeep := h (List.replicate (cs.length + (collapsed cs).1) a)
    have hlen := congrArg (fun l => (l.length : ℤ)) hdeep
    rw [hcollapsed, List.length_append, length_clamp_deep (by rw [List.length_replicate]; omega)] at hlen
    push_cast at hlen
    rw [length_clamp_deep (by rw [List.length_replicate, List.length_replicate]; omega),
      levelOf_replicate] at hlen
    omega
  · intro h d
    rw [hcollapsed, h.clamp_collapsed]

end Places

/-! ## The flags that are used -/

/-- The flags of all calls of `clean_fname`; the last ones are those of `glob_expand`. -/
def callerFlags : List CleanFlags :=
  [⟨false, false, false, false, false⟩, ⟨false, false, false, true, false⟩,
    ⟨false, false, true, true, false⟩, ⟨false, true, true, false, false⟩,
    ⟨false, false, false, false, true⟩, ⟨true, true, false, true, false⟩]

section Callers

variable {fl : CleanFlags} {anchored : Bool} {name cleaned f : Bytes} {n : ℕ} {es : List Element}
  {k k' : KeptElements} {e : Element} {d : List Bytes}

/-- The components of what was kept. -/
def KeptElements.comps (k : KeptElements) : List (Comp Bytes) := (k.ups ++ k.stack).map fun e => compOf e.1

/-- A step that does not take back a "." keeps the place. -/
theorem keepElement_place (hk : Settled fl anchored k) (h : keepElement fl anchored k e = some k')
    (hstack : ∀ x ∈ k.stack, fl.collapseDotDotDirs = true → x.1 ≠ [dot])
    (hd : anchored = true → d = []) :
    clamp d k'.comps = clamp (clamp d k.comps) [compOf e.1] := by
  rcases keepElement_cases h with ⟨rfl, hdot | ⟨hdots, hnil, hanchored⟩⟩ |
    ⟨hne, hdots, hcollapse, rfl⟩ | ⟨hnil, hdots, -, -, -, rfl⟩ | ⟨-, rfl⟩
  · rw [hdot]
    rfl
  · have hups : k'.ups = [] := by
      by_contra hne
      rw [(hk.flags hne).2.2] at hanchored
      cases hanchored
    rw [KeptElements.comps, hnil, hups, hd hanchored, hdots]
    rfl
  · obtain ⟨es, x, hes⟩ := (List.eq_nil_or_concat' k.stack).resolve_left hne
    have hmem : x ∈ k.stack := by
      rw [hes]
      exact List.mem_append_right _ List.mem_cons_self
    have hname : compOf x.1 = .name x.1 := by
      rw [compOf, if_neg (hstack x hmem hcollapse),
        if_neg fun h => (hk.stays x hmem).2 ⟨h, by rw [hcollapse]; rfl⟩]
    have hcomps : k.comps = (k.ups ++ es).map (fun e => compOf e.1) ++ [.name x.1] := by
      rw [KeptElements.comps, hes, ← List.append_assoc, List.map_append, List.map_singleton, hname]
    rw [hcomps, clamp_concat, hdots, KeptElements.comps, hes, List.dropLast_concat]
    rfl
  · rw [KeptElements.comps, KeptElements.comps, hnil, List.append_nil, List.append_nil, List.map_append,
      List.map_singleton, clamp_concat]
  · rw [KeptElements.comps, KeptElements.comps, ← List.append_assoc, List.map_append, List.map_singleton, clamp_concat]

/-- Without kept "." elements the place is the same. -/
theorem foldlM_place (hes : Elements f es) (hk : Settled fl anchored k)
    (hclosed : ∀ e ∈ k.ups ++ k.stack, e.2 = true)
    (h : es.foldlM (keepElement fl anchored) k = some k')
    (hfl : ¬(fl.keepDotDirs = true ∧ fl.collapseDotDotDirs = true))
    (hd : anchored = true → d = []) :
    clamp d k'.comps = clamp (clamp d k.comps) (es.map fun e => compOf e.1) := by
  have hdots : ∀ {k : KeptElements}, Settled fl anchored k → (∀ e ∈ k.ups ++ k.stack, e.2 = true) →
      ∀ x ∈ k.stack, fl.collapseDotDotDirs = true → x.1 ≠ [dot] := by
    intro k hk hclosed x hx hcollapse hdot
    have hkeep : fl.keepDotDirs = false :=
      Bool.eq_false_of_not_eq_true fun h => hfl ⟨h, hcollapse⟩
    refine (hk.stays x hx).1 ⟨hdot, ?_⟩
    rw [hclosed x (List.mem_append_right _ hx), if_pos rfl, hkeep]
    rfl
  induction hes generalizing k with
  | nil =>
    obtain rfl := Option.some.inj h
    rfl
  | slash _ ih => exact ih hk hclosed h
  | @elem a f es hne ha _ ih =>
    rw [List.foldlM_cons] at h
    obtain ⟨k₁, hk₁, h⟩ := Option.bind_eq_some_iff.1 h
    obtain ⟨hsettled, hclosed'⟩ := hk.keepElement hclosed ⟨hne, ha⟩ hk₁
    rw [ih hsettled (hclosed' rfl) h, keepElement_place hk hk₁ (hdots hk hclosed) hd]
    exact (Normal.clamp_append _ [compOf a] _).symm
  | @last a hne ha =>
    rw [List.foldlM_cons] at h
    obtain ⟨k₁, hk₁, h⟩ := Option.bind_eq_some_iff.1 h
    obtain rfl := Option.some.inj h
    exact keepElement_place hk hk₁ (hdots hk hclosed) hd

/-- With kept "." elements, what is pending is left. -/
theorem foldlM_pending (hkeep : fl.keepDotDirs = true) (hcollapse : fl.collapseDotDotDirs = true)
    (hrefuse : fl.refuseDotDotDirs = false) (hdrop : fl.dropTrailingDotDir = false)
    (es : List Element) : ∃ k, es.foldlM (keepElement fl anchored) ⟨[], []⟩ = some k ∧
      k.stack.map (fun e => compOf e.1) = (pending (es.map fun e => compOf e.1)).reverse ∧
      k.ups.map (fun e => compOf e.1) =
        List.replicate (if anchored then 0 else (collapsed (es.map fun e => compOf e.1)).1) .up := by
  induction es using List.reverseRecOn with
  | nil => exact ⟨⟨[], []⟩, rfl, rfl, by cases anchored <;> rfl⟩
  | append_singleton es e ih =>
    obtain ⟨k, hk, hstack, hups⟩ := ih
    rw [List.foldlM_append, hk, List.map_append, List.map_singleton, pending_concat]
    obtain ⟨cs, hcs⟩ : ∃ cs, cs = es.map fun e => compOf e.1 := ⟨_, rfl⟩
    rw [← hcs] at hstack hups ⊢
    have hdot : ¬(e.1 = [dot] ∧ (if e.2 then !fl.keepDotDirs else fl.dropTrailingDotDir) = true) := by
      rintro ⟨-, h⟩
      rw [hkeep, hdrop] at h
      cases he : e.2 <;> rw [he] at h <;> cases h
    show ∃ k', (keepElement fl anchored k e >>= pure) = some k' ∧ _
    rw [bind_pure, keepElement, if_neg hdot]
    by_cases hup : e.1 = [dot, dot]
    · have hcomp : compOf e.1 = .up := compOf_up.2 hup
      rw [if_pos ⟨hup, by rw [hcollapse]; rfl⟩, hrefuse, if_neg Bool.false_ne_true, hcomp]
      rcases List.eq_nil_or_concat' k.stack with hnil | ⟨l, x, hl⟩
      · rw [hnil, List.map_nil] at hstack
        have hpending := List.reverse_eq_nil_iff.1 hstack.symm
        rw [if_neg (not_not.2 hnil), hpending, collapsed_up hpending]
        cases anchored with
        | true => exact ⟨k, rfl, by rw [hnil]; rfl, hups⟩
        | false =>
          refine ⟨_, rfl, rfl, ?_⟩
          show (k.ups ++ [e]).map (fun e => compOf e.1) = List.replicate ((collapsed cs).1 + 1) .up
          rw [List.map_append, List.map_singleton, hups, hcomp, List.replicate_succ']
          rfl
      · have hne : k.stack ≠ [] := by
          rw [hl]
          exact List.concat_ne_nil _ _
        rw [hl, List.map_append, List.map_singleton] at hstack
        obtain ⟨y, s, hs⟩ : ∃ y s, pending cs = y :: s := by
          refine List.exists_cons_of_ne_nil fun h => ?_
          rw [h] at hstack
          exact List.concat_ne_nil _ _ hstack
        rw [hs, List.reverse_cons] at hstack
        rw [if_pos hne, collapsed_same (.inr (by rw [hs]; exact List.cons_ne_nil _ _)), hs]
        refine ⟨_, rfl, ?_, hups⟩
        show k.stack.dropLast.map (fun e => compOf e.1) = s.reverse
        rw [hl, List.dropLast_concat]
        exact (List.append_inj' hstack rfl).1
    · rw [if_neg fun h => hup h.1]
      have hne : compOf e.1 ≠ .up := fun h => hup (compOf_up.1 h)
      have hpending : takeBack (pending cs) (compOf e.1) = compOf e.1 :: pending cs := by
        cases hc : compOf e.1 with
        | stay => rfl
        | up => exact absurd hc hne
        | name a => rfl
      rw [collapsed_same (.inl hne), hpending, List.reverse_cons, ← hstack]
      refine ⟨_, rfl, ?_, hups⟩
      show (k.stack ++ [e]).map (fun e => compOf e.1) = _
      rw [List.map_append, List.map_singleton]

theorem CleanedFrom.place (h : CleanedFrom fl anchored f cleaned es k) (d : List Bytes) :
    placeOf cleaned d = clamp (if anchored then [] else d) k.comps := by
  have hstart : (if cleaned.head? = some slash then [] else d) = if anchored = true then [] else d :=
    if_congr (by rw [← h.head, decide_eq_true_iff]) rfl rfl
  rw [placeOf, hstart]
  rcases h.comps with hcomps | ⟨hnil, hcomps⟩
  · rw [hcomps, KeptElements.comps]
  · rw [hcomps, KeptElements.comps, hnil]
    rfl

theorem comps_body (hes : Elements (if name.head? = some slash then name.tail else name) es) :
    comps name = es.map fun e => compOf e.1 := by
  rw [← hes.comps]
  by_cases hslash : name.head? = some slash
  · obtain ⟨r, rfl⟩ := List.head?_eq_some_iff.1 hslash
    exact comps_slash r
  · rw [if_neg hslash]

theorem anchor_body (name : Bytes) :
    anchor (name.head? = some slash) ++ (if name.head? = some slash then name.tail else name) = name := by
  by_cases hslash : name.head? = some slash
  · obtain ⟨r, rfl⟩ := List.head?_eq_some_iff.1 hslash
    rfl
  · rw [if_neg hslash, decide_eq_false hslash]
    rfl

theorem callerFlags_drop : ∀ fl ∈ callerFlags,
    ¬(fl.keepDotDirs = true ∧ fl.dropTrailingDotDir = true) := by decide

theorem callerFlags_glob : ∀ fl ∈ callerFlags, fl.keepDotDirs = true → fl.collapseDotDotDirs = true →
    fl.refuseDotDotDirs = false ∧ fl.dropTrailingDotDir = false := by decide

/-- Everything but the place is as it should be. -/
theorem cleans_of_place (hfl : fl ∈ callerFlags) (h : cleanFnameFlags fl name = some (cleaned, n))
    (hplace : ∀ d, placeOf cleaned d = placeOf name d) : Cleans fl name cleaned n := by
  obtain ⟨rfl, es, k, hc⟩ := exists_cleanedFrom h
  have hshort := hc.short
  rw [anchor_body] at hshort
  refine ⟨hplace, hshort, hc.slashes, fun hcollapse u v hsplit => hc.ups hcollapse hsplit, rfl,
    hc.again (callerFlags_drop fl hfl)⟩

/-- With the flags of `glob_expand` the name has a place to keep. -/
theorem cleanFnameFlags_pending (hkeep : fl.keepDotDirs = true) (hcollapse : fl.collapseDotDotDirs = true)
    (hrefuse : fl.refuseDotDotDirs = false) (hdrop : fl.dropTrailingDotDir = false) (name : Bytes) :
    ∃ cleaned n, cleanFnameFlags fl name = some (cleaned, n) ∧ ∀ d, placeOf cleaned d =
      if name.head? = some slash then clamp [] (pending (comps name)).reverse
      else clamp d (List.replicate (collapsed (comps name)).1 .up ++ (pending (comps name)).reverse) := by
  obtain ⟨es, hes⟩ := exists_elements (if name.head? = some slash then name.tail else name)
  obtain ⟨k, hk, hstack, hups⟩ :=
    @foldlM_pending fl (name.head? = some slash) hkeep hcollapse hrefuse hdrop es
  rw [← comps_body hes] at hstack hups
  have hclean := @cleanFnameFlags_start fl name es hes
  rw [hk] at hclean
  refine ⟨_, _, hclean, fun d => ?_⟩
  have hc : CleanedFrom fl (name.head? = some slash) _ _ es k :=
    ⟨hes, hk, settled_nil.foldlM hes (fun _ he => absurd he List.not_mem_nil) hk, rfl⟩
  rw [hc.place, KeptElements.comps, List.map_append, hstack, hups]
  by_cases hslash : name.head? = some slash
  · rw [decide_eq_true hslash, if_pos hslash]
    rfl
  · rw [decide_eq_false hslash, if_neg hslash]
    rfl

/-- **A name is cleaned as it should be with all flags that are used**, but for those of
    `glob_expand`, where it depends on the "." elements. -/
theorem cleans_iff (hfl : fl ∈ callerFlags) (name : Bytes) :
    (∀ cleaned n, cleanFnameFlags fl name = some (cleaned, n) → Cleans fl name cleaned n) ↔
      (fl.keepDotDirs = true ∧ fl.collapseDotDotDirs = true →
        PlaceKept (name.head? = some slash) (comps name)) := by
  by_cases hglob : fl.keepDotDirs = true ∧ fl.collapseDotDotDirs = true
  · obtain ⟨hkeep, hcollapse⟩ := hglob
    obtain ⟨hrefuse, hdrop⟩ := callerFlags_glob fl hfl hkeep hcollapse
    obtain ⟨cleaned, n, hclean, hplace⟩ := cleanFnameFlags_pending hkeep hcollapse hrefuse hdrop name
    have hkept : (∀ d, placeOf cleaned d = placeOf name d) ↔
        PlaceKept (name.head? = some slash) (comps name) := by
      rw [forall_congr' fun d => by rw [hplace d]]
      by_cases hslash : name.head? = some slash
      · rw [decide_eq_true hslash, ← clamp_pending_iff]
        simp only [placeOf, if_pos hslash, forall_const]
      · rw [decide_eq_false hslash, placeKept_false, ← clamp_collapsed_iff ([] : Bytes)]
        simp only [placeOf, if_neg hslash]
    constructor
    · intro h _
      exact hkept.1 (h cleaned n hclean).place
    · intro h cleaned' n' hclean'
      obtain ⟨rfl, rfl⟩ := Prod.mk.inj (Option.some.inj (hclean.symm.trans hclean'))
      exact cleans_of_place hfl hclean (hkept.2 (h ⟨hkeep, hcollapse⟩))
  · refine iff_of_true (fun cleaned n hclean => cleans_of_place hfl hclean fun d => ?_)
      (fun h => absurd h hglob)
    obtain ⟨-, es, k, hc⟩ := exists_cleanedFrom hclean
    have hkept := foldlM_place (d := if name.head? = some slash then [] else d) hc.elements settled_nil
      (fun _ he => absurd he List.not_mem_nil) hc.kept hglob
      (fun h => if_pos (of_decide_eq_true h))
    rw [hc.place, placeOf, comps_body hc.elements]
    by_cases hslash : name.head? = some slash
    · simpa [hslash, KeptElements.comps, clamp] using hkept
    · simpa [hslash, KeptElements.comps, clamp] using hkept

/-- A name in front of "..". -/
theorem cleans_glob : Cleans ⟨true, true, false, true, false⟩ [97, slash, dot, dot, slash, 98] [98] 1 := by
  have hes : Elements [97, slash, dot, dot, slash, 98] [([97], true), ([dot, dot], true), ([98], false)] :=
    .elem (a := [97]) (by decide) (by decide)
      (.elem (a := [dot, dot]) (by decide) (by decide) (.last (by decide) (by decide)))
  refine (cleans_iff (by decide) _).2 (fun _ => ?_) _ _
    ((@cleanFnameFlags_start _ [97, slash, dot, dot, slash, 98] _ hes).trans rfl)
  rw [hes.comps]
  decide

/-- The "." of "a/./../b" is taken back in place of the "a". -/
theorem not_cleans_glob :
    cleanFnameFlags ⟨true, true, false, true, false⟩ [97, slash, dot, slash, dot, dot, slash, 98] =
        some ([97, slash, 98], 3) ∧
      ¬Cleans ⟨true, true, false, true, false⟩ [97, slash, dot, slash, dot, dot, slash, 98]
        [97, slash, 98] 3 := by
  have hes : Elements [97, slash, dot, slash, dot, dot, slash, 98]
      [([97], true), ([dot], true), ([dot, dot], true), ([98], false)] :=
    .elem (a := [97]) (by decide) (by decide) (.elem (a := [dot]) (by decide) (by decide)
      (.elem (a := [dot, dot]) (by decide) (by decide) (.last (by decide) (by decide))))
  constructor
  · exact (@cleanFnameFlags_start _ [97, slash, dot, slash, dot, dot, slash, 98] _ hes).trans rfl
  · intro h
    have hplace := h.place []
    have hname : placeOf [97, slash, dot, slash, dot, dot, slash, 98] [] = [[98]] := by
      rw [placeOf, hes.comps]
      rfl
    rw [hname] at hplace
    exact absurd hplace (by decide)

end Callers

end CloudEdgeBackup
