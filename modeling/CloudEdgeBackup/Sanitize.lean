/-
  Paths a daemon without chroot may use: `sanitize_path`.

  * the function edits its output in place through the pointers `p` (read),
    `sanp` (write) and `start` (the virtual beginning, moved past each `..` that is
    let through).  `San` holds them with the memory at `dest`; where `dest` is
    the path itself the function reads what it has not overwritten yet;
  * `Cleaned` relates this state to a path in normal form (`Paths.Normal`): each round
    of the loop pushes the component it reads (`sanStep_cleaned`), in the one buffer
    as well as in two;
  * what follows the root directory in the result is the normal form, so it never
    goes above the module root, and leads where the path leads when clamped.
-/
import CloudEdgeBackup.Store
import CloudEdgeBackup.Lib.Paths

namespace CloudEdgeBackup

open Paths

/-! ## The model -/

/-- Where the result goes: a buffer of its own that is allocated (`NULL`) or given,
    or the buffer of the path. -/
inductive Dest where
  | alloc
  | buffer
  | same
  deriving DecidableEq

/-- Write a byte, over an old one or behind the last. -/
def poke (buf : Bytes) (i : ℕ) (b : UInt8) : Bytes := buf.take i ++ b :: buf.drop (i + 1)

/-- The variables of the loop; `buf` is the memory at `dest`. -/
structure San where
  buf : Bytes
  p : ℕ
  sanp : ℕ
  start : ℕ
  depth : ℤ

/-- `p[i]`, NUL at the end; without `src` the path is in `buf`. -/
def San.at (src : Option Bytes) (s : San) (i : ℕ) : UInt8 :=
  ((src.getD s.buf)[s.p + i]?).getD 0

/-- `while (*p == '.' && p[1] == '/') p += 2;` -/
def skipDotSlash (src : Option Bytes) : ℕ → San → Option San
  | 0, _ => none
  | n + 1, s =>
    if s.at src 0 = dot ∧ s.at src 1 = slash then skipDotSlash src n { s with p := s.p + 2 }
    else some s

/-- `while (sanp > start && sanp[-1] != '/') sanp--;` -/
def backUp (buf : Bytes) (start : ℕ) : ℕ → ℕ
  | 0 => 0
  | n + 1 => if start < n + 1 ∧ buf[n]? ≠ some slash then backUp buf start n else n + 1

/-- `while (*p && (*sanp++ = *p++) != '/') {}` -/
def copyComponent (src : Option Bytes) : ℕ → San → Option San
  | 0, _ => none
  | n + 1, s =>
    let b := s.at src 0
    if b = 0 then some s
    else
      let s' := { s with buf := poke s.buf s.sanp b, sanp := s.sanp + 1, p := s.p + 1 }
      if b = slash then some s' else copyComponent src n s'

/-- One round of the loop, at the first byte of a component. -/
def sanStep (src : Option Bytes) (dropDotDirs : Bool) (fuel : ℕ) (s : San) : Option San :=
  let c := s.at src 0
  let c1 := s.at src 1
  let c2 := s.at src 2
  if c = slash then some { s with p := s.p + 1 }
  else if dropDotDirs ∧ c = dot ∧ (c1 = slash ∨ c1 = 0) then some { s with p := s.p + 1 }
  else if c = dot ∧ c1 = dot ∧ (c2 = slash ∨ c2 = 0) then
    if s.depth ≤ 0 ∨ s.sanp ≠ s.start then
      if s.sanp ≠ s.start then
        some { s with p := s.p + 2, sanp := backUp s.buf s.start (s.sanp - 1) }
      else some { s with p := s.p + 2 }
    else
      -- allow depth levels of .. at the beginning
      copyComponent src fuel { s with depth := s.depth - 1, start := s.sanp + 3 }
  else copyComponent src fuel s

/-- The loop over the components. -/
def sanLoop (src : Option Bytes) (dropDotDirs : Bool) : ℕ → San → Option San
  | 0, _ => none
  | n + 1, s =>
    if s.at src 0 = 0 then some s
    else (sanStep src dropDotDirs (n + 1) s).bind (sanLoop src dropDotDirs n)

/-- What `sanitize_path` puts before the path: `rootdir` and a slash, which a
    `rootdir` of length 1 ("/") already is. -/
def rootPrefix (rootdir : Bytes) : Bytes :=
  if 1 < rootdir.length then rootdir ++ [slash] else rootdir

/-- The "./" components in front, which are skipped where "." components are dropped. -/
def skipLeading (src : Option Bytes) (dropDotDirs : Bool) (fuel : ℕ) (s : San) : Option San :=
  if dropDotDirs then skipDotSlash src fuel s else some s

/-- The loops of `sanitize_path` and the string they leave. -/
def sanitizeFrom (src : Option Bytes) (dropDotDirs : Bool) (fuel : ℕ) (s : San) : Option Bytes := do
  let s ← skipLeading src dropDotDirs fuel s
  let s ← sanLoop src dropDotDirs fuel s
  -- ended up with nothing, so put in "." component
  if s.sanp = 0 then some [dot] else some (s.buf.take s.sanp)

/-- `sanitize_path`; `none` is a path that is too long for the given buffer. -/
def sanitizePath (moduleDir : Bytes) (relativePaths : Bool) (dest : Dest) (path : Bytes)
    (rootdir : Option Bytes) (depth : ℤ) (keepDotDirs : Bool) : Option Bytes :=
  let dropDotDirs := !relativePaths || !keepDotDirs
  let fuel := path.length + 1
  if dest = .same then sanitizeFrom none dropDotDirs fuel ⟨path, 0, 0, 0, depth⟩
  else
    let absolute := path.head? = some slash
    let root := if absolute then rootdir.getD moduleDir else []
    if dest = .buffer ∧ maxPathLen ≤ root.length + path.length + 1 then none
    else
      let pre := rootPrefix root
      sanitizeFrom (some path) dropDotDirs fuel
        ⟨pre, if absolute then 1 else 0, pre.length, pre.length, if absolute then 0 else depth⟩

/-! ## Components of a path -/

/-- What a component says: "." stays, ".." goes up. -/
def compOf (a : Bytes) : Comp Bytes :=
  if a = [dot] then .stay else if a = [dot, dot] then .up else .name a

/-- The components of a path; slashes next to each other separate them once. -/
def comps (path : Bytes) : List (Comp Bytes) :=
  ((path.splitOn slash).filter (· ≠ [])).map compOf

/-- A component and the slash behind it. -/
def text : Comp Bytes → Bytes
  | .stay => [dot, slash]
  | .up => [dot, dot, slash]
  | .name a => a ++ [slash]

/-- The string of a normal form, with a slash at the end. -/
def render (n : Normal Bytes) : Bytes := n.path.flatMap text

/-- A component that can be read off a path. -/
def OfPath (c : Comp Bytes) : Prop := ∃ a, a ≠ [] ∧ slash ∉ a ∧ c = compOf a

theorem comps_nil : comps [] = [] := rfl

theorem text_compOf (a : Bytes) : text (compOf a) = a ++ [slash] := by
  unfold compOf
  split_ifs with h h'
  · rw [h]; rfl
  · rw [h']; rfl
  · rfl

theorem ofPath_up : OfPath .up := ⟨[dot, dot], by decide, by decide, rfl⟩

theorem comps_append_slash (a b : Bytes) : comps (a ++ slash :: b) = comps a ++ comps b := by
  rw [comps, List.splitOn_append_cons_self, List.filter_append, List.map_append]; rfl

theorem comps_slash (b : Bytes) : comps (slash :: b) = comps b := comps_append_slash [] b

theorem comps_single {a : Bytes} (hne : a ≠ []) (ha : slash ∉ a) : comps a = [compOf a] := by
  simp [comps, List.splitOn_eq_singleton ha, hne]

theorem comps_component {a : Bytes} (hne : a ≠ []) (ha : slash ∉ a) (b : Bytes) :
    comps (a ++ slash :: b) = compOf a :: comps b := by
  rw [comps_append_slash, comps_single hne ha]; rfl

theorem comps_snoc_slash (a : Bytes) : comps (a ++ [slash]) = comps a := by
  rw [comps_append_slash, comps_nil, List.append_nil]

/-- The components of a string made of components are these. -/
theorem comps_flatMap_text {cs : List (Comp Bytes)} (h : ∀ c ∈ cs, OfPath c) :
    comps (cs.flatMap text) = cs := by
  induction cs with
  | nil => rfl
  | cons c cs ih =>
    obtain ⟨a, hne, ha, rfl⟩ := h c List.mem_cons_self
    rw [List.flatMap_cons, text_compOf, List.append_assoc, List.singleton_append,
      comps_component hne ha, ih fun c' hc' => h c' (List.mem_cons_of_mem _ hc')]

theorem ofPath_path {n : Normal Bytes} (h : ∀ c ∈ n.stack, OfPath c) :
    ∀ c ∈ n.path, OfPath c := by
  intro c hc
  rcases List.mem_append.1 hc with hc | hc
  · rw [List.eq_of_mem_replicate hc]; exact ofPath_up
  · exact h c (List.mem_reverse.1 hc)

theorem render_length (n : Normal Bytes) :
    (render n).length = 3 * n.ups + (n.stack.flatMap text).length := by
  simp only [render, Normal.path, List.flatMap_append, List.length_append, List.length_flatMap,
    List.map_replicate, List.sum_replicate, List.map_reverse, List.sum_reverse]
  simp [text, mul_comm]

/-! ## What is left to read -/

/-- What is left of the path, and that the function has not written over it. -/
structure Rest (src : Option Bytes) (s : San) (rest : Bytes) : Prop where
  drop_p : (src.getD s.buf).drop s.p = rest
  sanp_le_p : src = none → s.sanp ≤ s.p
  sanp_le : s.sanp ≤ s.buf.length

section Reading

variable {src : Option Bytes} {s : San} {rest : Bytes}

theorem Rest.at (h : Rest src s rest) (i : ℕ) : s.at src i = (rest[i]?).getD 0 := by
  rw [San.at, ← h.drop_p, List.getElem?_drop]

theorem Rest.advance (h : Rest src s rest) (k : ℕ) :
    Rest src { s with p := s.p + k } (rest.drop k) where
  drop_p := by rw [← h.drop_p, List.drop_drop]
  sanp_le_p hsrc := Nat.le_add_right_of_le (h.sanp_le_p hsrc)
  sanp_le := h.sanp_le

theorem poke_take {buf : Bytes} {i : ℕ} (h : i ≤ buf.length) (b : UInt8) :
    (poke buf i b).take (i + 1) = buf.take i ++ [b] := by
  have hlen : (buf.take i).length = i := List.length_take_of_le h
  rw [poke, List.take_append, hlen, Nat.add_sub_cancel_left, List.take_of_length_le (by omega)]
  rfl

theorem poke_drop {buf : Bytes} {i : ℕ} (h : i ≤ buf.length) (b : UInt8) {j : ℕ} (hj : i < j) :
    (poke buf i b).drop j = buf.drop j := by
  have hlen : (buf.take i).length = i := List.length_take_of_le h
  obtain ⟨m, rfl⟩ := Nat.exists_eq_add_of_lt hj
  rw [poke, List.drop_append, hlen, List.drop_of_length_le (by omega), List.nil_append,
    show i + m + 1 - i = m + 1 by omega, List.drop_succ_cons, List.drop_drop,
    show i + 1 + m = i + m + 1 by omega]

theorem le_poke_length {buf : Bytes} {i : ℕ} (h : i ≤ buf.length) (b : UInt8) :
    i + 1 ≤ (poke buf i b).length := by
  rw [poke, List.length_append, List.length_take_of_le h, List.length_cons]; omega

/-- One byte copied. -/
theorem Rest.copy {b : UInt8} (h : Rest src s (b :: rest)) :
    Rest src { s with buf := poke s.buf s.sanp b, sanp := s.sanp + 1, p := s.p + 1 } rest where
  drop_p := by
    have hnext := (h.advance 1).drop_p
    cases src with
    | some path => exact hnext
    | none =>
      have hp : s.sanp ≤ s.p := h.sanp_le_p rfl
      exact (poke_drop h.sanp_le b (Nat.lt_succ_of_le hp)).trans hnext
  sanp_le_p hsrc := Nat.succ_le_succ (h.sanp_le_p hsrc)
  sanp_le := le_poke_length h.sanp_le b

/-- **The copy loop copies one component** with its slash, or what is left. -/
theorem copyComponent_spec {a r t : Bytes} (hrest : Rest src s rest) (hsplit : rest = t ++ r)
    (ht : t = a ++ [slash] ∨ t = a ∧ r = []) (ha : slash ∉ a) (h0 : 0 ∉ a) {fuel : ℕ}
    (hfuel : t.length < fuel) :
    ∃ s', copyComponent src fuel s = some s' ∧ Rest src s' r ∧
      s'.buf.take s'.sanp = s.buf.take s.sanp ++ t ∧ s'.start = s.start ∧ s'.depth = s.depth := by
  induction fuel generalizing s rest a t with
  | zero => cases hfuel
  | succ fuel ih =>
    cases t with
    | nil =>
      obtain ⟨rfl, rfl⟩ : a = [] ∧ r = [] := by
        rcases ht with ht | ht
        · exact absurd ht.symm (List.concat_ne_nil _ _)
        · exact ⟨ht.1.symm, ht.2⟩
      subst hsplit
      exact ⟨s, by rw [copyComponent, hrest.at]; rfl, hrest, (List.append_nil _).symm, rfl, rfl⟩
    | cons b t =>
      subst hsplit
      have hb : s.at src 0 = b := hrest.at 0
      have hcopy := Rest.copy hrest
      have hout := poke_take hrest.sanp_le b
      cases a with
      | nil =>
        obtain ⟨rfl, rfl⟩ : b = slash ∧ t = [] := by
          rcases ht with ht | ht
          · exact List.cons.inj ht
          · cases ht.1
        refine ⟨_, ?_, hcopy, hout, rfl, rfl⟩
        rw [copyComponent, hb, if_neg (by decide), if_pos rfl]
      | cons x a =>
        obtain ⟨rfl, htail⟩ : b = x ∧ (t = a ++ [slash] ∨ t = a ∧ r = []) := by
          rcases ht with ht | ⟨ht, hr⟩
          · exact ⟨(List.cons.inj ht).1, .inl (List.cons.inj ht).2⟩
          · exact ⟨(List.cons.inj ht).1, .inr ⟨(List.cons.inj ht).2, hr⟩⟩
        obtain ⟨hb0, h0⟩ := not_or.1 (mt List.mem_cons.2 h0)
        obtain ⟨hbs, ha⟩ := not_or.1 (mt List.mem_cons.2 ha)
        obtain ⟨s', hrun, hrest', hout', hstart, hdepth⟩ :=
          ih hcopy rfl htail ha h0 (Nat.lt_of_succ_lt_succ hfuel)
        refine ⟨s', ?_, hrest', ?_, hstart, hdepth⟩
        · rw [copyComponent, hb, if_neg (Ne.symm hb0), if_neg (Ne.symm hbs)]
          exact hrun
        · rw [hout', hout, List.append_assoc]; rfl

/-- The writer backs up over the last component. -/
theorem backUp_spec {a b tail : Bytes} {start : ℕ} (hb : slash ∉ b) (hstart : start ≤ a.length)
    (ha : a.length = start ∨ a.getLast? = some slash) :
    backUp (a ++ b ++ tail) start (a ++ b).length = a.length := by
  induction b using List.reverseRecOn generalizing tail with
  | nil =>
    rw [List.append_nil]
    rcases ha with ha | ha
    · rw [← ha]
      cases a.length with
      | zero => rfl
      | succ n => exact if_neg fun hback => lt_irrefl _ hback.1
    · obtain ⟨a, rfl⟩ := List.getLast?_eq_some_iff.1 ha
      rw [List.length_append, List.length_singleton]
      exact if_neg fun hback => hback.2 (by simp)
  | append_singleton b x ih =>
    have hx : x ≠ slash := fun h => hb (List.mem_append.2 (.inr (List.mem_singleton.2 h.symm)))
    have hget : (a ++ b ++ [x] ++ tail)[(a ++ b).length]? = some x := by simp
    have hback : start < (a ++ b).length + 1 := by rw [List.length_append]; omega
    have hbuf : a ++ b ++ [x] ++ tail = a ++ b ++ (x :: tail) := by simp
    rw [← List.append_assoc, List.length_append, List.length_singleton, backUp, if_pos, hbuf]
    · exact ih fun h => hb (List.mem_append_left _ h)
    · exact ⟨hback, by rw [hget]; exact fun h => hx (Option.some.inj h)⟩

/-- `rest` starts with the component `a` and goes on with `r`. -/
structure First (a rest r : Bytes) : Prop where
  ne_nil : a ≠ []
  no_slash : slash ∉ a
  split : rest = a ++ slash :: r ∨ rest = a ∧ r = []

theorem exists_first (rest : Bytes) {b : UInt8} (hb : b ≠ slash) : ∃ a r, First a (b :: rest) r := by
  have hsingle {b : UInt8} (hb : b ≠ slash) : slash ∉ [b] := fun h =>
    hb (List.mem_singleton.1 h).symm
  induction rest generalizing b with
  | nil => exact ⟨[b], [], List.cons_ne_nil _ _, hsingle hb, .inr ⟨rfl, rfl⟩⟩
  | cons c rest ih =>
    by_cases hc : c = slash
    · exact ⟨[b], rest, List.cons_ne_nil _ _, hsingle hb, .inl (hc ▸ rfl)⟩
    · obtain ⟨a, r, -, hslash, hsplit⟩ := ih hc
      refine ⟨b :: a, r, List.cons_ne_nil _ _, List.not_mem_cons_of_ne_of_not_mem hb.symm hslash, ?_⟩
      rcases hsplit with h | ⟨h, hr⟩
      · exact .inl (congrArg (b :: ·) h)
      · exact .inr ⟨congrArg (b :: ·) h, hr⟩

variable {a r : Bytes}

theorem First.comps_eq (h : First a rest r) : comps rest = compOf a :: comps r := by
  rcases h.split with rfl | ⟨rfl, rfl⟩
  · exact comps_component h.ne_nil h.no_slash r
  · rw [comps_single h.ne_nil h.no_slash, comps_nil]

theorem First.comps_drop (h : First a rest r) : comps (rest.drop a.length) = comps r := by
  rcases h.split with rfl | ⟨rfl, rfl⟩
  · rw [List.drop_left, comps_slash]
  · rw [List.drop_length]

theorem First.length_lt (h : First a rest r) : r.length < rest.length := by
  have := List.length_pos_iff.2 h.ne_nil
  rcases h.split with rfl | ⟨rfl, rfl⟩
  · rw [List.length_append, List.length_cons]; omega
  · exact this

/-- The tests of the loop on the next bytes say which component comes. -/
theorem First.dot_iff (h : First a rest r) (h0 : 0 ∉ rest) (hrest : Rest src s rest) :
    (s.at src 0 = dot ∧ (s.at src 1 = slash ∨ s.at src 1 = 0)) ↔ a = [dot] := by
  rw [hrest.at, hrest.at]
  obtain ⟨hne, hslash, hsplit⟩ := h
  rcases a with _ | ⟨x, _ | ⟨y, a⟩⟩
  · exact absurd rfl hne
  · rcases hsplit with rfl | ⟨rfl, rfl⟩ <;> simp
  · have hy : y ≠ slash ∧ y ≠ 0 := by
      rcases hsplit with rfl | ⟨rfl, rfl⟩ <;> simp at hslash h0 <;> tauto
    rcases hsplit with rfl | ⟨rfl, rfl⟩ <;> simp [hy]

theorem First.dotdot_iff (h : First a rest r) (h0 : 0 ∉ rest) (hrest : Rest src s rest) :
    (s.at src 0 = dot ∧ s.at src 1 = dot ∧ (s.at src 2 = slash ∨ s.at src 2 = 0)) ↔
      a = [dot, dot] := by
  rw [hrest.at, hrest.at, hrest.at]
  have hdot : (0 : UInt8) ≠ dot ∧ slash ≠ dot := by decide
  obtain ⟨hne, hslash, hsplit⟩ := h
  rcases a with _ | ⟨x, _ | ⟨y, _ | ⟨z, a⟩⟩⟩
  · exact absurd rfl hne
  · rcases hsplit with rfl | ⟨rfl, rfl⟩ <;> simp [hdot]
  · rcases hsplit with rfl | ⟨rfl, rfl⟩ <;> simp
  · have hz : z ≠ slash ∧ z ≠ 0 := by
      rcases hsplit with rfl | ⟨rfl, rfl⟩ <;> simp at hslash h0 <;> tauto
    rcases hsplit with rfl | ⟨rfl, rfl⟩ <;> simp [hz]

/-! ## The loop and the normal form -/

/-- The string of the normal form, without its last slash only where the path ends. -/
structure Cleaned (src : Option Bytes) (pre : Bytes) (depth : ℕ) (s : San) (rest : Bytes)
    (n : Normal Bytes) : Prop where
  reads : Rest src s rest
  no_nul : 0 ∉ rest
  out : ∃ r, s.buf.take s.sanp = pre ++ r ∧ (r = render n ∨ rest = [] ∧ r ++ [slash] = render n)
  start_eq : s.start = pre.length + 3 * n.ups
  depth_eq : s.depth = (depth : ℤ) - n.ups
  ups_le : n.ups ≤ depth
  ofPath : ∀ c ∈ n.stack, OfPath c

variable {pre : Bytes} {depth : ℕ} {n : Normal Bytes}

theorem Cleaned.take_eq {b : UInt8} (h : Cleaned src pre depth s (b :: rest) n) :
    s.buf.take s.sanp = pre ++ render n := by
  obtain ⟨r, hr, rfl | ⟨hnil, -⟩⟩ := h.out
  · exact hr
  · cases hnil

theorem Cleaned.sanp_eq {b : UInt8} (h : Cleaned src pre depth s (b :: rest) n) :
    s.sanp = pre.length + (render n).length := by
  rw [← List.length_append, ← h.take_eq, List.length_take_of_le h.reads.sanp_le]

/-- The writer is at the virtual beginning when nothing is on the stack. -/
theorem Cleaned.sanp_eq_start {b : UInt8} (h : Cleaned src pre depth s (b :: rest) n) :
    s.sanp = s.start ↔ n.stack = [] := by
  rw [h.sanp_eq, h.start_eq, render_length]
  constructor
  · intro heq
    rcases hstack : n.stack with _ | ⟨c, stack⟩
    · rfl
    · obtain ⟨a, hne, -, rfl⟩ := h.ofPath c (by rw [hstack]; exact List.mem_cons_self)
      rw [hstack, List.flatMap_cons, text_compOf, List.length_append, List.length_append,
        List.length_singleton] at heq
      omega
  · intro hstack
    rw [hstack, List.flatMap_nil, List.length_nil]; omega

/-- Some bytes skipped that add nothing to the normal form. -/
theorem Cleaned.skip (h : Cleaned src pre depth s rest n) (k : ℕ) (hk : rest ≠ []) :
    Cleaned src pre depth { s with p := s.p + k } (rest.drop k) n where
  reads := h.reads.advance k
  no_nul hmem := h.no_nul (List.mem_of_mem_drop hmem)
  out := by
    obtain ⟨b, rest, rfl⟩ := List.exists_cons_of_ne_nil hk
    exact ⟨render n, h.take_eq, .inl rfl⟩
  start_eq := h.start_eq
  depth_eq := h.depth_eq
  ups_le := h.ups_le
  ofPath := h.ofPath

/-- A component copied behind the normal form. -/
theorem Cleaned.copy {b : UInt8} {a r : Bytes} (h : Cleaned src pre depth s (b :: rest) n)
    (hfirst : First a (b :: rest) r) {n' : Normal Bytes} (hrender : render n' = render n ++ text (compOf a))
    (hups : n'.ups ≤ depth) (hofPath : ∀ c ∈ n'.stack, OfPath c) {start : ℕ} {d : ℤ}
    (hstart : start = pre.length + 3 * n'.ups) (hd : d = (depth : ℤ) - n'.ups) {fuel : ℕ}
    (hfuel : (b :: rest).length < fuel) :
    ∃ s', copyComponent src fuel { s with depth := d, start := start } = some s' ∧
      Cleaned src pre depth s' r n' := by
  obtain ⟨t, hsplit, ht⟩ : ∃ t, b :: rest = t ++ r ∧ (t = a ++ [slash] ∨ t = a ∧ r = []) := by
    rcases hfirst.split with hs | ⟨hs, hr⟩
    · exact ⟨a ++ [slash], by rw [hs, List.append_assoc]; rfl, .inl rfl⟩
    · exact ⟨a, by rw [hs, hr, List.append_nil], .inr ⟨rfl, hr⟩⟩
  have hmem : ∀ x ∈ t ++ r, x ≠ 0 := fun x hx h0 => h.no_nul (hsplit ▸ h0 ▸ hx)
  have ha0 : 0 ∉ a := fun hx => by
    rcases ht with rfl | ⟨rfl, -⟩
    · exact hmem 0 (by simp [hx]) rfl
    · exact hmem 0 (by simp [hx]) rfl
  have hreads : Rest src { s with depth := d, start := start } (b :: rest) :=
    ⟨h.reads.drop_p, h.reads.sanp_le_p, h.reads.sanp_le⟩
  have htlen : t.length < fuel := by
    rw [hsplit, List.length_append] at hfuel; omega
  obtain ⟨s', hrun, hrest', hout', hstart', hdepth'⟩ :=
    copyComponent_spec hreads hsplit ht hfirst.no_slash ha0 htlen
  refine ⟨s', hrun, hrest', fun hx => hmem 0 (List.mem_append_right _ hx) rfl, ?_,
    hstart'.trans hstart, hdepth'.trans hd, hups, hofPath⟩
  refine ⟨render n ++ t, ?_, ?_⟩
  · rw [hout', ← List.append_assoc]
    exact congrArg (· ++ t) h.take_eq
  · rw [hrender, text_compOf]
    rcases ht with rfl | ⟨rfl, hr⟩
    · exact .inl rfl
    · exact .inr ⟨hr, by rw [List.append_assoc]⟩

/-- A component taken away. -/
theorem Cleaned.pop {b : UInt8} {c : Comp Bytes} {stack : List (Comp Bytes)} {k : ℕ}
    {hdown : .up ∉ c :: stack} (h : Cleaned src pre depth s (b :: rest) ⟨k, c :: stack, hdown⟩)
    (hdown' : .up ∉ stack) (j : ℕ) :
    Cleaned src pre depth { s with p := s.p + j, sanp := backUp s.buf s.start (s.sanp - 1) }
      ((b :: rest).drop j) ⟨k, stack, hdown'⟩ := by
  obtain ⟨a, hne, hslash, hc⟩ := h.ofPath c List.mem_cons_self
  have hrender : render ⟨k, c :: stack, hdown⟩ = render ⟨k, stack, hdown'⟩ ++ (a ++ [slash]) := by
    rw [← text_compOf, ← hc]
    simp [render, Normal.path, List.flatMap_append]
  set q : Bytes := pre ++ render ⟨k, stack, hdown'⟩ with hq
  have htake : s.buf.take s.sanp = q ++ a ++ [slash] := by
    rw [h.take_eq, hrender]; simp [hq]
  have hbuf : s.buf = q ++ a ++ (slash :: s.buf.drop s.sanp) := by
    conv_lhs => rw [← List.take_append_drop s.sanp s.buf, htake]
    rw [List.append_assoc (q ++ a)]; rfl
  have hsanp : s.sanp = (q ++ a).length + 1 := by
    rw [← List.length_take_of_le h.reads.sanp_le, htake, List.length_append]; rfl
  have hstart : s.start = pre.length + 3 * k := h.start_eq
  have hqlen : q.length = pre.length + (3 * k + (stack.flatMap text).length) := by
    rw [hq, List.length_append, render_length]
  have hlast : q.length = s.start ∨ q.getLast? = some slash := by
    rcases stack with _ | ⟨c', stack⟩
    · left
      rw [hqlen, hstart, List.flatMap_nil, List.length_nil]; omega
    · right
      obtain ⟨a', -, -, hc'⟩ :=
        h.ofPath c' (List.mem_cons_of_mem _ List.mem_cons_self)
      have : render ⟨k, c' :: stack, hdown'⟩ =
          render ⟨k, stack, fun hmem => hdown' (List.mem_cons_of_mem _ hmem)⟩ ++ (a' ++ [slash]) := by
        rw [← text_compOf, ← hc']
        simp [render, Normal.path, List.flatMap_append]
      rw [hq, this]; simp
  have hback : backUp s.buf s.start (s.sanp - 1) = q.length := by
    rw [hsanp, Nat.add_sub_cancel]
    conv_lhs => rw [hbuf]
    exact backUp_spec hslash (by omega) hlast
  have hle : q.length ≤ s.sanp :=
    hsanp ▸ (List.prefix_append q a).length_le.trans (Nat.le_succ _)
  rw [hback]
  refine ⟨⟨(h.reads.advance j).drop_p, fun hsrc => ?_, hle.trans h.reads.sanp_le⟩,
    fun hx => h.no_nul (List.mem_of_mem_drop hx), ⟨_, ?_, .inl rfl⟩, hstart, h.depth_eq, h.ups_le,
    fun x hx => h.ofPath x (List.mem_cons_of_mem _ hx)⟩
  · exact (hle.trans (h.reads.sanp_le_p hsrc)).trans (Nat.le_add_right _ _)
  · change s.buf.take q.length = q
    rw [hbuf, List.append_assoc, List.take_left]

/-- **One round pushes the component it reads**: what is read after it makes the
    same normal form as before. -/
theorem sanStep_cleaned (dropDotDirs : Bool) {b : UInt8} {fuel : ℕ}
    (h : Cleaned src pre depth s (b :: rest) n) (hfuel : (b :: rest).length < fuel) :
    ∃ s' rest' n', sanStep src dropDotDirs fuel s = some s' ∧ Cleaned src pre depth s' rest' n' ∧
      rest'.length < (b :: rest).length ∧
      n'.run depth (!dropDotDirs) (comps rest') = n.run depth (!dropDotDirs) (comps (b :: rest)) := by
  have hb : s.at src 0 = b := h.reads.at 0
  by_cases hslash : b = slash
  · refine ⟨_, _, n, ?_, h.skip 1 (List.cons_ne_nil _ _), Nat.lt_succ_self _, ?_⟩
    · rw [sanStep, if_pos (hb.trans hslash)]
    · rw [hslash, comps_slash]; rfl
  obtain ⟨a, r, hfirst⟩ := exists_first rest hslash
  have hdot := hfirst.dot_iff h.no_nul h.reads
  have hdotdot := hfirst.dotdot_iff h.no_nul h.reads
  have halen : (List.drop a.length (b :: rest)).length < (b :: rest).length := by
    rw [List.length_drop]
    have := List.length_pos_iff.2 hfirst.ne_nil
    exact Nat.sub_lt (Nat.succ_pos _) this
  rw [sanStep, if_neg (fun heq => hslash (hb.symm.trans heq)), hfirst.comps_eq]
  by_cases hskip : dropDotDirs ∧ a = [dot]
  · obtain ⟨hdrop, rfl⟩ := hskip
    refine ⟨_, _, n, if_pos ⟨hdrop, hdot.2 rfl⟩, h.skip 1 (List.cons_ne_nil _ _), halen, ?_⟩
    rw [show comps ((b :: rest).drop 1) = comps r from hfirst.comps_drop, hdrop]; rfl
  rw [if_neg fun hc => hskip ⟨hc.1, hdot.1 hc.2⟩]
  by_cases hup : a = [dot, dot]
  · rw [if_pos (hdotdot.2 hup)]
    obtain ⟨k, stack, hdown⟩ := n
    have hstart := h.sanp_eq_start
    have hdepth : s.depth = (depth : ℤ) - k := h.depth_eq
    have hcomp : compOf a = .up := by rw [hup]; rfl
    have hcomps : comps (List.drop 2 (b :: rest)) = comps r := by
      rw [← hfirst.comps_drop, hup]; rfl
    rw [hup] at halen
    rw [hcomp]
    rcases stack with _ | ⟨c, stack⟩
    · have hsanp : s.sanp = s.start := hstart.2 rfl
      by_cases hk : k < depth
      · rw [if_neg (by omega)]
        have hrender : render ⟨k + 1, [], hdown⟩ = render ⟨k, [], hdown⟩ ++ text (compOf a) := by
          simp [render, Normal.path, List.replicate_succ', hcomp]
        have hnew : s.sanp + 3 = pre.length + 3 * (k + 1) := by
          rw [hsanp, h.start_eq]; change pre.length + 3 * k + 3 = _; omega
        have hleft : s.depth - 1 = (depth : ℤ) - (k + 1 : ℕ) := by push_cast; omega
        obtain ⟨s', hrun, hcl⟩ := h.copy hfirst hrender hk h.ofPath hnew hleft hfuel
        refine ⟨s', r, _, hrun, hcl, hfirst.length_lt, ?_⟩
        rw [Normal.run_cons, Normal.push, if_pos ⟨rfl, hk⟩]
      · rw [if_pos (.inl (by omega)), if_neg (not_not.2 hsanp)]
        refine ⟨_, _, _, rfl, h.skip 2 (List.cons_ne_nil _ _), halen, ?_⟩
        rw [Normal.run_cons, Normal.push, if_neg fun hc => hk hc.2, hcomps]; rfl
    · have hsanp : s.sanp ≠ s.start := fun heq => List.cons_ne_nil _ _ (hstart.1 heq)
      rw [if_pos (.inr hsanp), if_pos hsanp]
      refine ⟨_, _, _, rfl, h.pop (fun hmem => hdown (List.mem_cons_of_mem _ hmem)) 2, halen, ?_⟩
      rw [Normal.run_cons, Normal.push, if_neg fun hc => List.cons_ne_nil _ _ hc.1, hcomps]; rfl
  · rw [if_neg fun hc => hup (hdotdot.1 hc)]
    set n' := n.push depth (!dropDotDirs) (compOf a) with hn'
    obtain ⟨hups, hstack⟩ : n'.ups = n.ups ∧ n'.stack = compOf a :: n.stack := by
      rw [hn', compOf]
      split_ifs with hd
      · rw [Bool.eq_false_of_not_eq_true fun hdrop => hskip ⟨hdrop, hd⟩]; exact ⟨rfl, rfl⟩
      · exact ⟨rfl, rfl⟩
    have hrender : render n' = render n ++ text (compOf a) := by
      simp [render, Normal.path, List.flatMap_append, hups, hstack]
    have hofPath : ∀ c ∈ n'.stack, OfPath c := by
      rw [hstack]
      intro c hc
      rcases List.mem_cons.1 hc with rfl | hc
      · exact ⟨a, hfirst.ne_nil, hfirst.no_slash, rfl⟩
      · exact h.ofPath c hc
    obtain ⟨s', hrun, hcl⟩ := h.copy hfirst hrender (hups ▸ h.ups_le) hofPath
      (hups ▸ h.start_eq) (hups ▸ h.depth_eq) hfuel
    exact ⟨s', r, n', hrun, hcl, hfirst.length_lt, rfl⟩

/-- **The loop pushes the whole path.** -/
theorem sanLoop_cleaned (dropDotDirs : Bool) {fuel : ℕ} (h : Cleaned src pre depth s rest n)
    (hfuel : rest.length < fuel) :
    ∃ s', sanLoop src dropDotDirs fuel s = some s' ∧
      Cleaned src pre depth s' [] (n.run depth (!dropDotDirs) (comps rest)) := by
  induction fuel generalizing s rest n with
  | zero => cases hfuel
  | succ fuel ih =>
    cases rest with
    | nil => exact ⟨s, by rw [sanLoop, h.reads.at]; rfl, h⟩
    | cons b rest =>
      have hb : s.at src 0 ≠ 0 := fun h0 => by
        rw [h.reads.at] at h0
        exact h.no_nul (h0 ▸ List.mem_cons_self)
      obtain ⟨s₁, rest₁, n₁, hstep, hcl, hlen, hrun⟩ := sanStep_cleaned dropDotDirs h hfuel
      obtain ⟨s', hloop, hcl'⟩ := ih hcl (by omega)
      refine ⟨s', ?_, hrun ▸ hcl'⟩
      rw [sanLoop, if_neg hb, hstep, Option.bind_some, hloop]

/-- The leading "./" components that are skipped stay where they are. -/
theorem skipDotSlash_cleaned {fuel : ℕ} (h : Cleaned src pre depth s rest n)
    (hfuel : rest.length < fuel) :
    ∃ s' rest', skipDotSlash src fuel s = some s' ∧ Cleaned src pre depth s' rest' n ∧
      rest'.length ≤ rest.length ∧ n.run depth false (comps rest') = n.run depth false (comps rest) := by
  induction fuel generalizing s rest with
  | zero => cases hfuel
  | succ fuel ih =>
    rw [skipDotSlash]
    split_ifs with hskip
    · rw [h.reads.at, h.reads.at] at hskip
      obtain ⟨rest, rfl⟩ : ∃ rest', rest = dot :: slash :: rest' := by
        rcases rest with _ | ⟨x, _ | ⟨y, rest⟩⟩
        · exact absurd hskip (by decide)
        · exact absurd hskip.2 (show (0 : UInt8) ≠ slash by decide)
        · obtain ⟨rfl, rfl⟩ : x = dot ∧ y = slash := hskip
          exact ⟨rest, rfl⟩
      have hlen : rest.length + 2 < fuel + 1 := hfuel
      obtain ⟨s', rest', hs', hcl, hle, hrun⟩ := ih (h.skip 2 (List.cons_ne_nil _ _)) (by simp; omega)
      refine ⟨s', rest', hs', hcl, ?_, hrun.trans ?_⟩
      · exact hle.trans (Nat.le_add_right rest.length 2)
      · have hcomps : comps (dot :: slash :: rest) = .stay :: comps rest :=
          comps_component (List.cons_ne_nil dot []) (by decide) rest
        rw [hcomps, Normal.run_cons]; rfl
    · exact ⟨s, rest, rfl, h, le_rfl, rfl⟩

/-- **The result is what was put before the path and the normal form of the path**,
    or "." for nothing at all. -/
theorem sanitizeFrom_eq (dropDotDirs : Bool) {fuel : ℕ}
    (h : Cleaned src pre depth s rest Normal.nil) (hfuel : rest.length < fuel) :
    ∃ r, sanitizeFrom src dropDotDirs fuel s = some (pre ++ r) ∧
      (r = [dot] ∧ pre = [] ∧ (Normal.nil.run depth (!dropDotDirs) (comps rest)).path = [] ∨
        comps r = (Normal.nil.run depth (!dropDotDirs) (comps rest)).path) := by
  obtain ⟨s₁, rest₁, hskip, hcl₁, hlen, hrun₁⟩ :
      ∃ s₁ rest₁, skipLeading src dropDotDirs fuel s = some s₁ ∧
        Cleaned src pre depth s₁ rest₁ Normal.nil ∧ rest₁.length ≤ rest.length ∧
        Normal.nil.run depth (!dropDotDirs) (comps rest₁) =
          Normal.nil.run depth (!dropDotDirs) (comps rest) := by
    cases dropDotDirs with
    | false => exact ⟨s, rest, rfl, h, le_rfl, rfl⟩
    | true => exact skipDotSlash_cleaned h hfuel
  obtain ⟨s₂, hloop, hcl⟩ := sanLoop_cleaned dropDotDirs hcl₁ (hlen.trans_lt hfuel)
  rw [hrun₁] at hcl
  set n := Normal.nil.run depth (!dropDotDirs) (comps rest)
  obtain ⟨r, htake, hr⟩ := hcl.out
  have hcomps : comps r = n.path := by
    have hrender := comps_flatMap_text (ofPath_path hcl.ofPath)
    rcases hr with rfl | ⟨-, hr⟩
    · exact hrender
    · rw [← hrender, ← comps_snoc_slash, hr]; rfl
  have hrun : sanitizeFrom src dropDotDirs fuel s =
      if s₂.sanp = 0 then some [dot] else some (s₂.buf.take s₂.sanp) := by
    simp only [sanitizeFrom, hskip, hloop, Option.bind_eq_bind, Option.bind_some]
  rw [hrun]
  split_ifs with h0
  · rw [h0, List.take_zero] at htake
    obtain ⟨hpre, hnil⟩ := List.append_eq_nil_iff.1 htake.symm
    exact ⟨[dot], by rw [hpre]; rfl, .inl ⟨rfl, hpre, by rw [← hcomps, hnil]; rfl⟩⟩
  · exact ⟨r, congrArg some htake, .inr hcomps⟩

end Reading

/-! ## The result of `sanitize_path` -/

/-- The directory the path is taken from: `rootdir` where the path is absolute. -/
def sanitizeRoot (moduleDir : Bytes) (dest : Dest) (path : Bytes) (rootdir : Option Bytes) : Bytes :=
  if dest ≠ .same ∧ path.head? = some slash then rootdir.getD moduleDir else []

/-- How deep below the module root that directory lies. -/
def sanitizeDepth (dest : Dest) (path : Bytes) (depth : ℤ) : ℕ :=
  if dest ≠ .same ∧ path.head? = some slash then 0 else depth.toNat

/-- `r`, followed from any directory `depth` levels below the module root, never goes
    above the root.  Without "." components it leads where `path` leads when every
    ".." at the root stays there. -/
def Confined (depth : ℕ) (dropDotDirs : Bool) (path r : Bytes) : Prop :=
  ∀ base : List Bytes, base.length = depth → ∃ place, walk base (comps r) = some place ∧
    (dropDotDirs → place = clamp base (comps path))

/-- The components of a path behind `rootdir` are behind those of `rootdir`. -/
theorem comps_rootPrefix {root : Bytes} (h : root.length = 1 → root = [slash]) (r : Bytes) :
    comps (rootPrefix root ++ r) = comps root ++ comps r := by
  rw [rootPrefix]
  split_ifs with hlen
  · rw [List.append_assoc, List.singleton_append, comps_append_slash]
  · rcases hroot : root with _ | ⟨b, _ | ⟨c, t⟩⟩
    · rfl
    · obtain rfl : b = slash := by
        have := h (by rw [hroot]; rfl)
        rw [hroot] at this
        exact (List.cons.inj this).1
      exact comps_slash r
    · rw [hroot] at hlen
      exact absurd (Nat.succ_lt_succ (Nat.succ_pos _)) hlen

/-- The normal form of a path is confined. -/
theorem confined_of_run {depth : ℕ} {dropDotDirs : Bool} {path r : Bytes}
    (h : r = [dot] ∧ (Normal.nil.run depth (!dropDotDirs) (comps path)).path = [] ∨
      comps r = (Normal.nil.run depth (!dropDotDirs) (comps path)).path) :
    Confined depth dropDotDirs path r := by
  rintro base rfl
  set n := Normal.nil.run base.length (!dropDotDirs) (comps path) with hn
  have hwalk : walk base (comps r) = walk base n.path := by
    rcases h with ⟨rfl, hnil⟩ | hr
    · rw [hnil]; rfl
    · rw [hr]
  obtain ⟨place, hplace⟩ := n.walk_path (Normal.run_ups_le (Nat.zero_le _))
  refine ⟨place, hwalk.trans hplace, fun hdrop => ?_⟩
  have hrun : n.place base = clamp base (comps path) := by
    rw [hn, hdrop]
    exact Normal.place_run Normal.named_nil (Nat.zero_le _)
  rw [← hrun]
  exact (clamp_of_walk hplace).symm

/-- The state before the loop, with the root in front and `rest` to be read. -/
theorem cleaned_start {src : Option Bytes} {pre path buf : Bytes} (p depth : ℕ)
    (hsame : src = none → pre = []) (hbuf : buf.take pre.length = pre)
    (hpath : 0 ∉ path) (hread : src.getD buf = path) :
    Cleaned src pre depth ⟨buf, p, pre.length, pre.length, depth⟩ (path.drop p) Normal.nil where
  reads := {
    drop_p := congrArg (List.drop p) hread
    sanp_le_p := fun hsrc => by rw [hsame hsrc]; exact Nat.zero_le _
    sanp_le := by
      have := congrArg List.length hbuf
      rw [List.length_take] at this
      exact min_eq_left_iff.1 this }
  no_nul h := hpath (List.mem_of_mem_drop h)
  out := ⟨[], by rw [List.append_nil]; exact hbuf, .inl rfl⟩
  start_eq := rfl
  depth_eq := (sub_zero _).symm
  ups_le := Nat.zero_le _
  ofPath _ h := absurd h List.not_mem_nil

/-- What the loops leave behind `pre` is confined. -/
theorem sanitizeFrom_confined (src : Option Bytes) (dropDotDirs : Bool) (pre : Bytes)
    {path buf : Bytes} (p k : ℕ) (hsame : src = none → pre = []) (hbuf : buf.take pre.length = pre) (hpath : 0 ∉ path)
    (hread : src.getD buf = path) (hp : comps (path.drop p) = comps path) :
    ∃ r, sanitizeFrom src dropDotDirs (path.length + 1) ⟨buf, p, pre.length, pre.length, k⟩ =
        some (pre ++ r) ∧ Confined k dropDotDirs path r := by
  have hfuel : (path.drop p).length < path.length + 1 := by rw [List.length_drop]; omega
  obtain ⟨r, hr, hrun⟩ :=
    sanitizeFrom_eq dropDotDirs (cleaned_start p k hsame hbuf hpath hread) hfuel
  rw [hp] at hrun
  exact ⟨r, hr, confined_of_run (hrun.imp_left fun h => ⟨h.1, h.2.2⟩)⟩

/-- **A sanitized path cannot escape.**  Where the given buffer is long enough the
    result is `rootdir`, for an absolute path, and then a path that is confined to the
    module. -/
theorem sanitizePath_confined (moduleDir : Bytes) (relativePaths : Bool) (dest : Dest)
    (path : Bytes) (rootdir : Option Bytes) (depth : ℤ) (keepDotDirs : Bool)
    (hpath : 0 ∉ path) (hdepth : 0 ≤ depth) :
    let root := sanitizeRoot moduleDir dest path rootdir
    let out := sanitizePath moduleDir relativePaths dest path rootdir depth keepDotDirs
    (out = none ∧ dest = .buffer ∧ maxPathLen ≤ root.length + path.length + 1) ∨
      ∃ r, out = some (rootPrefix root ++ r) ∧
        ((root.length = 1 → root = [slash]) → comps (rootPrefix root ++ r) = comps root ++ comps r) ∧
        Confined (sanitizeDepth dest path depth) (!relativePaths || !keepDotDirs) path r := by
  intro root out
  set drop := !relativePaths || !keepDotDirs with hdrop
  have hcast : ((depth.toNat : ℕ) : ℤ) = depth := Int.toNat_of_nonneg hdepth
  by_cases hsame : dest = .same
  · have hroot : root = [] := if_neg fun h => h.1 hsame
    have hk : sanitizeDepth dest path depth = depth.toNat := if_neg fun h => h.1 hsame
    obtain ⟨r, hr, hconf⟩ := sanitizeFrom_confined none drop [] 0 depth.toNat
      (fun _ => rfl) (List.take_zero (l := path)) hpath rfl rfl
    refine .inr ⟨r, ?_, fun hone => comps_rootPrefix hone r, hk ▸ hconf⟩
    rw [hcast] at hr
    rw [hroot]
    exact (if_pos hsame).trans hr
  have hout : out = if dest = .buffer ∧ maxPathLen ≤ root.length + path.length + 1 then none else
      sanitizeFrom (some path) drop (path.length + 1) ⟨rootPrefix root,
        if path.head? = some slash then 1 else 0, (rootPrefix root).length,
        (rootPrefix root).length, if path.head? = some slash then 0 else depth⟩ := by
    simp only [out, sanitizePath, root, sanitizeRoot, ne_eq, hsame, not_false_eq_true,
      true_and, hdrop, if_false]
  by_cases hlong : dest = .buffer ∧ maxPathLen ≤ root.length + path.length + 1
  · exact .inl ⟨by rw [hout, if_pos hlong], hlong⟩
  rw [if_neg hlong] at hout
  by_cases habs : path.head? = some slash
  · have hk : sanitizeDepth dest path depth = 0 := if_pos ⟨hsame, habs⟩
    have htail : comps (path.drop 1) = comps path := by
      rcases path with _ | ⟨b, path⟩
      · rfl
      · obtain rfl : b = slash := Option.some.inj habs
        exact (comps_slash path).symm
    obtain ⟨r, hr, hconf⟩ := sanitizeFrom_confined (some path) drop (rootPrefix root) 1 0
      nofun List.take_length hpath rfl htail
    refine .inr ⟨r, ?_, fun hone => comps_rootPrefix hone r, hk ▸ hconf⟩
    rw [hout, if_pos habs, if_pos habs]
    exact hr
  · have hk : sanitizeDepth dest path depth = depth.toNat := if_neg fun h => habs h.2
    obtain ⟨r, hr, hconf⟩ := sanitizeFrom_confined (some path) drop (rootPrefix root) 0
      depth.toNat nofun List.take_length hpath rfl rfl
    refine .inr ⟨r, ?_, fun hone => comps_rootPrefix hone r, hk ▸ hconf⟩
    rw [hcast] at hr
    rw [hout, if_neg habs, if_neg habs]
    exact hr

/-- A path that goes up twice from one level below the root, in its own buffer. -/
theorem sanitizePath_up_up :
    ∃ r, sanitizePath (cstr "/srv") true .same (cstr "../x/../../y") none 1 false = some r ∧
      Confined 1 true (cstr "../x/../../y") r := by
  obtain h | ⟨r, hr, -, hconf⟩ := sanitizePath_confined (cstr "/srv") true .same
    (cstr "../x/../../y") none 1 false (by decide) (by decide)
  · cases h.2.1
  · exact ⟨r, hr, hconf⟩

end CloudEdgeBackup
