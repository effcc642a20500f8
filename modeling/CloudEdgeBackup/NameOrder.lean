/-
  The order of a file list: `f_name_cmp` (`flist.c`).

  * `fNameCmp` walks the two names with a cursor each: the dirname, a slash, the
    basename and, for a directory, an assumed trailing slash;
  * `ListFile.key` is the string the walk spells, with a type for each character.
    The result is a function of the keys (`fNameCmp?_eq`), so that `fNameCmp` compares them
    (`fNameCmp_spec`), whether or not the two entries share their dirname;
  * two entries have one key exactly when they have one path and, from protocol 29 on,
    are both directories or both not (`key_inj`).
-/
import CloudEdgeBackup.Rsync

namespace CloudEdgeBackup

/-! ## Entries of a file list -/

abbrev slashChar : UInt8 := 47
abbrev dotChar : UInt8 := 46

/-- A dirname: entries of one directory share the string. -/
structure DirName where
  ptr : ℕ
  str : Bytes
deriving DecidableEq

/-- The `file_struct` of an entry, as far as its place in the list goes. -/
structure ListFile where
  dirname : Option DirName
  /-- Empty for an entry that was removed. -/
  basename : Bytes
  /-- `S_ISDIR(mode)` -/
  isDir : Bool
  topDir : Bool
  contentDir : Bool
  impliedDir : Bool
  len32 : ℕ
  /-- `F_DEPTH` -/
  depth : ℕ
deriving DecidableEq

namespace ListFile

variable (f g : ListFile)

/-- `F_IS_ACTIVE` -/
def isActive : Bool := f.basename ≠ []

/-- `f_name` -/
def path : Bytes := match f.dirname with
  | some d => d.str ++ slashChar :: f.basename
  | none => f.basename

end ListFile

/-! ## `f_name_cmp` -/

/-- `enum fnc_state` -/
inductive FncState
  | dir
  | slash
  | base
  | trailing
deriving DecidableEq

/-- `c1`, `state1` and `type1`: `path` is `t_PATH`. -/
structure Cursor where
  c : Bytes
  state : FncState
  path : Bool

section Compare

variable (v29 : Bool) (f : ListFile)

/-- At the basename; `v29` is `protocol_version >= 29`. -/
def baseCursor : Cursor :=
  if v29 && f.isDir && f.basename = [dotChar] then ⟨[], .trailing, false⟩
  else ⟨f.basename, .base, v29 && f.isDir⟩

def startCursor (dirname : Option DirName) : Cursor := match dirname with
  | none => baseCursor v29 f
  | some d => ⟨d.str, .dir, v29⟩

/-- `if (!*c1) switch (state1)` -/
def Cursor.refill (k : Cursor) : Cursor := match k.state with
  | .dir => ⟨[slashChar], .slash, k.path⟩
  | .slash => baseCursor v29 f
  | .base => if k.path then ⟨[slashChar], .trailing, true⟩ else ⟨[], .trailing, false⟩
  | .trailing => ⟨[], .trailing, false⟩

/-- The cases of the second `switch` that may return 0. -/
def Cursor.ends (k : Cursor) : Bool := match k.state with
  | .dir | .slash => false
  | .base => !k.path
  | .trailing => true

/-- `return type1 == t_PATH ? 1 : -1` -/
def typeDif (path : Bool) : ℤ := if path then 1 else -1

/-- `*c`: the character under the cursor, or the final NUL. -/
def Cursor.char (k : Cursor) : ℤ := (k.c.headD 0).toNat

def Cursor.next (k : Cursor) : Cursor := { k with c := k.c.tail }

variable (g : ListFile)

/-- The loop of `f_name_cmp`. -/
def cmpLoop : ℕ → Cursor → Cursor → Option ℤ
  | 0, _, _ => none
  | n + 1, k₁, k₂ =>
    let k₁' := if k₁.c = [] then k₁.refill v29 f else k₁
    if k₁.c = [] ∧ k₂.c ≠ [] ∧ k₁'.path ≠ k₂.path then some (typeDif k₁'.path)
    else if k₂.c = [] ∧ k₂.ends ∧ k₁'.c = [] then some 0
    else
      let k₂' := if k₂.c = [] then k₂.refill v29 g else k₂
      if k₂.c = [] ∧ k₁'.path ≠ k₂'.path then some (typeDif k₁'.path)
      else
        let dif := k₁'.char - k₂'.char
        if dif ≠ 0 then some dif
        -- both are on a final NUL: the loop would read what is behind it
        else if k₁'.c = [] then none
        else cmpLoop n k₁'.next k₂'.next

/-- The loop ends within the lengths of the names. -/
def cmpFuel : ℕ :=
  f.basename.length + g.basename.length + ((f.dirname.map fun d => d.str.length).getD 0) +
    ((g.dirname.map fun d => d.str.length).getD 0) + 8

/-- `f_name_cmp`; `none` where it reads behind the end of a string. -/
def fNameCmp? : Option ℤ :=
  if !f.isActive then some (if !g.isActive then 0 else -1)
  else if !g.isActive then some 1
  else
    -- `c1 == c2`: the same string, not only the same contents
    let same : Bool := f.dirname.map DirName.ptr = g.dirname.map DirName.ptr
    let k₁ := startCursor v29 f (if same then none else f.dirname)
    let k₂ := startCursor v29 g (if same then none else g.dirname)
    if k₁.path ≠ k₂.path then some (typeDif k₁.path)
    else cmpLoop v29 f g (cmpFuel f g) k₁ k₂

/-- The result: 0 also where both cursors leave an empty literal, which is one string to
    compilers that pool them. -/
def fNameCmp : ℤ := (fNameCmp? v29 f g).getD 0

end Compare

/-! ## Keys -/

/-- A character and its type: all of `t_PATH` are above all of `t_ITEM`. -/
def tag (path : Bool) (b : UInt8) : ℕ := (if path then 256 else 0) + b.toNat

namespace ListFile

variable (v29 : Bool) (f : ListFile)

/-- A directory ".", which protocol 29 compares as its dirname alone. -/
def dotDir : Bool := v29 && f.isDir && f.basename = [dotChar]

def baseKey : List ℕ :=
  if v29 && f.isDir && f.basename = [dotChar] then []
  else f.basename.map (tag (v29 && f.isDir)) ++ if v29 && f.isDir then [tag true slashChar] else []

/-- What the comparison sees of a name. -/
def key : List ℕ := match f.dirname with
  | none => f.baseKey v29
  | some d => d.str.map (tag v29) ++ tag v29 slashChar :: f.baseKey v29

/-- C strings, without a slash in the basename. -/
structure Spelled : Prop where
  basename_ne : f.basename ≠ []
  basename_zero : 0 ∉ f.basename
  basename_slash : slashChar ∉ f.basename
  dirname_zero : ∀ d, f.dirname = some d → 0 ∉ d.str

/-- A file's name: a basename "." is a directory's, at the top. -/
structure Named : Prop extends f.Spelled where
  dot : f.basename = [dotChar] → f.isDir = true ∧ ∀ d, f.dirname = some d → d.str = []

end ListFile

/-- What a cursor has still to spell. -/
def Cursor.rest (v29 : Bool) (f : ListFile) (k : Cursor) : List ℕ :=
  k.c.map (tag k.path) ++ match k.state with
    | .dir => tag k.path slashChar :: f.baseKey v29
    | .slash => f.baseKey v29
    | .base => if k.path then [tag true slashChar] else []
    | .trailing => []

/-- `d` is the sign of the comparison of `a` and `b`. -/
structure Compares (d : ℤ) (a b : List ℕ) : Prop where
  neg : d < 0 ↔ a < b
  zero : d = 0 ↔ a = b

namespace Compares

variable {d : ℤ} {a b : List ℕ}

theorem of_lt (hd : d < 0) (h : a < b) : Compares d a b :=
  ⟨iff_of_true hd h, iff_of_false hd.ne h.ne⟩

theorem of_gt (hd : 0 < d) (h : b < a) : Compares d a b :=
  ⟨iff_of_false hd.not_gt h.not_gt, iff_of_false hd.ne' h.ne'⟩

theorem of_eq (hd : d = 0) (h : a = b) : Compares d a b :=
  ⟨iff_of_false hd.not_lt h.not_lt, iff_of_true hd h⟩

theorem cons (h : Compares d a b) (x : ℕ) : Compares d (x :: a) (x :: b) where
  neg := by rw [h.neg, List.cons_lt_cons_self]
  zero := by rw [h.zero, List.cons_inj_right]

theorem le_iff (h : Compares d a b) : d ≤ 0 ↔ a ≤ b := by
  rw [le_iff_lt_or_eq, h.neg, h.zero, le_iff_lt_or_eq]

end Compares

theorem nil_lt_cons (x : ℕ) (l : List ℕ) : ([] : List ℕ) < x :: l := by simp

theorem cons_lt_of_lt {x y : ℕ} (h : x < y) (l l' : List ℕ) : x :: l < y :: l' := by
  rw [List.cons_lt_cons_iff]
  exact .inl h

/-- The difference of two typed characters. -/
def charDif (x y : ℕ) : ℤ :=
  if 256 ≤ x ∧ y < 256 then typeDif true else if x < 256 ∧ 256 ≤ y then typeDif false else (x : ℤ) - y

/-- The difference of two keys at their first different characters. -/
def keyDif : List ℕ → List ℕ → ℤ
  | [], [] => 0
  | [], y :: _ => charDif 0 y
  | x :: _, [] => charDif x 0
  | x :: a, y :: b => if x = y then keyDif a b else charDif x y

theorem charDif_tag (path : Bool) (b c : UInt8) :
    charDif (tag path b) (tag path c) = (b.toNat : ℤ) - c.toNat := by
  have hb := b.toNat_lt
  have hc := c.toNat_lt
  rw [charDif, tag, tag]
  split_ifs <;> omega

theorem charDif_neg (x y : ℕ) : charDif x y < 0 ↔ x < y := by
  rw [charDif, typeDif, typeDif]
  split_ifs <;> simp_all <;> omega

theorem charDif_zero (x y : ℕ) : charDif x y = 0 ↔ x = y := by
  rw [charDif, typeDif, typeDif]
  split_ifs <;> simp_all <;> omega

theorem compares_keyDif {a b : List ℕ} (ha : 0 ∉ a) (hb : 0 ∉ b) : Compares (keyDif a b) a b := by
  induction a generalizing b with
  | nil =>
    cases b with
    | nil => exact .of_eq rfl rfl
    | cons y b =>
      have hy : 0 < y := Nat.pos_of_ne_zero fun h => hb (h ▸ List.mem_cons_self ..)
      exact .of_lt ((charDif_neg 0 y).2 hy) (nil_lt_cons y b)
  | cons x a ih =>
    cases b with
    | nil =>
      have hx : 0 < x := Nat.pos_of_ne_zero fun h => ha (h ▸ List.mem_cons_self ..)
      have hge : ¬charDif x 0 < 0 := by
        rw [charDif_neg]
        omega
      have hne : charDif x 0 ≠ 0 := (charDif_zero x 0).not.2 hx.ne'
      exact .of_gt (by rw [keyDif]; omega) (nil_lt_cons x a)
    | cons y b =>
      rw [keyDif]
      split_ifs with hxy
      · rw [hxy]
        exact (ih (fun h => ha (List.mem_cons_of_mem _ h)) fun h => hb (List.mem_cons_of_mem _ h)).cons y
      · rcases lt_or_gt_of_ne hxy with hlt | hgt
        · exact .of_lt ((charDif_neg x y).2 hlt) (cons_lt_of_lt hlt _ _)
        · have hge : ¬charDif x y < 0 := by
            rw [charDif_neg]
            omega
          have hne : charDif x y ≠ 0 := (charDif_zero x y).not.2 hxy
          exact .of_gt (by omega) (cons_lt_of_lt hgt _ _)

theorem keyDif_append (l a b : List ℕ) : keyDif (l ++ a) (l ++ b) = keyDif a b := by
  induction l with
  | nil => rfl
  | cons x l ih => rw [List.cons_append, List.cons_append, keyDif, if_pos rfl, ih]

section Loop

variable {v29 : Bool} {f g : ListFile} {k k₁ k₂ : Cursor}

/-- The cursor is on a character, or at the end of its name. -/
def Cursor.Ready (v29 : Bool) (f : ListFile) (k : Cursor) : Prop :=
  0 ∉ k.c ∧ (k.c ≠ [] ∨ k.rest v29 f = [] ∧ k.path = false ∧ k.state = .trailing)

theorem rest_baseCursor (v29 : Bool) (f : ListFile) : (baseCursor v29 f).rest v29 f = f.baseKey v29 := by
  rw [baseCursor, ListFile.baseKey]
  split_ifs <;> simp_all [Cursor.rest]

theorem rest_refill (hk : k.c = []) : (k.refill v29 f).rest v29 f = k.rest v29 f := by
  obtain ⟨c, state, path⟩ := k
  simp only at hk
  subst hk
  cases state with
  | dir => rfl
  | slash => exact rest_baseCursor v29 f
  | base => cases path <;> rfl
  | trailing => rfl

theorem ready_slash (state : FncState) (path : Bool) :
    (Cursor.mk [slashChar] state path).Ready v29 f :=
  ⟨by rw [List.mem_singleton]; decide, .inl (by simp)⟩

theorem ready_end : (Cursor.mk [] .trailing false).Ready v29 f :=
  ⟨by simp, .inr ⟨rfl, rfl, rfl⟩⟩

theorem ready_baseCursor (hf : f.Spelled) : (baseCursor v29 f).Ready v29 f := by
  rw [baseCursor]
  split_ifs
  · exact ready_end
  · exact ⟨hf.basename_zero, .inl hf.basename_ne⟩

theorem ready_refill (hf : f.Spelled) : (k.refill v29 f).Ready v29 f := by
  obtain ⟨c, state, path⟩ := k
  cases state with
  | dir => exact ready_slash _ _
  | slash => exact ready_baseCursor hf
  | base =>
    cases path
    · exact ready_end
    · exact ready_slash _ _
  | trailing => exact ready_end

/-- The cursor after the `switch`. -/
theorem refilled (hf : f.Spelled) (hz : 0 ∉ k.c) :
    (if k.c = [] then k.refill v29 f else k).Ready v29 f ∧
      (if k.c = [] then k.refill v29 f else k).rest v29 f = k.rest v29 f := by
  split_ifs with hk
  · exact ⟨ready_refill hf, rest_refill hk⟩
  · exact ⟨⟨hz, .inl hk⟩, rfl⟩

theorem rest_of_cons {b : UInt8} {c : Bytes} (hk : k.c = b :: c) :
    k.rest v29 f = tag k.path b :: k.next.rest v29 f := by
  simp [Cursor.rest, Cursor.next, hk]

theorem rest_ends (hk : k.c = []) (h : k.ends = true) : k.rest v29 f = [] := by
  obtain ⟨c, state, path⟩ := k
  simp only at hk
  subst hk
  cases state with
  | dir => cases h
  | slash => cases h
  | base => cases path <;> first | rfl | cases h
  | trailing => rfl

theorem tag_path (b : UInt8) : 256 ≤ tag true b := by
  simp only [tag, if_true]
  omega

theorem tag_item (b : UInt8) : tag false b < 256 := by
  have := b.toNat_lt
  simp only [tag, Bool.false_eq_true, if_false]
  omega

/-- The type of the cursor is the type of what it spells next. -/
def Cursor.Headed (v29 : Bool) (f : ListFile) (k : Cursor) : Prop :=
  if k.path then ∃ x l, k.rest v29 f = x :: l ∧ 256 ≤ x
  else ∀ x l, k.rest v29 f = x :: l → x < 256

theorem headed_of_cons {path : Bool} {b : UInt8} {l : List ℕ} (hp : k.path = path)
    (h : k.rest v29 f = tag path b :: l) : k.Headed v29 f := by
  rw [Cursor.Headed, hp, h]
  cases path with
  | true => exact ⟨_, _, rfl, tag_path b⟩
  | false =>
    intro x l' heq
    rw [List.cons.injEq] at heq
    rw [← heq.1]
    exact tag_item b

theorem Cursor.Ready.headed (h : k.Ready v29 f) : k.Headed v29 f := by
  rcases h.2 with hc | ⟨hrest, hpath, -⟩
  · obtain ⟨b, c, hc⟩ := List.exists_cons_of_ne_nil hc
    exact headed_of_cons rfl (rest_of_cons hc)
  · rw [Cursor.Headed, hpath, hrest]
    nofun

/-- Cursors of different types are told apart by their types. -/
theorem keyDif_of_path (h₁ : k₁.Headed v29 f) (h₂ : k₂.Headed v29 g) (hne : k₁.path ≠ k₂.path) :
    k₁.rest v29 f ≠ k₂.rest v29 g ∧
      keyDif (k₁.rest v29 f) (k₂.rest v29 g) = typeDif k₁.path := by
  rw [Cursor.Headed] at h₁ h₂
  cases hp : k₁.path with
  | true =>
    have hp₂ : k₂.path = false := by
      rw [hp] at hne
      simpa using hne.symm
    rw [hp] at h₁
    rw [hp₂] at h₂
    obtain ⟨x, l, hrest, hx⟩ := h₁
    rw [hrest]
    cases hr : k₂.rest v29 g with
    | nil => exact ⟨List.cons_ne_nil _ _, if_pos ⟨hx, by omega⟩⟩
    | cons y r =>
      have hy := h₂ y r hr
      have hxy : x ≠ y := by omega
      exact ⟨fun h => hxy (List.cons_eq_cons.1 h).1, by rw [keyDif, if_neg hxy, charDif, if_pos ⟨hx, hy⟩]⟩
  | false =>
    have hp₂ : k₂.path = true := by
      rw [hp] at hne
      simpa using hne.symm
    rw [hp] at h₁
    rw [hp₂] at h₂
    obtain ⟨x, l, hrest, hx⟩ := h₂
    rw [hrest]
    cases hr : k₁.rest v29 f with
    | nil =>
      refine ⟨(List.cons_ne_nil _ _).symm, ?_⟩
      rw [keyDif, charDif, if_neg (by omega), if_pos ⟨by omega, hx⟩]
    | cons y r =>
      have hy := h₁ y r hr
      have hxy : y ≠ x := by omega
      refine ⟨fun h => hxy (List.cons_eq_cons.1 h).1, ?_⟩
      rw [keyDif, if_neg hxy, charDif, if_neg (by omega), if_pos ⟨hy, hx⟩]

theorem rest_ne_nil (hc : k.c ≠ []) : k.rest v29 f ≠ [] := by
  obtain ⟨b, c, hb⟩ := List.exists_cons_of_ne_nil hc
  rw [rest_of_cons hb]
  exact List.cons_ne_nil _ _

/-- On a character. -/
theorem char_pos (h : k.Ready v29 f) (hc : k.c ≠ []) : 0 < k.char := by
  obtain ⟨b, c, hb⟩ := List.exists_cons_of_ne_nil hc
  have hne : b.toNat ≠ 0 := fun h0 => h.1 (by
    rw [hb, show b = 0 from UInt8.toNat_inj.1 h0]
    exact List.mem_cons_self ..)
  rw [Cursor.char, hb, List.headD_cons]
  omega

/-- At the end. -/
theorem char_end (h : k.rest v29 f = []) : k.c = [] ∧ k.char = 0 := by
  have hc : k.c = [] := by
    by_contra hne
    exact rest_ne_nil hne h
  exact ⟨hc, by rw [Cursor.char, hc]; rfl⟩

/-- The cursor is at or before the dirname's slash of a directory ".". -/
def Cursor.EndsInDot (v29 : Bool) (f : ListFile) (k : Cursor) : Prop :=
  (k.state = .dir ∨ k.state = .slash) ∧ f.dotDir v29 = true

theorem endsInDot_refill (hk : k.c = []) (hc : (k.refill v29 f).c ≠ []) :
    (k.refill v29 f).EndsInDot v29 f ↔ k.EndsInDot v29 f := by
  obtain ⟨c, state, path⟩ := k
  cases state with
  | dir => simp [Cursor.EndsInDot, Cursor.refill]
  | slash =>
    have hdot : f.dotDir v29 = false := by
      by_contra h
      exact hc (by rw [Cursor.refill, baseCursor, ← ListFile.dotDir, if_pos (by simpa using h)])
    simp [Cursor.EndsInDot, hdot]
  | base => cases path <;> simp [Cursor.EndsInDot, Cursor.refill]
  | trailing => simp [Cursor.EndsInDot, Cursor.refill]

theorem not_endsInDot_of_ends (h : k.ends = true) : ¬k.EndsInDot v29 f := by
  obtain ⟨c, state, path⟩ := k
  cases state with
  | dir => cases h
  | slash => cases h
  | base => simp [Cursor.EndsInDot]
  | trailing => simp [Cursor.EndsInDot]

/-- A name that ends where the walk does not return 0 is that of a directory ".". -/
theorem endsInDot_of_refill_nil (hf : f.Spelled) (h : (k.refill v29 f).c = []) (hends : k.ends = false) :
    k.EndsInDot v29 f := by
  obtain ⟨c, state, path⟩ := k
  cases state with
  | dir => simp [Cursor.refill] at h
  | slash =>
    refine ⟨.inr rfl, ?_⟩
    by_contra hdot
    rw [Cursor.refill, baseCursor, ← ListFile.dotDir, if_neg hdot] at h
    exact hf.basename_ne h
  | base => cases path <;> simp_all [Cursor.refill, Cursor.ends]
  | trailing => cases hends

/-- **The loop compares what the cursors have still to spell.**  It reads too far where both
    end and the second one's name is that of a directory ".". -/
theorem cmpLoop_spec (hf : f.Spelled) (hg : g.Spelled) {n : ℕ} (h₁ : 0 ∉ k₁.c) (h₂ : 0 ∉ k₂.c)
    (hpath : k₁.path = k₂.path)
    (hn : (k₁.rest v29 f).length + (k₂.rest v29 g).length + 2 ≤ n) :
    (k₁.rest v29 f = k₂.rest v29 g ∧ k₂.EndsInDot v29 g → cmpLoop v29 f g n k₁ k₂ = none) ∧
    (¬(k₁.rest v29 f = k₂.rest v29 g ∧ k₂.EndsInDot v29 g) →
      cmpLoop v29 f g n k₁ k₂ = some (keyDif (k₁.rest v29 f) (k₂.rest v29 g))) := by
  induction n generalizing k₁ k₂ with
  | zero => omega
  | succ n ih =>
    obtain ⟨hready₁, hrest₁⟩ := @refilled v29 f k₁ hf h₁
    obtain ⟨hready₂, hrest₂⟩ := @refilled v29 g k₂ hg h₂
    rw [cmpLoop]
    set k₁' := if k₁.c = [] then k₁.refill v29 f else k₁ with hk₁'
    set k₂' := if k₂.c = [] then k₂.refill v29 g else k₂ with hk₂'
    rw [← hrest₁, ← hrest₂] at hn ⊢
    by_cases hA : k₁.c = [] ∧ k₂.c ≠ [] ∧ k₁'.path ≠ k₂.path
    · have hk₂ : k₂' = k₂ := if_neg hA.2.1
      obtain ⟨hne, hdif⟩ := keyDif_of_path hready₁.headed hready₂.headed (by rw [hk₂]; exact hA.2.2)
      rw [if_pos hA, hdif]
      exact ⟨fun h => absurd h.1 hne, fun _ => rfl⟩
    by_cases hB : k₂.c = [] ∧ k₂.ends ∧ k₁'.c = []
    · have hnil₁ : k₁'.rest v29 f = [] := (hready₁.2.resolve_left (not_not.2 hB.2.2)).1
      have hnil₂ : k₂'.rest v29 g = [] := hrest₂.trans (rest_ends hB.1 hB.2.1)
      simp only [if_neg hA, if_pos hB]
      rw [hnil₁, hnil₂]
      exact ⟨fun h => absurd h.2 (not_endsInDot_of_ends hB.2.1), fun _ => rfl⟩
    by_cases hC : k₂.c = [] ∧ k₁'.path ≠ k₂'.path
    · obtain ⟨hne, hdif⟩ := keyDif_of_path hready₁.headed hready₂.headed hC.2
      simp only [if_neg hA, if_neg hB, if_pos hC]
      rw [hdif]
      exact ⟨fun h => absurd h.1 hne, fun _ => rfl⟩
    -- the types are equal: checked where a name was refilled, kept elsewhere
    have hsame : k₁'.path = k₂'.path := by
      by_contra hne
      by_cases hc₂ : k₂.c = []
      · exact hC ⟨hc₂, hne⟩
      have hk₂ : k₂' = k₂ := if_neg hc₂
      by_cases hc₁ : k₁.c = []
      · exact hA ⟨hc₁, hc₂, by rwa [hk₂] at hne⟩
      · have hk₁ : k₁' = k₁ := if_neg hc₁
        rw [hk₁, hk₂] at hne
        exact hne hpath
    simp only [if_neg hA, if_neg hB, if_neg hC]
    rcases hready₁.2 with hc₁ | ⟨hend₁, hitem₁, -⟩ <;> rcases hready₂.2 with hc₂ | ⟨hend₂, hitem₂, -⟩
    · have hdot : k₂'.EndsInDot v29 g ↔ k₂.EndsInDot v29 g := by
        rw [hk₂'] at hc₂ ⊢
        split_ifs at hc₂ ⊢ with hk
        · exact endsInDot_refill hk hc₂
        · rfl
      rw [← hdot, if_neg hc₁]
      obtain ⟨b₁, c₁, hc₁⟩ := List.exists_cons_of_ne_nil hc₁
      obtain ⟨b₂, c₂, hc₂⟩ := List.exists_cons_of_ne_nil hc₂
      have hchar₁ : k₁'.char = b₁.toNat := by rw [Cursor.char, hc₁]; rfl
      have hchar₂ : k₂'.char = b₂.toNat := by rw [Cursor.char, hc₂]; rfl
      rw [rest_of_cons hc₁, rest_of_cons hc₂, List.length_cons, List.length_cons] at hn
      rw [rest_of_cons hc₁, rest_of_cons hc₂, hsame, hchar₁, hchar₂]
      by_cases hdif : (b₁.toNat : ℤ) - b₂.toNat ≠ 0
      · have htag : tag k₂'.path b₁ ≠ tag k₂'.path b₂ := by
          simp only [tag]
          omega
        rw [if_pos hdif, keyDif, if_neg htag, charDif_tag]
        exact ⟨fun h => absurd (List.cons_eq_cons.1 h.1).1 htag, fun _ => rfl⟩
      · have hb : b₁ = b₂ := UInt8.toNat_inj.1 (by omega)
        have hz₁ : 0 ∉ k₁'.next.c := fun h => hready₁.1 (by rw [hc₁]; exact List.mem_cons_of_mem _ (by
          simpa [Cursor.next, hc₁] using h))
        have hz₂ : 0 ∉ k₂'.next.c := fun h => hready₂.1 (by rw [hc₂]; exact List.mem_cons_of_mem _ (by
          simpa [Cursor.next, hc₂] using h))
        have hnext := ih hz₁ hz₂ hsame (by omega)
        rw [if_neg hdif, hb, keyDif, if_pos rfl, List.cons_inj_right]
        exact hnext
    · have hchar := (char_pos hready₁ hc₁).ne'
      have hne := (@rest_ne_nil v29 f k₁' hc₁)
      rw [hend₂, (char_end hend₂).2, sub_zero, if_pos hchar]
      refine ⟨fun h => absurd h.1 hne, fun _ => ?_⟩
      obtain ⟨b, c, hb⟩ := List.exists_cons_of_ne_nil hc₁
      rw [rest_of_cons hb, hsame, hitem₂, keyDif, Cursor.char, hb]
      exact congrArg some ((charDif_tag false b 0).trans (sub_zero _)).symm
    · have hchar := (char_pos hready₂ hc₂).ne'
      have hne := (@rest_ne_nil v29 g k₂' hc₂)
      rw [hend₁, (char_end hend₁).2, zero_sub, if_pos (neg_ne_zero.2 hchar)]
      refine ⟨fun h => absurd h.1.symm hne, fun _ => ?_⟩
      obtain ⟨b, c, hb⟩ := List.exists_cons_of_ne_nil hc₂
      rw [rest_of_cons hb, ← hsame, hitem₁, keyDif, Cursor.char, hb]
      exact congrArg some ((charDif_tag false 0 b).trans (zero_sub _)).symm
    · have hnil₁ : k₁'.c = [] := (char_end hend₁).1
      have hnil₂ : k₂'.c = [] := (char_end hend₂).1
      have hc₂ : k₂.c = [] := by
        by_contra h
        rw [hk₂', if_neg h] at hnil₂
        exact h hnil₂
      have hdot : k₂.EndsInDot v29 g := by
        refine endsInDot_of_refill_nil hg ?_ ?_
        · rwa [hk₂', if_pos hc₂] at hnil₂
        · exact Bool.eq_false_iff.2 fun h => hB ⟨hc₂, h, hnil₁⟩
      rw [hend₁, hend₂, (char_end hend₁).2, (char_end hend₂).2, if_neg (not_not.2 (sub_zero 0)), if_pos hnil₁]
      exact ⟨fun _ => rfl, fun h => absurd ⟨rfl, hdot⟩ h⟩

end Loop

/-! ## The comparison and the keys -/

section Keys

variable {v29 : Bool} {f g : ListFile}

/-- The dirname with its slash. -/
def ListFile.dirBytes (f : ListFile) : Bytes := match f.dirname with
  | some d => d.str ++ [slashChar]
  | none => []

theorem path_eq (f : ListFile) : f.path = f.dirBytes ++ f.basename := by
  rw [ListFile.path, ListFile.dirBytes]
  cases f.dirname <;> simp

theorem key_eq (v29 : Bool) (f : ListFile) :
    f.key v29 = f.dirBytes.map (tag v29) ++ f.baseKey v29 := by
  rw [ListFile.key, ListFile.dirBytes]
  cases f.dirname <;> simp

theorem baseKey_length_le (v29 : Bool) (f : ListFile) :
    (f.baseKey v29).length ≤ f.basename.length + 1 := by
  rw [ListFile.baseKey]
  split_ifs <;> simp

theorem rest_startCursor (v29 : Bool) (f : ListFile) :
    (startCursor v29 f f.dirname).rest v29 f = f.key v29 := by
  rw [ListFile.key]
  cases hd : f.dirname with
  | none => exact rest_baseCursor v29 f
  | some d => rfl

theorem key_length_le (v29 : Bool) (f : ListFile) : (f.key v29).length ≤
    (f.dirname.map fun d => d.str.length).getD 0 + f.basename.length + 2 := by
  have hbase := baseKey_length_le v29 f
  rw [key_eq, ListFile.dirBytes]
  cases f.dirname with
  | none =>
    simp only [List.map_nil, List.nil_append, Option.map_none, Option.getD_none]
    omega
  | some d =>
    simp only [List.map_append, List.length_append, List.length_map, List.length_singleton,
      Option.map_some, Option.getD_some]
    omega

/-- Where the comparison starts: at the dirname or, where both share it, after it. -/
theorem startCursor_ok (hf : f.Spelled) {dirname : Option DirName}
    (h : dirname = none ∨ dirname = f.dirname) :
    0 ∉ (startCursor v29 f dirname).c ∧ (startCursor v29 f dirname).Headed v29 f := by
  cases hd : dirname with
  | none => exact ⟨(ready_baseCursor hf).1, (ready_baseCursor hf).headed⟩
  | some d =>
    have hname : f.dirname = some d := by
      rcases h with h | h
      · rw [hd] at h
        cases h
      · rw [← h, hd]
    refine ⟨hf.dirname_zero d hname, ?_⟩
    cases hs : d.str with
    | nil =>
      have hrest : (startCursor v29 f (some d)).rest v29 f = tag v29 slashChar :: f.baseKey v29 := by
        simp [startCursor, Cursor.rest, hs]
      exact headed_of_cons rfl hrest
    | cons b l =>
      have hrest : (startCursor v29 f (some d)).rest v29 f =
          tag v29 b :: (l.map (tag v29) ++ tag v29 slashChar :: f.baseKey v29) := by
        simp [startCursor, Cursor.rest, hs]
      exact headed_of_cons rfl hrest

theorem zero_notMem_map_tag (path : Bool) {s : Bytes} (h : 0 ∉ s) : 0 ∉ s.map (tag path) := by
  rw [List.mem_map]
  rintro ⟨b, hb, hzero⟩
  have hb0 : b = 0 := UInt8.toNat_inj.1 (by
    rw [tag] at hzero
    exact (Nat.add_eq_zero_iff.1 hzero).2)
  exact h (hb0 ▸ hb)

theorem zero_notMem_baseKey (v29 : Bool) (hf : f.Spelled) : 0 ∉ f.baseKey v29 := by
  have htag : ∀ path, tag path slashChar ≠ 0 := fun path => by cases path <;> decide
  rw [ListFile.baseKey]
  split_ifs with h₁ h₂
  · exact List.not_mem_nil
  · rw [List.mem_append, List.mem_singleton, not_or]
    exact ⟨zero_notMem_map_tag _ hf.basename_zero, (htag true).symm⟩
  · rw [List.append_nil]
    exact zero_notMem_map_tag _ hf.basename_zero

theorem zero_notMem_key (v29 : Bool) (hf : f.Spelled) : 0 ∉ f.key v29 := by
  rw [ListFile.key]
  cases hd : f.dirname with
  | none => exact zero_notMem_baseKey v29 hf
  | some d =>
    have hbase := zero_notMem_baseKey v29 hf
    have hdir := zero_notMem_map_tag v29 (hf.dirname_zero d hd)
    have hslash : (0 : ℕ) ≠ tag v29 slashChar := by cases v29 <;> decide
    simp only [List.mem_append, List.mem_cons, not_or]
    exact ⟨hdir, hslash, hbase⟩

/-- The two entries have one dirname, in one place. -/
def Shares (f g : ListFile) : Prop := f.dirname.map DirName.ptr = g.dirname.map DirName.ptr

instance (f g : ListFile) : Decidable (Shares f g) :=
  inferInstanceAs (Decidable (f.dirname.map DirName.ptr = g.dirname.map DirName.ptr))

/-- The walk over `g` ends on the empty literal of a directory ".", that over `f` at the end
    of the same name. -/
def Overruns (v29 : Bool) (f g : ListFile) : Prop :=
  ¬Shares f g ∧ g.dirname ≠ none ∧ g.dotDir v29 = true ∧ f.key v29 = g.key v29

instance (v29 : Bool) (f g : ListFile) : Decidable (Overruns v29 f g) :=
  inferInstanceAs (Decidable (_ ∧ _ ∧ _ ∧ _))

/-- The walk from two cursors at the start of the names. -/
theorem walk_spec (hf : f.Spelled) (hg : g.Spelled) {d₁ d₂ : Option DirName}
    (h₁ : d₁ = none ∨ d₁ = f.dirname) (h₂ : d₂ = none ∨ d₂ = g.dirname)
    (hfuel : ((startCursor v29 f d₁).rest v29 f).length + ((startCursor v29 g d₂).rest v29 g).length + 2 ≤
      cmpFuel f g) :
    (if (startCursor v29 f d₁).path ≠ (startCursor v29 g d₂).path then
        some (typeDif (startCursor v29 f d₁).path)
      else cmpLoop v29 f g (cmpFuel f g) (startCursor v29 f d₁) (startCursor v29 g d₂)) =
    if (startCursor v29 f d₁).rest v29 f = (startCursor v29 g d₂).rest v29 g ∧
        d₂ ≠ none ∧ g.dotDir v29 = true then none
    else some (keyDif ((startCursor v29 f d₁).rest v29 f) ((startCursor v29 g d₂).rest v29 g)) := by
  obtain ⟨hz₁, hhead₁⟩ := @startCursor_ok v29 f hf d₁ h₁
  obtain ⟨hz₂, hhead₂⟩ := @startCursor_ok v29 g hg d₂ h₂
  have hdot : (startCursor v29 g d₂).EndsInDot v29 g ↔ d₂ ≠ none ∧ g.dotDir v29 = true := by
    cases d₂ with
    | none =>
      rw [Cursor.EndsInDot, startCursor, baseCursor]
      split_ifs <;> simp
    | some d => simp [Cursor.EndsInDot, startCursor]
  by_cases hpath : (startCursor v29 f d₁).path = (startCursor v29 g d₂).path
  · obtain ⟨hnone, hsome⟩ := cmpLoop_spec hf hg hz₁ hz₂ hpath hfuel
    rw [hdot] at hnone hsome
    rw [if_neg (not_not.2 hpath)]
    split_ifs with h
    · exact hnone h
    · exact hsome h
  · obtain ⟨hne, hdif⟩ := keyDif_of_path hhead₁ hhead₂ hpath
    rw [if_pos hpath, hdif, if_neg fun h => hne h.1]

theorem dirBytes_of_shares (h : Shares f g) (hptr : Shares f g →
    f.dirname.map DirName.str = g.dirname.map DirName.str) : f.dirBytes = g.dirBytes := by
  have hstr := hptr h
  rw [ListFile.dirBytes, ListFile.dirBytes]
  cases hf' : f.dirname <;> cases hg' : g.dirname <;> simp_all

/-- **The result of `f_name_cmp` is a function of the two keys.** -/
theorem fNameCmp?_eq (hf : f.Spelled) (hg : g.Spelled)
    (hptr : Shares f g → f.dirname.map DirName.str = g.dirname.map DirName.str) :
    fNameCmp? v29 f g =
      if Overruns v29 f g then none else some (keyDif (f.key v29) (g.key v29)) := by
  have hactive : ∀ {f : ListFile}, f.Spelled → f.isActive = true := fun hf => decide_eq_true hf.basename_ne
  rw [fNameCmp?, hactive hf, hactive hg]
  simp only [Bool.not_true, Bool.false_eq_true, if_false]
  by_cases hsame : Shares f g
  · have hbase₁ : (startCursor v29 f none).rest v29 f = f.baseKey v29 := rest_baseCursor v29 f
    have hbase₂ : (startCursor v29 g none).rest v29 g = g.baseKey v29 := rest_baseCursor v29 g
    have hwalk := @walk_spec v29 f g hf hg none none (.inl rfl) (.inl rfl) (by
      have h₁ := baseKey_length_le v29 f
      have h₂ := baseKey_length_le v29 g
      rw [hbase₁, hbase₂, cmpFuel]
      omega)
    have hover : ¬Overruns v29 f g := fun h => h.1 hsame
    simp only [show f.dirname.map DirName.ptr = g.dirname.map DirName.ptr from hsame, decide_true, if_true]
    rw [hwalk, if_neg fun h => h.2.1 rfl, if_neg hover, hbase₁, hbase₂, key_eq, key_eq,
      dirBytes_of_shares hsame hptr, keyDif_append]
  · have hwalk := @walk_spec v29 f g hf hg f.dirname g.dirname (.inr rfl) (.inr rfl) (by
      have h₁ := key_length_le v29 f
      have h₂ := key_length_le v29 g
      rw [rest_startCursor, rest_startCursor, cmpFuel]
      omega)
    simp only [show ¬f.dirname.map DirName.ptr = g.dirname.map DirName.ptr from hsame, decide_false,
      Bool.false_eq_true, if_false]
    rw [hwalk, rest_startCursor, rest_startCursor]
    refine if_congr ?_ rfl rfl
    rw [Overruns]
    exact ⟨fun h => ⟨hsame, h.2.1, h.2.2, h.1⟩, fun h => ⟨h.2.2.2, h.2.1, h.2.2.1⟩⟩

/-- **`f_name_cmp` compares the keys.** -/
theorem fNameCmp_spec (hf : f.Spelled) (hg : g.Spelled)
    (hptr : f.dirname.map DirName.ptr = g.dirname.map DirName.ptr →
      f.dirname.map DirName.str = g.dirname.map DirName.str) :
    Compares (fNameCmp v29 f g) (f.key v29) (g.key v29) := by
  rw [fNameCmp, fNameCmp?_eq hf hg hptr]
  split_ifs with h
  · exact .of_eq rfl h.2.2.2
  · exact compares_keyDif (zero_notMem_key v29 hf) (zero_notMem_key v29 hg)

end Keys

/-! ## Keys and paths -/

section Paths

variable {v29 : Bool} {f g : ListFile}

theorem dirBytes_slash (f : ListFile) : f.dirBytes = [] ∨ ∃ s, f.dirBytes = s ++ [slashChar] := by
  rw [ListFile.dirBytes]
  cases f.dirname with
  | none => exact .inl rfl
  | some d => exact .inr ⟨d.str, rfl⟩

/-- A path splits at its last slash. -/
theorem split_path (hf : f.Spelled) (hg : g.Spelled) (h : f.path = g.path) :
    f.dirBytes = g.dirBytes ∧ f.basename = g.basename := by
  have hno : ∀ {f g : ListFile} (as : Bytes), slashChar ∉ f.basename → g.dirBytes = f.dirBytes ++ as →
      f.basename = as ++ g.basename → as = [] := by
    intro f g as hslash hdir hbase
    rcases List.eq_nil_or_concat as with rfl | ⟨as', x, rfl⟩
    · rfl
    have hx : x ∈ f.basename := by
      rw [hbase]
      simp
    rcases dirBytes_slash g with hnil | ⟨s, hs⟩
    · rw [hnil] at hdir
      simp at hdir
    · rw [hs, List.concat_eq_append, ← List.append_assoc] at hdir
      have hlast := List.append_inj_right' hdir rfl
      rw [List.singleton_inj] at hlast
      exact absurd (hlast ▸ hx) hslash
  rw [path_eq, path_eq] at h
  rcases List.append_eq_append_iff.1 h with ⟨as, hdir, hbase⟩ | ⟨as, hdir, hbase⟩
  · have has := hno as hf.basename_slash hdir hbase
    subst has
    rw [List.append_nil] at hdir
    exact ⟨hdir.symm, hbase⟩
  · have has := hno as hg.basename_slash hdir hbase
    subst has
    rw [List.append_nil] at hdir
    exact ⟨hdir, hbase.symm⟩

/-- The character of a key's entry. -/
def untag (x : ℕ) : UInt8 := UInt8.ofNat (x % 256)

theorem untag_tag (path : Bool) (b : UInt8) : untag (tag path b) = b := by
  have hb := b.toNat_lt
  have hmod : tag path b % 256 = b.toNat := by
    rw [tag]
    split_ifs <;> omega
  rw [untag, hmod, UInt8.ofNat_toNat]

theorem map_untag (path : Bool) (s : Bytes) : (s.map (tag path)).map untag = s := by
  rw [List.map_map]
  exact List.map_id'' (fun b => untag_tag path b) s

theorem baseKey_old (f : ListFile) : f.baseKey false = f.basename.map (tag false) := by
  simp [ListFile.baseKey]

theorem baseKey_file (h : f.isDir = false) : f.baseKey true = f.basename.map (tag false) := by
  simp [ListFile.baseKey, h]

theorem baseKey_dir (h : f.isDir = true) (hdot : f.basename ≠ [dotChar]) :
    f.baseKey true = (f.basename ++ [slashChar]).map (tag true) := by
  simp [ListFile.baseKey, h, hdot]

theorem baseKey_dot (h : f.isDir = true) (hdot : f.basename = [dotChar]) : f.baseKey true = [] := by
  simp [ListFile.baseKey, h, hdot]

/-- Before protocol 29 the key is the path. -/
theorem key_old (f : ListFile) : f.key false = f.path.map (tag false) := by
  rw [key_eq, path_eq, baseKey_old, List.map_append]

/-- A directory's key has path characters only. -/
theorem path_of_key (hf : f.Spelled) : (∀ x ∈ f.key true, 256 ≤ x) ↔ f.isDir = true := by
  constructor
  · intro h
    by_contra hfile
    obtain ⟨b, l, hb⟩ := List.exists_cons_of_ne_nil hf.basename_ne
    have hmem : tag false b ∈ f.key true := by
      rw [key_eq, baseKey_file (by simpa using hfile), hb]
      simp
    exact absurd (h _ hmem) (not_le.2 (tag_item b))
  · intro h x hx
    rw [key_eq] at hx
    by_cases hdot : f.basename = [dotChar]
    · rw [baseKey_dot h hdot, List.append_nil] at hx
      obtain ⟨b, -, rfl⟩ := List.mem_map.1 hx
      exact tag_path b
    · rw [baseKey_dir h hdot, ← List.map_append] at hx
      obtain ⟨b, -, rfl⟩ := List.mem_map.1 hx
      exact tag_path b

/-- The characters of a directory's key: nothing of a "." but its dirname. -/
theorem untag_dir (h : f.isDir = true) : (f.key true).map untag =
    if f.basename = [dotChar] then f.dirBytes else f.path ++ [slashChar] := by
  rw [key_eq, List.map_append, map_untag]
  split_ifs with hdot
  · rw [baseKey_dot h hdot, List.map_nil, List.append_nil]
  · rw [baseKey_dir h hdot, map_untag, path_eq, List.append_assoc]

theorem dirBytes_dot (hf : f.Named) (hdot : f.basename = [dotChar]) : f.dirBytes.length ≤ 1 := by
  rw [ListFile.dirBytes]
  cases hd : f.dirname with
  | none => exact Nat.zero_le 1
  | some d =>
    have hstr := (hf.dot hdot).2 d hd
    simp [hstr]

theorem path_length (hf : f.Spelled) : 1 ≤ f.path.length := by
  have := List.length_pos_of_ne_nil hf.basename_ne
  rw [path_eq, List.length_append]
  omega

theorem untag_file (h : f.isDir = false) : (f.key true).map untag = f.path := by
  rw [key_eq, baseKey_file h, List.map_append, map_untag, map_untag, ← path_eq]

/-- The key of a name that is looked for as a non-directory's. -/
theorem key_file_inj (hf : f.Named) (hg : g.Spelled) (hfile : g.isDir = false) :
    f.key true = g.key true ↔ f.path = g.path ∧ f.isDir = false := by
  constructor
  · intro h
    have hdir : f.isDir = false := by
      by_contra hne
      have hall := (path_of_key hf.toSpelled).2 (by simpa using hne)
      obtain ⟨b, l, hb⟩ := List.exists_cons_of_ne_nil hg.basename_ne
      have hmem : tag false b ∈ f.key true := by
        rw [h, key_eq, baseKey_file hfile, hb]
        simp
      exact absurd (hall _ hmem) (not_le.2 (tag_item b))
    have huntag := congrArg (List.map untag) h
    rw [untag_file hdir, untag_file hfile] at huntag
    exact ⟨huntag, hdir⟩
  · rintro ⟨hpath, hdir⟩
    obtain ⟨hdirBytes, hbase⟩ := split_path hf.toSpelled hg hpath
    rw [key_eq, key_eq, hdirBytes, baseKey_file hdir, baseKey_file hfile, hbase]

/-- **Keys and paths.**  From protocol 29 on a directory's key differs from that of any
    other file. -/
theorem key_inj (hf : f.Named) (hg : g.Named) :
    f.key v29 = g.key v29 ↔ f.path = g.path ∧ (v29 = true → f.isDir = g.isDir) := by
  constructor
  · intro h
    cases v29 with
    | false =>
      rw [key_old, key_old] at h
      have hpath := congrArg (List.map untag) h
      rw [map_untag, map_untag] at hpath
      exact ⟨hpath, nofun⟩
    | true =>
      have hdir : f.isDir = g.isDir := by
        rw [Bool.eq_iff_iff, ← path_of_key hf.toSpelled, ← path_of_key hg.toSpelled, h]
      refine ⟨?_, fun _ => hdir⟩
      have huntag := congrArg (List.map untag) h
      cases hisDir : f.isDir with
      | false =>
        rw [untag_file hisDir, untag_file (hdir ▸ hisDir)] at huntag
        exact huntag
      | true =>
        rw [untag_dir hisDir, untag_dir (hdir ▸ hisDir)] at huntag
        have hlen : ∀ {f : ListFile}, f.Named → 2 ≤ (f.path ++ [slashChar]).length := by
          intro f hf
          have := path_length hf.toSpelled
          rw [List.length_append, List.length_singleton]
          omega
        split_ifs at huntag with hdf hdg hdg
        · rw [path_eq, path_eq, huntag, hdf, hdg]
        · have h₁ := dirBytes_dot hf hdf
          have h₂ := hlen hg
          rw [huntag] at h₁
          omega
        · have h₁ := dirBytes_dot hg hdg
          have h₂ := hlen hf
          rw [huntag] at h₂
          omega
        · exact List.append_cancel_right huntag
  · rintro ⟨hpath, hdir⟩
    obtain ⟨hdirBytes, hbase⟩ := split_path hf.toSpelled hg.toSpelled hpath
    have hbaseKey : f.baseKey v29 = g.baseKey v29 := by
      cases v29 with
      | false => rw [baseKey_old, baseKey_old, hbase]
      | true => rw [ListFile.baseKey, ListFile.baseKey, hbase, hdir rfl]
    rw [key_eq, key_eq, hdirBytes, hbaseKey]

/-- **A directory comes after another file of its name.** -/
theorem file_lt_dir (hf : f.Named) (hg : g.Named) (hpath : f.path = g.path) (hfile : f.isDir = false)
    (hdir : g.isDir = true) : f.key true < g.key true := by
  obtain ⟨hdirBytes, hbase⟩ := split_path hf.toSpelled hg.toSpelled hpath
  have hdot : f.basename ≠ [dotChar] := by
    intro hdot
    rw [(hf.dot hdot).1] at hfile
    cases hfile
  obtain ⟨b, l, hb⟩ := List.exists_cons_of_ne_nil hf.basename_ne
  rw [key_eq, key_eq, hdirBytes, baseKey_file hfile, baseKey_dir hdir (hbase ▸ hdot), ← hbase, hb]
  refine List.append_left_lt (cons_lt_of_lt ?_ _ _)
  exact (tag_item b).trans_le (tag_path b)

end Paths

end CloudEdgeBackup
