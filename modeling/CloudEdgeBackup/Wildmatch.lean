/-
  Wildcard matching (`lib/wildmatch.c`).

  * `dowild` matches a pattern with an array of strings that stand for their concatenation. It
    backtracks at a star, and two of its answers cut this short: `abortAll` and `abortToStarstar`;
  * `parse` reads the pattern as a list of elements, and the language of these is what the pattern
    means. `dowild_eq`: the matcher is the one of the elements over the joined text, so that an
    answer is never changed by a cut;
  * `wildmatch_array` matches a whole text, its last elements, or all that starts behind a slash;
    `litmatch_array` compares with a literal string.

  The character classes of the locale (`ctype.h`) are a parameter.
-/
import CloudEdgeBackup.Lib.Wildcards
import CloudEdgeBackup.Store

namespace CloudEdgeBackup

open Wildcards

abbrev asterisk : UInt8 := 42
abbrev hyphen : UInt8 := 45
abbrev questionMark : UInt8 := 63
abbrev openBracket : UInt8 := 91
abbrev backslash : UInt8 := 92
abbrev closeBracket : UInt8 := 93
abbrev classColon : UInt8 := 58
/-- `NEGATE_CLASS`. -/
abbrev negateClass : UInt8 := 33
/-- `NEGATE_CLASS2`. -/
abbrev negateClass2 : UInt8 := 94

/-! ## Character classes -/

inductive ClassName where
  | alnum | alpha | blank | cntrl | digit | graph | lower | print | punct | space | upper | xdigit
  deriving DecidableEq

/-- The macros `ISALNUM` to `ISXDIGIT`, and `tolower`. -/
structure Ctype where
  is : ClassName → UInt8 → Bool
  tolower : UInt8 → UInt8

/-- The names between `[:` and `:]`. -/
def classNames : List (Bytes × ClassName) :=
  [(cstr "alnum", .alnum), (cstr "alpha", .alpha), (cstr "blank", .blank), (cstr "cntrl", .cntrl),
    (cstr "digit", .digit), (cstr "graph", .graph), (cstr "lower", .lower), (cstr "print", .print),
    (cstr "punct", .punct), (cstr "space", .space), (cstr "upper", .upper), (cstr "xdigit", .xdigit)]

/-- One round of the loop over a character class: whether it matches `t_ch`, the new `prev_ch`,
    and what is left of the pattern; `none` where the class is malformed. -/
def classStep (ct : Ctype) (tCh prevCh : UInt8) : Bytes → Option (Bool × UInt8 × Bytes)
  | [] => none
  | pCh :: p =>
    if pCh = backslash then
      match p with
      | [] => none
      | pCh :: p => some (tCh = pCh, pCh, p)
    else if pCh = hyphen ∧ prevCh ≠ 0 ∧ p ≠ [] ∧ p.head? ≠ some closeBracket then
      match p with
      | [] => none
      | pCh :: p =>
        if pCh = backslash then
          match p with
          | [] => none
          | pCh :: p => some (tCh ≤ pCh ∧ tCh ≥ prevCh, 0, p)
        else some (tCh ≤ pCh ∧ tCh ≥ prevCh, 0, p)
    else if pCh = openBracket ∧ p.head? = some classColon then
      let s := p.tail.takeWhile (· ≠ closeBracket)
      match p.tail.dropWhile (· ≠ closeBracket) with
      | [] => none
      | _ :: rest =>
        -- without a `:]` this is a normal set
        if s = [] ∨ s.getLast? ≠ some classColon then some (tCh = pCh, pCh, p)
        else
          match classNames.lookup s.dropLast with
          | none => none
          | some name => some (ct.is name tCh, 0, rest)
    else some (tCh = pCh, pCh, p)

theorem classStep_length {ct : Ctype} {tCh prevCh : UInt8} {p : Bytes} {hit : Bool} {pCh : UInt8}
    {q : Bytes} (h : classStep ct tCh prevCh p = some (hit, pCh, q)) : q.length < p.length := by
  cases p with
  | nil => cases h
  | cons c p =>
    rw [classStep.eq_def] at h
    dsimp only at h
    split at h
    · cases p <;> cases h
      simp
    split at h
    · cases p with
      | nil => cases h
      | cons d p =>
        dsimp only at h
        split at h
        · cases p <;> cases h
          simp only [List.length_cons]
          omega
        · cases h
          simp
    split at h
    · have hle := (List.dropWhile_suffix (l := p.tail) (· ≠ closeBracket)).length_le
      have htail := List.length_tail (l := p)
      split at h
      · cases h
      · rename_i hrest
        rw [hrest, List.length_cons] at hle
        split at h
        · cases h
          simp
        · split at h <;> cases h
          rw [List.length_cons]
          omega
    · cases h
      simp

/-- The loop over a character class, up to its `]`: whether something in it matches, and what is
    left of the pattern. -/
def classLoop (ct : Ctype) (tCh : UInt8) (isMatched : Bool) (prevCh : UInt8) (p : Bytes) :
    Option (Bool × Bytes) :=
  match _h : classStep ct tCh prevCh p with
  | none => none
  | some (hit, pCh, q) =>
    if q.head? = some closeBracket then some (isMatched || hit, q.tail)
    else classLoop ct tCh (isMatched || hit) pCh q
termination_by p.length
decreasing_by exact classStep_length _h

theorem classLoop_length {ct : Ctype} {tCh : UInt8} : ∀ {p : Bytes} {isMatched : Bool}
    {prevCh : UInt8} {hit : Bool} {q : Bytes},
    classLoop ct tCh isMatched prevCh p = some (hit, q) → q.length < p.length := by
  intro p
  induction hn : p.length using Nat.strong_induction_on generalizing p with
  | _ n ih =>
    subst hn
    intro isMatched prevCh hit q h
    rw [classLoop] at h
    split at h
    · cases h
    · rename_i hit' pCh r hstep
      have hlt := classStep_length hstep
      split_ifs at h
      · cases h
        rw [List.length_tail]
        omega
      · exact (ih _ hlt rfl h).trans hlt

/-- The case `[` of `dowild`: whether the class matches `t_ch`, and what is left of the pattern. -/
def matchClass (ct : Ctype) (tCh : UInt8) (p : Bytes) : Option (Bool × Bytes) :=
  let special : Bool := p.head? = some negateClass ∨ p.head? = some negateClass2
  (classLoop ct tCh false 0 (if special then p.tail else p)).map fun r =>
    (!(r.1 = special || tCh = slash), r.2)

theorem matchClass_length {ct : Ctype} {tCh : UInt8} {p : Bytes} {r : Bool × Bytes}
    (h : matchClass ct tCh p = some r) : r.2.length < p.length := by
  obtain ⟨r', hloop, rfl⟩ := Option.map_eq_some_iff.1 h
  have hlt := classLoop_length hloop
  split_ifs at hlt
  · rw [List.length_tail] at hlt
    dsimp only
    omega
  · exact hlt

/-! ## The matcher -/

/-- Whether the letters of the text are made small (`force_lower_case`). -/
def foldCase (ct : Ctype) (forceLowerCase : Bool) (c : UInt8) : UInt8 :=
  if forceLowerCase && ct.is .upper c then ct.tolower c else c

/-- The first string that is not at its end, and those behind it. -/
def nextText : Bytes → List Bytes → Bytes × List Bytes
  | [], [] => ([], [])
  | [], text :: a => nextText text a
  | c :: text, a => (c :: text, a)

/-- The places behind a star: `dowild` is called at every one. -/
def starPlaces (special : Bool) (f : Bytes → List Bytes → Outcome) : Bytes → List Bytes → Outcome
  | [], [] => .abortAll
  | [], text :: a => starPlaces special f text a
  | c :: text, a =>
    match f (c :: text) a with
    | .yes => .yes
    | .abortAll => .abortAll
    | .abortToStarstar => if special then starPlaces special f text a else .abortToStarstar
    | .no => if !special && c == slash then .abortToStarstar else starPlaces special f text a
termination_by text a => (a.length, text.length)

/-- `dowild`, on a string and the strings behind it. -/
def dowild (ct : Ctype) (forceLowerCase : Bool) (p text : Bytes) (a : List Bytes) : Outcome :=
  match p with
  | [] => if text = [] ∧ ∀ s ∈ a, s = [] then .yes else .no
  | pCh :: p =>
    match nextText text a with
    | ([], _) =>
      if pCh = asterisk then
        if p.dropWhile (· = asterisk) = [] then .yes else .abortAll
      else .abortAll
    | (c :: text, a) =>
      let tCh := foldCase ct forceLowerCase c
      if pCh = backslash then
        match p with
        | [] => .no
        | pCh :: p => if tCh = pCh then dowild ct forceLowerCase p text a else .no
      else if pCh = questionMark then
        if tCh = slash then .no else dowild ct forceLowerCase p text a
      else if pCh = asterisk then
        let special : Bool := p.head? = some asterisk
        if p.dropWhile (· = asterisk) = [] then
          if !special && (slash ∈ c :: text ∨ ∃ s ∈ a, slash ∈ s) then .no else .yes
        else
          starPlaces special
            (fun text a => dowild ct forceLowerCase (p.dropWhile (· = asterisk)) text a) (c :: text) a
      else if pCh = openBracket then
        match _h : matchClass ct tCh p with
        | none => .abortAll
        | some (isMatched, p) => if isMatched then dowild ct forceLowerCase p text a else .no
      else if tCh = pCh then dowild ct forceLowerCase p text a else .no
termination_by p.length
decreasing_by
  all_goals simp_wf
  · exact (List.dropWhile_suffix _).length_le
  · exact (matchClass_length _h).le

/-! ## The meaning of a pattern -/

/-- What can stand in a character class. -/
inductive ClassItem where
  | char (c : UInt8)
  | range (lo hi : UInt8)
  | named (name : ClassName)

def ClassItem.accepts (ct : Ctype) : ClassItem → UInt8 → Bool
  | .char c, t => t = c
  | .range lo hi, t => t ≤ hi ∧ t ≥ lo
  | .named name, t => ct.is name t

/-- The next item of a class, the character a range behind it starts with (0 for none), and what
    is left; `none` where the class is malformed. -/
def readClassItem (prevCh : UInt8) : Bytes → Option (ClassItem × UInt8 × Bytes)
  | [] => none
  | c :: p =>
    if c = backslash then
      match p with
      | [] => none
      | c :: p => some (.char c, c, p)
    else if c = hyphen ∧ prevCh ≠ 0 ∧ p ≠ [] ∧ p.head? ≠ some closeBracket then
      match p with
      | [] => none
      | c :: p =>
        if c = backslash then
          match p with
          | [] => none
          | c :: p => some (.range prevCh c, 0, p)
        else some (.range prevCh c, 0, p)
    else if c = openBracket ∧ p.head? = some classColon then
      let s := p.tail.takeWhile (· ≠ closeBracket)
      match p.tail.dropWhile (· ≠ closeBracket) with
      | [] => none
      | _ :: rest =>
        if s = [] ∨ s.getLast? ≠ some classColon then some (.char c, c, p)
        else (classNames.lookup s.dropLast).map fun name => (.named name, 0, rest)
    else some (.char c, c, p)

theorem classStep_eq (ct : Ctype) (tCh prevCh : UInt8) (p : Bytes) : classStep ct tCh prevCh p =
    (readClassItem prevCh p).map fun item => (item.1.accepts ct tCh, item.2) := by
  cases p with
  | nil => rfl
  | cons c p =>
    rw [classStep.eq_def, readClassItem.eq_def]
    dsimp only
    by_cases hback : c = backslash
    · rw [if_pos hback, if_pos hback]
      cases p <;> rfl
    rw [if_neg hback, if_neg hback]
    by_cases hrange : c = hyphen ∧ prevCh ≠ 0 ∧ p ≠ [] ∧ p.head? ≠ some closeBracket
    · rw [if_pos hrange, if_pos hrange]
      cases p with
      | nil => rfl
      | cons d p =>
        dsimp only
        split_ifs
        · cases p <;> rfl
        · rfl
    rw [if_neg hrange, if_neg hrange]
    by_cases hname : c = openBracket ∧ p.head? = some classColon
    · rw [if_pos hname, if_pos hname]
      cases p.tail.dropWhile (· ≠ closeBracket) with
      | nil => rfl
      | cons d rest =>
        dsimp only
        by_cases hset : p.tail.takeWhile (· ≠ closeBracket) = [] ∨
            (p.tail.takeWhile (· ≠ closeBracket)).getLast? ≠ some classColon
        · rw [if_pos hset, if_pos hset]
          rfl
        · rw [if_neg hset, if_neg hset]
          cases classNames.lookup (p.tail.takeWhile (· ≠ closeBracket)).dropLast <;> rfl
    · rw [if_neg hname, if_neg hname]
      rfl

theorem readClassItem_length {prevCh : UInt8} {p : Bytes} {item : ClassItem × UInt8 × Bytes}
    (h : readClassItem prevCh p = some item) : item.2.2.length < p.length := by
  have hstep := classStep_eq ⟨fun _ _ => false, id⟩ 0 prevCh p
  rw [h, Option.map_some] at hstep
  exact classStep_length hstep

/-- The items of a class up to its `]`, and what is left of the pattern. -/
def readClass (prevCh : UInt8) (p : Bytes) : Option (List ClassItem × Bytes) :=
  match _h : readClassItem prevCh p with
  | none => none
  | some (item, c, q) =>
    if q.head? = some closeBracket then some ([item], q.tail)
    else (readClass c q).map fun r => (item :: r.1, r.2)
termination_by p.length
decreasing_by exact readClassItem_length _h

theorem classLoop_eq (ct : Ctype) (tCh : UInt8) : ∀ (p : Bytes) (isMatched : Bool) (prevCh : UInt8),
    classLoop ct tCh isMatched prevCh p =
      (readClass prevCh p).map fun r => (isMatched || r.1.any fun item => item.accepts ct tCh, r.2) := by
  intro p
  induction hn : p.length using Nat.strong_induction_on generalizing p with
  | _ n ih =>
    subst hn
    intro isMatched prevCh
    rw [classLoop, readClass]
    rw [classStep_eq]
    cases hitem : readClassItem prevCh p with
    | none => simp
    | some item =>
      obtain ⟨item, c, q⟩ := item
      have hlt : q.length < p.length := readClassItem_length hitem
      simp only [Option.map_some]
      split_ifs
      · simp
      · rw [ih _ hlt q rfl, Option.map_map]
        refine congrFun (congrArg Option.map (funext fun r => ?_)) _
        simp [Bool.or_assoc]

/-- The set of a class, and what is left of the pattern. A class never has the slash. -/
def readSet (ct : Ctype) (p : Bytes) : Option ((UInt8 → Bool) × Bytes) :=
  let negated : Bool := p.head? = some negateClass ∨ p.head? = some negateClass2
  (readClass 0 (if negated then p.tail else p)).map fun r =>
    (fun t => t ≠ slash ∧ (r.1.any fun item => item.accepts ct t) ≠ negated, r.2)

theorem matchClass_eq (ct : Ctype) (tCh : UInt8) (p : Bytes) :
    matchClass ct tCh p = (readSet ct p).map fun r => (r.1 tCh, r.2) := by
  rw [matchClass, readSet, classLoop_eq, Option.map_map, Option.map_map]
  refine congrFun (congrArg Option.map (funext fun r => ?_)) _
  by_cases hslash : tCh = slash <;> simp [hslash]

theorem readSet_length {ct : Ctype} {p : Bytes} {r : (UInt8 → Bool) × Bytes}
    (h : readSet ct p = some r) : r.2.length < p.length := by
  have hmatch := matchClass_eq ct 0 p
  rw [h, Option.map_some] at hmatch
  exact matchClass_length hmatch

theorem readSet_slash {ct : Ctype} {p : Bytes} {r : (UInt8 → Bool) × Bytes}
    (h : readSet ct p = some r) : r.1 slash = false := by
  obtain ⟨r', -, rfl⟩ := Option.map_eq_some_iff.1 h
  simp

/-- The elements of a pattern. -/
def parse (ct : Ctype) (p : Bytes) : List (Elem UInt8) :=
  match p with
  | [] => []
  | c :: p =>
    if c = backslash then
      match p with
      | [] => [.one fun _ => false]
      | c :: p => .one (· = c) :: parse ct p
    else if c = questionMark then .one (· ≠ slash) :: parse ct p
    else if c = asterisk then
      .star (p.head? = some asterisk) :: parse ct (p.dropWhile (· = asterisk))
    else if c = openBracket then
      match _h : readSet ct p with
      | none => [.never]
      | some (accepts, q) => .one accepts :: parse ct q
    else .one (· = c) :: parse ct p
termination_by p.length
decreasing_by
  all_goals simp_wf
  · exact (List.dropWhile_suffix _).length_le
  · exact (readSet_length _h).le

theorem parse_nil (ct : Ctype) : parse ct [] = [] := by rw [parse]

theorem parse_backslash_nil (ct : Ctype) : parse ct [backslash] = [.one fun _ => false] := by
  rw [parse.eq_def]
  rfl

theorem parse_backslash (ct : Ctype) (c : UInt8) (p : Bytes) :
    parse ct (backslash :: c :: p) = .one (· = c) :: parse ct p := by
  rw [parse.eq_def]
  rfl

theorem parse_questionMark (ct : Ctype) (p : Bytes) :
    parse ct (questionMark :: p) = .one (· ≠ slash) :: parse ct p := by
  rw [parse.eq_def]
  rfl

theorem parse_asterisk (ct : Ctype) (p : Bytes) : parse ct (asterisk :: p) =
    .star (p.head? = some asterisk) :: parse ct (p.dropWhile (· = asterisk)) := by
  rw [parse.eq_def]
  rfl

theorem parse_openBracket (ct : Ctype) (p : Bytes) : parse ct (openBracket :: p) =
    match readSet ct p with
    | none => [.never]
    | some (accepts, q) => .one accepts :: parse ct q := by
  rw [parse.eq_def]
  dsimp only
  rw [if_neg (by decide), if_neg (by decide), if_neg (by decide), if_pos rfl]
  cases readSet ct p <;> rfl

theorem parse_other (ct : Ctype) {c : UInt8} (p : Bytes) (hback : c ≠ backslash)
    (hquestion : c ≠ questionMark) (hstar : c ≠ asterisk) (hopen : c ≠ openBracket) :
    parse ct (c :: p) = .one (· = c) :: parse ct p := by
  rw [parse.eq_def]
  dsimp only
  rw [if_neg hback, if_neg hquestion, if_neg hstar, if_neg hopen]

/-- Only an asterisk is read as a star. -/
theorem head_of_parse_star {ct : Ctype} {p : Bytes} {deep : Bool} {es : List (Elem UInt8)}
    (h : parse ct p = .star deep :: es) : p.head? = some asterisk := by
  rw [parse.eq_def] at h
  cases p with
  | nil => cases h
  | cons c p =>
    dsimp only at h
    split_ifs at h with hback hquestion hstar hopen
    · cases p <;> cases h
    · cases h
    · rw [hstar]
      rfl
    · split at h <;> cases h
    · cases h

theorem parse_ne_nil {ct : Ctype} {p : Bytes} (hp : p ≠ []) : parse ct p ≠ [] := by
  cases p with
  | nil => exact absurd rfl hp
  | cons c p =>
    rw [parse.eq_def]
    dsimp only
    split_ifs
    · cases p <;> simp
    · simp
    · simp
    · split <;> simp
    · simp

/-- The elements of a pattern are as the matcher expects them. -/
theorem parse_legal (ct : Ctype) (p : Bytes) : Legal slash (parse ct p) := by
  induction hn : p.length using Nat.strong_induction_on generalizing p with
  | _ n ih =>
    subst hn
    have hcons : ∀ {e : Elem UInt8} {q : Bytes}, q.length < p.length → ¬e.IsStar → e.Proper slash →
        Legal slash (e :: parse ct q) := by
      intro e q hlt hstar hproper
      have hq := ih _ hlt q rfl
      refine ⟨List.isChain_cons.2 ⟨fun e' _ h => absurd h hstar, hq.apart⟩, ?_⟩
      intro e' he'
      rcases List.mem_cons.1 he' with rfl | he'
      · exact hproper
      · exact hq.proper e' he'
    rw [parse.eq_def]
    cases p with
    | nil => exact ⟨List.isChain_nil, fun e he => absurd he List.not_mem_nil⟩
    | cons c p =>
      have hlit : ∀ d : UInt8, (Elem.one fun t => decide (t = d)).Proper slash := by
        intro d hslash t ht
        rw [decide_eq_true_eq] at hslash ht
        rw [ht, hslash]
      dsimp only
      split_ifs with hback hquestion hstar hopen
      · cases p with
        | nil =>
          refine ⟨List.isChain_singleton _, fun e he => ?_⟩
          rw [List.mem_singleton] at he
          subst he
          exact fun hslash => absurd hslash Bool.false_ne_true
        | cons d p => exact hcons (by simp only [List.length_cons]; omega) id (hlit d)
      · refine hcons (by simp) id ?_
        intro hslash
        simp at hslash
      · have hlt : (p.dropWhile (· = asterisk)).length < (c :: p).length :=
          Nat.lt_succ_of_le (List.dropWhile_suffix _).length_le
        have hq := ih _ hlt _ rfl
        refine ⟨List.isChain_cons.2 ⟨fun e he _ hstar' => ?_, hq.apart⟩, ?_⟩
        · cases e with
          | star deep =>
            obtain ⟨es, hes⟩ := List.head?_eq_some_iff.1 he
            have hhead := head_of_parse_star hes
            have hnot := List.head?_dropWhile_not (fun b : UInt8 => decide (b = asterisk)) p
            rw [hhead] at hnot
            simp at hnot
          | one | never => exact hstar'
        · intro e he
          rcases List.mem_cons.1 he with rfl | he
          · trivial
          · exact hq.proper e he
      · split
        · refine ⟨List.isChain_singleton _, fun e he => ?_⟩
          rw [List.mem_singleton] at he
          subst he
          trivial
        · rename_i accepts q hset
          refine hcons ?_ id ?_
          · exact (readSet_length hset).trans (Nat.lt_succ_self _)
          · intro hslash
            have hnot : accepts slash = false := readSet_slash hset
            rw [hnot] at hslash
            cases hslash
      · exact hcons (by simp) id (hlit c)

/-! ## The matcher and the language -/

/-- The text a matcher sees: all strings joined. -/
def joined (ct : Ctype) (forceLowerCase : Bool) (text : Bytes) (a : List Bytes) : Bytes :=
  (text ++ a.flatten).map (foldCase ct forceLowerCase)

theorem nextText_spec : ∀ (a : List Bytes) (text : Bytes),
    (nextText text a).1 ++ (nextText text a).2.flatten = text ++ a.flatten ∧
      ((nextText text a).1 = [] → (nextText text a).2 = []) := by
  intro a
  induction a with
  | nil =>
    intro text
    cases text <;> simp [nextText]
  | cons s a ih =>
    intro text
    cases text with
    | nil => simpa [nextText] using ih s
    | cons c text => simp [nextText]

/-- No letter is folded to a slash. -/
def SlashApart (ct : Ctype) (forceLowerCase : Bool) : Prop :=
  ∀ c, foldCase ct forceLowerCase c = slash ↔ c = slash

variable {ct : Ctype} {forceLowerCase : Bool}

theorem joined_cons (c : UInt8) (text : Bytes) (a : List Bytes) :
    joined ct forceLowerCase (c :: text) a =
      foldCase ct forceLowerCase c :: joined ct forceLowerCase text a := rfl

theorem slash_mem_joined (hfold : SlashApart ct forceLowerCase) (text : Bytes) (a : List Bytes) :
    slash ∈ joined ct forceLowerCase text a ↔ slash ∈ text ∨ ∃ s ∈ a, slash ∈ s := by
  rw [joined, List.mem_map]
  constructor
  · rintro ⟨c, hc, hslash⟩
    obtain rfl := (hfold c).1 hslash
    rwa [List.mem_append, List.mem_flatten] at hc
  · intro h
    refine ⟨slash, ?_, (hfold slash).2 rfl⟩
    rwa [List.mem_append, List.mem_flatten]

theorem starPlaces_eq (hfold : SlashApart ct forceLowerCase) {special : Bool}
    {f : Bytes → List Bytes → Outcome} {g : Bytes → Outcome}
    (hfg : ∀ text a, f text a = g (joined ct forceLowerCase text a)) :
    ∀ (a : List Bytes) (text : Bytes), starPlaces special f text a =
      starLoop slash special g (joined ct forceLowerCase text a) := by
  have hcons : ∀ (c : UInt8) (text : Bytes) (a : List Bytes),
      starPlaces special f text a = starLoop slash special g (joined ct forceLowerCase text a) →
      starPlaces special f (c :: text) a =
        starLoop slash special g (joined ct forceLowerCase (c :: text) a) := by
    intro c text a ih
    have hslash : (foldCase ct forceLowerCase c == slash) = (c == slash) := by
      rw [Bool.eq_iff_iff, beq_iff_eq, beq_iff_eq]
      exact hfold c
    rw [starPlaces, hfg, ih, joined_cons, starLoop, hslash]
    cases g (foldCase ct forceLowerCase c :: joined ct forceLowerCase text a) <;> rfl
  intro a
  induction a with
  | nil =>
    intro text
    induction text with
    | nil => rw [starPlaces]; rfl
    | cons c text ih => exact hcons c text [] ih
  | cons s a ih =>
    intro text
    induction text with
    | nil => rw [starPlaces, ih]; rfl
    | cons c text iht => exact hcons c text (s :: a) iht

/-- Without text, only a star goes on. -/
theorem scan_parse_nil {c : UInt8} (p : Bytes) (hstar : c ≠ asterisk) :
    scan slash (parse ct (c :: p)) [] = .abortAll := by
  cases hparse : parse ct (c :: p) with
  | nil => exact absurd hparse (parse_ne_nil (List.cons_ne_nil c p))
  | cons e es =>
    cases e with
    | one | never => rfl
    | star deep => exact absurd (Option.some.inj (head_of_parse_star hparse)) hstar

/-- **The matcher of the code is the one of the elements.** -/
theorem dowild_eq (hfold : SlashApart ct forceLowerCase) (p : Bytes) : ∀ (text : Bytes)
    (a : List Bytes), dowild ct forceLowerCase p text a =
      scan slash (parse ct p) (joined ct forceLowerCase text a) := by
  induction hn : p.length using Nat.strong_induction_on generalizing p with
  | _ n ih =>
    subst hn
    intro text a
    rw [dowild.eq_def]
    cases p with
    | nil =>
      rw [parse_nil, scan]
      refine ite_congr ?_ (fun _ => rfl) (fun _ => rfl)
      simp [joined]
    | cons pCh p =>
      obtain ⟨hnext, hempty⟩ := nextText_spec a text
      have hjoined : joined ct forceLowerCase text a =
          joined ct forceLowerCase (nextText text a).1 (nextText text a).2 := by
        rw [joined, joined, hnext]
      rw [hjoined]
      dsimp only
      generalize (nextText text a) = next at *
      obtain ⟨text', a'⟩ := next
      cases text' with
      | nil =>
        obtain rfl : a' = [] := hempty rfl
        have hnil : joined ct forceLowerCase [] [] = [] := rfl
        rw [hnil]
        dsimp only
        by_cases hstar : pCh = asterisk
        · subst hstar
          rw [if_pos rfl, parse_asterisk]
          split_ifs with hrest
          · rw [hrest, parse_nil]
            simp [scan]
          · cases hparse : parse ct (p.dropWhile (· = asterisk)) with
            | nil => exact absurd hparse (parse_ne_nil hrest)
            | cons e es => rfl
        · rw [if_neg hstar]
          exact (scan_parse_nil p hstar).symm
      | cons c text' =>
        rw [joined_cons]
        have hone : ∀ (accepts : UInt8 → Bool) (q : Bytes), q.length < (pCh :: p).length →
            (if accepts (foldCase ct forceLowerCase c) = true then dowild ct forceLowerCase q text' a'
              else .no) = scan slash (.one accepts :: parse ct q)
                (foldCase ct forceLowerCase c :: joined ct forceLowerCase text' a') := by
          intro accepts q hlt
          rw [scan, ih _ hlt q rfl]
        dsimp only
        by_cases hback : pCh = backslash
        · subst hback
          rw [if_pos rfl]
          cases p with
          | nil => rw [parse_backslash_nil]; rfl
          | cons d p =>
            rw [parse_backslash, ← hone (· = d) p (by simp only [List.length_cons]; omega)]
            simp only [decide_eq_true_eq]
        rw [if_neg hback]
        by_cases hquestion : pCh = questionMark
        · subst hquestion
          rw [if_pos rfl, parse_questionMark, ← hone (· ≠ slash) p (Nat.lt_succ_self _)]
          simp only [decide_eq_true_eq, ite_not]
        rw [if_neg hquestion]
        by_cases hstar : pCh = asterisk
        · subst hstar
          rw [if_pos rfl, parse_asterisk, ← joined_cons]
          by_cases hrest : p.dropWhile (· = asterisk) = []
          · rw [if_pos hrest, hrest, parse_nil, scan]
            refine ite_congr ?_ (fun _ => rfl) (fun _ => rfl)
            have hmem := slash_mem_joined hfold (c :: text') a'
            rw [Bool.and_eq_true, Bool.and_eq_true, List.contains_iff_mem, hmem, decide_eq_true_eq]
          · rw [if_neg hrest]
            have hlt : (p.dropWhile (· = asterisk)).length < (asterisk :: p).length :=
              Nat.lt_succ_of_le (List.dropWhile_suffix _).length_le
            rw [starPlaces_eq hfold (ih _ hlt _ rfl)]
            cases hparse : parse ct (p.dropWhile (· = asterisk)) with
            | nil => exact absurd hparse (parse_ne_nil hrest)
            | cons e es => rfl
        rw [if_neg hstar]
        by_cases hopen : pCh = openBracket
        · subst hopen
          rw [if_pos rfl, parse_openBracket]
          have hmatch := matchClass_eq ct (foldCase ct forceLowerCase c) p
          cases hset : readSet ct p with
          | none =>
            rw [hset, Option.map_none] at hmatch
            split
            · rfl
            · rename_i heq
              rw [hmatch] at heq
              cases heq
          | some r =>
            rw [hset, Option.map_some] at hmatch
            dsimp only
            rw [← hone r.1 r.2 ((readSet_length hset).trans (Nat.lt_succ_self _))]
            split
            · rename_i heq
              rw [hmatch] at heq
              cases heq
            · rename_i heq
              rw [hmatch] at heq
              cases heq
              rfl
        · rw [if_neg hopen, parse_other ct p hback hquestion hstar hopen,
            ← hone (· = pCh) p (Nat.lt_succ_self _)]
          simp only [decide_eq_true_eq]

/-! ## The functions around the matcher -/

/-- `wildmatch`. -/
def wildmatch (ct : Ctype) (pattern text : Bytes) : Bool := dowild ct false pattern text [] = .yes

/-- `iwildmatch`. -/
def iwildmatch (ct : Ctype) (pattern text : Bytes) : Bool := dowild ct true pattern text [] = .yes

/-- The inner loop of `trailing_N_elements`: the characters of a string from its end. What stands
    behind the slash it looks for, or how many are still to be found. -/
def scanBack : Bytes → ℕ → Bytes → ℕ ⊕ Bytes
  | [], count, _ => .inl count
  | c :: before, count, behind =>
    if c = slash then
      if count = 1 then .inr behind else scanBack before (count - 1) (c :: behind)
    else scanBack before count (c :: behind)

/-- The outer loop, from the last string to the first one. -/
def trailingLoop : List Bytes → ℕ → List Bytes → Option (Bytes × List Bytes)
  | [], _, [] => none
  | [], count, text :: a => if count = 1 then some (text, a) else none
  | s :: before, count, a =>
    match scanBack s.reverse count [] with
    | .inr text => some (text, a)
    | .inl count => trailingLoop before count (s :: a)

/-- `trailing_N_elements`. -/
def trailingNElements (texts : List Bytes) (count : ℕ) : Option (Bytes × List Bytes) :=
  trailingLoop texts.reverse count []

/-- The first string to match, and those behind it. -/
def startText (texts : List Bytes) (where' : ℤ) : Option (Bytes × List Bytes) :=
  if 0 < where' then trailingNElements texts where'.toNat
  else
    match texts with
    | [] => none
    | text :: a => some (text, a)

/-- The loop over the slashes of `wildmatch_array`. -/
def slashLoop (f : Bytes → List Bytes → Outcome) : Bytes → List Bytes → Bool
  | [], [] => false
  | [], text :: a => slashLoop f text a
  | c :: text, a =>
    if c = slash then
      match f text a with
      | .yes => true
      | .abortAll => false
      | .no => slashLoop f text a
      | .abortToStarstar => slashLoop f text a
    else slashLoop f text a
termination_by text a => (a.length, text.length)

/-- `wildmatch_array`. -/
def wildmatchArray (ct : Ctype) (pattern : Bytes) (texts : List Bytes) (where' : ℤ) : Bool :=
  match startText texts where' with
  | none => false
  | some (text, a) =>
    match dowild ct false pattern text a with
    | .yes => true
    | .abortAll => false
    | .no => if where' < 0 then slashLoop (dowild ct false pattern) text a else false
    | .abortToStarstar => if where' < 0 then slashLoop (dowild ct false pattern) text a else false

/-- `doliteral`. -/
def doliteral : Bytes → Bytes → List Bytes → Bool
  | [], text, a => text = [] ∧ ∀ s ∈ a, s = []
  | c :: s, text, a =>
    match nextText text a with
    | ([], _) => false
    | (d :: text, a) => if d = c then doliteral s text a else false

/-- `litmatch_array`. -/
def litmatchArray (string : Bytes) (texts : List Bytes) (where' : ℤ) : Bool :=
  match startText texts where' with
  | none => false
  | some (text, a) => doliteral string text a

/-! ## The last elements of a text -/

/-- The last elements of a text between slashes. -/
def lastElements (n : ℕ) (text : Bytes) : Bytes := [slash].intercalate ((text.splitOn slash).rtake n)

/-- How many elements a text has. -/
def elementCount (text : Bytes) : ℕ := (text.splitOn slash).length

theorem elementCount_eq (text : Bytes) : elementCount text = text.count slash + 1 := by
  rw [elementCount]
  induction text with
  | nil => rfl
  | cons c text ih =>
    rw [List.splitOn_cons_eq_if_modifyHead]
    by_cases hc : c = slash
    · simp [hc, ih]
    · have hne : (c == slash) = false := by simpa using hc
      simp [hne, hc, ih]

/-- What the scan from the end finds. -/
theorem scanBack_inr (before : Bytes) : ∀ {count : ℕ} {behind text : Bytes}, 0 < count →
    scanBack before count behind = .inr text →
      ∃ u v, before.reverse = u ++ slash :: v ∧ text = v ++ behind ∧ v.count slash + 1 = count := by
  induction before with
  | nil =>
    intro count behind text _ h
    cases h
  | cons c before ih =>
    intro count behind text hcount h
    rw [scanBack] at h
    split_ifs at h with hc hone
    · cases h
      exact ⟨before.reverse, [], by rw [hc, List.reverse_cons], rfl, hone.symm⟩
    · obtain ⟨u, v, hsplit, rfl, hv⟩ := ih (by omega) h
      refine ⟨u, v ++ [c], by rw [List.reverse_cons, hsplit, List.append_assoc]; rfl, by simp, ?_⟩
      rw [List.count_append, hc, List.count_singleton_self]
      omega
    · obtain ⟨u, v, hsplit, rfl, hv⟩ := ih hcount h
      refine ⟨u, v ++ [c], by rw [List.reverse_cons, hsplit, List.append_assoc]; rfl, by simp, ?_⟩
      rw [List.count_append, List.count_singleton, beq_false_of_ne hc]
      simpa using hv

theorem scanBack_inl (before : Bytes) : ∀ {count m : ℕ} {behind : Bytes}, 0 < count →
    scanBack before count behind = .inl m → before.count slash + m = count ∧ 0 < m := by
  induction before with
  | nil =>
    intro count m behind hcount h
    cases h
    simpa using hcount
  | cons c before ih =>
    intro count m behind hcount h
    rw [scanBack] at h
    split_ifs at h with hc hone
    · have := ih (by omega) h
      rw [hc, List.count_cons_self]
      omega
    · rw [List.count_cons_of_ne hc]
      exact ih hcount h

/-- The last `n` elements are what stands behind a slash, with `n - 1` slashes in it. -/
theorem lastElements_behind {u v : Bytes} {n : ℕ} (hv : v.count slash + 1 = n) :
    lastElements n (u ++ slash :: v) = v ∧ n < elementCount (u ++ slash :: v) := by
  have hlen : (v.splitOn slash).length = n := (elementCount_eq v).trans hv
  constructor
  · rw [lastElements, List.splitOn_append_cons_self, List.rtake, List.length_append, hlen,
      Nat.add_sub_cancel, List.drop_left, List.intercalate_splitOn]
  · rw [elementCount_eq, List.count_append, List.count_cons_self]
    omega

theorem lastElements_all {text : Bytes} {n : ℕ} (hn : elementCount text = n) :
    lastElements n text = text := by
  rw [elementCount] at hn
  rw [lastElements, List.rtake, hn, Nat.sub_self, List.drop_zero, List.intercalate_splitOn]

/-- The loop finds the last `n` elements, where there are as many. -/
theorem trailingLoop_spec {n : ℕ} : ∀ (before : List Bytes) {count : ℕ} (a : List Bytes), 0 < count →
    a.flatten.count slash + count = n →
    match trailingLoop before count a with
    | some (text, a') =>
      text ++ a'.flatten = lastElements n (before.reverse ++ a).flatten ∧
        n ≤ elementCount (before.reverse ++ a).flatten
    | none => before.reverse ++ a = [] ∨ elementCount (before.reverse ++ a).flatten < n := by
  intro before
  induction before with
  | nil =>
    intro count a hcount hn
    cases a with
    | nil => exact .inl rfl
    | cons text a =>
      have helements := elementCount_eq (text :: a).flatten
      rw [trailingLoop, List.reverse_nil, List.nil_append]
      split_ifs with hone
      · have hall : elementCount (text :: a).flatten = n := by omega
        exact ⟨(lastElements_all hall).symm, hall.ge⟩
      · exact .inr (by omega)
  | cons s before ih =>
    intro count a hcount hn
    have hjoin : (s :: before).reverse ++ a = before.reverse ++ s :: a := by simp
    rw [trailingLoop, hjoin]
    cases hscan : scanBack s.reverse count [] with
    | inr text =>
      obtain ⟨u, v, hs, rfl, hv⟩ := scanBack_inr s.reverse hcount hscan
      rw [List.reverse_reverse] at hs
      have hflat : (before.reverse ++ s :: a).flatten =
          (before.reverse.flatten ++ u) ++ slash :: (v ++ a.flatten) := by
        rw [hs]
        simp
      have hlast := lastElements_behind (u := before.reverse.flatten ++ u) (v := v ++ a.flatten) (n := n)
        (by rw [List.count_append]; omega)
      rw [hflat, List.append_nil]
      exact ⟨hlast.1.symm, hlast.2.le⟩
    | inl m =>
      obtain ⟨hm, hpos⟩ := scanBack_inl s.reverse hcount hscan
      rw [List.count_reverse] at hm
      refine ih (s :: a) hpos ?_
      rw [List.flatten_cons, List.count_append]
      omega

theorem trailingNElements_spec (texts : List Bytes) {n : ℕ} (hn : 0 < n) :
    match trailingNElements texts n with
    | some (text, a) => text ++ a.flatten = lastElements n texts.flatten ∧ n ≤ elementCount texts.flatten
    | none => texts = [] ∨ elementCount texts.flatten < n := by
  have h := trailingLoop_spec texts.reverse [] hn (Nat.zero_add n)
  rwa [List.reverse_reverse, List.append_nil] at h

/-! ## Matching -/

theorem slashApart_false (ct : Ctype) : SlashApart ct false := fun _ => Iff.rfl

theorem joined_false (ct : Ctype) (text : Bytes) (a : List Bytes) :
    joined ct false text a = text ++ a.flatten := List.map_id _

/-- The language of a pattern. -/
def patternLang (ct : Ctype) (pattern : Bytes) : Language UInt8 := lang slash (parse ct pattern)

theorem dowild_right (ct : Ctype) (pattern text : Bytes) (a : List Bytes) :
    (dowild ct false pattern text a).Right slash (patternLang ct pattern) (text ++ a.flatten) := by
  rw [dowild_eq (slashApart_false ct), joined_false]
  exact scan_right (parse_legal ct pattern) _

theorem wildmatch_iff (ct : Ctype) (pattern text : Bytes) :
    wildmatch ct pattern text = true ↔ text ∈ patternLang ct pattern := by
  have h := (dowild_right ct pattern text []).iff
  rw [List.flatten_nil, List.append_nil] at h
  rw [wildmatch, decide_eq_true_eq, h]

theorem slashLoop_eq {f : Bytes → List Bytes → Outcome} {g : Bytes → Outcome}
    (hfg : ∀ text a, f text a = g (text ++ a.flatten)) :
    ∀ (a : List Bytes) (text : Bytes), slashLoop f text a = afterSeps slash g (text ++ a.flatten) := by
  have hcons : ∀ (c : UInt8) (text : Bytes) (a : List Bytes),
      slashLoop f text a = afterSeps slash g (text ++ a.flatten) →
      slashLoop f (c :: text) a = afterSeps slash g (c :: text ++ a.flatten) := by
    intro c text a ih
    by_cases hc : c = slash
    · cases hg : g (text ++ a.flatten) with
      | yes => simp [slashLoop, afterSeps, hc, hfg, hg]
      | abortAll => simp [slashLoop, afterSeps, hc, hfg, hg]
      | no => simp [slashLoop, afterSeps, hc, hfg, hg, ih]
      | abortToStarstar => simp [slashLoop, afterSeps, hc, hfg, hg, ih]
    · simp [slashLoop, afterSeps, hc, ih]
  intro a
  induction a with
  | nil =>
    intro text
    induction text with
    | nil => rw [slashLoop]; rfl
    | cons c text ih => exact hcons c text [] ih
  | cons s a ih =>
    intro text
    induction text with
    | nil => rw [slashLoop, ih]; rfl
    | cons c text iht => exact hcons c text (s :: a) iht

theorem wildmatch_eq (ct : Ctype) (pattern text : Bytes) (a : List Bytes) :
    dowild ct false pattern text a = .yes ↔ wildmatch ct pattern (text ++ a.flatten) = true := by
  rw [wildmatch_iff]
  exact (dowild_right ct pattern text a).iff

theorem slashLoop_iff (ct : Ctype) (pattern text : Bytes) (a : List Bytes) :
    slashLoop (dowild ct false pattern) text a = true ↔
      ∃ u v, text ++ a.flatten = u ++ slash :: v ∧ wildmatch ct pattern v = true := by
  have hscan : ∀ text a, dowild ct false pattern text a =
      scan slash (parse ct pattern) (text ++ a.flatten) := by
    intro text a
    rw [dowild_eq (slashApart_false ct), joined_false]
  simp only [wildmatch_iff]
  rw [slashLoop_eq hscan]
  exact afterSeps_eq_true_iff (fun t => scan_right (parse_legal ct pattern) t) _

/-- `wildmatch_array` with no limit to the last elements. -/
theorem wildmatchArray_cons (ct : Ctype) (pattern text : Bytes) (a : List Bytes) {where' : ℤ}
    (hwhere : ¬0 < where') : wildmatchArray ct pattern (text :: a) where' = true ↔
      wildmatch ct pattern (text ++ a.flatten) = true ∨
        where' < 0 ∧ ∃ u v, text ++ a.flatten = u ++ slash :: v ∧ wildmatch ct pattern v = true := by
  have hyes := wildmatch_eq ct pattern text a
  have hright := dowild_right ct pattern text a
  have hloop := slashLoop_iff ct pattern text a
  rw [wildmatchArray, startText, if_neg hwhere]
  dsimp only
  cases hmatched : dowild ct false pattern text a with
  | yes => exact iff_of_true rfl (.inl (hyes.1 hmatched))
  | abortAll =>
    rw [hmatched] at hyes hright
    refine iff_of_false (by simp) ?_
    rintro (h | ⟨-, u, v, heq, hv⟩)
    · cases hyes.2 h
    · rw [wildmatch_iff] at hv
      refine hright v ?_ hv
      rw [heq]
      exact (List.suffix_cons slash v).trans (List.suffix_append u _)
  | no | abortToStarstar =>
    have hnot : ¬wildmatch ct pattern (text ++ a.flatten) = true := by
      intro h
      rw [hmatched] at hyes
      cases hyes.2 h
    dsimp only
    split_ifs with hneg
    · rw [hloop]
      simp [hnot, hneg]
    · simp [hnot, hneg]

/-- **Matching an array.** -/
theorem wildmatchArray_spec (ct : Ctype) (pattern : Bytes) (texts : List Bytes) (where' : ℤ) :
    wildmatchArray ct pattern texts where' = true ↔ texts ≠ [] ∧
      if 0 < where' then where'.toNat ≤ elementCount texts.flatten ∧
        wildmatch ct pattern (lastElements where'.toNat texts.flatten) = true
      else wildmatch ct pattern texts.flatten = true ∨
        where' < 0 ∧ ∃ u v, texts.flatten = u ++ slash :: v ∧ wildmatch ct pattern v = true := by
  split_ifs with hwhere
  · have hspec := trailingNElements_spec texts (n := where'.toNat) (by omega)
    have hstart : startText texts where' = trailingNElements texts where'.toNat := if_pos hwhere
    rw [wildmatchArray, hstart]
    cases hlast : trailingNElements texts where'.toNat with
    | none =>
      rw [hlast] at hspec
      refine iff_of_false (by simp) ?_
      rintro ⟨hne, hle, -⟩
      rcases hspec with h | h
      · exact hne h
      · exact absurd h hle.not_gt
    | some start =>
      obtain ⟨text, a⟩ := start
      rw [hlast] at hspec
      have hyes := wildmatch_eq ct pattern text a
      rw [hspec.1] at hyes
      have hne : texts ≠ [] := by
        rintro rfl
        cases hlast
      have hneg : ¬where' < 0 := by omega
      simp only [if_neg hneg]
      cases hmatched : dowild ct false pattern text a <;> simp [hmatched] at hyes <;>
        simp [hyes, hne, hspec.2]
  · cases texts with
    | nil => simp [wildmatchArray, startText, if_neg hwhere]
    | cons text a =>
      rw [wildmatchArray_cons ct pattern text a hwhere, List.flatten_cons]
      simp

/-- **Wildcard matching.** A text matches when it is in the language of the pattern, in spite of the
    places `dowild` does not try; an array matches by its strings joined, by its last elements where
    there are as many, or by what stands behind a slash. -/
theorem wildmatch_language (ct : Ctype) (pattern : Bytes) :
    (∀ text, wildmatch ct pattern text = true ↔ text ∈ patternLang ct pattern) ∧
      ∀ texts where', wildmatchArray ct pattern texts where' = true ↔ texts ≠ [] ∧
        if 0 < where' then where'.toNat ≤ elementCount texts.flatten ∧
          wildmatch ct pattern (lastElements where'.toNat texts.flatten) = true
        else wildmatch ct pattern texts.flatten = true ∨
          where' < 0 ∧ ∃ u v, texts.flatten = u ++ slash :: v ∧ wildmatch ct pattern v = true :=
  ⟨wildmatch_iff ct pattern, wildmatchArray_spec ct pattern⟩

/-- The character classes of the C locale. -/
def cLocale : Ctype where
  is
    | .alnum, c => 48 ≤ c && c ≤ 57 || 65 ≤ c && c ≤ 90 || 97 ≤ c && c ≤ 122
    | .alpha, c => 65 ≤ c && c ≤ 90 || 97 ≤ c && c ≤ 122
    | .blank, c => c == 9 || c == 32
    | .cntrl, c => c < 32 || c == 127
    | .digit, c => 48 ≤ c && c ≤ 57
    | .graph, c => 33 ≤ c && c ≤ 126
    | .lower, c => 97 ≤ c && c ≤ 122
    | .print, c => 32 ≤ c && c ≤ 126
    | .punct, c => 33 ≤ c && c ≤ 47 || 58 ≤ c && c ≤ 64 || 91 ≤ c && c ≤ 96 || 123 ≤ c && c ≤ 126
    | .space, c => 9 ≤ c && c ≤ 13 || c == 32
    | .upper, c => 65 ≤ c && c ≤ 90
    | .xdigit, c => 48 ≤ c && c ≤ 57 || 65 ≤ c && c ≤ 70 || 97 ≤ c && c ≤ 102
  tolower c := if 65 ≤ c && c ≤ 90 then c + 32 else c

/-- Two elements are asked for, and there is one; and there is no string at all. -/
theorem not_wildmatchArray_short :
    (wildmatchArray cLocale (cstr "a") [cstr "a"] 2 = false ∧
      wildmatch cLocale (cstr "a") (lastElements 2 (cstr "a")) = true) ∧
    wildmatchArray cLocale [] [] 0 = false ∧ wildmatch cLocale [] [] = true := by
  have ha : cstr "a" = [97] := rfl
  have hlast : lastElements 2 [97] = [97] := by decide
  rw [ha, hlast]
  refine ⟨⟨?_, ?_⟩, rfl, ?_⟩
  · rw [Bool.eq_false_iff, ne_eq, wildmatchArray_spec]
    have hcount : elementCount [97] = 1 := by decide
    simp [hcount]
  · rw [wildmatch_iff, patternLang, parse_other _ _ (by decide) (by decide) (by decide) (by decide),
      parse_nil, cons_mem_lang_one]
    exact ⟨rfl, mem_lang_nil.2 rfl⟩
  · rw [wildmatch_iff, patternLang, parse_nil]
    exact mem_lang_nil.2 rfl

end CloudEdgeBackup
