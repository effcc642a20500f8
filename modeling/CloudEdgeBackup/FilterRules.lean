/-
  Filter rules and names (`exclude.c`).

  * `addRule` is `add_rule`: it makes a pattern absolute, counts its slashes and notes which
    wildcards are in it;
  * `ruleMatches` is `rule_matches`: a pattern without wildcards is compared with `strcmp`, by the
    end of the name, or with `litmatch_array`;
  * the language of such a pattern has one word (`mem_patternLang_literal`), and the end of a name
    is its last elements (`endsWith_iff`).
-/
import CloudEdgeBackup.Wildmatch

namespace CloudEdgeBackup

open Wildcards

/-! ## Rules -/

/-- The bits of `rflags` that a rule has before `add_rule`. -/
structure RuleFlags where
  absPath : Bool
  include' : Bool
  directory : Bool
  mergeFile : Bool
  perdirMerge : Bool
  negate : Bool
  senderSide : Bool
  receiverSide : Bool
  xattr : Bool

/-- The bits of `rflags` that `add_rule` sets by the pattern. -/
structure WildFlags where
  wild : Bool
  wild2 : Bool
  wild2Prefix : Bool
  wild3Suffix : Bool

/-- A rule; `slashCnt` has no meaning for a per-directory merge file. -/
structure FilterRule where
  pattern : Bytes
  rflags : RuleFlags
  wildFlags : WildFlags
  slashCnt : ℕ

/-- The flags of the call. -/
structure XFlagBits where
  anchored2Abs : Bool
  absIfSlash : Bool
  dir2Wild3 : Bool

/-- The side, the directory whose rules are read, the length of the module's path and the current
    directory. -/
structure FilterContext where
  amSender : Bool
  dirbuf : Bytes
  moduleDirlen : ℕ
  currDir : Bytes

/-- The rule is for one side only, which is the other one. -/
def OtherSide (ctx : FilterContext) (rflags : RuleFlags) : Bool :=
  if ctx.amSender then rflags.receiverSide && !rflags.senderSide
  else rflags.senderSide && !rflags.receiverSide

/-- The wildcards of a pattern. -/
def wildFlags (pattern : Bytes) : WildFlags :=
  if pattern.any (· ∈ cstr "*[?") then
    if cstr "**" <:+: pattern then
      ⟨true, true, (cstr "**").isPrefixOf pattern, (cstr "***").isSuffixOf pattern⟩
    else ⟨true, false, false, false⟩
  else ⟨false, false, false, false⟩

/-- `add_rule`; `none` where the rule is dropped. -/
def addRule (ctx : FilterContext) (pat : Bytes) (rflags : RuleFlags) (xflags : XFlagBits) :
    Option FilterRule :=
  if (xflags.anchored2Abs || xflags.absIfSlash) && OtherSide ctx rflags then none
  else
    let dirOnly : Bool := 1 < pat.length ∧ pat.getLast? = some slash
    let pat := if dirOnly then pat.dropLast else pat
    let rflags := if dirOnly then { rflags with directory := true } else rflags
    let slashCnt := pat.count slash
    let toAbs : Bool := !(rflags.absPath || rflags.mergeFile) &&
      ((xflags.anchored2Abs || xflags.absIfSlash) && pat.head? = some slash ||
        xflags.absIfSlash && slashCnt ≠ 0)
    let rflags := if toAbs then { rflags with absPath := true } else rflags
    let pre := if toAbs ∧ pat.head? = some slash then
        (ctx.dirbuf.drop ctx.moduleDirlen).take (ctx.dirbuf.length - ctx.moduleDirlen - 1) else []
    let wild3 := xflags.dir2Wild3 && rflags.directory && !rflags.include'
    let rflags := if wild3 then { rflags with directory := false } else rflags
    let pattern := pre ++ pat ++ (if wild3 then cstr "/***" else [])
    some ⟨pattern, rflags, wildFlags pattern,
      slashCnt + pre.count slash + (if wild3 then 1 else 0)⟩

/-! ## Names -/

structure NameFlags where
  isDir : Bool
  isXattr : Bool

/-- What `rule_matches` compares: the name, the strings it is part of, the pattern, and how the
    slashes are handled. -/
structure RuleInput where
  name : Bytes
  strings : List Bytes
  pattern : Bytes
  anchoredMatch : Bool
  slashHandling : ℤ

/-- What to compare with the pattern: the strings, and from where. -/
def joinStrings (ctx : FilterContext) (fname name : Bytes) (ex : FilterRule) (nameFlags : NameFlags) :
    RuleInput :=
  let short : Bool := ex.slashCnt = 0 ∧ ex.wildFlags.wild2 = false
  let name := if short then name.rtakeWhile (· ≠ slash) else name
  let before : List Bytes :=
    if short then []
    else if ex.rflags.absPath ∧ fname.head? ≠ some slash ∧ ctx.moduleDirlen + 1 < ctx.currDir.length then
      [ctx.currDir.drop (ctx.moduleDirlen + 1), [slash]]
    else if ex.wildFlags.wild2Prefix ∧ fname.head? ≠ some slash then [[slash]]
    else []
  let behind : List Bytes := if nameFlags.isDir ∧ ex.wildFlags.wild3Suffix then [[slash]] else []
  let anchored : Bool := ex.pattern.head? = some slash
  { name := name
    strings := before ++ [name] ++ behind
    pattern := if anchored then ex.pattern.tail else ex.pattern
    anchoredMatch := anchored
    slashHandling :=
      if !anchored && ex.slashCnt ≠ 0 && !ex.wildFlags.wild2 then ex.slashCnt + 1
      else if !anchored && !ex.wildFlags.wild2Prefix && ex.wildFlags.wild2 then -1
      else 0 }

/-- The first part of `rule_matches`: what to compare, or the answer. -/
def ruleInput (ctx : FilterContext) (fname : Bytes) (ex : FilterRule) (nameFlags : NameFlags) :
    Bool ⊕ RuleInput :=
  let name := if fname.head? = some slash then fname.tail else fname
  if name = [] then .inl false
  else if nameFlags.isXattr ≠ ex.rflags.xattr then .inl false
  else if !nameFlags.isDir && ex.rflags.directory then .inl ex.rflags.negate
  else .inr (joinStrings ctx fname name ex nameFlags)

/-- The name is the pattern, or ends with it behind a slash. -/
def endsWith (name pattern : Bytes) : Bool :=
  let l1 := name.length
  let l2 := pattern.length
  l2 ≤ l1 ∧ name.drop (l1 - l2) = pattern ∧ (l1 = l2 ∨ name[l1 - (l2 + 1)]? = some slash)

/-- The comparison of `rule_matches`. -/
def matchInput (ct : Ctype) (wild : Bool) (r : RuleInput) : Bool :=
  if wild then wildmatchArray ct r.pattern r.strings r.slashHandling
  else if 1 < r.strings.length then litmatchArray r.pattern r.strings r.slashHandling
  else if r.anchoredMatch then r.name = r.pattern
  else endsWith r.name r.pattern

/-- `rule_matches`, with a way to compare. -/
def ruleMatchesBy (compare : RuleInput → Bool) (ctx : FilterContext) (fname : Bytes) (ex : FilterRule)
    (nameFlags : NameFlags) : Bool :=
  match ruleInput ctx fname ex nameFlags with
  | .inl answer => answer
  | .inr r => if compare r then !ex.rflags.negate else ex.rflags.negate

/-- `rule_matches`. -/
def ruleMatches (ct : Ctype) (ctx : FilterContext) (fname : Bytes) (ex : FilterRule)
    (nameFlags : NameFlags) : Bool :=
  ruleMatchesBy (matchInput ct ex.wildFlags.wild) ctx fname ex nameFlags

/-- The decision by `wildmatch_array`. -/
def ruleMatchesWild (ct : Ctype) (ctx : FilterContext) (fname : Bytes) (ex : FilterRule)
    (nameFlags : NameFlags) : Bool :=
  ruleMatchesBy (fun r => wildmatchArray ct r.pattern r.strings r.slashHandling) ctx fname ex nameFlags

/-! ## Literal patterns -/

/-- No character of the pattern is special. -/
def Literal (pattern : Bytes) : Prop := ∀ c ∈ pattern, c ∉ cstr "*[?\\"

theorem parse_literal (ct : Ctype) {p : Bytes} (hp : Literal p) :
    parse ct p = p.map fun c => .one (· = c) := by
  induction p with
  | nil => exact parse_nil ct
  | cons c p ih =>
    have hc := hp c List.mem_cons_self
    have hne : ∀ d ∈ cstr "*[?\\", c ≠ d := fun d hd heq => hc (heq ▸ hd)
    rw [parse_other ct p (hne _ (by decide)) (hne _ (by decide)) (hne _ (by decide)) (hne _ (by decide)),
      ih fun d hd => hp d (List.mem_cons_of_mem c hd)]
    rfl

/-- A literal pattern stands for itself. -/
theorem wildmatch_literal (ct : Ctype) {p : Bytes} (hp : Literal p) (text : Bytes) :
    wildmatch ct p text = true ↔ text = p := by
  rw [wildmatch_iff, patternLang, parse_literal ct hp]
  clear hp
  induction p generalizing text with
  | nil => exact mem_lang_nil
  | cons c p ih =>
    rw [List.map_cons, mem_lang_one]
    constructor
    · rintro ⟨d, v, rfl, hd, hv⟩
      rw [(ih v).1 hv, of_decide_eq_true hd]
    · rintro rfl
      exact ⟨c, p, rfl, decide_eq_true rfl, (ih p).2 rfl⟩

theorem doliteral_iff (s : Bytes) : ∀ (text : Bytes) (a : List Bytes),
    doliteral s text a = true ↔ text ++ a.flatten = s := by
  induction s with
  | nil =>
    intro text a
    simp [doliteral]
  | cons c s ih =>
    intro text a
    obtain ⟨hnext, hempty⟩ := nextText_spec a text
    rw [doliteral, ← hnext]
    generalize nextText text a = next at *
    obtain ⟨text', a'⟩ := next
    cases text' with
    | nil =>
      obtain rfl : a' = [] := hempty rfl
      simp
    | cons d text' =>
      dsimp only
      split_ifs with hd
      · rw [ih, hd]
        simp
      · simp [hd]

theorem litmatchArray_eq (ct : Ctype) {p : Bytes} (hp : Literal p) (texts : List Bytes) {where' : ℤ}
    (hwhere : 0 ≤ where') : litmatchArray p texts where' = wildmatchArray ct p texts where' := by
  have hneg : ¬where' < 0 := hwhere.not_gt
  rw [litmatchArray, wildmatchArray]
  cases startText texts where' with
  | none => rfl
  | some start =>
    obtain ⟨text, a⟩ := start
    have hyes := (wildmatch_eq ct p text a).trans (wildmatch_literal ct hp _)
    dsimp only
    rw [Bool.eq_iff_iff, doliteral_iff, ← hyes]
    simp only [if_neg hneg]
    cases dowild ct false p text a <;> simp

/-! ## The end of a name -/

theorem endsWith_iff {name p : Bytes} :
    endsWith name p = true ↔ name = p ∨ ∃ u, name = u ++ slash :: p := by
  simp only [endsWith, decide_eq_true_eq]
  constructor
  · rintro ⟨hle, hdrop, hedge⟩
    by_cases hlen : name.length = p.length
    · left
      rw [← hdrop, hlen, Nat.sub_self, List.drop_zero]
    · obtain ⟨hlt, hget⟩ := List.getElem?_eq_some_iff.1 (hedge.resolve_left hlen)
      have hsucc : name.length - p.length = name.length - (p.length + 1) + 1 := by omega
      refine .inr ⟨name.take (name.length - (p.length + 1)), ?_⟩
      calc name = name.take (name.length - (p.length + 1)) ++ name.drop (name.length - (p.length + 1)) :=
            (List.take_append_drop _ _).symm
        _ = _ := by rw [List.drop_eq_getElem_cons hlt, hget, ← hsucc, hdrop]
  · rintro (rfl | ⟨u, rfl⟩)
    · simp
    · have hlen : (u ++ slash :: p).length = u.length + 1 + p.length := by
        simp only [List.length_append, List.length_cons]
        omega
      have hindex : (u ++ slash :: p).length - (p.length + 1) = u.length := by omega
      have hdrop : (u ++ slash :: p).length - p.length = u.length + 1 := by omega
      refine ⟨by omega, ?_, .inr ?_⟩
      · rw [hdrop, ← List.drop_drop, List.drop_left]
        rfl
      · rw [hindex]
        simp

theorem exists_lastElements {name : Bytes} {n : ℕ} (hn : 0 < n) (hlt : n < elementCount name) :
    ∃ u v, name = u ++ slash :: v ∧ v.count slash + 1 = n := by
  rw [elementCount_eq] at hlt
  cases hscan : scanBack name.reverse n [] with
  | inl m =>
    have := scanBack_inl name.reverse hn hscan
    rw [List.count_reverse] at this
    omega
  | inr text =>
    obtain ⟨u, v, hname, -, hv⟩ := scanBack_inr name.reverse hn hscan
    rw [List.reverse_reverse] at hname
    exact ⟨u, v, hname, hv⟩

/-- The last elements of a name, as many as the pattern has, are the pattern exactly where the name
    ends with it behind a slash. -/
theorem lastElements_eq_iff {name p : Bytes} :
    (elementCount p ≤ elementCount name ∧ lastElements (elementCount p) name = p) ↔
      endsWith name p = true := by
  rw [endsWith_iff]
  constructor
  · rintro ⟨hle, hlast⟩
    rcases hle.eq_or_lt with heq | hlt
    · left
      rw [← hlast, heq, lastElements_all rfl]
    · have hpos : 0 < elementCount p := by
        rw [elementCount_eq]
        exact Nat.succ_pos _
      obtain ⟨u, v, rfl, hv⟩ := exists_lastElements hpos hlt
      rw [(lastElements_behind hv).1] at hlast
      exact .inr ⟨u, by rw [hlast]⟩
  · rintro (rfl | ⟨u, rfl⟩)
    · exact ⟨le_rfl, lastElements_all rfl⟩
    · obtain ⟨hlast, hlt⟩ := lastElements_behind (u := u) (elementCount_eq p).symm
      exact ⟨hlt.le, hlast⟩

/-! ## The rules of `add_rule` -/

theorem wildFlags_literal {p : Bytes} (hp : Literal p) : wildFlags p = ⟨false, false, false, false⟩ := by
  rw [wildFlags, if_neg]
  rw [List.any_eq_true]
  rintro ⟨c, hc, hmem⟩
  refine hp c hc ?_
  have hsub : cstr "*[?" ⊆ cstr "*[?\\" := by decide
  exact hsub (of_decide_eq_true hmem)

/-- A rule knows the slashes and the wildcards of its pattern. -/
theorem addRule_spec {ctx : FilterContext} {pat : Bytes} {rflags : RuleFlags} {xflags : XFlagBits}
    {ex : FilterRule} (h : addRule ctx pat rflags xflags = some ex) :
    ex.slashCnt = ex.pattern.count slash ∧ ex.wildFlags = wildFlags ex.pattern := by
  rw [addRule] at h
  split at h
  · cases h
  · obtain rfl := Option.some.inj h
    refine ⟨?_, rfl⟩
    have hsuffix : ∀ b : Bool, (if b then cstr "/***" else []).count slash = if b then 1 else 0 := by
      decide
    dsimp only
    rw [List.count_append, List.count_append, hsuffix]
    omega

/-! ## Decisions -/

/-- What is compared for a rule without wildcards. -/
theorem joinStrings_spec (ctx : FilterContext) (fname name : Bytes) {ex : FilterRule}
    (nameFlags : NameFlags) (hslashes : ex.slashCnt = ex.pattern.count slash)
    (hwild : ex.wildFlags = ⟨false, false, false, false⟩) :
    let r := joinStrings ctx fname name ex nameFlags
    (∀ c ∈ r.pattern, c ∈ ex.pattern) ∧ 0 ≤ r.slashHandling ∧
      (r.strings.length ≤ 1 → r.strings = [r.name]) ∧
      (r.anchoredMatch = true → r.slashHandling = 0) ∧
      (r.anchoredMatch = false → r.slashHandling = 0 ∧ slash ∉ r.name ∨
        r.slashHandling = elementCount r.pattern) := by
  simp only [joinStrings, hwild, Bool.false_eq_true, and_false, false_and, if_false, Bool.and_false,
    Bool.not_false, Bool.and_true, and_true, List.append_nil]
  refine ⟨?_, ?_, ?_, ?_, ?_⟩
  · split_ifs
    · exact fun c hc => List.mem_of_mem_tail hc
    · exact fun c hc => hc
  · split_ifs <;> omega
  · intro hlen
    split_ifs at hlen ⊢
    all_goals first | rfl | (simp at hlen)
  · intro hanchored
    simp [hanchored]
  · intro hanchored
    rw [hanchored]
    by_cases hzero : ex.slashCnt = 0
    · left
      simp only [hzero, decide_true, if_true]
      refine ⟨rfl, fun hmem => ?_⟩
      have := List.mem_rtakeWhile_imp hmem
      simp at this
    · right
      rw [hslashes] at hzero
      simp [hzero, elementCount_eq, hslashes]

/-- **The comparisons of a literal pattern.** -/
theorem matchInput_literal (ct : Ctype) {r : RuleInput} (hp : Literal r.pattern)
    (hpos : 0 ≤ r.slashHandling) (hone : r.strings.length ≤ 1 → r.strings = [r.name])
    (hanchored : r.anchoredMatch = true → r.slashHandling = 0)
    (hfree : r.anchoredMatch = false → r.slashHandling = 0 ∧ slash ∉ r.name ∨
      r.slashHandling = elementCount r.pattern) :
    matchInput ct false r = wildmatchArray ct r.pattern r.strings r.slashHandling := by
  rw [matchInput, if_neg Bool.false_ne_true]
  split_ifs with hlen hanchor
  · exact litmatchArray_eq ct hp _ hpos
  · rw [hone (by omega), hanchored hanchor, Bool.eq_iff_iff, wildmatchArray_spec, List.flatten_singleton,
      decide_eq_true_eq, if_neg (lt_irrefl 0), wildmatch_literal ct hp]
    simp
  · rw [hone (by omega), Bool.eq_iff_iff, wildmatchArray_spec, List.flatten_singleton,
      wildmatch_literal ct hp, wildmatch_literal ct hp]
    rcases hfree (by simpa using hanchor) with ⟨hzero, hslash⟩ | hcount
    · have hnone : ¬∃ u, r.name = u ++ slash :: r.pattern := by
        rintro ⟨u, hname⟩
        exact hslash (hname ▸ by simp)
      rw [hzero, endsWith_iff]
      simp [hnone]
    · have hcpos : 0 < r.slashHandling := by
        rw [hcount, elementCount_eq]
        omega
      rw [if_pos hcpos, hcount, Int.toNat_natCast, ← lastElements_eq_iff]
      simp

/-- **Literal rules decide as wildcards would.** -/
theorem ruleMatches_literal (ct : Ctype) {ctx : FilterContext} {pat : Bytes} {rflags : RuleFlags}
    {xflags : XFlagBits} {ex : FilterRule} (hrule : addRule ctx pat rflags xflags = some ex)
    (hliteral : Literal ex.pattern) (fname : Bytes) (nameFlags : NameFlags) :
    ruleMatches ct ctx fname ex nameFlags = ruleMatchesWild ct ctx fname ex nameFlags := by
  obtain ⟨hslashes, hwild⟩ := addRule_spec hrule
  rw [wildFlags_literal hliteral] at hwild
  rw [ruleMatches, ruleMatchesWild, ruleMatchesBy, ruleMatchesBy]
  cases hinput : ruleInput ctx fname ex nameFlags with
  | inl answer => rfl
  | inr r =>
    have hr : ∃ name, r = joinStrings ctx fname name ex nameFlags := by
      rw [ruleInput] at hinput
      generalize (if fname.head? = some slash then fname.tail else fname) = name at hinput
      split_ifs at hinput
      exact ⟨name, (Sum.inr.inj hinput).symm⟩
    obtain ⟨name, rfl⟩ := hr
    obtain ⟨hpattern, hpos, hone, hanchored, hfree⟩ :=
      joinStrings_spec ctx fname name nameFlags hslashes hwild
    have hmatch := matchInput_literal ct (fun c hc => hliteral c (hpattern c hc)) hpos hone hanchored hfree
    dsimp only
    rw [hwild, hmatch]

/-- The rule `b/c` and the name `a/b/c`. -/
theorem ruleMatches_literal_suffix :
    ruleMatches cLocale ⟨true, cstr "/", 0, cstr "/"⟩ (cstr "a/b/c")
      ⟨cstr "b/c", ⟨false, false, false, false, false, false, true, true, false⟩,
        ⟨false, false, false, false⟩, 1⟩ ⟨false, false⟩ =
    ruleMatchesWild cLocale ⟨true, cstr "/", 0, cstr "/"⟩ (cstr "a/b/c")
      ⟨cstr "b/c", ⟨false, false, false, false, false, false, true, true, false⟩,
        ⟨false, false, false, false⟩, 1⟩ ⟨false, false⟩ := by
  have hrule : addRule ⟨true, cstr "/", 0, cstr "/"⟩ (cstr "b/c")
      ⟨false, false, false, false, false, false, true, true, false⟩ ⟨false, false, false⟩ =
      some ⟨cstr "b/c", ⟨false, false, false, false, false, false, true, true, false⟩,
        ⟨false, false, false, false⟩, 1⟩ := by rfl
  have hliteral : Literal (cstr "b/c") := by
    intro c hc
    have hc : c ∈ ([98, 47, 99] : Bytes) := hc
    simp only [List.mem_cons, List.not_mem_nil, or_false] at hc
    rcases hc with rfl | rfl | rfl <;> decide
  exact ruleMatches_literal cLocale hrule hliteral (cstr "a/b/c") ⟨false, false⟩

end CloudEdgeBackup
