/-
  What a list of filter rules decides (`exclude.c`).

  * `checkFilter` is `check_filter`: the first rule of a list that has an answer for a name decides,
    where a per-directory merge file and a rule of CVS have the answer of their own lists;
  * the rules of the other list decide as the rules of this one that apply to its side
    (`filter_decisions_agree`): the rules of CVS may be sent more than once, but what was asked
    already does not answer later.
-/
import CloudEdgeBackup.RuleExchange

namespace CloudEdgeBackup

/-! ## Decisions -/

/-- What a decision is about: the classes of characters, the directories, the name, whether
    perishable rules are ignored, and the answers of the merge files. -/
structure FilterQuery where
  ct : Ctype
  ctx : FilterContext
  fname : Bytes
  nameFlags : NameFlags
  ignorePerishable : Bool
  merged : Bytes → ℤ

/-- The rule as `rule_matches` takes it. -/
def ListedRule.toFilterRule (r : ListedRule) : FilterRule :=
  ⟨r.pattern, r.rflags.toRuleFlags, r.wildFlags, r.slashCnt⟩

/-- The answer of one rule: `1` for an include, `-1` for an exclude, `0` for none. -/
def ruleAnswer (q : FilterQuery) (cvsAnswer : ℤ) (ent : ListedRule) : ℤ :=
  if q.ignorePerishable && ent.rflags.perishable then 0
  else if ent.rflags.perdirMerge then q.merged ent.pattern
  else if ent.rflags.cvsIgnore then cvsAnswer
  else if ruleMatches q.ct q.ctx q.fname ent.toFilterRule q.nameFlags then
    if ent.rflags.include' then 1 else -1
  else 0

/-- `check_filter` -/
def checkFilter (q : FilterQuery) (cvsAnswer : ℤ) : List ListedRule → ℤ
  | [] => 0
  | ent :: rest =>
    let rc := ruleAnswer q cvsAnswer ent
    if rc ≠ 0 then rc else checkFilter q cvsAnswer rest

section Decisions

variable {q : FilterQuery} {cvsAnswer : ℤ}

theorem checkFilter_cons_of_zero {r : ListedRule} {rules : List ListedRule}
    (h : ruleAnswer q cvsAnswer r = 0) :
    checkFilter q cvsAnswer (r :: rules) = checkFilter q cvsAnswer rules := by
  rw [checkFilter]
  simp [h]

theorem checkFilter_cons_of_ne_zero {r : ListedRule} {rules : List ListedRule}
    (h : ruleAnswer q cvsAnswer r ≠ 0) : checkFilter q cvsAnswer (r :: rules) = ruleAnswer q cvsAnswer r := by
  rw [checkFilter]
  simp [h]

/-- A list has no answer if none of its rules has one. -/
theorem checkFilter_eq_zero {rules : List ListedRule} :
    checkFilter q cvsAnswer rules = 0 ↔ ∀ r ∈ rules, ruleAnswer q cvsAnswer r = 0 := by
  induction rules with
  | nil => simp [checkFilter]
  | cons r rules ih =>
    by_cases h : ruleAnswer q cvsAnswer r = 0
    · rw [checkFilter_cons_of_zero h, ih]
      simp [h]
    · rw [checkFilter_cons_of_ne_zero h]
      simp [h]

/-- The first list decides, if it has an answer. -/
theorem checkFilter_append (rules rules' : List ListedRule) :
    checkFilter q cvsAnswer (rules ++ rules') =
      if checkFilter q cvsAnswer rules = 0 then checkFilter q cvsAnswer rules'
      else checkFilter q cvsAnswer rules := by
  induction rules with
  | nil => simp [checkFilter]
  | cons r rules ih =>
    by_cases h : ruleAnswer q cvsAnswer r = 0
    · rw [List.cons_append, checkFilter_cons_of_zero h, checkFilter_cons_of_zero h, ih]
    · rw [List.cons_append, checkFilter_cons_of_ne_zero h, checkFilter_cons_of_ne_zero h, if_neg h]

theorem checkFilter_congr {f : ListedRule → ListedRule} {rules : List ListedRule}
    (h : ∀ r ∈ rules, ruleAnswer q cvsAnswer (f r) = ruleAnswer q cvsAnswer r) :
    checkFilter q cvsAnswer (rules.map f) = checkFilter q cvsAnswer rules := by
  induction rules with
  | nil => rfl
  | cons r rules ih =>
    rw [List.map_cons, checkFilter, checkFilter, h r List.mem_cons_self,
      ih fun r hr => h r (List.mem_cons_of_mem _ hr)]

/-- The list of rules of CVS has no rule that asks it. -/
theorem checkFilter_simple (cvsAnswer' : ℤ) {rules : List ListedRule} (h : ∀ r ∈ rules, r.Simple) :
    checkFilter q cvsAnswer rules = checkFilter q cvsAnswer' rules := by
  induction rules with
  | nil => rfl
  | cons r rules ih =>
    have hr : ruleAnswer q cvsAnswer r = ruleAnswer q cvsAnswer' r := by
      simp [ruleAnswer, (h r List.mem_cons_self).2]
    rw [checkFilter, checkFilter, hr, ih fun r hr => h r (List.mem_cons_of_mem _ hr)]

/-! ## The rules of the other list -/

variable {o : RuleSession}

/-- A rule has the same answer on the other side, if it is not for xattr names. -/
theorem ruleAnswer_received (hp : 30 ≤ o.protocolVersion) {r : ListedRule} (hx : r.rflags.xattr = false) :
    ruleAnswer q cvsAnswer (r.received o) = ruleAnswer q cvsAnswer r := by
  have hflags : (r.received o).rflags = { r.rflags.sent o with
      senderSide := (senderRule o.deleteExcluded (r.rflags.sent o)).senderSide
      directory := r.rflags.directory } := by
    show { senderRule o.deleteExcluded (r.rflags.sent o) with directory := r.rflags.directory } = _
    rw [senderRule_eq]
  have hperishable : (r.received o).rflags.perishable = r.rflags.perishable := by
    rw [hflags]
    simp [TokenFlags.sent, hp]
  have hperdir : (r.received o).rflags.perdirMerge = r.rflags.perdirMerge := by rw [hflags]; rfl
  have hcvs : (r.received o).rflags.cvsIgnore = r.rflags.cvsIgnore := by rw [hflags]; rfl
  have hinclude : (r.received o).rflags.include' = r.rflags.include' := by rw [hflags]; rfl
  -- `rule_matches` does not look at the side
  have hmatches : ruleMatches q.ct q.ctx q.fname (r.received o).toFilterRule q.nameFlags =
      ruleMatches q.ct q.ctx q.fname r.toFilterRule q.nameFlags := by
    have hrule : (r.received o).toFilterRule = { r.toFilterRule with
        rflags := { r.rflags.toRuleFlags with senderSide := (r.received o).rflags.senderSide } } := by
      show (⟨r.pattern, (r.received o).rflags.toRuleFlags, r.wildFlags, r.slashCnt⟩ : FilterRule) = _
      rw [hflags]
      simp [ListedRule.toFilterRule, TokenFlags.sent, hx]
    rw [hrule]
    rfl
  rw [ruleAnswer, ruleAnswer, hperishable, hperdir, hcvs, hinclude, hmatches]
  rfl

theorem ruleSide_cons (ent : ListedRule) (rules : List ListedRule) (side : Bool) :
    ruleSide o side (ent :: rules) =
      if ent.rflags.appliesTo o.deleteExcluded side then ent :: ruleSide o side rules
      else ruleSide o side rules :=
  List.filter_cons

theorem mem_ruleSide {side : Bool} {rules : List ListedRule} {r : ListedRule} :
    r ∈ ruleSide o side rules ↔ r ∈ rules ∧ r.rflags.appliesTo o.deleteExcluded side = true :=
  List.mem_filter

/-- The rules that are sent decide as those that apply to the other side; what is left of the rules
    of CVS, `cvs`, is all of them or has no answer any more. -/
theorem checkFilter_wireRules {rules cvs : List ListedRule} (hsimple : ∀ r ∈ cvs, r.Simple)
    (hperishable : q.ignorePerishable = true → ∀ r ∈ rules, r.rflags.cvsRule = true →
      r.rflags.perishable = false)
    (hrules : ∀ r ∈ rules, r.Ok)
    (hcvs : o.amSender = true → checkFilter q cvsAnswer (ruleSide o (!o.amSender) cvs) = cvsAnswer) :
    checkFilter q cvsAnswer (wireRules o rules cvs) =
      checkFilter q cvsAnswer (ruleSide o (!o.amSender) rules) := by
  induction rules generalizing cvs with
  | nil => rfl
  | cons ent rules ih =>
    have hperishable' : q.ignorePerishable = true → ∀ r ∈ rules, r.rflags.cvsRule = true →
        r.rflags.perishable = false := fun hq r hr => hperishable hq r (List.mem_cons_of_mem ent hr)
    have hrules' : ∀ r ∈ rules, r.Ok := fun r hr => hrules r (List.mem_cons_of_mem ent hr)
    have hsimple' : ∀ r ∈ ruleSide o o.amSender cvs, r.Simple := fun r hr => hsimple r (mem_ruleSide.1 hr).1
    rw [wireRules, ruleSide_cons]
    by_cases happlies : ent.rflags.appliesTo o.deleteExcluded (!o.amSender) = true
    swap
    · rw [if_neg happlies, if_neg happlies]
      exact ih hsimple hperishable' hrules' hcvs
    rw [if_pos happlies, if_pos happlies]
    by_cases hrule : ent.rflags.cvsRule = true
    swap
    · rw [if_neg hrule, checkFilter, checkFilter, ih hsimple hperishable' hrules' hcvs]
    rw [if_pos hrule]
    cases ham : o.amSender with
    | false =>
      rw [if_neg (by simp), List.singleton_append, checkFilter, checkFilter]
      have hrest := ih hsimple' hperishable' hrules' fun h => absurd h (by simp [ham])
      simp only [ham] at hrest
      rw [hrest]
    | true =>
      obtain ⟨hcvsIgnore, hmerge⟩ := Bool.and_eq_true_iff.1 hrule
      have hperdir : ent.rflags.perdirMerge = false := by
        rw [← (hrules ent List.mem_cons_self).listed.mergeFile]
        simpa using hmerge
      have hasked : (q.ignorePerishable && ent.rflags.perishable) = false := by
        cases hq : q.ignorePerishable with
        | false => rfl
        | true => exact hperishable hq ent List.mem_cons_self hrule
      have hanswer : ruleAnswer q cvsAnswer ent = cvsAnswer := by
        rw [ruleAnswer, hasked, hperdir, hcvsIgnore]
        rfl
      have hall := hcvs ham
      simp only [ham] at hall hsimple' ih ⊢
      rw [if_pos trivial, checkFilter_append, hall]
      by_cases hzero : cvsAnswer = 0
      · -- none of the rules of CVS has an answer, nor has one of those that are left
        rw [if_pos hzero, checkFilter_cons_of_zero (hanswer.trans hzero)]
        refine ih hsimple' hperishable' hrules' fun _ => ?_
        rw [hzero] at hall ⊢
        rw [checkFilter_eq_zero] at hall ⊢
        intro r hr
        obtain ⟨hr, hside⟩ := mem_ruleSide.1 hr
        exact hall r (mem_ruleSide.2 ⟨(mem_ruleSide.1 hr).1, hside⟩)
      · rw [if_neg hzero, checkFilter_cons_of_ne_zero (by rw [hanswer]; exact hzero), hanswer]

end Decisions

end CloudEdgeBackup
