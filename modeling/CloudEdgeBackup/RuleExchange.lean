/-
  The rules of the two ends (`exclude.c`).

  * every rule that the options of the client give is one that a prefix can say all of but the
    xattr bit (`parseRuleOptions_ok`): the invariant of the parsers, over all texts and files;
  * a rule that is sent comes back as the last rule of the other list (`parseFilterStr_line`);
  * so the two ends have, in the order of the client, the rules that apply to them
    (`filter_rules_exchanged`).
-/
import CloudEdgeBackup.RuleLists

namespace CloudEdgeBackup

open Codec

/-! ## Rules that can be sent -/

/-- A rule as the parsers leave it in a list. -/
structure ListedRule.Ok (r : ListedRule) : Prop where
  listed : r.rflags.Listed
  noNul : 0 ∉ r.pattern
  directory : r.rflags.directory = true → r.pattern ≠ []
  plain : r.rflags.directory = false → 1 < r.pattern.length → r.pattern.getLast? ≠ some slash
  wild : r.wildFlags = CloudEdgeBackup.wildFlags r.pattern
  slashes : r.slashCnt = r.pattern.count slash

/-- Neither a merge file nor a rule of CVS. -/
def ListedRule.Simple (r : ListedRule) : Prop :=
  r.rflags.perdirMerge = false ∧ r.rflags.cvsIgnore = false

/-- The lists are well formed; with `simple`, the first one has simple rules only. -/
structure RuleLists.Ok (simple : Prop) (l : RuleLists) : Prop where
  rules : ∀ r ∈ l.rules, r.Ok
  simple : simple → ∀ r ∈ l.rules, r.Simple
  merges : l.rules.Pairwise fun a b =>
    a.rflags.perdirMerge = true → b.rflags.perdirMerge = true → mergeBase a.pattern ≠ mergeBase b.pattern
  cvs : ∀ r ∈ l.cvs, r.Ok ∧ r.Simple

theorem RuleLists.ok_nil (simple : Prop) (cvsRead : Bool) : (⟨[], [], cvsRead⟩ : RuleLists).Ok simple where
  rules := by simp
  simple := by simp
  merges := .nil
  cvs := by simp

/-- The flags of a call on the client: `add_rule` makes nothing absolute. -/
def TokenXFlags.Client (xflags : TokenXFlags) : Prop := xflags.toXFlagBits = TokenXFlags.none.toXFlagBits

section Add

variable {ctx : FilterContext}

/-- The pattern without the slash at its end, which is a bit. -/
def stripSlash (pat : Bytes) : Bytes :=
  if 1 < pat.length ∧ pat.getLast? = some slash then pat.dropLast else pat

/-- `add_rule` on the client, where nothing is made absolute. -/
theorem addListed_client {pat : Bytes} {rflags : TokenFlags} {list : List ListedRule} :
    addListed ctx TokenXFlags.none.toXFlagBits pat rflags list =
      if rflags.perdirMerge && Mentioned list (stripSlash pat) then list
      else list ++ [⟨stripSlash pat, { rflags with
          directory := decide (1 < pat.length ∧ pat.getLast? = some slash) || rflags.directory },
        wildFlags (stripSlash pat), (stripSlash pat).count slash⟩] := by
  rw [addListed]
  by_cases hdir : 1 < pat.length ∧ pat.getLast? = some slash
  · simp [addRule, stripSlash, TokenXFlags.none, hdir]
  · simp [addRule, stripSlash, TokenXFlags.none, hdir]

theorem stripSlash_length (pat : Bytes) :
    (stripSlash pat).length + (if 1 < pat.length ∧ pat.getLast? = some slash then 1 else 0) = pat.length := by
  unfold stripSlash
  split_ifs with h
  · rw [List.length_dropLast]
    omega
  · rfl

theorem mem_of_mem_stripSlash {pat : Bytes} {b : UInt8} (h : b ∈ stripSlash pat) : b ∈ pat := by
  unfold stripSlash at h
  split_ifs at h
  · exact List.mem_of_mem_dropLast h
  · exact h

/-- A rule that fits is added as a rule that can be sent. -/
theorem ok_listed {pat : Bytes} {rflags : TokenFlags} (hlisted : rflags.Listed) (hnul : 0 ∉ pat)
    (hdir : rflags.directory = true → pat ≠ []) :
    (⟨stripSlash pat, { rflags with
        directory := decide (1 < pat.length ∧ pat.getLast? = some slash) || rflags.directory },
      wildFlags (stripSlash pat), (stripSlash pat).count slash⟩ : ListedRule).Ok where
  listed := { hlisted with }
  noNul h := hnul (mem_of_mem_stripSlash h)
  directory h hnil := by
    have hnil : stripSlash pat = [] := hnil
    have hstrip := stripSlash_length pat
    by_cases hcut : 1 < pat.length ∧ pat.getLast? = some slash
    · rw [if_pos hcut, hnil, List.length_nil] at hstrip
      omega
    · rw [stripSlash, if_neg hcut] at hnil
      exact hdir (by simpa [hcut] using h) hnil
  plain h hlen hlast := by
    by_cases hcut : 1 < pat.length ∧ pat.getLast? = some slash
    · simp [hcut] at h
    · rw [stripSlash, if_neg hcut] at hlen hlast
      exact hcut ⟨hlen, hlast⟩
  wild := rfl
  slashes := rfl

theorem RuleLists.Ok.add {simple : Prop} {l : RuleLists} (h : l.Ok simple) {pat : Bytes} {rflags : TokenFlags}
    (hlisted : rflags.Listed) (hnul : 0 ∉ pat)
    (hdir : rflags.directory = true → pat ≠ [])
    (hsimple : simple → rflags.perdirMerge = false ∧ rflags.cvsIgnore = false) :
    { l with rules := addListed ctx TokenXFlags.none.toXFlagBits pat rflags l.rules }.Ok simple := by
  rw [addListed_client]
  split_ifs with hmentioned
  · exact h
  refine ⟨fun r hr => ?_, fun hs r hr => ?_, ?_, h.cvs⟩
  · rcases List.mem_append.1 hr with hr | hr
    · exact h.rules r hr
    · rw [List.mem_singleton.1 hr]
      exact ok_listed hlisted hnul hdir
  · rcases List.mem_append.1 hr with hr | hr
    · exact h.simple hs r hr
    · rw [List.mem_singleton.1 hr]
      exact hsimple hs
  · refine List.pairwise_append.2 ⟨h.merges, List.pairwise_singleton _ _, fun a ha b hb hperdir hnew heq => ?_⟩
    obtain rfl := List.mem_singleton.1 hb
    refine hmentioned (Bool.and_eq_true_iff.2 ⟨hnew, List.any_eq_true.2 ⟨a, ha, ?_⟩⟩)
    rw [hperdir, Bool.true_and]
    exact decide_eq_true heq

end Add

/-! ## What the options build -/

section Build

variable {files : FilterFiles} {o : RuleSession} {ctx : FilterContext}

/-- What a parser of a text keeps: for simple rules the template has no prefixes. -/
def ParserKeeps (parse : TokenFlags → TokenXFlags → Bytes → RuleLists → Except FilterExit RuleLists) : Prop :=
  ∀ {simple : Prop} {template xflags text} {l l' : RuleLists}, l.Ok simple →
    template.TemplateOk xflags.oldPrefixes → (simple → template.noPrefixes = true) → xflags.Client →
    parse template xflags text l = .ok l' → l'.Ok simple

variable {parse : TokenFlags → TokenXFlags → Bytes → RuleLists → Except FilterExit RuleLists}

theorem ParserKeeps.parseFilterFile (hparse : ParserKeeps parse) {simple : Prop} {template : TokenFlags}
    {xflags : TokenXFlags} {text : Option Bytes} {l l' : RuleLists} (hl : l.Ok simple)
    (ht : template.TemplateOk xflags.oldPrefixes) (hsimple : simple → template.noPrefixes = true)
    (hx : xflags.Client) (h : parseFilterFile files parse template xflags text l = .ok l') : l'.Ok simple := by
  cases text with
  | none =>
    rw [CloudEdgeBackup.parseFilterFile] at h
    split_ifs at h
    rw [← Except.ok.inj h]
    exact hl
  | some text =>
    rw [CloudEdgeBackup.parseFilterFile] at h
    generalize filterLines files.eolNulls template.wordSplit text = lines at h
    induction lines generalizing l with
    | nil =>
      rw [← Except.ok.inj h]
      exact hl
    | cons line lines ih =>
      obtain ⟨l₁, h₁, h⟩ := except_bind_eq_ok.1 h
      exact ih (hparse hl ht hsimple hx h₁) h

/-- The rules of CVS are simple: their template has no prefixes. -/
theorem ParserKeeps.getCvsExcludes (hparse : ParserKeeps parse) {simple : Prop} {rflags : TokenFlags}
    {l l' : RuleLists}
    (hl : l.Ok simple) (hflags : rflags.noPrefixes = true)
    (h : getCvsExcludes files o parse rflags l = .ok l') : l'.Ok simple := by
  rw [CloudEdgeBackup.getCvsExcludes] at h
  split_ifs at h
  · rw [← Except.ok.inj h]
    exact hl
  obtain ⟨c₁, h₁, h⟩ := except_bind_eq_ok.1 h
  obtain ⟨c₂, h₂, h⟩ := except_bind_eq_ok.1 h
  have hc₁ : c₁.Ok True := hparse (RuleLists.ok_nil True true) (.inl (by exact hflags))
    (fun _ => by exact hflags) (by rfl) h₁
  have hc₂ : c₂.Ok True := hparse.parseFilterFile hc₁ (.inl hflags) (fun _ => hflags) (by rfl) h₂
  have hfinish : ∀ c : RuleLists, c.Ok True → { l with cvs := c.rules, cvsRead := true }.Ok simple :=
    fun c hc => ⟨hl.rules, hl.simple, hl.merges, fun r hr => ⟨hc.rules r hr, hc.simple trivial r hr⟩⟩
  cases hignore : files.envIgnore with
  | none =>
    rw [hignore] at h
    rw [← Except.ok.inj h]
    exact hfinish c₂ hc₂
  | some text =>
    rw [hignore] at h
    obtain ⟨c₃, h₃, h⟩ := except_bind_eq_ok.1 h
    rw [← Except.ok.inj h]
    exact hfinish c₃ (hparse hc₂ (.inl hflags) (fun _ => hflags) (by rfl) h₃)

theorem listed_none : TokenFlags.none.Listed where
  clearList := rfl
  excludeSelf := rfl
  mergeFile := rfl
  finishSetup := rfl
  negate _ := rfl
  cvs h := absurd h (by simp [TokenFlags.none])
  plain _ _ := ⟨rfl, rfl, rfl⟩
  merge_include h := absurd h (by simp [TokenFlags.none])

/-- A rule that was parsed is one for a list, if it is no merge file to read at once. -/
theorem TokenFlags.Prefixed.listed {r : TokenFlags} (hr : r.Prefixed) (hclear : r.clearList = false)
    (hmerge : r.mergeFile = r.perdirMerge) : { r with excludeSelf := false }.Listed where
  clearList := hclear
  excludeSelf := rfl
  mergeFile := hmerge
  finishSetup := hr.finishSetup
  negate h := (hr.merge (hr.perdirMerge h)).1
  cvs := hr.cvs
  plain h := hr.plain (hmerge.trans h)
  merge_include h := hr.merge_include (hr.perdirMerge h)

theorem ParserKeeps.takeRule (hparse : ParserKeeps parse) {simple : Prop} {template : TokenFlags}
    {xflags : TokenXFlags} {text : Bytes} {rule : ParsedRule} {l l' : RuleLists} (hl : l.Ok simple)
    (hrule : rule.Ok template xflags.oldPrefixes text) (hnul : 0 ∉ text)
    (ht : template.TemplateOk xflags.oldPrefixes)
    (hsimple : simple → template.noPrefixes = true) (hx : xflags.Client)
    (h : takeRule files o ctx parse xflags rule l = .ok l') : l'.Ok simple := by
  have hr := hrule.prefixed
  have hpat : 0 ∉ rule.pat := fun hb => hnul (hrule.mem_pat 0 hb)
  have hplain : simple → rule.rflags.mergeFile = false ∧ rule.rflags.cvsIgnore = false := fun hs =>
    hrule.plain (.inl (hsimple hs))
  rw [CloudEdgeBackup.takeRule, show xflags.toXFlagBits = TokenXFlags.none.toXFlagBits from hx] at h
  dsimp only at h
  by_cases hlong : maxPathLen ≤ rule.pat.length
  · rw [if_pos hlong] at h
    rw [← Except.ok.inj h]
    exact hl
  rw [if_neg hlong] at h
  by_cases hclear : rule.rflags.clearList = true
  · rw [if_pos hclear] at h
    rw [← Except.ok.inj h]
    exact ⟨by simp, by simp, .nil, hl.cvs⟩
  rw [if_neg hclear] at h
  have hclear : rule.rflags.clearList = false := by simpa using hclear
  have hlength := hrule.length hclear
  by_cases hmerge : rule.rflags.mergeFile = true
  · have hnotSimple : ¬simple := fun hs => by simp [(hplain hs).1] at hmerge
    have hmode : ¬(template.noPrefixes = true ∨ xflags.oldPrefixes = true) := fun hm => by
      simp [(hrule.plain hm).1] at hmerge
    obtain ⟨hnegate, hdirectory⟩ := hr.merge hmerge
    rw [if_pos hmerge] at h
    have hname : (0 : UInt8) ∉ (if rule.pat = [] then cstr ".cvsignore" else rule.pat) := by
      split_ifs
      · decide
      · exact hpat
    generalize (if rule.pat = [] then cstr ".cvsignore" else rule.pat) = pat at h hname
    -- the merge file itself is excluded by its name
    generalize hl₁ : (if rule.rflags.excludeSelf = true then
      ({ l with rules := addListed ctx TokenXFlags.none.toXFlagBits (mergeBase pat) .none l.rules } : RuleLists)
      else l) = l₁ at h
    have hok₁ : l₁.Ok simple := by
      rw [← hl₁]
      split_ifs
      · exact hl.add listed_none (fun hb => hname ((List.rtakeWhile_suffix _ _).subset hb))
          (fun hd => absurd hd (by simp [TokenFlags.none])) fun hs => absurd hs hnotSimple
      · exact hl
    by_cases hperdir : rule.rflags.perdirMerge = true
    · rw [if_pos hperdir] at h
      rw [← Except.ok.inj h]
      exact hok₁.add (hr.listed hclear (hmerge.trans hperdir.symm)) hname
        (fun hd => absurd hd (by simp [hdirectory])) fun hs => absurd hs hnotSimple
    · rw [if_neg hperdir] at h
      cases hfname : files.mergeName pat with
      | none =>
        rw [hfname] at h
        rw [← Except.ok.inj h]
        exact hok₁
      | some fname =>
        rw [hfname] at h
        refine hparse.parseFilterFile hok₁ ?_ (fun hs => absurd hs hnotSimple) (by rfl) h
        by_cases hinclude : rule.rflags.include' = true
        · exact .inl (hr.merge_include hmerge hinclude).1
        · exact .inr (.inr ⟨by simpa using hinclude, hnegate, hdirectory⟩)
  · have hmerge : rule.rflags.mergeFile = false := by simpa using hmerge
    have hperdir : rule.rflags.perdirMerge = false := by
      by_contra hp
      simp [hr.perdirMerge (by simpa using hp)] at hmerge
    have hself : rule.rflags.excludeSelf = false := by
      by_contra hs
      simp [hr.excludeSelf (by simpa using hs)] at hmerge
    have hlisted : rule.rflags.Listed := by
      have := hr.listed hclear (hmerge.trans hperdir.symm)
      exact { this with excludeSelf := hself }
    have hdirectory : rule.rflags.directory = true → rule.pat ≠ [] := fun hd =>
      hlength.resolve_right fun hcvs => by
        have hmode : ¬(template.noPrefixes = true ∨ xflags.oldPrefixes = true) := fun hm => by
          simp [(hrule.plain hm).2] at hcvs
        obtain ⟨-, -, hfalse⟩ :=
          (ht.resolve_left fun hm => hmode (.inl hm)).resolve_left fun hm => hmode (.inr hm)
        simp [hrule.directory, hfalse] at hd
    have hok : { l with
        rules := addListed ctx TokenXFlags.none.toXFlagBits rule.pat rule.rflags l.rules }.Ok simple :=
      hl.add hlisted hpat hdirectory fun hs => ⟨hperdir, (hplain hs).2⟩
    rw [if_neg (by simp [hmerge])] at h
    by_cases hcvs : rule.rflags.cvsIgnore = true
    · rw [if_pos hcvs] at h
      exact hparse.getCvsExcludes hok (hr.cvs hcvs).1 h
    · rw [if_neg hcvs] at h
      rw [← Except.ok.inj h]
      exact hok

/-- **The invariant of the parsers.** -/
theorem keeps_parseFilterStr (fuel : ℕ) : ParserKeeps (parseFilterStr files o ctx fuel) := by
  induction fuel with
  | zero => exact fun _ _ _ _ h => absurd h (by simp [parseFilterStr])
  | succ fuel ih =>
    intro simple template xflags text l l' hl ht hsimple hx h
    rw [parseFilterStr] at h
    have hnul : (0 : UInt8) ∉ text.takeWhile (· ≠ 0) := fun hmem => by
      simpa using List.mem_takeWhile_imp hmem
    generalize text.takeWhile (· ≠ 0) = text at h hnul
    cases htok : parseRuleTok o.deleteExcluded template xflags.oldPrefixes text with
    | error e => simp [htok] at h
    | ok found =>
      rw [htok] at h
      cases found with
      | none =>
        rw [← Except.ok.inj h]
        exact hl
      | some rule =>
        obtain ⟨l₁, h₁, h⟩ := except_bind_eq_ok.1 h
        exact ih (ih.takeRule hl (parseRuleTok_spec ht htok) hnul ht hsimple hx h₁) ht hsimple hx h

theorem parseRuleOption_ok {fuel : ℕ} {option : RuleOption} {l l' : RuleLists} (hl : l.Ok False)
    (h : parseRuleOption files o ctx fuel l option = .ok l') : l'.Ok False := by
  have hkeeps : ParserKeeps (parseFilterStr files o ctx fuel) := keeps_parseFilterStr fuel
  cases option with
  | filter text => exact hkeeps hl (.inr (.inr ⟨rfl, rfl, rfl⟩)) False.elim (by rfl) h
  | exclude text => exact hkeeps hl (.inr (.inl (by rfl))) False.elim (by rfl) h
  | include' text => exact hkeeps hl (.inr (.inl (by rfl))) False.elim (by rfl) h
  | excludeFrom fname => exact hkeeps.parseFilterFile hl (.inr (.inl (by rfl))) False.elim (by rfl) h
  | includeFrom fname => exact hkeeps.parseFilterFile hl (.inr (.inl (by rfl))) False.elim (by rfl) h
  | partialDir dir perishable => exact hkeeps hl (.inl rfl) False.elim (by rfl) h

/-- **Every list the options build is well formed.** -/
theorem parseRuleOptions_ok {fuel : ℕ} {options : List RuleOption} {l : RuleLists}
    (h : parseRuleOptions files o ctx fuel options = .ok l) : l.Ok False := by
  have hstart := RuleLists.ok_nil False false
  rw [parseRuleOptions] at h
  generalize (⟨[], [], false⟩ : RuleLists) = start at h hstart
  induction options generalizing start with
  | nil =>
    rw [← Except.ok.inj h]
    exact hstart
  | cons option options ih =>
    obtain ⟨l₁, h₁, h⟩ := except_bind_eq_ok.1 h
    exact ih l₁ h (parseRuleOption_ok hstart h₁)

end Build

/-! ## One rule on the wire -/

/-- The rule applies to the side: with `--delete-excluded`, one without a side applies to the sender
    only, unless it is a per-directory merge file that may have rules with prefixes. -/
def TokenFlags.appliesTo (deleteExcluded sender : Bool) (r : TokenFlags) : Bool :=
  if sender then r.senderSide || !r.receiverSide
  else r.receiverSide || !(r.senderSide || deleteExcluded && (!r.perdirMerge || r.noPrefixes))

theorem elide_neg (o : RuleSession) (r : TokenFlags) :
    elide o r < 0 ↔ r.appliesTo o.deleteExcluded o.amSender = false := by
  unfold elide TokenFlags.appliesTo
  cases o.amSender <;> cases r.senderSide <;> cases r.receiverSide <;> cases o.deleteExcluded <;>
    cases r.perdirMerge <;> cases r.noPrefixes <;> simp

theorem elide_pos (o : RuleSession) (r : TokenFlags) :
    0 < elide o r ↔ r.appliesTo o.deleteExcluded (!o.amSender) = false := by
  unfold elide TokenFlags.appliesTo
  cases o.amSender <;> cases r.senderSide <;> cases r.receiverSide <;> cases o.deleteExcluded <;>
    cases r.perdirMerge <;> cases r.noPrefixes <;> simp

/-- The rule as the other side has it: without the xattr bit, and with the side that
    `--delete-excluded` gives it. -/
def ListedRule.received (o : RuleSession) (r : ListedRule) : ListedRule :=
  { r with rflags := { senderRule o.deleteExcluded (r.rflags.sent o) with directory := r.rflags.directory } }

/-- The rule fits in a line, and there is something to match. -/
def ListedRule.Sendable (r : ListedRule) : Prop :=
  r.pattern.length + (if r.rflags.directory then 1 else 0) < maxPathLen ∧
    (r.pattern ≠ [] ∨ r.rflags.cvsRule = true)

/-- The text of the rule behind its prefix. -/
def ListedRule.text (r : ListedRule) : Bytes := r.pattern ++ bitLetter r.rflags.directory '/'

/-- What `send_rules` writes for a rule. -/
def wireLine (o : RuleSession) (r : ListedRule) : Bytes :=
  let line := (getRulePrefix o r.rflags r.pattern true).getD [] ++ r.text
  writeInt line.length ++ line

theorem ListedRule.Ok.strip {r : ListedRule} (hr : r.Ok) :
    stripSlash r.text = r.pattern ∧
      decide (1 < r.text.length ∧ r.text.getLast? = some slash) = r.rflags.directory := by
  unfold ListedRule.text stripSlash
  cases hdir : r.rflags.directory with
  | true =>
    have hlen : 0 < r.pattern.length := List.length_pos_iff.2 (hr.directory hdir)
    have hcut : 1 < (r.pattern ++ bitLetter true '/').length ∧
        (r.pattern ++ bitLetter true '/').getLast? = some slash := by
      refine ⟨by simpa [bitLetter_true] using hlen, ?_⟩
      rw [bitLetter_true, List.getLast?_concat]
      rfl
    rw [if_pos hcut, decide_eq_true hcut]
    exact ⟨by rw [bitLetter_true, List.dropLast_concat], rfl⟩
  | false =>
    have hcut : ¬(1 < r.pattern.length ∧ r.pattern.getLast? = some slash) := fun h =>
      hr.plain hdir h.1 h.2
    rw [bitLetter_false, List.append_nil, if_neg hcut, decide_eq_false hcut]
    exact ⟨rfl, rfl⟩

section Line

variable {files : FilterFiles} {o so : RuleSession} {ctx : FilterContext} {fuel : ℕ} {r : ListedRule}
  {l : RuleLists} {xflags : TokenXFlags} {pre : Bytes}

theorem parseFilterStr_nil (files : FilterFiles) (so : RuleSession) (ctx : FilterContext) (fuel : ℕ)
    (xflags : TokenXFlags) (l : RuleLists) :
    parseFilterStr files so ctx (fuel + 1) .none xflags [] l = .ok l := by
  rw [parseFilterStr]
  rfl

/-- The rule is added at the end of the other list. -/
theorem addListed_received (o : RuleSession) (ctx : FilterContext) (hr : r.Ok)
    (hmentioned : r.rflags.perdirMerge = true → Mentioned l.rules r.pattern = false) :
    addListed ctx TokenXFlags.none.toXFlagBits r.text (senderRule o.deleteExcluded (r.rflags.sent o)) l.rules =
      l.rules ++ [r.received o] := by
  obtain ⟨hstrip, hdir⟩ := hr.strip
  have hperdir : (senderRule o.deleteExcluded (r.rflags.sent o)).perdirMerge = r.rflags.perdirMerge := by
    rw [senderRule_eq]
    rfl
  have hdirectory : (senderRule o.deleteExcluded (r.rflags.sent o)).directory = false := by
    rw [senderRule_eq]
    rfl
  have hnew : ¬(r.rflags.perdirMerge && Mentioned l.rules r.pattern) = true := by
    intro h
    obtain ⟨hp, hm⟩ := Bool.and_eq_true_iff.1 h
    simp [hmentioned hp] at hm
  rw [addListed_client, hstrip, hdir, if_neg (by rw [hperdir]; exact hnew), hdirectory, Bool.or_false,
    ListedRule.received, hr.wild, hr.slashes]

/-- **A rule that is sent becomes the last rule of the other list**; a rule of CVS makes the other
    side read the rules of CVS there. -/
theorem parseFilterStr_line (files : FilterFiles) (ctx : FilterContext) (fuel : ℕ)
    (hp : 29 ≤ o.protocolVersion) (hdel : so.deleteExcluded = o.deleteExcluded)
    (hx : xflags = .none) (hr : r.Ok) (hsend : r.Sendable)
    (hpre : getRulePrefix o r.rflags r.pattern true = some pre)
    (hmentioned : r.rflags.perdirMerge = true → Mentioned l.rules r.pattern = false) :
    parseFilterStr files so ctx (fuel + 2) .none xflags (pre ++ r.text) l =
      if r.rflags.cvsRule then
        getCvsExcludes files so (parseFilterStr files so ctx (fuel + 1))
          (senderRule o.deleteExcluded (r.rflags.sent o)) { l with rules := l.rules ++ [r.received o] }
      else .ok { l with rules := l.rules ++ [r.received o] } := by
  subst hx
  obtain ⟨hlen, hne⟩ := hsend
  have hnul : (0 : UInt8) ∉ pre ++ r.text := by
    rw [ListedRule.text]
    simp only [List.mem_append, not_or]
    exact ⟨nul_notMem_pre hp hpre, hr.noNul, notMem_bitLetter _ (by decide)⟩
  have hline : (pre ++ r.text).takeWhile (· ≠ 0) = pre ++ r.text :=
    List.takeWhile_eq_self_iff.2 fun b hb => decide_eq_true fun h0 => hnul (h0 ▸ hb)
  have htext : r.text ≠ [] ∨ r.rflags.cvsIgnore = true := by
    rcases hne with hne | hne
    · exact .inl (by simp [ListedRule.text, hne])
    · exact .inr (Bool.and_eq_true_iff.1 hne).1
  have hlength : r.text.length < maxPathLen := by
    rw [ListedRule.text, List.length_append]
    cases hdir : r.rflags.directory
    all_goals simpa [hdir, bitLetter_true, bitLetter_false] using hlen
  have hflags := senderRule_eq o.deleteExcluded (r.rflags.sent o)
  rw [parseFilterStr, hline, hdel]
  have hold : TokenXFlags.none.oldPrefixes = false := rfl
  rw [hold, parseRuleTok_prefix o.deleteExcluded hp hr.listed hpre htext]
  have hadd := addListed_received o ctx hr hmentioned
  generalize hrflags : senderRule o.deleteExcluded (r.rflags.sent o) = rflags at *
  have htake : takeRule files so ctx (parseFilterStr files so ctx (fuel + 1)) .none ⟨rflags, r.text, []⟩ l =
      if r.rflags.cvsRule then
        getCvsExcludes files so (parseFilterStr files so ctx (fuel + 1)) rflags
          { l with rules := l.rules ++ [r.received o] }
      else .ok { l with rules := l.rules ++ [r.received o] } := by
    have hclear : rflags.clearList = false := by
      rw [hflags]
      exact hr.listed.clearList
    have hself : rflags.excludeSelf = false := by
      rw [hflags]
      exact hr.listed.excludeSelf
    have hmerge : rflags.mergeFile = r.rflags.mergeFile := by
      rw [hflags]
      rfl
    have hperdir : rflags.perdirMerge = r.rflags.perdirMerge := by
      rw [hflags]
      rfl
    have hcvs : rflags.cvsIgnore = r.rflags.cvsIgnore := by
      rw [hflags]
      rfl
    rw [takeRule]
    dsimp only
    rw [if_neg (by omega), if_neg (by simp [hclear])]
    cases hm : r.rflags.mergeFile with
    | true =>
      have hperdir' : r.rflags.perdirMerge = true := hr.listed.mergeFile.symm.trans hm
      have hpat : r.text ≠ [] := by
        rcases hne with hne | hne
        · simp [ListedRule.text, hne]
        · simp [TokenFlags.cvsRule, hm] at hne
      have hsame : { rflags with excludeSelf := false } = rflags := by rw [← hself]
      have hcvsRule : r.rflags.cvsRule = false := by simp [TokenFlags.cvsRule, hm]
      rw [if_pos (hmerge.trans hm), if_neg hpat, hcvsRule]
      simp only [hsame, hself, hperdir.trans hperdir', Bool.false_eq_true, if_false, if_true, hadd]
    | false =>
      have hcvsRule : r.rflags.cvsRule = r.rflags.cvsIgnore := by simp [TokenFlags.cvsRule, hm]
      rw [if_neg (by simp [hmerge, hm]), hadd, hcvs, hcvsRule]
  show (takeRule files so ctx (parseFilterStr files so ctx (fuel + 1)) .none ⟨rflags, r.text, []⟩ l >>= fun l =>
    parseFilterStr files so ctx (fuel + 1) .none .none [] l) = _
  rw [htake]
  split_ifs
  · cases getCvsExcludes files so (parseFilterStr files so ctx (fuel + 1)) rflags
      { l with rules := l.rules ++ [r.received o] } with
    | error e => rfl
    | ok l' => exact parseFilterStr_nil files so ctx fuel .none _
  · exact parseFilterStr_nil files so ctx fuel .none _

end Line

/-! ## What is sent -/

/-- The rules that apply to the side. -/
def ruleSide (o : RuleSession) (sender : Bool) (rules : List ListedRule) : List ListedRule :=
  rules.filter fun r => r.rflags.appliesTo o.deleteExcluded sender

/-- The rules that are sent: those that apply to the other side, where the sender has the rules of
    CVS in the place of the rule that stands for them. -/
def wireRules (o : RuleSession) : List ListedRule → List ListedRule → List ListedRule
  | [], _ => []
  | r :: rest, cvs =>
    if r.rflags.appliesTo o.deleteExcluded !o.amSender then
      if r.rflags.cvsRule then
        (if o.amSender then ruleSide o (!o.amSender) cvs else [r]) ++
          wireRules o rest (ruleSide o o.amSender cvs)
      else r :: wireRules o rest cvs
    else wireRules o rest cvs

/-- The bytes are those of the rules, each of which has a prefix. -/
def WrittenRules (o : RuleSession) (out : Bool) (sent : List ListedRule) (bytes : Bytes) : Prop :=
  (∀ r ∈ sent, (getRulePrefix o r.rflags r.pattern true).isSome = true) ∧
    bytes = if out then sent.flatMap (wireLine o) else []

section Send

variable {o : RuleSession} {out : Bool} {ent : ListedRule} {rules cvs cvs' kept sent sent' : List ListedRule}
  {bytes bytes' : Bytes} {inner : Bool → List ListedRule → Except FilterExit (List ListedRule × Bytes)}

theorem WrittenRules.nil (o : RuleSession) (out : Bool) : WrittenRules o out [] [] :=
  ⟨by simp, by cases out <;> rfl⟩

theorem WrittenRules.append (h : WrittenRules o out sent bytes) (h' : WrittenRules o out sent' bytes') :
    WrittenRules o out (sent ++ sent') (bytes ++ bytes') := by
  refine ⟨fun r hr => (List.mem_append.1 hr).elim (h.1 r) (h'.1 r), ?_⟩
  rw [h.2, h'.2]
  cases out with
  | false => rfl
  | true => exact List.flatMap_append.symm

theorem sendRule_written (hp : 29 ≤ o.protocolVersion) (h : sendRule o out ent = .ok bytes) :
    WrittenRules o out [ent] bytes := by
  rw [sendRule] at h
  cases hpre : getRulePrefix o ent.rflags ent.pattern true with
  | none => simp [hpre] at h
  | some pre =>
    have hne : pre ++ ent.pattern ++ bitLetter ent.rflags.directory '/' ≠ [] := by
      simp [getRulePrefix_eq hp hpre]
    simp only [hpre, ne_eq, hne, not_false_eq_true, decide_true, Bool.and_true] at h
    refine ⟨by simp [hpre], ?_⟩
    rw [← Except.ok.inj h]
    simp [wireLine, hpre, ListedRule.text]

theorem sendEntry_other (h : ent.rflags.appliesTo o.deleteExcluded (!o.amSender) = false) :
    sendEntry o inner out ent cvs = .ok (cvs, []) := by
  rw [sendEntry, if_pos ((elide_pos o ent.rflags).2 h)]

/-- A rule that is not of CVS. -/
theorem sendEntry_plain (hp : 29 ≤ o.protocolVersion) (hcvs : ent.rflags.cvsRule = false)
    (happlies : ent.rflags.appliesTo o.deleteExcluded (!o.amSender) = true)
    (h : sendEntry o inner out ent cvs = .ok (cvs', bytes)) : cvs' = cvs ∧ WrittenRules o out [ent] bytes := by
  rw [sendEntry, if_neg fun hpos => by simp [(elide_pos o ent.rflags).1 hpos] at happlies,
    if_neg (by simp [hcvs])] at h
  obtain ⟨line, hline, h⟩ := except_bind_eq_ok.1 h
  obtain ⟨rfl, rfl⟩ := Prod.mk.inj (Except.ok.inj h)
  exact ⟨rfl, sendRule_written hp hline⟩

/-- What is left of a list. -/
theorem kept_cons (kept : List ListedRule) (h : kept = ruleSide o o.amSender rules) :
    (if elide o ent.rflags < 0 then kept else ent :: kept) = ruleSide o o.amSender (ent :: rules) := by
  rw [ruleSide, List.filter_cons, h]
  by_cases happlies : ent.rflags.appliesTo o.deleteExcluded o.amSender = true
  · rw [if_pos happlies, if_neg fun hneg => by simp [(elide_neg o ent.rflags).1 hneg] at happlies]
    rfl
  · rw [if_neg happlies, if_pos ((elide_neg o ent.rflags).2 (by simpa using happlies))]
    rfl

/-- The loop over rules that are not of CVS. -/
theorem sendRuleLoop_plain (hp : 29 ≤ o.protocolVersion) (hrules : ∀ r ∈ rules, r.rflags.cvsRule = false)
    (h : sendRuleLoop o inner out rules cvs = .ok (kept, cvs', bytes)) :
    kept = ruleSide o o.amSender rules ∧ WrittenRules o out (ruleSide o (!o.amSender) rules) bytes := by
  induction rules generalizing kept cvs cvs' bytes with
  | nil =>
    obtain ⟨rfl, -, rfl⟩ : [] = kept ∧ cvs = cvs' ∧ [] = bytes := by
      simpa [sendRuleLoop] using h
    exact ⟨rfl, WrittenRules.nil o out⟩
  | cons ent rules ih =>
    rw [sendRuleLoop] at h
    obtain ⟨⟨cvs₁, line⟩, h₁, h⟩ := except_bind_eq_ok.1 h
    obtain ⟨⟨kept₂, cvs₂, more⟩, h₂, h⟩ := except_bind_eq_ok.1 h
    obtain ⟨hkept, h⟩ := Prod.mk.inj (Except.ok.inj h)
    obtain ⟨-, hbytes⟩ := Prod.mk.inj h
    obtain ⟨hkept₂, hmore⟩ := ih (fun r hr => hrules r (List.mem_cons_of_mem ent hr)) h₂
    refine ⟨hkept.symm.trans (kept_cons kept₂ hkept₂), ?_⟩
    rw [← hbytes, ruleSide, List.filter_cons]
    split_ifs with happlies
    · have hline := (sendEntry_plain hp (hrules ent List.mem_cons_self) happlies h₁).2
      exact hline.append hmore
    · rw [sendEntry_other (by simpa using happlies)] at h₁
      obtain ⟨-, rfl⟩ := Prod.mk.inj (Except.ok.inj h₁)
      exact hmore

theorem sendCvs_spec (hp : 29 ≤ o.protocolVersion) (hcvs : ∀ r ∈ cvs, r.rflags.cvsRule = false)
    (h : sendCvs o out cvs = .ok (cvs', bytes)) :
    cvs' = ruleSide o o.amSender cvs ∧ WrittenRules o out (ruleSide o (!o.amSender) cvs) bytes := by
  rw [sendCvs] at h
  obtain ⟨⟨kept, cvs₁, line⟩, h₁, h⟩ := except_bind_eq_ok.1 h
  obtain ⟨rfl, rfl⟩ := Prod.mk.inj (Except.ok.inj h)
  exact sendRuleLoop_plain hp hcvs h₁

/-- **What `send_rules` leaves and writes**: it keeps the rules that apply to this side and writes
    those that apply to the other one. -/
theorem sendRuleLoop_spec (hp : 29 ≤ o.protocolVersion) (hcvs : ∀ r ∈ cvs, r.rflags.cvsRule = false)
    (h : sendRuleLoop o (sendCvs o) out rules cvs = .ok (kept, cvs', bytes)) :
    kept = ruleSide o o.amSender rules ∧ WrittenRules o out (wireRules o rules cvs) bytes ∧
      (∀ r ∈ cvs', r ∈ cvs) := by
  induction rules generalizing kept cvs bytes with
  | nil =>
    obtain ⟨rfl, rfl, rfl⟩ : [] = kept ∧ cvs = cvs' ∧ [] = bytes := by
      simpa [sendRuleLoop] using h
    exact ⟨rfl, WrittenRules.nil o out, fun r hr => hr⟩
  | cons ent rules ih =>
    rw [sendRuleLoop] at h
    obtain ⟨⟨cvs₁, line⟩, h₁, h⟩ := except_bind_eq_ok.1 h
    obtain ⟨⟨kept₂, cvs₂, more⟩, h₂, h⟩ := except_bind_eq_ok.1 h
    obtain ⟨hkept, h⟩ := Prod.mk.inj (Except.ok.inj h)
    obtain ⟨rfl, rfl⟩ := Prod.mk.inj h
    rw [← hkept, wireRules]
    by_cases happlies : ent.rflags.appliesTo o.deleteExcluded (!o.amSender) = true
    swap
    · rw [sendEntry_other (by simpa using happlies)] at h₁
      obtain ⟨rfl, rfl⟩ := Prod.mk.inj (Except.ok.inj h₁)
      obtain ⟨hkept₂, hmore, hsub⟩ := ih hcvs h₂
      rw [if_neg happlies]
      exact ⟨kept_cons kept₂ hkept₂, hmore, hsub⟩
    rw [if_pos happlies]
    by_cases hrule : ent.rflags.cvsRule = true
    swap
    · obtain ⟨rfl, hline⟩ := sendEntry_plain hp (by simpa using hrule) happlies h₁
      obtain ⟨hkept₂, hmore, hsub⟩ := ih hcvs h₂
      rw [if_neg hrule]
      exact ⟨kept_cons kept₂ hkept₂, hline.append hmore, hsub⟩
    -- a rule of CVS: its rules are sent, or they are only sorted out here
    have hold : decide (o.protocolVersion < 29) = false := decide_eq_false hp.not_gt
    rw [sendEntry, if_neg fun hpos => by simp [(elide_pos o ent.rflags).1 hpos] at happlies, if_pos hrule] at h₁
    simp only [hold, Bool.or_false] at h₁
    obtain ⟨⟨cvs₃, bytes₃⟩, h₃, h₁⟩ := except_bind_eq_ok.1 h₁
    obtain ⟨hcvs₃, hwritten⟩ := sendCvs_spec hp hcvs h₃
    have hsub₃ : ∀ r ∈ cvs₃, r ∈ cvs := fun r hr => List.mem_of_mem_filter (hcvs₃ ▸ hr)
    have hstep : cvs₁ = cvs₃ ∧
        WrittenRules o out (if o.amSender then ruleSide o (!o.amSender) cvs else [ent]) line := by
      cases ham : o.amSender with
      | true =>
        simp only [ham, Bool.and_true, if_true] at h₁ hwritten
        obtain ⟨rfl, rfl⟩ := Prod.mk.inj (Except.ok.inj h₁)
        exact ⟨rfl, hwritten⟩
      | false =>
        simp only [ham, Bool.false_eq_true, if_false] at h₁
        obtain ⟨text, htext, h₁⟩ := except_bind_eq_ok.1 h₁
        obtain ⟨rfl, rfl⟩ := Prod.mk.inj (Except.ok.inj h₁)
        have hnone : bytes₃ = [] := by
          have := hwritten.2
          rw [ham, Bool.and_false] at this
          simpa using this
        rw [hnone, List.nil_append]
        exact ⟨rfl, sendRule_written hp htext⟩
    obtain ⟨rfl, hline⟩ := hstep
    obtain ⟨hkept₂, hmore, hsub⟩ := ih (fun r hr => hcvs r (hsub₃ r hr)) h₂
    rw [if_pos hrule, ← hcvs₃]
    exact ⟨kept_cons kept₂ hkept₂, hline.append hmore, fun r hr => hsub₃ r (hsub r hr)⟩

end Send

/-! ## What is received -/

/-- Two rules are not merge files of one name. -/
def Unlike (a b : ListedRule) : Prop :=
  a.rflags.perdirMerge = true → b.rflags.perdirMerge = true → mergeBase a.pattern ≠ mergeBase b.pattern

theorem mem_wireRules {o : RuleSession} {rules cvs : List ListedRule} {r : ListedRule}
    (h : r ∈ wireRules o rules cvs) : r ∈ rules ∨ r ∈ cvs := by
  induction rules generalizing cvs with
  | nil => exact absurd h List.not_mem_nil
  | cons ent rules ih =>
    rw [wireRules] at h
    split_ifs at h
    · rcases List.mem_append.1 h with h | h
      · exact .inr (List.mem_of_mem_filter h)
      · exact (ih h).imp (List.mem_cons_of_mem ent) List.mem_of_mem_filter
    · rcases List.mem_append.1 h with h | h
      · exact .inl (List.mem_singleton.1 h ▸ List.mem_cons_self)
      · exact (ih h).imp (List.mem_cons_of_mem ent) List.mem_of_mem_filter
    · rcases List.mem_cons.1 h with h | h
      · exact .inl (h ▸ List.mem_cons_self)
      · exact (ih h).imp_left (List.mem_cons_of_mem ent)
    · exact (ih h).imp_left (List.mem_cons_of_mem ent)

/-- A sending client never sends a rule of CVS. -/
theorem cvsRule_of_mem_wireRules {o : RuleSession} {rules cvs : List ListedRule} {r : ListedRule}
    (hcvs : ∀ r ∈ cvs, r.rflags.cvsRule = false) (h : r ∈ wireRules o rules cvs)
    (hr : r.rflags.cvsRule = true) : o.amSender = false ∧ r ∈ rules := by
  have hnot : r ∉ cvs := fun hmem => by simp [hcvs r hmem] at hr
  refine ⟨?_, (mem_wireRules h).resolve_right hnot⟩
  by_contra ham
  have ham : o.amSender = true := by simpa using ham
  induction rules generalizing cvs with
  | nil => exact absurd h List.not_mem_nil
  | cons ent rules ih =>
    have hsub : ∀ side, ∀ r ∈ ruleSide o side cvs, r ∈ cvs := fun side r hr => List.mem_of_mem_filter hr
    rw [wireRules, if_pos ham] at h
    split_ifs at h with happlies hrule
    · rcases List.mem_append.1 h with h | h
      · exact hnot (hsub _ r h)
      · exact ih (fun r hr => hcvs r (hsub _ r hr)) h fun hmem => hnot (hsub _ r hmem)
    · rcases List.mem_cons.1 h with rfl | h
      · exact hrule hr
      · exact ih hcvs h hnot
    · exact ih hcvs h hnot

theorem wireRules_unlike {o : RuleSession} {rules cvs : List ListedRule} (hrules : rules.Pairwise Unlike)
    (hcvs : ∀ r ∈ cvs, r.rflags.perdirMerge = false) : (wireRules o rules cvs).Pairwise Unlike := by
  have hleft : ∀ a ∈ cvs, ∀ b, Unlike a b := fun a ha b h => absurd h (by simp [hcvs a ha])
  have hright : ∀ a, ∀ b ∈ cvs, Unlike a b := fun a b hb _ h => absurd h (by simp [hcvs b hb])
  induction rules generalizing cvs with
  | nil => exact .nil
  | cons ent rules ih =>
    obtain ⟨hent, hrules⟩ := List.pairwise_cons.1 hrules
    have hsub : ∀ side, ∀ r ∈ ruleSide o side cvs, r ∈ cvs := fun side r hr => List.mem_of_mem_filter hr
    have hrest := ih hrules (fun r hr => hcvs r (hsub o.amSender r hr))
      (fun a ha => hleft a (hsub _ a ha)) (fun a b hb => hright a b (hsub _ b hb))
    have hents : ∀ b ∈ wireRules o rules (ruleSide o o.amSender cvs), Unlike ent b := fun b hb =>
      (mem_wireRules hb).elim (hent b) fun hb => hright ent b (hsub _ b hb)
    rw [wireRules]
    split_ifs
    · refine List.pairwise_append.2 ⟨?_, hrest, fun a ha b _ => hleft a (hsub _ a ha) b⟩
      exact List.pairwise_of_forall_mem_list fun a ha b _ => hleft a (hsub _ a ha) b
    · exact List.pairwise_append.2 ⟨List.pairwise_singleton _ _, hrest,
        fun a ha b hb => List.mem_singleton.1 ha ▸ hents b hb⟩
    · exact List.pairwise_cons.2 ⟨fun b hb => (mem_wireRules hb).elim (hent b) (hright ent b),
        ih hrules hcvs hleft hright⟩
    · exact ih hrules hcvs hleft hright

/-- A prefix is short. -/
theorem prefix_length {o : RuleSession} {r : TokenFlags} {pat pre : Bytes}
    (h : getRulePrefix o r pat true = some pre) : pre.length ≤ maxRulePrefix := by
  rw [getRulePrefix] at h
  obtain ⟨⟨kind, legalLen⟩, hkind, h⟩ := Option.bind_eq_some_iff.1 h
  have hlegal : legalLen ≤ maxRulePrefix - 1 := by
    rw [prefixKind] at hkind
    split_ifs at hkind
    all_goals
      obtain ⟨-, rfl⟩ := Prod.mk.inj (Option.some.inj hkind)
      decide
  dsimp only at h
  split_ifs at h with hno hlong
  rw [← Option.some.inj h, List.length_append]
  have hspace : (bitLetter (legalLen ≠ 0) ' ').length ≤ 1 := by
    cases hbit : decide (legalLen ≠ 0)
    all_goals simp [bitLetter]
  simp only [maxRulePrefix] at *
  omega

section Receive

variable {files : FilterFiles} {o so : RuleSession} {ctx : FilterContext} {fuel n : ℕ} {l l' : RuleLists}
  {rest : Bytes}

theorem getCvsExcludes_rules
    {parse : TokenFlags → TokenXFlags → Bytes → RuleLists → Except FilterExit RuleLists} {rflags : TokenFlags}
    (h : getCvsExcludes files so parse rflags l = .ok l') : l'.rules = l.rules := by
  rw [getCvsExcludes] at h
  split_ifs at h
  · rw [← Except.ok.inj h]
  obtain ⟨c₁, -, h⟩ := except_bind_eq_ok.1 h
  obtain ⟨c₂, -, h⟩ := except_bind_eq_ok.1 h
  cases hignore : files.envIgnore with
  | none =>
    rw [hignore] at h
    rw [← Except.ok.inj h]
  | some text =>
    rw [hignore] at h
    obtain ⟨c₃, -, h⟩ := except_bind_eq_ok.1 h
    rw [← Except.ok.inj h]

/-- A line of the connection. -/
theorem recvRules_line {line : Bytes} (hp : 29 ≤ so.protocolVersion) (hne : line ≠ [])
    (hlen : line.length < lineBufLen) :
    recvRules files so ctx fuel (n + 1) (writeInt line.length ++ line ++ rest) l =
      (parseFilterStr files so ctx fuel .none .none line l >>= fun l => recvRules files so ctx fuel n rest l) := by
  have hint : IsInt32 (line.length : ℤ) := by
    simp only [lineBufLen, maxPathLen] at hlen
    constructor <;> omega
  have hread : readInt (writeInt line.length ++ (line ++ rest)) = some ((line.length : ℤ), line ++ rest) :=
    reads_int hint (line ++ rest)
  have hvalue : ((line.length : ℤ) % 2 ^ 32).toNat = line.length := by
    simp only [lineBufLen, maxPathLen] at hlen
    omega
  have hget : getN line.length (line ++ rest) = some (line, rest) := reads_getN line rest
  have hflags : ({ TokenXFlags.none with oldPrefixes := so.protocolVersion < 29 } : TokenXFlags) = .none := by
    rw [decide_eq_false hp.not_gt]
    rfl
  have hzero : line.length ≠ 0 := fun h => hne (List.length_eq_zero_iff.1 h)
  rw [recvRules, List.append_assoc, hread]
  dsimp only
  rw [hvalue, if_neg hzero, if_neg hlen.not_ge, hget, hflags]

theorem recvRules_end (hend : IsInt32 0) :
    recvRules files so ctx fuel (n + 1) (writeInt 0 ++ rest) l = .ok (l, rest) := by
  rw [recvRules, reads_int hend rest]
  rfl

/-- **The lines of rules become the rules of the other list**, in their order. -/
theorem recvRules_spec (files : FilterFiles) (so : RuleSession) (ctx : FilterContext) (fuel : ℕ)
    (rest : Bytes) {sent : List ListedRule} (hp : 29 ≤ o.protocolVersion)
    (hprotocol : so.protocolVersion = o.protocolVersion) (hdel : so.deleteExcluded = o.deleteExcluded)
    (hok : ∀ r ∈ sent, r.Ok ∧ r.Sendable)
    (hlead : ∀ r ∈ sent, (getRulePrefix o r.rflags r.pattern true).isSome = true)
    (hunlike : sent.Pairwise Unlike)
    (hmentioned : ∀ r ∈ sent, r.rflags.perdirMerge = true → Mentioned l.rules r.pattern = false)
    (hread : ∀ r ∈ sent, r.rflags.cvsRule = true → ∀ l, ∃ l',
      getCvsExcludes files so (parseFilterStr files so ctx (fuel + 1))
        (senderRule o.deleteExcluded (r.rflags.sent o)) l = .ok l')
    (hn : sent.length < n) :
    ∃ l', recvRules files so ctx (fuel + 2) n (sent.flatMap (wireLine o) ++ (writeInt 0 ++ rest)) l =
        .ok (l', rest) ∧ l'.rules = l.rules ++ sent.map (ListedRule.received o) := by
  induction sent generalizing l n with
  | nil =>
    obtain ⟨n, rfl⟩ := Nat.exists_eq_succ_of_ne_zero hn.ne'
    exact ⟨l, recvRules_end (by decide), by simp⟩
  | cons r sent ih =>
    obtain ⟨n, rfl⟩ := Nat.exists_eq_succ_of_ne_zero (Nat.ne_zero_of_lt hn)
    obtain ⟨hr, hsend⟩ := hok r List.mem_cons_self
    obtain ⟨pre, hpre⟩ := Option.isSome_iff_exists.1 (hlead r List.mem_cons_self)
    obtain ⟨hunlike₁, hunlike⟩ := List.pairwise_cons.1 hunlike
    have hline : wireLine o r = writeInt (pre ++ r.text).length ++ (pre ++ r.text) := by
      rw [wireLine, hpre]
      rfl
    have hne : pre ++ r.text ≠ [] := by simp [getRulePrefix_eq hp hpre]
    have hlen : (pre ++ r.text).length < lineBufLen := by
      have := prefix_length hpre
      have htext : r.text.length < maxPathLen := by
        rw [ListedRule.text, List.length_append]
        cases hdir : r.rflags.directory
        all_goals simpa [hdir, bitLetter_true, bitLetter_false] using hsend.1
      rw [List.length_append]
      simp only [lineBufLen, maxRulePrefix, maxPathLen] at *
      omega
    have hparse := parseFilterStr_line files ctx fuel hp hdel rfl hr hsend hpre
      (hmentioned r List.mem_cons_self)
    -- what the line leaves
    obtain ⟨l₁, hl₁, hrules₁⟩ : ∃ l₁, parseFilterStr files so ctx (fuel + 2) .none .none (pre ++ r.text) l =
        .ok l₁ ∧ l₁.rules = l.rules ++ [r.received o] := by
      rw [hparse]
      by_cases hcvs : r.rflags.cvsRule = true
      · rw [if_pos hcvs]
        obtain ⟨l₁, hl₁⟩ := hread r List.mem_cons_self hcvs { l with rules := l.rules ++ [r.received o] }
        exact ⟨l₁, hl₁, getCvsExcludes_rules hl₁⟩
      · rw [if_neg hcvs]
        exact ⟨_, rfl, rfl⟩
    have hperdir : (r.received o).rflags.perdirMerge = r.rflags.perdirMerge := by
      show (senderRule o.deleteExcluded (r.rflags.sent o)).perdirMerge = _
      rw [senderRule_eq]
      rfl
    have hmentioned₁ : ∀ r' ∈ sent, r'.rflags.perdirMerge = true → Mentioned l₁.rules r'.pattern = false := by
      intro r' hr' hp'
      rw [hrules₁, Mentioned, List.any_append, Bool.or_eq_false_iff]
      refine ⟨hmentioned r' (List.mem_cons_of_mem r hr') hp', ?_⟩
      rw [List.any_cons, List.any_nil, Bool.or_false, hperdir]
      cases hpr : r.rflags.perdirMerge with
      | false => rfl
      | true => exact decide_eq_false (hunlike₁ r' hr' hpr hp')
    obtain ⟨l', hl', hrules'⟩ := ih (l := l₁) (fun r' hr' => hok r' (List.mem_cons_of_mem r hr'))
      (fun r' hr' => hlead r' (List.mem_cons_of_mem r hr')) hunlike hmentioned₁
      (fun r' hr' => hread r' (List.mem_cons_of_mem r hr'))
      (Nat.lt_of_succ_lt_succ hn)
    refine ⟨l', ?_, by rw [hrules', hrules₁, List.append_assoc]; rfl⟩
    rw [List.flatMap_cons, hline, List.append_assoc, recvRules_line (hprotocol ▸ hp) hne hlen, hl₁]
    exact hl'

end Receive

/-! ## The exchange -/

/-- The session as the other side knows it. -/
def RuleSession.other (o : RuleSession) : RuleSession := { o with amSender := !o.amSender }

theorem RuleSession.other_reads (o : RuleSession) :
    (!o.other.localServer && (o.other.amSender || o.other.receiverWantsList)) = o.sends := by
  unfold RuleSession.other RuleSession.sends RuleSession.receiverWantsList
  cases o.localServer <;> cases o.amSender <;> simp

section Exchange

variable {files : FilterFiles} {o : RuleSession} {ctx : FilterContext} {fuel : ℕ}
  {options : List RuleOption} {l l₀ l₁ : RuleLists} {bytes : Bytes}

theorem addRuleIf_ok {on : Bool} {text : Bytes} (hl : l.Ok False)
    (h : addRuleIf files o ctx fuel on text l = .ok l₁) : l₁.Ok False := by
  rw [addRuleIf] at h
  split_ifs at h
  · have hkeeps : ParserKeeps (parseFilterStr files o ctx fuel) := keeps_parseFilterStr fuel
    exact hkeeps hl (.inr (.inr ⟨rfl, rfl, rfl⟩)) False.elim (by rfl) h
  · rw [← Except.ok.inj h]
    exact hl

theorem addCvsRules_ok {merge plain : Bool} (hl : l.Ok False)
    (h : addCvsRules files o ctx fuel merge plain l = .ok l₁) : l₁.Ok False := by
  obtain ⟨l₂, h₂, h⟩ := except_bind_eq_ok.1 h
  exact addRuleIf_ok (addRuleIf_ok hl h₂) h

theorem wireRules_length (o : RuleSession) (rules cvs : List ListedRule) (rest : Bytes) :
    (wireRules o rules cvs).length <
      ((wireRules o rules cvs).flatMap (wireLine o) ++ (writeInt 0 ++ rest)).length + 1 := by
  generalize wireRules o rules cvs = sent
  rw [List.length_append, List.length_flatMap]
  have hle : sent.length ≤ (sent.map fun r => (wireLine o r).length).sum := by
    induction sent with
    | nil => simp
    | cons r sent ih =>
      have hone : 1 ≤ (wireLine o r).length := by
        rw [wireLine, List.length_append, writeInt, sival_length]
        omega
      rw [List.length_cons, List.map_cons, List.sum_cons]
      omega
  omega

/-- What `send_rules` writes, with the number at its end, is read as the rules of the other list. -/
theorem recvLines_sent (sfiles : FilterFiles) (sctx : FilterContext) (sfuel : ℕ) {text : Bytes}
    (hp : 29 ≤ o.protocolVersion) (hl₀ : l₀.Ok False) (hsendable : ∀ r ∈ l₀.rules ++ l₀.cvs, r.Sendable)
    (hrules : sendRules o o.sends l₀ = .ok (l₁, text))
    (hread : o.amSender = false → ∀ r ∈ l₀.rules, r.rflags.cvsRule = true → ∀ s, ∃ s',
      getCvsExcludes sfiles o.other (parseFilterStr sfiles o.other sctx (sfuel + 1))
        (senderRule o.deleteExcluded (r.rflags.sent o)) s = .ok s')
    (rest : Bytes) :
    ∃ s : RuleLists,
      s.rules = (if o.sends then (wireRules o l₀.rules l₀.cvs).map (ListedRule.received o) else []) ∧
      recvLines sfiles o.other sctx (sfuel + 2) ((if o.sends then text ++ writeInt 0 else text) ++ rest)
        ⟨[], [], false⟩ = .ok (s, rest) := by
  have hcvs : ∀ r ∈ l₀.cvs, r.rflags.cvsRule = false := fun r hr => by
    simp [TokenFlags.cvsRule, (hl₀.cvs r hr).2.2]
  obtain ⟨⟨kept, cvs', text₁⟩, hloop, hk⟩ := except_bind_eq_ok.1 hrules
  obtain ⟨-, rfl⟩ := Prod.mk.inj (Except.ok.inj hk)
  obtain ⟨-, ⟨hlead, htext⟩, -⟩ := sendRuleLoop_spec hp hcvs hloop
  rw [recvLines, o.other_reads]
  cases hsends : o.sends with
  | false =>
    rw [hsends] at htext
    exact ⟨_, rfl, by rw [htext]; rfl⟩
  | true =>
    rw [hsends] at htext
    have hmem : ∀ r ∈ wireRules o l₀.rules l₀.cvs, r.Ok ∧ r.Sendable := fun r hr => by
      refine ⟨(mem_wireRules hr).elim (hl₀.rules r) fun hr => (hl₀.cvs r hr).1, hsendable r ?_⟩
      exact List.mem_append.2 (mem_wireRules hr)
    have hcvsRead : ∀ r ∈ wireRules o l₀.rules l₀.cvs, r.rflags.cvsRule = true → ∀ s, ∃ s',
        getCvsExcludes sfiles o.other (parseFilterStr sfiles o.other sctx (sfuel + 1))
          (senderRule o.deleteExcluded (r.rflags.sent o)) s = .ok s' := fun r hr hrule => by
      obtain ⟨ham, hmem⟩ := cvsRule_of_mem_wireRules hcvs hr hrule
      exact hread ham r hmem hrule
    obtain ⟨s, hs, hsrules⟩ := recvRules_spec sfiles o.other sctx sfuel rest (l := ⟨[], [], false⟩) hp rfl
      rfl hmem hlead (wireRules_unlike hl₀.merges fun r hr => (hl₀.cvs r hr).2.1) (fun _ _ _ => rfl)
      hcvsRead (wireRules_length o l₀.rules l₀.cvs rest)
    refine ⟨s, hsrules, ?_⟩
    rw [if_pos rfl, if_pos rfl, ← hs, htext, if_pos rfl, List.append_assoc]

/-- What the other end reads of a list that was sent: the rules of the wire, and then its own rules
    of CVS. -/
theorem recvFilterList_sent (sfiles : FilterFiles) (sctx : FilterContext) (sfuel : ℕ)
    (hp : 29 ≤ o.protocolVersion) (hlocal : o.localServer = false) (hl : l.Ok False)
    (htoSend : rulesToSend files o ctx fuel l = .ok l₀)
    (hsendable : ∀ r ∈ l₀.rules ++ l₀.cvs, r.Sendable)
    (hsent : sendFilterList files o ctx fuel l = .ok (l₁, bytes))
    (hread : o.amSender = false → ∀ r ∈ l₀.rules, r.rflags.cvsRule = true → ∀ s, ∃ s',
      getCvsExcludes sfiles o.other (parseFilterStr sfiles o.other sctx (sfuel + 1))
        (senderRule o.deleteExcluded (r.rflags.sent o)) s = .ok s')
    (rest : Bytes) :
    ∃ s : RuleLists,
      s.rules = (if o.sends then (wireRules o l₀.rules l₀.cvs).map (ListedRule.received o) else []) ∧
      recvFilterList sfiles o.other sctx (sfuel + 2) (bytes ++ rest) ⟨[], [], false⟩ =
        (addCvsRules sfiles o.other sctx (sfuel + 2) (o.cvsExclude && !o.amSender)
          (o.cvsExclude && !o.amSender) s >>= fun s => .ok (s, rest)) := by
  rw [sendFilterList] at hsent
  obtain ⟨l₀', h₀, hsent⟩ := except_bind_eq_ok.1 hsent
  obtain rfl : l₀ = l₀' := Except.ok.inj (htoSend.symm.trans h₀)
  obtain ⟨⟨k, text⟩, hrules, hsent⟩ := except_bind_eq_ok.1 hsent
  obtain ⟨l₂, -, hsent⟩ := except_bind_eq_ok.1 hsent
  obtain ⟨-, hbytes⟩ := Prod.mk.inj (Except.ok.inj hsent)
  obtain ⟨s, hs, hlines⟩ :=
    recvLines_sent sfiles sctx sfuel hp (addCvsRules_ok hl htoSend) hsendable hrules hread rest
  rw [hbytes] at hlines
  refine ⟨s, hs, ?_⟩
  have hother : o.other.localServer = false := hlocal
  have hold : decide (o.other.protocolVersion < 29) = false := decide_eq_false hp.not_gt
  rw [recvFilterList, hlines]
  show (addCvsRules sfiles o.other sctx (sfuel + 2)
    (o.other.cvsExclude && (o.other.localServer || o.other.amSender || decide (o.other.protocolVersion < 29)))
    (o.other.cvsExclude && (o.other.localServer || o.other.amSender)) s >>= fun l =>
      if o.other.localServer = true then _ else Except.ok (l, rest)) = _
  rw [hother, hold, Bool.or_false, Bool.false_or]
  rfl

end Exchange

/-- A client that sends files and deletes, without files to read rules from. -/
def sampleSession : RuleSession := ⟨31, true, false, true, false, false, false⟩

def noFiles : FilterFiles := ⟨fun _ => none, fun _ => none, none, none, false⟩

def noContext : FilterContext := ⟨true, [], 0, []⟩

def sampleOptions : List RuleOption :=
  [.filter (cstr "P *~"), .filter (cstr "dir-merge,n- .rules"), .exclude (cstr "+ keep/")]

def sampleLists : RuleLists :=
  ⟨[⟨cstr "*~", { TokenFlags.none with receiverSide := true }, ⟨true, false, false, false⟩, 0⟩,
    ⟨cstr ".rules", { TokenFlags.none with
        mergeFile := true
        perdirMerge := true
        finishSetup := true
        noInherit := true
        noPrefixes := true }, ⟨false, false, false, false⟩, 0⟩,
    ⟨cstr "keep", { TokenFlags.none with
        include' := true
        directory := true }, ⟨false, false, false, false⟩, 0⟩], [], false⟩

end CloudEdgeBackup
