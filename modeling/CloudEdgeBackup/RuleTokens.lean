/-
  Filter rules as text (`exclude.c`).

  * `parseRuleTok` is `parse_rule_tok`: it takes the next rule off a text, its kind, its modifiers
    and its pattern, or exits with an error of the syntax;
  * `getRulePrefix` is `get_rule_prefix`: it writes the kind and the modifiers of a rule;
  * what the one writes the other reads back (`parseRuleTok_prefix`): every bit that the prefix has
    a letter for.  There is none for `FILTRULE_XATTR`.
-/
import CloudEdgeBackup.FilterRules
import CloudEdgeBackup.Lib.Format

namespace CloudEdgeBackup

/-! ## Flags -/

deriving instance DecidableEq for RuleFlags
deriving instance DecidableEq for WildFlags

/-- The bits of `rflags` but those of the wildcards. -/
structure TokenFlags extends RuleFlags where
  wordSplit : Bool
  noInherit : Bool
  noPrefixes : Bool
  excludeSelf : Bool
  finishSetup : Bool
  cvsIgnore : Bool
  clearList : Bool
  perishable : Bool
deriving DecidableEq

/-- `rule_template(0)`. -/
def TokenFlags.none : TokenFlags where
  absPath := false
  include' := false
  directory := false
  mergeFile := false
  perdirMerge := false
  negate := false
  senderSide := false
  receiverSide := false
  xattr := false
  wordSplit := false
  noInherit := false
  noPrefixes := false
  excludeSelf := false
  finishSetup := false
  cvsIgnore := false
  clearList := false
  perishable := false

/-- One of `FILTRULES_SIDES`. -/
def TokenFlags.sided (r : TokenFlags) : Bool := r.senderSide || r.receiverSide

/-- What a rule has from its template: `FILTRULES_FROM_CONTAINER`. -/
def TokenFlags.inherit (template : TokenFlags) : TokenFlags :=
  { TokenFlags.none with
    absPath := template.absPath
    include' := template.include'
    directory := template.directory
    negate := template.negate
    perishable := template.perishable }

/-! ## One rule of a text -/

/-- The ways to exit with `RERR_SYNTAX`. -/
inductive RuleError where
  /-- Unknown filter rule. -/
  | unknownRule (rulestr : Bytes)
  /-- Invalid modifier at a position. -/
  | invalidModifier (c : UInt8) (pos : ℕ) (rulestr : Bytes)
  /-- A specified-side merge file contains a specified-side filter. -/
  | bothSides (rulestr : Bytes)
  /-- The `!` rule has trailing characters. -/
  | trailing (rulestr : Bytes)
  /-- Unexpected end of the filter rule. -/
  | unexpectedEnd (rulestr : Bytes)
deriving DecidableEq

def chr (c : Char) : UInt8 := UInt8.ofNat c.toNat

def letter (b : UInt8) : Char := Char.ofNat b.toNat

/-- `rule_strcmp`: what follows the word and a comma behind it. -/
def ruleStrcmp (str rule : Bytes) : Option Bytes :=
  if rule.isPrefixOf str then
    match str.drop rule.length with
    | [] => some []
    | c :: s =>
      if Cfmt.isSpace c || c = chr '_' then some (c :: s)
      else if c = chr ',' then some s
      else none
  else none

/-- The kind of the rule and what follows it; no kind where a word is not known. -/
def ruleKind : Bytes → Option (Char × Bytes)
  | [] => none
  | c :: s =>
    let word (w : String) (ch : Char) := (ruleStrcmp (c :: s) (cstr w)).map fun rest => (ch, rest)
    match letter c with
    | 'c' => word "clear" '!'
    | 'd' => word "dir-merge" ':'
    | 'e' => word "exclude" '-'
    | 'h' => word "hide" 'H'
    | 'i' => word "include" '+'
    | 'm' => word "merge" '.'
    | 'p' => word "protect" 'P'
    | 'r' => word "risk" 'R'
    | 's' => word "show" 'S'
    | ch => some (ch, if s.head? = some (chr ',') then s.tail else s)

/-- The bits of a kind, and whether it specifies a side. -/
def kindFlags (rule : TokenFlags) : Char → Option (TokenFlags × Bool)
  | ':' => some ({ rule with perdirMerge := true, finishSetup := true, mergeFile := true }, false)
  | '.' => some ({ rule with mergeFile := true }, false)
  | '+' => some ({ rule with include' := true }, false)
  | '-' => some (rule, false)
  | 'S' => some ({ rule with include' := true, senderSide := true }, true)
  | 'H' => some ({ rule with senderSide := true }, true)
  | 'R' => some ({ rule with include' := true, receiverSide := true }, true)
  | 'P' => some ({ rule with receiverSide := true }, true)
  | '!' => some ({ rule with clearList := true }, false)
  | _ => none

/-- The bits of a modifier; none where it is invalid. -/
def modifier (prefixSide : Bool) (rule : TokenFlags) : Char → Option TokenFlags
  | '-' => if rule.mergeFile && !rule.noPrefixes then some { rule with noPrefixes := true } else none
  | '+' =>
    if rule.mergeFile && !rule.noPrefixes then some { rule with noPrefixes := true, include' := true }
    else none
  | '/' => some { rule with absPath := true }
  | '!' => if rule.mergeFile then none else some { rule with negate := true }
  | 'C' =>
    if rule.noPrefixes || prefixSide then none
    else some { rule with noPrefixes := true, wordSplit := true, noInherit := true, cvsIgnore := true }
  | 'e' => if rule.mergeFile then some { rule with excludeSelf := true } else none
  | 'n' => if rule.mergeFile then some { rule with noInherit := true } else none
  | 'p' => some { rule with perishable := true }
  | 'r' => if prefixSide then none else some { rule with receiverSide := true }
  | 's' => if prefixSide then none else some { rule with senderSide := true }
  | 'w' => if rule.mergeFile then some { rule with wordSplit := true } else none
  | 'x' => some { rule with xattr := true }
  | _ => none

/-- The loop over the modifiers; what is left is the pattern. -/
def modifiers (wordSplit prefixSide : Bool) (rulestr : Bytes) (rule : TokenFlags) :
    Bytes → Except RuleError (TokenFlags × Bytes)
  | [] => .ok (rule, [])
  | c :: s =>
    if c = chr ' ' || c = chr '_' then .ok (rule, s)
    else if wordSplit && Cfmt.isSpace c then .ok (rule, c :: s)
    else match modifier prefixSide rule (letter c) with
      | some rule => modifiers wordSplit prefixSide rulestr rule s
      | none => .error (.invalidModifier c (rulestr.length - (c :: s).length) rulestr)

/-- The flags of the call; the rest of `xflags` is for `add_rule`. -/
structure TokenXFlags extends XFlagBits where
  oldPrefixes : Bool
  fatalErrors : Bool

/-- The prefix of a rule: its bits, and the text behind the prefix. -/
def parsePrefix (template : TokenFlags) (oldPrefixes : Bool) (rulestr : Bytes) :
    Except RuleError (TokenFlags × Bytes) :=
  let rule := template.inherit
  if template.noPrefixes then
    .ok ({ rule with clearList := rulestr.head? = some (chr '!') && template.cvsIgnore }, rulestr)
  else if oldPrefixes then
    if (cstr "- ").isPrefixOf rulestr then .ok ({ rule with include' := false }, rulestr.drop 2)
    else if (cstr "+ ").isPrefixOf rulestr then .ok ({ rule with include' := true }, rulestr.drop 2)
    else .ok ({ rule with clearList := rulestr.head? = some (chr '!') }, rulestr)
  else
    match ruleKind rulestr with
    | none => .error (.unknownRule rulestr)
    | some (ch, s) =>
      match kindFlags rule ch with
      | none => .error (.unknownRule rulestr)
      | some (rule, prefixSide) =>
        if ch = '!' then .ok (rule, s)
        else modifiers template.wordSplit prefixSide rulestr rule s

/-- A rule that was taken off a text: its bits, its pattern and the rest of the text. -/
structure ParsedRule where
  rflags : TokenFlags
  pat : Bytes
  rest : Bytes
deriving DecidableEq

/-- The sides of the template, unless the rule has sides as well. -/
def inheritSides (template rule : TokenFlags) (rulestr : Bytes) : Except RuleError TokenFlags :=
  if template.sided then
    if rule.sided then .error (.bothSides rulestr)
    else .ok { rule with
      senderSide := template.senderSide
      receiverSide := template.receiverSide }
  else .ok rule

/-- What the length of the pattern says of the rule. -/
def checkPatLen (oldPrefixes : Bool) (rule : TokenFlags) (len : ℕ) (rulestr : Bytes) :
    Except RuleError TokenFlags :=
  if rule.clearList then
    if !rule.noPrefixes && !oldPrefixes && len ≠ 0 then .error (.trailing rulestr)
    else .ok { rule with clearList := len ≤ 1 }
  else if len = 0 && !rule.cvsIgnore then .error (.unexpectedEnd rulestr)
  else .ok rule

/-- `--delete-excluded` turns an un-modified include or exclude into a sender-side rule. -/
def senderRule (deleteExcluded : Bool) (rule : TokenFlags) : TokenFlags :=
  if deleteExcluded && !(rule.sided || rule.mergeFile || rule.perdirMerge) then
    { rule with senderSide := true }
  else rule

/-- `parse_rule_tok`: `none` at the end of the text. -/
def parseRuleTok (deleteExcluded : Bool) (template : TokenFlags) (oldPrefixes : Bool) (text : Bytes) :
    Except RuleError (Option ParsedRule) :=
  let rulestr := if template.wordSplit then text.dropWhile Cfmt.isSpace else text
  if rulestr = [] then .ok none
  else do
    let (rule, s) ← parsePrefix template oldPrefixes rulestr
    let rule ← inheritSides template rule rulestr
    let pat := if template.wordSplit then s.takeWhile (!Cfmt.isSpace ·) else s
    let rule ← checkPatLen oldPrefixes rule pat.length rulestr
    .ok (some ⟨senderRule deleteExcluded rule, pat, s.drop pat.length⟩)

/-! ## The prefix of a rule -/

/-- What both ends know of the session. -/
structure RuleSession where
  protocolVersion : ℕ
  amSender : Bool
  localServer : Bool
  deleteMode : Bool
  deleteExcluded : Bool
  pruneEmptyDirs : Bool
  cvsExclude : Bool

abbrev maxRulePrefix : ℕ := 16

/-- A letter of the prefix, where its bit is set. -/
def bitLetter (bit : Bool) (c : Char) : Bytes := if bit then [chr c] else []

/-- The kind of the rule and the length that is allowed. -/
def prefixKind (o : RuleSession) (rule : TokenFlags) (pat : Bytes) (forXfer : Bool) :
    Option (Bytes × ℕ) :=
  let legalLen := if forXfer && o.protocolVersion < 29 then 1 else maxRulePrefix - 1
  if rule.perdirMerge then if legalLen = 1 then none else some ([chr ':'], legalLen)
  else if rule.include' then some ([chr '+'], legalLen)
  else if legalLen ≠ 1 || (cstr "- ").isPrefixOf pat || (cstr "+ ").isPrefixOf pat then
    some ([chr '-'], legalLen)
  else some ([], 0)

/-- The modifiers before the sides. -/
def prefixModifiers (rule : TokenFlags) : Bytes :=
  bitLetter rule.absPath '/' ++ bitLetter rule.negate '!' ++
    (if rule.cvsIgnore then [chr 'C']
    else bitLetter rule.noInherit 'n' ++ bitLetter rule.wordSplit 'w' ++
      (if rule.noPrefixes then [if rule.include' then chr '+' else chr '-'] else [])) ++
    bitLetter rule.excludeSelf 'e'

/-- The sides of the rule, for the protocols that know them. -/
def prefixSides (o : RuleSession) (rule : TokenFlags) (forXfer : Bool) : Bytes :=
  bitLetter (rule.senderSide && (!forXfer || 29 ≤ o.protocolVersion)) 's' ++
    bitLetter (rule.receiverSide &&
      (!forXfer || 29 ≤ o.protocolVersion || o.deleteExcluded && o.amSender)) 'r'

/-- `get_rule_prefix`; `none` where the remote side would not understand the rule. -/
def getRulePrefix (o : RuleSession) (rule : TokenFlags) (pat : Bytes) (forXfer : Bool) : Option Bytes := do
  let (kind, legalLen) ← prefixKind o rule pat forXfer
  let toSend : Bool := !forXfer || 30 ≤ o.protocolVersion
  if rule.perishable && !toSend && o.amSender then none
  else
    let op := kind ++ prefixModifiers rule ++ prefixSides o rule forXfer ++
      bitLetter (rule.perishable && toSend) 'p'
    if legalLen < op.length then none
    else some (op ++ bitLetter (legalLen ≠ 0) ' ')

/-! ## What comes back -/

/-- The bits of a rule that is in a list: it does not clear the list, and a merge file is one for
    each directory, without a negation. -/
structure TokenFlags.Listed (r : TokenFlags) : Prop where
  clearList : r.clearList = false
  excludeSelf : r.excludeSelf = false
  mergeFile : r.mergeFile = r.perdirMerge
  finishSetup : r.finishSetup = r.perdirMerge
  negate : r.perdirMerge = true → r.negate = false
  cvs : r.cvsIgnore = true → r.noPrefixes = true ∧ r.wordSplit = true ∧ r.noInherit = true
  plain : r.perdirMerge = false → r.cvsIgnore = false →
    r.noPrefixes = false ∧ r.wordSplit = false ∧ r.noInherit = false
  merge_include : r.perdirMerge = true → r.include' = true → r.noPrefixes = true ∧ r.cvsIgnore = false

/-- The bits that the prefix has letters for, for the protocol. -/
def TokenFlags.sent (o : RuleSession) (r : TokenFlags) : TokenFlags :=
  { r with
    directory := false
    xattr := false
    perishable := r.perishable && 30 ≤ o.protocolVersion }

theorem bitLetter_false (c : Char) : bitLetter false c = [] := rfl

theorem bitLetter_true (c : Char) : bitLetter true c = [chr c] := rfl

/-- The letters of a prefix behind its kind. -/
def prefixLetters : List Char := ['/', '!', 'C', 'n', 'w', '+', '-', 'e', 's', 'r', 'p']

theorem prefixLetters_spec {c : Char} (hc : c ∈ prefixLetters) :
    chr c ≠ chr ' ' ∧ chr c ≠ chr '_' ∧ letter (chr c) = c := by
  have hall : (prefixLetters.all fun c =>
      chr c ≠ chr ' ' ∧ chr c ≠ chr '_' ∧ letter (chr c) = c) = true := by decide
  simpa using List.all_eq_true.1 hall c hc

section Modifiers

variable {rulestr s : Bytes} {acc : TokenFlags}

theorem modifiers_letter (c : Char) (hc : c ∈ prefixLetters) {acc' : TokenFlags}
    (h : modifier false acc c = some acc') :
    modifiers false false rulestr acc (chr c :: s) = modifiers false false rulestr acc' s := by
  obtain ⟨hspace, hline, hletter⟩ := prefixLetters_spec hc
  rw [modifiers, hletter, h]
  simp [hspace, hline]

/-- A letter that is there or not. -/
theorem modifiers_bit (c : Char) (hc : c ∈ prefixLetters) (acc' : TokenFlags) {b : Bool}
    (h : b = true → modifier false acc c = some acc') (h' : b = false → acc' = acc) :
    modifiers false false rulestr acc (bitLetter b c ++ s) = modifiers false false rulestr acc' s := by
  cases b with
  | false => rw [h' rfl, bitLetter_false, List.nil_append]
  | true =>
    rw [bitLetter_true, List.singleton_append]
    exact modifiers_letter c hc (h rfl)

theorem modifiers_sides (b b' b'' : Bool) (hs : acc.senderSide = false) (hr : acc.receiverSide = false)
    (hp : acc.perishable = false) :
    modifiers false false rulestr acc (bitLetter b 's' ++ (bitLetter b' 'r' ++ (bitLetter b'' 'p' ++
      chr ' ' :: s))) = .ok ({ acc with senderSide := b, receiverSide := b', perishable := b'' }, s) := by
  rw [modifiers_bit 's' (by simp [prefixLetters]) { acc with senderSide := b } (fun h => by rw [h]; rfl)
      (fun h => by rw [h, ← hs]),
    modifiers_bit 'r' (by simp [prefixLetters]) { acc with senderSide := b, receiverSide := b' }
      (fun h => by rw [h]; rfl) (fun h => by rw [h, ← hr]),
    modifiers_bit 'p' (by simp [prefixLetters])
      { acc with senderSide := b, receiverSide := b', perishable := b'' }
      (fun h => by rw [h]; rfl) (fun h => by rw [h, ← hp])]
  simp [modifiers]

/-- The modifiers of a rule without a per-directory merge file. -/
theorem modifiers_plain {r : TokenFlags} (hr : r.Listed) (hperdir : r.perdirMerge = false)
    (hacc : acc = { TokenFlags.none with include' := r.include' }) :
    modifiers false false rulestr acc (prefixModifiers r ++ s) =
      modifiers false false rulestr
        { acc with
          absPath := r.absPath
          negate := r.negate
          noPrefixes := r.noPrefixes
          wordSplit := r.wordSplit
          noInherit := r.noInherit
          cvsIgnore := r.cvsIgnore } s := by
  subst hacc
  rw [prefixModifiers, hr.excludeSelf, bitLetter_false, List.append_nil]
  simp only [List.append_assoc]
  rw [modifiers_bit '/' (by simp [prefixLetters]) { TokenFlags.none with
        include' := r.include', absPath := r.absPath } (fun h => by rw [h]; rfl) (fun h => by rw [h]; rfl),
    modifiers_bit '!' (by simp [prefixLetters]) { TokenFlags.none with
        include' := r.include', absPath := r.absPath, negate := r.negate }
      (fun h => by rw [h]; rfl) (fun h => by rw [h]; rfl)]
  cases hcvs : r.cvsIgnore with
  | false =>
    obtain ⟨hprefixes, hsplit, hinherit⟩ := hr.plain hperdir hcvs
    simp [hprefixes, hsplit, hinherit, bitLetter_false, TokenFlags.none]
  | true =>
    obtain ⟨hprefixes, hsplit, hinherit⟩ := hr.cvs hcvs
    rw [if_pos rfl, List.singleton_append, hprefixes, hsplit, hinherit]
    exact modifiers_letter 'C' (by simp [prefixLetters]) rfl

/-- The modifiers of a per-directory merge file. -/
theorem modifiers_merge {r : TokenFlags} (hr : r.Listed) (hperdir : r.perdirMerge = true)
    (hacc : acc = { TokenFlags.none with perdirMerge := true, finishSetup := true, mergeFile := true }) :
    modifiers false false rulestr acc (prefixModifiers r ++ s) =
      modifiers false false rulestr
        { acc with
          include' := r.include'
          absPath := r.absPath
          noPrefixes := r.noPrefixes
          wordSplit := r.wordSplit
          noInherit := r.noInherit
          cvsIgnore := r.cvsIgnore } s := by
  subst hacc
  rw [prefixModifiers, hr.excludeSelf, hr.negate hperdir, bitLetter_false, bitLetter_false,
    List.append_nil, List.append_nil]
  simp only [List.append_assoc]
  rw [modifiers_bit '/' (by simp [prefixLetters]) { TokenFlags.none with
        perdirMerge := true, finishSetup := true, mergeFile := true, absPath := r.absPath }
      (fun h => by rw [h]; rfl) (fun h => by rw [h]; rfl)]
  cases hcvs : r.cvsIgnore with
  | true =>
    obtain ⟨hprefixes, hsplit, hinherit⟩ := hr.cvs hcvs
    have hinclude : r.include' = false := by
      by_contra h
      exact absurd (hr.merge_include hperdir (by simpa using h)).2 (by simp [hcvs])
    rw [if_pos rfl, List.singleton_append, hprefixes, hsplit, hinherit, hinclude]
    exact modifiers_letter 'C' (by simp [prefixLetters]) rfl
  | false =>
    rw [if_neg (by simp)]
    simp only [List.append_assoc]
    rw [modifiers_bit 'n' (by simp [prefixLetters]) { TokenFlags.none with
          perdirMerge := true, finishSetup := true, mergeFile := true, absPath := r.absPath
          noInherit := r.noInherit } (fun h => by rw [h]; rfl) (fun h => by rw [h]; rfl),
      modifiers_bit 'w' (by simp [prefixLetters]) { TokenFlags.none with
          perdirMerge := true, finishSetup := true, mergeFile := true, absPath := r.absPath
          noInherit := r.noInherit, wordSplit := r.wordSplit }
        (fun h => by rw [h]; rfl) (fun h => by rw [h]; rfl)]
    cases hprefixes : r.noPrefixes with
    | false =>
      have hinclude : r.include' = false := by
        by_contra h
        exact absurd (hr.merge_include hperdir (by simpa using h)).1 (by simp [hprefixes])
      rw [hinclude]
      rfl
    | true =>
      rw [if_pos rfl, List.singleton_append]
      cases hinclude : r.include' with
      | false => exact modifiers_letter '-' (by simp [prefixLetters]) rfl
      | true => exact modifiers_letter '+' (by simp [prefixLetters]) rfl

end Modifiers

/-- The kind that `get_rule_prefix` writes. -/
def TokenFlags.kind (r : TokenFlags) : Char :=
  if r.perdirMerge then ':' else if r.include' then '+' else '-'

/-- What follows the kind of a rule, for a protocol that knows all of it. -/
def prefixRest (o : RuleSession) (r : TokenFlags) : Bytes :=
  prefixModifiers r ++ (bitLetter r.senderSide 's' ++ (bitLetter r.receiverSide 'r' ++
    (bitLetter (r.perishable && 30 ≤ o.protocolVersion) 'p' ++ [chr ' '])))

theorem getRulePrefix_eq {o : RuleSession} {r : TokenFlags} {pat pre : Bytes} (hp : 29 ≤ o.protocolVersion)
    (h : getRulePrefix o r pat true = some pre) : pre = chr r.kind :: prefixRest o r := by
  have hold : ¬o.protocolVersion < 29 := hp.not_gt
  have hkind : prefixKind o r pat true = some ([chr r.kind], 15) := by
    rw [prefixKind, TokenFlags.kind]
    simp only [hold, decide_false, Bool.and_false]
    split_ifs <;> simp_all
  rw [getRulePrefix, hkind] at h
  simp only [Option.bind_eq_bind, Option.bind_some, prefixSides, hp, decide_true, Bool.not_true,
    Bool.false_or, Bool.true_or, Bool.and_true] at h
  generalize r.kind = kind at h ⊢
  split_ifs at h
  rw [← Option.some.inj h]
  simp [prefixRest, bitLetter_true]

theorem notMem_bitLetter (bit : Bool) {b : UInt8} {c : Char} (h : b ≠ chr c) : b ∉ bitLetter bit c := by
  cases bit with
  | false => exact List.not_mem_nil
  | true => exact mt List.mem_singleton.1 h

/-- A byte that is no letter of a prefix. -/
theorem notMem_prefixRest (o : RuleSession) (r : TokenFlags) {b : UInt8} (hspace : b ≠ chr ' ')
    (h : ∀ c ∈ prefixLetters, b ≠ chr c) : b ∉ prefixRest o r := by
  have hbit : ∀ (bit : Bool) (c : Char), c ∈ prefixLetters → b ∉ bitLetter bit c := fun bit c hc =>
    notMem_bitLetter bit (h c hc)
  have hone : ∀ c ∈ prefixLetters, b ∉ [chr c] := fun c hc => mt List.mem_singleton.1 (h c hc)
  have hmiddle : b ∉ if r.cvsIgnore then [chr 'C']
      else bitLetter r.noInherit 'n' ++ bitLetter r.wordSplit 'w' ++
        (if r.noPrefixes then [if r.include' then chr '+' else chr '-'] else []) := by
    split_ifs
    · exact hone 'C' (by simp [prefixLetters])
    all_goals simp only [List.mem_append, not_or]
    · exact ⟨⟨hbit _ 'n' (by simp [prefixLetters]), hbit _ 'w' (by simp [prefixLetters])⟩,
        hone '+' (by simp [prefixLetters])⟩
    · exact ⟨⟨hbit _ 'n' (by simp [prefixLetters]), hbit _ 'w' (by simp [prefixLetters])⟩,
        hone '-' (by simp [prefixLetters])⟩
    · exact ⟨⟨hbit _ 'n' (by simp [prefixLetters]), hbit _ 'w' (by simp [prefixLetters])⟩, List.not_mem_nil⟩
  rw [prefixRest, prefixModifiers]
  simp only [List.mem_append, List.mem_singleton, not_or]
  exact ⟨⟨⟨⟨hbit _ '/' (by simp [prefixLetters]), hbit _ '!' (by simp [prefixLetters])⟩, hmiddle⟩,
    hbit _ 'e' (by simp [prefixLetters])⟩, hbit _ 's' (by simp [prefixLetters]),
    hbit _ 'r' (by simp [prefixLetters]), hbit _ 'p' (by simp [prefixLetters]), hspace⟩

theorem comma_notMem_prefixRest (o : RuleSession) (r : TokenFlags) : chr ',' ∉ prefixRest o r := by
  refine notMem_prefixRest o r (by decide) ?_
  simp only [prefixLetters, List.forall_mem_cons]
  exact ⟨by decide, by decide, by decide, by decide, by decide, by decide, by decide, by decide,
    by decide, by decide, by decide, by simp⟩

/-- A prefix is a C string. -/
theorem nul_notMem_pre {o : RuleSession} {r : TokenFlags} {pat pre : Bytes} (hp : 29 ≤ o.protocolVersion)
    (h : getRulePrefix o r pat true = some pre) : 0 ∉ pre := by
  have hkind : (0 : UInt8) ≠ chr r.kind := by
    rw [TokenFlags.kind]
    split_ifs <;> decide
  rw [getRulePrefix_eq hp h]
  refine mt List.mem_cons.1 (not_or.2 ⟨hkind, notMem_prefixRest o r (by decide) ?_⟩)
  simp only [prefixLetters, List.forall_mem_cons]
  exact ⟨by decide, by decide, by decide, by decide, by decide, by decide, by decide, by decide,
    by decide, by decide, by decide, by simp⟩

/-- No letter of a prefix is the comma that may follow a kind. -/
theorem head_prefixRest (o : RuleSession) (r : TokenFlags) (s : Bytes) :
    (prefixRest o r ++ s).head? ≠ some (chr ',') := by
  have hne : prefixRest o r ≠ [] := by simp [prefixRest]
  intro h
  rw [List.head?_append_of_ne_nil _ hne] at h
  exact comma_notMem_prefixRest o r (List.mem_of_mem_head? h)

/-- The bits of a prefix come back. -/
theorem parsePrefix_prefix {o : RuleSession} {r : TokenFlags} {pat pre : Bytes} (hp : 29 ≤ o.protocolVersion)
    (hr : r.Listed) (h : getRulePrefix o r pat true = some pre) (s : Bytes) :
    parsePrefix TokenFlags.none false (pre ++ s) = .ok (r.sent o, s) := by
  have hkind : ruleKind (chr r.kind :: (prefixRest o r ++ s)) = some (r.kind, prefixRest o r ++ s) := by
    have hhead := head_prefixRest o r s
    generalize prefixRest o r ++ s = rest at hhead ⊢
    rw [TokenFlags.kind]
    split_ifs
    all_goals
      show some (_, if rest.head? = some (chr ',') then rest.tail else rest) = _
      rw [if_neg hhead]
      rfl
  rw [getRulePrefix_eq hp h, List.cons_append, parsePrefix, hkind]
  simp only [prefixRest, List.append_assoc, List.singleton_append]
  cases hperdir : r.perdirMerge with
  | true =>
    have hc : r.kind = ':' := by rw [TokenFlags.kind, hperdir, if_pos rfl]
    rw [hc]
    show modifiers false false _ { TokenFlags.none with
      perdirMerge := true, finishSetup := true, mergeFile := true } _ = _
    rw [modifiers_merge hr hperdir rfl, modifiers_sides _ _ _ rfl rfl rfl]
    simp [TokenFlags.sent, TokenFlags.none, hr.clearList, hr.excludeSelf, hr.mergeFile,
      hr.finishSetup, hr.negate hperdir, hperdir]
  | false =>
    have hacc : kindFlags TokenFlags.none.inherit r.kind =
        some ({ TokenFlags.none with include' := r.include' }, false) := by
      rw [TokenFlags.kind, hperdir, if_neg (by simp)]
      cases r.include' <;> rfl
    have hclear : r.kind ≠ '!' := by
      rw [TokenFlags.kind]
      split_ifs <;> decide
    rw [hacc]
    show (if r.kind = '!' then _ else modifiers false false _ _ _) = _
    rw [if_neg hclear, modifiers_plain hr hperdir rfl, modifiers_sides _ _ _ rfl rfl rfl]
    simp [TokenFlags.sent, TokenFlags.none, hr.clearList, hr.excludeSelf, hr.mergeFile,
      hr.finishSetup, hperdir]

/-- What `get_rule_prefix` writes, `parse_rule_tok` reads back: the bits that are sent, and the
    text behind the prefix as the pattern. -/
theorem parseRuleTok_prefix {o : RuleSession} {r : TokenFlags} {pat pre s : Bytes} (deleteExcluded : Bool)
    (hp : 29 ≤ o.protocolVersion) (hr : r.Listed) (h : getRulePrefix o r pat true = some pre)
    (hs : s ≠ [] ∨ r.cvsIgnore = true) :
    parseRuleTok deleteExcluded TokenFlags.none false (pre ++ s) =
      .ok (some ⟨senderRule deleteExcluded (r.sent o), s, []⟩) := by
  have hne : pre ++ s ≠ [] := by simp [getRulePrefix_eq hp h]
  have hclear : (r.sent o).clearList = false := hr.clearList
  have hlength : checkPatLen false (r.sent o) s.length (pre ++ s) = .ok (r.sent o) := by
    rw [checkPatLen, if_neg (by simp [hclear]), if_neg]
    rcases hs with hs | hs
    · simp [hs]
    · simp [TokenFlags.sent, hs]
  have hsides : inheritSides TokenFlags.none (r.sent o) (pre ++ s) = .ok (r.sent o) := rfl
  rw [parseRuleTok]
  simp only [show TokenFlags.none.wordSplit = false from rfl, Bool.false_eq_true, if_false, if_neg hne,
    parsePrefix_prefix hp hr h]
  show (do
    let rule ← inheritSides TokenFlags.none (r.sent o) (pre ++ s)
    let rule ← checkPatLen false rule s.length (pre ++ s)
    Except.ok (some (⟨senderRule deleteExcluded rule, s, s.drop s.length⟩ : ParsedRule))) = _
  rw [hsides]
  show (do
    let rule ← checkPatLen false (r.sent o) s.length (pre ++ s)
    Except.ok (some (⟨senderRule deleteExcluded rule, s, s.drop s.length⟩ : ParsedRule))) = _
  rw [hlength, List.drop_length]
  rfl

/-! ## The bits of a rule that was parsed -/

/-- What the bits are like while the modifiers are read. -/
structure TokenFlags.Prefixed (r : TokenFlags) : Prop where
  perdirMerge : r.perdirMerge = true → r.mergeFile = true
  finishSetup : r.finishSetup = r.perdirMerge
  excludeSelf : r.excludeSelf = true → r.mergeFile = true
  cvs : r.cvsIgnore = true → r.noPrefixes = true ∧ r.wordSplit = true ∧ r.noInherit = true
  plain : r.mergeFile = false → r.cvsIgnore = false →
    r.noPrefixes = false ∧ r.wordSplit = false ∧ r.noInherit = false
  merge : r.mergeFile = true → r.negate = false ∧ r.directory = false
  merge_include : r.mergeFile = true → r.include' = true → r.noPrefixes = true ∧ r.cvsIgnore = false

/-- The template of a text in which merge files may be mentioned has no bit but those that all
    rules may have. -/
def TokenFlags.TemplateOk (template : TokenFlags) (oldPrefixes : Bool) : Prop :=
  template.noPrefixes = true ∨ oldPrefixes = true ∨
    template.include' = false ∧ template.negate = false ∧ template.directory = false

theorem TokenFlags.prefixed_inherit (template : TokenFlags) : template.inherit.Prefixed where
  perdirMerge := by simp [TokenFlags.inherit, TokenFlags.none]
  finishSetup := by simp [TokenFlags.inherit, TokenFlags.none]
  excludeSelf := by simp [TokenFlags.inherit, TokenFlags.none]
  cvs := by simp [TokenFlags.inherit, TokenFlags.none]
  plain := by simp [TokenFlags.inherit, TokenFlags.none]
  merge := by simp [TokenFlags.inherit, TokenFlags.none]
  merge_include := by simp [TokenFlags.inherit, TokenFlags.none]

theorem prefixed_kindFlags {template r : TokenFlags} {ch : Char} {side : Bool}
    (hinclude : template.include' = false) (hnegate : template.negate = false)
    (hdirectory : template.directory = false)
    (h : kindFlags template.inherit ch = some (r, side)) : r.Prefixed := by
  unfold kindFlags at h
  split at h
  all_goals
    simp only [Option.some.injEq, Prod.mk.injEq, reduceCtorEq] at h
    try obtain ⟨rfl, -⟩ := h
    try constructor
  all_goals simp [TokenFlags.inherit, TokenFlags.none, hinclude, hnegate, hdirectory]

theorem directory_of_kindFlags {template r : TokenFlags} {ch : Char} {side : Bool}
    (h : kindFlags template.inherit ch = some (r, side)) : r.directory = template.directory := by
  unfold kindFlags at h
  split at h
  all_goals
    simp only [Option.some.injEq, Prod.mk.injEq, reduceCtorEq] at h
    try rw [← h.1]
    try rfl

theorem TokenFlags.Prefixed.of_modifier {r r' : TokenFlags} {side : Bool} {ch : Char} (hr : r.Prefixed)
    (h : modifier side r ch = some r') : r'.Prefixed := by
  obtain ⟨h₁, h₂, h₃, h₄, h₅, h₆, h₇⟩ := hr
  unfold modifier at h
  split at h
  all_goals
    try split_ifs at h
    try simp only [Option.some.injEq, reduceCtorEq] at h
    try subst h
    try constructor
  all_goals simp_all

theorem TokenFlags.Prefixed.of_modifiers {wordSplit side : Bool} {rulestr s rest : Bytes} {r r' : TokenFlags}
    (hr : r.Prefixed) (h : modifiers wordSplit side rulestr r s = .ok (r', rest)) :
    r'.Prefixed ∧ rest <:+ s := by
  induction s generalizing r with
  | nil =>
    obtain ⟨rfl, rfl⟩ := Prod.mk.inj (Except.ok.inj h)
    exact ⟨hr, List.suffix_rfl⟩
  | cons c s ih =>
    rw [modifiers] at h
    split_ifs at h
    · obtain ⟨rfl, rfl⟩ := Prod.mk.inj (Except.ok.inj h)
      exact ⟨hr, List.suffix_cons c s⟩
    · obtain ⟨rfl, rfl⟩ := Prod.mk.inj (Except.ok.inj h)
      exact ⟨hr, List.suffix_rfl⟩
    · cases hm : modifier side r (letter c) with
      | none => simp [hm] at h
      | some r₁ =>
        rw [hm] at h
        obtain ⟨hr', hrest⟩ := ih (hr.of_modifier hm) h
        exact ⟨hr', hrest.trans (List.suffix_cons c s)⟩

theorem directory_of_modifier {r r' : TokenFlags} {side : Bool} {ch : Char}
    (h : modifier side r ch = some r') : r'.directory = r.directory := by
  unfold modifier at h
  split at h
  all_goals
    try split_ifs at h
    try simp only [Option.some.injEq, reduceCtorEq] at h
    try subst h
    try rfl

theorem directory_of_modifiers {wordSplit side : Bool} {rulestr s rest : Bytes} {r r' : TokenFlags}
    (h : modifiers wordSplit side rulestr r s = .ok (r', rest)) : r'.directory = r.directory := by
  induction s generalizing r with
  | nil => rw [← (Prod.mk.inj (Except.ok.inj h)).1]
  | cons c s ih =>
    rw [modifiers] at h
    split_ifs at h
    · rw [← (Prod.mk.inj (Except.ok.inj h)).1]
    · rw [← (Prod.mk.inj (Except.ok.inj h)).1]
    · cases hm : modifier side r (letter c) with
      | none => simp [hm] at h
      | some r₁ =>
        rw [hm] at h
        exact (ih h).trans (directory_of_modifier hm)

theorem ruleStrcmp_suffix {str rule rest : Bytes} (h : ruleStrcmp str rule = some rest) : rest <:+ str := by
  unfold ruleStrcmp at h
  split_ifs at h
  have hdrop := List.drop_suffix rule.length str
  generalize str.drop rule.length = s at h hdrop
  cases s with
  | nil =>
    rw [← Option.some.inj h]
    exact hdrop
  | cons c s =>
    dsimp only at h
    split_ifs at h
    · rw [← Option.some.inj h]
      exact hdrop
    · rw [← Option.some.inj h]
      exact (List.suffix_cons c s).trans hdrop

theorem ruleKind_suffix {str rest : Bytes} {ch : Char} (h : ruleKind str = some (ch, rest)) :
    rest <:+ str := by
  cases str with
  | nil => exact absurd h (by simp [ruleKind])
  | cons c s =>
    have hword : ∀ (w : Bytes) (ch' : Char),
        (ruleStrcmp (c :: s) w).map (fun rest => (ch', rest)) = some (ch, rest) → rest <:+ c :: s := by
      intro w ch' hw
      obtain ⟨t, ht, heq⟩ := Option.map_eq_some_iff.1 hw
      rw [← (Prod.mk.inj heq).2]
      exact ruleStrcmp_suffix ht
    unfold ruleKind at h
    dsimp only at h
    split at h
    all_goals try exact hword _ _ h
    rw [← (Prod.mk.inj (Option.some.inj h)).2]
    split_ifs
    · exact (List.tail_suffix s).trans (List.suffix_cons c s)
    · exact List.suffix_cons c s

/-- What `parse_rule_tok` finds before the pattern. -/
theorem parsePrefix_spec {template r : TokenFlags} {oldPrefixes : Bool} {rulestr s : Bytes}
    (ht : template.TemplateOk oldPrefixes)
    (h : parsePrefix template oldPrefixes rulestr = .ok (r, s)) :
    r.Prefixed ∧ s <:+ rulestr ∧ r.directory = template.directory ∧
      (template.noPrefixes = true ∨ oldPrefixes = true → r.mergeFile = false ∧ r.cvsIgnore = false) := by
  have hinherit := template.prefixed_inherit
  rw [parsePrefix] at h
  split_ifs at h with hno hold hminus hplus
  · obtain ⟨rfl, rfl⟩ := Prod.mk.inj (Except.ok.inj h)
    exact ⟨{ hinherit with }, List.suffix_rfl, rfl, fun _ => ⟨rfl, rfl⟩⟩
  · obtain ⟨rfl, rfl⟩ := Prod.mk.inj (Except.ok.inj h)
    exact ⟨{ hinherit with merge_include := by simp [TokenFlags.inherit, TokenFlags.none] },
      List.drop_suffix 2 rulestr, rfl, fun _ => ⟨rfl, rfl⟩⟩
  · obtain ⟨rfl, rfl⟩ := Prod.mk.inj (Except.ok.inj h)
    exact ⟨{ hinherit with merge_include := by simp [TokenFlags.inherit, TokenFlags.none] },
      List.drop_suffix 2 rulestr, rfl, fun _ => ⟨rfl, rfl⟩⟩
  · obtain ⟨rfl, rfl⟩ := Prod.mk.inj (Except.ok.inj h)
    exact ⟨{ hinherit with }, List.suffix_rfl, rfl, fun _ => ⟨rfl, rfl⟩⟩
  · obtain ⟨hinclude, hnegate, hdirectory⟩ := (ht.resolve_left hno).resolve_left hold
    have hmode : ¬(template.noPrefixes = true ∨ oldPrefixes = true) := not_or.2 ⟨hno, hold⟩
    cases hkind : ruleKind rulestr with
    | none => simp [hkind] at h
    | some p =>
      obtain ⟨ch, text⟩ := p
      cases hflags : kindFlags template.inherit ch with
      | none => simp [hkind, hflags] at h
      | some q =>
        obtain ⟨r₁, side⟩ := q
        have hr₁ := prefixed_kindFlags hinclude hnegate hdirectory hflags
        have hsuffix := ruleKind_suffix hkind
        simp only [hkind, hflags] at h
        split_ifs at h
        · obtain ⟨rfl, rfl⟩ := Prod.mk.inj (Except.ok.inj h)
          exact ⟨hr₁, hsuffix, directory_of_kindFlags hflags, fun hm => absurd hm hmode⟩
        · obtain ⟨hr, hs⟩ := hr₁.of_modifiers h
          exact ⟨hr, hs.trans hsuffix, (directory_of_modifiers h).trans (directory_of_kindFlags hflags),
            fun hm => absurd hm hmode⟩

theorem except_bind_eq_ok {ε α β : Type} {x : Except ε α} {f : α → Except ε β} {b : β} :
    x >>= f = .ok b ↔ ∃ a, x = .ok a ∧ f a = .ok b := by
  cases x with
  | error e => simp [bind, Except.bind]
  | ok a => simp [bind, Except.bind]

/-- What a rule that was taken off a text is like. -/
structure ParsedRule.Ok (template : TokenFlags) (oldPrefixes : Bool) (text : Bytes) (rule : ParsedRule) :
    Prop where
  prefixed : rule.rflags.Prefixed
  mem_pat : ∀ b ∈ rule.pat, b ∈ text
  mem_rest : ∀ b ∈ rule.rest, b ∈ text
  directory : rule.rflags.directory = template.directory
  plain : template.noPrefixes = true ∨ oldPrefixes = true →
    rule.rflags.mergeFile = false ∧ rule.rflags.cvsIgnore = false
  length : rule.rflags.clearList = false → rule.pat ≠ [] ∨ rule.rflags.cvsIgnore = true

theorem inheritSides_eq {template r r' : TokenFlags} {rulestr : Bytes}
    (h : inheritSides template r rulestr = .ok r') :
    r' = { r with senderSide := r'.senderSide, receiverSide := r'.receiverSide } := by
  unfold inheritSides at h
  split_ifs at h
  · rw [← Except.ok.inj h]
  · rw [← Except.ok.inj h]

theorem checkPatLen_eq {oldPrefixes : Bool} {r r' : TokenFlags} {len : ℕ} {rulestr : Bytes}
    (h : checkPatLen oldPrefixes r len rulestr = .ok r') :
    r' = { r with clearList := r'.clearList } ∧
      (r'.clearList = false → len ≠ 0 ∨ r'.cvsIgnore = true) := by
  unfold checkPatLen at h
  split_ifs at h with hclear htrail hend
  · rw [← Except.ok.inj h]
    refine ⟨rfl, fun hlen => .inl fun hzero => ?_⟩
    simp [hzero] at hlen
  · obtain rfl := Except.ok.inj h
    refine ⟨rfl, fun _ => ?_⟩
    by_contra hno
    exact hend (by simpa using hno)

theorem senderRule_eq (deleteExcluded : Bool) (r : TokenFlags) :
    senderRule deleteExcluded r = { r with senderSide := (senderRule deleteExcluded r).senderSide } := by
  unfold senderRule
  split_ifs <;> rfl

theorem parseRuleTok_spec {deleteExcluded oldPrefixes : Bool} {template : TokenFlags} {text : Bytes}
    {rule : ParsedRule} (ht : template.TemplateOk oldPrefixes)
    (h : parseRuleTok deleteExcluded template oldPrefixes text = .ok (some rule)) :
    rule.Ok template oldPrefixes text := by
  rw [parseRuleTok] at h
  have hrulestr : (if template.wordSplit then text.dropWhile Cfmt.isSpace else text) <:+ text := by
    split_ifs
    · exact List.dropWhile_suffix _
    · exact List.suffix_rfl
  generalize (if template.wordSplit then text.dropWhile Cfmt.isSpace else text) = rulestr at h hrulestr
  rw [ite_eq_iff] at h
  obtain ⟨-, h⟩ | ⟨-, h⟩ := h
  · exact absurd (Except.ok.inj h) (by simp)
  obtain ⟨⟨r, s⟩, hlead, h⟩ := except_bind_eq_ok.1 h
  obtain ⟨r₁, hsides, h⟩ := except_bind_eq_ok.1 h
  obtain ⟨r₂, hlength, h⟩ := except_bind_eq_ok.1 h
  obtain ⟨hr, hs, hdirectory, hplain⟩ := parsePrefix_spec ht hlead
  have hr₁ := inheritSides_eq hsides
  obtain ⟨hr₂, hend⟩ := checkPatLen_eq hlength
  have hr₃ := senderRule_eq deleteExcluded r₂
  have hsub : ∀ b ∈ s, b ∈ text := fun b hb => hrulestr.subset (hs.subset hb)
  have hpat : ∀ b ∈ (if template.wordSplit then s.takeWhile (!Cfmt.isSpace ·) else s), b ∈ s := by
    split_ifs
    · exact fun b hb => (List.takeWhile_prefix _).subset hb
    · exact fun b hb => hb
  rw [← Option.some.inj (Except.ok.inj h)]
  refine
    { prefixed := ?_
      mem_pat := fun b hb => hsub b (hpat b hb)
      mem_rest := fun b hb => hsub b (List.mem_of_mem_drop hb)
      directory := ?_
      plain := fun hm => ?_
      length := fun hclear => ?_ }
  · dsimp only
    rw [hr₃, hr₂, hr₁]
    exact { hr with }
  · dsimp only
    rw [hr₃, hr₂, hr₁]
    exact hdirectory
  · dsimp only
    rw [hr₃, hr₂, hr₁]
    exact hplain hm
  · dsimp only at hclear ⊢
    rw [hr₃] at hclear ⊢
    exact (hend hclear).imp_left fun hlen hnil => hlen (by rw [hnil]; rfl)

end CloudEdgeBackup
