/-
  Lists of filter rules and their exchange (`exclude.c`).

  * `addListed` is `add_rule` for a list, `parseFilterStr` and `parseFilterFile` are the parsers of
    texts with many rules, with the files they merge and the rules of CVS;
  * `sendRules` is `send_rules`: it takes the rules of the other side only out of the list and
    writes those that the other side needs;
  * `sendFilterList` and `recvFilterList` are the two ends of the exchange.
-/
import CloudEdgeBackup.RuleTokens
import CloudEdgeBackup.Wire

namespace CloudEdgeBackup

open Codec

/-! ## Lists -/

/-- A rule in a list. -/
structure ListedRule where
  pattern : Bytes
  rflags : TokenFlags
  wildFlags : WildFlags
  slashCnt : ℕ
deriving DecidableEq

/-- The name of a merge file without its directory. -/
def mergeBase (pattern : Bytes) : Bytes := pattern.rtakeWhile (· ≠ slash)

/-- A merge file of this name is mentioned. -/
def Mentioned (list : List ListedRule) (pattern : Bytes) : Bool :=
  list.any fun ex => ex.rflags.perdirMerge && mergeBase ex.pattern = mergeBase pattern

/-- `add_rule`, at the end of a list; a per-directory merge file is not added again. -/
def addListed (ctx : FilterContext) (xflags : XFlagBits) (pat : Bytes) (rflags : TokenFlags)
    (list : List ListedRule) : List ListedRule :=
  match addRule ctx pat rflags.toRuleFlags xflags with
  | none => list
  | some r =>
    if r.rflags.perdirMerge && Mentioned list r.pattern then list
    else list ++ [⟨r.pattern, { rflags with toRuleFlags := r.rflags }, r.wildFlags, r.slashCnt⟩]

/-- `filter_list` and `cvs_filter_list`, and whether the latter was read. -/
structure RuleLists where
  rules : List ListedRule
  cvs : List ListedRule
  cvsRead : Bool
deriving DecidableEq

/-! ## Texts with many rules -/

/-- What the texts are read from: `parse_merge_name`, the files, the `.cvsignore` of the home
    directory and `CVSIGNORE`. -/
structure FilterFiles where
  mergeName : Bytes → Option Bytes
  fopen : Bytes → Option Bytes
  homeIgnore : Option Bytes
  envIgnore : Option Bytes
  eolNulls : Bool

/-- The ways to exit: an error of the syntax, a file that cannot be opened, a rule that the other
    side does not know, a line that is too long, the end of the connection, and merge files that
    merge themselves. -/
inductive FilterExit where
  | badRule (e : RuleError)
  | fileIo
  | protocol
  | overflow
  | eof
  | tooDeep
deriving DecidableEq

abbrev lineBufLen : ℕ := maxPathLen + 1024

/-- The lines of a file that are parsed; one that is too long is as an empty one. -/
def filterLines (eolNulls wordSplit : Bool) (text : Bytes) : List Bytes :=
  let atEnd (c : UInt8) : Bool :=
    wordSplit && Cfmt.isSpace c || (if eolNulls then c = 0 else c = chr '\n' || c = chr '\r')
  let lines := (text.splitOnP atEnd).map fun line =>
    (if lineBufLen - 1 < line.length then [] else line).takeWhile (· ≠ 0)
  lines.filter fun line =>
    line ≠ [] && (wordSplit || line.head? ≠ some (chr ';') && line.head? ≠ some (chr '#'))

section Parser

variable (files : FilterFiles) (o : RuleSession) (ctx : FilterContext)

/-- `parse_filter_file`, where `parse` is `parse_filter_str`. -/
def parseFilterFile (parse : TokenFlags → TokenXFlags → Bytes → RuleLists → Except FilterExit RuleLists)
    (template : TokenFlags) (xflags : TokenXFlags) (text : Option Bytes) (l : RuleLists) :
    Except FilterExit RuleLists :=
  match text with
  | none => if xflags.fatalErrors then .error .fileIo else .ok l
  | some text =>
    (filterLines files.eolNulls template.wordSplit text).foldlM
      (fun l line => parse template xflags line l) l

/-- No flag of a call. -/
def TokenXFlags.none : TokenXFlags := ⟨⟨false, false, false⟩, false, false⟩

def defaultCvsignore : Bytes :=
  cstr <| "RCS SCCS CVS CVS.adm RCSLOG cvslog.* tags TAGS" ++
    " .make.state .nse_depinfo *~ #* .#* ,* _$* *$" ++
    " *.old *.bak *.BAK *.orig *.rej .del-*" ++
    " *.a *.olb *.o *.obj *.so *.exe" ++
    " *.Z *.elc *.ln core" ++
    " .svn/ .git/ .hg/ .bzr/"

/-- `get_cvs_excludes` -/
def getCvsExcludes (parse : TokenFlags → TokenXFlags → Bytes → RuleLists → Except FilterExit RuleLists)
    (rflags : TokenFlags) (l : RuleLists) : Except FilterExit RuleLists :=
  if l.cvsRead then .ok l
  else do
    let perishable := { rflags with perishable := rflags.perishable || 30 ≤ o.protocolVersion }
    let cvs ← parse perishable .none defaultCvsignore ⟨[], [], true⟩
    let cvs ← parseFilterFile files parse rflags .none files.homeIgnore cvs
    let cvs ← match files.envIgnore with
      | none => Except.ok cvs
      | some text => parse rflags .none text cvs
    .ok { l with cvs := cvs.rules, cvsRead := true }

/-- What `parse_filter_str` does with one rule. -/
def takeRule (parse : TokenFlags → TokenXFlags → Bytes → RuleLists → Except FilterExit RuleLists)
    (xflags : TokenXFlags) (rule : ParsedRule) (l : RuleLists) : Except FilterExit RuleLists :=
  let add (xflags : XFlagBits) (pat : Bytes) (rflags : TokenFlags) (l : RuleLists) : RuleLists :=
    { l with rules := addListed ctx xflags pat rflags l.rules }
  if maxPathLen ≤ rule.pat.length then .ok l
  else if rule.rflags.clearList then .ok { l with rules := [] }
  else if rule.rflags.mergeFile then
    let pat := if rule.pat = [] then cstr ".cvsignore" else rule.pat
    let l := if rule.rflags.excludeSelf then add TokenXFlags.none.toXFlagBits (mergeBase pat) .none l else l
    let rflags := { rule.rflags with excludeSelf := false }
    if rflags.perdirMerge then .ok (add xflags.toXFlagBits pat rflags l)
    else
      match files.mergeName pat with
      | none => .ok l
      | some fname =>
        parseFilterFile files parse rflags { TokenXFlags.none with fatalErrors := true } (files.fopen fname) l
  else
    let l := add xflags.toXFlagBits rule.pat rule.rflags l
    if rule.rflags.cvsIgnore then getCvsExcludes files o parse rule.rflags l else .ok l

/-- `parse_filter_str`; the number bounds the rules and the files that are open. -/
def parseFilterStr : ℕ → TokenFlags → TokenXFlags → Bytes → RuleLists → Except FilterExit RuleLists
  | 0, _, _, _, _ => .error .tooDeep
  | fuel + 1, template, xflags, rulestr, l =>
    match parseRuleTok o.deleteExcluded template xflags.oldPrefixes (rulestr.takeWhile (· ≠ 0)) with
    | .error e => .error (.badRule e)
    | .ok none => .ok l
    | .ok (some rule) => do
      let l ← takeRule files o ctx (parseFilterStr fuel) xflags rule l
      parseFilterStr fuel template xflags rule.rest l

/-! ## The options of the client -/

/-- An option that gives rules: the partial directory gives one as well. -/
inductive RuleOption where
  | filter (text : Bytes)
  | exclude (text : Bytes)
  | include' (text : Bytes)
  | excludeFrom (fname : Bytes)
  | includeFrom (fname : Bytes)
  | partialDir (dir : Bytes) (perishable : Bool)

def parseRuleOption (fuel : ℕ) (l : RuleLists) : RuleOption → Except FilterExit RuleLists
  | .filter text => parseFilterStr files o ctx fuel .none .none text l
  | .exclude text =>
    parseFilterStr files o ctx fuel .none { TokenXFlags.none with oldPrefixes := true } text l
  | .include' text =>
    parseFilterStr files o ctx fuel { TokenFlags.none with include' := true }
      { TokenXFlags.none with oldPrefixes := true } text l
  | .excludeFrom fname =>
    parseFilterFile files (parseFilterStr files o ctx fuel) .none
      { TokenXFlags.none with oldPrefixes := true, fatalErrors := true } (files.fopen fname) l
  | .includeFrom fname =>
    parseFilterFile files (parseFilterStr files o ctx fuel) { TokenFlags.none with include' := true }
      { TokenXFlags.none with oldPrefixes := true, fatalErrors := true } (files.fopen fname) l
  | .partialDir dir perishable =>
    parseFilterStr files o ctx fuel
      { TokenFlags.none with noPrefixes := true, directory := true, perishable := perishable } .none dir l

/-- The lists of the client after its options. -/
def parseRuleOptions (fuel : ℕ) (options : List RuleOption) : Except FilterExit RuleLists :=
  options.foldlM (parseRuleOption files o ctx fuel) ⟨[], [], false⟩

end Parser

/-! ## Sending -/

/-- Which side the rule is for alone: `1` for this side, `-1` for the other one, `0` for none. -/
def elide (o : RuleSession) (r : TokenFlags) : ℤ :=
  let this := if r.senderSide then if o.amSender then 1 else -1 else 0
  if r.receiverSide then if this ≠ 0 then 0 else if o.amSender then -1 else 1
  else if o.deleteExcluded && this = 0 && (!r.perdirMerge || r.noPrefixes) then if o.amSender then 1 else -1
  else this

/-- A rule of CVS that is no merge file. -/
def TokenFlags.cvsRule (r : TokenFlags) : Bool := r.cvsIgnore && !r.mergeFile

/-- The last part of the loop: the rule with its prefix. -/
def sendRule (o : RuleSession) (out : Bool) (ent : ListedRule) : Except FilterExit Bytes :=
  match getRulePrefix o ent.rflags ent.pattern true with
  | none => .error .protocol
  | some p =>
    let line := p ++ ent.pattern ++ bitLetter ent.rflags.directory '/'
    .ok (if out && line ≠ [] then writeInt line.length ++ line else [])

/-- What `send_rules` does with one rule, where `inner` sends the rules of CVS: what is left of
    these, and what is written. -/
def sendEntry (o : RuleSession) (inner : Bool → List ListedRule → Except FilterExit (List ListedRule × Bytes))
    (out : Bool) (ent : ListedRule) (cvs : List ListedRule) : Except FilterExit (List ListedRule × Bytes) :=
  if 0 < elide o ent.rflags then .ok (cvs, [])
  else if ent.rflags.cvsRule then do
    let expand : Bool := o.amSender || o.protocolVersion < 29
    let (cvs, bytes) ← inner (out && expand) cvs
    if expand then .ok (cvs, bytes)
    else do
      let line ← sendRule o out ent
      .ok (cvs, bytes ++ line)
  else do
    let line ← sendRule o out ent
    .ok (cvs, line)

/-- The loop of `send_rules`: what is left of the list and of the rules of CVS, and what is
    written. -/
def sendRuleLoop (o : RuleSession)
    (inner : Bool → List ListedRule → Except FilterExit (List ListedRule × Bytes)) (out : Bool) : List ListedRule → List ListedRule →
      Except FilterExit (List ListedRule × List ListedRule × Bytes)
  | [], cvs => .ok ([], cvs, [])
  | ent :: rest, cvs => do
    let (cvs, bytes) ← sendEntry o inner out ent cvs
    let (kept, cvs, more) ← sendRuleLoop o inner out rest cvs
    .ok (if elide o ent.rflags < 0 then kept else ent :: kept, cvs, bytes ++ more)

/-- `send_rules` for the rules of CVS, which have none of CVS among them. -/
def sendCvs (o : RuleSession) (out : Bool) (cvs : List ListedRule) :
    Except FilterExit (List ListedRule × Bytes) := do
  let (kept, _, bytes) ← sendRuleLoop o (fun _ cvs => .ok (cvs, [])) out cvs []
  .ok (kept, bytes)

/-- `send_rules` -/
def sendRules (o : RuleSession) (out : Bool) (l : RuleLists) : Except FilterExit (RuleLists × Bytes) := do
  let (rules, cvs, bytes) ← sendRuleLoop o (sendCvs o) out l.rules l.cvs
  .ok ({ l with rules := rules, cvs := cvs }, bytes)

/-! ## The exchange -/

/-- `receiver_wants_list` -/
def RuleSession.receiverWantsList (o : RuleSession) : Bool :=
  o.pruneEmptyDirs || o.deleteMode && (!o.deleteExcluded || 29 ≤ o.protocolVersion)

section Exchange

variable (files : FilterFiles) (o : RuleSession) (ctx : FilterContext) (fuel : ℕ)

/-- A rule that an end adds by itself. -/
def addRuleIf (on : Bool) (text : Bytes) (l : RuleLists) : Except FilterExit RuleLists :=
  if on then parseFilterStr files o ctx fuel .none .none text l else .ok l

/-- The rules of CVS that an end adds by itself. -/
def addCvsRules (merge plain : Bool) (l : RuleLists) : Except FilterExit RuleLists := do
  let l ← addRuleIf files o ctx fuel merge (cstr ":C") l
  addRuleIf files o ctx fuel plain (cstr "-C") l

/-- The rules of CVS that `send_filter_list` adds before it sends. -/
def rulesToSend (l : RuleLists) : Except FilterExit RuleLists :=
  addCvsRules files o ctx fuel (o.cvsExclude && o.amSender && 29 ≤ o.protocolVersion)
    (o.cvsExclude && o.amSender) l

/-- The other side reads what is written. -/
def RuleSession.sends (o : RuleSession) : Bool := !(o.localServer || o.amSender && !o.receiverWantsList)

/-- `send_filter_list`; it writes nothing where the other side does not read. -/
def sendFilterList (l : RuleLists) : Except FilterExit (RuleLists × Bytes) := do
  let l ← rulesToSend files o ctx fuel l
  let (l, bytes) ← sendRules o o.sends l
  let l ← addCvsRules files o ctx fuel (o.cvsExclude && (!o.amSender || o.protocolVersion < 29))
    (o.cvsExclude && !o.amSender) l
  .ok (l, if o.sends then bytes ++ writeInt 0 else bytes)

/-- The loop of `recv_filter_list`: the lists, and the rest of the input. -/
def recvRules : ℕ → Bytes → RuleLists → Except FilterExit (RuleLists × Bytes)
  | 0, _, _ => .error .eof
  | n + 1, input, l =>
    match readInt input with
    | none => .error .eof
    | some (len, input) =>
      let len := (len % 2 ^ 32).toNat
      if len = 0 then .ok (l, input)
      else if lineBufLen ≤ len then .error .overflow
      else
        match getN len input with
        | none => .error .eof
        | some (line, input) => do
          let xflags := { TokenXFlags.none with oldPrefixes := o.protocolVersion < 29 }
          let l ← parseFilterStr files o ctx fuel .none xflags line l
          recvRules n input l

/-- The lines of `recv_filter_list`, if it reads any. -/
def recvLines (input : Bytes) (l : RuleLists) : Except FilterExit (RuleLists × Bytes) :=
  if !o.localServer && (o.amSender || o.receiverWantsList) then
    recvRules files o ctx fuel (input.length + 1) input l
  else .ok (l, input)

/-- `recv_filter_list`, with the input of the connection: the lists, and the rest of the input. -/
def recvFilterList (input : Bytes) (l : RuleLists) : Except FilterExit (RuleLists × Bytes) := do
  let (l, input) ← recvLines files o ctx fuel input l
  let own : Bool := o.localServer || o.amSender
  let l ← addCvsRules files o ctx fuel (o.cvsExclude && (own || o.protocolVersion < 29))
    (o.cvsExclude && own) l
  if o.localServer then do
    let (l, _) ← sendRules o false l
    .ok (l, input)
  else .ok (l, input)

end Exchange

end CloudEdgeBackup
