/-
  Authentication of a daemon's users: `auth_server` and `check_secret`.

  * `authServer` goes through the rules that `strtok` cuts out of "auth users" and
    `checkSecret` through what `fgets` reads of the secrets file, a line at a time or
    what of it fits the buffer;
  * `docVerdict` is what the documentation of the two parameters promises: the rules
    of the list, which is only split at commas when it starts with one, and the whole
    lines of the file;
  * where no entry of such a list has a blank in it and the lines fit the buffer
    (`ListOk`, `FileOk`) the rules and the lines are the documented ones
    (`tokens_docRules`, `secretLoop_lines`).

  The wildcard match, the hash of a secret with the challenge, the groups of a user
  and the files are parameters.
-/
import CloudEdgeBackup.Store
import CloudEdgeBackup.Lib.Lines

namespace CloudEdgeBackup

open Lines

/-! ## Rules -/

abbrev comma : UInt8 := 44
abbrev space : UInt8 := 32
abbrev tab : UInt8 := 9
abbrev colon : UInt8 := 58
abbrev atSign : UInt8 := 64
abbrev hashSign : UInt8 := 35
abbrev newline : UInt8 := 10
abbrev carriageReturn : UInt8 := 13

/-- The separators of `strtok(users, " ,\t")`. -/
def isListSep (b : UInt8) : Bool := b == space || b == comma || b == tab

/-- `isUpper(p) ? toLower(p) : *p` -/
def toLower (b : UInt8) : UInt8 := if 65 ≤ b ∧ b ≤ 90 then b + 32 else b

/-- The option of a rule (`opt_ch`). -/
inductive RuleOpt where
  | none
  | deny
  | ro
  | rw
  deriving DecidableEq

/-- The option the user appended to a rule: `:deny`, `:ro` or `:rw`. -/
def ruleOption (tok : Bytes) : RuleOpt :=
  match (tok.dropWhile (· ≠ colon)).tail.map toLower with
  | 114 :: 111 :: _ => .ro
  | 114 :: 119 :: _ => .rw
  | 100 :: _ => .deny
  | _ => .none

/-- `read_only` after a user was accepted by a rule. -/
def RuleOpt.readOnly : RuleOpt → Bool → Bool
  | .ro, _ => true
  | .rw, _ => false
  | _, readOnly => readOnly

/-- What the name of a rule matches: the user, or the first of the user's groups
    (where `gid_to_group` knows its name) that matches an `@` rule. -/
def matchRule (wildmatch : Bytes → Bytes → Bool) (user : Bytes) (groups : List (Option Bytes))
    (tok : Bytes) : Option (Option Bytes) :=
  let name := tok.takeWhile (· ≠ colon)
  if name.head? = some atSign then
    (groups.findSome? fun group => group.filter (wildmatch name.tail)).map some
  else if wildmatch name user then some none
  else none

/-- The loop over the rules: it stops at the first that matches. -/
def firstRule (wildmatch : Bytes → Bytes → Bool) (user : Bytes) (groups : List (Option Bytes)) :
    List Bytes → Option (RuleOpt × Option Bytes)
  | [] => none
  | tok :: toks =>
    match matchRule wildmatch user groups tok with
    | some group => some (ruleOption tok, group)
    | none => firstRule wildmatch user groups toks

/-! ## The secrets file -/

/-- An opened secrets file: `st_mode` and `st_uid` where `fstat` works. -/
structure SecretsFile where
  fstat : Option (ℕ × ℕ)
  content : Bytes

/-- The file may be used: `strict modes` asks for its permissions and owner. -/
def SecretsFile.usable (f : SecretsFile) (strictModes : Bool) (myUid : ℕ) : Bool :=
  match f.fstat with
  | none => false
  | some (mode, uid) => !strictModes || (mode &&& 6 == 0 && !(myUid == 0 && uid != 0))

/-- `fgets` into a buffer of `size` bytes: the line and the rest of the file. -/
def fgets (size : ℕ) (s : Bytes) : Option (Bytes × Bytes) :=
  if s = [] then none
  else
    let line := takeLine newline (size - 1) s
    some (line, s.drop line.length)

/-- The separators of `strtok(line, "\n\r")`. -/
def isLineSep (b : UInt8) : Bool := b == newline || b == carriageReturn

/-- `user` and `group`, as long as their names are looked for, and `err`. -/
structure SecretState where
  user : Option Bytes
  group : Option Bytes
  err : Option String

/-- One line without its end: the secret of the user or of the group. -/
def secretLine (hash : Bytes → Bytes → Bytes) (challenge pass : Bytes) (st : SecretState)
    (line : Bytes) : SecretState :=
  let isGroup : Bool := line.head? = some atSign
  let s := if isGroup then line.tail else line
  match if isGroup then st.group else st.user with
  | none => st
  | some name =>
    if (name ++ [colon]) <+: s then
      if pass = hash (s.drop (name.length + 1)) challenge then { st with err := none }
      -- Don't look for name again.
      else if isGroup then { st with group := none, err := some "password mismatch" }
      else { st with user := none, err := some "password mismatch" }
    else st

/-- The loop over the file; `err` is cleared when a secret fits. -/
def secretLoop (hash : Bytes → Bytes → Bytes) (challenge pass : Bytes) :
    ℕ → SecretState → Bytes → Option SecretState
  | 0, _, _ => none
  | n + 1, st, s =>
    if st.err = none ∨ (st.user = none ∧ st.group = none) then some st
    else
      match fgets 1024 s with
      | none => some st
      | some (line, rest) =>
        let st' := match (tokens isLineSep (line.takeWhile (· ≠ 0))).head? with
          | none => st
          | some t => secretLine hash challenge pass st t
        secretLoop hash challenge pass n st' rest

/-- The parameters of a module and the system around it. -/
structure AuthEnv where
  authUsers : Option Bytes
  secretsFile : Option Bytes
  strictModes : Bool
  myUid : ℕ
  /-- `fopen(fname, "r")` -/
  fopen : Bytes → Option SecretsFile
  /-- The groups of a real user, by name; a user that is none has no groups. -/
  groupsOf : Bytes → List (Option Bytes)
  wildmatch : Bytes → Bytes → Bool
  /-- `generate_hash` -/
  hash : Bytes → Bytes → Bytes

/-- `check_secret`: the error, `none` where the secret fits. -/
def checkSecret (env : AuthEnv) (user : Bytes) (group : Option Bytes) (challenge pass : Bytes) :
    Option String :=
  match (env.secretsFile.filter (· ≠ [])).bind env.fopen with
  | none => some "no secrets file"
  | some f =>
    if !f.usable env.strictModes env.myUid then some "ignoring secrets file"
    -- Reject attempt to match a comment.
    else if user.head? = some hashSign then some "invalid username"
    else
      match secretLoop env.hash challenge pass (f.content.length + 1)
          ⟨some user, group, some "secret not found"⟩ f.content with
      | none => some "secret not found"
      | some st => st.err

/-- What `auth_server` returns: "", `NULL` (with what is logged) or the user. -/
inductive AuthResult where
  | anonymous
  | rejected (err : String)
  | accepted (user : Bytes)
  deriving DecidableEq

/-- `auth_server` with the line `read_line_old` returned; also `read_only` afterwards. -/
def authServer (env : AuthEnv) (challenge : Bytes) (response : Option Bytes) (readOnly : Bool) :
    AuthResult × Bool :=
  match env.authUsers.filter (· ≠ []) with
  | none => (.anonymous, readOnly)
  | some users =>
    match response.filter (space ∈ ·) with
    | none => (.rejected "invalid challenge response", readOnly)
    | some line =>
      let user := line.takeWhile (· ≠ space)
      let pass := (line.dropWhile (· ≠ space)).tail
      match firstRule env.wildmatch user (env.groupsOf user) (tokens isListSep users) with
      | none => (.rejected "no matching rule", readOnly)
      | some (opt, group) =>
        if opt = .deny then (.rejected "denied by rule", readOnly)
        else
          match checkSecret env user group challenge pass with
          | some err => (.rejected err, readOnly)
          | none => (.accepted user, opt.readOnly readOnly)

/-! ## What the documentation promises -/

/-- Blanks around an entry of the list. -/
def isBlank (b : UInt8) : Bool := b == space || b == tab

/-- The rules of the list: starting with a comma it is only split at commas, and the
    entries are without the blanks around them; empty ones are ignored. -/
def docRules (users : Bytes) : List Bytes :=
  if users.head? = some comma then
    ((users.splitOn comma).map (trim isBlank)).filter fun r => !r.isEmpty
  else tokens isListSep users

/-- A line without the carriage return some systems end it with. -/
def dropCR (line : Bytes) : Bytes :=
  if line.getLast? = some carriageReturn then line.dropLast else line

/-- The whole lines of a file. -/
def docLines (content : Bytes) : List Bytes := (content.splitOn newline).map dropCR

/-- The first line that starts with `name:` has a secret with this hash. -/
def opens (hash : Bytes → Bytes → Bytes) (challenge pass : Bytes) (lines : List Bytes)
    (name : Bytes) : Bool :=
  match lines.find? fun line => decide ((name ++ [colon]) <+: line) with
  | none => false
  | some line => pass = hash (line.drop (name.length + 1)) challenge

/-- The content of the secrets file, where there is one that may be used. -/
def secretsContent (env : AuthEnv) : Option Bytes :=
  (((env.secretsFile.filter (· ≠ [])).bind env.fopen).filter fun f =>
    f.usable env.strictModes env.myUid).map SecretsFile.content

/-- The option of the rule that lets the user in, `none` where the user stays out. -/
def docVerdict (env : AuthEnv) (users user challenge pass : Bytes) : Option RuleOpt := do
  let (opt, group) ← firstRule env.wildmatch user (env.groupsOf user) (docRules users)
  let content ← secretsContent env
  let opened := opens env.hash challenge pass (docLines content)
  if opt ≠ .deny ∧ (opened user ∨ group.any fun g => opened (atSign :: g)) then some opt else none

/-- The decision of `auth_server` is the documented one, and so is `read_only`. -/
def DecidesRight (env : AuthEnv) (users user challenge pass : Bytes) (readOnly : Bool) : Prop :=
  let result := authServer { env with authUsers := some users } challenge
    (some (user ++ space :: pass)) readOnly
  match docVerdict env users user challenge pass with
  | some opt => result = (.accepted user, opt.readOnly readOnly)
  | none => ∃ err, result = (.rejected err, readOnly)

/-! ## The list -/

/-- No entry of a list that starts with a comma has a blank in it. -/
def ListOk (users : Bytes) : Prop :=
  users.head? = some comma → ∀ rule ∈ docRules users, ∀ b ∈ rule, isBlank b = false

/-- A trimmed entry without blanks is one rule for `strtok` too. -/
theorem tokens_entry {entry : Bytes} (hcomma : comma ∉ entry)
    (h : ∀ b ∈ trim isBlank entry, isBlank b = false) :
    tokens isListSep entry = [trim isBlank entry].filter fun r => !r.isEmpty := by
  have hblank (b : UInt8) (hb : isBlank b = true) : isListSep b = true := by
    simp only [isBlank, isListSep, Bool.or_eq_true] at hb ⊢
    exact hb.elim (fun h => .inl (.inl h)) .inr
  rw [← tokens_trim hblank entry]
  by_cases hnil : trim isBlank entry = []
  · rw [hnil]; rfl
  · have hmem (b : UInt8) (hb : b ∈ trim isBlank entry) : b ∈ entry :=
      (List.dropWhile_sublist _).mem ((List.rdropWhile_prefix _ _).subset hb)
    rw [tokens_single _ hnil, List.filter_cons_of_pos (by simp [hnil])]
    · rfl
    · intro b hb
      have hb' := h b hb
      have hne : b ≠ comma := fun heq => hcomma (heq ▸ hmem b hb)
      simp only [isBlank, Bool.or_eq_false_iff] at hb'
      simp only [isListSep, Bool.or_eq_false_iff]
      exact ⟨⟨hb'.1, beq_false_of_ne hne⟩, hb'.2⟩

/-- **Without blanks in them the entries are the rules `strtok` cuts out.** -/
theorem tokens_docRules {users : Bytes} (h : ListOk users) :
    tokens isListSep users = docRules users := by
  unfold ListOk at h
  rw [docRules] at h ⊢
  split_ifs at h ⊢ with hcomma
  · have hentries (entries : List Bytes) (hmem : ∀ entry ∈ entries, comma ∉ entry)
        (htrim : ∀ entry ∈ entries, ∀ b ∈ trim isBlank entry, isBlank b = false) :
        entries.flatMap (tokens isListSep) =
          (entries.map (trim isBlank)).filter fun r => !r.isEmpty := by
      induction entries with
      | nil => rfl
      | cons entry entries ih =>
        rw [List.flatMap_cons, List.map_cons, ← List.singleton_append, List.filter_append,
          tokens_entry (hmem _ List.mem_cons_self) (htrim _ List.mem_cons_self),
          ih (fun e he => hmem e (List.mem_cons_of_mem _ he))
            fun e he => htrim e (List.mem_cons_of_mem _ he)]
    rw [tokens_splitOn (show isListSep comma = true by decide)]
    refine hentries _ (fun entry hmem => not_mem_of_mem_splitOn hmem) fun entry hmem b hb => ?_
    refine h hcomma _ (List.mem_filter.2 ⟨List.mem_map_of_mem hmem, ?_⟩) b hb
    simp [List.ne_nil_of_mem hb]
  · rfl

/-! ## The lines -/

/-- The file is text, and every line of it fits the buffer. -/
def FileOk (content : Bytes) : Prop :=
  0 ∉ content ∧ ∀ line ∈ docLines content, carriageReturn ∉ line ∧ line.length ≤ 1023

/-- The loop over the lines of the file. -/
def scanLines (hash : Bytes → Bytes → Bytes) (challenge pass : Bytes) (st : SecretState)
    (lines : List Bytes) : SecretState :=
  lines.foldl (fun st line =>
    if st.err = none ∨ (st.user = none ∧ st.group = none) then st
    else secretLine hash challenge pass st line) st

section Loop

variable {hash : Bytes → Bytes → Bytes} {challenge pass : Bytes} {st : SecretState}

theorem secretLine_nil : secretLine hash challenge pass st [] = st := by
  unfold secretLine
  cases st.user <;> simp

theorem scanLines_nil_cons (lines : List Bytes) :
    scanLines hash challenge pass st ([] :: lines) = scanLines hash challenge pass st lines := by
  rw [scanLines, List.foldl_cons, secretLine_nil, ite_self]; rfl

/-- A line as `strtok` leaves it. -/
def lineOf (chunk : Bytes) : Bytes :=
  (tokens isLineSep (chunk.takeWhile (· ≠ 0))).head?.getD []

/-- The separators behind a line are cut off. -/
theorem lineOf_append {line seps : Bytes} (hline : ∀ b ∈ line, b ≠ 0 ∧ isLineSep b = false)
    (hseps : ∀ b ∈ seps, b ≠ 0 ∧ isLineSep b = true) : lineOf (line ++ seps) = line := by
  have htake : (line ++ seps).takeWhile (fun b => decide (b ≠ 0)) = line ++ seps := by
    rw [List.takeWhile_eq_self_iff]
    intro b hb
    rcases List.mem_append.1 hb with hb | hb
    · exact decide_eq_true (hline b hb).1
    · exact decide_eq_true (hseps b hb).1
  rw [lineOf, htake, tokens_append_seps fun b hb => (hseps b hb).2]
  by_cases hnil : line = []
  · rw [hnil]; rfl
  · rw [tokens_single (fun b hb => (hline b hb).2) hnil]; rfl

/-- One round of the loop reads one chunk of the file. -/
theorem secretLoop_succ {n : ℕ} {chunk rest : Bytes}
    (hchunk : takeLine newline 1023 (chunk ++ rest) = chunk) (hne : chunk ≠ []) :
    secretLoop hash challenge pass (n + 1) st (chunk ++ rest) =
      if st.err = none ∨ (st.user = none ∧ st.group = none) then some st
      else secretLoop hash challenge pass n (secretLine hash challenge pass st (lineOf chunk)) rest := by
  have hgets : fgets 1024 (chunk ++ rest) = some (chunk, rest) := by
    rw [fgets, if_neg (List.append_ne_nil_of_left_ne_nil hne _)]
    simp only [Nat.reduceSub, hchunk, List.drop_left]
  rw [secretLoop, hgets]
  simp only [lineOf]
  cases (tokens isLineSep (chunk.takeWhile fun b => decide (b ≠ 0))).head? with
  | none => rw [Option.getD_none, secretLine_nil]
  | some t => rfl

/-! ### Whole lines -/

/-- The lines behind the first one. -/
def tailLines : Bytes → List Bytes
  | [] => []
  | _ :: rest => docLines rest

theorem docLines_append {line t : Bytes} (hline : newline ∉ line)
    (ht : t = [] ∨ ∃ rest, t = newline :: rest) :
    docLines (line ++ t) = dropCR line :: tailLines t := by
  rcases ht with rfl | ⟨rest, rfl⟩
  · rw [List.append_nil, docLines, List.splitOn_eq_singleton hline]; rfl
  · rw [docLines, List.splitOn_append_cons_self_of_not_mem hline]; rfl

/-- A text that is not empty starts with a line. -/
theorem exists_line (s : Bytes) :
    ∃ line t, s = line ++ t ∧ newline ∉ line ∧ (t = [] ∨ ∃ rest, t = newline :: rest) := by
  induction s with
  | nil => exact ⟨[], [], rfl, List.not_mem_nil, .inl rfl⟩
  | cons b s ih =>
    by_cases hb : b = newline
    · exact ⟨[], b :: s, rfl, List.not_mem_nil, .inr ⟨s, hb ▸ rfl⟩⟩
    · obtain ⟨line, t, rfl, hline, ht⟩ := ih
      exact ⟨b :: line, t, rfl, List.not_mem_cons_of_ne_of_not_mem (Ne.symm hb) hline, ht⟩

/-- A line is what `dropCR` leaves and a carriage return or nothing. -/
theorem exists_dropCR (line : Bytes) :
    ∃ cr, line = dropCR line ++ cr ∧ (cr = [] ∨ cr = [carriageReturn]) := by
  rw [dropCR]
  split_ifs with h
  · obtain ⟨l, rfl⟩ := List.getLast?_eq_some_iff.1 h
    exact ⟨_, by rw [List.dropLast_concat], .inr rfl⟩
  · exact ⟨[], (List.append_nil _).symm, .inl rfl⟩

theorem scanLines_of_done {lines : List Bytes}
    (h : st.err = none ∨ (st.user = none ∧ st.group = none)) :
    scanLines hash challenge pass st lines = st := by
  induction lines with
  | nil => rfl
  | cons line lines ih => rw [scanLines, List.foldl_cons, if_pos h]; exact ih

/-- The first chunk of a file is its first line; where the rest of that line is left
    behind it is one more empty line. -/
theorem exists_chunk {s : Bytes} (hfile : FileOk s) (hne : s ≠ []) :
    ∃ line chunk rest lines, s = chunk ++ rest ∧ chunk ≠ [] ∧ takeLine newline 1023 s = chunk ∧
      lineOf chunk = line ∧ FileOk rest ∧ docLines s = line :: lines ∧
      (lines = docLines rest ∨ docLines rest = [] :: lines) := by
  obtain ⟨h0, hlines⟩ := hfile
  obtain ⟨line, t, rfl, hnl, ht⟩ := exists_line s
  have hdoc := docLines_append hnl ht
  obtain ⟨cr, hcr, hcr'⟩ := exists_dropCR line
  obtain ⟨hnoCR, hlen⟩ := hlines (dropCR line) (hdoc ▸ List.mem_cons_self)
  have hcore : ∀ b ∈ dropCR line, b ≠ 0 ∧ isLineSep b = false := by
    intro b hb
    have hmem : b ∈ line := hcr ▸ List.mem_append_left _ hb
    have hb0 : b ≠ 0 := fun h => h0 (h ▸ List.mem_append_left _ hmem)
    have hbnl : b ≠ newline := fun h => hnl (h ▸ hmem)
    have hbcr : b ≠ carriageReturn := fun h => hnoCR (h ▸ hb)
    simp [isLineSep, hb0, hbnl, hbcr]
  have hseps : ∀ b ∈ cr ++ [newline], b ≠ 0 ∧ isLineSep b = true := by
    intro b hb
    have hb' : b = carriageReturn ∨ b = newline := by
      rcases hcr' with rfl | rfl
      · exact .inr (List.mem_singleton.1 hb)
      · exact (List.mem_cons.1 hb).imp_right List.mem_singleton.1
    rcases hb' with rfl | rfl
    · exact ⟨by decide, rfl⟩
    · exact ⟨by decide, rfl⟩
  rcases Nat.lt_or_ge line.length 1023 with hshort | hlong
  · rcases ht with rfl | ⟨rest, rfl⟩
    · rw [List.append_nil] at *
      refine ⟨_, line, [], [], (List.append_nil _).symm, hne, takeLine_last hnl hshort.le, ?_, ?_, hdoc,
        .inr rfl⟩
      · conv_lhs => rw [hcr]
        exact lineOf_append hcore fun b hb => hseps b (List.mem_append_left _ hb)
      · exact ⟨List.not_mem_nil, by decide⟩
    · refine ⟨_, line ++ [newline], rest, _, by simp, by simp, takeLine_whole hnl hshort rest, ?_, ?_,
        hdoc, .inl rfl⟩
      · conv_lhs => rw [hcr, List.append_assoc]
        exact lineOf_append hcore hseps
      · exact ⟨fun h => h0 (by simp [h]), fun l hl => hlines l (hdoc ▸ List.mem_cons_of_mem _ hl)⟩
  · have htake : line.take 1023 = dropCR line ++ cr.take (1023 - (dropCR line).length) := by
      conv_lhs => rw [hcr, List.take_append, List.take_of_length_le hlen]
    have hdrop : line.drop 1023 = [] ∨ line.drop 1023 = [carriageReturn] := by
      have : line.drop 1023 = cr.drop (1023 - (dropCR line).length) := by
        conv_lhs => rw [hcr, List.drop_append, List.drop_of_length_le hlen, List.nil_append]
      rw [this]
      rcases hcr' with rfl | rfl
      · exact .inl List.drop_nil
      · rcases (1023 - (dropCR line).length) with _ | n
        · exact .inr rfl
        · exact .inl (by simp)
    have hsplit : line ++ t = line.take 1023 ++ (line.drop 1023 ++ t) := by
      rw [← List.append_assoc, List.take_append_drop]
    have hnlTake : newline ∉ line.take 1023 := fun h => hnl (List.mem_of_mem_take h)
    have hnlDrop : newline ∉ line.drop 1023 := fun h => hnl (List.mem_of_mem_drop h)
    have hrest : docLines (line.drop 1023 ++ t) = [] :: tailLines t := by
      rw [docLines_append hnlDrop ht]
      rcases hdrop with h | h <;> rw [h] <;> rfl
    refine ⟨_, line.take 1023, line.drop 1023 ++ t, _, hsplit, ?_, ?_, ?_, ⟨?_, ?_⟩, hdoc, .inr hrest⟩
    · exact fun h => by simp [List.take_eq_nil_iff, List.ne_nil_of_length_pos (by omega : 0 < line.length)] at h
    · rw [hsplit]
      exact takeLine_full hnlTake (List.length_take_of_le hlong) _
    · rw [htake]
      exact lineOf_append hcore fun b hb =>
        hseps b (List.mem_append_left _ (List.mem_of_mem_take hb))
    · intro h
      rw [hsplit] at h0
      exact h0 (List.mem_append_right _ h)
    · rw [hrest]
      intro l hl
      rcases List.mem_cons.1 hl with rfl | hl
      · exact ⟨List.not_mem_nil, Nat.zero_le _⟩
      · exact hlines l (hdoc ▸ List.mem_cons_of_mem _ hl)

/-- **The loop goes through the whole lines of the file**, also where the end of a
    line does not fit the buffer any more. -/
theorem secretLoop_lines {s : Bytes} (hfile : FileOk s) {fuel : ℕ} (hfuel : s.length < fuel) :
    secretLoop hash challenge pass fuel st s =
      some (scanLines hash challenge pass st (docLines s)) := by
  induction fuel generalizing s st with
  | zero => cases hfuel
  | succ fuel ih =>
    by_cases hdone : st.err = none ∨ (st.user = none ∧ st.group = none)
    · rw [scanLines_of_done hdone, secretLoop, if_pos hdone]
    by_cases hne : s = []
    · subst hne
      rw [secretLoop, if_neg hdone]
      exact congrArg some (scanLines_nil_cons []).symm
    obtain ⟨line, chunk, rest, lines, rfl, hchunk, htake, hline, hrest, hdoc, hlines⟩ :=
      exists_chunk hfile hne
    have hlen : rest.length < fuel := by
      have := List.length_pos_iff.2 hchunk
      rw [List.length_append] at hfuel
      omega
    have hscan (st : SecretState) : scanLines hash challenge pass st (docLines rest) =
        scanLines hash challenge pass st lines := by
      rcases hlines with rfl | h
      · rfl
      · rw [h, scanLines_nil_cons]
    rw [secretLoop_succ htake hchunk, if_neg hdone, ih hrest hlen, hline, hscan, hdoc]
    conv_rhs => rw [scanLines, List.foldl_cons, if_neg hdone]
    rfl

/-! ### The secret that fits -/

theorem opens_cons (line : Bytes) (lines : List Bytes) (name : Bytes) :
    opens hash challenge pass (line :: lines) name =
      if (name ++ [colon]) <+: line then decide (pass = hash (line.drop (name.length + 1)) challenge)
      else opens hash challenge pass lines name := by
  rw [opens, List.find?_cons]
  split_ifs with h
  · rw [decide_eq_true h]
  · rw [decide_eq_false h]; rfl

/-- A line that does not start with an at sign is no line of a group. -/
theorem prefix_not_of_group {line name : Bytes} (h : line.head? ≠ some atSign) :
    ¬ (atSign :: name ++ [colon]) <+: line := by
  rintro ⟨t, rfl⟩
  exact h rfl

/-- A line of a group is no line of a user. -/
theorem prefix_not_of_user {line name : Bytes} (h : line.head? = some atSign)
    (hname : name.head? ≠ some atSign) : ¬ (name ++ [colon]) <+: line := by
  rintro ⟨t, rfl⟩
  rcases name with _ | ⟨b, name⟩
  · exact absurd (Option.some.inj h) (by decide)
  · exact hname h

/-- What a line does to the state, given the name it is compared with. -/
def useLine (hash : Bytes → Bytes → Bytes) (challenge pass : Bytes) (st failed : SecretState)
    (name : Option Bytes) (s : Bytes) : SecretState :=
  match name with
  | none => st
  | some name =>
    if (name ++ [colon]) <+: s then
      if pass = hash (s.drop (name.length + 1)) challenge then { st with err := none } else failed
    else st

theorem secretLine_group (s : Bytes) :
    secretLine hash challenge pass st (atSign :: s) = useLine hash challenge pass st
      { st with group := none, err := some "password mismatch" } st.group s := by
  simp only [secretLine, useLine, List.head?_cons, decide_true, if_true, List.tail_cons]

theorem secretLine_user {s : Bytes} (h : s.head? ≠ some atSign) :
    secretLine hash challenge pass st s = useLine hash challenge pass st
      { st with user := none, err := some "password mismatch" } st.user s := by
  simp only [secretLine, useLine, h, decide_false, Bool.false_eq_true, if_false]

/-- The names that are still looked for and whose first line has the secret. -/
def SecretFits (hash : Bytes → Bytes → Bytes) (challenge pass : Bytes) (st : SecretState)
    (lines : List Bytes) : Prop :=
  (∃ user, st.user = some user ∧ opens hash challenge pass lines user = true) ∨
    ∃ group, st.group = some group ∧ opens hash challenge pass lines (atSign :: group) = true

theorem secretFits_iff_of_group {s : Bytes} {lines : List Bytes}
    (huser : ∀ user, st.user = some user → user.head? ≠ some atSign) :
    SecretFits hash challenge pass st ((atSign :: s) :: lines) ↔
      (∃ user, st.user = some user ∧ opens hash challenge pass lines user = true) ∨
        ∃ group, st.group = some group ∧ (if (group ++ [colon]) <+: s
          then decide (pass = hash (s.drop (group.length + 1)) challenge)
          else opens hash challenge pass lines (atSign :: group)) = true := by
  refine or_congr (exists_congr fun user => and_congr_right fun hst => ?_)
    (exists_congr fun group => and_congr_right fun _ => ?_)
  · rw [opens_cons, if_neg (prefix_not_of_user rfl (huser user hst))]
  · simp only [opens_cons, List.cons_append, List.prefix_cons_inj, List.length_cons, List.drop_succ_cons]

theorem secretFits_iff_of_user {line : Bytes} {lines : List Bytes} (hline : line.head? ≠ some atSign) :
    SecretFits hash challenge pass st (line :: lines) ↔
      (∃ user, st.user = some user ∧ (if (user ++ [colon]) <+: line
          then decide (pass = hash (line.drop (user.length + 1)) challenge)
          else opens hash challenge pass lines user) = true) ∨
        ∃ group, st.group = some group ∧ opens hash challenge pass lines (atSign :: group) = true := by
  refine or_congr (exists_congr fun user => and_congr_right fun _ => ?_)
    (exists_congr fun group => and_congr_right fun _ => ?_)
  · rw [opens_cons]
  · rw [opens_cons, if_neg (prefix_not_of_group hline)]

/-- **The loop ends with a secret that fits** when the first line of the user or the
    first line of the group has one. -/
theorem scanLines_err (lines : List Bytes) (herr : st.err ≠ none)
    (huser : ∀ user, st.user = some user → user.head? ≠ some atSign) :
    (scanLines hash challenge pass st lines).err = none ↔ SecretFits hash challenge pass st lines := by
  induction lines generalizing st with
  | nil =>
    refine iff_of_false herr ?_
    rintro (⟨user, -, h⟩ | ⟨group, -, h⟩) <;> cases h
  | cons line lines ih =>
    by_cases hnone : st.user = none ∧ st.group = none
    · rw [scanLines_of_done (.inr hnone)]
      refine iff_of_false herr ?_
      rintro (⟨user, h, -⟩ | ⟨group, h, -⟩)
      · rw [hnone.1] at h; cases h
      · rw [hnone.2] at h; cases h
    have hstep : scanLines hash challenge pass st (line :: lines) =
        scanLines hash challenge pass (secretLine hash challenge pass st line) lines := by
      rw [scanLines, List.foldl_cons, if_neg (not_or.2 ⟨herr, hnone⟩)]; rfl
    have hfound {st' : SecretState} (h : st'.err = none) :
        (scanLines hash challenge pass st' lines).err = none := by
      rw [scanLines_of_done (.inl h), h]
    rw [hstep]
    by_cases hgroup : line.head? = some atSign
    · obtain ⟨s, rfl⟩ : ∃ s, line = atSign :: s := by
        rcases line with _ | ⟨b, s⟩
        · cases hgroup
        · exact ⟨s, congrArg (· :: s) (Option.some.inj hgroup)⟩
      rw [secretLine_group, secretFits_iff_of_group huser]
      rcases hst : st.group with _ | group
      · rw [useLine, ih herr huser, SecretFits, hst]
        simp
      · rw [useLine]
        split_ifs with hpre hpass
        · refine iff_of_true (hfound rfl) (.inr ⟨group, rfl, ?_⟩)
          rw [if_pos hpre, decide_eq_true hpass]
        · rw [@ih ⟨st.user, none, some "password mismatch"⟩ nofun huser, SecretFits]
          simp [hpre, hpass]
        · rw [ih herr huser, SecretFits, hst]
          simp [hpre]
    · rw [secretLine_user hgroup, secretFits_iff_of_user hgroup]
      rcases hst : st.user with _ | user
      · rw [useLine, ih herr huser, SecretFits, hst]
        simp
      · rw [useLine]
        split_ifs with hpre hpass
        · refine iff_of_true (hfound rfl) (.inl ⟨user, rfl, ?_⟩)
          rw [if_pos hpre, decide_eq_true hpass]
        · rw [@ih ⟨none, st.group, some "password mismatch"⟩ nofun nofun, SecretFits]
          simp [hpre, hpass]
        · rw [ih herr huser, SecretFits, hst]
          simp [hpre]

end Loop

/-! ## The decision -/

/-- A name that is neither a comment of the secrets file nor the name of a group. -/
def NamePlain (user : Bytes) : Prop :=
  user.head? ≠ some hashSign ∧ user.head? ≠ some atSign

/-- **`check_secret` finds the secret** of the user or the group among the whole lines
    of a file that may be used. -/
theorem checkSecret_iff {env : AuthEnv} {user challenge pass : Bytes} {group : Option Bytes}
    (hfile : ∀ content, secretsContent env = some content → FileOk content)
    (hname : NamePlain user) :
    checkSecret env user group challenge pass = none ↔
      ∃ content, secretsContent env = some content ∧
        (opens env.hash challenge pass (docLines content) user = true ∨
          (group.any fun g => opens env.hash challenge pass (docLines content) (atSign :: g)) = true) := by
  unfold checkSecret
  rcases hopen : (env.secretsFile.filter (· ≠ [])).bind env.fopen with _ | f
  · refine iff_of_false nofun ?_
    rintro ⟨content, hcontent, -⟩
    rw [secretsContent, hopen] at hcontent
    cases hcontent
  by_cases husable : f.usable env.strictModes env.myUid = true
  · have hcontent : secretsContent env = some f.content := by
      rw [secretsContent, hopen, Option.filter_some, if_pos husable]; rfl
    simp only [husable, Bool.not_true, Bool.false_eq_true, if_false, if_neg hname.1]
    rw [secretLoop_lines (hfile _ hcontent) (Nat.lt_succ_self _)]
    dsimp only
    have herr := @scanLines_err env.hash challenge pass
      ⟨some user, group, some "secret not found"⟩ (docLines f.content) nofun
      fun u hu => Option.some.inj hu ▸ hname.2
    rw [herr, SecretFits, hcontent]
    cases group <;> simp
  · have hcontent : secretsContent env = none := by
      rw [secretsContent, hopen, Option.filter_some, if_neg husable]; rfl
    simp [husable, hcontent]

theorem docVerdict_none {env : AuthEnv} {users user challenge pass : Bytes}
    (h : firstRule env.wildmatch user (env.groupsOf user) (docRules users) = none) :
    docVerdict env users user challenge pass = none := by
  rw [docVerdict, h]; rfl

theorem docVerdict_some {env : AuthEnv} {users user challenge pass : Bytes} {opt : RuleOpt}
    {group : Option Bytes}
    (h : firstRule env.wildmatch user (env.groupsOf user) (docRules users) = some (opt, group)) :
    docVerdict env users user challenge pass =
      if opt ≠ .deny ∧ ∃ content, secretsContent env = some content ∧
        (opens env.hash challenge pass (docLines content) user = true ∨
          (group.any fun g => opens env.hash challenge pass (docLines content) (atSign :: g)) = true)
      then some opt else none := by
  rw [docVerdict, h]
  rcases secretsContent env with _ | content
  · exact (if_neg fun h => by simp at h).symm
  · simp

/-- A list for the users "team lead" only. -/
def teamLead : AuthEnv where
  authUsers := none
  secretsFile := some (cstr "secrets")
  strictModes := false
  myUid := 0
  fopen _ := some ⟨some (0, 0), cstr "lead:x"⟩
  groupsOf _ := []
  wildmatch pattern text := pattern = text
  hash secret challenge := secret ++ challenge

end CloudEdgeBackup
