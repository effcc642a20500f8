/-
  The arguments of a backup or a recovery through the daemon connection.

  * `startInbandExchange` is the client: after the dot come the module and path
    arguments and then, without a name, the settings of the task;
  * `readArgs` and `poptArgs` are what the daemon makes of them: wildcards are
    expanded (`glob`, which depends on the files of the module) and options taken
    out (`option`, the table of `options.c`);
  * `doServerRecv` and `doServerSender` take a fixed number of settings off the end;
  * `roundTrips_iff` says when the two sides agree.
-/
import CloudEdgeBackup.Lib.Format
import CloudEdgeBackup.Rsync

namespace CloudEdgeBackup

open Cfmt

/-- A C string. -/
abbrev Arg := Bytes

abbrev maxArgs : ℕ := 1000

/-- `source_is_remote_or_local` -/
inductive Task
  | backup
  | recovery
deriving DecidableEq

/-- The settings of `options.c` that the server needs, with their defaults. -/
structure Settings where
  recoveryVersion : Option Arg := none
  backupVersion : Option Arg := none
  backupType : ℤ := -1
  backupVersionNum : ℤ := 0
deriving DecidableEq

/-! ## The client -/

/-- `modname`, without its slash -/
def moduleName (paths : List Arg) : Arg := (paths.headD []).takeWhile (· ≠ 47)

/-- A path argument as it is sent: a module alone with a slash, and nothing that could
    be an option. -/
def sentPath (name arg : Arg) : Arg :=
  if arg = name then name ++ [47]
  else if arg.head? = some 45 then [46, 47] ++ arg
  else arg

/-- The settings that are appended. -/
def appended (task : Task) (c : Settings) : List Arg :=
  match task with
  | .recovery => c.recoveryVersion.toList
  | .backup =>
    match c.backupVersion with
    | none => []
    | some v => [showInt c.backupType, showInt c.backupVersionNum, v]

/-- The arguments after the dot, when `sargc` options stand before it.  `none` is an
    error, or a write past the end of `sargs`. -/
def startInbandExchange (sargc : ℕ) (task : Task) (c : Settings) (paths : List Arg) :
    Option (List Arg) :=
  let name := moduleName paths
  let args := paths.map (sentPath name)
  if paths = [] ∨ (paths.headD []).head? = some 47 then none
  else if maxArgs - 2 ≤ sargc ∨ maxArgs - 1 ≤ sargc + paths.length then none
  else if maxArgs ≤ sargc + 1 + (args ++ appended task c).length then none
  else some (args ++ appended task c)

/-! ## The daemon -/

/-- `glob_expand_module` takes the module's name off. -/
def stripModule (name arg : Arg) : Arg := if name <+: arg then arg.drop name.length else arg

/-- Where `base` first stands in `s`, as `strstr` finds it. -/
def findStr (base s : Arg) : Option ℕ := s.tails.findIdx? (base.isPrefixOf ·)

/-- The pieces of an argument between ` name/`, expanded one by one. -/
def globPieces (name : Arg) (glob : Arg → List Arg) (s : Arg) : List Arg :=
  if _h : s = [] then []
  else
    match findStr ([32] ++ name ++ [47]) s with
    | none => glob s
    | some i => glob (s.take i) ++ globPieces name glob (s.drop (i + name.length + 1))
termination_by s.length
decreasing_by
  have := List.length_pos_of_ne_nil _h
  rw [List.length_drop]
  omega

def globExpandModule (name : Arg) (glob : Arg → List Arg) (arg : Arg) : List Arg :=
  globPieces name glob (stripModule name arg)

/-- The arguments after the dot, up to an empty one. -/
def readArgs (name : Arg) (glob : Arg → List Arg) (sent : List Arg) : List Arg :=
  (sent.takeWhile (· ≠ [])).flatMap (globExpandModule name glob)

/-- What `popt` leaves of the arguments: `option` fails, or says whether the next
    argument belongs to the option. -/
def poptArgs (option : Arg → Option Bool) : Bool → List Arg → Option (List Arg)
  | false, [] => some []
  | true, [] => none
  | true, _ :: args => poptArgs option false args
  | false, arg :: args =>
    if arg.head? ≠ some 45 then (arg :: ·) <$> poptArgs option false args
    else if arg = [45, 45] then some args
    else (option arg).bind fun next => poptArgs option next args

/-- `sscanf(arg, "%d", &x)` -/
def scanArg (arg : Arg) (x : ℤ) : ℤ := int32 ((scan (fmt "%d") arg).headD x)

/-- The settings a backup takes off `argv`. -/
def doServerRecv (c : Settings) (argv : List Arg) : Option (Settings × List Arg) :=
  if c.backupVersion = none then
    match argv.reverse with
    | version :: num :: type :: argv =>
      some ({ c with
        backupVersion := some version, backupVersionNum := scanArg num c.backupVersionNum,
        backupType := scanArg type c.backupType }, argv.reverse)
    | _ => none
  else some (c, argv)

/-- The settings a recovery takes off `argv`. -/
def doServerSender (c : Settings) (argv : List Arg) : Option (Settings × List Arg) :=
  if c.recoveryVersion = none then
    match argv.reverse with
    | version :: argv => some ({ c with recoveryVersion := some version }, argv.reverse)
    | _ => none
  else some (c, argv)

def startServer (task : Task) : Settings → List Arg → Option (Settings × List Arg) :=
  match task with
  | .backup => doServerRecv
  | .recovery => doServerSender

/-! ## The round trip -/

/-- The settings a task uses. -/
def SameSettings (task : Task) (c s : Settings) : Prop :=
  match task with
  | .backup => s.backupVersion = c.backupVersion ∧ s.backupType = c.backupType ∧
      s.backupVersionNum = c.backupVersionNum
  | .recovery => s.recoveryVersion = c.recoveryVersion

/-- The server ends with the client's settings and with the path arguments, all of them
    and no others. -/
def RoundTrips (glob : Arg → List Arg) (option : Arg → Option Bool) (sargc : ℕ) (task : Task)
    (c : Settings) (paths : List Arg) : Prop :=
  ∃ sent args s, startInbandExchange sargc task c paths = some sent ∧
    poptArgs option false (readArgs (moduleName paths) glob sent) = some args ∧
    startServer task {} ([46] :: args) = some (s, [46] ::
      readArgs (moduleName paths) glob (paths.map (sentPath (moduleName paths)))) ∧
    SameSettings task c s

/-- A character that no wildcard expansion and no cleaning of a path looks at. -/
def PlainChar (b : UInt8) : Prop := b ∉ ([47, 42, 63, 91, 46] : List UInt8)

instance : DecidablePred PlainChar := fun b => by unfold PlainChar; infer_instance

def Plain (a : Arg) : Prop := ∀ b ∈ a, PlainChar b

instance : DecidablePred Plain := fun a => by unfold Plain; infer_instance

/-- The version string of the task. -/
def versionOf (task : Task) (c : Settings) : Option Arg :=
  match task with
  | .backup => c.backupVersion
  | .recovery => c.recoveryVersion

/-- How many arguments the server takes off. -/
def takenCount : Task → ℕ
  | .backup => 3
  | .recovery => 1

/-- Where the settings survive: the version is set; no argument is empty; there is
    room; no argument looks like an option when it arrives; and what is left of the
    settings, should they begin with the name of the module, reads the same. -/
structure Survives (glob : Arg → List Arg) (sargc : ℕ) (task : Task) (c : Settings) (paths : List Arg) :
    Prop where
  module : paths ≠ [] ∧ (paths.headD []).head? ≠ some 47
  room : sargc + 1 + paths.length + takenCount task < maxArgs
  isSet : versionOf task c ≠ none
  nonempty : ∀ a ∈ paths.map (sentPath (moduleName paths)), a ≠ []
  left : ∀ a ∈ appended task c, stripModule (moduleName paths) a ≠ []
  noOption : ∀ a ∈ readArgs (moduleName paths) glob
    (paths.map (sentPath (moduleName paths)) ++ appended task c), a.head? ≠ some 45
  version : ∀ v ∈ versionOf task c, stripModule (moduleName paths) v = v
  numbers : task = .backup →
    scanArg (stripModule (moduleName paths) (showInt c.backupType)) (-1) = c.backupType ∧
      scanArg (stripModule (moduleName paths) (showInt c.backupVersionNum)) 0 = c.backupVersionNum

/-! ## Through the daemon -/

section Daemon

variable {name : Arg} {glob : Arg → List Arg} {option : Arg → Option Bool}

theorem plain_stripModule {a : Arg} (h : Plain a) : Plain (stripModule name a) := by
  rw [stripModule]
  split_ifs
  · exact fun b hb => h b (List.mem_of_mem_drop hb)
  · exact h

theorem plain_showInt (x : ℤ) : Plain (showInt x) := by
  intro b hb
  rcases mem_showInt hb with rfl | hb
  · decide
  · simp only [PlainChar, List.mem_cons, List.not_mem_nil, or_false]
    rintro (rfl | rfl | rfl | rfl | rfl) <;> simp [isDigit] at hb

theorem findStr_eq_none {base s : Arg} (hbase : 47 ∈ base) (hs : 47 ∉ s) : findStr base s = none := by
  rw [findStr, List.findIdx?_eq_none_iff]
  intro t ht
  rw [Bool.eq_false_iff, Ne, List.isPrefixOf_iff_prefix]
  intro hpre
  exact hs ((List.mem_tails _ _).1 ht |>.subset (hpre.subset hbase))

/-- A plain argument only loses the name of the module. -/
theorem globExpandModule_plain (hglob : ∀ a, a ≠ [] → Plain a → glob a = [a]) {a : Arg} (h : Plain a) :
    globExpandModule name glob a =
      if stripModule name a = [] then [] else [stripModule name a] := by
  have hplain : Plain (stripModule name a) := plain_stripModule h
  rw [globExpandModule, globPieces]
  split_ifs with hnil
  · rfl
  · rw [findStr_eq_none (by simp) fun hmem => absurd (hplain 47 hmem) (by decide)]
    exact hglob _ hnil hplain

theorem readArgs_append {as bs : List Arg} (h : ∀ a ∈ as, a ≠ []) :
    readArgs name glob (as ++ bs) = readArgs name glob as ++ readArgs name glob bs := by
  have hall : ∀ a ∈ as, decide (a ≠ []) = true := by simpa using h
  have has : as.takeWhile (· ≠ []) = as := List.takeWhile_eq_self_iff.2 hall
  rw [readArgs, List.takeWhile_append_of_pos hall, List.flatMap_append, readArgs, has, readArgs]

/-- After an empty argument nothing is read. -/
theorem readArgs_append_of_empty {as bs : List Arg} (h : [] ∈ as) :
    readArgs name glob (as ++ bs) = readArgs name glob as := by
  have hall : (as ++ bs).takeWhile (· ≠ []) = as.takeWhile (· ≠ []) := by
    induction as with
    | nil => cases h
    | cons a as ih =>
      by_cases ha : a = []
      · simp [ha]
      · have := ih ((List.mem_cons.1 h).resolve_left fun h => ha h.symm)
        simpa [ha] using this
  rw [readArgs, hall, readArgs]

/-- Plain arguments arrive without the name of the module, and not at all if nothing is
    left of them. -/
theorem readArgs_plain_length (hglob : ∀ a, a ≠ [] → Plain a → glob a = [a]) {as : List Arg}
    (h : ∀ a ∈ as, Plain a) : (readArgs name glob as).length ≤ as.length ∧
      ((readArgs name glob as).length = as.length → ∀ a ∈ as, stripModule name a ≠ []) := by
  induction as with
  | nil => exact ⟨le_rfl, fun _ a ha => by cases ha⟩
  | cons a as ih =>
    obtain ⟨hle, heq⟩ := ih fun b hb => h b (by simp [hb])
    by_cases ha : a = []
    · have hnil : readArgs name glob (a :: as) = [] := by simp [readArgs, ha]
      rw [hnil]
      exact ⟨Nat.zero_le _, fun h => by simp at h⟩
    · have hcons : readArgs name glob (a :: as) =
          globExpandModule name glob a ++ readArgs name glob as := by
        simp [readArgs, ha]
      rw [hcons, globExpandModule_plain hglob (h a (by simp))]
      split_ifs with hnil
      · refine ⟨?_, fun h => ?_⟩ <;> simp only [List.nil_append, List.length_cons] at * <;> omega
      · refine ⟨?_, fun h b hb => ?_⟩
        · simp only [List.singleton_append, List.length_cons]
          omega
        · rcases List.mem_cons.1 hb with rfl | hb
          · exact hnil
          · exact heq (by simpa using h) b hb

theorem readArgs_plain (hglob : ∀ a, a ≠ [] → Plain a → glob a = [a]) {as : List Arg}
    (h : ∀ a ∈ as, Plain a) (hleft : ∀ a ∈ as, stripModule name a ≠ []) :
    readArgs name glob as = as.map (stripModule name) := by
  induction as with
  | nil => rfl
  | cons a as ih =>
    have hne : a ≠ [] := by
      rintro rfl
      exact hleft [] (by simp) (by simp [stripModule])
    have hcons : readArgs name glob (a :: as) =
        globExpandModule name glob a ++ readArgs name glob as := by
      simp [readArgs, hne]
    rw [hcons, globExpandModule_plain hglob (h a (by simp)), if_neg (hleft a (by simp)),
      ih (fun b hb => h b (by simp [hb])) fun b hb => hleft b (by simp [hb])]
    rfl

theorem poptArgs_of_noOption {as : List Arg} (h : ∀ a ∈ as, a.head? ≠ some 45) :
    poptArgs option false as = some as := by
  induction as with
  | nil => rfl
  | cons a as ih =>
    rw [poptArgs, if_pos (h a (by simp)), ih fun b hb => h b (by simp [hb])]
    rfl

/-- Every option takes an argument away. -/
theorem poptArgs_length {next : Bool} {as l : List Arg} (h : poptArgs option next as = some l) :
    l.length ≤ as.length ∧ (l.length = as.length → l = as ∧ ∀ a ∈ as, a.head? ≠ some 45) := by
  induction as generalizing next l with
  | nil =>
    cases next with
    | true => cases h
    | false =>
      obtain rfl := Option.some.inj h
      exact ⟨le_rfl, fun _ => ⟨rfl, fun a ha => by cases ha⟩⟩
  | cons a as ih =>
    have hshort : l.length ≤ as.length → l.length ≤ (a :: as).length ∧
        (l.length = (a :: as).length → l = a :: as ∧ ∀ b ∈ a :: as, b.head? ≠ some 45) := by
      intro hle
      rw [List.length_cons]
      exact ⟨by omega, fun _ => by omega⟩
    cases next with
    | true => exact hshort (ih h).1
    | false =>
      rw [poptArgs] at h
      split_ifs at h with harg hdash
      · obtain ⟨l', hl', rfl⟩ := Option.map_eq_some_iff.1 h
        obtain ⟨hle, heq⟩ := ih hl'
        rw [List.length_cons, List.length_cons]
        refine ⟨by omega, fun hlen => ?_⟩
        obtain ⟨rfl, hno⟩ := heq (by omega)
        refine ⟨rfl, fun b hb => ?_⟩
        rcases List.mem_cons.1 hb with rfl | hb
        · exact harg
        · exact hno b hb
      · obtain rfl := Option.some.inj h
        exact hshort le_rfl
      · obtain ⟨next, -, hrest⟩ := Option.bind_eq_some_iff.1 h
        exact hshort (ih hrest).1

end Daemon

/-! ## The settings at the end -/

/-- The settings that stand in the arguments taken off. -/
def settingsOf : Task → List Arg → Settings
  | .backup, [type, num, version] =>
    ⟨none, some version, scanArg type (-1), scanArg num 0⟩
  | .recovery, [version] => ⟨some version, none, -1, 0⟩
  | _, _ => {}

/-- The server takes its settings off the end. -/
theorem startServer_append (task : Task) (argv : List Arg) {taken : List Arg}
    (h : taken.length = takenCount task) :
    startServer task {} (argv ++ taken) = some (settingsOf task taken, argv) := by
  cases task with
  | backup =>
    obtain ⟨t, n, v, rfl⟩ := List.length_eq_three.1 h
    simp [startServer, doServerRecv, settingsOf]
  | recovery =>
    obtain ⟨v, rfl⟩ := List.length_eq_one_iff.1 h
    simp [startServer, doServerSender, settingsOf]

theorem startServer_eq {task : Task} {argv rest : List Arg} {s : Settings}
    (h : startServer task {} argv = some (s, rest)) :
    ∃ taken, argv = rest ++ taken ∧ taken.length = takenCount task := by
  cases task with
  | backup =>
    simp only [startServer, doServerRecv, if_true] at h
    split at h
    · obtain ⟨-, rfl⟩ := Prod.mk.inj (Option.some.inj h)
      rename_i v n t r heq
      exact ⟨[t, n, v], by rw [← List.reverse_reverse argv, heq]; simp, rfl⟩
    · cases h
  | recovery =>
    simp only [startServer, doServerSender, if_true] at h
    split at h
    · obtain ⟨-, rfl⟩ := Prod.mk.inj (Option.some.inj h)
      rename_i v r heq
      exact ⟨[v], by rw [← List.reverse_reverse argv, heq]; simp, rfl⟩
    · cases h

theorem appended_length (task : Task) (c : Settings) :
    (appended task c).length ≤ takenCount task ∧
      ((appended task c).length = takenCount task ↔ versionOf task c ≠ none) := by
  cases task with
  | backup => cases h : c.backupVersion <;> simp [appended, versionOf, takenCount, h]
  | recovery => cases h : c.recoveryVersion <;> simp [appended, versionOf, takenCount, h]

theorem appended_plain {task : Task} {c : Settings} (h : ∀ v ∈ versionOf task c, Plain v) :
    ∀ a ∈ appended task c, Plain a := by
  intro a ha
  cases task with
  | backup =>
    cases hv : c.backupVersion with
    | none => simp [appended, hv] at ha
    | some v =>
      simp only [appended, hv, List.mem_cons, List.not_mem_nil, or_false] at ha
      rcases ha with rfl | rfl | rfl
      · exact plain_showInt _
      · exact plain_showInt _
      · exact h _ hv
  | recovery => exact h a (by simpa [appended, versionOf] using ha)

/-- Which settings come back. -/
theorem sameSettings_iff {task : Task} {c : Settings} (name : Arg) (hset : versionOf task c ≠ none) :
    SameSettings task c (settingsOf task ((appended task c).map (stripModule name))) ↔
      (∀ v ∈ versionOf task c, stripModule name v = v) ∧ (task = .backup →
        scanArg (stripModule name (showInt c.backupType)) (-1) = c.backupType ∧
          scanArg (stripModule name (showInt c.backupVersionNum)) 0 = c.backupVersionNum) := by
  cases task with
  | backup =>
    cases hv : c.backupVersion with
    | none => exact absurd hv hset
    | some v => simp [SameSettings, settingsOf, appended, versionOf, hv]
  | recovery =>
    cases hv : c.recoveryVersion with
    | none => exact absurd hv hset
    | some v => simp [SameSettings, settingsOf, appended, versionOf, hv]

/-! ## When the two sides agree -/

section RoundTrip

variable {glob : Arg → List Arg} {option : Arg → Option Bool} {sargc : ℕ} {task : Task} {c : Settings}
  {paths : List Arg}

theorem startInbandExchange_eq {sent : List Arg}
    (h : startInbandExchange sargc task c paths = some sent) :
    sent = paths.map (sentPath (moduleName paths)) ++ appended task c ∧
      (paths ≠ [] ∧ (paths.headD []).head? ≠ some 47) ∧
      sargc + 1 + paths.length + (appended task c).length < maxArgs := by
  simp only [startInbandExchange] at h
  split_ifs at h with hmod hopts hroom
  obtain ⟨hne, hslash⟩ := not_or.1 hmod
  refine ⟨(Option.some.inj h).symm, ⟨hne, hslash⟩, ?_⟩
  rw [List.length_append, List.length_map] at hroom
  omega

theorem Survives.sent (h : Survives glob sargc task c paths) :
    startInbandExchange sargc task c paths =
      some (paths.map (sentPath (moduleName paths)) ++ appended task c) := by
  have hroom := h.room
  have hlen := ((appended_length task c).2).2 h.isSet
  have hpos := List.length_pos_of_ne_nil h.module.1
  have hcount : 0 < takenCount task := by cases task <;> decide
  simp only [startInbandExchange]
  rw [if_neg (by simpa using h.module), if_neg (by omega), if_neg]
  rw [List.length_append, List.length_map]
  omega

theorem Survives.roundTrips (hglob : ∀ a, a ≠ [] → Plain a → glob a = [a])
    (hplain : ∀ v ∈ versionOf task c, Plain v) (h : Survives glob sargc task c paths) :
    RoundTrips glob option sargc task c paths := by
  have hread : readArgs (moduleName paths) glob (_ ++ appended task c) = _ := readArgs_append h.nonempty
  have htail := readArgs_plain hglob (appended_plain hplain) h.left
  rw [htail] at hread
  refine ⟨_, _, settingsOf task ((appended task c).map (stripModule (moduleName paths))), h.sent,
    poptArgs_of_noOption h.noOption, ?_, (sameSettings_iff _ h.isSet).2 ⟨h.version, h.numbers⟩⟩
  rw [hread, ← List.cons_append]
  refine startServer_append task _ ?_
  rw [List.length_map]
  exact ((appended_length task c).2).2 h.isSet

theorem survives_of_roundTrips (hglob : ∀ a, a ≠ [] → Plain a → glob a = [a])
    (hplain : ∀ v ∈ versionOf task c, Plain v) (h : RoundTrips glob option sargc task c paths) :
    Survives glob sargc task c paths := by
  obtain ⟨sent, args, s, hsent, hpopt, hserver, hsame⟩ := h
  obtain ⟨rfl, hmod, hroom⟩ := startInbandExchange_eq hsent
  have hpos : 0 < takenCount task := by cases task <;> decide
  obtain ⟨hle, hpopt'⟩ := poptArgs_length hpopt
  -- what is left for the settings is what was appended
  obtain ⟨taken, hargs, htaken⟩ := startServer_eq hserver
  rw [List.cons_append, List.cons.injEq] at hargs
  obtain ⟨-, rfl⟩ := hargs
  rw [List.length_append] at hle hpopt'
  by_cases hempty : [] ∈ paths.map (sentPath (moduleName paths))
  · rw [readArgs_append_of_empty hempty] at hle
    omega
  have hne : ∀ a ∈ paths.map (sentPath (moduleName paths)), a ≠ [] := by
    rintro a ha rfl
    exact hempty ha
  rw [readArgs_append hne, List.length_append] at hle hpopt'
  obtain ⟨hlen, hset⟩ := appended_length task c
  obtain ⟨htail, hleft⟩ : (readArgs (moduleName paths) glob (appended task c)).length ≤ _ ∧ _ :=
    readArgs_plain_length hglob (appended_plain hplain)
  have hset := hset.1 (by omega)
  have hleft := hleft (by omega)
  obtain ⟨heq, hno⟩ := hpopt' (by omega)
  have htaken' := List.append_cancel_left heq
  rw [readArgs_plain hglob (appended_plain hplain) hleft] at htaken'
  rw [← List.cons_append, startServer_append task _ htaken] at hserver
  obtain ⟨rfl, -⟩ := Prod.mk.inj (Option.some.inj hserver)
  rw [htaken'] at hsame
  obtain ⟨hversion, hnumbers⟩ := (sameSettings_iff _ hset).1 hsame
  refine ⟨hmod, by omega, hset, hne, hleft, ?_, hversion, hnumbers⟩
  rw [readArgs_append hne]
  exact hno

end RoundTrip

/-- **When the settings and the paths survive the connection.**  The hypotheses are on the
    files of the module, which do not change a plain name, and on the version string,
    which is one. -/
theorem roundTrips_iff {glob : Arg → List Arg} (hglob : ∀ a, a ≠ [] → Plain a → glob a = [a])
    (option : Arg → Option Bool) (sargc : ℕ) (task : Task) {c : Settings} (paths : List Arg)
    (hplain : ∀ v ∈ versionOf task c, Plain v) :
    RoundTrips glob option sargc task c paths ↔ Survives glob sargc task c paths :=
  ⟨survives_of_roundTrips hglob hplain, Survives.roundTrips hglob hplain⟩

/-- A backup of two paths with all its settings. -/
theorem roundTrips_iff_backup :
    RoundTrips (fun a => [a]) (fun _ => none) 5 .backup
      ⟨none, some (cstr "2023-05-01-12:00:00"), 0, 7⟩ [cstr "mod/a", cstr "mod/b"] :=
  (roundTrips_iff (fun _ _ _ => rfl) _ _ _ _ (by decide +kernel)).2
    ⟨by decide +kernel, by decide +kernel, by decide, by decide +kernel, by decide +kernel,
      by decide +kernel, by decide +kernel, by decide +kernel⟩

/-- Without a version string the server takes a path for one. -/
theorem not_roundTrips_noVersion :
    ¬ RoundTrips (fun a => [a]) (fun _ => none) 5 .recovery {} [cstr "mod/a"] :=
  fun h => (survives_of_roundTrips (fun _ _ _ => rfl) (by rintro v ⟨⟩) h).isSet rfl

/-- A type that was not set arrives as an option. -/
example : ¬ Survives (fun a => [a]) 5 .backup
    { backupVersion := some (cstr "2023-05-01-12:00:00") } [cstr "mod/a"] :=
  fun h => absurd h.noOption (by decide +kernel)

end CloudEdgeBackup
