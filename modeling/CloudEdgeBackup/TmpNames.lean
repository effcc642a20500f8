/-
  The names of temporary files (`get_tmpname` in `receiver.c`).

  * `getTmpname` is the function, with its static `counter_limit`; `tmpnames` are the names of
    a run of calls;
  * `TmpnameCall.Builds` says what such a name consists of: the whole directory, a part of the
    file's name and a suffix, within `MAXPATHLEN` and `NAME_MAX`;
  * `tmpnames_build`: every name that is returned is such a name, except below a temporary
    directory of `MAXPATHLEN - 8` bytes, whose slash is overwritten (`getTmpname_slash`).
-/
import CloudEdgeBackup.FileEntry
import CloudEdgeBackup.Lib.Format

namespace CloudEdgeBackup

open Cfmt

/-! ## The function -/

abbrev nameMax : ℕ := 255
abbrev tmpnameSuffix : Bytes := cstr ".XXXXXX"
abbrev tmpnameSuffixLen : ℕ := 7
abbrev maxUniqueNumber : ℕ := 999999
abbrev maxUniqueLoop : ℕ := 100

/-- A call of `get_tmpname`. -/
structure TmpnameCall where
  tmpdir : Option Bytes
  fname : Bytes
  makeUnique : Bool
  /-- `getpid` -/
  pid : ℕ
  /-- `access` finds a file. -/
  found : Bytes → Bool

namespace TmpnameCall

variable (c : TmpnameCall)

/-- `fname` up to its last slash. -/
def fnameDir : Bytes := c.fname.rdropWhile (· ≠ slashByte)

/-- `fname` behind it. -/
def fnameBase : Bytes := c.fname.rtakeWhile (· ≠ slashByte)

/-- `fnametmp` where the name is copied to. Text that does not fit is not kept apart: `maxname`
    refuses it. -/
def front : Bytes :=
  match c.tmpdir with
  | some tmpdir => tmpdir.take (maxPathLen - 3) ++ [slashByte]
  | none => c.fnameDir ++ [dotByte]

/-- `length` -/
def length : ℕ :=
  match c.tmpdir with
  | some tmpdir => tmpdir.length + 1
  | none => c.fnameDir.length + 1

/-- `f`, without a leading dot unless there is a `tmpdir`. -/
def f : Bytes :=
  if c.tmpdir = none ∧ c.fnameBase.head? = some dotByte then c.fnameBase.tail else c.fnameBase

/-- `maxname` -/
def maxname : ℤ :=
  min ((maxPathLen : ℤ) - c.length - tmpnameSuffixLen) (nameMax - 1 - tmpnameSuffixLen)

end TmpnameCall

/-- A byte outside ASCII. -/
def isHighByte (b : UInt8) : Bool := b &&& 0x80 ≠ 0

/-- The text in front of `suf`, where `cut` is the first byte that was left off. -/
def trimTmpname (text : Bytes) (cut : UInt8) : Bytes :=
  let suf := if isHighByte cut then text.rdropWhile isHighByte else text
  if suf.getLast? = some dotByte then suf.dropLast else suf

/-- The text in front of `suf`. -/
def TmpnameCall.text (c : TmpnameCall) : Bytes :=
  if c.maxname ≠ 0 then
    let added := if c.f.length ≥ c.maxname then (c.maxname - 1).toNat else c.f.length
    trimTmpname (c.front ++ c.f.take added) (c.f.getD added 0)
  else c.front.take (c.length - 1)

/-- `counter_limit` where it is used. -/
def counterLimit (limit pid : ℕ) : ℕ :=
  if limit ≠ 0 then limit
  else
    let limit := (pid + maxUniqueLoop) % 2 ^ 32
    if limit > maxUniqueNumber ∨ limit < maxUniqueLoop then maxUniqueLoop else limit

/-- The suffix of `make_unique`. -/
def uniqueSuffix (counter : ℕ) : Bytes := (dotByte :: decimal counter).take tmpnameSuffixLen

/-- The loop over the counters, with `left` of them left. -/
def uniqueTmpname (found : Bytes → Bool) (text : Bytes) (limit : ℕ) : ℕ → Option Bytes
  | 0 => none
  | left + 1 =>
    let fnametmp := text ++ uniqueSuffix (limit - (left + 1))
    if !found fnametmp then some fnametmp else uniqueTmpname found text limit left

/-- `get_tmpname`, with `counter_limit` before and after it. -/
def getTmpname (limit : ℕ) (c : TmpnameCall) : Option Bytes × ℕ :=
  if c.maxname < 0 then (none, limit)
  else if c.makeUnique then
    let limit' := counterLimit limit c.pid
    (uniqueTmpname c.found c.text limit' maxUniqueLoop, limit')
  else (some (c.text ++ tmpnameSuffix), limit)

/-- The names of a run. -/
def tmpnames : ℕ → List TmpnameCall → List (Option Bytes)
  | _, [] => []
  | limit, c :: cs => (getTmpname limit c).1 :: tmpnames (getTmpname limit c).2 cs

/-! ## What a name consists of -/

namespace TmpnameCall

/-- The directory of the temporary file. -/
def dir (c : TmpnameCall) : Bytes :=
  match c.tmpdir with
  | some tmpdir => tmpdir ++ [slashByte]
  | none => c.fnameDir

/-- The dot in front of the name. -/
def lead (c : TmpnameCall) : Bytes := if c.tmpdir = none then [dotByte] else []

/-- What may follow the stem of a name. -/
def IsSuffix (c : TmpnameCall) (suffix : Bytes) : Prop :=
  if c.makeUnique then ∃ counter < 10 ^ 6, suffix = dotByte :: decimal counter
  else suffix = tmpnameSuffix

/-- **A temporary name within all bounds.** -/
structure Builds (c : TmpnameCall) (name stem suffix : Bytes) : Prop where
  parts : name = c.dir ++ (stem ++ suffix)
  name_lt : name.length < maxPathLen
  component_le : (stem ++ suffix).length ≤ nameMax
  slash_notMem : slashByte ∉ stem ++ suffix
  leading : c.tmpdir = none → (stem ++ suffix).head? = some dotByte
  stem_prefix : stem <+: c.lead ++ c.f
  suffix_eq : c.IsSuffix suffix
  suffix_le : suffix.length ≤ tmpnameSuffixLen
  budget : 0 ≤ c.maxname
  fresh : c.makeUnique = true → c.found name = false

/-- The directory leaves its slash in place. -/
def KeepsSlash (c : TmpnameCall) : Prop :=
  ∀ tmpdir, c.tmpdir = some tmpdir → tmpdir.length ≠ maxPathLen - 8

end TmpnameCall

section Trim

variable {dir lead t : Bytes} {cut : UInt8}

theorem rdropWhile_append_stop {α : Type} {p : α → Bool} (a b : List α)
    (ha : ∀ h : a ≠ [], p (a.getLast h) = false) :
    (a ++ b).rdropWhile p = a ++ b.rdropWhile p := by
  induction b using List.reverseRecOn with
  | nil =>
    rw [List.append_nil, List.rdropWhile_nil, List.append_nil]
    exact List.rdropWhile_eq_self_iff.2 fun h => by rw [ha h]; exact Bool.false_ne_true
  | append_singleton b x ih =>
    rw [← List.append_assoc, List.rdropWhile_concat, List.rdropWhile_concat, ih]
    split_ifs with hx
    · rfl
    · rw [List.append_assoc]

/-- Trimming stops in front of the name, or takes the dot that was put there. -/
theorem trimTmpname_spec (hdir : lead = [dotByte] ∨ lead = [] ∧ ∃ d, dir = d ++ [slashByte]) :
    ∃ stem, trimTmpname (dir ++ (lead ++ t)) cut = dir ++ stem ∧ stem <+: lead ++ t := by
  have hlow : ∀ h : dir ++ lead ≠ [], isHighByte ((dir ++ lead).getLast h) = false := by
    intro h
    rcases hdir with rfl | ⟨rfl, d, rfl⟩
    · rw [List.getLast_append_singleton]
      rfl
    · simp only [List.append_nil, List.getLast_append_singleton]
      rfl
  have htrim : ∃ t', (if isHighByte cut then (dir ++ (lead ++ t)).rdropWhile isHighByte
      else dir ++ (lead ++ t)) = dir ++ (lead ++ t') ∧ t' <+: t := by
    split_ifs
    · refine ⟨t.rdropWhile isHighByte, ?_, List.rdropWhile_prefix _ _⟩
      rw [← List.append_assoc, rdropWhile_append_stop _ _ hlow, List.append_assoc]
    · exact ⟨t, rfl, List.prefix_rfl⟩
  obtain ⟨t', htext, hpre⟩ := htrim
  have hstem : lead ++ t' <+: lead ++ t := (List.prefix_append_right_inj lead).2 hpre
  rw [trimTmpname, htext]
  split_ifs with hdot
  · refine ⟨(lead ++ t').dropLast, List.dropLast_append_of_ne_nil ?_, (List.dropLast_prefix _).trans hstem⟩
    -- A slash is not a dot, so the dot is in front of the name or in it.
    rintro hnil
    obtain ⟨rfl, rfl⟩ := List.append_eq_nil_iff.1 hnil
    rcases hdir with h | ⟨-, d, rfl⟩
    · cases h
    · simp only [List.append_nil, List.getLast?_concat, Option.some.injEq] at hdot
      exact absurd hdot (by decide)
  · exact ⟨lead ++ t', rfl, hstem⟩

end Trim

namespace TmpnameCall

variable {c : TmpnameCall}

theorem length_eq (c : TmpnameCall) : c.length = (c.dir ++ c.lead).length := by
  obtain ⟨tmpdir, fname, makeUnique, pid, found⟩ := c
  cases tmpdir with
  | none => simp [length, dir, lead, fnameDir]
  | some tmpdir => simp [length, dir, lead]

theorem maxname_eq (c : TmpnameCall) : c.maxname = min (4089 - (c.length : ℤ)) 247 := by
  have hlen : (maxPathLen : ℤ) - c.length - tmpnameSuffixLen = 4089 - c.length := by
    push_cast
    ring
  rw [maxname, hlen]
  rfl

theorem length_le (h : 0 ≤ c.maxname) : c.length ≤ 4089 := by
  rw [maxname_eq] at h
  omega

/-- A directory that is not refused was copied whole. -/
theorem front_eq (h : 0 ≤ c.maxname) : c.front = c.dir ++ c.lead := by
  have hlen := length_le h
  rw [length_eq] at hlen
  obtain ⟨tmpdir, fname, makeUnique, pid, found⟩ := c
  cases tmpdir with
  | none => rfl
  | some tmpdir =>
    simp only [dir, lead, List.length_append, List.length_singleton, reduceCtorEq, if_false,
      List.append_nil] at hlen
    simp only [front, dir, lead, reduceCtorEq, if_false, List.append_nil]
    rw [List.take_of_length_le]
    change tmpdir.length ≤ 4093
    omega

theorem lead_cases (c : TmpnameCall) :
    c.lead = [dotByte] ∨ c.lead = [] ∧ ∃ d, c.dir = d ++ [slashByte] := by
  obtain ⟨tmpdir, fname, makeUnique, pid, found⟩ := c
  cases tmpdir with
  | none => exact .inl rfl
  | some tmpdir => exact .inr ⟨rfl, tmpdir, rfl⟩

theorem slash_notMem_f (c : TmpnameCall) : slashByte ∉ c.f := by
  have hbase : slashByte ∉ c.fnameBase := fun hmem => by simpa using List.mem_rtakeWhile_imp hmem
  rw [f]
  split_ifs
  · exact fun hmem => hbase (List.mem_of_mem_tail hmem)
  · exact hbase

theorem slash_notMem_lead (c : TmpnameCall) : slashByte ∉ c.lead := by
  rcases c.lead_cases with h | ⟨h, -⟩ <;> rw [h] <;> decide

/-- What stands in front of the suffix. -/
theorem text_spec (h : 0 ≤ c.maxname) (hkeeps : c.KeepsSlash) :
    ∃ stem, c.text = c.dir ++ stem ∧ stem <+: c.lead ++ c.f ∧
      c.dir.length + stem.length < 4089 ∧ stem.length ≤ 248 := by
  have hlen := length_le h
  have heq := c.length_eq
  rw [List.length_append] at heq
  have hlead : c.lead.length ≤ 1 := by
    rcases c.lead_cases with h | ⟨h, -⟩ <;> rw [h] <;> decide
  have hmax := c.maxname_eq
  rw [text, front_eq h]
  by_cases hzero : c.maxname ≠ 0
  · rw [if_pos hzero]
    obtain ⟨added, hadded⟩ : ∃ n : ℕ,
        n = if c.f.length ≥ c.maxname then (c.maxname - 1).toNat else c.f.length := ⟨_, rfl⟩
    dsimp only
    rw [← hadded, List.append_assoc]
    have hle : (added : ℤ) < c.maxname := by
      rw [hadded]
      split_ifs <;> omega
    obtain ⟨stem, htext, hpre⟩ := @trimTmpname_spec c.dir c.lead (c.f.take added)
      (c.f.getD added 0) c.lead_cases
    have hstem := hpre.length_le
    rw [List.length_append, List.length_take] at hstem
    refine ⟨stem, htext, hpre.trans ((List.prefix_append_right_inj _).2 (List.take_prefix _ _)), ?_, ?_⟩
    · omega
    · omega
  · -- The suffix takes the place of the leading dot.
    rw [if_neg hzero]
    have hfull : c.length = 4089 := by
      rw [not_not.1 hzero] at hmax
      omega
    rcases hcases : c.tmpdir with _ | tmpdir
    · have hdot : c.lead = [dotByte] := by rw [lead, if_pos hcases]
      rw [hdot, List.length_singleton] at heq
      refine ⟨[], ?_, List.nil_prefix, ?_, Nat.zero_le _⟩
      · rw [hdot, List.append_nil, heq, Nat.add_sub_cancel, List.take_left]
      · rw [List.length_nil]
        omega
    · refine absurd ?_ (hkeeps tmpdir hcases)
      rw [length, hcases] at hfull
      exact Nat.succ.inj hfull

end TmpnameCall

/-! ## Suffixes -/

/-- The values of `counter_limit`. -/
def LimitOk (limit : ℕ) : Prop := limit = 0 ∨ maxUniqueLoop ≤ limit ∧ limit ≤ maxUniqueNumber

theorem counterLimit_bounds {limit : ℕ} (h : LimitOk limit) (pid : ℕ) :
    maxUniqueLoop ≤ counterLimit limit pid ∧ counterLimit limit pid ≤ maxUniqueNumber := by
  rw [counterLimit]
  dsimp only
  split_ifs with hset hwrap
  · exact h.resolve_left hset
  · exact ⟨le_rfl, by decide⟩
  · obtain ⟨hmax, hmin⟩ := not_or.1 hwrap
    exact ⟨not_lt.1 hmin, not_lt.1 hmax⟩

/-- A counter below a million fits the buffer of the suffix. -/
theorem uniqueSuffix_eq {counter : ℕ} (h : counter < 10 ^ 6) :
    uniqueSuffix counter = dotByte :: decimal counter := by
  have hlen : (decimal counter).length ≤ 6 := decimal_length_le (by decide) h
  rw [uniqueSuffix, List.take_of_length_le]
  rw [List.length_cons]
  exact Nat.succ_le_succ hlen

theorem uniqueTmpname_cases {found : Bytes → Bool} {text name : Bytes} {limit : ℕ} :
    ∀ {left : ℕ}, uniqueTmpname found text limit left = some name → 0 < limit →
      ∃ counter < limit, name = text ++ uniqueSuffix counter ∧ found name = false := by
  intro left
  induction left with
  | zero =>
    intro h
    cases h
  | succ left ih =>
    intro h hpos
    rw [uniqueTmpname] at h
    by_cases hfound : (!found (text ++ uniqueSuffix (limit - (left + 1)))) = true
    · rw [if_pos hfound] at h
      obtain rfl := Option.some.inj h
      exact ⟨limit - (left + 1), by omega, rfl, by simpa using hfound⟩
    · rw [if_neg hfound] at h
      exact ih h hpos

namespace TmpnameCall

variable {c : TmpnameCall} {suffix : Bytes}

theorem IsSuffix.spec (h : c.IsSuffix suffix) :
    suffix.head? = some dotByte ∧ suffix.length ≤ tmpnameSuffixLen ∧ slashByte ∉ suffix := by
  rw [IsSuffix] at h
  split_ifs at h with hunique
  · obtain ⟨counter, hlt, rfl⟩ := h
    refine ⟨rfl, Nat.succ_le_succ (decimal_length_le (by decide) hlt), fun hmem => ?_⟩
    rcases List.mem_cons.1 hmem with heq | hmem
    · exact absurd heq (by decide)
    · exact absurd (decimal_isDigit counter _ hmem) (by decide)
  · rw [h]
    exact ⟨rfl, le_rfl, by decide⟩

/-- A text with a suffix is a name within the bounds. -/
theorem builds_text (h : 0 ≤ c.maxname) (hkeeps : c.KeepsSlash) (hsuffix : c.IsSuffix suffix)
    (hfresh : c.makeUnique = true → c.found (c.text ++ suffix) = false) :
    ∃ stem, c.Builds (c.text ++ suffix) stem suffix := by
  obtain ⟨stem, htext, hpre, hlen, hstem⟩ := text_spec h hkeeps
  obtain ⟨hdot, hle, hslash⟩ := hsuffix.spec
  change suffix.length ≤ 7 at hle
  refine ⟨stem, ?_, ?_, ?_, ?_, ?_, hpre, hsuffix, hle, h, hfresh⟩
  · rw [htext, List.append_assoc]
  · rw [htext, List.length_append, List.length_append]
    change _ < 4096
    omega
  · rw [List.length_append]
    change _ ≤ 255
    omega
  · rw [List.mem_append]
    rintro (hmem | hmem)
    · rcases List.mem_append.1 (hpre.subset hmem) with hmem | hmem
      · exact c.slash_notMem_lead hmem
      · exact c.slash_notMem_f hmem
    · exact hslash hmem
  · intro hnone
    rw [lead, if_pos hnone] at hpre
    cases stem with
    | nil => exact hdot
    | cons b stem =>
      obtain ⟨rfl, -⟩ := List.cons_prefix_cons.1 hpre
      rfl

end TmpnameCall

/-! ## The bounds -/

section Bounds

variable {c : TmpnameCall} {limit : ℕ} {name : Bytes}

theorem getTmpname_limitOk (h : LimitOk limit) (c : TmpnameCall) : LimitOk (getTmpname limit c).2 := by
  rw [getTmpname]
  split_ifs
  · exact h
  · exact .inr (counterLimit_bounds h c.pid)
  · exact h

/-- **What one call returns.** -/
theorem getTmpname_builds (hlimit : LimitOk limit) (hkeeps : c.KeepsSlash)
    (h : (getTmpname limit c).1 = some name) : ∃ stem suffix, c.Builds name stem suffix := by
  rw [getTmpname] at h
  by_cases hneg : c.maxname < 0
  · rw [if_pos hneg] at h
    cases h
  rw [if_neg hneg] at h
  have hbudget := not_lt.1 hneg
  by_cases hunique : c.makeUnique = true
  · rw [if_pos hunique] at h
    obtain ⟨hmin, hmax⟩ := counterLimit_bounds hlimit c.pid
    obtain ⟨counter, hlt, hname, hfresh⟩ := uniqueTmpname_cases h
      (lt_of_lt_of_le (by decide) hmin)
    have hsmall : counter < 10 ^ 6 := hlt.trans_le (hmax.trans (by decide))
    rw [uniqueSuffix_eq hsmall] at hname
    have hsuffix : c.IsSuffix (dotByte :: decimal counter) := by
      rw [TmpnameCall.IsSuffix, if_pos hunique]
      exact ⟨counter, hsmall, rfl⟩
    subst hname
    obtain ⟨stem, hbuilds⟩ := TmpnameCall.builds_text hbudget hkeeps hsuffix fun _ => hfresh
    exact ⟨stem, _, hbuilds⟩
  · rw [if_neg hunique] at h
    obtain rfl := Option.some.inj h
    have hsuffix : c.IsSuffix tmpnameSuffix := by
      rw [TmpnameCall.IsSuffix, if_neg hunique]
    obtain ⟨stem, hbuilds⟩ := TmpnameCall.builds_text hbudget hkeeps hsuffix
      fun h => absurd h hunique
    exact ⟨stem, _, hbuilds⟩

theorem tmpnames_forall : ∀ {cs : List TmpnameCall} {limit : ℕ}, LimitOk limit →
    (∀ c ∈ cs, c.KeepsSlash) → ∀ p ∈ cs.zip (tmpnames limit cs), ∀ name, p.2 = some name →
      ∃ stem suffix, p.1.Builds name stem suffix := by
  intro cs
  induction cs with
  | nil => exact fun _ _ p hp => absurd hp List.not_mem_nil
  | cons c cs ih =>
    intro limit hlimit hkeeps p hp name hname
    rw [tmpnames, List.zip_cons_cons] at hp
    rcases List.mem_cons.1 hp with rfl | hp
    · exact getTmpname_builds hlimit (hkeeps c List.mem_cons_self) hname
    · exact ih (getTmpname_limitOk hlimit c) (fun d hd => hkeeps d (List.mem_cons_of_mem _ hd)) p hp
        name hname

/-- **Every temporary name of a run is within its bounds and keeps its directory.** -/
theorem tmpnames_build (cs : List TmpnameCall) (hkeeps : ∀ c ∈ cs, c.KeepsSlash) :
    ∀ p ∈ cs.zip (tmpnames 0 cs), ∀ name, p.2 = some name →
      ∃ stem suffix, p.1.Builds name stem suffix :=
  tmpnames_forall (.inl rfl) hkeeps

theorem tmpnames_build_deldelay :
    ∃ stem suffix, (TmpnameCall.mk (some (cstr "tmp")) (cstr "deldelay") false 0 fun _ => false).Builds
      (cstr "tmp/deldelay.XXXXXX") stem suffix := by
  refine tmpnames_build [⟨some (cstr "tmp"), cstr "deldelay", false, 0, fun _ => false⟩] ?_
    (⟨some (cstr "tmp"), cstr "deldelay", false, 0, fun _ => false⟩, some (cstr "tmp/deldelay.XXXXXX"))
    ?_ _ rfl
  · intro c hc tmpdir htmpdir
    obtain rfl := List.mem_singleton.1 hc
    obtain rfl := Option.some.inj htmpdir
    decide
  · exact List.mem_singleton.2 rfl

/-- A temporary directory of `MAXPATHLEN - 8` bytes loses its slash. -/
theorem getTmpname_slash {tmpdir : Bytes} (hdir : c.tmpdir = some tmpdir)
    (hlen : tmpdir.length = maxPathLen - 8) (hunique : c.makeUnique = false) (limit : ℕ) :
    (getTmpname limit c).1 = some (tmpdir ++ tmpnameSuffix) := by
  have hlength : c.length = 4089 := by
    rw [TmpnameCall.length, hdir]
    exact congrArg (· + 1) hlen
  have hzero : c.maxname = 0 := by
    rw [c.maxname_eq, hlength]
    rfl
  have hfront : c.front = tmpdir ++ [slashByte] := by
    rw [c.front_eq hzero.ge, TmpnameCall.dir, TmpnameCall.lead, hdir]
    simp
  have htext : c.text = tmpdir := by
    rw [TmpnameCall.text, hzero, if_neg (not_not.2 rfl), hfront, hlength]
    exact List.take_left' hlen
  rw [getTmpname, hzero, if_neg (lt_irrefl _), hunique, if_neg Bool.false_ne_true, htext]

/-- A counter is shorter than six digits, and a long temporary directory loses its slash. -/
theorem not_tmpname_bounds :
    (¬∀ c name, (getTmpname 0 c).1 = some name →
      ∃ front suffix, suffix.length = 6 ∧ name = front ++ dotByte :: suffix) ∧
    ¬∀ c name, (getTmpname 0 c).1 = some name → c.dir <+: name := by
  constructor
  · intro h
    have hname : (getTmpname 0 ⟨none, cstr "f", true, 5, fun _ => false⟩).1 = some (cstr ".f.5") := by
      have hcounter : uniqueSuffix 5 = cstr ".5" := by
        rw [uniqueSuffix_eq (by decide)]
        simp [decimal]
        rfl
      have hlimit : counterLimit 0 5 = 105 := by
        simp [counterLimit, maxUniqueLoop, maxUniqueNumber]
      rw [getTmpname, if_neg (by decide), if_pos rfl]
      dsimp only
      rw [hlimit, uniqueTmpname, hcounter]
      rfl
    obtain ⟨front, suffix, hlen, heq⟩ := h _ _ hname
    have := congrArg List.length heq
    rw [List.length_append, List.length_cons, hlen] at this
    exact absurd this.symm (by change _ ≠ 4; omega)
  · intro h
    have hlen : (List.replicate 4088 (97 : UInt8)).length = maxPathLen - 8 := List.length_replicate
    have hname := getTmpname_slash (c := ⟨some (List.replicate 4088 97), cstr "f", false, 0, fun _ => false⟩)
      rfl hlen rfl 0
    obtain ⟨rest, hrest⟩ := h _ _ hname
    rw [TmpnameCall.dir] at hrest
    dsimp only at hrest
    rw [List.append_assoc] at hrest
    have htail := congrArg List.head? (List.append_cancel_left hrest)
    exact absurd (Option.some.inj htail) (by decide)

end Bounds

end CloudEdgeBackup
