/-
  The script that replays a batch (`batch.c`, `write_batch_shell_file`).

  * `writeArg` writes an argument: an option up to its `=` as it is, and what follows in single
    quotes where it has one of the listed bytes;
  * `writeBatchShellFile` puts the options of the run into one command, with `--read-batch` for the
    option that wrote the batch, and the last file argument into `${1:-…}`;
  * `Reruns`: the shell obtains the argument from every text. `reruns_iff` says for which arguments
    this is so.

  A single quote in an argument is written twice, which leaves none of it; and not every byte that
  means something to the shell is listed.
-/
import CloudEdgeBackup.Lib.Shell
import CloudEdgeBackup.Rsync

namespace CloudEdgeBackup

open Shell

abbrev dashSign : UInt8 := 45
abbrev equalSign : UInt8 := 61

/-! ## Writing an argument -/

/-- The bytes of `" \"'&;|[]()$#!*?^\\"`. -/
def argSpecials : Bytes := [32, 34, 39, 38, 59, 124, 91, 93, 40, 41, 36, 35, 33, 42, 63, 94, 92]

/-- The part of an option that is written as it is: all up to the first `=`. -/
def rawPart (arg : Bytes) : Bytes :=
  if arg.head? = some dashSign ∧ equalSign ∈ arg then arg.takeWhile (· ≠ equalSign) ++ [equalSign] else []

/-- What follows the raw part. -/
def valuePart (arg : Bytes) : Bytes := arg.drop (rawPart arg).length

/-- The loop that writes the text up to each quote, and another quote. -/
def splitQuotes : Bytes → Bytes
  | [] => []
  | c :: s => if c = squote then c :: squote :: splitQuotes s else c :: splitQuotes s

/-- The value has a listed byte. -/
def NeedsQuotes (arg : Bytes) : Prop := ∃ c ∈ valuePart arg, c ∈ argSpecials

instance (arg : Bytes) : Decidable (NeedsQuotes arg) := by unfold NeedsQuotes; infer_instance

/-- The text of the value. -/
def valueText (arg : Bytes) : Bytes :=
  if NeedsQuotes arg then squote :: splitQuotes (valuePart arg) ++ [squote] else valuePart arg

/-- `write_arg`. -/
def writeArg (arg : Bytes) : Bytes := rawPart arg ++ valueText arg

/-! ## The script -/

/-- The length of `--write-batch` or `--only-write-batch` at the start of an option. -/
def batchOptionLen (p : Bytes) : Option ℕ :=
  if cstr "--write-batch" <+: p then some 13
  else if cstr "--only-write-batch" <+: p then some 18
  else none

/-- What is written for an option. -/
def optionText (p : Bytes) : Bytes :=
  match batchOptionLen p with
  | some len =>
    cstr "--read-batch" ++ if p[len]? = some equalSign then equalSign :: writeArg (p.drop (len + 1)) else []
  | none => writeArg p

/-- The option that is meant: that of the run, or `--read-batch`. -/
def replacedOption (p : Bytes) : Bytes :=
  match batchOptionLen p with
  | some len =>
    cstr "--read-batch" ++ if p[len]? = some equalSign then equalSign :: p.drop (len + 1) else []
  | none => p

/-- The options that say where the filter rules come from; the rules follow the command instead. -/
def IsFilterOption (p : Bytes) : Prop :=
  cstr "--files-from" <+: p ∨ cstr "--filter" <+: p ∨ cstr "--include" <+: p ∨ cstr "--exclude" <+: p

instance (p : Bytes) : Decidable (IsFilterOption p) := by unfold IsFilterOption; infer_instance

/-- The options that are written; `skip` where the last one takes the next argument with it. -/
def writtenOptions : Bool → List Bytes → List Bytes
  | _, [] => []
  | true, _ :: ps => writtenOptions false ps
  | false, p :: ps =>
    if IsFilterOption p then writtenOptions (decide (equalSign ∉ p)) ps
    else if p = cstr "-f" then writtenOptions true ps
    else p :: writtenOptions false ps

/-- `write_batch_shell_file`: `options` are the arguments before those for files, `file` is the
    last argument without its host, `rules` the text of `write_filter_rules` where there are any. -/
def writeBatchShellFile (protocol : ℤ) (argv0 : Bytes) (options : List Bytes) (file : Bytes)
    (rules : Option Bytes) : Bytes :=
  writeArg argv0 ++
    (if rules.isSome then (if 29 ≤ protocol then cstr " --filter=._-" else cstr " --exclude-from=-") else []) ++
    (writtenOptions false options).flatMap (fun p => blank :: optionText p) ++
    cstr " $\x7b1:-" ++ writeArg file ++ [closeBrace] ++ rules.getD [] ++ [Shell.newline]

/-- The shell obtains the options and the file argument of the command. -/
def Reruns (options : List Bytes) (file : Bytes) : Prop :=
  (∀ p ∈ writtenOptions false options, word .plain (optionText p) = some (replacedOption p)) ∧
    word .braced (writeArg file ++ [closeBrace]) = some file

/-! ## The text of an argument -/

section Text

variable {arg : Bytes}

theorem rawPart_initial (arg : Bytes) : rawPart arg <+: arg := by
  rw [rawPart]
  split_ifs with h
  · have hsplit := List.takeWhile_append_dropWhile (p := (· ≠ equalSign)) (l := arg)
    cases hd : arg.dropWhile (· ≠ equalSign) with
    | nil =>
      rw [hd, List.append_nil] at hsplit
      rw [← hsplit] at h
      exact absurd (List.mem_takeWhile_imp h.2) (by simp)
    | cons c rest =>
      have hc := List.head?_dropWhile_not (· ≠ equalSign) arg
      rw [hd] at hc hsplit
      obtain rfl : c = equalSign := by simpa using hc
      refine ⟨rest, ?_⟩
      rwa [List.append_assoc, List.singleton_append]
  · exact List.nil_prefix

theorem rawPart_append_valuePart (arg : Bytes) : rawPart arg ++ valuePart arg = arg :=
  List.prefix_iff_eq_append.1 (rawPart_initial arg)

/-- A raw part starts with a dash and ends with the equals sign. -/
theorem rawPart_ends (h : rawPart arg ≠ []) : (rawPart arg).head? = some dashSign ∧
    (rawPart arg).getLast? = some equalSign := by
  rw [rawPart] at h ⊢
  split_ifs at h ⊢ with hc
  · refine ⟨?_, by simp⟩
    cases arg with
    | nil => exact absurd hc.1 (by simp)
    | cons c t =>
      obtain rfl : c = dashSign := by simpa using hc.1
      rfl
  · exact absurd rfl h

theorem quoting_subset {c : UInt8} (h : c ∈ quoting) : c ∈ argSpecials := by
  simp only [quoting, List.mem_cons, List.not_mem_nil, or_false] at h
  rcases h with rfl | rfl | rfl <;> decide

theorem splitQuotes_of_not_mem {s : Bytes} (h : squote ∉ s) : splitQuotes s = s := by
  induction s with
  | nil => rfl
  | cons c s ih =>
    rw [List.mem_cons, not_or] at h
    rw [splitQuotes, if_neg (Ne.symm h.1), ih h.2]

theorem count_splitQuotes {x : UInt8} (hx : x ≠ squote) (s : Bytes) :
    (splitQuotes s).count x = s.count x := by
  induction s with
  | nil => rfl
  | cons c s ih =>
    rw [splitQuotes]
    split_ifs with hc
    · rw [List.count_cons, List.count_cons_of_ne hx.symm, ih, List.count_cons]
    · rw [List.count_cons, ih, List.count_cons]

/-- Writing an argument adds nothing but single quotes. -/
theorem count_writeArg {x : UInt8} (hx : x ≠ squote) (arg : Bytes) :
    (writeArg arg).count x = arg.count x := by
  have hvalue : (valueText arg).count x = (valuePart arg).count x := by
    rw [valueText]
    split_ifs
    · rw [List.cons_append, List.count_cons_of_ne hx.symm, List.count_append, count_splitQuotes hx,
        List.count_singleton, if_neg (by simpa using hx.symm), add_zero]
    · rfl
  nth_rewrite 2 [← rawPart_append_valuePart arg]
  rw [writeArg, List.count_append, List.count_append, hvalue]

end Text

/-! ## What has to hold for an argument -/

/-- An argument that comes back from a command; `start` where its text begins the word. -/
structure ArgOk (start : Bool) (arg : Bytes) : Prop where
  nonempty : start = true → arg ≠ []
  raw : ∀ c ∈ rawPart arg, literal .plain c
  quoted : NeedsQuotes arg → squote ∉ valuePart arg
  value : ¬NeedsQuotes arg → ∀ c ∈ valuePart arg, literal .plain c
  first : start = true → ¬NeedsQuotes arg → arg.head? ≠ some tilde

/-- A file argument that comes back from `${1:-…}`. -/
structure FileArgOk (arg : Bytes) : Prop where
  nonempty : arg ≠ []
  raw : ∀ c ∈ rawPart arg, literal .braced c
  quoted : NeedsQuotes arg → squote ∉ valuePart arg
  value : ¬NeedsQuotes arg →
    ∃ s n, valuePart arg = s ++ List.replicate n closeBrace ∧ ∀ c ∈ s, literal .braced c
  first : ¬NeedsQuotes arg → arg.head? ≠ some tilde

/-- An option that comes back. -/
def OptionOk (p : Bytes) : Prop :=
  match batchOptionLen p with
  | some len => p[len]? = some equalSign → ArgOk false (p.drop (len + 1))
  | none => ArgOk true p

section Words

variable {arg pre : Bytes} {m : Mode} {start : Bool}

/-- **A text that gives its argument takes nothing away but the quotes around the value.** -/
theorem unquoted_of_expand (pre post : Bytes) (hpost : dquote ∉ post ∧ bslash ∉ post)
    (h : expand m .no start (pre ++ (writeArg arg ++ post)) = some (pre ++ arg)) (hpre : ∀ c ∈ pre, c ∉ quoting) :
    squote ∉ arg ∧ ∀ c ∈ rawPart arg, c ∉ quoting := by
  have hcount : ∀ x ∈ [dquote, bslash],
      (pre ++ (writeArg arg ++ post)).count x = (pre ++ arg).count x := by
    intro x hx
    have hne : x ≠ squote := by
      rcases List.mem_pair.1 hx with rfl | rfl <;> decide
    have hnot : x ∉ post := by
      rcases List.mem_pair.1 hx with rfl | rfl
      · exact hpost.1
      · exact hpost.2
    rw [List.count_append, List.count_append, count_writeArg hne, List.count_eq_zero_of_not_mem hnot,
      add_zero, List.count_append]
  have hsq : squote ∉ arg := by
    intro hmem
    have hlt := expand_squote (.inl rfl) h (List.mem_append_right _ hmem)
    rw [hcount dquote (by decide), hcount bslash (by decide)] at hlt
    exact hlt.elim (lt_irrefl _) (lt_irrefl _)
  refine ⟨hsq, ?_⟩
  by_contra hraw
  obtain ⟨a, c, b, hsplit, ha, hc⟩ := exists_first_quoting hraw
  have htext : pre ++ (writeArg arg ++ post) = (pre ++ a) ++ c :: (b ++ valueText arg ++ post) := by
    rw [writeArg, hsplit]
    simp
  have hmem : c ∈ arg := by
    rw [← rawPart_append_valuePart arg, hsplit]
    simp
  have hlt := expand_quoting (fun d hd => (List.mem_append.1 hd).elim (hpre d) (ha d)) hc (htext ▸ h)
  rw [← htext, hcount c] at hlt
  · exact lt_irrefl _ hlt
  · simp only [quoting, List.mem_cons, List.not_mem_nil, or_false] at hc
    rcases hc with rfl | rfl | rfl
    · exact absurd hmem hsq
    · decide
    · decide

theorem not_startsSpecial_dash (m : Mode) : ¬startsSpecial m dashSign := by
  cases m <;> decide

/-- A text with a raw part, or behind another text, does not begin the word with its value. -/
theorem not_startsSpecial_head {p t : Bytes} (hp : p.head? = some dashSign) (c : UInt8)
    (hc : (p ++ t).head? = some c) : ¬startsSpecial m c := by
  cases p with
  | nil => cases hp
  | cons d p =>
    obtain rfl : d = dashSign := Option.some.inj hp
    obtain rfl : dashSign = c := Option.some.inj hc
    exact not_startsSpecial_dash m

/-- A byte that is not listed and not a tilde does not mean anything at the start of a word. -/
theorem not_startsSpecial_of {c : UInt8} (hl : c ∉ argSpecials) (ht : c ≠ tilde) : ¬startsSpecial m c := by
  rintro (h | ⟨-, rfl⟩)
  · exact ht h
  · exact hl (by decide)

theorem valuePart_quoting (h : ¬NeedsQuotes arg) : ∀ c ∈ valuePart arg, c ∉ quoting :=
  fun c hc hq => h ⟨c, hc, quoting_subset hq⟩

/-- The head of the text where the value is written as it is. -/
theorem start_of_plain (pre t : Bytes) (hn : ¬NeedsQuotes arg) (hpre : pre = [] ∨ pre.head? = some dashSign)
    (hfirst : pre = [] → arg.head? ≠ some tilde) (ht : arg = [] → t = [])
    (c : UInt8) (hc : (pre ++ arg ++ t).head? = some c) : ¬startsSpecial m c := by
  rcases hpre with rfl | hpre
  · rw [List.nil_append] at hc
    by_cases hraw : rawPart arg = []
    · have hval : valuePart arg = arg := by
        simpa [hraw] using rawPart_append_valuePart arg
      cases arg with
      | nil =>
        rw [ht rfl] at hc
        cases hc
      | cons d a =>
        obtain rfl : d = c := Option.some.inj hc
        refine not_startsSpecial_of (fun hl => hn ⟨d, ?_, hl⟩) fun hd => hfirst rfl (by rw [hd]; rfl)
        rw [hval]
        exact List.mem_cons_self
    · rw [← rawPart_append_valuePart arg, List.append_assoc] at hc
      exact not_startsSpecial_head (rawPart_ends hraw).1 c hc
  · rw [List.append_assoc] at hc
    exact not_startsSpecial_head hpre c hc

/-- **An option's text gives the option**: `pre` is what stands before it in the same word. -/
theorem expand_writeArg_iff (pre arg : Bytes) (hpre : pre = [] ∨ pre.head? = some dashSign) (hlit : ∀ c ∈ pre, literal .plain c)
    (harg : pre = [] → arg ≠ []) :
    expand .plain .no true (pre ++ writeArg arg) = some (pre ++ arg) ↔ ArgOk (decide (pre = [])) arg := by
  have hsplit := rawPart_append_valuePart arg
  constructor
  · intro h
    have htext : pre ++ (writeArg arg ++ []) = pre ++ writeArg arg := by rw [List.append_nil]
    obtain ⟨hsq, hraw⟩ := unquoted_of_expand pre [] (by simp) (htext ▸ h) fun c hc => (hlit c hc).1
    have hmem : ∀ c ∈ valuePart arg, c ∈ arg := fun c hc => hsplit ▸ List.mem_append_right _ hc
    have hlitraw : ∀ c ∈ rawPart arg, literal .plain c := by
      rw [writeArg, ← List.append_assoc] at h
      intro c hc
      refine literal_of_expand ?_ (fun hm => by cases hm) h c (List.mem_append_right _ hc)
      exact fun d hd => (List.mem_append.1 hd).elim (fun hd => (hlit d hd).1) (hraw d)
    refine ⟨fun hs => harg (of_decide_eq_true hs), hlitraw, fun _ hc => hsq (hmem _ hc), fun hn => ?_, fun hs hn ht => ?_⟩
    · rw [writeArg, valueText, if_neg hn, hsplit] at h
      intro c hc
      refine literal_of_expand (t := []) (p := pre ++ arg) ?_ (fun hm => by cases hm) (by rwa [List.append_nil]) c
        (List.mem_append_right _ (hmem c hc))
      intro d hd
      rcases List.mem_append.1 hd with hd | hd
      · exact (hlit d hd).1
      · rw [← hsplit] at hd
        exact (List.mem_append.1 hd).elim (hraw d) (valuePart_quoting hn d)
    · -- a tilde at the start of the word
      obtain rfl : pre = [] := of_decide_eq_true hs
      rw [writeArg, valueText, if_neg hn, hsplit] at h
      cases arg with
      | nil => cases ht
      | cons c a =>
        obtain rfl : c = tilde := Option.some.inj ht
        rw [List.nil_append, expand_special (by decide) (by decide) (.inr ⟨rfl, .inl rfl⟩)] at h
        cases h
  · intro h
    have hp : ∀ c ∈ pre ++ rawPart arg, literal .plain c :=
      fun c hc => (List.mem_append.1 hc).elim (hlit c) (h.raw c)
    by_cases hn : NeedsQuotes arg
    · rw [writeArg, valueText, if_pos hn, splitQuotes_of_not_mem (h.quoted hn), ← List.append_assoc,
        expand_append _ _ hp, expand_single (h.quoted hn), expand, if_pos rfl]
      · simp [hsplit]
      · intro _ c hc
        rcases hpre with rfl | hpre
        · rw [List.nil_append] at hc
          have hne : rawPart arg ≠ [] := by
            intro he
            rw [he] at hc
            cases hc
          refine not_startsSpecial_head (t := []) (rawPart_ends hne).1 c ?_
          rwa [List.append_nil]
        · exact not_startsSpecial_head hpre c hc
    · rw [writeArg, valueText, if_neg hn, hsplit]
      have hall : ∀ c ∈ pre ++ arg, literal .plain c := by
        intro c hc
        rw [← hsplit, ← List.append_assoc] at hc
        exact (List.mem_append.1 hc).elim (hp c) (h.value hn c)
      have hrun := expand_append true [] hall fun _ c hc =>
        start_of_plain pre [] hn hpre (fun hpn => h.first (decide_eq_true hpn) hn) (fun _ => rfl) c
          (by rwa [List.append_nil])
      rw [List.append_nil] at hrun
      rw [hrun, expand, if_pos rfl]
      simp

/-- Only one byte can be moved from the end of a list to its start. -/
theorem eq_of_append_singleton {c : UInt8} {s : Bytes} (h : s ++ [c] = c :: s) : ∀ d ∈ s, d = c := by
  induction s with
  | nil => exact fun d hd => absurd hd List.not_mem_nil
  | cons e s ih =>
    obtain ⟨rfl, h⟩ := List.cons.inj h
    exact List.forall_mem_cons.2 ⟨rfl, ih h⟩

/-- What comes behind the closing brace belongs to the command, with the brace that was meant to
    close. -/
theorem expand_closeBrace {start : Bool} {t : Bytes} :
    expand .braced .no start (closeBrace :: t) = expand .plain .no false t := by
  rw [expand, if_neg (by decide), if_neg (by decide), if_neg (by decide), if_pos ⟨rfl, rfl⟩]

theorem literal_closeBrace : literal .plain closeBrace := by decide

theorem expand_plain_of_some {s t v : Bytes} (hs : ∀ c ∈ s, c ∉ quoting)
    (h : expand .plain .no false (s ++ t) = some v) :
    ∃ u, v = s ++ u ∧ expand .plain .no false t = some u := by
  have hlit := literal_of_expand hs (fun hm => by cases hm) h
  rw [expand_append _ _ hlit (fun hf => by cases hf)] at h
  obtain ⟨u, hu, rfl⟩ := Option.map_eq_some_iff.1 h
  exact ⟨u, rfl, hu⟩

/-- The value's text and the closing brace, read in a command. -/
theorem expand_valueText (hsq : squote ∉ arg) {v : Bytes}
    (h : expand .plain .no false (valueText arg ++ [closeBrace]) = some v) :
    v = valuePart arg ++ [closeBrace] := by
  have hmem : ∀ c ∈ valuePart arg, c ∈ arg :=
    fun c hc => rawPart_append_valuePart arg ▸ List.mem_append_right _ hc
  have hclose : expand .plain .no false [closeBrace] = some [closeBrace] := by decide
  rw [valueText] at h
  split_ifs at h with hn
  · rw [splitQuotes_of_not_mem fun hc => hsq (hmem _ hc), List.append_assoc, List.singleton_append,
      expand_single fun hc => hsq (hmem _ hc), hclose] at h
    exact (Option.some.inj h).symm
  · obtain ⟨u, rfl, hu⟩ := expand_plain_of_some (valuePart_quoting hn) h
    rw [hclose, Option.some.injEq] at hu
    rw [hu]

/-- **The text of a file argument gives the argument.** -/
theorem expand_fileArg_iff (hne : arg ≠ []) :
    expand .braced .no true (writeArg arg ++ [closeBrace]) = some arg ↔ FileArgOk arg := by
  have hsplit := rawPart_append_valuePart arg
  constructor
  · intro h
    obtain ⟨hsq, hraw⟩ := unquoted_of_expand [] [closeBrace] (by decide) h
      fun c hc => absurd hc List.not_mem_nil
    have hmem : ∀ c ∈ valuePart arg, c ∈ arg := fun c hc => hsplit ▸ List.mem_append_right _ hc
    have hbrace : closeBrace ∉ rawPart arg := by
      intro hc
      -- the raw part would end behind the brace, but it ends with the equals sign
      obtain ⟨a, b, hab, ha⟩ := List.eq_append_cons_of_mem hc
      have hq : ∀ d ∈ a ++ closeBrace :: b, d ∉ quoting := hab ▸ hraw
      have hla := fun d hd => hq d (List.mem_append_left _ hd)
      have hlb := fun d hd => hq d (List.mem_append_right _ (List.mem_cons_of_mem _ hd))
      rw [writeArg, hab, List.append_assoc, List.append_assoc] at h
      have hlita := literal_of_expand hla (fun _ => ha) h
      rw [expand_append _ _ hlita ?_] at h
      · obtain ⟨v, hv, harg⟩ := Option.map_eq_some_iff.1 h
        rw [List.cons_append, expand_closeBrace] at hv
        obtain ⟨u, rfl, hu⟩ := expand_plain_of_some hlb hv
        have hval := expand_valueText hsq hu
        rw [← hsplit, hab, hval, List.append_assoc] at harg
        have hrot := List.append_cancel_left harg
        rw [List.cons_append, ← List.append_assoc] at hrot
        have hall := eq_of_append_singleton hrot
        have hlast := (rawPart_ends (List.ne_nil_of_mem hc)).2
        rw [hab, List.getLast?_append_of_ne_nil _ (List.cons_ne_nil _ _)] at hlast
        cases b with
        | nil => exact absurd hlast (by decide)
        | cons d b =>
          rw [List.getLast?_cons_cons] at hlast
          have heq := hall equalSign (List.mem_append_left _ (List.mem_of_getLast? hlast))
          exact absurd heq (by decide)
      · intro _ c hc'
        have hhead : (rawPart arg).head? = some dashSign := (rawPart_ends (List.ne_nil_of_mem hc)).1
        rw [hab] at hhead
        cases a with
        | nil => cases hc'
        | cons d a =>
          obtain rfl : d = dashSign := Option.some.inj hhead
          obtain rfl : dashSign = c := Option.some.inj hc'
          exact not_startsSpecial_dash _
    have hlitraw : ∀ c ∈ rawPart arg, literal .braced c := by
      rw [writeArg, List.append_assoc] at h
      exact literal_of_expand hraw (fun _ => hbrace) h
    have hfirst : ¬NeedsQuotes arg → arg.head? ≠ some tilde := by
      intro hn ht
      rw [writeArg, valueText, if_neg hn, hsplit] at h
      cases arg with
      | nil => cases ht
      | cons c a =>
        obtain rfl : c = tilde := Option.some.inj ht
        rw [List.cons_append, expand_special (by decide) (by decide) (.inr ⟨rfl, .inl rfl⟩)] at h
        cases h
    refine ⟨hne, hlitraw, fun _ hc => hsq (hmem _ hc), fun hn => ?_, hfirst⟩
    · rw [writeArg, valueText, if_neg hn, hsplit] at h
      by_cases hc : closeBrace ∈ valuePart arg
      · obtain ⟨a, b, hab, ha⟩ := List.eq_append_cons_of_mem hc
        have hq : ∀ d ∈ rawPart arg ++ a, d ∉ quoting := by
          intro d hd
          rcases List.mem_append.1 hd with hd | hd
          · exact hraw d hd
          · exact valuePart_quoting hn d (hab ▸ List.mem_append_left _ hd)
        have hb : ∀ d ∈ b, d ∉ quoting := fun d hd =>
          valuePart_quoting hn d (hab ▸ List.mem_append_right _ (List.mem_cons_of_mem _ hd))
        have harg : arg = (rawPart arg ++ a) ++ closeBrace :: b := by
          rw [List.append_assoc, ← hab, hsplit]
        have hnb : closeBrace ∉ rawPart arg ++ a := by
          rw [List.mem_append, not_or]
          exact ⟨hbrace, ha⟩
        have hstart : ∀ c, (rawPart arg ++ a).head? = some c → ¬startsSpecial .braced c := by
          intro c hc'
          refine start_of_plain [] [] hn (.inl rfl) (fun _ => hfirst hn) (fun _ => rfl) c ?_
          rw [List.nil_append, List.append_nil, harg, List.head?_append, hc']
          rfl
        have htext : arg ++ [closeBrace] = (rawPart arg ++ a) ++ closeBrace :: (b ++ [closeBrace]) := by
          nth_rewrite 1 [harg]
          simp
        rw [htext] at h
        have hlit := literal_of_expand hq (fun _ => hnb) h
        rw [expand_append _ _ hlit fun _ => hstart, expand_closeBrace] at h
        obtain ⟨v, hv, hveq⟩ := Option.map_eq_some_iff.1 h
        obtain ⟨u, rfl, hu⟩ := expand_plain_of_some hb hv
        obtain rfl : [closeBrace] = u := Option.some.inj (Eq.trans (by decide) hu)
        have hall := eq_of_append_singleton (List.append_cancel_left (hveq.trans harg))
        refine ⟨a, b.length + 1, ?_, fun d hd => hlit d (List.mem_append_right _ hd)⟩
        rw [hab, List.replicate_succ, ← List.eq_replicate_of_mem hall]
      · refine ⟨valuePart arg, 0, by simp, ?_⟩
        intro d hd
        refine literal_of_expand (p := arg) ?_ (fun _ hc' => ?_) h d (hmem d hd)
        · intro e he
          rw [← hsplit] at he
          exact (List.mem_append.1 he).elim (hraw e) (valuePart_quoting hn e)
        · rw [← hsplit] at hc'
          exact (List.mem_append.1 hc').elim hbrace hc
  · intro h
    have hclose : ∀ n, expand .plain .no false (List.replicate n closeBrace) = some (List.replicate n closeBrace) := by
      intro n
      have hall : ∀ c ∈ List.replicate n closeBrace, literal .plain c :=
        fun c hc => List.eq_of_mem_replicate hc ▸ literal_closeBrace
      have hrun := expand_append false [] hall (fun hf => by cases hf)
      rw [List.append_nil] at hrun
      rw [hrun, expand, if_pos rfl]
      simp
    by_cases hn : NeedsQuotes arg
    · rw [writeArg, valueText, if_pos hn, splitQuotes_of_not_mem (h.quoted hn), List.append_assoc,
        expand_append _ _ h.raw, List.append_assoc, List.singleton_append, expand_single (h.quoted hn),
        expand_closeBrace, expand, if_pos rfl]
      · simp [hsplit]
      · intro _ c hc
        have hne' : rawPart arg ≠ [] := by
          intro he
          rw [he] at hc
          cases hc
        refine not_startsSpecial_head (t := []) (rawPart_ends hne').1 c ?_
        rwa [List.append_nil]
    · obtain ⟨a, n, hval, ha⟩ := h.value hn
      have harg : arg = (rawPart arg ++ a) ++ List.replicate n closeBrace := by
        rw [List.append_assoc, ← hval, hsplit]
      have hlit : ∀ c ∈ rawPart arg ++ a, literal .braced c :=
        fun c hc => (List.mem_append.1 hc).elim (h.raw c) (ha c)
      have htext : writeArg arg ++ [closeBrace] =
          (rawPart arg ++ a) ++ closeBrace :: List.replicate n closeBrace := by
        rw [writeArg, valueText, if_neg hn, hval, ← List.append_assoc, List.append_assoc, ← List.replicate_succ',
          List.replicate_succ]
      rw [htext, expand_append _ _ hlit, expand_closeBrace, hclose]
      · exact congrArg some harg.symm
      · intro _ c hc
        refine start_of_plain [] [] hn (.inl rfl) (fun _ => h.first hn) (fun _ => rfl) c ?_
        rw [List.nil_append, List.append_nil, harg, List.head?_append, hc]
        rfl

theorem writeArg_nil : writeArg [] = [] := by decide

/-- The option that reads the batch, up to its value. -/
theorem cstr_readBatch : cstr "--read-batch" = [45, 45, 114, 101, 97, 100, 45, 98, 97, 116, 99, 104] := by
  rw [show "--read-batch" = String.ofList ['-', '-', 'r', 'e', 'a', 'd', '-', 'b', 'a', 't', 'c', 'h'] from rfl,
    cstr_ofList]
  rfl

theorem literal_readBatch : ∀ c ∈ cstr "--read-batch" ++ [equalSign], literal .plain c := by
  rw [cstr_readBatch]
  intro c hc
  simp only [List.cons_append, List.nil_append, List.mem_cons, List.not_mem_nil, or_false] at hc
  rcases hc with rfl | rfl | rfl | rfl | rfl | rfl | rfl | rfl | rfl | rfl | rfl | rfl | rfl <;> decide

theorem head_readBatch (t : Bytes) : (cstr "--read-batch" ++ t).head? = some dashSign := by
  rw [cstr_readBatch]
  rfl

/-- **The word of an option's text.** -/
theorem word_optionText_iff (p : Bytes) :
    word .plain (optionText p) = some (replacedOption p) ↔ OptionOk p := by
  rw [optionText, replacedOption, OptionOk]
  cases batchOptionLen p with
  | none =>
    dsimp only
    by_cases hp : p = []
    · subst hp
      rw [writeArg_nil]
      exact iff_of_false (by decide) fun h => h.nonempty rfl rfl
    · rw [word_eq_some_iff hp]
      have hiff := expand_writeArg_iff [] p (.inl rfl) (fun c hc => absurd hc List.not_mem_nil) fun _ => hp
      rw [List.nil_append, List.nil_append] at hiff
      exact hiff
  | some len =>
    dsimp only
    have hne : ∀ t : Bytes, cstr "--read-batch" ++ t ≠ [] := by
      intro t he
      have hh := head_readBatch t
      rw [he] at hh
      cases hh
    rw [word_eq_some_iff (hne _)]
    split_ifs with heq
    · have hhead := head_readBatch [equalSign]
      have hiff := expand_writeArg_iff _ (p.drop (len + 1)) (.inr hhead) literal_readBatch
        fun hnil => absurd hnil (hne _)
      rw [List.append_assoc, List.append_assoc, List.singleton_append, List.singleton_append,
        decide_eq_false (hne _)] at hiff
      exact hiff.trans ⟨fun h _ => h, fun h => h heq⟩
    · have hrun := expand_append true [] (fun c hc => literal_readBatch c (List.mem_append_left _ hc)) fun _ c hc =>
        not_startsSpecial_head (t := []) (by simpa using head_readBatch []) c (by rwa [List.append_nil])
      refine iff_of_true ?_ fun h => absurd h heq
      rw [hrun, expand, if_pos rfl]
      rfl

/-- **The word of a file argument's text.** -/
theorem word_fileArg_iff (arg : Bytes) :
    word .braced (writeArg arg ++ [closeBrace]) = some arg ↔ FileArgOk arg := by
  by_cases hne : arg = []
  · subst hne
    rw [writeArg_nil]
    exact iff_of_false (by decide) fun h => h.nonempty rfl
  · rw [word_eq_some_iff hne]
    exact expand_fileArg_iff hne

end Words

/-- **The script runs the command again**, with `--read-batch`, when none of the bytes of the
    arguments is lost to the shell. -/
theorem reruns_iff (options : List Bytes) (file : Bytes) :
    Reruns options file ↔ (∀ p ∈ writtenOptions false options, OptionOk p) ∧ FileArgOk file := by
  rw [Reruns, word_fileArg_iff]
  exact and_congr_left' (forall₂_congr fun p _ => word_optionText_iff p)

/-- A quote in the last argument is lost. -/
theorem not_reruns_quote : ¬∀ (options : List Bytes) (file : Bytes), Reruns options file := by
  intro h
  have hok := (word_fileArg_iff [105, 116, 39, 115]).1 (h [] [105, 116, 39, 115]).2
  exact hok.quoted (by decide) (by decide)

end CloudEdgeBackup
