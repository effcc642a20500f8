/-
  The words of `--info` and `--debug`.

  * `makeOutputOption` writes the words whose level was not implied as an option for the other
    side. Where none was implied and one level is that of five words or more, `NONE`, `ALL` or
    `ALLn` stands for these;
  * `parseOutputWords` sets the levels from the words of an option;
  * `makeOutputOption_parses`: reading the written words gives back the levels they were written
    for, and the text fits the buffer allocated for it.
-/
import CloudEdgeBackup.Authenticate
import CloudEdgeBackup.Lib.Format

namespace CloudEdgeBackup

open Cfmt

/-! ## Tables of words -/

/-- `MAX_OUT_LEVEL` -/
def maxOutLevel : ℤ := 4

/-- `DEFAULT_PRIORITY` -/
def defaultPriority : UInt8 := 0
/-- `HELP_PRIORITY` -/
def helpPriority : UInt8 := 1
/-- `USER_PRIORITY` -/
def userPriority : UInt8 := 2

/-- `W_CLI` -/
def wCli : UInt8 := 1
/-- `W_SRV` -/
def wSrv : UInt8 := 2
/-- `W_SND` -/
def wSnd : UInt8 := 4
/-- `W_REC` -/
def wRec : UInt8 := 8

/-- `struct output_struct` without its texts for the help and without the priority. -/
structure OutputWord where
  name : Bytes
  flag : ℕ
  whereBits : UInt8

/-- `sizeof #flag - 1` -/
def OutputWord.namelen (w : OutputWord) : ℕ := w.name.length

def isLetter (c : UInt8) : Bool := 65 ≤ c && c ≤ 90

/-- The items that stand for all words or for the help. -/
def reservedItems : List Bytes := [cstr "help", cstr "none", cstr "all"]

/-- `info_words` or `debug_words`: the option they belong to, the words and `COUNT_INFO` or
    `COUNT_DEBUG`. -/
structure OutputTable where
  option : Bytes
  words : List OutputWord
  count : ℕ
  count_eq : words.length = count
  flags : words.map OutputWord.flag = List.range words.length
  option_ne : option ≠ []
  name_ne : ∀ w ∈ words, w.name ≠ []
  letters : ∀ w ∈ words, ∀ c ∈ w.name, isLetter c = true
  reserved : ∀ w ∈ words, w.name.map toLower ∉ reservedItems
  distinct : (words.map OutputWord.name).Nodup

/-- The words `#flag` with the values `INFO_##flag` or `DEBUG_##flag`, which count up. -/
def outputWords (names : List (String × UInt8)) : List OutputWord :=
  names.zipIdx.map fun p => ⟨cstr p.1.1, p.2, p.1.2⟩

set_option maxRecDepth 2000 in
/-- `info_words` -/
def infoWords : OutputTable where
  option := cstr "--info="
  words := outputWords [("BACKUP", wRec), ("COPY", wRec), ("DEL", wRec), ("FLIST", wCli),
    ("MISC", wSnd ||| wRec), ("MOUNT", wSnd ||| wRec), ("NAME", wSnd ||| wRec), ("PROGRESS", wCli),
    ("REMOVE", wSnd), ("SKIP", wRec), ("STATS", wCli ||| wSrv), ("SYMSAFE", wSnd ||| wRec)]
  count := 12
  count_eq := rfl
  flags := rfl
  option_ne := by decide
  name_ne := by decide
  letters := by decide
  reserved := by decide
  distinct := by decide

set_option maxRecDepth 4000 in
/-- `debug_words` -/
def debugWords : OutputTable where
  option := cstr "--debug="
  words := outputWords [("ACL", wSnd ||| wRec), ("BACKUP", wRec), ("BIND", wCli),
    ("CHDIR", wCli ||| wSrv), ("CONNECT", wCli), ("CMD", wCli), ("DEL", wRec),
    ("DELTASUM", wSnd ||| wRec), ("DUP", wRec), ("EXIT", wCli ||| wSrv), ("FILTER", wSnd ||| wRec),
    ("FLIST", wSnd ||| wRec), ("FUZZY", wRec), ("GENR", wRec), ("HASH", wSnd ||| wRec),
    ("HLINK", wSnd ||| wRec), ("ICONV", wCli ||| wSrv), ("IO", wCli ||| wSrv), ("OWN", wRec),
    ("PROTO", wCli ||| wSrv), ("RECV", wRec), ("SEND", wSnd), ("TIME", wRec)]
  count := 23
  count_eq := rfl
  flags := rfl
  option_ne := by decide
  name_ne := by decide
  letters := by decide
  reserved := by decide
  distinct := by decide

/-- The priorities of the words and `info_levels` or `debug_levels`. -/
structure OutputLevels where
  priority : ℕ → UInt8
  level : ℕ → ℤ

/-- How `make_output_option` and `parse_output_words` leave the program. -/
inductive OutputExit where
  | wrongFlag (word : Bytes)
  | wrongCount
  | badLevel
  | overrun
  | help
  | unknownItem (item : Bytes)
  deriving DecidableEq

/-! ## Writing the option -/

/-- The variables of the first loop of `make_output_option`. -/
structure Tally where
  skipped : ℕ := 0
  len : ℕ := 0
  counts : ℤ → ℕ := fun _ => 0
  max : ℕ := 0
  lev : ℤ := 0

section Write

variable (t : OutputTable) (mask : UInt8) (s : OutputLevels)

/-- One round of the first loop. An index outside `counts` overruns it. -/
def tallyWord (a : Tally) (p : OutputWord × ℕ) : Except OutputExit Tally :=
  if p.1.flag ≠ p.2 then .error (.wrongFlag p.1.name)
  else if p.1.whereBits &&& mask = 0 then .ok a
  else if s.priority p.2 = defaultPriority then .ok { a with skipped := a.skipped + 1 }
  else
    let len := a.len + (if a.len ≠ 0 then 1 else t.option.length) + p.1.name.length +
      (if s.level p.2 = 1 then 0 else 1)
    if s.priority p.2 = helpPriority then .ok { a with len := len }
    else if maxOutLevel < s.level p.2 then .error .badLevel
    else if s.level p.2 < 0 then .error .overrun
    else
      let counts := Function.update a.counts (s.level p.2) (a.counts (s.level p.2) + 1)
      if a.max < counts (s.level p.2) then
        .ok { a with len := len, counts := counts, lev := s.level p.2, max := counts (s.level p.2) }
      else .ok { a with len := len, counts := counts }

/-- The first loop and the check of the table's length. -/
def outputTally : Except OutputExit Tally := do
  let a ← t.words.zipIdx.foldlM (tallyWord t mask s) {}
  if t.words.length ≠ t.count then .error .wrongCount else .ok a

/-- `buf` up to the last byte written, and `pos`. -/
structure OutBuf where
  text : Bytes := []
  pos : ℕ := 0

/-- `pos += strlcpy(buf+pos, src, len-pos)`, also for `snprintf`: the text is cut to the buffer,
    `pos` is not. -/
def OutBuf.strlcpy (len : ℕ) (b : OutBuf) (src : Bytes) : OutBuf :=
  ⟨b.text ++ src.take (len - b.pos - 1), b.pos + src.length⟩

/-- `buf[pos++] = c` -/
def OutBuf.putc (b : OutBuf) (c : UInt8) : OutBuf := ⟨b.text ++ [c], b.pos + 1⟩

/-- `'0' + level` -/
def levelDigit (lev : ℤ) : UInt8 := UInt8.ofNat (48 + lev.toNat)

/-- The abbreviation for the words of the level `lev`. -/
def abbreviation (lev : ℤ) : Bytes :=
  if lev = 0 then cstr "NONE" else if lev = 1 then cstr "ALL" else cstr "ALL" ++ showInt lev

/-- One round of the second loop. -/
def emitWord (len : ℕ) (lev : ℤ) (b : OutBuf) (p : OutputWord × ℕ) : OutBuf :=
  if ¬b.pos < len then b
  else if s.priority p.2 = defaultPriority ∨ s.level p.2 = lev ∨ p.1.whereBits &&& mask = 0 then b
  else
    let b := if b.pos ≠ 0 then b.putc comma else b.strlcpy len t.option
    let b := if b.pos < len then b.strlcpy len p.1.name else b
    if s.level p.2 ≠ 1 ∧ b.pos < len then b.putc (levelDigit (s.level p.2)) else b

/-- `make_output_option`; `none` is the null pointer. The text is without its final 0, which is
    written at `pos`. -/
def makeOutputOption : Except OutputExit (Option Bytes) := do
  let a ← outputTally t mask s
  if a.len = 0 then .ok none
  else
    let len := a.len + 1
    let short := a.skipped ≠ 0 ∨ a.max < 5
    let lev := if short then -1 else a.lev
    let b : OutBuf := if short then {} else OutBuf.strlcpy len {} (t.option ++ abbreviation a.lev)
    let b := t.words.zipIdx.foldl (emitWord t mask s len lev) b
    if b.pos < len then .ok (some b.text) else .error .overrun

end Write

/-! ## Reading the option -/

/-- `atoi` of a run of digits: `strtol`, which stops at the largest `long`, as an `int`. -/
def atoi (digits : Bytes) : ℤ := Int.bmod (min (value digits) (2 ^ 63 - 1) : ℕ) (2 ^ 32)

/-- Setting a word whose priority allows it; a level is a `short`. -/
def setWord (priority : UInt8) (lev : ℤ) (s : OutputLevels) (j : ℕ) : OutputLevels :=
  if s.priority j ≤ priority then
    ⟨Function.update s.priority j priority, Function.update s.level j (Int.bmod lev (2 ^ 16))⟩
  else s

/-- The loop over the words; the empty name stands for all of them. -/
def matchWords (priority : UInt8) (name : Bytes) (lev : ℤ) :
    List (OutputWord × ℕ) → OutputLevels → Bool × OutputLevels
  | [], s => (false, s)
  | p :: ws, s =>
    if name = [] then matchWords priority name lev ws (setWord priority lev s p.2)
    else if name.length = p.1.namelen ∧ name.map toLower = p.1.name.map toLower then
      (true, setWord priority lev s p.2)
    else matchWords priority name lev ws s

/-- One item of the list, without its comma. -/
def parseItem (t : OutputTable) (priority : UInt8) (s : OutputLevels) (item : Bytes) :
    Except OutputExit OutputLevels :=
  if item = [] then .ok s
  else
    let name := if item.head?.any isDigit then item else item.rdropWhile isDigit
    let digits := item.drop name.length
    let lev := if digits ≠ [] then atoi digits else 1
    let lev := if maxOutLevel < lev then maxOutLevel else lev
    if name.map toLower = cstr "help" then .error .help
    else
      let (name, lev) := if name.map toLower = cstr "none" then ([], 0)
        else if name.map toLower = cstr "all" then ([], lev) else (name, lev)
      let (found, s) := matchWords priority name lev t.words.zipIdx s
      if name ≠ [] ∧ !found then .error (.unknownItem name) else .ok s

/-- `parse_output_words` -/
def parseOutputWords (t : OutputTable) (priority : UInt8) (str : Bytes) (s : OutputLevels) :
    Except OutputExit OutputLevels :=
  (str.splitOn comma).foldlM (parseItem t priority) s

/-! ## The text of the items -/

/-- The item of a word with its level. -/
def itemText (s : OutputLevels) (p : OutputWord × ℕ) : Bytes :=
  p.1.name ++ if s.level p.2 = 1 then [] else [levelDigit (s.level p.2)]

/-- A word of the other side whose level is not implied. -/
def selected (mask : UInt8) (s : OutputLevels) (p : OutputWord × ℕ) : Bool :=
  p.1.whereBits &&& mask ≠ 0 && s.priority p.2 ≠ defaultPriority

/-- The text with one more item. -/
def addItem (option text item : Bytes) : Bytes :=
  (if text = [] then option else text ++ [comma]) ++ item

section Items

variable {option : Bytes}

theorem addItem_ne_nil (hne : option ≠ []) (text item : Bytes) : addItem option text item ≠ [] := by
  rw [addItem]
  split_ifs <;> simp [hne]

theorem length_le_addItem (text item : Bytes) : text.length ≤ (addItem option text item).length := by
  rw [addItem]
  split_ifs with h
  · simp [h]
  · simp only [List.length_append]
    omega

theorem length_le_foldl_addItem (items : List Bytes) : ∀ text : Bytes,
    text.length ≤ (items.foldl (addItem option) text).length := by
  induction items with
  | nil => exact fun text => le_rfl
  | cons item items ih => exact fun text => (length_le_addItem text item).trans (ih _)

/-- Every item behind another costs its length and a comma. -/
theorem length_foldl_addItem (hne : option ≠ []) (items : List Bytes) : ∀ {text : Bytes}, text ≠ [] →
    (items.foldl (addItem option) text).length =
      text.length + (items.map fun item => item.length + 1).sum := by
  induction items with
  | nil => exact fun _ => rfl
  | cons item items ih =>
    intro text htext
    rw [List.foldl_cons, ih (addItem_ne_nil hne text item), addItem, if_neg htext, List.map_cons,
      List.sum_cons]
    simp only [List.length_append, List.length_cons, List.length_nil]
    omega

theorem length_foldl_addItem_nil (hne : option ≠ []) {items : List Bytes} (hitems : items ≠ []) :
    (items.foldl (addItem option) []).length + 1 =
      option.length + (items.map fun item => item.length + 1).sum := by
  obtain ⟨item, items, rfl⟩ := List.exists_cons_of_ne_nil hitems
  rw [List.foldl_cons, length_foldl_addItem hne items (addItem_ne_nil hne [] item), addItem, if_pos rfl,
    List.map_cons, List.sum_cons, List.length_append]
  omega

theorem foldl_addItem (hne : option ≠ []) (items : List Bytes) : ∀ {text : Bytes} (item : Bytes),
    text ≠ [] → (item :: items).foldl (addItem option) text =
      text ++ comma :: [comma].intercalate (item :: items) := by
  induction items with
  | nil =>
    intro text item htext
    rw [List.foldl_cons, List.foldl_nil, addItem, if_neg htext]
    simp
  | cons next items ih =>
    intro text item htext
    rw [List.foldl_cons, ih next (addItem_ne_nil hne text item), addItem, if_neg htext,
      List.intercalate_cons_of_ne_nil (List.cons_ne_nil _ _)]
    simp

/-- The items are the list behind the option. -/
theorem foldl_addItem_nil (hne : option ≠ []) {items : List Bytes} (hitems : items ≠ []) :
    items.foldl (addItem option) [] = option ++ [comma].intercalate items := by
  obtain ⟨item, items, rfl⟩ := List.exists_cons_of_ne_nil hitems
  cases items with
  | nil =>
    rw [List.foldl_cons, List.foldl_nil, addItem, if_pos rfl]
    simp
  | cons next items =>
    rw [List.foldl_cons, foldl_addItem hne items next (addItem_ne_nil hne [] item), addItem, if_pos rfl,
      List.intercalate_cons_of_ne_nil (List.cons_ne_nil _ _)]
    simp

end Items

/-! ## What is written -/

section Write

variable {t : OutputTable} {mask : UInt8} {s : OutputLevels}

/-- What the first loop has counted behind the words `l`. -/
structure TallyOf (t : OutputTable) (mask : UInt8) (s : OutputLevels) (l : List (OutputWord × ℕ))
    (a : Tally) : Prop where
  skipped : a.skipped = 0 → ∀ p ∈ l, p.1.whereBits &&& mask ≠ 0 → s.priority p.2 ≠ defaultPriority
  len : a.len = (((l.filter (selected mask s)).map (itemText s)).foldl (addItem t.option) []).length
  counts : ∀ lev, a.counts lev ≤ ((l.filter (selected mask s)).filter (s.level ·.2 = lev)).length
  max : a.max ≤ a.counts a.lev
  lev_nonneg : 0 ≤ a.lev
  lev_le : a.lev ≤ maxOutLevel

theorem tallyOf_nil : TallyOf t mask s [] {} where
  skipped := by simp
  len := rfl
  counts := fun _ => le_rfl
  max := le_rfl
  lev_nonneg := le_rfl
  lev_le := by decide

theorem filter_concat_pos {α : Type*} {f : α → Bool} {l : List α} {x : α} (h : f x = true) :
    (l ++ [x]).filter f = l.filter f ++ [x] := by
  rw [List.filter_append, List.filter_cons_of_pos h, List.filter_nil]

theorem filter_concat_neg {α : Type*} {f : α → Bool} {l : List α} {x : α} (h : ¬f x = true) :
    (l ++ [x]).filter f = l.filter f := by
  rw [List.filter_append, List.filter_cons_of_neg h, List.filter_nil, List.append_nil]

/-- A word that is not written. -/
theorem TallyOf.skip {l : List (OutputWord × ℕ)} {a : Tally} (h : TallyOf t mask s l a)
    {p : OutputWord × ℕ} (hp : ¬selected mask s p = true) {skipped : ℕ}
    (hskipped : skipped = 0 → a.skipped = 0 ∧
      (p.1.whereBits &&& mask ≠ 0 → s.priority p.2 ≠ defaultPriority)) :
    TallyOf t mask s (l ++ [p]) { a with skipped := skipped } where
  skipped := by
    intro hzero q hq
    rcases List.mem_append.1 hq with hq | hq
    · exact h.skipped (hskipped hzero).1 q hq
    · rw [List.mem_singleton.1 hq]
      exact (hskipped hzero).2
  len := by rw [filter_concat_neg hp, ← h.len]
  counts := by
    rw [filter_concat_neg hp]
    exact h.counts
  max := h.max
  lev_nonneg := h.lev_nonneg
  lev_le := h.lev_le

/-- The length of a written word is counted. -/
theorem TallyOf.write {l : List (OutputWord × ℕ)} {a : Tally} (h : TallyOf t mask s l a)
    {p : OutputWord × ℕ} (hp : selected mask s p = true) {a' : Tally}
    (hskipped : a'.skipped = a.skipped)
    (hlen : a'.len = a.len + (if a.len ≠ 0 then 1 else t.option.length) + p.1.name.length +
      (if s.level p.2 = 1 then 0 else 1))
    (hcounts : ∀ lev, a'.counts lev ≤ a.counts lev + if s.level p.2 = lev then 1 else 0)
    (hmax : a'.max ≤ a'.counts a'.lev) (hlev : 0 ≤ a'.lev) (hle : a'.lev ≤ maxOutLevel) :
    TallyOf t mask s (l ++ [p]) a' where
  skipped := by
    intro hzero q hq
    rcases List.mem_append.1 hq with hq | hq
    · exact h.skipped (hskipped ▸ hzero) q hq
    · rw [List.mem_singleton.1 hq]
      rw [selected, Bool.and_eq_true, decide_eq_true_eq, decide_eq_true_eq] at hp
      exact fun _ => hp.2
  len := by
    rw [filter_concat_pos hp, List.map_append, List.foldl_append, List.map_cons, List.map_nil,
      List.foldl_cons, List.foldl_nil, addItem, List.length_append, hlen, h.len, itemText,
      List.length_append]
    split_ifs <;> simp_all <;> omega
  counts := by
    intro lev
    rw [filter_concat_pos hp]
    by_cases hl : s.level p.2 = lev
    · rw [filter_concat_pos (by simpa using hl), List.length_append, List.length_singleton]
      have := hcounts lev
      rw [if_pos hl] at this
      exact this.trans (Nat.succ_le_succ (h.counts lev))
    · rw [filter_concat_neg (by simpa using hl)]
      have := hcounts lev
      rw [if_neg hl] at this
      exact this.trans (h.counts lev)
  max := hmax
  lev_nonneg := hlev
  lev_le := hle

theorem tallyWord_spec {l : List (OutputWord × ℕ)} {a : Tally} (h : TallyOf t mask s l a)
    {p : OutputWord × ℕ} (hflag : p.1.flag = p.2)
    (hlev : 0 ≤ s.level p.2 ∧ s.level p.2 ≤ maxOutLevel) :
    ∃ a', tallyWord t mask s a p = .ok a' ∧ TallyOf t mask s (l ++ [p]) a' := by
  rw [tallyWord, if_neg (not_not.2 hflag)]
  by_cases hwhere : p.1.whereBits &&& mask = 0
  · rw [if_pos hwhere]
    refine ⟨a, rfl, h.skip (by simp [selected, hwhere]) fun hzero => ⟨hzero, fun hne => absurd hwhere hne⟩⟩
  rw [if_neg hwhere]
  by_cases hprio : s.priority p.2 = defaultPriority
  · rw [if_pos hprio]
    exact ⟨_, rfl, h.skip (by simp [selected, hprio]) fun hzero => absurd hzero (Nat.succ_ne_zero _)⟩
  rw [if_neg hprio]
  have hsel : selected mask s p = true := by simp [selected, hwhere, hprio]
  by_cases hhelp : s.priority p.2 = helpPriority
  · simp only [if_pos hhelp]
    refine ⟨_, rfl, h.write hsel rfl rfl (fun lev => ?_) h.max h.lev_nonneg h.lev_le⟩
    exact Nat.le_add_right _ _
  simp only [if_neg hhelp, if_neg (not_lt.2 hlev.2), if_neg (not_lt.2 hlev.1)]
  have hcounts : ∀ lev, Function.update a.counts (s.level p.2) (a.counts (s.level p.2) + 1) lev ≤
      a.counts lev + if s.level p.2 = lev then 1 else 0 := by
    intro lev
    rcases eq_or_ne lev (s.level p.2) with rfl | hne
    · rw [Function.update_self, if_pos rfl]
    · rw [Function.update_of_ne hne, if_neg hne.symm]
      exact Nat.le_add_right _ _
  by_cases hmore :
      a.max < Function.update a.counts (s.level p.2) (a.counts (s.level p.2) + 1) (s.level p.2)
  · rw [if_pos hmore]
    exact ⟨_, rfl, h.write hsel rfl rfl hcounts le_rfl hlev.1 hlev.2⟩
  · rw [if_neg hmore]
    refine ⟨_, rfl, h.write hsel rfl rfl hcounts ?_ h.lev_nonneg h.lev_le⟩
    rcases eq_or_ne a.lev (s.level p.2) with heq | hne
    · refine h.max.trans ?_
      rw [heq]
      refine (Nat.le_succ _).trans_eq ?_
      show _ = Function.update a.counts (s.level p.2) _ (s.level p.2)
      rw [Function.update_self]
    · exact h.max.trans_eq (Function.update_of_ne hne _ _).symm

theorem foldlM_tallyWord {words : List (OutputWord × ℕ)} (hflag : ∀ p ∈ words, p.1.flag = p.2)
    (hlev : ∀ p ∈ words, 0 ≤ s.level p.2 ∧ s.level p.2 ≤ maxOutLevel) :
    ∃ a, words.foldlM (tallyWord t mask s) {} = .ok a ∧ TallyOf t mask s words a := by
  induction words using List.reverseRecOn with
  | nil => exact ⟨{}, rfl, tallyOf_nil⟩
  | append_singleton words p ih =>
    obtain ⟨a, ha, htally⟩ := ih (fun q hq => hflag q (List.mem_append_left _ hq))
      fun q hq => hlev q (List.mem_append_left _ hq)
    have hmem : p ∈ words ++ [p] := List.mem_append_right _ List.mem_cons_self
    obtain ⟨a', ha', htally'⟩ := tallyWord_spec htally (hflag p hmem) (hlev p hmem)
    refine ⟨a', ?_, htally'⟩
    rw [List.foldlM_append, ha]
    show [p].foldlM (tallyWord t mask s) a = .ok a'
    rw [List.foldlM_cons, ha']
    rfl

theorem outputTally_spec (hlev : ∀ p ∈ t.words.zipIdx, 0 ≤ s.level p.2 ∧ s.level p.2 ≤ maxOutLevel) :
    ∃ a, outputTally t mask s = .ok a ∧ TallyOf t mask s t.words.zipIdx a := by
  have hflag : ∀ p ∈ t.words.zipIdx, p.1.flag = p.2 := by
    rintro ⟨w, j⟩ hp
    have hw := List.mem_zipIdx_iff_getElem?.1 hp
    have hget := congrArg (·[j]?) t.flags
    rw [List.getElem?_map, hw] at hget
    have hj : j < t.words.length := (List.getElem?_eq_some_iff.1 hw).1
    rw [List.getElem?_range hj] at hget
    exact Option.some.inj hget
  obtain ⟨a, ha, htally⟩ := @foldlM_tallyWord t mask s _ hflag hlev
  refine ⟨a, ?_, htally⟩
  rw [outputTally, ha]
  show (if t.words.length ≠ t.count then Except.error OutputExit.wrongCount else Except.ok a) = _
  rw [if_neg (not_not.2 t.count_eq)]

/-- The words that follow the abbreviation for the level `lev`. -/
def emitted (mask : UInt8) (s : OutputLevels) (lev : ℤ) (p : OutputWord × ℕ) : Bool :=
  selected mask s p && s.level p.2 ≠ lev

/-- The buffer after whole writes. -/
def OutBuf.of (text : Bytes) : OutBuf := ⟨text, text.length⟩

theorem OutBuf.strlcpy_of {len : ℕ} {text src : Bytes} (h : (text ++ src).length < len) :
    (OutBuf.of text).strlcpy len src = OutBuf.of (text ++ src) := by
  rw [List.length_append] at h
  have hroom : src.length ≤ len - (OutBuf.of text).pos - 1 := by
    show src.length ≤ len - text.length - 1
    omega
  rw [OutBuf.strlcpy, List.take_of_length_le hroom, OutBuf.of, OutBuf.of, List.length_append]

theorem OutBuf.putc_of (text : Bytes) (c : UInt8) :
    (OutBuf.of text).putc c = OutBuf.of (text ++ [c]) := by
  rw [OutBuf.putc, OutBuf.of, OutBuf.of, List.length_append, List.length_singleton]

/-- A word whose item fits is written with the comma or the option in front of it. -/
theorem emitWord_of {len : ℕ} {lev : ℤ} {text : Bytes} {p : OutputWord × ℕ}
    (hp : emitted mask s lev p = true)
    (hfits : (addItem t.option text (itemText s p)).length < len) :
    emitWord t mask s len lev (.of text) p = .of (addItem t.option text (itemText s p)) := by
  have hlen : text.length < len := (length_le_addItem text _).trans_lt hfits
  have hcond : ¬(s.priority p.2 = defaultPriority ∨ s.level p.2 = lev ∨ p.1.whereBits &&& mask = 0) := by
    simp only [emitted, selected, Bool.and_eq_true, decide_eq_true_eq] at hp
    rintro (h | h | h)
    · exact hp.1.2 h
    · exact hp.2 h
    · exact hp.1.1 h
  have hfront : (if (OutBuf.of text).pos ≠ 0 then (OutBuf.of text).putc comma
      else (OutBuf.of text).strlcpy len t.option) =
      .of (if text = [] then t.option else text ++ [comma]) := by
    rw [addItem, List.length_append] at hfits
    cases text with
    | nil =>
      rw [if_neg (by simp [OutBuf.of]), if_pos rfl, OutBuf.strlcpy_of]
      · rfl
      · rw [if_pos rfl] at hfits
        simpa using (Nat.le_add_right _ _).trans_lt hfits
    | cons c text => rw [if_pos (by simp [OutBuf.of]), if_neg (List.cons_ne_nil c text), OutBuf.putc_of]
  have hguard : ¬¬(OutBuf.of text).pos < len := not_not.2 hlen
  rw [emitWord, if_neg hguard, if_neg hcond]
  simp only [hfront]
  rw [addItem] at hfits ⊢
  generalize (if text = [] then t.option else text ++ [comma]) = front at hfits ⊢
  rw [itemText, ← List.append_assoc, List.length_append] at hfits
  have hname : (front ++ p.1.name).length < len := (Nat.le_add_right _ _).trans_lt hfits
  have hpos : (OutBuf.of front).pos < len := by
    rw [List.length_append] at hname
    exact (Nat.le_add_right _ _).trans_lt hname
  rw [if_pos hpos, OutBuf.strlcpy_of hname, itemText, ← List.append_assoc]
  by_cases hone : s.level p.2 = 1
  · rw [if_neg (fun h => h.1 hone), if_pos hone, List.append_nil]
  · rw [if_pos ⟨hone, hname⟩, if_neg hone, OutBuf.putc_of]

theorem emitWord_skip {len : ℕ} {lev : ℤ} {b : OutBuf} {p : OutputWord × ℕ}
    (hp : ¬emitted mask s lev p = true) : emitWord t mask s len lev b p = b := by
  have hcond : s.priority p.2 = defaultPriority ∨ s.level p.2 = lev ∨ p.1.whereBits &&& mask = 0 := by
    by_contra hno
    simp only [not_or] at hno
    exact hp (by simp [emitted, selected, hno])
  rw [emitWord, if_pos hcond, ite_self]

/-- The second loop writes the items one behind the other. -/
theorem foldl_emitWord {len : ℕ} {lev : ℤ} (words : List (OutputWord × ℕ)) : ∀ {text : Bytes},
    (((words.filter (emitted mask s lev)).map (itemText s)).foldl (addItem t.option) text).length < len →
    words.foldl (emitWord t mask s len lev) (.of text) =
      .of (((words.filter (emitted mask s lev)).map (itemText s)).foldl (addItem t.option) text) := by
  induction words with
  | nil => exact fun _ => rfl
  | cons p words ih =>
    intro text hfits
    by_cases hp : emitted mask s lev p = true
    · rw [List.filter_cons_of_pos hp, List.map_cons, List.foldl_cons] at hfits ⊢
      rw [List.foldl_cons, emitWord_of hp ((length_le_foldl_addItem _ _).trans_lt hfits), ih hfits]
    · rw [List.filter_cons_of_neg hp] at hfits ⊢
      rw [List.foldl_cons, emitWord_skip hp, ih hfits]

/-- The items of the option: the abbreviation, where there is one, and the words behind it. -/
def writtenItems (t : OutputTable) (mask : UInt8) (s : OutputLevels) (a : Tally) : List Bytes :=
  let short := a.skipped ≠ 0 ∨ a.max < 5
  (if short then [] else [abbreviation a.lev]) ++
    (t.words.zipIdx.filter (emitted mask s (if short then -1 else a.lev))).map (itemText s)

theorem length_abbreviation {lev : ℤ} (h : 0 ≤ lev) (hle : lev ≤ maxOutLevel) :
    (abbreviation lev).length ≤ 4 := by
  rw [maxOutLevel] at hle
  interval_cases lev <;> decide

theorem sum_filter_add {α : Type*} (f : α → ℕ) (q : α → Bool) (l : List α) :
    ((l.filter q).map f).sum + ((l.filter (!q ·)).map f).sum = (l.map f).sum := by
  induction l with
  | nil => rfl
  | cons x l ih =>
    rw [List.map_cons, List.sum_cons, ← ih]
    cases hx : q x <;> simp [hx] <;> omega

/-- What the abbreviation stands for is longer than it. -/
theorem length_abbreviation_lt {a : Tally} (h : TallyOf t mask s t.words.zipIdx a) (hmax : 5 ≤ a.max) :
    (abbreviation a.lev).length + 1 + (((t.words.zipIdx.filter (emitted mask s a.lev)).map
      (itemText s)).map fun item => item.length + 1).sum <
      (((t.words.zipIdx.filter (selected mask s)).map (itemText s)).map fun item => item.length + 1).sum := by
  have hsum := sum_filter_add (fun p => (itemText s p).length + 1) (fun p => s.level p.2 ≠ a.lev)
    (t.words.zipIdx.filter (selected mask s))
  have hcount : 5 ≤ ((t.words.zipIdx.filter (selected mask s)).filter (s.level ·.2 = a.lev)).length :=
    hmax.trans (h.max.trans (h.counts _))
  have htwo : ∀ n ∈ ((t.words.zipIdx.filter (selected mask s)).filter (s.level ·.2 = a.lev)).map
      (fun p => (itemText s p).length + 1), 2 ≤ n := by
    intro n hn
    obtain ⟨p, hp, rfl⟩ := List.mem_map.1 hn
    have hmem := List.mem_of_mem_filter (List.mem_of_mem_filter hp)
    have hname := List.length_pos_of_ne_nil (t.name_ne p.1 (List.fst_mem_of_mem_zipIdx hmem))
    rw [itemText, List.length_append]
    omega
  have hmany := List.card_nsmul_le_sum _ _ htwo
  rw [List.length_map, smul_eq_mul] at hmany
  have hshort := length_abbreviation h.lev_nonneg h.lev_le
  simp only [List.map_map, Function.comp_def]
  simp only [ne_eq, decide_not, Bool.not_not] at hsum
  have hemit : t.words.zipIdx.filter (emitted mask s a.lev) =
      (t.words.zipIdx.filter (selected mask s)).filter fun p => !decide (s.level p.2 = a.lev) := by
    rw [List.filter_filter]
    refine List.filter_congr fun p _ => ?_
    rw [emitted, Bool.and_comm, decide_not]
  rw [hemit]
  omega

/-- Without an abbreviation every word is written. -/
theorem filter_emitted_neg (hlev : ∀ p ∈ t.words.zipIdx, 0 ≤ s.level p.2 ∧ s.level p.2 ≤ maxOutLevel) :
    t.words.zipIdx.filter (emitted mask s (-1)) = t.words.zipIdx.filter (selected mask s) := by
  refine List.filter_congr fun p hp => ?_
  have hne : s.level p.2 ≠ -1 := by
    have := (hlev p hp).1
    omega
  simp [emitted, hne]

/-- The option fits the length that was counted for it. -/
theorem length_writtenItems {a : Tally}
    (hlev : ∀ p ∈ t.words.zipIdx, 0 ≤ s.level p.2 ∧ s.level p.2 ≤ maxOutLevel)
    (h : TallyOf t mask s t.words.zipIdx a) :
    ((writtenItems t mask s a).foldl (addItem t.option) []).length ≤ a.len := by
  rw [h.len, writtenItems]
  by_cases hshort : a.skipped ≠ 0 ∨ a.max < 5
  · rw [if_pos hshort, if_pos hshort, filter_emitted_neg hlev, List.nil_append]
  rw [if_neg hshort, if_neg hshort, List.singleton_append]
  rw [not_or, not_lt] at hshort
  have hlt := length_abbreviation_lt h hshort.2
  have hall : (t.words.zipIdx.filter (selected mask s)).map (itemText s) ≠ [] := by
    intro hnil
    rw [hnil] at hlt
    exact absurd hlt (Nat.not_lt_zero _)
  have hlong := length_foldl_addItem_nil t.option_ne hall
  have hitems := length_foldl_addItem_nil t.option_ne (List.cons_ne_nil (abbreviation a.lev)
    ((t.words.zipIdx.filter (emitted mask s a.lev)).map (itemText s)))
  rw [List.map_cons, List.sum_cons] at hitems
  omega

/-- **What is written are the items, and they fit.** -/
theorem makeOutputOption_spec
    (hlev : ∀ p ∈ t.words.zipIdx, 0 ≤ s.level p.2 ∧ s.level p.2 ≤ maxOutLevel) :
    ∃ a, outputTally t mask s = .ok a ∧ TallyOf t mask s t.words.zipIdx a ∧
      makeOutputOption t mask s = .ok (if a.len = 0 then none else
        some ((writtenItems t mask s a).foldl (addItem t.option) [])) := by
  obtain ⟨a, ha, h⟩ := outputTally_spec hlev
  refine ⟨a, ha, h, ?_⟩
  rw [makeOutputOption, ha]
  dsimp only [bind, Except.bind]
  by_cases hzero : a.len = 0
  · rw [if_pos hzero, if_pos hzero]
  rw [if_neg hzero, if_neg hzero]
  have hfits := Nat.lt_succ_of_le (length_writtenItems hlev h)
  rw [writtenItems] at hfits ⊢
  by_cases hshort : a.skipped ≠ 0 ∨ a.max < 5
  · simp only [if_pos hshort, List.nil_append] at hfits ⊢
    have hemit := @foldl_emitWord t mask s _ _ t.words.zipIdx _ hfits
    rw [OutBuf.of, List.length_nil] at hemit
    rw [hemit]
    exact if_pos hfits
  · simp only [if_neg hshort, List.singleton_append, List.foldl_cons] at hfits ⊢
    have hfirst : (t.option ++ abbreviation a.lev).length < a.len + 1 :=
      (@length_le_foldl_addItem t.option _ _).trans_lt hfits
    have hstart : OutBuf.strlcpy (a.len + 1) {} (t.option ++ abbreviation a.lev) =
        .of (addItem t.option [] (abbreviation a.lev)) := @OutBuf.strlcpy_of _ [] _ hfirst
    rw [hstart, foldl_emitWord t.words.zipIdx hfits]
    exact if_pos hfits

end Write

/-! ## What is read -/

section Read

variable {t : OutputTable} {priority : UInt8}

theorem isLetter_not_isDigit {c : UInt8} (h : isLetter c = true) : isDigit c = false := by
  simp only [isLetter, Bool.and_eq_true, decide_eq_true_eq, UInt8.le_iff_toNat_le] at h
  simp only [isDigit, Bool.and_eq_false_iff, decide_eq_false_iff_not, UInt8.le_iff_toNat_le]
  right
  have : (65 : UInt8).toNat = 65 := rfl
  have : (57 : UInt8).toNat = 57 := rfl
  omega

theorem toLower_letter {c : UInt8} (h : isLetter c = true) : toLower c = c + 32 := by
  simp only [isLetter, Bool.and_eq_true, decide_eq_true_eq] at h
  rw [toLower, if_pos h]

/-- Names of letters are compared as they are. -/
theorem map_toLower_inj {n m : Bytes} (hn : ∀ c ∈ n, isLetter c = true) (hm : ∀ c ∈ m, isLetter c = true)
    (h : n.map toLower = m.map toLower) : n = m := by
  rw [List.map_congr_left fun c hc => toLower_letter (hn c hc),
    List.map_congr_left fun c hc => toLower_letter (hm c hc)] at h
  exact List.map_injective_iff.2 (add_left_injective 32) h

/-- The name of a word selects it. -/
theorem matchWords_name {lev : ℤ} {p : OutputWord × ℕ} : ∀ {words : List (OutputWord × ℕ)}
    (s : OutputLevels), p ∈ words → (words.map (·.1.name)).Nodup →
    (∀ q ∈ words, q.1.name ≠ [] ∧ ∀ c ∈ q.1.name, isLetter c = true) →
    matchWords priority p.1.name lev words s = (true, setWord priority lev s p.2)
  | [], _, hp, _, _ => absurd hp List.not_mem_nil
  | q :: words, s, hp, hdist, hnames => by
    have hpn := hnames p hp
    rw [matchWords, if_neg hpn.1]
    rw [List.map_cons, List.nodup_cons] at hdist
    rcases List.mem_cons.1 hp with rfl | htail
    · rw [if_pos ⟨rfl, rfl⟩]
    · have hne : ¬(p.1.name.length = q.1.namelen ∧ p.1.name.map toLower = q.1.name.map toLower) := by
        rintro ⟨-, heq⟩
        have hname := map_toLower_inj hpn.2 (hnames q List.mem_cons_self).2 heq
        exact hdist.1 (hname ▸ List.mem_map_of_mem htail)
      rw [if_neg hne]
      exact matchWords_name s htail hdist.2 fun q hq => hnames q (List.mem_cons_of_mem _ hq)

/-- The empty name selects every word. -/
theorem matchWords_all {lev : ℤ} : ∀ (words : List (OutputWord × ℕ)) (s : OutputLevels),
    matchWords priority [] lev words s =
      (false, words.foldl (fun s p => setWord priority lev s p.2) s)
  | [], _ => rfl
  | p :: words, s => by
    rw [matchWords, if_pos rfl, matchWords_all words]
    rfl

theorem digits_level {lev : ℤ} (h : 0 ≤ lev) (hle : lev ≤ maxOutLevel) :
    isDigit (levelDigit lev) = true ∧ atoi [levelDigit lev] = lev := by
  rw [maxOutLevel] at hle
  interval_cases lev <;> decide

/-- **An item sets the level of its word.** -/
theorem parseItem_itemText {s : OutputLevels} {p : OutputWord × ℕ} (hp : p ∈ t.words.zipIdx)
    (h : 0 ≤ s.level p.2) (hle : s.level p.2 ≤ maxOutLevel) (s₀ : OutputLevels) :
    parseItem t priority s₀ (itemText s p) = .ok (setWord priority (s.level p.2) s₀ p.2) := by
  have hmem : p.1 ∈ t.words := List.fst_mem_of_mem_zipIdx hp
  have hne := t.name_ne _ hmem
  have hletters := t.letters _ hmem
  obtain ⟨hdigit, hatoi⟩ := digits_level h hle
  have hhead : (itemText s p).head?.any isDigit = false := by
    obtain ⟨c, rest, hname⟩ := List.exists_cons_of_ne_nil hne
    have hc := isLetter_not_isDigit (hletters c (by rw [hname]; exact List.mem_cons_self))
    rw [itemText, hname]
    simpa using hc
  have hlast : p.1.name.rdropWhile isDigit = p.1.name := by
    rw [List.rdropWhile_eq_self_iff]
    intro hnil
    rw [isLetter_not_isDigit (hletters _ (List.getLast_mem hnil))]
    exact Bool.false_ne_true
  have hname : (itemText s p).rdropWhile isDigit = p.1.name := by
    rw [itemText]
    split_ifs
    · rw [List.append_nil, hlast]
    · rw [List.rdropWhile_concat_pos _ _ _ hdigit, hlast]
  have hdrop : (itemText s p).drop p.1.name.length =
      if s.level p.2 = 1 then [] else [levelDigit (s.level p.2)] := by
    rw [itemText, List.drop_left]
  have hlev : (if (if s.level p.2 = 1 then [] else [levelDigit (s.level p.2)]) ≠ [] then
      atoi (if s.level p.2 = 1 then [] else [levelDigit (s.level p.2)]) else 1) = s.level p.2 := by
    by_cases hone : s.level p.2 = 1
    · rw [if_pos hone, if_neg (not_not.2 rfl), hone]
    · rw [if_neg hone, if_pos (List.cons_ne_nil _ _), hatoi]
  have hitem : itemText s p ≠ [] := by
    rw [itemText]
    exact List.append_ne_nil_of_left_ne_nil hne _
  have hreserved := t.reserved _ hmem
  simp only [reservedItems, List.mem_cons, List.not_mem_nil, or_false, not_or] at hreserved
  have hdist : (t.words.zipIdx.map (·.1.name)).Nodup := by
    have hmap : t.words.zipIdx.map (·.1.name) = t.words.map OutputWord.name :=
      calc t.words.zipIdx.map (·.1.name) = (t.words.zipIdx.map Prod.fst).map OutputWord.name :=
            (List.map_map ..).symm
        _ = t.words.map OutputWord.name := by rw [List.zipIdx_map_fst]
    rw [hmap]
    exact t.distinct
  have hmatch := @matchWords_name priority (s.level p.2) p _ s₀ hp hdist fun q hq =>
    ⟨t.name_ne _ (List.fst_mem_of_mem_zipIdx hq), t.letters _ (List.fst_mem_of_mem_zipIdx hq)⟩
  rw [parseItem, if_neg hitem]
  simp only [hhead, Bool.false_eq_true, if_false, hname, hdrop, hlev, if_neg (not_lt.2 hle), hreserved,
    hmatch, Bool.not_true, and_false]

theorem parseItem_all {item name : Bytes} {lev : ℤ} (hitem : item ≠ [])
    (hhead : item.head?.any isDigit = false) (hname : item.rdropWhile isDigit = name)
    (hlev : (if item.drop name.length ≠ [] then atoi (item.drop name.length) else 1) = lev)
    (hle : lev ≤ maxOutLevel) (hall : name.map toLower = cstr "all") (s₀ : OutputLevels) :
    parseItem t priority s₀ item =
      .ok (t.words.zipIdx.foldl (fun s p => setWord priority lev s p.2) s₀) := by
  have hhelp : ¬cstr "all" = cstr "help" := by decide
  have hnone : ¬cstr "all" = cstr "none" := by decide
  rw [parseItem, if_neg hitem]
  simp only [hhead, Bool.false_eq_true, if_false, hname, hlev, if_neg (not_lt.2 hle), hall, hhelp, hnone,
    if_true, matchWords_all, ne_eq, not_true, false_and]

theorem parseItem_none (s₀ : OutputLevels) :
    parseItem t priority s₀ (cstr "NONE") =
      .ok (t.words.zipIdx.foldl (fun s p => setWord priority 0 s p.2) s₀) := by
  have hitem : cstr "NONE" ≠ [] := by decide
  have hhead : (cstr "NONE").head?.any isDigit = false := by decide
  have hname : (cstr "NONE").rdropWhile isDigit = cstr "NONE" := by decide
  have hlower : (cstr "NONE").map toLower = cstr "none" := by decide
  have hhelp : ¬cstr "none" = cstr "help" := by decide
  rw [parseItem, if_neg hitem]
  simp only [hhead, Bool.false_eq_true, if_false, hname, hlower, hhelp, if_true, matchWords_all, ne_eq,
    not_true, false_and]

/-- **The abbreviation sets the level of every word.** -/
theorem parseItem_abbreviation {lev : ℤ} (h : 0 ≤ lev) (hle : lev ≤ maxOutLevel) (s₀ : OutputLevels) :
    parseItem t priority s₀ (abbreviation lev) =
      .ok (t.words.zipIdx.foldl (fun s p => setWord priority lev s p.2) s₀) := by
  rcases eq_or_ne lev 0 with rfl | hzero
  · exact parseItem_none s₀
  have hlevels : ∀ l : ℤ, l = 1 ∨ l = 2 ∨ l = 3 ∨ l = 4 →
      abbreviation l ≠ [] ∧ (abbreviation l).head?.any isDigit = false ∧
      (abbreviation l).rdropWhile isDigit = cstr "ALL" ∧
      (if (abbreviation l).drop (cstr "ALL").length ≠ [] then
        atoi ((abbreviation l).drop (cstr "ALL").length) else 1) = l := by
    rintro l (rfl | rfl | rfl | rfl) <;> decide
  have hcases : lev = 1 ∨ lev = 2 ∨ lev = 3 ∨ lev = 4 := by
    rw [maxOutLevel] at hle
    omega
  obtain ⟨hitem, hhead, hname, hlev⟩ := hlevels lev hcases
  exact parseItem_all hitem hhead hname hlev hle (by decide) s₀

/-- What a run of settings leaves. -/
theorem foldl_setWord (level : ℕ → ℤ) (words : List (OutputWord × ℕ)) (j : ℕ) : ∀ s : OutputLevels,
    ((words.foldl (fun s p => setWord priority (level p.2) s p.2) s).priority j ≤ priority ↔
      s.priority j ≤ priority) ∧
    (words.foldl (fun s p => setWord priority (level p.2) s p.2) s).level j =
      if (∃ p ∈ words, p.2 = j) ∧ s.priority j ≤ priority then Int.bmod (level j) (2 ^ 16) else s.level j := by
  have hstep : ∀ (s : OutputLevels) (i : ℕ),
      ((setWord priority (level i) s i).priority j ≤ priority ↔ s.priority j ≤ priority) ∧
      (setWord priority (level i) s i).level j =
        if i = j ∧ s.priority j ≤ priority then Int.bmod (level j) (2 ^ 16) else s.level j := by
    intro s i
    rw [setWord]
    rcases eq_or_ne i j with rfl | hne
    · by_cases hprio : s.priority i ≤ priority
      · simp [hprio]
      · simp [hprio]
    · by_cases hprio : s.priority i ≤ priority
      · simp [hprio, hne, Function.update_of_ne hne.symm]
      · simp [hprio, hne]
  induction words with
  | nil =>
    intro s
    refine ⟨Iff.rfl, ?_⟩
    rw [if_neg]
    · rfl
    · rintro ⟨⟨p, hp, -⟩, -⟩
      exact absurd hp List.not_mem_nil
  | cons p words ih =>
    intro s
    obtain ⟨hprio, hlevel⟩ := ih (setWord priority (level p.2) s p.2)
    obtain ⟨hprio', hlevel'⟩ := hstep s p.2
    rw [List.foldl_cons]
    refine ⟨hprio.trans hprio', ?_⟩
    have hmem : (∃ q ∈ p :: words, q.2 = j) ↔ p.2 = j ∨ ∃ q ∈ words, q.2 = j := by simp
    rw [hlevel, hlevel']
    simp only [hprio', hmem]
    by_cases hs : s.priority j ≤ priority
    · by_cases hp : p.2 = j
      · simp only [hs, hp, and_true, true_or, if_true, ite_self]
      · simp only [hs, hp, and_true, false_or, if_false]
    · simp only [hs, and_false, if_false]

/-- A list of items is a run of settings. -/
theorem foldlM_parseItem {s : OutputLevels} {words : List (OutputWord × ℕ)}
    (hwords : ∀ p ∈ words, p ∈ t.words.zipIdx ∧ 0 ≤ s.level p.2 ∧ s.level p.2 ≤ maxOutLevel) :
    ∀ s₀ : OutputLevels, (words.map (itemText s)).foldlM (parseItem t priority) s₀ =
      .ok (words.foldl (fun s₁ p => setWord priority (s.level p.2) s₁ p.2) s₀) := by
  induction words with
  | nil => exact fun _ => rfl
  | cons p words ih =>
    intro s₀
    obtain ⟨hp, h, hle⟩ := hwords p List.mem_cons_self
    rw [List.map_cons, List.foldlM_cons, parseItem_itemText hp h hle]
    exact ih (fun q hq => hwords q (List.mem_cons_of_mem _ hq)) _

/-- Setting a word whose level fits. -/
theorem bmod_level {lev : ℤ} (h : 0 ≤ lev) (hle : lev ≤ maxOutLevel) : Int.bmod lev (2 ^ 16) = lev := by
  rw [maxOutLevel] at hle
  exact Int.bmod_eq_of_le (by omega) (by omega)

end Read

/-! ## The round trip -/

section RoundTrip

variable {t : OutputTable} {mask : UInt8} {s s₀ : OutputLevels}

theorem comma_not_mem_itemText {p : OutputWord × ℕ} (hp : p ∈ t.words.zipIdx) (h : 0 ≤ s.level p.2)
    (hle : s.level p.2 ≤ maxOutLevel) : comma ∉ itemText s p := by
  rw [itemText, List.mem_append]
  rintro (hname | hdigit)
  · exact absurd (t.letters _ (List.fst_mem_of_mem_zipIdx hp) _ hname) (by decide)
  · split_ifs at hdigit
    · exact absurd hdigit List.not_mem_nil
    · have hd := (digits_level h hle).1
      rw [← List.mem_singleton.1 hdigit] at hd
      exact absurd hd (by decide)

theorem comma_not_mem_abbreviation {lev : ℤ} (h : 0 ≤ lev) (hle : lev ≤ maxOutLevel) :
    comma ∉ abbreviation lev := by
  rw [maxOutLevel] at hle
  interval_cases lev <;> decide

theorem writtenItems_ne_nil {a : Tally} (htally : TallyOf t mask s t.words.zipIdx a)
    (hlev : ∀ p ∈ t.words.zipIdx, 0 ≤ s.level p.2 ∧ s.level p.2 ≤ maxOutLevel) (hlen : a.len ≠ 0) :
    writtenItems t mask s a ≠ [] := by
  rw [writtenItems]
  by_cases hshort : a.skipped ≠ 0 ∨ a.max < 5
  · rw [if_pos hshort, if_pos hshort, List.nil_append, filter_emitted_neg hlev]
    intro hnil
    rw [htally.len, hnil] at hlen
    exact hlen rfl
  · rw [if_neg hshort]
    exact List.cons_ne_nil _ _

theorem comma_not_mem_writtenItems {a : Tally} (htally : TallyOf t mask s t.words.zipIdx a)
    (hlev : ∀ p ∈ t.words.zipIdx, 0 ≤ s.level p.2 ∧ s.level p.2 ≤ maxOutLevel) :
    ∀ item ∈ writtenItems t mask s a, comma ∉ item := by
  intro item hitem
  rw [writtenItems, List.mem_append] at hitem
  rcases hitem with habbr | hword
  · split_ifs at habbr
    · exact absurd habbr List.not_mem_nil
    · rw [List.mem_singleton.1 habbr]
      exact comma_not_mem_abbreviation htally.lev_nonneg htally.lev_le
  · obtain ⟨p, hp, rfl⟩ := List.mem_map.1 hword
    have hmem := List.mem_of_mem_filter hp
    exact comma_not_mem_itemText hmem (hlev p hmem).1 (hlev p hmem).2

/-- The reader sets the levels of the items it was written. -/
theorem parse_writtenItems {a : Tally} (htally : TallyOf t mask s t.words.zipIdx a)
    (hlev : ∀ p ∈ t.words.zipIdx, 0 ≤ s.level p.2 ∧ s.level p.2 ≤ maxOutLevel) :
    ∃ s', (writtenItems t mask s a).foldlM (parseItem t userPriority) s₀ = .ok s' ∧
      ∀ p ∈ t.words.zipIdx, p.1.whereBits &&& mask ≠ 0 →
        (s.priority p.2 ≠ defaultPriority → s₀.priority p.2 ≤ userPriority ∨ s₀.level p.2 = s.level p.2 →
          s'.level p.2 = s.level p.2) ∧
        (s.priority p.2 = defaultPriority → s'.level p.2 = s₀.level p.2) := by
  have hindex : ∀ p ∈ t.words.zipIdx, ∀ q ∈ t.words.zipIdx, q.2 = p.2 → q = p := by
    intro p hp q hq hj
    have hw := List.mem_zipIdx_iff_getElem?.1 hp
    rw [← hj, List.mem_zipIdx_iff_getElem?.1 hq, Option.some.injEq] at hw
    exact Prod.ext hw hj
  have hwords : ∀ lev, ∀ p ∈ t.words.zipIdx.filter (emitted mask s lev),
      p ∈ t.words.zipIdx ∧ 0 ≤ s.level p.2 ∧ s.level p.2 ≤ maxOutLevel := fun lev p hp =>
    ⟨List.mem_of_mem_filter hp, hlev p (List.mem_of_mem_filter hp)⟩
  -- a word gets its level exactly if it is written
  have hlevel : ∀ (lev : ℤ) (s₁ : OutputLevels), ∀ p ∈ t.words.zipIdx,
      ((t.words.zipIdx.filter (emitted mask s lev)).foldl
        (fun s₂ p => setWord userPriority (s.level p.2) s₂ p.2) s₁).level p.2 =
      if emitted mask s lev p = true ∧ s₁.priority p.2 ≤ userPriority then s.level p.2
      else s₁.level p.2 := by
    intro lev s₁ p hp
    have hmem : (∃ q ∈ t.words.zipIdx.filter (emitted mask s lev), q.2 = p.2) ↔ emitted mask s lev p = true := by
      constructor
      · rintro ⟨q, hq, heq⟩
        obtain ⟨hqw, hqe⟩ := List.mem_filter.1 hq
        rwa [← hindex p hp q hqw heq]
      · exact fun he => ⟨p, List.mem_filter.2 ⟨hp, he⟩, rfl⟩
    rw [(foldl_setWord s.level _ p.2 s₁).2, bmod_level (hlev p hp).1 (hlev p hp).2]
    simp only [hmem]
  rw [writtenItems]
  by_cases hshort : a.skipped ≠ 0 ∨ a.max < 5
  · rw [if_pos hshort, if_pos hshort, List.nil_append]
    refine ⟨_, foldlM_parseItem (hwords (-1)) s₀, fun p hp hwhere => ?_⟩
    rw [hlevel (-1) s₀ p hp]
    have hne : s.level p.2 ≠ -1 := by
      have := (hlev p hp).1
      omega
    constructor
    · intro hprio hs₀
      have he : emitted mask s (-1) p = true := by simp [emitted, selected, hwhere, hprio, hne]
      rw [he]
      split_ifs with hset
      · rfl
      · exact hs₀.resolve_left fun h => hset ⟨rfl, h⟩
    · intro hprio
      rw [if_neg]
      rintro ⟨he, -⟩
      simp [emitted, selected, hprio] at he
  · rw [if_neg hshort, if_neg hshort, List.singleton_append, List.foldlM_cons,
      parseItem_abbreviation htally.lev_nonneg htally.lev_le]
    refine ⟨_, foldlM_parseItem (hwords a.lev) _, fun p hp hwhere => ?_⟩
    rw [hlevel a.lev _ p hp]
    obtain ⟨hprio₁, hlevel₁⟩ := @foldl_setWord userPriority (fun _ => a.lev) t.words.zipIdx p.2 s₀
    simp only [hprio₁, hlevel₁, bmod_level htally.lev_nonneg htally.lev_le]
    rw [not_or, not_not] at hshort
    have hnot := htally.skipped hshort.1 p hp hwhere
    have hmem : ∃ q ∈ t.words.zipIdx, q.2 = p.2 := ⟨p, hp, rfl⟩
    refine ⟨fun hprio hs₀ => ?_, fun hprio => absurd hprio hnot⟩
    by_cases hset : s₀.priority p.2 ≤ userPriority
    · by_cases heq : s.level p.2 = a.lev
      · simp [emitted, hset, hmem, heq]
      · have he : emitted mask s a.lev p = true := by simp [emitted, selected, hwhere, hprio, heq]
        rw [if_pos ⟨he, hset⟩]
    · simp only [hset, and_false, if_false]
      exact hs₀.resolve_left hset

/-- **The words that are written are read back.** Where nothing is written no level has to be;
    what is written fits its buffer, and gives every word of the other side its level, unless the
    reader holds the level of a higher priority. -/
theorem makeOutputOption_parses (t : OutputTable) (mask : UInt8) (s s₀ : OutputLevels)
    (hlev : ∀ j < t.words.length, 0 ≤ s.level j ∧ s.level j ≤ maxOutLevel) :
    ∃ a, outputTally t mask s = .ok a ∧
      ((makeOutputOption t mask s = .ok none ∧
        ∀ j w, t.words[j]? = some w → w.whereBits &&& mask ≠ 0 → s.priority j = defaultPriority) ∨
      ∃ arg s', makeOutputOption t mask s = .ok (some (t.option ++ arg)) ∧
        (t.option ++ arg).length + 1 ≤ a.len + 1 ∧
        parseOutputWords t userPriority arg s₀ = .ok s' ∧
        ∀ j w, t.words[j]? = some w → w.whereBits &&& mask ≠ 0 →
          (s.priority j ≠ defaultPriority → s₀.priority j ≤ userPriority ∨ s₀.level j = s.level j →
            s'.level j = s.level j) ∧
          (s.priority j = defaultPriority → s'.level j = s₀.level j)) := by
  have hwords : ∀ p ∈ t.words.zipIdx, 0 ≤ s.level p.2 ∧ s.level p.2 ≤ maxOutLevel := fun p hp =>
    hlev _ (by simpa using List.snd_lt_of_mem_zipIdx hp)
  have hmem : ∀ {j : ℕ} {w : OutputWord}, t.words[j]? = some w → (w, j) ∈ t.words.zipIdx := fun h =>
    List.mk_mem_zipIdx_iff_getElem?.2 h
  obtain ⟨a, ha, htally, hmake⟩ := @makeOutputOption_spec t mask s hwords
  refine ⟨a, ha, ?_⟩
  by_cases hzero : a.len = 0
  · refine .inl ⟨by rw [hmake, if_pos hzero], fun j w hw hwhere => ?_⟩
    by_contra hprio
    have hsel : (w, j) ∈ t.words.zipIdx.filter (selected mask s) :=
      List.mem_filter.2 ⟨hmem hw, by simp [selected, hwhere, hprio]⟩
    have hnil : (t.words.zipIdx.filter (selected mask s)).map (itemText s) ≠ [] := by
      rw [Ne, List.map_eq_nil_iff]
      exact List.ne_nil_of_mem hsel
    have hlen := htally.len
    rw [hzero, foldl_addItem_nil t.option_ne hnil, List.length_append] at hlen
    have := List.length_pos_of_ne_nil t.option_ne
    omega
  · refine .inr ?_
    have hfits := length_writtenItems hwords htally
    obtain ⟨s', hparse, hs'⟩ := @parse_writtenItems t mask s s₀ a htally hwords
    have hne := writtenItems_ne_nil htally hwords hzero
    have hcomma := comma_not_mem_writtenItems htally hwords
    have htext := foldl_addItem_nil t.option_ne hne
    rw [htext] at hfits hmake
    refine ⟨_, s', by rw [hmake, if_neg hzero], Nat.succ_le_succ hfits, ?_, fun j w hw => hs' (w, j) (hmem hw)⟩
    rw [parseOutputWords, List.splitOn_intercalate _ hcomma hne]
    exact hparse

end RoundTrip

/-- Every word of `--info` at level 2, for the other side. -/
theorem makeOutputOption_parses_info : ∃ a, outputTally infoWords wSrv ⟨fun _ => 2, fun _ => 2⟩ = .ok a ∧
    ∃ arg s', makeOutputOption infoWords wSrv ⟨fun _ => 2, fun _ => 2⟩ = .ok (some (infoWords.option ++ arg)) ∧
      (infoWords.option ++ arg).length + 1 ≤ a.len + 1 ∧
      parseOutputWords infoWords userPriority arg ⟨fun _ => 0, fun _ => 0⟩ = .ok s' ∧ s'.level 10 = 2 := by
  obtain ⟨a, ha, ⟨-, hnone⟩ | ⟨arg, s', hmake, hfits, hparse, hwords⟩⟩ :=
    makeOutputOption_parses infoWords wSrv ⟨fun _ => 2, fun _ => 2⟩ ⟨fun _ => 0, fun _ => 0⟩
      fun _ _ => ⟨show (0 : ℤ) ≤ 2 by decide, show 2 ≤ maxOutLevel by decide⟩
  · exact absurd (hnone 10 ⟨cstr "STATS", 10, wCli ||| wSrv⟩ rfl (by decide)) (by decide)
  · exact ⟨a, ha, arg, s', hmake, hfits, hparse,
      (hwords 10 ⟨cstr "STATS", 10, wCli ||| wSrv⟩ rfl (by decide)).1 (by decide) (.inl (by decide))⟩

end CloudEdgeBackup
