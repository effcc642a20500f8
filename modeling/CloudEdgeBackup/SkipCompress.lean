/-
  The files that are sent without compression (`add_suffix` to `set_compression` in `token.c`).

  * `addSuffix` puts a suffix of `--skip-compress` into the letter tree `suftree`, a class of
    characters branch by branch; `initSetCompression` adds the words of the daemon's "dont
    compress", and `setCompression` is the level for one file;
  * a list as it is documented is a list of `Suffix`es, and `Listed` is that the end of a name
    behind its last dot matches one of them;
  * `has_addItems`: the tree has exactly the words that the items stand for, except that a class of
    one character is taken as it is written, brackets included (`SuffixItem.stored`);
  * `skipCompress_iff`: so the level is the documented one exactly for lists in which no suffix that
    an extension can match has such a class.
-/
import CloudEdgeBackup.Wildmatch
import CloudEdgeBackup.Lib.LetterTree

namespace CloudEdgeBackup

/-! ## The suffix tree -/

/-- A `char` as a number. -/
def charKey (c : UInt8) : ℤ := c.toInt8.toInt

theorem charKey_injective : Function.Injective charKey := by
  intro a b h
  have h8 : a.toInt8 = b.toInt8 := Int8.toInt_inj.1 h
  rw [← UInt8.toUInt8_toInt8 a, h8, UInt8.toUInt8_toInt8]

/-- The letters of the class that `ltr` starts, and what is behind it. "[foo" has a literal '['. -/
def suffixClass (ltr : UInt8) (str : Bytes) : Option (Bytes × Bytes) :=
  if ltr = openBracket ∧ closeBracket ∈ str ∧ str.idxOf closeBracket ≠ 1 then
    some (str.takeWhile (· ≠ closeBracket), (str.dropWhile (· ≠ closeBracket)).tail)
  else none

theorem suffixClass_length {ltr : UInt8} {str letters after : Bytes}
    (h : suffixClass ltr str = some (letters, after)) : after.length < str.length := by
  rw [suffixClass] at h
  split_ifs at h with hc
  obtain ⟨-, rfl⟩ := Prod.mk.inj (Option.some.inj h)
  have hpos : 0 < str.length := List.length_pos_of_mem hc.2.1
  have hdrop : (str.dropWhile (· ≠ closeBracket)).length ≤ str.length :=
    (List.dropWhile_sublist _).length_le
  rw [List.length_tail]
  omega

/-- `add_suffix` -/
def addSuffix (prior : LetterTree UInt8) (ltr : UInt8) (str : Bytes) : LetterTree UInt8 :=
  match _h : suffixClass ltr str with
  | some (letters, after) => letters.foldl (fun prior ltr => addSuffix prior ltr after) prior
  | none => prior.place charKey ltr
      (match str with
      | [] => none
      | c :: str => some fun child => addSuffix child c str)
termination_by str.length
decreasing_by
  · exact suffixClass_length _h
  · exact Nat.lt_succ_self _

/-- A word that is not empty. -/
def addWord (suftree : LetterTree UInt8) : Bytes → LetterTree UInt8
  | [] => suftree
  | c :: str => addSuffix suftree c str

/-- `add_nocompress_suffixes` -/
def addNocompressSuffixes (ct : Ctype) (suftree : LetterTree UInt8) (str : Bytes) : LetterTree UInt8 :=
  ((str.splitOn slash).filter (· ≠ [])).foldl
    (fun suftree word => addWord suftree (word.map (foldCase ct true))) suftree

/-! ## The level of a file -/

/-- `match_list`, `suftree` and `per_file_default_level`. -/
structure CompressSetup where
  matchList : List Bytes
  suftree : LetterTree UInt8
  perFileDefaultLevel : ℤ

/-- The loop of `init_set_compression` over the words of "dont compress". -/
def dontCompressWords (ct : Ctype) : List Bytes → CompressSetup → CompressSetup
  | [], s => s
  | word :: words, s =>
    let word := word.map (foldCase ct true)
    if word = [asterisk] then ⟨[], .nil, 0⟩
    -- move *.foo items into the suffix tree
    else if [asterisk, dot] <+: word ∧ word.drop 2 ≠ [] ∧
        ∀ c ∈ word.drop 2, c ≠ dot ∧ c ≠ questionMark ∧ c ≠ asterisk then
      dontCompressWords ct words { s with suftree := addWord s.suftree (word.drop 2) }
    else dontCompressWords ct words { s with matchList := s.matchList ++ [word] }

abbrev wordBlank : UInt8 := 32

/-- `init_set_compression` -/
def initSetCompression (ct : Ctype) (skipCompress : Option Bytes) (moduleId : ℤ) (dontCompress : Bytes)
    (defCompressLevel : ℤ) : CompressSetup :=
  let suftree := skipCompress.elim .nil (addNocompressSuffixes ct .nil)
  let f := if skipCompress.isSome ∧ moduleId < 0 then [] else dontCompress
  dontCompressWords ct ((f.splitOn wordBlank).filter (· ≠ [])) ⟨[], suftree, defCompressLevel⟩

/-- What is behind the last dot of a name, unless this is its first character. -/
def fileSuffix (fname : Bytes) : Bytes :=
  if dot ∈ fname.tail then fname.rtakeWhile (· ≠ dot) else []

/-- `set_compression`: the level for one file. The early return for an empty list and an empty tree
    gives the same. -/
def setCompression (ct : Ctype) (s : CompressSetup) (fname : Bytes) : ℤ :=
  let fname := fname.rtakeWhile (· ≠ slash)
  if s.matchList.any fun pattern => iwildmatch ct pattern fname then 0
  else match (fileSuffix fname).map (foldCase ct true) with
  | [] => s.perFileDefaultLevel
  | ltr :: rest => if s.suftree.walk charKey ltr rest then 0 else s.perFileDefaultLevel

/-! ## The documented list -/

/-- A character of a suffix, or a class of characters. -/
inductive SuffixItem where
  | letter (c : UInt8)
  | oneOf (cs : Bytes)
  deriving DecidableEq

namespace SuffixItem

def letters : SuffixItem → Bytes
  | letter c => [c]
  | oneOf cs => cs

def text : SuffixItem → Bytes
  | letter c => [c]
  | oneOf cs => openBracket :: cs ++ [closeBracket]

/-- A class has a character, and brackets are those of classes. -/
def Plain (i : SuffixItem) : Prop :=
  i.letters ≠ [] ∧ ∀ c ∈ i.letters, c ≠ slash ∧ c ≠ openBracket ∧ c ≠ closeBracket

end SuffixItem

/-- A suffix of the list. -/
structure Suffix where
  items : List SuffixItem
  nonempty : items ≠ []
  plain : ∀ i ∈ items, i.Plain

def Suffix.text (s : Suffix) : Bytes := s.items.flatMap SuffixItem.text

/-- The suffixes of a list, which are separated by slashes. -/
def Lists (str : Bytes) (l : List Suffix) : Prop := (str.splitOn slash).filter (· ≠ []) = l.map Suffix.text

/-- An extension is one of those that a suffix stands for, but for the case of its letters. -/
def Suffix.Matches (ct : Ctype) (s : Suffix) (ext : Bytes) : Prop :=
  List.Forall₂ (fun i c => foldCase ct true c ∈ i.letters.map (foldCase ct true)) s.items ext

/-- What is behind the last dot of the last component, where it has more in front of it. -/
def HasExtension (fname ext : Bytes) : Prop :=
  ∃ dir base, fname = dir ++ (base ++ dot :: ext) ∧ (dir = [] ∨ dir.getLast? = some slash) ∧ base ≠ [] ∧
    slash ∉ base ∧ slash ∉ ext ∧ dot ∉ ext

/-- The files that the list is about. -/
def Listed (ct : Ctype) (l : List Suffix) (fname : Bytes) : Prop :=
  ∃ ext, HasExtension fname ext ∧ ∃ s ∈ l, s.Matches ct ext

/-- A class of one character. -/
def Suffix.Single (s : Suffix) : Prop := ∃ c, .oneOf [c] ∈ s.items

/-- All that a suffix stands for has a dot, so that no extension matches it. -/
def Suffix.Dotted (s : Suffix) : Prop := ∃ i ∈ s.items, ∀ c ∈ i.letters, c = dot

/-- The locale has no letter whose case folds it to a dot or a bracket. -/
def Ctype.FoldsLetters (ct : Ctype) : Prop :=
  ∀ c, ∀ m ∈ [openBracket, closeBracket, dot], foldCase ct true c = m ↔ c = m

/-! ## What the tree has -/

section Tree

variable {prior : LetterTree UInt8} {ltr : UInt8} {str letters after : Bytes}

theorem addSuffix_class (h : suffixClass ltr str = some (letters, after)) :
    addSuffix prior ltr str = letters.foldl (fun prior ltr => addSuffix prior ltr after) prior := by
  rw [addSuffix]
  split
  · rename_i hc
    rw [h] at hc
    obtain ⟨rfl, rfl⟩ := Prod.mk.inj (Option.some.inj hc)
    rfl
  · rename_i hc
    rw [h] at hc
    cases hc

/-- What is added behind a letter. -/
def addRest : Bytes → Option (LetterTree UInt8 → LetterTree UInt8)
  | [] => none
  | c :: str => some fun child => addSuffix child c str

theorem addSuffix_place (h : suffixClass ltr str = none) :
    addSuffix prior ltr str = prior.place charKey ltr (addRest str) := by
  rw [addSuffix]
  split
  · rename_i hc
    rw [h] at hc
    cases hc
  · cases str <;> rfl

/-- The tree stays sorted. -/
theorem sorted_addSuffix (h : prior.Sorted charKey) : (addSuffix prior ltr str).Sorted charKey := by
  induction hn : str.length using Nat.strong_induction_on generalizing prior ltr str with
  | _ n ih =>
    cases hc : suffixClass ltr str with
    | some p =>
      obtain ⟨letters, after⟩ := p
      have hlt : after.length < n := hn ▸ suffixClass_length hc
      rw [addSuffix_class hc]
      clear hc
      induction letters generalizing prior with
      | nil => exact h
      | cons l letters ihl => exact ihl (ih _ hlt h rfl)
    | none =>
      rw [addSuffix_place hc]
      refine h.place charKey_injective ?_
      intro f hf c hsorted
      cases str with
      | nil => cases hf
      | cons d str =>
        obtain rfl := Option.some.inj hf
        exact ih str.length (hn ▸ Nat.lt_succ_self _) hsorted rfl

/-- The text adds exactly the words of `P` to a tree. -/
def AddsText (str : Bytes) (P : Bytes → Prop) : Prop :=
  match str with
  | [] => ∀ w, P w ↔ w = []
  | c :: str => ∀ (t : LetterTree UInt8) w, (addSuffix t c str).Has w ↔ t.Has w ∨ P w

theorem AddsText.letter {P : Bytes → Prop} (hclass : suffixClass ltr str = none) (h : AddsText str P) :
    AddsText (ltr :: str) fun w => ∃ r, w = ltr :: r ∧ P r := by
  intro t w
  rw [addSuffix_place hclass]
  refine LetterTree.has_place ?_ t w
  cases str with
  | nil => exact h
  | cons c str => exact h

theorem AddsText.oneOf {P : UInt8 → Bytes → Prop} (hclass : suffixClass ltr str = some (letters, after))
    (h : ∀ l ∈ letters, AddsText (l :: after) (P l)) :
    AddsText (ltr :: str) fun w => ∃ l ∈ letters, P l w := by
  intro t w
  rw [addSuffix_class hclass]
  clear hclass
  induction letters generalizing t with
  | nil => simp
  | cons l letters ih =>
    rw [List.foldl_cons, ih (fun l hl => h l (List.mem_cons_of_mem _ hl)),
      h l List.mem_cons_self t w, or_assoc]
    exact or_congr_right (@List.exists_mem_cons_iff _ (fun l => P l w) l letters).symm

theorem AddsText.congr {P Q : Bytes → Prop} (h : AddsText str P) (hpq : ∀ w, P w ↔ Q w) :
    AddsText str Q := by
  rwa [← funext fun w => propext (hpq w)]

/-- Every text adds some words. -/
theorem exists_addsText (str : Bytes) : ∃ P, AddsText str P := by
  induction hn : str.length using Nat.strong_induction_on generalizing str with
  | _ n ih =>
    cases str with
    | nil => exact ⟨(· = []), fun w => Iff.rfl⟩
    | cons ltr str =>
      rw [List.length_cons] at hn
      cases hclass : suffixClass ltr str with
      | none =>
        obtain ⟨P, hP⟩ := ih str.length (by omega) str rfl
        exact ⟨_, hP.letter hclass⟩
      | some p =>
        obtain ⟨letters, after⟩ := p
        have hlt := suffixClass_length hclass
        choose P hP using fun l : UInt8 =>
          ih (l :: after).length (by rw [List.length_cons]; omega) (l :: after) rfl
        exact ⟨_, AddsText.oneOf hclass fun l _ => hP l⟩

end Tree

/-! ## The words of a suffix -/

section Words

/-- What is put into the tree for an item: a class of one character as it is written. -/
def SuffixItem.stored : SuffixItem → List Bytes
  | letter c => [[c]]
  | oneOf [c] => [[openBracket, c, closeBracket]]
  | oneOf cs => cs.map fun c => [c]

/-- The words that are put into the tree. -/
def InTree : List SuffixItem → Bytes → Prop
  | [], w => w = []
  | i :: items, w => ∃ v ∈ i.stored, ∃ r, w = v ++ r ∧ InTree items r

/-- An item without brackets in it. -/
def SuffixItem.Unbracketed (i : SuffixItem) : Prop :=
  i.letters ≠ [] ∧ ∀ c ∈ i.letters, c ≠ openBracket ∧ c ≠ closeBracket

variable {items : List SuffixItem}

theorem suffixClass_letter {c : UInt8} (h : c ≠ openBracket) (str : Bytes) : suffixClass c str = none :=
  if_neg fun h' => h h'.1

theorem suffixClass_single {c : UInt8} (h : c ≠ closeBracket) (str : Bytes) :
    suffixClass openBracket (c :: closeBracket :: str) = none := by
  refine if_neg fun h' => h'.2.2 ?_
  rw [List.idxOf_cons_ne _ h, List.idxOf_cons_self]

theorem suffixClass_several {c d : UInt8} {cs : Bytes} (h : closeBracket ∉ c :: d :: cs) (str : Bytes) :
    suffixClass openBracket ((c :: d :: cs) ++ closeBracket :: str) = some (c :: d :: cs, str) := by
  have hall : ∀ x ∈ c :: d :: cs, decide (x ≠ closeBracket) = true := by
    intro x hx
    exact decide_eq_true fun heq => h (heq ▸ hx)
  have hmem : closeBracket ∈ (c :: d :: cs) ++ closeBracket :: str :=
    List.mem_append_right _ List.mem_cons_self
  have hidx : ((c :: d :: cs) ++ closeBracket :: str).idxOf closeBracket ≠ 1 := by
    rw [List.idxOf_append_of_notMem h, List.idxOf_cons_self]
    show cs.length + 1 + 1 + 0 ≠ 1
    omega
  rw [suffixClass, if_pos ⟨rfl, hmem, hidx⟩, List.takeWhile_append_of_pos hall,
    List.dropWhile_append_of_pos hall, List.takeWhile_cons_of_neg (by simp),
    List.dropWhile_cons_of_neg (by simp), List.append_nil, List.tail_cons]

/-- **The tree gets the stored words of a suffix.** -/
theorem addsText_items (h : ∀ i ∈ items, i.Unbracketed) :
    AddsText (items.flatMap SuffixItem.text) (InTree items) := by
  induction items with
  | nil => exact fun w => Iff.rfl
  | cons i items ih =>
    have hrest := ih fun j hj => h j (List.mem_cons_of_mem _ hj)
    obtain ⟨hne, hbracket⟩ := h i List.mem_cons_self
    have hletter : ∀ c ∈ i.letters, AddsText (c :: items.flatMap SuffixItem.text)
        fun w => ∃ r, w = c :: r ∧ InTree items r :=
      fun c hc => hrest.letter (suffixClass_letter (hbracket c hc).1 _)
    rw [List.flatMap_cons]
    match i with
    | .letter c =>
      refine (hletter c List.mem_cons_self).congr fun w => ?_
      simp [InTree, SuffixItem.stored]
    | .oneOf [] => exact absurd rfl hne
    | .oneOf [c] =>
      have hc := hbracket c List.mem_cons_self
      have hclose := hrest.letter (suffixClass_letter (by decide : closeBracket ≠ openBracket) _)
      refine ((hclose.letter (suffixClass_letter hc.1 _)).letter (suffixClass_single hc.2 _)).congr
        fun w => ?_
      simp [InTree, SuffixItem.stored]
    | .oneOf (c :: d :: cs) =>
      have hclass := @suffixClass_several c d cs (fun hc => (hbracket _ hc).2 rfl)
        (items.flatMap SuffixItem.text)
      have htext : SuffixItem.text (.oneOf (c :: d :: cs)) ++ items.flatMap SuffixItem.text =
          openBracket :: ((c :: d :: cs) ++ closeBracket :: items.flatMap SuffixItem.text) := by
        simp [SuffixItem.text]
      rw [htext]
      refine (AddsText.oneOf hclass hletter).congr fun w => ?_
      simp [InTree, SuffixItem.stored]

/-- Without a class of one character these are the words that the suffix stands for. -/
theorem stored_iff (h : ∀ c, .oneOf [c] ∉ items) {w : Bytes} :
    InTree items w ↔ List.Forall₂ (fun i c => c ∈ i.letters) items w := by
  induction items generalizing w with
  | nil => rw [InTree, List.forall₂_nil_left_iff]
  | cons i items ih =>
    have hrest : ∀ {r}, InTree items r ↔ List.Forall₂ (fun i c => c ∈ i.letters) items r :=
      ih fun c hc => h c (List.mem_cons_of_mem _ hc)
    have hletters : i.stored = i.letters.map fun c => [c] := by
      match i with
      | .letter c => rfl
      | .oneOf [] => rfl
      | .oneOf [c] => exact absurd List.mem_cons_self (h c)
      | .oneOf (c :: d :: cs) => rfl
    rw [InTree, List.forall₂_cons_left_iff, hletters]
    constructor
    · rintro ⟨v, hv, r, rfl, hr⟩
      obtain ⟨c, hc, rfl⟩ := List.mem_map.1 hv
      exact ⟨c, r, hc, hrest.1 hr, rfl⟩
    · rintro ⟨c, r, hc, hr, rfl⟩
      exact ⟨[c], List.mem_map.2 ⟨c, hc, rfl⟩, r, rfl, hrest.2 hr⟩

/-- An item for a dot puts a dot into every word. -/
theorem InTree.dot_mem {w : Bytes} (hw : InTree items w) {i : SuffixItem} (hi : i ∈ items)
    (hdot : ∀ c ∈ i.letters, c = dot) : dot ∈ w := by
  induction items generalizing w with
  | nil => cases hi
  | cons j items ih =>
    obtain ⟨v, hv, r, rfl, hr⟩ := hw
    rcases List.mem_cons.1 hi with rfl | hi
    · refine List.mem_append_left _ ?_
      match i, hv with
      | .letter c, hv =>
        obtain rfl := List.mem_singleton.1 hv
        exact List.mem_singleton.2 (hdot c List.mem_cons_self).symm
      | .oneOf [c], hv =>
        obtain rfl := List.mem_singleton.1 hv
        rw [hdot c List.mem_cons_self]
        decide
      | .oneOf (c :: d :: cs), hv =>
        obtain ⟨x, hx, rfl⟩ := List.mem_map.1 hv
        exact List.mem_singleton.2 (hdot x hx).symm
    · exact List.mem_append_right _ (ih hr hi)

/-- Where no item is for a dot, some word has none. -/
theorem exists_stored (h : ∀ i ∈ items, ∃ c ∈ i.letters, c ≠ dot) (hslash : ∀ i ∈ items, slash ∉ i.letters) :
    ∃ w, InTree items w ∧ dot ∉ w ∧ slash ∉ w ∧ ((∃ c, .oneOf [c] ∈ items) → openBracket ∈ w) := by
  induction items with
  | nil => exact ⟨[], rfl, List.not_mem_nil, List.not_mem_nil, fun ⟨c, hc⟩ => by cases hc⟩
  | cons i items ih =>
    obtain ⟨r, hr, hdot, hslash', hopen⟩ := ih (fun j hj => h j (List.mem_cons_of_mem _ hj))
      fun j hj => hslash j (List.mem_cons_of_mem _ hj)
    obtain ⟨c, hc, hne⟩ := h i List.mem_cons_self
    have hslashc : slash ≠ c := fun heq => hslash i List.mem_cons_self (heq ▸ hc)
    have hv : ∃ v ∈ i.stored, dot ∉ v ∧ slash ∉ v ∧ ((∃ c, i = .oneOf [c]) → openBracket ∈ v) := by
      match i, hc with
      | .letter d, hc =>
        obtain rfl := List.mem_singleton.1 hc
        exact ⟨[c], List.mem_singleton_self _, by simpa using hne.symm, by simpa using hslashc,
          fun ⟨d, hd⟩ => by cases hd⟩
      | .oneOf [d], hc =>
        obtain rfl := List.mem_singleton.1 hc
        refine ⟨[openBracket, c, closeBracket], List.mem_singleton_self _, ?_, ?_, fun _ =>
          List.mem_cons_self⟩
        · simpa [show dot ≠ openBracket by decide, show dot ≠ closeBracket by decide] using hne.symm
        · simpa [show slash ≠ openBracket by decide, show slash ≠ closeBracket by decide] using hslashc
      | .oneOf (d :: e :: cs), hc =>
        exact ⟨[c], List.mem_map.2 ⟨c, hc, rfl⟩, by simpa using hne.symm, by simpa using hslashc,
          fun ⟨d, hd⟩ => by cases hd⟩
    obtain ⟨v, hv, hvdot, hvslash, hvopen⟩ := hv
    refine ⟨v ++ r, ⟨v, hv, r, rfl, hr⟩, ?_, ?_, ?_⟩
    · exact fun hmem => (List.mem_append.1 hmem).elim hvdot hdot
    · exact fun hmem => (List.mem_append.1 hmem).elim hvslash hslash'
    · rintro ⟨d, hd⟩
      rcases List.mem_cons.1 hd with rfl | hd
      · exact List.mem_append_left _ (hvopen ⟨d, rfl⟩)
      · exact List.mem_append_right _ (hopen ⟨d, hd⟩)

end Words

/-! ## Case -/

section Case

variable {ct : Ctype} {items : List SuffixItem}

def SuffixItem.fold (ct : Ctype) : SuffixItem → SuffixItem
  | letter c => letter (foldCase ct true c)
  | oneOf cs => oneOf (cs.map (foldCase ct true))

theorem SuffixItem.letters_fold (i : SuffixItem) :
    (i.fold ct).letters = i.letters.map (foldCase ct true) := by
  cases i <;> rfl

theorem Ctype.FoldsLetters.text (hct : ct.FoldsLetters) (i : SuffixItem) :
    (i.fold ct).text = i.text.map (foldCase ct true) := by
  cases i with
  | letter c => rfl
  | oneOf cs =>
    have hopen : foldCase ct true openBracket = openBracket := (hct _ _ (by simp)).2 rfl
    have hclose : foldCase ct true closeBracket = closeBracket := (hct _ _ (by simp)).2 rfl
    simp [SuffixItem.fold, SuffixItem.text, hopen, hclose]

theorem Ctype.FoldsLetters.unbracketed (hct : ct.FoldsLetters) {i : SuffixItem} (hi : i.Plain) :
    (i.fold ct).Unbracketed := by
  rw [SuffixItem.Unbracketed, SuffixItem.letters_fold]
  refine ⟨fun h => hi.1 (List.map_eq_nil_iff.1 h), fun c hc => ?_⟩
  obtain ⟨d, hd, rfl⟩ := List.mem_map.1 hc
  obtain ⟨-, hopen, hclose⟩ := hi.2 d hd
  exact ⟨fun h => hopen ((hct _ _ (by simp)).1 h), fun h => hclose ((hct _ _ (by simp)).1 h)⟩

theorem Ctype.FoldsLetters.mem_map (hct : ct.FoldsLetters) {m : UInt8}
    (hm : m ∈ [openBracket, closeBracket, dot]) {w : Bytes} :
    m ∈ w.map (foldCase ct true) ↔ m ∈ w := by
  rw [List.mem_map]
  constructor
  · rintro ⟨c, hc, hfold⟩
    rwa [(hct c m hm).1 hfold] at hc
  · exact fun h => ⟨m, h, (hct m m hm).2 rfl⟩

/-- The words are folded like the list. -/
theorem Ctype.FoldsLetters.stored (hct : ct.FoldsLetters) {w : Bytes} (hw : InTree items w) :
    InTree (items.map (SuffixItem.fold ct)) (w.map (foldCase ct true)) := by
  induction items generalizing w with
  | nil =>
    obtain rfl : w = [] := hw
    rfl
  | cons i items ih =>
    obtain ⟨v, hv, r, rfl, hr⟩ := hw
    refine ⟨v.map (foldCase ct true), ?_, r.map (foldCase ct true), List.map_append, ih hr⟩
    match i, hv with
    | .letter c, hv =>
      obtain rfl := List.mem_singleton.1 hv
      exact List.mem_singleton_self _
    | .oneOf [c], hv =>
      obtain rfl := List.mem_singleton.1 hv
      have hopen : foldCase ct true openBracket = openBracket := (hct _ _ (by simp)).2 rfl
      have hclose : foldCase ct true closeBracket = closeBracket := (hct _ _ (by simp)).2 rfl
      simp [SuffixItem.fold, SuffixItem.stored, hopen, hclose]
    | .oneOf (c :: d :: cs), hv =>
      obtain ⟨x, hx, rfl⟩ := List.mem_map.1 hv
      refine List.mem_map.2 ⟨foldCase ct true x, ?_, rfl⟩
      exact List.mem_map.2 ⟨x, hx, rfl⟩

theorem exists_mem_of_forall₂ {α β : Type} {R : α → β → Prop} {l : List α} {m : List β}
    (h : List.Forall₂ R l m) {a : α} (ha : a ∈ l) : ∃ b ∈ m, R a b := by
  induction h with
  | nil => cases ha
  | @cons x y l m hxy _ ih =>
    rcases List.mem_cons.1 ha with rfl | ha
    · exact ⟨y, List.mem_cons_self, hxy⟩
    · obtain ⟨b, hb, hab⟩ := ih ha
      exact ⟨b, List.mem_cons_of_mem _ hb, hab⟩

/-- **A suffix is in the tree as it is documented**, where no class of one character is in its way. -/
theorem Suffix.stored_iff (hct : ct.FoldsLetters) {s : Suffix} (hs : s.Single → s.Dotted) {ext : Bytes}
    (hext : dot ∉ ext) :
    InTree (s.items.map (SuffixItem.fold ct)) (ext.map (foldCase ct true)) ↔ s.Matches ct ext := by
  have hmatches : s.Matches ct ext ↔ List.Forall₂ (fun i c => c ∈ i.letters)
      (s.items.map (SuffixItem.fold ct)) (ext.map (foldCase ct true)) := by
    rw [List.forall₂_map_left_iff, List.forall₂_map_right_iff]
    simp only [SuffixItem.letters_fold]
    exact Iff.rfl
  by_cases hsingle : s.Single
  · obtain ⟨i, hi, hdot⟩ := hs hsingle
    have hfold : ∀ c ∈ (i.fold ct).letters, c = dot := by
      rw [SuffixItem.letters_fold]
      intro c hc
      obtain ⟨d, hd, rfl⟩ := List.mem_map.1 hc
      exact (hct d dot (by simp)).2 (hdot d hd)
    have hno : dot ∉ ext.map (foldCase ct true) := fun h => hext ((hct.mem_map (by simp)).1 h)
    refine iff_of_false (fun h => hno (h.dot_mem (List.mem_map_of_mem hi) hfold)) fun h => hno ?_
    obtain ⟨c, hc, hmem⟩ := exists_mem_of_forall₂ (hmatches.1 h) (List.mem_map_of_mem hi)
    rwa [hfold c hmem] at hc
  · rw [hmatches]
    refine CloudEdgeBackup.stored_iff fun c hc => hsingle ?_
    obtain ⟨i, hi, hfold⟩ := List.mem_map.1 hc
    match i, hfold with
    | .oneOf [d], _ => exact ⟨d, hi⟩

end Case

/-! ## Extensions -/

theorem rtakeWhile_append_stop {m : UInt8} {v : Bytes} (h : m ∉ v) (u : Bytes) :
    (u ++ m :: v).rtakeWhile (· ≠ m) = v := by
  have hall : ∀ x ∈ v.reverse, decide (x ≠ m) = true := by
    intro x hx
    exact decide_eq_true fun heq => h (heq ▸ List.mem_reverse.1 hx)
  rw [List.rtakeWhile, List.reverse_append, List.reverse_cons, List.append_assoc,
    List.takeWhile_append_of_pos hall, List.singleton_append, List.takeWhile_cons_of_neg (by simp),
    List.append_nil, List.reverse_reverse]

theorem rtakeWhile_eq_self {m : UInt8} {v : Bytes} (h : m ∉ v) : v.rtakeWhile (· ≠ m) = v := by
  have hall : ∀ x ∈ v.reverse, decide (x ≠ m) = true := by
    intro x hx
    exact decide_eq_true fun heq => h (heq ▸ List.mem_reverse.1 hx)
  rw [List.rtakeWhile, List.takeWhile_eq_self_iff.2 hall, List.reverse_reverse]

theorem exists_last {m : UInt8} {l : Bytes} (h : m ∈ l) : ∃ u v, l = u ++ m :: v ∧ m ∉ v := by
  obtain ⟨as, bs, heq, hno⟩ := List.eq_append_cons_of_mem (List.mem_reverse.2 h)
  refine ⟨bs.reverse, as.reverse, ?_, fun hmem => hno (List.mem_reverse.1 hmem)⟩
  rw [← List.reverse_reverse l, heq, List.reverse_append, List.reverse_cons, List.append_assoc]
  rfl

/-- `set_compression` finds the extension. -/
theorem HasExtension.fileSuffix {fname ext : Bytes} (h : HasExtension fname ext) :
    fileSuffix (fname.rtakeWhile (· ≠ slash)) = ext := by
  obtain ⟨dir, base, rfl, hdir, hne, hslash, hslash', hdot⟩ := h
  have hno : slash ∉ base ++ dot :: ext := by
    intro hmem
    rcases List.mem_append.1 hmem with hmem | hmem
    · exact hslash hmem
    · exact hslash' ((List.mem_cons.1 hmem).resolve_left (by decide))
  have hlast : (dir ++ (base ++ dot :: ext)).rtakeWhile (· ≠ slash) = base ++ dot :: ext := by
    rcases hdir with rfl | hdir
    · exact rtakeWhile_eq_self hno
    · obtain ⟨u, rfl⟩ := List.getLast?_eq_some_iff.1 hdir
      rw [List.append_assoc]
      exact rtakeWhile_append_stop hno u
  obtain ⟨b, t, rfl⟩ := List.exists_cons_of_ne_nil hne
  rw [hlast, CloudEdgeBackup.fileSuffix, if_pos, rtakeWhile_append_stop hdot]
  exact List.mem_append_right _ List.mem_cons_self

theorem hasExtension_fileSuffix {fname : Bytes} (h : fileSuffix (fname.rtakeWhile (· ≠ slash)) ≠ []) :
    HasExtension fname (fileSuffix (fname.rtakeWhile (· ≠ slash))) := by
  obtain ⟨dir, last, rfl, hdir, hslash⟩ : ∃ dir last, fname = dir ++ last ∧
      (dir = [] ∨ dir.getLast? = some slash) ∧ slash ∉ last := by
    by_cases hmem : slash ∈ fname
    · obtain ⟨u, v, rfl, hv⟩ := exists_last hmem
      exact ⟨u ++ [slash], v, by simp, .inr (by simp), hv⟩
    · exact ⟨[], fname, rfl, .inl rfl, hmem⟩
  have hlast : (dir ++ last).rtakeWhile (· ≠ slash) = last := by
    rcases hdir with rfl | hdir
    · exact rtakeWhile_eq_self hslash
    · obtain ⟨u, rfl⟩ := List.getLast?_eq_some_iff.1 hdir
      rw [List.append_assoc]
      exact rtakeWhile_append_stop hslash u
  rw [hlast] at h ⊢
  rw [fileSuffix] at h
  split_ifs at h with hmem
  · rcases last with _ | ⟨b, t⟩
    · cases hmem
    · obtain ⟨u, v, rfl, hv⟩ := exists_last (hmem : dot ∈ t)
      have hsuffix : fileSuffix (b :: (u ++ dot :: v)) = v := by
        rw [fileSuffix, if_pos hmem, ← List.cons_append, rtakeWhile_append_stop hv]
      rw [hsuffix]
      refine ⟨dir, b :: u, rfl, hdir, List.cons_ne_nil _ _, ?_, ?_, hv⟩
      · exact fun hm => hslash (List.mem_append_left (dot :: v) hm)
      · exact fun hm => hslash (List.mem_append_right (b :: u) (List.mem_cons_of_mem _ hm))
  · exact absurd rfl h

theorem HasExtension.dot_notMem {fname ext : Bytes} (h : HasExtension fname ext) : dot ∉ ext := by
  obtain ⟨dir, base, -, -, -, -, -, hdot⟩ := h
  exact hdot

/-! ## The whole list -/

section Lists

variable {ct : Ctype} {t : LetterTree UInt8} {word words str fname : Bytes} {l : List Suffix} {s : CompressSetup}

theorem has_addWord {P : Bytes → Prop} (h : AddsText word P) (hne : word ≠ []) (w : Bytes) :
    (addWord t word).Has w ↔ t.Has w ∨ P w := by
  cases word with
  | nil => exact absurd rfl hne
  | cons c str => exact h t w

theorem sorted_addWord (h : t.Sorted charKey) : (addWord t word).Sorted charKey := by
  cases word with
  | nil => exact h
  | cons c str => exact sorted_addSuffix h

theorem sorted_addNocompressSuffixes (h : t.Sorted charKey) :
    (addNocompressSuffixes ct t str).Sorted charKey := by
  rw [addNocompressSuffixes]
  induction (str.splitOn slash).filter (· ≠ []) generalizing t with
  | nil => exact h
  | cons word words ih => exact ih (sorted_addWord h)

theorem sorted_dontCompressWords (words : List Bytes) (h : s.suftree.Sorted charKey) :
    (dontCompressWords ct words s).suftree.Sorted charKey := by
  induction words generalizing s with
  | nil => exact h
  | cons word words ih =>
    rw [dontCompressWords]
    split_ifs
    · trivial
    · exact ih (sorted_addWord h)
    · exact ih h

theorem Suffix.text_ne_nil (s : Suffix) : s.text ≠ [] := by
  obtain ⟨i, items, hitems⟩ := List.exists_cons_of_ne_nil s.nonempty
  rw [Suffix.text, hitems, List.flatMap_cons]
  cases i with
  | letter c => exact List.cons_ne_nil _ _
  | oneOf cs => exact List.cons_ne_nil _ _

/-- The tree of a list has the words of its suffixes. -/
theorem has_addNocompressSuffixes (hct : ct.FoldsLetters) (h : Lists str l) (w : Bytes) :
    (addNocompressSuffixes ct t str).Has w ↔
      t.Has w ∨ ∃ s ∈ l, InTree (s.items.map (SuffixItem.fold ct)) w := by
  rw [addNocompressSuffixes, h]
  clear h
  induction l generalizing t with
  | nil => simp
  | cons s l ih =>
    have htext : s.text.map (foldCase ct true) =
        (s.items.map (SuffixItem.fold ct)).flatMap SuffixItem.text := by
      rw [Suffix.text, List.map_flatMap, List.flatMap_map]
      exact List.flatMap_congr fun i _ => (hct.text i).symm
    have hadds : AddsText (s.text.map (foldCase ct true)) (InTree (s.items.map (SuffixItem.fold ct))) := by
      rw [htext]
      refine addsText_items fun i hi => ?_
      obtain ⟨j, hj, rfl⟩ := List.mem_map.1 hi
      exact hct.unbracketed (s.plain j hj)
    have hne : s.text.map (foldCase ct true) ≠ [] := fun h => s.text_ne_nil (List.map_eq_nil_iff.1 h)
    rw [List.map_cons, List.foldl_cons, ih, has_addWord hadds hne, or_assoc]
    exact or_congr_right
      (@List.exists_mem_cons_iff _ (fun s : Suffix => InTree (s.items.map (SuffixItem.fold ct)) w) s l).symm

/-- A file that is sent without compression. -/
def Hits (ct : Ctype) (s : CompressSetup) (fname : Bytes) : Prop :=
  (∃ pattern ∈ s.matchList, iwildmatch ct pattern (fname.rtakeWhile (· ≠ slash)) = true) ∨
    s.suftree.Has ((fileSuffix (fname.rtakeWhile (· ≠ slash))).map (foldCase ct true))

theorem setCompression_hits (hs : s.suftree.Sorted charKey) (fname : Bytes) :
    (Hits ct s fname → setCompression ct s fname = 0) ∧
      (¬Hits ct s fname → setCompression ct s fname = s.perFileDefaultLevel) := by
  rw [setCompression, Hits]
  by_cases hany : (s.matchList.any fun pattern => iwildmatch ct pattern (fname.rtakeWhile (· ≠ slash))) = true
  · rw [if_pos hany]
    exact ⟨fun _ => rfl, fun h => absurd (.inl (List.any_eq_true.1 hany)) h⟩
  · have hno : ¬∃ pattern ∈ s.matchList, iwildmatch ct pattern (fname.rtakeWhile (· ≠ slash)) = true :=
      fun h => hany (List.any_eq_true.2 h)
    rw [if_neg hany]
    cases (fileSuffix (fname.rtakeWhile (· ≠ slash))).map (foldCase ct true) with
    | nil => exact ⟨fun h => absurd h (not_or.2 ⟨hno, LetterTree.not_has_empty _⟩), fun _ => rfl⟩
    | cons ltr rest =>
      dsimp only
      rw [or_iff_right hno, ← LetterTree.walk_iff hs]
      exact ⟨fun h => if_pos h, fun h => if_neg h⟩

/-- What the words of "dont compress" add does not depend on the list. -/
theorem dontCompressWords_cases (words : List Bytes) (matchList : List Bytes) (level : ℤ) :
    (∀ t, dontCompressWords ct words ⟨matchList, t, level⟩ = ⟨[], .nil, 0⟩) ∨
      ∃ (matchList' : List Bytes) (P : Bytes → Prop), ∀ t, ∃ t',
        dontCompressWords ct words ⟨matchList, t, level⟩ = ⟨matchList', t', level⟩ ∧
          ∀ w, t'.Has w ↔ t.Has w ∨ P w := by
  induction words generalizing matchList with
  | nil => exact .inr ⟨matchList, fun _ => False, fun t => ⟨t, rfl, fun w => (or_false _).symm.to_iff⟩⟩
  | cons word words ih =>
    simp only [dontCompressWords]
    split_ifs with hstar hsuffix
    · exact .inl fun t => rfl
    · rcases ih matchList with hall | ⟨matchList', P, hP⟩
      · exact .inl fun t => hall _
      · obtain ⟨Q, hQ⟩ := exists_addsText ((word.map (foldCase ct true)).drop 2)
        refine .inr ⟨matchList', fun w => Q w ∨ P w, fun t => ?_⟩
        obtain ⟨t', heq, hhas⟩ := hP (addWord t ((word.map (foldCase ct true)).drop 2))
        refine ⟨t', heq, fun w => ?_⟩
        rw [hhas, has_addWord hQ hsuffix.2.1, or_assoc]
    · exact ih _

end Lists

/-! ## The documented meaning -/

section Documented

variable {ct : Ctype} {str : Bytes} {l : List Suffix}

/-- The files of the list are in its tree. -/
theorem listed_iff (hct : ct.FoldsLetters) (h : Lists str l) (hl : ∀ s ∈ l, s.Single → s.Dotted)
    (fname : Bytes) :
    (addNocompressSuffixes ct .nil str).Has
        ((fileSuffix (fname.rtakeWhile (· ≠ slash))).map (foldCase ct true)) ↔ Listed ct l fname := by
  rw [has_addNocompressSuffixes hct h]
  constructor
  · rintro (hnil | ⟨s, hs, hw⟩)
    · exact absurd hnil id
    · have hne : fileSuffix (fname.rtakeWhile (· ≠ slash)) ≠ [] := by
        intro hnil
        rw [hnil] at hw
        exact LetterTree.not_has_empty _
          ((has_addNocompressSuffixes (t := .nil) hct h []).2 (.inr ⟨s, hs, hw⟩))
      have hext := hasExtension_fileSuffix hne
      exact ⟨_, hext, s, hs, (Suffix.stored_iff hct (hl s hs) hext.dot_notMem).1 hw⟩
  · rintro ⟨ext, hext, s, hs, hmatch⟩
    rw [hext.fileSuffix]
    exact .inr ⟨s, hs, (Suffix.stored_iff hct (hl s hs) hext.dot_notMem).2 hmatch⟩

theorem initSetCompression_local {moduleId : ℤ} (hlocal : moduleId < 0) (str dontCompress : Bytes)
    (level : ℤ) : initSetCompression ct (some str) moduleId dontCompress level =
      ⟨[], addNocompressSuffixes ct .nil str, level⟩ := by
  rw [initSetCompression, if_pos ⟨rfl, hlocal⟩]
  rfl

/-- Otherwise a file with the class as its extension is sent without compression. -/
theorem exists_hit (hct : ct.FoldsLetters) (h : Lists str l) {s : Suffix} (hs : s ∈ l)
    (hsingle : s.Single) (hdotted : ¬s.Dotted) : ∃ fname, ¬Listed ct l fname ∧
      (addNocompressSuffixes ct .nil str).Has
        ((fileSuffix (fname.rtakeWhile (· ≠ slash))).map (foldCase ct true)) := by
  have hletters : ∀ i ∈ s.items, ∃ c ∈ i.letters, c ≠ dot := by
    intro i hi
    by_contra hno
    exact hdotted ⟨i, hi, fun c hc => by_contra fun hne => hno ⟨c, hc, hne⟩⟩
  obtain ⟨w, hw, hdot, hslash, hopen⟩ := exists_stored hletters
    fun i hi hmem => ((s.plain i hi).2 slash hmem).1 rfl
  have hext : HasExtension (97 :: dot :: w) w :=
    ⟨[], [97], rfl, .inl rfl, List.cons_ne_nil _ _, by decide, hslash, hdot⟩
  refine ⟨97 :: dot :: w, ?_, ?_⟩
  · rintro ⟨ext, hext', s', -, hmatch⟩
    obtain rfl := hext.fileSuffix.symm.trans hext'.fileSuffix
    obtain ⟨i, hi, hmem⟩ := exists_mem_of_forall₂ hmatch.flip (hopen hsingle)
    obtain ⟨c, hc, hfold⟩ := List.mem_map.1 hmem
    have hopenFold : foldCase ct true openBracket = openBracket := (hct _ _ (by simp)).2 rfl
    rw [hopenFold] at hfold
    exact ((s'.plain i hi).2 c hc).2.1 ((hct c openBracket (by simp)).1 hfold)
  · rw [has_addNocompressSuffixes hct h, hext.fileSuffix]
    exact .inr ⟨s, hs, hct.stored hw⟩

/-- **`--skip-compress` is what it is documented to be** exactly for lists in which no suffix that
    an extension can match has a class of one character. A daemon adds its own files. -/
theorem skipCompress_iff (hct : ct.FoldsLetters) (h : Lists str l) (moduleId : ℤ) (dontCompress : Bytes) :
    (moduleId < 0 →
      ((∀ level fname,
          let c := setCompression ct (initSetCompression ct (some str) moduleId dontCompress level) fname
          (Listed ct l fname → c = 0) ∧ (¬Listed ct l fname → c = level)) ↔
        ∀ s ∈ l, s.Single → s.Dotted)) ∧
    (0 ≤ moduleId → (∀ s ∈ l, s.Single → s.Dotted) → ∀ level fname,
      let c := setCompression ct (initSetCompression ct (some str) moduleId dontCompress level) fname
      (Listed ct l fname → c = 0) ∧ (¬Listed ct l fname →
        c = setCompression ct (initSetCompression ct none moduleId dontCompress level) fname)) := by
  have hsorted : (addNocompressSuffixes ct .nil str).Sorted charKey :=
    sorted_addNocompressSuffixes trivial
  constructor
  · intro hlocal
    have hhits : ∀ level fname, Hits ct ⟨[], addNocompressSuffixes ct .nil str, level⟩ fname ↔
        (addNocompressSuffixes ct .nil str).Has
          ((fileSuffix (fname.rtakeWhile (· ≠ slash))).map (foldCase ct true)) := by
      intro level fname
      exact or_iff_right fun ⟨pattern, hmem, _⟩ => absurd hmem List.not_mem_nil
    constructor
    · intro hall s hs hsingle
      by_contra hdotted
      obtain ⟨fname, hno, hhas⟩ := exists_hit hct h hs hsingle hdotted
      have hzero := (@setCompression_hits ct ⟨[], addNocompressSuffixes ct .nil str, 1⟩ hsorted fname).1
        ((hhits 1 fname).2 hhas)
      have hone := (hall 1 fname).2 hno
      rw [initSetCompression_local hlocal, hzero] at hone
      exact absurd hone (by decide)
    · intro hl level fname
      rw [← listed_iff hct h hl fname, ← hhits level fname, initSetCompression_local hlocal]
      exact setCompression_hits hsorted fname
  · intro hdaemon hl level fname
    have hwords : ∀ skip : Option Bytes, initSetCompression ct skip moduleId dontCompress level =
        dontCompressWords ct ((dontCompress.splitOn wordBlank).filter (· ≠ []))
          ⟨[], skip.elim .nil (addNocompressSuffixes ct .nil), level⟩ := by
      intro skip
      rw [initSetCompression, if_neg fun h => not_lt.2 hdaemon h.2]
    rw [← listed_iff hct h hl fname, hwords, hwords]
    rcases @dontCompressWords_cases ct ((dontCompress.splitOn wordBlank).filter (· ≠ [])) [] level with
      hall | ⟨matchList, P, hP⟩
    · rw [hall, hall]
      have hno : ¬Hits ct ⟨[], .nil, 0⟩ fname := by
        rintro (⟨pattern, hmem, -⟩ | hhas)
        · exact absurd hmem List.not_mem_nil
        · exact hhas
      exact ⟨fun _ => (setCompression_hits (s := ⟨[], .nil, 0⟩) trivial fname).2 hno, fun _ => rfl⟩
    · obtain ⟨t, ht, hhas⟩ := hP (addNocompressSuffixes ct .nil str)
      obtain ⟨t', ht', hhas'⟩ := hP .nil
      have hwith := @setCompression_hits ct ⟨matchList, t, level⟩
        (ht ▸ sorted_dontCompressWords _ hsorted) fname
      have hwithout := @setCompression_hits ct ⟨matchList, t', level⟩
        (ht' ▸ sorted_dontCompressWords _ trivial) fname
      rw [Option.elim_some, Option.elim_none, ht, ht']
      have hhits : Hits ct ⟨matchList, t, level⟩ fname ↔
          (addNocompressSuffixes ct .nil str).Has
              ((fileSuffix (fname.rtakeWhile (· ≠ slash))).map (foldCase ct true)) ∨
            Hits ct ⟨matchList, t', level⟩ fname := by
        rw [Hits, Hits, hhas, hhas', or_left_comm]
        exact or_congr_right (or_congr_right (or_iff_right id).symm)
      constructor
      · intro hlisted
        exact hwith.1 (hhits.2 (.inl hlisted))
      · intro hno
        by_cases hit : Hits ct ⟨matchList, t', level⟩ fname
        · rw [hwith.1 (hhits.2 (.inr hit)), hwithout.1 hit]
        · rw [hwith.2 fun hh => (hhits.1 hh).elim hno hit, hwithout.2 hit]

end Documented

theorem cLocale_foldsLetters : cLocale.FoldsLetters := by
  intro c m hm
  have hcases : m = 91 ∨ m = 93 ∨ m = 46 := by simpa using hm
  rw [foldCase]
  by_cases hupper : 65 ≤ c ∧ c ≤ 90
  · have hfold : cLocale.is .upper c = true := by simpa [cLocale] using hupper
    have htolower : cLocale.tolower c = c + 32 := by simp [cLocale, hupper]
    rw [hfold, Bool.and_true, if_pos rfl, htolower]
    obtain ⟨h1, h2⟩ := hupper
    rcases hcases with rfl | rfl | rfl <;> refine iff_of_false ?_ ?_ <;> grind
  · have hfold : cLocale.is .upper c = false := by
      simpa [cLocale] using hupper
    rw [hfold, Bool.and_false, if_neg Bool.false_ne_true]

/-- The suffix "mp[34]". -/
def suffixMp34 : Suffix where
  items := [.letter 109, .letter 112, .oneOf [51, 52]]
  nonempty := List.cons_ne_nil _ _
  plain := by
    simp [SuffixItem.Plain, SuffixItem.letters]
    decide

/-- With the list "mp[34]" the file "a.MP4" is not compressed. -/
theorem skipCompress_mp34 :
    setCompression cLocale (initSetCompression cLocale (some [109, 112, 91, 51, 52, 93]) (-1) [] 6)
      [97, 46, 77, 80, 52] = 0 := by
  have hlists : Lists [109, 112, 91, 51, 52, 93] [suffixMp34] := by
    rw [Lists, List.splitOn_eq_singleton (by decide)]
    rfl
  have hext : HasExtension [97, 46, 77, 80, 52] [77, 80, 52] :=
    ⟨[], [97], rfl, .inl rfl, by decide, by decide, by decide, by decide⟩
  refine (((skipCompress_iff cLocale_foldsLetters hlists (-1) []).1 (by decide)).2 ?_ 6 _).1
    ⟨_, hext, _, List.mem_singleton_self _, ?_⟩
  · rintro s hs ⟨c, hc⟩
    obtain rfl := List.mem_singleton.1 hs
    exact absurd hc (by simp [suffixMp34])
  · exact .cons (by decide) (.cons (by decide) (.cons (by decide) .nil))

/-- The suffix "mp[3]". -/
def suffixMp3 : Suffix where
  items := [.letter 109, .letter 112, .oneOf [51]]
  nonempty := List.cons_ne_nil _ _
  plain := by
    simp [SuffixItem.Plain, SuffixItem.letters]
    decide

/-- With the list "mp[3]" the file "a.mp3" is compressed. -/
theorem not_skipCompress_mp3 : Lists [109, 112, 91, 51, 93] [suffixMp3] ∧
    Listed cLocale [suffixMp3] [97, 46, 109, 112, 51] ∧
    setCompression cLocale (initSetCompression cLocale (some [109, 112, 91, 51, 93]) (-1) [] 6)
      [97, 46, 109, 112, 51] = 6 := by
  have hlists : Lists [109, 112, 91, 51, 93] [suffixMp3] := by
    rw [Lists, List.splitOn_eq_singleton (by decide)]
    rfl
  have hext : HasExtension [97, 46, 109, 112, 51] [109, 112, 51] :=
    ⟨[], [97], rfl, .inl rfl, by decide, by decide, by decide, by decide⟩
  refine ⟨hlists, ⟨_, hext, _, List.mem_singleton_self _, ?_⟩, ?_⟩
  · exact .cons (by decide) (.cons (by decide) (.cons (by decide) .nil))
  · rw [initSetCompression_local (by decide)]
    refine (setCompression_hits (@sorted_addNocompressSuffixes _ .nil _ trivial) _).2 ?_
    rintro (⟨pattern, hmem, -⟩ | hhas)
    · exact absurd hmem List.not_mem_nil
    · rw [hext.fileSuffix] at hhas
      rcases (has_addNocompressSuffixes cLocale_foldsLetters hlists _).1 hhas with hnil | ⟨s, hs, hw⟩
      · exact hnil
      · obtain rfl := List.mem_singleton.1 hs
        have hm : foldCase cLocale true 109 = 109 := by decide
        have hp : foldCase cLocale true 112 = 112 := by decide
        have h3 : foldCase cLocale true 51 = 51 := by decide
        simp [suffixMp3, SuffixItem.fold, SuffixItem.stored, InTree, hm, hp, h3] at hw

end CloudEdgeBackup
