/-
  The numbers of `--usermap` and `--groupmap` (`id_parse` and `parse_name_map`).

  * `idParse_eq`: `id_parse` goes on with sums that wrapped as long as each is not below the one
    before. `WrapsBack` are the numbers it refuses, and of the others it takes the remainder by
    `2 ^ 32`;
  * `RuleExact` is what a rule should do: its numbers are taken as they are written, and its left
    side stands for the ids that were written;
  * `numericIds_iff`: a number is taken as it is, or refused, exactly if it fits 32 bits or wraps
    back, and the rules of a map that is accepted are exact exactly if their numbers fit and no
    range ends in 0 (`RuleFits`).
-/
import CloudEdgeBackup.IdLists

namespace CloudEdgeBackup

open Cfmt

/-! ## Numbers -/

/-- The value of some digits, as an unsigned number, is below that of all of them but the last. -/
def WrapsBack (s : Bytes) : Prop :=
  ∃ t c, t ++ [c] <+: s ∧ value (t ++ [c]) % 2 ^ 32 < value t % 2 ^ 32

section Numbers

variable {s : Bytes} {c : UInt8}

theorem value_concat (s : Bytes) (c : UInt8) : value (s ++ [c]) = 10 * value s + (c.toNat - 48) := by
  rw [value, List.foldl_append]
  rfl

theorem idParseLoop_append (s t : Bytes) : ∀ num : ℕ,
    idParseLoop num (s ++ t) = (idParseLoop num s).bind fun n => idParseLoop n t := by
  induction s with
  | nil => exact fun _ => rfl
  | cons c s ih =>
    intro num
    rw [List.cons_append, idParseLoop, idParseLoop]
    by_cases hc : (!isDigit c) = true
    · rw [if_pos hc, if_pos hc]
      rfl
    rw [if_neg hc, if_neg hc]
    dsimp only
    by_cases hwrap : (num * 10 + (c.toNat - 48)) % 2 ^ 32 < num
    · rw [if_pos hwrap, if_pos hwrap]
      rfl
    · rw [if_neg hwrap, if_neg hwrap, ih]

theorem not_wrapsBack_nil : ¬WrapsBack [] := by
  rintro ⟨t, c, hpre, -⟩
  exact absurd (List.prefix_nil.1 hpre) (by simp)

theorem wrapsBack_concat (s : Bytes) (c : UInt8) :
    WrapsBack (s ++ [c]) ↔ WrapsBack s ∨ value (s ++ [c]) % 2 ^ 32 < value s % 2 ^ 32 := by
  constructor
  · rintro ⟨t, d, hpre, hlt⟩
    rcases List.prefix_concat_iff.1 hpre with heq | hpre
    · obtain ⟨rfl, hd⟩ := List.append_inj' heq rfl
      rw [← hd]
      exact .inr hlt
    · exact .inl ⟨t, d, hpre, hlt⟩
  · rintro (⟨t, d, hpre, hlt⟩ | hlt)
    · exact ⟨t, d, hpre.trans (List.prefix_append _ _), hlt⟩
    · exact ⟨s, c, List.prefix_rfl, hlt⟩

/-- **What `id_parse` makes of digits.** -/
theorem idParse_eq (hs : ∀ c ∈ s, isDigit c = true) :
    (WrapsBack s → idParse s = none) ∧ (¬WrapsBack s → idParse s = some (value s % 2 ^ 32)) := by
  induction s using List.reverseRecOn with
  | nil => exact ⟨fun h => absurd h not_wrapsBack_nil, fun _ => rfl⟩
  | append_singleton s c ih =>
    obtain ⟨hback, hgo⟩ := ih fun x hx => hs x (List.mem_append_left _ hx)
    have hc : isDigit c = true := hs c (List.mem_append_right _ List.mem_cons_self)
    have hmod : (value s % 2 ^ 32 * 10 + (c.toNat - 48)) % 2 ^ 32 = value (s ++ [c]) % 2 ^ 32 := by
      rw [value_concat, Nat.add_mod, Nat.mod_mul_mod, ← Nat.add_mod, Nat.mul_comm]
    have hstep : idParse (s ++ [c]) = (idParse s).bind fun n => idParseLoop n [c] :=
      idParseLoop_append s [c] 0
    have hlast : idParseLoop (value s % 2 ^ 32) [c] =
        if value (s ++ [c]) % 2 ^ 32 < value s % 2 ^ 32 then none else some (value (s ++ [c]) % 2 ^ 32) := by
      rw [idParseLoop, hc, Bool.not_true, if_neg Bool.false_ne_true]
      dsimp only
      rw [hmod]
      rfl
    rw [wrapsBack_concat, hstep]
    constructor
    · rintro (h | h)
      · rw [hback h]
        rfl
      · by_cases hs' : WrapsBack s
        · rw [hback hs']
          rfl
        · rw [hgo hs', Option.bind_some, hlast, if_pos h]
    · intro h
      rw [not_or] at h
      rw [hgo h.1, Option.bind_some, hlast, if_neg h.2]

/-- **`id_parse` is right about a number exactly if the number fits, or wraps back.** -/
theorem idParse_exact_iff (hs : ∀ c ∈ s, isDigit c = true) :
    (∀ v, idParse s = some v → v = value s ∧ v < 2 ^ 32) ↔ value s < 2 ^ 32 ∨ WrapsBack s := by
  obtain ⟨hback, hgo⟩ := idParse_eq hs
  constructor
  · intro h
    by_cases hw : WrapsBack s
    · exact .inr hw
    · obtain ⟨heq, hlt⟩ := h _ (hgo hw)
      rw [← heq]
      exact .inl hlt
  · rintro (hlt | hw) v hv
    · by_cases hw : WrapsBack s
      · rw [hback hw] at hv
        cases hv
      · rw [hgo hw, Nat.mod_eq_of_lt hlt] at hv
        obtain rfl := Option.some.inj hv
        exact ⟨rfl, hlt⟩
    · rw [hback hw] at hv
      cases hv

end Numbers

/-! ## Rules -/

/-- The part of a rule before its colon. -/
def ruleKey (cp : Bytes) : Bytes := cp.takeWhile (· ≠ colonByte)

/-- The part behind it. -/
def ruleName (cp : Bytes) : Bytes := (cp.dropWhile (· ≠ colonByte)).tail

/-- The numbers of a rule: an id or the two ends of a range, and a numeric name. -/
def ruleNumbers (cp : Bytes) : List Bytes :=
  (if (ruleKey cp).head?.any isDigit then (ruleKey cp).splitOn dashByte else []) ++
    if (ruleName cp).all isDigit then [ruleName cp] else []

/-- The ids that a numeric left side stands for. -/
def WrittenIds (key : Bytes) (id : ℕ) : Prop :=
  match key.splitOn dashByte with
  | [one] => id = value one
  | [lo, hi] => value lo ≤ id ∧ id ≤ value hi
  | _ => False

/-- A rule does what was written. -/
structure RuleExact (idOf : Bytes → Option ℕ) (cp : Bytes) : Prop where
  numbers : ∀ s ∈ ruleNumbers cp, ∀ v, idParse s = some v → v = value s ∧ v < 2 ^ 32
  ids : (ruleKey cp).head?.any isDigit = true → ∀ key, mapKey (ruleKey cp) = some key →
    ∀ id < 2 ^ 32, ∀ wildmatch name id2,
      (MapNode.mk key id2).covers wildmatch id name = true ↔ WrittenIds (ruleKey cp) id
  target : ∀ n, mapEntry idOf cp = some (some n) → (ruleName cp).all isDigit = true →
    n.id2 = value (ruleName cp)

/-- The numbers of a rule fit 32 bits, and a range that ends in 0 starts there. -/
structure RuleFits (cp : Bytes) : Prop where
  fits : ∀ s ∈ ruleNumbers cp, value s < 2 ^ 32
  ends : (ruleKey cp).head?.any isDigit = true → ∀ lo hi, (ruleKey cp).splitOn dashByte = [lo, hi] →
    value hi = 0 → value lo = 0

section Rules

variable {idOf : Bytes → Option ℕ} {cp : Bytes}

/-- The numbers of a left side, and what they are parsed to. -/
theorem mapKey_cases {key : Bytes} {k : MapKey} (hdigit : key.head?.any isDigit = true)
    (h : mapKey key = some k) :
    (key.splitOn dashByte = [key] ∧ (∀ c ∈ key, isDigit c = true) ∧
      ∃ id, idParse key = some id ∧ k = .ids id 0) ∨
    ∃ lo hi, key.splitOn dashByte = [lo, hi] ∧ (∀ c ∈ lo, isDigit c = true) ∧
      (∀ c ∈ hi, isDigit c = true) ∧
      ∃ id maxId, idParse lo = some id ∧ idParse hi = some maxId ∧ k = .ids id maxId := by
  rw [mapKey, if_pos hdigit] at h
  by_cases hall : (!key.all fun c => isDigit c || c = dashByte) = true
  · rw [if_pos hall] at h
    cases h
  rw [if_neg hall] at h
  have hchars : ∀ c ∈ key, c ≠ dashByte → isDigit c = true := by
    intro c hc hne
    simp only [Bool.not_eq_true', Bool.not_eq_false, List.all_eq_true, Bool.or_eq_true,
      decide_eq_true_eq] at hall
    exact (hall c hc).resolve_right hne
  have hsplit := List.takeWhile_append_dropWhile (p := fun c => decide (c ≠ dashByte)) (l := key)
  have hlo : ∀ c ∈ key.takeWhile (· ≠ dashByte), c ∈ key ∧ c ≠ dashByte := fun c hc =>
    ⟨(List.takeWhile_prefix _).subset hc, by simpa using List.mem_takeWhile_imp hc⟩
  cases hdash : key.dropWhile (· ≠ dashByte) with
  | nil =>
    rw [hdash] at h
    obtain ⟨id, hid, rfl⟩ := Option.map_eq_some_iff.1 h
    rw [hdash, List.append_nil] at hsplit
    have hno : ∀ c ∈ key, c ≠ dashByte := fun c hc => (hlo c (by rwa [hsplit])).2
    exact .inl ⟨splitOn_of_notMem fun hmem => hno _ hmem rfl, fun c hc => hchars c hc (hno c hc), id, hid, rfl⟩
  | cons d hi =>
    rw [hdash] at h
    dsimp only at h
    by_cases hbad : hi = [] ∨ dashByte ∈ hi
    · rw [if_pos hbad] at h
      cases h
    rw [if_neg hbad] at h
    obtain ⟨maxId, hmax, h⟩ := Option.bind_eq_some_iff.1 h
    obtain ⟨id, hid, h⟩ := Option.bind_eq_some_iff.1 h
    obtain rfl := Option.some.inj h
    obtain ⟨-, hhi⟩ := not_or.1 hbad
    have hd : d = dashByte := by
      have := List.head?_dropWhile_not (fun c => decide (c ≠ dashByte)) key
      rw [hdash] at this
      simpa using this
    rw [hdash, hd] at hsplit
    refine .inr ⟨key.takeWhile (· ≠ dashByte), hi, ?_, fun c hc => hchars c (hlo c hc).1 (hlo c hc).2,
      fun c hc => hchars c ?_ fun heq => hhi (heq ▸ hc), id, maxId, hid, hmax, rfl⟩
    · conv_lhs => rw [← hsplit]
      rw [List.splitOn, List.splitOnP_append_cons _ _ (by simp), ← List.splitOn, ← List.splitOn,
        splitOn_of_notMem hhi, splitOn_of_notMem fun hmem => (hlo _ hmem).2 rfl]
      rfl
    · rw [← hsplit]
      exact List.mem_append_right _ (List.mem_cons_of_mem _ hc)

/-- The parts of a rule that is accepted. -/
theorem mapEntry_cases {node : Option MapNode} (h : mapEntry idOf cp = some node) :
    ∃ key id2, mapKey (ruleKey cp) = some key ∧ userToUid idOf (ruleName cp) true = some id2 ∧
      node = id2.map (MapNode.mk key) := by
  rw [mapEntry] at h
  cases hcolon : cp.dropWhile (· ≠ colonByte) with
  | nil =>
    rw [hcolon] at h
    cases h
  | cons c name =>
    rw [hcolon] at h
    dsimp only at h
    by_cases hname : name = []
    · rw [if_pos hname] at h
      cases h
    rw [if_neg hname] at h
    obtain ⟨key, hkey, h⟩ := Option.bind_eq_some_iff.1 h
    obtain ⟨id2, hid2, h⟩ := Option.bind_eq_some_iff.1 h
    refine ⟨key, id2, hkey, ?_, (Option.some.inj h).symm⟩
    rw [ruleName, hcolon, List.tail_cons]
    exact hid2

/-- Every number of an accepted rule was parsed. -/
theorem ruleNumbers_parsed {node : Option MapNode} (h : mapEntry idOf cp = some node) :
    ∀ s ∈ ruleNumbers cp, (∀ c ∈ s, isDigit c = true) ∧ ∃ v, idParse s = some v := by
  obtain ⟨key, id2, hkey, hid2, -⟩ := mapEntry_cases h
  intro s hs
  rw [ruleNumbers, List.mem_append] at hs
  rcases hs with hs | hs
  · split_ifs at hs with hdigit
    · rcases mapKey_cases hdigit hkey with ⟨hsplit, hall, id, hid, -⟩ | ⟨lo, hi, hsplit, hlo, hhi, id, maxId, hid, hmax, -⟩
      · rw [hsplit, List.mem_singleton] at hs
        rw [hs]
        exact ⟨hall, id, hid⟩
      · rw [hsplit, List.mem_pair] at hs
        rcases hs with rfl | rfl
        · exact ⟨hlo, id, hid⟩
        · exact ⟨hhi, maxId, hmax⟩
    · exact absurd hs List.not_mem_nil
  · split_ifs at hs with hdigits
    · obtain rfl := List.mem_singleton.1 hs
      refine ⟨List.all_eq_true.1 hdigits, ?_⟩
      rw [userToUid] at hid2
      by_cases hnil : ruleName cp = []
      · rw [hnil]
        exact ⟨0, rfl⟩
      · rw [if_neg hnil, if_pos (by simpa using hdigits)] at hid2
        obtain ⟨v, hv, -⟩ := Option.map_eq_some_iff.1 hid2
        exact ⟨v, hv⟩
    · exact absurd hs List.not_mem_nil

theorem mapM_option_mem {α β : Type} {f : α → Option β} {l : List α} : ∀ {l' : List β},
    l.mapM f = some l' → ∀ a ∈ l, ∃ b, f a = some b := by
  induction l with
  | nil => exact fun _ a ha => absurd ha List.not_mem_nil
  | cons x l ih =>
    intro l' h a ha
    rw [List.mapM_cons] at h
    obtain ⟨b, hb, h⟩ := Option.bind_eq_some_iff.1 h
    obtain ⟨l'', hl, -⟩ := Option.bind_eq_some_iff.1 h
    rcases List.mem_cons.1 ha with rfl | ha
    · exact ⟨b, hb⟩
    · exact ih hl a ha

theorem mem_ruleNumbers_key (hdigit : (ruleKey cp).head?.any isDigit = true) {s : Bytes}
    (hs : s ∈ (ruleKey cp).splitOn dashByte) : s ∈ ruleNumbers cp := by
  rw [ruleNumbers, if_pos hdigit]
  exact List.mem_append_left _ hs

theorem mem_ruleNumbers_name (hdigits : (ruleName cp).all isDigit = true) :
    ruleName cp ∈ ruleNumbers cp := by
  rw [ruleNumbers, if_pos hdigits]
  exact List.mem_append_right _ List.mem_cons_self

theorem covers_ids (lo hi id id2 : ℕ) (wildmatch : Bytes → Bytes → Bool) (name : Bytes) :
    (MapNode.mk (.ids lo hi) id2).covers wildmatch id name =
      if hi ≠ 0 then decide (lo ≤ id) && decide (id ≤ hi) else decide (lo = id) := rfl

/-- A range is taken as it is written if it does not end in 0. -/
theorem covers_ids_iff {lo hi id id2 : ℕ} (hend : hi = 0 → lo = 0) (wildmatch : Bytes → Bytes → Bool)
    (name : Bytes) :
    (MapNode.mk (.ids lo hi) id2).covers wildmatch id name = true ↔ lo ≤ id ∧ id ≤ hi := by
  rw [covers_ids]
  by_cases hzero : hi = 0
  · rw [if_neg (not_not.2 hzero), decide_eq_true_eq, hend hzero, hzero]
    omega
  · rw [if_pos hzero, Bool.and_eq_true, decide_eq_true_eq, decide_eq_true_eq]

/-- The left side of an accepted rule, if its numbers were taken as they are written. -/
theorem covers_iff_writtenIds {key : MapKey} (hdigit : (ruleKey cp).head?.any isDigit = true)
    (hkey : mapKey (ruleKey cp) = some key) (hfits : RuleFits cp)
    (hnumbers : ∀ s ∈ ruleNumbers cp, ∀ v, idParse s = some v → v = value s ∧ v < 2 ^ 32)
    (id id2 : ℕ) (wildmatch : Bytes → Bytes → Bool) (name : Bytes) :
    (MapNode.mk key id2).covers wildmatch id name = true ↔ WrittenIds (ruleKey cp) id := by
  rcases mapKey_cases hdigit hkey with ⟨hsplit, -, v, hv, rfl⟩ |
    ⟨lo, hi, hsplit, -, -, v, maxV, hv, hmax, rfl⟩
  · have hmem := mem_ruleNumbers_key hdigit (hsplit ▸ List.mem_cons_self)
    rw [covers_ids, WrittenIds, hsplit, (hnumbers _ hmem v hv).1, if_neg (not_not.2 rfl),
      decide_eq_true_eq]
    exact eq_comm
  · have hlo := mem_ruleNumbers_key hdigit (s := lo) (by rw [hsplit]; exact List.mem_cons_self)
    have hhi := mem_ruleNumbers_key hdigit (s := hi) (by rw [hsplit]; simp)
    rw [WrittenIds, hsplit, (hnumbers _ hlo v hv).1, (hnumbers _ hhi maxV hmax).1]
    exact covers_ids_iff (hfits.ends hdigit lo hi hsplit) wildmatch name

/-- **An accepted rule does what was written exactly if it fits.** -/
theorem ruleExact_iff {node : Option MapNode} (h : mapEntry idOf cp = some node) :
    RuleExact idOf cp ↔ RuleFits cp := by
  obtain ⟨key, id2, hkey, hid2, hnode⟩ := mapEntry_cases h
  have hparsed := ruleNumbers_parsed h
  constructor
  · intro hexact
    refine ⟨fun s hs => ?_, fun hdigit lo hi hsplit hzero => ?_⟩
    · obtain ⟨-, v, hv⟩ := hparsed s hs
      obtain ⟨heq, hlt⟩ := hexact.numbers s hs v hv
      rwa [← heq]
    · -- The range would stand for its lower end alone.
      rcases mapKey_cases hdigit hkey with ⟨hone, -⟩ |
        ⟨lo', hi', hsplit', -, -, v, maxV, hv, hmax, rfl⟩
      · rw [hone] at hsplit
        cases hsplit
      rw [hsplit] at hsplit'
      obtain ⟨rfl, rfl⟩ : lo = lo' ∧ hi = hi' := by simpa using hsplit'
      have hlo := mem_ruleNumbers_key hdigit (s := lo) (by rw [hsplit]; exact List.mem_cons_self)
      have hhi := mem_ruleNumbers_key hdigit (s := hi) (by rw [hsplit]; simp)
      obtain ⟨rfl, hlt⟩ := hexact.numbers lo hlo v hv
      obtain ⟨rfl, -⟩ := hexact.numbers hi hhi maxV hmax
      have hcovers := hexact.ids hdigit _ hkey (value lo) hlt (fun _ _ => false) [] 0
      rw [covers_ids, hzero, if_neg (not_not.2 rfl), WrittenIds, hsplit] at hcovers
      have hle : value lo ≤ value hi := (hcovers.1 (decide_eq_true rfl)).2
      rwa [hzero, Nat.le_zero] at hle
  · intro hfits
    have hnumbers : ∀ s ∈ ruleNumbers cp, ∀ v, idParse s = some v → v = value s ∧ v < 2 ^ 32 :=
      fun s hs => (idParse_exact_iff (hparsed s hs).1).2 (.inl (hfits.fits s hs))
    refine ⟨hnumbers, fun hdigit key' hkey' id hid wildmatch name id2' => ?_, fun n hn hdigits => ?_⟩
    · exact covers_iff_writtenIds hdigit hkey' hfits hnumbers id id2' wildmatch name
    · have hmem := mem_ruleNumbers_name hdigits
      obtain ⟨-, v, hv⟩ := hparsed _ hmem
      rw [h] at hn
      obtain rfl := Option.some.inj hn
      rw [userToUid] at hid2
      by_cases hnil : ruleName cp = []
      · rw [if_pos hnil] at hid2
        obtain rfl := Option.some.inj hid2
        cases hnode
      · rw [if_neg hnil, if_pos (by simpa using hdigits), hv] at hid2
        obtain rfl := Option.some.inj hid2
        obtain rfl := Option.some.inj hnode
        exact (hnumbers _ hmem v hv).1

end Rules

/-! ## Maps -/

/-- **The numbers of `--usermap` and `--groupmap` are exact if and only if they fit.** -/
theorem numericIds_iff (idOf : Bytes → Option ℕ) :
    (∀ s : Bytes, (∀ c ∈ s, isDigit c = true) →
      ((∀ v, idParse s = some v → v = value s ∧ v < 2 ^ 32) ↔ value s < 2 ^ 32 ∨ WrapsBack s)) ∧
    ∀ (map : Bytes) (nodes : List MapNode), parseNameMap idOf map = some nodes →
      ((∀ cp ∈ map.splitOn commaByte, RuleExact idOf cp) ↔
        ∀ cp ∈ map.splitOn commaByte, RuleFits cp) := by
  refine ⟨fun s hs => idParse_exact_iff hs, fun map nodes hmap => ?_⟩
  rw [parseNameMap_eq, mapRules] at hmap
  obtain ⟨parsed, hparsed, -⟩ := Option.map_eq_some_iff.1 hmap
  refine forall₂_congr fun cp hcp => ?_
  obtain ⟨node, hnode⟩ := mapM_option_mem hparsed cp hcp
  exact ruleExact_iff hnode

/-- The number 10000000000 is taken for another one. -/
theorem not_idParse_exact :
    ¬∀ s : Bytes, (∀ c ∈ s, isDigit c = true) →
      ∀ v, idParse s = some v → v = value s ∧ v < 2 ^ 32 := by
  intro h
  have hparse : idParse [49, 48, 48, 48, 48, 48, 48, 48, 48, 48, 48] = some 1410065408 := by
    simp [idParse, idParseLoop, isDigit]
  have hvalue : value [49, 48, 48, 48, 48, 48, 48, 48, 48, 48, 48] = 10000000000 := by
    simp [value]
  have heq := (h _ (by simp [isDigit]) _ hparse).1
  rw [hvalue] at heq
  omega

end CloudEdgeBackup
