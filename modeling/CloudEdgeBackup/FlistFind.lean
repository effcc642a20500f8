/-
  Looking up a file in a cleaned list: `flist_find` (`flist.c`).

  * `findReads` are the positions that `flist_find` looks at on its way; they are between two
    entries of the list wherever the hints are right (`findLoop_run`);
  * `findLoop_cases` says what one pass of the loop does, whatever is looked for;
  * the lookup is right for every query only where the names ascend: a loop that finds every
    entry has them in order (`ascends_of_finds`);
  * `FindsRight` is what a lookup has to be after any other lookups.  After
    `flist_sort_and_clean` it is, for every query but a "." that has no comparison, unless
    stripping the leading slashes has put the names out of order (`flistFind_right_iff`).
-/
import CloudEdgeBackup.NameLaws
import CloudEdgeBackup.FileListClean

namespace CloudEdgeBackup

open Gaps

/-! ## What is read -/

section Reads

variable (sorted : ℕ → ListFile) (fuel : ℕ)

/-- The positions that are looked at from `m` on, with `hop` the one after an empty one. -/
def seekReads (hop : ℕ → ℤ) (next : ℕ → ℕ) : ℕ → ℕ → List ℤ
  | 0, _ => []
  | n + 1, m => if active sorted m then [] else hop m :: seekReads hop next n (next m)

/-- `mid + F_DEPTH` -/
def hopUp (m : ℕ) : ℤ := m + (sorted m).depth

/-- `mid - len32`, which may be negative. -/
def hopDown (m : ℕ) : ℤ := m - (sorted m).len32

def midUpReads (mid : ℕ) : List ℤ :=
  mid :: if active sorted mid then []
    else hopUp sorted mid :: seekReads sorted (hopUp sorted) (upHint sorted) fuel (upHint sorted mid)

def midDownReads (mid : ℕ) : List ℤ :=
  hopDown sorted mid ::
    seekReads sorted (hopDown sorted) (downHint sorted) fuel (downHint sorted mid)

end Reads

/-- The positions that the loop of `flist_find` reads. -/
def findReads (v29 : Bool) (fuel : ℕ) (f : ListFile) : ℕ → (ℕ → ListFile) → ℤ → ℤ → List ℤ
  | 0, _, _, _ => []
  | n + 1, sorted, low, high =>
    if high < low then []
    else
      let mid := ((low + high) / 2).toNat
      midUpReads sorted fuel mid ++ match midUp sorted fuel mid with
      | none => []
      | some (up, sorted) =>
        if high < up then
          midDownReads sorted fuel mid ++ match midDown sorted fuel mid with
          | none => []
          | some (high, sorted) => findReads v29 fuel f n sorted low high
        else
          let diff := fNameCmp v29 (sorted up) f
          if diff = 0 then []
          else if diff < 0 then findReads v29 fuel f n sorted (up + 1) high
          else findReads v29 fuel f n sorted low (mid - 1)

/-- What `flist_find` reads. -/
def flistFindReads (v29 : Bool) (sorted : ℕ → ListFile) (low high : ℤ) (f : ListFile) : List ℤ :=
  findReads v29 ((high - low).toNat + 2) f ((high - low).toNat + 2) sorted low high

/-- The hints downwards do not leave the array. -/
def HintsInside (sorted : ℕ → ListFile) : Prop :=
  ∀ m, active sorted m = false → m ≠ 0 → (sorted m).len32 ≤ m

section Within

variable {sorted : ℕ → ListFile} {n fuel flow fhigh mid m : ℕ}

theorem seekReads_up (hgap : Gapped sorted n) {a : ℕ} (ha : active sorted a = true) (han : a < n)
    (hm : m ≤ a) : ∀ p ∈ seekReads sorted (hopUp sorted) (upHint sorted) fuel m, (m : ℤ) ≤ p ∧ p ≤ a := by
  induction fuel generalizing m with
  | zero => exact fun p hp => absurd hp List.not_mem_nil
  | succ fuel ih =>
    rw [seekReads]
    split_ifs with hact
    · exact fun p hp => absurd hp List.not_mem_nil
    obtain ⟨hlt, hall⟩ := hgap.up m (hm.trans_lt han) (by simpa using hact)
    have hle : upHint sorted m ≤ a := by
      by_contra hgt
      rw [hall a hm (not_le.1 hgt)] at ha
      cases ha
    have hhop : hopUp sorted m = (upHint sorted m : ℕ) := by
      rw [hopUp, upHint]
      push_cast
      rfl
    rintro p (_ | ⟨_, hp⟩)
    · rw [hhop]
      omega
    · have := ih hle p hp
      omega

theorem seekReads_down (hgap : Gapped sorted n) (hin : HintsInside sorted) {a : ℕ}
    (ha : active sorted a = true) (hmn : m < n) (hm : a ≤ m) :
    ∀ p ∈ seekReads sorted (hopDown sorted) (downHint sorted) fuel m, (a : ℤ) ≤ p ∧ p ≤ m := by
  induction fuel generalizing m with
  | zero => exact fun p hp => absurd hp List.not_mem_nil
  | succ fuel ih =>
    rw [seekReads]
    split_ifs with hact
    · exact fun p hp => absurd hp List.not_mem_nil
    have hidle : active sorted m = false := by simpa using hact
    have hne : a ≠ m := by
      rintro rfl
      rw [ha] at hidle
      cases hidle
    obtain ⟨hlt, hall⟩ := hgap.down m hmn hidle
    have hlt' := hlt (by omega)
    have hle : a ≤ downHint sorted m := by
      by_contra hgt
      rw [hall a (not_le.1 hgt) hm] at ha
      cases ha
    have hhop : hopDown sorted m = (downHint sorted m : ℕ) := by
      have := hin m hidle (by omega)
      rw [hopDown, downHint]
      omega
    rintro p (_ | ⟨_, hp⟩)
    · rw [hhop]
      omega
    · have := ih (hlt'.trans hmn) hle p hp
      omega

theorem midUpReads_within (hgap : Gapped sorted n) (hfhigh : active sorted fhigh = true) (hn : fhigh < n)
    (hmid : mid ≤ fhigh) : ∀ p ∈ midUpReads sorted fuel mid, (mid : ℤ) ≤ p ∧ p ≤ fhigh := by
  rw [midUpReads]
  rintro p (_ | ⟨_, hp⟩)
  · omega
  split_ifs at hp with hact
  · exact absurd hp List.not_mem_nil
  -- the first hop is one more pass of `seek`
  have hseek : p ∈ seekReads sorted (hopUp sorted) (upHint sorted) (fuel + 1) mid := by
    rw [seekReads, if_neg hact]
    exact hp
  exact seekReads_up hgap hfhigh hn hmid p hseek

theorem midDownReads_within (hgap : Gapped sorted n) (hin : HintsInside sorted)
    (hflow : active sorted flow = true) (hidle : active sorted mid = false) (hmn : mid < n)
    (hmid : flow ≤ mid) : ∀ p ∈ midDownReads sorted fuel mid, (flow : ℤ) ≤ p ∧ p ≤ mid := by
  intro p hp
  have hseek : p ∈ seekReads sorted (hopDown sorted) (downHint sorted) (fuel + 1) mid := by
    rw [seekReads, if_neg (by rw [hidle]; exact Bool.false_ne_true)]
    exact hp
  exact seekReads_down hgap hin hflow hmn hmid p hseek

theorem HintsInside.update (hin : HintsInside sorted) {e : ListFile} (he : e.len32 ≤ mid ∨ mid = 0 ∨ e.isActive = true) :
    HintsInside (Function.update sorted mid e) := by
  intro m hm hm0
  by_cases hmid : m = mid
  · subst hmid
    rw [active, Function.update_self] at hm
    rw [Function.update_self]
    rcases he with he | he | he
    · exact he
    · exact absurd he hm0
    · rw [he] at hm
      cases hm
  · rw [active, Function.update_of_ne hmid] at hm
    rw [Function.update_of_ne hmid]
    exact hin m hm hm0

theorem HintsInside.midUp (hin : HintsInside sorted) {up : ℕ} {s : ℕ → ListFile}
    (h : midUp sorted fuel mid = some (up, s)) : HintsInside s := by
  rw [CloudEdgeBackup.midUp] at h
  simp only at h
  split_ifs at h with hact hup
  · cases h
    exact hin
  · cases h
    exact hin
  · obtain ⟨u, -, heq⟩ := Option.map_eq_some_iff.1 h
    cases heq
    refine hin.update ?_
    by_cases hm0 : mid = 0
    · exact .inr (.inl hm0)
    · exact .inl (hin mid (by simpa using hact) hm0)

theorem HintsInside.midDown (hin : HintsInside sorted) {high : ℕ} {s : ℕ → ListFile}
    (h : midDown sorted fuel mid = some (high, s)) : HintsInside s := by
  rw [CloudEdgeBackup.midDown] at h
  simp only at h
  split_ifs at h with hact
  · cases h
    exact hin
  · obtain ⟨d, -, heq⟩ := Option.map_eq_some_iff.1 h
    cases heq
    exact hin.update (.inl (Nat.sub_le mid _))

end Within

/-! ## One pass and the loop -/

/-- A list that can be searched: the hints are right, and both ends are entries. -/
structure SearchList (sorted : ℕ → ListFile) (n flow fhigh : ℕ) : Prop where
  gapped : Gapped sorted n
  inside : HintsInside sorted
  first : active sorted flow = true
  last : active sorted fhigh = true
  lt : fhigh < n

section Loop

variable {v29 : Bool} {f : ListFile} {sorted s : ℕ → ListFile} {n fuel flow fhigh : ℕ} {low high : ℤ}

theorem SearchList.of_sameActive (h : SearchList sorted n flow fhigh) (hsame : SameActive sorted s)
    (hgap : Gapped s n) (hin : HintsInside s) : SearchList s n flow fhigh :=
  ⟨hgap, hin, (hsame _).1.trans h.first, (hsame _).1.trans h.last, h.lt⟩

/-- **One pass of the loop**: nothing is left above the middle, or one entry is compared. -/
theorem findLoop_cases (v29 : Bool) (h : SearchList sorted n flow fhigh) (hfuel : fhigh - flow < fuel)
    (hlow : (flow : ℤ) ≤ low) (hhigh : high ≤ fhigh) (hle : low ≤ high) :
    ∃ reads : List ℤ, (∀ p ∈ reads, (flow : ℤ) ≤ p ∧ p ≤ fhigh) ∧
    ((∃ (down : ℕ) (s : ℕ → ListFile), SameActive sorted s ∧ SearchList s n flow fhigh ∧ (down : ℤ) < high ∧
      (∀ x : ℕ, down < x → (x : ℤ) ≤ high → active sorted x = false) ∧
      ∀ f k, findLoop v29 fuel f (k + 1) sorted low high = findLoop v29 fuel f k s low down ∧
        findReads v29 fuel f (k + 1) sorted low high = reads ++ findReads v29 fuel f k s low down) ∨
    ∃ (mid up : ℕ) (s : ℕ → ListFile), SameActive sorted s ∧ SearchList s n flow fhigh ∧
      active sorted up = true ∧ low ≤ mid ∧ mid ≤ up ∧ (up : ℤ) ≤ high ∧
      (∀ x, mid ≤ x → x < up → active sorted x = false) ∧
      ∀ f k, findLoop v29 fuel f (k + 1) sorted low high =
          (if fNameCmp v29 (sorted up) f = 0 then
            some (if !v29 && (sorted up).isDir ≠ f.isDir then none else some up, s)
          else if fNameCmp v29 (sorted up) f < 0 then findLoop v29 fuel f k s (up + 1) high
          else findLoop v29 fuel f k s low (mid - 1)) ∧
        findReads v29 fuel f (k + 1) sorted low high = reads ++
          if fNameCmp v29 (sorted up) f = 0 then []
          else if fNameCmp v29 (sorted up) f < 0 then findReads v29 fuel f k s (up + 1) high
          else findReads v29 fuel f k s low (mid - 1)) := by
  have hlen := h.lt
  obtain ⟨mid, hmid⟩ : ∃ mid : ℕ, ((low + high) / 2).toNat = mid := ⟨_, rfl⟩
  have hlm : low ≤ mid := by omega
  have hmh : (mid : ℤ) ≤ high := by omega
  obtain ⟨up, s₁, hup, hsame₁, hgap₁, hact, hmu, hua, hbetween⟩ := midUp_spec h.gapped h.last h.lt
    (show mid ≤ fhigh by omega) (show fhigh - mid < fuel by omega)
  have hlist₁ := h.of_sameActive hsame₁ hgap₁ (h.inside.midUp hup)
  have hupReads : ∀ p ∈ midUpReads sorted fuel mid, (mid : ℤ) ≤ p ∧ p ≤ fhigh :=
    midUpReads_within h.gapped h.last h.lt (by omega)
  have hupEq : s₁ up = sorted up := (hsame₁ up).2 hact
  by_cases habove : high < up
  · have hidle : active s₁ mid = false := (hsame₁ mid).1.trans (hbetween mid le_rfl (by omega))
    obtain ⟨down, s₂, hdown, hsame₂, hgap₂, -, hdm, hbelow⟩ := midDown_spec hgap₁ hidle
      hlist₁.first (show mid < n by omega) (show flow ≤ mid by omega)
      (show mid - flow < fuel by omega)
    have hdownReads : ∀ p ∈ midDownReads s₁ fuel mid, (flow : ℤ) ≤ p ∧ p ≤ mid :=
      midDownReads_within hgap₁ hlist₁.inside hlist₁.first hidle (by omega) (by omega)
    refine ⟨midUpReads sorted fuel mid ++ midDownReads s₁ fuel mid, ?_, .inl ⟨down, s₂, hsame₁.trans hsame₂,
      hlist₁.of_sameActive hsame₂ hgap₂ (hlist₁.inside.midDown hdown), by omega, ?_, ?_⟩⟩
    · intro p hp
      rcases List.mem_append.1 hp with hp | hp
      · have := hupReads p hp
        omega
      · have := hdownReads p hp
        omega
    · intro x hx hx'
      by_cases hxm : x ≤ mid
      · exact (hsame₁ x).1.symm.trans (hbelow x hx hxm)
      · exact hbetween x (by omega) (by omega)
    · intro f k
      constructor
      · rw [findLoop, if_neg (not_lt.2 hle)]
        simp only [hmid, hup, if_pos habove, hdown]
      · rw [findReads, if_neg (not_lt.2 hle)]
        simp only [hmid, hup, if_pos habove, hdown, List.append_assoc]
  · refine ⟨midUpReads sorted fuel mid, ?_, .inr ⟨mid, up, s₁, hsame₁, hlist₁, hact, hlm, hmu,
      not_lt.1 habove, hbetween, ?_⟩⟩
    · intro p hp
      have := hupReads p hp
      omega
    intro f k
    constructor
    · rw [findLoop, if_neg (not_lt.2 hle)]
      simp only [hmid, hup, if_neg habove, hupEq]
    · rw [findReads, if_neg (not_lt.2 hle)]
      simp only [hmid, hup, if_neg habove, hupEq]

/-- **A run of the loop**, in any order of the names: it ends, reads between the ends of the
    list only, and answers with an entry that compares as equal. -/
theorem findLoop_run (v29 : Bool) (f : ListFile) (h : SearchList sorted n flow fhigh) (hfuel : fhigh - flow < fuel)
    (hlow : (flow : ℤ) ≤ low) (hhigh : high ≤ fhigh) {k : ℕ} (hk : high - low + 2 ≤ k) (hk0 : 0 < k) :
    ∃ r s, findLoop v29 fuel f k sorted low high = some (r, s) ∧ SameActive sorted s ∧
      SearchList s n flow fhigh ∧
      (∀ p ∈ findReads v29 fuel f k sorted low high, (flow : ℤ) ≤ p ∧ p ≤ fhigh) ∧
      ∀ j, r = some j → low ≤ j ∧ (j : ℤ) ≤ high ∧ active sorted j = true := by
  induction k generalizing sorted low high with
  | zero => omega
  | succ k ih =>
    by_cases hempty : high < low
    · rw [findLoop, if_pos hempty, findReads, if_pos hempty]
      refine ⟨none, sorted, rfl, .refl _, h, fun p hp => absurd hp List.not_mem_nil, ?_⟩
      intro j hj
      cases hj
    obtain ⟨reads, hreads, ⟨down, s₁, hsame, hlist, hdown, -, hpass⟩ |
      ⟨mid, up, s₁, hsame, hlist, hact, hlm, hmu, huh, -, hpass⟩⟩ :=
      findLoop_cases v29 h hfuel hlow hhigh (not_lt.1 hempty)
    · obtain ⟨r, s₂, hloop, hsame₂, hlist₂, hrest, hr⟩ := ih hlist hlow (show (down : ℤ) ≤ fhigh by omega)
        (by omega) (by omega)
      rw [(hpass f k).1, (hpass f k).2]
      refine ⟨r, s₂, hloop, hsame.trans hsame₂, hlist₂, ?_, fun j hj => ?_⟩
      · intro p hp
        exact (List.mem_append.1 hp).elim (hreads p) (hrest p)
      · obtain ⟨hlj, hjd, hja⟩ := hr j hj
        exact ⟨hlj, by omega, (hsame j).1.symm.trans hja⟩
    rw [(hpass f k).1, (hpass f k).2]
    by_cases hzero : fNameCmp v29 (sorted up) f = 0
    · rw [if_pos hzero, if_pos hzero, List.append_nil]
      refine ⟨_, s₁, rfl, hsame, hlist, hreads, fun j hj => ?_⟩
      split_ifs at hj
      cases hj
      exact ⟨by omega, huh, hact⟩
    rw [if_neg hzero, if_neg hzero]
    by_cases hneg : fNameCmp v29 (sorted up) f < 0
    · obtain ⟨r, s₂, hloop, hsame₂, hlist₂, hrest, hr⟩ := ih hlist (show (flow : ℤ) ≤ up + 1 by omega) hhigh
        (by omega) (by omega)
      rw [if_pos hneg, if_pos hneg]
      refine ⟨r, s₂, hloop, hsame.trans hsame₂, hlist₂, ?_, fun j hj => ?_⟩
      · intro p hp
        exact (List.mem_append.1 hp).elim (hreads p) (hrest p)
      · obtain ⟨hlj, hjh, hja⟩ := hr j hj
        exact ⟨by omega, hjh, (hsame j).1.symm.trans hja⟩
    · obtain ⟨r, s₂, hloop, hsame₂, hlist₂, hrest, hr⟩ := ih hlist hlow
        (show (mid : ℤ) - 1 ≤ fhigh by omega) (by omega) (by omega)
      rw [if_neg hneg, if_neg hneg]
      refine ⟨r, s₂, hloop, hsame.trans hsame₂, hlist₂, ?_, fun j hj => ?_⟩
      · intro p hp
        exact (List.mem_append.1 hp).elim (hreads p) (hrest p)
      · obtain ⟨hlj, hjh, hja⟩ := hr j hj
        exact ⟨hlj, by omega, (hsame j).1.symm.trans hja⟩

theorem flistFind_run (v29 : Bool) (f : ListFile) (h : SearchList sorted n flow fhigh) :
    ∃ r s, flistFind v29 sorted flow fhigh f = some (r, s) ∧ SameActive sorted s ∧
      SearchList s n flow fhigh ∧ ∀ p ∈ flistFindReads v29 sorted flow fhigh f, (flow : ℤ) ≤ p ∧ p ≤ fhigh := by
  obtain ⟨r, s, hrun, hsame, hlist, hreads, -⟩ := findLoop_run v29 f h
    (show fhigh - flow < ((fhigh : ℤ) - flow).toNat + 2 by omega) (le_refl (flow : ℤ)) (le_refl (fhigh : ℤ))
    (show (fhigh : ℤ) - flow + 2 ≤ (((fhigh : ℤ) - flow).toNat + 2 : ℕ) by omega) (by omega)
  exact ⟨r, s, hrun, hsame, hlist, hreads⟩

/-- The loop answers with `p` when it looks for the entry at `p`. -/
def FindsAt (v29 : Bool) (fuel k : ℕ) (sorted s : ℕ → ListFile) (low high : ℤ) (p : ℕ) : Prop :=
  ∃ s', findLoop v29 fuel (sorted p) k s low high = some (some p, s')

/-- **A loop that finds every entry has them in order.**  By induction on the passes: the entry
    that is compared parts those below it from those above it. -/
theorem ascends_of_finds (h : SearchList s n flow fhigh) (hsame : SameActive sorted s)
    (hfuel : fhigh - flow < fuel) (hlow : (flow : ℤ) ≤ low) (hhigh : high ≤ fhigh) {k : ℕ}
    (hk : high - low + 2 ≤ k) (hk0 : 0 < k)
    (hfinds : ∀ p : ℕ, low ≤ p → (p : ℤ) ≤ high → active sorted p = true → FindsAt v29 fuel k sorted s low high p) :
    ∀ p q : ℕ, low ≤ p → p < q → (q : ℤ) ≤ high → active sorted p = true → active sorted q = true →
      ∃ m, active sorted m = true ∧ p ≤ m ∧ m ≤ q ∧
        (p ≠ m → 0 < fNameCmp v29 (sorted m) (sorted p)) ∧
        (q ≠ m → fNameCmp v29 (sorted m) (sorted q) < 0) := by
  induction k generalizing s low high with
  | zero => omega
  | succ k ih =>
    intro p q hp hpq hq hpa hqa
    obtain ⟨reads, -, ⟨down, s₁, hsame₁, hlist, hdown, hnone, hpass⟩ |
      ⟨mid, up, s₁, hsame₁, hlist, hact, hlm, hmu, huh, hbetween, hpass⟩⟩ :=
      findLoop_cases v29 h hfuel hlow hhigh (show low ≤ high by omega)
    · have hle : ∀ x : ℕ, (x : ℤ) ≤ high → active sorted x = true → x ≤ down := by
        intro x hx hxa
        by_contra hgt
        have hidle := hnone x (not_le.1 hgt) hx
        rw [(hsame x).1, hxa] at hidle
        cases hidle
      refine ih hlist (hsame.trans hsame₁) hlow (show (down : ℤ) ≤ fhigh by omega) (by omega) (by omega) ?_
        p q hp hpq (by exact_mod_cast hle q hq hqa) hpa hqa
      intro x hx hxd hxa
      obtain ⟨s', hloop⟩ := hfinds x hx (by omega) hxa
      exact ⟨s', (hpass (sorted x) k).1.symm.trans hloop⟩
    have hactUp : active sorted up = true := (hsame up).1.symm.trans hact
    have hup : s up = sorted up := (hsame up).2 hactUp
    -- an entry other than the one compared is found on its side
    have hside : ∀ x : ℕ, low ≤ x → (x : ℤ) ≤ high → active sorted x = true → x ≠ up →
        (x < up → 0 < fNameCmp v29 (sorted up) (sorted x) ∧
          FindsAt v29 fuel k sorted s₁ low (mid - 1) x) ∧
        (up < x → fNameCmp v29 (sorted up) (sorted x) < 0 ∧
          FindsAt v29 fuel k sorted s₁ (up + 1) high x) := by
      intro x hx hxh hxa hne
      obtain ⟨s', hloop⟩ := hfinds x hx hxh hxa
      rw [(hpass (sorted x) k).1, hup] at hloop
      by_cases hzero : fNameCmp v29 (sorted up) (sorted x) = 0
      · rw [if_pos hzero] at hloop
        split_ifs at hloop
        · cases hloop
        · cases hloop
          exact absurd rfl hne
      rw [if_neg hzero] at hloop
      by_cases hneg : fNameCmp v29 (sorted up) (sorted x) < 0
      · rw [if_pos hneg] at hloop
        obtain ⟨r, s₂, hrun, -, -, -, hr⟩ := findLoop_run v29 (sorted x) hlist hfuel
          (show (flow : ℤ) ≤ up + 1 by omega) hhigh (show high - (up + 1) + 2 ≤ (k : ℤ) by omega) (by omega)
        rw [hrun] at hloop
        cases hloop
        have := (hr x rfl).1
        exact ⟨fun hlt => by omega, fun _ => ⟨hneg, s', hrun⟩⟩
      · rw [if_neg hneg] at hloop
        obtain ⟨r, s₂, hrun, -, -, -, hr⟩ := findLoop_run v29 (sorted x) hlist hfuel
          hlow (show (mid : ℤ) - 1 ≤ fhigh by omega) (show (mid : ℤ) - 1 - low + 2 ≤ (k : ℤ) by omega) (by omega)
        rw [hrun] at hloop
        cases hloop
        have := (hr x rfl).2.1
        exact ⟨fun _ => ⟨by omega, s', hrun⟩, fun hlt => by omega⟩
    have hbelow : ∀ x : ℕ, active sorted x = true → x < up → (x : ℤ) ≤ mid - 1 := by
      intro x hxa hxu
      by_contra hgt
      have hidle := hbetween x (by omega) hxu
      rw [(hsame x).1, hxa] at hidle
      cases hidle
    rcases lt_or_ge q up with hqu | hqu
    · refine ih hlist (hsame.trans hsame₁) hlow (by omega) (by omega) (by omega) ?_ p q hp hpq
        (hbelow q hqa hqu) hpa hqa
      intro x hx hxm hxa
      exact ((hside x hx (by omega) hxa (by omega)).1 (by omega)).2
    rcases lt_or_ge up p with hup' | hup'
    · refine ih hlist (hsame.trans hsame₁) (show (flow : ℤ) ≤ up + 1 by omega) hhigh (by omega) (by omega) ?_ p q
        (by omega) hpq hq hpa hqa
      intro x hx hxh hxa
      exact ((hside x (by omega) hxh hxa (by omega)).2 (by omega)).2
    · refine ⟨up, hactUp, hup', hqu, fun hne => ?_, fun hne => ?_⟩
      · exact ((hside p hp (by omega) hpa hne).1 (by omega)).1
      · exact ((hside q (by omega) hq hqa hne).2 (by omega)).1

end Loop

/-! ## The hints of a cleaned list -/

section Hints

variable {v29 : Bool} {f : ListFile} {sorted s : ℕ → ListFile} {fuel : ℕ} {o : CleanOpts} {files : List ListFile}

theorem HintsInside.findLoop (hin : HintsInside sorted) {k : ℕ} {low high : ℤ} {r : Option ℕ}
    (h : findLoop v29 fuel f k sorted low high = some (r, s)) : HintsInside s := by
  induction k generalizing sorted low high with
  | zero => cases h
  | succ k ih =>
    rw [CloudEdgeBackup.findLoop] at h
    by_cases hempty : high < low
    · rw [if_pos hempty] at h
      cases h
      exact hin
    rw [if_neg hempty] at h
    simp only at h
    cases hup : CloudEdgeBackup.midUp sorted fuel ((low + high) / 2).toNat with
    | none => simp only [hup, reduceCtorEq] at h
    | some p =>
      have hin₁ := hin.midUp hup
      simp only [hup] at h
      by_cases habove : high < p.1
      · rw [if_pos habove] at h
        cases hdown : CloudEdgeBackup.midDown p.2 fuel ((low + high) / 2).toNat with
        | none => simp only [hdown, reduceCtorEq] at h
        | some q =>
          simp only [hdown] at h
          exact ih (hin₁.midDown hdown) h
      · rw [if_neg habove] at h
        split_ifs at h
        · cases h
          exact hin₁
        · cases h
          exact hin₁
        · exact ih hin₁ h
        · exact ih hin₁ h

theorem HintsInside.replace (hin : HintsInside sorted) {m : ℕ} {e : ListFile} (hlen : e.len32 = (sorted m).len32)
    (hbase : e.basename = (sorted m).basename) : HintsInside (Function.update sorted m e) := by
  refine hin.update ?_
  by_cases hact : active sorted m = true
  · refine .inr (.inr ?_)
    rwa [ListFile.isActive, hbase]
  · by_cases hm : m = 0
    · exact .inr (.inl hm)
    · exact .inl (hlen ▸ hin m (by simpa using hact) hm)

theorem HintsInside.clear (hin : HintsInside sorted) (m : ℕ) (e : ListFile) :
    HintsInside (Function.update sorted m e.clear) := by
  refine hin.update ?_
  have hlen : e.clear.len32 = 1 := rfl
  rw [hlen]
  omega

theorem HintsInside.dropDuplicate {st : CleanState} (hin : HintsInside st.sorted) (i j : ℕ) :
    HintsInside (dropDuplicate st i j).sorted := by
  rw [CloudEdgeBackup.dropDuplicate]
  dsimp only
  split_ifs
  · exact hin.clear j _
  · exact hin.clear j _
  · exact HintsInside.clear (hin.replace (e := (st.sorted j).mergeFlags (st.sorted i)) rfl rfl) i _
  · exact hin.clear i _

theorem HintsInside.cleanStep {st st' : CleanState} {i : ℕ} (hin : HintsInside st.sorted)
    (h : cleanStep v29 st i = some st') : HintsInside st'.sorted := by
  rw [CloudEdgeBackup.cleanStep] at h
  split_ifs at h
  · cases h
    exact hin
  cases hdup : findDuplicate v29 st (st.sorted i) with
  | none => simp only [hdup, reduceCtorEq] at h
  | some p =>
    have hin₁ : HintsInside p.2 := by
      rw [findDuplicate] at hdup
      split_ifs at hdup
      · cases hdup
        exact hin
      · exact hin.findLoop hdup
      · cases hdup
        exact hin
    obtain ⟨r, sorted⟩ := p
    cases r with
    | none =>
      simp only [hdup] at h
      cases h
      exact hin₁
    | some j =>
      simp only [hdup] at h
      cases h
      have hin₂ : HintsInside (CleanState.mk sorted st.low st.prev).sorted := hin₁
      exact hin₂.dropDuplicate i j

theorem HintsInside.run {st st' : CleanState} {is : List ℕ} (hin : HintsInside st.sorted)
    (h : is.foldlM (CloudEdgeBackup.cleanStep v29) st = some st') : HintsInside st'.sorted := by
  induction is generalizing st with
  | nil =>
    cases h
    exact hin
  | cons i is ih =>
    rw [List.foldlM_cons, Option.bind_eq_bind, Option.bind_eq_some_iff] at h
    obtain ⟨st₁, hstep, hrest⟩ := h
    exact ih (hin.cleanStep hstep) hrest

/-- **After `flist_sort_and_clean`** the hints stay in the array. -/
theorem sortAndClean_inside (hactive : ∀ f ∈ fsort o files, f.isActive = true) {out : Flist}
    (h : sortAndClean o files = some out) : HintsInside out.sorted := by
  rw [sortAndClean] at h
  by_cases hnil : files = []
  · rw [if_pos hnil] at h
    cases h
    exact fun m _ _ => Nat.zero_le m
  rw [if_neg hnil] at h
  obtain ⟨st, hrun, rfl⟩ := Option.map_eq_some_iff.1 h
  have hstart : HintsInside fun i => (fsort o files).getD i .empty := by
    intro m hm _
    dsimp only
    by_cases hlt : m < (fsort o files).length
    · have hact : active (fun i => (fsort o files).getD i .empty) m = true := by
        rw [active, List.getD_eq_getElem _ _ hlt]
        exact hactive _ (List.getElem_mem hlt)
      rw [hact] at hm
      cases hm
    · rw [List.getD_eq_default _ _ (not_lt.1 hlt)]
      exact Nat.zero_le m
  have hdone : HintsInside st.sorted := HintsInside.run hstart hrun
  intro m hm hm0
  obtain ⟨hact, -, hlen⟩ := finalList_hints o st m
  exact hlen.trans_le (hdone m (hact.symm.trans hm) hm0)

end Hints

/-! ## The lookup -/

/-- An entry that is looked for; it shares a dirname with the list only with its contents. -/
structure Query (out : Flist) (f : ListFile) : Prop where
  spelled : f.Spelled
  shared : ∀ m < out.used, active out.sorted m = true → Shares (out.sorted m) f →
    (out.sorted m).dirname.map DirName.str = f.dirname.map DirName.str

/-- No comparison with the list reads behind the end of a string. -/
def Comparable (v29 : Bool) (out : Flist) (f : ListFile) : Prop :=
  v29 = true → ∀ m < out.used, ¬(out.sorted m).DotTwins f

/-- The entry that is looked for: equal under `f_name_cmp` and, before protocol 29, both
    directories or both not. -/
def IsEntry (v29 : Bool) (f e : ListFile) : Prop :=
  e.isActive = true ∧ fNameCmp? v29 e f = some 0 ∧ (v29 = false → e.isDir = f.isDir)

/-- The list after any number of lookups, which correct its hints. -/
inductive Lookups (v29 : Bool) (out : Flist) : (ℕ → ListFile) → Prop
  | start : Lookups v29 out out.sorted
  | next {s s' : ℕ → ListFile} {f : ListFile} {r : Option ℕ} (h : Lookups v29 out s) (hf : Query out f)
      (hc : Comparable v29 out f) (hfind : flistFind v29 s out.low out.high f = some (r, s')) :
      Lookups v29 out s'

/-- **What a lookup has to be**: it ends, reads between `low` and `high` and returns the
    position of the one entry that is looked for, or that there is none. -/
def FindsRight (v29 : Bool) (out : Flist) (f : ListFile) : Prop :=
  ∀ s, Lookups v29 out s → ∃ r s', flistFind v29 s out.low out.high f = some (r, s') ∧
    (∀ p ∈ flistFindReads v29 s out.low out.high f, out.low ≤ p ∧ p ≤ out.high) ∧
    match r with
    | some j => j < out.used ∧ IsEntry v29 f (out.sorted j) ∧
        ∀ j' < out.used, IsEntry v29 f (out.sorted j') → j' = j
    | none => ∀ j < out.used, ¬IsEntry v29 f (out.sorted j)

section Lookup

variable {v29 : Bool} {e f : ListFile} {o : CleanOpts} {files : List ListFile} {st : CleanState} {m m' : ℕ}

theorem isEntry_iff_hit (he : e.Spelled) (hf : f.Spelled)
    (hptr : Shares e f → e.dirname.map DirName.str = f.dirname.map DirName.str)
    (hno : v29 = true → ¬e.DotTwins f) : IsEntry v29 f e ↔ Hit v29 f e := by
  have hover : ¬Overruns v29 e f := by
    intro h
    cases v29 with
    | false => cases h.2.2.1
    | true => exact hno rfl ((overruns_iff he hf).1 h)
  have hzero := (compares_keyDif (zero_notMem_key v29 he) (zero_notMem_key v29 hf)).zero
  rw [IsEntry, Hit, fNameCmp?_eq he hf hptr, if_neg hover, Option.some_inj, hzero]

theorem strip_dirname {d : DirName} (h : f.strip.dirname = some d) : d.str ≠ [] := by
  rw [ListFile.strip] at h
  cases hf : f.dirname with
  | none => simp only [hf, reduceCtorEq] at h
  | some d' =>
    simp only [hf] at h
    split_ifs at h with hnil
    cases h
    exact hnil

/-- The cleaned list. -/
def cleaned (o : CleanOpts) (files : List ListFile) (st : CleanState) : Flist :=
  ⟨finalList o st, files.length, st.low, st.prev⟩

namespace ScanDone

theorem final_active (h : ScanDone o files st) (ha : active (finalList o st) m = true) (hm : m < files.length) :
    (st.low ≤ m ∧ m ≤ st.prev) ∧ active st.sorted m = true := by
  have hact := (finalList_hints o st m).1.symm.trans ha
  exact ⟨h.scanned.mem_range hm hact, hact⟩

theorem final_spelled (h : ScanDone o files st) (hm : m < files.length) (ha : active st.sorted m = true) :
    (finalList o st m).Named :=
  (h.sameName hm ha).named (shown_named (h.canonical hm).toNamed)

theorem final_ascends (h : ScanDone o files st) (hs : StripSorted o files) :
    Ascends o.v29 (finalList o st) st.low st.prev := by
  intro m m' _ hlt hm' ha ha'
  have hm'' := hm'.trans_lt h.scanned.prev_lt
  have hact := (h.final_active ha (hlt.trans hm'')).2
  have hact' := (h.final_active ha' hm'').2
  rw [(h.sameName (hlt.trans hm'') hact).key, (h.sameName hm'' hact').key]
  exact h.shown_key_lt hs hlt hm'' hact hact'

theorem searchList (h : ScanDone o files st) (hin : HintsInside (finalList o st)) :
    SearchList (finalList o st) files.length st.low st.prev where
  gapped := h.scanned.gapped.congr (finalList_hints o st)
  inside := hin
  first := (finalList_hints o st _).1.trans h.scanned.low_active
  last := (finalList_hints o st _).1.trans h.scanned.prev_active
  lt := h.scanned.prev_lt

/-- Lookups change nothing but hints. -/
theorem lookups (h : ScanDone o files st) (hin : HintsInside (finalList o st)) {s : ℕ → ListFile}
    (hs : Lookups o.v29 (cleaned o files st) s) :
    SameActive (finalList o st) s ∧ SearchList s files.length st.low st.prev := by
  induction hs with
  | start => exact ⟨.refl _, h.searchList hin⟩
  | next _ _ _ hfind ih =>
    obtain ⟨hsame, hlist⟩ := ih
    obtain ⟨r, s, hrun, hsame', hlist', -⟩ := flistFind_run o.v29 _ hlist
    have heq := hfind.symm.trans hrun
    cases heq
    exact ⟨hsame.trans hsame', hlist'⟩

/-- An entry is found under its own name. -/
theorem isEntry_self (h : ScanDone o files st) (hm : m < files.length) (ha : active (finalList o st) m = true) :
    IsEntry o.v29 (finalList o st m) (finalList o st m) := by
  have hspelled := (h.final_spelled hm (h.final_active ha hm).2).toSpelled
  exact (isEntry_iff_hit hspelled hspelled (fun _ => rfl) fun _ htwins => htwins.apart rfl).2
    ⟨ha, rfl, fun _ => rfl⟩

/-- One entry has the key. -/
theorem hit_unique (h : ScanDone o files st) (hs : StripSorted o files) {j j' : ℕ} (hj : j < files.length) (hj' : j' < files.length)
    (hhit : Hit o.v29 f (finalList o st j)) (hhit' : Hit o.v29 f (finalList o st j')) : j' = j := by
  have hasc := h.final_ascends hs
  have hr := (h.final_active hhit.1 hj).1
  have hr' := (h.final_active hhit'.1 hj').1
  rcases lt_trichotomy j' j with hlt | heq | hgt
  · have := hasc j' j hr'.1 hlt hr.2 hhit'.1 hhit.1
    rw [hhit.2.1, hhit'.2.1] at this
    exact absurd this (lt_irrefl _)
  · exact heq
  · have := hasc j j' hr.1 hgt hr'.2 hhit.1 hhit'.1
    rw [hhit.2.1, hhit'.2.1] at this
    exact absurd this (lt_irrefl _)

section Sorted

variable (h : ScanDone o files st) (hin : HintsInside (finalList o st)) (hs : StripSorted o files)
  (hf : Query (cleaned o files st) f)

include h hin hs hf

/-- In a list in order the search finds what has the key. -/
theorem find_key {s : ℕ → ListFile} (hl : Lookups o.v29 (cleaned o files st) s) :
    ∃ r s', flistFind o.v29 s st.low st.prev f = some (r, s') ∧
      FlistFinds o.v29 f (finalList o st) st.low st.prev r := by
  obtain ⟨hsame, hlist⟩ := h.lookups hin hl
  have hasc : Ascends o.v29 s st.low st.prev := by
    intro m m' hm hlt hm' ha ha'
    have hact := (hsame m).1.symm.trans ha
    have hact' := (hsame m').1.symm.trans ha'
    rw [(hsame m).2 hact, (hsame m').2 hact']
    exact h.final_ascends hs m m' hm hlt hm' hact hact'
  obtain ⟨r, s', hrun, -, -, hfinds⟩ := flistFind_spec hlist.gapped hlist.first hlist.last
    h.scanned.low_le hlist.lt hasc fun m ha _ hm => by
      have hact := (hsame m).1.symm.trans ha
      have hm' : m < files.length := hm.trans_lt h.scanned.prev_lt
      rw [(hsame m).2 hact]
      exact fNameCmp_spec (h.final_spelled hm' (h.final_active hact hm').2).toSpelled hf.spelled
        (hf.shared m hm' hact)
  exact ⟨r, s', hrun, hfinds.of_sameActive hsame⟩

/-- **The lookup is right** for a query that every comparison has a result for, only. -/
theorem findsRight_iff : FindsRight o.v29 (cleaned o files st) f ↔ Comparable o.v29 (cleaned o files st) f := by
  constructor
  · rintro hright hv29 m hm htwins
    have ha : active (finalList o st) m = true := htwins.active
    have hspelled := (h.final_spelled hm (h.final_active ha hm).2).toSpelled
    have hrange := (h.final_active ha hm).1
    have hhit : Hit o.v29 f (finalList o st m) := by
      refine ⟨ha, ?_, fun hv => by rw [hv29] at hv; cases hv⟩
      rw [hv29]
      exact (key_eq_iff hspelled hf.spelled).2 ⟨htwins.dir.trans htwins.dotDir.symm, htwins.place⟩
    obtain ⟨r, s', hrun, -, hr⟩ := hright _ .start
    obtain ⟨r', s'', hrun', hfinds⟩ := h.find_key hin hs hf .start
    have heq : some (r, s') = some (r', s'') := hrun.symm.trans hrun'
    cases heq
    cases r with
    | none => exact hfinds m (by omega) (by omega) hhit
    | some j =>
      have hjm := h.hit_unique hs hr.1 hm hfinds.2.2 hhit
      subst hjm
      have hzero : fNameCmp? o.v29 (finalList o st m) f = some 0 := hr.2.1.2.1
      rw [hv29, fNameCmp?_eq hspelled hf.spelled (hf.shared m hm ha),
        if_pos ((overruns_iff hspelled hf.spelled).2 htwins)] at hzero
      cases hzero
  · intro hc s hl
    obtain ⟨hsame, hlist⟩ := h.lookups hin hl
    obtain ⟨r, s', hrun, hfinds⟩ := h.find_key hin hs hf hl
    obtain ⟨-, -, -, -, -, hreads⟩ := flistFind_run o.v29 f hlist
    have hiff : ∀ {j}, j < files.length → active (finalList o st) j = true →
        (IsEntry o.v29 f (finalList o st j) ↔ Hit o.v29 f (finalList o st j)) := fun {j} hj ha =>
      isEntry_iff_hit (h.final_spelled hj (h.final_active ha hj).2).toSpelled hf.spelled (hf.shared j hj ha)
        fun hv => hc hv j hj
    refine ⟨r, s', hrun, hreads, ?_⟩
    cases r with
    | none =>
      intro j hj hentry
      have hrange := (h.final_active hentry.1 hj).1
      exact hfinds j (by omega) (by omega) ((hiff hj hentry.1).1 hentry)
    | some j =>
      have hj : j < files.length := by
        have := hfinds.2.1
        have := h.scanned.prev_lt
        omega
      have hhit := hfinds.2.2
      exact ⟨hj, (hiff hj hhit.1).2 hhit, fun j' hj' hentry =>
        h.hit_unique hs hj hj' hhit ((hiff hj' hentry.1).1 hentry)⟩

end Sorted

/-- **A list whose entries are all found is in order.** -/
theorem stripSorted_of_findsRight (h : ScanDone o files st) (hin : HintsInside (finalList o st))
    (hall : ∀ f, Query (cleaned o files st) f → Comparable o.v29 (cleaned o files st) f →
      FindsRight o.v29 (cleaned o files st) f) : StripSorted o files := by
  by_cases hstrip : o.stripRoot = true
  swap
  · exact fun h => absurd h hstrip
  have hact : ∀ {m}, active (finalList o st) m = active st.sorted m := fun {m} => (finalList_hints o st m).1
  have hlist := h.searchList hin
  have hfinds : ∀ p : ℕ, (st.low : ℤ) ≤ p → (p : ℤ) ≤ st.prev → active (finalList o st) p = true →
      FindsAt o.v29 (((st.prev : ℤ) - st.low).toNat + 2) (((st.prev : ℤ) - st.low).toNat + 2)
        (finalList o st) (finalList o st) st.low st.prev p := by
    intro p _ hp ha
    have hplt : p < files.length := by
      have := h.scanned.prev_lt
      omega
    have hnamed := h.final_spelled hplt (h.final_active ha hplt).2
    -- a stripped "." has no dirname, so it is nobody's twin
    have hdot : ∀ m < files.length, ¬(finalList o st m).DotTwins (finalList o st p) := by
      intro m _ htwins
      obtain ⟨d, hd⟩ := Option.ne_none_iff_exists'.1 htwins.dirname
      have hempty := (hnamed.dot htwins.dot).2 d hd
      rw [(h.sameName hplt (hact.symm.trans ha)).dirname, shown, if_pos hstrip] at hd
      exact strip_dirname hd hempty
    have hshared : ∀ m < files.length, active (finalList o st) m = true →
        Shares (finalList o st m) (finalList o st p) →
        (finalList o st m).dirname.map DirName.str = (finalList o st p).dirname.map DirName.str := by
      intro m hm hma hshares
      rw [Shares] at hshares
      rw [(h.sameName hm (hact.symm.trans hma)).dirname,
        (h.sameName hplt (hact.symm.trans ha)).dirname] at hshares ⊢
      exact shown_shared (h.received.shared _ (sortedNames_mem h.perm hm) _ (sortedNames_mem h.perm hplt)) hshares
    obtain ⟨r, s', hrun, -, hr⟩ := hall _ ⟨hnamed.toSpelled, hshared⟩ (fun _ => hdot) _ .start
    cases r with
    | none => exact absurd (h.isEntry_self hplt ha) (hr p hplt)
    | some j =>
      have hjp := hr.2.2 p hplt (h.isEntry_self hplt ha)
      subst hjp
      exact ⟨s', hrun⟩
  have hasc := ascends_of_finds hlist (.refl _) (show st.prev - st.low < ((st.prev : ℤ) - st.low).toNat + 2 by omega)
    le_rfl le_rfl (by omega) (by omega) hfinds
  refine h.stripSorted fun m m' hlt hm' hma hma' => ?_
  have hrange := h.scanned.mem_range (hlt.trans hm') hma
  have hrange' := h.scanned.mem_range hm' hma'
  obtain ⟨x, hxa, hmx, hxm', hbelow, habove⟩ := hasc m m' (by omega) hlt (by omega) (hact.trans hma) (hact.trans hma')
  have hx : x < files.length := by omega
  have hxa' := hact.symm.trans hxa
  have hgt : m ≠ x → (shown o (sortedNames o files m)).key o.v29 < (shown o (sortedNames o files x)).key o.v29 := by
    intro hne
    have hcmp := h.compares hx (hlt.trans hm') hxa' hma
    have hpos := hbelow hne
    rcases lt_trichotomy ((shown o (sortedNames o files m)).key o.v29)
      ((shown o (sortedNames o files x)).key o.v29) with hlt | heq | hgt
    · exact hlt
    · exact absurd (hcmp.zero.2 heq.symm) hpos.ne'
    · exact absurd (hcmp.neg.2 hgt) hpos.not_gt
  have hlt' : m' ≠ x → (shown o (sortedNames o files x)).key o.v29 < (shown o (sortedNames o files m')).key o.v29 :=
    fun hne => (h.compares hx hm' hxa' hma').neg.1 (habove hne)
  by_cases hmx' : m = x
  · rw [hmx']
    exact hlt' (by omega)
  by_cases hm'x : m' = x
  · rw [hm'x]
    exact hgt hmx'
  · exact (hgt hmx').trans (hlt' hm'x)

end ScanDone

end Lookup

/-! ## Every lookup in a cleaned list -/

theorem nothing_found (o : CleanOpts) (f : ListFile) :
    FindsRight o.v29 ⟨fun _ => .empty, 0, 0, -1⟩ f := by
  intro s _
  exact ⟨none, s, rfl, fun p hp => absurd hp List.not_mem_nil, fun j hj => absurd hj (Nat.not_lt_zero j)⟩

/-- **Looking up a file after `flist_sort_and_clean`.**  The lookups are right for the queries
    that every comparison has a result for, and for no others, exactly where stripping the
    leading slashes leaves the names in order. -/
theorem flistFind_right_iff (o : CleanOpts) (files : List ListFile) (hr : ReceivedList files)
    (hq : o.useQsort = true → Sorts o.v29 files (o.qsort files)) :
    ∃ out, sortAndClean o files = some out ∧
      ((∀ f, Query out f → (FindsRight o.v29 out f ↔ Comparable o.v29 out f)) ↔ StripSorted o files) := by
  by_cases hne : files = []
  · subst hne
    refine ⟨_, rfl, iff_of_true (fun f _ => iff_of_true (nothing_found o f) ?_) ?_⟩
    · exact fun _ m hm => absurd hm (Nat.not_lt_zero m)
    · exact fun _ a _ ha => absurd ha.1 List.not_mem_nil
  · obtain ⟨st, hrun, hready⟩ := sortAndClean_ready hne hr hq
    have hin : HintsInside (finalList o st) := sortAndClean_inside (fun f hf =>
      active_of_named (hr.canonical f (hready.perm.mem_iff.1 hf)).toNamed) hrun
    refine ⟨_, hrun, fun h => ?_, fun hs f hf => hready.findsRight_iff hin hs hf⟩
    exact hready.stripSorted_of_findsRight hin fun f hf hc => (h f hf).2 hc

/-- `/a` and `b`. -/
def slashA : ListFile := ⟨some ⟨1, []⟩, [97], false, false, false, false, 0, 0⟩
def plainB : ListFile := ⟨none, [98], false, false, false, false, 0, 0⟩

theorem slashA_received : ReceivedList [slashA, plainB] := by
  constructor
  · intro f hf
    simp only [List.mem_cons, List.not_mem_nil, or_false] at hf
    rcases hf with rfl | rfl
    · refine ⟨⟨⟨by decide, by decide, by decide, ?_⟩, nofun⟩, nofun⟩
      rintro _ ⟨⟩
      decide
    · exact ⟨⟨⟨by decide, by decide, by decide, nofun⟩, nofun⟩, nofun⟩
  · decide

/-- `rsync -R /a b`: the list is `b`, `a` in the end, where `flist_find` misses one of the two. -/
theorem not_findsRight_slash : ∃ out, sortAndClean relativeOpts [slashA, plainB] = some out ∧
    ¬ ∀ f, Query out f → Comparable true out f → FindsRight true out f := by
  obtain ⟨st, hrun, hready⟩ := sortAndClean_ready (o := relativeOpts) (List.cons_ne_nil slashA [plainB])
    slashA_received nofun
  refine ⟨_, hrun, fun hall => ?_⟩
  have hin : HintsInside (finalList relativeOpts st) := sortAndClean_inside (fun f hf =>
    active_of_named (slashA_received.canonical f (hready.perm.mem_iff.1 hf)).toNamed) hrun
  have hkeeps := hready.stripSorted_of_findsRight hin hall rfl slashA plainB ⟨by decide, .inr (by decide)⟩
    ⟨by decide, .inr (by decide)⟩ (by decide) (by decide)
  exact absurd (hkeeps.1.1 (by decide)) (by decide)

/-- The same list without `-R`. -/
theorem flistFind_right_slash :
    ∃ out, sortAndClean { relativeOpts with stripRoot := false } [slashA, plainB] = some out ∧
      ((∀ f, Query out f → (FindsRight true out f ↔ Comparable true out f)) ↔
        StripSorted { relativeOpts with stripRoot := false } [slashA, plainB]) :=
  flistFind_right_iff _ _ slashA_received nofun

end CloudEdgeBackup
