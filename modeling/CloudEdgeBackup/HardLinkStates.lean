/-
  The states of a group of hard links, and what the functions of `hlink.c` do in them.

  A group is idle, or one of its entries is being transferred, or one is finished
  (`LinkTable.Holds`).  While it is idle the entries that wait are chained from the last one on;
  an entry that comes during a transfer goes in behind the ones that came before it, and in front of
  those that waited already.  Everything that waits is so on the one chain that
  `finish_hard_link` goes along.

  * `checkPrior_spec`: the index before, if it is not up to date, leads to the last entry before
    that was not skipped;
  * `finishLoop_spec`: the loop over a chain, and `LinkTable.Pending.finish` the function;
  * `LinkTable.Hand`: an entry the generator has taken up, which waits, is transferred, is skipped
    or hands over to the one that waited last.
-/
import CloudEdgeBackup.HardLinkQueue

namespace CloudEdgeBackup

namespace LinkTable

variable {c : LinkOrder} {t : LinkTable}

/-! ## Changes of an entry -/

theorem modify_files (i j : ℕ) (f : LinkedFile → LinkedFile) :
    (t.modify i f).files j = if j = i then f (t.files i) else t.files j :=
  Function.update_apply ..

@[simp] theorem modify_self (i : ℕ) (f : LinkedFile → LinkedFile) :
    (t.modify i f).files i = f (t.files i) := Function.update_self ..

theorem modify_of_ne {i j : ℕ} (f : LinkedFile → LinkedFile) (h : j ≠ i) :
    (t.modify i f).files j = t.files j := Function.update_of_ne h ..

theorem setPrev_setPrev (i : ℕ) (y z : ℤ) : (t.setPrev i y).setPrev i z = t.setPrev i z := by
  simp [setPrev, modify]

theorem setPrev_eq {i : ℕ} {z : ℤ} (h : (t.files i).hlPrev = z) : t.setPrev i z = t := by
  subst h
  simp [setPrev, modify]

/-! ## The states of a group -/

/-- The generator has come to the entry. -/
def Past (c : LinkOrder) (t : LinkTable) (i : ℕ) : Prop := i ∈ t.members ∧ c.pos i < t.next

/-- The generator has not come to the entry. -/
def Fresh (c : LinkOrder) (t : LinkTable) (i : ℕ) : Prop := i ∈ t.members ∧ t.next ≤ c.pos i

def Skipped (t : LinkTable) (i : ℕ) : Prop := (t.files i).skipHlink = true

/-- The entry is neither done nor skipped: it waits, or it is transferred. -/
def Waits (c : LinkOrder) (t : LinkTable) (i : ℕ) : Prop :=
  t.Past c i ∧ ¬t.Skipped i ∧ (t.files i).hlinkDone = false

/-- All entries before were skipped. -/
def AllSkipped (c : LinkOrder) (t : LinkTable) (i : ℕ) : Prop :=
  ∀ j ∈ t.members, c.pos j < c.pos i → t.Skipped j

/-- All entries between two were skipped. -/
def Between (c : LinkOrder) (t : LinkTable) (p i : ℕ) : Prop :=
  ∀ j ∈ t.members, c.pos p < c.pos j → c.pos j < c.pos i → t.Skipped j

/-- The group has a path for its entries. -/
def Named (c : LinkOrder) (t : LinkTable) : Prop := c.incRecurse = true ∧ ∃ n, t.node = some (.path n)

/-- An index that leads to the last entry before `i` that was not skipped, if there is one, or
    else to the path of the group. -/
def Near (c : LinkOrder) (t : LinkTable) (i : ℕ) (z : ℤ) : Prop :=
  t.flistForNdx c z = none ∧ (t.Named c ∨ t.AllSkipped c i) ∨
    ∃ p ∈ t.members, z = p ∧ c.pos p < c.pos i ∧ t.firstFlist ≤ c.flistOf p ∧ t.Between c p i

/-- An index is that of the first of a list of entries, or no index. -/
def Heads (z : ℤ) : List ℕ → Prop
  | [] => z < 0
  | j :: _ => z = j

/-- Each entry has the index of the next. -/
def Chain (t : LinkTable) : List ℕ → Prop
  | [] => True
  | i :: rest => Heads (t.files i).hlPrev rest ∧ Chain t rest

/-- What holds of the entries in every state. -/
structure Base (c : LinkOrder) (t : LinkTable) : Prop where
  blank : ∀ i, i ∉ t.members → t.files i = blank
  fresh : ∀ i, t.Fresh c i → (t.files i).hlinkDone = false ∧ (t.files i).fileSent = false ∧ ¬t.Skipped i
  flistOf_lt : ∀ i ∈ t.members, c.flistOf i < t.received
  cur_le : ∀ i, t.Fresh c i → t.curFlist ≤ c.flistOf i
  cur_le_received : t.curFlist ≤ t.received
  first_le : t.firstFlist ≤ t.curFlist
  next_le : t.next = 0 ∨ ∃ j ∈ t.members, t.next ≤ c.pos j + 1
  near : ∀ i, t.Fresh c i ∨ i ∈ t.members ∧ t.Skipped i → t.Near c i (t.files i).hlPrev
  head : ∀ i, t.Fresh c i → (t.files i).hlinkFirst = true →
    (t.files i).hlPrev < 0 ∧ t.AllSkipped c i
  last : ∀ i, t.Fresh c i → (∀ j ∈ t.members, c.pos j ≤ c.pos i) → (t.files i).hlinkLast = true
  plain : c.incRecurse = false → t.firstFlist = 0 ∧ t.node = none ∧ t.curFlist = 0 ∧ t.received ≤ 1

/-- No entry is done.  `all` are those that wait or are transferred, `counted` those of them that
    `in_progress` counts, besides which it may be off by `x`. -/
structure Pending (c : LinkOrder) (t : LinkTable) (x : ℕ → ℤ) (all counted : List ℕ) : Prop where
  base : t.Base c
  node : c.incRecurse = true → t.members = ∅ ∧ t.node = none ∨
    ∃ m ∈ t.members, t.node = some (.last m) ∧ ∀ j ∈ t.members, c.pos j ≤ c.pos m
  waits : ∀ i, i ∈ all ↔ t.Waits c i
  undone : ∀ i ∈ t.members, (t.files i).hlinkDone = false
  live : ∀ i ∈ all, t.firstFlist ≤ c.flistOf i
  counts : c.incRecurse = true → ∀ l, t.inProgress l =
    t.others l + (counted.countP fun i => c.flistOf i = l : ℕ) + x l
  made : t.made = []

/-- Nothing is transferred, and `ws` wait. -/
structure Still (c : LinkOrder) (t : LinkTable) (x : ℕ → ℤ) (ws : List ℕ) : Prop
    extends Pending c t x ws ws where
  order : ws.Pairwise fun i j => c.pos j < c.pos i
  chain : t.Chain ws
  unsent : ∀ i ∈ ws, (t.files i).fileSent = false
  active : t.active = ∅
  hlinkList : t.hlinkList = []

/-- What waits does so for an entry that the generator will come to. -/
structure Idle (c : LinkOrder) (t : LinkTable) (x : ℕ → ℤ) (ws : List ℕ) : Prop
    extends Still c t x ws where
  ahead : ws ≠ [] → ∃ j, t.Fresh c j

/-- The generator has just taken up the entry `i`. -/
structure Hand (c : LinkOrder) (t : LinkTable) (x : ℕ → ℤ) (i : ℕ) (ws : List ℕ) : Prop
    extends Pending c t x (i :: ws) ws where
  order : (i :: ws).Pairwise fun i j => c.pos j < c.pos i
  chain : t.Chain ws
  unsent : ∀ j ∈ ws, (t.files j).fileSent = false
  active : t.active = ∅
  hlinkList : t.hlinkList = []
  near_self : t.Near c i (t.files i).hlPrev
  first : (t.files i).hlinkFirst = true → Heads (t.files i).hlPrev ws
  last_self : ws ≠ [] → (∀ j, ¬t.Fresh c j) → (t.files i).hlinkLast = true

/-- The entry `i` is transferred, `qs` came after it. -/
structure Transfer (c : LinkOrder) (t : LinkTable) (x : ℕ → ℤ) (i : ℕ) (qs ws : List ℕ) : Prop
    extends Pending c t x (i :: qs ++ ws) (i :: qs ++ ws) where
  order : (i :: ws).Pairwise fun i j => c.pos j < c.pos i
  queue : (i :: qs).Pairwise fun i j => c.pos i < c.pos j
  chain : t.Chain (i :: qs ++ ws)
  sent : ∀ j ∈ i :: qs, (t.files j).fileSent = true
  unsent : ∀ j ∈ ws, (t.files j).fileSent = false
  flight : t.active = {i} ∧ t.hlinkList = [] ∨
    t.active = ∅ ∧ (t.hlinkList = [(i : ℤ)] ∨ t.hlinkList = [-2, (i : ℤ)])

/-- The entry `i` is finished. -/
structure Finished (c : LinkOrder) (t : LinkTable) (x : ℕ → ℤ) (i : ℕ) : Prop where
  base : t.Base c
  node : c.incRecurse = true → t.node = some (.path i)
  past : t.Past c i
  unskipped : ¬t.Skipped i
  done : ∀ j, t.Past c j → ¬t.Skipped j → (t.files j).hlinkDone = true
  first : ∀ j, t.Past c j → ¬t.Skipped j → ((t.files j).hlinkFirst = true ↔ j = i)
  linked : ∀ j, t.Past c j → ¬t.Skipped j → j ≠ i → (t.files j).hlPrev = i ∨
    c.incRecurse = true ∧ t.flistForNdx c (t.files j).hlPrev = none
  unnamed : ∀ j, t.Fresh c j → (t.files j).hlinkFirst = false
  counts : c.incRecurse = true → ∀ l, t.inProgress l = t.others l + x l
  active : t.active = ∅
  hlinkList : t.hlinkList = []
  made_nodup : t.made.Nodup
  made : ∀ p, p ∈ t.made ↔ p.2 = i ∧ p.1 ≠ i ∧ t.Past c p.1 ∧ ¬t.Skipped p.1

/-- A state of a group. -/
inductive Holds (c : LinkOrder) (t : LinkTable) (x : ℕ → ℤ) : Prop
  | idle (ws : List ℕ) (h : t.Idle c x ws)
  | transfer (i : ℕ) (qs ws : List ℕ) (h : t.Transfer c x i qs ws)
  | finished (i : ℕ) (h : t.Finished c x i)

/-! ## `check_prior` -/

theorem flistForNdx_eq_some {z : ℤ} {p : ℕ} :
    t.flistForNdx c z = some p ↔ z = p ∧ t.firstFlist ≤ c.flistOf p := by
  unfold flistForNdx
  split_ifs with h
  · rw [Option.some.injEq]
    constructor
    · rintro rfl
      exact ⟨(Int.toNat_of_nonneg h.1).symm, h.2⟩
    · rintro ⟨rfl, -⟩
      exact Int.toNat_natCast p
  · simp only [false_iff, not_and]
    rintro rfl hlive
    exact h ⟨Int.natCast_nonneg p, by rwa [Int.toNat_natCast]⟩

theorem flistForNdx_of_neg {z : ℤ} (h : z < 0) : t.flistForNdx c z = none :=
  if_neg fun h' => absurd h'.1 (not_le.2 h)

theorem neg_of_flistForNdx {z : ℤ} (hfirst : t.firstFlist = 0) (h : t.flistForNdx c z = none) :
    z < 0 := by
  unfold flistForNdx at h
  split_ifs at h with hz
  rw [hfirst] at hz
  omega

/-- What an index leads to. -/
inductive Leads (c : LinkOrder) (t : LinkTable) (i : ℕ) : ℤ → Option ℕ → Prop
  | entry (p : ℕ) (mem : p ∈ t.members) (lt : c.pos p < c.pos i) (live : t.firstFlist ≤ c.flistOf p)
      (unskipped : ¬t.Skipped p) (between : t.Between c p i) : Leads c t i p (some p)
  | none (z : ℤ) (dead : t.flistForNdx c z = none) (all : t.Named c ∨ t.AllSkipped c i) :
      Leads c t i z none

theorem AllSkipped.trans (hc : c.Ok) {p i : ℕ} (h : t.AllSkipped c p) (hp : t.Skipped p)
    (hbetween : t.Between c p i) : t.AllSkipped c i := by
  intro j hj hlt
  rcases lt_trichotomy (c.pos j) (c.pos p) with hjp | hjp | hjp
  · exact h j hj hjp
  · exact hc.inj hjp ▸ hp
  · exact hbetween j hj hjp hlt

theorem Between.trans (hc : c.Ok) {q p i : ℕ} (h : t.Between c q p) (hp : t.Skipped p)
    (hbetween : t.Between c p i) : t.Between c q i := by
  intro j hj hqj hlt
  rcases lt_trichotomy (c.pos j) (c.pos p) with hjp | hjp | hjp
  · exact h j hj hqj hjp
  · exact hc.inj hjp ▸ hp
  · exact hbetween j hj hjp hlt

/-- One goes on from an entry that was skipped. -/
theorem Near.trans (hc : c.Ok) {p i : ℕ} {z : ℤ} (h : t.Near c p z) (hp : t.Skipped p)
    (hlt : c.pos p < c.pos i) (hbetween : t.Between c p i) : t.Near c i z := by
  rcases h with ⟨hdead, hall⟩ | ⟨q, hq, rfl, hqp, hlive, hqb⟩
  · exact .inl ⟨hdead, hall.imp_right fun h => h.trans hc hp hbetween⟩
  · exact .inr ⟨q, hq, rfl, hqp.trans hlt, hlive, hqb.trans hc hp hbetween⟩

theorem priorLoop_spec (hc : c.Ok)
    (hskipped : ∀ p ∈ t.members, t.Skipped p → t.Near c p (t.files p).hlPrev) {i b : ℕ} {z : ℤ}
    (hz : t.Near c i z) (hle : ∀ p, t.flistForNdx c z = some p → c.pos p < b) (hb : b ≤ c.pos i)
    (fuel : ℕ) (hfuel : (t.members.filter fun j => c.pos j < b).card < fuel) :
    ∃ z' found, (t.setPrev i z).priorLoop c i fuel = some (t.setPrev i z', found) ∧
      t.Leads c i z' found := by
  induction fuel generalizing z b with
  | zero => omega
  | succ fuel ih =>
    have hself : ((t.setPrev i z).files i).hlPrev = z := by simp [setPrev]
    rw [priorLoop, hself]
    rcases hz with ⟨hdead, hall⟩ | ⟨p, hp, rfl, hpi, hlive, hbetween⟩
    · have hnone : (t.setPrev i z).flistForNdx c z = none := hdead
      rw [hnone]
      exact ⟨z, none, rfl, .none z hdead hall⟩
    · have hsome : t.flistForNdx c p = some p := flistForNdx_eq_some.2 ⟨rfl, hlive⟩
      have hpb := hle p hsome
      have hne : p ≠ i := fun h => absurd hpi (h ▸ lt_irrefl _)
      have hfile : (t.setPrev i p).files p = t.files p := modify_of_ne _ hne
      rw [show (t.setPrev i p).flistForNdx c p = some p from hsome]
      simp only [hfile, Bool.not_eq_true']
      by_cases hskip : t.Skipped p
      · have hnear := hskipped p hp hskip
        have hcard : (t.members.filter fun j => c.pos j < c.pos p).card <
            (t.members.filter fun j => c.pos j < b).card := by
          refine Finset.card_lt_card ⟨fun j hj => ?_, fun hsub => ?_⟩
          · rw [Finset.mem_filter] at hj ⊢
            exact ⟨hj.1, hj.2.trans hpb⟩
          · exact lt_irrefl _ (Finset.mem_filter.1 (hsub (Finset.mem_filter.2 ⟨hp, hpb⟩))).2
        rw [if_neg (by rw [show (t.files p).skipHlink = true from hskip]; simp), setPrev_setPrev]
        refine ih (hnear.trans hc hskip hpi hbetween) (fun q hq => ?_) hpi.le (by omega)
        rcases hnear with ⟨hdead, -⟩ | ⟨r, hr, hrz, hrp, -, -⟩
        · rw [hdead] at hq
          exact absurd hq (by simp)
        · have hqr := (flistForNdx_eq_some.1 hq).1
          have : q = r := by omega
          exact this ▸ hrp
      · rw [if_pos (by simpa [Skipped] using hskip)]
        exact ⟨p, some p, rfl, .entry p hp hpi hlive hskip hbetween⟩

/-- What `check_prior` gives. -/
inductive Checked (c : LinkOrder) (t : LinkTable) (i : ℕ) : ℤ → Prior → Prop
  | entry (p : ℕ) (mem : p ∈ t.members) (lt : c.pos p < c.pos i) (live : t.firstFlist ≤ c.flistOf p)
      (unskipped : ¬t.Skipped p) (between : t.Between c p i) : Checked c t i p (.entry p)
  | name (z : ℤ) (n : ℕ) (dead : t.flistForNdx c z = none) (rec : c.incRecurse = true)
      (node : t.node = some (.path n)) : Checked c t i z (.name n)
  | none (z : ℤ) (neg : z < 0) (all : t.AllSkipped c i) (unnamed : ¬t.Named c) : Checked c t i z .none

/-- **`check_prior`** goes back to the last entry that was not skipped. -/
theorem checkPrior_spec (hc : c.Ok)
    (hskipped : ∀ p ∈ t.members, t.Skipped p → t.Near c p (t.files p).hlPrev)
    (hplain : c.incRecurse = false → t.firstFlist = 0 ∧ t.node = none ∧ t.curFlist = 0 ∧ t.received ≤ 1)
    (hnode : c.incRecurse = true → t.node ≠ none) {i : ℕ}
    (hi : t.Near c i (t.files i).hlPrev) :
    ∃ z prior, t.checkPrior c i = some (t.setPrev i z, prior) ∧ t.Checked c i z prior := by
  obtain ⟨z, found, hloop, hleads⟩ := priorLoop_spec hc hskipped hi (fun p hp => by
      rcases hi with ⟨hdead, -⟩ | ⟨q, -, hq, hlt, -, -⟩
      · rw [hdead] at hp
        exact absurd hp (by simp)
      · have hpq := (flistForNdx_eq_some.1 hp).1
        have : p = q := by omega
        exact this ▸ hlt) le_rfl (t.members.card + 1)
    (Nat.lt_succ_of_le (Finset.card_le_card (Finset.filter_subset ..)))
  rw [setPrev_eq rfl] at hloop
  unfold checkPrior
  rw [hloop]
  cases hleads with
  | entry p mem lt live unskipped between =>
    exact ⟨p, .entry p, rfl, .entry p mem lt live unskipped between⟩
  | none _ dead all =>
    have hnodes : (t.setPrev i z).node = t.node := rfl
    simp only [Option.bind_eq_bind, Option.bind_some, hnodes]
    by_cases hrec : c.incRecurse = true
    · rcases hn : t.node with _ | ⟨m⟩ | ⟨n⟩
      · exact absurd hn (hnode hrec)
      · have hunnamed : ¬t.Named c := fun ⟨_, n, h⟩ => by
          rw [hn] at h
          exact absurd h (by simp)
        refine ⟨-1, .none, ?_, .none (-1) (by omega) (all.resolve_left hunnamed) hunnamed⟩
        simp [hrec, setPrev_setPrev]
      · exact ⟨z, .name n, by simp [hrec], .name z n dead hrec hn⟩
    · have hrec' : c.incRecurse = false := by simpa using hrec
      obtain ⟨hfirst, hnone, -⟩ := hplain hrec'
      have hunnamed : ¬t.Named c := fun ⟨h, _⟩ => hrec h
      refine ⟨z, .none, by simp [hnone], .none z ?_ (all.resolve_left hunnamed) hunnamed⟩
      exact neg_of_flistForNdx hfirst dead

section

variable {s s' : LinkTable} {i p : ℕ} {o : LinkOutcome}

/-- `hard_link_check` when the path of the group is found. -/
theorem hardLinkCheck_name (h : t.checkPrior c i = some (s, .name p)) :
    t.hardLinkCheck c i o = some (s.linkTo i p o) := by
  rw [hardLinkCheck, h]
  rfl

/-- `hard_link_check` when an entry is found that is the first one done. -/
theorem hardLinkCheck_first (h : t.checkPrior c i = some (s, .entry p))
    (hdone : (s.files p).hlinkDone = true) (hfirst : (s.files p).hlinkFirst = true) :
    t.hardLinkCheck c i o = some (s.linkTo i p o) := by
  rw [hardLinkCheck, h]
  simp [hdone, hfirst]

/-- `hard_link_check` when an entry is found that was linked itself. -/
theorem hardLinkCheck_done (h : t.checkPrior c i = some (s, .entry p))
    (hdone : (s.files p).hlinkDone = true) (hfirst : (s.files p).hlinkFirst = false) {q : ℕ} :
    (s.checkPrior c p = some (s', .entry q) →
      t.hardLinkCheck c i o = some ((s'.setPrev i q).linkTo i q o)) ∧
    (s.checkPrior c p = some (s', .name q) →
      t.hardLinkCheck c i o = some ((s'.setPrev i (-1)).linkTo i q o)) := by
  constructor <;> intro hprior <;> rw [hardLinkCheck, h] <;> simp [hdone, hfirst, hprior]

/-- `hard_link_check` when an entry is found that is transferred or waits behind one. -/
theorem hardLinkCheck_sent (h : t.checkPrior c i = some (s, .entry p))
    (hdone : (s.files p).hlinkDone = false) (hsent : (s.files p).fileSent = true) :
    t.hardLinkCheck c i o = some (((s.modify i fun file =>
      { file with hlPrev := (s.files p).hlPrev, fileSent := true }).setPrev p i).count c i 1, .skip) := by
  rw [hardLinkCheck, h]
  simp [hdone, hsent]

end

/-! ## The loop of `finish_hard_link` -/

/-- What the loop does to a chain of entries. -/
def finishAll (c : LinkOrder) (i : ℕ) (R : List ℕ) (t : LinkTable) : LinkTable :=
  { t with
    files := fun j => if j ∈ R then
      { t.files j with hlinkFirst := false, hlinkDone := true, hlPrev := i } else t.files j
    inProgress := fun l => t.inProgress l - (R.countP fun j => c.flistOf j = l : ℕ)
    made := t.made ++ R.map fun j => (j, i) }

theorem finishOne_files (i j k : ℕ) : (t.finishOne c i j).files k = if k = j then
    { t.files j with hlinkFirst := false, hlinkDone := true, hlPrev := (i : ℤ) } else t.files k :=
  Function.update_apply ..

theorem finishOne_finishAll {i j : ℕ} {R : List ℕ} (hj : j ∉ R) :
    (t.finishOne c i j).finishAll c i R = t.finishAll c i (j :: R) := by
  have hfiles : ∀ k, (if k ∈ R then
      { (t.finishOne c i j).files k with hlinkFirst := false, hlinkDone := true, hlPrev := i }
      else (t.finishOne c i j).files k) = if k ∈ j :: R then
      { t.files k with hlinkFirst := false, hlinkDone := true, hlPrev := (i : ℤ) } else t.files k := by
    intro k
    rw [finishOne_files]
    by_cases hkj : k = j
    · subst hkj
      rw [if_neg hj, if_pos rfl, if_pos List.mem_cons_self]
    · by_cases hk : k ∈ R
      · rw [if_pos hk, if_pos (List.mem_cons_of_mem _ hk), if_neg hkj]
      · rw [if_neg hk, if_neg hkj, if_neg (by simp [hkj, hk])]
  have hcount : ∀ l, (t.finishOne c i j).inProgress l - (R.countP fun k => c.flistOf k = l : ℕ) =
      t.inProgress l - ((j :: R).countP fun k => c.flistOf k = l : ℕ) := by
    intro l
    show Function.update t.inProgress (c.flistOf j) (t.inProgress (c.flistOf j) + -1) l - _ = _
    rw [Function.update_apply, List.countP_cons]
    by_cases hl : l = c.flistOf j
    · simp [hl]
      omega
    · have : ¬c.flistOf j = l := fun h => hl h.symm
      simp [hl, this]
  have hmade : (t.finishOne c i j).made ++ R.map (fun k => (k, i)) =
      t.made ++ (j :: R).map fun k => (k, i) := List.append_assoc ..
  unfold finishAll
  rw [hmade, funext hfiles, funext hcount]
  rfl

theorem Chain.congr {R : List ℕ} {t' : LinkTable} (h : t.Chain R)
    (hfiles : ∀ j ∈ R, (t'.files j).hlPrev = (t.files j).hlPrev) : t'.Chain R := by
  induction R with
  | nil => trivial
  | cons j R ih =>
    exact ⟨by rw [hfiles j List.mem_cons_self]; exact h.1,
      ih h.2 fun k hk => hfiles k (List.mem_cons_of_mem _ hk)⟩

theorem finishLoop_spec {i : ℕ} {R : List ℕ} {z : ℤ} {fuel : ℕ} (hz : Heads z R) (hR : t.Chain R)
    (hnodup : R.Nodup) (hlive : ∀ j ∈ R, t.firstFlist ≤ c.flistOf j) (hfuel : R.length < fuel) :
    finishLoop c i fuel z t = some (t.finishAll c i R) := by
  induction R generalizing z t fuel with
  | nil =>
    obtain ⟨fuel, rfl⟩ := Nat.exists_eq_succ_of_ne_zero (by omega : fuel ≠ 0)
    have hneg : z < 0 := hz
    rw [finishLoop, if_pos hneg]
    simp [finishAll]
  | cons j R ih =>
    obtain ⟨fuel, rfl⟩ := Nat.exists_eq_succ_of_ne_zero (by omega : fuel ≠ 0)
    obtain ⟨hj, hnodup⟩ := List.nodup_cons.1 hnodup
    have hzj : z = j := hz
    subst hzj
    have hsome : t.flistForNdx c j = some j :=
      flistForNdx_eq_some.2 ⟨rfl, hlive j List.mem_cons_self⟩
    have hfiles : ∀ k ∈ R, ((t.finishOne c i j).files k).hlPrev = (t.files k).hlPrev := fun k hk => by
      have hne : k ≠ j := fun h => hj (h ▸ hk)
      rw [finishOne_files, if_neg hne]
    rw [finishLoop, if_neg (by omega), hsome]
    show finishLoop c i fuel _ (t.finishOne c i j) = _
    rw [ih hR.1 (hR.2.congr hfiles) hnodup
      (fun k hk => hlive k (List.mem_cons_of_mem _ hk)) (by simpa using hfuel), finishOne_finishAll hj]

/-! ## What a change keeps -/

/-- Two states that differ in the entries the generator has come to, of which more may be skipped. -/
structure Agrees (c : LinkOrder) (t t' : LinkTable) : Prop where
  members : t'.members = t.members
  next : t'.next = t.next
  received : t'.received = t.received
  curFlist : t'.curFlist = t.curFlist
  firstFlist : t'.firstFlist = t.firstFlist
  named : t.Named c → t'.Named c
  node : c.incRecurse = false → t'.node = t.node
  skipped : ∀ j, t.Skipped j → t'.Skipped j
  files : ∀ j, ¬t.Past c j → t'.files j = t.files j

theorem Agrees.past {t' : LinkTable} (h : Agrees c t t') (i : ℕ) : t'.Past c i ↔ t.Past c i := by
  rw [Past, Past, h.members, h.next]

theorem Agrees.fresh {t' : LinkTable} (h : Agrees c t t') (i : ℕ) : t'.Fresh c i ↔ t.Fresh c i := by
  rw [Fresh, Fresh, h.members, h.next]

theorem Agrees.flistForNdx {t' : LinkTable} (h : Agrees c t t') (z : ℤ) :
    t'.flistForNdx c z = t.flistForNdx c z := by
  rw [LinkTable.flistForNdx, LinkTable.flistForNdx, h.firstFlist]

theorem Agrees.allSkipped {t' : LinkTable} (h : Agrees c t t') {i : ℕ} (hi : t.AllSkipped c i) :
    t'.AllSkipped c i := fun j hj hlt => h.skipped j (hi j (h.members ▸ hj) hlt)

theorem Agrees.near {t' : LinkTable} (h : Agrees c t t') {i : ℕ} {z : ℤ} (hz : t.Near c i z) :
    t'.Near c i z := by
  rcases hz with ⟨hdead, hall⟩ | ⟨p, hp, hz, hlt, hlive, hbetween⟩
  · exact .inl ⟨(h.flistForNdx z).trans hdead, hall.imp h.named h.allSkipped⟩
  · exact .inr ⟨p, h.members ▸ hp, hz, hlt, h.firstFlist ▸ hlive,
      fun j hj hpj hji => h.skipped j (hbetween j (h.members ▸ hj) hpj hji)⟩

theorem Fresh.not_past {i : ℕ} (h : t.Fresh c i) : ¬t.Past c i := fun hp => absurd hp.2 (not_lt.2 h.2)

theorem Base.of_agrees {t' : LinkTable} (hb : t.Base c) (h : Agrees c t t')
    (hnear : ∀ j, t.Past c j → t'.Skipped j → t'.Near c j (t'.files j).hlPrev) : t'.Base c := by
  have hfiles : ∀ {i}, t'.Fresh c i → t'.files i = t.files i := fun hi =>
    h.files _ ((h.fresh _).1 hi).not_past
  refine ⟨fun i hi => ?_, fun i hi => ?_, fun i hi => ?_, fun i hi => ?_, ?_, ?_, ?_,
    fun i hi => ?_, fun i hi hfirst => ?_, fun i hi hle => ?_, fun hrec => ?_⟩
  · rw [h.members] at hi
    rw [h.files i fun hp => hi hp.1]
    exact hb.blank i hi
  · rw [Skipped, hfiles hi]
    exact hb.fresh i ((h.fresh i).1 hi)
  · rw [h.received]
    exact hb.flistOf_lt i (h.members ▸ hi)
  · rw [h.curFlist]
    exact hb.cur_le i ((h.fresh i).1 hi)
  · rw [h.curFlist, h.received]
    exact hb.cur_le_received
  · rw [h.firstFlist, h.curFlist]
    exact hb.first_le
  · rw [h.next, h.members]
    exact hb.next_le
  · by_cases hpast : t.Past c i
    · rcases hi with hi | hi
      · exact absurd hpast ((h.fresh i).1 hi).not_past
      · exact hnear i hpast hi.2
    · rw [h.files i hpast]
      refine h.near (hb.near i ?_)
      rcases hi with hi | hi
      · exact .inl ((h.fresh i).1 hi)
      · rw [h.members] at hi
        exact .inl ⟨hi.1, not_lt.1 fun hlt => hpast ⟨hi.1, hlt⟩⟩
  · rw [hfiles hi] at hfirst ⊢
    exact (hb.head i ((h.fresh i).1 hi) hfirst).imp_right h.allSkipped
  · rw [hfiles hi]
    exact hb.last i ((h.fresh i).1 hi) (h.members ▸ hle)
  · rw [h.firstFlist, h.node hrec, h.curFlist, h.received]
    exact hb.plain hrec

theorem past_or_fresh {i : ℕ} (h : i ∈ t.members) : t.Past c i ∨ t.Fresh c i := by
  rcases lt_or_ge (c.pos i) t.next with hlt | hle
  · exact .inl ⟨h, hlt⟩
  · exact .inr ⟨h, hle⟩

theorem Agrees.refl (c : LinkOrder) (t : LinkTable) : Agrees c t t :=
  ⟨rfl, rfl, rfl, rfl, rfl, id, fun _ => rfl, fun _ => id, fun _ _ => rfl⟩

/-- A change of an entry the generator has come to. -/
theorem Agrees.modify {t' : LinkTable} (h : Agrees c t t') {i : ℕ} (hi : t.Past c i)
    {f : LinkedFile → LinkedFile} (hf : ∀ file : LinkedFile, file.skipHlink = true → (f file).skipHlink = true) :
    Agrees c t (t'.modify i f) := by
  refine ⟨h.members, h.next, h.received, h.curFlist, h.firstFlist, h.named, h.node,
    fun j hj => ?_, fun j hj => ?_⟩
  · have hj' := h.skipped j hj
    rw [Skipped, modify_files]
    split_ifs with hji
    · subst hji
      exact hf _ hj'
    · exact hj'
  · have hne : j ≠ i := fun hji => hj (hji ▸ hi)
    rw [modify_of_ne _ hne]
    exact h.files j hj

theorem Agrees.setPrev {t' : LinkTable} (h : Agrees c t t') {i : ℕ} (hi : t.Past c i) (z : ℤ) :
    Agrees c t (t'.setPrev i z) := h.modify hi fun _ h => h

theorem Agrees.count {t' : LinkTable} (h : Agrees c t t') (i : ℕ) (d : ℤ) :
    Agrees c t (t'.count c i d) :=
  ⟨h.members, h.next, h.received, h.curFlist, h.firstFlist, h.named, h.node, h.skipped, h.files⟩

/-! ## An entry in hand -/

section Pending

variable {x : ℕ → ℤ} {all counted : List ℕ}

theorem Pending.unnamed (h : t.Pending c x all counted) : ¬t.Named c := by
  rintro ⟨hrec, n, hn⟩
  rcases h.node hrec with ⟨-, hnode⟩ | ⟨m, -, hnode, -⟩
  all_goals rw [hn] at hnode; exact absurd hnode (by simp)

theorem Pending.node_ne (h : t.Pending c x all counted) {i : ℕ} (hi : i ∈ t.members) :
    c.incRecurse = true → t.node ≠ none := by
  intro hrec hnone
  rcases h.node hrec with ⟨hmem, -⟩ | ⟨m, -, hnode, -⟩
  · rw [hmem] at hi
    exact absurd hi (Finset.notMem_empty i)
  · rw [hnone] at hnode
    exact absurd hnode (by simp)

/-- An entry before one the generator has come to either was skipped or waits. -/
theorem Pending.skipped_or (h : t.Pending c x all counted) {i j : ℕ} (hi : t.Past c i)
    (hj : j ∈ t.members) (hlt : c.pos j < c.pos i) : t.Skipped j ∨ j ∈ all := by
  by_cases hskip : t.Skipped j
  · exact .inl hskip
  · exact .inr ((h.waits j).2 ⟨⟨hj, hlt.trans hi.2⟩, hskip, h.undone j hj⟩)

/-- The index of the one that waited last leads there. -/
theorem Pending.near_of_heads {ws : List ℕ} {i : ℕ} {z : ℤ}
    (h : t.Pending c x (i :: ws) counted) (horder : (i :: ws).Pairwise fun i j => c.pos j < c.pos i)
    (hz : Heads z ws) : t.Near c i z := by
  have hi := ((h.waits i).1 List.mem_cons_self).1
  cases ws with
  | nil =>
    refine .inl ⟨flistForNdx_of_neg hz, .inr fun j hj hlt => ?_⟩
    refine (h.skipped_or hi hj hlt).resolve_right fun hmem => ?_
    rw [List.mem_singleton] at hmem
    exact lt_irrefl _ (hmem ▸ hlt)
  | cons q ws =>
    obtain ⟨hfirst, hrest⟩ := List.pairwise_cons.1 horder
    have hq : q ∈ i :: q :: ws := by simp
    refine .inr ⟨q, ((h.waits q).1 hq).1.1, hz, hfirst q List.mem_cons_self, h.live q hq,
      fun j hj hqj hji => ?_⟩
    refine (h.skipped_or hi hj hji).resolve_right fun hmem => ?_
    rw [List.mem_cons, List.mem_cons] at hmem
    rcases hmem with rfl | rfl | hmem
    · exact lt_irrefl _ hji
    · exact lt_irrefl _ hqj
    · exact absurd hqj (not_lt.2 ((List.pairwise_cons.1 hrest).1 j hmem).le)

/-- The entry that waited last. -/
def lastOf : List ℕ → Prior
  | [] => .none
  | p :: _ => .entry p

/-- `check_prior` finds the entry that waited last. -/
theorem Pending.checkPrior (hc : c.Ok) {i : ℕ} (h : t.Pending c x all counted) (ws : List ℕ)
    (hws : ∀ j ∈ t.members, c.pos j < c.pos i → ¬t.Skipped j → j ∈ ws)
    (horder : ws.Pairwise fun i j => c.pos j < c.pos i)
    (hbefore : ∀ j ∈ ws, t.Waits c j ∧ c.pos j < c.pos i)
    (hi : i ∈ t.members) (hnear : t.Near c i (t.files i).hlPrev) :
    ∃ z, Heads z ws ∧ t.Near c i z ∧ t.checkPrior c i = some (t.setPrev i z, lastOf ws) := by
  obtain ⟨z, prior, hprior, hchecked⟩ := checkPrior_spec hc
    (fun p hp hskip => h.base.near p (.inr ⟨hp, hskip⟩)) h.base.plain (h.node_ne hi) hnear
  refine ⟨z, ?_⟩
  rw [hprior]
  cases hchecked with
  | entry p mem lt live unskipped between =>
    have hp : p ∈ ws := hws p mem lt unskipped
    cases ws with
    | nil => exact absurd hp (by simp)
    | cons q ws =>
      have hpq : p = q := by
        by_contra hne
        have hmem := (List.mem_cons.1 hp).resolve_left hne
        have hq := hbefore q List.mem_cons_self
        exact hq.1.2.1 (between q hq.1.1.1 ((List.pairwise_cons.1 horder).1 p hmem) hq.2)
      exact ⟨congrArg Nat.cast hpq, .inr ⟨p, mem, rfl, lt, live, between⟩, by rw [hpq, lastOf]⟩
  | name _ n dead rec node => exact absurd ⟨rec, n, node⟩ h.unnamed
  | none _ neg all' unnamed =>
    cases ws with
    | nil => exact ⟨neg, .inl ⟨flistForNdx_of_neg neg, .inr all'⟩, rfl⟩
    | cons q ws =>
      have hq := hbefore q List.mem_cons_self
      exact absurd (all' q hq.1.1.1 hq.2) hq.1.2.1

end Pending

/-- A change of an entry in a field that nothing depends on keeps the others. -/
theorem field_modify {α : Type} (g : LinkedFile → α) {f : LinkedFile → LinkedFile}
    (h : ∀ file, g (f file) = g file) (i j : ℕ) : g ((t.modify i f).files j) = g (t.files j) := by
  rw [modify_files]
  split_ifs with hij
  · rw [h, hij]
  · rfl

@[simp] theorem setPrev_skipHlink (i j : ℕ) (z : ℤ) :
    ((t.setPrev i z).files j).skipHlink = (t.files j).skipHlink :=
  field_modify LinkedFile.skipHlink (f := fun file => { file with hlPrev := z }) (fun _ => rfl) i j

@[simp] theorem setPrev_hlinkDone (i j : ℕ) (z : ℤ) :
    ((t.setPrev i z).files j).hlinkDone = (t.files j).hlinkDone :=
  field_modify LinkedFile.hlinkDone (f := fun file => { file with hlPrev := z }) (fun _ => rfl) i j

@[simp] theorem setPrev_fileSent (i j : ℕ) (z : ℤ) :
    ((t.setPrev i z).files j).fileSent = (t.files j).fileSent :=
  field_modify LinkedFile.fileSent (f := fun file => { file with hlPrev := z }) (fun _ => rfl) i j

@[simp] theorem setPrev_hlinkFirst (i j : ℕ) (z : ℤ) :
    ((t.setPrev i z).files j).hlinkFirst = (t.files j).hlinkFirst :=
  field_modify LinkedFile.hlinkFirst (f := fun file => { file with hlPrev := z }) (fun _ => rfl) i j

@[simp] theorem setPrev_hlinkLast (i j : ℕ) (z : ℤ) :
    ((t.setPrev i z).files j).hlinkLast = (t.files j).hlinkLast :=
  field_modify LinkedFile.hlinkLast (f := fun file => { file with hlPrev := z }) (fun _ => rfl) i j

@[simp] theorem setPrev_hlPrev_self (i : ℕ) (z : ℤ) : ((t.setPrev i z).files i).hlPrev = z := by
  simp [setPrev]

theorem setPrev_of_ne {i j : ℕ} (z : ℤ) (h : j ≠ i) : (t.setPrev i z).files j = t.files j :=
  modify_of_ne _ h

theorem Near.setPrev {i j : ℕ} {y z : ℤ} (h : t.Near c i z) : (t.setPrev j y).Near c i z := by
  have hskip : ∀ k, t.Skipped k → (t.setPrev j y).Skipped k := fun k hk =>
    (setPrev_skipHlink ..).trans hk
  rcases h with ⟨hdead, hall⟩ | ⟨p, hp, hz, hlt, hlive, hbetween⟩
  · exact .inl ⟨hdead, hall.imp_right fun h k hk hki => hskip k (h k hk hki)⟩
  · exact .inr ⟨p, hp, hz, hlt, hlive, fun k hk hpk hki => hskip k (hbetween k hk hpk hki)⟩

theorem Agrees.waits {t' : LinkTable} (h : Agrees c t t') {i : ℕ}
    (hskip : (t'.files i).skipHlink = (t.files i).skipHlink)
    (hdone : (t'.files i).hlinkDone = (t.files i).hlinkDone) : t'.Waits c i ↔ t.Waits c i := by
  rw [Waits, Waits, h.past, Skipped, Skipped, hskip, hdone]

section Hand

variable {x : ℕ → ℤ} {i : ℕ} {ws : List ℕ}

theorem Hand.past (h : t.Hand c x i ws) : t.Past c i := ((h.waits i).1 List.mem_cons_self).1

theorem Hand.unskipped (h : t.Hand c x i ws) : ¬t.Skipped i :=
  ((h.waits i).1 List.mem_cons_self).2.1

theorem Hand.ne (h : t.Hand c x i ws) {j : ℕ} (hj : j ∈ ws) : j ≠ i := fun hji =>
  lt_irrefl _ (hji ▸ (List.pairwise_cons.1 h.order).1 j hj)

/-- The index before is set to that of the one that waited last. -/
theorem Hand.setPrev (h : t.Hand c x i ws) {z : ℤ} (hz : Heads z ws) :
    (t.setPrev i z).Hand c x i ws := by
  have ha : Agrees c t (t.setPrev i z) := (Agrees.refl c t).modify h.past fun _ h => h
  have hnear : t.Near c i z := h.near_of_heads h.order hz
  refine
    { base := h.base.of_agrees ha fun j hj hskip => ?_
      node := h.node
      waits := fun j => (h.waits j).trans (ha.waits (by simp) (by simp)).symm
      undone := fun j hj => by simpa using h.undone j hj
      live := h.live
      counts := h.counts
      made := h.made
      order := h.order
      chain := h.chain.congr fun j hj => by rw [setPrev_of_ne _ (h.ne hj)]
      unsent := fun j hj => by simpa using h.unsent j hj
      active := h.active
      hlinkList := h.hlinkList
      near_self := ha.near (by simpa using hnear)
      first := fun _ => by simpa using hz
      last_self := fun hne hfresh => by simpa using h.last_self hne hfresh }
  · have hskip' : t.Skipped j := by simpa [Skipped] using hskip
    have hji : j ≠ i := fun hji => h.unskipped (hji ▸ hskip')
    rw [setPrev_of_ne _ hji]
    exact ha.near (h.base.near j (.inr ⟨hj.1, hskip'⟩))

/-- `hard_link_check` has no entry to wait for or to link to. -/
theorem Hand.hardLinkCheck (hc : c.Ok) (h : t.Hand c x i ws) (o : LinkOutcome) :
    ∃ z, Heads z ws ∧ t.hardLinkCheck c i o = some (t.setPrev i z, .process) := by
  obtain ⟨hbefore, horder⟩ := List.pairwise_cons.1 h.order
  obtain ⟨z, hz, -, hprior⟩ := h.checkPrior hc ws (fun j hj hlt hskip => by
      refine (List.mem_cons.1 ((h.skipped_or h.past hj hlt).resolve_left hskip)).resolve_left ?_
      rintro rfl
      exact lt_irrefl _ hlt) horder
    (fun j hj => ⟨(h.waits j).1 (List.mem_cons_of_mem _ hj), hbefore j hj⟩) h.past.1 h.near_self
  refine ⟨z, hz, ?_⟩
  unfold LinkTable.hardLinkCheck
  rw [hprior]
  cases ws with
  | nil => rfl
  | cons p ws =>
    have hp : p ∈ i :: p :: ws := by simp
    have hdone := h.undone p ((h.waits p).1 hp).1.1
    have hsent := h.unsent p List.mem_cons_self
    simp [lastOf, hdone, hsent]

/-- The entry waits for a later one. -/
theorem Hand.idle (h : t.Hand c x i ws) (hz : Heads (t.files i).hlPrev ws)
    (hsent : (t.files i).fileSent = false) (hahead : ∃ j, t.Fresh c j) :
    (t.count c i 1).Idle c x (i :: ws) := by
  refine
    { base := h.base.of_agrees ((Agrees.refl c t).count i 1) fun j hj hskip =>
        ((Agrees.refl c t).count i 1).near (h.base.near j (.inr ⟨hj.1, hskip⟩))
      node := h.node
      waits := h.waits
      undone := h.undone
      live := h.live
      counts := fun hrec l => ?_
      made := h.made
      order := h.order
      chain := ⟨hz, h.chain.congr fun _ _ => rfl⟩
      unsent := fun j hj => ?_
      active := h.active
      hlinkList := h.hlinkList
      ahead := fun _ => hahead }
  · show Function.update t.inProgress (c.flistOf i) (t.inProgress (c.flistOf i) + 1) l = t.others l + _ + x l
    rw [Function.update_apply, List.countP_cons]
    have hl := h.counts hrec l
    by_cases hli : l = c.flistOf i
    · subst hli
      simp
      omega
    · simp [hli, Ne.symm hli]
      omega
  · rcases List.mem_cons.1 hj with rfl | hj
    · exact hsent
    · exact h.unsent j hj

theorem notifyOthers_files (i j : ℕ) : (t.notifyOthers c i).files j =
    if j = i then { t.files i with fileSent := true } else t.files j := by
  have hrequest : ∀ s : LinkTable, (s.request i).files j =
      if j = i then { s.files i with fileSent := true } else s.files j := fun s =>
    Function.update_apply ..
  rw [notifyOthers, hrequest]
  cases c.incRecurse <;> rfl

theorem Agrees.request {t' : LinkTable} (h : Agrees c t t') {i : ℕ} (hi : t.Past c i) :
    Agrees c t (t'.request i) :=
  have h' := h.modify hi (f := fun file => { file with fileSent := true }) fun _ h => h
  ⟨h'.members, h'.next, h'.received, h'.curFlist, h'.firstFlist, h'.named, h'.node, h'.skipped, h'.files⟩

/-- The receiver is asked for the entry. -/
theorem Hand.transfer (h : t.Hand c x i ws) (hz : Heads (t.files i).hlPrev ws) :
    (t.notifyOthers c i).Transfer c x i [] ws := by
  have hfiles := notifyOthers_files (c := c) (t := t) i
  have hprev : ∀ j, ((t.notifyOthers c i).files j).hlPrev = (t.files j).hlPrev := fun j => by
    rw [hfiles]
    split_ifs with hji
    · rw [hji]
    · rfl
  have hdone : ∀ j, ((t.notifyOthers c i).files j).hlinkDone = (t.files j).hlinkDone := fun j => by
    rw [hfiles]
    split_ifs with hji
    · rw [hji]
    · rfl
  have hskip : ∀ j, ((t.notifyOthers c i).files j).skipHlink = (t.files j).skipHlink := fun j => by
    rw [hfiles]
    split_ifs with hji
    · rw [hji]
    · rfl
  have ha : Agrees c t (t.notifyOthers c i) := by
    unfold notifyOthers
    split_ifs
    · exact ((Agrees.refl c t).count i 1).request h.past
    · exact (Agrees.refl c t).request h.past
  refine
    { base := h.base.of_agrees ha fun j hj hj' => ?_
      node := ?_
      waits := fun j => (h.waits j).trans (ha.waits (hskip j) (hdone j)).symm
      undone := fun j hj => (hdone j).trans (h.undone j (ha.members ▸ hj))
      live := fun j hj => ha.firstFlist ▸ h.live j hj
      counts := fun hrec l => ?_
      made := ?_
      order := h.order
      queue := List.pairwise_singleton ..
      chain := ⟨by rw [hprev]; exact hz, h.chain.congr fun j _ => hprev j⟩
      sent := fun j hj => by rw [List.mem_singleton.1 hj, hfiles, if_pos rfl]
      unsent := fun j hj => by rw [hfiles, if_neg (h.ne hj)]; exact h.unsent j hj
      flight := .inl ⟨?_, ?_⟩ }
  · rw [Skipped, hskip] at hj'
    rw [hprev]
    exact ha.near (h.base.near j (.inr ⟨hj.1, hj'⟩))
  · unfold notifyOthers
    split_ifs <;> exact h.node
  · unfold notifyOthers
    rw [if_pos hrec]
    show Function.update t.inProgress (c.flistOf i) (t.inProgress (c.flistOf i) + 1) l = t.others l + _ + x l
    rw [Function.update_apply, List.cons_append, List.nil_append, List.countP_cons]
    have hl := h.counts hrec l
    by_cases hli : l = c.flistOf i
    · subst hli
      simp
      omega
    · simp [hli, Ne.symm hli]
      omega
  · unfold notifyOthers
    split_ifs <;> exact h.made
  · unfold notifyOthers
    split_ifs <;> exact (congrArg (insert i) h.active).trans (by simp)
  · unfold notifyOthers
    split_ifs <;> exact h.hlinkList

/-- A chain of entries that wait is no longer than the group. -/
theorem Pending.length_lt {all counted R : List ℕ} (h : t.Pending c x all counted) (hR : R ⊆ all)
    (hnodup : R.Nodup) : R.length < t.members.card + 1 := by
  refine Nat.lt_succ_of_le ?_
  rw [← List.toFinset_card_of_nodup hnodup]
  exact Finset.card_le_card fun j hj => ((h.waits j).1 (hR (List.mem_toFinset.1 hj))).1.1

/-- What `finish_hard_link` leaves: `i` is the first that is done, and `R` are linked to it. -/
def settled (c : LinkOrder) (t : LinkTable) (i : ℕ) (R : List ℕ) (altDest : ℤ) : LinkTable :=
  let t₁ := (t.modify i fun file =>
    { file with hlinkFirst := true, hlinkDone := true, hlPrev := altDest }).finishAll c i R
  { t₁ with node := if c.incRecurse then some (.path i) else t.node }

theorem settled_files {i : ℕ} {R : List ℕ} (hi : i ∉ R) (altDest : ℤ) (j : ℕ) :
    (t.settled c i R altDest).files j = if j ∈ R then
      { t.files j with hlinkFirst := false, hlinkDone := true, hlPrev := (i : ℤ) }
      else if j = i then { t.files i with hlinkFirst := true, hlinkDone := true, hlPrev := altDest }
      else t.files j := by
  show (if j ∈ R then _ else (t.modify i _).files j) = _
  rw [modify_files]
  by_cases hj : j ∈ R
  · have hji : j ≠ i := fun hji => hi (hji ▸ hj)
    rw [if_pos hj, if_pos hj, if_neg hji]
  · rw [if_neg hj, if_neg hj]

/-- The loop and the node of the group, which has no path yet. -/
theorem Pending.finishHardLink_eq {counted R : List ℕ} {i : ℕ} (h : t.Pending c x (i :: R) counted)
    (hnodup : (i :: R).Nodup) (hchain : t.Chain R) (hz : Heads (t.files i).hlPrev R) {stp statOk : Bool}
    (hok : stp = true ∨ statOk = true) (altDest : ℤ) :
    t.finishHardLink c i stp statOk altDest = some (t.settled c i R altDest) := by
  obtain ⟨hi, hnodupR⟩ := List.nodup_cons.1 hnodup
  let t₁ := t.modify i fun file =>
    { file with hlinkFirst := true, hlinkDone := true, hlPrev := altDest }
  have ht₁ : ∀ j ∈ R, t₁.files j = t.files j := fun j hj => modify_of_ne _ fun hji => hi (hji ▸ hj)
  have hloop : finishLoop c i (t.members.card + 1) (t.files i).hlPrev t₁ = some (t₁.finishAll c i R) :=
    finishLoop_spec hz (hchain.congr fun j hj => by rw [ht₁ j hj]) hnodupR
      (fun j hj => h.live j (List.mem_cons_of_mem _ hj)) (h.length_lt (by simp) hnodupR)
  have hnode : (t₁.finishAll c i R).node = t.node := rfl
  unfold finishHardLink
  dsimp only
  rw [if_neg (by rcases hok with hok | hok <;> simp [hok]), hloop, Option.bind_eq_bind, Option.bind_some]
  by_cases hrec : c.incRecurse = true
  · rcases h.node hrec with ⟨hmem, -⟩ | ⟨m, -, hm, -⟩
    · have hmember := ((h.waits i).1 List.mem_cons_self).1.1
      rw [hmem] at hmember
      exact absurd hmember (Finset.notMem_empty i)
    · rw [if_pos hrec, hnode, hm]
      simp only [settled, hrec, if_true]
      rfl
  · rw [if_neg hrec]
    simp only [settled, hrec, if_false, Bool.false_eq_true]
    rfl

/-- What is settled is finished. -/
theorem Pending.finished_settled {counted R : List ℕ} {i : ℕ} (h : t.Pending c x (i :: R) counted)
    (hnodup : (i :: R).Nodup) (hactive : t.active = ∅) (hlist : t.hlinkList = []) (altDest : ℤ) :
    (t.settled c i R altDest).Finished c
      (fun l => x l + (counted.countP fun j => c.flistOf j = l : ℕ) -
        (R.countP fun j => c.flistOf j = l : ℕ)) i := by
  obtain ⟨hi, hnodupR⟩ := List.nodup_cons.1 hnodup
  obtain ⟨hpast, hunskipped, -⟩ := (h.waits i).1 List.mem_cons_self
  have hne : ∀ j ∈ R, j ≠ i := fun j hj hji => hi (hji ▸ hj)
  have hfiles := settled_files (c := c) (t := t) hi altDest
  have hskip : ∀ j, ((t.settled c i R altDest).files j).skipHlink = (t.files j).skipHlink := fun j => by
    rw [hfiles]
    split_ifs with hj hji
    · rfl
    · rw [hji]
    · rfl
  have ha : Agrees c t (t.settled c i R altDest) := by
    refine ⟨rfl, rfl, rfl, rfl, rfl, fun hn => absurd hn h.unnamed, fun hrec => ?_,
      fun j hj => (hskip j).trans hj, fun j hj => ?_⟩
    · simp only [settled, hrec, Bool.false_eq_true, if_false]
    · have hjR : j ∉ R := fun hjR => hj ((h.waits j).1 (List.mem_cons_of_mem _ hjR)).1
      have hji : j ≠ i := fun hji => hj (hji ▸ hpast)
      rw [hfiles, if_neg hjR, if_neg hji]
  have hall : ∀ j, (t.settled c i R altDest).Past c j → ¬(t.settled c i R altDest).Skipped j → j ∈ i :: R :=
    fun j hj hj' => (h.waits j).2 ⟨hj, fun hs => hj' ((hskip j).trans hs), h.undone j hj.1⟩
  refine
    { base := h.base.of_agrees ha fun j hj hj' => ?_
      node := fun hrec => by simp only [settled, hrec, if_true]
      past := hpast
      unskipped := fun hs => hunskipped ((hskip i).symm.trans hs)
      done := fun j hj hj' => ?_
      first := fun j hj hj' => ?_
      linked := fun j hj hj' hji => .inl ?_
      unnamed := fun j hj => ?_
      counts := fun hrec l => ?_
      active := hactive
      hlinkList := hlist
      made_nodup := ?_
      made := fun p => ?_ }
  · have hj'' : t.Skipped j := (hskip j).symm.trans hj'
    have hjR : j ∉ R := fun hjR => ((h.waits j).1 (List.mem_cons_of_mem _ hjR)).2.1 hj''
    have hji : j ≠ i := fun hji => hunskipped (hji ▸ hj'')
    rw [hfiles, if_neg hjR, if_neg hji]
    exact ha.near (h.base.near j (.inr ⟨hj.1, hj''⟩))
  · rw [hfiles]
    rcases List.mem_cons.1 (hall j hj hj') with hji | hjR
    · rw [if_neg (hji ▸ hi), if_pos hji]
    · rw [if_pos hjR]
  · rw [hfiles]
    rcases List.mem_cons.1 (hall j hj hj') with hji | hjR
    · rw [if_neg (hji ▸ hi), if_pos hji]
      exact ⟨fun _ => hji, fun _ => rfl⟩
    · rw [if_pos hjR]
      exact ⟨fun h => absurd h (by simp), fun h => absurd h (hne j hjR)⟩
  · rw [hfiles, if_pos ((List.mem_cons.1 (hall j hj hj')).resolve_left hji)]
  · have hfresh := (ha.fresh j).1 hj
    rw [ha.files j hfresh.not_past]
    by_contra hfirst
    exact hunskipped ((h.base.head j hfresh (by simpa using hfirst)).2 i hpast.1
      (hpast.2.trans_le hfresh.2))
  · show t.inProgress l - _ = t.others l + _
    rw [h.counts hrec l]
    omega
  · show (t.made ++ R.map fun j => (j, i)).Nodup
    rw [h.made, List.nil_append]
    exact hnodupR.map fun a b hab => congrArg Prod.fst hab
  · show p ∈ t.made ++ R.map (fun j => (j, i)) ↔ _
    rw [h.made, List.nil_append, List.mem_map]
    constructor
    · rintro ⟨j, hj, rfl⟩
      have hw := (h.waits j).1 (List.mem_cons_of_mem _ hj)
      exact ⟨rfl, hne j hj, hw.1, fun hs => hw.2.1 ((hskip j).symm.trans hs)⟩
    · rintro ⟨hp, hpi, hpast', hskip'⟩
      exact ⟨p.1, (List.mem_cons.1 (hall _ hpast' hskip')).resolve_left hpi, Prod.ext rfl hp.symm⟩

/-- **`finish_hard_link`** for an entry that all others that wait are chained to. -/
theorem Pending.finish {counted R : List ℕ} {i : ℕ} (h : t.Pending c x (i :: R) counted)
    (hnodup : (i :: R).Nodup) (hchain : t.Chain R) (hz : Heads (t.files i).hlPrev R)
    (hactive : t.active = ∅) (hlist : t.hlinkList = []) (stp statOk : Bool)
    (hok : stp = true ∨ statOk = true) (altDest : ℤ) :
    ∃ t', t.finishHardLink c i stp statOk altDest = some t' ∧ t'.Finished c
      (fun l => x l + (counted.countP fun j => c.flistOf j = l : ℕ) -
        (R.countP fun j => c.flistOf j = l : ℕ)) i :=
  ⟨_, h.finishHardLink_eq hnodup hchain hz hok altDest,
    h.finished_settled hnodup hactive hlist altDest⟩

/-- The state after the entry in hand was skipped. -/
theorem Hand.still (h : t.Hand c x i ws) {t' : LinkTable}
    (hfiles : ∀ j, j ≠ i → t'.files j = t.files j) (hi : t'.Skipped i)
    (hdone : (t'.files i).hlinkDone = (t.files i).hlinkDone)
    (hnear : t'.Near c i (t'.files i).hlPrev) (ha : Agrees c t t')
    (hsame : t' = { t with files := t'.files }) : t'.Still c x ws := by
  refine
    { base := h.base.of_agrees ha fun j hj hj' => ?_
      node := by rw [hsame]; exact h.node
      waits := fun j => ?_
      undone := fun j hj => ?_
      live := fun j hj => ha.firstFlist ▸ h.live j (List.mem_cons_of_mem _ hj)
      counts := by rw [hsame]; exact h.counts
      made := by rw [hsame]; exact h.made
      order := (List.pairwise_cons.1 h.order).2
      chain := h.chain.congr fun j hj => by rw [hfiles j (h.ne hj)]
      unsent := fun j hj => by rw [hfiles j (h.ne hj)]; exact h.unsent j hj
      active := by rw [hsame]; exact h.active
      hlinkList := by rw [hsame]; exact h.hlinkList }
  · by_cases hji : j = i
    · exact hji ▸ hnear
    · rw [Skipped, hfiles j hji] at hj'
      rw [hfiles j hji]
      exact ha.near (h.base.near j (.inr ⟨hj.1, hj'⟩))
  · by_cases hji : j = i
    · subst hji
      exact ⟨fun hj => absurd rfl (h.ne hj), fun hw => absurd hi hw.2.1⟩
    · rw [ha.waits (by rw [hfiles j hji]) (by rw [hfiles j hji]), ← h.waits j]
      exact ⟨List.mem_cons_of_mem _, fun hj => (List.mem_cons.1 hj).resolve_left hji⟩
  · rw [ha.members] at hj
    by_cases hji : j = i
    · rw [hji, hdone]
      exact h.undone i h.past.1
    · rw [hfiles j hji]
      exact h.undone j hj

/-- The entry that waited last is now the last one, and the generator takes it up again. -/
theorem Still.takeUp (h : t.Still c x (i :: ws)) :
    ((t.modify i fun file => { file with hlinkLast := true }).count c i (-1)).Hand c x i ws := by
  let t' := t.modify i fun file => { file with hlinkLast := true }
  have hkeep : ∀ {α : Type} (g : LinkedFile → α)
      (_ : ∀ file : LinkedFile, g { file with hlinkLast := true } = g file) (j : ℕ),
      g (t'.files j) = g (t.files j) := fun g hg j => field_modify g hg i j
  have hprev := hkeep LinkedFile.hlPrev fun _ => rfl
  have hskip := hkeep LinkedFile.skipHlink fun _ => rfl
  have hdone := hkeep LinkedFile.hlinkDone fun _ => rfl
  have hsent := hkeep LinkedFile.fileSent fun _ => rfl
  have hpast := ((h.waits i).1 List.mem_cons_self).1
  have ha' : Agrees c t t' := (Agrees.refl c t).modify hpast fun _ h => h
  have ha : Agrees c t (t'.count c i (-1)) := ha'.count i (-1)
  have hself : (t'.files i).hlinkLast = true := by rw [modify_self]
  have hheads : Heads (t'.files i).hlPrev ws := (hprev i).symm ▸ h.chain.1
  refine
    { base := h.base.of_agrees ha fun j hj hj' => ?_
      node := h.node
      waits := fun j => (h.waits j).trans (ha.waits (hskip j) (hdone j)).symm
      undone := fun j hj => (hdone j).trans (h.undone j hj)
      live := h.live
      counts := fun hrec l => ?_
      made := h.made
      order := h.order
      chain := h.chain.2.congr fun j _ => hprev j
      unsent := fun j hj => (hsent j).trans (h.unsent j (List.mem_cons_of_mem _ hj))
      active := h.active
      hlinkList := h.hlinkList
      near_self := ha.near (h.near_of_heads h.order hheads)
      first := fun _ => hheads
      last_self := fun _ _ => hself }
  · show (t'.count c i (-1)).Near c j (t'.files j).hlPrev
    rw [hprev]
    exact ha.near (h.base.near j (.inr ⟨hj.1, (hskip j).symm.trans hj'⟩))
  · show Function.update t.inProgress (c.flistOf i) (t.inProgress (c.flistOf i) + -1) l =
      t.others l + _ + x l
    have hl := h.counts hrec l
    rw [List.countP_cons] at hl
    rw [Function.update_apply]
    by_cases hli : l = c.flistOf i
    · subst hli
      simp at hl ⊢
      omega
    · simp only [hli, Ne.symm hli, decide_false, Bool.false_eq_true, if_false] at hl ⊢
      omega

/-- `skip_hard_link`: if the entry was the last one, the one that waited last is now. -/
theorem Hand.skipHardLink (hc : c.Ok) (h : t.Hand c x i ws) :
    ∃ t' newLast, t.skipHardLink c i = some (t', newLast) ∧
      match newLast with
      | none => t'.Idle c x ws
      | some p => ∃ ws', ws = p :: ws' ∧ (t'.count c p (-1)).Hand c x p ws' ∧
          (t'.files p).fileSent = false ∧ (t'.files p).hlinkLast = true := by
  let t₁ := t.modify i fun file => { file with skipHlink := true }
  have hfiles₁ : ∀ j, j ≠ i → t₁.files j = t.files j := fun j hj => modify_of_ne _ hj
  have hself : t₁.files i = { t.files i with skipHlink := true } := modify_self ..
  have hskip₁ : t₁.Skipped i := by rw [Skipped, hself]
  have ha₁ : Agrees c t t₁ := (Agrees.refl c t).modify h.past fun _ _ => rfl
  have hnear₁ : t₁.Near c i (t₁.files i).hlPrev := by rw [hself]; exact ha₁.near h.near_self
  have hstill := h.still hfiles₁ hskip₁ (by rw [hself]) hnear₁ ha₁ rfl
  unfold LinkTable.skipHardLink
  dsimp only
  by_cases hlast : (t.files i).hlinkLast = true
  swap
  · refine ⟨t₁, none, if_pos (by rw [modify_self]; simpa using hlast), hstill, fun hne => ?_⟩
    by_contra hnone
    exact hlast (h.last_self hne fun j hj => hnone ⟨j, hj⟩)
  rw [if_neg (by rw [modify_self]; simpa using hlast)]
  obtain ⟨hbefore, horder⟩ := List.pairwise_cons.1 h.order
  obtain ⟨z, hz, hnear, hprior⟩ := hstill.checkPrior hc ws
    (fun j hj hlt hskip => (hstill.skipped_or h.past hj hlt).resolve_left hskip) horder
    (fun j hj => ⟨(hstill.waits j).1 hj, hbefore j hj⟩) h.past.1 hnear₁
  let t₂ := t₁.setPrev i z
  have hnear₂ : t₂.Near c i z := hnear.setPrev
  have hstill₂ : t₂.Still c x ws := h.still (fun j hj => (setPrev_of_ne _ hj).trans (hfiles₁ j hj))
    (by simpa [t₂, Skipped] using hskip₁) (by simp [t₂, hself])
    (by simpa [t₂] using hnear₂) (ha₁.modify h.past fun _ h => h) rfl
  show ∃ t' newLast, (t₁.checkPrior c i).bind _ = some (t', newLast) ∧ _
  rw [hprior, Option.bind_some]
  cases ws with
  | nil => exact ⟨t₂, none, rfl, hstill₂, fun hne => absurd rfl hne⟩
  | cons p ws =>
    have hpdone := hstill₂.undone p ((hstill₂.waits p).1 List.mem_cons_self).1.1
    have hpsent := hstill₂.unsent p List.mem_cons_self
    refine ⟨t₂.modify p fun file => { file with hlinkLast := true }, some p, ?_, ws, rfl,
      hstill₂.takeUp, ?_⟩
    · show (if ((t₂.files p).hlinkDone || (t₂.files p).fileSent) = true then _ else _) = _
      rw [if_neg (by rw [hpdone, hpsent]; simp)]
      rfl
    · rw [modify_self]
      exact ⟨hpsent, rfl⟩

end Hand

end LinkTable

end CloudEdgeBackup
