/-
  Which kind of backup a recovery is made from (`decide_recovery_type`), against
  the newest version that either kind holds.

  * `KindVersions` are the versions in the directories of one kind; `Rebuildable`
    says what a version stands for, `KindVersions.newest` is the newest one that
    can be rebuilt;
  * `combineFiles_eq`: each combine function rebuilds the newest version of its
    kind, but the differential one wants a delta after the full backup;
  * `decideRecoveryType_eq`: the choice, as a function of the newest full backup
    and the newest delta of each kind (`chosen`);
  * `selection_iff`: when the choice is right.
-/
import CloudEdgeBackup.BackupPass

namespace CloudEdgeBackup

open Zext Versions

/-! ## The versions of a kind -/

/-- What the directories of one kind of backup hold. -/
structure KindVersions where
  fulls : List (Bytes × Bytes)
  deltas : List (Bytes × Bytes)

/-- The store holds these versions, and every delta can be read. -/
structure KindVersions.In (l : KindVersions) (fileName : Bytes) (s : Store) : Prop where
  full : s.full.Holds (fullPrefix fileName) l.fulls
  delta : s.delta.Holds (deltaPrefix fileName) l.deltas
  readable : ∀ d ∈ l.deltas, ∀ full, (applyDelta full d.2).isSome

namespace KindVersions

variable (l : KindVersions)

/-- What a version stands for: the chain of deltas after the newest full backup,
    or one delta against it. -/
def content (kind : BackupType) (v : Bytes) : Option Bytes :=
  match kind with
  | .incremental =>
    (Versions.newest v l.fulls).bind fun f => replay applyDelta f.2 (between f.1 v l.deltas)
  | .differential =>
    (Versions.newest v l.fulls).bind fun f =>
      if f.1 = v then some f.2
      else (Versions.newest v l.deltas).bind fun d => applyDelta f.2 d.2

/-- The version `v` is held, and stands for `c`. -/
def Rebuildable (kind : BackupType) (v c : Bytes) : Prop :=
  (v ∈ l.fulls.map Prod.fst ∨ v ∈ l.deltas.map Prod.fst) ∧ l.content kind v = some c

/-- The newest full backup up to `R`. -/
def full (R : Bytes) : Option Bytes := (Versions.newest R l.fulls).map Prod.fst

/-- The newest delta up to `R`. -/
def delta (R : Bytes) : Option Bytes := (Versions.newest R l.deltas).map Prod.fst

/-- The newest version up to `R` that can be rebuilt: there is a full backup below. -/
def newest (R : Bytes) : Option Bytes := (l.full R).map fun f => (l.delta R).elim f (max f)

/-- The combine function finds what it looks for: the differential one the full
    backup of the version itself, or a delta after the newest full backup. -/
def Answers (kind : BackupType) (R : Bytes) : Prop :=
  match kind with
  | .incremental => (l.full R).isSome
  | .differential => ∃ f, l.full R = some f ∧ (f = R ∨ ∃ d, l.delta R = some d ∧ f < d)

/-- The timestamps the combine function copies fit their buffers. -/
def CombineFits (kind : BackupType) (R : Bytes) : Prop :=
  Fits 128 R l.fulls ∧ ∀ f, l.full R = some f → f ≠ R →
    match kind with
    | .incremental => Fits 128 f l.deltas
    | .differential => FitsDelta f R l.deltas

end KindVersions

section Kind

variable {l : KindVersions} {fileName dirName R m c : Bytes} {s : Store}

theorem KindVersions.full_spec (h : Ascending l.fulls) {f : Bytes} (hf : l.full R = some f) :
    f ∈ l.fulls.map Prod.fst ∧ f ≤ R ∧ ∀ e ∈ l.fulls, e.1 ≤ R → e.1 ≤ f := by
  obtain ⟨e, he, rfl⟩ := Option.map_eq_some_iff.1 hf
  obtain ⟨hmem, hle, hmax⟩ := h.newest_eq_some.1 he
  exact ⟨List.mem_map_of_mem hmem, hle, hmax⟩

theorem KindVersions.delta_spec (h : Ascending l.deltas) {d : Bytes} (hd : l.delta R = some d) :
    d ∈ l.deltas.map Prod.fst ∧ d ≤ R ∧ ∀ e ∈ l.deltas, e.1 ≤ R → e.1 ≤ d := by
  obtain ⟨e, he, rfl⟩ := Option.map_eq_some_iff.1 hd
  obtain ⟨hmem, hle, hmax⟩ := h.newest_eq_some.1 he
  exact ⟨List.mem_map_of_mem hmem, hle, hmax⟩

theorem KindVersions.delta_none (h : Ascending l.deltas) (hd : l.delta R = none) :
    ∀ e ∈ l.deltas, ¬ e.1 ≤ R := by
  rw [KindVersions.delta, Option.map_eq_none_iff, h.newest_eq_none] at hd
  exact fun e he => not_le.2 (hd e he)

/-- The newest version that can be rebuilt is at least every other one. -/
theorem KindVersions.newest_spec (hf : Ascending l.fulls) (hd : Ascending l.deltas)
    (hm : l.newest R = some m) :
    m ≤ R ∧ (m ∈ l.fulls.map Prod.fst ∨ m ∈ l.deltas.map Prod.fst) ∧
      (∀ e ∈ l.fulls, e.1 ≤ R → e.1 ≤ m) ∧ ∀ e ∈ l.deltas, e.1 ≤ R → e.1 ≤ m := by
  obtain ⟨f, hfull, rfl⟩ := Option.map_eq_some_iff.1 hm
  obtain ⟨hfm, hfR, hfmax⟩ := full_spec hf hfull
  cases hdelta : l.delta R with
  | none => exact ⟨hfR, Or.inl hfm, hfmax, fun e he hR => absurd hR (delta_none hd hdelta e he)⟩
  | some d =>
    obtain ⟨hdm, hdR, hdmax⟩ := delta_spec hd hdelta
    refine ⟨max_le hfR hdR, ?_, fun e he hR => (hfmax e he hR).trans (le_max_left _ _),
      fun e he hR => (hdmax e he hR).trans (le_max_right _ _)⟩
    rcases max_choice f d with h | h
    · exact Or.inl (by simpa [h] using hfm)
    · exact Or.inr (by simpa [h] using hdm)

/-- A version that can be rebuilt is not newer than the newest one. -/
theorem KindVersions.Rebuildable.le_newest {kind : BackupType} {v : Bytes} (hf : Ascending l.fulls)
    (hd : Ascending l.deltas) (h : l.Rebuildable kind v c) (hv : v ≤ R) :
    ∃ m, l.newest R = some m ∧ v ≤ m := by
  obtain ⟨hmem, hcontent⟩ := h
  have hfull : (l.full R).isSome := by
    rw [KindVersions.full, Option.isSome_map, Option.isSome_iff_ne_none, ne_eq, hf.newest_eq_none]
    obtain ⟨f, hfv⟩ : ∃ f, Versions.newest v l.fulls = some f := by
      cases kind <;> exact (Option.bind_eq_some_iff.1 hcontent).imp fun _ h => h.1
    obtain ⟨hfm, hle, -⟩ := hf.newest_eq_some.1 hfv
    exact fun hnone => not_lt.2 (hle.trans hv) (hnone f hfm)
  obtain ⟨f, hfull⟩ := Option.isSome_iff_exists.1 hfull
  obtain ⟨m, hm⟩ : ∃ m, l.newest R = some m := ⟨_, by rw [newest, hfull, Option.map_some]⟩
  obtain ⟨-, -, hmaxf, hmaxd⟩ := newest_spec hf hd hm
  refine ⟨m, hm, ?_⟩
  rcases hmem with hmem | hmem
  · obtain ⟨e, he, rfl⟩ := List.mem_map.1 hmem
    exact hmaxf e he hv
  · obtain ⟨e, he, rfl⟩ := List.mem_map.1 hmem
    exact hmaxd e he hv

/-- Readable deltas can be applied one after the other. -/
theorem replay_isSome {ds : List (Bytes × Bytes)}
    (h : ∀ d ∈ ds, ∀ full, (applyDelta full d.2).isSome) (c : Bytes) :
    (replay applyDelta c ds).isSome := by
  induction ds generalizing c with
  | nil => rfl
  | cons d ds ih =>
    obtain ⟨c', hc'⟩ := Option.isSome_iff_exists.1 (h d (List.mem_cons_self ..) c)
    rw [replay, hc', Option.bind_some]
    exact ih (fun d hd => h d (List.mem_cons_of_mem _ hd)) c'

/-- What the newest version that can be rebuilt stands for, by the newest full
    backup and the deltas up to `R`. -/
theorem KindVersions.content_newest (kind : BackupType) (hf : Ascending l.fulls)
    (hd : Ascending l.deltas) (hm : l.newest R = some m) :
    ∃ f, Versions.newest R l.fulls = some f ∧ l.content kind m =
      match kind with
      | .incremental => replay applyDelta f.2 (between f.1 R l.deltas)
      | .differential =>
        if f.1 = m then some f.2
        else (Versions.newest R l.deltas).bind fun d => applyDelta f.2 d.2 := by
  obtain ⟨hmR, -, hmaxf, hmaxd⟩ := newest_spec hf hd hm
  have hup : upTo R l.fulls = upTo m l.fulls :=
    upTo_congr fun e he => ⟨hmaxf e he, fun h => h.trans hmR⟩
  have hupd : upTo R l.deltas = upTo m l.deltas :=
    upTo_congr fun e he => ⟨hmaxd e he, fun h => h.trans hmR⟩
  obtain ⟨v, hfull, -⟩ := Option.map_eq_some_iff.1 hm
  obtain ⟨f, hfull, -⟩ := Option.map_eq_some_iff.1 hfull
  refine ⟨f, hfull, ?_⟩
  rw [Versions.newest] at hfull
  cases kind with
  | incremental => simp [content, Versions.newest, between, ← hup, ← hupd, hfull]
  | differential => simp [content, Versions.newest, ← hup, ← hupd, hfull]

/-- The newest version that can be rebuilt can be rebuilt. -/
theorem KindVersions.In.rebuildable (h : l.In fileName s) (kind : BackupType)
    (hm : l.newest R = some m) : ∃ c, l.Rebuildable kind m c := by
  have hf := h.full.ascending
  have hd := h.delta.ascending
  obtain ⟨f, hfull, hcontent⟩ := content_newest kind hf hd hm
  suffices hsome : (l.content kind m).isSome from
    (Option.isSome_iff_exists.1 hsome).imp fun c hc => ⟨(newest_spec hf hd hm).2.1, hc⟩
  rw [hcontent]
  cases kind with
  | incremental =>
    exact replay_isSome (fun d hmem => h.readable d (hd.mem_between.1 hmem).1) f.2
  | differential =>
    by_cases hfm : f.1 = m
    · simp [hfm]
    · rw [if_neg hfm]
      obtain ⟨v, hv, hmax⟩ := Option.map_eq_some_iff.1 hm
      rw [KindVersions.full, hfull, Option.map_some, Option.some.injEq] at hv
      subst hv
      cases hdelta : Versions.newest R l.deltas with
      | none => simp [KindVersions.delta, hdelta, hfm] at hmax
      | some d =>
        rw [Option.bind_some]
        exact h.readable d (hd.newest_eq_some.1 hdelta).1 f.2

end Kind

/-! ## The combine functions -/

section Combine

variable {l : KindVersions} {dirName fileName R c : Bytes} {s : Store} {kind : BackupType}

/-- The lists that are read of a kind. -/
def KindVersions.listing (l : KindVersions) (fileName : Bytes) : Listing :=
  ⟨Dir.Holds.names (fullPrefix fileName) l.fulls, Dir.Holds.names (deltaPrefix fileName) l.deltas⟩

/-- **What a combine function rebuilds** is the newest version of its kind. -/
theorem combineFiles_eq (h : l.In fileName s) :
    combineFiles dirName fileName kind s (l.listing fileName) R = some (some c) ↔
      l.CombineFits kind R ∧ l.Answers kind R ∧ ∃ m, l.newest R = some m ∧ l.content kind m = some c := by
  have hf := h.full.ascending
  have hd := h.delta.ascending
  cases hfull : Versions.newest R l.fulls with
  | none =>
    have hnone : l.newest R = none := by simp [KindVersions.newest, KindVersions.full, hfull]
    cases kind with
    | incremental =>
      rw [combineFiles, KindVersions.listing, combineIncrementalFiles_eq h.full h.delta, hfull]
      simp [hnone]
    | differential =>
      rw [combineFiles, KindVersions.listing, combineDifferentalFiles_eq h.full h.delta, hfull]
      simp [hnone]
  | some e =>
    have hfull' : l.full R = some e.1 := by rw [KindVersions.full, hfull, Option.map_some]
    obtain ⟨m, hm⟩ : ∃ m, l.newest R = some m := ⟨_, by rw [KindVersions.newest, hfull', Option.map_some]⟩
    obtain ⟨f, hfR, hcontent⟩ := KindVersions.content_newest kind hf hd hm
    obtain rfl : e = f := Option.some.inj (hfull.symm.trans hfR)
    cases kind with
    | incremental =>
      rw [combineFiles, KindVersions.listing, combineIncrementalFiles_eq h.full h.delta, hfull]
      simp only [KindVersions.CombineFits, KindVersions.Answers, hfull', hm, Option.some.injEq,
        exists_eq_left', hcontent, Option.isSome_some, true_and, forall_eq']
      rw [and_assoc]
      simp
    | differential =>
      rw [combineFiles, KindVersions.listing, combineDifferentalFiles_eq h.full h.delta, hfull]
      simp only [KindVersions.CombineFits, KindVersions.Answers, hfull', hm, Option.some.injEq,
        exists_eq_left', hcontent, forall_eq']
      rw [and_assoc]
      refine and_congr_right fun _ => ?_
      have hmax : m = (l.delta R).elim e.1 (max e.1) := by
        simpa [KindVersions.newest, hfull', eq_comm] using hm
      by_cases heR : e.1 = R
      · have hem : e.1 = m := by
          obtain ⟨hmR, -, hmaxf, -⟩ := KindVersions.newest_spec hf hd hm
          exact le_antisymm (hmaxf e (hf.newest_eq_some.1 hfull).1 heR.le) (hmR.trans heR.ge)
        simp [heR, hem ▸ heR, eq_comm]
      rw [if_neg heR, hd.getLast?_between]
      cases hdelta : Versions.newest R l.deltas with
      | none => simp [heR, KindVersions.delta, hdelta]
      | some d =>
        have hdelta' : l.delta R = some d.1 := by rw [KindVersions.delta, hdelta, Option.map_some]
        rw [hdelta', Option.elim_some] at hmax
        by_cases hlt : e.1 < d.1
        · have hem : ¬ e.1 = m := by rw [hmax, max_eq_right hlt.le]; exact hlt.ne
          simp [heR, hdelta', hlt, hem, Option.filter_some]
        · simp [heR, hdelta', hlt, Option.filter_some]

end Combine

/-! ## The choice -/

section Choice

variable (V : BackupType → KindVersions) (R : Bytes)

/-- What `decide_recovery_type` chooses, by the newest versions of the four lists. -/
def chosen : Option BackupType :=
  let I := V .incremental
  let D := V .differential
  if I.fulls = [] ∧ D.fulls = [] then none
  else if I.fulls = [] then some .differential
  else if D.fulls = [] then some .incremental
  else
    match I.delta R, D.delta R with
    | none, none =>
      match I.full R, D.full R with
      | some i, some d => if d < i then some .incremental else some .differential
      | some _, none => some .incremental
      | none, some _ => some .differential
      | none, none => none
    | none, some _ => if (I.full R).isSome then some .incremental else some .differential
    | some _, none => if (D.full R).isSome then some .differential else some .incremental
    | some i, some d => if d < i then some .incremental else some .differential

/-- The timestamps that `decide_recovery_type` copies fit their buffers: it copies
    none if only one kind has full backups. -/
def DecideFits : Prop :=
  (V .incremental).fulls ≠ [] → (V .differential).fulls ≠ [] →
    ∀ kind, Fits 100 R (V kind).fulls ∧ Fits 100 R (V kind).deltas

variable {V R} {dirName fileName : Bytes} {b : Backups}

theorem findLe_names {l : List (Bytes × Bytes)} {p q dir : Bytes} {size : ℕ} (hasc : Ascending l)
    (hdot : ∀ e ∈ l, dot ∉ e.1) (hp : p = q ++ [dot]) {r : Option (ℕ × Bytes)} :
    findLe size dir R (Dir.Holds.names p l) (Dir.Holds.names p l).length = some r ↔
      Fits size R l ∧ r = (Versions.newest R l).map fun e => (rank R l - 1, e.1) := by
  rw [Dir.Holds.names, List.length_map]
  exact findLe_eq hasc hdot hp

/-- **The choice** is the one by the newest versions. -/
theorem decideRecoveryType_eq (h : ∀ kind, (V kind).In fileName (b.get kind))
    {r : Option BackupType} :
    decideRecoveryType dirName fileName ((V .incremental).listing fileName)
        ((V .differential).listing fileName) R = some r ↔ DecideFits V R ∧ r = chosen V R := by
  have hnil : ∀ (p : Bytes) (l : List (Bytes × Bytes)), Dir.Holds.names p l = [] ↔ l = [] :=
    fun p l => List.map_eq_nil_iff
  simp only [decideRecoveryType, chosen, KindVersions.listing, hnil, DecideFits]
  by_cases hI : (V .incremental).fulls = []
  · by_cases hD : (V .differential).fulls = [] <;> simp [hI, hD, eq_comm]
  by_cases hD : (V .differential).fulls = []
  · simp [hI, hD, eq_comm]
  simp only [hI, hD, and_self, if_false, ne_eq, not_false_eq_true, forall_const]
  have hfull : ∀ kind dir r, findLe 100 dir R (Dir.Holds.names (fullPrefix fileName) (V kind).fulls)
      (Dir.Holds.names (fullPrefix fileName) (V kind).fulls).length = some r ↔ _ := fun kind dir r =>
    findLe_names (h kind).full.ascending (h kind).full.noDot (fullPrefix_eq fileName)
  have hdelta : ∀ kind dir r, findLe 100 dir R
      (Dir.Holds.names (deltaPrefix fileName) (V kind).deltas)
      (Dir.Holds.names (deltaPrefix fileName) (V kind).deltas).length = some r ↔ _ :=
    fun kind dir r =>
      findLe_names (h kind).delta.ascending (h kind).delta.noDot (deltaPrefix_eq fileName)
  by_cases hfit : ∀ kind, Fits 100 R (V kind).fulls ∧ Fits 100 R (V kind).deltas
  · have hf := fun kind dir => (option_of_iff (hfull kind dir)).1 (hfit kind).1
    have hd := fun kind dir => (option_of_iff (hdelta kind dir)).1 (hfit kind).2
    simp only [hf, hd, Option.bind_eq_bind, Option.bind_some, hfit, and_self, implies_true,
      true_and, KindVersions.full, KindVersions.delta, Option.isSome_map]
    have hsome : ∀ {x : Option (Option BackupType)} {y : Option BackupType}, x = some y →
        (x = some r ↔ r = y) := by
      rintro x y rfl
      exact (Option.some_inj.trans eq_comm)
    refine hsome ?_
    cases Versions.newest R (V .incremental).deltas <;>
      cases Versions.newest R (V .differential).deltas <;>
      cases Versions.newest R (V .incremental).fulls <;>
      cases Versions.newest R (V .differential).fulls <;>
      simp only [Option.map_none, Option.map_some, Option.isSome_none, Option.isSome_some] <;>
      first | rfl | (split_ifs <;> rfl)
  · simp only [Option.bind_eq_bind, Option.bind_eq_some_iff, hfit, false_and, iff_false]
    rintro ⟨a, ha, b, hb, c, hc, d, hd, -⟩
    refine hfit fun kind => ?_
    cases kind with
    | incremental => exact ⟨((hfull .incremental _ c).1 hc).1, ((hdelta .incremental _ a).1 ha).1⟩
    | differential => exact ⟨((hfull .differential _ d).1 hd).1, ((hdelta .differential _ b).1 hb).1⟩

/-! ## The selection -/

variable (V R)

/-- The combine function of the kind finds a version, and its timestamps fit. -/
def Finds (kind : BackupType) : Prop :=
  (V kind).CombineFits kind R ∧ (V kind).Answers kind R

/-- The first kind has nothing newer than the second. -/
def NotNewer (kind kind' : BackupType) : Prop :=
  ∀ m, (V kind).newest R = some m → ∃ n, (V kind').newest R = some n ∧ m ≤ n

/-- When the choice is right, by what the two kinds have up to `R`: a full backup
    and a delta, or not.  The differential kind can only be chosen for the version
    of a full backup or if its newest delta is after its newest full backup. -/
def Selectable : Prop :=
  let I := V .incremental
  let D := V .differential
  DecideFits V R ∧
    if I.fulls = [] then Finds V R .differential
    else if D.fulls = [] then Finds V R .incremental
    else
      match I.delta R, D.delta R with
      | none, none =>
        if ∃ i, I.full R = some i ∧ ∀ d, D.full R = some d → d < i then Finds V R .incremental
        else Finds V R .differential
      | none, some _ =>
        if (I.full R).isSome then Finds V R .incremental ∧ NotNewer V R .differential .incremental
        else Finds V R .differential
      | some _, none =>
        if (D.full R).isSome then Finds V R .differential else Finds V R .incremental
      | some i, some d =>
        if d < i then Finds V R .incremental ∧ NotNewer V R .differential .incremental
        else Finds V R .differential ∧ NotNewer V R .incremental .differential

variable {V R}

theorem notNewer_refl (kind : BackupType) : NotNewer V R kind kind :=
  fun m hm => ⟨m, hm, le_rfl⟩

theorem notNewer_of_none {kind kind' : BackupType} (h : (V kind).full R = none) :
    NotNewer V R kind kind' := by
  intro m hm
  rw [KindVersions.newest, h] at hm
  cases hm

theorem full_of_nil {kind : BackupType} (h : (V kind).fulls = []) : (V kind).full R = none := by
  rw [KindVersions.full, h]
  rfl

/-- The differential kind without a delta is chosen rightly for a full backup's
    own version. -/
theorem notNewer_of_finds (hasc : ∀ kind, Ascending (V kind).fulls ∧ Ascending (V kind).deltas)
    (hdelta : (V .differential).delta R = none) (hfinds : Finds V R .differential) :
    NotNewer V R .incremental .differential := by
  obtain ⟨-, f, hf, rfl | ⟨d, hd, -⟩⟩ := hfinds
  · intro m hm
    refine ⟨f, by rw [KindVersions.newest, hf, hdelta]; rfl, ?_⟩
    exact (KindVersions.newest_spec (hasc .incremental).1 (hasc .incremental).2 hm).1
  · rw [hdelta] at hd
    cases hd

/-- **The table is right.** -/
theorem selectable_iff (hasc : ∀ kind, Ascending (V kind).fulls ∧ Ascending (V kind).deltas)
    (h : ∃ kind m, (V kind).newest R = some m) :
    Selectable V R ↔ DecideFits V R ∧ ∃ kind, chosen V R = some kind ∧ Finds V R kind ∧
      ∀ k, NotNewer V R k kind := by
  have hincr : (∀ k, NotNewer V R k .incremental) ↔ NotNewer V R .differential .incremental := by
    refine ⟨fun h => h _, fun h k => ?_⟩
    cases k
    · exact notNewer_refl _
    · exact h
  have hdiff : (∀ k, NotNewer V R k .differential) ↔ NotNewer V R .incremental .differential := by
    refine ⟨fun h => h _, fun h k => ?_⟩
    cases k
    · exact h
    · exact notNewer_refl _
  have hpick : ∀ kind, (∃ kind', some kind = some kind' ∧ Finds V R kind' ∧
      ∀ k, NotNewer V R k kind') ↔ Finds V R kind ∧ ∀ k, NotNewer V R k kind := by simp
  refine and_congr_right fun _ => ?_
  by_cases hI : (V .incremental).fulls = []
  · by_cases hD : (V .differential).fulls = []
    · obtain ⟨kind, m, hm⟩ := h
      rw [KindVersions.newest, full_of_nil (by cases kind <;> assumption)] at hm
      cases hm
    · simp only [chosen, hI, hD, and_false, if_false, if_true, hpick, hdiff]
      exact (and_iff_left (notNewer_of_none (full_of_nil hI))).symm
  by_cases hD : (V .differential).fulls = []
  · simp only [chosen, hI, hD, and_true, if_false, if_true, hpick, hincr]
    exact (and_iff_left (notNewer_of_none (full_of_nil hD))).symm
  simp only [chosen, hI, hD, and_self, if_false]
  cases hdi : (V .incremental).delta R with
  | none =>
    cases hdd : (V .differential).delta R with
    | none =>
      cases hfi : (V .incremental).full R with
      | none =>
        cases hfd : (V .differential).full R with
        | none =>
          obtain ⟨kind, m, hm⟩ := h
          cases kind <;> simp [KindVersions.newest, hfi, hfd] at hm
        | some d =>
          simp only [reduceCtorEq, false_and, exists_false, if_false, hpick, hdiff]
          exact (and_iff_left (notNewer_of_none hfi)).symm
      | some i =>
        cases hfd : (V .differential).full R with
        | none =>
          simp only [hpick, hincr]
          rw [if_pos ⟨i, rfl, fun d hd => by cases hd⟩]
          exact (and_iff_left (notNewer_of_none hfd)).symm
        | some d =>
          simp only [Option.some.injEq, forall_eq', exists_eq_left']
          by_cases hlt : d < i
          · simp only [if_pos hlt, hpick, hincr]
            refine (and_iff_left ?_).symm
            intro m hm
            rw [KindVersions.newest, hfd, hdd] at hm
            obtain rfl := Option.some.inj hm
            exact ⟨i, by rw [KindVersions.newest, hfi, hdi]; rfl, hlt.le⟩
          · simp only [if_neg hlt, hpick, hdiff]
            exact (and_iff_left_of_imp (notNewer_of_finds hasc hdd)).symm
    | some d =>
      cases hfi : (V .incremental).full R with
      | none =>
        simp only [Option.isSome_none, Bool.false_eq_true, if_false, hpick, hdiff]
        exact (and_iff_left (notNewer_of_none hfi)).symm
      | some i => simp only [Option.isSome_some, if_true, hpick, hincr]
  | some i =>
    cases hdd : (V .differential).delta R with
    | none =>
      cases hfd : (V .differential).full R with
      | none =>
        simp only [Option.isSome_none, Bool.false_eq_true, if_false, hpick, hincr]
        exact (and_iff_left (notNewer_of_none hfd)).symm
      | some d =>
        simp only [Option.isSome_some, if_true, hpick, hdiff]
        exact (and_iff_left_of_imp (notNewer_of_finds hasc hdd)).symm
    | some d =>
      by_cases hlt : d < i
      · simp only [if_pos hlt, hpick, hincr]
      · simp only [if_neg hlt, hpick, hdiff]

/-- The choice is made from the lists that are read, and the combine function of
    the kind rebuilds the newest version up to `R` that either kind can rebuild. -/
def SelectsNewest (V : BackupType → KindVersions) (dirName fileName : Bytes) (b : Backups)
    (R : Bytes) : Prop :=
  ∃ incre diffe kind v c, readListing dirName fileName b .incremental = some incre ∧
    readListing dirName fileName b .differential = some diffe ∧
    decideRecoveryType dirName fileName incre diffe R = some (some kind) ∧
    recover dirName fileName b kind R = some (some c) ∧
    (V kind).Rebuildable kind v c ∧ v ≤ R ∧
    ∀ kind' v' c', (V kind').Rebuildable kind' v' c' → v' ≤ R → v' ≤ v

theorem readListing_of_holds {kind : BackupType} (h : (V kind).In fileName (b.get kind))
    {ls : Listing} :
    readListing dirName fileName b kind = some ls ↔
      ((V kind).fulls.length ≤ maxBackupNum ∧ (V kind).deltas.length ≤ maxBackupNum) ∧
        ls = (V kind).listing fileName := by
  rw [readListing, h.full.readSort, h.delta.readSort]
  by_cases hf : (V kind).fulls.length ≤ maxBackupNum
  · by_cases hd : (V kind).deltas.length ≤ maxBackupNum <;>
      simp [hf, hd, KindVersions.listing, eq_comm]
  · simp [hf]

/-- **A recovery is made from the newest version** up to the recovery version that
    either kind of backup can rebuild, just when the lists fit their arrays and the
    choice is right by the table. -/
theorem selection_iff (h : ∀ kind, (V kind).In fileName (b.get kind))
    (hsome : ∃ kind v c, (V kind).Rebuildable kind v c ∧ v ≤ R) :
    SelectsNewest V dirName fileName b R ↔
      (∀ kind, (V kind).fulls.length ≤ maxBackupNum ∧ (V kind).deltas.length ≤ maxBackupNum) ∧
        Selectable V R := by
  have hf : ∀ kind, Ascending (V kind).fulls := fun kind => (h kind).full.ascending
  have hd : ∀ kind, Ascending (V kind).deltas := fun kind => (h kind).delta.ascending
  have hnewest : ∃ kind m, (V kind).newest R = some m := by
    obtain ⟨kind, v, c, hv, hle⟩ := hsome
    obtain ⟨m, hm, -⟩ := hv.le_newest (hf kind) (hd kind) hle
    exact ⟨kind, m, hm⟩
  rw [selectable_iff (fun kind => ⟨hf kind, hd kind⟩) hnewest]
  constructor
  · rintro ⟨incre, diffe, kind, v, c, hincre, hdiffe, hdecide, hcombine, hv, hle, hmax⟩
    obtain ⟨hni, rfl⟩ := (readListing_of_holds (h .incremental)).1 hincre
    obtain ⟨hnd, rfl⟩ := (readListing_of_holds (h .differential)).1 hdiffe
    obtain ⟨hfits, hchosen⟩ := (decideRecoveryType_eq h).1 hdecide
    have hcount : ∀ kind, (V kind).fulls.length ≤ maxBackupNum ∧
        (V kind).deltas.length ≤ maxBackupNum := by
      rintro (_ | _) <;> assumption
    rw [recover_of_holds (h kind).full (h kind).delta, if_pos (hcount kind)] at hcombine
    obtain ⟨hcf, hanswers, -⟩ := (combineFiles_eq (h kind)).1 hcombine
    refine ⟨hcount, hfits, kind, hchosen.symm, ⟨hcf, hanswers⟩, fun k m hm => ?_⟩
    obtain ⟨c', hm'⟩ := (h k).rebuildable k hm
    obtain ⟨n, hn, hvn⟩ := hv.le_newest (hf kind) (hd kind) hle
    have hmR := (KindVersions.newest_spec (hf k) (hd k) hm).1
    exact ⟨n, hn, (hmax k m c' hm' hmR).trans hvn⟩
  · rintro ⟨hcount, hfits, kind, hchosen, ⟨hcf, hanswers⟩, hmax⟩
    obtain ⟨k, m, hm⟩ := hnewest
    obtain ⟨n, hn, -⟩ := hmax k m hm
    obtain ⟨c, hc⟩ := (h kind).rebuildable kind hn
    refine ⟨_, _, kind, n, c, (readListing_of_holds (h .incremental)).2 ⟨hcount _, rfl⟩,
      (readListing_of_holds (h .differential)).2 ⟨hcount _, rfl⟩,
      (decideRecoveryType_eq h).2 ⟨hfits, hchosen.symm⟩, ?_, hc,
      (KindVersions.newest_spec (hf kind) (hd kind) hn).1, fun k v c hv hle => ?_⟩
    · rw [recover_of_holds (h kind).full (h kind).delta, if_pos (hcount kind)]
      exact (combineFiles_eq (h kind)).2 ⟨hcf, hanswers, n, hn, hc.2⟩
    · obtain ⟨m, hm, hvm⟩ := hv.le_newest (hf k) (hd k) hle
      obtain ⟨n', hn', hmn⟩ := hmax k m hm
      obtain rfl : n = n' := Option.some.inj (hn.symm.trans hn')
      exact hvm.trans hmn

end Choice

/-! ## One full backup -/

/-- Only one kind has a version: the full backup `1`. -/
def oneFull (kind : BackupType) : BackupType → KindVersions :=
  fun k => if k = kind then ⟨[(cstr "1", cstr "x")], []⟩ else ⟨[], []⟩

def oneFullStore (fileName : Bytes) : Store :=
  ⟨(∅ : Dir).insert (fullPrefix fileName ++ cstr "1") (cstr "x"), ∅⟩

def oneFullBackups (fileName : Bytes) : BackupType → Backups
  | .incremental => ⟨oneFullStore fileName, ⟨∅, ∅⟩⟩
  | .differential => ⟨⟨∅, ∅⟩, oneFullStore fileName⟩

theorem oneFull_in (fileName : Bytes) (kind k : BackupType) :
    (oneFull kind k).In fileName ((oneFullBackups fileName kind).get k) := by
  have hone : KindVersions.In ⟨[(cstr "1", cstr "x")], []⟩ fileName (oneFullStore fileName) := by
    refine ⟨?_, Dir.Holds.empty _, fun d hd => absurd hd List.not_mem_nil⟩
    exact (Dir.Holds.empty _).insert (by decide) fun e he => absurd he List.not_mem_nil
  have hnone : KindVersions.In ⟨[], []⟩ fileName ⟨∅, ∅⟩ :=
    ⟨Dir.Holds.empty _, Dir.Holds.empty _, fun d hd => absurd hd List.not_mem_nil⟩
  cases kind <;> cases k <;> first | exact hone | exact hnone

theorem oneFull_rebuildable (kind : BackupType) :
    ((oneFull kind) kind).Rebuildable kind (cstr "1") (cstr "x") := by
  rw [oneFull, if_pos rfl]
  refine ⟨Or.inl (List.mem_singleton.2 rfl), ?_⟩
  cases kind <;> decide

/-- An incremental full backup is found for a later version. -/
theorem selection_incremental :
    SelectsNewest (oneFull .incremental) (cstr "d") (cstr "f")
      (oneFullBackups (cstr "f") .incremental) (cstr "2") := by
  refine (selection_iff (oneFull_in _ _) ⟨_, _, _, oneFull_rebuildable _, by decide⟩).2
    ⟨?_, ?_, ?_⟩
  · rintro (_ | _) <;> decide
  · exact fun _ h => absurd rfl h
  · show Finds (oneFull .incremental) (cstr "2") .incremental
    refine ⟨⟨?_, fun f _ _ i hi => absurd hi (Nat.not_lt_zero i)⟩, rfl⟩
    intro i hi _ _
    obtain rfl : i = 0 := Nat.lt_one_iff.1 hi
    show (cstr "1").length < 128
    decide

/-- **A differential full backup is not**: `combine_differental_files` wants a
    delta after it. -/
theorem not_selection : (∀ kind, (oneFull .differential kind).In (cstr "f")
      ((oneFullBackups (cstr "f") .differential).get kind)) ∧
    (oneFull .differential .differential).Rebuildable .differential (cstr "1") (cstr "x") ∧
    cstr "1" ≤ cstr "2" ∧
    ¬ SelectsNewest (oneFull .differential) (cstr "d") (cstr "f")
      (oneFullBackups (cstr "f") .differential) (cstr "2") := by
  refine ⟨oneFull_in _ _, oneFull_rebuildable _, by decide, ?_⟩
  rintro ⟨incre, diffe, kind, v, c, -, -, -, hcombine, hv, -⟩
  have hin := oneFull_in (cstr "f") .differential kind
  rw [recover_of_holds hin.full hin.delta, if_pos (by cases kind <;> decide)] at hcombine
  obtain ⟨-, hanswers, -⟩ := (combineFiles_eq hin).1 hcombine
  cases kind with
  | incremental => cases hanswers
  | differential =>
    obtain ⟨f, hf, rfl | ⟨d, hd, -⟩⟩ := hanswers
    · exact absurd hf (by decide)
    · cases hd

end CloudEdgeBackup
