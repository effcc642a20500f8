/-
  Retention (`manage_backup_version` in `receiver.c`) over the whole life of a store.

  * `Stored.put` is a backup as the store of its kind sees it, a full backup or a delta,
    and `Reached` are the stores that backups lead to;
  * `KindVersions.counted` and `KindVersions.Droppable` say what goes from a store, and when
    it can; `HasBase` is what has to be left: a full backup below every delta, and the
    newest version;
  * a step keeps that as long as `Manageable` holds before it (`manage_base`), and reads
    beyond the lists where it does not.
-/
import CloudEdgeBackup.MergedName
import CloudEdgeBackup.Selection

namespace CloudEdgeBackup

open Versions

/-! ## What is to be left -/

namespace KindVersions

/-- A full backup below every delta, and the newest version can be rebuilt. -/
structure HasBase (kind : BackupType) (l : KindVersions) (v c : Bytes) : Prop where
  base : ∃ f ∈ l.fulls, ∀ d ∈ l.deltas, f.1 ≤ d.1
  latest : ∀ e ∈ l.fulls ++ l.deltas, e.1 ≤ v
  rebuilds : l.Rebuildable kind v c

/-- The oldest full backup goes, with the deltas up to the next one. -/
def dropFull (l : KindVersions) : KindVersions :=
  match l.fulls with
  | _ :: f :: fs => ⟨f :: fs, l.deltas.filter fun d => decide (f.1 < d.1)⟩
  | _ => l

/-- What is left when there was one full backup too many. -/
def counted (l : KindVersions) (N : ℤ) : KindVersions := if N < l.fulls.length then l.dropFull else l

/-- The oldest delta may go: the newest version is not its own or, of incremental
    backups, the full backup it is merged into is the one it was made against. -/
def Droppable (kind : BackupType) (l : KindVersions) : Prop :=
  l.deltas ≠ [] ∧
    match kind with
    | .differential => l.deltas.length ≠ 1 ∨ ∃ f ∈ l.fulls, ∀ d ∈ l.deltas, d.1 ≤ f.1
    | .incremental => ∀ f ∈ l.fulls.head?, ∀ g ∈ l.fulls.getLast?, ∀ d ∈ l.deltas.head?,
        d.1 < g.1 ∨ replay applyDelta f.2 l.deltas =
          replay applyDelta g.2 (l.deltas.filter fun d => decide (g.1 < d.1))

/-- Without its oldest delta `l` is `l'`: in an incremental store it is merged into the
    oldest full backup, which has its version then. -/
def DroppedTo (kind : BackupType) (l l' : KindVersions) : Prop :=
  match kind with
  | .differential => l'.fulls = l.fulls ∧ l'.deltas = l.deltas.tail
  | .incremental => ∃ f fs d ds merged, l.fulls = f :: fs ∧ l.deltas = d :: ds ∧
      applyDelta f.2 d.2 = some merged ∧ Ascending l'.fulls ∧ l'.deltas = ds ∧
      ∀ e, e ∈ l'.fulls ↔ e = (d.1, merged) ∨ e ∈ fs ∧ e.1 ≠ d.1

/-- The store can be managed: `read_sort_dir_files` has room for its files, the oldest
    full backup is not the only one, and the oldest delta may go. -/
structure Manageable (kind : BackupType) (N : ℤ) (l : KindVersions) : Prop where
  fulls : l.fulls.length ≤ maxBackupNum
  deltas : l.deltas.length ≤ maxBackupNum
  spare : N < l.fulls.length → 2 ≤ l.fulls.length
  oldest : N < (l.counted N).deltas.length → (l.counted N).Droppable kind

end KindVersions

/-- A store of a kind keeps its base. -/
def KeepsBase (kind : BackupType) (fileName : Bytes) (s : Store) (v c : Bytes) : Prop :=
  ∃ l : KindVersions, l.In fileName s ∧ l.HasBase kind v c

/-! ## Backups -/

/-- A backup as the store of its kind sees it. -/
structure Stored where
  version : Bytes
  /-- the `backup_version_num` the store is managed with -/
  num : ℤ
  wholeFile : Bool
  /-- what is written to the delta file, if there is one -/
  delta : Bytes
  content : Bytes

/-- There is a full backup of the file. -/
def Store.hasFull (fileName : Bytes) (s : Store) : Bool :=
  s.full.keys.any fun name => (fullPrefix fileName).isPrefixOf name

/-- With a full backup there, the delta is recorded. -/
def Stored.putDelta (b : Stored) (fileName : Bytes) (s : Store) : Option Store :=
  if s.hasFull fileName then
    (s.delta.create (deltaPrefix fileName ++ b.version) b.delta).map fun d => { s with delta := d }
  else some s

/-- Without one, or of a whole file, a full backup is written. -/
def Stored.putFull (b : Stored) (fileName : Bytes) (s : Store) : Option Store :=
  if s.hasFull fileName && !b.wholeFile then some s
  else (s.full.create (fullPrefix fileName ++ b.version) b.content).map fun d => { s with full := d }

/-- The files of a backup. -/
def Stored.put (b : Stored) (fileName : Bytes) (s : Store) : Option Store :=
  (b.putDelta fileName s).bind (b.putFull fileName)

/-- What the deltas of a kind are made against: the last content, or the newest full
    backup. -/
def KindVersions.basis (l : KindVersions) (last : Option (Bytes × Bytes)) : BackupType → Option Bytes
  | .incremental => last.map Prod.snd
  | .differential => l.fulls.getLast?.map Prod.snd

/-- The backup comes after `last`: a later version, and a delta that stands for the content. -/
structure Stored.Follows (b : Stored) (kind : BackupType) (fileName : Bytes) (s : Store)
    (last : Option (Bytes × Bytes)) : Prop where
  noDot : dot ∉ b.version
  later : ∀ e ∈ last, e.1 < b.version
  readable : s.hasFull fileName = true → ∀ full, (applyDelta full b.delta).isSome
  rebuilds : ∀ l : KindVersions, l.In fileName s → ∀ basis ∈ l.basis last kind,
    applyDelta basis b.delta = some b.content

/-- The store can be managed, by the versions it holds. -/
def Store.Manageable (kind : BackupType) (fileName : Bytes) (N : ℤ) (s : Store) : Prop :=
  ∃ l : KindVersions, l.In fileName s ∧ l.Manageable kind N

/-- A delta is only merged under a name without a dot. -/
def Store.MergesPlain (kind : BackupType) (fileName : Bytes) (N : ℤ) (s : Store) : Prop :=
  kind = .incremental → ∀ l : KindVersions, l.In fileName s →
    N < (l.counted N).deltas.length → dot ∉ fileName

/-- The stores of a kind that backups lead to, with the last version and its content. -/
inductive Reached (kind : BackupType) (dirName fileName : Bytes) :
    Store → Option (Bytes × Bytes) → Prop
  | start : Reached kind dirName fileName ⟨∅, ∅⟩ none
  | backup {s s₁ s' : Store} {last : Option (Bytes × Bytes)} (b : Stored) :
    Reached kind dirName fileName s last → b.Follows kind fileName s last →
    b.put fileName s = some s₁ → s₁.MergesPlain kind fileName b.num →
    s₁.Manageable kind fileName b.num →
    manageBackupVersion (backupPath dirName fileName kind) kind b.num s₁ = some s' →
    Reached kind dirName fileName s' (some (b.version, b.content))

/-! ## The versions of a store -/

section Versions

variable {l : KindVersions} {fileName v c : Bytes} {s : Store} {kind : BackupType}

/-- What the newest version stands for, by the newest full backup. -/
def KindVersions.onFull (l : KindVersions) (kind : BackupType) (v : Bytes) (F : Bytes × Bytes) :
    Option Bytes :=
  match kind with
  | .incremental => replay applyDelta F.2 (l.deltas.filter fun d => decide (F.1 < d.1))
  | .differential => if F.1 = v then some F.2
      else l.deltas.getLast?.bind fun d => applyDelta F.2 d.2

theorem content_latest (hd : Ascending l.deltas) (hmax : ∀ e ∈ l.fulls ++ l.deltas, e.1 ≤ v)
    {F : Bytes × Bytes} (hF : l.fulls.getLast? = some F) (kind : BackupType) :
    l.content kind v = l.onFull kind v F := by
  have hfull : newest v l.fulls = some F := by
    rw [newest, upTo_all fun e he => hmax e (List.mem_append_left _ he), hF]
  have hdelta : upTo v l.deltas = l.deltas := upTo_all fun e he => hmax e (List.mem_append_right _ he)
  cases kind with
  | incremental =>
    rw [KindVersions.content, KindVersions.onFull, hfull, Option.bind_some, between, hdelta, hd.drop_rank]
  | differential =>
    rw [KindVersions.content, KindVersions.onFull, hfull, Option.bind_some, newest, hdelta]

end Versions

/-! ## What keeps a base -/

/-- A base, before every delta, and names that fit their directories. -/
structure KindVersions.Sound (kind : BackupType) (fileName : Bytes) (l : KindVersions) (v c : Bytes) :
    Prop where
  hasBase : l.HasBase kind v c
  before : ∃ f ∈ l.fulls, ∀ d ∈ l.deltas, f.1 < d.1
  fullNames : ∀ f ∈ l.fulls, NameOk (fullPrefix fileName ++ f.1)
  deltaNames : ∀ d ∈ l.deltas, NameOk (deltaPrefix fileName ++ d.1)

namespace KindVersions

section Keep

variable {l : KindVersions} {fl : List (Bytes × Bytes)} {fileName v c : Bytes} {kind : BackupType}

/-- The newest full backup, and what the newest version is on it. -/
theorem HasBase.newest (h : l.HasBase kind v c) (hf : Ascending l.fulls) (hd : Ascending l.deltas) :
    ∃ F, l.fulls.getLast? = some F ∧ (∀ f ∈ l.fulls, f.1 ≤ F.1) ∧ F ∈ l.fulls ∧
      l.onFull kind v F = some c := by
  obtain ⟨f, hmem, -⟩ := h.base
  obtain ⟨F, hF⟩ := Option.isSome_iff_exists.1 (List.getLast?_isSome.2 (List.ne_nil_of_mem hmem))
  obtain ⟨hFm, hmax⟩ := hf.getLast_max hF
  refine ⟨F, hF, hmax, hFm, ?_⟩
  rw [← h.rebuilds.2, content_latest hd h.latest hF kind]

/-- **The oldest full backup may go** when there is another one. -/
theorem Sound.dropFull (h : l.Sound kind fileName v c) (hf : Ascending l.fulls) (hd : Ascending l.deltas)
    (hlen : 2 ≤ l.fulls.length) : l.dropFull.Sound kind fileName v c := by
  obtain ⟨F, hF, hmax, hFm, hcontent⟩ := h.hasBase.newest hf hd
  obtain ⟨fulls, deltas⟩ := l
  match fulls, hlen with
  | f₀ :: f₁ :: fs, _ =>
    have hsub : ∀ d ∈ deltas.filter (fun d => decide (f₁.1 < d.1)), d ∈ deltas ∧ f₁.1 < d.1 := by
      intro d hmem
      simpa using hmem
    have hF' : (f₁ :: fs).getLast? = some F := by rw [← hF, List.getLast?_cons_cons]
    have hle : f₁.1 ≤ F.1 := hmax f₁ (by simp)
    have hlatest : ∀ e ∈ (f₁ :: fs) ++ deltas.filter (fun d => decide (f₁.1 < d.1)), e.1 ≤ v := by
      intro e he
      rcases List.mem_append.1 he with he | he
      · exact h.hasBase.latest e (List.mem_append_left _ (List.mem_cons_of_mem _ he))
      · exact h.hasBase.latest e (List.mem_append_right _ (hsub e he).1)
    -- the newest version is not among what goes
    have hkept : v ∈ (f₁ :: fs).map Prod.fst ∨
        v ∈ (deltas.filter fun d => decide (f₁.1 < d.1)).map Prod.fst := by
      have hlt : f₀.1 < f₁.1 := (List.pairwise_cons.1 hf).1 f₁ (by simp)
      have hf₁v : f₁.1 ≤ v := h.hasBase.latest f₁ (by simp)
      rcases h.hasBase.rebuilds.1 with hv | hv
      · rcases List.mem_cons.1 hv with rfl | hv
        · exact absurd hf₁v (not_le.2 hlt)
        · exact Or.inl hv
      · obtain ⟨d, hdm, rfl⟩ := List.mem_map.1 hv
        rcases hf₁v.eq_or_lt with heq | hlt'
        · exact Or.inl (List.mem_map.2 ⟨f₁, by simp, heq⟩)
        · exact Or.inr (List.mem_map.2 ⟨d, List.mem_filter.2 ⟨hdm, by simpa using hlt'⟩, rfl⟩)
    constructor
    · refine ⟨⟨f₁, by simp [KindVersions.dropFull], fun d hmem => (hsub d hmem).2.le⟩, hlatest, hkept, ?_⟩
      rw [content_latest (hd.sublist List.filter_sublist) hlatest hF']
      rw [← hcontent]
      cases kind with
      | incremental =>
        simp only [KindVersions.dropFull, KindVersions.onFull, List.filter_filter]
        congr 1
        refine List.filter_congr fun d hmem => ?_
        rw [← Bool.decide_and, decide_eq_decide]
        exact and_iff_left_of_imp hle.trans_lt
      | differential =>
        simp only [KindVersions.dropFull, KindVersions.onFull]
        split_ifs with hv
        · rfl
        · -- the last delta is the newest version, and stays
          have hlast : (deltas.filter fun d => decide (f₁.1 < d.1)).getLast? = deltas.getLast? := by
            cases hl : deltas.getLast? with
            | none => simp [List.getLast?_eq_none_iff.1 hl]
            | some d =>
              obtain ⟨pre, rfl⟩ := List.getLast?_eq_some_iff.1 hl
              have hdv : f₁.1 < d.1 := by
                rcases h.hasBase.rebuilds.1 with hfv | hdv
                · obtain ⟨g, hg, hgv⟩ := List.mem_map.1 hfv
                  exact absurd (le_antisymm (h.hasBase.latest F (List.mem_append_left _ hFm))
                    (hgv ▸ hmax g hg)) hv
                · obtain ⟨d', hd', hdv'⟩ := List.mem_map.1 hdv
                  have h₁ := (hd.getLast_max hl).2 d' hd'
                  have hFv := lt_of_le_of_ne (h.hasBase.latest F (List.mem_append_left _ hFm)) hv
                  exact (hle.trans_lt hFv).trans_le (hdv' ▸ h₁)
              rw [List.filter_append, List.filter_cons_of_pos (by simpa using hdv), List.filter_nil,
                List.getLast?_append, List.getLast?_singleton]
              rfl
          rw [hlast]
    · exact ⟨f₁, by simp [KindVersions.dropFull], fun d hmem => (hsub d hmem).2⟩
    · intro f hfm
      exact h.fullNames f (List.mem_cons_of_mem _ hfm)
    · intro d hdm
      exact h.deltaNames d (hsub d hdm).1

/-- The oldest delta of a differential store may go unless the newest version is its own. -/
theorem Sound.dropDelta_differential {d : Bytes × Bytes} {ds : List (Bytes × Bytes)}
    (h : (⟨fl, d :: ds⟩ : KindVersions).Sound .differential fileName v c) (hf : Ascending fl)
    (hd : Ascending (d :: ds)) (hdrop : (⟨fl, d :: ds⟩ : KindVersions).Droppable .differential) :
    (⟨fl, ds⟩ : KindVersions).Sound .differential fileName v c := by
  obtain ⟨F, hF, hmax, hFm, hcontent⟩ := h.hasBase.newest hf hd
  obtain ⟨hlt, hds⟩ := List.pairwise_cons.1 hd
  have hlatest : ∀ e ∈ fl ++ ds, e.1 ≤ v := by
    intro e he
    rcases List.mem_append.1 he with he | he
    · exact h.hasBase.latest e (List.mem_append_left _ he)
    · exact h.hasBase.latest e (List.mem_append_right _ (List.mem_cons_of_mem _ he))
  -- either another delta is the newest version, or a full backup is
  have hnewest : ds ≠ [] ∨ F.1 = v := by
    rcases hdrop.2 with hlen | ⟨f, hfm, hlater⟩
    · exact Or.inl fun h => hlen (by simp [h])
    · refine Or.inr (le_antisymm (h.hasBase.latest F (List.mem_append_left _ hFm)) ?_)
      rcases h.hasBase.rebuilds.1 with hv | hv
      · obtain ⟨g, hg, rfl⟩ := List.mem_map.1 hv
        exact hmax g hg
      · obtain ⟨g, hg, rfl⟩ := List.mem_map.1 hv
        exact (hlater g hg).trans (hmax f hfm)
  have hkept : v ∈ fl.map Prod.fst ∨ v ∈ ds.map Prod.fst := by
    rcases h.hasBase.rebuilds.1 with hv | hv
    · exact Or.inl hv
    · rcases List.mem_cons.1 hv with rfl | hv
      · rcases hnewest with hne | hFv
        · obtain ⟨e, he⟩ := List.exists_mem_of_ne_nil _ hne
          exact absurd (hlatest e (List.mem_append_right _ he)) (not_le.2 (hlt e he))
        · exact Or.inl (List.mem_map.2 ⟨F, hFm, hFv⟩)
      · exact Or.inr hv
  constructor
  · obtain ⟨f, hfm, hbelow⟩ := h.hasBase.base
    refine ⟨⟨f, hfm, fun e he => hbelow e (List.mem_cons_of_mem _ he)⟩, hlatest, hkept, ?_⟩
    rw [content_latest (l := ⟨fl, ds⟩) hds hlatest hF, ← hcontent]
    simp only [KindVersions.onFull]
    split_ifs with hFv
    · rfl
    · obtain ⟨e, es, rfl⟩ := List.exists_cons_of_ne_nil (hnewest.resolve_right hFv)
      rw [List.getLast?_cons_cons]
  · obtain ⟨f, hfm, hbelow⟩ := h.before
    exact ⟨f, hfm, fun e he => hbelow e (List.mem_cons_of_mem _ he)⟩
  · exact h.fullNames
  · exact fun e he => h.deltaNames e (List.mem_cons_of_mem _ he)

/-- The oldest full backup is before every delta. -/
theorem Sound.head_lt {f d : Bytes × Bytes} {fs ds : List (Bytes × Bytes)}
    (h : (⟨f :: fs, d :: ds⟩ : KindVersions).Sound kind fileName v c) (hf : Ascending (f :: fs)) :
    f.1 < d.1 := by
  obtain ⟨g, hg, hbelow⟩ := h.before
  rcases List.mem_cons.1 hg with rfl | hg
  · exact hbelow d (by simp)
  · exact ((List.pairwise_cons.1 hf).1 g hg).trans (hbelow d (by simp))

/-- **The oldest delta of an incremental store may be merged** into the oldest full backup
    when it was made against it, or a later full backup follows. -/
theorem Sound.merge {f d : Bytes × Bytes} {fs ds fs' : List (Bytes × Bytes)} {merged : Bytes}
    (h : (⟨f :: fs, d :: ds⟩ : KindVersions).Sound .incremental fileName v c)
    (hf : Ascending (f :: fs)) (hd : Ascending (d :: ds))
    (hdrop : (⟨f :: fs, d :: ds⟩ : KindVersions).Droppable .incremental)
    (hmerged : applyDelta f.2 d.2 = some merged) (hasc : Ascending fs')
    (hmem : ∀ e, e ∈ fs' ↔ e = (d.1, merged) ∨ e ∈ fs ∧ e.1 ≠ d.1) :
    (⟨fs', ds⟩ : KindVersions).Sound .incremental fileName v c := by
  obtain ⟨F, hF, hmax, hFm, hcontent⟩ := h.hasBase.newest hf hd
  obtain ⟨hlt, hds⟩ := List.pairwise_cons.1 hd
  have hlatest : ∀ e ∈ fs' ++ ds, e.1 ≤ v := by
    intro e he
    rcases List.mem_append.1 he with he | he
    · rcases (hmem e).1 he with rfl | ⟨he, -⟩
      · exact h.hasBase.latest d (by simp)
      · exact h.hasBase.latest e (by simp [he])
    · exact h.hasBase.latest e (by simp [he])
  have hfd := h.head_lt hf
  obtain ⟨G, hG, hGmax⟩ : ∃ G, fs'.getLast? = some G ∧ ∀ e ∈ fs', e.1 ≤ G.1 := by
    obtain ⟨G, hG⟩ := Option.isSome_iff_exists.1
      (List.getLast?_isSome.2 (List.ne_nil_of_mem ((hmem (d.1, merged)).2 (Or.inl rfl))))
    exact ⟨G, hG, (hasc.getLast_max hG).2⟩
  have hGmem := (hmem G).1 (hasc.getLast_max hG).1
  have hmergedG : d.1 ≤ G.1 := hGmax (d.1, merged) ((hmem _).2 (Or.inl rfl))
  have hfsG : ∀ e ∈ fs, e.1 ≤ G.1 := by
    intro e he
    by_cases hed : e.1 = d.1
    · rw [hed]
      exact hmergedG
    · exact hGmax e ((hmem e).2 (Or.inr ⟨he, hed⟩))
  have hFG : F.1 ≤ G.1 := by
    rcases List.mem_cons.1 hFm with rfl | hFfs
    · exact hfd.le.trans hmergedG
    · exact hfsG F hFfs
  constructor
  · refine ⟨⟨(d.1, merged), (hmem _).2 (Or.inl rfl), fun e he => (hlt e he).le⟩, hlatest, ?_, ?_⟩
    · rcases h.hasBase.rebuilds.1 with hv | hv
      · rcases List.mem_cons.1 hv with rfl | hv
        · exact absurd (h.hasBase.latest d (by simp)) (not_le.2 hfd)
        · obtain ⟨g, hg, rfl⟩ := List.mem_map.1 hv
          by_cases hgd : g.1 = d.1
          · exact Or.inl (List.mem_map.2 ⟨(d.1, merged), (hmem _).2 (Or.inl rfl), hgd.symm⟩)
          · exact Or.inl (List.mem_map.2 ⟨g, (hmem g).2 (Or.inr ⟨hg, hgd⟩), rfl⟩)
      · rcases List.mem_cons.1 hv with rfl | hv
        · exact Or.inl (List.mem_map.2 ⟨(d.1, merged), (hmem _).2 (Or.inl rfl), rfl⟩)
        · exact Or.inr hv
    · rw [content_latest (l := ⟨fs', ds⟩) hds hlatest hG, ← hcontent]
      simp only [KindVersions.onFull]
      rcases hGmem with rfl | ⟨hGfs, hGd⟩
      · -- the merged backup is the newest one
        have hsame := (hdrop.2 f rfl F hF d rfl).resolve_left (not_lt.2 hFG)
        rw [hd.filter_tail, ← hsame, replay, hmerged, Option.bind_some]
      · -- a later full backup is: the deltas after it are the same
        have hdG : d.1 < G.1 := lt_of_le_of_ne hmergedG (Ne.symm hGd)
        have hFeq : F = G := List.inj_on_of_nodup_map hf.nodup hFm (List.mem_cons_of_mem _ hGfs)
          (le_antisymm hFG (hmax G (List.mem_cons_of_mem _ hGfs)))
        rw [hFeq, List.filter_cons_of_neg (by simpa using hdG.le)]
  · exact ⟨(d.1, merged), (hmem _).2 (Or.inl rfl), hlt⟩
  · intro e he
    rcases (hmem e).1 he with rfl | ⟨he, -⟩
    · exact nameOk_fullPrefix (h.deltaNames d (by simp))
    · exact h.fullNames e (by simp [he])
  · exact fun e he => h.deltaNames e (by simp [he])

/-- Without an oldest delta that may go the base is kept. -/
theorem Sound.droppedTo {l' : KindVersions} (h : l.Sound kind fileName v c) (hf : Ascending l.fulls)
    (hd : Ascending l.deltas) (hto : l.DroppedTo kind l') (hdrop : l.Droppable kind) :
    l'.Sound kind fileName v c := by
  obtain ⟨fl, dl⟩ := l
  obtain ⟨fl', dl'⟩ := l'
  cases kind with
  | differential =>
    obtain ⟨d, ds, rfl⟩ := List.exists_cons_of_ne_nil hdrop.1
    obtain ⟨rfl, rfl⟩ : fl' = fl ∧ dl' = ds := hto
    exact h.dropDelta_differential hf hd hdrop
  | incremental =>
    obtain ⟨f, fs, d, ds, merged, hfl, hdl, hmerged, hasc, hds, hmem⟩ := hto
    dsimp only at hfl hdl hds
    subst hfl hdl hds
    exact h.merge hf hd hdrop hmerged hasc hmem

/-- The base is only kept without an oldest delta that may go. -/
theorem Sound.droppable {l' : KindVersions} (h : l.Sound kind fileName v c) (hf : Ascending l.fulls)
    (hd : Ascending l.deltas) (hne : l.deltas ≠ []) (hto : l.DroppedTo kind l')
    (hl' : l'.HasBase kind v c) : l.Droppable kind := by
  obtain ⟨F, hF, hmax, hFm, hcontent⟩ := h.hasBase.newest hf hd
  obtain ⟨fl, dl⟩ := l
  obtain ⟨fl', dl'⟩ := l'
  refine ⟨hne, ?_⟩
  cases kind with
  | differential =>
    obtain ⟨d, ds, rfl⟩ := List.exists_cons_of_ne_nil hne
    obtain ⟨rfl, rfl⟩ : fl' = fl ∧ dl' = ds := hto
    -- a single delta goes: the newest version is a full backup
    by_cases hlen : dl' = []
    · subst hlen
      refine Or.inr ⟨F, hFm, fun e he => ?_⟩
      rw [List.mem_singleton.1 he]
      rcases hl'.rebuilds.1 with hv | hv
      · obtain ⟨g, hg, rfl⟩ := List.mem_map.1 hv
        exact (h.hasBase.latest d (by simp)).trans (hmax g hg)
      · cases hv
    · exact Or.inl fun h => hlen (by simpa using h)
  | incremental =>
    obtain ⟨f, fs, d, ds, merged, hfl, hdl, hmerged, hasc, hds, hmem⟩ := hto
    dsimp only at hfl hdl hds
    subst hfl hdl hds
    rintro _ ⟨⟩ G hG _ ⟨⟩
    obtain rfl : F = G := Option.some.inj (hF.symm.trans hG)
    by_cases hdF : d.1 < F.1
    · exact Or.inl hdF
    right
    -- the merged full backup is the newest one now
    obtain ⟨G, hG, hGmax, hGm, hcontent'⟩ := hl'.newest hasc (List.pairwise_cons.1 hd).2
    have hGd : G = (d.1, merged) := by
      rcases (hmem G).1 hGm with rfl | ⟨hGfs, hGd⟩
      · rfl
      · have h₁ := hmax G (List.mem_cons_of_mem _ hGfs)
        have h₂ := hGmax (d.1, merged) ((hmem _).2 (Or.inl rfl))
        exact absurd (le_antisymm (h₁.trans (not_lt.1 hdF)) h₂) hGd
    subst hGd
    simp only [KindVersions.onFull] at hcontent hcontent'
    rw [hd.filter_tail] at hcontent'
    rw [hcontent, replay, hmerged, Option.bind_some, hcontent']

end Keep

end KindVersions

/-! ## What `manage_backup_version` does to a store -/

section Manage

variable {l : KindVersions} {dirName fileName v c p : Bytes} {s : Store} {kind : BackupType} {N : ℤ}
  {d : Dir} {vs : List (Bytes × Bytes)}

/-- The first versions go, one after the other. -/
theorem Dir.Holds.eraseFront (h : Dir.Holds p d vs) (i : ℕ) :
    Dir.Holds p (((Dir.Holds.names p vs).take i).foldl (fun d f => d.erase f) d) (vs.drop i) := by
  induction i generalizing d vs with
  | zero => exact h
  | succ i ih =>
    cases vs with
    | nil => exact h
    | cons e vs =>
      rw [Dir.Holds.names, List.map_cons, List.take_succ_cons, List.foldl_cons, List.drop_succ_cons]
      exact ih h.erase

/-- Only what is found under the names counts. -/
theorem Dir.Holds.congr {d' : Dir} (h : Dir.Holds p d vs) (heq : ∀ n, d'.lookup n = d.lookup n) :
    Dir.Holds p d' vs :=
  ⟨h.ascending, h.noDot, fun name content => by rw [heq, h.lookup]⟩

/-- A version goes to its place, over one that is there. -/
theorem Dir.Holds.insertAt (h : Dir.Holds p d vs) (content : Bytes) (hv : dot ∉ v) :
    ∃ vs', Dir.Holds p (d.insert (p ++ v) content) vs' ∧
      ∀ e, e ∈ vs' ↔ e = (v, content) ∨ e ∈ vs ∧ e.1 ≠ v := by
  have hmem : ∀ e, e ∈ vs.filter (fun e => decide (e.1 < v)) ++ (v, content) ::
      vs.filter (fun e => decide (v < e.1)) ↔ e = (v, content) ∨ e ∈ vs ∧ e.1 ≠ v := by
    intro e
    simp only [List.mem_append, List.mem_cons, List.mem_filter, decide_eq_true_eq]
    constructor
    · rintro (⟨he, hlt⟩ | rfl | ⟨he, hlt⟩)
      · exact Or.inr ⟨he, hlt.ne⟩
      · exact Or.inl rfl
      · exact Or.inr ⟨he, hlt.ne'⟩
    · rintro (rfl | ⟨he, hne⟩)
      · exact Or.inr (Or.inl rfl)
      · rcases lt_or_gt_of_ne hne with hlt | hgt
        · exact Or.inl ⟨he, hlt⟩
        · exact Or.inr (Or.inr ⟨he, hgt⟩)
  refine ⟨_, ⟨?_, ?_, ?_⟩, hmem⟩
  · refine List.pairwise_append.2 ⟨h.ascending.sublist List.filter_sublist, ?_, ?_⟩
    · exact List.pairwise_cons.2 ⟨fun e he => by simpa using (List.mem_filter.1 he).2,
        h.ascending.sublist List.filter_sublist⟩
    · intro a ha b hb
      have hav : a.1 < v := by simpa using (List.mem_filter.1 ha).2
      rcases List.mem_cons.1 hb with rfl | hb
      · exact hav
      · exact hav.trans (by simpa using (List.mem_filter.1 hb).2)
  · intro e he
    rcases (hmem e).1 he with rfl | ⟨he, -⟩
    · exact hv
    · exact h.noDot e he
  · intro name content'
    by_cases hname : name = p ++ v
    · subst hname
      rw [AList.lookup_insert]
      constructor
      · rintro ⟨⟩
        exact ⟨v, rfl, (hmem _).2 (Or.inl rfl)⟩
      · rintro ⟨u, hu, he⟩
        obtain rfl := List.append_cancel_left hu
        rcases (hmem _).1 he with heq | ⟨-, hne⟩
        · rw [(Prod.mk.inj heq).2]
        · exact absurd rfl hne
    · rw [AList.lookup_insert_ne hname, h.lookup]
      constructor
      · rintro ⟨u, hu, he⟩
        refine ⟨u, hu, (hmem _).2 (Or.inr ⟨he, ?_⟩)⟩
        rintro rfl
        exact hname hu
      · rintro ⟨u, rfl, he⟩
        rcases (hmem _).1 he with heq | ⟨he, -⟩
        · exact absurd (by rw [(Prod.mk.inj heq).1]) hname
        · exact ⟨u, rfl, he⟩

/-- The deltas up to a full backup are counted. -/
theorem staleDeltas_names (deltaDir t : Bytes) (hdot : ∀ e ∈ vs, dot ∉ e.1)
    (hname : ∀ e ∈ vs, NameOk (deltaPrefix fileName ++ e.1)) :
    staleDeltas deltaDir t (Dir.Holds.names (deltaPrefix fileName) vs) = some (rank t vs) := by
  induction vs with
  | nil => rfl
  | cons e vs ih =>
    rw [Dir.Holds.names, List.map_cons, staleDeltas,
      extract_prefix (deltaPrefix_eq fileName) (hdot e (by simp)),
      if_pos (timestamp_fits (hname e (by simp))), Option.bind_eq_bind, Option.bind_some, rank, upTo_cons]
    by_cases he : e.1 ≤ t
    · rw [if_pos he, if_pos he, ← Dir.Holds.names, ih (fun e he => hdot e (by simp [he]))
        (fun e he => hname e (by simp [he]))]
      rfl
    · rw [if_neg he, if_neg he]
      rfl

/-- **The oldest full backup goes** as `dropFull` says. -/
theorem dropOldestFull_eq (h : l.In fileName s) (hs : l.Sound kind fileName v c) (fullDir deltaDir : Bytes)
    (hlen : 2 ≤ l.fulls.length) :
    ∃ s' i, dropOldestFull fullDir deltaDir (Dir.Holds.names (fullPrefix fileName) l.fulls)
        (Dir.Holds.names (deltaPrefix fileName) l.deltas) s = some (s', i) ∧ l.dropFull.In fileName s' ∧
      l.dropFull.deltas = l.deltas.drop i ∧ i ≤ l.deltas.length ∧ l.dropFull.fulls = l.fulls.drop 1 := by
  obtain ⟨fulls, deltas⟩ := l
  match fulls, hlen with
  | f₀ :: f₁ :: fs, _ =>
    have hdrop : deltas.drop (rank f₁.1 deltas) = deltas.filter fun d => decide (f₁.1 < d.1) :=
      h.delta.ascending.drop_rank f₁.1
    have ht₀ : ∀ e ∈ f₀ :: f₁ :: fs,
        extractFileNameTimestamp maxPathLen (fullDir ++ (fullPrefix fileName ++ e.1)) = some e.1 := by
      intro e he
      rw [ extract_prefix (fullPrefix_eq fileName) (h.full.noDot e he),
        if_pos (timestamp_fits (hs.fullNames e he))]
    refine ⟨⟨s.full.erase (fullPrefix fileName ++ f₀.1),
      ((Dir.Holds.names (deltaPrefix fileName) deltas).take (rank f₁.1 deltas)).foldl
        (fun d f => d.erase f) s.delta⟩, rank f₁.1 deltas, ?_, ⟨h.full.erase, ?_, ?_⟩, hdrop.symm,
      rank_le _ _, rfl⟩
    · rw [dropOldestFull, Dir.Holds.names, List.map_cons, List.map_cons]
      simp only [List.getElem?_cons_zero, List.getElem?_cons_succ, Option.bind_eq_bind, Option.bind_some,
        ht₀ f₀ (by simp), ht₀ f₁ (by simp),
        staleDeltas_names deltaDir f₁.1 h.delta.noDot hs.deltaNames]
    · have hfront := h.delta.eraseFront (rank f₁.1 deltas)
      rw [hdrop] at hfront
      exact hfront
    · intro e he
      exact h.readable e (List.mem_of_mem_filter he)

/-- **The oldest delta goes**: erased, or merged into the oldest full backup. -/
theorem dropOldestDelta_eq (h : l.In fileName s) (hs : l.Sound kind fileName v c)
    (hdot : kind = .incremental → dot ∉ fileName) (hne : l.deltas ≠ []) {fulls deltas : List Bytes}
    {i j : ℕ} (hfulls : fulls.drop j = Dir.Holds.names (fullPrefix fileName) l.fulls)
    (hdeltas : deltas.drop i = Dir.Holds.names (deltaPrefix fileName) l.deltas) (deltaDir : Bytes) :
    ∃ s' l', dropOldestDelta deltaDir kind fulls deltas s i j = some s' ∧
      KindVersions.In l' fileName s' ∧ l.DroppedTo kind l' := by
  obtain ⟨fl, dl⟩ := l
  obtain ⟨d, ds, rfl⟩ := List.exists_cons_of_ne_nil hne
  have hi : deltas[i]? = some (deltaPrefix fileName ++ d.1) := by
    rw [← Nat.add_zero i, ← List.getElem?_drop, hdeltas]
    rfl
  rw [dropOldestDelta, hi, Option.bind_eq_bind, Option.bind_some]
  have hreadable : ∀ e ∈ ds, ∀ full, (applyDelta full e.2).isSome :=
    fun e he => h.readable e (List.mem_cons_of_mem _ he)
  cases kind with
  | differential => exact ⟨_, ⟨fl, ds⟩, rfl, ⟨h.full, h.delta.erase, hreadable⟩, rfl, rfl⟩
  | incremental =>
    obtain ⟨f₀, hf₀, -⟩ := hs.hasBase.base
    obtain ⟨f, fs, rfl⟩ := List.exists_cons_of_ne_nil (List.ne_nil_of_mem hf₀)
    have hj : fulls[j]? = some (fullPrefix fileName ++ f.1) := by
      rw [← Nat.add_zero j, ← List.getElem?_drop, hfulls]
      rfl
    obtain ⟨merged, hmerged⟩ := Option.isSome_iff_exists.1 (h.readable d (by simp) f.2)
    have hfd := hs.head_lt h.full.ascending
    have hdv := h.delta.noDot d (by simp)
    obtain ⟨fs', hfs', hmem⟩ := h.full.erase.insertAt merged hdv
    have hrow : updateIncreFullBackup deltaDir s _ _ = some (0, _) :=
      updateIncreFullBackup_row (hdot rfl) hdv hfd (hs.deltaNames d (by simp))
        (h.full.lookup_of_mem (by simp)) (h.delta.lookup_of_mem (by simp)) hmerged
    refine ⟨⟨((s.full.insert (fullPrefix fileName ++ d.1) []).insert (fullPrefix fileName ++ d.1)
        merged).erase (fullPrefix fileName ++ f.1), s.delta.erase (deltaPrefix fileName ++ d.1)⟩,
      ⟨fs', ds⟩, ?_, ⟨?_, h.delta.erase, hreadable⟩, f, fs, d, ds, merged, rfl, rfl, hmerged,
      hfs'.ascending, rfl, hmem⟩
    · simp only [hj, Option.bind_some, hrow, Option.bind_eq_bind]
    · refine hfs'.congr fun n => ?_
      have hne : fullPrefix fileName ++ f.1 ≠ fullPrefix fileName ++ d.1 := fun heq =>
        hfd.ne (List.append_cancel_left heq)
      by_cases hold : n = fullPrefix fileName ++ f.1
      · rw [hold, AList.lookup_erase, AList.lookup_insert_ne hne, AList.lookup_erase]
      · rw [AList.lookup_erase_ne hold, AList.insert_insert]
        by_cases hnew : n = fullPrefix fileName ++ d.1
        · rw [hnew, AList.lookup_insert, AList.lookup_insert]
        · rw [AList.lookup_insert_ne hnew, AList.lookup_insert_ne hnew, AList.lookup_erase_ne hold]

/-- The versions in a store are what its files are. -/
theorem Dir.Holds.unique {vs' : List (Bytes × Bytes)} (h : Dir.Holds p d vs) (h' : Dir.Holds p d vs') :
    vs = vs' := by
  have hmem : ∀ e, e ∈ vs ↔ e ∈ vs' := by
    intro e
    constructor
    · intro he
      obtain ⟨u, hu, hmem⟩ := (h'.lookup _ _).1 (h.lookup_of_mem he)
      rwa [← List.append_cancel_left hu] at hmem
    · intro he
      obtain ⟨u, hu, hmem⟩ := (h.lookup _ _).1 (h'.lookup_of_mem he)
      rwa [← List.append_cancel_left hu] at hmem
  have hperm : vs.Perm vs' := (List.perm_ext_iff_of_nodup (h.ascending.imp fun hlt => by
    rintro rfl
    exact lt_irrefl _ hlt) (h'.ascending.imp fun hlt => by
    rintro rfl
    exact lt_irrefl _ hlt)).2 hmem
  exact hperm.eq_of_pairwise (fun a b _ _ hab hba => absurd (hab.trans hba) (lt_irrefl _))
    h.ascending h'.ascending

theorem KindVersions.In.unique {l' : KindVersions} (h : l.In fileName s) (h' : l'.In fileName s) :
    l = l' := by
  obtain ⟨fl, dl⟩ := l
  obtain ⟨fl', dl'⟩ := l'
  obtain rfl : fl = fl' := h.full.unique h'.full
  obtain rfl : dl = dl' := h.delta.unique h'.delta
  rfl

theorem names_length (p : Bytes) (vs : List (Bytes × Bytes)) : (Dir.Holds.names p vs).length = vs.length :=
  List.length_map _

/-- What `manage_backup_version` does once the oldest full backup is dealt with. -/
theorem manage_counted (h : l.In fileName s) (hs : l.Sound kind fileName v c)
    (hfulls : l.fulls.length ≤ maxBackupNum) (hdeltas : l.deltas.length ≤ maxBackupNum)
    (hspare : N < l.fulls.length → 2 ≤ l.fulls.length) (path : Bytes) :
    ∃ s₁, (l.counted N).In fileName s₁ ∧ (l.counted N).Sound kind fileName v c ∧
      (¬ N < (l.counted N).deltas.length → manageBackupVersion path kind N s = some s₁) ∧
      (N < (l.counted N).deltas.length → ∃ fulls deltas i j,
        manageBackupVersion path kind N s =
          dropOldestDelta (path ++ cstr "delta/") kind fulls deltas s₁ i j ∧
        fulls.drop j = Dir.Holds.names (fullPrefix fileName) (l.counted N).fulls ∧
        deltas.drop i = Dir.Holds.names (deltaPrefix fileName) (l.counted N).deltas) := by
  rw [manageBackupVersion]
  simp only [h.full.readSort, h.delta.readSort, hfulls, hdeltas, if_true, Option.bind_eq_bind,
    Option.bind_some, names_length]
  by_cases hN : N < l.fulls.length
  · obtain ⟨s₁, i, hdrop, hin, hleft, hi, hrest⟩ :=
      dropOldestFull_eq h hs (path ++ cstr "full/") (path ++ cstr "delta/") (hspare hN)
    have hcounted : l.counted N = l.dropFull := if_pos hN
    have hlen : (l.dropFull.deltas.length : ℤ) = l.deltas.length - i := by
      rw [hleft, List.length_drop]
      omega
    rw [hcounted, if_neg (by omega), if_pos hN, hdrop, Option.bind_some, if_pos hN, hlen]
    refine ⟨s₁, hin, hs.dropFull h.full.ascending h.delta.ascending (hspare hN), fun hold => if_neg hold,
      fun hold => ⟨_, _, i, 1, if_pos hold, ?_, ?_⟩⟩
    · rw [hrest, Dir.Holds.names, Dir.Holds.names, List.map_drop]
    · rw [hleft, Dir.Holds.names, Dir.Holds.names, List.map_drop]
  · have hcounted : l.counted N = l := if_neg hN
    rw [hcounted, if_neg hN, if_neg hN]
    refine ⟨s, h, hs, fun hold => if_pos (by omega), fun hold => ⟨_, _, 0, 0, ?_, rfl, rfl⟩⟩
    rw [if_neg (by omega), if_pos (by omega)]
    rfl

/-- A store that can be managed keeps its base. -/
theorem manage_sound (h : l.In fileName s) (hs : l.Sound kind fileName v c) (hm : l.Manageable kind N)
    (hdot : kind = .incremental → N < (l.counted N).deltas.length → dot ∉ fileName) (path : Bytes) :
    ∃ s' l', manageBackupVersion path kind N s = some s' ∧ KindVersions.In l' fileName s' ∧
      l'.Sound kind fileName v c := by
  obtain ⟨s₁, hin, hsound, hdone, hmore⟩ := manage_counted h hs hm.fulls hm.deltas hm.spare path
  by_cases hold : N < (l.counted N).deltas.length
  · obtain ⟨fulls, deltas, i, j, hdrop, hfj, hdi⟩ := hmore hold
    have hroom := hm.oldest hold
    obtain ⟨s', l', hs', hin', hto⟩ := dropOldestDelta_eq hin hsound (fun hk => hdot hk hold) hroom.1 hfj hdi
      (path ++ cstr "delta/")
    exact ⟨s', l', hdrop.trans hs', hin', hsound.droppedTo hin.full.ascending hin.delta.ascending hto hroom⟩
  · exact ⟨s₁, _, hdone hold, hin, hsound⟩

/-- **A store keeps its base just when it can be managed.** -/
theorem manage_iff (h : l.In fileName s) (hs : l.Sound kind fileName v c)
    (hdot : kind = .incremental → N < (l.counted N).deltas.length → dot ∉ fileName) (path : Bytes) :
    (∃ s', manageBackupVersion path kind N s = some s' ∧ KeepsBase kind fileName s' v c) ↔
      l.Manageable kind N := by
  constructor
  · rintro ⟨s', hs', l', hin', hbase'⟩
    have hread := hs'
    rw [manageBackupVersion, h.full.readSort, h.delta.readSort] at hread
    by_cases hfulls : l.fulls.length ≤ maxBackupNum
    swap
    · rw [if_neg hfulls] at hread
      cases hread
    by_cases hdeltas : l.deltas.length ≤ maxBackupNum
    swap
    · rw [if_pos hfulls, if_neg hdeltas] at hread
      cases hread
    -- a single full backup that is too many has no next one
    have hspare : N < l.fulls.length → 2 ≤ l.fulls.length := by
      intro hN
      by_contra hone
      rw [if_pos hfulls, if_pos hdeltas] at hread
      simp only [Option.bind_eq_bind, Option.bind_some, names_length] at hread
      have hnext : (Dir.Holds.names (fullPrefix fileName) l.fulls)[1]? = none :=
        List.getElem?_eq_none (by rw [names_length]; omega)
      rw [if_neg (by omega), if_pos hN, dropOldestFull, hnext] at hread
      simp at hread
    obtain ⟨s₁, hin, hsound, -, hmore⟩ := manage_counted h hs hfulls hdeltas hspare path
    refine ⟨hfulls, hdeltas, hspare, fun hold => ?_⟩
    obtain ⟨fulls, deltas, i, j, hdrop, hfj, hdi⟩ := hmore hold
    rw [hdrop] at hs'
    have hne : (l.counted N).deltas ≠ [] := by
      intro hnil
      rw [hnil] at hdi
      rw [dropOldestDelta, List.getElem?_eq_none (List.drop_eq_nil_iff.1 hdi)] at hs'
      cases hs'
    obtain ⟨s'', l'', hs'', hin'', hto⟩ := dropOldestDelta_eq hin hsound (fun hk => hdot hk hold) hne hfj hdi
      (path ++ cstr "delta/")
    obtain rfl : s' = s'' := Option.some.inj (hs'.symm.trans hs'')
    obtain rfl := hin'.unique hin''
    exact hsound.droppable hin.full.ascending hin.delta.ascending hne hto hbase'
  · intro hm
    obtain ⟨s', l', hs', hin', hsound⟩ := manage_sound h hs hm hdot path
    exact ⟨s', hs', l', hin', hsound.hasBase⟩

end Manage

/-! ## Backup after backup -/

section Runs

variable {l : KindVersions} {kind : BackupType} {dirName fileName v c : Bytes} {s s₁ : Store} {b : Stored}

/-- A full backup of the newest version is put on top. -/
theorem KindVersions.Sound.addFull {V C : Bytes} (h : l.Sound kind fileName V C) (hd : Ascending l.deltas)
    (hlt : ∀ f ∈ l.fulls, f.1 < V) (hname : NameOk (fullPrefix fileName ++ V)) :
    (⟨l.fulls ++ [(V, C)], l.deltas⟩ : KindVersions).Sound kind fileName V C := by
  have hlast : ∀ e ∈ (l.fulls ++ [(V, C)]) ++ l.deltas, e.1 ≤ V := by
    intro e he
    simp only [List.mem_append, List.mem_singleton] at he
    rcases he with (he | rfl) | he
    · exact (hlt e he).le
    · exact le_rfl
    · exact h.hasBase.latest e (List.mem_append_right _ he)
  obtain ⟨f, hfm, hbefore⟩ := h.before
  refine ⟨⟨⟨f, by simp [hfm], fun d hd => (hbefore d hd).le⟩, hlast, Or.inl (by simp), ?_⟩,
    ⟨f, by simp [hfm], hbefore⟩, ?_, h.deltaNames⟩
  · rw [content_latest (l := ⟨l.fulls ++ [(V, C)], l.deltas⟩) hd hlast List.getLast?_concat]
    cases kind with
    | differential => simp [KindVersions.onFull]
    | incremental =>
      have hnone : l.deltas.filter (fun d => decide (V < d.1)) = [] :=
        List.filter_eq_nil_iff.2 fun d hd => by
          simpa using h.hasBase.latest d (List.mem_append_right _ hd)
      simp only [KindVersions.onFull, hnone, replay]
  · intro e he
    rcases List.mem_append.1 he with he | he
    · exact h.fullNames e he
    · rw [List.mem_singleton.1 he]
      exact hname

/-- A later delta is put on top. -/
theorem KindVersions.Sound.addDelta {V C delta basis : Bytes} (h : l.Sound kind fileName v c)
    (hf : Ascending l.fulls) (hd : Ascending l.deltas) (hlt : v < V)
    (hbasis : l.basis (some (v, c)) kind = some basis) (happly : applyDelta basis delta = some C)
    (hname : NameOk (deltaPrefix fileName ++ V)) :
    (⟨l.fulls, l.deltas ++ [(V, delta)]⟩ : KindVersions).Sound kind fileName V C := by
  obtain ⟨F, hF, hmax, hFm, hcontent⟩ := h.hasBase.newest hf hd
  have hfulls : ∀ e ∈ l.fulls, e.1 < V := fun e he =>
    (h.hasBase.latest e (List.mem_append_left _ he)).trans_lt hlt
  have hdeltas : ∀ e ∈ l.deltas, e.1 < V := fun e he =>
    (h.hasBase.latest e (List.mem_append_right _ he)).trans_lt hlt
  have hasc : Ascending (l.deltas ++ [(V, delta)]) :=
    List.pairwise_append.2 ⟨hd, List.pairwise_singleton _ _, fun a ha e he => by
      rw [List.mem_singleton.1 he]
      exact hdeltas a ha⟩
  have hlast : ∀ e ∈ l.fulls ++ (l.deltas ++ [(V, delta)]), e.1 ≤ V := by
    intro e he
    simp only [List.mem_append, List.mem_singleton] at he
    rcases he with he | he | rfl
    · exact (hfulls e he).le
    · exact (hdeltas e he).le
    · exact le_rfl
  obtain ⟨f, hfm, hbefore⟩ := h.before
  have hbefore' : ∀ d ∈ l.deltas ++ [(V, delta)], f.1 < d.1 := by
    intro d hd
    rcases List.mem_append.1 hd with hd | hd
    · exact hbefore d hd
    · rw [List.mem_singleton.1 hd]
      exact hfulls f hfm
  refine ⟨⟨⟨f, hfm, fun d hd => (hbefore' d hd).le⟩, hlast, Or.inr (by simp), ?_⟩, ⟨f, hfm, hbefore'⟩,
    h.fullNames, ?_⟩
  · rw [content_latest (l := ⟨l.fulls, l.deltas ++ [(V, delta)]⟩) hasc hlast hF]
    cases kind with
    | differential =>
      rw [KindVersions.basis, hF, Option.map_some, Option.some.injEq] at hbasis
      simp only [KindVersions.onFull, if_neg (hfulls F hFm).ne, List.getLast?_concat, Option.bind_some,
        hbasis, happly]
    | incremental =>
      obtain rfl : c = basis := Option.some.inj hbasis
      rw [KindVersions.onFull] at hcontent ⊢
      rw [List.filter_append, List.filter_cons_of_pos (by simpa using hfulls F hFm), List.filter_nil,
        replay_append, hcontent, Option.bind_some, replay, happly, Option.bind_some, replay]
  · intro d hd
    rcases List.mem_append.1 hd with hd | hd
    · exact h.deltaNames d hd
    · rw [List.mem_singleton.1 hd]
      exact hname

theorem hasFull_iff (h : s.full.Holds (fullPrefix fileName) l.fulls) :
    s.hasFull fileName = true ↔ l.fulls ≠ [] := by
  rw [Store.hasFull, List.any_eq_true]
  constructor
  · rintro ⟨name, hname, -⟩ hnil
    obtain ⟨e, he, -⟩ := (h.mem_keys name).1 hname
    rw [hnil] at he
    cases he
  · intro hne
    obtain ⟨e, he⟩ := List.exists_mem_of_ne_nil _ hne
    exact ⟨fullPrefix fileName ++ e.1, (h.mem_keys _).2 ⟨e, he, rfl⟩,
      List.isPrefixOf_iff_prefix.2 (List.prefix_append _ _)⟩

/-- The first backup is the base. -/
theorem put_first (hb : b.Follows kind fileName ⟨∅, ∅⟩ none) (hput : b.put fileName ⟨∅, ∅⟩ = some s₁) :
    ∃ l : KindVersions, l.In fileName s₁ ∧ l.Sound kind fileName b.version b.content := by
  have hno : Store.hasFull fileName ⟨∅, ∅⟩ = false := rfl
  rw [Stored.put, Stored.putDelta, hno, if_neg Bool.false_ne_true, Option.bind_some, Stored.putFull, hno,
    Bool.false_and, if_neg Bool.false_ne_true, Dir.create] at hput
  split_ifs at hput with hname
  · rw [Option.map_some, Option.some.injEq] at hput
    subst hput
    have hholds : Dir.Holds (fullPrefix fileName) (AList.insert (fullPrefix fileName ++ b.version) b.content ∅)
        [(b.version, b.content)] := (Dir.Holds.empty _).insert hb.noDot (by simp)
    refine ⟨⟨[(b.version, b.content)], []⟩, ⟨hholds, Dir.Holds.empty _, by simp⟩, ⟨?_, ?_, ?_⟩, ?_, ?_, ?_⟩
    · exact ⟨_, List.mem_singleton_self _, by simp⟩
    · simp
    · refine ⟨Or.inl (by simp), ?_⟩
      rw [content_latest (l := ⟨[(b.version, b.content)], []⟩) List.Pairwise.nil (by simp) rfl]
      cases kind <;> simp [KindVersions.onFull, replay]
    · exact ⟨_, List.mem_singleton_self _, by simp⟩
    · simpa using hname
    · simp
  · cases hput

/-- **A later backup is put on top.** -/
theorem put_later (h : l.In fileName s) (hs : l.Sound kind fileName v c)
    (hb : b.Follows kind fileName s (some (v, c))) (hput : b.put fileName s = some s₁) :
    ∃ l' : KindVersions, l'.In fileName s₁ ∧ l'.Sound kind fileName b.version b.content := by
  obtain ⟨F, hF, -, hFm, -⟩ := hs.hasBase.newest h.full.ascending h.delta.ascending
  have hlater : v < b.version := hb.later _ rfl
  have hfulls : ∀ e ∈ l.fulls, e.1 < b.version := fun e he =>
    (hs.hasBase.latest e (List.mem_append_left _ he)).trans_lt hlater
  have hdeltas : ∀ e ∈ l.deltas, e.1 < b.version := fun e he =>
    (hs.hasBase.latest e (List.mem_append_right _ he)).trans_lt hlater
  have hhas : s.hasFull fileName = true := (hasFull_iff h.full).2 (List.ne_nil_of_mem hFm)
  obtain ⟨s₂, hdelta, hfull⟩ := Option.bind_eq_some_iff.1 hput
  rw [Stored.putDelta, if_pos hhas, Dir.create] at hdelta
  split_ifs at hdelta with hname
  · rw [Option.map_some, Option.some.injEq] at hdelta
    subst hdelta
    obtain ⟨basis, hbasis⟩ : ∃ basis, l.basis (some (v, c)) kind = some basis := by
      cases kind with
      | differential => exact ⟨F.2, by rw [KindVersions.basis, hF]; rfl⟩
      | incremental => exact ⟨c, rfl⟩
    have hin : KindVersions.In ⟨l.fulls, l.deltas ++ [(b.version, b.delta)]⟩ fileName
        { s with delta := s.delta.insert (deltaPrefix fileName ++ b.version) b.delta } := by
      refine ⟨h.full, h.delta.insert hb.noDot hdeltas, fun d hd => ?_⟩
      rcases List.mem_append.1 hd with hd | hd
      · exact h.readable d hd
      · rw [List.mem_singleton.1 hd]
        exact hb.readable hhas
    have hsound := hs.addDelta h.full.ascending h.delta.ascending hlater hbasis
      (hb.rebuilds l h basis hbasis) hname
    have hhas₂ : Store.hasFull fileName
        { s with delta := s.delta.insert (deltaPrefix fileName ++ b.version) b.delta } = true := hhas
    rw [Stored.putFull, hhas₂, Bool.true_and] at hfull
    split_ifs at hfull with hwhole
    · rw [Option.some.injEq] at hfull
      subst hfull
      exact ⟨_, hin, hsound⟩
    · rw [Dir.create] at hfull
      split_ifs at hfull with hname'
      · rw [Option.map_some, Option.some.injEq] at hfull
        subst hfull
        exact ⟨⟨l.fulls ++ [(b.version, b.content)], l.deltas ++ [(b.version, b.delta)]⟩,
          ⟨hin.full.insert hb.noDot hfulls, hin.delta, hin.readable⟩,
          hsound.addFull hin.delta.ascending hfulls hname'⟩
      · cases hfull
  · cases hdelta

/-- A backup is put on a store that has a base. -/
theorem put_sound {last : Option (Bytes × Bytes)} (hstart : last = none → s = ⟨∅, ∅⟩)
    (hsound : ∀ e ∈ last, ∃ l : KindVersions, l.In fileName s ∧ l.Sound kind fileName e.1 e.2)
    (hb : b.Follows kind fileName s last) (hput : b.put fileName s = some s₁) :
    ∃ l : KindVersions, l.In fileName s₁ ∧ l.Sound kind fileName b.version b.content := by
  cases last with
  | none =>
    obtain rfl := hstart rfl
    exact put_first hb hput
  | some e =>
    obtain ⟨l, hin, hs⟩ := hsound e rfl
    exact put_later hin hs hb hput

/-- The stores that backups lead to have a base. -/
theorem Reached.sound {last : Option (Bytes × Bytes)} (h : Reached kind dirName fileName s last) :
    (last = none → s = ⟨∅, ∅⟩) ∧ ∀ e ∈ last, ∃ l : KindVersions, l.In fileName s ∧
      l.Sound kind fileName e.1 e.2 := by
  induction h with
  | start => exact ⟨fun _ => rfl, by simp⟩
  | backup b _ hb hput hplain hsafe hmanage ih =>
    refine ⟨by simp, ?_⟩
    rintro e ⟨⟩
    obtain ⟨l, hin, hs⟩ := put_sound ih.1 ih.2 hb hput
    obtain ⟨l', hin', hm⟩ := hsafe
    obtain rfl := hin.unique hin'
    obtain ⟨s'', l', hs'', hin', hsound⟩ := manage_sound hin hs hm (fun hk => hplain hk l hin)
      (backupPath dirName fileName kind)
    rw [hmanage, Option.some.injEq] at hs''
    subst hs''
    exact ⟨l', hin', hsound⟩

end Runs

/-! ## The passes of `recv_files` -/

section Passes

variable {sumEnd : Bytes → Bytes} {o : RunOpts} {w : World} {r : Request}

theorem setUp_firstBackup (hb : o.backup = true) (fname : Bytes) :
    (setUp o w fname).firstBackup = if w.hasFull o fname then 0 else 1 := by
  rw [setUp, if_pos hb]

/-- The delta that a pass records is the one of the backup. -/
theorem receiveInto_put {a : Recv} {d : Received × World} (hb : o.backup = true)
    (hrec : a.record = (setUp o w r.fname).records o)
    (h : receiveInto sumEnd o (setUp o w r.fname) a r = some d) :
    d.2.firstBackup = (setUp o w r.fname).firstBackup ∧ ∃ delta, ∀ content,
      (Stored.mk o.backupVersion o.backupVersionNum o.wholeFile delta content).putDelta (fileNameOf r.fname)
        (w.store o.backupType r.fname) = some (d.2.store o.backupType r.fname) := by
  have hstore : (setUp o w r.fname).store o.backupType r.fname = w.store o.backupType r.fname :=
    congrArg (fun b : Bytes → Backups => (b r.fname).get o.backupType) (setUp_backups _)
  have hrecord : a.record = w.hasFull o r.fname := by
    rw [hrec, World.records, setUp_firstBackup hb, hb]
    cases w.hasFull o r.fname <;> rfl
  obtain ⟨res, hres, h⟩ := Option.bind_eq_some_iff.1 h
  obtain ⟨p₀, s₀, s', -, -, -, -, -, -, hdelta, -⟩ := receiveData_cases hres
  rw [hrecord] at hdelta
  cases hfull : w.hasFull o r.fname with
  | false =>
    rw [hfull, if_neg Bool.false_ne_true] at hdelta
    simp only [hdelta, Option.some.injEq] at h
    subst h
    refine ⟨rfl, [], fun content => ?_⟩
    rw [Stored.putDelta, show Store.hasFull (fileNameOf r.fname) (w.store o.backupType r.fname) = false from hfull,
      if_neg Bool.false_ne_true]
    exact congrArg some hstore.symm
  | true =>
    rw [hfull, if_pos rfl] at hdelta
    obtain ⟨delta, hdelta⟩ : ∃ delta, res.delta = some delta := ⟨_, hdelta⟩
    simp only [hdelta] at h
    obtain ⟨f, hf, h⟩ := Option.bind_eq_some_iff.1 h
    obtain ⟨deltas, hcreate, h⟩ := Option.bind_eq_some_iff.1 h
    obtain rfl : r.fname = f := by
      simp only [setUp, if_pos hb, Option.some.injEq] at hf
      exact hf
    rw [Option.some.injEq] at h
    have hstored : d.2.store o.backupType r.fname = { w.store o.backupType r.fname with delta := deltas } := by
      rw [← h, store_setStore, if_pos ⟨rfl, rfl⟩]
      exact congrArg (fun s : Store => { s with delta := deltas }) hstore
    refine ⟨by rw [← h]; rfl, delta, fun content => ?_⟩
    have hcreate' : Dir.create (w.store o.backupType r.fname).delta
        (deltaPrefix (fileNameOf r.fname) ++ o.backupVersion) delta = some deltas := by
      rw [← hstore]
      exact hcreate
    rw [Stored.putDelta, show Store.hasFull (fileNameOf r.fname) (w.store o.backupType r.fname) = true from hfull,
      if_pos rfl, hcreate', Option.map_some, hstored]

/-- **A pass of a backup task** is a backup put on the store, which is managed then. -/
theorem recvFile_put {dirMade : Bool} {finish : Finish} {p : Pass} (hb : o.backup = true)
    (hfate : r.fate = .received dirMade finish) (h : recvFile sumEnd o w r = some p) :
    ∃ b : Stored, b.version = o.backupVersion ∧ b.num = o.backupVersionNum ∧ b.wholeFile = o.wholeFile ∧
      ∃ s₁, b.put (fileNameOf r.fname) (w.store o.backupType r.fname) = some s₁ ∧
        manageBackupVersion (backupPath (dirNameOf r.fname) (fileNameOf r.fname) o.backupType)
          o.backupType b.num s₁ = some (p.world.store o.backupType r.fname) := by
  obtain ⟨i, hi, -, -, hk⟩ := recvFile_received hfate h
  obtain ⟨cmp, d, -, hd, -, hi⟩ := receiveFile_eq hi
  obtain ⟨hfirst, delta, hdelta⟩ := receiveInto_put hb rfl hd
  have hsame : SameStores d.2 i.2.1 := by
    rw [hi]
    exact install_stores _ _ _ _
  have hstore : i.2.1.store o.backupType r.fname = d.2.store o.backupType r.fname := by
    rw [World.store, hsame.backups, ← World.store]
  have hdue : i.2.1.fullDue o = !(w.hasFull o r.fname && !o.wholeFile) := by
    rw [World.fullDue, hsame.firstBackup, hfirst, setUp_firstBackup hb, hb]
    cases w.hasFull o r.fname <;> cases o.wholeFile <;> rfl
  have hkept : Store.hasFull (fileNameOf r.fname) (d.2.store o.backupType r.fname) = w.hasFull o r.fname := by
    have := hdelta []
    rw [Stored.putDelta] at this
    split_ifs at this
    · obtain ⟨x, -, hx⟩ := Option.map_eq_some_iff.1 this
      rw [← hx]
      rfl
    · rw [← Option.some.inj this]
      rfl
  rw [keepVersions, if_pos hb, hdue] at hk
  split_ifs at hk with hfull
  · -- a full backup is written
    obtain ⟨c, hc, hk⟩ := Option.bind_eq_some_iff.1 hk
    obtain ⟨w', hw', hk⟩ := Option.bind_eq_some_iff.1 hk
    obtain ⟨content, -, hc⟩ := Option.bind_eq_some_iff.1 hc
    obtain ⟨fulls, hfulls, hc⟩ := Option.bind_eq_some_iff.1 hc
    obtain ⟨s₁, hs₁, hw'⟩ := Option.bind_eq_some_iff.1 hw'
    simp only [Option.some.injEq] at hc hw' hk
    subst hc hw'
    have hworld := (Prod.mk.inj hk).2
    rw [← hworld]
    rw [hstore] at hfulls
    refine ⟨⟨o.backupVersion, o.backupVersionNum, o.wholeFile, delta, copyLoop content []⟩, rfl, rfl, rfl,
      { d.2.store o.backupType r.fname with full := fulls }, ?_, ?_⟩
    · rw [Stored.put, hdelta, Option.bind_some, Stored.putFull, hkept, if_neg (by
        rw [Bool.not_eq_true]
        rwa [Bool.not_eq_true'] at hfull)]
      rw [fullName] at hfulls
      rw [hfulls, Option.map_some]
    · rw [manageStore, store_setStore, if_pos ⟨rfl, rfl⟩, hstore] at hs₁
      rw [store_setStore, if_pos ⟨rfl, rfl⟩]
      exact hs₁
  · obtain ⟨w', hw', hk⟩ := Option.bind_eq_some_iff.1 hk
    obtain ⟨s₁, hs₁, hw'⟩ := Option.bind_eq_some_iff.1 hw'
    simp only [Option.some.injEq] at hw' hk
    subst hw'
    have hworld := (Prod.mk.inj hk).2
    rw [← hworld]
    refine ⟨⟨o.backupVersion, o.backupVersionNum, o.wholeFile, delta, []⟩, rfl, rfl, rfl,
      d.2.store o.backupType r.fname, ?_, ?_⟩
    · rw [Stored.put, hdelta, Option.bind_some, Stored.putFull, hkept, if_pos (by simpa using hfull)]
    · rw [manageStore, hstore] at hs₁
      rw [store_setStore, if_pos ⟨rfl, rfl⟩]
      exact hs₁

end Passes

/-- **Retention keeps the base**, over any run of backups that can each be managed, and in
    the next step just when that one can: `manage_backup_version` stays in its lists, a full
    backup below every delta is left, and the newest version. -/
theorem retention_run (kind : BackupType) (dirName fileName : Bytes) (s : Store)
    (last : Option (Bytes × Bytes)) (h : Reached kind dirName fileName s last) :
    (∀ e ∈ last, KeepsBase kind fileName s e.1 e.2) ∧
      ∀ (b : Stored) (s₁ : Store), b.Follows kind fileName s last → b.put fileName s = some s₁ →
        s₁.MergesPlain kind fileName b.num →
        ((∃ s', manageBackupVersion (backupPath dirName fileName kind) kind b.num s₁ = some s' ∧
            KeepsBase kind fileName s' b.version b.content) ↔ s₁.Manageable kind fileName b.num) := by
  obtain ⟨hstart, hsound⟩ := h.sound
  constructor
  · intro e he
    obtain ⟨l, hin, hs⟩ := hsound e he
    exact ⟨l, hin, hs.hasBase⟩
  · intro b s₁ hb hput hplain
    obtain ⟨l, hin, hs⟩ := put_sound hstart hsound hb hput
    rw [manage_iff hin hs (fun hk => hplain hk l hin)]
    constructor
    · exact fun hm => ⟨l, hin, hm⟩
    · rintro ⟨l', hin', hm⟩
      rwa [hin.unique hin']

/-! ## The first backup -/

/-- A first backup of the file `f`, run with `num` versions. -/
def firstStored (num : ℤ) : Stored := ⟨cstr "1", num, false, [], cstr "x"⟩

/-- The store with its full backup. -/
def firstStore : Store := ⟨AList.insert (cstr "f.full.1") (cstr "x") ∅, ∅⟩

theorem firstStored_follows (num : ℤ) : (firstStored num).Follows .incremental (cstr "f") ⟨∅, ∅⟩ none where
  noDot := show dot ∉ cstr "1" by decide
  later := by simp
  readable := fun h => absurd h (by decide)
  rebuilds := fun _ _ _ h => by cases h

theorem firstStored_put (num : ℤ) : (firstStored num).put (cstr "f") ⟨∅, ∅⟩ = some firstStore := rfl

theorem firstStore_in : KindVersions.In ⟨[(cstr "1", cstr "x")], []⟩ (cstr "f") firstStore :=
  ⟨(Dir.Holds.empty _).insert (by decide) (by simp), Dir.Holds.empty _, by simp⟩

theorem firstStore_manage : manageBackupVersion (backupPath (cstr "d") (cstr "f") .incremental) .incremental 1
    firstStore = some firstStore := by
  rw [manage_oneFull firstStore_in.full firstStore_in.delta le_rfl, if_neg (by simp), if_pos (by simp)]

theorem firstStore_manageable : firstStore.Manageable .incremental (cstr "f") 1 :=
  ⟨_, firstStore_in, by decide, by decide, by decide, fun h => absurd h (by decide)⟩

theorem retention_run_first : (∀ e ∈ some (cstr "1", cstr "x"), KeepsBase .incremental (cstr "f") firstStore e.1 e.2) ∧
    ∀ (b : Stored) (s₁ : Store), b.Follows .incremental (cstr "f") firstStore (some (cstr "1", cstr "x")) →
      b.put (cstr "f") firstStore = some s₁ → s₁.MergesPlain .incremental (cstr "f") b.num →
      ((∃ s', manageBackupVersion (backupPath (cstr "d") (cstr "f") .incremental) .incremental b.num s₁ = some s' ∧
          KeepsBase .incremental (cstr "f") s' b.version b.content) ↔ s₁.Manageable .incremental (cstr "f") b.num) :=
  retention_run .incremental (cstr "d") (cstr "f") firstStore (some (cstr "1", cstr "x"))
    (.backup (firstStored 1) .start (firstStored_follows 1) (firstStored_put 1) (fun _ _ _ _ => by decide)
      firstStore_manageable firstStore_manage)

/-- **With the default of `backup_version_num`, 0, the first full backup is one too many**: there
    is no next one to read. -/
theorem not_retention : (firstStored 0).Follows .incremental (cstr "f") ⟨∅, ∅⟩ none ∧
    (firstStored 0).put (cstr "f") ⟨∅, ∅⟩ = some firstStore ∧
    ¬ ∃ s', manageBackupVersion (backupPath (cstr "d") (cstr "f") .incremental) .incremental 0 firstStore =
        some s' ∧ KeepsBase .incremental (cstr "f") s' (cstr "1") (cstr "x") := by
  refine ⟨firstStored_follows 0, firstStored_put 0, ?_⟩
  rintro ⟨s', hs', -⟩
  rw [manageBackupVersion, firstStore_in.full.readSort, firstStore_in.delta.readSort] at hs'
  simp [Dir.Holds.names, dropOldestFull] at hs'

end CloudEdgeBackup
