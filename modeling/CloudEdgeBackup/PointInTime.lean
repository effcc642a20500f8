/-
  Recovery of one kind of backup at any point in time: `combine_differental_files` beside
  `combine_incremental_files` (`sender.c`).

  * `RestoresNewest` is what both are for: the newest version up to the recovery version,
    a delta's or, with no delta after it, the full backup itself;
  * the incremental function always does that; the differential one gives up where no
    delta follows the full backup (`restoresNewest_iff`).
-/
import CloudEdgeBackup.Selection

namespace CloudEdgeBackup

open Versions

/-- The combine function succeeds, and rebuilds the newest version up to `R`. -/
def RestoresNewest (kind : BackupType) (l : KindVersions) (dirName fileName : Bytes) (s : Store)
    (R : Bytes) : Prop :=
  ∃ v c, combineFiles dirName fileName kind s (l.listing fileName) R = some (some c) ∧
    l.newest R = some v ∧ l.content kind v = some c

section PointInTime

variable {l : KindVersions} {dirName fileName R : Bytes} {s : Store}

/-- The newest version is a delta's if one lies after the newest full backup. -/
theorem newest_eq_of_full {f : Bytes} (hf : l.full R = some f) :
    l.newest R = some (match l.delta R with
      | some d => if f < d then d else f
      | none => f) := by
  rw [KindVersions.newest, hf, Option.map_some]
  cases l.delta R with
  | none => rfl
  | some d =>
    simp only [Option.elim_some]
    split_ifs with hlt
    · rw [max_eq_right hlt.le]
    · rw [max_eq_left (not_lt.1 hlt)]

theorem full_isSome (hasc : Ascending l.fulls) (hR : ∃ e ∈ l.fulls, e.1 ≤ R) : (l.full R).isSome := by
  rw [KindVersions.full, Option.isSome_map, Option.isSome_iff_ne_none, ne_eq, hasc.newest_eq_none]
  obtain ⟨e, he, hle⟩ := hR
  exact fun hnone => not_lt.2 hle (hnone e he)

/-- A combine function that succeeds rebuilds the newest version. -/
theorem restoresNewest_of_fits (kind : BackupType) (h : l.In fileName s) (hR : ∃ e ∈ l.fulls, e.1 ≤ R) :
    RestoresNewest kind l dirName fileName s R ↔ l.CombineFits kind R ∧ l.Answers kind R := by
  constructor
  · rintro ⟨v, c, hcombine, -, -⟩
    obtain ⟨hfits, hanswers, -⟩ := (combineFiles_eq h).1 hcombine
    exact ⟨hfits, hanswers⟩
  · rintro ⟨hfits, hanswers⟩
    obtain ⟨f, hf⟩ := Option.isSome_iff_exists.1 (full_isSome h.full.ascending hR)
    have hm := newest_eq_of_full hf
    obtain ⟨c, -, hc⟩ := h.rebuildable kind hm
    exact ⟨_, c, (combineFiles_eq h).2 ⟨hfits, hanswers, _, hm, hc⟩, hm, hc⟩

/-- **A differential store is restored at `R`** only if `R` is a full backup's version or
    a delta follows the newest full backup up to `R`; an incremental one always is. -/
theorem restoresNewest_iff (l : KindVersions) (dirName fileName R : Bytes) (s : Store)
    (h : l.In fileName s) (hR : ∃ e ∈ l.fulls, e.1 ≤ R) :
    (RestoresNewest .differential l dirName fileName s R ↔
        l.CombineFits .differential R ∧
          ∃ f, l.full R = some f ∧ (f = R ∨ ∃ d, l.delta R = some d ∧ f < d)) ∧
      (RestoresNewest .incremental l dirName fileName s R ↔ l.CombineFits .incremental R) := by
  constructor
  · exact restoresNewest_of_fits .differential h hR
  · rw [restoresNewest_of_fits .incremental h hR]
    exact and_iff_left (full_isSome h.full.ascending hR)

end PointInTime

/-! ## One full backup, and a later recovery version -/

theorem oneFull_at (kind : BackupType) : ∃ e ∈ (oneFull kind kind).fulls, e.1 ≤ cstr "2" := by
  rw [oneFull, if_pos rfl]
  exact ⟨_, List.mem_singleton_self _, by decide⟩

theorem restoresNewest_oneFull :
    (RestoresNewest .differential (oneFull .differential .differential) (cstr "d") (cstr "f")
          (oneFullStore (cstr "f")) (cstr "2") ↔
        (oneFull .differential .differential).CombineFits .differential (cstr "2") ∧
          ∃ f, (oneFull .differential .differential).full (cstr "2") = some f ∧
            (f = cstr "2" ∨ ∃ d, (oneFull .differential .differential).delta (cstr "2") = some d ∧ f < d)) ∧
      (RestoresNewest .incremental (oneFull .differential .differential) (cstr "d") (cstr "f")
          (oneFullStore (cstr "f")) (cstr "2") ↔
        (oneFull .differential .differential).CombineFits .incremental (cstr "2")) :=
  restoresNewest_iff _ _ _ _ _ (oneFull_in (cstr "f") .differential .differential)
    (oneFull_at .differential)

/-- The full backup `1` is the newest version up to `2`, and is not restored. -/
theorem not_restoresNewest : (oneFull .differential .differential).newest (cstr "2") = some (cstr "1") ∧
    combineDifferentalFiles (cstr "d") (cstr "f") (oneFullStore (cstr "f"))
      ((oneFull .differential .differential).listing (cstr "f")) (cstr "2") = some none ∧
    ¬ RestoresNewest .differential (oneFull .differential .differential) (cstr "d") (cstr "f")
      (oneFullStore (cstr "f")) (cstr "2") := by
  have hin := oneFull_in (cstr "f") .differential .differential
  have hcombine : combineDifferentalFiles (cstr "d") (cstr "f") (oneFullStore (cstr "f"))
      ((oneFull .differential .differential).listing (cstr "f")) (cstr "2") = some none := by
    decide
  refine ⟨by decide, hcombine, ?_⟩
  rintro ⟨v, c, hsome, -, -⟩
  rw [combineFiles, hcombine] at hsome
  cases hsome

end CloudEdgeBackup
