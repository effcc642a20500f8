/-
  The name of a merged full backup: `update_incre_full_backup` (`receiver.c`) takes the
  name of the file up to its first dot.

  * `KeepsIdentity` is what the merge has to make: the full backup of the file with the
    timestamp of the delta, which the next backup finds and which sorts by that timestamp;
  * a file without a dot keeps its name, every other one loses the rest of it
    (`keepsIdentity_iff`).
-/
import CloudEdgeBackup.BackupPass

namespace CloudEdgeBackup

/-- The merge of `name`'s delta `t1` made one new file, the full backup `t1` of `name`. -/
structure KeepsIdentity (dirName name t0 t1 : Bytes) (s s' : Store) : Prop where
  created : (s'.full.lookup (fullPrefix name ++ t1)).isSome
  others : ∀ n, n ≠ fullPrefix name ++ t1 → s'.full.lookup n = s.full.lookup n
  /-- Without the old one, `recv_files` still finds a full backup. -/
  found : ∀ (w : World) (o : RunOpts) (fname : Bytes), fileNameOf fname = name →
    (w.store o.backupType fname).full = s'.full.erase (fullPrefix name ++ t0) →
      w.hasFull o fname = true
  sorted : ∀ t, fullPrefix name ++ t ∈ s'.full →
    (dirName ++ (fullPrefix name ++ t) ≤ dirName ++ (fullPrefix name ++ t1) ↔ t ≤ t1)
  timestamp : extractFileNameTimestamp maxPathLen (dirName ++ (fullPrefix name ++ t1)) = some t1

section MergedName

variable {dirName name t0 t1 d : Bytes} {s : Store}

/-- What is before the first dot of a full backup's name. -/
theorem takeWhile_row (name v : Bytes) : (fullPrefix name ++ v).takeWhile (fun b => decide (b ≠ dot)) =
    name.takeWhile fun b => decide (b ≠ dot) := by
  by_cases hdot : dot ∈ name
  · have hne : name.takeWhile (fun b => decide (b ≠ dot)) ≠ name := by
      intro heq
      have hall := List.takeWhile_eq_self_iff.1 heq dot hdot
      simp at hall
    rw [fullPrefix, List.append_assoc, List.takeWhile_append, if_neg fun hlen => hne ?_]
    exact (List.takeWhile_prefix _).eq_of_length hlen
  · rw [takeWhile_fullName hdot]
    exact (List.takeWhile_eq_self_iff.2 fun b hb => by
      rw [decide_eq_true_eq]
      rintro rfl
      exact hdot hb).symm

theorem takeWhile_eq_iff (name : Bytes) : name.takeWhile (fun b => decide (b ≠ dot)) = name ↔ dot ∉ name := by
  rw [List.takeWhile_eq_self_iff]
  constructor
  · intro hall hdot
    have := hall dot hdot
    simp at this
  · intro hdot b hb
    rw [decide_eq_true_eq]
    rintro rfl
    exact hdot hb

theorem fullPrefix_inj {a b v : Bytes} (h : fullPrefix a ++ v = fullPrefix b ++ v) : a = b := by
  rw [fullPrefix, fullPrefix, List.append_cancel_right_eq, List.append_cancel_right_eq] at h
  exact h

theorem nameOk_fullPrefix (h : NameOk (deltaPrefix name ++ t1)) : NameOk (fullPrefix name ++ t1) := by
  obtain ⟨hlen, hslash⟩ := h
  simp only [deltaPrefix, List.length_append, List.mem_append, not_or] at hlen hslash
  have hshort : (cstr ".full.").length ≤ (cstr ".delta.").length := by decide
  constructor
  · simp only [fullPrefix, List.length_append]
    omega
  · simp only [fullPrefix, List.mem_append, not_or]
    exact ⟨⟨hslash.1.1, by decide⟩, hslash.2⟩

theorem timestamp_fits {p v : Bytes} (h : NameOk (p ++ v)) : v.length < maxPathLen := by
  have hlen := h.1
  rw [List.length_append] at hlen
  simp only [maxPathLen]
  omega

/-- The file that the merge writes, whatever its name: nothing else is different. -/
theorem updateIncreFullBackup_eq {s' : Store} {deltaDir : Bytes} (ht1 : dot ∉ t1)
    (hdelta : NameOk (deltaPrefix name ++ t1))
    (h : updateIncreFullBackup deltaDir s (fullPrefix name ++ t0) (deltaPrefix name ++ t1) = some (0, s')) :
    ∃ c, s'.full = (s.full.insert (fullPrefix (name.takeWhile fun b => decide (b ≠ dot)) ++ t1) []).insert
      (fullPrefix (name.takeWhile fun b => decide (b ≠ dot)) ++ t1) c := by
  have hdot : dot ∈ fullPrefix name ++ t0 := by simp [fullPrefix_eq]
  rw [updateIncreFullBackup, extract_prefix (deltaPrefix_eq name) ht1, if_pos (timestamp_fits hdelta),
    Option.bind_eq_bind, Option.bind_some, if_pos hdot, takeWhile_row] at h
  simp only [Dir.create] at h
  split_ifs at h
  · simp only at h
    split at h
    · obtain ⟨c, -, hc⟩ := Option.bind_eq_some_iff.1 h
      cases hc
      exact ⟨c, rfl⟩
    · cases h
  · cases h

/-- A file without a dot in its name. -/
theorem updateIncreFullBackup_row {deltaDir f c : Bytes} (hname : dot ∉ name) (ht1 : dot ∉ t1)
    (hlt : t0 < t1) (hdelta : NameOk (deltaPrefix name ++ t1))
    (hf : s.full.lookup (fullPrefix name ++ t0) = some f)
    (hd : s.delta.lookup (deltaPrefix name ++ t1) = some d) (hc : applyDelta f d = some c) :
    updateIncreFullBackup deltaDir s (fullPrefix name ++ t0) (deltaPrefix name ++ t1) =
      some (0, { s with full := (s.full.insert (fullPrefix name ++ t1) []).insert (fullPrefix name ++ t1) c }) := by
  have hdot : dot ∈ fullPrefix name ++ t0 := by simp [fullPrefix_eq]
  have hne : fullPrefix name ++ t0 ≠ fullPrefix name ++ t1 := fun h => hlt.ne (List.append_cancel_left h)
  have hf' : AList.lookup (fullPrefix name ++ t0) (AList.insert (fullPrefix name ++ t1) [] s.full) = some f := by
    rw [AList.lookup_insert_ne hne]
    exact hf
  rw [updateIncreFullBackup, extract_prefix (deltaPrefix_eq name) ht1, if_pos (timestamp_fits hdelta),
    Option.bind_eq_bind, Option.bind_some, if_pos hdot, takeWhile_fullName hname]
  simp only [Dir.create, nameOk_fullPrefix hdelta, if_true, hd, hf', hc, Option.bind_some]

/-- **The merged full backup is the file's own** just when the file's name has no dot. -/
theorem keepsIdentity_iff (dirName deltaDir name t0 t1 f d : Bytes) (s : Store) (ht1 : dot ∉ t1)
    (hlt : t0 < t1) (hdelta : NameOk (deltaPrefix name ++ t1))
    (hf : s.full.lookup (fullPrefix name ++ t0) = some f)
    (hd : s.delta.lookup (deltaPrefix name ++ t1) = some d) (hread : (applyDelta f d).isSome)
    (hnew : s.full.lookup (fullPrefix name ++ t1) = none) :
    (∃ s', updateIncreFullBackup deltaDir s (fullPrefix name ++ t0) (deltaPrefix name ++ t1) = some (0, s') ∧
      KeepsIdentity dirName name t0 t1 s s') ↔ dot ∉ name := by
  constructor
  · rintro ⟨s', hupdate, hkeeps⟩
    obtain ⟨c, hfull⟩ := updateIncreFullBackup_eq ht1 hdelta hupdate
    rw [← takeWhile_eq_iff]
    by_contra hne
    have hother : fullPrefix name ++ t1 ≠ fullPrefix (name.takeWhile fun b => decide (b ≠ dot)) ++ t1 :=
      fun heq => hne (fullPrefix_inj heq).symm
    have hcreated := hkeeps.created
    rw [hfull, AList.lookup_insert_ne hother, AList.lookup_insert_ne hother, hnew] at hcreated
    cases hcreated
  · intro hname
    obtain ⟨c, hc⟩ := Option.isSome_iff_exists.1 hread
    refine ⟨_, updateIncreFullBackup_row hname ht1 hlt hdelta hf hd hc, ?_⟩
    have hne : fullPrefix name ++ t1 ≠ fullPrefix name ++ t0 := fun h => hlt.ne' (List.append_cancel_left h)
    constructor
    · simp only [AList.lookup_insert]
      rfl
    · intro n hn
      simp only [AList.lookup_insert_ne hn]
    · intro w o fname hfile hstore
      rw [World.hasFull, hstore, List.any_eq_true, hfile]
      refine ⟨fullPrefix name ++ t1, ?_, List.isPrefixOf_iff_prefix.2 (List.prefix_append _ _)⟩
      rw [← AList.mem_keys, AList.mem_erase, AList.mem_insert]
      exact ⟨hne, .inl rfl⟩
    · intro t _
      rw [append_le_append_iff, append_le_append_iff]
    · rw [ extract_prefix (fullPrefix_eq name) ht1, if_pos (timestamp_fits hdelta)]

end MergedName

/-! ## A name without a dot, and one with -/

/-- One full backup and one delta of `name`. -/
def mergeStore (name : Bytes) : Store :=
  ⟨(∅ : Dir).insert (fullPrefix name ++ cstr "1") (cstr "x"), (∅ : Dir).insert (deltaPrefix name ++ cstr "2") []⟩

theorem keepsIdentity_plain :
    (∃ s', updateIncreFullBackup (cstr "f.backup/incremental/delta/") (mergeStore (cstr "f"))
        (fullPrefix (cstr "f") ++ cstr "1") (deltaPrefix (cstr "f") ++ cstr "2") = some (0, s') ∧
      KeepsIdentity (cstr "f.backup/incremental/full/") (cstr "f") (cstr "1") (cstr "2")
        (mergeStore (cstr "f")) s') ↔ dot ∉ cstr "f" :=
  keepsIdentity_iff _ _ _ _ _ (cstr "x") [] _ (by decide) (by decide) (by decide) (by decide) (by decide)
    (by decide) (by decide)

/-- `a.b` becomes `a`. -/
theorem not_keepsIdentity : ¬ ∃ s', updateIncreFullBackup (cstr "a.b.backup/incremental/delta/")
      (mergeStore (cstr "a.b")) (fullPrefix (cstr "a.b") ++ cstr "1") (deltaPrefix (cstr "a.b") ++ cstr "2") =
        some (0, s') ∧
    KeepsIdentity (cstr "a.b.backup/incremental/full/") (cstr "a.b") (cstr "1") (cstr "2")
      (mergeStore (cstr "a.b")) s' := by
  rintro ⟨s', hupdate, hkeeps⟩
  obtain ⟨c, hfull⟩ := updateIncreFullBackup_eq (by decide) (by decide) hupdate
  have hcreated := hkeeps.created
  rw [hfull, AList.lookup_insert_ne (by decide), AList.lookup_insert_ne (by decide)] at hcreated
  exact absurd hcreated (by decide)

end CloudEdgeBackup
