/-
  What the write layer leaves in the output file.

  The receiver writes its output `out` in order from position `p₀` of a file
  that held `B` (`p₀` is the appended-to length, else 0).  `Written` is the
  invariant of the descriptor: how much of `out` is on disk, what is pending,
  and what the file holds at every position.

  * `BufOk`, `SparseOk` are the invariant without and with sparse files;
  * `Written.writeFile`, `Written.skipMatched`: one call extends `out`;
  * `Written.seen`: a reader of the same file sees at every position the old
    byte or the byte written there;
  * `Written.finish`: what the finished file holds.  Without sparse files it is
    `out` after `p₀`.  With sparse files written in place two runs of zeros of
    `out` are only seeked over: its last one, and its first one when
    `sparse_past_write` is left over from an earlier file.
-/
import CloudEdgeBackup.FileIO

namespace CloudEdgeBackup

open Zext

/-- The byte at `x` is the one of `B`, or the one that `out` puts there. -/
def Seen (B : Bytes) (p₀ : ℕ) (out : Bytes) (x : ℕ) (b : UInt8) : Prop :=
  b = zget B x ∨ p₀ ≤ x ∧ x < p₀ + out.length ∧ b = zget out (x - p₀)

theorem Seen.append {B : Bytes} {p₀ : ℕ} {out : Bytes} {x : ℕ} {b : UInt8}
    (h : Seen B p₀ out x b) (c : Bytes) : Seen B p₀ (out ++ c) x b := by
  rcases h with h | ⟨h₁, h₂, h₃⟩
  · exact Or.inl h
  refine Or.inr ⟨h₁, by simp; omega, ?_⟩
  rw [h₃, zget_append_left (by omega)]

/-! ## Buffered writing -/

/-- Without sparse files: the last part of `out` is in the buffer, the rest is
    on disk, and beyond the file position the file is as it was. -/
structure BufOk (fresh : Bool) (B : Bytes) (p₀ : ℕ) (out : Bytes) (f : OutFile) : Prop where
  pos_ge : p₀ ≤ f.pos
  pos_add : f.pos + f.buf.length = p₀ + out.length
  buf_eq : f.buf = out.drop (f.pos - p₀)
  get_lt : ∀ x, p₀ ≤ x → x < f.pos → zget f.data x = zget out (x - p₀)
  get_ge : ∀ x, x < p₀ ∨ f.pos ≤ x → zget f.data x = zget B x
  size : fresh = true → f.data.length = f.pos

namespace BufOk

variable {fresh : Bool} {B : Bytes} {p₀ : ℕ} {out : Bytes} {f : OutFile}

theorem flush (h : BufOk fresh B p₀ out f) :
    BufOk fresh B p₀ out (flushWriteFile f) ∧ (flushWriteFile f).buf = [] ∧
      (flushWriteFile f).pos = p₀ + out.length := by
  obtain ⟨h₁, h₂, h₃, h₄, h₅, h₆⟩ := h
  unfold flushWriteFile
  split_ifs with hb
  · have hp : f.pos = p₀ + out.length := by simpa [hb] using h₂
    exact ⟨⟨h₁, h₂, h₃, h₄, h₅, h₆⟩, hb, hp⟩
  · refine ⟨⟨by simp [OutFile.write]; omega, by simpa [OutFile.write] using h₂, ?_, ?_, ?_, ?_⟩, rfl,
      by simpa [OutFile.write] using h₂⟩
    · simp [OutFile.write]; omega
    · intro x hx hx'
      simp only [OutFile.write] at hx' ⊢
      rw [zget_overwrite]
      split_ifs with hin
      · rw [h₃, zget_drop]; congr 1; omega
      · exact h₄ x hx (by omega)
    · intro x hx
      simp only [OutFile.write] at hx ⊢
      rw [zget_overwrite, if_neg (by omega)]
      exact h₅ x (by omega)
    · intro hB
      have := h₆ hB
      simp only [OutFile.write, overwrite_length]; omega

/-- **`write_file` appends to the output.** -/
theorem writeFileBuf (h : BufOk fresh B p₀ out f) (b : Bytes) :
    BufOk fresh B p₀ (out ++ b) (writeFileBuf f b) := by
  induction f, b using CloudEdgeBackup.writeFileBuf.induct generalizing out with
  | case1 f => rw [CloudEdgeBackup.writeFileBuf]; simpa using h
  | case2 f b hb r1 f' =>
    rename_i ih
    simp only [dite_eq_ite] at ih
    rw [CloudEdgeBackup.writeFileBuf, if_neg hb]
    have hf' : BufOk fresh B p₀ (out ++ b.take r1) f' := by
      obtain ⟨h₁, h₂, h₃, h₄, h₅, h₆⟩ := h
      refine ⟨h₁, by simp [f']; omega, ?_, ?_, h₅, h₆⟩
      · simp only [f']
        rw [List.drop_append_of_le_length (by omega), ← h₃]
      · intro x hx hx'
        rw [zget_append_left (by simp only [f'] at hx'; omega)]
        exact h₄ x hx hx'
    have hif : BufOk fresh B p₀ (out ++ b.take r1)
        (if wfWriteBufSize ≤ f'.buf.length then flushWriteFile f' else f') := by
      split_ifs
      · exact hf'.flush.1
      · exact hf'
    have := ih hif
    rwa [List.append_assoc, List.take_append_drop] at this

/-- Seeking over data that the file already has writes it. -/
theorem seekCur (h : BufOk fresh B p₀ out f) (hfresh : fresh = false) {b : Bytes}
    (hb : ∀ j < b.length, zget b j = zget B (p₀ + out.length + j)) :
    BufOk fresh B p₀ (out ++ b) ((flushWriteFile f).seekCur b.length) := by
  obtain ⟨⟨h₁, h₂, h₃, h₄, h₅, h₆⟩, h₇, h₈⟩ := h.flush
  refine ⟨by simp [OutFile.seekCur]; omega, by simp [OutFile.seekCur, h₇]; omega, ?_, ?_, ?_, ?_⟩
  · simp [OutFile.seekCur, h₇]; omega
  · intro x hx hx'
    simp only [OutFile.seekCur] at hx' ⊢
    rcases lt_or_ge x (p₀ + out.length) with hlt | hge
    · rw [zget_append_left (by omega)]
      exact h₄ x hx (by omega)
    · rw [zget_append_right (by omega), h₅ x (by omega), hb _ (by omega)]
      congr 1; omega
  · intro x hx
    exact h₅ x (by simp only [OutFile.seekCur] at hx; omega)
  · intro hB; simp_all

end BufOk

/-! ## Sparse writing -/

/-- A zero of `out` that is seeked over instead of punched: past
    `preallocated_len`, or in the first run of zeros when `sparse_past_write`
    starts past it. -/
def Skipped (P p₀ s₀ : ℕ) (out : Bytes) (x : ℕ) : Prop :=
  zget out (x - p₀) = 0 ∧ (P ≤ x ∨ P ≤ s₀ ∧ x < p₀ + leadZeros out)

/-- With sparse files: everything up to the last non-zero byte of `out` is in
    the file, the zeros after it are pending. -/
structure SparseOk (fresh : Bool) (P : ℕ) (B : Bytes) (p₀ s₀ : ℕ) (out : Bytes) (f : OutFile) :
    Prop where
  prealloc : f.preallocatedLen = P
  pos_ge : p₀ ≤ f.pos
  pos_add : f.pos + f.sparseSeek = p₀ + out.length
  zeros : ∀ i, f.pos - p₀ ≤ i → zget out i = 0
  start : f.pos = p₀ → f.sparsePastWrite = s₀
  past : f.pos ≠ p₀ → f.sparsePastWrite = f.pos ∧ zget out (f.pos - p₀ - 1) ≠ 0 ∧
    (leadZeros out = 0 ∨ P ≤ s₀ ∨ s₀ = p₀)
  get_lt : ∀ x, p₀ ≤ x → x < f.pos →
    zget f.data x = zget out (x - p₀) ∨ zget f.data x = zget B x ∧ Skipped P p₀ s₀ out x
  lead : P ≤ s₀ → ∀ x, p₀ ≤ x → x < p₀ + leadZeros out → zget f.data x = zget B x
  get_ge : ∀ x, x < p₀ ∨ f.pos ≤ x → zget f.data x = zget B x
  size : fresh = true → f.data.length = f.pos

namespace SparseOk

variable {fresh : Bool} {P : ℕ} {B : Bytes} {p₀ s₀ : ℕ} {out : Bytes} {f f' : OutFile}

theorem zget_append_zeros (out : Bytes) {b : Bytes} (hb : leadZeros b = b.length) (i : ℕ) :
    zget (out ++ b) i = zget out i := by
  rcases lt_or_ge i out.length with hi | hi
  · exact zget_append_left hi
  · rw [zget_append_right hi, zget_of_le hi]
    rcases lt_or_ge (i - out.length) b.length with h | h
    · exact zget_of_lt_leadZeros (by omega)
    · exact zget_of_le h

/-- A run of zeros only adds to the pending seek. -/
theorem pending (h : SparseOk fresh P B p₀ s₀ out f) {b : Bytes} (hb : leadZeros b = b.length) :
    SparseOk fresh P B p₀ s₀ (out ++ b) { f with sparseSeek := f.sparseSeek + b.length } := by
  have hget := zget_append_zeros out hb
  -- once there is a non-zero byte the first run of zeros is fixed
  have hlead : f.pos ≠ p₀ → leadZeros (out ++ b) = leadZeros out := fun hp => by
    have := leadZeros_lt_length (h.past hp).2.1
    exact leadZeros_append_of_lt (by omega) b
  refine ⟨h.prealloc, h.pos_ge, by have := h.pos_add; simp; omega, fun i hi => ?_, h.start,
    fun hp => ?_, fun x hx hx' => ?_, fun hs x hx hx' => ?_, h.get_ge, h.size⟩
  · rw [hget]; exact h.zeros i hi
  · obtain ⟨h₁, h₂, h₃⟩ := h.past hp
    exact ⟨h₁, by rwa [hget], by rwa [hlead hp]⟩
  · rw [Skipped, hget, hlead (by dsimp only at hx'; omega)]
    exact h.get_lt x hx hx'
  · by_cases hp : f.pos = p₀
    · exact h.get_ge x (Or.inr (by omega))
    · rw [hlead hp] at hx'
      exact h.lead hs x hx hx'

/-- The gap before data: what the file holds after it was skipped or punched. -/
theorem gap (h : SparseOk fresh P B p₀ s₀ out f)
    (hf : skipGap f = some f') :
    f'.preallocatedLen = P ∧ f'.pos = p₀ + out.length ∧
    (∀ x, x < f.pos ∨ p₀ + out.length ≤ x → zget f'.data x = zget f.data x) ∧
    (∀ x, f.pos ≤ x → x < p₀ + out.length → zget f'.data x = 0 ∨
      zget f'.data x = zget B x ∧ Skipped P p₀ s₀ out x) ∧
    (P ≤ s₀ → f.pos = p₀ → f'.data = f.data) ∧
    (f.pos = p₀ → out.length = 0 ∨ P ≤ s₀ ∨ s₀ = p₀) ∧ f'.data.length = f.data.length := by
  have hadd := h.pos_add
  unfold skipGap at hf
  by_cases h₀ : f.sparseSeek = 0
  · rw [if_pos h₀] at hf
    cases hf
    exact ⟨h.prealloc, by omega, fun _ _ => rfl, fun x _ _ => by omega, fun _ _ => rfl,
      fun hp => Or.inl (by omega), rfl⟩
  rw [if_neg h₀] at hf
  -- at the first gap all of `out` is zero, later gaps start where the data ended
  have hcase : f.sparsePastWrite = s₀ ∧ f.pos = p₀ ∨ f.sparsePastWrite = f.pos ∧ f.pos ≠ p₀ := by
    by_cases hp : f.pos = p₀
    · exact Or.inl ⟨h.start hp, hp⟩
    · exact Or.inr ⟨(h.past hp).1, hp⟩
  have hz : f.pos = p₀ → leadZeros out = out.length := fun hp =>
    leadZeros_eq_length fun i => h.zeros i (by omega)
  by_cases h₁ : f.preallocatedLen ≤ f.sparsePastWrite
  · rw [if_pos h₁] at hf
    cases hf
    rw [h.prealloc] at h₁
    refine ⟨h.prealloc, by simp [OutFile.seekCur]; omega, fun _ _ => rfl,
      fun x hx hx' => Or.inr ⟨h.get_ge x (Or.inr hx), h.zeros _ (by omega), ?_⟩, fun _ _ => rfl,
      fun hp => ?_, rfl⟩
    · rcases hcase with ⟨hs, hp⟩ | ⟨hs, -⟩
      · exact Or.inr ⟨by omega, by rw [hz hp]; omega⟩
      · exact Or.inl (by omega)
    · rcases hcase with ⟨hs, -⟩ | ⟨-, hn⟩
      · exact Or.inr (Or.inl (by omega))
      · exact absurd hp hn
  · rw [if_neg h₁, OutFile.punchHole] at hf
    dsimp only at hf
    split_ifs at hf with hpos
    cases hf
    rw [h.prealloc] at h₁
    -- the hole is punched at the position where the gap is
    have hps : f.sparsePastWrite = f.pos := by omega
    have hlen : (zresize (overwrite f.data f.sparsePastWrite (List.replicate f.sparseSeek 0))
        f.data.length).length = f.data.length := by simp
    have hget : ∀ x, zget (zresize (overwrite f.data f.sparsePastWrite
        (List.replicate f.sparseSeek 0)) f.data.length) x =
          if f.pos ≤ x ∧ x < p₀ + out.length then 0 else zget f.data x := by
      intro x
      rcases lt_or_ge x f.data.length with hx | hx
      · rw [zget_zresize hx, zget_overwrite, hps]
        simp only [List.length_replicate, zget_replicate]
        rw [hadd]
      · rw [zget_of_le (by rw [hlen]; exact hx), zget_of_le hx, ite_self]
    refine ⟨h.prealloc, by dsimp only; omega, fun x hx => ?_, fun x hx hx' => Or.inl ?_,
      fun hs hp => ?_, fun hp => Or.inr (Or.inr ?_), hlen⟩
    · rw [hget, if_neg (by omega)]
    · rw [hget, if_pos ⟨hx, hx'⟩]
    · rcases hcase with ⟨hs', -⟩ | ⟨-, hn⟩
      · omega
      · exact absurd hp hn
    · rcases hcase with ⟨hs', -⟩ | ⟨-, hn⟩
      · omega
      · exact absurd hp hn

/-- **`write_sparse` appends to the output**; with `use_seek` the file must have
    the data already. -/
theorem writeSparse (h : SparseOk fresh P B p₀ s₀ out f) {useSeek : Bool} {b : Bytes}
    (hf : writeSparse f useSeek (p₀ + out.length) b = some f')
    (hseek : useSeek = true → fresh = false ∧
      ∀ j < b.length, zget b j = zget B (p₀ + out.length + j)) :
    SparseOk fresh P B p₀ s₀ (out ++ b) f' := by
  unfold CloudEdgeBackup.writeSparse at hf
  dsimp only at hf
  by_cases hall : leadZeros b = b.length
  · rw [if_pos hall] at hf
    cases hf
    have := h.pending hall
    rwa [hall] 
  rw [if_neg hall] at hf
  obtain ⟨f₂, hgap, hf⟩ := Option.map_eq_some_iff.1 hf
  have hl1 := leadZeros_le b
  set l1 := leadZeros b with hl1def
  set l2 := trailZeros (b.drop l1) with hl2def
  -- the leading zeros first, then the gap, then the data
  have hp : SparseOk fresh P B p₀ s₀ (out ++ b.take l1) { f with sparseSeek := f.sparseSeek + l1 } := by
    have := h.pending (b := b.take l1) (leadZeros_take_leadZeros b)
    rwa [List.length_take_of_le hl1] at this
  have hlen₁ : (out ++ b.take l1).length = out.length + l1 := by simp; omega
  have hout : out ++ b = (out ++ b.take l1) ++ b.drop l1 := by
    rw [List.append_assoc, List.take_append_drop]
  obtain ⟨g₁, g₂, g₃, g₄, g₅, g₆, g₇⟩ := hp.gap hgap
  rw [hlen₁] at g₂ g₃ g₄ g₆
  have hb1 : zget b l1 ≠ 0 := zget_leadZeros_ne (by omega)
  have hl2 : l2 < (b.drop l1).length := by
    refine lt_of_le_of_ne (trailZeros_le _) fun he => hb1 ?_
    have := zget_of_trailZeros (l := b.drop l1) (i := 0) (by omega)
    simpa using this
  have hl2' : l2 < b.length - l1 := by simpa using hl2
  have hget : ∀ i, out.length + l1 ≤ i → zget (out ++ b) i = zget (b.drop l1) (i - out.length - l1) := by
    intro i hi
    rw [zget_append_right (by omega), zget_drop]; congr 1; omega
  -- what the write or the seek makes of the file
  have key : f'.preallocatedLen = P ∧ f'.pos = p₀ + out.length + (b.length - l2) ∧
      f'.sparseSeek = l2 ∧ f'.sparsePastWrite = f'.pos ∧
      (∀ x, zget f'.data x =
        if p₀ + out.length + l1 ≤ x ∧ x < f'.pos then zget (out ++ b) (x - p₀)
        else zget f₂.data x) ∧
      (fresh = true → f'.data.length = f'.pos) := by
    rcases Bool.eq_false_or_eq_true useSeek with hu | hu
    · obtain ⟨hfresh, hdata⟩ := hseek hu
      simp only [hu, if_true] at hf
      have hpos : f'.pos = p₀ + out.length + (b.length - l2) := by
        rw [← hf]; simp only [OutFile.seekCur, g₂]; omega
      refine ⟨by rw [← hf]; exact g₁, hpos, by rw [← hf]; rfl, ?_, fun x => ?_, ?_⟩
      · rw [hpos, ← hf]; simp only [OutFile.seekCur]; omega
      · rw [hpos, ← hf]
        simp only [OutFile.seekCur]
        split_ifs with hx
        · rw [g₃ x (by omega), hp.get_ge x (by have := hp.pos_add; simp only [hlen₁] at this ⊢; omega),
            zget_append_right (by omega), hdata _ (by omega)]
          congr 1; omega
        · rfl
      · intro hB; simp_all
    · simp only [hu, Bool.false_eq_true, if_false] at hf
      have hm : ((b.drop l1).take (b.length - (l1 + l2))).length = b.length - (l1 + l2) := by
        simp; omega
      have hpos : f'.pos = p₀ + out.length + (b.length - l2) := by
        rw [← hf]; simp only [OutFile.write, g₂, hm]; omega
      refine ⟨by rw [← hf]; exact g₁, hpos, by rw [← hf]; rfl, ?_, fun x => ?_, ?_⟩
      · rw [hpos, ← hf]; simp only [OutFile.write]; omega
      · rw [hpos, ← hf]
        simp only [OutFile.write]
        rw [zget_overwrite, hm, g₂]
        by_cases hx : p₀ + out.length + l1 ≤ x ∧ x < p₀ + out.length + (b.length - l2)
        · rw [if_pos (by omega), if_pos hx, zget_take (by omega), hget _ (by omega)]
          congr 1; omega
        · rw [if_neg (by omega), if_neg hx]
      · intro hB
        have h₁ := hp.size hB
        have h₂ := hp.pos_add
        rw [hpos, ← hf]
        simp only [OutFile.write, overwrite_length, hm, g₂, g₇]
        simp only at h₁ h₂
        rw [hlen₁] at h₂
        omega
  obtain ⟨k₁, k₂, k₃, k₄, k₅, k₆⟩ := key
  have hadd := hp.pos_add
  have hge := hp.pos_ge
  simp only [hlen₁] at hadd hge
  -- the first run of zeros
  have hlead₀ : f.pos = p₀ → leadZeros (out ++ b) = out.length + l1 := fun hpos => by
    refine leadZeros_eq (fun i hi => ?_) (fun _ => ?_) (by simp; omega)
    · rw [hout, zget_append_left (by omega)]
      exact hp.zeros i (by simp only; omega)
    · rw [hget _ le_rfl]; simpa using hb1
  have hlead₁ : f.pos ≠ p₀ → leadZeros (out ++ b) = leadZeros out := fun hpos => by
    have := leadZeros_lt_length (h.past hpos).2.1
    exact leadZeros_append_of_lt (by omega) b
  have hskip : ∀ x, x < p₀ + out.length + l1 → p₀ ≤ x →
      Skipped P p₀ s₀ (out ++ b.take l1) x → Skipped P p₀ s₀ (out ++ b) x := by
    rintro x hx hx' ⟨hz, hc⟩
    refine ⟨by rw [hout, zget_append_left (by omega)]; exact hz,
      hc.imp id fun hs => ⟨hs.1, hs.2.trans_le ?_⟩⟩
    have := leadZeros_le_append (out ++ b.take l1) (b.drop l1)
    rw [← hout] at this
    omega
  refine ⟨k₁, by omega, by simp; omega, fun i hi => ?_, fun hs => by omega, fun _ => ⟨k₄, ?_, ?_⟩,
    fun x hx hx' => ?_, fun hs x hx hx' => ?_, fun x hx => ?_, k₆⟩
  · rw [hget i (by omega)]
    exact zget_of_trailZeros (by simp; omega)
  · rw [hget _ (by omega)]
    have := zget_trailZeros_ne hl2
    rwa [show f'.pos - p₀ - 1 - out.length - l1 = (b.drop l1).length - l2 - 1 by simp; omega]
  · by_cases hpos : f.pos = p₀
    · rcases g₆ hpos with hz | hz
      · exact Or.inl (by rw [hlead₀ hpos]; exact hz)
      · exact Or.inr hz
    · rw [hlead₁ hpos]; exact (h.past hpos).2.2
  · rw [k₅]
    split_ifs with hin
    · exact Or.inl rfl
    · have hlt : x < p₀ + out.length + l1 := by omega
      have hzo : zget (out ++ b) (x - p₀) = zget (out ++ b.take l1) (x - p₀) := by
        rw [hout, zget_append_left (by omega)]
      rcases lt_or_ge x f.pos with hxp | hxp
      · rw [g₃ x (Or.inl hxp), hzo]
        exact (hp.get_lt x hx hxp).imp id fun h => ⟨h.1, hskip x hlt hx h.2⟩
      · rcases g₄ x hxp (by omega) with hz | ⟨h₁, h₂⟩
        · exact Or.inl (by rw [hz, hzo]; exact (hp.zeros _ (by simp only; omega)).symm)
        · exact Or.inr ⟨h₁, hskip x hlt hx h₂⟩
  · by_cases hpos : f.pos = p₀
    · rw [hlead₀ hpos] at hx'
      rw [k₅, if_neg (by omega), g₅ hs hpos]
      exact hp.get_ge x (Or.inr (by simp only; omega))
    · have := leadZeros_lt_length (h.past hpos).2.1
      rw [hlead₁ hpos] at hx'
      rw [k₅, if_neg (by omega), g₃ x (Or.inl (by simp only; omega))]
      exact h.lead hs x hx hx'
  · rw [k₅, if_neg (by omega), g₃ x (by simp only; omega)]
    exact hp.get_ge x (by simp only; omega)

theorem writeFileSparse (h : SparseOk fresh P B p₀ s₀ out f) {useSeek : Bool} {b : Bytes}
    (hf : writeFileSparse f useSeek (p₀ + out.length) b = some f')
    (hseek : useSeek = true → fresh = false ∧
      ∀ j < b.length, zget b j = zget B (p₀ + out.length + j)) :
    SparseOk fresh P B p₀ s₀ (out ++ b) f' := by
  generalize ho : p₀ + out.length = o at hf hseek
  induction f, o, b using CloudEdgeBackup.writeFileSparse.induct generalizing out with
  | case1 f o =>
    rw [CloudEdgeBackup.writeFileSparse, if_pos rfl] at hf
    cases hf
    simpa using h
  | case2 f o b hb len1 =>
    rename_i ih
    rw [CloudEdgeBackup.writeFileSparse, if_neg hb] at hf
    obtain ⟨g, hg, hf⟩ := Option.bind_eq_some_iff.1 hf
    subst ho
    have hlen : (b.take len1).length = len1 := List.length_take_of_le (Nat.min_le_left _ _)
    have hle : len1 ≤ b.length := Nat.min_le_left _ _
    have h₁ := h.writeSparse hg fun hu => ⟨(hseek hu).1, fun j hj => by
      change j < (b.take len1).length at hj
      rw [zget_take (by omega)]; exact (hseek hu).2 j (by omega)⟩
    have := ih g h₁ (by simp only [List.length_append]; change _ + (_ + (b.take len1).length) = _; omega)
      hf fun hu => ⟨(hseek hu).1, fun j hj => by
        rw [List.length_drop] at hj
        rw [zget_drop, (hseek hu).2 _ (by omega)]; congr 1; omega⟩
    rwa [List.append_assoc, List.take_append_drop] at this

end SparseOk

/-- The first run of zeros causes no failed seek: there is none before data, or
    it is skipped, or `sparse_past_write` stands where the output starts. -/
def GapOk (P p₀ s₀ : ℕ) (out : Bytes) : Prop :=
  leadZeros out = 0 ∨ leadZeros out = out.length ∨ P ≤ s₀ ∨ s₀ = p₀

theorem GapOk.of_append {P p₀ s₀ : ℕ} {a b : Bytes} (h : GapOk P p₀ s₀ (a ++ b)) :
    GapOk P p₀ s₀ a := by
  rcases (leadZeros_le a).lt_or_eq with hlt | heq
  · rw [GapOk, leadZeros_append_of_lt hlt] at h
    rcases h with h | h | h
    · exact Or.inl h
    · simp at h; omega
    · exact Or.inr (Or.inr h)
  · exact Or.inr (Or.inl heq)

namespace SparseOk

variable {fresh : Bool} {P : ℕ} {B : Bytes} {p₀ s₀ : ℕ} {out : Bytes} {f : OutFile}

theorem gapOk (h : SparseOk fresh P B p₀ s₀ out f) : GapOk P p₀ s₀ out := by
  by_cases hp : f.pos = p₀
  · exact Or.inr (Or.inl (leadZeros_eq_length fun i => h.zeros i (by omega)))
  · exact (h.past hp).2.2.imp id Or.inr

theorem writeSparse_isSome (h : SparseOk fresh P B p₀ s₀ out f) (useSeek : Bool) {b : Bytes}
    (hg : GapOk P p₀ s₀ (out ++ b)) :
    (CloudEdgeBackup.writeSparse f useSeek (p₀ + out.length) b).isSome := by
  unfold CloudEdgeBackup.writeSparse
  dsimp only
  by_cases hall : leadZeros b = b.length
  · rw [if_pos hall]; rfl
  rw [if_neg hall, Option.isSome_map]
  unfold skipGap
  dsimp only
  split_ifs with h₀ h₁
  · rfl
  · rfl
  unfold OutFile.punchHole
  dsimp only
  rw [if_pos ?_]
  · rfl
  rw [h.prealloc] at h₁
  by_cases hp : f.pos = p₀
  · -- all of `out` is zero, so the gap is the first run of zeros of `out ++ b`
    have hz : leadZeros out = out.length := leadZeros_eq_length fun i => h.zeros i (by omega)
    have hs := h.start hp
    have hadd := h.pos_add
    have := leadZeros_le b
    rw [GapOk, leadZeros_append_of_eq hz, List.length_append] at hg
    rcases hg with hg | hg | hg | hg <;> omega
  · have := (h.past hp).1
    omega

theorem writeFileSparse_isSome (h : SparseOk fresh P B p₀ s₀ out f) {useSeek : Bool} {b : Bytes}
    (hg : GapOk P p₀ s₀ (out ++ b))
    (hseek : useSeek = true → fresh = false ∧
      ∀ j < b.length, zget b j = zget B (p₀ + out.length + j)) :
    (CloudEdgeBackup.writeFileSparse f useSeek (p₀ + out.length) b).isSome := by
  generalize ho : p₀ + out.length = o at hseek
  induction f, o, b using CloudEdgeBackup.writeFileSparse.induct generalizing out with
  | case1 f o => rw [CloudEdgeBackup.writeFileSparse, if_pos rfl]; rfl
  | case2 f o b hb len1 =>
    rename_i ih
    subst ho
    rw [CloudEdgeBackup.writeFileSparse, if_neg hb]
    have hlen : (b.take len1).length = len1 := List.length_take_of_le (Nat.min_le_left _ _)
    have hle : len1 ≤ b.length := Nat.min_le_left _ _
    have hsplit : out ++ b = (out ++ b.take len1) ++ b.drop len1 := by
      rw [List.append_assoc, List.take_append_drop]
    obtain ⟨g, hgs⟩ := Option.isSome_iff_exists.1
      (h.writeSparse_isSome useSeek (b := b.take len1) (by rw [hsplit] at hg; exact hg.of_append))
    have h₁ := h.writeSparse hgs fun hu => ⟨(hseek hu).1, fun j hj => by
      rw [zget_take (by omega)]; exact (hseek hu).2 j (by omega)⟩
    have := ih g h₁ (by rwa [hsplit] at hg) (by simp only [List.length_append, hlen]; omega)
      (fun hu => ⟨(hseek hu).1, fun j hj => by
        rw [List.length_drop] at hj
        rw [zget_drop, (hseek hu).2 _ (by omega)]; congr 1; omega⟩)
    change (CloudEdgeBackup.writeSparse f useSeek _ (b.take len1) >>= _).isSome = true
    rw [hgs]
    exact this

end SparseOk

/-! ## Both ways of writing -/

/-- The invariant of the output: `out` has been written from `p₀` on into a file
    that held `B`. -/
def Written (sparse fresh : Bool) (P : ℕ) (B : Bytes) (p₀ s₀ : ℕ) (out : Bytes) (f : OutFile) : Prop :=
  if sparse then SparseOk fresh P B p₀ s₀ out f else BufOk fresh B p₀ out f

/-- A zero of `out` over which the finished file may still hold the old byte:
    a skipped one, or one of the last run of zeros. -/
def Stale (P p₀ s₀ : ℕ) (out : Bytes) (x : ℕ) : Prop :=
  Skipped P p₀ s₀ out x ∨ p₀ + out.length - trailZeros out ≤ x

namespace Written

variable {sparse fresh : Bool} {P : ℕ} {B : Bytes} {p₀ s₀ : ℕ} {out : Bytes} {f f' : OutFile}

/-- The descriptor positioned at `p₀`, with nothing written and nothing pending. -/
theorem start (fresh : Bool) (B : Bytes) (P p₀ s₀ : ℕ) (sparse : Bool)
    (hfresh : fresh = true → B = [] ∧ p₀ = 0) :
    Written sparse fresh P B p₀ s₀ [] ⟨B, p₀, [], 0, s₀, P⟩ := by
  cases sparse
  · refine ⟨le_rfl, by simp, by simp, fun x h₁ h₂ => by simp at h₂; omega, fun _ _ => rfl,
      fun hf => by simp [(hfresh hf).1, (hfresh hf).2]⟩
  · refine ⟨rfl, le_rfl, by simp, fun i _ => by simp, fun _ => rfl, fun h => absurd rfl h,
      fun x h₁ h₂ => by simp at h₂; omega, fun _ x h₁ h₂ => rfl, fun _ _ => rfl,
      fun hf => by simp [(hfresh hf).1, (hfresh hf).2]⟩

/-- **`write_file` appends to the output.** -/
theorem writeFile (h : Written sparse fresh P B p₀ s₀ out f) {b : Bytes}
    (hf : writeFile sparse f false (p₀ + out.length) b = some f') :
    Written sparse fresh P B p₀ s₀ (out ++ b) f' := by
  cases sparse with
  | false => cases hf; exact BufOk.writeFileBuf h b
  | true => exact SparseOk.writeFileSparse h hf (by simp)

/-- **`skip_matched` appends data that the file has already.** -/
theorem skipMatched (h : Written sparse fresh P B p₀ s₀ out f) (hfresh : fresh = false) {b : Bytes}
    (hb : ∀ j < b.length, zget b j = zget B (p₀ + out.length + j))
    (hf : skipMatched sparse f (p₀ + out.length) b = some f') :
    Written sparse fresh P B p₀ s₀ (out ++ b) f' := by
  cases sparse with
  | false =>
    simp only [CloudEdgeBackup.skipMatched, Bool.false_eq_true, if_false] at hf
    split_ifs at hf
    cases hf
    exact BufOk.seekCur h hfresh hb
  | true =>
    simp only [CloudEdgeBackup.skipMatched, CloudEdgeBackup.writeFile, if_true] at hf
    exact SparseOk.writeFileSparse h hf fun _ => ⟨hfresh, hb⟩

/-- A write fails only on a first run of zeros. -/
theorem writeFile_isSome (h : Written sparse fresh P B p₀ s₀ out f) {b : Bytes}
    (hg : sparse = true → GapOk P p₀ s₀ (out ++ b)) :
    (CloudEdgeBackup.writeFile sparse f false (p₀ + out.length) b).isSome := by
  cases sparse with
  | false => rfl
  | true => exact SparseOk.writeFileSparse_isSome h (hg rfl) (by simp)

theorem skipMatched_isSome (h : Written sparse fresh P B p₀ s₀ out f) (hfresh : fresh = false)
    {b : Bytes} (hb : ∀ j < b.length, zget b j = zget B (p₀ + out.length + j))
    (hg : sparse = true → GapOk P p₀ s₀ (out ++ b)) :
    (CloudEdgeBackup.skipMatched sparse f (p₀ + out.length) b).isSome := by
  cases sparse with
  | false =>
    have hpos := (BufOk.flush h).2.2
    simp only [CloudEdgeBackup.skipMatched, Bool.false_eq_true, if_false]
    rw [if_pos (by simp [OutFile.seekCur, hpos])]
    rfl
  | true =>
    simp only [CloudEdgeBackup.skipMatched, CloudEdgeBackup.writeFile, if_true]
    exact SparseOk.writeFileSparse_isSome h (hg rfl) fun _ => ⟨hfresh, hb⟩

theorem gapOk (h : Written true fresh P B p₀ s₀ out f) : GapOk P p₀ s₀ out := SparseOk.gapOk h

/-- **A reader of the output file** sees at every position the old byte or the
    one that was written there. -/
theorem seen (h : Written sparse fresh P B p₀ s₀ out f) (x : ℕ) : Seen B p₀ out x (zget f.data x) := by
  cases sparse with
  | false =>
    have h : BufOk fresh B p₀ out f := h
    by_cases hx : p₀ ≤ x ∧ x < f.pos
    · exact Or.inr ⟨hx.1, by have := h.pos_add; omega, h.get_lt x hx.1 hx.2⟩
    · exact Or.inl (h.get_ge x (by omega))
  | true =>
    have h : SparseOk fresh P B p₀ s₀ out f := h
    by_cases hx : p₀ ≤ x ∧ x < f.pos
    · rcases h.get_lt x hx.1 hx.2 with h₁ | h₁
      · exact Or.inr ⟨hx.1, by have := h.pos_add; omega, h₁⟩
      · exact Or.inl h₁.1
    · exact Or.inl (h.get_ge x (by omega))

/-! ### The end of the output -/

/-- What is pending at the end goes out. -/
theorem flushed (h : Written sparse fresh P B p₀ s₀ out f) {g : OutFile}
    (hg : g = if 0 < p₀ + out.length then
      if sparse then sparseEnd f (p₀ + out.length) else flushWriteFile f else f) :
    (fresh = true → g.data.length = p₀ + out.length) ∧
    (∀ x < p₀, zget g.data x = zget B x) ∧
    (∀ x, p₀ ≤ x → x < p₀ + out.length → zget g.data x = zget out (x - p₀) ∨
      sparse = true ∧ zget g.data x = zget B x ∧ Stale P p₀ s₀ out x) ∧
    (sparse = true → ∀ x, p₀ ≤ x → x < p₀ + out.length →
      p₀ + out.length - trailZeros out ≤ x ∨ P ≤ s₀ ∧ x < p₀ + leadZeros out →
      zget g.data x = zget B x) := by
  cases sparse with
  | false =>
    have h : BufOk fresh B p₀ out f := h
    obtain ⟨hk, hbuf, hpos⟩ := h.flush
    -- with nothing written there is nothing to flush
    have hg' : g = flushWriteFile f := by
      rw [hg]
      simp only [Bool.false_eq_true, if_false]
      split_ifs with h₀
      · rfl
      · have : f.buf = [] := List.length_eq_zero_iff.1 (by have := h.pos_add; omega)
        rw [flushWriteFile, if_pos this]
    rw [hg']
    refine ⟨fun hB => by rw [hk.size hB, hpos], fun x hx => hk.get_ge x (Or.inl hx),
      fun x hx hx' => Or.inl (hk.get_lt x hx (by omega)), fun hs => absurd hs (by simp)⟩
  | true =>
    have h : SparseOk fresh P B p₀ s₀ out f := h
    have hadd := h.pos_add
    have hge := h.pos_ge
    have htrail : trailZeros out = f.sparseSeek := by
      refine trailZeros_eq (fun i hi => h.zeros i (by omega)) (fun hlt => ?_) (by omega)
      have := (h.past (by omega)).2.1
      rwa [show out.length - f.sparseSeek - 1 = f.pos - p₀ - 1 by omega]
    -- the bytes are those before the truncation
    have hget : ∀ x < p₀ + out.length, zget g.data x = zget f.data x := by
      intro x hx
      rw [hg, if_pos (by omega), if_pos rfl, sparseEnd]
      split_ifs
      · rfl
      · exact zget_zresize hx
    refine ⟨fun hB => ?_, fun x hx => ?_, fun x hx hx' => ?_, fun _ x hx hx' hc => ?_⟩
    · have hsize := h.size hB
      rw [hg]
      simp only [if_true, sparseEnd]
      split_ifs
      · omega
      · simp [OutFile.truncate]
      · omega
    · rw [hget x (by omega)]; exact h.get_ge x (Or.inl hx)
    · rw [hget x hx']
      rcases lt_or_ge x f.pos with hlt | hge'
      · exact (h.get_lt x hx hlt).imp id fun h => ⟨rfl, h.1, Or.inl h.2⟩
      · exact Or.inr ⟨rfl, h.get_ge x (Or.inr hge'), Or.inr (by omega)⟩
    · rw [hget x hx']
      rcases hc with hc | ⟨hs, hlt⟩
      · exact h.get_ge x (Or.inr (by omega))
      · exact h.lead hs x hx hlt

/-- What the finished file holds, byte by byte. -/
theorem finish (h : Written sparse fresh P B p₀ s₀ out f) {inplace : Bool}
    (hin : inplace = true ∨ fresh = true) {d : Bytes}
    (hd : d = (finishOutput sparse inplace f (p₀ + out.length)).data) :
    d.length = p₀ + out.length ∧ (∀ x < p₀, zget d x = zget B x) ∧
    (∀ x, p₀ ≤ x → x < p₀ + out.length → zget d x = zget out (x - p₀) ∨
      sparse = true ∧ zget d x = zget B x ∧ Stale P p₀ s₀ out x) ∧
    (sparse = true → ∀ x, p₀ ≤ x → x < p₀ + out.length →
      p₀ + out.length - trailZeros out ≤ x ∨ P ≤ s₀ ∧ x < p₀ + leadZeros out →
      zget d x = zget B x) := by
  unfold finishOutput at hd
  dsimp only at hd
  set g := (if 0 < p₀ + out.length then
    if sparse then sparseEnd f (p₀ + out.length) else flushWriteFile f else f) with hg
  obtain ⟨h₁, h₂, h₃, h₄⟩ := h.flushed hg
  have hlen : d.length = p₀ + out.length ∧ ∀ x < p₀ + out.length, zget d x = zget g.data x := by
    rw [hd]
    split_ifs with hc
    · exact ⟨by simp [OutFile.truncate], fun x hx => zget_zresize hx⟩
    · refine ⟨h₁ (hin.resolve_left fun hi => hc (Or.inl hi)), fun _ _ => rfl⟩
  obtain ⟨hlen, hget⟩ := hlen
  refine ⟨hlen, fun x hx => ?_, fun x hx hx' => ?_, fun hs x hx hx' hc => ?_⟩
  · rw [hget x (by omega)]; exact h₂ x hx
  · rw [hget x hx']; exact h₃ x hx hx'
  · rw [hget x hx']; exact h₄ hs x hx hx' hc

/-- No stale byte differs from the zero written there. -/
def NoStale (sparse : Bool) (P : ℕ) (B : Bytes) (p₀ s₀ : ℕ) (out : Bytes) : Prop :=
  sparse = true → ∀ x, p₀ ≤ x → x < p₀ + out.length → Stale P p₀ s₀ out x → zget B x = 0

theorem stale_zero {x : ℕ} (hx : p₀ ≤ x) (h : Stale P p₀ s₀ out x) : zget out (x - p₀) = 0 := by
  rcases h with h | h
  · exact h.1
  · exact zget_of_trailZeros (by omega)

theorem noStale_of_nil : NoStale sparse P [] p₀ s₀ out := fun _ _ _ _ _ => zget_nil _

/-- **The finished file is the written data** after the first `p₀` bytes, if no
    stale byte shows through. -/
theorem finish_eq (h : Written sparse fresh P B p₀ s₀ out f) {inplace : Bool}
    (hin : inplace = true ∨ fresh = true) (hs : NoStale sparse P B p₀ s₀ out) :
    (finishOutput sparse inplace f (p₀ + out.length)).data = zresize B p₀ ++ out := by
  obtain ⟨h₁, h₂, h₃, -⟩ := h.finish hin rfl
  refine ext_zget (by simp [h₁]) fun x hx => ?_
  rw [h₁] at hx
  rw [zget_append, zresize_length]
  split_ifs with hlt
  · rw [h₂ x hlt, zget_zresize hlt]
  · rcases h₃ x (by omega) hx with h₄ | ⟨hsp, h₄, hst⟩
    · exact h₄
    · rw [h₄, hs hsp x (by omega) hx hst, stale_zero (by omega) hst]

/-- Conversely a stale byte shows, where the old file ends by `preallocated_len`. -/
theorem noStale_of_finish_eq (h : Written sparse fresh P B p₀ s₀ out f) {inplace : Bool}
    (hin : inplace = true ∨ fresh = true) (hP : sparse = true → B.length ≤ P)
    (he : (finishOutput sparse inplace f (p₀ + out.length)).data = zresize B p₀ ++ out) :
    NoStale sparse P B p₀ s₀ out := by
  obtain ⟨-, -, -, h₄⟩ := h.finish hin rfl
  intro hs x hx hx' hst
  have hout : zget (finishOutput sparse inplace f (p₀ + out.length)).data x = 0 := by
    rw [he, zget_append_right (by simpa using hx), zresize_length]
    exact stale_zero hx hst
  rcases hst with ⟨-, hle | hc⟩ | hc
  · exact zget_of_le ((hP hs).trans hle)
  · rw [← h₄ hs x hx hx' (Or.inr hc), hout]
  · rw [← h₄ hs x hx hx' (Or.inl hc), hout]

end Written

end CloudEdgeBackup
