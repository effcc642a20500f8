/-
  The passes of `hash_search`'s main loop (`match.c`), with any sums.

  * `pass` is one pass of the `do ... while` loop, together with the places where
    the process stops in it: sums that do not belong to a file may hop to a block
    that reaches past the end of the source, or have blocks of no bytes;
  * `Top` says in which states the loop begins a pass;
  * `Window` is what the rolling sum has to be there, and `byteSums` are the two
    sums by definition, over signed bytes and without a modulus;
  * `rollingSums`: every pass begins with the sums of its window.
-/
import CloudEdgeBackup.Match

namespace CloudEdgeBackup

open Zext

/-! ## One pass -/

section Definitions

variable (strong : Bytes → Bytes) (s : SumStruct) (src : Bytes) (updating : Bool)

/-- `backup`: how far `last_match` is behind. -/
def Search.backup (st : Search) : ℤ := max 0 (int32 (st.offset - st.lastMatch))

/-- `while (aligned_offset < offset)` never ends, as blocks of no bytes do not move
    the aligned offset. -/
def Stalls (st : Search) : Prop :=
  updating = true ∧ s.head.blength = 0 ∧ st.alignedOffset < st.offset

/-- `map_ptr` has the window behind block `i`: it does not start in front of the
    source, and its length is not negative. -/
def Maps (st : Search) (i : ℕ) : Prop :=
  1 ≤ st.offset + (s.buf i).len ∧ st.offset + (s.buf i).len ≤ src.length + 1

/-- There is a byte to trim off: `map_ptr` gives `NULL` for a request of no bytes. -/
def Trims (st : Search) : Prop :=
  0 < (st.k : ℤ) + (if st.offset + st.k < src.length then 1 else 0) + st.backup

/-- The look at the offset of a pass is survived. -/
def ComesOut (st : Search) : Prop :=
  ((look strong s src updating st).2.isSome = true →
    ¬ Stalls s updating (look strong s src updating st).1) ∧
  (∀ p ∈ pick strong s src updating st, Maps s src p.1 p.2) ∧
  Trims src (tryMatch strong s src updating st)

instance (st : Search) : Decidable (Stalls s updating st) := by unfold Stalls; infer_instance

instance (st : Search) (i : ℕ) : Decidable (Maps s src st i) := by unfold Maps; infer_instance

instance (st : Search) : Decidable (Trims src st) := by unfold Trims; infer_instance

instance (st : Search) : Decidable (ComesOut strong s src updating st) := by
  unfold ComesOut; infer_instance

/-- One pass of the loop; `none` if the process does not come out of it. -/
def pass (st : Search) : Option Search :=
  if ComesOut strong s src updating st then some (advance s src (tryMatch strong s src updating st))
  else none

/-- The states in which the loop begins a pass. -/
inductive Top : Search → Prop
  | first : Top (searchInit s src)
  | next {st st' : Search} : Top st → pass strong s src updating st = some st' →
      (st'.offset : ℤ) < searchEnd s src → Top st'

end Definitions

/-! ## The sums of a window -/

/-- The two sums by definition: byte after byte, each byte signed. -/
def byteSums (buf : Bytes) : ℤ × ℤ :=
  buf.foldl (fun s b => (s.1 + b.toInt8.toInt, s.2 + (s.1 + b.toInt8.toInt))) (0, 0)

/-- The two halves of a checksum. -/
def halves (sum : UInt32) : ℤ × ℤ := (sum.toNat % 2 ^ 16, sum.toNat / 2 ^ 16)

theorem schar_toNat (b : UInt8) : ((schar b).toNat : ℤ) = b.toInt8.toInt % 2 ^ 32 := by
  have h : ((b.toBitVec.signExtend 32).toNat : ℤ) = (b.toBitVec.signExtend 32).toInt % 2 ^ 32 := by
    have hlt := (b.toBitVec.signExtend 32).isLt
    have hmod : ∀ n : ℤ, n.bmod (2 ^ 32) % 2 ^ 32 = n % 2 ^ 32 := fun n => Int.bmod_emod
    rw [BitVec.toInt_eq_toNat_bmod, hmod]
    omega
  rw [BitVec.toInt_signExtend_of_le (by norm_num)] at h
  exact h

/-- The wrapping sums are the sums of the signed bytes modulo 2^16. -/
theorem sums_emod (buf : Bytes) :
    ((sums buf).1.toNat : ℤ) % 2 ^ 16 = (byteSums buf).1 % 2 ^ 16 ∧
      ((sums buf).2.toNat : ℤ) % 2 ^ 16 = (byteSums buf).2 % 2 ^ 16 := by
  induction buf using List.reverseRecOn with
  | nil => exact ⟨rfl, rfl⟩
  | append_singleton w b ih =>
    obtain ⟨ih₁, ih₂⟩ := ih
    have hbyte := schar_toNat b
    have hstep : byteSums (w ++ [b]) = ((byteSums w).1 + b.toInt8.toInt,
        (byteSums w).2 + ((byteSums w).1 + b.toInt8.toInt)) := by
      simp only [byteSums, List.foldl_append, List.foldl_cons, List.foldl_nil]
    rw [sums_append, hstep]
    simp only [UInt32.toNat_add]
    push_cast
    constructor <;> omega

/-- The checksum is the two sums of the signed bytes, each modulo 2^16. -/
theorem halves_getChecksum1 (buf : Bytes) :
    halves (getChecksum1 buf) = ((byteSums buf).1 % 2 ^ 16, (byteSums buf).2 % 2 ^ 16) := by
  obtain ⟨h₁, h₂⟩ := sums_emod buf
  rw [halves, getChecksum1_toNat, Prod.mk.injEq]
  push_cast
  constructor <;> omega

/-- The window of a pass: its length, and the sums modulo 2^16. -/
structure Window (s : SumStruct) (src : Bytes) (st : Search) : Prop where
  offset_le : st.offset ≤ src.length
  k_eq : st.k = min s.head.blength (src.length - st.offset)
  rolled : Rolled (zslice src st.offset st.k) st.s1 st.s2

section Window

variable {strong : Bytes → Bytes} {s : SumStruct} {src : Bytes} {updating : Bool}

theorem window_first : Window s src (searchInit s src) :=
  ⟨Nat.zero_le _, by simp [searchInit, min_comm], rolled_splitSum _⟩

theorem searchEnd_le : searchEnd s src ≤ src.length + 1 := by
  unfold searchEnd
  omega

/-- A look leaves the window where it is, or puts it on the last byte of a block. -/
theorem Window.tryMatch {st : Search} (h : Window s src st)
    (hs : ComesOut strong s src updating st) :
    Window s src (tryMatch strong s src updating st) := by
  obtain ⟨-, hmaps, -⟩ := hs
  unfold CloudEdgeBackup.tryMatch
  cases hp : pick strong s src updating st with
  | none => exact ⟨h.offset_le, h.k_eq, h.rolled⟩
  | some p =>
    obtain ⟨st', i⟩ := p
    obtain ⟨h₁, h₂⟩ := hmaps _ hp
    refine ⟨?_, rfl, rolled_splitSum _⟩
    simp only [emit, matched] at h₁ h₂ ⊢
    omega

/-- A window of no bytes stays so: the byte that goes out is the one that comes in. -/
theorem rolled_nil {s1 s2 : UInt32} (h : Rolled [] s1 s2) (b : UInt8) :
    Rolled [] (rollIn b (rollOut 0 b (s1, s2))).1 (rollIn b (rollOut 0 b (s1, s2))).2 := by
  obtain ⟨h₁, h₂⟩ := h
  have hsum : rollIn b (rollOut 0 b (s1, s2)) = (s1, s2 + s1) := by
    ext1 <;> simp [rollIn, rollOut]
  rw [hsum]
  refine ⟨h₁, ?_⟩
  rw [UInt32.toUInt16_add, h₁, h₂]
  rfl

/-- **The step to the next offset keeps the window.** -/
theorem Window.advance {st : Search} (h : Window s src st)
    (hlt : ((advance s src st).offset : ℤ) < searchEnd s src) : Window s src (advance s src st) := by
  have hend : searchEnd s src ≤ src.length + 1 := searchEnd_le
  have hoff : (CloudEdgeBackup.advance s src st).offset = st.offset + 1 := rfl
  have hle : st.offset < src.length := by
    rw [hoff] at hlt
    omega
  have hk := h.k_eq
  obtain ⟨f₁, f₂⟩ := advance_window s src st
  refine ⟨by omega, ?_, ?_⟩
  · rw [f₁, hoff]
    split_ifs <;> omega
  · have h₁ := congrArg Prod.fst f₂
    have h₂ := congrArg Prod.snd f₂
    dsimp only at h₁ h₂
    rw [f₁, hoff, h₁, h₂]
    rcases Nat.eq_zero_or_pos st.k with h0 | hpos
    · have hroll := h.rolled
      rw [h0] at hroll ⊢
      simpa [hle] using rolled_nil hroll (zget src st.offset)
    · exact rolled_advance hpos src.length h.rolled

/-- The window of every pass. -/
theorem Top.window {st : Search} (h : Top strong s src updating st) : Window s src st := by
  induction h with
  | first => exact window_first
  | next _ hpass hlt ih =>
    unfold pass at hpass
    split_ifs at hpass with hs
    cases hpass
    exact (ih.tryMatch hs).advance hlt

/-- The rolled sums of a window are the halves of its checksum. -/
theorem Rolled.halves {w : Bytes} {s1 s2 : UInt32} (h : Rolled w s1 s2) :
    ((s1.toNat : ℤ) % 2 ^ 16, (s2.toNat : ℤ) % 2 ^ 16) = halves (getChecksum1 w) := by
  have h₁ := toUInt16_eq_iff.1 h.s1_eq
  have h₂ := toUInt16_eq_iff.1 h.s2_eq
  rw [CloudEdgeBackup.halves, getChecksum1_toNat, Prod.mk.injEq]
  push_cast
  constructor <;> omega

/-- **The rolling checksum**, whatever the sums: in front of every pass the window
    is `k` bytes of the source, `s1` and `s2` are modulo 2^16 the halves of its
    checksum, and a checksum is the two sums of the signed bytes. -/
theorem rollingSums (buf : Bytes) {st : Search} (h : Top strong s src updating st) :
    halves (getChecksum1 buf) = ((byteSums buf).1 % 2 ^ 16, (byteSums buf).2 % 2 ^ 16) ∧
      st.offset ≤ src.length ∧ st.k = min s.head.blength (src.length - st.offset) ∧
      ((st.s1.toNat : ℤ) % 2 ^ 16, (st.s2.toNat : ℤ) % 2 ^ 16) =
        halves (getChecksum1 ((src.drop st.offset).take st.k)) := by
  have hw := h.window
  have hle := hw.offset_le
  have hk := hw.k_eq
  refine ⟨halves_getChecksum1 buf, hle, hk, ?_⟩
  rw [← zslice_eq_take (by omega)]
  exact hw.rolled.halves

/-- One block with the bytes 1 and 2. -/
def blockOneTwo : SumStruct :=
  ⟨⟨1, 2, 0, 2, by decide, by decide, Nat.zero_le _, by decide⟩, [⟨0, 2, 0x40003, [1, 2]⟩]⟩

/-- A pass that slides the window and one that matches: the window is on the two
    last bytes, of which one is negative. -/
theorem rollingSums_match : ∃ st, Top id blockOneTwo [255, 1, 2, 9, 255] false st ∧ st.offset = 3 ∧
    halves (getChecksum1 [9, 255]) = ((byteSums [9, 255]).1 % 2 ^ 16, (byteSums [9, 255]).2 % 2 ^ 16) ∧
    ((st.s1.toNat : ℤ) % 2 ^ 16, (st.s2.toNat : ℤ) % 2 ^ 16) =
      halves (getChecksum1 (([255, 1, 2, 9, 255].drop 3).take st.k)) := by
  have hfirst : Top id blockOneTwo [255, 1, 2, 9, 255] false _ := .first
  have hslide := hfirst.next (if_pos (by decide)) (by decide)
  have h := hslide.next (if_pos (by decide)) (by decide)
  have hsums := rollingSums [9, 255] h
  exact ⟨_, h, by decide, hsums.1, hsums.2.2.2⟩

end Window

end CloudEdgeBackup
