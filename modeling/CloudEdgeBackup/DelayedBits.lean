/-
  The files whose update is delayed (`struct bitbag` in `util.c`, `handle_delayed_updates` in
  `receiver.c`).

  * `bitbagCreate`, `Bitbag.setBit` and `Bitbag.nextBit` are the operations on the set, which is
    kept in slots that are allocated when a bit of them is set;
  * `Bitbag.Has` is what a bag contains. `nextBit_least`: the scan over slots and words finds the
    next index of the bag;
  * `delayedUpdates_once`: the loop over the bag visits the indexes that were set in order, and
    `handleDelayedUpdates` renames each of these files once, or not at all if its partial file
    has no name or its backup fails.
-/
import CloudEdgeBackup.Rsync
import CloudEdgeBackup.Lib.BitScan

namespace CloudEdgeBackup

open BitScan

/-! ## Bags of bits -/

abbrev bbSlotSize : ℕ := 16 * 1024
abbrev bbPerSlotBits : ℕ := bbSlotSize * 8
abbrev bbPerSlotInts : ℕ := bbSlotSize / 4

/-- A slot that is allocated. -/
structure BitSlot where
  words : List (BitVec 32)
  length_eq : words.length = bbPerSlotInts

/-- `struct bitbag`, whose `slot_cnt` is the number of slots. -/
structure Bitbag where
  bits : List (Option BitSlot)

/-- `bitbag_create`; a size that overflows cannot be allocated. -/
def bitbagCreate (maxNdx : Int32) : Option Bitbag :=
  let slotCnt := (int32 (maxNdx.toInt + bbPerSlotBits - 1)).tdiv bbPerSlotBits
  if slotCnt < 0 then none else some ⟨List.replicate slotCnt.toNat none⟩

namespace BitSlot

/-- `calloc` -/
def calloc : BitSlot := ⟨List.replicate bbPerSlotInts 0, List.length_replicate⟩

def setBit (slot : BitSlot) (ndx : ℕ) : BitSlot where
  words := slot.words.modify (ndx / 32) (· ||| 1#32 <<< (ndx % 32))
  length_eq := by rw [List.length_modify, slot.length_eq]

end BitSlot

/-- `bitbag_set_bit` -/
def Bitbag.setBit (bb : Bitbag) (ndx : ℕ) : Bitbag where
  bits := bb.bits.modify (ndx / bbPerSlotBits) fun slot =>
    some ((slot.getD .calloc).setBit (ndx % bbPerSlotBits))

/-- The `switch` of `bitbag_next_bit` over the lowest bit. -/
def lowestBit (bits : BitVec 32) : Option ℕ :=
  (List.range 32).find? fun n => bits ^^^ (bits &&& (bits - 1)) = 1#32 <<< n

/-- The inner loop of `bitbag_next_bit`, from the word `i` of a slot on. -/
def nextInWords (slot : ℕ) : ℕ → BitVec 32 → List (BitVec 32) → Option ℤ
  | _, _, [] => none
  | i, mask, word :: words =>
    let bits := word &&& ~~~mask
    if bits = 0 then nextInWords slot (i + 1) 0 words
    else match lowestBit bits with
      | some n => some (slot * bbPerSlotBits + i * 32 + n)
      | none => some (-1)

/-- The outer loop of `bitbag_next_bit`; only the first word is masked. -/
def nextInSlots : ℕ → ℕ → BitVec 32 → List (Option BitSlot) → ℤ
  | _, _, _, [] => -1
  | slot, _, _, none :: slots => nextInSlots (slot + 1) 0 0 slots
  | slot, i, mask, some s :: slots =>
    match nextInWords slot i mask (s.words.drop i) with
    | some ndx => ndx
    | none => nextInSlots (slot + 1) 0 0 slots

/-- `bitbag_next_bit` -/
def Bitbag.nextBit (bb : Bitbag) (after : ℤ) : ℤ :=
  let ndx := (after + 1).toNat
  let slot := ndx / bbPerSlotBits
  let ndx := ndx % bbPerSlotBits
  nextInSlots slot (ndx / 32) (1#32 <<< (ndx % 32) - 1) (bb.bits.drop slot)

/-! ## Delayed updates -/

/-- A call of `do_rename` for a file. -/
structure DelayedRename where
  ndx : ℕ
  partialptr : Bytes
  fname : Bytes
deriving DecidableEq

/-- What `handle_delayed_updates` works with. -/
structure DelayedEnv (σ : Type) where
  localName : Option Bytes
  /-- `f_name` of a file of the list -/
  fName : ℕ → Bytes
  partialDirFname : Bytes → Option Bytes
  makeBackups : ℤ
  makeBackup : Bytes → σ → Bool × σ
  doRename : Bytes → Bytes → σ → Bool × σ
  /-- `remove_source_files`, or a hard-linked file with `preserve_hard_links` -/
  confirms : ℕ → Bool
  /-- `handle_partial_dir` with `PDIR_DELETE` -/
  deletePartialDir : Bytes → σ → σ

/-- The files, with what was done so far. -/
structure DelayedState (σ : Type) where
  files : σ
  renames : List DelayedRename
  /-- the files whose backup failed -/
  unsaved : List ℕ
  /-- `MSG_SUCCESS` -/
  success : List ℕ

variable {σ : Type}

/-- The name of a file. -/
def DelayedEnv.fname (env : DelayedEnv σ) (ndx : ℕ) : Bytes := env.localName.getD (env.fName ndx)

/-- The second half of the body, after the backup. -/
def DelayedEnv.rename (env : DelayedEnv σ) (ndx : ℕ) (partialptr : Bytes) (s : DelayedState σ) :
    DelayedState σ :=
  let renamed := env.doRename partialptr (env.fname ndx) s.files
  let s := { s with
    files := renamed.2
    renames := s.renames ++ [⟨ndx, partialptr, env.fname ndx⟩] }
  if renamed.1 then
    { s with
      files := env.deletePartialDir partialptr s.files
      success := if env.confirms ndx then s.success ++ [ndx] else s.success }
  else s

/-- The body of the loop of `handle_delayed_updates`. -/
def DelayedEnv.update (env : DelayedEnv σ) (s : DelayedState σ) (ndx : ℕ) : DelayedState σ :=
  match env.partialDirFname (env.fname ndx) with
  | none => s
  | some partialptr =>
    if env.makeBackups > 0 then
      let saved := env.makeBackup (env.fname ndx) s.files
      let s := { s with files := saved.2 }
      if saved.1 then env.rename ndx partialptr s else { s with unsaved := s.unsaved ++ [ndx] }
    else env.rename ndx partialptr s

/-- The rounds that a bag of bits can need. -/
def Bitbag.rounds (bb : Bitbag) : ℕ := bb.bits.length * bbPerSlotBits + 1

/-- `handle_delayed_updates`, with nothing done so far. -/
def DelayedEnv.handleDelayedUpdates (env : DelayedEnv σ) (bb : Bitbag) (files : σ) :
    Option (DelayedState σ) :=
  forEach bb.nextBit env.update bb.rounds (-1) ⟨files, [], [], []⟩

/-- The indexes that `bitbag_next_bit` returns one after the other. -/
def Bitbag.scan (bb : Bitbag) : Option (List ℕ) :=
  forEach bb.nextBit (fun ndxs ndx => ndxs ++ [ndx]) bb.rounds (-1) []

/-! ## What a bag contains -/

/-- The bit of an index within a slot is set. -/
def BitSlot.Has (slot : BitSlot) (ndx : ℕ) : Prop :=
  (slot.words.getD (ndx / 32) 0).getLsbD (ndx % 32) = true

/-- The bit of an index is set. -/
def Bitbag.Has (bb : Bitbag) (ndx : ℕ) : Prop :=
  ∃ slot, bb.bits[ndx / bbPerSlotBits]? = some (some slot) ∧ slot.Has (ndx % bbPerSlotBits)

section Has

variable {slot : BitSlot} {bb : Bitbag} {ndx n : ℕ}

theorem perSlotBits_eq : bbPerSlotBits = 131072 := rfl

theorem perSlotInts_eq : bbPerSlotInts = 4096 := rfl

theorem getLsbD_one_shiftLeft {k b : ℕ} (hb : b < 32) :
    (1#32 <<< k).getLsbD b = decide (k = b) := by
  rw [← BitVec.twoPow_eq, BitVec.getLsbD_twoPow]
  by_cases hk : k < 32
  · rw [decide_eq_true hk, Bool.true_and]
  · rw [decide_eq_false hk, Bool.false_and, decide_eq_false (by omega)]

theorem BitSlot.not_has_calloc (n : ℕ) : ¬BitSlot.calloc.Has n := by
  intro h
  rw [BitSlot.Has, BitSlot.calloc, List.getD_eq_getElem?_getD, List.getElem?_replicate] at h
  split_ifs at h <;> simp at h

theorem BitSlot.has_setBit (hndx : ndx < bbPerSlotBits) :
    (slot.setBit ndx).Has n ↔ n = ndx ∨ slot.Has n := by
  have hlt : ndx / 32 < slot.words.length := by
    rw [slot.length_eq, perSlotInts_eq]
    rw [perSlotBits_eq] at hndx
    omega
  simp only [BitSlot.Has, BitSlot.setBit, List.getD_eq_getElem?_getD, List.getElem?_modify]
  by_cases hword : ndx / 32 = n / 32
  · rw [← hword, List.getElem?_eq_getElem hlt]
    simp only [Option.map_eq_map, Option.map_some, Option.getD_some, if_true, BitVec.getLsbD_or,
      getLsbD_one_shiftLeft (Nat.mod_lt n (by decide)), Bool.or_eq_true, decide_eq_true_eq]
    have heq : ndx % 32 = n % 32 ↔ n = ndx := by omega
    rw [heq, or_comm]
  · have hne : n ≠ ndx := by
      rintro rfl
      exact hword rfl
    simp only [if_neg hword, hne, false_or]
    cases slot.words[n / 32]? <;> rfl

theorem Bitbag.has_setBit (hndx : ndx < bb.bits.length * bbPerSlotBits) :
    (bb.setBit ndx).Has n ↔ n = ndx ∨ bb.Has n := by
  have hpos : 0 < bbPerSlotBits := by decide
  have hlt : ndx / bbPerSlotBits < bb.bits.length := Nat.div_lt_of_lt_mul (by rwa [Nat.mul_comm])
  simp only [Bitbag.Has, Bitbag.setBit, List.getElem?_modify]
  by_cases hslot : ndx / bbPerSlotBits = n / bbPerSlotBits
  · have heq : n % bbPerSlotBits = ndx % bbPerSlotBits ↔ n = ndx := by
      constructor
      · intro h
        rw [← Nat.div_add_mod n bbPerSlotBits, ← hslot, h, Nat.div_add_mod]
      · rintro rfl
        rfl
    rw [← hslot, List.getElem?_eq_getElem hlt]
    simp only [Option.map_eq_map, Option.map_some, if_true, Option.some.injEq]
    constructor
    · rintro ⟨slot, rfl, hhas⟩
      rw [BitSlot.has_setBit (Nat.mod_lt _ hpos), heq] at hhas
      refine hhas.imp_right fun hhas => ?_
      cases hold : bb.bits[ndx / bbPerSlotBits] with
      | none =>
        rw [hold] at hhas
        exact absurd hhas (BitSlot.not_has_calloc _)
      | some slot =>
        rw [hold] at hhas
        exact ⟨slot, rfl, hhas⟩
    · intro h
      refine ⟨_, rfl, (BitSlot.has_setBit (Nat.mod_lt _ hpos)).2 ?_⟩
      rw [heq]
      refine h.imp_right ?_
      rintro ⟨slot, hold, hhas⟩
      rwa [hold]
  · have hne : n ≠ ndx := by
      rintro rfl
      exact hslot rfl
    simp only [if_neg hslot, hne, false_or]
    cases bb.bits[n / bbPerSlotBits]? <;> rfl

theorem Bitbag.length_setBit : (bb.setBit ndx).bits.length = bb.bits.length := List.length_modify _ _ _

/-- Setting bits one after the other. -/
theorem Bitbag.has_foldl_setBit : ∀ {ndxs : List ℕ} {bb : Bitbag},
    (∀ ndx ∈ ndxs, ndx < bb.bits.length * bbPerSlotBits) →
      (ndxs.foldl Bitbag.setBit bb).bits.length = bb.bits.length ∧
      ∀ n, (ndxs.foldl Bitbag.setBit bb).Has n ↔ n ∈ ndxs ∨ bb.Has n := by
  intro ndxs
  induction ndxs with
  | nil => exact fun _ => ⟨rfl, fun n => by simp⟩
  | cons ndx ndxs ih =>
    intro bb hlt
    have hndx := hlt ndx List.mem_cons_self
    obtain ⟨hlength, hhas⟩ := @ih (bb.setBit ndx) fun n hn => by
      rw [Bitbag.length_setBit]
      exact hlt n (List.mem_cons_of_mem _ hn)
    rw [List.foldl_cons]
    refine ⟨hlength.trans Bitbag.length_setBit, fun n => ?_⟩
    rw [hhas, Bitbag.has_setBit hndx, List.mem_cons]
    tauto

theorem Bitbag.Has.lt (h : bb.Has n) : n < bb.bits.length * bbPerSlotBits := by
  obtain ⟨slot, hslot, -⟩ := h
  obtain ⟨hlt, -⟩ := List.getElem?_eq_some_iff.1 hslot
  exact (Nat.div_lt_iff_lt_mul (by decide)).1 hlt

/-- The number of slots is enough, or its computation overflows to a negative number. -/
theorem slotCnt_cases {max : ℤ} (hmin : 0 ≤ max) (hmax : max < 2 ^ 31) :
    max ≤ (int32 (max + bbPerSlotBits - 1)).tdiv bbPerSlotBits * bbPerSlotBits ∨
      (int32 (max + bbPerSlotBits - 1)).tdiv bbPerSlotBits < 0 := by
  have hbits : ((bbPerSlotBits : ℕ) : ℤ) = 131072 := rfl
  rw [hbits]
  by_cases hsum : max + 131072 - 1 < 2 ^ 31
  · left
    rw [int32, Int.bmod_eq_of_le (by omega) (by omega), Int.tdiv_eq_ediv_of_nonneg (by omega)]
    omega
  · right
    have hwrap : int32 (max + 131072 - 1) = -(2 ^ 32 - (max + 131072 - 1)) := by
      rw [int32, Int.bmod_def]
      omega
    rw [hwrap, Int.neg_tdiv, Int.tdiv_eq_ediv_of_nonneg (by omega)]
    omega

/-- A new bag is empty, and has room for all indexes below its size. -/
theorem bitbagCreate_spec {maxNdx : Int32} (h : bitbagCreate maxNdx = some bb) :
    (∀ n, ¬bb.Has n) ∧ ∀ n : ℕ, (n : ℤ) < maxNdx.toInt → n < bb.bits.length * bbPerSlotBits := by
  rw [bitbagCreate] at h
  split_ifs at h with hneg
  obtain rfl := Option.some.inj h
  constructor
  · rintro n ⟨slot, hslot, -⟩
    rw [List.getElem?_replicate] at hslot
    split_ifs at hslot
    cases Option.some.inj hslot
  · intro n hn
    rw [List.length_replicate]
    have hroom := (slotCnt_cases (by omega) maxNdx.toInt_lt).resolve_right hneg
    rw [← Int.ofNat_lt, Int.natCast_mul, Int.toNat_of_nonneg (not_lt.1 hneg)]
    exact hn.trans_le hroom

end Has

/-! ## The next bit -/

section Next

variable {S : ℕ → Prop}

theorem getLsbD_unmasked {k b : ℕ} (hk : k < 32) (hb : b < 32) (word : BitVec 32) :
    (word &&& ~~~(1#32 <<< k - 1)).getLsbD b = (word.getLsbD b && decide (k ≤ b)) := by
  have hone : (1#32 <<< k).getLsbD k = true := by
    rw [getLsbD_one_shiftLeft hk, decide_eq_true rfl]
  have hlow : ∀ m < k, (1#32 <<< k).getLsbD m = false := fun m hm => by
    rw [getLsbD_one_shiftLeft (hm.trans hk), decide_eq_false (by omega)]
  have hmask : (1#32 <<< k - 1).getLsbD b = decide (b < k) := by
    have hsub := getLsbD_sub_one hone hlow b
    rw [getLsbD_one_shiftLeft hb] at hsub
    refine hsub.trans ?_
    split_ifs with hlt heq
    · rw [decide_eq_true hlt]
    · rw [decide_eq_false hlt]
    · rw [decide_eq_false hlt, decide_eq_false (Ne.symm heq)]
  rw [BitVec.getLsbD_and, BitVec.getLsbD_not, hmask, decide_eq_true hb, Bool.true_and]
  by_cases hle : k ≤ b
  · rw [decide_eq_true hle, decide_eq_false (by omega), Bool.not_false]
  · rw [decide_eq_false hle, decide_eq_true (by omega), Bool.not_true]

/-- The lowest bit of a word that is not empty. -/
theorem lowestBit_spec {bits : BitVec 32} (h : bits ≠ 0) :
    ∃ n < 32, lowestBit bits = some n ∧ bits.getLsbD n = true ∧ ∀ m < n, bits.getLsbD m = false := by
  have hex : ∃ n, bits.getLsbD n = true := by
    by_contra hnone
    refine h (BitVec.eq_of_getLsbD_eq fun i _ => ?_)
    rw [Bool.eq_false_of_not_eq_true (not_exists.1 hnone i)]
    exact BitVec.getLsbD_zero.symm
  obtain ⟨n, hn, hleast⟩ := Nat.findX hex
  have hlow : ∀ m < n, bits.getLsbD m = false := fun m hm =>
    Bool.eq_false_of_not_eq_true (hleast m hm)
  have hlt : n < 32 := BitVec.lt_of_getLsbD hn
  refine ⟨n, hlt, ?_, hn, hlow⟩
  have hpow : bits ^^^ (bits &&& (bits - 1)) = 1#32 <<< n := by
    rw [← BitVec.twoPow_eq]
    exact xor_and_sub_one hn hlow
  rw [lowestBit, hpow, List.find?_range_eq_some]
  refine ⟨decide_eq_true rfl, List.mem_range.2 hlt, fun m hm => ?_⟩
  rw [decide_eq_false, Bool.not_false]
  intro heq
  have hbit := getLsbD_one_shiftLeft (k := n) hlt
  rw [heq, getLsbD_one_shiftLeft hlt, decide_eq_true rfl, decide_eq_true_eq] at hbit
  omega

theorem mask_zero : (0 : BitVec 32) = 1#32 <<< 0 - 1 := by decide

/-- The scan of the words of a slot from the bit `k` of the word `i` on: it finds the least element
    of `S`, or there is none up to the end of the words. -/
theorem nextInWords_spec {slot base : ℕ} (hbase : slot * bbPerSlotBits = base) :
    ∀ {words : List (BitVec 32)} {i k : ℕ}, k < 32 →
    (∀ j word, words[j]? = some word → ∀ b < 32,
      (S (base + (i + j) * 32 + b) ↔ word.getLsbD b = true)) →
    (nextInWords slot i (1#32 <<< k - 1) words = none ∧
      ∀ m, base + i * 32 + k ≤ m → m < base + (i + words.length) * 32 → ¬S m) ∨
    ∃ n : ℕ, nextInWords slot i (1#32 <<< k - 1) words = some (n : ℤ) ∧
      base + i * 32 + k ≤ n ∧ S n ∧ ∀ m, base + i * 32 + k ≤ m → m < n → ¬S m := by
  intro words
  induction words with
  | nil =>
    intro i k _ _
    refine .inl ⟨rfl, fun m hm hlt => ?_⟩
    rw [List.length_nil] at hlt
    omega
  | cons word words ih =>
    intro i k hk hS
    have hword := hS 0 word rfl
    rw [Nat.add_zero] at hword
    rw [nextInWords]
    by_cases hzero : word &&& ~~~(1#32 <<< k - 1) = 0
    · -- Nothing is left in this word, and the next one is read without a mask.
      rw [if_pos hzero]
      have hnone : ∀ m, base + i * 32 + k ≤ m → m < base + (i + 1) * 32 → ¬S m := by
        intro m hm hlt hSm
        obtain ⟨b, rfl⟩ : ∃ b, m = base + i * 32 + b := ⟨m - (base + i * 32), by omega⟩
        have hb : b < 32 := by omega
        have hbit := getLsbD_unmasked hk hb word
        rw [hzero, (hword b hb).1 hSm, decide_eq_true (by omega)] at hbit
        exact absurd (BitVec.getLsbD_zero.symm.trans hbit) Bool.false_ne_true
      have htail : ∀ j word, words[j]? = some word → ∀ b < 32,
          (S (base + (i + 1 + j) * 32 + b) ↔ word.getLsbD b = true) := by
        intro j word hj
        have h := hS (j + 1) word hj
        rwa [← Nat.add_assoc, Nat.add_right_comm] at h
      rw [mask_zero]
      rcases @ih (i + 1) 0 (by decide) htail with ⟨hdone, hrest⟩ | ⟨n, hn, hle, hSn, hleast⟩
      · refine .inl ⟨hdone, fun m hm hlt => ?_⟩
        rw [List.length_cons] at hlt
        by_cases hin : m < base + (i + 1) * 32
        · exact hnone m hm hin
        · exact hrest m (by omega) (by omega)
      · refine .inr ⟨n, hn, by omega, hSn, fun m hm hlt => ?_⟩
        by_cases hin : m < base + (i + 1) * 32
        · exact hnone m hm hin
        · exact hleast m (by omega) hlt
    · rw [if_neg hzero]
      obtain ⟨n, hlt, hlowest, hbit, hlow⟩ := lowestBit_spec hzero
      rw [getLsbD_unmasked hk hlt, Bool.and_eq_true, decide_eq_true_eq] at hbit
      rw [hlowest]
      refine .inr ⟨base + i * 32 + n, ?_, by omega, (hword n hlt).2 hbit.1, ?_⟩
      · rw [← hbase]
        push_cast
        rfl
      · intro m hm hmn hSm
        obtain ⟨b, rfl⟩ : ∃ b, m = base + i * 32 + b := ⟨m - (base + i * 32), by omega⟩
        have hb : b < 32 := by omega
        have hclear := hlow b (by omega)
        rw [getLsbD_unmasked hk hb, (hword b hb).1 hSm, decide_eq_true (by omega)] at hclear
        cases hclear

/-- The scan of the slots from the bit `k` of the word `i` of the first one on. -/
theorem nextInSlots_least : ∀ {slots : List (Option BitSlot)} {slot i k : ℕ}, i < 4096 → k < 32 →
    (∀ m, slot * 131072 ≤ m → (S m ↔
      ∃ s, slots[m / 131072 - slot]? = some (some s) ∧ s.Has (m % 131072))) →
    LeastFrom S (slot * 131072 + i * 32 + k) (nextInSlots slot i (1#32 <<< k - 1) slots) := by
  intro slots
  induction slots with
  | nil =>
    intro slot i k _ _ hS
    refine .inl ⟨rfl, fun m hm hSm => ?_⟩
    have hstart : slot * 131072 ≤ m := Nat.le_of_add_right_le (Nat.le_of_add_right_le hm)
    obtain ⟨s, hs, -⟩ := (hS m hstart).1 hSm
    cases hs
  | cons head slots ih =>
    intro slot i k hi hk hS
    have hnext : LeastFrom S ((slot + 1) * 131072) (nextInSlots (slot + 1) 0 0 slots) := by
      have htail := @ih (slot + 1) 0 0 (by decide) (by decide) fun m hm => by
        have hdiv : m / 131072 - slot = m / 131072 - (slot + 1) + 1 := by omega
        have hstart : slot * 131072 ≤ m := (Nat.mul_le_mul_right _ (Nat.le_succ slot)).trans hm
        rw [hS m hstart, hdiv, List.getElem?_cons_succ]
      rwa [Nat.zero_mul, Nat.add_zero, Nat.add_zero, ← mask_zero] at htail
    have hfirst : ∀ m, slot * 131072 ≤ m → m < (slot + 1) * 131072 →
        (S m ↔ ∃ s, head = some s ∧ s.Has (m % 131072)) := by
      intro m hm hlt
      have hdiv : m / 131072 - slot = 0 := by omega
      rw [hS m hm, hdiv, List.getElem?_cons_zero]
      simp only [Option.some.injEq]
    cases head with
    | none =>
      -- A slot that was never allocated is passed over.
      rw [nextInSlots]
      refine hnext.skip (by omega) fun m hm hlt hSm => ?_
      have hstart : slot * 131072 ≤ m := Nat.le_of_add_right_le (Nat.le_of_add_right_le hm)
      obtain ⟨s, hs, -⟩ := (hfirst m hstart hlt).1 hSm
      cases hs
    | some s =>
      rw [nextInSlots]
      have hwords : ∀ j word, (s.words.drop i)[j]? = some word → ∀ b < 32,
          (S (slot * 131072 + (i + j) * 32 + b) ↔ word.getLsbD b = true) := by
        intro j word hj b hb
        rw [List.getElem?_drop] at hj
        obtain ⟨hlt, -⟩ := List.getElem?_eq_some_iff.1 hj
        rw [s.length_eq, perSlotInts_eq] at hlt
        have hmod : (slot * 131072 + (i + j) * 32 + b) % 131072 = (i + j) * 32 + b := by omega
        have hword : ((i + j) * 32 + b) / 32 = i + j := by omega
        have hbit : ((i + j) * 32 + b) % 32 = b := by omega
        rw [hfirst _ (by omega) (by omega), hmod]
        simp only [Option.some.injEq, exists_eq_left', BitSlot.Has, hword, hbit,
          List.getD_eq_getElem?_getD, hj, Option.getD_some]
      have hbase : slot * bbPerSlotBits = slot * 131072 := rfl
      rcases nextInWords_spec hbase hk hwords with ⟨hdone, hnone⟩ | ⟨n, hn, hle, hSn, hleast⟩
      · rw [hdone]
        refine hnext.skip (by omega) fun m hm hlt => hnone m hm ?_
        rw [List.length_drop, s.length_eq, perSlotInts_eq]
        omega
      · rw [hn]
        exact .inr ⟨n, rfl, hle, hSn, hleast⟩

/-- **`bitbag_next_bit` finds the next index of the bag.** -/
theorem nextBit_least (bb : Bitbag) (after : ℤ) :
    LeastFrom bb.Has (after + 1).toNat (bb.nextBit after) := by
  rw [Bitbag.nextBit]
  obtain ⟨ndx, hndx⟩ : ∃ ndx, (after + 1).toNat = ndx := ⟨_, rfl⟩
  rw [hndx, perSlotBits_eq]
  have hsplit : ndx = ndx / 131072 * 131072 + ndx % 131072 / 32 * 32 + ndx % 131072 % 32 := by omega
  have hleast := @nextInSlots_least bb.Has (bb.bits.drop (ndx / 131072)) (ndx / 131072)
    (ndx % 131072 / 32) (ndx % 131072 % 32) (by omega) (by omega) fun m hm => by
      have hle : ndx / 131072 ≤ m / 131072 := by omega
      rw [List.getElem?_drop, Nat.add_sub_cancel' hle]
      rfl
  rwa [← hsplit] at hleast

end Next

/-! ## Runs over a bag -/

/-- The loops over a bag end, and visit its indexes in order. -/
theorem Bitbag.forEach_eq (bb : Bitbag) :
    ∃ l : List ℕ, l.Pairwise (· < ·) ∧ (∀ n, n ∈ l ↔ bb.Has n) ∧
      ∀ {σ : Type} (body : σ → ℕ → σ) (s : σ),
        forEach bb.nextBit body bb.rounds (-1) s = some (l.foldl body s) := by
  classical
  refine ⟨(List.range (bb.bits.length * bbPerSlotBits)).filter fun n => bb.Has n,
    List.pairwise_lt_range.filter _, fun n => ?_, fun body s => ?_⟩
  · rw [List.mem_filter, List.mem_range, decide_eq_true_eq]
    exact ⟨fun h => h.2, fun h => ⟨h.lt, h⟩⟩
  · refine forEach_eq_foldl (fun a _ => nextBit_least bb a) body _ (-1) bb.rounds s le_rfl
      (List.pairwise_lt_range.filter _) (fun n => ?_) ?_
    · rw [List.mem_filter, List.mem_range, decide_eq_true_eq]
      exact ⟨fun h => ⟨h.2, by omega⟩, fun h => ⟨h.1.lt, h.1⟩⟩
    · refine Nat.lt_succ_of_le ((List.length_filter_le _ _).trans ?_)
      rw [List.length_range]

namespace DelayedEnv

variable {env : DelayedEnv σ} {s : DelayedState σ} {l : List ℕ} {ndx : ℕ}

/-- What one round does with the lists of a state. -/
theorem update_cases (env : DelayedEnv σ) (s : DelayedState σ) (ndx : ℕ) :
    (env.partialDirFname (env.fname ndx) = none ∧ env.update s ndx = s) ∨
    ∃ partialptr, env.partialDirFname (env.fname ndx) = some partialptr ∧
      (((env.update s ndx).renames = s.renames ∧ (env.update s ndx).unsaved = s.unsaved ++ [ndx] ∧
        0 < env.makeBackups ∧ ∃ files, (env.makeBackup (env.fname ndx) files).1 = false) ∨
      (env.update s ndx).renames = s.renames ++ [⟨ndx, partialptr, env.fname ndx⟩] ∧
        (env.update s ndx).unsaved = s.unsaved) := by
  have hrename : ∀ partialptr (s : DelayedState σ),
      (env.rename ndx partialptr s).renames = s.renames ++ [⟨ndx, partialptr, env.fname ndx⟩] ∧
        (env.rename ndx partialptr s).unsaved = s.unsaved := by
    intro partialptr s
    rw [rename]
    dsimp only
    split_ifs <;> exact ⟨rfl, rfl⟩
  cases hpartial : env.partialDirFname (env.fname ndx) with
  | none =>
    refine .inl ⟨rfl, ?_⟩
    rw [update, hpartial]
  | some partialptr =>
    refine .inr ⟨partialptr, rfl, ?_⟩
    simp only [update, hpartial]
    by_cases hbackups : env.makeBackups > 0
    · rw [if_pos hbackups]
      by_cases hsaved : (env.makeBackup (env.fname ndx) s.files).1 = true
      · rw [if_pos hsaved]
        exact .inr (hrename partialptr _)
      · rw [if_neg hsaved]
        exact .inl ⟨rfl, rfl, hbackups, s.files, Bool.eq_false_of_not_eq_true hsaved⟩
    · rw [if_neg hbackups]
      exact .inr (hrename partialptr s)

end DelayedEnv

/-- **Every file was renamed once**, apart from those without a name for their partial file and
    those whose backup failed. -/
structure UpdatedOnce (env : DelayedEnv σ) (l : List ℕ) (s : DelayedState σ) : Prop where
  renames : s.renames.map (·.ndx) =
    l.filter fun ndx => (env.partialDirFname (env.fname ndx)).isSome && decide (ndx ∉ s.unsaved)
  names : ∀ r ∈ s.renames,
    r.fname = env.fname r.ndx ∧ env.partialDirFname r.fname = some r.partialptr
  unsaved : ∀ ndx ∈ s.unsaved, ndx ∈ l ∧ 0 < env.makeBackups ∧
    ∃ files, (env.makeBackup (env.fname ndx) files).1 = false

theorem UpdatedOnce.update {env : DelayedEnv σ} {l : List ℕ} {s : DelayedState σ} {ndx : ℕ}
    (h : UpdatedOnce env l s) (hndx : ndx ∉ l) :
    UpdatedOnce env (l ++ [ndx]) (env.update s ndx) := by
  have hfresh : ndx ∉ s.unsaved := fun hmem => hndx (h.unsaved ndx hmem).1
  have hunsaved : ∀ n ∈ s.unsaved, n ∈ l ++ [ndx] ∧ 0 < env.makeBackups ∧
      ∃ files, (env.makeBackup (env.fname n) files).1 = false := fun n hn =>
    ⟨List.mem_append_left _ (h.unsaved n hn).1, (h.unsaved n hn).2⟩
  rcases env.update_cases s ndx with ⟨hnone, heq⟩ |
    ⟨partialptr, hsome, ⟨hrenames, hlost, hbackup⟩ | ⟨hrenames, hlost⟩⟩
  · rw [heq]
    refine ⟨?_, h.names, hunsaved⟩
    rw [h.renames, List.filter_append, List.filter_singleton, hnone]
    simp
  · refine ⟨?_, ?_, ?_⟩
    · rw [hrenames, hlost, h.renames, List.filter_append, List.filter_singleton]
      have hlast : (decide (ndx ∉ s.unsaved ++ [ndx])) = false :=
        decide_eq_false (not_not.2 (List.mem_append_right _ List.mem_cons_self))
      rw [hlast, Bool.and_false]
      simp only [cond_false, List.append_nil]
      refine List.filter_congr fun n hn => ?_
      have hne : n ≠ ndx := fun heq => hndx (heq ▸ hn)
      simp [hne]
    · rw [hrenames]
      exact h.names
    · intro n hn
      rw [hlost, List.mem_append, List.mem_singleton] at hn
      rcases hn with hn | rfl
      · exact hunsaved n hn
      · exact ⟨List.mem_append_right _ List.mem_cons_self, hbackup⟩
  · refine ⟨?_, ?_, ?_⟩
    · rw [hrenames, hlost, List.map_append, h.renames, List.filter_append, List.filter_singleton,
        hsome, decide_eq_true hfresh]
      rfl
    · intro r hr
      rw [hrenames, List.mem_append, List.mem_singleton] at hr
      rcases hr with hr | rfl
      · exact h.names r hr
      · exact ⟨rfl, hsome⟩
    · rw [hlost]
      exact hunsaved

/-- The loop over files that are all different. -/
theorem UpdatedOnce.foldl (env : DelayedEnv σ) (files : σ) (l : List ℕ) (hl : l.Pairwise (· < ·)) :
    UpdatedOnce env l (l.foldl env.update ⟨files, [], [], []⟩) := by
  induction l using List.reverseRecOn with
  | nil => exact ⟨rfl, by simp, by simp⟩
  | append_singleton l ndx ih =>
    obtain ⟨hl, -, hlast⟩ := List.pairwise_append.1 hl
    rw [List.foldl_append]
    refine (ih hl).update fun hmem => ?_
    exact lt_irrefl _ (hlast ndx hmem ndx List.mem_cons_self)

theorem foldl_concat (l acc : List ℕ) :
    l.foldl (fun ndxs ndx => ndxs ++ [ndx]) acc = acc ++ l := by
  induction l generalizing acc with
  | nil => exact (List.append_nil acc).symm
  | cons x l ih => rw [List.foldl_cons, ih, List.append_assoc, List.singleton_append]

/-- **The files whose update was delayed.** -/
theorem delayedUpdates_once {maxNdx : Int32} {bb : Bitbag} (h : bitbagCreate maxNdx = some bb)
    (ndxs : List ℕ) (hndxs : ∀ ndx ∈ ndxs, (ndx : ℤ) < maxNdx.toInt) :
    ∃ l : List ℕ, l.Pairwise (· < ·) ∧ (∀ n, n ∈ l ↔ n ∈ ndxs) ∧
      (ndxs.foldl Bitbag.setBit bb).scan = some l ∧
      ∀ {σ : Type} (env : DelayedEnv σ) (files : σ), ∃ s,
        env.handleDelayedUpdates (ndxs.foldl Bitbag.setBit bb) files = some s ∧
          UpdatedOnce env l s := by
  obtain ⟨hempty, hroom⟩ := bitbagCreate_spec h
  obtain ⟨-, hhas⟩ := Bitbag.has_foldl_setBit fun ndx hndx => hroom ndx (hndxs ndx hndx)
  obtain ⟨l, hl, hmem, hrun⟩ := (ndxs.foldl Bitbag.setBit bb).forEach_eq
  refine ⟨l, hl, fun n => ?_, ?_, fun env files => ⟨_, hrun _ _, .foldl env files l hl⟩⟩
  · rw [hmem, hhas, or_iff_left (hempty n)]
  · rw [Bitbag.scan, hrun, foldl_concat, List.nil_append]

theorem delayedUpdates_once_three :
    ∃ bb, bitbagCreate 3 = some bb ∧ ([2, 0, 2].foldl Bitbag.setBit bb).scan = some [0, 2] := by
  refine ⟨⟨[none]⟩, rfl, ?_⟩
  obtain ⟨l, hl, hmem, hscan, -⟩ := @delayedUpdates_once 3 ⟨[none]⟩ rfl [2, 0, 2] (by decide)
  have hsorted : ([0, 2] : List ℕ).Pairwise (· < ·) := by decide
  have heq : l = [0, 2] := hl.eq_of_mem_iff hsorted fun n => by
    rw [hmem]
    simp only [List.mem_cons, List.not_mem_nil, or_false]
    omega
  rw [hscan, heq]

/-- A file whose backup fails is not renamed. -/
theorem not_delayedUpdates_renamed :
    ¬∀ (maxNdx : Int32) (bb : Bitbag), bitbagCreate maxNdx = some bb →
      ∀ ndxs : List ℕ, (∀ ndx ∈ ndxs, (ndx : ℤ) < maxNdx.toInt) →
      ∀ (env : DelayedEnv Unit) (s : DelayedState Unit),
        env.handleDelayedUpdates (ndxs.foldl Bitbag.setBit bb) () = some s →
          ∀ ndx ∈ ndxs, (s.renames.map (·.ndx)).count ndx = 1 := by
  intro h
  obtain ⟨env, hpartial, hbackups, hfails⟩ : ∃ env : DelayedEnv Unit,
      (∀ fname, env.partialDirFname fname = some fname) ∧ 0 < env.makeBackups ∧
        ∀ fname files, (env.makeBackup fname files).1 = false :=
    ⟨⟨none, fun _ => [102], some, 1, fun _ s => (false, s), fun _ _ s => (true, s), fun _ => false,
      fun _ s => s⟩, fun _ => rfl, by decide, fun _ _ => rfl⟩
  obtain ⟨l, -, -, hrun⟩ := (([0] : List ℕ).foldl Bitbag.setBit ⟨[none]⟩).forEach_eq
  have hnone : ∀ (l : List ℕ) (s : DelayedState Unit), (l.foldl env.update s).renames = s.renames := by
    intro l
    induction l with
    | nil => exact fun _ => rfl
    | cons ndx l ih =>
      intro s
      rw [List.foldl_cons, ih]
      simp only [DelayedEnv.update, hpartial, if_pos hbackups, hfails, Bool.false_eq_true, if_false]
  have hcount := h 1 ⟨[none]⟩ rfl [0] (by decide) env _ (hrun _ _) 0 List.mem_cons_self
  rw [hnone] at hcount
  cases hcount

end CloudEdgeBackup
