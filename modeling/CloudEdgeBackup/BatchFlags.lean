/-
  The option flags at the head of a batch file (`batch.c`).

  * the run that writes a batch puts a bitmap of the options of `flag_ptr` first, and the run that
    reads it sets its own options by the bits (`check_batch_flags`);
  * `--append`, `--append-verify` and `--iconv` stand in the table as `tweaked` copies, made from
    the options before the table is used;
  * `testBit_flagBits` says what the bitmap holds, `checkLoop_spec` what the loop over it does.

  Two things are not as the writer had them. A bit is compared with the value of an option, and so
  an option above 1 becomes 1; and where neither append bit is set `append_mode` stays as it is.
-/
import CloudEdgeBackup.Wire

namespace CloudEdgeBackup

open Codec

/-- The variables behind `flag_ptr`. -/
inductive StreamFlag where
  | recurse | preserveUid | preserveGid | preserveLinks | preserveDevices | preserveHardLinks
  | alwaysChecksum | xferDirs | doCompression | tweakedIconv | preserveAcls | preserveXattrs
  | inplace | tweakedAppend | tweakedAppendVerify
  deriving DecidableEq

namespace StreamFlag

/-- A copy made from another option. -/
def Tweaked : StreamFlag → Prop
  | tweakedIconv | tweakedAppend | tweakedAppendVerify => True
  | _ => False

end StreamFlag

/-- `flag_ptr`. -/
def flagPtr : List StreamFlag :=
  [.recurse, .preserveUid, .preserveGid, .preserveLinks, .preserveDevices, .preserveHardLinks,
    .alwaysChecksum, .xferDirs, .doCompression, .tweakedIconv, .preserveAcls, .preserveXattrs,
    .inplace, .tweakedAppend, .tweakedAppendVerify]

/-- The options of a run that the table and the copies depend on; `iconvOpt` says whether
    `iconv_opt` is given. -/
structure StreamOpts where
  flag : StreamFlag → ℤ
  appendMode : ℤ
  iconvOpt : Bool

namespace StreamOpts

/-- The `tweaked` copies. -/
def tweak (o : StreamOpts) : StreamOpts :=
  { o with
    flag := fun f =>
      match f with
      | .tweakedAppend => if o.appendMode = 1 then 1 else 0
      | .tweakedAppendVerify => if o.appendMode = 2 then 1 else 0
      | .tweakedIconv => if o.iconvOpt then 1 else 0
      | f => o.flag f }

end StreamOpts

/-! ## The flags -/

/-- The loop of `write_stream_flags`. -/
def flagBits (flag : StreamFlag → ℤ) : List StreamFlag → ℕ → ℕ → ℕ
  | [], _, flags => flags
  | f :: fs, i, flags => flagBits flag fs (i + 1) (if flag f ≠ 0 then flags ||| 1 <<< i else flags)

def writeStreamFlags (o : StreamOpts) : Bytes :=
  writeInt (flagBits o.tweak.flag flagPtr 0 0)

def readStreamFlags : In ℤ := readInt

/-- The loop of `check_batch_flags`; `none` where the run ends because of `--iconv`. -/
def checkLoop (batchStreamFlags : ℤ) : List StreamFlag → ℕ → (StreamFlag → ℤ) → Option (StreamFlag → ℤ)
  | [], _, flag => some flag
  | f :: fs, i, flag =>
    let set : ℤ := if batchStreamFlags.testBit i then 1 else 0
    if flag f ≠ set then
      if i = 9 then none else checkLoop batchStreamFlags fs (i + 1) (Function.update flag f set)
    else checkLoop batchStreamFlags fs (i + 1) flag

/-- The part of `flag_ptr` a protocol uses. -/
def flagTable (protocol : ℤ) : List StreamFlag :=
  if protocol < 29 then flagPtr.take 7 else if protocol < 30 then flagPtr.take 9 else flagPtr

def checkBatchFlags (protocol batchStreamFlags : ℤ) (o : StreamOpts) : Option StreamOpts := do
  let flag ← checkLoop batchStreamFlags (flagTable protocol) 0 o.tweak.flag
  let dirs := flag .xferDirs
  let flag := if protocol < 29 then
      if flag .recurse ≠ 0 then Function.update flag .xferDirs (if dirs % 2 = 0 then dirs + 1 else dirs)
      else if dirs < 2 then Function.update flag .xferDirs 0 else flag
    else flag
  let appendMode := if flag .tweakedAppend ≠ 0 then 1
    else if flag .tweakedAppendVerify ≠ 0 then 2 else o.appendMode
  pure { o with flag := flag, appendMode := appendMode }

/-- A run that reads the batch: the flags and then the check. -/
def replayFlags (protocol : ℤ) (w r : StreamOpts) : Option StreamOpts := do
  let (batchStreamFlags, _) ← readStreamFlags (writeStreamFlags w)
  checkBatchFlags protocol batchStreamFlags r

/-! ## The bitmap -/

theorem testBit_flagBits {flag : StreamFlag → ℤ} {fs : List StreamFlag} {i flags j : ℕ} :
    (flagBits flag fs i flags).testBit j = true ↔
      flags.testBit j = true ∨ i ≤ j ∧ ∃ f, fs[j - i]? = some f ∧ flag f ≠ 0 := by
  induction fs generalizing i flags with
  | nil => simp [flagBits]
  | cons f fs ih =>
    have hset : (if flag f ≠ 0 then flags ||| 1 <<< i else flags).testBit j = true ↔
        flags.testBit j = true ∨ j = i ∧ flag f ≠ 0 := by
      split_ifs with hf
      · rw [Nat.testBit_or, Bool.or_eq_true, Nat.one_shiftLeft, Nat.testBit_two_pow, decide_eq_true_eq]
        exact or_congr_right ⟨fun h => ⟨h.symm, hf⟩, fun h => h.1.symm⟩
      · simp [hf]
    rw [flagBits, ih, hset, or_assoc]
    refine or_congr_right ?_
    rcases lt_trichotomy j i with hlt | rfl | hgt
    · simp [hlt.ne, hlt.not_ge, (Nat.lt_succ_of_lt hlt).not_ge]
    · simp
    · obtain ⟨k, rfl⟩ : ∃ k, j = i + 1 + k := ⟨j - (i + 1), by omega⟩
      have hk : i + 1 + k - i = k + 1 := by omega
      simp [hk, hgt.ne', hgt.le]

theorem flagBits_lt {flag : StreamFlag → ℤ} {fs : List StreamFlag} {i flags n : ℕ}
    (hlen : i + fs.length ≤ n) (hflags : flags < 2 ^ n) : flagBits flag fs i flags < 2 ^ n := by
  refine Nat.lt_pow_two_of_testBit _ fun j hj => ?_
  rw [← Bool.not_eq_true, testBit_flagBits, not_or]
  refine ⟨?_, ?_⟩
  · rw [Nat.testBit_lt_two_pow (hflags.trans_le (Nat.pow_le_pow_right (by norm_num) hj))]
    exact Bool.false_ne_true
  · rintro ⟨-, f, hf, -⟩
    obtain ⟨hlt, -⟩ := List.getElem?_eq_some_iff.1 hf
    omega

/-- The bitmap is read as it was written. -/
theorem readStreamFlags_write (o : StreamOpts) :
    readStreamFlags (writeStreamFlags o) = some (((flagBits o.tweak.flag flagPtr 0 0 : ℕ) : ℤ), []) := by
  have hlt : flagBits o.tweak.flag flagPtr 0 0 < 2 ^ 15 := flagBits_lt le_rfl (by norm_num)
  have hread := reads_int (x := (flagBits o.tweak.flag flagPtr 0 0 : ℕ)) ⟨by omega, by omega⟩ []
  rwa [List.append_nil] at hread

/-! ## The check -/

/-- The value a bit asks for. -/
def bitValue (batchStreamFlags : ℤ) (i : ℕ) : ℤ := if batchStreamFlags.testBit i then 1 else 0

/-- **What the loop does**: it ends the run where the tenth option differs, and gives every other
    option the value of its bit. -/
theorem checkLoop_spec (bits : ℤ) {fs : List StreamFlag} (hnodup : fs.Nodup) (i : ℕ)
    (flag : StreamFlag → ℤ) :
    (checkLoop bits fs i flag = none ↔ ∃ k f, fs[k]? = some f ∧ i + k = 9 ∧ flag f ≠ bitValue bits 9) ∧
    ∀ flag', checkLoop bits fs i flag = some flag' →
      (∀ k f, fs[k]? = some f → flag' f = bitValue bits (i + k)) ∧ ∀ f ∉ fs, flag' f = flag f := by
  induction fs generalizing i flag with
  | nil => simp [checkLoop]
  | cons f fs ih =>
    obtain ⟨hf, hnodup⟩ := List.nodup_cons.1 hnodup
    have hne : ∀ {k g}, fs[k]? = some g → g ≠ f := fun hg heq => hf (heq ▸ List.mem_of_getElem? hg)
    have hstep : checkLoop bits (f :: fs) i flag = if flag f ≠ bitValue bits i then
        if i = 9 then none else checkLoop bits fs (i + 1) (Function.update flag f (bitValue bits i))
      else checkLoop bits fs (i + 1) flag := rfl
    rw [hstep]
    by_cases hset : flag f ≠ bitValue bits i
    · rw [if_pos hset]
      by_cases hi : i = 9
      · subst hi
        rw [if_pos rfl]
        exact ⟨iff_of_true rfl ⟨0, f, rfl, rfl, hset⟩, fun _ h => by cases h⟩
      · rw [if_neg hi]
        obtain ⟨hnone, hsome⟩ := ih hnodup (i + 1) (Function.update flag f (bitValue bits i))
        refine ⟨hnone.trans ⟨?_, ?_⟩, fun flag' h => ?_⟩
        · rintro ⟨k, g, hg, hk, hbit⟩
          rw [Function.update_of_ne (hne hg)] at hbit
          exact ⟨k + 1, g, hg, by omega, hbit⟩
        · rintro ⟨k, g, hg, hk, hbit⟩
          cases k with
          | zero => exact absurd hk hi
          | succ k =>
            refine ⟨k, g, hg, by omega, ?_⟩
            rwa [Function.update_of_ne (hne hg)]
        · obtain ⟨hin, hout⟩ := hsome flag' h
          refine ⟨fun k g hg => ?_, fun g hg => ?_⟩
          · cases k with
            | zero =>
              obtain rfl : f = g := Option.some.inj hg
              rw [hout f hf, Function.update_self, add_zero]
            | succ k => rw [hin k g hg, add_assoc, add_comm 1 k]
          · rw [List.mem_cons, not_or] at hg
            rw [hout g hg.2, Function.update_of_ne hg.1]
    · rw [if_neg hset]
      rw [not_not] at hset
      obtain ⟨hnone, hsome⟩ := ih hnodup (i + 1) flag
      refine ⟨hnone.trans ⟨?_, ?_⟩, fun flag' h => ?_⟩
      · rintro ⟨k, g, hg, hk, hbit⟩
        exact ⟨k + 1, g, hg, by omega, hbit⟩
      · rintro ⟨k, g, hg, hk, hbit⟩
        cases k with
        | zero =>
          obtain rfl : f = g := Option.some.inj hg
          obtain rfl : i = 9 := hk
          exact absurd hset hbit
        | succ k => exact ⟨k, g, hg, by omega, hbit⟩
      · obtain ⟨hin, hout⟩ := hsome flag' h
        refine ⟨fun k g hg => ?_, fun g hg => ?_⟩
        · cases k with
          | zero =>
            obtain rfl : f = g := Option.some.inj hg
            rw [hout f hf, add_zero, hset]
          | succ k => rw [hin k g hg, add_assoc, add_comm 1 k]
        · rw [List.mem_cons, not_or] at hg
          exact hout g hg.2

theorem flagPtr_nodup : flagPtr.Nodup := by decide

theorem mem_flagPtr (f : StreamFlag) : ∃ k : ℕ, flagPtr[k]? = some f := by
  rw [← List.mem_iff_getElem?]
  cases f <;> decide

theorem flagTable_of_ge {protocol : ℤ} (hp : 30 ≤ protocol) : flagTable protocol = flagPtr := by
  rw [flagTable, if_neg (by omega), if_neg (by omega)]

/-- What the writer's bitmap asks for. -/
theorem bitValue_write (w : StreamOpts) {k : ℕ} {f : StreamFlag} (hf : flagPtr[k]? = some f) :
    bitValue (flagBits w.tweak.flag flagPtr 0 0 : ℕ) k = if w.tweak.flag f ≠ 0 then 1 else 0 := by
  have hbit : (flagBits w.tweak.flag flagPtr 0 0).testBit k = true ↔ w.tweak.flag f ≠ 0 := by
    simp [testBit_flagBits, hf]
  rw [bitValue]
  exact if_congr hbit rfl rfl

/-! ## What the reader ends with -/

theorem tweakedIconv_ne_iff (w r : StreamOpts) :
    (r.tweak.flag .tweakedIconv ≠ if w.tweak.flag .tweakedIconv ≠ 0 then 1 else 0) ↔
      w.iconvOpt ≠ r.iconvOpt := by
  have hflag : ∀ o : StreamOpts, o.tweak.flag .tweakedIconv = if o.iconvOpt then 1 else 0 := fun _ => rfl
  rw [hflag, hflag]
  cases w.iconvOpt <;> cases r.iconvOpt <;> decide

/-- **The reader's options after the check**: the truth values of the writer, as 0 and 1. -/
theorem replayFlags_spec {protocol : ℤ} (hp : 30 ≤ protocol) (w r : StreamOpts) :
    (replayFlags protocol w r = none ↔ w.iconvOpt ≠ r.iconvOpt) ∧
    ∀ r', replayFlags protocol w r = some r' →
      (∀ f, r'.flag f = if w.tweak.flag f ≠ 0 then 1 else 0) ∧
      r'.appendMode = if w.appendMode = 1 then 1 else if w.appendMode = 2 then 2 else r.appendMode := by
  have hold : ¬protocol < 29 := by omega
  have hrun : replayFlags protocol w r =
      checkBatchFlags protocol (flagBits w.tweak.flag flagPtr 0 0 : ℕ) r := by
    rw [replayFlags, readStreamFlags_write]
    rfl
  obtain ⟨hnone, hsome⟩ := checkLoop_spec (flagBits w.tweak.flag flagPtr 0 0 : ℕ) flagPtr_nodup 0 r.tweak.flag
  rw [hrun, checkBatchFlags, flagTable_of_ge hp]
  constructor
  · have hiconv : flagPtr[9]? = some .tweakedIconv := rfl
    have hloop : (∃ k f, flagPtr[k]? = some f ∧ 0 + k = 9 ∧
        r.tweak.flag f ≠ bitValue (flagBits w.tweak.flag flagPtr 0 0 : ℕ) 9) ↔ w.iconvOpt ≠ r.iconvOpt := by
      rw [bitValue_write w hiconv]
      constructor
      · rintro ⟨k, f, hf, hk, hdiff⟩
        obtain rfl : k = 9 := by omega
        obtain rfl : StreamFlag.tweakedIconv = f := Option.some.inj (hiconv.symm.trans hf)
        exact (tweakedIconv_ne_iff w r).1 hdiff
      · intro hne
        exact ⟨9, _, hiconv, rfl, (tweakedIconv_ne_iff w r).2 hne⟩
    rw [← hloop, ← hnone]
    cases checkLoop (flagBits w.tweak.flag flagPtr 0 0 : ℕ) flagPtr 0 r.tweak.flag <;> simp
  · intro r' hr'
    cases hloop : checkLoop (flagBits w.tweak.flag flagPtr 0 0 : ℕ) flagPtr 0 r.tweak.flag with
    | none => simp [hloop] at hr'
    | some flag =>
      have hflag : ∀ f, flag f = if w.tweak.flag f ≠ 0 then 1 else 0 := by
        intro f
        obtain ⟨k, hk⟩ := mem_flagPtr f
        rw [(hsome flag hloop).1 k f hk, zero_add, bitValue_write w hk]
      simp only [hloop, Option.bind_eq_bind, Option.bind_some, if_neg hold, Option.pure_def,
        Option.some.injEq] at hr'
      subst hr'
      refine ⟨hflag, ?_⟩
      simp only [hflag, StreamOpts.tweak]
      by_cases h1 : w.appendMode = 1
      · simp [h1]
      · by_cases h2 : w.appendMode = 2 <;> simp [h1, h2]

/-- The reader replays what the writer recorded. -/
structure Reproduces (w r r' : StreamOpts) : Prop where
  truth : ∀ f, r'.flag f ≠ 0 ↔ w.tweak.flag f ≠ 0
  append : r'.appendMode = w.appendMode
  keeps : ∀ f, (r.tweak.flag f ≠ 0 ↔ w.tweak.flag f ≠ 0) → r'.flag f = r.tweak.flag f

/-- No append mode has to be taken from the reader, and no option that both give is above 1. -/
structure PlainFlags (w r : StreamOpts) : Prop where
  append : w.appendMode = 1 ∨ w.appendMode = 2 ∨ w.appendMode = r.appendMode
  single : ∀ f : StreamFlag, ¬f.Tweaked → w.flag f ≠ 0 → r.flag f ≠ 0 → r.flag f = 1

theorem tweak_flag_of_not {o : StreamOpts} {f : StreamFlag} (hf : ¬f.Tweaked) :
    o.tweak.flag f = o.flag f := by
  cases f <;> first | rfl | exact absurd trivial hf

/-- A copy is 0 or 1. -/
theorem tweak_flag_of_tweaked {o : StreamOpts} {f : StreamFlag} (hf : f.Tweaked) (h0 : o.tweak.flag f ≠ 0) :
    o.tweak.flag f = 1 := by
  cases f <;> first | exact absurd hf id | skip
  all_goals
    simp only [StreamOpts.tweak] at h0 ⊢
    split_ifs at h0 ⊢
    · rfl
    · exact absurd rfl h0

/-- **The reader's options are the writer's**, where the run goes on, exactly for plain flags. -/
theorem replayFlags_reproduces_iff {protocol : ℤ} (hp : 30 ≤ protocol) (w r : StreamOpts) :
    (replayFlags protocol w r = none ↔ w.iconvOpt ≠ r.iconvOpt) ∧
    ((∀ r', replayFlags protocol w r = some r' → Reproduces w r r') ↔
      (w.iconvOpt = r.iconvOpt → PlainFlags w r)) := by
  obtain ⟨hnone, hsome⟩ := replayFlags_spec hp w r
  refine ⟨hnone, ⟨fun h hiconv => ?_, fun h r' hr' => ?_⟩⟩
  · obtain ⟨r', hr'⟩ := Option.ne_none_iff_exists'.1 fun hn => hnone.1 hn hiconv
    have hrep := h r' hr'
    obtain ⟨hflag, happend⟩ := hsome r' hr'
    constructor
    case append =>
      rw [hrep.append] at happend
      split_ifs at happend with h1 h2
      · exact .inl h1
      · exact .inr (.inl h2)
      · exact .inr (.inr happend)
    case single =>
      intro f hf hw hr
      have hkeep := hrep.keeps f
      rw [tweak_flag_of_not hf, tweak_flag_of_not hf, hflag, tweak_flag_of_not hf, if_pos hw] at hkeep
      exact (hkeep (iff_of_true hr hw)).symm
  · have hplain := h (by
      by_contra hne
      rw [hnone.2 hne] at hr'
      cases hr')
    obtain ⟨hflag, happend⟩ := hsome r' hr'
    constructor
    case truth =>
      intro f
      rw [hflag]
      split_ifs with hw
      · exact iff_of_true one_ne_zero hw
      · exact iff_of_false (fun hc => hc rfl) hw
    case append =>
      rw [happend]
      rcases hplain.append with h1 | h2 | heq
      · rw [if_pos h1, h1]
      · rw [if_neg (by omega), if_pos h2, h2]
      · split_ifs with h1 h2
        · exact h1.symm
        · exact h2.symm
        · exact heq.symm
    case keeps =>
      intro f hagree
      rw [hflag]
      by_cases hw : w.tweak.flag f ≠ 0
      · rw [if_pos hw]
        have hr := hagree.2 hw
        by_cases hf : f.Tweaked
        · exact (tweak_flag_of_tweaked hf hr).symm
        · rw [tweak_flag_of_not hf] at hw hr ⊢
          exact (hplain.single f hf hw hr).symm
      · rw [if_neg hw]
        exact (not_not.1 fun hr => hw (hagree.1 hr)).symm

/-- Two runs with `-r`, of which the writer appends. -/
theorem replayFlags_reproduces_iff_recurse :
    ∃ r', replayFlags 31 ⟨fun f => if f = .recurse then 1 else 0, 1, false⟩
      ⟨fun f => if f = .recurse then 1 else 0, 0, false⟩ = some r' ∧ r'.appendMode = 1 := by
  have hprot : (30 : ℤ) ≤ 31 := by norm_num
  obtain ⟨hnone, hiff⟩ := replayFlags_reproduces_iff hprot
    ⟨fun f => if f = .recurse then 1 else 0, 1, false⟩ ⟨fun f => if f = .recurse then 1 else 0, 0, false⟩
  obtain ⟨r', hr'⟩ := Option.ne_none_iff_exists'.1 fun hn => hnone.1 hn rfl
  refine ⟨r', hr', (hiff.2 (fun _ => ⟨.inl rfl, ?_⟩) r' hr').append⟩
  intro f _ _ hr
  change (if f = .recurse then (1 : ℤ) else 0) ≠ 0 at hr
  change (if f = .recurse then (1 : ℤ) else 0) = 1
  split_ifs at hr ⊢
  · rfl
  · exact absurd rfl hr

/-- The batch was written without `--append`, and is read with it. -/
theorem not_reproduces_append : ¬∀ (protocol : ℤ) (w r : StreamOpts), 30 ≤ protocol →
    ∀ r', replayFlags protocol w r = some r' → Reproduces w r r' := by
  intro h
  have hprot : (30 : ℤ) ≤ 31 := by norm_num
  obtain ⟨hnone, hsome⟩ := replayFlags_spec hprot ⟨fun _ => 0, 0, false⟩ ⟨fun _ => 0, 1, false⟩
  obtain ⟨r', hr'⟩ := Option.ne_none_iff_exists'.1 fun hn => hnone.1 hn rfl
  have happend := (hsome r' hr').2
  rw [(h 31 _ _ hprot r' hr').append] at happend
  exact absurd happend (by decide)

end CloudEdgeBackup
