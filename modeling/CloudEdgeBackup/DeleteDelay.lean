/-
  The queue of delayed deletions (`--delete-delay`, generator.c): what is to be deleted is kept as
  text in a buffer, which is written to a temporary file whenever it is full, and read back through
  the same buffer in the end.

  * `rememberDelete` and `flushDeleteDelay` write, `DelReader.readDelayLine` reads; a read may give
    fewer bytes than were asked for, and a record may be split at any byte;
  * `doDelayedDeletions` is the whole of it: what is read of what was remembered;
  * `findRecord_spec`: the next record is found wherever the ends of the buffer are, and
    `doDelayedDeletions_eq` says what comes out: the items up to the first that is not read back.

  The reader counts a byte too many where a record starts with the mark `!`, so it refuses such a
  record when its name has the greatest length.
-/
import CloudEdgeBackup.Lib.Format
import CloudEdgeBackup.Rsync

namespace CloudEdgeBackup

open Cfmt

/-- An item to be deleted; of its flags only `DEL_NO_UID_WRITE` is kept. -/
structure DelItem where
  mode : ℕ
  noUidWrite : Bool
  name : Bytes
deriving DecidableEq

/-- The bytes in `deldelay_buf`, and in the temporary file if there is one. -/
structure DelQueue where
  buf : Bytes
  file : Option Bytes
deriving DecidableEq

/-- `deldelay_size`, which is `BIGPATHBUFLEN * 4` -/
abbrev deldelaySize : ℕ := (maxPathLen + 1024) * 4

abbrev exclamation : UInt8 := 33
abbrev blank : UInt8 := 32

/-- What `snprintf` prints for an item, its NUL included. -/
def DelItem.text (item : DelItem) : Bytes := showHex item.mode ++ blank :: item.name ++ [0]

/-! ## Writing -/

/-- `flush_delete_delay` -/
def DelQueue.flushDeleteDelay (q : DelQueue) : DelQueue := ⟨[], some (q.file.getD [] ++ q.buf)⟩

/-- The loop of `remember_delete`, which ends once the text fits behind what is in the buffer. -/
def rememberLoop (size : ℕ) (text : Bytes) : ℕ → DelQueue → Option DelQueue
  | 0, _ => none
  | fuel + 1, q =>
    if q.buf.length + text.length ≤ size then some { q with buf := q.buf ++ text }
    else rememberLoop size text fuel q.flushDeleteDelay

/-- `remember_delete` -/
def rememberDelete (size fuel : ℕ) (q : DelQueue) (item : DelItem) : Option DelQueue :=
  let q := if q.buf.length = size then q.flushDeleteDelay else q
  let q := if item.noUidWrite then { q with buf := q.buf ++ [exclamation] } else q
  rememberLoop size item.text fuel q

/-! ## Reading -/

/-- The buffer, where the next record starts in it, and what has not been read of the file. -/
structure DelReader where
  buf : Bytes
  readPos : ℕ
  file : Option Bytes
deriving DecidableEq

namespace DelReader

/-- The loop that looks for the end of a record and fills the buffer up.  `chunk` is how many bytes
    more than one a read gives at most, when so many are left.  None ends the deletions: an error, or
    the end of the records. -/
def findRecord (size : ℕ) (chunk : ℕ → ℕ) (r : DelReader) : Option (DelReader × ℕ) :=
  match (r.buf.drop r.readPos).idxOf? 0 with
  | some len => some (r, r.readPos + len)
  | none =>
    match hfile : r.file with
    | none => none
    | some file =>
      let buf := r.buf.drop r.readPos
      if hfull : size ≤ buf.length then none
      else if hend : file = [] then none
      else
        let len := min (size - buf.length) (chunk file.length + 1)
        findRecord size chunk ⟨buf ++ file.take len, 0, some (file.drop len)⟩
termination_by (r.file.getD []).length
decreasing_by
  have hroom : ¬size ≤ (r.buf.drop r.readPos).length := hfull
  have := List.length_pos_of_ne_nil hend
  rw [hfile, Option.getD_some, Option.getD_some, List.length_drop]
  omega

/-- `read_delay_line` -/
def readDelayLine (size : ℕ) (chunk : ℕ → ℕ) (r : DelReader) : Option (DelReader × DelItem) :=
  (r.findRecord size chunk).bind fun found =>
    let r := found.1
    let j := found.2
    let marked : Bool := r.buf[r.readPos]? = some exclamation
    let bp := if marked then r.readPos + 1 else r.readPos
    -- the text up to its NUL
    match scanHex ((r.buf.take j).drop bp), ((r.buf.take j).drop bp).idxOf? blank with
    | some (mode, _), some space =>
      let pastSpace := bp + space + 1
      -- `past_space - bp` leaves the mark out
      let len := j - r.readPos - (pastSpace - bp) + 1
      if maxPathLen < len then none
      else some ({ r with readPos := j + 1 },
        ⟨mode, marked, ((r.buf.drop pastSpace).take len).takeWhile (· ≠ 0)⟩)
    | _, _ => none

/-- The loop of `do_delayed_deletions`, with the items it deletes. -/
def readItems (size : ℕ) (chunk : ℕ → ℕ) : ℕ → DelReader → Option (List DelItem)
  | 0, _ => none
  | fuel + 1, r =>
    match r.readDelayLine size chunk with
    | none => some []
    | some (r, item) => (readItems size chunk fuel r).map (item :: ·)

end DelReader

/-- The items remembered one after the other. -/
def rememberAll (size fuel : ℕ) : DelQueue → List DelItem → Option DelQueue
  | q, [] => some q
  | q, item :: items => (rememberDelete size fuel q item).bind fun q => rememberAll size fuel q items

/-- The last flush, and the reader at the start of the file. -/
def DelQueue.reader (q : DelQueue) : DelReader :=
  match q.file with
  | none => ⟨q.buf, 0, none⟩
  | some file => if q.buf = [] then ⟨[], 0, some file⟩ else ⟨[], 0, some (file ++ q.buf)⟩

/-- What `do_delayed_deletions` deletes of what was remembered. -/
def doDelayedDeletions (chunk : ℕ → ℕ) (fuel : ℕ) (items : List DelItem) : Option (List DelItem) :=
  (rememberAll deldelaySize fuel ⟨[], none⟩ items).bind fun q =>
    q.reader.readItems deldelaySize chunk fuel

/-! ## A record is found -/

/-- What is still to be read. -/
def DelReader.stream (r : DelReader) : Bytes := r.buf.drop r.readPos ++ r.file.getD []

theorem idxOf?_append_self {s t : Bytes} {b : UInt8} (h : b ∉ s) :
    (s ++ b :: t).idxOf? b = some s.length := by
  induction s with
  | nil => simp [List.idxOf?_cons]
  | cons c s ih =>
    rw [List.mem_cons, not_or] at h
    have hne : ¬c = b := fun heq => h.1 heq.symm
    simp [List.idxOf?_cons, ih h.2, hne]

theorem idxOf?_prefix {s t u v : Bytes} {b : UInt8} (h : b ∉ s) (heq : u ++ v = s ++ b :: t) :
    (u.idxOf? b = none ∧ u.length ≤ s.length) ∨
    (u.idxOf? b = some s.length ∧ ∃ w, u = s ++ b :: w ∧ w ++ v = t) := by
  rcases List.append_eq_append_iff.1 heq with ⟨w, hs, hv⟩ | ⟨w, hu, ht⟩
  · refine .inl ⟨?_, ?_⟩
    · rw [List.idxOf?_eq_none_iff]
      intro hmem
      exact h (hs ▸ List.mem_append_left w hmem)
    · rw [hs, List.length_append]
      omega
  · cases w with
    | nil =>
      refine .inl ⟨?_, by simp [hu]⟩
      rw [List.append_nil] at hu
      rw [hu]
      exact List.idxOf?_eq_none_iff.2 h
    | cons c w =>
      obtain ⟨rfl, rfl⟩ := List.cons.inj ht
      exact .inr ⟨hu ▸ idxOf?_append_self h, w, hu, rfl⟩

/-- **The next record is found**, wherever the buffer ends in it. -/
theorem findRecord_spec {size : ℕ} {chunk : ℕ → ℕ} {r : DelReader} {s t : Bytes} (hs : (0 : UInt8) ∉ s)
    (hsize : s.length < size) (hstream : r.stream = s ++ 0 :: t) :
    ∃ r' w, r.findRecord size chunk = some (r', r'.readPos + s.length) ∧
      r'.buf.drop r'.readPos = s ++ 0 :: w ∧ w ++ r'.file.getD [] = t := by
  induction hn : (r.file.getD []).length using Nat.strong_induction_on generalizing r with
  | _ n ih =>
  rw [DelReader.findRecord]
  rcases idxOf?_prefix hs hstream with ⟨hnone, hlen⟩ | ⟨hsome, w, hw, ht⟩
  · cases hfile : r.file with
    | none =>
      rw [DelReader.stream, hfile, Option.getD_none, List.append_nil] at hstream
      rw [hstream, idxOf?_append_self hs] at hnone
      cases hnone
    | some file =>
      have hstream' : r.buf.drop r.readPos ++ file = s ++ 0 :: t := by
        rw [← hstream, DelReader.stream, hfile]
        rfl
      have hne : file ≠ [] := by
        rintro rfl
        rw [List.append_nil] at hstream'
        rw [hstream', idxOf?_append_self hs] at hnone
        cases hnone
      have hpos := List.length_pos_of_ne_nil hne
      rw [hfile, Option.getD_some] at hn
      simp only [hnone]
      rw [dif_neg (by omega), dif_neg hne]
      refine ih _ ?_ (r := ⟨_, 0, _⟩) ?_ rfl
      · rw [Option.getD_some, List.length_drop, ← hn]
        omega
      · rw [DelReader.stream, Option.getD_some, List.drop_zero, List.append_assoc,
          List.take_append_drop, hstream']
  · simp only [hsome]
    exact ⟨r, w, rfl, hw, ht⟩

/-! ## Records -/

namespace DelItem

variable (item : DelItem)

/-- An item as `delete_in_dir` has it: a 16-bit mode and a name from a buffer of `MAXPATHLEN`. -/
structure Ok : Prop where
  mode : item.mode < 2 ^ 16
  name : (0 : UInt8) ∉ item.name
  short : item.name.length < maxPathLen

/-- What stands in the queue for an item, without its NUL. -/
def line : Bytes :=
  (if item.noUidWrite then [exclamation] else []) ++ (showHex item.mode ++ blank :: item.name)

/-- The item is read back. -/
def Fine : Bool := !item.noUidWrite || item.name.length + 1 < maxPathLen

variable {item}

theorem line_length (item : DelItem) : item.line.length =
    (if item.noUidWrite then 1 else 0) + ((showHex item.mode).length + (item.name.length + 1)) := by
  rw [line, List.length_append, List.length_append, List.length_cons]
  split_ifs <;> rfl

theorem Ok.line_length_le (h : item.Ok) : item.line.length ≤ maxPathLen + 5 := by
  have hhex := showHex_length_le (k := 4) (by norm_num) (h.mode.trans_eq (by norm_num))
  have hname := h.short
  rw [line_length]
  split_ifs <;> omega

theorem Ok.not_mem_line (h : item.Ok) : (0 : UInt8) ∉ item.line := by
  rw [line, List.mem_append, List.mem_append, List.mem_cons, not_or, not_or, not_or]
  refine ⟨?_, fun hmem => ?_, by decide, h.name⟩
  · split_ifs <;> decide
  · exact absurd (showHex_isHexDigit _ _ hmem) (by decide)

theorem head_showHex (n : ℕ) (t : Bytes) : (showHex n ++ t).head? ≠ some exclamation := by
  obtain ⟨c, cs, hc⟩ := List.exists_cons_of_ne_nil (showHex_ne_nil n)
  rw [hc, List.cons_append, List.head?_cons, ne_eq, Option.some.injEq]
  rintro rfl
  exact absurd (showHex_isHexDigit n exclamation (hc ▸ List.mem_cons_self)) (by decide)

theorem blank_not_mem_showHex (n : ℕ) : blank ∉ showHex n := fun hmem =>
  absurd (showHex_isHexDigit n blank hmem) (by decide)

end DelItem

/-- **A record is read back**, unless the mark makes the name one byte too long. -/
theorem readDelayLine_spec {size : ℕ} {chunk : ℕ → ℕ} {r : DelReader} {item : DelItem} {t : Bytes}
    (hok : item.Ok) (hsize : item.line.length < size) (hstream : r.stream = item.line ++ 0 :: t) :
    (item.Fine = false ∧ r.readDelayLine size chunk = none) ∨
    ∃ r', item.Fine = true ∧ r.readDelayLine size chunk = some (r', item) ∧ r'.stream = t := by
  obtain ⟨r', w, hfound, hbuf, ht⟩ := findRecord_spec hok.not_mem_line hsize hstream
  rw [DelReader.readDelayLine, hfound, Option.bind_some]
  have hmark : (r'.buf[r'.readPos]? = some exclamation) ↔ item.noUidWrite = true := by
    have hhead : r'.buf[r'.readPos]? = (r'.buf.drop r'.readPos).head? := by
      rw [List.head?_drop]
    rw [hhead, hbuf, DelItem.line]
    split_ifs with hflag
    · simp [hflag]
    · rw [List.nil_append, List.append_assoc]
      exact iff_of_false (DelItem.head_showHex _ _) hflag
  -- behind the mark
  set bp := if item.noUidWrite then r'.readPos + 1 else r'.readPos with hbp
  have hdrop : r'.buf.drop bp = showHex item.mode ++ blank :: item.name ++ 0 :: w := by
    rw [hbp]
    split_ifs with hflag
    · rw [← List.drop_drop, hbuf, DelItem.line, if_pos hflag]
      simp
    · rw [hbuf, DelItem.line, if_neg hflag, List.nil_append]
  have hlen : r'.readPos + item.line.length =
      bp + (showHex item.mode ++ blank :: item.name).length := by
    rw [hbp, DelItem.line_length, List.length_append, List.length_cons]
    split_ifs <;> omega
  have htext : (r'.buf.take (r'.readPos + item.line.length)).drop bp =
      showHex item.mode ++ blank :: item.name := by
    rw [hlen, List.drop_take, hdrop, Nat.add_sub_cancel_left, List.take_left]
  have hscan : scanHex (showHex item.mode ++ blank :: item.name) = some (item.mode, blank :: item.name) :=
    scanHex_showHex _ fun b hb => by
      cases hb
      decide
  have hspace : (showHex item.mode ++ blank :: item.name).idxOf? blank = some (showHex item.mode).length :=
    idxOf?_append_self (DelItem.blank_not_mem_showHex _)
  have hpast : r'.buf.drop (bp + (showHex item.mode).length + 1) = item.name ++ 0 :: w := by
    rw [Nat.add_assoc, ← List.drop_drop, hdrop]
    simp
  have hcopy : r'.readPos + item.line.length - r'.readPos - (bp + (showHex item.mode).length + 1 - bp) + 1 =
      (if item.noUidWrite then 1 else 0) + item.name.length + 1 := by
    rw [DelItem.line_length]
    split_ifs <;> omega
  simp only [hmark, Bool.decide_eq_true, ← hbp, htext, hscan, hspace, hcopy, hpast]
  have hshort := hok.short
  by_cases hfine : item.Fine = true
  · refine .inr ⟨{ r' with readPos := r'.readPos + item.line.length + 1 }, hfine, ?_, ?_⟩
    · have hle : ¬maxPathLen < (if item.noUidWrite then 1 else 0) + item.name.length + 1 := by
        simp only [DelItem.Fine, Bool.or_eq_true, Bool.not_eq_true', decide_eq_true_eq] at hfine
        split_ifs with hflag
        · rw [hflag] at hfine
          simp only [Bool.true_eq_false, false_or] at hfine
          omega
        · omega
      have hname : ((item.name ++ 0 :: w).take ((if item.noUidWrite then 1 else 0) + item.name.length + 1)).takeWhile
          (· ≠ 0) = item.name := by
        rw [show (if item.noUidWrite then 1 else 0) + item.name.length + 1 =
          item.name.length + ((if item.noUidWrite then 1 else 0) + 1) by omega, List.take_length_add_append,
          List.take_succ_cons]
        refine (takeWhile_append_stop (fun b hb => ?_) fun b hb => ?_).1
        · rw [decide_eq_true_eq]
          rintro rfl
          exact hok.name hb
        · cases hb
          rfl
      rw [if_neg hle, hname]
    · rw [DelReader.stream, ← ht]
      congr 1
      rw [Nat.add_assoc, ← List.drop_drop, hbuf]
      simp
  · refine .inl ⟨Bool.eq_false_iff.2 hfine, ?_⟩
    simp only [DelItem.Fine, Bool.or_eq_true, Bool.not_eq_true', decide_eq_true_eq, not_or, not_lt,
      Bool.not_eq_false] at hfine
    rw [if_pos (by rw [if_pos hfine.1]; omega)]

/-! ## The whole queue -/

/-- The bytes of the records. -/
def records (items : List DelItem) : Bytes := items.flatMap fun item => item.line ++ [0]

theorem findRecord_end {size : ℕ} {chunk : ℕ → ℕ} {r : DelReader} (h : r.stream = []) :
    r.findRecord size chunk = none := by
  obtain ⟨hbuf, hfile⟩ := List.append_eq_nil_iff.1 h
  rw [DelReader.findRecord, hbuf]
  cases hf : r.file with
  | none => rfl
  | some file =>
    rw [hf, Option.getD_some] at hfile
    simp [hfile]

/-- **The items are read back in their order**, up to one that is not. -/
theorem readItems_spec {size fuel : ℕ} {chunk : ℕ → ℕ} {items : List DelItem} {r : DelReader}
    (hok : ∀ item ∈ items, item.Ok) (hsize : maxPathLen + 5 < size) (hfuel : items.length < fuel)
    (hstream : r.stream = records items) :
    r.readItems size chunk fuel = some (items.takeWhile DelItem.Fine) := by
  obtain ⟨fuel, rfl⟩ : ∃ n, fuel = n + 1 := ⟨fuel - 1, by omega⟩
  induction items generalizing r fuel with
  | nil =>
    have hnone : r.readDelayLine size chunk = none := by
      rw [DelReader.readDelayLine, findRecord_end hstream]
      rfl
    rw [DelReader.readItems, hnone]
    rfl
  | cons item items ih =>
    have hitem := hok item List.mem_cons_self
    rw [DelReader.readItems, List.takeWhile_cons]
    have hstream' : r.stream = item.line ++ 0 :: records items := by
      rw [hstream, records, List.flatMap_cons, List.append_assoc]
      rfl
    rcases readDelayLine_spec hitem (hitem.line_length_le.trans_lt hsize) hstream' with
      ⟨hbad, hnone⟩ | ⟨r', hfine, hsome, hrest⟩
    · rw [hnone, hbad]
      rfl
    · obtain ⟨fuel, rfl⟩ : ∃ n, fuel = n + 1 := ⟨fuel - 1, by rw [List.length_cons] at hfuel; omega⟩
      have hrest' := ih (fun x hx => hok x (List.mem_cons_of_mem _ hx)) hrest fuel (by
        rw [List.length_cons] at hfuel
        omega)
      rw [hsome, if_pos hfine]
      exact congrArg (Option.map (item :: ·)) hrest'

/-- What the queue holds, in the file and behind it in the buffer. -/
def DelQueue.bytes (q : DelQueue) : Bytes := q.file.getD [] ++ q.buf

theorem bytes_flushDeleteDelay (q : DelQueue) : q.flushDeleteDelay.bytes = q.bytes := by
  simp [DelQueue.flushDeleteDelay, DelQueue.bytes]

theorem rememberLoop_spec {size fuel : ℕ} {text : Bytes} (q : DelQueue) (htext : text.length ≤ size)
    (hfuel : 2 ≤ fuel) : ∃ q', rememberLoop size text fuel q = some q' ∧ q'.bytes = q.bytes ++ text := by
  obtain ⟨fuel, rfl⟩ : ∃ n, fuel = n + 2 := ⟨fuel - 2, by omega⟩
  have hfits : ∀ (n : ℕ) (q : DelQueue), q.buf.length + text.length ≤ size →
      ∃ q', rememberLoop size text (n + 1) q = some q' ∧ q'.bytes = q.bytes ++ text := by
    intro n q hle
    exact ⟨_, by rw [rememberLoop, if_pos hle], by simp [DelQueue.bytes]⟩
  by_cases hle : q.buf.length + text.length ≤ size
  · exact hfits _ q hle
  · rw [rememberLoop, if_neg hle]
    obtain ⟨q', hq', hbytes⟩ := hfits fuel q.flushDeleteDelay (by
      simpa [DelQueue.flushDeleteDelay] using htext)
    exact ⟨q', hq', by rw [hbytes, bytes_flushDeleteDelay]⟩

/-- An item is remembered, however full the buffer is. -/
theorem rememberDelete_spec {size fuel : ℕ} {q : DelQueue} {item : DelItem} (hok : item.Ok)
    (hsize : maxPathLen + 5 < size) (hfuel : 2 ≤ fuel) :
    ∃ q', rememberDelete size fuel q item = some q' ∧ q'.bytes = q.bytes ++ (item.line ++ [0]) := by
  have htext : item.text.length ≤ size := by
    have hle := hok.line_length_le
    rw [DelItem.line_length] at hle
    simp only [DelItem.text, List.length_append, List.length_cons, List.length_nil]
    split_ifs at hle <;> omega
  obtain ⟨q₁, hq₁⟩ : ∃ q₁, q₁ = if q.buf.length = size then q.flushDeleteDelay else q := ⟨_, rfl⟩
  obtain ⟨q₂, hq₂⟩ : ∃ q₂, q₂ = if item.noUidWrite then { q₁ with buf := q₁.buf ++ [exclamation] } else q₁ :=
    ⟨_, rfl⟩
  have hbytes : q₂.bytes = q.bytes ++ if item.noUidWrite then [exclamation] else [] := by
    have h₁ : q₁.bytes = q.bytes := by
      rw [hq₁]
      split_ifs
      · exact bytes_flushDeleteDelay q
      · rfl
    rw [hq₂]
    split_ifs
    · rw [← h₁]
      simp [DelQueue.bytes]
    · rw [h₁, List.append_nil]
  obtain ⟨q', hq', hb⟩ := rememberLoop_spec q₂ htext hfuel
  refine ⟨q', ?_, ?_⟩
  · rw [rememberDelete, ← hq₁, ← hq₂, hq']
  · rw [hb, hbytes, DelItem.line, DelItem.text]
    simp

theorem rememberAll_spec {size fuel : ℕ} {items : List DelItem} {q : DelQueue}
    (hok : ∀ item ∈ items, item.Ok) (hsize : maxPathLen + 5 < size) (hfuel : 2 ≤ fuel) :
    ∃ q', rememberAll size fuel q items = some q' ∧ q'.bytes = q.bytes ++ records items := by
  induction items generalizing q with
  | nil => exact ⟨q, rfl, by simp [records]⟩
  | cons item items ih =>
    obtain ⟨q₁, hq₁, hbytes⟩ := rememberDelete_spec (q := q) (hok item List.mem_cons_self) hsize hfuel
    obtain ⟨q', hq', hb⟩ := ih (q := q₁) fun x hx => hok x (List.mem_cons_of_mem _ hx)
    refine ⟨q', ?_, ?_⟩
    · rw [rememberAll, hq₁, Option.bind_some, hq']
    · rw [hb, hbytes, records, records, List.flatMap_cons, List.append_assoc]

theorem stream_reader (q : DelQueue) : q.reader.stream = q.bytes := by
  rw [DelQueue.reader, DelQueue.bytes]
  cases q.file with
  | none => simp [DelReader.stream]
  | some file =>
    by_cases hbuf : q.buf = []
    · simp [DelReader.stream, hbuf]
    · simp [DelReader.stream, hbuf]

theorem doDelayedDeletions_eq {chunk : ℕ → ℕ} {fuel : ℕ} {items : List DelItem}
    (hok : ∀ item ∈ items, item.Ok) (hfuel : items.length + 2 ≤ fuel) :
    doDelayedDeletions chunk fuel items = some (items.takeWhile DelItem.Fine) := by
  obtain ⟨q, hq, hbytes⟩ := rememberAll_spec (q := ⟨[], none⟩) hok
    (by norm_num : maxPathLen + 5 < deldelaySize) (by omega : 2 ≤ fuel)
  rw [doDelayedDeletions, hq, Option.bind_some]
  refine readItems_spec hok (by norm_num) (by omega) ?_
  rw [stream_reader, hbytes]
  rfl

/-- **What is remembered is deleted**, every item once and in order, exactly when no item with the
    mark has a name of the greatest length. -/
theorem doDelayedDeletions_iff {chunk : ℕ → ℕ} {fuel : ℕ} {items : List DelItem}
    (hok : ∀ item ∈ items, item.Ok) (hfuel : items.length + 2 ≤ fuel) :
    doDelayedDeletions chunk fuel items = some items ↔
      ∀ item ∈ items, item.noUidWrite = true → item.name.length ≠ maxPathLen - 1 := by
  rw [doDelayedDeletions_eq hok hfuel, Option.some.injEq, List.takeWhile_eq_self_iff]
  refine forall_congr' fun item => forall_congr' fun hitem => ?_
  have hshort : item.name.length < 4096 := (hok item hitem).short
  simp only [DelItem.Fine, Bool.or_eq_true, Bool.not_eq_true', decide_eq_true_eq, maxPathLen]
  cases item.noUidWrite
  · simp
  · simp only [Bool.true_eq_false, false_or, true_implies]
    omega

/-- Two items, one of them with the mark. -/
theorem doDelayedDeletions_iff_two :
    doDelayedDeletions (fun _ => 0) 4 [⟨0o100644, false, [97]⟩, ⟨0o40555, true, [98, 32]⟩] =
      some [⟨0o100644, false, [97]⟩, ⟨0o40555, true, [98, 32]⟩] := by
  have hok : ∀ item ∈ [(⟨0o100644, false, [97]⟩ : DelItem), ⟨0o40555, true, [98, 32]⟩], item.Ok := by
    intro item hitem
    rcases List.mem_pair.1 hitem with rfl | rfl <;> exact ⟨by norm_num, by decide, by norm_num⟩
  refine (doDelayedDeletions_iff hok le_rfl).2 fun item hitem _ => ?_
  rcases List.mem_pair.1 hitem with rfl | rfl <;> norm_num

/-- A name of 4095 bytes with the mark is refused, and what stands behind it is lost. -/
theorem not_doDelayedDeletions_longName : ¬∀ (chunk : ℕ → ℕ) (fuel : ℕ) (items : List DelItem),
    (∀ item ∈ items, item.Ok) → items.length + 2 ≤ fuel →
      doDelayedDeletions chunk fuel items = some items := by
  intro h
  have hok : ∀ item ∈ [(⟨0o40555, true, List.replicate 4095 97⟩ : DelItem), ⟨0o100644, false, [97]⟩],
      item.Ok := by
    intro item hitem
    rcases List.mem_pair.1 hitem with rfl | rfl
    · refine ⟨by norm_num, fun hmem => ?_, ?_⟩
      · exact absurd (List.eq_of_mem_replicate hmem) (by decide)
      · rw [List.length_replicate]
        norm_num
    · exact ⟨by norm_num, by decide, by norm_num⟩
  have hall := h (fun _ => 0) 4 _ hok le_rfl
  rw [doDelayedDeletions_eq hok (le_refl 4), Option.some.injEq, List.takeWhile_eq_self_iff] at hall
  have hfine := hall _ List.mem_cons_self
  rw [DelItem.Fine, List.length_replicate] at hfine
  exact absurd hfine (by decide)

end CloudEdgeBackup
