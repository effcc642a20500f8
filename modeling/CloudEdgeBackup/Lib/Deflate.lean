/-
  A compressor and its decompressor, as `zlib.h` documents them.

  * a `Pair` is the two step functions: a call takes part of its input and fills
    part of its output space;
  * `Deflated` and `Inflated` are what a run of calls has taken and put out.  A
    block put into the compressor's history counts as if a stored block with it
    had been put out, which is what the decompressor gets to see;
  * `Inverse` is the documented behaviour: calls make progress, a sync flush ends
    in the marker, and the decompressor gives back what the compressor took;
  * `storedPair` is the pair that stores everything, one byte a block
    (`storedPair_inverse`).
-/
import Mathlib

namespace Deflate

abbrev Bytes := List UInt8

/-- `Z_NO_FLUSH`, `Z_SYNC_FLUSH` -/
inductive Flush
  | no
  | sync
deriving DecidableEq

/-- `Z_OK`, `Z_BUF_ERROR` (no progress was possible), and the errors. -/
inductive Status
  | ok
  | bufError
  | error
deriving DecidableEq

/-- What a call of `inflate` did. -/
structure Step (R : Type) where
  rx : R
  used : ℕ
  out : Bytes
  status : Status

/-- `deflate` and `inflate` with their states.  A call gives the new state, how much
    of its input it took and what it put out. -/
structure Pair where
  Tx : Type
  Rx : Type
  deflateReset : Tx
  deflate : Tx → Flush → Bytes → ℕ → Option (Tx × ℕ × Bytes)
  /-- `deflate(Z_INSERT_ONLY)`: data into the history, nothing put out. -/
  insertOnly : Tx → Bytes → Option Tx
  inflateReset : Rx
  inflate : Rx → Flush → Bytes → ℕ → Step Rx
  inflateSyncPoint : Rx → Bool

/-- The end of every sync flush. -/
def marker : Bytes := [0, 0, 0xff, 0xff]

/-- The header of a stored block. -/
def storedHeader (n : ℕ) : Bytes :=
  [0, UInt8.ofNat n, UInt8.ofNat (n / 256), ~~~UInt8.ofNat n, ~~~UInt8.ofNat (n / 256)]

/-- The longest stored block. -/
abbrev maxStored : ℕ := 0xffff

def stored (d : Bytes) : Bytes := storedHeader d.length ++ d

/-! ## Runs -/

/-- Where a compressor is between two calls. -/
inductive Phase
  /-- reset, or a block was inserted -/
  | fresh
  /-- a sync flush is complete -/
  | synced
  /-- without a flush, and there was output space left -/
  | fed
  /-- without a flush, and the output was filled -/
  | full
  /-- in a sync flush that has put out `b` and filled the output -/
  | flushing (b : Bytes)

namespace Phase

/-- The calls that have something to do. -/
def Ready : Phase → Flush → Bytes → Prop
  | flushing _, fl, _ => fl = .sync
  | full, _, _ => True
  | fed, .sync, _ => True
  | _, _, input => input ≠ []

/-- What the flush has put out so far. -/
def flushed : Phase → Bytes
  | flushing b => b
  | _ => []

/-- The phase after a call that put out `out` and has filled the output or not. -/
def next (p : Phase) (fl : Flush) (out : Bytes) (filled : Bool) : Phase :=
  match fl with
  | .no => if filled then full else fed
  | .sync => if filled then flushing (p.flushed ++ out) else synced

/-- The phases with everything put out. -/
def AtRest (p : Phase) : Prop := p = fresh ∨ p = synced

/-- A call leaves nothing to put out only if it is a flush with space left. -/
theorem atRest_next {p : Phase} {fl : Flush} {out : Bytes} {filled : Bool}
    (h : (p.next fl out filled).AtRest) : fl = .sync ∧ filled = false := by
  cases fl <;> cases filled <;> first | exact ⟨rfl, rfl⟩ | (rcases h with h | h <;> cases h)

end Phase

section Runs

variable (z : Pair)

/-- The compressor has put out `w` (inserted blocks counted as stored ones) and taken
    `h`. -/
inductive Deflated : z.Tx → Bytes → Bytes → Phase → Prop
  | reset : Deflated z.deflateReset [] [] .fresh
  | call {tx tx' w h p fl input avail used out} : Deflated tx w h p → 0 < avail →
      p.Ready fl input → z.deflate tx fl input avail = some (tx', used, out) →
      Deflated tx' (w ++ out) (h ++ input.take used) (p.next fl out (decide (out.length = avail)))
  | insert {tx tx' w h p d} : Deflated tx w h p → p.AtRest → d ≠ [] → d.length ≤ maxStored →
      z.insertOnly tx d = some tx' → Deflated tx' (w ++ stored d) (h ++ d) .fresh

/-- The decompressor has taken `v` and put out `g`. -/
inductive Inflated : z.Rx → Bytes → Bytes → Prop
  | reset : Inflated z.inflateReset [] []
  | call {rx v g} : Inflated rx v g → ∀ fl input avail, 0 < avail →
      Inflated (z.inflate rx fl input avail).rx (v ++ input.take (z.inflate rx fl input avail).used)
        (g ++ (z.inflate rx fl input avail).out)

/-- The documented behaviour of the pair. -/
structure Inverse : Prop where
  /-- A call with something to do takes all its input or fills its output. -/
  deflate_ok : ∀ {tx w h p fl input avail}, Deflated z tx w h p → p.Ready fl input → 0 < avail →
    ∃ tx' used out, z.deflate tx fl input avail = some (tx', used, out) ∧ used ≤ input.length ∧
      out.length ≤ avail ∧ (out.length < avail → used = input.length)
  /-- The output is bounded: so much for a byte of input, and six bytes for a flush. -/
  deflate_bound : ∃ (pending : z.Tx → ℕ) (c : ℕ), ∀ {tx w h p fl input avail tx' used out},
    Deflated z tx w h p → z.deflate tx fl input avail = some (tx', used, out) →
    pending tx' + out.length ≤ pending tx + c * used + 6
  /-- A sync flush puts out the header of an empty stored block, which reaches into a
      byte of its own, and ends in the marker. -/
  flush_marker : ∀ {tx w h p input avail tx' used out}, Deflated z tx w h p →
    z.deflate tx .sync input avail = some (tx', used, out) → out.length < avail →
    ∃ b, b ≠ [] ∧ p.flushed ++ out = b ++ marker
  insert_ok : ∀ {tx w h p d}, Deflated z tx w h p → p.AtRest → d ≠ [] → d.length ≤ maxStored →
    ∃ tx', z.insertOnly tx d = some tx'
  /-- A call takes all its input or fills its output; it only fails to be `Z_OK`
      without progress, and puts out nothing but what the compressor took. -/
  inflate_ok : ∀ {tx w h p rx v g input avail} fl, Deflated z tx w h p → Inflated z rx v g →
    v ++ input <+: w → 0 < avail →
    (z.inflate rx fl input avail).used ≤ input.length ∧
      (z.inflate rx fl input avail).out.length ≤ avail ∧
      ((z.inflate rx fl input avail).out.length < avail →
        (z.inflate rx fl input avail).used = input.length) ∧
      (z.inflate rx fl input avail).status =
        (if (z.inflate rx fl input avail).used = 0 ∧ (z.inflate rx fl input avail).out = []
          then .bufError else .ok) ∧
      g ++ (z.inflate rx fl input avail).out <+: h
  /-- With everything taken but the marker of the last flush, the output is complete
      as soon as there is space left. -/
  inflate_all : ∀ {tx w h p rx v g input fl avail}, Deflated z tx w h p → Inflated z rx v g →
    p.AtRest → (v ++ input = w ∨ p = .synced ∧ v ++ input ++ marker = w) → 0 < avail →
    (z.inflate rx fl input avail).out.length < avail →
    g ++ (z.inflate rx fl input avail).out = h
  /-- It then waits for the data of the empty block that the marker is. -/
  sync_point : ∀ {tx w h rx v g input fl avail}, Deflated z tx w h .synced → Inflated z rx v g →
    v ++ input ++ marker = w → 0 < avail → (z.inflate rx fl input avail).out.length < avail →
    z.inflateSyncPoint (z.inflate rx fl input avail).rx = true

end Runs

/-! ## The pair that stores everything -/

/-- A decompressor of stored blocks, byte by byte. -/
inductive Scan
  | start
  | flag
  | low (n : ℕ)
  | high (n : ℕ)
  | check (n : ℕ)
  | data (n : ℕ)
deriving DecidableEq

/-- The next state and the byte that is put out. -/
def Scan.step : Scan → UInt8 → Scan × Bytes
  | start, _ => (flag, [])
  | flag, b => (low b.toNat, [])
  | low n, b => (high (n + 256 * b.toNat), [])
  | high n, _ => (check n, [])
  | check n, _ => (if n = 0 then start else data n, [])
  | data n, b => (if n ≤ 1 then start else data (n - 1), [b])

def scan : Scan → Bytes → Scan × Bytes
  | s, [] => (s, [])
  | s, b :: bs => ((scan (s.step b).1 bs).1, (s.step b).2 ++ (scan (s.step b).1 bs).2)

theorem scan_append (s : Scan) (a b : Bytes) :
    scan s (a ++ b) = ((scan (scan s a).1 b).1, (scan s a).2 ++ (scan (scan s a).1 b).2) := by
  induction a generalizing s with
  | nil => rfl
  | cons x a ih => simp [scan, ih]

theorem scan_data {d : Bytes} (h : d ≠ []) : scan (.data d.length) d = (.start, d) := by
  induction d with
  | nil => exact absurd rfl h
  | cons b d ih =>
    by_cases hd : d = []
    · subst hd
      rfl
    · have : 0 < d.length := List.length_pos_of_ne_nil hd
      have hstep : Scan.step (.data (b :: d).length) b = (.data d.length, [b]) := by
        simp only [Scan.step, List.length_cons, Nat.add_sub_cancel]
        rw [if_neg (by omega)]
      rw [scan, hstep, ih hd]
      rfl

/-- A stored block is put out. -/
theorem scan_stored {d : Bytes} (h : d.length ≤ maxStored) : scan .start (stored d) = (.start, d) := by
  have hlen : d.length % 2 ^ 8 + 256 * (d.length / 256 % 2 ^ 8) = d.length := by
    simp only [maxStored] at h
    omega
  rw [stored, scan_append]
  have hheader : scan .start (storedHeader d.length) =
      (if d.length = 0 then .start else .data d.length, []) := by
    simp only [storedHeader, scan, Scan.step, UInt8.toNat_ofNat', hlen, List.append_nil]
  rw [hheader]
  by_cases hd : d = []
  · subst hd
    rfl
  · rw [if_neg (by simpa using hd), scan_data hd]
    rfl

theorem scan_flatMap_stored (d : Bytes) :
    scan .start (d.flatMap fun b => stored [b]) = (.start, d) := by
  induction d with
  | nil => rfl
  | cons b d ih =>
    rw [List.flatMap_cons, scan_append, scan_stored (by norm_num), ih]
    rfl

/-- Every byte in a stored block of its own; a sync flush is an empty one. -/
def storedBuf (tx : Bytes) (fl : Flush) (input : Bytes) : Bytes :=
  tx ++ input.flatMap (fun b => stored [b]) ++ if fl = .sync then stored [] else []

abbrev storedPair : Pair where
  Tx := Bytes
  Rx := Scan × Bytes
  deflateReset := []
  deflate tx fl input avail :=
    some ((storedBuf tx fl input).drop avail, input.length, (storedBuf tx fl input).take avail)
  insertOnly tx _ := some tx
  inflateReset := (.start, [])
  inflate rx _ input avail :=
    let r := scan rx.1 input
    let out := (rx.2 ++ r.2).take avail
    ⟨(r.1, (rx.2 ++ r.2).drop avail), input.length, out,
      if input.length = 0 ∧ out = [] then .bufError else .ok⟩
  inflateSyncPoint rx := decide (rx.1 = .flag)

theorem storedPair_deflate {tx tx' : Bytes} {fl : Flush} {input out : Bytes} {avail used : ℕ}
    (h : storedPair.deflate tx fl input avail = some (tx', used, out)) :
    (storedBuf tx fl input).drop avail = tx' ∧ input.length = used ∧
      (storedBuf tx fl input).take avail = out := by
  obtain ⟨htx, h⟩ := Prod.mk.inj (Option.some.inj h)
  exact ⟨htx, Prod.mk.inj h⟩

/-- What the storing compressor has put out and holds decodes to what it took. -/
structure StoredOk (tx w h : Bytes) (p : Phase) : Prop where
  decodes : scan .start (w ++ tx) = (.start, h)
  rest : p.AtRest → tx = []
  synced : p = .synced → ∃ w₀, w = w₀ ++ stored [] ∧ scan .start w₀ = (.start, h)

theorem storedBuf_decodes {tx w h : Bytes} (hdec : scan .start (w ++ tx) = (.start, h)) (fl : Flush)
    (input : Bytes) : scan .start (w ++ storedBuf tx fl input) = (.start, h ++ input) := by
  have hflush : scan .start (if fl = .sync then stored [] else []) = (.start, []) := by
    split_ifs
    · exact scan_stored (by norm_num)
    · rfl
  rw [storedBuf, ← List.append_assoc, ← List.append_assoc, scan_append, scan_append, hdec,
    scan_flatMap_stored, hflush]
  simp

theorem deflated_stored {tx : storedPair.Tx} {w h : Bytes} {p : Phase} (hd : Deflated storedPair tx w h p) :
    StoredOk tx w h p := by
  induction hd with
  | reset => exact ⟨rfl, fun _ => rfl, fun h => by cases h⟩
  | @call tx tx' w h p fl input avail used out _ havail _ hcall ih =>
    obtain ⟨rfl, rfl, rfl⟩ := storedPair_deflate hcall
    have hdec := storedBuf_decodes ih.decodes fl input
    rw [List.take_length]
    have hall : decide (((storedBuf tx fl input).take avail).length = avail) = false →
        (storedBuf tx fl input).length ≤ avail := by
      rw [decide_eq_false_iff_not, List.length_take]
      omega
    refine ⟨?_, fun h => ?_, fun h => ?_⟩
    · rw [List.append_assoc, List.take_append_drop, hdec]
    · exact List.drop_eq_nil_of_le (hall (Phase.atRest_next h).2)
    · obtain ⟨rfl, hfilled⟩ := Phase.atRest_next (Or.inr h)
      have hle := hall hfilled
      refine ⟨w ++ storedBuf tx .no input, ?_, storedBuf_decodes ih.decodes .no input⟩
      rw [List.take_of_length_le hle]
      simp [storedBuf]
  | @insert tx tx' w h p d _ hrest _ hlen hcall ih =>
    obtain rfl : tx = tx' := by simpa [storedPair] using hcall
    obtain rfl := ih.rest hrest
    have hdec := ih.decodes
    rw [List.append_nil] at hdec
    refine ⟨?_, fun _ => rfl, fun h => by cases h⟩
    rw [List.append_nil, scan_append, hdec, scan_stored hlen]

theorem inflated_stored {rx : storedPair.Rx} {v g : Bytes} (hi : Inflated storedPair rx v g) :
    scan .start v = (rx.1, g ++ rx.2) := by
  induction hi with
  | reset => rfl
  | @call rx v g _ fl input avail _ ih =>
    have hused : input.take (storedPair.inflate rx fl input avail).used = input := List.take_length
    rw [hused, scan_append, ih]
    simp only [List.append_assoc]
    rw [List.take_append_drop]

/-- One more call of the storing decompressor. -/
theorem inflated_stored_call {rx : storedPair.Rx} {v g : Bytes} (hi : Inflated storedPair rx v g)
    (input : Bytes) : scan .start (v ++ input) =
      ((scan rx.1 input).1, g ++ (rx.2 ++ (scan rx.1 input).2)) := by
  rw [scan_append, inflated_stored hi, List.append_assoc]

/-- **The pair that stores everything behaves as documented.** -/
theorem storedPair_inverse : Inverse storedPair where
  deflate_ok := by
    intro tx w h p fl input avail _ _ _
    refine ⟨_, _, _, rfl, le_rfl, ?_, fun _ => rfl⟩
    rw [List.length_take]
    omega
  deflate_bound := by
    refine ⟨List.length, 6, ?_⟩
    intro tx w h p fl input avail tx' used out _ hcall
    obtain ⟨rfl, rfl, rfl⟩ := storedPair_deflate hcall
    have hblocks : (input.flatMap fun b => stored [b]).length = 6 * input.length := by
      rw [List.length_flatMap]
      simp [stored, storedHeader, mul_comm]
    have hflush : (if fl = .sync then stored [] else []).length ≤ 6 := by
      split_ifs <;> simp [stored, storedHeader]
    have hbuf : (storedBuf tx fl input).length ≤ tx.length + 6 * input.length + 6 := by
      rw [storedBuf, List.length_append, List.length_append, hblocks]
      omega
    rw [List.length_drop, List.length_take]
    omega
  flush_marker := by
    intro tx w h p input avail tx' used out _ hcall hlt
    obtain ⟨-, -, rfl⟩ := storedPair_deflate hcall
    rw [List.length_take] at hlt
    rw [List.take_of_length_le (by omega)]
    refine ⟨p.flushed ++ storedBuf tx .no input ++ [0], by simp, ?_⟩
    simp only [storedBuf, if_true, reduceCtorEq, if_false, List.append_nil, List.append_assoc]
    rfl
  insert_ok := fun _ _ _ _ => ⟨_, rfl⟩
  inflate_ok := by
    intro tx w h p rx v g input avail fl hd hi hpre _
    have hcall := inflated_stored_call hi input
    have hdec := (deflated_stored hd).decodes
    obtain ⟨u, rfl⟩ := hpre
    rw [List.append_assoc, scan_append, hcall] at hdec
    refine ⟨le_rfl, List.length_take_le _ _, fun _ => rfl, rfl, ?_⟩
    rw [← (Prod.mk.inj hdec).2]
    refine ((List.prefix_append_right_inj g).2 (List.take_prefix _ _)).trans ?_
    exact List.prefix_append _ _
  inflate_all := by
    intro tx w h p rx v g input fl avail hd hi hrest hw _ hlt
    have hok := deflated_stored hd
    have hcall := inflated_stored_call hi input
    have hall : (scan .start (v ++ input)).2 = h := by
      obtain rfl := hok.rest hrest
      have hdec := hok.decodes
      rw [List.append_nil] at hdec
      rcases hw with rfl | ⟨hp, hw⟩
      · rw [hdec]
      · obtain ⟨w₀, rfl, hw₀⟩ := hok.synced hp
        have : v ++ input = w₀ ++ [0] := by
          rw [show stored [] = [0] ++ marker from rfl, ← List.append_assoc] at hw
          exact List.append_cancel_right hw
        rw [this, scan_append, hw₀]
        simp [scan, Scan.step]
    simp only [List.length_take] at hlt ⊢
    rw [List.take_of_length_le (by omega), ← hall, hcall]
  sync_point := by
    intro tx w h rx v g input fl avail hd hi hw _ _
    obtain ⟨w₀, rfl, hw₀⟩ := (deflated_stored hd).synced rfl
    have hcall := inflated_stored_call hi input
    have : v ++ input = w₀ ++ [0] := by
      rw [show stored [] = [0] ++ marker from rfl, ← List.append_assoc] at hw
      exact List.append_cancel_right hw
    rw [this, scan_append, hw₀] at hcall
    simp only [decide_eq_true_eq]
    rw [← (Prod.mk.inj hcall).1]
    rfl

end Deflate
