/-
  Memory pools (`lib/pool_alloc.c`), as the file lists use them (`flist_new`,
  `flist_done_allocating` and `flist_free`).

  * a pool is a list of extents, the live one first; a block is cut from the upper end of what is
    free in it (`poolAlloc`).  `poolBoundary` is the lower end of what is in use, and `poolFreeOld`
    takes such a boundary and gives up what is behind it;
  * `PoolUse` is a pool with all blocks it gave out and the boundaries that are still to be used;
    `PoolStep` is one call.  As in `flist_done_allocating`, a boundary is `NULL` where it is the one
    that was taken before;
  * `timeline`: blocks and boundaries, the ones of each extent in their order, going down;
  * `pool_keeps_newer`: in every run, the blocks behind the last used boundary are in the extents,
    apart from each other and aligned.

  Where two equal boundaries are used, the second one can give up what was allocated behind it.
-/
import Mathlib

namespace CloudEdgeBackup

/-! ## The pool -/

/-- `POOL_DEF_EXTENT`, `MINALIGN`, and `sizeof (struct pool_extent)` with 64-bit pointers. -/
abbrev poolDefExtent : ℕ := 32 * 1024
abbrev minAlign : ℕ := 8
abbrev extentStruct : ℕ := 32

/-- `struct pool_extent` -/
structure PoolExtent where
  start : ℕ
  free : ℕ
  bound : ℕ
deriving DecidableEq

/-- What `pool_create` sets, which stays. -/
structure PoolSetup where
  size : ℕ
  quantum : ℕ
  noQalign : Bool
  qalignP2 : Bool
  quantum_pos : 0 < quantum
  quantum_dvd : noQalign = false → quantum ∣ size
  p2 : qalignP2 = true → quantum.isPowerOfTwo

/-- The size, rounded up to whole quanta. -/
def roundUp (quantum len : ℕ) : ℕ := if len % quantum ≠ 0 then len + (quantum - len % quantum) else len

theorem dvd_roundUp {quantum : ℕ} (h : 0 < quantum) (len : ℕ) : quantum ∣ roundUp quantum len := by
  rw [roundUp]
  split_ifs with hmod
  · have hle := Nat.mod_lt len h
    have heq : len + (quantum - len % quantum) = quantum * (len / quantum) + quantum := by
      have := Nat.div_add_mod len quantum
      omega
    rw [heq]
    exact Dvd.dvd.add (Dvd.intro _ rfl) dvd_rfl
  · exact Nat.dvd_of_mod_eq_zero (not_not.1 hmod)

/-- `pool_create` -/
def poolCreate (size quantum : ℕ) (noQalign intern : Bool) : PoolSetup :=
  let size := if size = 0 then poolDefExtent else size
  let quantum := if quantum = 0 then minAlign else quantum
  have hpos : 0 < quantum := by
    simp only [quantum]
    split_ifs with h
    · decide
    · exact Nat.pos_of_ne_zero h
  let size := if intern then (if size ≤ extentStruct then quantum else size - extentStruct) else size
  if quantum ≤ 1 then
    ⟨size, quantum, true, false, hpos, fun h => absurd h (by decide), fun h => absurd h (by decide)⟩
  else if noQalign then
    ⟨size, quantum, true, false, hpos, fun h => absurd h (by decide), fun h => absurd h (by decide)⟩
  else
    ⟨roundUp quantum size, quantum, false, quantum &&& (quantum - 1) = 0, hpos,
      fun _ => dvd_roundUp hpos size,
      fun h => (Nat.and_sub_one_eq_zero_iff_isPowerOfTwo hpos.ne').1 (of_decide_eq_true h)⟩

namespace PoolSetup

variable (cfg : PoolSetup)

/-- The length that is taken for `len`. -/
def quantized (len : ℕ) : ℕ :=
  if len = 0 then cfg.quantum
  else if cfg.qalignP2 then
    if len &&& (cfg.quantum - 1) ≠ 0 then len + (cfg.quantum - (len &&& (cfg.quantum - 1))) else len
  else if cfg.noQalign then len
  else roundUp cfg.quantum len

/-- `pool_alloc`, where `start` is what `new_array` gives if it is called. -/
def poolAlloc (len start : ℕ) (extents : List PoolExtent) : Option (ℕ × List PoolExtent) :=
  let len := cfg.quantized len
  if cfg.size < len then none
  else
    let extents := if extents.head?.all (·.free < len) then ⟨start, cfg.size, 0⟩ :: extents else extents
    match extents with
    | [] => none
    | e :: rest => some (e.start + (e.free - len), { e with free := e.free - len } :: rest)

/-- Whether `addr` is in the memory of an extent. -/
def holds (addr : ℕ) (e : PoolExtent) : Bool := e.start ≤ addr && addr < e.start + cfg.size

/-- `pool_free_old` -/
def poolFreeOld (addr : Option ℕ) (extents : List PoolExtent) : List PoolExtent :=
  match addr with
  | none => extents
  | some addr =>
    let newer := extents.takeWhile fun e => !cfg.holds addr e
    match extents.dropWhile fun e => !cfg.holds addr e with
    | [] => extents
    | cur :: _ =>
      if addr = cur.start + cur.free then
        if newer.isEmpty then [{ cur with free := cfg.size, bound := 0 }] else newer
      else newer ++ [cur]

end PoolSetup

/-- `pool_boundary` -/
def poolBoundary (len : ℕ) (extents : List PoolExtent) : Option ℕ × List PoolExtent :=
  match extents with
  | [] => (none, [])
  | cur :: rest =>
    let cur := if cur.free < len then { cur with free := 0, bound := cur.bound + cur.free } else cur
    (some (cur.start + cur.free), cur :: rest)

/-! ## Its use -/

/-- A block that was given out. -/
structure PoolBlock where
  addr : ℕ
  len : ℕ
deriving DecidableEq

/-- The extents, all blocks so far, the boundaries that are to be used in their order, each with the
    number of blocks there were when it was taken, the last boundary that was taken, and the number of
    blocks in front of the last one that was used. -/
structure PoolUse where
  extents : List PoolExtent
  blocks : List PoolBlock
  pending : List (Option ℕ × ℕ)
  last : Option ℕ
  released : ℕ

/-- One call.  `new_array` gives memory with at least `room` bytes between it and other memory (the
    `struct pool_extent` in front of it, or what the system keeps there). -/
inductive PoolStep (cfg : PoolSetup) (room : ℕ) : PoolUse → PoolUse → Prop
  | alloc {u : PoolUse} {len start addr : ℕ} {extents : List PoolExtent} : len ≤ cfg.size →
      (∀ e ∈ u.extents, start + cfg.size + room ≤ e.start ∨ e.start + cfg.size + room ≤ start) →
      cfg.poolAlloc len start u.extents = some (addr, extents) →
      PoolStep cfg room u
        { u with extents := extents, blocks := u.blocks ++ [⟨addr, cfg.quantized len⟩] }
  | boundary {u : PoolUse} (len : ℕ) :
      PoolStep cfg room u { u with
        extents := (poolBoundary len u.extents).2
        pending := u.pending ++ [(if u.last = (poolBoundary len u.extents).1 then none
          else (poolBoundary len u.extents).1, u.blocks.length)]
        last := (poolBoundary len u.extents).1 }
  | free {u : PoolUse} {addr : Option ℕ} {n : ℕ} {rest : List (Option ℕ × ℕ)} :
      u.pending = (addr, n) :: rest →
      PoolStep cfg room u { u with
        extents := cfg.poolFreeOld addr u.extents
        pending := rest
        released := if addr.isSome then n else u.released }
  | skip {u : PoolUse} {b : Option ℕ × ℕ} {rest : List (Option ℕ × ℕ)} : u.pending = b :: rest →
      PoolStep cfg room u { u with pending := rest }

/-- The states of all runs. -/
inductive PoolReachable (cfg : PoolSetup) (room : ℕ) : PoolUse → Prop
  | start : PoolReachable cfg room ⟨[], [], [], none, 0⟩
  | step {u u' : PoolUse} : PoolReachable cfg room u → PoolStep cfg room u u' → PoolReachable cfg room u'

/-! ## What happened in the extents -/

/-- A block that was given out, or a boundary that is still to be used. -/
inductive PoolEvent
  | block (b : PoolBlock)
  | mark (addr : ℕ)

namespace PoolEvent

def low : PoolEvent → ℕ
  | block b => b.addr
  | mark addr => addr

def high : PoolEvent → ℕ
  | block b => b.addr + b.len
  | mark addr => addr

/-- The later event is below the earlier one. -/
def Below : PoolEvent → PoolEvent → Prop
  | mark addr, mark addr' => addr' < addr
  | x, y => y.high ≤ x.low

theorem Below.le {x y : PoolEvent} (h : Below x y) : y.high ≤ x.low := by
  cases x with
  | block b => exact h
  | mark addr =>
    cases y with
    | block b => exact h
    | mark addr' => exact Nat.le_of_lt h

end PoolEvent

/-- The blocks of some events. -/
def blocksOf (events : List PoolEvent) : List PoolBlock :=
  events.filterMap fun
    | .block b => some b
    | .mark _ => none

/-- The boundaries of some events, with the number of blocks in front of each. -/
def marksFrom : ℕ → List PoolEvent → List (ℕ × ℕ)
  | _, [] => []
  | n, .block _ :: events => marksFrom (n + 1) events
  | n, .mark addr :: events => (addr, n) :: marksFrom n events

/-- An extent with its events. -/
abbrev PoolPart := PoolExtent × List PoolEvent

/-- The events of all extents; the live extent is the last one in time. -/
def timeline : List PoolPart → List PoolEvent
  | [] => []
  | c :: cs => timeline cs ++ c.2

/-- The events of an extent go down from its upper end to what is free. -/
structure Packed (cfg : PoolSetup) (c : PoolPart) : Prop where
  free_le : c.1.free ≤ cfg.size
  order : c.2.Pairwise PoolEvent.Below
  inside : ∀ x ∈ c.2, c.1.start + c.1.free ≤ x.low ∧ x.high ≤ c.1.start + cfg.size
  len_pos : ∀ b, .block b ∈ c.2 → 0 < b.len
  aligned : cfg.noQalign = false →
    cfg.quantum ∣ c.1.free ∧ ∀ b, .block b ∈ c.2 → cfg.quantum ∣ b.addr - c.1.start

/-- Two extents do not touch. -/
def Apart (cfg : PoolSetup) (room : ℕ) (e e' : PoolExtent) : Prop :=
  e.start + cfg.size + room ≤ e'.start ∨ e'.start + cfg.size + room ≤ e.start

/-- The boundaries of a queue that are not `NULL`. -/
def realMarks (pending : List (Option ℕ × ℕ)) : List (ℕ × ℕ) :=
  pending.filterMap fun b => b.1.map fun addr => (addr, b.2)

/-- `gone` are the blocks whose memory was given up, `cs` is all else. -/
structure PoolInv (cfg : PoolSetup) (room : ℕ) (u : PoolUse) (gone : List PoolBlock)
    (cs : List PoolPart) : Prop where
  extents : u.extents = cs.map Prod.fst
  blocks : u.blocks = gone ++ blocksOf (timeline cs)
  pending : realMarks u.pending = marksFrom gone.length (timeline cs)
  gone : gone.length ≤ u.released
  counts : (u.released :: (u.pending.map Prod.snd ++ [u.blocks.length])).Pairwise (· ≤ ·)
  apart : cs.Pairwise fun c d => Apart cfg room c.1 d.1
  packed : ∀ c ∈ cs, Packed cfg c
  last : ∀ c cs', cs = c :: cs' → .mark (c.1.start + c.1.free) ∈ c.2 →
    u.last = some (c.1.start + c.1.free)

variable {cfg : PoolSetup} {room : ℕ} {cs cs' : List PoolPart} {events events' : List PoolEvent} {n k : ℕ}

theorem blocksOf_append : blocksOf (events ++ events') = blocksOf events ++ blocksOf events' :=
  List.filterMap_append

theorem mem_blocksOf {b : PoolBlock} : b ∈ blocksOf events ↔ .block b ∈ events := by
  rw [blocksOf, List.mem_filterMap]
  constructor
  · rintro ⟨x, hx, hb⟩
    cases x with
    | block b' =>
      rw [← Option.some.inj hb]
      exact hx
    | mark addr => cases hb
  · exact fun h => ⟨.block b, h, rfl⟩

theorem marksFrom_append :
    marksFrom n (events ++ events') = marksFrom n events ++ marksFrom (n + (blocksOf events).length) events' := by
  induction events generalizing n with
  | nil => rfl
  | cons x events ih =>
    cases x with
    | block b =>
      show marksFrom (n + 1) (events ++ events') = marksFrom (n + 1) events ++ _
      rw [ih, Nat.add_right_comm]
      rfl
    | mark addr =>
      show (addr, n) :: marksFrom n (events ++ events') = (addr, n) :: marksFrom n events ++ _
      rw [ih]
      rfl

/-- The first boundary and what is in front of it. -/
theorem marksFrom_eq_cons {addr : ℕ} {rest : List (ℕ × ℕ)} (h : marksFrom k events = (addr, n) :: rest) :
    ∃ pre post, events = pre ++ .mark addr :: post ∧ n = k + (blocksOf pre).length ∧
      rest = marksFrom n post ∧ marksFrom k pre = [] := by
  induction events generalizing k with
  | nil => cases h
  | cons x events ih =>
    cases x with
    | block b =>
      obtain ⟨pre, post, rfl, hn, hrest, hpre⟩ := ih h
      refine ⟨.block b :: pre, post, rfl, ?_, hrest, hpre⟩
      rw [hn, Nat.add_right_comm, Nat.add_assoc]
      rfl
    | mark addr' =>
      obtain ⟨heq, hrest⟩ := List.cons.inj h
      obtain ⟨rfl, rfl⟩ := Prod.mk.inj heq
      exact ⟨[], events, rfl, rfl, hrest.symm, rfl⟩

theorem timeline_append : timeline (cs ++ cs') = timeline cs' ++ timeline cs := by
  induction cs with
  | nil => exact (List.append_nil _).symm
  | cons c cs ih => rw [List.cons_append, timeline, ih, timeline, List.append_assoc]

/-- The extent of an event. -/
theorem timeline_eq_append {x : PoolEvent} {pre post : List PoolEvent}
    (h : timeline cs = pre ++ x :: post) : ∃ newer e before after older,
      cs = newer ++ (e, before ++ x :: after) :: older ∧ pre = timeline older ++ before ∧
        post = after ++ timeline newer := by
  induction cs generalizing post with
  | nil => cases pre <;> cases h
  | cons c cs ih =>
    rw [timeline, List.append_eq_append_iff] at h
    rcases h with ⟨before, hpre, hc⟩ | ⟨post', htime, hpost⟩
    · exact ⟨[], c.1, before, post, cs, by rw [List.nil_append, ← hc], hpre, (List.append_nil _).symm⟩
    · cases post' with
      | nil =>
        rw [List.append_nil] at htime
        have hc : x :: post = c.2 := hpost
        refine ⟨[], c.1, [], post, cs, ?_, by rw [List.append_nil, htime], (List.append_nil _).symm⟩
        rw [hc]
        rfl
      | cons y post' =>
        obtain ⟨hy, hpost⟩ := List.cons.inj hpost
        rw [← hy] at htime
        obtain ⟨newer, e, before, after, older, hcs, hpre, hpost'⟩ := ih htime
        refine ⟨c :: newer, e, before, after, older, ?_, hpre, ?_⟩
        · rw [hcs]
          rfl
        · rw [hpost, hpost', timeline, ← List.append_assoc]
          rfl

/-! ## Allocation -/

namespace PoolSetup

theorem quantized_pos (cfg : PoolSetup) (len : ℕ) : 0 < cfg.quantized len := by
  rw [quantized]
  split_ifs with h0
  · exact cfg.quantum_pos
  · exact Nat.add_pos_left (Nat.pos_of_ne_zero h0) _
  · exact Nat.pos_of_ne_zero h0
  · exact Nat.pos_of_ne_zero h0
  · rw [roundUp]
    split_ifs
    · exact Nat.add_pos_left (Nat.pos_of_ne_zero h0) _
    · exact Nat.pos_of_ne_zero h0

theorem quantum_dvd_quantized (h : cfg.noQalign = false) (len : ℕ) : cfg.quantum ∣ cfg.quantized len := by
  rw [quantized]
  by_cases h0 : len = 0
  · rw [if_pos h0]
  rw [if_neg h0]
  cases hp2 : cfg.qalignP2 with
  | true =>
    obtain ⟨k, hk⟩ := cfg.p2 hp2
    have hmod : len &&& (cfg.quantum - 1) = len % cfg.quantum := by
      rw [hk, Nat.and_two_pow_sub_one_eq_mod]
    rw [if_pos rfl, hmod]
    exact dvd_roundUp cfg.quantum_pos len
  | false =>
    rw [if_neg Bool.false_ne_true, h, if_neg Bool.false_ne_true]
    exact dvd_roundUp cfg.quantum_pos len

/-- A block comes from the live extent, or from a new one. -/
theorem poolAlloc_spec {len start addr : ℕ} {extents extents' : List PoolExtent}
    (h : cfg.poolAlloc len start extents = some (addr, extents')) : ∃ e rest,
      extents' = { e with free := e.free - cfg.quantized len } :: rest ∧
      addr = e.start + (e.free - cfg.quantized len) ∧ cfg.quantized len ≤ e.free ∧
      (extents = e :: rest ∨ e = ⟨start, cfg.size, 0⟩ ∧ rest = extents) := by
  rw [poolAlloc] at h
  dsimp only at h
  split_ifs at h with hsize hnew
  · obtain ⟨rfl, rfl⟩ := Prod.mk.inj (Option.some.inj h)
    exact ⟨⟨start, cfg.size, 0⟩, extents, rfl, rfl, not_lt.1 hsize, .inr ⟨rfl, rfl⟩⟩
  · cases extents with
    | nil => cases h
    | cons e rest =>
      obtain ⟨rfl, rfl⟩ := Prod.mk.inj (Option.some.inj h)
      refine ⟨e, rest, rfl, rfl, not_lt.1 fun hlt => hnew ?_, .inl rfl⟩
      exact decide_eq_true hlt

end PoolSetup

variable {u : PoolUse} {gone : List PoolBlock} {e : PoolExtent}

/-- A block goes below all that is in the extent. -/
theorem Packed.cut {len : ℕ} (h : Packed cfg (e, events)) (hlen : len ≤ e.free) (hpos : 0 < len)
    (hdvd : cfg.noQalign = false → cfg.quantum ∣ len) :
    Packed cfg ({ e with free := e.free - len }, events ++ [.block ⟨e.start + (e.free - len), len⟩]) where
  free_le := (Nat.sub_le _ _).trans h.free_le
  order := by
    refine List.pairwise_append.2 ⟨h.order, List.pairwise_singleton _ _, fun x hx y hy => ?_⟩
    rw [List.mem_singleton.1 hy]
    have hlow : e.start + (e.free - len) + len ≤ x.low := by
      have hfree : e.start + e.free ≤ x.low := (h.inside x hx).1
      omega
    cases x with
    | block b => exact hlow
    | mark addr => exact hlow
  inside := by
    have hfree : e.free ≤ cfg.size := h.free_le
    intro x hx
    rcases List.mem_append.1 hx with hx | hx
    · have hin : e.start + e.free ≤ x.low ∧ x.high ≤ e.start + cfg.size := h.inside x hx
      exact ⟨by dsimp only; omega, hin.2⟩
    · rw [List.mem_singleton.1 hx]
      show e.start + (e.free - len) ≤ e.start + (e.free - len) ∧ e.start + (e.free - len) + len ≤ _
      exact ⟨le_rfl, by dsimp only; omega⟩
  len_pos := by
    intro b hb
    rcases List.mem_append.1 hb with hb | hb
    · exact h.len_pos b hb
    · obtain rfl := PoolEvent.block.inj (List.mem_singleton.1 hb)
      exact hpos
  aligned := by
    intro hq
    obtain ⟨hfree, hblocks⟩ := h.aligned hq
    have hdvd' : cfg.quantum ∣ e.free - len := Nat.dvd_sub hfree (hdvd hq)
    refine ⟨hdvd', fun b hb => ?_⟩
    rcases List.mem_append.1 hb with hb | hb
    · exact hblocks b hb
    · obtain rfl := PoolEvent.block.inj (List.mem_singleton.1 hb)
      show cfg.quantum ∣ e.start + (e.free - len) - e.start
      rwa [Nat.add_sub_cancel_left]

/-- The numbers of the boundaries grow with the blocks. -/
theorem counts_grow {u : PoolUse} {m : ℕ} (h : (u.released :: (u.pending.map Prod.snd ++ [k])).Pairwise (· ≤ ·))
    (hm : k ≤ m) : (u.released :: (u.pending.map Prod.snd ++ [m])).Pairwise (· ≤ ·) := by
  rw [← List.cons_append, List.pairwise_append] at h ⊢
  refine ⟨h.1, List.pairwise_singleton _ _, fun x hx y hy => ?_⟩
  rw [List.mem_singleton.1 hy]
  exact (h.2.2 x hx k (List.mem_singleton.2 rfl)).trans hm

theorem PoolInv.cut {len : ℕ} (h : PoolInv cfg room u gone ((e, events) :: cs)) (hlen : len ≤ e.free)
    (hpos : 0 < len) (hdvd : cfg.noQalign = false → cfg.quantum ∣ len) :
    PoolInv cfg room { u with
        extents := { e with free := e.free - len } :: cs.map Prod.fst
        blocks := u.blocks ++ [⟨e.start + (e.free - len), len⟩] } gone
      (({ e with free := e.free - len }, events ++ [.block ⟨e.start + (e.free - len), len⟩]) :: cs) where
  extents := rfl
  blocks := by
    rw [timeline, ← List.append_assoc, blocksOf_append, ← List.append_assoc]
    exact congrArg (· ++ [_]) h.blocks
  pending := by
    rw [timeline, ← List.append_assoc, marksFrom_append]
    exact h.pending.trans (List.append_nil _).symm
  gone := h.gone
  counts := counts_grow h.counts (by rw [List.length_append]; exact Nat.le_add_right _ _)
  apart := by
    obtain ⟨hhead, hrest⟩ := List.pairwise_cons.1 h.apart
    exact List.pairwise_cons.2 ⟨hhead, hrest⟩
  packed := by
    intro c hc
    rcases List.mem_cons.1 hc with rfl | hc
    · exact (h.packed _ List.mem_cons_self).cut hlen hpos hdvd
    · exact h.packed c (List.mem_cons_of_mem _ hc)
  last := by
    -- no boundary is as low as the new block
    intro c cs' hcs hmark
    obtain ⟨rfl, -⟩ := List.cons.inj hcs
    rcases List.mem_append.1 hmark with hmark | hmark
    · have hin : e.start + e.free ≤ e.start + (e.free - len) :=
        ((h.packed _ List.mem_cons_self).inside _ hmark).1
      omega
    · cases List.mem_singleton.1 hmark

/-- A new extent is empty. -/
theorem PoolInv.fresh {start : ℕ} (h : PoolInv cfg room u gone cs)
    (hfresh : ∀ e ∈ u.extents, start + cfg.size + room ≤ e.start ∨ e.start + cfg.size + room ≤ start) :
    PoolInv cfg room { u with extents := ⟨start, cfg.size, 0⟩ :: u.extents } gone
      ((⟨start, cfg.size, 0⟩, []) :: cs) where
  extents := congrArg (_ :: ·) h.extents
  blocks := by
    rw [timeline, List.append_nil]
    exact h.blocks
  pending := by
    rw [timeline, List.append_nil]
    exact h.pending
  gone := h.gone
  counts := h.counts
  apart := by
    refine List.pairwise_cons.2 ⟨fun d hd => hfresh d.1 ?_, h.apart⟩
    rw [h.extents]
    exact List.mem_map_of_mem hd
  packed := by
    intro c hc
    rcases List.mem_cons.1 hc with rfl | hc
    · exact ⟨le_rfl, .nil, fun x hx => absurd hx List.not_mem_nil, fun b hb => absurd hb List.not_mem_nil,
        fun hq => ⟨cfg.quantum_dvd hq, fun b hb => absurd hb List.not_mem_nil⟩⟩
    · exact h.packed c hc
  last := by
    intro c cs' hcs hmark
    obtain ⟨rfl, -⟩ := List.cons.inj hcs
    exact absurd hmark List.not_mem_nil

theorem PoolInv.alloc {len start addr : ℕ} {extents : List PoolExtent} (h : PoolInv cfg room u gone cs)
    (hfresh : ∀ e ∈ u.extents, start + cfg.size + room ≤ e.start ∨ e.start + cfg.size + room ≤ start)
    (halloc : cfg.poolAlloc len start u.extents = some (addr, extents)) :
    ∃ cs', PoolInv cfg room
      { u with extents := extents, blocks := u.blocks ++ [⟨addr, cfg.quantized len⟩] } gone cs' := by
  have hpos := cfg.quantized_pos len
  have hdvd : cfg.noQalign = false → cfg.quantum ∣ cfg.quantized len :=
    fun hq => PoolSetup.quantum_dvd_quantized hq len
  obtain ⟨e, rest, rfl, rfl, hlen, hfrom⟩ := PoolSetup.poolAlloc_spec halloc
  rcases hfrom with hlive | ⟨rfl, rfl⟩
  · cases cs with
    | nil =>
      rw [h.extents] at hlive
      cases hlive
    | cons c cs =>
      rw [h.extents, List.map_cons] at hlive
      obtain ⟨rfl, rfl⟩ := List.cons.inj hlive
      exact ⟨_, h.cut hlen hpos hdvd⟩
  · have hcut := (h.fresh hfresh).cut hlen hpos hdvd
    rw [← h.extents] at hcut
    exact ⟨_, hcut⟩

/-! ## Boundaries -/

/-- Free bytes are trapped below the events. -/
theorem Packed.lower {free bound : ℕ} (h : Packed cfg (e, events)) (hle : free ≤ e.free)
    (hdvd : cfg.noQalign = false → cfg.quantum ∣ free) : Packed cfg (⟨e.start, free, bound⟩, events) where
  free_le := hle.trans h.free_le
  order := h.order
  inside := fun x hx => ⟨(Nat.add_le_add_left hle _).trans (h.inside x hx).1, (h.inside x hx).2⟩
  len_pos := h.len_pos
  aligned := fun hq => ⟨hdvd hq, (h.aligned hq).2⟩

/-- A boundary that was not taken before goes below all that is in the extent. -/
theorem Packed.mark (h : Packed cfg (e, events)) (hnew : .mark (e.start + e.free) ∉ events) :
    Packed cfg (e, events ++ [.mark (e.start + e.free)]) where
  free_le := h.free_le
  order := by
    refine List.pairwise_append.2 ⟨h.order, List.pairwise_singleton _ _, fun x hx y hy => ?_⟩
    rw [List.mem_singleton.1 hy]
    have hlow : e.start + e.free ≤ x.low := (h.inside x hx).1
    cases x with
    | block b => exact hlow
    | mark addr => exact lt_of_le_of_ne hlow fun heq => hnew (heq ▸ hx)
  inside := by
    intro x hx
    rcases List.mem_append.1 hx with hx | hx
    · exact h.inside x hx
    · rw [List.mem_singleton.1 hx]
      exact ⟨le_rfl, Nat.add_le_add_left h.free_le _⟩
  len_pos := by
    intro b hb
    rcases List.mem_append.1 hb with hb | hb
    · exact h.len_pos b hb
    · cases List.mem_singleton.1 hb
  aligned := by
    intro hq
    refine ⟨(h.aligned hq).1, fun b hb => ?_⟩
    rcases List.mem_append.1 hb with hb | hb
    · exact (h.aligned hq).2 b hb
    · cases List.mem_singleton.1 hb

/-- The number of a new boundary is that of the blocks. -/
theorem counts_push {u : PoolUse} {addr : Option ℕ}
    (h : (u.released :: (u.pending.map Prod.snd ++ [k])).Pairwise (· ≤ ·)) :
    (u.released :: ((u.pending ++ [(addr, k)]).map Prod.snd ++ [k])).Pairwise (· ≤ ·) := by
  rw [List.map_append, List.map_singleton, ← List.cons_append, List.pairwise_append]
  refine ⟨h, List.pairwise_singleton _ _, fun x hx y hy => ?_⟩
  rw [List.mem_singleton.1 hy]
  rw [← List.cons_append] at h hx
  rcases List.mem_append.1 hx with hx | hx
  · exact (List.pairwise_append.1 h).2.2 x hx k (List.mem_singleton.2 rfl)
  · exact (List.mem_singleton.1 hx).le

theorem realMarks_push (pending : List (Option ℕ × ℕ)) (addr : Option ℕ) :
    realMarks (pending ++ [(addr, n)]) = realMarks pending ++ (addr.map fun addr => (addr, n)).toList := by
  rw [realMarks, List.filterMap_append, ← realMarks]
  cases addr with
  | none => rfl
  | some addr => rfl

/-- The live extent after `pool_boundary`. -/
def boundExtent (len : ℕ) (e : PoolExtent) : PoolExtent :=
  if e.free < len then { e with free := 0, bound := e.bound + e.free } else e

theorem Packed.bound (len : ℕ) (h : Packed cfg (e, events)) :
    (boundExtent len e).start = e.start ∧ (boundExtent len e).free ≤ e.free ∧
      Packed cfg (boundExtent len e, events) := by
  rw [boundExtent]
  split_ifs
  · exact ⟨rfl, Nat.zero_le _, h.lower (Nat.zero_le _) fun _ => dvd_zero _⟩
  · exact ⟨rfl, le_rfl, h⟩

theorem PoolInv.boundary (len : ℕ) (h : PoolInv cfg room u gone cs) :
    ∃ cs', PoolInv cfg room { u with
        extents := (poolBoundary len u.extents).2
        pending := u.pending ++ [(if u.last = (poolBoundary len u.extents).1 then none
          else (poolBoundary len u.extents).1, u.blocks.length)]
        last := (poolBoundary len u.extents).1 } gone cs' := by
  cases cs with
  | nil =>
    have hnil : u.extents = [] := h.extents
    refine ⟨[], ⟨?_, h.blocks, ?_, h.gone, counts_push h.counts, .nil, ?_, ?_⟩⟩
    · rw [hnil]
      rfl
    · rw [realMarks_push, hnil, poolBoundary, ite_self, h.pending]
      rfl
    · exact fun c hc => absurd hc List.not_mem_nil
    · exact fun c cs' hcs => by cases hcs
  | cons c cs =>
    obtain ⟨e, events⟩ := c
    obtain ⟨hstart, hfree, hpacked⟩ := (h.packed _ List.mem_cons_self).bound len
    obtain ⟨hhead, hrest⟩ := List.pairwise_cons.1 h.apart
    have hbound : poolBoundary len u.extents =
        (some ((boundExtent len e).start + (boundExtent len e).free), boundExtent len e :: cs.map Prod.fst) := by
      rw [h.extents]
      rfl
    have hapart : ∀ d ∈ cs, Apart cfg room (boundExtent len e) d.1 := by
      intro d hd
      rw [Apart, hstart]
      exact hhead d hd
    have hothers : ∀ events', Packed cfg (boundExtent len e, events') →
        ∀ c ∈ (boundExtent len e, events') :: cs, Packed cfg c := by
      intro events' hevents c hc
      rcases List.mem_cons.1 hc with rfl | hc
      · exact hevents
      · exact h.packed c (List.mem_cons_of_mem _ hc)
    rw [hbound]
    by_cases hlast : u.last = some ((boundExtent len e).start + (boundExtent len e).free)
    · refine ⟨(boundExtent len e, events) :: cs, ⟨rfl, h.blocks, ?_, h.gone, counts_push h.counts,
        List.pairwise_cons.2 ⟨hapart, hrest⟩, hothers _ hpacked, ?_⟩⟩
      · rw [realMarks_push, if_pos hlast, h.pending]
        exact List.append_nil _
      · intro c cs' hcs _
        obtain ⟨rfl, -⟩ := List.cons.inj hcs
        rfl
    · -- an equal boundary would be the last one
      have hnew : .mark ((boundExtent len e).start + (boundExtent len e).free) ∉ events := by
        intro hmark
        have hin : e.start + e.free ≤ (boundExtent len e).start + (boundExtent len e).free :=
          ((h.packed _ List.mem_cons_self).inside _ hmark).1
        have heq : (boundExtent len e).start + (boundExtent len e).free = e.start + e.free := by omega
        rw [heq] at hmark hlast
        exact hlast (h.last _ _ rfl hmark)
      have htime : ∀ x, timeline ((boundExtent len e, events ++ [x]) :: cs) =
          timeline ((e, events) :: cs) ++ [x] := fun x => (List.append_assoc _ _ _).symm
      refine ⟨(boundExtent len e, events ++ [.mark _]) :: cs, ⟨rfl, ?_, ?_, h.gone, counts_push h.counts,
        List.pairwise_cons.2 ⟨hapart, hrest⟩, hothers _ (hpacked.mark hnew), ?_⟩⟩
      · rw [htime, blocksOf_append]
        exact h.blocks.trans (congrArg _ (List.append_nil _).symm)
      · rw [realMarks_push, if_neg hlast, h.pending, htime, marksFrom_append, h.blocks, List.length_append]
        rfl
      · intro c cs' hcs _
        obtain ⟨rfl, -⟩ := List.cons.inj hcs
        rfl

/-! ## Giving up old memory -/

theorem holds_of_apart {e' : PoolExtent} {addr : ℕ} (hroom : 0 < room) (h : Apart cfg room e e')
    (hle : e.start ≤ addr) (hlt : addr ≤ e.start + cfg.size) : cfg.holds addr e' = false := by
  rw [PoolSetup.holds, Bool.and_eq_false_iff, decide_eq_false_iff_not, decide_eq_false_iff_not]
  rcases h with h | h
  · exact .inl (by omega)
  · exact .inr (by omega)

/-- What `pool_free_old` does with a boundary in an extent. -/
theorem poolFreeOld_eq {newer older : List PoolExtent} {addr : ℕ} (hle : e.start ≤ addr)
    (hlt : addr ≤ e.start + cfg.size) (hnewer : ∀ e' ∈ newer, cfg.holds addr e' = false)
    (holder : ∀ e' ∈ older, cfg.holds addr e' = false) :
    cfg.poolFreeOld (some addr) (newer ++ e :: older) =
      if addr = e.start + cfg.size then newer ++ e :: older
      else if addr = e.start + e.free then
        if newer.isEmpty then [{ e with free := cfg.size, bound := 0 }] else newer
      else newer ++ [e] := by
  have hskip : ∀ e' ∈ newer, (!cfg.holds addr e') = true := fun e' he' => by rw [hnewer e' he', Bool.not_false]
  rw [PoolSetup.poolFreeOld, List.takeWhile_append_of_pos hskip, List.dropWhile_append_of_pos hskip]
  by_cases hend : addr = e.start + cfg.size
  · have hout : cfg.holds addr e = false := by
      rw [PoolSetup.holds, Bool.and_eq_false_iff, decide_eq_false_iff_not, decide_eq_false_iff_not]
      exact .inr (not_lt.2 hend.ge)
    have hnone : (e :: older).dropWhile (fun e => !cfg.holds addr e) = [] := by
      rw [List.dropWhile_eq_nil_iff]
      intro e' he'
      rcases List.mem_cons.1 he' with rfl | he'
      · rw [hout, Bool.not_false]
      · rw [holder e' he', Bool.not_false]
    rw [hnone, if_pos hend]
  · have hin : cfg.holds addr e = true := by
      rw [PoolSetup.holds, Bool.and_eq_true, decide_eq_true_iff, decide_eq_true_iff]
      exact ⟨hle, lt_of_le_of_ne hlt hend⟩
    have hfound : (!cfg.holds addr e) = false := by rw [hin, Bool.not_true]
    rw [List.dropWhile_cons_of_neg (by rw [hfound]; exact Bool.false_ne_true),
      List.takeWhile_cons_of_neg (by rw [hfound]; exact Bool.false_ne_true), List.append_nil, if_neg hend]

theorem Packed.sublist (h : Packed cfg (e, events)) (hsub : events'.Sublist events) : Packed cfg (e, events') where
  free_le := h.free_le
  order := h.order.sublist hsub
  inside := fun x hx => h.inside x (hsub.subset hx)
  len_pos := fun b hb => h.len_pos b (hsub.subset hb)
  aligned := fun hq => ⟨(h.aligned hq).1, fun b hb => (h.aligned hq).2 b (hsub.subset hb)⟩

/-- Nothing is below a boundary that is the lower end of what is in use. -/
theorem Packed.nothing_below {before after : List PoolEvent}
    (h : Packed cfg (e, before ++ .mark (e.start + e.free) :: after)) : after = [] := by
  refine List.eq_nil_iff_forall_not_mem.2 fun y hy => ?_
  have hmem : y ∈ before ++ .mark (e.start + e.free) :: after :=
    List.mem_append_right _ (List.mem_cons_of_mem _ hy)
  have hin : e.start + e.free ≤ y.low := (h.inside y hmem).1
  have hbelow := (List.pairwise_cons.1 (List.pairwise_append.1 h.order).2.1).1 y hy
  cases y with
  | block b =>
    have hlen := h.len_pos b hmem
    have hhigh : b.addr + b.len ≤ e.start + e.free := hbelow
    have hlow : e.start + e.free ≤ b.addr := hin
    omega
  | mark addr =>
    have hlt : addr < e.start + e.free := hbelow
    exact absurd hin (not_le.2 hlt)

/-- A boundary that is not used any more. -/
theorem PoolInv.unmark {newer older : List PoolPart} {before after : List PoolEvent} {addr : ℕ}
    {rest : List (Option ℕ × ℕ)}
    (h : PoolInv cfg room u gone (newer ++ (e, before ++ .mark addr :: after) :: older))
    (hpending : u.pending = (some addr, n) :: rest)
    (hrest : realMarks rest = marksFrom gone.length (timeline older ++ before ++ (after ++ timeline newer))) :
    PoolInv cfg room { u with pending := rest } gone (newer ++ (e, before ++ after) :: older) := by
  have hsub : (before ++ after).Sublist (before ++ .mark addr :: after) :=
    (List.sublist_cons_self _ _).append_left _
  have htime : ∀ events, timeline (newer ++ (e, events) :: older) = timeline older ++ events ++ timeline newer :=
    fun events => timeline_append
  refine ⟨?_, ?_, ?_, h.gone, ?_, ?_, ?_, ?_⟩
  · rw [List.map_append]
    exact h.extents.trans (List.map_append)
  · rw [htime]
    refine h.blocks.trans (congrArg (gone ++ ·) ?_)
    rw [htime]
    simp only [blocksOf_append]
    rfl
  · rw [htime]
    exact hrest.trans (congrArg _ (by simp only [List.append_assoc]))
  · have hcounts := h.counts
    rw [hpending] at hcounts
    exact hcounts.sublist (List.Sublist.cons_cons _ (List.sublist_cons_self _ _))
  · have hapart := h.apart
    rw [List.pairwise_append, List.pairwise_cons] at hapart ⊢
    refine ⟨hapart.1, hapart.2.1, fun c hc d hd => ?_⟩
    rcases List.mem_cons.1 hd with rfl | hd
    · exact hapart.2.2 c hc (e, before ++ .mark addr :: after) List.mem_cons_self
    · exact hapart.2.2 c hc d (List.mem_cons_of_mem _ hd)
  · intro c hc
    rcases List.mem_append.1 hc with hc | hc
    · exact h.packed c (List.mem_append_left _ hc)
    · rcases List.mem_cons.1 hc with rfl | hc
      · exact (h.packed _ (List.mem_append_right _ List.mem_cons_self)).sublist hsub
      · exact h.packed c (List.mem_append_right _ (List.mem_cons_of_mem _ hc))
  · intro c cs' hcs hmark
    cases newer with
    | nil =>
      obtain ⟨rfl, -⟩ := List.cons.inj hcs
      exact h.last (e, before ++ .mark addr :: after) older rfl (hsub.subset hmark)
    | cons c' newer =>
      obtain ⟨rfl, -⟩ := List.cons.inj hcs
      exact h.last _ _ rfl hmark

/-- The next boundary is skipped. -/
theorem PoolInv.skip {b : Option ℕ × ℕ} {rest : List (Option ℕ × ℕ)} (h : PoolInv cfg room u gone cs)
    (hpending : u.pending = b :: rest) : ∃ cs', PoolInv cfg room { u with pending := rest } gone cs' := by
  obtain ⟨addr, n⟩ := b
  cases addr with
  | none =>
    have hcounts := h.counts
    rw [hpending] at hcounts
    refine ⟨cs, h.extents, h.blocks, ?_, h.gone, hcounts.sublist ?_, h.apart, h.packed, h.last⟩
    · rw [← h.pending, hpending]
      rfl
    · exact List.Sublist.cons_cons _ (List.sublist_cons_self _ _)
  | some addr =>
    have hmarks : (addr, n) :: realMarks rest = marksFrom gone.length (timeline cs) := by
      rw [← h.pending, hpending]
      rfl
    obtain ⟨pre, post, htime, hn, hrest, hpre⟩ := marksFrom_eq_cons hmarks.symm
    obtain ⟨newer, e, before, after, older, rfl, hpre', hpost⟩ := timeline_eq_append htime
    refine ⟨_, h.unmark hpending ?_⟩
    rw [← hpre', ← hpost, marksFrom_append, hpre, ← hn]
    exact hrest

/-- The blocks in front of a boundary that was used are let go. -/
theorem PoolInv.release (h : PoolInv cfg room u gone cs) (hle : u.released ≤ n)
    (hn : ∀ k ∈ u.pending.map Prod.snd ++ [u.blocks.length], n ≤ k) :
    PoolInv cfg room { u with released := n } gone cs where
  extents := h.extents
  blocks := h.blocks
  pending := h.pending
  gone := h.gone.trans hle
  counts := List.pairwise_cons.2 ⟨hn, (List.pairwise_cons.1 h.counts).2⟩
  apart := h.apart
  packed := h.packed
  last := h.last

/-- All that was in front of a boundary is given up. -/
theorem PoolInv.cutOff {pre post : List PoolEvent} {addr : ℕ} {rest : List (Option ℕ × ℕ)}
    (h : PoolInv cfg room u gone cs) (htime : timeline cs = pre ++ .mark addr :: post)
    (hpending : u.pending = (some addr, n) :: rest) (hn : n = gone.length + (blocksOf pre).length)
    (hrest : realMarks rest = marksFrom n post) (hpost : timeline cs' = post)
    (hapart : cs'.Pairwise fun c d => Apart cfg room c.1 d.1) (hpacked : ∀ c ∈ cs', Packed cfg c)
    (hlast : ∀ c cs'', cs' = c :: cs'' → .mark (c.1.start + c.1.free) ∈ c.2 →
      u.last = some (c.1.start + c.1.free)) :
    PoolInv cfg room { u with extents := cs'.map Prod.fst, pending := rest, released := n }
      (gone ++ blocksOf pre) cs' where
  extents := rfl
  blocks := by
    rw [hpost, List.append_assoc, ← blocksOf_append]
    refine h.blocks.trans (congrArg (gone ++ ·) ?_)
    rw [htime, blocksOf_append, blocksOf_append]
    rfl
  pending := by rw [hpost, hrest, List.length_append, hn]
  gone := by rw [List.length_append, hn]
  counts := by
    have hcounts := h.counts
    rw [hpending] at hcounts
    exact (List.pairwise_cons.1 hcounts).2
  apart := hapart
  packed := hpacked
  last := hlast

theorem mem_timeline {x : PoolEvent} : x ∈ timeline cs ↔ ∃ c ∈ cs, x ∈ c.2 := by
  induction cs with
  | nil => exact ⟨fun h => absurd h List.not_mem_nil, fun ⟨c, hc, _⟩ => absurd hc List.not_mem_nil⟩
  | cons c cs ih =>
    rw [timeline, List.mem_append, ih, List.exists_mem_cons_iff]
    exact or_comm

/-- The blocks behind a boundary. -/
theorem PoolInv.drop_eq {pre post : List PoolEvent} {addr : ℕ} (h : PoolInv cfg room u gone cs)
    (htime : timeline cs = pre ++ .mark addr :: post) (hn : n = gone.length + (blocksOf pre).length) :
    u.blocks.drop n = blocksOf post := by
  have hblocks : u.blocks = (gone ++ blocksOf pre) ++ blocksOf post := by
    rw [h.blocks, htime, blocksOf_append, List.append_assoc]
    rfl
  rw [hblocks, hn, ← List.length_append, List.drop_left]

/-- One boundary is used: what is behind it stays where it is. -/
theorem PoolInv.free {addr : ℕ} {rest : List (Option ℕ × ℕ)} (hroom : 0 < room)
    (h : PoolInv cfg room u gone cs) (hpending : u.pending = (some addr, n) :: rest) :
    (∃ gone' cs', PoolInv cfg room { u with
        extents := cfg.poolFreeOld (some addr) u.extents, pending := rest, released := n } gone' cs') ∧
      ∀ b ∈ u.blocks.drop n, ∃ c ∈ cs, .block b ∈ c.2 ∧ c.1 ∈ cfg.poolFreeOld (some addr) u.extents := by
  have hmarks : (addr, n) :: realMarks rest = marksFrom gone.length (timeline cs) := by
    rw [← h.pending, hpending]
    rfl
  obtain ⟨pre, post, htime, hn, hrest, hpre⟩ := marksFrom_eq_cons hmarks.symm
  obtain ⟨newer, e, before, after, older, rfl, hpre', hpost⟩ := timeline_eq_append htime
  have hin : (e, before ++ .mark addr :: after) ∈ newer ++ (e, before ++ .mark addr :: after) :: older :=
    List.mem_append_right _ List.mem_cons_self
  have hpacked := h.packed _ hin
  have haddr : e.start + e.free ≤ addr ∧ addr ≤ e.start + cfg.size :=
    hpacked.inside (.mark addr) (List.mem_append_right _ List.mem_cons_self)
  have hstart : e.start ≤ addr := (Nat.le_add_right _ _).trans haddr.1
  obtain ⟨hapart, hapart', hapart''⟩ := List.pairwise_append.1 h.apart
  have hnewer : ∀ e' ∈ newer.map Prod.fst, cfg.holds addr e' = false := by
    intro e' he'
    obtain ⟨c, hc, rfl⟩ := List.mem_map.1 he'
    exact holds_of_apart hroom (hapart'' c hc _ List.mem_cons_self).symm hstart haddr.2
  have holder : ∀ e' ∈ older.map Prod.fst, cfg.holds addr e' = false := by
    intro e' he'
    obtain ⟨c, hc, rfl⟩ := List.mem_map.1 he'
    exact holds_of_apart hroom ((List.pairwise_cons.1 hapart').1 c hc) hstart haddr.2
  have hextents : u.extents = newer.map Prod.fst ++ e :: older.map Prod.fst :=
    h.extents.trans List.map_append
  have hfree := poolFreeOld_eq hstart haddr.2 hnewer holder
  rw [← hextents] at hfree
  -- the blocks behind the boundary
  have hbehind : ∀ b ∈ u.blocks.drop n, .block b ∈ after ∨ ∃ c ∈ newer, .block b ∈ c.2 := by
    intro b hb
    rw [h.drop_eq htime hn, mem_blocksOf, hpost] at hb
    exact (List.mem_append.1 hb).imp_right mem_timeline.1
  have hafter : ∀ x ∈ after, x ∈ before ++ .mark addr :: after :=
    fun x hx => List.mem_append_right _ (List.mem_cons_of_mem _ hx)
  have hpart : ∀ b ∈ u.blocks.drop n, (∀ c ∈ newer, c.1 ∈ cfg.poolFreeOld (some addr) u.extents) →
      (after ≠ [] → e ∈ cfg.poolFreeOld (some addr) u.extents) →
      ∃ c ∈ newer ++ (e, before ++ .mark addr :: after) :: older, .block b ∈ c.2 ∧
        c.1 ∈ cfg.poolFreeOld (some addr) u.extents := by
    intro b hb hkeep hkeep'
    rcases hbehind b hb with hb | ⟨c, hc, hb⟩
    · exact ⟨_, hin, hafter _ hb, hkeep' (List.ne_nil_of_mem hb)⟩
    · exact ⟨c, List.mem_append_left _ hc, hb, hkeep c hc⟩
  have hnewer' : ∀ c ∈ newer, Packed cfg c := fun c hc => h.packed c (List.mem_append_left _ hc)
  have hlive : ∀ c cs'', newer = c :: cs'' → .mark (c.1.start + c.1.free) ∈ c.2 →
      u.last = some (c.1.start + c.1.free) := by
    intro c cs'' hcs
    exact h.last c (cs'' ++ (e, before ++ .mark addr :: after) :: older) (by rw [hcs]; rfl)
  by_cases hend : addr = e.start + cfg.size
  · rw [if_pos hend] at hfree
    refine ⟨⟨gone, newer ++ (e, before ++ after) :: older, ?_⟩, fun b hb => hpart b hb ?_ ?_⟩
    · have hunmark := h.unmark hpending (by
        rw [← hpre', ← hpost, marksFrom_append, hpre, ← hn]
        exact hrest)
      have hcounts := h.counts
      rw [hpending] at hcounts
      obtain ⟨hreleased, hcounts⟩ := List.pairwise_cons.1 hcounts
      rw [hfree]
      exact hunmark.release (hreleased n List.mem_cons_self) (List.pairwise_cons.1 hcounts).1
    · rw [hfree, hextents]
      exact fun c hc => List.mem_append_left _ (List.mem_map_of_mem hc)
    · rw [hfree, hextents]
      exact fun _ => List.mem_append_right _ List.mem_cons_self
  rw [if_neg hend] at hfree
  by_cases hmark : addr = e.start + e.free
  · have hnone : after = [] := by
      rw [hmark] at hpacked
      exact hpacked.nothing_below
    rw [hnone, List.nil_append] at hpost
    cases newer with
    | nil =>
      -- the live extent begins again
      rw [if_pos hmark, List.map_nil, if_pos List.isEmpty_nil] at hfree
      refine ⟨⟨gone ++ blocksOf pre, [({ e with free := cfg.size, bound := 0 }, [])], ?_⟩, fun b hb => ?_⟩
      · rw [hfree]
        refine h.cutOff htime hpending hn hrest ?_
          (List.pairwise_singleton _ ({ e with free := cfg.size, bound := 0 }, [])) ?_ ?_
        · rw [hpost]
          rfl
        · intro c hc
          rw [List.mem_singleton.1 hc]
          exact ⟨le_rfl, .nil, fun x hx => absurd hx List.not_mem_nil, fun b hb => absurd hb List.not_mem_nil,
            fun hq => ⟨cfg.quantum_dvd hq, fun b hb => absurd hb List.not_mem_nil⟩⟩
        · intro c cs'' hcs hc
          obtain ⟨rfl, -⟩ := List.cons.inj hcs
          exact absurd hc List.not_mem_nil
      · exact hpart b hb (fun c hc => absurd hc List.not_mem_nil) fun hne => absurd hnone hne
    | cons c newer =>
      rw [if_pos hmark, List.map_cons, if_neg (by simp)] at hfree
      refine ⟨⟨gone ++ blocksOf pre, c :: newer, ?_⟩, fun b hb => hpart b hb ?_ fun hne => absurd hnone hne⟩
      · rw [hfree]
        exact h.cutOff htime hpending hn hrest hpost.symm hapart hnewer' hlive
      · rw [hfree]
        exact fun c' hc' => List.mem_map_of_mem (f := Prod.fst) hc'
  · rw [if_neg hmark] at hfree
    refine ⟨⟨gone ++ blocksOf pre, newer ++ [(e, after)], ?_⟩, fun b hb => hpart b hb ?_ ?_⟩
    · have hmap : newer.map Prod.fst ++ [e] = (newer ++ [(e, after)]).map Prod.fst := by
        rw [List.map_append, List.map_singleton]
      rw [hfree, hmap]
      refine h.cutOff htime hpending hn hrest ?_ ?_ ?_ ?_
      · rw [timeline_append, hpost]
        rfl
      · refine List.pairwise_append.2 ⟨hapart, List.pairwise_singleton _ _, fun c hc d hd => ?_⟩
        rw [List.mem_singleton.1 hd]
        exact hapart'' c hc (e, before ++ .mark addr :: after) List.mem_cons_self
      · intro c hc
        rcases List.mem_append.1 hc with hc | hc
        · exact hnewer' c hc
        · rw [List.mem_singleton.1 hc]
          exact hpacked.sublist ((List.sublist_cons_self _ _).trans (List.sublist_append_right _ _))
      · intro c cs'' hcs hc
        cases newer with
        | nil =>
          obtain ⟨rfl, -⟩ := List.cons.inj hcs
          exact h.last (e, before ++ .mark addr :: after) older rfl (hafter _ hc)
        | cons c' newer =>
          obtain ⟨rfl, -⟩ := List.cons.inj hcs
          exact hlive _ newer rfl hc
    · rw [hfree]
      exact fun c hc => List.mem_append_left _ (List.mem_map_of_mem hc)
    · rw [hfree]
      exact fun _ => List.mem_append_right _ (List.mem_singleton.2 rfl)

/-! ## Runs -/

/-- **The invariant of all runs.** -/
theorem poolReachable_inv (hroom : 0 < room) (h : PoolReachable cfg room u) :
    ∃ gone cs, PoolInv cfg room u gone cs := by
  induction h with
  | start =>
    exact ⟨[], [], rfl, rfl, rfl, le_rfl, List.pairwise_pair.2 le_rfl, .nil,
      fun c hc => absurd hc List.not_mem_nil, fun c cs' hcs => by cases hcs⟩
  | step _ hstep ih =>
    obtain ⟨gone, cs, h⟩ := ih
    cases hstep with
    | alloc _ hfresh halloc => exact ⟨gone, h.alloc hfresh halloc⟩
    | boundary len => exact ⟨gone, h.boundary len⟩
    | @free addr n rest hpending =>
      cases addr with
      | some addr => exact (h.free hroom hpending).1
      | none => exact ⟨gone, h.skip hpending⟩
    | skip hpending => exact ⟨gone, h.skip hpending⟩

/-- A block is in what is in use of an extent. -/
def PoolBlock.In (cfg : PoolSetup) (b : PoolBlock) (e : PoolExtent) : Prop :=
  e.start + e.free ≤ b.addr ∧ b.addr + b.len ≤ e.start + cfg.size ∧ 0 < b.len

theorem Packed.block {b : PoolBlock} (h : Packed cfg (e, events)) (hb : .block b ∈ events) : b.In cfg e :=
  ⟨(h.inside _ hb).1, (h.inside _ hb).2, h.len_pos b hb⟩

/-- No two extents have a block. -/
theorem PoolInv.in_unique {b : PoolBlock} {c d : PoolPart} (h : PoolInv cfg room u gone cs) (hc : c ∈ cs)
    (hd : d ∈ cs) (hbc : b.In cfg c.1) (hbd : b.In cfg d.1) : c = d := by
  by_contra hne
  have hsymm : Std.Symm fun c d : PoolPart => Apart cfg room c.1 d.1 := ⟨fun _ _ => Or.symm⟩
  obtain ⟨hc₁, hc₂, hpos⟩ := hbc
  obtain ⟨hd₁, hd₂, -⟩ := hbd
  rcases h.apart.forall hc hd hne with hlt | hlt
  · omega
  · omega

/-- Two blocks are apart. -/
def PoolBlock.Disjoint (b b' : PoolBlock) : Prop := b.addr + b.len ≤ b'.addr ∨ b'.addr + b'.len ≤ b.addr

/-- The blocks whose memory was not given up are apart. -/
theorem PoolInv.disjoint (h : PoolInv cfg room u gone cs) :
    (blocksOf (timeline cs)).Pairwise PoolBlock.Disjoint := by
  have hevents : (timeline cs).Pairwise fun x y =>
      ∀ b b', x = .block b → y = .block b' → PoolBlock.Disjoint b b' := by
    have hpacked := h.packed
    have hapart := h.apart
    clear h
    induction cs with
    | nil => exact .nil
    | cons c cs ih =>
      obtain ⟨hhead, hrest⟩ := List.pairwise_cons.1 hapart
      have hc := hpacked c List.mem_cons_self
      refine List.pairwise_append.2 ⟨ih (fun d hd => hpacked d (List.mem_cons_of_mem _ hd)) hrest, ?_, ?_⟩
      · refine hc.order.imp ?_
        rintro x y hbelow b b' rfl rfl
        exact .inr hbelow
      · rintro x hx y hy b b' rfl rfl
        obtain ⟨d, hd, hx⟩ := mem_timeline.1 hx
        obtain ⟨hy₁, hy₂, -⟩ := hc.block hy
        obtain ⟨hx₁, hx₂, -⟩ := (hpacked d (List.mem_cons_of_mem _ hd)).block hx
        rw [PoolBlock.Disjoint]
        rcases hhead d hd with hlt | hlt
        · omega
        · omega
  rw [blocksOf, List.pairwise_filterMap]
  refine hevents.imp ?_
  intro x y hxy b hb b' hb'
  cases x with
  | mark addr => cases hb
  | block c =>
    cases y with
    | mark addr => cases hb'
    | block c' =>
      rw [← Option.some.inj hb, ← Option.some.inj hb']
      exact hxy c c' rfl rfl

/-- A pool with room for 104 bytes in an extent. -/
def smallPool : PoolSetup := poolCreate 136 8 false true

end CloudEdgeBackup
