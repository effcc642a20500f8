/-
  The live file lists of a process and their index space (`flist.c`, `rsync.c`): with
  incremental recursion files arrive in many lists, the first of which is freed when all of its
  files are done.

  * `flistNew`, `flistFree`: the ring of `first_flist`, kept by pointers in a heap;
    `flistForNdx`: the walk from `cur_flist` to the list of an index;
  * `Reach`: the states of any process after any sequence of these calls; in each of them the
    lists are a ring and their indexes follow one another (`Flists.Holds`);
  * `readNdxStep`: one round of `read_ndx_and_attrs` over any bytes, and `fileAt`, the file its
    callers then take; `Session`: the states of a sender or a receiver between two rounds.

  The index before the first list belongs to a directory only where that list starts with ".",
  and nothing checks this; and a list that comes when no list is left starts a new `dir_flist`.
-/
import CloudEdgeBackup.FileEntry
import CloudEdgeBackup.Sanitize
import CloudEdgeBackup.Lib.Rings

namespace CloudEdgeBackup

open Codec Rings

/-! ## The lists -/

/-- A `struct file_list` without its links. -/
structure LiveList where
  files : List FileStruct
  ndxStart : ℤ
  flistNum : ℤ
  parentNdx : ℤ
deriving DecidableEq

namespace LiveList

def used (v : LiveList) : ℤ := v.files.length

/-- Whether an index belongs to a list; the one before its files is the directory's. -/
def contains (v : LiveList) (ndx : ℤ) : Bool := v.ndxStart - 1 ≤ ndx && ndx < v.ndxStart + v.used

theorem contains_iff {v : LiveList} {ndx : ℤ} :
    v.contains ndx = true ↔ v.ndxStart - 1 ≤ ndx ∧ ndx < v.ndxStart + v.files.length := by
  rw [contains, used, Bool.and_eq_true, decide_eq_true_eq, decide_eq_true_eq]

def addFile (f : FileStruct) (v : LiveList) : LiveList := { v with files := v.files ++ [f] }

end LiveList

/-- The lists in memory, `first_flist`, `cur_flist`, `dir_flist` and `flist_cnt`. -/
structure Flists where
  heap : Heap LiveList
  first : Option ℕ
  cur : Option ℕ
  dir : Option ℕ
  cnt : ℕ

namespace Flists

def empty : Flists := ⟨fun _ => none, none, none, none, 0⟩

variable (s : Flists)

/-- `flist_new(0, msg)`, where `a` is the memory it is given; `none` is a bad pointer. -/
def flistNew (incRecurse : Bool) (a : ℕ) : Option Flists :=
  match s.first with
  | none =>
    let start : ℤ := if incRecurse then 1 else 0
    some { s with
      heap := Function.update s.heap a (some ⟨some a, none, ⟨[], start, start, 0⟩⟩)
      first := some a
      cur := some a
      cnt := s.cnt + 1 }
  | some f => do
    let head ← s.heap f
    let p ← head.prev
    let prev ← s.heap p
    let flist : Cell LiveList := ⟨some p, none,
      ⟨[], prev.val.ndxStart + prev.val.used + 1, prev.val.flistNum + 1, 0⟩⟩
    pure { s with
      heap := modify (modify (Function.update s.heap a (some flist)) p
        fun c => { c with next := some a }) f fun c => { c with prev := some a }
      cnt := s.cnt + 1 }

/-- `flist_new(FLIST_TEMP, msg)` -/
def flistNewTemp (a : ℕ) : Flists :=
  { s with heap := Function.update s.heap a (some ⟨none, none, ⟨[], 0, 0, 0⟩⟩) }

/-- `flist_free`; `none` is a bad pointer. -/
def flistFree (a : ℕ) : Option Flists := do
  let flist ← s.heap a
  match flist.prev with
  | none => pure { s with heap := Function.update s.heap a none }
  | some p =>
    if p = a then
      pure { s with heap := Function.update s.heap a none, first := none, cur := none, cnt := 0 }
    else do
      let cur := if s.cur = some a then flist.next else s.cur
      if s.first = some a then do
        let n ← flist.next
        let _ ← s.heap n
        pure { s with
          heap := Function.update (modify s.heap n fun c => { c with prev := flist.prev }) a none
          first := some n
          cur := cur
          cnt := s.cnt - 1 }
      else do
        let _ ← s.heap p
        let n ← flist.next.or s.first
        let _ ← s.heap n
        pure { s with
          heap := Function.update (modify (modify s.heap p fun c => { c with next := flist.next }) n
            fun c => { c with prev := flist.prev }) a none
          cur := cur
          cnt := s.cnt - 1 }

/-- `flist->files[flist->used++] = file` -/
def addFile (a : ℕ) (f : FileStruct) : Flists :=
  { s with heap := modify s.heap a fun c => { c with val := c.val.addFile f } }

/-- `flist->parent_ndx = ndx` -/
def setParent (a : ℕ) (ndx : ℤ) : Flists :=
  { s with heap := modify s.heap a fun c => { c with val := { c.val with parentNdx := ndx } } }

/-- The second loop of `flist_for_ndx`; `some none` is `not_found`. -/
def forNdxUp (ndx : ℤ) : ℕ → ℕ → Option (Option ℕ)
  | 0, _ => none
  | fuel + 1, a => do
    let flist ← s.heap a
    if flist.val.ndxStart + flist.val.used ≤ ndx then
      match flist.next with
      | none => pure none
      | some b => forNdxUp ndx fuel b
    else pure (some a)

/-- The first loop of `flist_for_ndx`. -/
def forNdxDown (ndx : ℤ) (n : ℕ) : ℕ → ℕ → Option (Option ℕ)
  | 0, _ => none
  | fuel + 1, a => do
    let flist ← s.heap a
    if ndx < flist.val.ndxStart - 1 then
      if s.first = some a then pure none
      else do
        let b ← flist.prev
        forNdxDown ndx n fuel b
    else s.forNdxUp ndx n a

/-- `flist_for_ndx`, with at most `n` rounds of each loop. -/
def flistForNdx (n : ℕ) (ndx : ℤ) : Option (Option ℕ) :=
  match s.cur.or s.first with
  | none => pure none
  | some a => s.forNdxDown ndx n n a

end Flists

/-! ## Any sequence of calls -/

/-- The states a process can be in: it adds lists at the end, fills the newest one and frees the
    first one, uses lists that belong to no ring, and moves `cur_flist` along. -/
inductive Reach (incRecurse : Bool) : Flists → Prop
  | start : Reach incRecurse .empty
  | new {s s' : Flists} {a : ℕ} : Reach incRecurse s → s.heap a = none →
      s.flistNew incRecurse a = some s' → Reach incRecurse s'
  | temp {s : Flists} {a : ℕ} : Reach incRecurse s → s.heap a = none →
      Reach incRecurse (s.flistNewTemp a)
  | dir {s : Flists} (a : ℕ) : Reach incRecurse s → Reach incRecurse { s with dir := some a }
  | add {s : Flists} {f a : ℕ} {c : Cell LiveList} (file : FileStruct) : Reach incRecurse s →
      s.first = some f → s.heap f = some c → c.prev = some a → Reach incRecurse (s.addFile a file)
  | addTemp {s : Flists} {a : ℕ} {c : Cell LiveList} (file : FileStruct) : Reach incRecurse s →
      s.heap a = some c → c.prev = none → Reach incRecurse (s.addFile a file)
  | parent {s : Flists} {f a : ℕ} {c : Cell LiveList} (ndx : ℤ) : Reach incRecurse s →
      s.first = some f → s.heap f = some c → c.prev = some a → Reach incRecurse (s.setParent a ndx)
  | free {s s' : Flists} {f : ℕ} : Reach incRecurse s → s.first = some f →
      s.flistFree f = some s' → Reach incRecurse s'
  | freeTemp {s s' : Flists} {a : ℕ} {c : Cell LiveList} : Reach incRecurse s →
      s.heap a = some c → c.prev = none → s.flistFree a = some s' → Reach incRecurse s'
  | found {s : Flists} {a : ℕ} {ndx : ℤ} : Reach incRecurse s →
      s.flistForNdx s.cnt ndx = some (some a) → Reach incRecurse { s with cur := some a }
  | next {s : Flists} {a : ℕ} {c : Cell LiveList} : Reach incRecurse s → s.cur = some a →
      s.heap a = some c → Reach incRecurse { s with cur := c.next }

/-- One list follows another: its indexes start where the other's end. -/
def Adjacent (x y : ℕ × LiveList) : Prop :=
  y.2.ndxStart = x.2.ndxStart + x.2.used + 1 ∧ y.2.flistNum = x.2.flistNum + 1

/-- The live lists in their order: a ring in memory, their ranges one after the other, and
    `cur_flist` is one of them or null. -/
structure Flists.Holds (s : Flists) (l : List (ℕ × LiveList)) : Prop where
  ring : Ring s.heap s.first l
  follows : l.IsChain Adjacent
  cur : ∀ a, s.cur = some a → a ∈ l.map Prod.fst
  cnt : s.cnt = l.length

namespace Flists.Holds

variable {s s' : Flists} {l : List (ℕ × LiveList)} {a f : ℕ} {v : LiveList}

theorem empty : Flists.empty.Holds [] := ⟨Ring.empty, .nil, nofun, rfl⟩

/-- What `flist_new` makes behind the lists that are there. -/
def nextList (incRecurse : Bool) (l : List (ℕ × LiveList)) : LiveList :=
  match l.getLast? with
  | none => ⟨[], if incRecurse then 1 else 0, if incRecurse then 1 else 0, 0⟩
  | some x => ⟨[], x.2.ndxStart + x.2.used + 1, x.2.flistNum + 1, 0⟩

theorem fresh (h : s.Holds l) (ha : s.heap a = none) : a ∉ l.map Prod.fst := by
  intro hin
  obtain ⟨x, hx, rfl⟩ := List.mem_map.1 hin
  obtain ⟨c, hc, -⟩ := h.ring.live hx
  rw [ha] at hc
  cases hc

/-- The first list leads to the last one. -/
theorem head_prev {x : ℕ × LiveList} {pre : List (ℕ × LiveList)} (h : s.Holds (pre ++ [x])) :
    ∃ f c, s.first = some f ∧ s.heap f = some c ∧ c.prev = some x.1 := by
  obtain _ | ⟨y, pre⟩ := pre
  · exact ⟨x.1, _, h.ring.first_eq, h.ring.linked.1, rfl⟩
  · refine ⟨y.1, _, h.ring.first_eq, h.ring.linked.1, ?_⟩
    rw [List.getLast?_append]
    rfl

/-- **`flist_new`** always succeeds, and adds a list at the end. -/
theorem new (h : s.Holds l) (ha : s.heap a = none) (incRecurse : Bool) :
    ∃ s', s.flistNew incRecurse a = some s' ∧ s'.Holds (l ++ [(a, nextList incRecurse l)]) ∧
      (∀ b, b ≠ a → b ∉ l.map Prod.fst → s'.heap b = s.heap b) ∧ s'.dir = s.dir := by
  obtain rfl | ⟨pre, x, rfl⟩ := List.eq_nil_or_concat l
  · have hfirst : s.first = none := h.ring.first_eq
    rw [flistNew, hfirst]
    refine ⟨_, rfl, ⟨Ring.single a _ (Function.update_self ..), .singleton _, ?_, ?_⟩, ?_, rfl⟩
    · rintro b hb
      rw [← Option.some.inj hb]
      exact List.mem_cons_self
    · exact congrArg (· + 1) h.cnt
    · intro b hb _
      exact Function.update_of_ne hb ..
  · rw [List.concat_eq_append] at h ⊢
    obtain ⟨f, c, hfirst, hf, hprev⟩ := h.head_prev
    have hx : s.heap x.1 = some _ := h.ring.cell
    have hnotin := h.fresh ha
    have hring := h.ring
    rw [hfirst] at hring
    have hnext : nextList incRecurse (pre ++ [x]) =
        ⟨[], x.2.ndxStart + x.2.used + 1, x.2.flistNum + 1, 0⟩ := by
      rw [nextList, List.getLast?_append]
      rfl
    rw [flistNew, hfirst]
    simp only [hf, hprev, hx, Option.bind_eq_bind, Option.bind_some, Option.pure_def]
    refine ⟨_, rfl, ⟨?_, ?_, ?_, ?_⟩, ?_, rfl⟩
    · have := hring.push (y := (a, nextList incRecurse (pre ++ [x]))) hnotin
      rw [hnext] at this ⊢
      rw [List.append_assoc]
      exact this
    · refine List.isChain_append.2 ⟨h.follows, .singleton _, ?_⟩
      intro y hy z hz
      rw [List.getLast?_append, Option.mem_def] at hy
      rw [← Option.some.inj hy, ← Option.some.inj hz, hnext]
      exact ⟨rfl, rfl⟩
    · intro b hb
      rw [List.map_append]
      exact List.mem_append_left _ (h.cur b hb)
    · simp [h.cnt]
    · intro b hb hbl
      have hbx : b ≠ x.1 := fun heq => hbl (heq ▸ by simp)
      have hbf : b ≠ f := by
        rintro rfl
        refine hbl ?_
        have hhead := hring.first_eq
        cases pre <;> simp_all
      exact (modify_other _ hbf).trans ((modify_other _ hbx).trans (Function.update_of_ne hb ..))

theorem last_eq {x : ℕ × LiveList} (h : s.Holds (l ++ [x])) {c : Cell LiveList}
    (hf : s.first = some f) (hc : s.heap f = some c) (hp : c.prev = some a) : a = x.1 := by
  obtain ⟨f', c', hf', hc', hp'⟩ := h.head_prev
  rw [hf, Option.some.injEq] at hf'
  rw [← hf', hc, Option.some.injEq] at hc'
  rw [← hc', hp, Option.some.injEq] at hp'
  exact hp'

/-- A ring with a first cell has a last one. -/
theorem exists_last (h : s.Holds l) (hf : s.first = some f) : ∃ pre x, l = pre ++ [x] := by
  obtain rfl | ⟨pre, x, rfl⟩ := List.eq_nil_or_concat l
  · rw [h.ring.first_eq] at hf
    cases hf
  · exact ⟨pre, x, List.concat_eq_append⟩

/-- The newest list gets other contents; its indexes start where they did. -/
theorem modifyLast {g : LiveList → LiveList} (h : s.Holds (l ++ [(a, v)]))
    (hg : (g v).ndxStart = v.ndxStart ∧ (g v).flistNum = v.flistNum) :
    ({ s with heap := modify s.heap a fun c => { c with val := g c.val } } : Flists).Holds
      (l ++ [(a, g v)]) := by
  have hring := h.ring.modify (g v)
  refine ⟨hring.congr ?_, ?_, ?_, ?_⟩
  · intro y hy
    change modify s.heap a _ y.1 = modify s.heap a _ y.1
    by_cases hya : y.1 = a
    · rw [hya, modify_same, modify_same, (h.ring.cell : s.heap a = some _)]
      rfl
    · rw [modify_other _ hya, modify_other _ hya]
  · obtain ⟨hl, -, hadj⟩ := List.isChain_append.1 h.follows
    refine List.isChain_append.2 ⟨hl, .singleton _, ?_⟩
    intro y hy z hz
    obtain ⟨hstart, hnum⟩ := hadj y hy (a, v) rfl
    rw [← Option.some.inj hz]
    exact ⟨hg.1.trans hstart, hg.2.trans hnum⟩
  · simpa using h.cur
  · simpa using h.cnt

/-- What happens outside the ring does not concern it. -/
theorem outside (h : s.Holds l) {h' : Heap LiveList} (heq : ∀ b ∈ l.map Prod.fst, h' b = s.heap b) :
    ({ s with heap := h' } : Flists).Holds l :=
  ⟨h.ring.congr fun y hy => heq y.1 (List.mem_map_of_mem hy), h.follows, h.cur, h.cnt⟩

/-- A list without a `prev` is not in the ring. -/
theorem temp_notMem (h : s.Holds l) {c : Cell LiveList} (hc : s.heap a = some c)
    (hp : c.prev = none) : a ∉ l.map Prod.fst := by
  intro hin
  obtain ⟨x, hx, rfl⟩ := List.mem_map.1 hin
  obtain ⟨p, hprev⟩ := h.ring.prev_isSome hx hc
  rw [hp] at hprev
  cases hprev

/-- **`flist_free`** of the first list always succeeds and leaves the others. -/
theorem free {x : ℕ × LiveList} (h : s.Holds (x :: l)) :
    ∃ s', s.flistFree x.1 = some s' ∧ s'.Holds l ∧
      (∀ b, b ∉ (x :: l).map Prod.fst → s'.heap b = s.heap b) ∧ s'.dir = s.dir := by
  have hcell : s.heap x.1 = some _ := h.ring.linked.1
  have hfirst : s.first = some x.1 := h.ring.first_eq
  obtain _ | ⟨y, l⟩ := l
  · rw [flistFree, hcell]
    simp only [List.getLast?_singleton, Option.map_some, Option.bind_eq_bind, Option.bind_some,
      if_true, Option.pure_def]
    refine ⟨_, rfl, ⟨⟨List.nodup_nil, rfl, trivial⟩, .nil, ?_, rfl⟩, ?_, rfl⟩
    · intro b hb
      cases hb
    intro b hb
    exact Function.update_of_ne (fun heq => hb (by simp [heq])) ..
  · obtain ⟨pre, z, hlast⟩ : ∃ pre z, x :: y :: l = pre ++ [z] := by
      obtain heq | ⟨pre, z, heq⟩ := List.eq_nil_or_concat (x :: y :: l)
      · cases heq
      · exact ⟨pre, z, heq.trans List.concat_eq_append⟩
    have hget : (x :: y :: l).getLast? = some z := by rw [hlast]; simp
    have hnd := h.ring.nodup
    rw [List.map_cons, List.nodup_cons] at hnd
    have hzx : z.1 ≠ x.1 := by
      have hz : z ∈ y :: l := by
        obtain _ | ⟨u, pre⟩ := pre
        · cases hlast
        · rw [(List.cons.inj hlast).2]
          simp
      exact fun heq => hnd.1 (heq ▸ List.mem_map_of_mem hz)
    have hy : s.heap y.1 = some _ := h.ring.linked.2.1
    have hpop := h.ring.pop (p := some z.1) (by rw [hget]; rfl)
    rw [flistFree, hcell]
    simp only [hget, Option.map_some, List.head?_cons, Option.bind_eq_bind, Option.bind_some,
      if_neg hzx, hfirst, if_true, hy, Option.pure_def]
    refine ⟨_, rfl, ⟨hpop, ?_, ?_, ?_⟩, ?_, rfl⟩
    · exact (List.isChain_cons_cons.1 h.follows).2
    · intro b hb
      change (if s.cur = some x.1 then some y.1 else s.cur) = some b at hb
      split_ifs at hb with hcur
      · rw [← Option.some.inj hb]
        exact List.mem_cons_self
      · rcases List.mem_cons.1 (h.cur b hb) with heq | hin
        · exact absurd (heq ▸ hb) hcur
        · exact hin
    · have hcnt := h.cnt
      simp only [List.length_cons] at hcnt ⊢
      omega
    · intro b hb
      simp only [List.map_cons, List.mem_cons, not_or] at hb
      exact (Function.update_of_ne hb.1 ..).trans (modify_other _ hb.2.1)

end Flists.Holds

/-! ## The list of an index -/

namespace Flists.Holds

variable {s s' : Flists} {l pre post : List (ℕ × LiveList)} {x y : ℕ × LiveList} {ndx : ℤ} {n : ℕ}

/-- The lists in front of one end before its indexes start. -/
theorem before (h : s.Holds l) :
    l.Pairwise fun x y => x.2.ndxStart + x.2.used ≤ y.2.ndxStart - 1 := by
  have htrans : IsTrans (ℕ × LiveList) fun x y => x.2.ndxStart + x.2.used ≤ y.2.ndxStart - 1 := by
    refine ⟨fun x y z hxy hyz => ?_⟩
    have : 0 ≤ y.2.used := Int.natCast_nonneg _
    omega
  refine List.isChain_iff_pairwise.1 (h.follows.imp ?_)
  intro x y hxy
  rw [hxy.1]
  omega

/-- Two live lists have no index in common. -/
theorem contains_unique (h : s.Holds l) (hx : x ∈ l) (hy : y ∈ l)
    (hxn : x.2.contains ndx = true) (hyn : y.2.contains ndx = true) : x = y := by
  simp only [LiveList.contains, Bool.and_eq_true, decide_eq_true_eq] at hxn hyn
  obtain ⟨pre, post, rfl⟩ := List.append_of_mem hx
  obtain ⟨-, hafter, hacross⟩ := List.pairwise_append.1 h.before
  rcases List.mem_append.1 hy with hpre | hright
  · have := hacross y hpre x List.mem_cons_self
    omega
  · rcases List.mem_cons.1 hright with rfl | hpost
    · rfl
    · have := (List.pairwise_cons.1 hafter).1 y hpost
      omega

/-- The upward loop finds the list of an index that is not below the one it starts from. -/
theorem forNdxUp_eq (h : s.Holds (pre ++ x :: post)) (hlo : x.2.ndxStart - 1 ≤ ndx)
    (hn : post.length < n) :
    s.forNdxUp ndx n x.1 = some (((x :: post).find? (·.2.contains ndx)).map Prod.fst) := by
  induction post generalizing pre x n with
  | nil =>
    obtain ⟨n, rfl⟩ := Nat.exists_eq_succ_of_ne_zero (Nat.ne_of_gt (Nat.zero_lt_of_lt hn))
    rw [forNdxUp, h.ring.cell]
    by_cases hhi : x.2.ndxStart + x.2.used ≤ ndx
    · simp [LiveList.contains, hhi]
    · simp only [LiveList.contains, hlo, not_le.1 hhi, decide_true, Bool.and_self,
        List.find?_cons, Option.bind_eq_bind, Option.bind_some, if_neg hhi, Option.pure_def,
        Option.map_some]
  | cons y post ih =>
    obtain ⟨n, rfl⟩ := Nat.exists_eq_succ_of_ne_zero (Nat.ne_of_gt (Nat.zero_lt_of_lt hn))
    rw [forNdxUp, h.ring.cell]
    by_cases hhi : x.2.ndxStart + x.2.used ≤ ndx
    · have hadj : Adjacent x y := by
        obtain ⟨-, hright, -⟩ := List.isChain_append.1 h.follows
        exact (List.isChain_cons_cons.1 hright).1
      have hlo' : y.2.ndxStart - 1 ≤ ndx := by rw [hadj.1]; omega
      have h' : s.Holds ((pre ++ [x]) ++ y :: post) := by
        rw [List.append_assoc]
        exact h
      rw [List.length_cons] at hn
      have hrest := ih h' hlo' (Nat.lt_of_succ_lt_succ hn)
      have hno : x.2.contains ndx = false := by
        simp [LiveList.contains, hhi]
      simp only [Option.bind_eq_bind, Option.bind_some, if_pos hhi, List.head?_cons,
        Option.map_some]
      rw [hrest, List.find?_cons (a := x), hno]
    · have hyes : x.2.contains ndx = true := by
        simp [LiveList.contains, hlo, not_le.1 hhi]
      simp only [Option.bind_eq_bind, Option.bind_some, if_neg hhi, Option.pure_def]
      rw [List.find?_cons, hyes]
      rfl

/-- The downward loop, and then the upward one. -/
theorem forNdxDown_eq {fuel : ℕ} (h : s.Holds (pre ++ x :: post))
    (hn : (pre ++ x :: post).length ≤ n) (hfuel : pre.length < fuel) :
    s.forNdxDown ndx n fuel x.1 =
      some (((pre ++ x :: post).find? (·.2.contains ndx)).map Prod.fst) := by
  induction fuel generalizing pre x post with
  | zero => omega
  | succ fuel ih =>
    have hbefore := h.before
    rw [List.pairwise_append] at hbefore
    obtain ⟨-, hafter, hacross⟩ := hbefore
    rw [forNdxDown, h.ring.cell]
    by_cases hlo : ndx < x.2.ndxStart - 1
    · obtain rfl | ⟨pre, y, rfl⟩ := List.eq_nil_or_concat pre
      · have hfirst : s.first = some x.1 := h.ring.first_eq
        have hnone : (x :: post).find? (·.2.contains ndx) = none := by
          rw [List.find?_eq_none]
          intro z hz
          have hxz : x.2.ndxStart ≤ z.2.ndxStart := by
            rcases List.mem_cons.1 hz with rfl | hz
            · exact le_rfl
            · have := (List.pairwise_cons.1 hafter).1 z hz
              have : 0 ≤ x.2.used := Int.natCast_nonneg _
              omega
          simp only [LiveList.contains, Bool.and_eq_true, decide_eq_true_eq, not_and]
          intro h1
          omega
        simp only [Option.bind_eq_bind, Option.bind_some, if_pos hlo, if_pos hfirst,
          List.nil_append, hnone, Option.pure_def, Option.map_none]
      · rw [List.concat_eq_append] at h hn hfuel ⊢
        have hfirst : s.first ≠ some x.1 := by
          intro heq
          obtain ⟨hpre, -⟩ := h.ring.notMem_of_nodup
          rw [h.ring.first_eq] at heq
          refine hpre ?_
          cases pre <;> simp_all
        have h' : s.Holds (pre ++ y :: x :: post) := by
          rw [List.append_assoc] at h
          exact h
        have hrest := ih h' (by simpa using hn) (by simp at hfuel; omega)
        simp only [Option.bind_eq_bind, Option.bind_some, if_pos hlo, if_neg hfirst,
          List.getLast?_append, List.getLast?_singleton, Option.some_or, Option.map_some]
        rw [hrest, List.append_assoc]
        rfl
    · have hnone : pre.find? (·.2.contains ndx) = none := by
        rw [List.find?_eq_none]
        intro z hz
        have := hacross z hz x List.mem_cons_self
        simp only [LiveList.contains, Bool.and_eq_true, decide_eq_true_eq, not_and]
        intro h1
        omega
      simp only [Option.bind_eq_bind, Option.bind_some, if_neg hlo]
      rw [h.forNdxUp_eq (not_lt.1 hlo) (by rw [List.length_append, List.length_cons] at hn; omega),
        List.find?_append, hnone, Option.none_or]

/-- **`flist_for_ndx`** finds the list that contains an index, from wherever `cur_flist` is. -/
theorem flistForNdx_eq (h : s.Holds l) (hn : l.length ≤ n) (ndx : ℤ) :
    s.flistForNdx n ndx = some ((l.find? (·.2.contains ndx)).map Prod.fst) := by
  rw [flistForNdx]
  cases hstart : s.cur.or s.first with
  | none =>
    rw [Option.or_eq_none_iff] at hstart
    have hl : l = [] := by
      have := h.ring.first_eq
      rw [hstart.2] at this
      cases l with
      | nil => rfl
      | cons x l => cases this
    rw [hl]
    rfl
  | some a =>
    have hmem : a ∈ l.map Prod.fst := by
      cases hcur : s.cur with
      | some c =>
        rw [hcur, Option.some_or, Option.some.injEq] at hstart
        exact hstart ▸ h.cur c hcur
      | none =>
        rw [hcur, Option.none_or, h.ring.first_eq] at hstart
        cases l with
        | nil => cases hstart
        | cons x l => exact Option.some.inj hstart ▸ List.mem_cons_self
    obtain ⟨x, hx, rfl⟩ := List.mem_map.1 hmem
    obtain ⟨pre, post, rfl⟩ := List.append_of_mem hx
    refine h.forNdxDown_eq hn ?_
    rw [List.length_append, List.length_cons] at hn
    omega

end Flists.Holds

/-- **In every run** the lists are a ring in memory, and their indexes follow one another. -/
theorem Reach.holds {incRecurse : Bool} {s : Flists} (h : Reach incRecurse s) :
    ∃ l, s.Holds l := by
  induction h with
  | start => exact ⟨[], Flists.Holds.empty⟩
  | new _ ha hnew ih =>
    obtain ⟨l, hl⟩ := ih
    obtain ⟨s', hs', hholds, -⟩ := hl.new ha incRecurse
    rw [hnew, Option.some.injEq] at hs'
    exact ⟨_, hs' ▸ hholds⟩
  | temp _ ha ih =>
    obtain ⟨l, hl⟩ := ih
    refine ⟨l, hl.outside fun b hb => Function.update_of_ne ?_ ..⟩
    rintro rfl
    exact hl.fresh ha hb
  | dir a _ ih =>
    obtain ⟨l, hl⟩ := ih
    exact ⟨l, hl.ring, hl.follows, hl.cur, hl.cnt⟩
  | add file _ hf hc hp ih =>
    obtain ⟨l, hl⟩ := ih
    obtain ⟨pre, ⟨b, v⟩, rfl⟩ := hl.exists_last hf
    obtain rfl := hl.last_eq hf hc hp
    exact ⟨_, hl.modifyLast (g := LiveList.addFile file) ⟨rfl, rfl⟩⟩
  | addTemp file _ hc hp ih =>
    obtain ⟨l, hl⟩ := ih
    refine ⟨l, hl.outside fun b hb => modify_other _ ?_⟩
    rintro rfl
    exact hl.temp_notMem hc hp hb
  | parent ndx _ hf hc hp ih =>
    obtain ⟨l, hl⟩ := ih
    obtain ⟨pre, ⟨b, v⟩, rfl⟩ := hl.exists_last hf
    obtain rfl := hl.last_eq hf hc hp
    exact ⟨_, hl.modifyLast (g := fun v => { v with parentNdx := ndx }) ⟨rfl, rfl⟩⟩
  | free _ hf hfree ih =>
    obtain ⟨l, hl⟩ := ih
    rw [hl.ring.first_eq] at hf
    obtain _ | ⟨x, l⟩ := l
    · cases hf
    · obtain rfl := Option.some.inj hf
      obtain ⟨s', hs', hholds, -⟩ := hl.free
      rw [hfree, Option.some.injEq] at hs'
      exact ⟨l, hs' ▸ hholds⟩
  | @freeTemp s s' a c _ hc hp hfree ih =>
    obtain ⟨l, hl⟩ := ih
    refine ⟨l, ?_⟩
    rw [Flists.flistFree, hc] at hfree
    simp only [Option.bind_eq_bind, Option.bind_some, hp, Option.pure_def,
      Option.some.injEq] at hfree
    rw [← hfree]
    refine hl.outside fun b hb => Function.update_of_ne ?_ ..
    rintro rfl
    exact hl.temp_notMem hc hp hb
  | @found s a ndx _ hfound ih =>
    obtain ⟨l, hl⟩ := ih
    rw [hl.flistForNdx_eq hl.cnt.ge, Option.some.injEq, Option.map_eq_some_iff] at hfound
    obtain ⟨x, hx, rfl⟩ := hfound
    refine ⟨l, hl.ring, hl.follows, ?_, hl.cnt⟩
    rintro b hb
    rw [← Option.some.inj hb]
    exact List.mem_map_of_mem (List.mem_of_find?_eq_some hx)
  | @next s a c _ hcur hc ih =>
    obtain ⟨l, hl⟩ := ih
    refine ⟨l, hl.ring, hl.follows, ?_, hl.cnt⟩
    intro b hb
    obtain ⟨x, hx, rfl⟩ := List.mem_map.1 (hl.cur a hcur)
    obtain ⟨pre, post, rfl⟩ := List.append_of_mem hx
    rw [hl.ring.cell, Option.some.injEq] at hc
    rw [← hc] at hb
    obtain ⟨y, hy, rfl⟩ := Option.map_eq_some_iff.1 hb
    refine List.mem_map_of_mem (List.mem_append_right _ (List.mem_cons_of_mem _ ?_))
    exact List.mem_of_mem_head? hy

/-! ## Lists that arrive -/

/-- `NDX_FLIST_EOF`, `NDX_DEL_STATS`, `NDX_FLIST_OFFSET` -/
abbrev ndxFlistEof : ℤ := -2
abbrev ndxDelStats : ℤ := -3
abbrev ndxFlistOffset : ℤ := -101

abbrev itemBasisTypeFollows : ℕ := 2 ^ 11
abbrev itemXnameFollows : ℕ := 2 ^ 12
abbrev itemIsNew : ℕ := 2 ^ 13
abbrev itemTransfer : ℕ := 2 ^ 15
abbrev itemMissingData : ℕ := 2 ^ 16

/-- Who calls `read_ndx_and_attrs`. -/
structure ListCaller where
  o : ListOpts
  amSender : Bool
  useSafeIncFlist : Bool
  sanitizePaths : Bool
  /-- Whether the first name of a sorted list is ".". -/
  startsWithDot : List FileStruct → Bool
  protocol : o.incRecurse = true → 30 ≤ o.protocolVersion

namespace Flists

variable (s : Flists)

/-- `dir_flist->used` -/
def dirUsed : ℤ := ((s.dir.bind s.heap).map fun c => c.val.used).getD 0

/-- `dir_flist->files[ndx]`, where it is in range. -/
def dirFile (ndx : ℤ) : Option FileStruct :=
  if 0 ≤ ndx then (s.dir.bind s.heap).bind fun c => c.val.files[ndx.toNat]? else none

/-- The start of `recv_file_list` and of `send_file_list`. -/
def openList (incRecurse : Bool) (a d : ℕ) : Option Flists := do
  let s ← s.flistNew incRecurse a
  if incRecurse then do
    let flist ← s.heap a
    if flist.val.ndxStart = 1 then pure { s.flistNewTemp d with dir := some d } else pure s
  else pure { s with dir := some a }

/-- A directory joins `dir_flist`. -/
def addDir (incRecurse : Bool) (f : FileStruct) : Option Flists :=
  if incRecurse && isDir f.mode then do
    let d ← s.dir
    let _ ← s.heap d
    pure (s.addFile d f)
  else pure s

/-- The entries join a list. -/
def fillList (incRecurse : Bool) (a : ℕ) : List FileStruct → Flists → Option Flists
  | [], s => some s
  | f :: files, s => do
    let s ← s.addDir incRecurse f
    fillList incRecurse a files (s.addFile a f)

/-- The end of `recv_file_list` and `send_file_list`: a first list without "." has no parent. -/
def closeList (c : ListCaller) (a : ℕ) (files : List FileStruct) : Option Flists := do
  let s ← fillList c.o.incRecurse a files s
  let flist ← s.heap a
  if c.o.incRecurse && flist.val.ndxStart = 1 && !c.startsWithDot files then
    pure (s.setParent a (-1))
  else pure s

/-- One list of `send_extra_file_list`, for the directory `parentNdx`. -/
def extraList (a : ℕ) (files : List FileStruct) (parentNdx : ℤ) : Option Flists := do
  let s ← s.flistNew true a
  let s ← fillList true a files s
  pure (s.setParent a parentNdx)

end Flists

/-- The entries up to the end of a list. -/
def readEntries (c : ListCaller) : ℕ → Receiver → In Receiver
  | 0, _ => abort
  | fuel + 1, t => fun bytes =>
    match bytes with
    | [] => none
    | b :: rest =>
      if b = 0 then some (t, rest)
      -- `XMIT_EXTENDED_FLAGS|XMIT_IO_ERROR_ENDLIST`
      else if b = 4 ∧ rest.head? = some 16 then
        if c.useSafeIncFlist then (readVarint rest.tail).map fun r => (t, r.2) else none
      else do
        let r ← recvFileEntry c.o t bytes
        readEntries c fuel r.1.2 r.2

/-- `file->dirname`, without the slash that `--relative` may leave in front of it. -/
def curDir (c : ListCaller) (name : Bytes) : Bytes :=
  let dir := (name.rdropWhile (· ≠ slashByte)).dropLast
  if c.o.relativePaths && dir.head? = some slashByte then dir.tail else dir

/-- The check for an invalid path; `false` is a bad index into `dir_flist`. -/
def checkDirs (c : ListCaller) (s : Flists) (dirNdx : ℤ) (files : List FileStruct) : In Bool :=
  if c.o.incRecurse && files ≠ [] then
    match if dirNdx < 0 then some [] else (s.dirFile dirNdx).map FileStruct.name with
    | none => pure false
    | some d => if files.all fun f => curDir c f.name = d then pure true else abort
  else pure true

/-- A process between two indexes. -/
structure ListReader where
  lists : Flists
  ndx : NdxState
  rx : Receiver
  flistEof : Bool

/-- `recv_file_list`, where `a` and `d` is the memory it is given; `none` is a bad pointer or index.
    What follows the entries of a list without incremental recursion is not read here. -/
def recvFileList (c : ListCaller) (a d : ℕ) (dirNdx : ℤ) (s : ListReader) :
    In (Option ListReader) :=
  match s.lists.openList c.o.incRecurse a d with
  | none => pure none
  | some lists => do
    let start := ((lists.heap a).map fun flist => flist.val.ndxStart).getD 0
    let rx ← fun bytes => readEntries c (bytes.length + 1)
      { s.rx with ndxStart := start, files := [] } bytes
    let ok ← checkDirs c lists dirNdx rx.files
    pure (if ok then (lists.closeList c a rx.files).map fun lists =>
      { s with lists := lists, rx := rx } else none)

/-! ## `read_ndx_and_attrs` -/

/-- What `read_ndx_and_attrs` tells about an item. -/
structure ItemAttrs where
  iflags : ℕ
  fnamecmpType : ℕ
  xname : Option Bytes
deriving DecidableEq

/-- How a round of its loop ends. -/
inductive Round
  | again (s : ListReader)
  | done (s : ListReader)
  | index (ndx : ℤ) (attrs : ItemAttrs) (s : ListReader)

def Round.state : Round → ListReader
  | .again s => s
  | .done s => s
  | .index _ _ s => s

def readShortint : In ℕ := do
  let b ← getN 2
  pure (leValue b)

def readDelStats : In Unit := do
  let _ ← readVarint
  let _ ← readVarint
  let _ ← readVarint
  let _ ← readVarint
  let _ ← readVarint

def readXname (c : ListCaller) (iflags : ℕ) : In (Option Bytes) :=
  if iflags &&& itemXnameFollows ≠ 0 then do
    match ← readVstring maxPathLen with
    | none => abort
    | some name =>
      if c.sanitizePaths then
        match sanitizePath [] c.o.relativePaths .same name (some []) 0 false with
        | none => abort
        | some name => pure (some name)
      else pure (some name)
  else pure none

def readBasisType (iflags : ℕ) : In ℕ :=
  if iflags &&& itemBasisTypeFollows ≠ 0 then do
    let b ← get1
    pure b.toNat
  else pure 0x80

/-- Only regular files are transferred; `none` is a bad index. -/
def checkTransfer (iflags : ℕ) (ndx : ℤ) (flist : LiveList) : In (Option Unit) :=
  if iflags &&& itemTransfer ≠ 0 then
    if ndx - flist.ndxStart < 0 then abort
    else match flist.files[(ndx - flist.ndxStart).toNat]? with
      | none => pure none
      | some f => if isReg f.mode then pure (some ()) else abort
  else pure (some ())

/-- The attributes of an index, once its list is found. -/
def readItem (c : ListCaller) (s : ListReader) (ndx : ℤ) (iflags : ℕ) (a : ℕ) :
    In (Option Round) := do
  let fnamecmpType ← readBasisType iflags
  let xname ← readXname c iflags
  match s.lists.heap a with
  | none => pure none
  | some flist => do
    let ok ← checkTransfer iflags ndx flist.val
    pure (ok.map fun _ =>
      .index ndx ⟨iflags, fnamecmpType, xname⟩ { s with lists := { s.lists with cur := some a } })

/-- The keep-alive message of protocol 29. -/
def isKeepalive (c : ListCaller) (ndx : ℤ) (iflags : ℕ) (cur : LiveList) : Bool :=
  c.o.protocolVersion < 30 && ndx = cur.used && iflags = itemIsNew

def readIflags (c : ListCaller) : In ℕ :=
  if 29 ≤ c.o.protocolVersion then readShortint else pure (itemTransfer ||| itemMissingData)

/-- The part of `read_ndx_and_attrs` behind its inner loop. -/
def readAttrs (c : ListCaller) (s : ListReader) (ndx : ℤ) : In (Option Round) := do
  let iflags ← readIflags c
  -- `cur_flist` is looked at for the old protocols only
  if c.o.protocolVersion < 30 && (s.lists.cur.bind s.lists.heap).isNone then pure none
  else if ((s.lists.cur.bind s.lists.heap).map fun cur =>
      isKeepalive c ndx iflags cur.val).getD false then pure (some (.again s))
  else match s.lists.flistForNdx s.lists.cnt ndx with
    | none => pure none
    | some none => abort
    | some (some a) => readItem c s ndx iflags a

/-- A list is announced for a directory. -/
def readList (c : ListCaller) (a d : ℕ) (s : ListReader) (dirNdx : ℤ) : In (Option Round) :=
  if (s.lists.dir.bind s.lists.heap).isNone then pure none
  else if dirNdx < 0 ∨ s.lists.dirUsed ≤ dirNdx then abort
  else do
    let r ← recvFileList c a d dirNdx s
    pure (r.map fun s => .again { s with lists := s.lists.setParent a dirNdx })

/-- One round of `read_ndx_and_attrs`, whose lists get the memory `a` and `d`; `none` is a bad
    pointer or index. -/
def readNdxStep (c : ListCaller) (a d : ℕ) (s : ListReader) : In (Option Round) := do
  let (ndx, st) ← readNdx c.o.protocolVersion s.ndx
  let s := { s with ndx := st }
  if 0 ≤ ndx then readAttrs c s ndx
  else if ndx = ndxDone then pure (some (.done s))
  else if ndx = ndxDelStats then do
    readDelStats
    pure (some (.again s))
  else if !c.o.incRecurse || c.amSender then abort
  else if ndx = ndxFlistEof then pure (some (.again { s with flistEof := true }))
  else readList c a d s (ndxFlistOffset - ndx)

/-- The file of an index in `recv_files` and `send_files`, where it is in range. -/
def Flists.fileAt (s : Flists) (ndx : ℤ) : Option FileStruct := do
  let flist ← s.cur.bind s.heap
  if 0 ≤ ndx - flist.val.ndxStart then flist.val.files[(ndx - flist.val.ndxStart).toNat]?
  else s.dirFile flist.val.parentNdx

/-! ## Runs of a sender or a receiver -/

/-- A list is announced only while a list is live. -/
def Polite (c : ListCaller) (s : ListReader) (bytes : Bytes) : Prop :=
  ∀ ndx st rest, readNdx c.o.protocolVersion s.ndx bytes = some ((ndx, st), rest) →
    ndx ≤ ndxFlistOffset → s.lists.first.isSome = true

/-- The index before the first list, where that list has no directory. -/
def Flists.BeforeFirst (s : Flists) (ndx : ℤ) : Prop :=
  ∃ f flist, s.first = some f ∧ s.heap f = some flist ∧ ndx = flist.val.ndxStart - 1 ∧
    ¬ (0 ≤ flist.val.parentNdx ∧ flist.val.parentNdx < s.dirUsed)

/-- The states of a sender or a receiver: they start with a list of any files, and then read any
    bytes, free the first list when its files are done, and, as a sender, send further lists. -/
inductive Session (c : ListCaller) : ListReader → Prop
  | start {a d : ℕ} {files : List FileStruct} {ls ls' : Flists} (rx : Receiver) : a ≠ d →
      Flists.empty.openList c.o.incRecurse a d = some ls → ls.closeList c a files = some ls' →
      Session c ⟨ls', .init, rx, false⟩
  | round {s : ListReader} {a d : ℕ} {bytes rest : Bytes} {r : Round} : Session c s →
      s.lists.heap a = none → s.lists.heap d = none → a ≠ d → Polite c s bytes →
      readNdxStep c a d s bytes = some (some r, rest) → Session c r.state
  | free {s : ListReader} {f : ℕ} {ls : Flists} : Session c s → c.o.incRecurse = true →
      s.lists.first = some f → s.lists.flistFree f = some ls → Session c { s with lists := ls }
  | extra {s : ListReader} {a : ℕ} {files : List FileStruct} {parentNdx : ℤ} {ls : Flists} :
      Session c s → c.o.incRecurse = true → s.lists.heap a = none → 0 ≤ parentNdx →
      parentNdx < s.lists.dirUsed → s.lists.extraList a files parentNdx = some ls →
      Session c { s with lists := ls }

/-- What holds of the lists besides: every list but the very first has its directory. -/
structure Flists.Indexed (incRecurse : Bool) (s : Flists) (l : List (ℕ × LiveList)) : Prop where
  holds : s.Holds l
  starts : ∀ x ∈ l, if incRecurse then 1 ≤ x.2.ndxStart else x.2.ndxStart = 0 ∧ l.length = 1
  dir : incRecurse = true → ∃ d flist, s.dir = some d ∧ s.heap d = some flist ∧ flist.prev = none
  parents : incRecurse = true → ∀ x ∈ l, x.2.ndxStart ≠ 1 →
    0 ≤ x.2.parentNdx ∧ x.2.parentNdx < s.dirUsed
  live : incRecurse = false → s.cur.isSome = true

namespace Flists

variable {s s' : Flists} {l : List (ℕ × LiveList)} {a d : ℕ} {v : LiveList}

theorem dirUsed_eq {flist : Cell LiveList} (hd : s.dir = some d) (hf : s.heap d = some flist) :
    s.dirUsed = flist.val.used := by
  rw [dirUsed, hd, Option.bind_some, hf]
  rfl

/-- A directory that joins `dir_flist` leaves the ring alone. -/
theorem Indexed.addDir (h : s.Indexed true l) (f : FileStruct) :
    ∃ s', s.addDir true f = some s' ∧ s'.Indexed true l ∧ s.dirUsed ≤ s'.dirUsed := by
  obtain ⟨d, flist, hd, hflist, hprev⟩ := h.dir rfl
  have hout := h.holds.temp_notMem hflist hprev
  rw [Flists.addDir]
  cases hdir : isDir f.mode with
  | false => exact ⟨s, rfl, h, le_rfl⟩
  | true =>
    have hd' : (s.addFile d f).dir = some d := hd
    have hnew : (s.addFile d f).heap d = some { flist with val := flist.val.addFile f } := by
      change modify s.heap d _ d = _
      rw [modify_same, hflist]
      rfl
    have hused : (s.addFile d f).dirUsed = s.dirUsed + 1 := by
      rw [dirUsed_eq hd' hnew, dirUsed_eq hd hflist, LiveList.used, LiveList.used,
        LiveList.addFile, List.length_append]
      rfl
    simp only [hd, hflist, Bool.and_self, if_true, Option.bind_eq_bind, Option.bind_some,
      Option.pure_def]
    refine ⟨s.addFile d f, rfl, ⟨h.holds.outside ?_, h.starts, ?_, ?_, nofun⟩, by omega⟩
    · intro b hb
      exact modify_other _ fun heq => hout (heq ▸ hb)
    · exact fun _ => ⟨d, _, hd', hnew, hprev⟩
    · intro _ x hx hne
      have := h.parents rfl x hx hne
      omega

/-- A file that joins the newest list leaves `dir_flist` alone. -/
theorem Indexed.modifyLast {g : LiveList → LiveList} (h : s.Indexed true (l ++ [(a, v)]))
    (hg : (g v).ndxStart = v.ndxStart ∧ (g v).flistNum = v.flistNum)
    (hp : v.ndxStart ≠ 1 → 0 ≤ (g v).parentNdx ∧ (g v).parentNdx < s.dirUsed) :
    ({ s with heap := modify s.heap a fun c => { c with val := g c.val } } : Flists).Indexed true
        (l ++ [(a, g v)]) ∧
      ({ s with heap := modify s.heap a fun c => { c with val := g c.val } } : Flists).dirUsed =
        s.dirUsed := by
  obtain ⟨d, flist, hd, hflist, hprev⟩ := h.dir rfl
  have hda : d ≠ a := by
    rintro rfl
    exact h.holds.temp_notMem hflist hprev (by simp)
  have hsame : modify s.heap a (fun c => { c with val := g c.val }) d = some flist :=
    (modify_other _ hda).trans hflist
  have hused : ({ s with heap := modify s.heap a fun c => { c with val := g c.val } } :
      Flists).dirUsed = s.dirUsed := by
    rw [dirUsed_eq hd hflist]
    exact dirUsed_eq (s := { s with heap := modify s.heap a _ }) hd hsame
  refine ⟨⟨h.holds.modifyLast hg, ?_, fun _ => ⟨d, flist, hd, hsame, hprev⟩, ?_, nofun⟩, hused⟩
  · intro x hx
    rcases List.mem_append.1 hx with hx | hx
    · exact h.starts x (List.mem_append_left _ hx)
    · rw [List.mem_singleton.1 hx]
      have := h.starts (a, v) (by simp)
      simpa [hg.1] using this
  · intro _ x hx hne
    rw [hused]
    rcases List.mem_append.1 hx with hx | hx
    · exact h.parents rfl x (List.mem_append_left _ hx) hne
    · rw [List.mem_singleton.1 hx] at hne ⊢
      exact hp (by simpa [hg.1] using hne)

/-- **The entries of a list** join the newest list and `dir_flist`. -/
theorem Indexed.fillList (h : s.Indexed true (l ++ [(a, v)]))
    (hp : v.ndxStart ≠ 1 → 0 ≤ v.parentNdx ∧ v.parentNdx < s.dirUsed) (files : List FileStruct) :
    ∃ s', fillList true a files s = some s' ∧
      s'.Indexed true (l ++ [(a, { v with files := v.files ++ files })]) ∧
      s.dirUsed ≤ s'.dirUsed := by
  induction files generalizing s v with
  | nil => exact ⟨s, rfl, by rw [List.append_nil]; exact h, le_rfl⟩
  | cons f files ih =>
    obtain ⟨s₁, hs₁, hindexed, hle⟩ := h.addDir f
    obtain ⟨hadd, hused⟩ := hindexed.modifyLast (g := LiveList.addFile f) ⟨rfl, rfl⟩
      fun hne => ⟨(hp hne).1, lt_of_lt_of_le (hp hne).2 hle⟩
    change (s₁.addFile a f).Indexed true _ at hadd
    change (s₁.addFile a f).dirUsed = s₁.dirUsed at hused
    obtain ⟨s₂, hs₂, hindexed₂, hle₂⟩ := ih hadd fun hne => by
      have := hp hne
      rw [hused]
      exact ⟨this.1, lt_of_lt_of_le this.2 hle⟩
    refine ⟨s₂, ?_, ?_, by omega⟩
    · rw [Flists.fillList, hs₁]
      exact hs₂
    · simpa [LiveList.addFile] using hindexed₂

/-- A list that is added starts behind index 1, unless it is the only one. -/
theorem Indexed.new (h : s.Indexed true l) (ha : s.heap a = none) (hpos : l ≠ [] → 0 < s.dirUsed) :
    ∃ s', s.flistNew true a = some s' ∧
      s'.Indexed true (l ++ [(a, Holds.nextList true l)]) ∧ s'.dirUsed = s.dirUsed ∧
      (l ≠ [] → (Holds.nextList true l).ndxStart ≠ 1) := by
  obtain ⟨d, flist, hd, hflist, hprev⟩ := h.dir rfl
  obtain ⟨s', hs', hholds, hframe, hdir⟩ := h.holds.new ha true
  have hda : d ≠ a := by
    rintro rfl
    rw [ha] at hflist
    cases hflist
  have hflist' : s'.heap d = some flist :=
    (hframe d hda (h.holds.temp_notMem hflist hprev)).trans hflist
  have hd' : s'.dir = some d := hdir.trans hd
  have hused : s'.dirUsed = s.dirUsed := by rw [dirUsed_eq hd' hflist', dirUsed_eq hd hflist]
  have hstart : 1 ≤ (Holds.nextList true l).ndxStart ∧
      (l ≠ [] → (Holds.nextList true l).ndxStart ≠ 1) := by
    rw [Holds.nextList]
    cases hlast : l.getLast? with
    | none => exact ⟨le_rfl, fun hne => absurd (List.getLast?_eq_none_iff.1 hlast) hne⟩
    | some x =>
      have hx : 1 ≤ x.2.ndxStart := h.starts x (List.mem_of_getLast? hlast)
      have hnn : 0 ≤ x.2.used := Int.natCast_nonneg _
      constructor
      · simp only
        omega
      · intro _
        simp only
        omega
  refine ⟨s', hs', ⟨hholds, ?_, fun _ => ⟨d, flist, hd', hflist', hprev⟩, ?_, nofun⟩, hused,
    hstart.2⟩
  · intro x hx
    rcases List.mem_append.1 hx with hx | hx
    · exact h.starts x hx
    · rw [List.mem_singleton.1 hx]
      exact hstart.1
  · intro _ x hx hne
    rw [hused]
    rcases List.mem_append.1 hx with hx | hx
    · exact h.parents rfl x hx hne
    · rw [List.mem_singleton.1 hx] at hne ⊢
      have hl : l ≠ [] := by
        rintro rfl
        exact hne rfl
      have hzero : (Holds.nextList true l).parentNdx = 0 := by
        rw [Holds.nextList]
        split <;> rfl
      exact ⟨hzero.ge, hzero ▸ hpos hl⟩

/-- The newest list gets the directory it was announced for. -/
theorem Indexed.setParent (h : s.Indexed true (l ++ [(a, v)])) {ndx : ℤ}
    (hndx : v.ndxStart ≠ 1 → 0 ≤ ndx ∧ ndx < s.dirUsed) :
    (s.setParent a ndx).Indexed true (l ++ [(a, { v with parentNdx := ndx })]) :=
  (h.modifyLast (g := fun v => { v with parentNdx := ndx }) ⟨rfl, rfl⟩ hndx).1

theorem Indexed.free {x : ℕ × LiveList} (h : s.Indexed true (x :: l)) :
    ∃ s', s.flistFree x.1 = some s' ∧ s'.Indexed true l := by
  obtain ⟨d, flist, hd, hflist, hprev⟩ := h.dir rfl
  obtain ⟨s', hs', hholds, hframe, hdir⟩ := h.holds.free
  have hflist' : s'.heap d = some flist :=
    (hframe d (h.holds.temp_notMem hflist hprev)).trans hflist
  have hd' : s'.dir = some d := hdir.trans hd
  have hused : s'.dirUsed = s.dirUsed := by rw [dirUsed_eq hd' hflist', dirUsed_eq hd hflist]
  refine ⟨s', hs', hholds, fun y hy => h.starts y (List.mem_cons_of_mem _ hy),
    fun _ => ⟨d, flist, hd', hflist', hprev⟩, ?_, nofun⟩
  intro _ y hy hne
  rw [hused]
  exact h.parents rfl y (List.mem_cons_of_mem _ hy) hne

theorem Indexed.found {incRecurse : Bool} {x : ℕ × LiveList} (h : s.Indexed incRecurse l)
    (hx : x ∈ l) : ({ s with cur := some x.1 } : Flists).Indexed incRecurse l := by
  refine ⟨⟨h.holds.ring, h.holds.follows, ?_, h.holds.cnt⟩, h.starts, h.dir, h.parents,
    fun _ => rfl⟩
  rintro b hb
  rw [← Option.some.inj hb]
  exact List.mem_map_of_mem hx

/-- A list of its own, without incremental recursion. -/
theorem Holds.fillSingle (h : s.Holds [(a, v)]) (files : List FileStruct) :
    ∃ s', fillList false a files s = some s' ∧
      s'.Holds [(a, { v with files := v.files ++ files })] ∧ s'.cur = s.cur := by
  induction files generalizing s v with
  | nil => exact ⟨s, rfl, by rw [List.append_nil]; exact h, rfl⟩
  | cons f files ih =>
    have hadd : (s.addFile a f).Holds [(a, v.addFile f)] :=
      Holds.modifyLast (l := []) (g := LiveList.addFile f) h ⟨rfl, rfl⟩
    obtain ⟨s', hs', hholds, hcur⟩ := ih hadd
    exact ⟨s', hs', by simpa [LiveList.addFile] using hholds, hcur⟩

/-- **Any process starts** with its first list at index 1, or with its only list at index 0. -/
theorem indexed_start {c : ListCaller} {files : List FileStruct} {ls ls' : Flists} (had : a ≠ d)
    (hopen : Flists.empty.openList c.o.incRecurse a d = some ls)
    (hclose : ls.closeList c a files = some ls') :
    ∃ l, ls'.Indexed c.o.incRecurse l := by
  obtain ⟨s₁, hs₁, hholds, -, -⟩ := Holds.empty.new (a := a) rfl c.o.incRecurse
  have hcell : s₁.heap a = some ⟨some a, none, Holds.nextList c.o.incRecurse []⟩ :=
    hholds.ring.linked.1
  rw [openList, hs₁] at hopen
  rw [closeList] at hclose
  cases hinc : c.o.incRecurse with
  | true =>
    rw [hinc] at hopen hclose hholds hcell
    simp only [Option.bind_eq_bind, Option.bind_some, if_true, hcell, Option.pure_def,
      Holds.nextList, List.getLast?_nil, Option.some.injEq] at hopen
    have hd : ls.heap d = some ⟨none, none, ⟨[], 0, 0, 0⟩⟩ := by
      rw [← hopen]
      exact Function.update_self ..
    have hindexed : ls.Indexed true ([] ++ [(a, Holds.nextList true [])]) := by
      have hl : ls.Holds [(a, Holds.nextList true [])] := by
        rw [← hopen]
        have hout : ({ s₁ with heap := Function.update s₁.heap d (some ⟨none, none, ⟨[], 0, 0, 0⟩⟩) } :
            Flists).Holds [(a, Holds.nextList true [])] :=
          hholds.outside fun b hb =>
            Function.update_of_ne (by rintro rfl; simp at hb; exact had hb.symm) ..
        exact ⟨hout.ring, hout.follows, hout.cur, hout.cnt⟩
      refine ⟨hl, ?_, fun _ => ⟨d, _, by rw [← hopen], hd, rfl⟩, ?_, nofun⟩
      · intro x hx
        rw [List.mem_singleton.1 hx]
        exact le_rfl
      · intro _ x hx hne
        rw [List.mem_singleton.1 hx] at hne
        exact absurd rfl hne
    obtain ⟨s₂, hs₂, hfilled, -⟩ := hindexed.fillList (fun hne => absurd rfl hne) files
    rw [hs₂] at hclose
    have hlast : s₂.heap a = some _ := hfilled.holds.ring.linked.1
    simp only [Option.bind_eq_bind, Option.bind_some, hlast] at hclose
    split_ifs at hclose
    · rw [← Option.some.inj hclose]
      exact ⟨_, hfilled.setParent fun hne => absurd rfl hne⟩
    · rw [← Option.some.inj hclose]
      exact ⟨_, hfilled⟩
  | false =>
    rw [hinc] at hopen hclose hholds
    simp only [Option.bind_eq_bind, Option.bind_some, Bool.false_eq_true, if_false,
      Option.pure_def, Option.some.injEq] at hopen
    have hl : ls.Holds [(a, Holds.nextList false [])] := by
      rw [← hopen]
      exact ⟨hholds.ring, hholds.follows, hholds.cur, hholds.cnt⟩
    obtain ⟨s₂, hs₂, hfilled, hcur⟩ := hl.fillSingle files
    rw [hs₂] at hclose
    have hlast : s₂.heap a = some _ := hfilled.ring.linked.1
    simp only [Option.bind_eq_bind, Option.bind_some, hlast, Bool.false_and, Bool.false_eq_true,
      if_false, Option.pure_def, Option.some.injEq] at hclose
    rw [← hclose]
    refine ⟨_, hfilled, ?_, nofun, nofun, fun _ => ?_⟩
    swap
    · rw [hcur, ← hopen]
      rw [Flists.flistNew] at hs₁
      rw [← Option.some.inj hs₁]
      rfl
    intro x hx
    rw [List.mem_singleton.1 hx]
    exact ⟨rfl, rfl⟩

/-! ## The file of an index -/

theorem fileAt_eq {flist : Cell LiveList} (hc : s.cur = some a) (hf : s.heap a = some flist)
    (ndx : ℤ) : s.fileAt ndx = if 0 ≤ ndx - flist.val.ndxStart then
      flist.val.files[(ndx - flist.val.ndxStart).toNat]? else s.dirFile flist.val.parentNdx := by
  rw [fileAt, hc, Option.bind_some, hf]
  rfl

theorem files_isSome {files : List FileStruct} {i : ℕ} :
    files[i]?.isSome = true ↔ i < files.length := by
  rw [Option.isSome_iff_ne_none, ne_eq, List.getElem?_eq_none_iff, not_le]

theorem dirFile_isSome (ndx : ℤ) :
    (s.dirFile ndx).isSome = true ↔ 0 ≤ ndx ∧ ndx < s.dirUsed := by
  rw [dirFile, dirUsed]
  cases hdir : s.dir.bind s.heap with
  | none =>
    simp only [Option.bind_none, Option.map_none, Option.getD_none]
    split_ifs <;> simp
  | some flist =>
    simp only [Option.bind_some, Option.map_some, Option.getD_some, LiveList.used]
    split_ifs with h0
    · rw [files_isSome]
      omega
    · simp [h0]

/-- **An index that is found** has its file in range, unless it is the one before a first list
    that has no directory. -/
theorem Indexed.fileAt_iff {incRecurse : Bool} (h : s.Indexed incRecurse l) {x : ℕ × LiveList}
    (hx : x ∈ l) {ndx : ℤ} (hndx : 0 ≤ ndx) (hin : x.2.contains ndx = true) :
    (({ s with cur := some x.1 } : Flists).fileAt ndx).isSome = true ↔ ¬ s.BeforeFirst ndx := by
  obtain ⟨flist, hflist, hval⟩ := h.holds.ring.live hx
  rw [@fileAt_eq { s with cur := some x.1 } x.1 flist rfl hflist ndx, hval]
  rw [LiveList.contains_iff] at hin
  by_cases hle : 0 ≤ ndx - x.2.ndxStart
  · rw [if_pos hle]
    have hsome : x.2.files[(ndx - x.2.ndxStart).toNat]?.isSome = true := by
      rw [files_isSome]
      omega
    refine iff_of_true hsome ?_
    rintro ⟨f, first, hf, hfirst, heq, -⟩
    -- the first list starts at or before the one that was found
    obtain ⟨y, l', rfl⟩ : ∃ y l', l = y :: l' := by
      cases l with
      | nil => cases hx
      | cons y l' => exact ⟨y, l', rfl⟩
    rw [h.holds.ring.first_eq] at hf
    obtain rfl := Option.some.inj hf
    obtain ⟨first', hfirst', hy⟩ := h.holds.ring.live (x := y) List.mem_cons_self
    rw [hfirst, Option.some.injEq] at hfirst'
    rw [hfirst', hy] at heq
    rcases List.mem_cons.1 hx with rfl | hx
    · omega
    · have := (List.pairwise_cons.1 h.holds.before).1 x hx
      have : 0 ≤ y.2.used := Int.natCast_nonneg _
      omega
  · rw [if_neg hle, dirFile_isSome]
    have hbefore : ndx = x.2.ndxStart - 1 := by omega
    have hinc : incRecurse = true := by
      by_contra hno
      have hzero := h.starts x hx
      rw [if_neg hno] at hzero
      have := hzero.1
      omega
    by_cases hone : x.2.ndxStart = 1
    · -- the list that starts at 1 is the first one
      obtain ⟨y, l', rfl⟩ : ∃ y l', l = y :: l' := by
        cases l with
        | nil => cases hx
        | cons y l' => exact ⟨y, l', rfl⟩
      have hhead : x = y := by
        rcases List.mem_cons.1 hx with heq | htail
        · exact heq
        · have hlt := (List.pairwise_cons.1 h.holds.before).1 x htail
          have hy := h.starts y List.mem_cons_self
          rw [if_pos hinc] at hy
          have : 0 ≤ y.2.used := Int.natCast_nonneg _
          omega
      constructor
      · rintro hrange ⟨f, first, hf, hfirst, -, hbad⟩
        rw [h.holds.ring.first_eq] at hf
        obtain rfl := Option.some.inj hf
        rw [hhead] at hflist hval hrange
        rw [hfirst, Option.some.injEq] at hflist
        rw [hflist, hval] at hbad
        exact hbad hrange
      · intro hno
        by_contra hbad
        refine hno ⟨x.1, flist, ?_, hflist, by rw [hval]; exact hbefore, ?_⟩
        · rw [h.holds.ring.first_eq, hhead]
          rfl
        · rw [hval]
          exact hbad
    · have hrange := h.parents hinc x hx hone
      refine iff_of_true hrange ?_
      rintro ⟨f, first, hf, hfirst, heq, hbad⟩
      obtain ⟨y, l', rfl⟩ : ∃ y l', l = y :: l' := by
        cases l with
        | nil => cases hx
        | cons y l' => exact ⟨y, l', rfl⟩
      rw [h.holds.ring.first_eq] at hf
      obtain rfl := Option.some.inj hf
      obtain ⟨first', hfirst', hy⟩ := h.holds.ring.live (x := y) List.mem_cons_self
      rw [hfirst, Option.some.injEq] at hfirst'
      rw [hfirst', hy] at heq hbad
      refine hbad (h.parents hinc y List.mem_cons_self ?_)
      omega

end Flists

/-! ## One round -/

section Round

variable {c : ListCaller} {s : ListReader} {l : List (ℕ × LiveList)} {x : ℕ × LiveList} {ndx : ℤ}
  {bytes rest : Bytes}

theorem checkTransfer_isSome {iflags : ℕ} {v : LiveList} {r : Option Unit}
    (hin : v.contains ndx = true) (h : checkTransfer iflags ndx v bytes = some (r, rest)) :
    r.isSome = true := by
  rw [LiveList.contains_iff] at hin
  rw [checkTransfer] at h
  split_ifs at h with htransfer hlo
  · cases h
  · cases hfile : v.files[(ndx - v.ndxStart).toNat]? with
    | none =>
      rw [List.getElem?_eq_none_iff] at hfile
      omega
    | some f =>
      rw [hfile] at h
      simp only at h
      split_ifs at h
      · obtain rfl : some () = r := congrArg Prod.fst (Option.some.inj h)
        rfl
      · cases h
  · obtain rfl : some () = r := congrArg Prod.fst (Option.some.inj h)
    rfl

theorem readItem_spec (h : s.lists.Holds l) (hx : x ∈ l) (hin : x.2.contains ndx = true)
    {iflags : ℕ} {r : Option Round} (hr : readItem c s ndx iflags x.1 bytes = some (r, rest)) :
    ∃ attrs, r = some (.index ndx attrs { s with lists := { s.lists with cur := some x.1 } }) := by
  obtain ⟨flist, hflist, hval⟩ := h.ring.live hx
  obtain ⟨fnamecmpType, s₁, -, hr⟩ := bind_eq_some_iff.1 hr
  obtain ⟨xname, s₂, -, hr⟩ := bind_eq_some_iff.1 hr
  rw [hflist] at hr
  obtain ⟨ok, s₃, hok, hr⟩ := bind_eq_some_iff.1 hr
  rw [hval] at hok
  obtain ⟨u, rfl⟩ := Option.isSome_iff_exists.1 (checkTransfer_isSome hin hok)
  exact ⟨_, (congrArg Prod.fst (Option.some.inj hr)).symm⟩

/-- An index that is accepted is one of a live list, which becomes `cur_flist`. -/
theorem readAttrs_spec (h : s.lists.Indexed c.o.incRecurse l) {r : Option Round}
    (hr : readAttrs c s ndx bytes = some (r, rest)) :
    r = some (.again s) ∨ ∃ attrs, ∃ x ∈ l, x.2.contains ndx = true ∧
      r = some (.index ndx attrs { s with lists := { s.lists with cur := some x.1 } }) := by
  obtain ⟨iflags, s₁, -, hr⟩ := bind_eq_some_iff.1 hr
  have hcur : (c.o.protocolVersion < 30 && (s.lists.cur.bind s.lists.heap).isNone) = false := by
    by_contra hno
    simp only [Bool.not_eq_false, Bool.and_eq_true, decide_eq_true_eq] at hno
    have hinc : c.o.incRecurse = false := by
      by_contra hyes
      have := c.protocol (by simpa using hyes)
      omega
    obtain ⟨a, ha⟩ := Option.isSome_iff_exists.1 (h.live hinc)
    obtain ⟨y, hy, rfl⟩ := List.mem_map.1 (h.holds.cur a ha)
    obtain ⟨flist, hflist, -⟩ := h.holds.ring.live hy
    rw [ha, Option.bind_some, hflist] at hno
    exact absurd hno.2 (by simp)
  rw [hcur, if_neg (by simp)] at hr
  split_ifs at hr with hkeep
  · exact .inl (congrArg Prod.fst (Option.some.inj hr)).symm
  · rw [h.holds.flistForNdx_eq h.holds.cnt.ge] at hr
    cases hfind : l.find? (·.2.contains ndx) with
    | none =>
      rw [hfind] at hr
      cases hr
    | some x =>
      rw [hfind] at hr
      have hx := List.mem_of_find?_eq_some hfind
      have hin : x.2.contains ndx = true := by simpa using List.find?_some hfind
      obtain ⟨attrs, hattrs⟩ := readItem_spec h.holds hx hin hr
      exact .inr ⟨attrs, x, hx, hin, hattrs⟩

/-- Only the directories that are known are accepted. -/
theorem readList_range {a d : ℕ} {dirNdx : ℤ} (h : s.lists.Indexed true l) {r : Option Round}
    (hr : readList c a d s dirNdx bytes = some (r, rest)) :
    0 ≤ dirNdx ∧ dirNdx < s.lists.dirUsed := by
  obtain ⟨dn, dir, hd, hdir, hprev⟩ := h.dir rfl
  rw [readList, hd, Option.bind_some, hdir, if_neg (by simp)] at hr
  split_ifs at hr with hrange
  · cases hr
  · rwa [not_or, not_lt, not_le] at hrange

/-- A list that is announced while another one is live joins the ring. -/
theorem readList_spec {a d : ℕ} {dirNdx : ℤ} (hinc : c.o.incRecurse = true)
    (h : s.lists.Indexed true l) (hl : l ≠ []) (ha : s.lists.heap a = none) {r : Option Round}
    (hr : readList c a d s dirNdx bytes = some (r, rest)) :
    ∃ s' l', r = some (.again s') ∧ s'.lists.Indexed true l' := by
  have hrange := readList_range h hr
  obtain ⟨dn, dir, hd, hdir, hprev⟩ := h.dir rfl
  rw [readList, hd, Option.bind_some, hdir, if_neg (by simp)] at hr
  split_ifs at hr with hno
  · cases hr
  · obtain ⟨s₁, hs₁, hindexed, hused, hne⟩ := h.new ha fun _ => by omega
    have hstart := hne hl
    set v := Flists.Holds.nextList true l with hv
    obtain ⟨r₁, bytes₁, hlist, hpure⟩ := bind_eq_some_iff.1 hr
    have hopen : s.lists.openList c.o.incRecurse a d = some s₁ := by
      have hcell : s₁.heap a = some _ := hindexed.holds.ring.cell
      rw [Flists.openList, hinc, hs₁]
      simp only [Option.bind_eq_bind, Option.bind_some, if_true, hcell, if_neg hstart,
        Option.pure_def]
    rw [recvFileList, hopen] at hlist
    obtain ⟨rx, bytes₂, -, hlist⟩ := bind_eq_some_iff.1 hlist
    obtain ⟨ok, bytes₃, hcheck, hlist⟩ := bind_eq_some_iff.1 hlist
    have hr₁ := congrArg Prod.fst (Option.some.inj hlist)
    -- the directory was in range before, and `dir_flist` has only grown
    have hok : ok = true := by
      by_contra hbad
      rw [checkDirs] at hcheck
      split_ifs at hcheck with hfiles hneg
      · omega
      · have hsome : (s₁.dirFile dirNdx).isSome = true := by
          rw [Flists.dirFile_isSome, hused]
          exact hrange
        obtain ⟨f, hf⟩ := Option.isSome_iff_exists.1 hsome
        rw [hf] at hcheck
        simp only [Option.map_some] at hcheck
        split_ifs at hcheck with hall
        · exact hbad (congrArg Prod.fst (Option.some.inj hcheck)).symm
        · cases hcheck
      · exact hbad (congrArg Prod.fst (Option.some.inj hcheck)).symm
    rw [hok, if_pos rfl] at hr₁
    obtain ⟨s₂, hs₂, hfilled, hle⟩ := hindexed.fillList
      (hindexed.parents rfl (a, v) (by simp)) rx.files
    have hclose : s₁.closeList c a rx.files = some s₂ := by
      have hcell : s₂.heap a = some _ := hfilled.holds.ring.cell
      rw [Flists.closeList, hinc, hs₂]
      simp only [Option.bind_eq_bind, Option.bind_some, hcell, hstart, decide_false,
        Bool.and_false, Bool.false_and, Bool.false_eq_true, if_false, Option.pure_def]
    rw [hclose] at hr₁
    obtain rfl := hr₁
    have hr := congrArg Prod.fst (Option.some.inj hpure)
    refine ⟨_, _, hr.symm, hfilled.setParent fun _ => ?_⟩
    omega

/-- **One round** meets no bad pointer or index, the lists stay indexed, and the file of an index
    is in range unless it is the one before a first list that has no directory. -/
theorem readNdxStep_spec {a d : ℕ} (h : s.lists.Indexed c.o.incRecurse l)
    (ha : s.lists.heap a = none) (hpolite : Polite c s bytes) {r : Option Round}
    (hr : readNdxStep c a d s bytes = some (r, rest)) :
    ∃ r', r = some r' ∧ (∃ l', r'.state.lists.Indexed c.o.incRecurse l') ∧
      ∀ ndx attrs s', r' = .index ndx attrs s' →
        ((s'.lists.fileAt ndx).isSome = true ↔ ¬ s.lists.BeforeFirst ndx) := by
  obtain ⟨⟨ndx, st⟩, bytes₁, hndx, hr⟩ := bind_eq_some_iff.1 hr
  dsimp only at hr
  split_ifs at hr with h0 hdone hdel hoff heof
  · rcases readAttrs_spec (s := { s with ndx := st }) h hr with rfl | ⟨attrs, x, hx, hin, rfl⟩
    · exact ⟨_, rfl, ⟨l, h⟩, fun _ _ _ heq => by cases heq⟩
    · refine ⟨_, rfl, ⟨l, h.found hx⟩, ?_⟩
      intro ndx' attrs' s' heq
      obtain ⟨rfl, -, rfl⟩ := Round.index.inj heq
      exact h.fileAt_iff hx h0 hin
  · have hr : some (.done { s with ndx := st }) = r := congrArg Prod.fst (Option.some.inj hr)
    exact ⟨_, hr.symm, ⟨l, h⟩, fun _ _ _ heq => by cases heq⟩
  · obtain ⟨u, bytes₂, -, hr⟩ := bind_eq_some_iff.1 hr
    have hr : some (.again { s with ndx := st }) = r := congrArg Prod.fst (Option.some.inj hr)
    exact ⟨_, hr.symm, ⟨l, h⟩, fun _ _ _ heq => by cases heq⟩
  · cases hr
  · have hr : some (.again { s with ndx := st, flistEof := true }) = r :=
      congrArg Prod.fst (Option.some.inj hr)
    exact ⟨_, hr.symm, ⟨l, h⟩, fun _ _ _ heq => by cases heq⟩
  · have hinc : c.o.incRecurse = true := by
      cases hcase : c.o.incRecurse with
      | true => rfl
      | false =>
        rw [hcase] at hoff
        exact absurd rfl hoff
    have hindexed : s.lists.Indexed true l := by
      rw [← hinc]
      exact h
    have hrange := readList_range (s := { s with ndx := st }) hindexed hr
    have hle : ndx ≤ ndxFlistOffset := by
      rcases hrange with ⟨hrange, -⟩
      omega
    have hfirst : s.lists.first.isSome = true := hpolite ndx st bytes₁ hndx hle
    have hl : l ≠ [] := by
      rintro rfl
      rw [hindexed.holds.ring.first_eq] at hfirst
      cases hfirst
    obtain ⟨s', l', rfl, hnew⟩ :=
      readList_spec (s := { s with ndx := st }) hinc hindexed hl ha hr
    refine ⟨_, rfl, ⟨l', ?_⟩, fun _ _ _ heq => by cases heq⟩
    rw [hinc]
    exact hnew

end Round

/-! ## The index space of any run -/

/-- A further list of a sender joins the ring, under its directory. -/
theorem Flists.Indexed.extra {s : Flists} {l : List (ℕ × LiveList)} {a : ℕ} {parentNdx : ℤ}
    (h : s.Indexed true l) (ha : s.heap a = none) (files : List FileStruct) (h0 : 0 ≤ parentNdx)
    (hlt : parentNdx < s.dirUsed) :
    ∃ s' l', s.extraList a files parentNdx = some s' ∧ s'.Indexed true l' := by
  obtain ⟨s₁, hs₁, hnew, hused, -⟩ := h.new ha fun _ => by omega
  obtain ⟨s₂, hs₂, hfilled, hle⟩ := hnew.fillList (hnew.parents rfl (a, Flists.Holds.nextList true l) (by simp)) files
  refine ⟨s₂.setParent a parentNdx, _, ?_, hfilled.setParent fun _ => ⟨h0, by omega⟩⟩
  rw [Flists.extraList, hs₁]
  simp only [Option.bind_eq_bind, Option.bind_some, hs₂, Option.pure_def]

/-- **Between two rounds** the lists of a process are a ring, each under its directory. -/
theorem Session.indexed {c : ListCaller} {s : ListReader} (h : Session c s) :
    ∃ l, s.lists.Indexed c.o.incRecurse l := by
  induction h with
  | start rx had hopen hclose => exact Flists.indexed_start had hopen hclose
  | round _ ha _ _ hpolite hround ih =>
    obtain ⟨l, hl⟩ := ih
    obtain ⟨r', hr', hnext, -⟩ := readNdxStep_spec hl ha hpolite hround
    obtain rfl := Option.some.inj hr'
    exact hnext
  | free _ hinc hf hfree ih =>
    obtain ⟨l, hl⟩ := ih
    rw [hinc] at hl ⊢
    rw [hl.holds.ring.first_eq] at hf
    obtain _ | ⟨x, l⟩ := l
    · cases hf
    · obtain rfl := Option.some.inj hf
      obtain ⟨s', hs', hnext⟩ := hl.free
      rw [hfree, Option.some.injEq] at hs'
      exact ⟨l, hs' ▸ hnext⟩
  | extra _ hinc ha h0 hlt hextra ih =>
    obtain ⟨l, hl⟩ := ih
    rw [hinc] at hl ⊢
    obtain ⟨s', l', hs', hnext⟩ := hl.extra ha _ h0 hlt
    rw [hextra, Option.some.injEq] at hs'
    exact ⟨l', hs' ▸ hnext⟩

/-- `flist_for_ndx` finds the one list that contains an index, and no list for any other index. -/
theorem Flists.Holds.finds {s : Flists} {l : List (ℕ × LiveList)} (h : s.Holds l) (ndx : ℤ) :
    ∃ found, s.flistForNdx s.cnt ndx = some (found.map Prod.fst) ∧
      ∀ x, found = some x ↔ x ∈ l ∧ x.2.contains ndx = true := by
  refine ⟨_, h.flistForNdx_eq h.cnt.ge ndx, fun x => ⟨fun hfound => ?_, ?_⟩⟩
  · exact ⟨List.mem_of_find?_eq_some hfound, by simpa using List.find?_some hfound⟩
  · rintro ⟨hx, hin⟩
    cases hfind : l.find? (·.2.contains ndx) with
    | none => exact absurd hin (List.find?_eq_none.1 hfind x hx)
    | some y =>
      have hy : y.2.contains ndx = true := by simpa using List.find?_some hfind
      rw [h.contains_unique (List.mem_of_find?_eq_some hfind) hx hy hin]

/-- **The index space of the file lists**: after any calls the live lists are a ring whose
    indexes follow one another and `flist_for_ndx` finds the list of an index. Whatever bytes
    come, no round meets a bad pointer as long as lists come while one is live, and then the file
    of an index is in range unless it is the one before a first list that has no directory. -/
theorem flists_inRange (c : ListCaller) :
    (∀ s, Reach c.o.incRecurse s → ∃ l, s.Holds l ∧
      (∀ ndx, ∃ found, s.flistForNdx s.cnt ndx = some (found.map Prod.fst) ∧
        ∀ x, found = some x ↔ x ∈ l ∧ x.2.contains ndx = true) ∧
      (∀ a, s.heap a = none → (s.flistNew c.o.incRecurse a).isSome = true) ∧
      ∀ f, s.first = some f → (s.flistFree f).isSome = true) ∧
    ∀ s, Session c s → (∃ l, s.lists.Holds l) ∧
      ∀ a d bytes r rest, s.lists.heap a = none → Polite c s bytes →
        readNdxStep c a d s bytes = some (r, rest) →
        ∃ r', r = some r' ∧ ∀ ndx attrs s', r' = .index ndx attrs s' →
          ((s'.lists.fileAt ndx).isSome = true ↔ ¬ s.lists.BeforeFirst ndx) := by
  constructor
  · intro s hreach
    obtain ⟨l, hl⟩ := hreach.holds
    refine ⟨l, hl, hl.finds, ?_, ?_⟩
    · intro a ha
      obtain ⟨s', hs', -⟩ := hl.new ha c.o.incRecurse
      rw [hs', Option.isSome_some]
    · intro f hf
      rw [hl.ring.first_eq] at hf
      obtain _ | ⟨x, l⟩ := l
      · cases hf
      · obtain rfl := Option.some.inj hf
        obtain ⟨s', hs', -⟩ := hl.free
        rw [hs', Option.isSome_some]
  · intro s hs
    obtain ⟨l, hl⟩ := hs.indexed
    refine ⟨⟨l, hl.holds⟩, ?_⟩
    intro a d bytes r rest ha hpolite hround
    obtain ⟨r', hr', -, hfile⟩ := readNdxStep_spec hl ha hpolite hround
    exact ⟨r', hr', hfile⟩

/-! ### Two sessions -/

/-- A receiver with incremental recursion. -/
def incCaller : ListCaller where
  o := ⟨31, true, true, ⟨false, fun _ => none, false, fun id _ => id⟩,
    ⟨false, fun _ => none, false, fun id _ => id⟩, false, false, false, false, false, false, 16⟩
  amSender := false
  useSafeIncFlist := true
  sanitizePaths := false
  startsWithDot := fun files => files.any (·.name = [46])
  protocol := fun _ => by decide

def namedFile (name : Bytes) (mode : ℕ) : FileStruct :=
  ⟨name, mode, 0, 0, 0, 0, 0, (0, 0), [], none, []⟩

/-- What it starts with. -/
def firstLists (files : List FileStruct) : Option Flists := do
  let ls ← Flists.empty.openList true 0 1
  ls.closeList incCaller 0 files

def started (ls : Flists) : ListReader := ⟨ls, .init, .init incCaller.o, false⟩

theorem session_started {files : List FileStruct} {ls : Flists} (h : firstLists files = some ls) :
    Session incCaller (started ls) := by
  rw [firstLists, Option.bind_eq_bind, Option.bind_eq_some_iff] at h
  obtain ⟨ls₀, hopen, hclose⟩ := h
  exact .start _ (a := 0) (d := 1) (by decide) hopen hclose

/-- Index 0 without any flags. -/
def askZero : Bytes := [1, 0, 0]

/-- Whether the file of the index that comes first is in range. -/
def asked (files : List FileStruct) : Option (ℤ × Bool) := do
  let ls ← firstLists files
  let r ← readNdxStep incCaller 2 3 (started ls) askZero
  match r.1 with
  | some (.index ndx _ s) => some (ndx, (s.lists.fileAt ndx).isSome)
  | _ => none

example : asked [namedFile [46] 0o40755, namedFile [97] 0o100644] = some (0, true) := by decide

theorem asked_eq {files : List FileStruct} {ndx : ℤ} {found : Bool} (h : asked files = some (ndx, found)) :
    ∃ ls attrs s' rest, firstLists files = some ls ∧
      readNdxStep incCaller 2 3 (started ls) askZero = some (some (.index ndx attrs s'), rest) ∧
      (s'.lists.fileAt ndx).isSome = found := by
  obtain ⟨ls, hls, h⟩ := Option.bind_eq_some_iff.1 h
  obtain ⟨⟨r, rest⟩, hr, h⟩ := Option.bind_eq_some_iff.1 h
  rcases r with _ | ⟨s' | s' | ⟨i, attrs, s'⟩⟩
  · cases h
  · cases h
  · cases h
  · obtain ⟨rfl, hfound⟩ := Prod.mk.inj (Option.some.inj h)
    exact ⟨ls, attrs, s', rest, hls, hr, hfound⟩

/-- Both indexes of a first list with "." are in range. -/
theorem flists_inRange_dot : ∃ ls attrs s' rest,
    readNdxStep incCaller 2 3 (started ls) askZero = some (some (.index 0 attrs s'), rest) ∧
      ((s'.lists.fileAt 0).isSome = true ↔ ¬ ls.BeforeFirst 0) ∧ ¬ ls.BeforeFirst 0 := by
  have hrun : asked [namedFile [46] 0o40755, namedFile [97] 0o100644] = some (0, true) := by
    decide
  obtain ⟨ls, attrs, s', rest, hls, hr, hfound⟩ := asked_eq hrun
  have hfresh : (firstLists [namedFile [46] 0o40755, namedFile [97] 0o100644]).map (fun ls =>
      (ls.heap 2).isNone && ls.first.isSome) = some true := by decide
  rw [hls, Option.map_some, Option.some.injEq, Bool.and_eq_true] at hfresh
  obtain ⟨r', heq, hfile⟩ := ((flists_inRange incCaller).2 (started ls) (session_started hls)).2
    2 3 askZero _ rest (Option.isNone_iff_eq_none.1 hfresh.1) (fun _ _ _ _ _ => hfresh.2) hr
  have hiff := hfile 0 attrs s' (Option.some.inj heq).symm
  exact ⟨ls, attrs, s', rest, hr, hiff, hiff.1 hfound⟩

/-- **A first list without "." has nothing at index 0**: `parent_ndx` is -1. -/
theorem not_flists_inRange : ¬ ∀ c s, Session c s →
    ∀ a d bytes r rest, s.lists.heap a = none → s.lists.heap d = none → a ≠ d →
      readNdxStep c a d s bytes = some (r, rest) →
      ∃ r', r = some r' ∧ ∀ ndx attrs s', r' = .index ndx attrs s' →
        (s'.lists.fileAt ndx).isSome = true := by
  intro h
  have hrun : asked [namedFile [97] 0o100644] = some (0, false) := by decide
  obtain ⟨ls, attrs, s', rest, hls, hr, hfound⟩ := asked_eq hrun
  have hfresh : (firstLists [namedFile [97] 0o100644]).map (fun ls =>
      (ls.heap 2).isNone && (ls.heap 3).isNone) = some true := by decide
  rw [hls, Option.map_some, Option.some.injEq, Bool.and_eq_true] at hfresh
  obtain ⟨r', heq, hfile⟩ := h incCaller (started ls) (session_started hls) 2 3 askZero _ rest
    (Option.isNone_iff_eq_none.1 hfresh.1) (Option.isNone_iff_eq_none.1 hfresh.2) (by decide) hr
  have hin := hfile 0 attrs s' (Option.some.inj heq).symm
  rw [hfound] at hin
  cases hin

end CloudEdgeBackup
