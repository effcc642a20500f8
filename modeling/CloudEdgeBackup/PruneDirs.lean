/-
  Pruning empty directories (the tail of `flist_sort_and_clean` in `flist.c`).

  * the pass goes over the list once.  A directory that may turn out to be empty is pending: its
    `F_DEPTH` is negative and points back to the one before it (`unwind` follows these);
  * `Links` is the stack of the pending directories, and `Pending` says from the input which they
    are: those in a run of directories that none of the later ones seemed to come back from, where
    levels that were `skipped` on the way down count as ones to come back from;
  * `Pruned` is what the pass is for: a directory stays, with its depth, if something that is kept
    is below it, and is cleared otherwise;
  * `pruned_iff`: exactly for which lists it does that.
-/
import CloudEdgeBackup.FileList

namespace CloudEdgeBackup

/-! ## The pass -/

/-- An entry with its `F_DEPTH`, which the pass also uses for a link. -/
structure PruneFile where
  file : ListFile
  depth : ℤ

namespace PruneFile

def ofFile (f : ListFile) : PruneFile := ⟨f, f.depth⟩

def toFile (e : PruneFile) : ListFile := { e.file with depth := e.depth.toNat }

/-- `clear_file` -/
def clear (e : PruneFile) : PruneFile := ofFile e.file.clear

/-- A directory that counts in the pass: `S_ISDIR(file->mode) && F_DEPTH(file)`. -/
def isLevel (e : PruneFile) : Bool := e.file.isDir && e.depth ≠ 0

end PruneFile

/-- `sorted`, `prev_i` and `prev_depth`. -/
structure PruneState where
  sorted : ℕ → PruneFile
  prev : ℕ
  prevDepth : ℤ

/-- The loops that follow `prev_i` back as long as the depth there is negative, for `n` rounds at
    most; `j` counts down. -/
def unwind (change : ℤ → PruneFile → PruneFile) : ℕ → ℤ → PruneState → PruneState
  | 0, _, st => st
  | n + 1, j, st =>
    let fp := st.sorted st.prev
    if 0 ≤ fp.depth then st
    else unwind change n (j - 1)
      ⟨Function.update st.sorted st.prev (change j fp), (-fp.depth - 1).toNat, st.prevDepth⟩

/-- Dump empty dirs. -/
def dumpDirs (n : ℕ) (st : PruneState) : PruneState := unwind (fun _ fp => fp.clear) n 0 st

/-- Keep dirs: the pending ones get the depths from `j` down. -/
def keepDirs (n : ℕ) (j : ℤ) (st : PruneState) : PruneState :=
  unwind (fun j fp => { fp with depth := j }) n j st

/-- One entry. -/
def pruneStep (excluded : Bytes → Bool) (st : PruneState) (i : ℕ) : PruneState :=
  let file := st.sorted i
  if file.isLevel then
    -- dump empty dirs when coming back down
    let st := dumpDirs (st.prevDepth - file.depth + 1).toNat st
    let st :=
      if excluded file.file.path then keepDirs (i + 1) (file.depth - 1) st
      else { st with sorted := Function.update st.sorted i { file with depth := -st.prev - 1 } }
    ⟨st.sorted, i, file.depth⟩
  else keepDirs (i + 1) st.prevDepth st

/-- `sorted`, `low` and `high`. -/
structure PruneResult where
  sorted : ℕ → ListFile
  low : ℕ
  high : ℕ

/-- The tail pass. -/
def pruneEmptyDirs (excluded : Bytes → Bool) (sorted : ℕ → ListFile) (low high : ℕ) : PruneResult :=
  let st := (List.range' low (high + 1 - low)).foldl (pruneStep excluded) ⟨fun i => .ofFile (sorted i), 0, 0⟩
  let st := dumpDirs (high + 2) st
  let sorted := fun i => (st.sorted i).toFile
  let low' := ((List.range' low (high + 1 - low)).find? fun i => (sorted i).isActive).getD (high + 1)
  let high' := ((List.range (high + 1 - low')).find? fun j => (sorted (high - j)).isActive).elim high (high - ·)
  ⟨sorted, low', high'⟩

/-! ## The stack of pending directories -/

/-- The pending directories from `p` on. The last one points to an entry that is not pending, or to
    itself at the start of the list. -/
def Links (depth : ℕ → ℤ) : ℕ → List ℕ → Prop
  | p, [] => 0 ≤ depth p
  | p, x :: l => p = x ∧ ∃ q : ℕ, depth x = -q - 1 ∧ q ≤ x ∧ (l = [] ∧ q = x ∨ Links depth q l)

section Stack

variable {depth : ℕ → ℤ} {p x i : ℕ} {l : List ℕ} {v : ℤ}

theorem Links.update (h : Links depth p l) (hx : x ∉ l) (hv : 0 ≤ v) :
    Links (Function.update depth x v) p l := by
  induction l generalizing p with
  | nil =>
    show 0 ≤ Function.update depth x v p
    rcases eq_or_ne p x with rfl | hne
    · rwa [Function.update_self]
    · rwa [Function.update_of_ne hne]
  | cons y l ih =>
    obtain ⟨rfl, q, hq, hle, hrest⟩ := h
    obtain ⟨hne, hx⟩ := not_or.1 (mt List.mem_cons.2 hx)
    refine ⟨rfl, q, ?_, hle, hrest.imp_right fun h => ih h hx⟩
    rwa [Function.update_of_ne (Ne.symm hne)]

/-- The links only go back. -/
theorem Links.congr {depth' : ℕ → ℤ} (h : Links depth p l) (heq : ∀ x ≤ p, depth x = depth' x) :
    Links depth' p l := by
  induction l generalizing p with
  | nil =>
    show 0 ≤ depth' p
    rw [← heq p le_rfl]
    exact h
  | cons y l ih =>
    obtain ⟨rfl, q, hq, hle, hrest⟩ := h
    refine ⟨rfl, q, by rw [← heq p le_rfl, hq], hle, hrest.imp_right fun h => ih h ?_⟩
    exact fun x hx => heq x (hx.trans hle)

theorem Links.tail (h : Links depth p (x :: l)) (hx : x ∉ l) (hv : 0 ≤ v) :
    p = x ∧ depth x < 0 ∧ (-depth x - 1).toNat ≤ x ∧
      Links (Function.update depth x v) (-depth x - 1).toNat l := by
  obtain ⟨rfl, q, hq, hle, hrest⟩ := h
  have hback : (-depth p - 1).toNat = q := by omega
  refine ⟨rfl, by omega, hback.trans_le hle, ?_⟩
  rw [hback]
  rcases hrest with ⟨rfl, rfl⟩ | hrest
  · show 0 ≤ Function.update depth q v q
    rwa [Function.update_self]
  · exact hrest.update hx hv

/-- **What following the links does to the stack.** -/
theorem unwind_spec {change : ℤ → PruneFile → PruneFile} {st : PruneState} {n : ℕ} {j : ℤ}
    (h : Links (fun x => (st.sorted x).depth) st.prev l) (hl : l.Nodup)
    (hchange : ∀ (a x : ℕ), l[a]? = some x → 0 ≤ (change (j - a) (st.sorted x)).depth) :
    Links (fun x => ((unwind change n j st).sorted x).depth) (unwind change n j st).prev (l.drop n) ∧
      ((unwind change n j st).prev ≤ st.prev ∧ (unwind change n j st).prevDepth = st.prevDepth) ∧
      (∀ (a x : ℕ), a < n → l[a]? = some x → (unwind change n j st).sorted x = change (j - a) (st.sorted x)) ∧
      ∀ x, x ∉ l.take n → (unwind change n j st).sorted x = st.sorted x := by
  induction n generalizing j st l with
  | zero => exact ⟨h, ⟨le_rfl, rfl⟩, fun a x ha => absurd ha (Nat.not_lt_zero a), fun x _ => rfl⟩
  | succ n ih =>
    rw [unwind]
    cases l with
    | nil =>
      rw [if_pos (show 0 ≤ (st.sorted st.prev).depth from h)]
      exact ⟨h, ⟨le_rfl, rfl⟩, fun a x _ hx => absurd hx (by simp), fun x _ => rfl⟩
    | cons y l =>
      obtain ⟨hy, hl⟩ := List.nodup_cons.1 hl
      have hv : 0 ≤ (change j (st.sorted y)).depth := by
        have := hchange 0 y rfl
        rwa [Nat.cast_zero, sub_zero] at this
      obtain ⟨hprev, hneg, hback, htail⟩ := h.tail hy hv
      rw [hprev, if_neg (not_le.2 hneg)]
      have hdepth : (fun x => (Function.update st.sorted y (change j (st.sorted y)) x).depth) =
          Function.update (fun x => (st.sorted x).depth) y (change j (st.sorted y)).depth := by
        ext x
        rcases eq_or_ne x y with rfl | hne
        · rw [Function.update_self, Function.update_self]
        · rw [Function.update_of_ne hne, Function.update_of_ne hne]
      rw [← hdepth] at htail
      have hshift : ∀ (a : ℕ), j - 1 - (a : ℤ) = j - ((a + 1 : ℕ) : ℤ) := by
        intro a
        push_cast
        ring
      have hsame : ∀ x, x ≠ y → Function.update st.sorted y (change j (st.sorted y)) x = st.sorted x :=
        fun x hne => Function.update_of_ne hne _ _
      have hrest : ∀ (a x : ℕ), l[a]? = some x → x ≠ y := by
        rintro a x hx rfl
        exact hy (List.mem_of_getElem? hx)
      obtain ⟨hchain, ⟨hle, hprevDepth⟩, hchanged, hkept⟩ := @ih l
        ⟨Function.update st.sorted y (change j (st.sorted y)), (-(st.sorted y).depth - 1).toNat, st.prevDepth⟩
        (j - 1) htail hl fun a x hx => by
          dsimp only
          rw [hshift, hsame x (hrest a x hx)]
          exact hchange (a + 1) x hx
      refine ⟨hchain, ⟨hle.trans hback, hprevDepth⟩, ?_, ?_⟩
      · intro a x ha hx
        cases a with
        | zero =>
          obtain rfl := Option.some.inj hx
          rw [hkept y fun hmem => hy (List.mem_of_mem_take hmem)]
          dsimp only
          rw [Function.update_self, Nat.cast_zero, sub_zero]
        | succ a =>
          rw [hchanged a x (Nat.lt_of_succ_lt_succ ha) hx]
          dsimp only
          rw [hshift, hsame x (hrest a x hx)]
      · intro x hx
        obtain ⟨hne, hx⟩ := not_or.1 (mt List.mem_cons.2 hx)
        rw [hkept x hx]
        exact hsame x hne

end Stack

/-! ## What the pass is for -/

section Spec

variable (excluded : Bytes → Bool) (sorted : ℕ → ListFile) (low high : ℕ)

/-- An entry below a directory. A "." is the directory it is in. -/
def ListFile.Below (dir f : ListFile) : Prop :=
  if dir.basename = [dotChar] then ∃ d, dir.dirname = some d ∧ d.str ++ [slashChar] <+: f.path ∧ f ≠ dir
  else dir.path ++ [slashChar] <+: f.path

/-- A directory that may go. -/
def MayGo (x : ℕ) : Prop :=
  low ≤ x ∧ x ≤ high ∧ (sorted x).isDir = true ∧ (sorted x).depth ≠ 0 ∧ excluded (sorted x).path = false

/-- An entry that keeps the directories above it: it is not a directory, or one that is excluded
    from the pruning. -/
def Keeps (i : ℕ) : Prop :=
  low ≤ i ∧ i ≤ high ∧ (sorted i).isActive = true ∧
    ((sorted i).isDir = false ∨ (sorted i).depth ≠ 0 ∧ excluded (sorted i).path = true)

/-- A directory that has something to be kept below it. -/
def Needed (x : ℕ) : Prop :=
  ∃ i, Keeps excluded sorted low high i ∧ (sorted x).Below (sorted i)

/-- **A pruned list.** -/
structure Pruned (r : PruneResult) : Prop where
  kept : ∀ x, MayGo excluded sorted low high x → Needed excluded sorted low high x →
    r.sorted x = sorted x
  gone : ∀ x, MayGo excluded sorted low high x → ¬Needed excluded sorted low high x →
    r.sorted x = (sorted x).clear
  others : ∀ i, ¬MayGo excluded sorted low high i → r.sorted i = sorted i
  bounds : ∀ i, low ≤ i → i ≤ high → (r.sorted i).isActive = true →
    (low ≤ r.low ∧ r.low ≤ i ∧ (r.sorted r.low).isActive = true) ∧
      i ≤ r.high ∧ r.high ≤ high ∧ (r.sorted r.high).isActive = true

/-- The first entry behind a directory that cannot go: the run of directories ends there. -/
def RunEnds (x k : ℕ) : Prop :=
  x < k ∧ k ≤ high ∧ ¬MayGo excluded sorted low high k ∧
    ∀ t, x < t → t < k → MayGo excluded sorted low high t

/-- The last directory of a run that ends at `k`; one that is excluded belongs to it. -/
def runLast (k : ℕ) : ℕ :=
  if (sorted k).isDir = true ∧ (sorted k).depth ≠ 0 then k else k - 1

/-- The levels without a directory that are skipped on the way down from `x` to `i`. -/
def skipped (x i : ℕ) : ℕ := ∑ t ∈ Finset.Ico x i, ((sorted (t + 1)).depth - (sorted t).depth - 1)

/-- None of the directories up to `m` seems to come back to `x`. -/
def StaysIn (x m : ℕ) : Prop :=
  ∀ s, x ≤ s → s < m → (sorted x).depth + skipped sorted x s < (sorted (s + 1)).depth

/-- **The lists that are pruned as they should be**, as far as a run of directories decides it. -/
structure PruneOk (x : ℕ) : Prop where
  needed : Needed excluded sorted low high x → ∃ k, RunEnds excluded sorted low high x k ∧
    ∀ s, x ≤ s → s < runLast sorted k →
      (sorted (s + 1)).depth ≤ (sorted s).depth + 1 ∧ (sorted x).depth < (sorted (s + 1)).depth
  empty : ¬Needed excluded sorted low high x → ∀ k, RunEnds excluded sorted low high x k →
    ∃ s, x ≤ s ∧ s < runLast sorted k ∧ (sorted (s + 1)).depth ≤ (sorted x).depth + skipped sorted x s

end Spec

/-! ## The run of the pass -/

section Run

variable {excluded : Bytes → Bool} {sorted : ℕ → ListFile} {low high : ℕ} {st : PruneState} {i x k : ℕ}
  {l : List ℕ}

theorem skipped_self (x : ℕ) : skipped sorted x x = 0 := by
  rw [skipped, Finset.Ico_self, Finset.sum_empty]

theorem skipped_succ (h : x ≤ i) : skipped sorted x (i + 1) =
    skipped sorted x i + ((sorted (i + 1)).depth - (sorted i).depth - 1) := by
  rw [skipped, Finset.sum_Ico_succ_top h, skipped]

theorem StaysIn.le (h : StaysIn sorted x i) (hi : x ≤ i) :
    (sorted x).depth + skipped sorted x i ≤ (sorted i).depth := by
  induction i, hi using Nat.le_induction with
  | base => rw [skipped_self, Nat.add_zero]
  | succ i hi ih =>
    have hlt := h i hi (Nat.lt_succ_self i)
    have hle := ih fun s hs hsi => h s hs (Nat.lt_succ_of_lt hsi)
    rw [skipped_succ hi]
    omega

theorem StaysIn.mono {m m' : ℕ} (h : StaysIn sorted x m) (hm : m' ≤ m) : StaysIn sorted x m' :=
  fun s hs hsm => h s hs (lt_of_lt_of_le hsm hm)

theorem skipped_pred (h : x < i) : skipped sorted x i =
    skipped sorted x (i - 1) + ((sorted i).depth - (sorted (i - 1)).depth - 1) := by
  obtain ⟨n, rfl⟩ : ∃ n, i = n + 1 := ⟨i - 1, by omega⟩
  exact skipped_succ (Nat.le_of_lt_succ h)

variable (excluded sorted low high) in
/-- A directory that is pending in front of the entry `i`. -/
def Pending (x i : ℕ) : Prop :=
  x < i ∧ (∀ t, x ≤ t → t < i → MayGo excluded sorted low high t) ∧ StaysIn sorted x (i - 1)

variable (excluded sorted low high) in
/-- What becomes of a directory. -/
def DirOutcome (x : ℕ) (e : PruneFile) : Prop :=
  (∃ k, RunEnds excluded sorted low high x k ∧ StaysIn sorted x (runLast sorted k) ∧
      e = ⟨sorted x, ((sorted x).depth + skipped sorted x (runLast sorted k) : ℕ)⟩) ∨
    (∀ k, RunEnds excluded sorted low high x k → ¬StaysIn sorted x (runLast sorted k)) ∧
      e = .ofFile (sorted x).clear

variable (excluded sorted low high) in
/-- **The pass in front of the entry `i`**, with the pending directories `l`: the place of each from
    the top is the number of levels behind it. -/
structure PruneInv (i : ℕ) (st : PruneState) (l : List ℕ) : Prop where
  links : Links (fun x => (st.sorted x).depth) st.prev l
  pending : ∀ a x : ℕ, l[a]? = some x ↔ Pending excluded sorted low high x i ∧
    a + (sorted x).depth + skipped sorted x (i - 1) = (sorted (i - 1)).depth
  prev_le : st.prev ≤ i - 1
  prevDepth : l ≠ [] → st.prevDepth = (sorted (i - 1)).depth
  file : ∀ x ∈ l, (st.sorted x).file = sorted x
  done : ∀ x, MayGo excluded sorted low high x → x < i → x ∉ l →
    DirOutcome excluded sorted low high x (st.sorted x)
  others : ∀ x, ¬(MayGo excluded sorted low high x ∧ x < i) → st.sorted x = .ofFile (sorted x)

namespace PruneInv

theorem mem_iff (h : PruneInv excluded sorted low high i st l) :
    x ∈ l ↔ Pending excluded sorted low high x i := by
  rw [List.mem_iff_getElem?]
  constructor
  · rintro ⟨a, ha⟩
    exact ((h.pending a x).1 ha).1
  · intro hx
    refine ⟨(sorted (i - 1)).depth - ((sorted x).depth + skipped sorted x (i - 1)),
      (h.pending _ x).2 ⟨hx, ?_⟩⟩
    obtain ⟨hlt, -, hstays⟩ := hx
    have := hstays.le (by omega)
    omega

theorem nodup (h : PruneInv excluded sorted low high i st l) : l.Nodup := by
  rw [List.nodup_iff_getElem?_ne_getElem?]
  intro a b hab hb heq
  obtain ⟨x, hx⟩ : ∃ x, l[b]? = some x := ⟨_, List.getElem?_eq_getElem hb⟩
  have hpa := ((h.pending a x).1 (heq.trans hx)).2
  have hpb := ((h.pending b x).1 hx).2
  omega

theorem length_le (h : PruneInv excluded sorted low high i st l) : l.length ≤ i := by
  rw [← List.toFinset_card_of_nodup h.nodup, ← Finset.card_range i]
  refine Finset.card_le_card fun x hx => ?_
  rw [List.mem_toFinset, h.mem_iff] at hx
  exact Finset.mem_range.2 hx.1

end PruneInv

theorem pruneInv_start : PruneInv excluded sorted low high low ⟨fun i => .ofFile (sorted i), 0, 0⟩ [] where
  links := Int.natCast_nonneg _
  pending a x := by
    refine iff_of_false (by simp) ?_
    rintro ⟨⟨hlt, hall, -⟩, -⟩
    exact absurd (hall x le_rfl hlt).1 (Nat.not_le.2 hlt)
  prev_le := Nat.zero_le _
  prevDepth h := absurd rfl h
  file x hx := absurd hx List.not_mem_nil
  done x hx hlt _ := absurd hx.1 (Nat.not_le.2 hlt)
  others x _ := rfl

/-- A run of pending directories ends at the first entry that cannot go. -/
theorem Pending.ends_le (h : Pending excluded sorted low high x i) (hk : RunEnds excluded sorted low high x k) :
    i ≤ k := by
  by_contra hlt
  exact hk.2.2.1 (h.2.1 k hk.1.le (Nat.not_le.1 hlt))

theorem Pending.runEnds (h : Pending excluded sorted low high x i) (hi : i ≤ high)
    (hno : ¬MayGo excluded sorted low high i) : RunEnds excluded sorted low high x i :=
  ⟨h.1, hi, hno, fun t hxt hti => h.2.1 t hxt.le hti⟩

theorem Pending.ends_eq (h : Pending excluded sorted low high x i)
    (hno : ¬MayGo excluded sorted low high i) (hk : RunEnds excluded sorted low high x k) : k = i := by
  refine Nat.le_antisymm ?_ (h.ends_le hk)
  by_contra hlt
  exact hno (hk.2.2.2 i h.1 (Nat.not_le.1 hlt))

/-- A directory is dumped when a later one is not deeper. -/
theorem Pending.dirOutcome_clear (h : Pending excluded sorted low high x i)
    (hi : MayGo excluded sorted low high i ∨ runLast sorted i = i ∧ ¬MayGo excluded sorted low high i)
    (hup : (sorted i).depth ≤ (sorted x).depth + skipped sorted x (i - 1)) :
    DirOutcome excluded sorted low high x (.ofFile (sorted x).clear) := by
  refine .inr ⟨fun k hk hstays => ?_, rfl⟩
  have hle : i ≤ runLast sorted k := by
    rcases hi with hi | ⟨hlast, hno⟩
    · have hlt : i < k := lt_of_le_of_ne (h.ends_le hk) (by rintro rfl; exact hk.2.2.1 hi)
      rw [runLast]
      split_ifs <;> omega
    · rw [h.ends_eq hno hk, hlast]
  have hxi := h.1
  have hlt := hstays (i - 1) (by omega) (by omega)
  rw [Nat.sub_add_cancel (by omega)] at hlt
  omega

variable (excluded sorted low high) in
/-- The directory `i` has been reached, and those that it is not below were dumped. -/
structure AtLevel (i : ℕ) (st st₁ : PruneState) (l : List ℕ) : Prop where
  links : Links (fun x => (st₁.sorted x).depth) st₁.prev l
  prev_le : st₁.prev ≤ i - 1
  nodup : l.Nodup
  length_le : l.length ≤ i
  pending : ∀ a x : ℕ, l[a]? = some x ↔
    (Pending excluded sorted low high x i ∧ (sorted x).depth + skipped sorted x (i - 1) < (sorted i).depth) ∧
      a + (sorted x).depth + skipped sorted x i + 1 = (sorted i).depth
  file : ∀ x ∈ l, (st₁.sorted x).file = sorted x
  cleared : ∀ x, Pending excluded sorted low high x i →
    (sorted i).depth ≤ (sorted x).depth + skipped sorted x (i - 1) → st₁.sorted x = .ofFile (sorted x).clear
  same : ∀ x, ¬Pending excluded sorted low high x i → st₁.sorted x = st.sorted x

theorem PruneInv.atLevel (h : PruneInv excluded sorted low high i st l) (hd : (sorted i).depth ≠ 0) :
    ∃ l₁, AtLevel excluded sorted low high i st
      (dumpDirs (st.prevDepth - (sorted i).depth + 1).toNat st) l₁ := by
  obtain ⟨n, hn⟩ : ∃ n, n = (st.prevDepth - (sorted i).depth + 1).toNat := ⟨_, rfl⟩
  have hrounds : l ≠ [] → n = (sorted (i - 1)).depth + 1 - (sorted i).depth := by
    intro hne
    rw [hn, h.prevDepth hne]
    omega
  rw [← hn]
  obtain ⟨hlinks, ⟨hle, -⟩, hchanged, hkept⟩ := @unwind_spec l (fun _ fp => fp.clear) st n 0 h.links h.nodup
    fun a x _ => Int.natCast_nonneg _
  have htake : ∀ x, x ∈ l.take n ↔ ∃ a < n, l[a]? = some x := by
    intro x
    rw [List.mem_iff_getElem?]
    refine exists_congr fun a => ?_
    rw [List.getElem?_take]
    split_ifs with ha
    · exact (and_iff_right ha).symm
    · exact iff_of_false (fun h => by cases h) fun h => ha h.1
  refine ⟨l.drop n, hlinks, hle.trans h.prev_le, h.nodup.sublist (List.drop_sublist _ _), ?_, ?_, ?_, ?_, ?_⟩
  · exact ((List.drop_sublist n l).length_le).trans h.length_le
  · intro a x
    rw [List.getElem?_drop, h.pending]
    constructor
    · rintro ⟨hx, hpos⟩
      have hne : l ≠ [] := List.ne_nil_of_mem (h.mem_iff.2 hx)
      have hpred := @skipped_pred sorted _ _ hx.1
      have := hrounds hne
      exact ⟨⟨hx, by omega⟩, by omega⟩
    · rintro ⟨⟨hx, hlt⟩, hpos⟩
      have hne : l ≠ [] := List.ne_nil_of_mem (h.mem_iff.2 hx)
      have hpred := @skipped_pred sorted _ _ hx.1
      have := hrounds hne
      exact ⟨hx, by omega⟩
  · intro x hx
    have hno : x ∉ l.take n := by
      have hnodup := h.nodup
      rw [← List.take_append_drop n l] at hnodup
      exact fun hmem => (List.disjoint_of_nodup_append hnodup) hmem hx
    have hsame : (dumpDirs n st).sorted x = st.sorted x := hkept x hno
    rw [hsame]
    exact h.file x (List.mem_of_mem_drop hx)
  · intro x hx hup
    have hmem := h.mem_iff.2 hx
    obtain ⟨a, ha⟩ := List.mem_iff_getElem?.1 hmem
    have hpos := ((h.pending a x).1 ha).2
    have hlt : a < n := by
      have := hrounds (List.ne_nil_of_mem hmem)
      have hdpos := Nat.pos_of_ne_zero hd
      omega
    exact hchanged a x hlt ha
  · intro x hx
    exact hkept x fun hmem => hx (h.mem_iff.1 (List.mem_of_mem_take hmem))

theorem AtLevel.mem_iff {st₁ : PruneState} (h : AtLevel excluded sorted low high i st st₁ l) :
    x ∈ l ↔ Pending excluded sorted low high x i ∧
      (sorted x).depth + skipped sorted x (i - 1) < (sorted i).depth := by
  rw [List.mem_iff_getElem?]
  constructor
  · rintro ⟨a, ha⟩
    exact ((h.pending a x).1 ha).1
  · rintro ⟨hx, hlt⟩
    refine ⟨(sorted i).depth - 1 - ((sorted x).depth + skipped sorted x i),
      (h.pending _ x).2 ⟨⟨hx, hlt⟩, ?_⟩⟩
    have hpred := @skipped_pred sorted _ _ hx.1
    have hxi := hx.1
    have hle := hx.2.2.le (by omega)
    omega

theorem ofFile_isLevel (f : ListFile) :
    (PruneFile.ofFile f).isLevel = true ↔ f.isDir = true ∧ f.depth ≠ 0 := by
  simp [PruneFile.isLevel, PruneFile.ofFile]

/-- A directory that may go is pending behind itself. -/
theorem pending_succ (hi : MayGo excluded sorted low high i) :
    Pending excluded sorted low high x (i + 1) ↔ x = i ∨
      Pending excluded sorted low high x i ∧ (sorted x).depth + skipped sorted x (i - 1) < (sorted i).depth := by
  constructor
  · rintro ⟨hlt, hall, hstays⟩
    rcases Nat.lt_succ_iff_lt_or_eq.1 hlt with hxi | rfl
    · refine .inr ⟨⟨hxi, fun t hxt hti => hall t hxt (Nat.lt_succ_of_lt hti), hstays.mono ?_⟩, ?_⟩
      · omega
      · have := hstays (i - 1) (by omega) (by omega)
        rwa [Nat.sub_add_cancel (by omega)] at this
    · exact .inl rfl
  · rintro (rfl | ⟨⟨hlt, hall, hstays⟩, hdeep⟩)
    · refine ⟨Nat.lt_succ_self x, fun t hxt hti => ?_, fun s hs hsx => ?_⟩
      · obtain rfl : t = x := by omega
        exact hi
      · omega
    · refine ⟨Nat.lt_succ_of_lt hlt, fun t hxt hti => ?_, fun s hs hsi => ?_⟩
      · rcases Nat.lt_succ_iff_lt_or_eq.1 hti with hlt | rfl
        · exact hall t hxt hlt
        · exact hi
      · by_cases hlast : s = i - 1
        · rw [hlast, Nat.sub_add_cancel (by omega)]
          exact hdeep
        · exact hstays s hs (by omega)

/-- Nothing is pending behind an entry that cannot go. -/
theorem not_pending_succ (hi : ¬MayGo excluded sorted low high i) :
    ¬Pending excluded sorted low high x (i + 1) := by
  rintro ⟨hlt, hall, -⟩
  exact hi (hall i (Nat.le_of_lt_succ hlt) (Nat.lt_succ_self i))

/-- The step for a directory that may go. -/
theorem PruneInv.push (h : PruneInv excluded sorted low high i st l) (hi : MayGo excluded sorted low high i) :
    ∃ l', PruneInv excluded sorted low high (i + 1) (pruneStep excluded st i) l' := by
  obtain ⟨-, -, hdir, hdepth, hexcluded⟩ := id hi
  have hfile : st.sorted i = .ofFile (sorted i) := h.others i fun h' => absurd h'.2 (lt_irrefl i)
  obtain ⟨l₁, hl⟩ := h.atLevel hdepth
  obtain ⟨st₁, hst₁⟩ : ∃ st₁, st₁ = dumpDirs (st.prevDepth - (sorted i).depth + 1).toNat st := ⟨_, rfl⟩
  have hstep : pruneStep excluded st i = ⟨Function.update st₁.sorted i
      { PruneFile.ofFile (sorted i) with depth := -st₁.prev - 1 }, i, (sorted i).depth⟩ := by
    rw [pruneStep, hfile, if_pos ((ofFile_isLevel _).2 ⟨hdir, hdepth⟩), hst₁]
    dsimp only
    rw [if_neg (by rw [PruneFile.ofFile, hexcluded]; exact Bool.false_ne_true)]
    rfl
  rw [← hst₁] at hl
  obtain ⟨st₂, hst₂⟩ : ∃ st₂, st₂ = pruneStep excluded st i := ⟨_, rfl⟩
  rw [← hst₂]
  rw [hstep] at hst₂
  have hnot : i ∉ l₁ := by
    intro hmem
    obtain ⟨a, ha⟩ := List.mem_iff_getElem?.1 hmem
    exact absurd ((hl.pending a i).1 ha).1.1.1 (lt_irrefl i)
  have hself : st₂.sorted i = ⟨sorted i, -st₁.prev - 1⟩ := by
    rw [hst₂]
    exact Function.update_self i _ _
  have hupdate : ∀ x, x ≠ i → st₂.sorted x = st₁.sorted x := by
    intro x hne
    rw [hst₂]
    exact Function.update_of_ne hne _ _
  have hprev₂ : st₂.prev = i := by rw [hst₂]
  have hdepth₂ : st₂.prevDepth = (sorted i).depth := by rw [hst₂]
  refine ⟨i :: l₁, ?_, ?_, hprev₂.le, fun _ => hdepth₂, ?_, ?_, ?_⟩
  · refine ⟨hprev₂, st₁.prev, congrArg PruneFile.depth hself, hl.prev_le.trans (Nat.sub_le _ _), ?_⟩
    by_cases hprev : st₁.prev = i
    · refine .inl ⟨?_, hprev⟩
      cases hl₁ : l₁ with
      | nil => rfl
      | cons y l₂ =>
        have hlinks := hl.links
        rw [hl₁] at hlinks hnot
        exact absurd (by rw [← hprev, hlinks.1]; exact List.mem_cons_self) hnot
    · refine .inr (hl.links.congr fun x hx => ?_)
      have hle := hl.prev_le
      rw [hupdate x (by omega)]
  · intro a x
    rw [Nat.add_sub_cancel, pending_succ hi]
    cases a with
    | zero =>
      constructor
      · intro hx
        obtain rfl := Option.some.inj hx
        exact ⟨.inl rfl, by rw [skipped_self]; omega⟩
      · rintro ⟨rfl | ⟨hx, hlt⟩, hpos⟩
        · rfl
        · have hpred := @skipped_pred sorted _ _ hx.1
          have hxi := hx.1
          have hle := hx.2.2.le (by omega)
          omega
    | succ a =>
      show l₁[a]? = some x ↔ _
      rw [hl.pending]
      constructor
      · exact fun h => ⟨.inr h.1, by omega⟩
      · rintro ⟨rfl | hx, hpos⟩
        · rw [skipped_self] at hpos
          omega
        · exact ⟨hx, by omega⟩
  · intro x hx
    rcases List.mem_cons.1 hx with rfl | hx
    · rw [hself]
    · rw [hupdate x (ne_of_mem_of_not_mem hx hnot)]
      exact hl.file x hx
  · intro x hx hlt hmem
    obtain ⟨hne, hmem⟩ := not_or.1 (mt List.mem_cons.2 hmem)
    rw [hupdate x hne]
    by_cases hp : Pending excluded sorted low high x i
    · have hup : (sorted i).depth ≤ (sorted x).depth + skipped sorted x (i - 1) :=
        Nat.not_lt.1 fun hdeep => hmem (hl.mem_iff.2 ⟨hp, hdeep⟩)
      rw [hl.cleared x hp hup]
      exact hp.dirOutcome_clear (.inl hi) hup
    · rw [hl.same x hp]
      exact h.done x hx (by omega) fun hmem => hp (h.mem_iff.1 hmem)
  · intro x hx
    have hne : x ≠ i := by
      rintro rfl
      exact hx ⟨hi, Nat.lt_succ_self x⟩
    rw [hupdate x hne, hl.same x fun hp => hx ⟨hp.2.1 x le_rfl hp.1, Nat.lt_succ_of_lt hp.1⟩]
    exact h.others x fun h' => hx ⟨h'.1, Nat.lt_succ_of_lt h'.2⟩

/-- What keeping the pending directories does. -/
theorem keepDirs_spec {n : ℕ} {j : ℤ} (h : Links (fun x => (st.sorted x).depth) st.prev l) (hl : l.Nodup)
    (hn : l.length ≤ n) (hj : ∀ a x : ℕ, l[a]? = some x → (a : ℤ) ≤ j) :
    0 ≤ ((keepDirs n j st).sorted (keepDirs n j st).prev).depth ∧ (keepDirs n j st).prev ≤ st.prev ∧
      (∀ a x : ℕ, l[a]? = some x → (keepDirs n j st).sorted x = ⟨(st.sorted x).file, j - a⟩) ∧
      ∀ x, x ∉ l → (keepDirs n j st).sorted x = st.sorted x := by
  obtain ⟨hlinks, ⟨hle, -⟩, hchanged, hkept⟩ := @unwind_spec l (fun j fp => { fp with depth := j }) st n j
    h hl fun a x hx => sub_nonneg.2 (hj a x hx)
  rw [List.drop_eq_nil_of_le hn] at hlinks
  refine ⟨hlinks, hle, fun a x hx => ?_, fun x hx => hkept x fun hmem => hx (List.mem_of_mem_take hmem)⟩
  have hlt : a < l.length := by
    by_contra hle
    rw [List.getElem?_eq_none (Nat.not_lt.1 hle)] at hx
    cases hx
  exact hchanged a x (lt_of_lt_of_le hlt hn) hx

/-- The invariant behind an entry that ends the runs. -/
theorem pruneInv_succ {st₂ : PruneState} (h : PruneInv excluded sorted low high i st l)
    (hi : ¬MayGo excluded sorted low high i) (hlinks : 0 ≤ (st₂.sorted st₂.prev).depth) (hprev : st₂.prev ≤ i)
    (hout : ∀ x, Pending excluded sorted low high x i →
      DirOutcome excluded sorted low high x (st₂.sorted x))
    (hsame : ∀ x, ¬Pending excluded sorted low high x i → st₂.sorted x = st.sorted x) :
    PruneInv excluded sorted low high (i + 1) st₂ [] where
  links := hlinks
  pending a x := iff_of_false (by simp) fun h' => not_pending_succ hi h'.1
  prev_le := hprev
  prevDepth h := absurd rfl h
  file x hx := absurd hx List.not_mem_nil
  done x hx hlt _ := by
    by_cases hp : Pending excluded sorted low high x i
    · exact hout x hp
    · rw [hsame x hp]
      have hne : x ≠ i := fun heq => hi (heq ▸ hx)
      exact h.done x hx (by omega) fun hmem => hp (h.mem_iff.1 hmem)
  others x hx := by
    rw [hsame x fun hp => hx ⟨hp.2.1 x le_rfl hp.1, Nat.lt_succ_of_lt hp.1⟩]
    exact h.others x fun h' => hx ⟨h'.1, Nat.lt_succ_of_lt h'.2⟩

/-- The step for a directory that is excluded from the pruning. -/
theorem PruneInv.excludedDir (h : PruneInv excluded sorted low high i st l) (hi : i ≤ high)
    (hno : ¬MayGo excluded sorted low high i) (hdir : (sorted i).isDir = true) (hdepth : (sorted i).depth ≠ 0)
    (hexcluded : excluded (sorted i).path = true) :
    PruneInv excluded sorted low high (i + 1) (pruneStep excluded st i) [] := by
  have hfile : st.sorted i = .ofFile (sorted i) := h.others i fun h' => absurd h'.2 (lt_irrefl i)
  obtain ⟨l₁, hl⟩ := h.atLevel hdepth
  obtain ⟨st₁, hst₁⟩ : ∃ st₁, st₁ = dumpDirs (st.prevDepth - (sorted i).depth + 1).toNat st := ⟨_, rfl⟩
  have hstep : pruneStep excluded st i =
      ⟨(keepDirs (i + 1) ((sorted i).depth - 1) st₁).sorted, i, (sorted i).depth⟩ := by
    rw [pruneStep, hfile, if_pos ((ofFile_isLevel _).2 ⟨hdir, hdepth⟩), hst₁]
    dsimp only
    rw [if_pos (by rw [PruneFile.ofFile, hexcluded])]
    rfl
  rw [← hst₁] at hl
  have hlast : runLast sorted i = i := if_pos ⟨hdir, hdepth⟩
  obtain ⟨-, -, hchanged, hkept⟩ := @keepDirs_spec st₁ l₁ (i + 1) ((sorted i).depth - 1) hl.links hl.nodup
    (hl.length_le.trans (Nat.le_succ i)) fun a x hx => by
      have := ((hl.pending a x).1 hx).2
      omega
  have hnot : ¬Pending excluded sorted low high i i := fun hp => lt_irrefl i hp.1
  have hself : (keepDirs (i + 1) ((sorted i).depth - 1) st₁).sorted i = .ofFile (sorted i) := by
    rw [hkept i fun hmem => hnot (hl.mem_iff.1 hmem).1, hl.same i hnot, hfile]
  rw [hstep]
  refine pruneInv_succ h hno ?_ le_rfl ?_ ?_
  · show 0 ≤ ((keepDirs (i + 1) ((sorted i).depth - 1) st₁).sorted i).depth
    rw [hself]
    exact Int.natCast_nonneg _
  · intro x hp
    show DirOutcome excluded sorted low high x ((keepDirs (i + 1) ((sorted i).depth - 1) st₁).sorted x)
    by_cases hdeep : (sorted x).depth + skipped sorted x (i - 1) < (sorted i).depth
    · have hmem := hl.mem_iff.2 ⟨hp, hdeep⟩
      obtain ⟨a, ha⟩ := List.mem_iff_getElem?.1 hmem
      have hpos := ((hl.pending a x).1 ha).2
      have hends := hp.runEnds hi hno
      refine .inl ⟨i, hends, ?_, ?_⟩
      · rw [hlast]
        intro s hs hsi
        by_cases hlastStep : s = i - 1
        · rw [hlastStep, Nat.sub_add_cancel (by omega)]
          exact hdeep
        · exact hp.2.2 s hs (by omega)
      · rw [hchanged a x ha, hl.file x hmem, hlast]
        congr 1
        push_cast
        omega
    · rw [hkept x fun hmem => hdeep (hl.mem_iff.1 hmem).2, hl.cleared x hp (Nat.not_lt.1 hdeep)]
      exact hp.dirOutcome_clear (.inr ⟨hlast, hno⟩) (Nat.not_lt.1 hdeep)
  · intro x hp
    show (keepDirs (i + 1) ((sorted i).depth - 1) st₁).sorted x = st.sorted x
    rw [hkept x fun hmem => hp (hl.mem_iff.1 hmem).1, hl.same x hp]

/-- The step for any other entry. -/
theorem PruneInv.other (h : PruneInv excluded sorted low high i st l) (hi : i ≤ high)
    (hlevel : ¬((sorted i).isDir = true ∧ (sorted i).depth ≠ 0)) :
    PruneInv excluded sorted low high (i + 1) (pruneStep excluded st i) [] := by
  have hno : ¬MayGo excluded sorted low high i := fun h' => hlevel ⟨h'.2.2.1, h'.2.2.2.1⟩
  have hfile : st.sorted i = .ofFile (sorted i) := h.others i fun h' => absurd h'.2 (lt_irrefl i)
  have hstep : pruneStep excluded st i = keepDirs (i + 1) st.prevDepth st := by
    rw [pruneStep, hfile, if_neg fun h' => hlevel ((ofFile_isLevel _).1 h')]
  have hlast : runLast sorted i = i - 1 := if_neg hlevel
  have hcount : ∀ a x : ℕ, l[a]? = some x → (a : ℤ) ≤ st.prevDepth := by
    intro a x hx
    rw [h.prevDepth (List.ne_nil_of_mem (List.mem_of_getElem? hx))]
    have := ((h.pending a x).1 hx).2
    omega
  obtain ⟨hlinks, hprev, hchanged, hkept⟩ := @keepDirs_spec st l (i + 1) st.prevDepth h.links h.nodup
    (h.length_le.trans (Nat.le_succ i)) hcount
  rw [hstep]
  refine pruneInv_succ h hno hlinks ((hprev.trans h.prev_le).trans (Nat.sub_le _ _)) ?_ ?_
  · intro x hp
    have hmem := h.mem_iff.2 hp
    obtain ⟨a, ha⟩ := List.mem_iff_getElem?.1 hmem
    have hpos := ((h.pending a x).1 ha).2
    refine .inl ⟨i, hp.runEnds hi hno, ?_, ?_⟩
    · rw [hlast]
      exact hp.2.2
    · rw [hchanged a x ha, h.file x hmem, hlast, h.prevDepth (List.ne_nil_of_mem hmem)]
      congr 1
      push_cast
      omega
  · intro x hp
    exact hkept x fun hmem => hp (h.mem_iff.1 hmem)

/-- **One step keeps the invariant.** -/
theorem PruneInv.step (h : PruneInv excluded sorted low high i st l) (hlow : low ≤ i) (hi : i ≤ high) :
    ∃ l', PruneInv excluded sorted low high (i + 1) (pruneStep excluded st i) l' := by
  by_cases hlevel : (sorted i).isDir = true ∧ (sorted i).depth ≠ 0
  · cases hexcluded : excluded (sorted i).path with
    | false => exact h.push ⟨hlow, hi, hlevel.1, hlevel.2, hexcluded⟩
    | true =>
      refine ⟨[], h.excludedDir hi (fun h' => ?_) hlevel.1 hlevel.2 hexcluded⟩
      rw [h'.2.2.2.2] at hexcluded
      cases hexcluded
  · exact ⟨[], h.other hi hlevel⟩

/-- The invariant over the whole list. -/
theorem exists_pruneInv (n : ℕ) (hn : n ≤ high + 1 - low) :
    ∃ l, PruneInv excluded sorted low high (low + n)
      ((List.range' low n).foldl (pruneStep excluded) ⟨fun i => .ofFile (sorted i), 0, 0⟩) l := by
  induction n with
  | zero => exact ⟨[], pruneInv_start⟩
  | succ n ih =>
    obtain ⟨l, h⟩ := ih (by omega)
    rw [List.range'_concat, List.foldl_append, Nat.one_mul]
    exact h.step (Nat.le_add_right _ _) (by omega)

/-- What the pass leaves. -/
theorem pruneEmptyDirs_sorted (excluded : Bytes → Bool) (sorted : ℕ → ListFile) (low high : ℕ) :
    (∀ x, MayGo excluded sorted low high x → ∃ e, DirOutcome excluded sorted low high x e ∧
      (pruneEmptyDirs excluded sorted low high).sorted x = e.toFile) ∧
    ∀ i, ¬MayGo excluded sorted low high i →
      (pruneEmptyDirs excluded sorted low high).sorted i = sorted i := by
  obtain ⟨l, h⟩ := @exists_pruneInv excluded sorted low high (high + 1 - low) le_rfl
  obtain ⟨st, hst⟩ : ∃ st, st = (List.range' low (high + 1 - low)).foldl (pruneStep excluded)
    ⟨fun i => .ofFile (sorted i), 0, 0⟩ := ⟨_, rfl⟩
  rw [← hst] at h
  have hmayGo : ∀ x ∈ l, MayGo excluded sorted low high x := by
    intro x hx
    have hp := h.mem_iff.1 hx
    exact hp.2.1 x le_rfl hp.1
  have hlen : l.length ≤ high + 2 := by
    rw [← List.toFinset_card_of_nodup h.nodup, ← Finset.card_range (high + 2)]
    refine Finset.card_le_card fun x hx => ?_
    have := (hmayGo x (List.mem_toFinset.1 hx)).2.1
    exact Finset.mem_range.2 (by omega)
  obtain ⟨-, -, hchanged, hkept⟩ := @unwind_spec l (fun _ fp => fp.clear) st (high + 2) 0 h.links h.nodup
    fun a x _ => Int.natCast_nonneg _
  have hresult : ∀ x, (pruneEmptyDirs excluded sorted low high).sorted x =
      ((dumpDirs (high + 2) st).sorted x).toFile := by
    intro x
    rw [hst]
    rfl
  constructor
  · intro x hx
    have hlt : x < low + (high + 1 - low) := by
      have hlow := hx.1
      have hhigh := hx.2.1
      omega
    refine ⟨_, ?_, hresult x⟩
    by_cases hmem : x ∈ l
    · obtain ⟨a, ha⟩ := List.mem_iff_getElem?.1 hmem
      have hlt : a < l.length := by
        by_contra hle
        rw [List.getElem?_eq_none (Nat.not_lt.1 hle)] at ha
        cases ha
      refine .inr ⟨fun k hk _ => ?_, hchanged a x (by omega) ha⟩
      have hle := (h.mem_iff.1 hmem).ends_le hk
      have hlow := hx.1
      have hhigh := hk.2.1
      omega
    · have hsame : (dumpDirs (high + 2) st).sorted x = st.sorted x :=
        hkept x fun h' => hmem (List.mem_of_mem_take h')
      rw [hsame]
      exact h.done x hx hlt hmem
  · intro i hi
    have hsame : (dumpDirs (high + 2) st).sorted i = st.sorted i :=
      hkept i fun h' => hi (hmayGo i (List.mem_of_mem_take h'))
    rw [hresult, hsame, h.others i fun h' => hi h'.1]
    exact congrArg (fun d => { sorted i with depth := d }) (Int.toNat_natCast _)

theorem pruneEmptyDirs_bounds (excluded : Bytes → Bool) (sorted : ℕ → ListFile) (low high i : ℕ)
    (hlow : low ≤ i) (hi : i ≤ high)
    (hactive : ((pruneEmptyDirs excluded sorted low high).sorted i).isActive = true) :
    let r := pruneEmptyDirs excluded sorted low high
    (low ≤ r.low ∧ r.low ≤ i ∧ (r.sorted r.low).isActive = true) ∧
      i ≤ r.high ∧ r.high ≤ high ∧ (r.sorted r.high).isActive = true := by
  intro r
  have hfind : ∃ b, (List.range' low (high + 1 - low)).find? (fun i => (r.sorted i).isActive) = some b := by
    rw [← Option.isSome_iff_exists, List.find?_isSome]
    exact ⟨i, List.mem_range'_1.2 ⟨hlow, by omega⟩, hactive⟩
  obtain ⟨b, hb⟩ := hfind
  have hlow' : r.low = b := by
    show (List.find? (fun i => (r.sorted i).isActive) _).getD (high + 1) = b
    rw [hb]
    rfl
  obtain ⟨hbactive, hbmem, hbmin⟩ := List.find?_range'_eq_some.1 hb
  have hbi : b ≤ i := by
    by_contra hlt
    have := hbmin i hlow (Nat.not_le.1 hlt)
    rw [hactive] at this
    cases this
  have hfind' : ∃ c, (List.range (high + 1 - r.low)).find?
      (fun j => (r.sorted (high - j)).isActive) = some c := by
    rw [← Option.isSome_iff_exists, List.find?_isSome]
    refine ⟨high - i, List.mem_range.2 (by omega), ?_⟩
    rwa [Nat.sub_sub_self hi]
  obtain ⟨c, hc⟩ := hfind'
  have hhigh' : r.high = high - c := by
    show (List.find? (fun j => (r.sorted (high - j)).isActive) (List.range (high + 1 - r.low))).elim high
      (high - ·) = high - c
    rw [hc]
    rfl
  obtain ⟨hcactive, hcmem, hcmin⟩ := List.find?_range_eq_some.1 hc
  refine ⟨⟨?_, ?_, ?_⟩, ?_, ?_, ?_⟩
  · rw [hlow']
    exact (List.mem_range'_1.1 hbmem).1
  · rwa [hlow']
  · rwa [hlow']
  · rw [hhigh']
    by_contra hlt
    have := hcmin (high - i) (by omega)
    rw [Nat.sub_sub_self hi, hactive] at this
    cases this
  · rw [hhigh']
    exact Nat.sub_le _ _
  · rwa [hhigh']

end Run

/-! ## The pruned list -/

section Pruned

variable {excluded : Bytes → Bool} {sorted : ℕ → ListFile} {low high x m k : ℕ}

theorem skipped_eq_zero : skipped sorted x m = 0 ↔
    ∀ s, x ≤ s → s < m → (sorted (s + 1)).depth ≤ (sorted s).depth + 1 := by
  rw [skipped, Finset.sum_eq_zero_iff]
  constructor
  · intro h s hs hsm
    have := h s (Finset.mem_Ico.2 ⟨hs, hsm⟩)
    omega
  · intro h s hs
    obtain ⟨hs, hsm⟩ := Finset.mem_Ico.1 hs
    have := h s hs hsm
    omega

/-- A directory stays with its depth where no level is skipped. -/
theorem staysIn_skipped_iff : StaysIn sorted x m ∧ skipped sorted x m = 0 ↔
    ∀ s, x ≤ s → s < m →
      (sorted (s + 1)).depth ≤ (sorted s).depth + 1 ∧ (sorted x).depth < (sorted (s + 1)).depth := by
  rw [skipped_eq_zero]
  constructor
  · rintro ⟨hstays, hone⟩ s hs hsm
    exact ⟨hone s hs hsm, (Nat.le_add_right _ _).trans_lt (hstays s hs hsm)⟩
  · intro h
    refine ⟨fun s hs hsm => ?_, fun s hs hsm => (h s hs hsm).1⟩
    have hzero : skipped sorted x s = 0 :=
      skipped_eq_zero.2 fun t ht hts => (h t ht (hts.trans hsm)).1
    rw [hzero]
    exact (h s hs hsm).2

theorem RunEnds.unique {k' : ℕ} (h : RunEnds excluded sorted low high x k)
    (h' : RunEnds excluded sorted low high x k') : k = k' := by
  by_contra hne
  rcases Nat.lt_or_gt_of_ne hne with hlt | hlt
  · exact h.2.2.1 (h'.2.2.2 k h.1 hlt)
  · exact h'.2.2.1 (h.2.2.2 k' h'.1 hlt)

/-- **The pass prunes a list as it should exactly if all runs of directories allow it.** -/
theorem pruned_iff (excluded : Bytes → Bool) (sorted : ℕ → ListFile) (low high : ℕ) :
    Pruned excluded sorted low high (pruneEmptyDirs excluded sorted low high) ↔
      ∀ x, MayGo excluded sorted low high x → PruneOk excluded sorted low high x := by
  obtain ⟨houtcome, hothers⟩ := pruneEmptyDirs_sorted excluded sorted low high
  have hclear : ∀ x, MayGo excluded sorted low high x → ∀ d, { sorted x with depth := d } ≠ (sorted x).clear := by
    intro x hx d heq
    have := congrArg ListFile.isDir heq
    rw [show ({ sorted x with depth := d } : ListFile).isDir = (sorted x).isDir from rfl, hx.2.2.1] at this
    cases this
  constructor
  · intro h x hx
    obtain ⟨e, hout, hr⟩ := houtcome x hx
    constructor
    · intro hneeded
      rcases hout with ⟨k, hk, hstays, rfl⟩ | ⟨-, rfl⟩
      · refine ⟨k, hk, staysIn_skipped_iff.1 ⟨hstays, ?_⟩⟩
        have hdepth := congrArg ListFile.depth (hr.symm.trans (h.kept x hx hneeded))
        have hnat : (((sorted x).depth + skipped sorted x (runLast sorted k) : ℕ) : ℤ).toNat =
            (sorted x).depth := hdepth
        rw [Int.toNat_natCast] at hnat
        omega
      · exact absurd ((h.kept x hx hneeded).symm.trans hr) (hclear x hx (sorted x).depth)
    · intro hneeded k hk
      by_contra hno
      have hstays : StaysIn sorted x (runLast sorted k) := by
        intro s hs hsm
        by_contra hle
        exact hno ⟨s, hs, hsm, Nat.not_lt.1 hle⟩
      rcases hout with ⟨k', -, -, rfl⟩ | ⟨hall, -⟩
      · exact hclear x hx _ (hr.symm.trans (h.gone x hx hneeded))
      · exact hall k hk hstays
  · intro h
    refine ⟨?_, ?_, hothers, pruneEmptyDirs_bounds excluded sorted low high⟩
    · intro x hx hneeded
      obtain ⟨k, hk, hsteps⟩ := (h x hx).needed hneeded
      obtain ⟨hstays, hzero⟩ := staysIn_skipped_iff.2 hsteps
      obtain ⟨e, ⟨k', hk', -, rfl⟩ | ⟨hall, -⟩, hr⟩ := houtcome x hx
      · rw [hr, hk'.unique hk, hzero]
        rfl
      · exact absurd hstays (hall k hk)
    · intro x hx hneeded
      obtain ⟨e, ⟨k, hk, hstays, -⟩ | ⟨-, rfl⟩, hr⟩ := houtcome x hx
      · obtain ⟨s, hs, hsm, hle⟩ := (h x hx).empty hneeded k hk
        exact absurd (hstays s hs hsm) (Nat.not_lt.2 hle)
      · exact hr

/-- Two directories, and an entry between them that was removed as a duplicate of the first one. -/
def duplicateDirs : ℕ → ListFile
  | 0 => ⟨none, [97], true, false, false, false, 0, 1⟩
  | 1 => ListFile.empty.clear
  | 2 => ⟨none, [98], true, false, false, false, 0, 1⟩
  | _ => .empty

/-- The removed entry keeps the directory in front of it, which is empty. -/
theorem not_pruned_duplicate : ¬Pruned (fun _ => false) duplicateDirs 0 2
    (pruneEmptyDirs (fun _ => false) duplicateDirs 0 2) := by
  intro h
  have hactive : ((pruneEmptyDirs (fun _ => false) duplicateDirs 0 2).sorted 0).isActive = true := by decide
  have hmayGo : MayGo (fun _ => false) duplicateDirs 0 2 0 := ⟨le_rfl, Nat.zero_le _, rfl, by decide, rfl⟩
  have hneeded : ¬Needed (fun _ => false) duplicateDirs 0 2 0 := by
    rintro ⟨i, ⟨-, hi, hact, hkeeps⟩, -⟩
    interval_cases i
    · exact absurd hkeeps (by decide)
    · exact absurd hact (by decide)
    · exact absurd hkeeps (by decide)
  rw [h.gone 0 hmayGo hneeded] at hactive
  exact absurd hactive (by decide)

end Pruned

end CloudEdgeBackup
