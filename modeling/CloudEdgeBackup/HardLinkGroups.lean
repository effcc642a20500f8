/-
  The groups of hard links in a list (`match_hard_links`, hlink.c), without incremental recursion.

  The entries that are linked are sorted by the number of their group, and one loop goes over
  them, an inner one over those of a group.  The number of the group and the index of the entry
  before are one number of the entry, so the loop overwrites what it goes by.

  * `matchGnums` is the two loops, `matchHardLinks` the function;
  * `linked` is what becomes of an entry, by the entries of its group (`matchGnums_sorted`);
  * `walk` follows the chain from an entry on, and `Grouped` says what holds of a group:
    `matchHardLinks_grouped`.

  A list that is only printed is left as it is.
-/
import CloudEdgeBackup.Rsync

namespace CloudEdgeBackup

/-- An entry; `hl` is both `F_HL_GNUM` and `F_HL_PREV`. -/
structure HlinkFile where
  hlinked : Bool
  hlinkFirst : Bool
  hlinkLast : Bool
  hlinkDone : Bool
  hl : ℤ
  ndx : ℤ
deriving DecidableEq

/-- A list in its sorted order.  With `unsort_ndx` the entries say what index they had before. -/
structure HlinkList where
  used : ℕ
  ndxStart : ℕ
  unsortNdx : Bool
  sorted : ℕ → HlinkFile

namespace HlinkList

variable (l : HlinkList)

def modify (i : ℕ) (f : HlinkFile → HlinkFile) : HlinkList :=
  { l with sorted := Function.update l.sorted i (f (l.sorted i)) }

/-- The index an entry has for the other side. -/
def wireNdx (i : ℕ) : ℤ := if l.unsortNdx then (l.sorted i).ndx else i + l.ndxStart

/-- `hlink_compare_gnum` -/
def compareGnum (a b : ℕ) : ℤ :=
  if (l.sorted a).hl ≠ (l.sorted b).hl then (if (l.sorted b).hl < (l.sorted a).hl then 1 else -1)
  else if b < a then 1 else -1

/-- The inner loop: the entry `i` is one of the group `gnum`, behind it come the indexes that are
    left.  It gives the last entry of the group and the index of the one before. -/
def gnumLoop (l : HlinkList) (gnum prev : ℤ) (i : ℕ) : List ℕ → HlinkList × ℤ × ℕ × List ℕ
  | [] => (l, prev, i, [])
  | j :: rest =>
    if gnum ≠ (l.sorted j).hl then (l, prev, i, j :: rest)
    else gnumLoop (l.modify i fun file => { file with hl := prev }) (l.sorted j).hl (l.wireNdx i) j rest

/-- What is done with the last entry of a group, which may be the only one. -/
def closeGroup (prev : ℤ) (i : ℕ) : HlinkList :=
  l.modify i fun file =>
    if prev < 0 then { file with hlinked := false, hlinkFirst := false, hlinkDone := true }
    else { file with hlinkLast := true, hl := prev }

theorem length_gnumLoop (l : HlinkList) (gnum prev : ℤ) (i : ℕ) (rest : List ℕ) :
    (gnumLoop l gnum prev i rest).2.2.2.length ≤ rest.length := by
  induction rest generalizing l gnum prev i with
  | nil => exact le_rfl
  | cons j rest ih =>
    rw [gnumLoop]
    split_ifs
    · exact le_rfl
    · exact (ih ..).trans (Nat.le_succ _)

/-- The loop over the sorted indexes. -/
def gnumsLoop (l : HlinkList) : List ℕ → HlinkList
  | [] => l
  | i :: rest =>
    let r := gnumLoop (l.modify i fun file => { file with hlinkFirst := true }) (l.sorted i).hl (-1) i rest
    gnumsLoop (r.1.closeGroup r.2.1 r.2.2.1) r.2.2.2
termination_by ndxList => ndxList.length
decreasing_by exact Nat.lt_succ_of_le (length_gnumLoop ..)

/-- `match_gnums` -/
def matchGnums (ndxList : List ℕ) : HlinkList :=
  gnumsLoop l (ndxList.mergeSort fun a b => l.compareGnum a b < 0)

/-- `match_hard_links` -/
def matchHardLinks (listOnly : Bool) : HlinkList :=
  if !listOnly ∧ l.used ≠ 0 then
    let ndxList := (List.range l.used).filter fun i => (l.sorted i).hlinked
    if ndxList ≠ [] then l.matchGnums ndxList else l
  else l

/-! ## What a list is for -/

/-- The entries of a group, in the order of the list. -/
def members (g : ℤ) : List ℕ :=
  (List.range l.used).filter fun i => (l.sorted i).hlinked ∧ (l.sorted i).hl = g

/-- The entries one comes to by the indexes of the entries before. -/
def walk (l : HlinkList) : ℕ → ℕ → List ℕ
  | 0, _ => []
  | n + 1, i => i ::
    if (l.sorted i).hl < 0 then []
    else
      match (List.range l.used).find? fun j => l.wireNdx j = (l.sorted i).hl with
      | none => []
      | some j => walk l n j

/-- A list as it was received: no entry has its place in a group yet, and with `unsort_ndx` every
    entry has an index of its own. -/
structure Received : Prop where
  first : ∀ i < l.used, (l.sorted i).hlinked = true → (l.sorted i).hlinkFirst = false
  last : ∀ i < l.used, (l.sorted i).hlinked = true → (l.sorted i).hlinkLast = false
  ndx : l.unsortNdx = true → ∀ i < l.used, 0 ≤ (l.sorted i).ndx
  ndx_inj : l.unsortNdx = true → ∀ i < l.used, ∀ j < l.used, (l.sorted i).ndx = (l.sorted j).ndx → i = j

/-- What holds of the entries that were those of the group `g`. -/
structure Grouped (l l' : HlinkList) (g : ℤ) : Prop where
  first : 2 ≤ (l.members g).length → ∀ i ∈ l.members g,
    ((l'.sorted i).hlinkFirst = true ↔ ∀ j ∈ l.members g, i ≤ j)
  last : 2 ≤ (l.members g).length → ∀ i ∈ l.members g,
    ((l'.sorted i).hlinkLast = true ↔ ∀ j ∈ l.members g, j ≤ i)
  walk : 2 ≤ (l.members g).length → ∀ i ∈ l.members g, (l'.sorted i).hlinkLast = true →
    l'.walk l.used i = (l.members g).reverse
  ends : 2 ≤ (l.members g).length → ∀ i ∈ l.members g, (l'.sorted i).hlinkFirst = true →
    (l'.sorted i).hl = -1
  single : ∀ i, l.members g = [i] → (l'.sorted i).hlinked = false ∧
    (l'.sorted i).hlinkFirst = false ∧ (l'.sorted i).hlinkDone = true

/-! ## The loops -/

variable {l : HlinkList}

/-- The index each entry of a chain gets for the one before it. -/
def prevOf (w : ℕ → ℤ) : ℤ → List ℕ → ℕ → ℤ
  | prev, [], _ => prev
  | prev, i :: rest, x => if x = i then prev else prevOf w (w i) rest x

theorem prevOf_self (w : ℕ → ℤ) (prev : ℤ) (x : ℕ) (rest : List ℕ) :
    prevOf w prev (x :: rest) x = prev := if_pos rfl

theorem prevOf_of_ne (w : ℕ → ℤ) {i x : ℕ} (h : x ≠ i) (prev : ℤ) (rest : List ℕ) :
    prevOf w prev (i :: rest) x = prevOf w (w i) rest x := if_neg h

@[simp] theorem modify_used (i : ℕ) (f : HlinkFile → HlinkFile) : (l.modify i f).used = l.used := rfl

theorem modify_sorted (i : ℕ) (f : HlinkFile → HlinkFile) (x : ℕ) :
    (l.modify i f).sorted x = if x = i then f (l.sorted i) else l.sorted x :=
  Function.update_apply ..

theorem modify_sorted_of_ne (f : HlinkFile → HlinkFile) {i x : ℕ} (h : x ≠ i) :
    (l.modify i f).sorted x = l.sorted x := Function.update_of_ne h ..

/-- A state of the list in the course of the loops: only what the loops write may be different. -/
structure During (l₀ l : HlinkList) : Prop where
  used : l.used = l₀.used
  ndxStart : l.ndxStart = l₀.ndxStart
  unsortNdx : l.unsortNdx = l₀.unsortNdx
  ndx : ∀ i, (l.sorted i).ndx = (l₀.sorted i).ndx

theorem During.wireNdx {l₀ : HlinkList} (h : During l₀ l) : l.wireNdx = l₀.wireNdx := by
  funext i
  rw [HlinkList.wireNdx, HlinkList.wireNdx, h.unsortNdx, h.ndxStart, h.ndx]

theorem During.modify {l₀ : HlinkList} (h : During l₀ l) (i : ℕ) {f : HlinkFile → HlinkFile}
    (hf : ∀ file, (f file).ndx = file.ndx) : During l₀ (l.modify i f) := by
  refine ⟨h.used, h.ndxStart, h.unsortNdx, fun x => ?_⟩
  rw [modify_sorted]
  split_ifs with hx
  · rw [hf, h.ndx, hx]
  · exact h.ndx x

/-- What the inner loop leaves of a group `i :: G`: all but the last have the one before. -/
structure Chains (l₀ l : HlinkList) (γ : ℕ → ℤ) (g prev : ℤ) (i : ℕ) (rest : List ℕ)
    (r : HlinkList × ℤ × ℕ × List ℕ) : Prop where
  during : During l₀ r.1
  left : r.2.2.2 = rest.dropWhile fun j => γ j = g
  last : (i :: rest.takeWhile fun j => γ j = g).getLast? = some r.2.2.1
  before : r.2.1 = prevOf l₀.wireNdx prev (i :: rest.takeWhile fun j => γ j = g) r.2.2.1
  sorted : ∀ x, r.1.sorted x =
    if x ∈ (i :: rest.takeWhile fun j => γ j = g).dropLast then
      { l.sorted x with hl := prevOf l₀.wireNdx prev (i :: rest.takeWhile fun j => γ j = g) x }
    else l.sorted x

theorem gnumLoop_chains {l₀ : HlinkList} {γ : ℕ → ℤ} {g prev : ℤ} {i : ℕ} {rest : List ℕ}
    (h : During l₀ l) (hγ : ∀ j ∈ rest, (l.sorted j).hl = γ j) (hnodup : (i :: rest).Nodup) :
    Chains l₀ l γ g prev i rest (gnumLoop l g prev i rest) := by
  induction rest generalizing l prev i with
  | nil => exact ⟨h, rfl, rfl, by simp [gnumLoop, prevOf], fun x => by simp [gnumLoop]⟩
  | cons j rest ih =>
    rw [gnumLoop, hγ j List.mem_cons_self]
    obtain ⟨hi, hrest⟩ := List.nodup_cons.1 hnodup
    by_cases hg : γ j = g
    · have hstep : ∀ x ∈ j :: rest, (l.modify i fun file => { file with hl := prev }).sorted x =
          l.sorted x := fun x hx => modify_sorted_of_ne _ fun heq => hi (heq ▸ hx)
      have htake : (j :: rest).takeWhile (fun j => γ j = g) = j :: rest.takeWhile fun j => γ j = g := by
        simp [hg]
      have hnot : i ∉ j :: rest.takeWhile fun j => γ j = g := by
        intro hmem
        rw [← htake] at hmem
        exact hi ((List.takeWhile_prefix _).subset hmem)
      rw [if_neg (not_not.2 hg.symm), hg]
      obtain ⟨hd, hleft, hlast, hprev, hsorted⟩ := ih
        (h.modify i (f := fun file => { file with hl := prev }) fun _ => rfl)
        (fun x hx => by rw [hstep x (List.mem_cons_of_mem _ hx), hγ x (List.mem_cons_of_mem _ hx)]) hrest
      have hne : ∀ x ∈ j :: rest.takeWhile (fun j => γ j = g), x ≠ i := fun x hx heq => hnot (heq ▸ hx)
      refine ⟨hd, ?_, ?_, ?_, fun x => ?_⟩
      · rw [hleft]
        simp [hg]
      · rw [htake, List.getLast?_cons_cons]
        exact hlast
      · rw [htake, prevOf_of_ne _ (hne _ (List.mem_of_getLast? hlast)), hprev, h.wireNdx]
      · rw [hsorted, htake, List.dropLast_cons_cons, h.wireNdx]
        rcases eq_or_ne x i with rfl | hxi
        · rw [if_neg fun hmem => hnot (List.dropLast_subset _ hmem), if_pos List.mem_cons_self,
            modify_sorted, if_pos rfl, prevOf_self]
        · simp only [List.mem_cons, hxi, false_or, modify_sorted_of_ne _ hxi, prevOf_of_ne _ hxi]
    · have htake : (j :: rest).takeWhile (fun j => γ j = g) = [] := by simp [hg]
      rw [if_pos fun heq => hg heq.symm]
      refine ⟨h, by simp [hg], by rw [htake]; rfl, by rw [htake]; simp [prevOf], fun x => ?_⟩
      rw [htake]
      simp

/-- What becomes of an entry, by the entries of its group. -/
def linked (l₀ : HlinkList) (G : List ℕ) (x : ℕ) : HlinkFile :=
  if G.length = 1 then
    { l₀.sorted x with hlinked := false, hlinkFirst := false, hlinkDone := true }
  else
    { l₀.sorted x with
      hlinkFirst := (l₀.sorted x).hlinkFirst || (G.head? = some x)
      hlinkLast := (l₀.sorted x).hlinkLast || (G.getLast? = some x)
      hl := prevOf l₀.wireNdx (-1) G x }

/-- The index before the last entry is one of the list, unless there is no other entry. -/
theorem prevOf_last_neg {w : ℕ → ℤ} {prev : ℤ} {i last : ℕ} {G : List ℕ} (hw : ∀ x ∈ i :: G, 0 ≤ w x)
    (hprev : prev < 0) (hnodup : (i :: G).Nodup) (hlast : (i :: G).getLast? = some last) :
    prevOf w prev (i :: G) last < 0 ↔ G = [] := by
  cases G with
  | nil =>
    cases hlast
    simp [prevOf, hprev]
  | cons j G =>
    rw [List.getLast?_cons_cons] at hlast
    have hne : last ≠ i := by
      rintro rfl
      exact (List.nodup_cons.1 hnodup).1 (List.mem_of_getLast? hlast)
    rw [prevOf_of_ne w hne]
    refine iff_of_false (not_lt.2 ?_) (List.cons_ne_nil _ _)
    -- every index the chain holds is one of the entries' own
    have hpos : ∀ (G : List ℕ) (prev : ℤ), 0 ≤ prev → (∀ x ∈ G, 0 ≤ w x) → ∀ x, 0 ≤ prevOf w prev G x := by
      intro G
      induction G with
      | nil => exact fun prev hprev _ x => hprev
      | cons k G ih =>
        intro prev hprev hG x
        rw [prevOf]
        split_ifs
        · exact hprev
        · exact ih _ (hG k List.mem_cons_self) (fun x hx => hG x (List.mem_cons_of_mem _ hx)) x
    exact hpos _ _ (hw i List.mem_cons_self) (fun x hx => hw x (List.mem_cons_of_mem _ hx)) last

/-- A group is done with: its entries are what `linked` says, the others as they were. -/
theorem closeGroup_sorted {l₀ : HlinkList} {γ : ℕ → ℤ} {i : ℕ} {rest : List ℕ}
    {r : HlinkList × ℤ × ℕ × List ℕ} (hw : ∀ x ∈ i :: rest, 0 ≤ l₀.wireNdx x)
    (hnodup : (i :: rest).Nodup) (hl : ∀ x ∈ i :: rest, l.sorted x = l₀.sorted x)
    (h : Chains l₀ (l.modify i fun file => { file with hlinkFirst := true }) γ (γ i) (-1) i rest r) (x : ℕ) :
    (r.1.closeGroup r.2.1 r.2.2.1).sorted x =
      if x ∈ i :: rest.takeWhile (fun j => γ j = γ i) then
        linked l₀ (i :: rest.takeWhile fun j => γ j = γ i) x
      else l.sorted x := by
  obtain ⟨-, -, hlast, hbefore, hsorted⟩ := h
  set G := rest.takeWhile fun j => γ j = γ i with hG
  have hsub : ∀ x ∈ i :: G, x ∈ i :: rest := fun x hx => by
    rcases List.mem_cons.1 hx with rfl | hx
    · exact List.mem_cons_self
    · exact List.mem_cons_of_mem _ ((List.takeWhile_prefix _).subset hx)
  have hnodupG : (i :: G).Nodup := hnodup.sublist ((List.takeWhile_prefix _).sublist.cons_cons i)
  have hneg := prevOf_last_neg (fun x hx => hw x (hsub x hx))
    (by norm_num : (-1 : ℤ) < 0) hnodupG hlast
  rw [← hbefore] at hneg
  -- the last entry is not among those the inner loop wrote to
  have hsplit : i :: G = (i :: G).dropLast ++ [r.2.2.1] := by
    rw [← List.dropLast_append_getLast? _ hlast]
    simp
  have hnotlast : r.2.2.1 ∉ (i :: G).dropLast := by
    intro hmem
    rw [hsplit] at hnodupG
    exact (List.nodup_append.1 hnodupG).2.2 _ hmem _ List.mem_cons_self rfl
  have hmemlast : r.2.2.1 ∈ i :: G := List.mem_of_getLast? hlast
  rw [closeGroup, modify_sorted]
  rcases eq_or_ne x r.2.2.1 with rfl | hx
  · rw [if_pos rfl, if_pos hmemlast, hsorted, if_neg hnotlast, linked]
    by_cases hsingle : G = []
    · have hi : r.2.2.1 = i := by
        rw [hsingle] at hlast
        exact (Option.some.inj hlast).symm
      rw [if_pos (hneg.2 hsingle), if_pos (by rw [hsingle]; rfl), hi, modify_sorted, if_pos rfl,
        hl i List.mem_cons_self]
    · have hlen : (i :: G).length ≠ 1 := by simpa using hsingle
      have hi : r.2.2.1 ≠ i := by
        intro heq
        refine hnotlast ?_
        rw [heq, List.dropLast_cons_of_ne_nil hsingle]
        exact List.mem_cons_self
      rw [if_neg (mt hneg.1 hsingle), if_neg hlen, modify_sorted_of_ne _ hi,
        hl _ (hsub _ hmemlast), hlast, ← hbefore]
      simp [hi.symm]
  · rw [if_neg hx, hsorted]
    have hmem : x ∈ i :: G ↔ x ∈ (i :: G).dropLast := by
      conv_lhs => rw [hsplit]
      simp [hx]
    by_cases hxG : x ∈ (i :: G).dropLast
    · rw [if_pos hxG, if_pos (hmem.2 hxG), linked]
      have hlen : (i :: G).length ≠ 1 := by
        intro hlen
        rw [List.length_eq_one_iff] at hlen
        obtain ⟨y, hy⟩ := hlen
        rw [hy] at hxG
        cases hxG
      have hxl : l.sorted x = l₀.sorted x := hl x (hsub x (hmem.2 hxG))
      have hnl : (i :: G).getLast? ≠ some x := by
        rw [hlast, ne_eq, Option.some.injEq]
        exact hx.symm
      rw [if_neg hlen, modify_sorted]
      rcases eq_or_ne x i with rfl | hxi
      · rw [if_pos rfl, hxl]
        simp [hnl]
      · rw [if_neg hxi, hxl]
        simp [hnl, hxi.symm]
    · rw [if_neg hxG, if_neg (mt hmem.1 hxG), modify_sorted_of_ne]
      rintro rfl
      cases hGc : G with
      | nil =>
        rw [hGc] at hlast
        exact hx (Option.some.inj hlast)
      | cons j G' =>
        rw [hGc] at hxG
        exact hxG List.mem_cons_self

/-- Behind a group of a sorted list there are other groups only. -/
theorem ne_of_mem_dropWhile {γ : ℕ → ℤ} {g : ℤ} {rest : List ℕ} (hsorted : rest.Pairwise fun a b => γ a ≤ γ b)
    (hle : ∀ y ∈ rest, g ≤ γ y) {x : ℕ} (hx : x ∈ rest.dropWhile fun j => γ j = g) : γ x ≠ g := by
  induction rest with
  | nil => cases hx
  | cons j rest ih =>
    rw [List.dropWhile_cons] at hx
    split_ifs at hx with hj
    · exact ih hsorted.of_cons (fun y hy => hle y (List.mem_cons_of_mem _ hy)) hx
    · rw [decide_eq_true_eq] at hj
      have hlt : g < γ j := lt_of_le_of_ne (hle j List.mem_cons_self) (Ne.symm hj)
      rcases List.mem_cons.1 hx with rfl | hx
      · exact hj
      · exact (hlt.trans_le (List.rel_of_pairwise_cons hsorted hx)).ne'

/-- **The loop over the sorted entries**: each becomes what its group says. -/
theorem gnumsLoop_sorted {l₀ : HlinkList} {L : List ℕ} (h : During l₀ l)
    (hl : ∀ x ∈ L, l.sorted x = l₀.sorted x) (hw : ∀ x ∈ L, 0 ≤ l₀.wireNdx x) (hnodup : L.Nodup)
    (hsorted : L.Pairwise fun a b => (l₀.sorted a).hl ≤ (l₀.sorted b).hl) :
    During l₀ (gnumsLoop l L) ∧ ∀ x, (gnumsLoop l L).sorted x =
      if x ∈ L then linked l₀ (L.filter fun j => (l₀.sorted j).hl = (l₀.sorted x).hl) x
      else l.sorted x := by
  induction hn : L.length using Nat.strong_induction_on generalizing l L with
  | _ n ih =>
  cases L with
  | nil =>
    rw [gnumsLoop]
    exact ⟨h, fun x => by simp⟩
  | cons i rest =>
    obtain ⟨hi, hrest⟩ := List.nodup_cons.1 hnodup
    set γ : ℕ → ℤ := fun j => (l₀.sorted j).hl with hγ
    set l₁ := l.modify i fun file => { file with hlinkFirst := true } with hl₁
    have hd₁ : During l₀ l₁ := h.modify i fun _ => rfl
    have hgnum : (l.sorted i).hl = γ i := by rw [hl i List.mem_cons_self]
    have hchain : Chains l₀ l₁ γ (γ i) (-1) i rest (gnumLoop l₁ (γ i) (-1) i rest) := by
      refine gnumLoop_chains hd₁ (fun j hj => ?_) hnodup
      rw [hl₁, modify_sorted_of_ne, hl j (List.mem_cons_of_mem _ hj)]
      rintro rfl
      exact hi hj
    rw [gnumsLoop]
    simp only [hgnum, ← hl₁]
    set r := gnumLoop l₁ (γ i) (-1) i rest with hr
    have hclose := closeGroup_sorted hw hnodup hl hchain
    have hleft : r.2.2.2 = rest.dropWhile fun j => γ j = γ i := hchain.left
    have hsuffix : r.2.2.2 <:+ rest := hleft ▸ List.dropWhile_suffix _
    have hother : ∀ x ∈ r.2.2.2, γ x ≠ γ i := fun x hx => ne_of_mem_dropWhile hsorted.of_cons
      (fun y hy => List.rel_of_pairwise_cons hsorted hy) (hleft ▸ hx)
    have hsame : ∀ x ∈ i :: rest.takeWhile fun j => γ j = γ i, γ x = γ i := by
      intro x hx
      rcases List.mem_cons.1 hx with rfl | hx
      · rfl
      · simpa using List.mem_takeWhile_imp hx
    have hsplit : i :: rest = (i :: rest.takeWhile fun j => γ j = γ i) ++ r.2.2.2 := by
      rw [hleft, List.cons_append, List.takeWhile_append_dropWhile]
    have hd₂ : During l₀ (r.1.closeGroup r.2.1 r.2.2.1) := hchain.during.modify _ fun file => by
      split_ifs <;> rfl
    obtain ⟨hd₃, hfinal⟩ := ih r.2.2.2.length (hn ▸ Nat.lt_succ_of_le hsuffix.length_le) hd₂
      (fun x hx => by
        rw [hclose, if_neg fun hmem => hother x hx (hsame x hmem)]
        exact hl x (List.mem_cons_of_mem _ (hsuffix.subset hx)))
      (fun x hx => hw x (List.mem_cons_of_mem _ (hsuffix.subset hx)))
      (hrest.sublist hsuffix.sublist) (hsorted.of_cons.sublist hsuffix.sublist) rfl
    refine ⟨hd₃, fun x => ?_⟩
    rw [hfinal]
    by_cases hx : x ∈ r.2.2.2
    · have hgroup : (i :: rest).filter (fun j => γ j = γ x) = r.2.2.2.filter fun j => γ j = γ x := by
        rw [hsplit, List.filter_append, List.append_left_eq_self, List.filter_eq_nil_iff]
        intro y hy heq
        rw [decide_eq_true_eq, hsame y hy] at heq
        exact hother x hx heq.symm
      rw [if_pos hx, if_pos (List.mem_cons_of_mem _ (hsuffix.subset hx)), ← hgroup]
    · rw [if_neg hx, hclose]
      have hmem : x ∈ i :: rest ↔ x ∈ i :: rest.takeWhile fun j => γ j = γ i := by
        rw [hsplit, List.mem_append]
        exact or_iff_left hx
      by_cases hxG : x ∈ i :: rest.takeWhile fun j => γ j = γ i
      · have hgroup : (i :: rest).filter (fun j => γ j = γ x) =
            i :: rest.takeWhile fun j => γ j = γ i := by
          rw [hsplit, List.filter_append, hsame x hxG, List.filter_eq_self.2, List.append_right_eq_self,
            List.filter_eq_nil_iff]
          · intro y hy heq
            exact hother y hy (of_decide_eq_true heq)
          · intro y hy
            exact decide_eq_true (hsame y hy)
        rw [if_pos hxG, if_pos (hmem.2 hxG), hgroup]
      · rw [if_neg hxG, if_neg (mt hmem.1 hxG)]

/-! ## The groups of a list -/

theorem compareGnum_neg_iff {a b : ℕ} : l.compareGnum a b < 0 ↔
    (l.sorted a).hl < (l.sorted b).hl ∨ (l.sorted a).hl = (l.sorted b).hl ∧ a ≤ b := by
  rw [compareGnum]
  split_ifs <;> omega

theorem pairwise_compareGnum (l : HlinkList) (L : List ℕ) :
    (L.mergeSort fun a b => l.compareGnum a b < 0).Pairwise fun a b => l.compareGnum a b < 0 := by
  refine (List.pairwise_mergeSort ?_ ?_ L).imp fun hab => of_decide_eq_true hab
  · intro a b c hab hbc
    rw [decide_eq_true_eq, compareGnum_neg_iff] at hab hbc ⊢
    omega
  · intro a b
    rw [Bool.or_eq_true, decide_eq_true_eq, decide_eq_true_eq, compareGnum_neg_iff, compareGnum_neg_iff]
    omega

/-- The indexes `match_gnums` goes over: those of a group in the order of the list. -/
theorem filter_mergeSort (L : List ℕ) (hL : L.Pairwise (· < ·)) (p : ℕ → Bool)
    (hp : ∀ a b, p a = true → p b = true → (l.sorted a).hl = (l.sorted b).hl) :
    (L.mergeSort fun a b => l.compareGnum a b < 0).filter p = L.filter p := by
  have hsorted := l.pairwise_compareGnum L
  refine List.Perm.eq_of_pairwise (fun a b _ _ => le_antisymm) ?_ ?_
    ((List.mergeSort_perm ..).filter p)
  · refine List.pairwise_filter.2 (hsorted.imp fun {a b} hab ha hb => ?_)
    rw [compareGnum_neg_iff] at hab
    have heq := hp a b ha hb
    omega
  · exact (hL.imp fun hab => hab.le).filter p

theorem mem_members {g : ℤ} {i : ℕ} :
    i ∈ l.members g ↔ i < l.used ∧ (l.sorted i).hlinked = true ∧ (l.sorted i).hl = g := by
  simp [members]

theorem members_ascending (l : HlinkList) (g : ℤ) : (l.members g).Pairwise (· < ·) :=
  List.pairwise_lt_range.filter _

theorem Received.wireNdx_nonneg (h : l.Received) {i : ℕ} (hi : i < l.used) : 0 ≤ l.wireNdx i := by
  rw [wireNdx]
  split_ifs with hu
  · exact h.ndx hu i hi
  · positivity

theorem Received.wireNdx_inj (h : l.Received) {i j : ℕ} (hi : i < l.used) (hj : j < l.used)
    (heq : l.wireNdx i = l.wireNdx j) : i = j := by
  rw [wireNdx, wireNdx] at heq
  split_ifs at heq with hu
  · exact h.ndx_inj hu i hi j hj heq
  · omega

/-- **Every linked entry becomes what its group says.** -/
theorem matchHardLinks_sorted (h : l.Received) : During l (l.matchHardLinks false) ∧
    ∀ i ∈ l.members (l.sorted i).hl,
      ((l.matchHardLinks false).sorted i) = linked l (l.members (l.sorted i).hl) i := by
  set ndxList := (List.range l.used).filter fun i => (l.sorted i).hlinked with hL
  have hmem : ∀ {x}, x ∈ ndxList ↔ x < l.used ∧ (l.sorted x).hlinked = true := by
    intro x
    simp [hL]
  by_cases hgo : l.used ≠ 0 ∧ ndxList ≠ []
  · have heq : l.matchHardLinks false = l.matchGnums ndxList := by
      rw [matchHardLinks, if_pos ⟨rfl, hgo.1⟩, ← hL, if_pos hgo.2]
    have hasc : ndxList.Pairwise (· < ·) := List.pairwise_lt_range.filter _
    have hperm := List.mergeSort_perm ndxList fun a b => decide (l.compareGnum a b < 0)
    obtain ⟨hd, hsorted⟩ := gnumsLoop_sorted
      (L := ndxList.mergeSort fun a b => l.compareGnum a b < 0) ⟨rfl, rfl, rfl, fun _ => rfl⟩
      (fun _ _ => rfl) (fun x hx => h.wireNdx_nonneg (hmem.1 (hperm.mem_iff.1 hx)).1)
      (hperm.nodup_iff.2 (hasc.imp fun hab => hab.ne)) (by
        refine (l.pairwise_compareGnum _).imp fun hab => ?_
        rw [compareGnum_neg_iff] at hab
        omega)
    refine ⟨heq ▸ hd, fun i hi => ?_⟩
    obtain ⟨hlt, hlinked, -⟩ := mem_members.1 hi
    have hgroup : (ndxList.mergeSort fun a b => l.compareGnum a b < 0).filter
        (fun j => (l.sorted j).hl = (l.sorted i).hl) = l.members (l.sorted i).hl := by
      rw [filter_mergeSort _ hasc, hL, List.filter_filter, members]
      · exact List.filter_congr fun j _ => by simp [Bool.and_comm]
      · intro a b ha hb
        rw [decide_eq_true_eq] at ha hb
        exact ha.trans hb.symm
    rw [heq, matchGnums, hsorted, if_pos (hperm.mem_iff.2 (hmem.2 ⟨hlt, hlinked⟩)), hgroup]
  · -- there are no linked entries
    have heq : l.matchHardLinks false = l := by
      by_cases hused : l.used ≠ 0
      · rw [matchHardLinks, if_pos ⟨rfl, hused⟩, ← hL, if_neg fun hne => hgo ⟨hused, hne⟩]
      · rw [matchHardLinks, if_neg fun hc => hused hc.2]
    refine ⟨heq.symm ▸ ⟨rfl, rfl, rfl, fun _ => rfl⟩, fun i hi => ?_⟩
    obtain ⟨hlt, hlinked, -⟩ := mem_members.1 hi
    exact absurd ⟨Nat.ne_of_gt (Nat.zero_lt_of_lt hlt), List.ne_nil_of_mem (hmem.2 ⟨hlt, hlinked⟩)⟩ hgo

/-- The chain holds, for an entry behind another one, the index of that one. -/
theorem prevOf_append (w : ℕ → ℤ) (prev : ℤ) {A B : List ℕ} {y x : ℕ} (hnodup : (A ++ y :: x :: B).Nodup) :
    prevOf w prev (A ++ y :: x :: B) x = w y := by
  induction A generalizing prev with
  | nil =>
    have hne : x ≠ y := fun heq => (List.nodup_cons.1 hnodup).1 (heq ▸ List.mem_cons_self)
    rw [List.nil_append, prevOf_of_ne w hne, prevOf_self]
  | cons a A ih =>
    obtain ⟨ha, hrest⟩ := List.nodup_cons.1 hnodup
    have hne : x ≠ a := by
      rintro rfl
      exact ha (by simp)
    rw [List.cons_append, prevOf_of_ne w hne, ih _ hrest]

/-- **From an entry of a group the chain goes back through the entries before it.** -/
theorem walk_members (h : l.Received) {g : ℤ} (hlen : 2 ≤ (l.members g).length) {A B : List ℕ} {x n : ℕ}
    (hsplit : l.members g = A ++ x :: B) (hn : A.length < n) :
    (l.matchHardLinks false).walk n x = (A ++ [x]).reverse := by
  obtain ⟨hd, hsorted⟩ := matchHardLinks_sorted h
  have hhl : ∀ i ∈ l.members g, ((l.matchHardLinks false).sorted i).hl = prevOf l.wireNdx (-1) (l.members g) i := by
    intro i hi
    obtain ⟨-, -, rfl⟩ := mem_members.1 hi
    rw [hsorted i hi, linked, if_neg (by omega)]
  have hnodup : (l.members g).Nodup := (members_ascending l g).imp fun hab => hab.ne
  induction A using List.reverseRecOn generalizing x B n with
  | nil =>
    obtain ⟨n, rfl⟩ : ∃ m, n = m + 1 := ⟨n - 1, by omega⟩
    have hfirst : ((l.matchHardLinks false).sorted x).hl = -1 := by
      rw [hhl x (by rw [hsplit]; simp), hsplit, List.nil_append, prevOf_self]
    rw [walk, hfirst, if_pos (by norm_num)]
    rfl
  | append_singleton A y ih =>
    obtain ⟨n, rfl⟩ : ∃ m, n = m + 1 := ⟨n - 1, by omega⟩
    have hsplit' : l.members g = A ++ y :: x :: B := by rw [hsplit]; simp
    have hy : y < l.used := (mem_members.1 (by rw [hsplit']; simp : y ∈ l.members g)).1
    have hx : ((l.matchHardLinks false).sorted x).hl = l.wireNdx y := by
      rw [hhl x (by rw [hsplit]; simp), hsplit', prevOf_append _ _ (hsplit' ▸ hnodup)]
    have hfind : (List.range l.used).find? (fun j => l.wireNdx j = l.wireNdx y) = some y := by
      rw [List.find?_range_eq_some]
      refine ⟨by simp, List.mem_range.2 hy, fun j hj => ?_⟩
      have hne : l.wireNdx j ≠ l.wireNdx y := fun heq =>
        absurd (h.wireNdx_inj (hj.trans hy) hy heq) hj.ne
      simp [hne]
    have hrest := ih hsplit' (n := n) (by
      rw [List.length_append, List.length_singleton] at hn
      omega)
    rw [walk, hx, if_neg (not_lt.2 (h.wireNdx_nonneg hy)), hd.used, hd.wireNdx, hfind]
    simp only [hrest]
    simp

/-- The first and the last of an ascending list. -/
theorem head?_eq_some_iff {G : List ℕ} (hG : G.Pairwise (· < ·)) {i : ℕ} (hi : i ∈ G) :
    G.head? = some i ↔ ∀ j ∈ G, i ≤ j := by
  obtain ⟨k, G, rfl⟩ := List.exists_cons_of_ne_nil (List.ne_nil_of_mem hi)
  obtain ⟨hk, -⟩ := List.pairwise_cons.1 hG
  rw [List.head?_cons, Option.some.injEq]
  constructor
  · rintro rfl j hj
    rcases List.mem_cons.1 hj with rfl | hj
    · exact le_rfl
    · exact (hk j hj).le
  · intro hle
    rcases List.mem_cons.1 hi with rfl | hi
    · rfl
    · exact absurd (hle k List.mem_cons_self) (not_le.2 (hk i hi))

theorem getLast?_eq_some_iff {G : List ℕ} (hG : G.Pairwise (· < ·)) {i : ℕ} (hi : i ∈ G) :
    G.getLast? = some i ↔ ∀ j ∈ G, j ≤ i := by
  obtain ⟨G, k, rfl⟩ : ∃ G' k, G = G' ++ [k] :=
    ⟨_, _, (List.dropLast_append_getLast (List.ne_nil_of_mem hi)).symm⟩
  have hk := (List.pairwise_append.1 hG).2.2
  rw [List.getLast?_concat, Option.some.injEq]
  constructor
  · rintro rfl j hj
    rcases List.mem_append.1 hj with hj | hj
    · exact (hk j hj _ List.mem_cons_self).le
    · exact (List.mem_singleton.1 hj).le
  · intro hle
    rcases List.mem_append.1 hi with hi | hi
    · exact absurd (hle k (by simp)) (not_le.2 (hk i hi k List.mem_cons_self))
    · exact (List.mem_singleton.1 hi).symm

/-- **The groups of hard links.**  A list that is only printed stays as it is.  In any other the
    lowest entry of a group of two or more is its first, the highest its last, from the last one
    the indexes lead through every entry of the group, one time each and downwards, to the first,
    which has -1; and an entry without a group is no longer linked. -/
theorem matchHardLinks_grouped (h : l.Received) (listOnly : Bool) :
    (listOnly = true → l.matchHardLinks listOnly = l) ∧
    (listOnly = false → ∀ g, Grouped l (l.matchHardLinks listOnly) g) := by
  constructor
  · rintro rfl
    rw [matchHardLinks, if_neg]
    simp
  rintro rfl g
  obtain ⟨-, hsorted⟩ := matchHardLinks_sorted h
  have hmem : ∀ i ∈ l.members g, (l.matchHardLinks false).sorted i = linked l (l.members g) i := by
    intro i hi
    obtain ⟨-, -, rfl⟩ := mem_members.1 hi
    exact hsorted i hi
  have hasc := members_ascending l g
  have hfirst : 2 ≤ (l.members g).length → ∀ i ∈ l.members g,
      (((l.matchHardLinks false).sorted i).hlinkFirst = true ↔ (l.members g).head? = some i) := by
    intro hlen i hi
    obtain ⟨hlt, hlinked, -⟩ := mem_members.1 hi
    rw [hmem i hi, linked, if_neg (by omega)]
    simp [h.first i hlt hlinked]
  have hlast : 2 ≤ (l.members g).length → ∀ i ∈ l.members g,
      (((l.matchHardLinks false).sorted i).hlinkLast = true ↔ (l.members g).getLast? = some i) := by
    intro hlen i hi
    obtain ⟨hlt, hlinked, -⟩ := mem_members.1 hi
    rw [hmem i hi, linked, if_neg (by omega)]
    simp [h.last i hlt hlinked]
  constructor
  case first => exact fun hlen i hi => (hfirst hlen i hi).trans (head?_eq_some_iff hasc hi)
  case last => exact fun hlen i hi => (hlast hlen i hi).trans (getLast?_eq_some_iff hasc hi)
  case walk =>
    intro hlen i hi hil
    rw [hlast hlen i hi] at hil
    have hsplit : l.members g = (l.members g).dropLast ++ i :: [] := by
      rw [← List.dropLast_append_getLast? _ hil]
      simp
    have hused : (l.members g).length ≤ l.used := by
      simpa [members] using List.length_filter_le (fun i => (l.sorted i).hlinked ∧ (l.sorted i).hl = g)
        (List.range l.used)
    rw [walk_members h hlen hsplit (by rw [List.length_dropLast]; omega), ← hsplit]
  case ends =>
    intro hlen i hi hif
    rw [hfirst hlen i hi] at hif
    obtain ⟨G, hG⟩ := List.head?_eq_some_iff.1 hif
    rw [hmem i hi, linked, if_neg (by omega), hG]
    exact prevOf_self ..
  case single =>
    intro i hi
    rw [hmem i (by rw [hi]; exact List.mem_cons_self), linked, hi]
    exact ⟨rfl, rfl, rfl⟩

/-- Two entries that are linked and one that is alone. -/
def linkedPair : HlinkList where
  used := 3
  ndxStart := 0
  unsortNdx := false
  sorted i := ⟨true, false, false, false, if i = 1 then 9 else 7, 0⟩

theorem received_linkedPair : linkedPair.Received :=
  ⟨fun _ _ _ => rfl, fun _ _ _ => rfl, fun h => absurd h (by decide), fun h => absurd h (by decide)⟩

theorem matchHardLinks_grouped_linkedPair :
    Grouped linkedPair (linkedPair.matchHardLinks false) 7 ∧
      linkedPair.members 7 = [0, 2] ∧ linkedPair.members 9 = [1] :=
  ⟨(matchHardLinks_grouped received_linkedPair false).2 rfl 7, by decide, by decide⟩

/-- In a list that is only printed no entry is the first of its group. -/
theorem not_grouped_listOnly :
    ¬∀ l : HlinkList, l.Received → ∀ listOnly g, Grouped l (l.matchHardLinks listOnly) g := by
  intro h
  have hfirst := (h linkedPair received_linkedPair true 7).first (by decide) 0 (by decide)
  exact absurd (hfirst.2 fun j _ => j.zero_le) (by decide)

end HlinkList

end CloudEdgeBackup
