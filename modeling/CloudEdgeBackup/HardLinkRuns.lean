/-
  Runs of the generator over a group of hard links.

  * `LinkTable.Holds.run`: every event leads from one of the states of a group to another, with
    new lists (`LinkTable.Holds.extend`) and the end of the first one (`LinkTable.Holds.free`);
  * `hard_links_proceed`: no event ends in an error exit, a failed assertion or an endless loop;
  * `hard_links_counted`: `in_progress` counts what waits, no list is freed in which an entry waits;
  * `hard_links_complete`: in the end every entry was skipped or is linked to the one that was
    finished.
-/
import CloudEdgeBackup.HardLinkGenerator

namespace CloudEdgeBackup

namespace LinkTable

variable {c : LinkOrder} {t : LinkTable}

/-! ## Events -/

section Events

variable {x : ℕ → ℤ}

/-- A change of counters that nothing of the group depends on. -/
theorem Base.recount (hb : t.Base c) (ip : ℕ → ℤ) (ot : ℕ → ℕ) :
    { t with inProgress := ip, others := ot }.Base c :=
  ⟨hb.blank, hb.fresh, hb.flistOf_lt, hb.cur_le, hb.cur_le_received, hb.first_le, hb.next_le, hb.near,
    hb.head, hb.last, hb.plain⟩

theorem Pending.recount {all counted : List ℕ} (h : t.Pending c x all counted) {ip : ℕ → ℤ}
    {ot : ℕ → ℕ} {y : ℕ → ℤ} (hcount : ∀ l, ip l - ot l - y l = t.inProgress l - t.others l - x l) :
    { t with inProgress := ip, others := ot }.Pending c y all counted := by
  refine ⟨h.base.recount ip ot, h.node, h.waits, h.undone, h.live, fun hrec l => ?_, h.made⟩
  have hl := h.counts hrec l
  have := hcount l
  show ip l = ot l + _ + y l
  omega

/-- `in_progress` may change by what is counted besides the group. -/
theorem Holds.recount (h : t.Holds c x) {ip : ℕ → ℤ} {ot : ℕ → ℕ} {y : ℕ → ℤ}
    (hcount : ∀ l, ip l - ot l - y l = t.inProgress l - t.others l - x l) :
    { t with inProgress := ip, others := ot }.Holds c y := by
  cases h with
  | idle ws h =>
    exact .idle ws
      { toPending := h.recount hcount
        order := h.order
        chain := h.chain.congr fun _ _ => rfl
        unsent := h.unsent
        active := h.active
        hlinkList := h.hlinkList
        ahead := h.ahead }
  | transfer i qs ws h =>
    exact .transfer i qs ws
      { toPending := h.recount hcount
        order := h.order
        queue := h.queue
        chain := h.chain.congr fun _ _ => rfl
        sent := h.sent
        unsent := h.unsent
        flight := h.flight }
  | finished i h =>
    refine .finished i ⟨h.base.recount ip ot, h.node, h.past, h.unskipped, h.done, h.first, h.linked,
      h.unnamed, fun hrec l => ?_, h.active, h.hlinkList, h.made_nodup, h.made⟩
    have hl := h.counts hrec l
    have := hcount l
    show ip l = ot l + y l
    omega

theorem Holds.generate (hc : c.Ok) {o : ℕ → LinkOutcome} (ho : Sound o) (h : t.Holds c x) {i : ℕ}
    (hi : t.Fresh c i) (hnext : ∀ j ∈ t.members, t.next ≤ c.pos j → c.pos i ≤ c.pos j) :
    ∃ t', { t with next := c.pos i + 1 }.recvGenerator c o i = some t' ∧ t'.Holds c x := by
  cases h with
  | idle ws h => exact h.generate hc ho hi hnext
  | transfer l qs ws h => exact h.generate hc hi hnext
  | finished l h => exact h.generate hc ho hi hnext

/-- A change of the lists that came, of the one the generator has come to and of the first one that
    is left. -/
theorem Holds.relist (h : t.Holds c x) (received cur first : ℕ)
    (hbase : t.Base c → { t with received := received, curFlist := cur, firstFlist := first }.Base c)
    (hlive : ∀ i, t.Waits c i → first ≤ c.flistOf i)
    (hdead : ∀ z, t.flistForNdx c z = none →
      { t with received := received, curFlist := cur, firstFlist := first }.flistForNdx c z = none) :
    { t with received := received, curFlist := cur, firstFlist := first }.Holds c x := by
  have hpending : ∀ {all counted}, t.Pending c x all counted →
      { t with received := received, curFlist := cur, firstFlist := first }.Pending c x all counted := fun h =>
    ⟨hbase h.base, h.node, h.waits, h.undone, fun i hi => hlive i ((h.waits i).1 hi), h.counts, h.made⟩
  cases h with
  | idle ws h =>
    exact .idle ws
      { toPending := hpending h.toPending
        order := h.order
        chain := h.chain.congr fun _ _ => rfl
        unsent := h.unsent
        active := h.active
        hlinkList := h.hlinkList
        ahead := h.ahead }
  | transfer i qs ws h =>
    exact .transfer i qs ws
      { toPending := hpending h.toPending
        order := h.order
        queue := h.queue
        chain := h.chain.congr fun _ _ => rfl
        sent := h.sent
        unsent := h.unsent
        flight := h.flight }
  | finished i h =>
    exact .finished i ⟨hbase h.base, h.node, h.past, h.unskipped, h.done, h.first,
      fun j hj hj' hji => (h.linked j hj hj' hji).imp_right fun hz => ⟨hz.1, hdead _ hz.2⟩,
      h.unnamed, h.counts, h.active, h.hlinkList, h.made_nodup, h.made⟩

theorem Holds.base (h : t.Holds c x) : t.Base c := by
  cases h with
  | idle ws h => exact h.base
  | transfer i qs ws h => exact h.base
  | finished i h => exact h.base

theorem Holds.live (h : t.Holds c x) {i : ℕ} (hi : t.Waits c i) : t.firstFlist ≤ c.flistOf i := by
  cases h with
  | idle ws h => exact h.live i ((h.waits i).2 hi)
  | transfer l qs ws h => exact h.live i ((h.waits i).2 hi)
  | finished l h => exact absurd (h.done i hi.1 hi.2.1) (by simp [hi.2.2])

/-- What `in_progress` counts: the entries of the group that wait or are transferred. -/
theorem Holds.counts (h : t.Holds c x) (hrec : c.incRecurse = true) :
    ∃ all : List ℕ, all.Nodup ∧ (∀ i, i ∈ all ↔ t.Waits c i) ∧
      ∀ l, t.inProgress l = t.others l + (all.countP fun i => c.flistOf i = l : ℕ) + x l := by
  cases h with
  | idle ws h =>
    exact ⟨ws, h.order.imp fun {a b} (hlt : c.pos b < c.pos a) (heq : a = b) => lt_irrefl _ (heq ▸ hlt),
      h.waits, h.counts hrec⟩
  | transfer i qs ws h => exact ⟨_, h.nodup, h.waits, h.counts hrec⟩
  | finished i h =>
    refine ⟨[], List.nodup_nil, fun j => ⟨fun hj => absurd hj (by simp), fun hj => ?_⟩,
      fun l => by simpa using h.counts hrec l⟩
    exact absurd (h.done j hj.1 hj.2.1) (by simp [hj.2.2])

theorem Holds.nextFlist (h : t.Holds c x) (hcur : t.curFlist + 1 < t.received)
    (hahead : ∀ j ∈ t.members, t.next ≤ c.pos j → t.curFlist < c.flistOf j) :
    { t with curFlist := t.curFlist + 1 }.Holds c x := by
  refine h.relist t.received _ t.firstFlist (fun hb => ?_) (fun i hi => h.live hi) fun z hz => hz
  exact ⟨hb.blank, hb.fresh, hb.flistOf_lt, fun i hi => hahead i hi.1 hi.2, hcur.le,
    hb.first_le.trans (Nat.le_succ _), hb.next_le, hb.near, hb.head, hb.last, fun hrec => by
      have := (hb.plain hrec).2.2
      omega⟩

theorem Holds.named_or_undone (h : t.Holds c x) (hrec : c.incRecurse = true) :
    t.Named c ∨ ∀ i ∈ t.members, (t.files i).hlinkDone = false := by
  cases h with
  | idle ws h => exact .inr h.undone
  | transfer l qs ws h => exact .inr h.undone
  | finished l h => exact .inl ⟨hrec, l, h.node hrec⟩

/-- The first list is freed, in which no entry waits. -/
theorem Holds.free (hc : c.Ok) (h : t.Holds c 0) (hfirst : t.firstFlist < t.curFlist)
    (hzero : t.inProgress t.firstFlist = 0) :
    { t with firstFlist := t.firstFlist + 1 }.Holds c 0 := by
  have hrec : c.incRecurse = true := by
    by_contra hrec
    have := (h.base.plain (by simpa using hrec)).2.2.1
    omega
  have hlive : ∀ i, t.Waits c i → t.firstFlist + 1 ≤ c.flistOf i := fun i hi => by
    obtain ⟨all, -, hall, hcounts⟩ := h.counts hrec
    refine lt_of_le_of_ne (h.live hi) fun heq => ?_
    have hcount := hcounts t.firstFlist
    have hpos : 0 < all.countP fun i => c.flistOf i = t.firstFlist :=
      List.countP_pos_iff.2 ⟨i, (hall i).2 hi, by simp [heq]⟩
    simp only [Pi.zero_apply] at hcount
    omega
  have hdead : ∀ z, t.flistForNdx c z = none →
      { t with firstFlist := t.firstFlist + 1 }.flistForNdx c z = none := fun z hz => by
    unfold flistForNdx at hz ⊢
    split_ifs at hz with hz'
    refine if_neg fun h => hz' ⟨h.1, ?_⟩
    exact (Nat.le_succ _).trans h.2
  refine h.relist t.received t.curFlist _ (fun hb => ?_) hlive hdead
  refine ⟨hb.blank, hb.fresh, hb.flistOf_lt, hb.cur_le, hb.cur_le_received, hfirst, hb.next_le,
    fun i hi => ?_, hb.head, hb.last, fun hplain => absurd hrec (by simp [hplain])⟩
  rcases hb.near i hi with ⟨hz, hall⟩ | ⟨p, hp, hz, hlt, hplive, hbetween⟩
  · exact .inl ⟨hdead _ hz, hall⟩
  by_cases hpfirst : c.flistOf p = t.firstFlist
  swap
  · exact .inr ⟨p, hp, hz, hlt, lt_of_le_of_ne hplive (Ne.symm hpfirst), hbetween⟩
  refine .inl ⟨?_, (h.named_or_undone hrec).imp_right fun hundone j hj hji => ?_⟩
  · rw [hz]
    unfold flistForNdx
    rw [Int.toNat_natCast, hpfirst]
    exact if_neg fun h => Nat.not_succ_le_self _ h.2
  · -- an entry of a list that is freed was skipped, as it does not wait
    rcases lt_or_ge (c.pos p) (c.pos j) with hpj | hjp
    · exact hbetween j hj hpj hji
    · have hjlist : c.flistOf j ≤ t.firstFlist := hpfirst ▸ hc.mono hjp
      by_contra hskip
      rcases past_or_fresh hj with hpast | hfresh
      · have := hlive j ⟨hpast, hskip, hundone j hj⟩
        omega
      · have := hb.cur_le j hfresh
        omega

/-- The message of the receiver. -/
theorem Holds.status (h : t.Holds c x) {i : ℕ} (hi : i ∈ t.active) (success : Bool) :
    { t with
      active := t.active.erase i
      hlinkList := t.hlinkList ++ if success then [(i : ℤ)] else [-2, (i : ℤ)] }.Holds c x := by
  cases h with
  | idle ws h => exact absurd (h.active ▸ hi) (Finset.notMem_empty i)
  | finished l h => exact absurd (h.active ▸ hi) (Finset.notMem_empty i)
  | transfer l qs ws h =>
    rcases h.flight with ⟨hactive, hlist⟩ | ⟨hactive, -⟩
    swap
    · exact absurd (hactive ▸ hi) (Finset.notMem_empty i)
    obtain rfl : i = l := Finset.mem_singleton.1 (hactive ▸ hi)
    have hb := h.base
    refine .transfer i qs ws
      { base := ⟨hb.blank, hb.fresh, hb.flistOf_lt, hb.cur_le, hb.cur_le_received, hb.first_le, hb.next_le, hb.near,
          hb.head, hb.last, hb.plain⟩
        node := h.node
        waits := h.waits
        undone := h.undone
        live := h.live
        counts := h.counts
        made := h.made
        order := h.order
        queue := h.queue
        chain := h.chain.congr fun _ _ => rfl
        sent := h.sent
        unsent := h.unsent
        flight := .inr ⟨?_, ?_⟩ }
    · show t.active.erase i = ∅
      rw [hactive]
      exact Finset.erase_singleton i
    · show t.hlinkList ++ _ = _ ∨ t.hlinkList ++ _ = _
      rw [hlist]
      cases success
      · exact .inr rfl
      · exact .inl rfl

/-- Nothing is left behind by an entry whose transfer failed: none waits behind it, and if any
    waits at all then for an entry to come, or for this one to hand over to it. -/
def Orphanless (c : LinkOrder) (t : LinkTable) (i : ℕ) : Prop :=
  (∀ j, t.Past c j → j ≠ i → (t.files j).fileSent = true → t.Skipped j) ∧
    ((t.files i).hlinkLast = true ∨ (∃ j, t.Fresh c j) ∨ ∀ j, t.Past c j → j ≠ i → t.Skipped j)

/-- The share of an entry in `in_progress`. -/
def share (c : LinkOrder) (i l : ℕ) : ℤ := if c.flistOf i = l then 1 else 0

theorem Holds.uncount {i : ℕ} (h : t.Holds c fun l => x l + share c i l) : (t.count c i (-1)).Holds c x := by
  refine h.recount fun l => ?_
  show Function.update t.inProgress (c.flistOf i) (t.inProgress (c.flistOf i) + -1) l - _ - _ = _
  rw [Function.update_apply, share]
  by_cases hl : l = c.flistOf i
  · subst hl
    simp
    omega
  · simp only [hl, Ne.symm hl, if_false]
    omega

theorem Pending.unlist {all counted : List ℕ} (h : t.Pending c x all counted) (rest : List ℤ) :
    { t with hlinkList := rest }.Pending c x all counted :=
  have hb := h.base
  ⟨⟨hb.blank, hb.fresh, hb.flistOf_lt, hb.cur_le, hb.cur_le_received, hb.first_le, hb.next_le, hb.near,
    hb.head, hb.last, hb.plain⟩, h.node, h.waits, h.undone, h.live, h.counts, h.made⟩

variable {i : ℕ} {qs ws : List ℕ}

/-- The end of a transfer. -/
theorem Transfer.finishNext (h : t.Transfer c x i qs ws) (hactive : t.active = ∅) :
    ∃ t', { t with hlinkList := [] }.finishHardLink c i false true (-1) = some t' ∧
      (t'.count c i (-1)).Holds c x := by
  have hchain : Heads (t.files i).hlPrev (qs ++ ws) ∧ t.Chain (qs ++ ws) := h.chain
  obtain ⟨t', ht', hfinished⟩ := (h.toPending.unlist []).finish (R := qs ++ ws) h.nodup
    (hchain.2.congr fun _ _ => rfl) hchain.1 hactive rfl false true (.inr rfl) (-1)
  refine ⟨t', ht', Holds.uncount (.finished i ?_)⟩
  convert hfinished using 2 with l
  rw [share, List.cons_append, List.countP_cons]
  by_cases hl : c.flistOf i = l
  · simp [hl]
    ring
  · simp [hl]

/-- A transfer that failed. -/
theorem Transfer.failNext (hc : c.Ok) {o : ℕ → LinkOutcome} (ho : Sound o)
    (h : t.Transfer c x i qs ws) (hactive : t.active = ∅) (horphans : t.Orphanless c i) :
    ∃ t', LinkTable.handleSkippedHlink c o (t.members.card + 1) i { t with hlinkList := [] } = some t' ∧
      (t'.count c i (-1)).Holds c x := by
  obtain ⟨hqueue, hlast⟩ := horphans
  have hpending := h.toPending.unlist []
  have hnil : qs = [] := by
    refine List.eq_nil_iff_forall_not_mem.2 fun q hq => ?_
    have hw := (h.waits q).1 (by simp [hq])
    have hqi : q ≠ i := fun hqi => (List.nodup_cons.1 h.nodup).1 (by simp [← hqi, hq])
    exact hw.2.1 (hqueue q hw.1 hqi (h.sent q (List.mem_cons_of_mem _ hq)))
  subst hnil
  have hchain : Heads (t.files i).hlPrev ws ∧ t.Chain ws := h.chain
  have hhand : { t with hlinkList := [] }.Hand c (fun l => x l + share c i l) i ws :=
    { base := hpending.base
      node := hpending.node
      waits := hpending.waits
      undone := hpending.undone
      live := hpending.live
      counts := fun hrec l => by
        have hl := h.counts hrec l
        show t.inProgress l = t.others l + _ + (x l + share c i l)
        rw [hl, share, List.cons_append, List.nil_append, List.countP_cons]
        by_cases hl : c.flistOf i = l
        · simp [hl]
          ring
        · simp [hl]
      made := hpending.made
      order := h.order
      chain := hchain.2.congr fun _ _ => rfl
      unsent := h.unsent
      active := hactive
      hlinkList := rfl
      near_self := hpending.near_of_heads h.order hchain.1
      first := fun _ => hchain.1
      last_self := fun hne hfresh => by
        rcases hlast with hlast | ⟨j, hj⟩ | hskipped
        · exact hlast
        · exact absurd hj (hfresh j)
        · obtain ⟨w, hw⟩ := List.exists_mem_of_ne_nil ws hne
          have hwaits := (h.waits w).1 (by simp [hw])
          have hwi : w ≠ i := fun hwi => (List.nodup_cons.1 h.nodup).1 (by simp [← hwi, hw])
          exact absurd (hskipped w hwaits.1 hwi) hwaits.2.1 }
  obtain ⟨t', ht', hholds⟩ := hhand.handleSkippedHlink hc ho
    (hpending.length_lt (by simp) (List.nodup_cons.1 hhand.nodup).2)
  exact ⟨t', ht', hholds.uncount⟩

/-! ### The entries of a new list -/

/-- What the loop of `match_gnums` makes of the entries `ndxs`. -/
structure Chained (t t' : LinkTable) (prev : ℤ) (ndxs : List ℕ) : Prop where
  members : ∀ j, j ∈ t'.members ↔ j ∈ t.members ∨ j ∈ ndxs
  files : ∀ j, j ∉ ndxs → t'.files j = t.files j
  first : ∀ j, (t'.files j).hlinkFirst = (t.files j).hlinkFirst
  done : ∀ j, (t'.files j).hlinkDone = (t.files j).hlinkDone
  sent : ∀ j, (t'.files j).fileSent = (t.files j).fileSent
  skip : ∀ j, (t'.files j).skipHlink = (t.files j).skipHlink
  prev_head : ∀ i rest, ndxs = i :: rest → (t'.files i).hlPrev = prev
  prev_next : ∀ u a b v, ndxs = u ++ a :: b :: v → (t'.files b).hlPrev = a
  last : ∀ u a, ndxs = u ++ [a] → (t'.files a).hlinkLast = true
  node : ∀ u a, ndxs = u ++ [a] → t'.node = t.node.map (PriorNode.move a)
  same : t' = { t with files := t'.files, members := t'.members, node := t'.node }

theorem chain_spec {prev : ℤ} {i : ℕ} {rest : List ℕ} (hnodup : (i :: rest).Nodup)
    (hok : c.incRecurse = true ∨ 0 ≤ prev ∨ rest ≠ []) :
    t.Chained (chain c prev (i :: rest) t) prev (i :: rest) := by
  induction rest generalizing t prev i with
  | nil =>
    have hcond : ¬(prev < 0 ∧ (!c.incRecurse) = true) := by
      rintro ⟨hneg, hrec⟩
      rcases hok with hok | hok | hok
      · simp [hok] at hrec
      · omega
      · exact hok rfl
    rw [chain, if_neg hcond]
    let t₁ := { t with members := insert i t.members }.modify i
      fun file => { file with hlinkLast := true, hlPrev := prev }
    have hself : t₁.files i = { t.files i with hlinkLast := true, hlPrev := prev } := modify_self ..
    have hne : ∀ j, j ≠ i → t₁.files j = t.files j := fun j hj => modify_of_ne _ hj
    have hkeep : ∀ {α : Type} (g : LinkedFile → α)
        (_ : ∀ (file : LinkedFile) z, g { file with hlinkLast := true, hlPrev := z } = g file) (j : ℕ),
        g (t₁.files j) = g (t.files j) := fun g hg j => by
      by_cases hji : j = i
      · rw [hji, hself, hg]
      · rw [hne j hji]
    let t₂ : LinkTable := { t₁ with node := t₁.node.map (PriorNode.move i) }
    have hfiles₂ : t₂.files = t₁.files := rfl
    have hmembers₂ : t₂.members = insert i t.members := rfl
    have hsplit : ∀ {u : List ℕ} {a : ℕ}, [i] = u ++ [a] → a = i := fun {u a} h => by
      have := congrArg List.getLast? h
      simpa [eq_comm] using this
    show t.Chained t₂ prev [i]
    refine ⟨fun j => ?_, fun j hj => ?_, fun j => ?_, fun j => ?_, fun j => ?_, fun j => ?_,
      fun k rest h => ?_, fun u a b v h => ?_, fun u a h => ?_, fun u a h => ?_, ?_⟩
    · rw [hmembers₂, Finset.mem_insert, List.mem_singleton, or_comm]
    · rw [hfiles₂]
      exact hne j (by simpa using hj)
    · rw [hfiles₂]
      exact hkeep LinkedFile.hlinkFirst (fun _ _ => rfl) j
    · rw [hfiles₂]
      exact hkeep LinkedFile.hlinkDone (fun _ _ => rfl) j
    · rw [hfiles₂]
      exact hkeep LinkedFile.fileSent (fun _ _ => rfl) j
    · rw [hfiles₂]
      exact hkeep LinkedFile.skipHlink (fun _ _ => rfl) j
    · rw [← (List.cons.inj h).1, hfiles₂, hself]
    · have := congrArg List.length h
      simp only [List.length_append, List.length_cons, List.length_nil] at this
      omega
    · rw [hsplit h, hfiles₂, hself]
    · rw [hsplit h]
      rfl
    · rfl
  | cons j rest ih =>
    obtain ⟨hi, hnodup⟩ := List.nodup_cons.1 hnodup
    let t₁ := { t with members := insert i t.members }.setPrev i prev
    have h : t₁.Chained (chain c i (j :: rest) t₁) i (j :: rest) :=
      ih hnodup (.inr (.inl (Int.natCast_nonneg i)))
    show t.Chained (chain c i (j :: rest) t₁) prev (i :: j :: rest)
    have hself : (t₁.files i).hlPrev = prev := setPrev_hlPrev_self ..
    have hne : ∀ k, k ≠ i → t₁.files k = t.files k := fun k hk => setPrev_of_ne _ hk
    refine ⟨fun k => ?_, fun k hk => ?_, fun k => (h.first k).trans (setPrev_hlinkFirst ..),
      fun k => (h.done k).trans (setPrev_hlinkDone ..), fun k => (h.sent k).trans (setPrev_fileSent ..),
      fun k => (h.skip k).trans (setPrev_skipHlink ..), fun a v hv => ?_, fun u a b v hv => ?_,
      fun u a hv => ?_, fun u a hv => ?_, ?_⟩
    · rw [h.members k]
      show k ∈ insert i t.members ∨ _ ↔ _
      rw [Finset.mem_insert, List.mem_cons (l := j :: rest)]
      tauto
    · obtain ⟨hki, hk⟩ := not_or.1 (mt List.mem_cons.2 hk)
      rw [h.files k hk, hne k hki]
    · obtain ⟨rfl, -⟩ := List.cons.inj hv
      rw [h.files i hi, hself]
    · cases u with
      | nil =>
        obtain ⟨hia, hv⟩ := List.cons.inj hv
        obtain ⟨hjb, -⟩ := List.cons.inj hv
        rw [← hia, ← hjb]
        exact h.prev_head j rest rfl
      | cons w u => exact h.prev_next u a b v (List.cons.inj hv).2
    · cases u with
      | nil => exact absurd (List.cons.inj hv).2 (by simp)
      | cons w u => exact h.last u a (List.cons.inj hv).2
    · cases u with
      | nil => exact absurd (List.cons.inj hv).2 (by simp)
      | cons w u => exact h.node u a (List.cons.inj hv).2
    · rw [h.same]
      rfl

/-- A group with the entries of a new list, of which the first has `prev` for the one before. -/
structure Extends (c : LinkOrder) (t t' : LinkTable) (ndxs : List ℕ) : Prop where
  members : ∀ j, j ∈ t'.members ↔ j ∈ t.members ∨ j ∈ ndxs
  files : ∀ j, j ∉ t.members → j ∉ ndxs → t'.files j = t.files j
  old : ∀ j ∈ t.members, t'.files j = { t.files j with hlinkLast := (t'.files j).hlinkLast }
  new : ∀ j ∈ ndxs, (t'.files j).hlinkDone = false ∧ (t'.files j).fileSent = false ∧ ¬t'.Skipped j
  near_head : ∀ i rest, ndxs = i :: rest → t'.Near c i (t'.files i).hlPrev
  prev_next : ∀ u a b v, ndxs = u ++ a :: b :: v → (t'.files b).hlPrev = a
  first : ∀ j ∈ ndxs, (t'.files j).hlinkFirst = true → (t'.files j).hlPrev < 0 ∧ t'.AllSkipped c j
  last : ∀ u a, ndxs = u ++ [a] → (t'.files a).hlinkLast = true
  path : ∀ m, t.node = some (.path m) → t'.node = some (.path m)
  node : c.incRecurse = true → (∀ m, t.node ≠ some (.path m)) → ∀ u a, ndxs = u ++ [a] →
    t'.node = some (.last a)
  plain : c.incRecurse = false → t'.node = none
  same : t' = { t with files := t'.files, members := t'.members, node := t'.node }

variable {t' : LinkTable} {ndxs : List ℕ}

theorem Extends.skipped (h : Extends c t t' ndxs) {j : ℕ} (hj : j ∈ t.members) :
    t'.Skipped j ↔ t.Skipped j := by
  rw [Skipped, Skipped, h.old j hj]

section

variable (hc : c.Ok) (hb : t.Base c) (hlist : ∀ i ∈ ndxs, c.flistOf i = t.received)
include hc hb hlist

theorem Base.lt_new {j k : ℕ} (hj : j ∈ t.members) (hk : k ∈ ndxs) : c.pos j < c.pos k := by
  by_contra hle
  have := hc.mono (not_lt.1 hle)
  have := hb.flistOf_lt j hj
  have := hlist k hk
  omega

theorem Base.next_le_new {k : ℕ} (hk : k ∈ ndxs) : t.next ≤ c.pos k := by
  rcases hb.next_le with hnext | ⟨j, hj, hnext⟩
  · omega
  · exact hnext.trans (hb.lt_new hc hlist hj hk)

theorem Extends.fresh (h : Extends c t t' ndxs) (j : ℕ) : t'.Fresh c j ↔ t.Fresh c j ∨ j ∈ ndxs := by
  have hnext : t'.next = t.next := by rw [h.same]
  rw [Fresh, Fresh, h.members, hnext]
  constructor
  · rintro ⟨hj | hj, hle⟩
    · exact .inl ⟨hj, hle⟩
    · exact .inr hj
  · rintro (⟨hj, hle⟩ | hj)
    · exact ⟨.inl hj, hle⟩
    · exact ⟨.inr hj, hb.next_le_new hc hlist hj⟩

theorem Extends.past (h : Extends c t t' ndxs) (j : ℕ) : t'.Past c j ↔ t.Past c j := by
  have hnext : t'.next = t.next := by rw [h.same]
  rw [Past, Past, h.members, hnext]
  constructor
  · rintro ⟨hj | hj, hlt⟩
    · exact ⟨hj, hlt⟩
    · exact absurd hlt (not_lt.2 (hb.next_le_new hc hlist hj))
  · rintro ⟨hj, hlt⟩
    exact ⟨.inl hj, hlt⟩

theorem Extends.near (h : Extends c t t' ndxs) {i : ℕ} {z : ℤ} (hi : i ∈ t.members)
    (hz : t.Near c i z) : t'.Near c i z := by
  have hold : ∀ {j}, j ∈ t'.members → c.pos j < c.pos i → j ∈ t.members := fun {j} hj hlt =>
    ((h.members j).1 hj).resolve_right fun hj => absurd hlt (hb.lt_new hc hlist hi hj).not_gt
  have hfirst : t'.firstFlist = t.firstFlist := by rw [h.same]
  rcases hz with ⟨hdead, hall⟩ | ⟨p, hp, hz, hlt, hlive, hbetween⟩
  · refine .inl ⟨by rw [flistForNdx, hfirst]; exact hdead,
      hall.imp (fun hn => ⟨hn.1, hn.2.imp h.path⟩) fun hall j hj hlt => ?_⟩
    exact (h.skipped (hold hj hlt)).2 (hall j (hold hj hlt) hlt)
  · refine .inr ⟨p, (h.members p).2 (.inl hp), hz, hlt, hfirst ▸ hlive, fun j hj hpj hji => ?_⟩
    exact (h.skipped (hold hj hji)).2 (hbetween j (hold hj hji) hpj hji)

/-- The entries of a new list come behind all others. -/
theorem Base.extend (horder : ndxs.Pairwise fun i j => c.pos i < c.pos j) (hne : ndxs ≠ [])
    (hplain : c.incRecurse = false → t.received = 0) (h : Extends c t t' ndxs) :
    { t' with received := t.received + 1 }.Base c := by
  have hcur : t'.curFlist = t.curFlist := by rw [h.same]
  have hfirst : t'.firstFlist = t.firstFlist := by rw [h.same]
  have hnext : t'.next = t.next := by rw [h.same]
  have hfresh := h.fresh hc hb hlist
  refine ⟨fun j hj => ?_, fun j hj => ?_, fun j hj => ?_, fun j hj => ?_, ?_, ?_, ?_, fun j hj => ?_,
    fun j hj hjf => ?_, fun j hj hle => ?_, fun hrec => ?_⟩
  · obtain ⟨hj₁, hj₂⟩ := not_or.1 (mt (h.members j).2 hj)
    exact (h.files j hj₁ hj₂).trans (hb.blank j hj₁)
  · rcases (hfresh j).1 hj with hj | hj
    · have hold := h.old j hj.1
      have hj' := hb.fresh j hj
      exact ⟨by rw [hold]; exact hj'.1, by rw [hold]; exact hj'.2.1,
        fun hskip => hj'.2.2 ((h.skipped hj.1).1 hskip)⟩
    · exact h.new j hj
  · rcases (h.members j).1 hj with hj | hj
    · exact (hb.flistOf_lt j hj).trans (Nat.lt_succ_self _)
    · exact (hlist j hj).trans_lt (Nat.lt_succ_self _)
  · show t'.curFlist ≤ _
    rw [hcur]
    rcases (hfresh j).1 hj with hj | hj
    · exact hb.cur_le j hj
    · exact hb.cur_le_received.trans_eq (hlist j hj).symm
  · show t'.curFlist ≤ _
    rw [hcur]
    exact hb.cur_le_received.trans (Nat.le_succ _)
  · show t'.firstFlist ≤ t'.curFlist
    rw [hfirst, hcur]
    exact hb.first_le
  · show t'.next = 0 ∨ ∃ j ∈ t'.members, t'.next ≤ _
    rw [hnext]
    exact hb.next_le.imp_right <| Exists.imp fun j hj => ⟨(h.members j).2 (.inl hj.1), hj.2⟩
  · show t'.Near c j (t'.files j).hlPrev
    have hold : j ∈ t.members → t.Fresh c j ∨ j ∈ t.members ∧ t.Skipped j →
        t'.Near c j (t'.files j).hlPrev := fun hmem hj => by
      rw [h.old j hmem]
      exact h.near hc hb hlist hmem (hb.near j hj)
    have hnew : j ∈ ndxs → t'.Near c j (t'.files j).hlPrev := fun hj => by
      obtain ⟨u, v, huv⟩ := List.append_of_mem hj
      rcases List.eq_nil_or_concat u with rfl | ⟨u, a, rfl⟩
      · exact h.near_head j v huv
      have hsplit : ndxs = u ++ a :: j :: v := by simpa using huv
      have ha : a ∈ ndxs := by simp [hsplit]
      rw [hsplit, List.pairwise_append] at horder
      obtain ⟨-, hav, hua⟩ := horder
      obtain ⟨haj, hjv⟩ := List.pairwise_cons.1 hav
      refine .inr ⟨a, (h.members a).2 (.inr ha), h.prev_next u a j v hsplit, haj j List.mem_cons_self, ?_,
        fun k hk hak hkj => ?_⟩
      · rw [hfirst, hlist a ha]
        exact hb.first_le.trans hb.cur_le_received
      · rcases (h.members k).1 hk with hk | hk
        · exact absurd hak (hb.lt_new hc hlist hk ha).not_gt
        · rw [hsplit, List.mem_append, List.mem_cons, List.mem_cons] at hk
          rcases hk with hk | rfl | rfl | hk
          · exact absurd hak (hua k hk a List.mem_cons_self).not_gt
          · exact absurd hak (lt_irrefl _)
          · exact absurd hkj (lt_irrefl _)
          · exact absurd hkj ((List.pairwise_cons.1 hjv).1 k hk).not_gt
    rcases hj with hj | ⟨hj, hskip⟩
    · rcases (hfresh j).1 hj with hj | hj
      · exact hold hj.1 (.inl hj)
      · exact hnew hj
    · rcases (h.members j).1 hj with hj | hj
      · exact hold hj (.inr ⟨hj, (h.skipped hj).1 hskip⟩)
      · exact hnew hj
  · rcases (hfresh j).1 hj with hj | hj
    · have hold := h.old j hj.1
      have hjf' : (t.files j).hlinkFirst = true := by
        rw [show (t.files j).hlinkFirst = (t'.files j).hlinkFirst by rw [hold]]
        exact hjf
      obtain ⟨hneg, hall⟩ := hb.head j hj hjf'
      refine ⟨by rw [hold]; exact hneg, fun k hk hkj => ?_⟩
      have hk := ((h.members k).1 hk).resolve_right fun hk =>
        absurd hkj (hb.lt_new hc hlist hj.1 hk).not_gt
      exact (h.skipped hk).2 (hall k hk hkj)
    · exact h.first j hj hjf
  · rcases List.eq_nil_or_concat ndxs with hnil | ⟨u, a, hua⟩
    · exact absurd hnil hne
    have hsplit : ndxs = u ++ [a] := by simpa using hua
    have ha : a ∈ ndxs := by simp [hsplit]
    have haj := hle a ((h.members a).2 (.inr ha))
    have hja : j = a := by
      rcases (hfresh j).1 hj with hj | hj
      · exact absurd haj (not_le.2 (hb.lt_new hc hlist hj.1 ha))
      · rw [hsplit, List.mem_append, List.mem_singleton] at hj
        refine hj.resolve_left fun hj => ?_
        rw [hsplit, List.pairwise_append] at horder
        exact absurd haj (not_le.2 (horder.2.2 j hj a List.mem_cons_self))
    rw [hja]
    exact h.last u a hsplit
  · obtain ⟨hf, -, hcu, -⟩ := hb.plain hrec
    exact ⟨hfirst.trans hf, h.plain hrec, hcur.trans hcu, by show t.received + 1 ≤ 1; rw [hplain hrec]⟩

/-- What a new list does to the group as a whole. -/
theorem Holds.extend {x : ℕ → ℤ} (hholds : t.Holds c x)
    (horder : ndxs.Pairwise fun i j => c.pos i < c.pos j) (hne : ndxs ≠ [])
    (hplain : c.incRecurse = false → t.received = 0) (h : Extends c t t' ndxs) :
    { t' with received := t.received + 1 }.Holds c x := by
  have hbase := hb.extend hc hlist horder hne hplain h
  have hpast := h.past hc hb hlist
  have hprev : ∀ j ∈ t.members, (t'.files j).hlPrev = (t.files j).hlPrev := fun j hj => by
    rw [h.old j hj]
  have hsent : ∀ j ∈ t.members, (t'.files j).fileSent = (t.files j).fileSent := fun j hj => by
    rw [h.old j hj]
  have hdone : ∀ j ∈ t.members, (t'.files j).hlinkDone = (t.files j).hlinkDone := fun j hj => by
    rw [h.old j hj]
  have hpending : ∀ {all counted}, t.Pending c x all counted →
      { t' with received := t.received + 1 }.Pending c x all counted := fun {all counted} hp => by
    refine ⟨hbase, fun hrec => .inr ?_, fun j => (hp.waits j).trans ?_, fun j hj => ?_, ?_, ?_, ?_⟩
    · rcases List.eq_nil_or_concat ndxs with hnil | ⟨u, a, hua⟩
      · exact absurd hnil hne
      have hsplit : ndxs = u ++ [a] := by simpa using hua
      have ha : a ∈ ndxs := by simp [hsplit]
      have hpath : ∀ m, t.node ≠ some (.path m) := fun m hm => hp.unnamed ⟨hrec, m, hm⟩
      refine ⟨a, (h.members a).2 (.inr ha), h.node hrec hpath u a hsplit, fun j hj => ?_⟩
      rcases (h.members j).1 hj with hj | hj
      · exact (hb.lt_new hc hlist hj ha).le
      · rw [hsplit, List.mem_append, List.mem_singleton] at hj
        rcases hj with hj | rfl
        · rw [hsplit, List.pairwise_append] at horder
          exact (horder.2.2 j hj a List.mem_cons_self).le
        · exact le_rfl
    · constructor
      · rintro ⟨hj, hj'⟩
        have hfile := h.old j hj.1
        exact ⟨(hpast j).2 hj, fun hskip => hj'.1 ((h.skipped hj.1).1 hskip),
          (hdone j hj.1).trans hj'.2⟩
      · rintro ⟨hj, hj'⟩
        have hj := (hpast j).1 hj
        exact ⟨hj, fun hskip => hj'.1 ((h.skipped hj.1).2 hskip), (hdone j hj.1).symm.trans hj'.2⟩
    · rcases (h.members j).1 hj with hj | hj
      · exact (hdone j hj).trans (hp.undone j hj)
      · exact (h.new j hj).1
    · have hfirst : t'.firstFlist = t.firstFlist := by rw [h.same]
      exact fun j hj => hfirst ▸ hp.live j hj
    · rw [h.same]
      exact hp.counts
    · rw [h.same]
      exact hp.made
  have hmem : ∀ {all counted}, t.Pending c x all counted → ∀ j ∈ all, j ∈ t.members :=
    fun hp j hj => ((hp.waits j).1 hj).1.1
  have hactive : t'.active = t.active := by rw [h.same]
  have hhlinks : t'.hlinkList = t.hlinkList := by rw [h.same]
  have hmade : t'.made = t.made := by rw [h.same]
  cases hholds with
  | idle ws hi =>
    have hws := hmem hi.toPending
    exact .idle ws
      { toPending := hpending hi.toPending
        order := hi.order
        chain := hi.chain.congr fun j hj => hprev j (hws j hj)
        unsent := fun j hj => (hsent j (hws j hj)).trans (hi.unsent j hj)
        active := hactive.trans hi.active
        hlinkList := hhlinks.trans hi.hlinkList
        ahead := fun hws => by
          obtain ⟨j, hj⟩ := hi.ahead hws
          exact ⟨j, (h.fresh hc hb hlist j).2 (.inl hj)⟩ }
  | transfer l qs ws ht =>
    have hws := hmem ht.toPending
    exact .transfer l qs ws
      { toPending := hpending ht.toPending
        order := ht.order
        queue := ht.queue
        chain := ht.chain.congr fun j hj => hprev j (hws j hj)
        sent := fun j hj => (hsent j (hws j (List.mem_append_left _ hj))).trans (ht.sent j hj)
        unsent := fun j hj => (hsent j (hws j (List.mem_append_right _ hj))).trans (ht.unsent j hj)
        flight := by
          show t'.active = _ ∧ t'.hlinkList = _ ∨ t'.active = _ ∧ _
          rw [hactive, hhlinks]
          exact ht.flight }
  | finished l hf =>
    have hfirst : t'.firstFlist = t.firstFlist := by rw [h.same]
    have hskip : ∀ {j}, t.Past c j → (t'.Skipped j ↔ t.Skipped j) := fun {j} hj => h.skipped hj.1
    refine .finished l
      { base := hbase
        node := fun hrec => h.path l (hf.node hrec)
        past := (hpast l).2 hf.past
        unskipped := fun hs => hf.unskipped ((hskip hf.past).1 hs)
        done := fun j hj hj' => ?_
        first := fun j hj hj' => ?_
        linked := fun j hj hj' hjl => ?_
        unnamed := fun j hj => ?_
        counts := by rw [h.same]; exact hf.counts
        active := hactive.trans hf.active
        hlinkList := hhlinks.trans hf.hlinkList
        made_nodup := by show t'.made.Nodup; rw [hmade]; exact hf.made_nodup
        made := fun p => ?_ }
    · have hj := (hpast j).1 hj
      exact (hdone j hj.1).trans (hf.done j hj fun hs => hj' ((hskip hj).2 hs))
    · have hj := (hpast j).1 hj
      rw [← hf.first j hj fun hs => hj' ((hskip hj).2 hs)]
      show (t'.files j).hlinkFirst = true ↔ _
      rw [h.old j hj.1]
    · have hj := (hpast j).1 hj
      have := hf.linked j hj (fun hs => hj' ((hskip hj).2 hs)) hjl
      show (t'.files j).hlPrev = _ ∨ _ ∧ t'.flistForNdx c (t'.files j).hlPrev = none
      rw [hprev j hj.1]
      exact this.imp_right fun hdead => ⟨hdead.1, by rw [flistForNdx, hfirst]; exact hdead.2⟩
    · rcases (h.fresh hc hb hlist j).1 hj with hj | hj
      · show (t'.files j).hlinkFirst = false
        rw [h.old j hj.1]
        exact hf.unnamed j hj
      · by_contra hjf
        have hall := (h.first j hj (by simpa using hjf)).2 l ((h.members l).2 (.inl hf.past.1))
          (hb.lt_new hc hlist hf.past.1 hj)
        exact hf.unskipped ((hskip hf.past).1 hall)
    · show p ∈ t'.made ↔ _
      rw [hmade, hf.made p]
      refine and_congr_right fun _ => and_congr_right fun _ => ⟨?_, ?_⟩
      · rintro ⟨hp, hp'⟩
        exact ⟨(hpast _).2 hp, fun hs => hp' ((hskip hp).1 hs)⟩
      · rintro ⟨hp, hp'⟩
        have hp := (hpast _).1 hp
        exact ⟨hp, fun hs => hp' ((hskip hp).2 hs)⟩

end

/-- What `match_gnums` does before its loop: to mark the first entry of the list, or to take the
    mark from the entry that was the last one. -/
structure Starts (c : LinkOrder) (t s : LinkTable) (prev : ℤ) (ndxs : List ℕ) : Prop where
  files : ∀ j, j ∉ t.members → j ∉ ndxs → s.files j = t.files j
  old : ∀ j ∈ t.members, s.files j = { t.files j with hlinkLast := (s.files j).hlinkLast }
  new : ∀ j ∈ ndxs, s.files j = { blank with hlinkFirst := (s.files j).hlinkFirst }
  before : prev < 0 ∧ (t.Named c ∨ ∀ j ∈ t.members, t.Skipped j) ∨
    ∃ p ∈ t.members, prev = p ∧ t.firstFlist ≤ c.flistOf p ∧ ∀ j ∈ t.members, c.pos j ≤ c.pos p
  first : ∀ j ∈ ndxs, (s.files j).hlinkFirst = true →
    (∃ rest, ndxs = j :: rest) ∧ prev < 0 ∧ ∀ j ∈ t.members, t.Skipped j
  path : ∀ m, t.node = some (.path m) → s.node = some (.path m)
  node : c.incRecurse = true → (∀ m, t.node ≠ some (.path m)) → ∃ m, s.node = some (.last m)
  plain : c.incRecurse = false → s.node = none
  same : s = { t with files := s.files, node := s.node }

theorem Starts.extends {s : LinkTable} {prev : ℤ} (hs : Starts c t s prev ndxs) (hne : ndxs ≠ [])
    (hmem : ∀ j ∈ ndxs, j ∉ t.members) (hlt : ∀ j ∈ t.members, ∀ k ∈ ndxs, c.pos j < c.pos k)
    (horder : ndxs.Pairwise fun i j => c.pos i < c.pos j) (h : s.Chained t' prev ndxs) :
    Extends c t t' ndxs := by
  have hmembers : s.members = t.members := by rw [hs.same]
  have hmem' : ∀ j, j ∈ t'.members ↔ j ∈ t.members ∨ j ∈ ndxs := fun j => hmembers ▸ h.members j
  have hfirstFlist : t'.firstFlist = t.firstFlist := by rw [h.same, hs.same]
  have hold : ∀ j ∈ t.members, t'.files j = s.files j := fun j hj =>
    h.files j fun hj' => hmem j hj' hj
  have hskip : ∀ j ∈ t.members, (t'.Skipped j ↔ t.Skipped j) := fun j hj => by
    rw [Skipped, Skipped, hold j hj, hs.old j hj]
  have hpath : ∀ m, t.node = some (.path m) → t'.node = some (.path m) := fun m hm => by
    rcases List.eq_nil_or_concat ndxs with hnil | ⟨u, a, hua⟩
    · exact absurd hnil hne
    · rw [h.node u a (by simpa using hua), hs.path m hm]
      rfl
  -- what comes before the first entry of the list is all that there was
  have hbefore : ∀ i rest, ndxs = i :: rest → ∀ j, j ∈ t'.members → c.pos j < c.pos i → j ∈ t.members := by
    intro i rest hi j hj hji
    refine ((hmem' j).1 hj).resolve_right fun hj => ?_
    subst hi
    rcases List.mem_cons.1 hj with rfl | hj
    · exact lt_irrefl _ hji
    · exact absurd hji ((List.pairwise_cons.1 horder).1 j hj).not_gt
  refine ⟨hmem', fun j hj hj' => (h.files j hj').trans (hs.files j hj hj'), fun j hj => ?_, fun j hj => ?_,
    fun i rest hi => ?_, h.prev_next, fun j hj hjf => ?_, h.last, hpath, fun hrec hnp u a hua => ?_,
    fun hrec => ?_, ?_⟩
  · rw [hold j hj]
    exact hs.old j hj
  · have hnew := hs.new j hj
    refine ⟨(h.done j).trans (by rw [hnew]; rfl), (h.sent j).trans (by rw [hnew]; rfl), ?_⟩
    rw [Skipped, h.skip j, hnew]
    simp [blank]
  · rw [h.prev_head i rest hi]
    have hi' : i ∈ ndxs := by simp [hi]
    rcases hs.before with ⟨hneg, hall⟩ | ⟨p, hp, hprev, hlive, hgreatest⟩
    · refine .inl ⟨flistForNdx_of_neg hneg, hall.imp (fun hn => ⟨hn.1, hn.2.imp hpath⟩)
        fun hall j hj hji => ?_⟩
      have hj := hbefore i rest hi j hj hji
      exact (hskip j hj).2 (hall j hj)
    · refine .inr ⟨p, (hmem' p).2 (.inl hp), hprev, hlt p hp i hi', hfirstFlist ▸ hlive, fun j hj hpj hji => ?_⟩
      exact absurd hpj (not_lt.2 (hgreatest j (hbefore i rest hi j hj hji)))
  · rw [h.first j] at hjf
    obtain ⟨⟨rest, hj'⟩, hneg, hall⟩ := hs.first j hj hjf
    refine ⟨by rw [h.prev_head j rest hj']; exact hneg, fun k hk hkj => ?_⟩
    have hk := hbefore j rest hj' k hk hkj
    exact (hskip k hk).2 (hall k hk)
  · obtain ⟨m, hm⟩ := hs.node hrec hnp
    rw [h.node u a hua, hm]
    rfl
  · rcases List.eq_nil_or_concat ndxs with hnil | ⟨u, a, hua⟩
    · exact absurd hnil hne
    · rw [h.node u a (by simpa using hua), hs.plain hrec]
      rfl
  · rw [h.same, hs.same]

/-- The first entry of the list is marked, as all others were skipped. -/
theorem Base.mark (hb : t.Base c) {i : ℕ} {rest : List ℕ} (node : Option PriorNode)
    (hmem : ∀ j ∈ i :: rest, j ∉ t.members) (hall : ∀ j ∈ t.members, t.Skipped j)
    (hpath : ∀ m, t.node ≠ some (.path m)) (hnode : c.incRecurse = true → ∃ m, node = some (.last m))
    (hplain : c.incRecurse = false → node = none) :
    Starts c t ({ t with node := node }.modify i fun file => { file with hlinkFirst := true }) (-1)
      (i :: rest) := by
  have hne : ∀ j, j ≠ i → ({ t with node := node }.modify i
      fun file => { file with hlinkFirst := true }).files j = t.files j := fun j hj => modify_of_ne _ hj
  have hblank : ∀ j ∈ i :: rest, t.files j = LinkTable.blank := fun j hj => hb.blank j (hmem j hj)
  refine ⟨fun j _ hj => hne j fun hji => hj (by simp [hji]), fun j hj => ?_, fun j hj => ?_,
    .inl ⟨by omega, .inr hall⟩, fun j hj hjf => ?_, fun m hm => absurd hm (hpath m),
    fun hrec _ => hnode hrec, hplain, rfl⟩
  · rw [hne j fun hji => hmem i List.mem_cons_self (hji ▸ hj)]
  · by_cases hji : j = i
    · subst hji
      rw [modify_self, show ({ t with node := node } : LinkTable).files j = LinkTable.blank from hblank j hj]
    · rw [hne j hji, hblank j hj]
  · by_cases hji : j = i
    · subst hji
      exact ⟨⟨rest, rfl⟩, by omega, hall⟩
    · rw [hne j hji, hblank j hj] at hjf
      exact absurd hjf (by simp [LinkTable.blank])

/-- What `match_gnums` makes of the group. -/
theorem Holds.matchGnums (hc : c.Ok) (h : t.Holds c x) (hne : ndxs ≠ [])
    (hlist : ∀ i ∈ ndxs, c.flistOf i = t.received) (horder : ndxs.Pairwise fun i j => c.pos i < c.pos j)
    (hplain : c.incRecurse = false → t.received = 0 ∧ 2 ≤ ndxs.length) :
    Extends c t (t.matchGnums c ndxs) ndxs := by
  have hb := h.base
  have hmem : ∀ j ∈ ndxs, j ∉ t.members := fun j hj hj' =>
    lt_irrefl _ (hb.lt_new hc hlist hj' hj)
  have hlt : ∀ j ∈ t.members, ∀ k ∈ ndxs, c.pos j < c.pos k := fun j hj k hk =>
    hb.lt_new hc hlist hj hk
  have hnodup : ndxs.Nodup :=
    horder.imp fun {a b} (hlt : c.pos a < c.pos b) (heq : a = b) => lt_irrefl _ (heq ▸ hlt)
  have hextends : ∀ {s : LinkTable} {prev : ℤ}, Starts c t s prev ndxs → (c.incRecurse = true ∨ 2 ≤ ndxs.length) →
      Extends c t (chain c prev ndxs s) ndxs := fun {s prev} hs hok => by
    refine hs.extends hne hmem hlt horder ?_
    obtain ⟨i, rest, rfl⟩ := List.exists_cons_of_ne_nil hne
    refine chain_spec hnodup (hok.imp_right fun hlen => .inr fun hnil => ?_)
    subst hnil
    simp at hlen
  obtain ⟨i, rest, hi⟩ := List.exists_cons_of_ne_nil hne
  subst hi
  rw [LinkTable.matchGnums]
  dsimp only
  by_cases hrec : c.incRecurse = true
  swap
  · have hrec' : c.incRecurse = false := by simpa using hrec
    obtain ⟨hreceived, hlen⟩ := hplain hrec'
    have hempty : ∀ j, j ∉ t.members := fun j hj => by
      have := hb.flistOf_lt j hj
      omega
    have hnode := (hb.plain hrec').2.1
    rw [if_neg hrec]
    have hmark := hb.mark t.node hmem (fun j hj => absurd hj (hempty j))
      (fun m => by simp [hnode]) (fun h => absurd h hrec) fun _ => hnode
    exact hextends hmark (.inr hlen)
  rw [if_pos hrec]
  rcases hnode : t.node with _ | ⟨m⟩ | ⟨m⟩
  · -- there was no entry before
    have hempty : t.members = ∅ := by
      have hpending : ∀ {all counted}, t.Pending c x all counted → t.members = ∅ := fun hp => by
        rcases hp.node hrec with ⟨hempty, -⟩ | ⟨m, -, hm, -⟩
        · exact hempty
        · rw [hnode] at hm
          exact absurd hm (by simp)
      cases h with
      | idle ws h => exact hpending h.toPending
      | transfer l qs ws h => exact hpending h.toPending
      | finished l h =>
        have := h.node hrec
        rw [hnode] at this
        exact absurd this (by simp)
    have hmark := hb.mark (some (.last 0)) hmem
      (fun j hj => absurd (hempty ▸ hj) (Finset.notMem_empty j)) (fun m => by simp [hnode])
      (fun _ => ⟨0, rfl⟩) fun h => absurd hrec (by simp [h])
    exact hextends hmark (.inl hrec)
  · -- the last entry so far is still there, or all were skipped
    obtain ⟨hm, hgreatest, hundone⟩ : m ∈ t.members ∧ (∀ j ∈ t.members, c.pos j ≤ c.pos m) ∧
        ∀ j ∈ t.members, (t.files j).hlinkDone = false := by
      have hpending : ∀ {all counted}, t.Pending c x all counted → m ∈ t.members ∧
          (∀ j ∈ t.members, c.pos j ≤ c.pos m) ∧ ∀ j ∈ t.members, (t.files j).hlinkDone = false := fun hp => by
        rcases hp.node hrec with ⟨-, hm⟩ | ⟨k, hk, hm, hgreatest⟩
        · rw [hnode] at hm
          exact absurd hm (by simp)
        · rw [hnode] at hm
          obtain rfl : m = k := by simpa using hm
          exact ⟨hk, hgreatest, hp.undone⟩
      cases h with
      | idle ws h => exact hpending h.toPending
      | transfer l qs ws h => exact hpending h.toPending
      | finished l h =>
        have := h.node hrec
        rw [hnode] at this
        exact absurd this (by simp)
    show Extends c t (t.chainBehind c m i (i :: rest)) _
    rw [chainBehind]
    by_cases hlive : t.firstFlist ≤ c.flistOf m
    · rw [flistForNdx_eq_some.2 ⟨rfl, hlive⟩]
      refine hextends ⟨fun j hj _ => modify_of_ne _ fun hjm => hj (hjm ▸ hm), fun j hj => ?_,
        fun j hj => ?_, .inr ⟨m, hm, rfl, hlive, hgreatest⟩, fun j hj hjf => ?_, fun k hk => ?_,
        fun _ _ => ⟨m, hnode⟩, fun h => absurd hrec (by simp [h]), rfl⟩ (.inl hrec)
      · by_cases hjm : j = m
        · subst hjm
          rw [modify_self]
        · rw [modify_of_ne _ hjm]
      · have hjm : j ≠ m := fun hjm => hmem j hj (hjm ▸ hm)
        rw [modify_of_ne _ hjm, hb.blank j (hmem j hj)]
      · have hjm : j ≠ m := fun hjm => hmem j hj (hjm ▸ hm)
        rw [modify_of_ne _ hjm, hb.blank j (hmem j hj)] at hjf
        exact absurd hjf (by simp [blank])
      · rw [hnode] at hk
        exact absurd hk (by simp)
    · have hdead : t.flistForNdx c m = none := if_neg fun h => hlive (by simpa using h.2)
      have hskipped : ∀ j ∈ t.members, t.Skipped j := fun j hj => by
        have hjm := hc.mono (hgreatest j hj)
        by_contra hskip
        rcases past_or_fresh (c := c) hj with hpast | hfresh
        · have := h.live ⟨hpast, hskip, hundone j hj⟩
          omega
        · have := hb.cur_le j hfresh
          have := hb.first_le
          omega
      rw [hdead]
      have hmark := hb.mark t.node hmem hskipped (fun k => by simp [hnode])
        (fun _ => ⟨m, hnode⟩) fun h => absurd hrec (by simp [h])
      exact hextends hmark (.inl hrec)
  · -- the group has a path
    refine hextends ⟨fun _ _ _ => rfl, fun j hj => rfl, fun j hj => ?_,
      .inl ⟨by omega, .inl ⟨hrec, m, hnode⟩⟩, fun j hj hjf => ?_, fun _ h => h,
      fun _ hnp => absurd hnode (hnp m), fun h => absurd hrec (by simp [h]), rfl⟩ (.inl hrec)
    · rw [hb.blank j (hmem j hj)]
    · rw [hb.blank j (hmem j hj)] at hjf
      exact absurd hjf (by simp [blank])

/-- A new list without entries of the group. -/
theorem Holds.receive (h : t.Holds c x) (hrec : c.incRecurse = true) :
    { t with received := t.received + 1 }.Holds c x := by
  refine h.relist _ t.curFlist t.firstFlist (fun hb => ?_) (fun i hi => h.live hi) fun z hz => hz
  exact ⟨hb.blank, hb.fresh, fun i hi => (hb.flistOf_lt i hi).trans (Nat.lt_succ_self _), hb.cur_le,
    hb.cur_le_received.trans (Nat.le_succ _), hb.first_le, hb.next_le, hb.near, hb.head, hb.last,
    fun hplain => absurd hrec (by simp [hplain])⟩

end Events

/-! ## Runs -/

/-- Nothing is given up half way: no `stat` and no link fails, and no transfer fails that another
    entry depends on. -/
def Clean (c : LinkOrder) (t : LinkTable) : LinkEvent → Prop
  | .generate _ o => Sound o
  | .finish statOk o => (∀ i : ℕ, t.hlinkList = [(i : ℤ)] → statOk = true) ∧
      ∀ i : ℕ, t.hlinkList = [-2, (i : ℤ)] → Sound o ∧ t.Orphanless c i
  | _ => True

/-- The states after the events of a run. -/
inductive Reach (c : LinkOrder) : LinkTable → Prop
  | start : Reach c LinkTable.start
  | step {t t' : LinkTable} {e : LinkEvent} (h : Reach c t) (enabled : e.Enabled c t)
      (clean : t.Clean c e) (run : e.run c t = some t') : Reach c t'

theorem Holds.start (c : LinkOrder) : LinkTable.start.Holds c 0 := by
  have hno : ∀ i, i ∉ LinkTable.start.members := fun i => Finset.notMem_empty i
  refine .idle []
    { base := ⟨fun _ _ => rfl, fun i hi => absurd hi.1 (hno i), fun i hi => absurd hi (hno i),
        fun i hi => absurd hi.1 (hno i), le_rfl, le_rfl, .inl rfl, fun i hi => ?_,
        fun i hi => absurd hi.1 (hno i), fun i hi => absurd hi.1 (hno i), fun _ => ⟨rfl, rfl, rfl, Nat.zero_le _⟩⟩
      node := fun _ => .inl ⟨rfl, rfl⟩
      waits := fun i => ⟨fun hi => absurd hi (by simp), fun hi => absurd hi.1.1 (hno i)⟩
      undone := fun i hi => absurd hi (hno i)
      live := fun i hi => absurd hi (by simp)
      counts := fun _ _ => rfl
      made := rfl
      order := .nil
      chain := trivial
      unsent := fun i hi => absurd hi (by simp)
      active := rfl
      hlinkList := rfl
      ahead := fun hne => absurd rfl hne }
  rcases hi with hi | hi
  · exact absurd hi.1 (hno i)
  · exact absurd hi.1 (hno i)

/-- The next number of `get_hlink_num`. -/
theorem Holds.finishNext (hc : c.Ok) (h : t.Holds c 0) {statOk : Bool} {o : ℕ → LinkOutcome}
    (hne : t.hlinkList ≠ []) (hclean : t.Clean c (.finish statOk o)) :
    ∃ t', LinkEvent.finishNext c statOk o t = some t' ∧ t'.Holds c 0 := by
  obtain ⟨hstat, hfail⟩ := hclean
  cases h with
  | idle ws h => exact absurd h.hlinkList hne
  | finished l h => exact absurd h.hlinkList hne
  | transfer i qs ws h =>
    unfold LinkEvent.finishNext
    rcases h.flight with ⟨-, hlist⟩ | ⟨hactive, hlist | hlist⟩
    · exact absurd hlist hne
    · obtain ⟨t', ht', hholds⟩ := h.finishNext hactive
      refine ⟨_, ?_, hholds⟩
      rw [hlist]
      simp only [hstat i hlist]
      rw [if_neg (by omega), Int.toNat_natCast, ht']
      rfl
    · obtain ⟨ho, horphans⟩ := hfail i hlist
      obtain ⟨t', ht', hholds⟩ := h.failNext hc ho hactive horphans
      refine ⟨_, ?_, hholds⟩
      rw [hlist]
      simp only [if_true, Int.toNat_natCast]
      rw [ht']
      rfl

/-- **An event leads from one of the states to another.** -/
theorem Holds.run (hc : c.Ok) (h : t.Holds c 0) {e : LinkEvent} (henabled : e.Enabled c t)
    (hclean : t.Clean c e) : ∃ t', e.run c t = some t' ∧ t'.Holds c 0 := by
  cases e with
  | arrive ndxs =>
    obtain ⟨hrec, hlist, horder⟩ := henabled
    refine ⟨_, rfl, ?_⟩
    by_cases hne : ndxs = []
    · subst hne
      exact h.receive (hrec.resolve_right fun hlen => by simp at hlen)
    · have hplain : c.incRecurse = false → t.received = 0 ∧ 2 ≤ ndxs.length := fun hfalse =>
        hrec.resolve_left (by simp [hfalse])
      exact h.extend hc h.base hlist horder hne (fun hfalse => (hplain hfalse).1)
        (h.matchGnums hc hne hlist horder hplain)
  | generate i o =>
    obtain ⟨hi, hle, -, hnext⟩ := henabled
    exact h.generate hc hclean ⟨hi, hle⟩ hnext
  | nextFlist => exact ⟨_, rfl, h.nextFlist henabled.1 henabled.2⟩
  | status i success => exact ⟨_, rfl, h.status henabled success⟩
  | finish statOk o => exact h.finishNext hc henabled hclean
  | free => exact ⟨_, rfl, h.free hc henabled.1 henabled.2.1⟩
  | other flist up =>
    refine ⟨_, rfl, h.recount fun l => ?_⟩
    simp only [Function.update_apply]
    by_cases hl : l = flist
    · subst hl
      cases up
      · have hpos : 0 < t.others l := henabled.resolve_left (by simp)
        simp
        omega
      · simp
    · simp only [hl, if_false]

theorem Reach.holds (hc : c.Ok) (h : Reach c t) : t.Holds c 0 := by
  induction h with
  | start => exact Holds.start c
  | step _ henabled hclean hrun ih =>
    obtain ⟨t', ht', hholds⟩ := ih.run hc henabled hclean
    rw [hrun] at ht'
    exact Option.some.inj ht' ▸ hholds

end LinkTable

open LinkTable

variable {c : LinkOrder} {t : LinkTable}

/-! ## What holds in the end -/

/-- Two lists with entries of a group, 0 and 1 in the first and 3 in the second. -/
def twoLists : LinkOrder := ⟨true, id, fun i => if i < 3 then 0 else 1⟩

theorem twoLists_ok : twoLists.Ok := by
  refine ⟨id, fun {i j} h => ?_⟩
  have hij : i ≤ j := h
  show (if i < 3 then 0 else 1) ≤ if j < 3 then 0 else 1
  split_ifs <;> omega

/-- The entry 0 is missing, and the others are there but not up to date. -/
def onlyFirstMissing (i : ℕ) : LinkOutcome := ⟨if i = 0 then .missing true else .sent, true, true⟩

theorem sound_onlyFirstMissing : Sound onlyFirstMissing := by
  intro i
  unfold onlyFirstMissing
  split_ifs <;> simp

/-- A run in which 0 waits for 1, and 3 is behind 1 when the receiver is done with that one. -/
theorem reach_twoLists : ∃ t : LinkTable, Reach twoLists t ∧ t.hlinkList = [1] ∧
    (t.files 1).hlPrev = 3 ∧ (t.files 3).hlPrev = 0 ∧
    ∃ t' : LinkTable, Reach twoLists t' ∧ (∀ i ∈ t'.members, twoLists.pos i < t'.next) ∧
      t'.active = ∅ ∧ t'.hlinkList = [] ∧ t'.made = [(3, 1), (0, 1)] := by
  have h₁ := Reach.start.step (c := twoLists) (e := .arrive [0, 1]) (by decide) trivial rfl
  have h₂ := h₁.step (e := .arrive [3]) (by decide) trivial rfl
  have h₃ := h₂.step (e := .generate 0 onlyFirstMissing) (by decide) sound_onlyFirstMissing rfl
  have h₄ := h₃.step (e := .generate 1 onlyFirstMissing) (by decide) sound_onlyFirstMissing rfl
  have h₅ := h₄.step (e := .nextFlist) (by decide) trivial rfl
  have h₆ := h₅.step (e := .generate 3 onlyFirstMissing) (by decide) sound_onlyFirstMissing rfl
  have h₇ := h₆.step (e := .status 1 true) (by decide) trivial rfl
  have h₈ := h₇.step (e := .finish true onlyFirstMissing) (by decide)
    ⟨fun _ _ => rfl, fun i hi => absurd (show _ = some (-2 : ℤ) from congrArg List.head? hi) (by decide)⟩ rfl
  exact ⟨_, h₇, by decide, by decide, by decide, _, h₈, by decide, by decide, by decide, by decide⟩

end CloudEdgeBackup
