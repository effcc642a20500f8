/-
  What `recv_generator` makes of an entry of a group of hard links.

  * `LinkTable.Hand.recvGenerator`: nothing is transferred; if the entry is skipped and was the last
    one, then those before it have their turn again;
  * `LinkTable.Transfer.generate`: another one is transferred, which the entry waits behind;
  * `LinkTable.Finished.generate`: another one is finished, which the entry is linked to.
-/
import CloudEdgeBackup.HardLinkStates

namespace CloudEdgeBackup

namespace LinkTable

variable {c : LinkOrder} {t : LinkTable}

/-! ## Nothing is transferred -/

/-- Nothing is given up: no `stat` and no link of `hard_link_check` fails, and an entry is not
    dropped for another reason than those of `handle_skipped_hlink`. -/
def Sound (o : ℕ → LinkOutcome) : Prop :=
  ∀ i, (o i).statOk = true ∧ (o i).linkOk = true ∧ (o i).verdict ≠ .abandoned ∧
    (o i).verdict ≠ .missing false

section Generator

variable {x : ℕ → ℤ} {o : ℕ → LinkOutcome}

theorem Hand.nodup {i : ℕ} {ws : List ℕ} (h : t.Hand c x i ws) : (i :: ws).Nodup :=
  h.order.imp fun {a b} (hlt : c.pos b < c.pos a) (heq : a = b) => lt_irrefl _ (heq ▸ hlt)

/-- What `recv_generator` does with the entry in hand, if it can be skipped. -/
theorem Hand.recvGeneratorWith (hc : c.Ok) (ho : Sound o) {i : ℕ} {ws : List ℕ}
    {handle : ℕ → LinkTable → Option LinkTable}
    (hhandle : ∀ s : LinkTable, s.Hand c x i ws → ∃ s', handle i s = some s' ∧ s'.Holds c x)
    (h : t.Hand c x i ws) (hsent : (t.files i).fileSent = false)
    (hlast : (∀ j, ¬t.Fresh c j) → (t.files i).hlinkLast = true) :
    ∃ t', recvGeneratorWith c handle o i t = some t' ∧ t'.Holds c x := by
  unfold LinkTable.recvGeneratorWith
  by_cases hearly : (o i).verdict = .skipped true
  · rw [if_pos hearly]
    exact hhandle t h
  rw [if_neg hearly]
  -- after `hard_link_check` the entry has the index of the one that waited last
  obtain ⟨s, hs, hhand, hheads, hsent, hlast⟩ : ∃ s, t.checkNotFirst c i (o i) = some (s, .process) ∧
      s.Hand c x i ws ∧ Heads (s.files i).hlPrev ws ∧ (s.files i).fileSent = false ∧
      ((∀ j, ¬s.Fresh c j) → (s.files i).hlinkLast = true) := by
    unfold checkNotFirst
    by_cases hfirst : (t.files i).hlinkFirst = true
    · exact ⟨t, by simp [hfirst], h, h.first hfirst, hsent, hlast⟩
    · obtain ⟨z, hz, hcheck⟩ := h.hardLinkCheck hc (o i)
      exact ⟨t.setPrev i z, by simpa [hfirst] using hcheck, h.setPrev hz, by simpa using hz,
        by simpa using hsent, fun hfresh => by simpa using hlast hfresh⟩
  obtain ⟨-, -, habandoned, hmissing⟩ := ho i
  rw [hs]
  show ∃ t', s.dispose c handle i (o i).verdict = some t' ∧ _
  rcases hv : (o i).verdict with ⟨early⟩ | ⟨_ | _⟩ | _ | ⟨altDest⟩ | _
  · exact hhandle s hhand
  · exact absurd hv hmissing
  · by_cases hlast' : (s.files i).hlinkLast = true
    · exact ⟨_, by simp [dispose, hlast'], .transfer i [] ws (hhand.transfer hheads)⟩
    · refine ⟨_, by simp [dispose, hlast'], .idle (i :: ws) (hhand.idle hheads hsent ?_)⟩
      by_contra hnone
      exact hlast' (hlast fun j hj => hnone ⟨j, hj⟩)
  · exact ⟨_, rfl, .transfer i [] ws (hhand.transfer hheads)⟩
  · obtain ⟨t', ht', hfinished⟩ := hhand.finish hhand.nodup hhand.chain hheads hhand.active
      hhand.hlinkList true true (.inl rfl) altDest
    exact ⟨t', ht', .finished i (by simpa using hfinished)⟩
  · exact absurd hv habandoned

/-- `handle_skipped_hlink` for the entry in hand, and for those before it that are then skipped
    as well. -/
theorem Hand.handleSkippedHlink (hc : c.Ok) (ho : Sound o) {i : ℕ} {ws : List ℕ} {fuel : ℕ}
    (h : t.Hand c x i ws) (hfuel : ws.length < fuel) :
    ∃ t', handleSkippedHlink c o fuel i t = some t' ∧ t'.Holds c x := by
  induction ws generalizing t i fuel with
  | nil =>
    obtain ⟨fuel, rfl⟩ := Nat.exists_eq_succ_of_ne_zero (by omega : fuel ≠ 0)
    obtain ⟨t', newLast, hskip, hresult⟩ := h.skipHardLink hc
    rw [LinkTable.handleSkippedHlink, hskip]
    cases newLast with
    | none => exact ⟨t', rfl, .idle [] hresult⟩
    | some p =>
      obtain ⟨ws', hws, -⟩ := hresult
      exact absurd hws (by simp)
  | cons p ws ih =>
    obtain ⟨fuel, rfl⟩ := Nat.exists_eq_succ_of_ne_zero (by omega : fuel ≠ 0)
    obtain ⟨t', newLast, hskip, hresult⟩ := h.skipHardLink hc
    rw [LinkTable.handleSkippedHlink, hskip]
    cases newLast with
    | none => exact ⟨t', rfl, .idle (p :: ws) hresult⟩
    | some q =>
      obtain ⟨ws', hws, hhand, hsent, hlast⟩ := hresult
      obtain ⟨rfl, rfl⟩ := List.cons.inj hws
      exact hhand.recvGeneratorWith hc ho (fun s hs => ih hs (by simpa using hfuel)) hsent fun _ => hlast

theorem Hand.recvGenerator (hc : c.Ok) (ho : Sound o) {i : ℕ} {ws : List ℕ}
    (h : t.Hand c x i ws) (hsent : (t.files i).fileSent = false)
    (hlast : (∀ j, ¬t.Fresh c j) → (t.files i).hlinkLast = true) :
    ∃ t', t.recvGenerator c o i = some t' ∧ t'.Holds c x := by
  refine h.recvGeneratorWith hc ho (fun s hs => hs.handleSkippedHlink hc ho ?_) hsent hlast
  exact h.length_lt (List.subset_cons_self ..) (List.nodup_cons.1 h.nodup).2

variable {i : ℕ}

/-- The generator comes to the next entry. -/
theorem Base.come (hb : t.Base c) (hi : t.Fresh c i) : { t with next := c.pos i + 1 }.Base c := by
  have hfresh : ∀ {j}, { t with next := c.pos i + 1 }.Fresh c j → t.Fresh c j := fun {j} hj =>
    ⟨hj.1, hi.2.trans ((Nat.le_succ _).trans hj.2)⟩
  exact ⟨hb.blank, fun j hj => hb.fresh j (hfresh hj), hb.flistOf_lt,
    fun j hj => hb.cur_le j (hfresh hj), hb.cur_le_received, hb.first_le, .inr ⟨i, hi.1, le_rfl⟩,
    fun j hj => hb.near j (hj.imp_left hfresh), fun j hj => hb.head j (hfresh hj),
    fun j hj => hb.last j (hfresh hj), hb.plain⟩

theorem past_come (hc : c.Ok) {j : ℕ} (hi : t.Fresh c i)
    (hnext : ∀ j ∈ t.members, t.next ≤ c.pos j → c.pos i ≤ c.pos j) :
    { t with next := c.pos i + 1 }.Past c j ↔ j = i ∨ t.Past c j := by
  constructor
  · rintro ⟨hj, hlt⟩
    rcases (past_or_fresh hj : t.Past c j ∨ t.Fresh c j) with hpast | hfresh
    · exact .inr hpast
    · exact .inl (hc.inj (le_antisymm (Nat.lt_succ_iff.1 hlt) (hnext j hj hfresh.2)))
  · rintro (rfl | hj)
    · exact ⟨hi.1, Nat.lt_succ_self _⟩
    · exact ⟨hj.1, (hj.2.trans_le hi.2).trans (Nat.lt_succ_self _)⟩

theorem Pending.come (hc : c.Ok) {all counted : List ℕ} (h : t.Pending c x all counted)
    (hi : t.Fresh c i) (hnext : ∀ j ∈ t.members, t.next ≤ c.pos j → c.pos i ≤ c.pos j) :
    { t with next := c.pos i + 1 }.Pending c x (i :: all) counted := by
  refine ⟨h.base.come hi, h.node, fun j => ?_, h.undone, fun j hj => ?_, h.counts, h.made⟩
  · rw [Waits, past_come hc hi hnext, List.mem_cons, h.waits j, Waits]
    constructor
    · rintro (rfl | hj)
      · exact ⟨.inl rfl, (h.base.fresh j hi).2.2, h.undone j hi.1⟩
      · exact ⟨.inr hj.1, hj.2⟩
    · rintro ⟨rfl | hj, hj'⟩
      · exact .inl rfl
      · exact .inr ⟨hj, hj'⟩
  · rcases List.mem_cons.1 hj with rfl | hj
    · exact h.base.first_le.trans (h.base.cur_le j hi)
    · exact h.live j hj

theorem Pending.lt_fresh {all counted : List ℕ} (h : t.Pending c x all counted) (hi : t.Fresh c i)
    {j : ℕ} (hj : j ∈ all) : c.pos j < c.pos i :=
  (((h.waits j).1 hj).1.2).trans_le hi.2

/-- The next entry when nothing is transferred. -/
theorem Idle.generate (hc : c.Ok) (ho : Sound o) {ws : List ℕ} (h : t.Idle c x ws)
    (hi : t.Fresh c i) (hnext : ∀ j ∈ t.members, t.next ≤ c.pos j → c.pos i ≤ c.pos j) :
    ∃ t', { t with next := c.pos i + 1 }.recvGenerator c o i = some t' ∧ t'.Holds c x := by
  have hlast : (∀ j, ¬{ t with next := c.pos i + 1 }.Fresh c j) → (t.files i).hlinkLast = true :=
    fun hfresh => h.base.last i hi fun j hj => Nat.lt_succ_iff.1 (not_le.1 fun hle => hfresh j ⟨hj, hle⟩)
  have hhand : { t with next := c.pos i + 1 }.Hand c x i ws :=
    { toPending := h.come hc hi hnext
      order := List.pairwise_cons.2 ⟨fun j hj => h.lt_fresh hi hj, h.order⟩
      chain := h.chain.congr fun _ _ => rfl
      unsent := h.unsent
      active := h.active
      hlinkList := h.hlinkList
      near_self := h.base.near i (.inl hi)
      first := fun hfirst => by
        obtain ⟨hneg, hall⟩ := h.base.head i hi hfirst
        cases ws with
        | nil => exact hneg
        | cons p ws =>
          have hp := (h.waits p).1 List.mem_cons_self
          exact absurd (hall p hp.1.1 (h.lt_fresh hi List.mem_cons_self)) hp.2.1
      last_self := fun _ => hlast }
  exact hhand.recvGenerator hc ho (h.base.fresh i hi).2.1 hlast

/-! ## During a transfer -/

theorem Chain.insert {t' : LinkTable} {init ws : List ℕ} {p i : ℕ} (h : t.Chain (init ++ p :: ws))
    (hp : (t'.files p).hlPrev = i) (hi : (t'.files i).hlPrev = (t.files p).hlPrev)
    (hfiles : ∀ j ∈ init ++ ws, (t'.files j).hlPrev = (t.files j).hlPrev) :
    t'.Chain (init ++ p :: i :: ws) := by
  induction init with
  | nil => exact ⟨hp, hi ▸ h.1, h.2.congr fun j hj => hfiles j hj⟩
  | cons a init ih =>
    refine ⟨?_, ih h.2 fun j hj => hfiles j (List.mem_cons_of_mem _ hj)⟩
    rw [hfiles a List.mem_cons_self]
    have ha := h.1
    cases init <;> exact ha

/-- The entries that wait, those that came last first. -/
theorem Transfer.descending {l : ℕ} {qs ws : List ℕ} (h : t.Transfer c x l qs ws) :
    ((l :: qs).reverse ++ ws).Pairwise fun i j => c.pos j < c.pos i := by
  obtain ⟨hl, hws⟩ := List.pairwise_cons.1 h.order
  obtain ⟨hq, hqs⟩ := List.pairwise_cons.1 h.queue
  refine List.pairwise_append.2 ⟨List.pairwise_reverse.2 h.queue, hws, fun a ha b hb => ?_⟩
  rw [List.mem_reverse] at ha
  rcases List.mem_cons.1 ha with rfl | ha
  · exact hl b hb
  · exact (hl b hb).trans (hq a ha)

section

variable {l : ℕ} {qs ws : List ℕ}

theorem Transfer.nodup (h : t.Transfer c x l qs ws) : (l :: qs ++ ws).Nodup := by
  have hnodup : ((l :: qs).reverse ++ ws).Nodup :=
    h.descending.imp fun {a b} (hlt : c.pos b < c.pos a) (heq : a = b) => lt_irrefl _ (heq ▸ hlt)
  exact ((List.reverse_perm _).append_right ws).nodup_iff.1 hnodup

/-- `check_prior` finds the entry that came last. -/
theorem Transfer.checkPrior (hc : c.Ok) (h : t.Transfer c x l qs ws) {s : LinkTable}
    {all counted : List ℕ} (hs : s.Pending c x all counted) (hi : s.Past c i)
    (hall : ∀ j, j ∈ l :: qs ++ ws → s.Waits c j ∧ c.pos j < c.pos i)
    (hbefore : ∀ j ∈ all, j = i ∨ j ∈ l :: qs ++ ws) (hnear : s.Near c i (s.files i).hlPrev) :
    ∃ (init : List ℕ) (p : ℕ), l :: qs = init ++ [p] ∧ s.Near c i p ∧
      s.checkPrior c i = some (s.setPrev i p, .entry p) := by
  have hlist : ∃ init p, l :: qs = init ++ [p] :=
    ⟨_, _, (List.dropLast_append_getLast (List.cons_ne_nil l qs)).symm⟩
  obtain ⟨init, p, hp⟩ := hlist
  have hmem : ∀ j, j ∈ (l :: qs).reverse ++ ws ↔ j ∈ l :: qs ++ ws := fun j => by
    rw [List.mem_append, List.mem_append, List.mem_reverse]
  obtain ⟨z, hz, hnear', hprior⟩ := hs.checkPrior hc ((l :: qs).reverse ++ ws)
    (fun j hj hlt hskip => (hmem j).2 ((hbefore j ((hs.skipped_or hi hj hlt).resolve_left hskip)).resolve_left
      (by rintro rfl; exact lt_irrefl _ hlt)))
    h.descending (fun j hj => hall j ((hmem j).1 hj)) hi.1 hnear
  have hrev : (l :: qs).reverse ++ ws = p :: (init.reverse ++ ws) := by
    rw [hp, List.reverse_append]
    rfl
  rw [hrev] at hz hprior
  have hzp : z = p := hz
  subst hzp
  exact ⟨init, p, hp, hnear', hprior⟩

/-- An entry that is skipped leaves the others as they were. -/
theorem Transfer.skipped (h : t.Transfer c x l qs ws) {s t' : LinkTable}
    (hs : s.Pending c x (i :: (l :: qs ++ ws)) (l :: qs ++ ws))
    (hsame₀ : s = { t with next := s.next }) (hi : s.Past c i) (hlt : ∀ j ∈ l :: qs ++ ws, c.pos j < c.pos i)
    (hfiles : ∀ j, j ≠ i → t'.files j = s.files j) (hskip : t'.Skipped i)
    (hdone : (t'.files i).hlinkDone = (s.files i).hlinkDone)
    (hnear : t'.Near c i (t'.files i).hlPrev) (ha : Agrees c s t')
    (hsame : t' = { s with files := t'.files }) : t'.Transfer c x l qs ws := by
  have hne : ∀ j ∈ l :: qs ++ ws, j ≠ i := fun j hj hji => lt_irrefl _ (hji ▸ hlt j hj)
  have hfile : ∀ j ∈ l :: qs ++ ws, t'.files j = t.files j := fun j hj => by
    rw [hfiles j (hne j hj), hsame₀]
  refine
    { base := hs.base.of_agrees ha fun j hj hj' => ?_
      node := by rw [hsame]; exact hs.node
      waits := fun j => ?_
      undone := fun j hj => ?_
      live := fun j hj => ha.firstFlist ▸ hs.live j (List.mem_cons_of_mem _ hj)
      counts := by rw [hsame]; exact hs.counts
      made := by rw [hsame]; exact hs.made
      order := h.order
      queue := h.queue
      chain := h.chain.congr fun j hj => by rw [hfile j hj]
      sent := fun j hj => by rw [hfile j (List.mem_append_left _ hj)]; exact h.sent j hj
      unsent := fun j hj => by rw [hfile j (List.mem_append_right _ hj)]; exact h.unsent j hj
      flight := by rw [hsame, hsame₀]; exact h.flight }
  · by_cases hji : j = i
    · exact hji ▸ hnear
    · rw [Skipped, hfiles j hji] at hj'
      rw [hfiles j hji]
      exact ha.near (hs.base.near j (.inr ⟨hj.1, hj'⟩))
  · by_cases hji : j = i
    · subst hji
      exact ⟨fun hj => absurd rfl (hne j hj), fun hw => absurd hskip hw.2.1⟩
    · rw [ha.waits (by rw [hfiles j hji]) (by rw [hfiles j hji]), ← hs.waits j]
      exact ⟨List.mem_cons_of_mem _, fun hj => (List.mem_cons.1 hj).resolve_left hji⟩
  · rw [ha.members] at hj
    by_cases hji : j = i
    · rw [hji, hdone]
      exact hs.undone i hi.1
    · rw [hfiles j hji]
      exact hs.undone j hj

/-- The next entry is skipped. -/
theorem Transfer.handleSkippedHlink (hc : c.Ok) (h : t.Transfer c x l qs ws) {s : LinkTable}
    (hs : s.Pending c x (i :: (l :: qs ++ ws)) (l :: qs ++ ws)) (hsame : s = { t with next := s.next })
    (hlt : ∀ j ∈ l :: qs ++ ws, c.pos j < c.pos i) (hnear : s.Near c i (s.files i).hlPrev) (fuel : ℕ) :
    ∃ t', LinkTable.handleSkippedHlink c o (fuel + 1) i s = some t' ∧ t'.Transfer c x l qs ws := by
  have hi := ((hs.waits i).1 List.mem_cons_self).1
  let t₁ := s.modify i fun file => { file with skipHlink := true }
  have hfiles₁ : ∀ j, j ≠ i → t₁.files j = s.files j := fun j hj => modify_of_ne _ hj
  have hself : t₁.files i = { s.files i with skipHlink := true } := modify_self ..
  have hskip₁ : t₁.Skipped i := by rw [Skipped, hself]
  have ha₁ : Agrees c s t₁ := (Agrees.refl c s).modify hi fun _ _ => rfl
  have htransfer₁ := h.skipped hs hsame hi hlt hfiles₁ hskip₁ (by rw [hself])
    (by rw [hself]; exact ha₁.near hnear) ha₁ rfl
  rw [LinkTable.handleSkippedHlink, LinkTable.skipHardLink]
  dsimp only
  by_cases hlast : (s.files i).hlinkLast = true
  swap
  · exact ⟨t₁, by rw [if_pos (by rw [modify_self]; simpa using hlast)]; rfl, htransfer₁⟩
  rw [if_neg (by rw [modify_self]; simpa using hlast)]
  obtain ⟨init, p, hp, hpnear, hprior⟩ := h.checkPrior hc htransfer₁.toPending ((ha₁.past i).2 hi)
    (fun j hj => ⟨(htransfer₁.waits j).1 hj, hlt j hj⟩) (fun j hj => .inr hj)
    (ha₁.near (by rw [hself]; exact hnear))
  have hmem : p ∈ l :: qs := hp ▸ (by simp)
  let t₂ := t₁.setPrev i p
  have htransfer₂ : t₂.Transfer c x l qs ws := h.skipped hs hsame hi hlt
    (fun j hj => (setPrev_of_ne _ hj).trans (hfiles₁ j hj)) (by simpa [t₂, Skipped] using hskip₁)
    (by simp [t₂, hself]) (by simpa [t₂] using hpnear.setPrev) (ha₁.modify hi fun _ h => h) rfl
  refine ⟨t₂, ?_, htransfer₂⟩
  show ((t₁.checkPrior c i).bind _).bind _ = some t₂
  rw [hprior]
  show (Option.bind (if ((t₂.files p).hlinkDone || (t₂.files p).fileSent) = true then some (t₂, none) else _) _) = _
  rw [if_pos (by rw [htransfer₂.sent p hmem, Bool.or_true])]
  rfl

/-- The next entry waits behind those that came after the one in transfer. -/
theorem Transfer.hardLinkCheck (hc : c.Ok) (h : t.Transfer c x l qs ws) {s : LinkTable}
    (hs : s.Pending c x (i :: (l :: qs ++ ws)) (l :: qs ++ ws)) (hsame : s = { t with next := s.next })
    (hlt : ∀ j ∈ l :: qs ++ ws, c.pos j < c.pos i) (hnear : s.Near c i (s.files i).hlPrev)
    (o : LinkOutcome) :
    ∃ t', s.hardLinkCheck c i o = some (t', .skip) ∧ t'.Transfer c x l (qs ++ [i]) ws := by
  have hi := ((hs.waits i).1 List.mem_cons_self).1
  have hfile₀ : s.files = t.files := by rw [hsame]
  obtain ⟨init, p, hp, -, hprior⟩ := h.checkPrior hc hs hi
    (fun j hj => ⟨(hs.waits j).1 (List.mem_cons_of_mem _ hj), hlt j hj⟩)
    (fun j hj => List.mem_cons.1 hj) hnear
  have hpmem : p ∈ l :: qs := hp ▸ (by simp)
  have hpwaits := (hs.waits p).1 (List.mem_cons_of_mem _ (List.mem_append_left _ hpmem))
  have hpi : p ≠ i := fun hpi => lt_irrefl _ (hpi ▸ hlt p (List.mem_append_left _ hpmem))
  have hpfile : (s.setPrev i p).files p = s.files p := setPrev_of_ne _ hpi
  have hpdone := hs.undone p hpwaits.1.1
  have hpsent : (s.files p).fileSent = true := by
    rw [hfile₀]
    exact h.sent p hpmem
  let t₁ := (s.setPrev i p).modify i fun file =>
    { file with hlPrev := (s.files p).hlPrev, fileSent := true }
  let t' := (t₁.setPrev p i).count c i 1
  have hresult : s.hardLinkCheck c i o = some (t', .skip) := by
    rw [hardLinkCheck_sent hprior (by rw [hpfile]; exact hpdone) (by rw [hpfile]; exact hpsent), hpfile]
  have hip : t'.files i = { s.files i with hlPrev := (s.files p).hlPrev, fileSent := true } := by
    show (t₁.setPrev p i).files i = _
    rw [setPrev_of_ne _ hpi.symm, modify_self]
    simp [LinkTable.setPrev]
  have hpp : t'.files p = { s.files p with hlPrev := i } := by
    show (t₁.setPrev p i).files p = _
    rw [LinkTable.setPrev, modify_self, modify_of_ne _ hpi, hpfile]
  have hfiles : ∀ j, j ≠ i → j ≠ p → t'.files j = s.files j := fun j hji hjp => by
    show (t₁.setPrev p i).files j = _
    rw [setPrev_of_ne _ hjp, modify_of_ne _ hji, setPrev_of_ne _ hji]
  have hkeep : ∀ {α : Type} (g : LinkedFile → α)
      (_ : ∀ (file : LinkedFile) z b, g { file with hlPrev := z, fileSent := b } = g file) (j : ℕ),
      g (t'.files j) = g (s.files j) := fun g hg j => by
    by_cases hji : j = i
    · rw [hji, hip]
      exact hg (s.files i) _ _
    · by_cases hjp : j = p
      · rw [hjp, hpp]
        exact hg (s.files p) i (s.files p).fileSent
      · rw [hfiles j hji hjp]
  have hskip := hkeep LinkedFile.skipHlink fun _ _ _ => rfl
  have hdone := hkeep LinkedFile.hlinkDone fun _ _ _ => rfl
  have ha : Agrees c s t' := by
    have h₁ : Agrees c s t₁ := ((Agrees.refl c s).setPrev hi p).modify hi fun _ h => h
    exact (h₁.setPrev hpwaits.1 i).count i 1
  have hsplit : l :: (qs ++ [i]) ++ ws = init ++ p :: i :: ws := by
    rw [← List.cons_append, hp]
    simp
  have hsplit' : l :: qs ++ ws = init ++ p :: ws := by
    rw [hp]
    simp
  have hmem : ∀ j, j ∈ l :: (qs ++ [i]) ++ ws ↔ j ∈ i :: (l :: qs ++ ws) := fun j => by
    simp only [List.cons_append, List.append_assoc, List.nil_append, List.mem_cons, List.mem_append]
    tauto
  have hother : ∀ j ∈ init ++ ws, j ≠ i ∧ j ≠ p := fun j hj => by
    have hnodup := h.nodup
    rw [hsplit', List.nodup_middle, List.nodup_cons] at hnodup
    refine ⟨fun hji => ?_, fun hjp => hnodup.1 (hjp ▸ hj)⟩
    have hj' : j ∈ l :: qs ++ ws := by
      rw [hsplit']
      exact (List.mem_append.1 hj).elim (fun h => by simp [h]) fun h => by simp [h]
    exact lt_irrefl _ (hji ▸ hlt j hj')
  have hbefore : ∀ j ∈ l :: qs, c.pos j < c.pos i := fun j hj => hlt j (List.mem_append_left _ hj)
  have hflight : s.active = {l} ∧ s.hlinkList = [] ∨
      s.active = ∅ ∧ (s.hlinkList = [(l : ℤ)] ∨ s.hlinkList = [-2, (l : ℤ)]) := by
    rw [hsame]
    exact h.flight
  refine ⟨t', hresult, ?_⟩
  refine
    { base := hs.base.of_agrees ha fun j hj hj' => ?_
      node := hs.node
      waits := fun j => (hmem j).trans ((hs.waits j).trans (ha.waits (hskip j) (hdone j)).symm)
      undone := fun j hj => (hdone j).trans (hs.undone j hj)
      live := fun j hj => hs.live j ((hmem j).1 hj)
      counts := fun hrec k => ?_
      made := hs.made
      order := h.order
      queue := ?_
      chain := ?_
      sent := fun j hj => ?_
      unsent := fun j hj => ?_
      flight := hflight }
  · have hj'' : s.Skipped j := (hskip j).symm.trans hj'
    have hji : j ≠ i := fun hji => ((hs.waits i).1 List.mem_cons_self).2.1 (hji ▸ hj'')
    have hjp : j ≠ p := fun hjp => hpwaits.2.1 (hjp ▸ hj'')
    rw [hfiles j hji hjp]
    exact ha.near (hs.base.near j (.inr ⟨hj.1, hj''⟩))
  · show Function.update s.inProgress (c.flistOf i) (s.inProgress (c.flistOf i) + 1) k = s.others k + _ + x k
    have hk := hs.counts hrec k
    rw [hsplit'] at hk
    rw [Function.update_apply, hsplit]
    simp only [List.countP_append, List.countP_cons] at hk ⊢
    by_cases hki : k = c.flistOf i
    · subst hki
      simp only [decide_true, if_true]
      omega
    · simp only [hki, Ne.symm hki, decide_false, Bool.false_eq_true, if_false, add_zero]
      omega
  · rw [← List.cons_append]
    refine List.pairwise_append.2 ⟨h.queue, List.pairwise_singleton .., fun a ha b hb => ?_⟩
    rw [List.mem_singleton.1 hb]
    exact hbefore a ha
  · rw [hsplit]
    refine Chain.insert (t := t) (by rw [← hsplit']; exact h.chain) (by rw [hpp]) (by rw [hip, hfile₀])
      fun j hj => ?_
    rw [hfiles j (hother j hj).1 (hother j hj).2, hfile₀]
  · rw [← List.cons_append] at hj
    rcases List.mem_append.1 hj with hj | hj
    · by_cases hjp : j = p
      · rw [hjp, hpp]
        exact hpsent
      · rw [hfiles j (fun hji => lt_irrefl _ (hji ▸ hbefore j hj)) hjp, hfile₀]
        exact h.sent j hj
    · rw [List.mem_singleton.1 hj, hip]
  · have hj' := hother j (List.mem_append_right _ hj)
    rw [hfiles j hj'.1 hj'.2, hfile₀]
    exact h.unsent j hj

/-- The next entry when another one is transferred. -/
theorem Transfer.generate (hc : c.Ok) (h : t.Transfer c x l qs ws) (hi : t.Fresh c i)
    (hnext : ∀ j ∈ t.members, t.next ≤ c.pos j → c.pos i ≤ c.pos j) :
    ∃ t', { t with next := c.pos i + 1 }.recvGenerator c o i = some t' ∧ t'.Holds c x := by
  let s := { t with next := c.pos i + 1 }
  have hs : s.Pending c x (i :: (l :: qs ++ ws)) (l :: qs ++ ws) := h.come hc hi hnext
  have hlt : ∀ j ∈ l :: qs ++ ws, c.pos j < c.pos i := fun j hj => h.lt_fresh hi hj
  have hnear : s.Near c i (s.files i).hlPrev := h.base.near i (.inl hi)
  rw [LinkTable.recvGenerator, LinkTable.recvGeneratorWith]
  by_cases hearly : (o i).verdict = .skipped true
  · rw [if_pos hearly]
    obtain ⟨t', ht', htransfer⟩ := h.handleSkippedHlink hc hs rfl hlt hnear s.members.card
    exact ⟨t', ht', .transfer l qs ws htransfer⟩
  rw [if_neg hearly]
  have hl := (h.waits l).1 (by simp)
  have hfirst : (t.files i).hlinkFirst = false := by
    by_contra hfirst
    exact hl.2.1 ((h.base.head i hi (by simpa using hfirst)).2 l hl.1.1 (hlt l (by simp)))
  obtain ⟨t', ht', htransfer⟩ := h.hardLinkCheck hc hs rfl hlt hnear (o i)
  refine ⟨t', ?_, .transfer l (qs ++ [i]) ws htransfer⟩
  have hcheck : s.checkNotFirst c i (o i) = some (t', .skip) := by
    rw [checkNotFirst, if_pos (by rw [show (s.files i).hlinkFirst = false from hfirst]; rfl), ht']
  rw [hcheck]
  rfl

end

/-! ## After the end -/

section

variable {l : ℕ}

/-- `check_prior` for an entry that is done: it gives the one it is linked to. -/
theorem checkPrior_done {j : ℕ} (hnode : c.incRecurse = true → t.node = some (.path l))
    (hplain : c.incRecurse = false → t.firstFlist = 0) (hskip : ¬t.Skipped l)
    (hlinked : (t.files j).hlPrev = l ∨
      c.incRecurse = true ∧ t.flistForNdx c (t.files j).hlPrev = none) :
    t.checkPrior c j = some (t, .entry l) ∨
      c.incRecurse = true ∧ t.checkPrior c j = some (t, .name l) := by
  have hname : c.incRecurse = true → t.flistForNdx c (t.files j).hlPrev = none →
      t.checkPrior c j = some (t, .name l) := fun hrec hdead => by
    rw [checkPrior, priorLoop, hdead]
    simp [hnode hrec, hrec]
  rcases hlinked with hprev | ⟨hrec, hdead⟩
  · by_cases hlive : t.firstFlist ≤ c.flistOf l
    · left
      have hsome : t.flistForNdx c (t.files j).hlPrev = some l := flistForNdx_eq_some.2 ⟨hprev, hlive⟩
      rw [checkPrior, priorLoop, hsome]
      simp only [Bool.not_eq_true']
      rw [if_pos (by simpa [Skipped] using hskip)]
      rfl
    · have hrec : c.incRecurse = true := by
        by_contra hrec
        have := hplain (by simpa using hrec)
        omega
      refine .inr ⟨hrec, hname hrec ?_⟩
      rw [hprev]
      unfold flistForNdx
      rw [if_neg (by simp; omega)]
  · exact .inr ⟨hrec, hname hrec hdead⟩

/-- The next entry is skipped after the end. -/
theorem Finished.skipped (hc : c.Ok) (h : t.Finished c x l) (hi : t.Fresh c i)
    (hnext : ∀ j ∈ t.members, t.next ≤ c.pos j → c.pos i ≤ c.pos j) {s t' : LinkTable}
    (hs : s = { t with next := c.pos i + 1 }) (hfiles : ∀ j, j ≠ i → t'.files j = s.files j)
    (hskip : t'.Skipped i) (hnear : t'.Near c i (t'.files i).hlPrev) (ha : Agrees c s t')
    (hsame : t' = { s with files := t'.files }) : t'.Finished c x l := by
  subst hs
  have hpast : ∀ j, t'.Past c j ↔ j = i ∨ t.Past c j := fun j =>
    (ha.past j).trans (past_come hc hi hnext)
  have hne : ∀ j, t'.Past c j → ¬t'.Skipped j → j ≠ i ∧ t.Past c j ∧ ¬t.Skipped j := fun j hj hj' => by
    have hji : j ≠ i := fun hji => hj' (hji ▸ hskip)
    refine ⟨hji, ((hpast j).1 hj).resolve_left hji, ?_⟩
    rwa [Skipped, hfiles j hji] at hj'
  have hli : l ≠ i := fun hli => hi.not_past (hli ▸ h.past)
  refine
    { base := (h.base.come hi).of_agrees ha fun j hj hj' => ?_
      node := by rw [hsame]; exact h.node
      past := (hpast l).2 (.inr h.past)
      unskipped := by rw [Skipped, hfiles l hli]; exact h.unskipped
      done := fun j hj hj' => ?_
      first := fun j hj hj' => ?_
      linked := fun j hj hj' hjl => ?_
      unnamed := fun j hj => ?_
      counts := by rw [hsame]; exact h.counts
      active := by rw [hsame]; exact h.active
      hlinkList := by rw [hsame]; exact h.hlinkList
      made_nodup := by rw [hsame]; exact h.made_nodup
      made := fun p => ?_ }
  · by_cases hji : j = i
    · exact hji ▸ hnear
    · rw [Skipped, hfiles j hji] at hj'
      rw [hfiles j hji]
      exact ha.near ((h.base.come hi).near j (.inr ⟨hj.1, hj'⟩))
  · obtain ⟨hji, hj, hj'⟩ := hne j hj hj'
    rw [hfiles j hji]
    exact h.done j hj hj'
  · obtain ⟨hji, hj, hj'⟩ := hne j hj hj'
    rw [hfiles j hji]
    exact h.first j hj hj'
  · obtain ⟨hji, hj, hj'⟩ := hne j hj hj'
    rw [hfiles j hji, ha.flistForNdx]
    exact h.linked j hj hj' hjl
  · have hj' := (ha.fresh j).1 hj
    rw [ha.files j hj'.not_past]
    exact h.unnamed j ⟨hj'.1, hi.2.trans ((Nat.le_succ _).trans hj'.2)⟩
  · have hmade : t'.made = t.made := by rw [hsame]
    rw [hmade, h.made p]
    refine and_congr_right fun _ => and_congr_right fun _ => ⟨?_, ?_⟩
    · rintro ⟨hp, hp'⟩
      have hpi : p.1 ≠ i := fun hpi => hi.not_past (hpi ▸ hp)
      exact ⟨(hpast p.1).2 (.inr hp), by rwa [Skipped, hfiles _ hpi]⟩
    · rintro ⟨hp, hp'⟩
      exact (hne p.1 hp hp').2

/-- What `hard_link_check` leaves of an entry that it links to `l`. -/
def linked (t : LinkTable) (i l : ℕ) (z : ℤ) : LinkTable :=
  { t.setPrev i z with made := t.made ++ [(i, l)] }.modify i fun file => { file with hlinkDone := true }

theorem linked_of_ne {j : ℕ} (z : ℤ) (h : j ≠ i) : (t.linked i l z).files j = t.files j :=
  (modify_of_ne _ h).trans (setPrev_of_ne _ h)

theorem linked_self (z : ℤ) :
    (t.linked i l z).files i = { t.files i with hlPrev := z, hlinkDone := true } := by
  rw [linked, modify_self]
  show { (t.setPrev i z).files i with hlinkDone := true } = _
  rw [LinkTable.setPrev, modify_self]

/-- The next entry is linked to the one that is finished. -/
theorem Finished.link (hc : c.Ok) (h : t.Finished c x l) (hi : t.Fresh c i)
    (hnext : ∀ j ∈ t.members, t.next ≤ c.pos j → c.pos i ≤ c.pos j) {z : ℤ}
    (hz : z = l ∨ c.incRecurse = true ∧ t.flistForNdx c z = none) :
    ({ t with next := c.pos i + 1 }.linked i l z).Finished c x l := by
  let s := { t with next := c.pos i + 1 }
  let t' := s.linked i l z
  have hpast : ∀ j, t'.Past c j ↔ j = i ∨ t.Past c j := fun j => past_come hc hi hnext
  have hself : t'.files i = { t.files i with hlPrev := z, hlinkDone := true } := linked_self z
  have hfiles : ∀ j, j ≠ i → t'.files j = t.files j := fun j hj => linked_of_ne z hj
  have hskip : ∀ j, (t'.files j).skipHlink = (t.files j).skipHlink := fun j => by
    by_cases hji : j = i
    · rw [hji, hself]
    · rw [hfiles j hji]
  have hine : ∀ j, t.Past c j → j ≠ i := fun j hj hji => hi.not_past (hji ▸ hj)
  have hli : l ≠ i := hine l h.past
  have hiskip : ¬t'.Skipped i := by
    rw [Skipped, hskip]
    exact (h.base.fresh i hi).2.2
  have ha : Agrees c s t' := by
    have hsi : s.Past c i := ⟨hi.1, Nat.lt_succ_self _⟩
    have h₁ : Agrees c s { s.setPrev i z with made := s.made ++ [(i, l)] } :=
      have h₀ := (Agrees.refl c s).setPrev hsi z
      ⟨h₀.members, h₀.next, h₀.received, h₀.curFlist, h₀.firstFlist, h₀.named, h₀.node, h₀.skipped, h₀.files⟩
    exact h₁.modify hsi fun _ h => h
  refine
    { base := (h.base.come hi).of_agrees ha fun j hj hj' => ?_
      node := h.node
      past := (hpast l).2 (.inr h.past)
      unskipped := by rw [Skipped, hskip]; exact h.unskipped
      done := fun j hj hj' => ?_
      first := fun j hj hj' => ?_
      linked := fun j hj hj' hjl => ?_
      unnamed := fun j hj => ?_
      counts := h.counts
      active := h.active
      hlinkList := h.hlinkList
      made_nodup := ?_
      made := fun p => ?_ }
  · have hji : j ≠ i := fun hji => hiskip (hji ▸ hj')
    rw [Skipped, hskip] at hj'
    rw [hfiles j hji]
    exact ha.near ((h.base.come hi).near j (.inr ⟨hj.1, hj'⟩))
  · rw [Skipped, hskip] at hj'
    rcases (hpast j).1 hj with rfl | hj
    · rw [hself]
    · rw [hfiles j (hine j hj)]
      exact h.done j hj hj'
  · rw [Skipped, hskip] at hj'
    rcases (hpast j).1 hj with rfl | hj
    · rw [hself]
      exact ⟨fun hf => absurd ((h.unnamed j hi).symm.trans hf) (by simp), fun hjl => absurd hjl hli.symm⟩
    · rw [hfiles j (hine j hj)]
      exact h.first j hj hj'
  · rw [Skipped, hskip] at hj'
    rcases (hpast j).1 hj with rfl | hj
    · rw [hself]
      exact hz
    · rw [hfiles j (hine j hj)]
      exact h.linked j hj hj' hjl
  · have hj' : s.Fresh c j := (ha.fresh j).1 hj
    rw [ha.files j hj'.not_past]
    exact h.unnamed j ⟨hj'.1, hi.2.trans ((Nat.le_succ _).trans hj'.2)⟩
  · show (t.made ++ [(i, l)]).Nodup
    refine List.nodup_append.2 ⟨h.made_nodup, List.nodup_singleton _, fun a ha b hb hab => ?_⟩
    rw [List.mem_singleton] at hb
    have hpast := ((h.made a).1 ha).2.2.1
    rw [hab, hb] at hpast
    exact hi.not_past hpast
  · show p ∈ t.made ++ [(i, l)] ↔ _
    rw [List.mem_append, h.made p, List.mem_singleton, hpast, Skipped, Skipped, hskip]
    constructor
    · rintro (⟨hp, hpl, hpp, hps⟩ | rfl)
      · exact ⟨hp, hpl, .inr hpp, hps⟩
      · exact ⟨rfl, hli.symm, .inl rfl, by rw [← hskip]; exact hiskip⟩
    · rintro ⟨hp, hpl, hpi | hpp, hps⟩
      · exact .inr (Prod.ext hpi hp)
      · exact .inl ⟨hp, hpl, hpp, hps⟩

/-- `check_prior` for the next entry finds one that is done, or the path of the group. -/
theorem Finished.checkPrior (hc : c.Ok) (h : t.Finished c x l) (hi : t.Fresh c i) {s : LinkTable}
    (hb : s.Base c) (hnear : s.Near c i (s.files i).hlPrev) (hmem : s.members = t.members)
    (hnode : s.node = t.node) (hfiles : ∀ j, j ≠ i → s.files j = t.files j)
    (hnext : ∀ j ∈ t.members, t.next ≤ c.pos j → c.pos i ≤ c.pos j) :
    ∃ z prior, s.checkPrior c i = some (s.setPrev i z, prior) ∧ s.Near c i z ∧
      ((∃ p, prior = .entry p ∧ z = p ∧ t.Past c p ∧ ¬t.Skipped p) ∨
        prior = .name l ∧ c.incRecurse = true ∧ s.flistForNdx c z = none) := by
  have hne : ∀ j, c.pos j < c.pos i → j ≠ i := fun j hlt hji => lt_irrefl _ (hji ▸ hlt)
  obtain ⟨z, prior, hprior, hchecked⟩ := checkPrior_spec hc
    (fun p hp hskip => hb.near p (.inr ⟨hp, hskip⟩)) hb.plain
    (fun hrec => by rw [hnode, h.node hrec]; simp) hnear
  refine ⟨z, prior, hprior, ?_⟩
  cases hchecked with
  | entry p mem lt live unskipped between =>
    refine ⟨.inr ⟨p, mem, rfl, lt, live, between⟩, .inl ⟨p, rfl, rfl, ?_, ?_⟩⟩
    · rw [hmem] at mem
      exact (past_or_fresh mem).resolve_right fun hf => absurd lt (not_lt.2 (hnext p mem hf.2))
    · rwa [Skipped, hfiles p (hne p lt)] at unskipped
  | name _ n dead rec node =>
    rw [hnode, h.node rec] at node
    obtain rfl : l = n := by simpa using node
    exact ⟨.inl ⟨dead, .inl ⟨rec, l, by rw [hnode, h.node rec]⟩⟩, .inr ⟨rfl, rec, dead⟩⟩
  | none _ neg all unnamed =>
    have hlt : c.pos l < c.pos i := h.past.2.trans_le hi.2
    have := all l (hmem ▸ h.past.1) hlt
    rw [Skipped, hfiles l (hne l hlt)] at this
    exact absurd this h.unskipped

/-- `handle_skipped_hlink` after the end. -/
theorem Finished.handleSkippedHlink (hc : c.Ok) (h : t.Finished c x l) (hi : t.Fresh c i)
    (hnext : ∀ j ∈ t.members, t.next ≤ c.pos j → c.pos i ≤ c.pos j) (fuel : ℕ) :
    ∃ t', LinkTable.handleSkippedHlink c o (fuel + 1) i { t with next := c.pos i + 1 } = some t' ∧
      t'.Finished c x l := by
  let s := { t with next := c.pos i + 1 }
  have hsi : s.Past c i := ⟨hi.1, Nat.lt_succ_self _⟩
  have hnear : s.Near c i (s.files i).hlPrev := h.base.near i (.inl hi)
  let t₁ := s.modify i fun file => { file with skipHlink := true }
  have hfiles₁ : ∀ j, j ≠ i → t₁.files j = s.files j := fun j hj => modify_of_ne _ hj
  have hself : t₁.files i = { s.files i with skipHlink := true } := modify_self ..
  have hskip₁ : t₁.Skipped i := by rw [Skipped, hself]
  have ha₁ : Agrees c s t₁ := (Agrees.refl c s).modify hsi fun _ _ => rfl
  have hnear₁ : t₁.Near c i (t₁.files i).hlPrev := by rw [hself]; exact ha₁.near hnear
  have hfinished₁ := h.skipped hc hi hnext rfl hfiles₁ hskip₁ hnear₁ ha₁ rfl
  rw [LinkTable.handleSkippedHlink, LinkTable.skipHardLink]
  dsimp only
  by_cases hlast : (s.files i).hlinkLast = true
  swap
  · exact ⟨t₁, by rw [if_pos (by rw [modify_self]; simpa using hlast)]; rfl, hfinished₁⟩
  rw [if_neg (by rw [modify_self]; simpa using hlast)]
  obtain ⟨z, prior, hprior, hnear₂, hresult⟩ := h.checkPrior hc hi hfinished₁.base hnear₁ rfl rfl hfiles₁ hnext
  let t₂ := t₁.setPrev i z
  have hfinished₂ : t₂.Finished c x l := h.skipped hc hi hnext rfl
    (fun j hj => (setPrev_of_ne _ hj).trans (hfiles₁ j hj)) (by simpa [t₂, Skipped] using hskip₁)
    (by simpa [t₂] using hnear₂.setPrev) (ha₁.setPrev hsi z) rfl
  refine ⟨t₂, ?_, hfinished₂⟩
  show ((t₁.checkPrior c i).bind _).bind _ = some t₂
  rw [hprior]
  rcases hresult with ⟨p, rfl, -, hp, hpskip⟩ | ⟨rfl, -⟩
  · have hpi : p ≠ i := fun hpi => hi.not_past (hpi ▸ hp)
    have hpdone : (t₂.files p).hlinkDone = true := by
      rw [setPrev_of_ne _ hpi, hfiles₁ p hpi]
      exact h.done p hp hpskip
    show (Option.bind (if ((t₂.files p).hlinkDone || (t₂.files p).fileSent) = true then some (t₂, none)
      else _) _) = _
    rw [if_pos (by rw [hpdone, Bool.true_or])]
    rfl
  · rfl

/-- The next entry after the end. -/
theorem Finished.generate (hc : c.Ok) (ho : Sound o) (h : t.Finished c x l) (hi : t.Fresh c i)
    (hnext : ∀ j ∈ t.members, t.next ≤ c.pos j → c.pos i ≤ c.pos j) :
    ∃ t', { t with next := c.pos i + 1 }.recvGenerator c o i = some t' ∧ t'.Holds c x := by
  let s := { t with next := c.pos i + 1 }
  rw [LinkTable.recvGenerator, LinkTable.recvGeneratorWith]
  by_cases hearly : (o i).verdict = .skipped true
  · rw [if_pos hearly]
    obtain ⟨t', ht', hfinished⟩ := h.handleSkippedHlink hc hi hnext s.members.card
    exact ⟨t', ht', .finished l hfinished⟩
  rw [if_neg hearly]
  obtain ⟨hstat, hlink, -⟩ := ho i
  have hlinkTo : ∀ (y : ℤ), (s.setPrev i y).linkTo i l (o i) = (s.linked i l y, .skip) := fun y => by
    rw [linkTo, hstat, hlink]
    rfl
  suffices hcheck : ∃ z : ℤ, (z = l ∨ c.incRecurse = true ∧ t.flistForNdx c z = none) ∧
      s.checkNotFirst c i (o i) = some (s.linked i l z, .skip) by
    obtain ⟨z, hz, hcheck⟩ := hcheck
    refine ⟨s.linked i l z, ?_, .finished l (h.link hc hi hnext hz)⟩
    rw [hcheck]
    rfl
  rw [checkNotFirst, if_pos (by rw [show (s.files i).hlinkFirst = false from h.unnamed i hi]; rfl)]
  obtain ⟨z, prior, hprior, -, hresult⟩ := h.checkPrior hc hi (h.base.come hi)
    (h.base.near i (.inl hi)) rfl rfl (fun _ _ => rfl) hnext
  rcases hresult with ⟨p, rfl, rfl, hp, hpskip⟩ | ⟨rfl, hrec, hdead⟩
  swap
  · exact ⟨z, .inr ⟨hrec, hdead⟩, (hardLinkCheck_name hprior).trans (congrArg some (hlinkTo z))⟩
  have hpi : p ≠ i := fun hpi => hi.not_past (hpi ▸ hp)
  have hpfile : (s.setPrev i p).files p = t.files p := setPrev_of_ne _ hpi
  have hpdone : ((s.setPrev i p).files p).hlinkDone = true := by rw [hpfile]; exact h.done p hp hpskip
  by_cases hpl : p = l
  · subst hpl
    have hfirst : ((s.setPrev i p).files p).hlinkFirst = true := by
      rw [hpfile]
      exact (h.first p hp hpskip).2 rfl
    exact ⟨p, .inl rfl, (hardLinkCheck_first hprior hpdone hfirst).trans (congrArg some (hlinkTo p))⟩
  · have hfirst : ((s.setPrev i p).files p).hlinkFirst = false := by
      rw [hpfile]
      simpa using mt (h.first p hp hpskip).1 hpl
    have hlskip : ¬(s.setPrev i p).Skipped l := by
      rw [Skipped, setPrev_skipHlink]
      exact h.unskipped
    have hlinked := h.linked p hp hpskip hpl
    rw [← hpfile] at hlinked
    have hlinked' : ∀ y : ℤ, ((s.setPrev i p).setPrev i y).linkTo i l (o i) = (s.linked i l y, .skip) :=
      fun y => by rw [setPrev_setPrev, hlinkTo]
    have hnode : c.incRecurse = true → (s.setPrev i p).node = some (.path l) := h.node
    rcases checkPrior_done hnode (fun hrec => (h.base.plain hrec).1) hlskip hlinked with
      hdone | ⟨hrec, hdone⟩
    · exact ⟨l, .inl rfl, ((hardLinkCheck_done hprior hpdone hfirst).1 hdone).trans
        (congrArg some (hlinked' l))⟩
    · exact ⟨-1, .inr ⟨hrec, flistForNdx_of_neg (by omega)⟩,
        ((hardLinkCheck_done hprior hpdone hfirst).2 hdone).trans (congrArg some (hlinked' (-1)))⟩

end

end Generator

end LinkTable

end CloudEdgeBackup
