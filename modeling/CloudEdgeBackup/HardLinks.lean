/-
  Hard links (`hlink.c`): the tables the sender finds a device and an inode in.

  * `idevFind` looks a device up in the table of devices, unless its static variable points to
    that device's node, and then the inode in the table of the device;
  * `IdevReps` is the invariant: the tables are sound, every device has its own, and the pointer
    points into the array the table of devices has;
  * `idevRun_spec`: a run is answered like calls on a map from pairs to data.
-/
import CloudEdgeBackup.Hashtable

namespace CloudEdgeBackup

variable {δ : Type}

/-! ## Devices and inodes -/

/-- `dev_tbl`, the tables its nodes point to, and the static `dev_node`. -/
structure IdevState (δ : Type) where
  devTbl : Hashtable ℕ
  inoTbls : List (Hashtable δ)
  devNode : Option NodePtr

/-- `init_hard_links` -/
def initHardLinks : Ending (IdevState δ) :=
  (hashtableCreate 16 true).bind fun devTbl => .returns ⟨devTbl, [], none⟩

/-- The key of a device: zero would be an empty node. -/
def devKey (dev : ℤ) : ℤ := offT (dev + 1)

/-- What a pointer points to; an array that a table has outgrown is freed. -/
def Hashtable.deref (tbl : Hashtable δ) (p : NodePtr) : Ending (HtNode δ) :=
  if p.array = tbl.array then
    match tbl.nodes[p.ndx]? with
    | some node => .returns node
    | none => .stuck
  else .stuck

namespace IdevState

/-- The table of a node of `dev_tbl`, a new one where it has none. -/
def nodeTbl (st : IdevState δ) (ndx : ℕ) : Ending (IdevState δ × ℕ) :=
  match st.devTbl.nodes[ndx]? with
  | none => .stuck
  | some node =>
    match node.data with
    | some t => .returns (st, t)
    | none => (hashtableCreate 512 true).bind fun new =>
      .returns ({ st with
        devTbl := st.devTbl.setData ndx (some st.inoTbls.length)
        inoTbls := st.inoTbls ++ [new] }, st.inoTbls.length)

/-- A device that is not the one of the last call. -/
def findDev (fuel : ℕ) (st : IdevState δ) (dev : ℤ) : Ending (IdevState δ × ℕ) :=
  (hashtableFind fuel st.devTbl (devKey dev) true).bind fun r =>
    match r.2 with
    | none => .stuck
    | some ndx => { st with devTbl := r.1, devNode := some ⟨r.1.array, ndx⟩ }.nodeTbl ndx

/-- The table of a device. -/
def devTable (fuel : ℕ) (st : IdevState δ) (dev : ℤ) : Ending (IdevState δ × ℕ) :=
  match st.devNode with
  | none => st.findDev fuel dev
  | some p => (st.devTbl.deref p).bind fun node =>
    if node.key ≠ devKey dev then st.findDev fuel dev
    else
      match node.data with
      | none => .stuck
      | some t => .returns (st, t)

/-- The node of an inode in its device's table. -/
def findIno (fuel : ℕ) (st : IdevState δ) (t : ℕ) (ino : ℤ) : Ending (IdevState δ × ℕ × ℕ) :=
  match st.inoTbls[t]? with
  | none => .stuck
  | some tbl => (hashtableFind fuel tbl ino true).bind fun r =>
    match r.2 with
    | none => .stuck
    | some ndx => .returns ({ st with inoTbls := st.inoTbls.set t r.1 }, t, ndx)

end IdevState

/-- `idev_find`: a table and the number of a node in it. -/
def idevFind (fuel : ℕ) (st : IdevState δ) (dev ino : ℤ) : Ending (IdevState δ × ℕ × ℕ) :=
  (st.devTable fuel dev).bind fun r => r.1.findIno fuel r.2 ino

/-- A call, and what the caller stores in the node it gets. -/
structure IdevCall (δ : Type) where
  dev : ℤ
  ino : ℤ
  store : Option (Option δ)

/-- The cell a call returns, a node of one of the tables, with its data. -/
structure IdevAnswer (δ : Type) where
  table : ℕ
  node : NodePtr
  data : Option δ

namespace IdevState

/-- A call and the store behind it. -/
def call (fuel : ℕ) (st : IdevState δ) (c : IdevCall δ) : Ending (IdevState δ × IdevAnswer δ) :=
  (idevFind fuel st c.dev c.ino).bind fun r =>
    match r.1.inoTbls[r.2.1]? with
    | none => .stuck
    | some tbl =>
      match tbl.nodes[r.2.2]? with
      | none => .stuck
      | some node =>
        .returns (match c.store with
          | none => r.1
          | some data => { r.1 with inoTbls := r.1.inoTbls.set r.2.1 (tbl.setData r.2.2 data) },
          ⟨r.2.1, ⟨tbl.array, r.2.2⟩, node.data⟩)

/-- The calls one after the other, with their answers. -/
def run (fuel : ℕ) : IdevState δ → List (IdevCall δ) → Ending (IdevState δ × List (IdevAnswer δ))
  | st, [] => .returns (st, [])
  | st, c :: cs =>
    (st.call fuel c).bind fun r => (run fuel r.1 cs).bind fun s => .returns (s.1, r.2 :: s.2)

end IdevState

/-- The call on a map from pairs to data. -/
def IdevCall.onMap (c : IdevCall δ) : TableCall (ℤ × ℤ) δ := ⟨(c.dev, c.ino), true, c.store⟩

/-- A device and an inode that may be looked up, numbers of 64 bits. -/
structure IdevCall.Ok (c : IdevCall δ) : Prop where
  dev : IsInt64 c.dev
  dev_ne : c.dev ≠ -1
  ino_ne : c.ino ≠ 0

/-! ## The invariant -/

theorem devKey_injective {dev dev' : ℤ} (h : IsInt64 dev) (h' : IsInt64 dev')
    (heq : devKey dev = devKey dev') : dev = dev' := by
  have hmod := congrArg (· % ((2 ^ 64 : ℕ) : ℤ)) heq
  simp only [devKey, offT, Int.bmod_emod] at hmod
  unfold IsInt64 at h h'
  omega

theorem devKey_isKey {dev : ℤ} (h : IsInt64 dev) (hne : dev ≠ -1) : IsKey true (devKey dev) := by
  refine ⟨fun h0 => hne (devKey_injective h ⟨by norm_num, by norm_num⟩ ?_), fun hc => by cases hc⟩
  rw [h0]
  rfl

/-- The tables: `D` is what the table of devices holds, `N` what the others do, `M` all of them. -/
structure IdevReps (st : IdevState δ) (D : KeyMap ℤ ℕ) (N : ℕ → KeyMap ℤ δ)
    (M : KeyMap (ℤ × ℤ) δ) : Prop where
  dev : st.devTbl.Sound
  dev64 : st.devTbl.key64 = true
  devs : st.devTbl.Reps D
  table : ∀ k d, D k = some d → ∃ t, d = some t ∧ t < st.inoTbls.length
  own : ∀ k k' t, D k = some (some t) → D k' = some (some t) → k = k'
  ino : ∀ (t : ℕ) (tbl : Hashtable δ), st.inoTbls[t]? = some tbl → tbl.Sound ∧ tbl.key64 = true ∧ tbl.Reps (N t)
  map : ∀ dev, IsInt64 dev → ∀ ino, M (dev, ino) = (D (devKey dev)).join.bind fun t => N t ino
  cached : ∀ p, st.devNode = some p → p.array = st.devTbl.array ∧ ∃ k, st.devTbl.slot p.ndx = some k

/-- The devices and inodes are those of the pairs in `P`. -/
structure IdevIn (P : Finset (ℤ × ℤ)) (D : KeyMap ℤ ℕ) (N : ℕ → KeyMap ℤ δ) : Prop where
  dev : ∀ k, D k ≠ none → k ∈ P.image fun p => devKey p.1
  ino : ∀ t ino, N t ino ≠ none → ino ∈ P.image Prod.snd

/-- Devices keep their tables. -/
structure IdevLater (st : IdevState δ) (D : KeyMap ℤ ℕ) (st' : IdevState δ) (D' : KeyMap ℤ ℕ) : Prop where
  dev : ∀ k d, D k = some d → D' k = some d
  ino : ∀ (t : ℕ) (tbl : Hashtable δ), st.inoTbls[t]? = some tbl → ∃ tbl', st'.inoTbls[t]? = some tbl' ∧ tbl.Later tbl'

namespace IdevReps

variable {st : IdevState δ} {D : KeyMap ℤ ℕ} {N : ℕ → KeyMap ℤ δ} {M : KeyMap (ℤ × ℤ) δ}
  {P : Finset (ℤ × ℤ)} {fuel : ℕ} {dev ino : ℤ}

/-- The table of a device is there. -/
theorem getElem? (h : IdevReps st D N M) {k : ℤ} {t : ℕ} (ht : D k = some (some t)) :
    ∃ tbl, st.inoTbls[t]? = some tbl := by
  obtain ⟨t', heq, hlt⟩ := h.table k _ ht
  cases heq
  exact ⟨_, List.getElem?_eq_getElem hlt⟩

/-- What `findDev` and the cached node come to. -/
def FindsTable (st : IdevState δ) (D : KeyMap ℤ ℕ) (N : ℕ → KeyMap ℤ δ) (M : KeyMap (ℤ × ℤ) δ)
    (P : Finset (ℤ × ℤ)) (dev : ℤ) (r : Ending (IdevState δ × ℕ)) : Prop :=
  (r = .outOfMemory ∧ hashLoadLimit (2 ^ 25) < P.card) ∨
  ∃ st' t D' N', r = .returns (st', t) ∧ IdevReps st' D' N' M ∧ IdevIn P D' N' ∧
    IdevLater st D st' D' ∧ D' (devKey dev) = some (some t)

theorem findDev (h : IdevReps st D N M) (hP : IdevIn P D N) (hdev : IsInt64 dev) (hne : dev ≠ -1)
    (hmem : devKey dev ∈ P.image fun p => devKey p.1) (hfuel : 2 ^ 26 ≤ fuel) :
    FindsTable st D N M P dev (st.findDev fuel dev) := by
  have hfit : IsKey st.devTbl.key64 (devKey dev) := h.dev64 ▸ devKey_isKey hdev hne
  rcases Hashtable.find_spec h.dev h.devs hfit hfuel with
    ⟨hout, hfull⟩ | ⟨tbl, found, hfind, hstep⟩
  · refine Or.inl ⟨by rw [IdevState.findDev, hout]; rfl, hfull.trans_le ?_⟩
    rw [h.dev.entries]
    exact (Finset.card_le_card fun k hk => hP.dev k ((h.dev.mem_keys h.devs).1 hk)).trans
      Finset.card_image_le
  obtain ⟨ndx, rfl⟩ : ∃ ndx, found = some ndx := by
    rw [← Option.ne_none_iff_exists']
    intro hnull
    exact Bool.noConfusion ((D.find_self_eq_none_iff _ _).1 (hstep.null hnull)).2
  have hslot := hstep.node ndx rfl
  obtain ⟨data, hnode, hdata⟩ := hstep.data rfl
  refine Or.inr ?_
  rw [IdevState.findDev, hfind, Ending.bind_returns]
  simp only [IdevState.nodeTbl, hnode]
  cases hD : D (devKey dev) with
  | some d =>
    -- a device that was met before
    have hsame : D.find (devKey dev) true = D := if_neg fun hc => by rw [hD] at hc; cases hc.2
    obtain ⟨t, rfl, ht⟩ := h.table _ _ hD
    rw [hsame, hD, Option.some.injEq] at hdata
    subst hdata
    refine ⟨_, t, D, N, rfl, ⟨hstep.sound, hstep.later.key64.trans h.dev64, hsame ▸ hstep.reps, h.table,
      h.own, h.ino, h.map, ?_⟩, hP, ⟨fun _ _ hk => hk, fun t tbl ht => ⟨tbl, ht, .refl tbl⟩⟩, hD⟩
    rintro p hp
    cases hp
    exact ⟨rfl, _, hslot⟩
  | none =>
    have hnew : D.find (devKey dev) true = Function.update D (devKey dev) (some none) :=
      if_pos ⟨rfl, hD⟩
    rw [hnew, Function.update_self, Option.some.injEq] at hdata
    subst hdata
    have hcreate : hashtableCreate (δ := δ) 512 true =
        .returns ⟨0, List.replicate (2 ^ 9) ⟨none, 0⟩, 2 ^ 9, 0, true⟩ := by
      rw [hashtableCreate, if_neg (by decide), show (512 : ℕ) = 2 ^ 9 from rfl,
        Hashtable.newNodes_eq (by norm_num), if_pos (by norm_num)]
      rfl
    rw [hcreate, Ending.bind_returns]
    have hreps := hstep.reps.setData hstep.sound hslot (some st.inoTbls.length)
    rw [KeyMap.store_some _ (hstep.reps.slot.2 ⟨ndx, hslot⟩), hnew, Function.update_idem] at hreps
    have hunused : ∀ k, D k ≠ some (some st.inoTbls.length) := by
      intro k hk
      obtain ⟨t, heq, hlt⟩ := h.table k _ hk
      cases heq
      exact absurd hlt (lt_irrefl _)
    refine ⟨_, _, Function.update D (devKey dev) (some (some st.inoTbls.length)),
      Function.update N st.inoTbls.length fun _ => none, rfl,
      ⟨hstep.sound.setData hslot _, hstep.later.key64.trans h.dev64, hreps, ?_, ?_, ?_, ?_, ?_⟩,
      ⟨?_, ?_⟩, ⟨?_, ?_⟩, Function.update_self ..⟩
    · intro k d hk
      rcases eq_or_ne k (devKey dev) with rfl | hkne
      · rw [Function.update_self, Option.some.injEq] at hk
        exact ⟨_, hk.symm, by rw [List.length_append]; exact Nat.lt_succ_self _⟩
      · rw [Function.update_of_ne hkne] at hk
        obtain ⟨t, rfl, ht⟩ := h.table k d hk
        exact ⟨t, rfl, by simp only [List.length_append]; omega⟩
    · intro k k' t hk hk'
      rcases eq_or_ne k (devKey dev) with rfl | hkne <;> rcases eq_or_ne k' (devKey dev) with rfl | hkne'
      · rfl
      · rw [Function.update_self, Option.some.injEq, Option.some.injEq] at hk
        rw [Function.update_of_ne hkne', ← hk] at hk'
        exact absurd hk' (hunused k')
      · rw [Function.update_self, Option.some.injEq, Option.some.injEq] at hk'
        rw [Function.update_of_ne hkne, ← hk'] at hk
        exact absurd hk (hunused k)
      · rw [Function.update_of_ne hkne] at hk
        rw [Function.update_of_ne hkne'] at hk'
        exact h.own k k' t hk hk'
    · intro t tbl ht
      rcases lt_trichotomy t st.inoTbls.length with hlt | rfl | hgt
      · rw [List.getElem?_append_left hlt] at ht
        rw [Function.update_of_ne hlt.ne]
        exact h.ino t tbl ht
      · rw [List.getElem?_concat_length, Option.some.injEq] at ht
        subst ht
        rw [Function.update_self]
        exact ⟨.fresh 0 (by norm_num) (by norm_num) true, rfl, .fresh 0 9 true⟩
      · rw [List.getElem?_eq_none (by simp only [List.length_append, List.length_singleton]; omega)] at ht
        cases ht
    · intro dev' hdev' ino
      rw [h.map dev' hdev' ino]
      rcases eq_or_ne (devKey dev') (devKey dev) with heq | hkne
      · rw [heq, hD, Function.update_self]
        simp
      · rw [Function.update_of_ne hkne]
        cases hD' : D (devKey dev') with
        | none => rfl
        | some d =>
          obtain ⟨t, rfl, ht⟩ := h.table _ _ hD'
          simp [Function.update_of_ne ht.ne]
    · rintro p hp
      cases hp
      exact ⟨rfl, _, by rw [Hashtable.slot_setData]; exact hslot⟩
    · intro k hk
      rcases eq_or_ne k (devKey dev) with rfl | hkne
      · exact hmem
      · rw [Function.update_of_ne hkne] at hk
        exact hP.dev k hk
    · intro t ino hino
      rcases eq_or_ne t st.inoTbls.length with rfl | htne
      · rw [Function.update_self] at hino
        exact absurd rfl hino
      · rw [Function.update_of_ne htne] at hino
        exact hP.ino t ino hino
    · intro k d hk
      rwa [Function.update_of_ne]
      rintro rfl
      rw [hD] at hk
      cases hk
    · intro t tbl ht
      exact ⟨tbl, by rw [List.getElem?_append_left (List.getElem?_eq_some_iff.1 ht).1, ht], .refl tbl⟩

/-- **The table of a device**, whether the cached node is its own or not. -/
theorem devTable (h : IdevReps st D N M) (hP : IdevIn P D N) (hdev : IsInt64 dev) (hne : dev ≠ -1)
    (hmem : devKey dev ∈ P.image fun p => devKey p.1) (hfuel : 2 ^ 26 ≤ fuel) :
    FindsTable st D N M P dev (st.devTable fuel dev) := by
  cases hp : st.devNode with
  | none =>
    rw [IdevState.devTable, hp]
    exact h.findDev hP hdev hne hmem hfuel
  | some p =>
    obtain ⟨harr, k, hk⟩ := h.cached p hp
    obtain ⟨h0, data, hnode⟩ := Hashtable.slot_eq_some_iff.1 hk
    have hderef : st.devTbl.deref p = .returns ⟨data, k⟩ := by
      rw [Hashtable.deref, if_pos harr, hnode]
    rw [IdevState.devTable, hp]
    simp only [hderef, Ending.bind_returns]
    by_cases hkey : k = devKey dev
    · have hD : D k = some data := (h.devs k data).2 ⟨h0, p.ndx, hnode⟩
      obtain ⟨t, rfl, ht⟩ := h.table k data hD
      rw [if_neg (not_not.2 hkey)]
      exact .inr ⟨st, t, D, N, rfl, h, hP, ⟨fun _ _ hk => hk, fun t tbl ht => ⟨tbl, ht, .refl tbl⟩⟩,
        hkey ▸ hD⟩
    · rw [if_pos hkey]
      exact h.findDev hP hdev hne hmem hfuel

/-- A call is one on the table of its device. -/
theorem call_eq {c : IdevCall δ} {st' : IdevState δ} {t : ℕ} {tbl : Hashtable δ}
    (hdev : st.devTable fuel c.dev = .returns (st', t)) (htbl : st'.inoTbls[t]? = some tbl) :
    st.call fuel c = (tbl.call fuel ⟨c.ino, true, c.store⟩).bind fun r =>
      match r.2 with
      | none => .stuck
      | some a => .returns ({ st' with inoTbls := st'.inoTbls.set t r.1 }, ⟨t, a.node, a.data⟩) := by
  have hlt : t < st'.inoTbls.length := (List.getElem?_eq_some_iff.1 htbl).1
  rw [IdevState.call, idevFind, hdev, Ending.bind_returns, IdevState.findIno, Hashtable.call]
  simp only [htbl]
  cases hashtableFind fuel tbl c.ino true with
  | stuck => rfl
  | illegalKey => rfl
  | outOfMemory => rfl
  | returns r =>
    obtain ⟨tbl', found⟩ := r
    cases found with
    | none => rfl
    | some ndx =>
      simp only [Ending.bind_returns, List.getElem?_set_self hlt]
      cases tbl'.nodes[ndx]? with
      | none => rfl
      | some node =>
        cases c.store with
        | none => rfl
        | some data => simp only [Ending.bind_returns, List.set_set]

/-- A call, next to the one on the map. -/
structure Answers (st : IdevState δ) (D : KeyMap ℤ ℕ) (M : KeyMap (ℤ × ℤ) δ) (P : Finset (ℤ × ℤ))
    (c : IdevCall δ) (st' : IdevState δ) (D' : KeyMap ℤ ℕ) (N' : ℕ → KeyMap ℤ δ)
    (a : IdevAnswer δ) : Prop where
  reps : IdevReps st' D' N' (M.call c.onMap).1
  within : IdevIn P D' N'
  later : IdevLater st D st' D'
  data : some a.data = (M.call c.onMap).2
  table : D' (devKey c.dev) = some (some a.table)
  node : ∃ tbl : Hashtable δ, st'.inoTbls[a.table]? = some tbl ∧ a.node.array = tbl.array ∧
    tbl.slot a.node.ndx = some c.ino

theorem call_spec (h : IdevReps st D N M) (hP : IdevIn P D N) {c : IdevCall δ} (hc : c.Ok)
    (hmem : (c.dev, c.ino) ∈ P) (hfuel : 2 ^ 26 ≤ fuel) :
    (st.call fuel c = .outOfMemory ∧ hashLoadLimit (2 ^ 25) < P.card) ∨
    ∃ st' a D' N', st.call fuel c = .returns (st', a) ∧ Answers st D M P c st' D' N' a := by
  have hkey : devKey c.dev ∈ P.image fun p => devKey p.1 := Finset.mem_image.2 ⟨_, hmem, rfl⟩
  rcases h.devTable hP hc.dev hc.dev_ne hkey hfuel with
    ⟨hout, hfull⟩ | ⟨st₁, t, D', N₁, hdev, h₁, hP₁, hlater, htable⟩
  · refine .inl ⟨?_, hfull⟩
    rw [IdevState.call, idevFind, hout]
    rfl
  obtain ⟨tbl, htbl⟩ := h₁.getElem? htable
  obtain ⟨hs, h64, hr⟩ := h₁.ino t tbl htbl
  have hlt : t < st₁.inoTbls.length := (List.getElem?_eq_some_iff.1 htbl).1
  have hM : M (c.dev, c.ino) = N₁ t c.ino := by
    rw [h₁.map c.dev hc.dev, htable]
    rfl
  rw [call_eq hdev htbl]
  have hfit : IsKey tbl.key64 c.ino := ⟨hc.ino_ne, fun h32 => by rw [h64] at h32; cases h32⟩
  rcases Hashtable.call_spec (c := ⟨c.ino, true, c.store⟩) hs hr hfit hfuel with
    ⟨hout, hfull⟩ | ⟨tbl', answer, hcall, hans⟩
  · refine .inl ⟨by rw [hout]; rfl, hfull.trans_le ?_⟩
    rw [hs.entries]
    exact (Finset.card_le_card fun k hk => hP₁.ino t k ((hs.mem_keys hr).1 hk)).trans
      Finset.card_image_le
  have hdata := hans.data
  rw [KeyMap.call_snd] at hdata
  obtain ⟨a, rfl⟩ : ∃ a, answer = some a := by
    rw [← Option.ne_none_iff_exists']
    rintro rfl
    simp only [KeyMap.found, true_and, Option.map_none] at hdata
    split_ifs at hdata with hnone
    exact hnone hdata.symm
  refine .inr ⟨{ st₁ with inoTbls := st₁.inoTbls.set t tbl' }, ⟨t, a.node, a.data⟩, D', Function.update N₁ t ((N₁ t).call ⟨c.ino, true, c.store⟩).1, by rw [hcall]; rfl,
    ⟨h₁.dev, h₁.dev64, h₁.devs, ?_, h₁.own, ?_, ?_, h₁.cached⟩, ⟨hP₁.dev, ?_⟩, ⟨hlater.dev, ?_⟩, ?_,
    htable, tbl', List.getElem?_set_self hlt, hans.node a rfl⟩
  · simpa using h₁.table
  · intro t' tbl₂ ht'
    rcases eq_or_ne t' t with rfl | hne
    · rw [List.getElem?_set_self hlt, Option.some.injEq] at ht'
      subst ht'
      rw [Function.update_self]
      exact ⟨hans.sound, hans.later.key64.trans h64, hans.reps⟩
    · rw [List.getElem?_set_ne hne.symm] at ht'
      rw [Function.update_of_ne hne]
      exact h₁.ino t' tbl₂ ht'
  · intro dev' hdev' ino'
    rw [KeyMap.call_fst]
    rcases eq_or_ne dev' c.dev with rfl | hne
    · rw [htable]
      simp only [Option.join_some, Option.bind_some, Function.update_self, KeyMap.call_fst]
      simp only [IdevCall.onMap, Prod.mk.injEq, true_and, hM]
      split_ifs
      · rfl
      · rw [h₁.map _ hdev', htable]
        rfl
    · have hkne : (dev', ino') ≠ c.onMap.key := fun heq => hne (Prod.mk.inj heq).1
      rw [if_neg hkne, h₁.map dev' hdev']
      cases hD : D' (devKey dev') with
      | none => rfl
      | some d =>
        obtain ⟨t', rfl, -⟩ := h₁.table _ _ hD
        have htne : t' ≠ t := by
          rintro rfl
          exact hne (devKey_injective hdev' hc.dev (h₁.own _ _ _ hD htable))
        simp [Function.update_of_ne htne]
  · intro t' ino' hino
    rcases eq_or_ne t' t with rfl | hne
    · rw [Function.update_self, KeyMap.call_fst] at hino
      split_ifs at hino with heq
      · rw [heq]
        exact Finset.mem_image_of_mem Prod.snd hmem
      · exact hP₁.ino t' ino' hino
    · rw [Function.update_of_ne hne] at hino
      exact hP₁.ino t' ino' hino
  · intro t' tbl₂ ht'
    obtain ⟨tbl₃, ht₃, hl₃⟩ := hlater.ino t' tbl₂ ht'
    rcases eq_or_ne t' t with rfl | hne
    · rw [htbl, Option.some.injEq] at ht₃
      subst ht₃
      exact ⟨tbl', List.getElem?_set_self hlt, hl₃.trans hans.later⟩
    · exact ⟨tbl₃, by rw [List.getElem?_set_ne hne.symm, ht₃], hl₃⟩
  · rw [KeyMap.call_snd]
    exact hdata.trans (by simp only [IdevCall.onMap, hM])

end IdevReps

/-! ## A run -/

/-- Two cells are in one table exactly where the devices are the same, and two nodes of one array
    are the same exactly where the inodes are. -/
def OneCellEach (l : List (IdevCall δ × IdevAnswer δ)) : Prop :=
  l.Pairwise fun x y => (x.2.table = y.2.table ↔ x.1.dev = y.1.dev) ∧
    (x.2.table = y.2.table → x.2.node.array = y.2.node.array →
      (x.2.node = y.2.node ↔ x.1.ino = y.1.ino))

namespace IdevReps

variable {st : IdevState δ} {D : KeyMap ℤ ℕ} {N : ℕ → KeyMap ℤ δ} {M : KeyMap (ℤ × ℤ) δ}
  {P : Finset (ℤ × ℤ)} {fuel : ℕ}

/-- What an answer has to do with the cells there were before. -/
def AnswersFrom (st : IdevState δ) (D : KeyMap ℤ ℕ) (y : IdevCall δ × IdevAnswer δ) : Prop :=
  ∀ dev, IsInt64 dev → ∀ t, D (devKey dev) = some (some t) → (t = y.2.table ↔ dev = y.1.dev) ∧
    (t = y.2.table → ∀ tbl : Hashtable δ, st.inoTbls[t]? = some tbl → tbl.array ≤ y.2.node.array ∧
      (tbl.array = y.2.node.array → ∀ i k, tbl.slot i = some k → (i = y.2.node.ndx ↔ k = y.1.ino)))

/-- The answer to a call. -/
theorem answersFrom_call {c : IdevCall δ} {st' : IdevState δ} {D' : KeyMap ℤ ℕ} {N' : ℕ → KeyMap ℤ δ}
    {a : IdevAnswer δ} (hc : c.Ok) (hans : Answers st D M P c st' D' N' a) : AnswersFrom st D (c, a) := by
  intro dev hdev t ht
  have ht' := hans.later.dev _ _ ht
  refine ⟨⟨?_, ?_⟩, ?_⟩
  · rintro rfl
    exact devKey_injective hdev hc.dev (hans.reps.own _ _ _ ht' hans.table)
  · rintro rfl
    rw [hans.table] at ht'
    cases ht'
    rfl
  · rintro rfl tbl htbl
    obtain ⟨tbl₂, htbl₂, harr, hslot⟩ := hans.node
    obtain ⟨tbl₃, htbl₃, hlater⟩ := hans.later.ino _ tbl htbl
    obtain rfl : tbl₂ = tbl₃ := Option.some.inj (htbl₂.symm.trans htbl₃)
    refine ⟨harr ▸ hlater.array, fun heq i k hk => ?_⟩
    have hk' := hlater.slot (harr.symm.trans heq.symm) i k hk
    have hs := (hans.reps.ino _ _ htbl₂).1
    constructor
    · rintro rfl
      exact Option.some.inj (hk'.symm.trans hslot)
    · rintro rfl
      exact hs.placed.alone i (hs.length ▸ Hashtable.slot_lt hk') _ (hs.length ▸ Hashtable.slot_lt hslot)
        _ hk' hslot

/-- An answer further on. -/
theorem AnswersFrom.of_later {st' : IdevState δ} {D' : KeyMap ℤ ℕ} {y : IdevCall δ × IdevAnswer δ}
    (hlater : IdevLater st D st' D') (h : AnswersFrom st' D' y) : AnswersFrom st D y := by
  intro dev hdev t ht
  obtain ⟨hdevs, hinos⟩ := h dev hdev t (hlater.dev _ _ ht)
  refine ⟨hdevs, fun heq tbl htbl => ?_⟩
  obtain ⟨tbl', htbl', hl⟩ := hlater.ino t tbl htbl
  obtain ⟨hge, hiff⟩ := hinos heq tbl' htbl'
  refine ⟨hl.array.trans hge, fun harr i k hk => ?_⟩
  have hsame : tbl'.array = tbl.array := le_antisymm (harr ▸ hge) hl.array
  exact hiff (hsame.trans harr) i k (hl.slot hsame i k hk)

/-- **Any sequence of calls is answered like calls on a map from pairs.** -/
theorem run_spec {calls : List (IdevCall δ)} (hfuel : 2 ^ 26 ≤ fuel) (h : IdevReps st D N M)
    (hP : IdevIn P D N) (hok : ∀ c ∈ calls, c.Ok) (hmem : ∀ c ∈ calls, (c.dev, c.ino) ∈ P) :
    (st.run fuel calls = .outOfMemory ∧ hashLoadLimit (2 ^ 25) < P.card) ∨
    ∃ st' answers, st.run fuel calls = .returns (st', answers) ∧
      answers.map (fun a => some a.data) = M.run (calls.map IdevCall.onMap) ∧
      OneCellEach (calls.zip answers) ∧ ∀ y ∈ calls.zip answers, AnswersFrom st D y := by
  induction calls generalizing st D N M with
  | nil => exact .inr ⟨st, [], rfl, rfl, .nil, fun y hy => nomatch hy⟩
  | cons c cs ih =>
    have hc := hok c List.mem_cons_self
    rw [IdevState.run]
    rcases h.call_spec hP hc (hmem c List.mem_cons_self) hfuel with
      ⟨hout, hfull⟩ | ⟨st₁, a, D₁, N₁, hcall, hans⟩
    · exact .inl ⟨by rw [hout]; rfl, hfull⟩
    rw [hcall, Ending.bind_returns]
    rcases ih hans.reps hans.within (fun c' hc' => hok c' (List.mem_cons_of_mem _ hc'))
        (fun c' hc' => hmem c' (List.mem_cons_of_mem _ hc')) with
      ⟨hout, hfull⟩ | ⟨st', answers, hrun, hdata, hone, hfrom⟩
    · exact .inl ⟨by rw [hout]; rfl, hfull⟩
    refine .inr ⟨st', a :: answers, by rw [hrun]; rfl, ?_, ?_, ?_⟩
    · rw [List.map_cons, hans.data, hdata, List.map_cons, KeyMap.run]
    · refine List.pairwise_cons.2 ⟨fun y hy => ?_, hone⟩
      obtain ⟨tbl, htbl, harr, hslot⟩ := hans.node
      obtain ⟨hdevs, hinos⟩ := hfrom y hy c.dev hc.dev _ hans.table
      refine ⟨hdevs, fun htable heq => ?_⟩
      obtain ⟨-, hiff⟩ := hinos htable tbl htbl
      rw [← hiff (harr.symm.trans heq) _ _ hslot, NodePtr.mk.injEq]
      exact and_iff_right heq
    · intro y hy
      rcases List.mem_cons.1 hy with rfl | hy
      · exact answersFrom_call hc hans
      · exact (hfrom y hy).of_later hans.later

end IdevReps

/-- The state `init_hard_links` makes. -/
theorem initHardLinks_spec {st : IdevState δ} (h : initHardLinks = .returns st) (P : Finset (ℤ × ℤ)) :
    IdevReps st (fun _ => none) (fun _ _ => none) (fun _ => none) ∧
      IdevIn P (fun _ => none) (fun (_ : ℕ) (_ : ℤ) => (none : Option (Option δ))) := by
  rw [initHardLinks] at h
  cases hcreate : hashtableCreate (δ := ℕ) 16 true with
  | stuck =>
    rw [hcreate] at h
    cases h
  | illegalKey =>
    rw [hcreate] at h
    cases h
  | outOfMemory =>
    rw [hcreate] at h
    cases h
  | returns devTbl =>
    rw [hcreate] at h
    cases h
    obtain ⟨hs, hr, h64⟩ := Hashtable.hashtableCreate_spec (by norm_num) hcreate
    refine ⟨⟨hs, h64, hr, ?_, ?_, ?_, fun _ _ _ => rfl, ?_⟩, ⟨?_, ?_⟩⟩
    · intro k d hk
      cases hk
    · intro k k' t hk
      cases hk
    · intro t tbl ht
      cases ht
    · intro p hp
      cases hp
    · intro k hk
      exact absurd rfl hk
    · intro t ino hino
      exact absurd rfl hino

/-- **The hash table is a map, and so are the tables of `idev_find`.**  Every call ends; a node is
    found exactly where it may be allocated or was allocated before; its data is what was stored
    under its key last, however often the table grew; and different keys have different nodes.
    Only a table of the largest size, with more than three quarters of its nodes taken, makes a
    call fail: it ends the process for want of memory. -/
theorem hashtableFind_isMap {req : ℕ} (hreq : req ≤ 2 ^ 27) {key64 : Bool} {tbl : Hashtable δ}
    (htbl : hashtableCreate req key64 = .returns tbl) {calls : List (TableCall ℤ δ)}
    (hcalls : ∀ c ∈ calls, IsKey key64 c.key) {st : IdevState δ} (hst : initHardLinks = .returns st)
    {idevCalls : List (IdevCall δ)} (hidev : ∀ c ∈ idevCalls, c.Ok) {fuel : ℕ} (hfuel : 2 ^ 26 ≤ fuel) :
    ((tbl.run fuel calls = .outOfMemory ∧
        hashLoadLimit (2 ^ 25) < ((calls.filter (·.allocate)).map (·.key)).toFinset.card) ∨
      ∃ tbl' answers, tbl.run fuel calls = .returns (tbl', answers) ∧
        answers.map (Option.map TableAnswer.data) = KeyMap.run (fun _ => none) calls ∧
        Hashtable.OneNodeEach (calls.zip answers) ∧
        ∀ (i : ℕ) c answer, calls[i]? = some c → answers[i]? = some answer →
          (answer ≠ none ↔ c.allocate = true ∨
            ∃ j < i, ∃ c', calls[j]? = some c' ∧ c'.allocate = true ∧ c'.key = c.key)) ∧
    ((st.run fuel idevCalls = .outOfMemory ∧
        hashLoadLimit (2 ^ 25) < (idevCalls.map fun c => (c.dev, c.ino)).toFinset.card) ∨
      ∃ st' answers, st.run fuel idevCalls = .returns (st', answers) ∧
        answers.map (fun a => some a.data) = KeyMap.run (fun _ => none) (idevCalls.map IdevCall.onMap) ∧
        OneCellEach (idevCalls.zip answers)) := by
  obtain ⟨hs, hr, h64⟩ := Hashtable.hashtableCreate_spec hreq htbl
  constructor
  · rcases Hashtable.run_spec hfuel ((calls.filter (·.allocate)).map (·.key)).toFinset
        (fun c hc ha => List.mem_toFinset.2 (List.mem_map_of_mem (List.mem_filter.2 ⟨hc, ha⟩)))
        hs hr (fun k hk => absurd rfl hk) (fun c hc => h64 ▸ hcalls c hc) with
      hout | ⟨tbl', answers, hrun, hdata, hone, -⟩
    · exact .inl hout
    refine .inr ⟨tbl', answers, hrun, hdata, hone, fun i c answer hc ha => ?_⟩
    have hmap : (KeyMap.run (fun _ => none) calls)[i]? = some (answer.map TableAnswer.data) := by
      rw [← hdata, List.getElem?_map, ha]
      rfl
    have hnone : answer ≠ none ↔ answer.map TableAnswer.data ≠ none := by simp
    rw [hnone, KeyMap.run_ne_none_iff hc hmap]
    simp
  · obtain ⟨hreps, hin⟩ := initHardLinks_spec hst (idevCalls.map fun c => (c.dev, c.ino)).toFinset
    rcases hreps.run_spec hfuel hin hidev
        (fun c hc => List.mem_toFinset.2 (List.mem_map_of_mem hc)) with
      hout | ⟨st', answers, hrun, hdata, hone, -⟩
    · exact .inl hout
    · exact .inr ⟨st', answers, hrun, hdata, hone⟩

/-- Data stored under a key, and under a pair, is found there again. -/
theorem hashtableFind_isMap_twoCalls : ∃ (tbl : Hashtable ℕ) (st : IdevState ℕ),
    hashtableCreate 16 true = .returns tbl ∧ initHardLinks = .returns st ∧
    (∃ tbl' answers, tbl.run (2 ^ 26) [⟨5, true, some (some 7)⟩, ⟨5, false, none⟩] =
        .returns (tbl', answers) ∧ answers.map (Option.map TableAnswer.data) = [some none, some (some 7)]) ∧
    ∃ st' answers, st.run (2 ^ 26) [⟨64769, 12, some (some 3)⟩, ⟨64769, 12, none⟩] =
        .returns (st', answers) ∧ answers.map IdevAnswer.data = [none, some 3] := by
  have hkeys : ∀ c ∈ ([⟨5, true, some (some 7)⟩, ⟨5, false, none⟩] : List (TableCall ℤ ℕ)),
      IsKey true c.key := by
    intro c hc
    rcases List.mem_pair.1 hc with rfl | rfl <;> exact ⟨by decide, fun h => by cases h⟩
  have hpairs : ∀ c ∈ ([⟨64769, 12, some (some 3)⟩, ⟨64769, 12, none⟩] : List (IdevCall ℕ)), c.Ok := by
    intro c hc
    rcases List.mem_pair.1 hc with rfl | rfl <;> exact ⟨by decide, by decide, by decide⟩
  obtain ⟨htbl, hst⟩ := hashtableFind_isMap (by norm_num : 16 ≤ 2 ^ 27) rfl hkeys
    rfl hpairs le_rfl
  refine ⟨_, _, rfl, rfl, ?_, ?_⟩
  · rcases htbl with ⟨-, hfull⟩ | ⟨tbl', answers, hrun, hdata, -⟩
    · exact absurd hfull (by decide)
    · exact ⟨tbl', answers, hrun, hdata⟩
  · rcases hst with ⟨-, hfull⟩ | ⟨st', answers, hrun, hdata, -⟩
    · exact absurd hfull (by decide)
    · refine ⟨st', answers, hrun, List.map_injective_iff.2 (Option.some_injective _) ?_⟩
      rw [List.map_map]
      exact hdata

end CloudEdgeBackup
