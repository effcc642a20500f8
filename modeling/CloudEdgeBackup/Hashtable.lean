/-
  The hash tables (`hashtable.c`).

  * `HtNode`, `Hashtable`: a key of zero is an empty node; a table that grows gets a new array
    of nodes, so a pointer to a node says which array it points into (`NodePtr`);
  * `hashtableFind` is the search with the growth in its middle, which calls the search for
    every old node; `Hashtable.run` is any sequence of calls, each of which may store data in
    the node it got;
  * `KeyMap` is what a table is for: a key that was allocated has data;
  * `Sound` is the invariant of a table, `Reps` says which map it holds.  A search keeps both
    (`find_spec`), also where the table grows on the way (`grow_spec`), and so does a run
    (`run_spec`).
-/
import CloudEdgeBackup.Wire
import CloudEdgeBackup.Lib.Probing

namespace CloudEdgeBackup

open Codec Probing

/-! ## Tables -/

/-- `struct ht_int64_node`, `struct ht_int32_node` -/
structure HtNode (δ : Type) where
  data : Option δ
  key : ℤ
deriving DecidableEq

/-- `struct hashtable`; `array` tells the arrays its `nodes` pointed to apart. -/
structure Hashtable (δ : Type) where
  array : ℕ
  nodes : List (HtNode δ)
  size : ℕ
  entries : ℕ
  key64 : Bool

/-- A pointer to a node. -/
structure NodePtr where
  array : ℕ
  ndx : ℕ
deriving DecidableEq

/-- How a call ends.  It is `stuck` where the fuel runs out or memory outside an array is read. -/
inductive Ending (α : Type) where
  | stuck
  | illegalKey
  | outOfMemory
  | returns (a : α)
deriving DecidableEq

def Ending.bind {α β : Type} (e : Ending α) (f : α → Ending β) : Ending β :=
  match e with
  | .stuck => .stuck
  | .illegalKey => .illegalKey
  | .outOfMemory => .outOfMemory
  | .returns a => f a

@[simp] theorem Ending.bind_returns {α β : Type} (a : α) (f : α → Ending β) :
    (Ending.returns a).bind f = f a := rfl

/-- `MALLOC_MAX`; both kinds of node take 16 bytes. -/
abbrev mallocMax : ℕ := 0x40000000
abbrev htNodeSize : ℕ := 16

/-- `HASH_LOAD_LIMIT` -/
abbrev hashLoadLimit (size : ℕ) : ℕ := size * 3 / 4

variable {δ : Type}

/-- `new_array0(char, size * node_size)`, whose product is an `unsigned int`. -/
def newNodes (size : ℕ) : Ending (List (HtNode δ)) :=
  if mallocMax ≤ size * htNodeSize % 2 ^ 32 then .outOfMemory
  else .returns (List.replicate size ⟨none, 0⟩)

/-- The loop that doubles `size` up to the requested size. -/
def doubleTo (req size : ℕ) : ℕ :=
  if 0 < size ∧ size < req then doubleTo req (size * 2) else size
termination_by req - size

/-- `hashtable_create` -/
def hashtableCreate (size : ℕ) (key64 : Bool) : Ending (Hashtable δ) :=
  let size := if size &&& (size - 1) ≠ 0 ∨ size < 16 then doubleTo size 16 else size
  (newNodes size).bind fun nodes => .returns ⟨0, nodes, size, 0, key64⟩

/-- The hash of a 32-bit key. -/
def hashKey32 (key : ℤ) : UInt32 :=
  let ndx := (leBytes 4 (UInt32.ofInt key).toNat).foldl
    (fun ndx b =>
      let ndx := ndx + UInt32.ofNat b.toNat
      let ndx := ndx + (ndx <<< 10)
      ndx ^^^ (ndx >>> 6)) 0
  let ndx := ndx + (ndx <<< 3)
  let ndx := ndx ^^^ (ndx >>> 11)
  ndx + (ndx <<< 15)

def rot (x k : UInt32) : UInt32 := (x <<< k) ^^^ (x >>> (32 - k))

/-- The hash of a 64-bit key. -/
def hashKey64 (key : ℤ) : UInt32 :=
  let a : UInt32 := 0xdeadbeef + (8 : UInt32) <<< (2 : UInt32)
  let b := a + UInt32.ofInt (key >>> 32)
  let c := a
  let a := a + UInt32.ofInt key
  let c := (c ^^^ b) - rot b 14
  let a := (a ^^^ c) - rot c 11
  let b := (b ^^^ a) - rot a 25
  let c := (c ^^^ b) - rot b 16
  let a := (a ^^^ c) - rot c 4
  let b := (b ^^^ a) - rot a 14
  (c ^^^ b) - rot b 24

def hashKey (key64 : Bool) (key : ℤ) : UInt32 := if key64 then hashKey64 key else hashKey32 key

/-- The `while (1)`: the node of the key, or the empty one. -/
def probe (nodes : List (HtNode δ)) (size : ℕ) (key : ℤ) : ℕ → UInt32 → Ending ℕ
  | 0, _ => .stuck
  | fuel + 1, ndx =>
    let ndx := ndx &&& UInt32.ofNat (size - 1)
    match nodes[ndx.toNat]? with
    | none => .stuck
    | some node =>
      if node.key = key ∨ node.key = 0 then .returns ndx.toNat
      else probe nodes size key fuel (ndx + 1)

namespace Hashtable

/-- `node->data = data` -/
def setData (tbl : Hashtable δ) (ndx : ℕ) (data : Option δ) : Hashtable δ :=
  { tbl with nodes := tbl.nodes.modify ndx fun node => { node with data := data } }

/-- An empty node is taken over. -/
def takeOver (tbl : Hashtable δ) (ndx : ℕ) (key : ℤ) : Hashtable δ :=
  { tbl with
    nodes := tbl.nodes.modify ndx fun node =>
      { node with key := if tbl.key64 then key else int32 key }
    entries := tbl.entries + 1 }

/-- The part of `hashtable_find` behind the growth. -/
def findNode (fuel : ℕ) (tbl : Hashtable δ) (key : ℤ) (allocate : Bool) :
    Ending (Hashtable δ × Option ℕ) :=
  (probe tbl.nodes tbl.size key fuel (hashKey tbl.key64 key)).bind fun ndx =>
    match tbl.nodes[ndx]? with
    | none => .stuck
    | some node =>
      if node.key = key then .returns (tbl, some ndx)
      else if allocate then .returns (tbl.takeOver ndx key, some ndx)
      else .returns (tbl, none)

/-- The table with a new array, twice as large. -/
def doubled (tbl : Hashtable δ) : Ending (Hashtable δ) :=
  (newNodes (tbl.size * 2)).bind fun nodes =>
    .returns { tbl with array := tbl.array + 1, nodes := nodes, size := tbl.size * 2, entries := 0 }

/-- The loop over the old nodes; `find` is `hashtable_find`. -/
def moveNodes (find : Hashtable δ → ℤ → Ending (Hashtable δ × Option ℕ)) :
    List (HtNode δ) → Hashtable δ → Ending (Hashtable δ)
  | [], tbl => .returns tbl
  | node :: nodes, tbl =>
    if node.key = 0 then moveNodes find nodes tbl
    else
      (find tbl node.key).bind fun r =>
        match r.2 with
        | none => .stuck
        | some ndx => moveNodes find nodes (r.1.setData ndx node.data)

end Hashtable

/-- `hashtable_find`, with the number of the node in the array the table then has. -/
def hashtableFind : ℕ → Hashtable δ → ℤ → Bool → Ending (Hashtable δ × Option ℕ)
  | 0, _, _, _ => .stuck
  | fuel + 1, tbl, key, allocate =>
    if (if tbl.key64 then key = 0 else int32 key = 0) then .illegalKey
    else
      (if allocate ∧ hashLoadLimit tbl.size < tbl.entries then
        tbl.doubled.bind fun new =>
          Hashtable.moveNodes (fun t k => hashtableFind fuel t k true) tbl.nodes.reverse new
      else .returns tbl).bind fun tbl => tbl.findNode fuel key allocate

/-! ## Sequences of calls -/

/-- A call, and what the caller stores in the node it gets. -/
structure TableCall (κ δ : Type) where
  key : κ
  allocate : Bool
  store : Option (Option δ)

/-- What a call returns, with the data the node has then. -/
structure TableAnswer (δ : Type) where
  node : NodePtr
  data : Option δ

namespace Hashtable

/-- A call and the store behind it. -/
def call (fuel : ℕ) (tbl : Hashtable δ) (c : TableCall ℤ δ) :
    Ending (Hashtable δ × Option (TableAnswer δ)) :=
  (hashtableFind fuel tbl c.key c.allocate).bind fun r =>
    match r.2 with
    | none => .returns (r.1, none)
    | some ndx =>
      match r.1.nodes[ndx]? with
      | none => .stuck
      | some node =>
        .returns (match c.store with
          | none => r.1
          | some data => r.1.setData ndx data, some ⟨⟨r.1.array, ndx⟩, node.data⟩)

/-- The calls one after the other, with their answers. -/
def run (fuel : ℕ) : Hashtable δ → List (TableCall ℤ δ) →
    Ending (Hashtable δ × List (Option (TableAnswer δ)))
  | tbl, [] => .returns (tbl, [])
  | tbl, c :: cs =>
    (tbl.call fuel c).bind fun r => (run fuel r.1 cs).bind fun s => .returns (s.1, r.2 :: s.2)

end Hashtable

/-! ## What a table is for -/

/-- The data of the keys that were allocated. -/
abbrev KeyMap (κ δ : Type) : Type := κ → Option (Option δ)

namespace KeyMap

variable {κ : Type} [DecidableEq κ]

/-- A key that is missing may be allocated. -/
def find (M : KeyMap κ δ) (key : κ) (allocate : Bool) : KeyMap κ δ :=
  if allocate ∧ M key = none then Function.update M key (some none) else M

/-- What is stored under a key that is there. -/
def store (M : KeyMap κ δ) (key : κ) (data : Option (Option δ)) : KeyMap κ δ :=
  match data with
  | none => M
  | some data => if M key = none then M else Function.update M key (some data)

/-- A call on a map, and what it is answered. -/
def call (M : KeyMap κ δ) (c : TableCall κ δ) : KeyMap κ δ × Option (Option δ) :=
  ((M.find c.key c.allocate).store c.key c.store, M.find c.key c.allocate c.key)

/-- The answers to a sequence of calls. -/
def run : KeyMap κ δ → List (TableCall κ δ) → List (Option (Option δ))
  | _, [] => []
  | M, c :: cs => (M.call c).2 :: run (M.call c).1 cs

/-- What becomes of a key's data by a search and by a store. -/
def found (d : Option (Option δ)) (allocate : Bool) : Option (Option δ) :=
  if allocate ∧ d = none then some none else d

def stored (d : Option (Option δ)) : Option (Option δ) → Option (Option δ)
  | none => d
  | some data => d.map fun _ => data

theorem call_snd (M : KeyMap κ δ) (c : TableCall κ δ) :
    (M.call c).2 = found (M c.key) c.allocate := by
  rw [call, find, found]
  split_ifs <;> simp

/-- Only the key of a call is touched. -/
theorem call_fst (M : KeyMap κ δ) (c : TableCall κ δ) (k : κ) : (M.call c).1 k =
    if k = c.key then stored (found (M c.key) c.allocate) c.store else M k := by
  have hfind : ∀ k, M.find c.key c.allocate k = if k = c.key then found (M c.key) c.allocate else M k := by
    intro k
    rw [find, found]
    rcases eq_or_ne k c.key with rfl | hne
    · rw [if_pos rfl]
      split_ifs <;> simp
    · rw [if_neg hne]
      split_ifs <;> simp [hne]
  rw [call]
  cases hstore : c.store with
  | none => exact hfind k
  | some data =>
    simp only [store, stored, hfind, if_true]
    cases hfound : found (M c.key) c.allocate with
    | none => simp [hfind, hfound]
    | some d =>
      rcases eq_or_ne k c.key with rfl | hne
      · simp
      · simp [hfind, hne]

theorem find_self_eq_none_iff (M : KeyMap κ δ) (key : κ) (allocate : Bool) :
    M.find key allocate key = none ↔ M key = none ∧ allocate = false := by
  rw [find]
  split_ifs with h
  · simp [h.1]
  · constructor
    · intro hnone
      exact ⟨hnone, by simpa [hnone] using h⟩
    · exact And.left

theorem find_of_ne (M : KeyMap κ δ) {key k : κ} (hne : k ≠ key) (allocate : Bool) :
    M.find key allocate k = M k := by
  rw [find]
  split_ifs
  · exact Function.update_of_ne hne ..
  · rfl

theorem store_some (M : KeyMap κ δ) {key : κ} (hkey : M key ≠ none) (data : Option δ) :
    M.store key (some data) = Function.update M key (some data) := if_neg hkey

theorem store_of_eq_none (M : KeyMap κ δ) {key : κ} (hkey : M key = none)
    (data : Option (Option δ)) : M.store key data = M := by
  cases data with
  | none => rfl
  | some data => exact if_pos hkey

theorem store_eq_none_iff (M : KeyMap κ δ) (key k : κ) (data : Option (Option δ)) :
    M.store key data k = none ↔ M k = none := by
  by_cases hkey : M key = none
  · rw [store_of_eq_none M hkey]
  cases data with
  | none => rfl
  | some data =>
    rw [store_some M hkey]
    rcases eq_or_ne k key with rfl | hne
    · simp [hkey]
    · rw [Function.update_of_ne hne]

/-- A call gets a node exactly where it may allocate or its key is there. -/
theorem run_ne_none_iff {M : KeyMap κ δ} {calls : List (TableCall κ δ)} {i : ℕ} {c : TableCall κ δ}
    {r : Option (Option δ)} (hc : calls[i]? = some c) (hr : (M.run calls)[i]? = some r) :
    r ≠ none ↔ c.allocate = true ∨ M c.key ≠ none ∨
      ∃ j < i, ∃ c', calls[j]? = some c' ∧ c'.allocate = true ∧ c'.key = c.key := by
  induction calls generalizing M i with
  | nil => cases hc
  | cons c₀ cs ih =>
    cases i with
    | zero =>
      cases hc
      cases hr
      rw [call, ne_eq, find_self_eq_none_iff, not_and_or, Bool.not_eq_false]
      simp [or_comm]
    | succ i =>
      rw [ih (M := (M.call c₀).1) hc hr, call, ne_eq, store_eq_none_iff]
      have hfirst : ¬M.find c₀.key c₀.allocate c.key = none ↔
          M c.key ≠ none ∨ (c₀.allocate = true ∧ c₀.key = c.key) := by
        rcases eq_or_ne c.key c₀.key with heq | hne
        · rw [heq, find_self_eq_none_iff, not_and_or, Bool.not_eq_false]
          simp
        · simp [find_of_ne M hne, hne.symm]
      rw [hfirst]
      refine or_congr_right (or_assoc.trans (or_congr_right ?_))
      constructor
      · rintro (hc₀ | ⟨j, hj, c', hc', hrest⟩)
        · exact ⟨0, i.succ_pos, c₀, rfl, hc₀⟩
        · exact ⟨j + 1, Nat.succ_lt_succ hj, c', hc', hrest⟩
      · rintro ⟨j, hj, c', hc', hrest⟩
        cases j with
        | zero =>
          cases hc'
          exact .inl hrest
        | succ j => exact .inr ⟨j, Nat.lt_of_succ_lt_succ hj, c', hc', hrest⟩

end KeyMap

/-! ## The invariant -/

/-- Keys that may be looked up: a zero is an empty node, and a 32-bit table has 32-bit keys. -/
def IsKey (key64 : Bool) (key : ℤ) : Prop :=
  key ≠ 0 ∧ (key64 = false → IsInt32 key)

theorem IsKey.legal {key64 : Bool} {key : ℤ} (h : IsKey key64 key) :
    ¬(if key64 then key = 0 else int32 key = 0) := by
  split_ifs with h64
  · exact h.1
  · rw [int32_eq (h.2 (by simpa using h64))]
    exact h.1

namespace Hashtable

variable {tbl tbl' : Hashtable δ} {M : KeyMap ℤ δ} {key : ℤ} {allocate : Bool} {fuel i : ℕ}

/-- The key in a node. -/
def slot (tbl : Hashtable δ) (i : ℕ) : Option ℤ :=
  tbl.nodes[i]?.bind fun node => if node.key = 0 then none else some node.key

/-- Where the search for a key starts. -/
def home (tbl : Hashtable δ) (key : ℤ) : ℕ := (hashKey tbl.key64 key).toNat % tbl.size

/-- The invariant: a search for a key ends at it, and there is room. -/
structure Sound (tbl : Hashtable δ) : Prop where
  size_eq : ∃ m, 4 ≤ m ∧ m ≤ 25 ∧ tbl.size = 2 ^ m
  length : tbl.nodes.length = tbl.size
  placed : Placed tbl.size tbl.home tbl.slot
  legal : ∀ i k, tbl.slot i = some k → IsKey tbl.key64 k
  clean : ∀ (i : ℕ) data, tbl.nodes[i]? = some ⟨data, 0⟩ → data = none
  entries : tbl.entries = (keys tbl.size tbl.slot).card
  load : tbl.entries ≤ hashLoadLimit tbl.size + 1

/-- The map a table holds. -/
def Reps (tbl : Hashtable δ) (M : KeyMap ℤ δ) : Prop :=
  ∀ key data, M key = some data ↔ key ≠ 0 ∧ ∃ i : ℕ, tbl.nodes[i]? = some ⟨data, key⟩

/-- A later state of a table: as long as the array is the same its keys stay where they are. -/
structure Later (tbl tbl' : Hashtable δ) : Prop where
  key64 : tbl'.key64 = tbl.key64
  array : tbl.array ≤ tbl'.array
  slot : tbl'.array = tbl.array → ∀ i k, tbl.slot i = some k → tbl'.slot i = some k

theorem Later.refl (tbl : Hashtable δ) : tbl.Later tbl := ⟨rfl, le_rfl, fun _ _ _ h => h⟩

theorem Later.trans {tbl'' : Hashtable δ} (h : tbl.Later tbl') (h' : tbl'.Later tbl'') :
    tbl.Later tbl'' := by
  refine ⟨h'.key64.trans h.key64, h.array.trans h'.array, fun heq i k hk => ?_⟩
  have hmid : tbl'.array = tbl.array := le_antisymm (heq ▸ h'.array) h.array
  exact h'.slot (heq.trans hmid.symm) i k (h.slot hmid i k hk)

theorem slot_eq_some_iff {k : ℤ} :
    tbl.slot i = some k ↔ k ≠ 0 ∧ ∃ data, tbl.nodes[i]? = some ⟨data, k⟩ := by
  rw [slot, Option.bind_eq_some_iff]
  constructor
  · rintro ⟨node, hnode, hk⟩
    split_ifs at hk with h0
    cases hk
    exact ⟨h0, node.data, hnode⟩
  · rintro ⟨h0, data, hnode⟩
    exact ⟨_, hnode, if_neg h0⟩

theorem slot_eq_none_iff (hi : i < tbl.nodes.length) :
    tbl.slot i = none ↔ ∃ data, tbl.nodes[i]? = some ⟨data, 0⟩ := by
  rw [slot, List.getElem?_eq_getElem hi, Option.bind_some]
  constructor
  · intro h
    split_ifs at h with h0
    exact ⟨tbl.nodes[i].data, by rw [← h0]⟩
  · rintro ⟨data, hnode⟩
    rw [Option.some.injEq] at hnode
    rw [hnode, if_pos rfl]

theorem slot_lt {k : ℤ} (h : tbl.slot i = some k) : i < tbl.nodes.length := by
  obtain ⟨-, data, hnode⟩ := slot_eq_some_iff.1 h
  exact (List.getElem?_eq_some_iff.1 hnode).1

theorem Reps.slot (hM : tbl.Reps M) {k : ℤ} : M k ≠ none ↔ ∃ i, tbl.slot i = some k := by
  rw [Option.ne_none_iff_exists']
  constructor
  · rintro ⟨data, hdata⟩
    obtain ⟨h0, i, hi⟩ := (hM k data).1 hdata
    exact ⟨i, slot_eq_some_iff.2 ⟨h0, data, hi⟩⟩
  · rintro ⟨i, hi⟩
    obtain ⟨h0, data, hnode⟩ := slot_eq_some_iff.1 hi
    exact ⟨data, (hM k data).2 ⟨h0, i, hnode⟩⟩

theorem Sound.size_pos (h : tbl.Sound) : 0 < tbl.size := by
  obtain ⟨m, -, -, hm⟩ := h.size_eq
  rw [hm]
  positivity

theorem Sound.home_lt (h : tbl.Sound) (k : ℤ) : tbl.home k < tbl.size :=
  Nat.mod_lt _ h.size_pos

theorem Sound.mem_keys (h : tbl.Sound) (hM : tbl.Reps M) {k : ℤ} :
    k ∈ keys tbl.size tbl.slot ↔ M k ≠ none := by
  rw [Probing.mem_keys, hM.slot]
  constructor
  · rintro ⟨i, -, hi⟩
    exact ⟨i, hi⟩
  · rintro ⟨i, hi⟩
    exact ⟨i, h.length ▸ slot_lt hi, hi⟩

/-- At least a quarter of the nodes is empty before a key is put into one, so one is behind it. -/
theorem Sound.exists_empty (h : tbl.Sound) : ∃ j < tbl.size, tbl.slot j = none := by
  refine h.placed.exists_empty ?_
  obtain ⟨m, hm, -, hsize⟩ := h.size_eq
  have hload := h.load
  have h16 : 2 ^ 4 ≤ tbl.size := hsize ▸ Nat.pow_le_pow_right (by norm_num) hm
  rw [← h.entries]
  simp only [hashLoadLimit] at hload
  omega

/-! ## The search -/

theorem toNat_and_mask (x : UInt32) {m : ℕ} (hm : m ≤ 25) :
    (x &&& UInt32.ofNat (2 ^ m - 1)).toNat = x.toNat % 2 ^ m := by
  have hlt : 2 ^ m ≤ 2 ^ 25 := Nat.pow_le_pow_right (by norm_num) hm
  have hpos : 0 < 2 ^ m := by positivity
  rw [UInt32.toNat_and, UInt32.toNat_ofNat', Nat.mod_eq_of_lt (by omega),
    Nat.and_two_pow_sub_one_eq_mod]

/-- The loop of the source is the search of open addressing. -/
theorem probe_eq (h : tbl.Sound) (ndx : UInt32) :
    probe tbl.nodes tbl.size key fuel ndx =
      match search tbl.size tbl.slot key fuel (ndx.toNat % tbl.size) with
      | some i => .returns i
      | none => .stuck := by
  obtain ⟨m, -, hm, hsize⟩ := h.size_eq
  have hlt : 2 ^ m ≤ 2 ^ 25 := Nat.pow_le_pow_right (by norm_num) hm
  induction fuel generalizing ndx with
  | zero => rfl
  | succ fuel ih =>
    have hmask : (ndx &&& UInt32.ofNat (tbl.size - 1)).toNat = ndx.toNat % tbl.size := by
      rw [hsize, toNat_and_mask ndx hm]
    have hi : ndx.toNat % tbl.size < tbl.nodes.length := by
      rw [h.length]
      exact Nat.mod_lt _ h.size_pos
    have hnode := List.getElem?_eq_getElem hi
    have hend : tbl.slot (ndx.toNat % tbl.size) = some key ∨ tbl.slot (ndx.toNat % tbl.size) = none ↔
        tbl.nodes[ndx.toNat % tbl.size].key = key ∨ tbl.nodes[ndx.toNat % tbl.size].key = 0 := by
      rw [slot, hnode, Option.bind_some]
      split_ifs with h0
      · simp [h0]
      · simp [h0]
    simp only [probe, search, hmask, hnode, hend]
    split_ifs with hcond
    · rfl
    · have hsmall : ndx.toNat % tbl.size < tbl.size := Nat.mod_lt _ h.size_pos
      have hwrap : (ndx.toNat % tbl.size + 1) % 2 ^ 32 = ndx.toNat % tbl.size + 1 :=
        Nat.mod_eq_of_lt (by omega)
      rw [ih, UInt32.toNat_add, hmask, UInt32.toNat_one, hwrap]

theorem probe_hash (h : tbl.Sound) (key : ℤ) (hfuel : tbl.size ≤ fuel) :
    ∃ i < tbl.size, probe tbl.nodes tbl.size key fuel (hashKey tbl.key64 key) = .returns i ∧
      search tbl.size tbl.slot key tbl.size (tbl.home key) = some i := by
  obtain ⟨j, hj, hempty⟩ := h.exists_empty
  obtain ⟨i, hi⟩ := search_isSome (k := key) (h.home_lt key) hj hempty le_rfl
  have hi' : search tbl.size tbl.slot key fuel (tbl.home key) = some i := by
    obtain ⟨d, hd, hrest⟩ := (search_eq_some_iff (h.home_lt key)).1 hi
    exact (search_eq_some_iff (h.home_lt key)).2 ⟨d, hd.trans_le hfuel, hrest⟩
  refine ⟨i, ?_, ?_, hi⟩
  · obtain ⟨d, -, rfl, -⟩ := (search_eq_some_iff (h.home_lt key)).1 hi
    exact Nat.mod_lt _ h.size_pos
  · rw [probe_eq h, show (hashKey tbl.key64 key).toNat % tbl.size = tbl.home key from rfl, hi']

/-! ### Changes of a node -/

theorem getElem?_setData (ndx : ℕ) (data : Option δ) (i : ℕ) : (tbl.setData ndx data).nodes[i]? =
    if ndx = i then tbl.nodes[i]?.map fun node => ⟨data, node.key⟩ else tbl.nodes[i]? := by
  rw [setData, List.getElem?_modify]
  split_ifs <;> simp

@[simp] theorem slot_setData (ndx : ℕ) (data : Option δ) : (tbl.setData ndx data).slot = tbl.slot := by
  ext1 i
  rw [slot, slot, getElem?_setData]
  split_ifs
  · cases tbl.nodes[i]? <;> rfl
  · rfl

theorem Later.setData (ndx : ℕ) (data : Option δ) : tbl.Later (tbl.setData ndx data) :=
  ⟨rfl, le_rfl, fun _ i k hk => by rwa [slot_setData]⟩

theorem Sound.setData (h : tbl.Sound) {ndx : ℕ} (hndx : tbl.slot ndx = some key) (data : Option δ) :
    (tbl.setData ndx data).Sound where
  size_eq := h.size_eq
  length := by simpa [Hashtable.setData] using h.length
  placed := by rw [slot_setData]; exact h.placed
  legal := by rw [slot_setData]; exact h.legal
  clean := by
    intro i d hi
    rw [getElem?_setData] at hi
    split_ifs at hi with hsame
    · obtain ⟨h0, old, hold⟩ := slot_eq_some_iff.1 hndx
      rw [← hsame, hold] at hi
      cases hi
      exact absurd rfl h0
    · exact h.clean i d hi
  entries := by rw [slot_setData]; exact h.entries
  load := h.load

/-- Data is stored under the key of its node. -/
theorem Reps.setData (h : tbl.Sound) (hM : tbl.Reps M) {ndx : ℕ} (hndx : tbl.slot ndx = some key)
    (data : Option δ) : (tbl.setData ndx data).Reps (M.store key (some data)) := by
  have hthere : M key ≠ none := hM.slot.2 ⟨ndx, hndx⟩
  obtain ⟨h0, old, hold⟩ := slot_eq_some_iff.1 hndx
  rw [KeyMap.store_some M hthere]
  intro k d
  rcases eq_or_ne k key with rfl | hne
  · rw [Function.update_self, Option.some.injEq]
    constructor
    · rintro rfl
      exact ⟨h0, ndx, by rw [getElem?_setData, if_pos rfl, hold]; rfl⟩
    · rintro ⟨-, i, hi⟩
      have hslot : (tbl.setData ndx data).slot i = some k := slot_eq_some_iff.2 ⟨h0, d, hi⟩
      rw [slot_setData] at hslot
      have hsame : ndx = i :=
        h.placed.alone ndx (h.length ▸ slot_lt hndx) i (h.length ▸ slot_lt hslot) k hndx hslot
      rw [getElem?_setData, if_pos hsame, ← hsame, hold] at hi
      cases hi
      rfl
  · rw [Function.update_of_ne hne, hM k d]
    refine and_congr_right fun _ => exists_congr fun i => ?_
    rw [getElem?_setData]
    split_ifs with hi
    · rw [← hi, hold]
      constructor
      · rintro h
        cases h
        exact absurd rfl hne
      · rintro h
        cases h
        exact absurd rfl hne
    · rfl

theorem getElem?_takeOver (hfit : IsKey tbl.key64 key) (ndx i : ℕ) : (tbl.takeOver ndx key).nodes[i]? =
    if ndx = i then tbl.nodes[i]?.map fun node => ⟨node.data, key⟩ else tbl.nodes[i]? := by
  have hkey : (if tbl.key64 then key else int32 key) = key := by
    split_ifs with h64
    · rfl
    · exact int32_eq (hfit.2 (by simpa using h64))
  rw [takeOver, List.getElem?_modify, hkey]
  split_ifs <;> simp

theorem slot_takeOver (hfit : IsKey tbl.key64 key) {ndx : ℕ} (hndx : ndx < tbl.nodes.length) :
    (tbl.takeOver ndx key).slot = Function.update tbl.slot ndx (some key) := by
  ext1 i
  rw [slot, getElem?_takeOver hfit]
  rcases eq_or_ne ndx i with rfl | hne
  · rw [if_pos rfl, List.getElem?_eq_getElem hndx, Function.update_self]
    exact if_neg hfit.1
  · rw [if_neg hne, Function.update_of_ne hne.symm, slot]

theorem Later.takeOver (hfit : IsKey tbl.key64 key) {ndx : ℕ} (hndx : ndx < tbl.nodes.length)
    (hempty : tbl.slot ndx = none) : tbl.Later (tbl.takeOver ndx key) := by
  refine ⟨rfl, le_rfl, fun _ i k hk => ?_⟩
  rw [slot_takeOver hfit hndx, Function.update_of_ne, hk]
  rintro rfl
  rw [hempty] at hk
  cases hk

/-- **A key is put into the empty node its search ended at.** -/
theorem Sound.takeOver (h : tbl.Sound) (hfit : IsKey tbl.key64 key) {ndx : ℕ} (hndx : ndx < tbl.size)
    (hsearch : search tbl.size tbl.slot key tbl.size (tbl.home key) = some ndx)
    (hempty : tbl.slot ndx = none) (hroom : tbl.entries ≤ hashLoadLimit tbl.size) :
    (tbl.takeOver ndx key).Sound := by
  have hslot := slot_takeOver hfit (h.length.symm ▸ hndx)
  have hnew : key ∉ keys tbl.size tbl.slot := by
    rw [Probing.mem_keys]
    rintro ⟨i, hi, hk⟩
    exact h.placed.not_there (h.home_lt key) hsearch hempty hi hk
  constructor
  case size_eq => exact h.size_eq
  case length => simpa [Hashtable.takeOver] using h.length
  case placed =>
    rw [hslot]
    exact h.placed.update (h.home_lt key) le_rfl hsearch hempty
  case legal =>
    intro i k hk
    rw [hslot] at hk
    rcases eq_or_ne i ndx with rfl | hne
    · rw [Function.update_self, Option.some.injEq] at hk
      exact hk ▸ hfit
    · rw [Function.update_of_ne hne] at hk
      exact h.legal i k hk
  case clean =>
    intro i d hi
    rw [getElem?_takeOver hfit] at hi
    split_ifs at hi
    · obtain ⟨node, -, hnode⟩ := Option.map_eq_some_iff.1 hi
      cases hnode
      exact absurd rfl hfit.1
    · exact h.clean i d hi
  case entries =>
    have hkeys : keys tbl.size (tbl.takeOver ndx key).slot = insert key (keys tbl.size tbl.slot) := by
      rw [hslot, keys_update hndx hempty]
    change tbl.entries + 1 = (keys tbl.size (tbl.takeOver ndx key).slot).card
    rw [hkeys, Finset.card_insert_of_notMem hnew, h.entries]
  case load => exact Nat.succ_le_succ hroom

/-- A key that is allocated has no data. -/
theorem Reps.takeOver (hM : tbl.Reps M) (hfit : IsKey tbl.key64 key) {ndx : ℕ}
    (hempty : tbl.nodes[ndx]? = some ⟨none, 0⟩) (hnew : M key = none) :
    (tbl.takeOver ndx key).Reps (M.find key true) := by
  rw [KeyMap.find, if_pos ⟨rfl, hnew⟩]
  intro k d
  rcases eq_or_ne k key with rfl | hne
  · rw [Function.update_self, Option.some.injEq]
    constructor
    · rintro rfl
      exact ⟨hfit.1, ndx, by rw [getElem?_takeOver hfit, if_pos rfl, hempty]; rfl⟩
    · rintro ⟨-, i, hi⟩
      rw [getElem?_takeOver hfit] at hi
      split_ifs at hi with hsame
      · rw [← hsame, hempty] at hi
        cases hi
        rfl
      · rw [(hM k d).2 ⟨hfit.1, i, hi⟩] at hnew
        cases hnew
  · rw [Function.update_of_ne hne, hM k d]
    refine and_congr_right fun h0 => exists_congr fun i => ?_
    rw [getElem?_takeOver hfit]
    split_ifs with hi
    · rw [← hi, hempty]
      constructor
      · rintro h
        cases h
        exact absurd rfl h0
      · rintro h
        cases h
        exact absurd rfl hne
    · rfl

/-- What a search does that returns. -/
structure FindsNode (tbl : Hashtable δ) (M : KeyMap ℤ δ) (key : ℤ) (allocate : Bool)
    (tbl' : Hashtable δ) (found : Option ℕ) : Prop where
  sound : tbl'.Sound
  reps : tbl'.Reps (M.find key allocate)
  later : tbl.Later tbl'
  node : ∀ i, found = some i → tbl'.slot i = some key
  null : found = none → M.find key allocate key = none

/-- The search in a table that need not grow. -/
theorem findNode_spec (h : tbl.Sound) (hM : tbl.Reps M) (hfit : IsKey tbl.key64 key)
    (hroom : allocate = true → tbl.entries ≤ hashLoadLimit tbl.size) (hfuel : tbl.size ≤ fuel) :
    ∃ tbl' found, tbl.findNode fuel key allocate = .returns (tbl', found) ∧
      tbl.FindsNode M key allocate tbl' found ∧ tbl'.size = tbl.size ∧ tbl'.array = tbl.array := by
  obtain ⟨i, hi, hprobe, hsearch⟩ := probe_hash h key hfuel
  have hlen : i < tbl.nodes.length := h.length ▸ hi
  obtain ⟨-, -, -, -, hend⟩ := (search_eq_some_iff (h.home_lt key)).1 hsearch
  rw [findNode, hprobe, Ending.bind_returns]
  rcases hend with hkey | hempty
  · obtain ⟨-, data, hnode⟩ := slot_eq_some_iff.1 hkey
    have hthere : M key ≠ none := hM.slot.2 ⟨i, hkey⟩
    have hsame : M.find key allocate = M := if_neg fun hc => hthere hc.2
    refine ⟨tbl, some i, by simp only [hnode, if_true], ⟨h, ?_, .refl _, ?_, ?_⟩, rfl, rfl⟩
    · rwa [hsame]
    · intro j hj
      cases hj
      exact hkey
    · intro hnull
      cases hnull
  · obtain ⟨data, hnode⟩ := (slot_eq_none_iff hlen).1 hempty
    obtain rfl := h.clean i data hnode
    have hnew : M key = none := by
      by_contra hthere
      obtain ⟨j, hj⟩ := hM.slot.1 hthere
      exact h.placed.not_there (h.home_lt key) hsearch hempty (h.length ▸ slot_lt hj) hj
    simp only [hnode, if_neg hfit.1.symm]
    cases allocate with
    | false =>
      have hsame : M.find key false = M := if_neg fun hc => absurd hc.1 Bool.false_ne_true
      refine ⟨tbl, none, rfl, ⟨h, ?_, .refl _, ?_, ?_⟩, rfl, rfl⟩
      · rwa [hsame]
      · intro j hj
        cases hj
      · rw [hsame]
        exact fun _ => hnew
    | true =>
      refine ⟨tbl.takeOver i key, some i, rfl, ⟨?_, ?_, ?_, ?_, ?_⟩, rfl, rfl⟩
      · exact h.takeOver hfit hi hsearch hempty (hroom rfl)
      · exact hM.takeOver hfit hnode hnew
      · exact .takeOver hfit hlen hempty
      · intro j hj
        cases hj
        rw [slot_takeOver hfit hlen, Function.update_self]
      · intro hnull
        cases hnull

theorem hashtableFind_succ (hfit : IsKey tbl.key64 key)
    (hroom : allocate = true → tbl.entries ≤ hashLoadLimit tbl.size) :
    hashtableFind (fuel + 1) tbl key allocate = tbl.findNode fuel key allocate := by
  have hgrow : ¬(allocate = true ∧ hashLoadLimit tbl.size < tbl.entries) := fun hc =>
    absurd (hroom hc.1) (not_le.2 hc.2)
  rw [hashtableFind, if_neg hfit.legal, if_neg hgrow, Ending.bind_returns]

/-! ## A table that grows -/

theorem newNodes_eq {m : ℕ} (hm : m ≤ 27) : newNodes (δ := δ) (2 ^ m) =
    if m ≤ 25 then .returns (List.replicate (2 ^ m) ⟨none, 0⟩) else .outOfMemory := by
  have hlt : 2 ^ m ≤ 2 ^ 27 := Nat.pow_le_pow_right (by norm_num) hm
  have hprod : 2 ^ m * htNodeSize % 2 ^ 32 = 2 ^ m * htNodeSize :=
    Nat.mod_eq_of_lt (by simp only [htNodeSize]; omega)
  rw [newNodes, hprod]
  by_cases h25 : m ≤ 25
  · have hle : 2 ^ m ≤ 2 ^ 25 := Nat.pow_le_pow_right (by norm_num) h25
    rw [if_pos h25, if_neg (by simp only [htNodeSize, mallocMax]; omega)]
  · have hge : 2 ^ 26 ≤ 2 ^ m := Nat.pow_le_pow_right (by norm_num) (by omega)
    rw [if_neg h25, if_pos (by simp only [htNodeSize, mallocMax]; omega)]

/-- A table with a new array holds nothing. -/
theorem fresh_slot (array m : ℕ) (key64 : Bool) (i : ℕ) :
    (⟨array, List.replicate (2 ^ m) ⟨none, 0⟩, 2 ^ m, 0, key64⟩ : Hashtable δ).slot i = none := by
  rw [slot, List.getElem?_replicate]
  split_ifs <;> rfl

theorem Sound.fresh (array : ℕ) {m : ℕ} (hm : 4 ≤ m) (hm' : m ≤ 25) (key64 : Bool) :
    (⟨array, List.replicate (2 ^ m) ⟨none, 0⟩, 2 ^ m, 0, key64⟩ : Hashtable δ).Sound := by
  have hslot : (⟨array, List.replicate (2 ^ m) ⟨none, 0⟩, 2 ^ m, 0, key64⟩ : Hashtable δ).slot =
      fun _ => none := funext (fresh_slot array m key64)
  constructor
  case size_eq => exact ⟨m, hm, hm', rfl⟩
  case length => exact List.length_replicate
  case placed =>
    rw [hslot]
    exact .empty
  case legal =>
    intro i k hk
    rw [hslot] at hk
    cases hk
  case clean =>
    intro i data hi
    have := List.eq_of_mem_replicate (List.mem_of_getElem? hi)
    cases this
    rfl
  case entries =>
    rw [hslot]
    exact (Finset.card_eq_zero.2 (Finset.eq_empty_of_forall_notMem fun k hk => by
      obtain ⟨i, -, hi⟩ := Probing.mem_keys.1 hk
      cases hi)).symm
  case load => exact Nat.zero_le _

theorem Reps.fresh (array m : ℕ) (key64 : Bool) :
    (⟨array, List.replicate (2 ^ m) ⟨none, 0⟩, 2 ^ m, 0, key64⟩ : Hashtable δ).Reps fun _ => none := by
  intro k data
  constructor
  · intro h
    cases h
  · rintro ⟨h0, i, hi⟩
    have hk : (⟨data, k⟩ : HtNode δ) = ⟨none, 0⟩ := List.eq_of_mem_replicate (List.mem_of_getElem? hi)
    cases hk
    exact absurd rfl h0

/-- The old nodes are moved, whatever part of them has been moved before. -/
theorem moveNodes_spec {old : Hashtable δ} (hold : old.Sound) (hM : old.Reps M)
    (hsize : tbl.size = old.size * 2) (h64 : tbl.key64 = old.key64) (hfuel : tbl.size < fuel)
    {nodes : List (HtNode δ)} (hnodes : ∀ node ∈ nodes, node ∈ old.nodes)
    (h : tbl.Sound) {N : KeyMap ℤ δ} (hN : tbl.Reps N)
    (hpart : ∀ k data, N k = some data → M k = some data) :
    ∃ tbl' N', moveNodes (fun t k => hashtableFind fuel t k true) nodes tbl = .returns tbl' ∧
      tbl'.Sound ∧ tbl'.Reps N' ∧ tbl'.size = tbl.size ∧ tbl'.array = tbl.array ∧
      tbl'.key64 = tbl.key64 ∧ (∀ k data, N' k = some data → M k = some data) ∧
      (∀ k data, N k = some data → N' k = some data) ∧
      ∀ node ∈ nodes, node.key ≠ 0 → N' node.key = some node.data := by
  induction nodes generalizing tbl N with
  | nil => exact ⟨tbl, N, rfl, h, hN, rfl, rfl, rfl, hpart, fun _ _ hk => hk, fun _ hnode => nomatch hnode⟩
  | cons node nodes ih =>
    have hrest : ∀ n ∈ nodes, n ∈ old.nodes := fun n hn => hnodes n (List.mem_cons_of_mem _ hn)
    rw [moveNodes]
    by_cases h0 : node.key = 0
    · rw [if_pos h0]
      obtain ⟨tbl', N', hmove, hs, hr, hsz, har, hk, hp, hext, hall⟩ := ih hsize h64 hfuel hrest h hN hpart
      refine ⟨tbl', N', hmove, hs, hr, hsz, har, hk, hp, hext, fun n hn hn0 => ?_⟩
      rcases List.mem_cons.1 hn with rfl | hn
      · exact absurd h0 hn0
      · exact hall n hn hn0
    rw [if_neg h0]
    obtain ⟨i, hi⟩ := List.getElem?_of_mem (hnodes node List.mem_cons_self)
    have hdata : M node.key = some node.data := (hM _ _).2 ⟨h0, i, hi⟩
    have hfit : IsKey tbl.key64 node.key := h64 ▸ hold.legal i _ (slot_eq_some_iff.2 ⟨h0, _, hi⟩)
    -- no more keys than the old table had, so the new one does not grow
    have hroom : tbl.entries ≤ hashLoadLimit tbl.size := by
      have hsub : keys tbl.size tbl.slot ⊆ keys old.size old.slot := by
        intro k hk
        rw [h.mem_keys hN, Option.ne_none_iff_exists'] at hk
        obtain ⟨data, hk⟩ := hk
        rw [hold.mem_keys hM, hpart k data hk]
        exact Option.some_ne_none data
      have hcard := Finset.card_le_card hsub
      have hload := hold.load
      have hpos : 0 < old.size := hold.size_pos
      rw [← h.entries, ← hold.entries] at hcard
      simp only [hashLoadLimit] at hload ⊢
      omega
    obtain ⟨fuel, rfl⟩ : ∃ n, fuel = n + 1 := ⟨fuel - 1, by omega⟩
    obtain ⟨t, found, hfind, hstep, hsz, har⟩ :=
      findNode_spec h hN hfit (fun _ : true = true => hroom) (Nat.le_of_lt_succ hfuel)
    have hfound : ∃ ndx, found = some ndx := by
      rw [← Option.ne_none_iff_exists']
      intro hnull
      exact Bool.noConfusion ((N.find_self_eq_none_iff _ _).1 (hstep.null hnull)).2
    obtain ⟨ndx, rfl⟩ := hfound
    have hslot := hstep.node ndx rfl
    rw [hashtableFind_succ hfit fun _ => hroom, hfind, Ending.bind_returns]
    -- what the new table holds: the node's key with its data
    have hmap : ∀ k data, ((N.find node.key true).store node.key (some node.data)) k = some data ↔
        (k = node.key ∧ data = node.data) ∨ (k ≠ node.key ∧ N k = some data) := by
      intro k data
      rw [KeyMap.store_some _ (hstep.reps.slot.2 ⟨ndx, hslot⟩)]
      rcases eq_or_ne k node.key with rfl | hne
      · simp [eq_comm]
      · simp [KeyMap.find_of_ne N hne, hne]
    have hwide : (t.setData ndx node.data).size = old.size * 2 := hsz.trans hsize
    obtain ⟨tbl', N', hmove, hs, hr, hsz', har', hk, hp, hext, hall⟩ := ih
      hwide (hstep.later.key64.trans h64) (hsz.symm ▸ hfuel : t.size < fuel + 1) hrest
      (hstep.sound.setData hslot node.data) (hstep.reps.setData hstep.sound hslot node.data)
      (fun k data hk => by
        rcases (hmap k data).1 hk with ⟨rfl, rfl⟩ | ⟨-, hk⟩
        · exact hdata
        · exact hpart k data hk)
    refine ⟨tbl', N', hmove, hs, hr, hsz'.trans hsz, har'.trans har, hk.trans hstep.later.key64, hp,
      fun k data hk => hext k data ((hmap k data).2 ?_), fun n hn hn0 => ?_⟩
    · rcases eq_or_ne k node.key with rfl | hne
      · rw [hpart _ _ hk, Option.some.injEq] at hdata
        exact .inl ⟨rfl, hdata⟩
      · exact .inr ⟨hne, hk⟩
    · rcases List.mem_cons.1 hn with rfl | hn
      · exact hext _ _ ((hmap _ _).2 (.inl ⟨rfl, rfl⟩))
      · exact hall n hn hn0

/-- **A table that grows holds what it held.** -/
theorem grow_spec {m : ℕ} (h : tbl.Sound) (hM : tbl.Reps M) (hm : tbl.size = 2 ^ m)
    (hfuel : 2 ^ 25 < fuel) (find : Hashtable δ → ℤ → Ending (Hashtable δ × Option ℕ))
    (hfind : find = fun t k => hashtableFind fuel t k true) :
    (m = 25 ∧ tbl.doubled = .outOfMemory) ∨
    ∃ new tbl', tbl.doubled = .returns new ∧ moveNodes find tbl.nodes.reverse new = .returns tbl' ∧
      tbl'.Sound ∧ tbl'.Reps M ∧ tbl'.size = tbl.size * 2 ∧ tbl'.array = tbl.array + 1 ∧
      tbl'.key64 = tbl.key64 := by
  obtain ⟨m', hm4, hm25, hm'⟩ := h.size_eq
  obtain rfl : m = m' := Nat.pow_right_injective le_rfl (hm.symm.trans hm')
  have hnew := newNodes_eq (δ := δ) (m := m + 1) (by omega)
  rw [pow_succ, ← hm] at hnew
  rw [doubled, hnew]
  by_cases hlast : m = 25
  · exact .inl ⟨hlast, by rw [if_neg (by omega)]; rfl⟩
  refine .inr ?_
  rw [if_pos (by omega), Ending.bind_returns]
  have hsize : tbl.size * 2 = 2 ^ (m + 1) := by rw [hm, pow_succ]
  have hle : 2 ^ (m + 1) ≤ 2 ^ 25 := Nat.pow_le_pow_right (by norm_num) (by omega)
  obtain ⟨tbl', N', hmove, hs, hr, hsz, har, hk, hp, -, hall⟩ :=
    moveNodes_spec h hM hsize.symm (by rfl) (hle.trans_lt hfuel)
      (fun node hnode => List.mem_reverse.1 hnode)
      (.fresh (tbl.array + 1) (by omega) (by omega) tbl.key64) (.fresh _ _ _)
      (fun k data (hk : none = some data) => by cases hk)
  refine ⟨_, tbl', rfl, ?_, hs, ?_, hsz.trans hsize.symm, har, hk⟩
  · rw [hfind, hsize, hmove]
  · have hsame : N' = M := by
      ext1 k
      cases hMk : M k with
      | some data =>
        obtain ⟨h0, i, hi⟩ := (hM k data).1 hMk
        exact hall ⟨data, k⟩ (List.mem_reverse.2 (List.mem_of_getElem? hi)) h0
      | none =>
        by_contra hne
        obtain ⟨data, hdata⟩ := Option.ne_none_iff_exists'.1 hne
        rw [hp k data hdata] at hMk
        cases hMk
    rwa [← hsame]

/-- **One search.**  It fails only where a table of the largest size is to grow. -/
theorem find_spec (h : tbl.Sound) (hM : tbl.Reps M) (hfit : IsKey tbl.key64 key)
    (hfuel : 2 ^ 26 ≤ fuel) :
    (hashtableFind fuel tbl key allocate = .outOfMemory ∧ hashLoadLimit (2 ^ 25) < tbl.entries) ∨
    ∃ tbl' found, hashtableFind fuel tbl key allocate = .returns (tbl', found) ∧
      tbl.FindsNode M key allocate tbl' found := by
  obtain ⟨m, -, hm25, hm⟩ := h.size_eq
  have hle : tbl.size ≤ 2 ^ 25 := hm ▸ Nat.pow_le_pow_right (by norm_num) hm25
  obtain ⟨fuel, rfl⟩ : ∃ n, fuel = n + 1 := ⟨fuel - 1, by omega⟩
  by_cases hgrow : allocate = true ∧ hashLoadLimit tbl.size < tbl.entries
  · rw [hashtableFind, if_neg hfit.legal, if_pos hgrow]
    have hgrown := grow_spec h hM hm (by omega : 2 ^ 25 < fuel) _ rfl
    rcases hgrown with ⟨rfl, hout⟩ | ⟨new, t, hnew, hmove, hs, hr, hsz, har, hk⟩
    · refine .inl ⟨?_, hm ▸ hgrow.2⟩
      rw [hout]
      rfl
    · -- as many keys as before are in twice the room
      have hentries : t.entries = tbl.entries := by
        rw [hs.entries, h.entries]
        congr 1
        ext k
        rw [hs.mem_keys hr, h.mem_keys hM]
      have hroom : t.entries ≤ hashLoadLimit t.size := by
        have hload := h.load
        have hpos := h.size_pos
        rw [hentries, hsz]
        simp only [hashLoadLimit] at hload ⊢
        omega
      have ht25 : t.size ≤ 2 ^ 25 := by
        obtain ⟨n, -, hn25, hn⟩ := hs.size_eq
        exact hn ▸ Nat.pow_le_pow_right (by norm_num) hn25
      obtain ⟨tbl', found, hfind, hstep, -, har'⟩ := findNode_spec hs hr
        (hk ▸ hfit) (fun _ => hroom) (by omega : t.size ≤ fuel)
      refine .inr ⟨tbl', found, ?_, hstep.sound, hstep.reps, ⟨?_, ?_, ?_⟩, hstep.node, hstep.null⟩
      · rw [hnew, Ending.bind_returns, hmove, Ending.bind_returns, hfind]
      · exact hstep.later.key64.trans hk
      · omega
      · intro heq
        omega
  · have hroom : allocate = true → tbl.entries ≤ hashLoadLimit tbl.size := fun ha =>
      not_lt.1 fun hlt => hgrow ⟨ha, hlt⟩
    obtain ⟨tbl', found, hfind, hstep, -⟩ := findNode_spec h hM hfit hroom
      (by omega : tbl.size ≤ fuel)
    exact .inr ⟨tbl', found, by rw [hashtableFind_succ hfit hroom, hfind], hstep⟩

/-- A search that found a node can read it. -/
theorem FindsNode.data {tbl' : Hashtable δ} {found : Option ℕ} {ndx : ℕ}
    (h : tbl.FindsNode M key allocate tbl' found) (hndx : found = some ndx) :
    ∃ data, tbl'.nodes[ndx]? = some ⟨data, key⟩ ∧ M.find key allocate key = some data := by
  obtain ⟨h0, data, hnode⟩ := slot_eq_some_iff.1 (h.node ndx hndx)
  exact ⟨data, hnode, (h.reps key data).2 ⟨h0, ndx, hnode⟩⟩

/-- A call and its answer, next to those of the map. -/
structure Answers (tbl : Hashtable δ) (M : KeyMap ℤ δ) (c : TableCall ℤ δ) (tbl' : Hashtable δ)
    (answer : Option (TableAnswer δ)) : Prop where
  sound : tbl'.Sound
  reps : tbl'.Reps (M.call c).1
  later : tbl.Later tbl'
  data : answer.map TableAnswer.data = (M.call c).2
  node : ∀ a, answer = some a → a.node.array = tbl'.array ∧ tbl'.slot a.node.ndx = some c.key

theorem call_spec (h : tbl.Sound) (hM : tbl.Reps M) {c : TableCall ℤ δ} (hfit : IsKey tbl.key64 c.key)
    (hfuel : 2 ^ 26 ≤ fuel) :
    (tbl.call fuel c = .outOfMemory ∧ hashLoadLimit (2 ^ 25) < tbl.entries) ∨
    ∃ tbl' answer, tbl.call fuel c = .returns (tbl', answer) ∧ tbl.Answers M c tbl' answer := by
  rcases find_spec h hM hfit hfuel with ⟨hout, hfull⟩ | ⟨t, found, hfind, hstep⟩
  · refine .inl ⟨?_, hfull⟩
    rw [call, hout]
    rfl
  refine .inr ?_
  rw [call, hfind, Ending.bind_returns]
  cases found with
  | none =>
    have hnull := hstep.null rfl
    refine ⟨t, none, rfl, hstep.sound, ?_, hstep.later, ?_, ?_⟩
    · rw [KeyMap.call, KeyMap.store_of_eq_none _ hnull]
      exact hstep.reps
    · exact hnull.symm
    · intro a ha
      cases ha
  | some ndx =>
    obtain ⟨data, hnode, hdata⟩ := hstep.data rfl
    have hslot := hstep.node ndx rfl
    simp only [hnode]
    cases hstore : c.store with
    | none =>
      refine ⟨t, _, rfl, hstep.sound, ?_, hstep.later, hdata.symm, ?_⟩
      · rw [KeyMap.call, hstore]
        exact hstep.reps
      · intro a ha
        cases ha
        exact ⟨rfl, hslot⟩
    | some d =>
      refine ⟨t.setData ndx d, _, rfl, hstep.sound.setData hslot d, ?_,
        hstep.later.trans (.setData ndx d), hdata.symm, ?_⟩
      · rw [KeyMap.call, hstore]
        exact hstep.reps.setData hstep.sound hslot d
      · intro a ha
        cases ha
        exact ⟨rfl, by rwa [slot_setData]⟩

/-! ## A run -/

/-- Two nodes of one array are the same exactly where the keys are. -/
def OneNodeEach (l : List (TableCall ℤ δ × Option (TableAnswer δ))) : Prop :=
  l.Pairwise fun x y => ∀ a b, x.2 = some a → y.2 = some b → a.node.array = b.node.array →
    (a.node = b.node ↔ x.1.key = y.1.key)

/-- **Any sequence of calls is answered like calls on a map**, unless a table of the largest size
    gets too many keys. -/
theorem run_spec {calls : List (TableCall ℤ δ)} (hfuel : 2 ^ 26 ≤ fuel) (P : Finset ℤ)
    (hP : ∀ c ∈ calls, c.allocate = true → c.key ∈ P) (h : tbl.Sound) (hM : tbl.Reps M)
    (hkeys : ∀ k, M k ≠ none → k ∈ P) (hfit : ∀ c ∈ calls, IsKey tbl.key64 c.key) :
    (tbl.run fuel calls = .outOfMemory ∧ hashLoadLimit (2 ^ 25) < P.card) ∨
    ∃ tbl' answers, tbl.run fuel calls = .returns (tbl', answers) ∧
      answers.map (Option.map TableAnswer.data) = M.run calls ∧ OneNodeEach (calls.zip answers) ∧
      ∀ y ∈ calls.zip answers, ∀ b, y.2 = some b → tbl.array ≤ b.node.array ∧
        (tbl.array = b.node.array → ∀ i k, tbl.slot i = some k → (i = b.node.ndx ↔ k = y.1.key)) := by
  induction calls generalizing tbl M with
  | nil => exact .inr ⟨tbl, [], rfl, rfl, .nil, fun y hy => nomatch hy⟩
  | cons c cs ih =>
    rw [run]
    rcases call_spec h hM (hfit c List.mem_cons_self) hfuel with ⟨hout, hfull⟩ | ⟨t, answer, hcall, hans⟩
    · refine .inl ⟨by rw [hout]; rfl, hfull.trans_le ?_⟩
      rw [h.entries]
      exact Finset.card_le_card fun k hk => hkeys k ((h.mem_keys hM).1 hk)
    rw [hcall, Ending.bind_returns]
    have hkeys' : ∀ k, (M.call c).1 k ≠ none → k ∈ P := by
      intro k hk
      rw [KeyMap.call, ne_eq, KeyMap.store_eq_none_iff] at hk
      rcases eq_or_ne k c.key with rfl | hne
      · rw [KeyMap.find_self_eq_none_iff, not_and_or, Bool.not_eq_false] at hk
        exact hk.elim (hkeys _) (hP c List.mem_cons_self)
      · rw [KeyMap.find_of_ne M hne] at hk
        exact hkeys k hk
    rcases ih (fun c' hc' => hP c' (List.mem_cons_of_mem _ hc')) hans.sound hans.reps hkeys'
        (fun c' hc' => hans.later.key64 ▸ hfit c' (List.mem_cons_of_mem _ hc')) with
      ⟨hout, hfull⟩ | ⟨tbl', answers, hrun, hdata, hone, hnode⟩
    · exact .inl ⟨by rw [hout]; rfl, hfull⟩
    refine .inr ⟨tbl', answer :: answers, by rw [hrun]; rfl, ?_, ?_, ?_⟩
    · rw [List.map_cons, hans.data, hdata, KeyMap.run]
    · refine List.pairwise_cons.2 ⟨fun y hy a b ha hb harr => ?_, hone⟩
      obtain ⟨hat, hslot⟩ := hans.node a ha
      obtain ⟨-, hiff⟩ := hnode y hy b hb
      rw [← hiff (hat.symm.trans harr) _ _ hslot, NodePtr.mk.injEq]
      exact and_iff_right harr
    · rintro y hy b hb
      rcases List.mem_cons.1 hy with rfl | hy
      · obtain ⟨hat, hslot⟩ := hans.node b hb
        refine ⟨hat ▸ hans.later.array, fun harr i k hk => ?_⟩
        have hk' := hans.later.slot (hat.symm.trans harr.symm) i k hk
        constructor
        · rintro rfl
          exact Option.some.inj (hk'.symm.trans hslot)
        · rintro rfl
          have hlen : t.nodes.length = t.size := hans.sound.length
          exact hans.sound.placed.alone i (hlen ▸ slot_lt hk') _ (hlen ▸ slot_lt hslot) _ hk' hslot
      · obtain ⟨hge, hiff⟩ := hnode y hy b hb
        refine ⟨hans.later.array.trans hge, fun harr i k hk => ?_⟩
        have hsame : t.array = tbl.array := le_antisymm (harr ▸ hge) hans.later.array
        exact hiff (hsame.trans harr) i k (hans.later.slot hsame i k hk)

/-- `hashtable_create` makes an empty table. -/
theorem hashtableCreate_spec {req : ℕ} (hreq : req ≤ 2 ^ 27) {key64 : Bool}
    (h : hashtableCreate req key64 = .returns tbl) :
    tbl.Sound ∧ tbl.Reps (fun _ => none) ∧ tbl.key64 = key64 := by
  have hdouble : ∀ m, 4 ≤ m → 2 ^ m ≤ 2 ^ 27 → ∃ n, 4 ≤ n ∧ n ≤ 27 ∧ doubleTo req (2 ^ m) = 2 ^ n := by
    intro m
    induction hd : 27 - m generalizing m with
    | zero =>
      intro hm hle
      have h27 : m ≤ 27 := (Nat.pow_le_pow_iff_right (by norm_num)).1 hle
      obtain rfl : m = 27 := by omega
      exact ⟨27, by norm_num, le_rfl, by rw [doubleTo, if_neg (by omega)]⟩
    | succ d ih =>
      intro hm hle
      rw [doubleTo]
      split_ifs with hlt
      · rw [← pow_succ]
        exact ih (m + 1) (by omega) (by omega) (Nat.pow_le_pow_right (by norm_num) (by omega))
      · exact ⟨m, hm, (Nat.pow_le_pow_iff_right (by norm_num)).1 hle, rfl⟩
  have hsize : ∃ n, 4 ≤ n ∧ n ≤ 27 ∧
      (if req &&& (req - 1) ≠ 0 ∨ req < 16 then doubleTo req 16 else req) = 2 ^ n := by
    split_ifs with hcond
    · exact hdouble 4 le_rfl (by norm_num)
    · rw [not_or, not_not, not_lt] at hcond
      obtain ⟨n, hn⟩ := (Nat.and_sub_one_eq_zero_iff_isPowerOfTwo (by omega)).1 hcond.1
      have hlow : 2 ^ 4 ≤ 2 ^ n := hn ▸ hcond.2
      rw [hn] at hreq ⊢
      exact ⟨n, (Nat.pow_le_pow_iff_right (by norm_num)).1 hlow,
        (Nat.pow_le_pow_iff_right (by norm_num)).1 hreq, rfl⟩
  obtain ⟨n, hn4, hn27, hn⟩ := hsize
  rw [hashtableCreate] at h
  simp only [hn, newNodes_eq hn27] at h
  by_cases hn25 : n ≤ 25
  · rw [if_pos hn25, Ending.bind_returns, Ending.returns.injEq] at h
    subst h
    exact ⟨.fresh 0 hn4 hn25 key64, .fresh 0 n key64, rfl⟩
  · rw [if_neg hn25] at h
    cases h

end Hashtable

end CloudEdgeBackup
