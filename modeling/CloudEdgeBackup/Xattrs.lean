/-
  Extended attributes in the file list (`xattrs.c`): a file's attributes are sent once for all
  files that have the same ones, and long values only as their digests.

  * `XAttr` is an `rsync_xa`; `xalGet` makes the list of a file;
  * `sendXattr`: an index into the lists that were sent, or the list itself; `receiveXattr`: what
    the other side makes of it.  Its items go through `temp_xattr`, whose memory stays as it was
    from one list to the next;
  * `arriving` is what the receiver is to store of a list; `Takes` says when it stores that;
    `Meets` says it of every new list of a sequence.

  The items are sorted as many as were sent, not as many as were kept, so what an earlier list
  left behind takes part; they are not sorted where only the sender renamed them; and a receiver
  that is not root has no room for the prefix it puts in front of a name.
-/
import CloudEdgeBackup.Wire
import CloudEdgeBackup.Lib.Interning

namespace CloudEdgeBackup

open Codec Interning

/-- `MAX_FULL_DATUM`, `XSTATE_ABBREV` -/
abbrev maxFullDatum : ℕ := 32
abbrev xstateAbbrev : UInt8 := 1

/-- `USER_PREFIX`, "user." -/
abbrev userPrefix : Bytes := [117, 115, 101, 114, 46]

/-- `RSYNC_PREFIX`, "rsync." behind the user's prefix on Linux. -/
def rsyncPrefix (linux : Bool) : Bytes :=
  (if linux then userPrefix else []) ++ [114, 115, 121, 110, 99, 46]

abbrev percentByte : UInt8 := 37

/-- `HAS_PREFIX` -/
def hasPrefix (str pre : Bytes) : Bool := pre.isPrefixOf str

/-! ## Lists of attributes -/

/-- `rsync_xa`; the `datum` of a long value is a state and its digest. -/
structure XAttr where
  name : Bytes
  datumLen : ℕ
  datum : Bytes
  num : ℕ
deriving DecidableEq

namespace XAttr

variable (x : XAttr)

def isLong : Bool := maxFullDatum < x.datumLen

/-- What is sent of a value. -/
def sentDatum : Bytes :=
  if x.isLong then (x.datum.drop 1).take maxDigestLen else x.datum.take x.datumLen

/-- What `find_matching_xattr` compares. -/
def content : Bytes × ℕ × Bytes := (x.name, x.datumLen, x.sentDatum)

/-- What `xattr_lookup_hash` hashes of a value. -/
def hashedDatum : Bytes := x.datum.take (if x.isLong then maxDigestLen else x.datumLen)

end XAttr

/-- Two lists are the same for `find_matching_xattr`. -/
def xalContent (l : List XAttr) : List (Bytes × ℕ × Bytes) := l.map XAttr.content

/-- `xattr_lookup_hash` -/
def xattrLookupHash (hashlittle : Bytes → ℕ) (l : List XAttr) : ℕ :=
  let key := (hashlittle (leBytes 8 l.length) +
    (l.map fun x => hashlittle (x.name ++ [0]) + hashlittle x.hashedDatum).sum) % 2 ^ 64
  if key = 0 then 1 else key

/-- `qsort` with `rsync_xal_compare_names` -/
structure NameSort where
  sort : List XAttr → List XAttr
  perm : ∀ l, (sort l).Perm l
  sorted : ∀ l, (sort l).Pairwise fun x y => x.name ≤ y.name

/-- How a value is kept, where `digest` is what `sum_end` gives. -/
def keepDatum (digest : Bytes → Bytes) (value : Bytes) : Bytes :=
  if maxFullDatum < value.length then xstateAbbrev :: digest value else value

/-- `rsync_xal_get` behind its tests, for the names and values of a file. -/
def xalGet (qsort : NameSort) (digest : Bytes → Bytes) (attrs : List (Bytes × Bytes)) :
    List XAttr :=
  (qsort.sort (attrs.map fun a => ⟨a.1, a.2.length, keepDatum digest a.2, 0⟩)).mapIdx
    fun i x => { x with num := i + 1 }

/-! ## The sender -/

/-- What both sides have of their own. -/
structure XattrSide where
  linux : Bool
  amRoot : ℤ
  hashlittle : Bytes → ℕ
  qsort : NameSort

namespace XattrSide

variable (p : XattrSide)

/-- The rsync prefix is stripped from disguised namespaces, anything else gets into the user's. -/
def sentName (name : Bytes) : Bytes :=
  if (rsyncPrefix p.linux).length < name.length + 1 && (!p.linux || p.amRoot < 0) &&
      name.getD (rsyncPrefix p.linux).length 0 ≠ percentByte &&
      hasPrefix name (rsyncPrefix p.linux) then
    name.drop (rsyncPrefix p.linux).length
  else if p.linux then name else userPrefix ++ name

def sendItem (x : XAttr) : Bytes :=
  writeVarint ((p.sentName x.name).length + 1) ++ writeVarint x.datumLen ++
    (p.sentName x.name ++ [0]) ++ x.sentDatum

/-- `send_xattr`, with the index it returns. -/
def sendXattr (t : Hashed ℕ (List XAttr)) (l : List XAttr) :
    (ℕ × Bytes) × Hashed ℕ (List XAttr) :=
  match t.find (xattrLookupHash p.hashlittle) xalContent l with
  | some ndx => ((ndx, writeVarint (ndx + 1)), t)
  | none => ((t.items.length, writeVarint 0 ++ (writeVarint l.length ++ l.flatMap p.sendItem)),
      t.store (xattrLookupHash p.hashlittle) l)

/-- The lists of the files one after the other. -/
def sendXattrs : Hashed ℕ (List XAttr) → List (List XAttr) →
    (List ℕ × Bytes) × Hashed ℕ (List XAttr)
  | t, [] => (([], []), t)
  | t, l :: ls =>
    let r := p.sendXattr t l
    let rs := sendXattrs r.2 ls
    ((r.1.1 :: rs.1.1, r.1.2 ++ rs.1.2), rs.2)

end XattrSide

/-! ## The receiver -/

/-- A receiver; `excluded` is its xattr filter, where there is one. -/
structure XattrReceiver extends XattrSide where
  preserveXattrs : ℕ
  excluded : Option (Bytes → Bool)

/-- The lists that were stored, and the memory of `temp_xattr`; `none` was never written. -/
structure XalState where
  lists : Hashed ℕ (List XAttr)
  slots : List (Option XAttr)

/-- `EXPAND_ITEM_LIST` -/
def expandSlots (slots : List (Option XAttr)) (count : ℕ) (incr : ℤ) : List (Option XAttr) :=
  if slots.length ≤ count then
    slots ++ List.replicate (if incr < 0 then incr.natAbs
      else if slots.length < incr.toNat then incr.toNat - slots.length
      else if slots.length ≠ 0 then slots.length else 1) none
  else slots

/-- The loop of `receive_xattr`: `temp_xattr` and `need_sort`. -/
structure XalLoop where
  slots : List (Option XAttr)
  count : ℕ
  needSort : Bool

def XalLoop.put (s : XalLoop) (x : XAttr) : XalLoop :=
  { s with slots := (expandSlots s.slots s.count 1).set s.count (some x), count := s.count + 1 }

/-- An item as it comes; a negative length exits. -/
def readXattr (num : ℕ) : In XAttr := do
  let nameLen ← readVarint
  let datumLen ← readVarint
  if nameLen < 0 ∨ datumLen < 0 then abort
  else do
    let name ← getN nameLen.toNat
    if name.getLast? ≠ some 0 then abort
    else if datumLen ≤ maxFullDatum then do
      let datum ← getN datumLen.toNat
      pure ⟨name.dropLast, datumLen.toNat, datum, num⟩
    else do
      let sum ← getN maxDigestLen
      pure ⟨name.dropLast, datumLen.toNat, xstateAbbrev :: sum, num⟩

namespace XattrReceiver

variable (r : XattrReceiver)

/-- `MIGHT_NEED_RPRE`: whether there is room for the prefix. -/
def mightNeedRpre : Bool := if r.linux then r.amRoot < 0 else r.amRoot ≠ 0

/-- The name on this side, and whether the prefix was put in front; `none` is dropped. -/
def ownName (name : Bytes) : Option (Bytes × Bool) :=
  if r.excluded.any (· name) then none
  else if r.linux then
    -- only root can save anything but the user's namespace
    if r.amRoot ≤ 0 && !hasPrefix name userPrefix then
      if r.amRoot = 0 && r.excluded.isNone then none else some (rsyncPrefix r.linux ++ name, true)
    else some (name, false)
  else if hasPrefix name userPrefix then some (name.drop userPrefix.length, false)
  else if r.amRoot ≠ 0 then some (rsyncPrefix r.linux ++ name, true)
  else none

/-- An rsync.%FOO attribute, which takes two -X options. -/
def isInternal (name : Bytes) : Bool :=
  r.preserveXattrs < 2 && (rsyncPrefix r.linux).length < name.length + 1 &&
    name.getD (rsyncPrefix r.linux).length 0 = percentByte && hasPrefix name (rsyncPrefix r.linux)

def isRenamed (name : Bytes) : Bool := (r.ownName name).any (·.2)

/-- The value once the prefix was copied in front of the name behind it; `none` is memory in front
    of the value. -/
def datumBehind (renamed : Bool) (datum : Bytes) : Option Bytes :=
  if renamed && !r.mightNeedRpre then
    if datum.length < (rsyncPrefix r.linux).length then none
    else some (datum.take (datum.length - (rsyncPrefix r.linux).length) ++ rsyncPrefix r.linux)
  else some datum

/-- One item is dropped or kept. -/
def takeItem (s : XalLoop) (x : XAttr) : Option XalLoop :=
  match r.ownName x.name with
  | none => some s
  | some (name, renamed) => do
    let datum ← r.datumBehind renamed x.datum
    let s := { s with needSort := s.needSort || renamed }
    if r.isInternal name then some s else some (s.put { x with name := name, datum := datum })

/-- `count` items from the one with the number `num` on. -/
def receiveItems : ℕ → ℕ → XalLoop → In XalLoop
  | 0, _, s => pure s
  | count + 1, num, s => do
    let x ← readXattr num
    match r.takeItem s x with
    | none => abort
    | some s => receiveItems count (num + 1) s

/-- The end of `receive_xattr`: `qsort` over `count` items; `none` is memory that was never
    written. -/
def sortSlots (count : ℕ) (s : XalLoop) : Option (List (Option XAttr)) :=
  if s.needSort && 1 < count then
    if s.slots.length < count then none
    else do
      let items ← (s.slots.take count).mapM id
      some ((r.qsort.sort items).map some ++ s.slots.drop count)
  else some s.slots

/-- `receive_xattr`, with the index it sets; it fails as well where it meets memory that is not
    its own. -/
def receiveXattr (t : XalState) : In (ℕ × XalState) := do
  let ndx ← readVarint
  if ndx < 0 ∨ t.lists.items.length < ndx then abort
  else if ndx ≠ 0 then pure ((ndx - 1).toNat, t)
  else do
    let count ← readVarint
    let slots := if count ≠ 0 then expandSlots t.slots 0 count else t.slots
    let s ← r.receiveItems count.toNat 1 ⟨slots, 0, !r.linux⟩
    match r.sortSlots count.toNat s with
    | none => abort
    | some slots =>
      match (slots.take s.count).mapM id with
      | none => abort
      | some l => pure (t.lists.items.length,
          ⟨t.lists.store (xattrLookupHash r.hashlittle) l, slots⟩)

/-- What is to be stored of an item. -/
def keepItem (x : XAttr) : Option XAttr :=
  (r.ownName x.name).bind fun n => if r.isInternal n.1 then none else some { x with name := n.1 }

end XattrReceiver

/-! ## What arrives -/

/-- Two sides, and the digest of the values. -/
structure XattrPeers where
  sender : XattrSide
  receiver : XattrReceiver
  digest : Bytes → Bytes
  digest_length : ∀ v, (digest v).length = maxDigestLen

namespace XattrPeers

variable (p : XattrPeers)

/-- What the receiver is to store of a list: what was not dropped, under its names. -/
def arriving (l : List XAttr) : List XAttr :=
  l.filterMap fun x => p.receiver.keepItem { x with name := p.sender.sentName x.name }

/-- Whether the receiver sorts a list. -/
def sorts (l : List XAttr) : Bool :=
  1 < l.length && (!p.receiver.linux || l.any fun x => p.receiver.isRenamed (p.sender.sentName x.name))

/-- When a new list is stored as it should be: its lengths are ints, no name gets a prefix there is
    no room for, and what is sorted besides what was kept comes behind it. -/
structure Takes (t : XalState) (l : List XAttr) : Prop where
  count : l.length < 2 ^ 31
  lengths : ∀ x ∈ l, (p.sender.sentName x.name).length + 1 < 2 ^ 31 ∧ x.datumLen < 2 ^ 31
  room : ∀ x ∈ l, p.receiver.isRenamed (p.sender.sentName x.name) = true →
    p.receiver.mightNeedRpre = true
  behind : p.sorts l = true → ∀ i, (p.arriving l).length ≤ i → i < l.length →
    ∃ y, t.slots[i]? = some (some y) ∧ ∀ x ∈ p.arriving l, x.name < y.name
  ordered : p.sorts l = false → (p.arriving l).Pairwise fun x y => x.name ≤ y.name

end XattrPeers

/-- A value in full, or the digest of a long one. -/
structure XAttr.Ok (x : XAttr) : Prop where
  short : x.datumLen ≤ maxFullDatum → x.datum.length = x.datumLen
  long : maxFullDatum < x.datumLen →
    ∃ sum, x.datum = xstateAbbrev :: sum ∧ sum.length = maxDigestLen

/-- A list as `xalGet` makes it. -/
structure IsXal (l : List XAttr) : Prop where
  nums : l.map XAttr.num = List.range' 1 l.length
  ok : ∀ x ∈ l, x.Ok

/-! ### One item -/

theorem isInt32_of_lt {n : ℕ} (h : n < 2 ^ 31) : IsInt32 (n : ℤ) := by
  constructor
  · omega
  · omega

theorem reads_xattr {p : XattrSide} {x : XAttr} (hx : x.Ok)
    (hname : (p.sentName x.name).length + 1 < 2 ^ 31) (hlen : x.datumLen < 2 ^ 31) :
    Reads (readXattr x.num) (p.sendItem x) { x with name := p.sentName x.name } := by
  set name := p.sentName x.name with hn
  have hnameLen := reads_varint (isInt32_of_lt hname)
  push_cast at hnameLen
  rw [XattrSide.sendItem, ← hn, List.append_assoc, List.append_assoc]
  refine hnameLen.bind ((reads_varint (isInt32_of_lt hlen)).bind ?_)
  have hbytes : Reads (getN ((name.length : ℤ) + 1).toNat) (name ++ [0]) (name ++ [0]) := by
    refine reads_getN_of_length ?_
    rw [List.length_append, List.length_singleton]
    omega
  rw [if_neg (by omega)]
  refine hbytes.bind ?_
  rw [if_neg (by simp)]
  by_cases hlong : maxFullDatum < x.datumLen
  · obtain ⟨sum, hdatum, hsum⟩ := hx.long hlong
    have hsent : x.sentDatum = sum := by
      rw [XAttr.sentDatum, XAttr.isLong, if_pos (by simpa using hlong), hdatum, List.drop_one,
        List.tail_cons, ← hsum, List.take_length]
    rw [if_neg (by omega), hsent]
    refine Reads.bind_nil (reads_getN_of_length hsum) ?_
    rw [List.dropLast_concat, Int.toNat_natCast, ← hdatum]
    exact Reads.pure _
  · have hdatum := hx.short (by omega)
    have hsent : x.sentDatum = x.datum := by
      rw [XAttr.sentDatum, XAttr.isLong, if_neg (by simpa using hlong), ← hdatum, List.take_length]
    rw [if_pos (by omega), hsent]
    refine Reads.bind_nil (reads_getN_of_length (by rw [hdatum, Int.toNat_natCast])) ?_
    rw [List.dropLast_concat, Int.toNat_natCast]
    exact Reads.pure _

/-! ### Sorting -/

/-- A sorted list that is to be cut behind its smaller part. -/
theorem filter_eq_take {l : List XAttr} {q : XAttr → Bool}
    (hl : l.Pairwise fun x y => q y = true → q x = true) :
    l.filter q = l.take (l.filter q).length := by
  induction l with
  | nil => rfl
  | cons x l ih =>
    obtain ⟨hx, hl⟩ := List.pairwise_cons.1 hl
    cases hq : q x with
    | true =>
      rw [List.filter_cons_of_pos hq, List.length_cons, List.take_succ_cons, ← ih hl]
    | false =>
      have hnone : l.filter q = [] := by
        rw [List.filter_eq_nil_iff]
        intro y hy hqy
        rw [hx y hy hqy] at hq
        cases hq
      rw [List.filter_cons_of_neg (by simp [hq]), hnone]
      rfl

/-- **What sorts behind a list** stays behind it. -/
theorem take_sort {kept stale l : List XAttr} (hl : l.Perm (kept ++ stale))
    (hsorted : l.Pairwise fun x y => x.name ≤ y.name)
    (hbehind : ∀ y ∈ stale, ∀ x ∈ kept, x.name < y.name) : (l.take kept.length).Perm kept := by
  -- the items that are smaller than all of the stale ones
  let q : XAttr → Bool := fun x => stale.all fun y => x.name < y.name
  have hkept : (kept ++ stale).filter q = kept := by
    have h₁ : kept.filter q = kept := by
      rw [List.filter_eq_self]
      intro x hx
      simp only [q, List.all_eq_true, decide_eq_true_eq]
      exact fun y hy => hbehind y hy x hx
    have h₂ : stale.filter q = [] := by
      rw [List.filter_eq_nil_iff]
      intro y hy hq
      simp only [q, List.all_eq_true, decide_eq_true_eq] at hq
      exact List.lt_irrefl _ (hq y hy)
    rw [List.filter_append, h₁, h₂, List.append_nil]
  have hperm : (l.filter q).Perm kept := by
    have := hl.filter q
    rwa [hkept] at this
  have hcut : l.filter q = l.take (l.filter q).length := by
    refine filter_eq_take (hsorted.imp ?_)
    intro x y hxy hy
    simp only [q, List.all_eq_true, decide_eq_true_eq] at hy ⊢
    exact fun z hz => show x.name < z.name from @lt_of_le_of_lt Bytes _ _ _ _ hxy (hy z hz)
  rw [← hperm.length_eq, ← hcut]
  exact hperm

/-! ### The loop -/

theorem expandSlots_grows (slots : List (Option XAttr)) (count : ℕ) (incr : ℤ) :
    slots <+: expandSlots slots count incr := by
  rw [expandSlots]
  by_cases h : slots.length ≤ count
  · rw [if_pos h]
    exact List.prefix_append ..
  · rw [if_neg h]

theorem lt_expandSlots {slots : List (Option XAttr)} {count : ℕ} (h : count ≤ slots.length) :
    count < (expandSlots slots count 1).length := by
  rw [expandSlots]
  split_ifs with hle hneg hlt hne
  · omega
  · simp only [List.length_append, List.length_replicate, Int.toNat_one]
    omega
  · simp only [List.length_append, List.length_replicate]
    omega
  · simp only [List.length_append, List.length_replicate]
    omega
  · omega

/-- The items that were kept so far, and the memory behind them. -/
structure XalLoop.Holds (before : List (Option XAttr)) (kept : List XAttr) (s : XalLoop) : Prop where
  count : s.count = kept.length
  le : kept.length ≤ s.slots.length
  front : s.slots.take kept.length = kept.map some
  rest : ∀ i o, kept.length ≤ i → before[i]? = some o → s.slots[i]? = some o

namespace XalLoop.Holds

variable {before : List (Option XAttr)} {kept : List XAttr} {s : XalLoop}

theorem start {slots : List (Option XAttr)} (h : before <+: slots) (needSort : Bool) :
    XalLoop.Holds before [] ⟨slots, 0, needSort⟩ where
  count := rfl
  le := Nat.zero_le _
  front := rfl
  rest := fun _ _ _ ho => getElem?_of_grown h ho

theorem put (h : s.Holds before kept) (x : XAttr) : (s.put x).Holds before (kept ++ [x]) := by
  obtain ⟨more, hmore⟩ := expandSlots_grows s.slots s.count 1
  have hlt : kept.length < (expandSlots s.slots s.count 1).length :=
    h.count ▸ lt_expandSlots (h.count ▸ h.le)
  have htake : (expandSlots s.slots s.count 1).take kept.length = kept.map some := by
    rw [← hmore, List.take_append_of_le_length h.le, h.front]
  refine ⟨?_, ?_, ?_, ?_⟩
  · rw [XalLoop.put, List.length_append, h.count]
    rfl
  · rw [XalLoop.put, List.length_set, List.length_append]
    exact hlt
  · rw [XalLoop.put, List.length_append, List.length_singleton, h.count] at *
    rw [List.take_add_one, List.take_set_of_le le_rfl, htake, List.getElem?_set_self hlt,
      List.map_append]
    rfl
  · intro i o hi ho
    rw [List.length_append, List.length_singleton] at hi
    rw [XalLoop.put, h.count, List.getElem?_set_ne (by omega), ← h.count, ← hmore]
    exact getElem?_of_grown (List.prefix_append ..) (h.rest i o (by omega) ho)

theorem withSort (h : s.Holds before kept) (needSort : Bool) :
    ({ s with needSort := needSort } : XalLoop).Holds before kept :=
  ⟨h.count, h.le, h.front, h.rest⟩

end XalLoop.Holds

theorem takeItem_spec {r : XattrReceiver} {before : List (Option XAttr)} {kept : List XAttr}
    {s : XalLoop} (h : s.Holds before kept) {x : XAttr}
    (hroom : r.isRenamed x.name = true → r.mightNeedRpre = true) :
    ∃ s', r.takeItem s x = some s' ∧ s'.Holds before (kept ++ (r.keepItem x).toList) ∧
      s'.needSort = (s.needSort || r.isRenamed x.name) := by
  rw [XattrReceiver.takeItem, XattrReceiver.keepItem]
  rw [XattrReceiver.isRenamed] at hroom ⊢
  cases hown : r.ownName x.name with
  | none =>
    refine ⟨s, rfl, ?_, ?_⟩
    · simpa using h
    · simp
  | some n =>
    obtain ⟨name, renamed⟩ := n
    rw [hown, Option.any_some] at hroom
    have hdatum : r.datumBehind renamed x.datum = some x.datum := by
      rw [XattrReceiver.datumBehind, if_neg]
      intro hno
      rw [Bool.and_eq_true, Bool.not_eq_true'] at hno
      rw [hroom hno.1] at hno
      cases hno.2
    simp only [hdatum, Option.bind_eq_bind, Option.bind_some, Option.any_some]
    have hsort := h.withSort (s.needSort || renamed)
    cases hint : r.isInternal name with
    | true => exact ⟨_, rfl, by simpa using hsort, rfl⟩
    | false => exact ⟨_, rfl, hsort.put _, rfl⟩

theorem reads_receiveItems (p : XattrPeers) {before : List (Option XAttr)} {l : List XAttr}
    {num : ℕ} (hnums : l.map XAttr.num = List.range' num l.length) (hok : ∀ x ∈ l, x.Ok)
    (hlengths : ∀ x ∈ l, (p.sender.sentName x.name).length + 1 < 2 ^ 31 ∧ x.datumLen < 2 ^ 31)
    (hroom : ∀ x ∈ l, p.receiver.isRenamed (p.sender.sentName x.name) = true →
      p.receiver.mightNeedRpre = true) {kept : List XAttr} {s : XalLoop} (h : s.Holds before kept) :
    ∃ s', Reads (p.receiver.receiveItems l.length num s) (l.flatMap p.sender.sendItem) s' ∧
      s'.Holds before (kept ++ p.arriving l) ∧ s'.needSort =
        (s.needSort || l.any fun x => p.receiver.isRenamed (p.sender.sentName x.name)) := by
  induction l generalizing num kept s with
  | nil =>
    refine ⟨s, Reads.pure s, ?_, by simp⟩
    rw [XattrPeers.arriving, List.filterMap_nil, List.append_nil]
    exact h
  | cons x l ih =>
    rw [List.map_cons, List.length_cons, List.range'_succ, List.cons.injEq] at hnums
    obtain ⟨rfl, hnums⟩ := hnums
    rw [List.forall_mem_cons] at hok hlengths hroom
    have hitem := reads_xattr hok.1 hlengths.1.1 hlengths.1.2
    obtain ⟨s₁, htake, hs₁, hsort₁⟩ := takeItem_spec h (x := { x with name := p.sender.sentName x.name })
      hroom.1
    obtain ⟨s₂, hreads, hs₂, hsort₂⟩ := ih hnums hok.2 hlengths.2 hroom.2 hs₁
    refine ⟨s₂, ?_, ?_, ?_⟩
    · rw [List.flatMap_cons]
      refine hitem.bind ?_
      rw [htake]
      exact hreads
    · rw [XattrPeers.arriving, List.filterMap_cons] at *
      cases hkeep : p.receiver.keepItem { x with name := p.sender.sentName x.name } with
      | none => simpa [hkeep] using hs₂
      | some y => simpa [hkeep] using hs₂
    · rw [hsort₂, hsort₁, List.any_cons, Bool.or_assoc]

/-! ### A new list -/

theorem mapM_id_map_some (l : List XAttr) : (l.map some).mapM id = some l := by
  induction l with
  | nil => rfl
  | cons x l ih =>
    rw [List.map_cons, List.mapM_cons, ih]
    rfl

/-- Memory that was written, cell by cell. -/
theorem written {q : XAttr → Prop} (slots : List (Option XAttr)) (n : ℕ)
    (h : ∀ i < n, ∃ y, slots[i]? = some (some y) ∧ q y) :
    ∃ items : List XAttr, slots.take n = items.map some ∧ items.length = n ∧ ∀ y ∈ items, q y := by
  induction n generalizing slots with
  | zero => exact ⟨[], rfl, rfl, nofun⟩
  | succ n ih =>
    obtain ⟨y, hy, hq⟩ := h 0 (by omega)
    cases slots with
    | nil => cases hy
    | cons o slots =>
      obtain rfl : o = some y := Option.some.inj hy
      obtain ⟨items, htake, hlen, hall⟩ := ih slots fun i hi => h (i + 1) (by omega)
      refine ⟨y :: items, ?_, by rw [List.length_cons, hlen], ?_⟩
      · rw [List.take_succ_cons, htake, List.map_cons]
      · rintro z hz
        rcases List.mem_cons.1 hz with rfl | hz
        · exact hq
        · exact hall z hz

/-- What a stored list is of a list that was sent. -/
structure XattrPeers.StoredFrom (p : XattrPeers) (l stored : List XAttr) : Prop where
  sorted : stored.Pairwise fun x y => x.name ≤ y.name
  exactly : stored.Perm (p.arriving l)

theorem arriving_length_le (p : XattrPeers) (l : List XAttr) : (p.arriving l).length ≤ l.length :=
  List.length_filterMap_le ..

/-- The end of a list that the receiver takes. -/
theorem sortSlots_spec {p : XattrPeers} {t : XalState} {l : List XAttr} (h : p.Takes t l)
    {s : XalLoop} (hs : s.Holds t.slots (p.arriving l))
    (hsort : s.needSort = (!p.receiver.linux || l.any fun x =>
      p.receiver.isRenamed (p.sender.sentName x.name))) :
    ∃ slots stored, p.receiver.sortSlots l.length s = some slots ∧
      (slots.take s.count).mapM id = some stored ∧ p.StoredFrom l stored := by
  set kept := p.arriving l with hkept
  have hlen : kept.length ≤ l.length := arriving_length_le p l
  have hwhen : (s.needSort && decide (1 < l.length)) = p.sorts l := by
    rw [hsort, XattrPeers.sorts, Bool.and_comm]
  rw [XattrReceiver.sortSlots, hwhen, hs.count]
  cases hsorts : p.sorts l with
  | false =>
    refine ⟨_, kept, rfl, ?_, h.ordered hsorts, List.Perm.refl _⟩
    rw [hs.front, mapM_id_map_some]
  | true =>
    -- the slots behind the items that were kept
    obtain ⟨stale, htake, hstale, hbehind⟩ := written (q := fun y => ∀ x ∈ kept, x.name < y.name)
      (s.slots.drop kept.length) (l.length - kept.length) fun i hi => by
        obtain ⟨y, hy, hlt⟩ := h.behind hsorts (kept.length + i) (Nat.le_add_right ..) (by omega)
        refine ⟨y, ?_, hlt⟩
        rw [List.getElem?_drop]
        exact hs.rest _ _ (by omega) hy
    have hfront : s.slots.take l.length = (kept ++ stale).map some := by
      rw [List.map_append, ← hs.front, ← htake, ← List.take_add]
      congr 1
      omega
    have hlong : l.length ≤ s.slots.length := by
      have := congrArg List.length hfront
      rw [List.length_take, List.length_map, List.length_append, hstale] at this
      omega
    have hperm := p.receiver.qsort.perm (kept ++ stale)
    have hsorted := p.receiver.qsort.sorted (kept ++ stale)
    have hle : kept.length ≤ (p.receiver.qsort.sort (kept ++ stale)).length := by
      rw [hperm.length_eq, List.length_append]
      omega
    rw [if_pos rfl, if_neg (by omega), hfront, mapM_id_map_some]
    refine ⟨_, (p.receiver.qsort.sort (kept ++ stale)).take kept.length, rfl, ?_, ?_, ?_⟩
    · rw [List.take_append_of_le_length (by rwa [List.length_map]), ← List.map_take,
        mapM_id_map_some]
    · exact hsorted.sublist (List.take_sublist ..)
    · exact take_sort hperm hsorted hbehind

/-- **A new list** is stored at the end. -/
theorem reads_newList {p : XattrPeers} {t : XalState} {l : List XAttr} (hl : IsXal l)
    (h : p.Takes t l) :
    ∃ t' stored, Reads (p.receiver.receiveXattr t)
        (writeVarint 0 ++ (writeVarint l.length ++ l.flatMap p.sender.sendItem))
        (t.lists.items.length, t') ∧
      t'.lists.items = t.lists.items ++ [stored] ∧ p.StoredFrom l stored := by
  set slots := if (l.length : ℤ) ≠ 0 then expandSlots t.slots 0 l.length else t.slots with hslots
  have hgrows : t.slots <+: slots := by
    rw [hslots]
    split_ifs
    · exact expandSlots_grows ..
    · exact List.prefix_rfl
  obtain ⟨s, hreads, hs, hsort⟩ := reads_receiveItems p hl.nums hl.ok h.lengths h.room
    (XalLoop.Holds.start hgrows (!p.receiver.linux))
  rw [List.nil_append] at hs
  obtain ⟨slots', stored, hsorted, hstored, hfrom⟩ := sortSlots_spec h hs hsort
  refine ⟨⟨t.lists.store (xattrLookupHash p.receiver.hashlittle) stored, slots'⟩, stored, ?_, rfl,
    hfrom⟩
  rw [XattrReceiver.receiveXattr]
  refine (reads_varint (x := 0) ⟨by omega, by omega⟩).bind ?_
  rw [if_neg (by omega), if_neg (by simp)]
  refine (reads_varint (isInt32_of_lt h.count)).bind ?_
  rw [Int.toNat_natCast]
  refine hreads.bind_nil ?_
  rw [hsorted]
  simp only [hstored]
  exact Reads.pure _

/-- **An index** leads to the list at it. -/
theorem reads_index {r : XattrReceiver} {t : XalState} {ndx : ℕ} (h : ndx < t.lists.items.length)
    (hint : ndx + 1 < 2 ^ 31) : Reads (r.receiveXattr t) (writeVarint (ndx + 1)) (ndx, t) := by
  have hread := reads_varint (isInt32_of_lt hint)
  push_cast at hread
  rw [XattrReceiver.receiveXattr]
  refine hread.bind_nil ?_
  rw [if_neg (by omega), if_pos (by omega), Int.add_sub_cancel, Int.toNat_natCast]
  exact Reads.pure _

/-! ## Sequences of lists -/

/-- An item from what is compared of it and its number. -/
def xattrOf (c : Bytes × ℕ × Bytes) (num : ℕ) : XAttr :=
  ⟨c.1, c.2.1, if maxFullDatum < c.2.1 then xstateAbbrev :: c.2.2 else c.2.2, num⟩

theorem XAttr.Ok.xattrOf_eq {x : XAttr} (h : x.Ok) : xattrOf x.content x.num = x := by
  obtain ⟨name, datumLen, datum, num⟩ := x
  rw [XAttr.content, xattrOf, XAttr.sentDatum, XAttr.isLong]
  by_cases hlong : maxFullDatum < datumLen
  · obtain ⟨sum, hdatum, hsum⟩ := h.long hlong
    simp only at hdatum
    simp only [hlong, if_true, decide_true, hdatum, List.drop_one, List.tail_cons, ← hsum,
      List.take_length]
  · have hdatum : datum.length = datumLen := h.short (Nat.le_of_not_lt hlong)
    have htake : datum.take datumLen = datum := by rw [← hdatum, List.take_length]
    simp only [hlong, if_false, decide_false, Bool.false_eq_true, htake]

/-- **Lists with the same content** are the same. -/
theorem IsXal.eq_of_content {l l' : List XAttr} (h : IsXal l) (h' : IsXal l')
    (heq : xalContent l = xalContent l') : l = l' := by
  have hlen : l.length = l'.length := by
    simpa [xalContent] using congrArg List.length heq
  have hnums : l.map XAttr.num = l'.map XAttr.num := by rw [h.nums, h'.nums, hlen]
  have hself : ∀ {k : List XAttr}, IsXal k →
      List.zipWith xattrOf (xalContent k) (k.map XAttr.num) = k := by
    intro k hk
    rw [xalContent, List.zipWith_map, List.zipWith_self]
    exact (List.map_congr_left fun x hx => (hk.ok x hx).xattrOf_eq).trans (List.map_id _)
  rw [← hself h, ← hself h', heq, hnums]

theorem isXal_xalGet (qsort : NameSort) {digest : Bytes → Bytes}
    (hdigest : ∀ v, (digest v).length = maxDigestLen) (attrs : List (Bytes × Bytes)) :
    IsXal (xalGet qsort digest attrs) := by
  refine ⟨?_, ?_⟩
  · rw [xalGet]
    refine List.ext_getElem (by simp) fun i h₁ h₂ => ?_
    simp [Nat.add_comm]
  · intro x hx
    obtain ⟨i, hi, rfl⟩ := List.getElem_of_mem hx
    simp only [xalGet, List.getElem_mapIdx]
    rw [xalGet, List.length_mapIdx] at hi
    have hin := (qsort.perm (attrs.map fun a => ⟨a.1, a.2.length, keepDatum digest a.2, 0⟩)).mem_iff.1
      (List.getElem_mem hi)
    obtain ⟨a, -, ha⟩ := List.mem_map.1 hin
    constructor
    · intro hshort
      rw [← ha] at hshort ⊢
      rw [keepDatum, if_neg (by simpa using hshort)]
    · intro hlong
      rw [← ha] at hlong ⊢
      exact ⟨digest a.2, by rw [keepDatum, if_pos hlong], hdigest _⟩

namespace XattrPeers

variable (p : XattrPeers)

/-- Every list that is sent for the first time is taken, in the state the receiver is in. -/
def Meets (p : XattrPeers) : Hashed ℕ (List XAttr) → XalState → List (List XAttr) → Prop
  | _, _, [] => True
  | sent, t, l :: ls =>
    (sent.find (xattrLookupHash p.sender.hashlittle) xalContent l = none → p.Takes t l) ∧
      ∀ ndx t', p.receiver.receiveXattr t (p.sender.sendXattr sent l).1.2 = some ((ndx, t'), []) →
        Meets p (p.sender.sendXattr sent l).2 t' ls

/-- The two sides between two files. -/
structure InStep (sent : Hashed ℕ (List XAttr)) (t : XalState) : Prop where
  indexed : sent.Indexed (xattrLookupHash p.sender.hashlittle)
  lists : ∀ l ∈ sent.items, IsXal l
  stored : List.Forall₂ p.StoredFrom sent.items t.lists.items

variable {p}

/-- **One file**: its list is the one that was stored before, or joins the others on both sides. -/
theorem InStep.step {sent : Hashed ℕ (List XAttr)} {t : XalState} (h : p.InStep sent t)
    {l : List XAttr} (hl : IsXal l) (hlen : sent.items.length + 1 < 2 ^ 31)
    (htakes : sent.find (xattrLookupHash p.sender.hashlittle) xalContent l = none → p.Takes t l) :
    ∃ t', Reads (p.receiver.receiveXattr t) (p.sender.sendXattr sent l).1.2
        ((p.sender.sendXattr sent l).1.1, t') ∧
      Interns xalContent sent.items l (p.sender.sendXattr sent l).2.items
        (p.sender.sendXattr sent l).1.1 ∧
      p.InStep (p.sender.sendXattr sent l).2 t' := by
  rcases Hashed.interns (a := l) h.indexed
      fun b hb heq => by rw [(h.lists b hb).eq_of_content hl heq]
    with ⟨i, hfind, hinterns⟩ | ⟨hfind, hinterns⟩
  · rw [XattrSide.sendXattr, hfind]
    obtain ⟨b, hb, -⟩ := hinterns.denotes
    have hi : i < t.lists.items.length :=
      h.stored.length_eq ▸ (List.getElem?_eq_some_iff.1 hb).1
    exact ⟨t, reads_index hi (by have := h.stored.length_eq; omega), hinterns, h⟩
  · rw [XattrSide.sendXattr, hfind]
    obtain ⟨t', stored, hreads, hlists, hfrom⟩ := reads_newList hl (htakes hfind)
    rw [← h.stored.length_eq] at hreads
    refine ⟨t', hreads, hinterns, h.indexed.store, ?_, ?_⟩
    · intro k hk
      rcases List.mem_append.1 hk with hk | hk
      · exact h.lists k hk
      · rw [List.mem_singleton.1 hk]
        exact hl
    · rw [hlists]
      exact List.rel_append h.stored (.cons hfrom .nil)

/-- **A whole file list**. -/
theorem InStep.steps {sent : Hashed ℕ (List XAttr)} {t : XalState} (h : p.InStep sent t)
    {ls : List (List XAttr)} (hls : ∀ l ∈ ls, IsXal l) (hlen : sent.items.length + ls.length < 2 ^ 31)
    (hmeets : p.Meets sent t ls) :
    ∃ t', Reads (readAll (fun _ => p.receiver.receiveXattr) t (ls.map fun _ => ()))
        (p.sender.sendXattrs sent ls).1.2 ((p.sender.sendXattrs sent ls).1.1, t') ∧
      InternsAll xalContent sent.items ls (p.sender.sendXattrs sent ls).2.items
        (p.sender.sendXattrs sent ls).1.1 ∧
      p.InStep (p.sender.sendXattrs sent ls).2 t' := by
  induction ls generalizing sent t with
  | nil => exact ⟨t, Reads.pure _, .nil _, h⟩
  | cons l ls ih =>
    rw [List.forall_mem_cons] at hls
    rw [List.length_cons] at hlen
    obtain ⟨htakes, hrest⟩ := hmeets
    obtain ⟨t₁, hread, hinterns, h₁⟩ := h.step hls.1 (by omega) htakes
    have hone := hinterns.length_le
    have hnext := hread []
    rw [List.append_nil] at hnext
    obtain ⟨t₂, hreads, hall, h₂⟩ := ih h₁ hls.2 (by omega) (hrest _ t₁ hnext)
    exact ⟨t₂, hread.bind (hreads.bind_nil (Reads.pure _)), .cons hinterns hall, h₂⟩

end XattrPeers

/-! ## The attributes of a file list -/

namespace XattrPeers

variable (p : XattrPeers)

/-- The lists of the files, from their names and values. -/
def xals (files : List (List (Bytes × Bytes))) : List (List XAttr) :=
  files.map (xalGet p.sender.qsort p.digest)

/-- What the sender sends for them, with the indexes it keeps. -/
def sentXattrs (files : List (List (Bytes × Bytes))) : List ℕ × Bytes :=
  (p.sender.sendXattrs .empty (p.xals files)).1

/-- **The lists of all files arrive**: the bytes are read with the indexes of the sender, every
    index leads to a sorted list of just what was not dropped, and two files share an index exactly
    when their lists are the same. -/
def XattrsArrive (files : List (List (Bytes × Bytes))) : Prop :=
  ∃ t, Reads (readAll (fun _ => p.receiver.receiveXattr) ⟨.empty, []⟩ (files.map fun _ => ()))
      (p.sentXattrs files).2 ((p.sentXattrs files).1, t) ∧
    List.Forall₂ (fun l i => ∃ stored, t.lists.items[i]? = some stored ∧ p.StoredFrom l stored)
      (p.xals files) (p.sentXattrs files).1 ∧
    ∀ (m n : ℕ) (l l' : List XAttr) (i j : ℕ), (p.xals files)[m]? = some l → (p.xals files)[n]? = some l' →
      (p.sentXattrs files).1[m]? = some i → (p.sentXattrs files).1[n]? = some j → (i = j ↔ l = l')

variable {p}

theorem Takes.meets {sent : Hashed ℕ (List XAttr)} {t : XalState} {ls : List (List XAttr)}
    (h : ∀ l ∈ ls, ∀ t, p.Takes t l) : p.Meets sent t ls := by
  induction ls generalizing sent t with
  | nil => trivial
  | cons l ls ih =>
    rw [List.forall_mem_cons] at h
    exact ⟨fun _ => h.1 t, fun _ _ _ => ih h.2⟩

/-- What is stored of a list of the sender is stored of any list with the same content. -/
theorem InStep.stored_at {sent : Hashed ℕ (List XAttr)} {t : XalState} (h : p.InStep sent t)
    {l b : List XAttr} {i : ℕ} (hl : IsXal l) (hb : sent.items[i]? = some b)
    (heq : xalContent b = xalContent l) :
    ∃ stored, t.lists.items[i]? = some stored ∧ p.StoredFrom l stored := by
  obtain ⟨hlen, hall⟩ := List.forall₂_iff_get.1 h.stored
  obtain ⟨hi, rfl⟩ := List.getElem?_eq_some_iff.1 hb
  have hsame := (h.lists _ (List.getElem_mem hi)).eq_of_content hl heq
  have hfrom := hall i hi (hlen ▸ hi)
  rw [List.get_eq_getElem, hsame] at hfrom
  exact ⟨_, List.getElem?_eq_getElem (hlen ▸ hi), hfrom⟩

end XattrPeers

/-! ### Two roots -/

theorem xalGet_sorted (qsort : NameSort) (digest : Bytes → Bytes) (attrs : List (Bytes × Bytes)) :
    (xalGet qsort digest attrs).Pairwise fun x y => x.name ≤ y.name := by
  have hsorted := qsort.sorted (attrs.map fun a => ⟨a.1, a.2.length, keepDatum digest a.2, 0⟩)
  rw [xalGet, List.pairwise_iff_getElem]
  intro i j hi hj hij
  rw [List.getElem_mapIdx, List.getElem_mapIdx]
  exact List.pairwise_iff_getElem.1 hsorted i j _ _ hij

theorem datumLen_of_mem {qsort : NameSort} {digest : Bytes → Bytes} {attrs : List (Bytes × Bytes)}
    {x : XAttr} (hx : x ∈ xalGet qsort digest attrs) :
    ∃ a ∈ attrs, x.name = a.1 ∧ x.datumLen = a.2.length := by
  obtain ⟨i, hi, rfl⟩ := List.getElem_of_mem hx
  simp only [xalGet, List.getElem_mapIdx]
  rw [xalGet, List.length_mapIdx] at hi
  have hin := (qsort.perm (attrs.map fun a => ⟨a.1, a.2.length, keepDatum digest a.2, 0⟩)).mem_iff.1
    (List.getElem_mem hi)
  obtain ⟨a, ha, heq⟩ := List.mem_map.1 hin
  exact ⟨a, ha, by rw [← heq], by rw [← heq]⟩

/-- **Between Linux machines**, from a sender without --fake-super to root, every list is taken,
    whatever the receiver's filter. -/
theorem XattrPeers.takes_of_roots {p : XattrPeers} (hs : p.sender.linux = true ∧ 0 ≤ p.sender.amRoot)
    (hr : p.receiver.linux = true ∧ 0 < p.receiver.amRoot) {attrs : List (Bytes × Bytes)}
    (hcount : attrs.length < 2 ^ 31)
    (hlengths : ∀ a ∈ attrs, a.1.length + 1 < 2 ^ 31 ∧ a.2.length < 2 ^ 31) (t : XalState) :
    p.Takes t (xalGet p.sender.qsort p.digest attrs) := by
  have hname : ∀ name, p.sender.sentName name = name := by
    intro name
    rw [XattrSide.sentName, if_neg, if_pos hs.1]
    simp [hs.1, not_lt.2 hs.2]
  have hkeep : ∀ name, p.receiver.ownName name = none ∨ p.receiver.ownName name = some (name, false) := by
    intro name
    have hroot : ¬ (decide (p.receiver.amRoot ≤ 0) && !hasPrefix name userPrefix) = true := by
      rw [decide_eq_false (not_le.2 hr.2)]
      exact Bool.false_ne_true
    rw [XattrReceiver.ownName, if_pos hr.1, if_neg hroot]
    split_ifs with hno
    · exact .inl rfl
    · exact .inr rfl
  have hrenamed : ∀ name, p.receiver.isRenamed name = false := by
    intro name
    rw [XattrReceiver.isRenamed]
    rcases hkeep name with hown | hown <;> rw [hown] <;> rfl
  have hsorts : p.sorts (xalGet p.sender.qsort p.digest attrs) = false := by
    rw [XattrPeers.sorts, hr.1, Bool.not_true, Bool.false_or, Bool.and_eq_false_iff]
    exact .inr (List.any_eq_false.2 fun x _ => by rw [hrenamed]; exact Bool.false_ne_true)
  refine ⟨?_, ?_, ?_, ?_, ?_⟩
  · rw [xalGet, List.length_mapIdx, (p.sender.qsort.perm _).length_eq, List.length_map]
    exact hcount
  · intro x hx
    obtain ⟨a, ha, hxname, hxlen⟩ := datumLen_of_mem hx
    rw [hname, hxname, hxlen]
    exact hlengths a ha
  · intro x _ hren
    rw [hrenamed] at hren
    cases hren
  · intro hyes
    rw [hsorts] at hyes
    cases hyes
  · intro _
    rw [XattrPeers.arriving]
    refine (xalGet_sorted p.sender.qsort p.digest attrs).filterMap _ ?_
    have hsame : ∀ x y : XAttr, p.receiver.keepItem { x with name := p.sender.sentName x.name } = some y →
        y.name = x.name := by
      intro x y hy
      rw [hname, XattrReceiver.keepItem] at hy
      rcases hkeep x.name with hown | hown
      · rw [hown] at hy
        cases hy
      · rw [hown, Option.bind_some] at hy
        split_ifs at hy
        rw [← Option.some.inj hy]
    intro x y hxy u hu v hv
    rw [hsame x u hu, hsame y v hv]
    exact hxy

/-- **The lists of a file list arrive** where every new one meets its condition. -/
theorem xattrs_arrive (p : XattrPeers) (files : List (List (Bytes × Bytes)))
    (hlen : files.length < 2 ^ 31) (h : p.Meets .empty ⟨.empty, []⟩ (p.xals files)) :
    p.XattrsArrive files := by
  have hls : ∀ l ∈ p.xals files, IsXal l := by
    intro l hl
    obtain ⟨attrs, -, rfl⟩ := List.mem_map.1 hl
    exact isXal_xalGet p.sender.qsort p.digest_length attrs
  have hstart : p.InStep .empty ⟨.empty, []⟩ := ⟨Hashed.indexed_empty, nofun, .nil⟩
  obtain ⟨t, hreads, hinterns, hend⟩ := hstart.steps hls
    (by rw [XattrPeers.xals, List.length_map]; exact Nat.lt_of_le_of_lt (Nat.zero_add _).le hlen) h
  refine ⟨t, ?_, ?_, ?_⟩
  · rw [XattrPeers.xals, List.map_map] at hreads
    exact hreads
  · refine List.Forall₂.imp ?_ ((List.forall₂_and_left _ _).2 ⟨hls, hinterns.denotes⟩)
    rintro l i ⟨hl, b, hb, heq⟩
    exact hend.stored_at hl hb heq
  · intro m n l l' i j hl hl' hi hj
    rw [hinterns.index_eq_iff List.Pairwise.nil hl hl' hi hj]
    constructor
    · exact (hls l (List.mem_of_getElem? hl)).eq_of_content (hls l' (List.mem_of_getElem? hl'))
    · exact congrArg xalContent

/-! ### Two file lists -/

def sortNames : NameSort where
  sort := List.insertionSort fun x y => x.name ≤ y.name
  perm := List.perm_insertionSort _
  sorted := List.pairwise_insertionSort _

/-- Two Linux machines; the receiver has an xattr filter where `excluded` is one. -/
def linuxPeers (amRoot : ℤ) (excluded : Option (Bytes → Bool)) : XattrPeers where
  sender := ⟨true, 1, List.length, sortNames⟩
  receiver := ⟨⟨true, amRoot, List.length, sortNames⟩, 1, excluded⟩
  digest := fun _ => List.replicate maxDigestLen 0
  digest_length := fun _ => List.length_replicate

/-- "user.a" is "1" and "user.b" is "2"; twice. -/
def sharedAttrs : List (List (Bytes × Bytes)) :=
  [[(userPrefix ++ [98], [50]), (userPrefix ++ [97], [49])],
    [(userPrefix ++ [97], [49]), (userPrefix ++ [98], [50])]]

theorem xattrs_arrive_shared : (linuxPeers 1 none).XattrsArrive sharedAttrs := by
  refine xattrs_arrive (linuxPeers 1 none) sharedAttrs (by decide) (XattrPeers.Takes.meets ?_)
  intro l hl t
  obtain ⟨attrs, hattrs, rfl⟩ := List.mem_map.1 hl
  have hsmall : ∀ attrs ∈ sharedAttrs, attrs.length < 2 ^ 31 ∧
      ∀ a ∈ attrs, a.1.length + 1 < 2 ^ 31 ∧ a.2.length < 2 ^ 31 := by decide
  obtain ⟨hcount, hlengths⟩ := hsmall attrs hattrs
  exact XattrPeers.takes_of_roots ⟨rfl, by decide⟩ ⟨rfl, by decide⟩ hcount hlengths t

/-- "user.a" is "1" and "user.b" is "2"; then "security.s" is "3" and "user.z" is "4". -/
def staleAttrs : List (List (Bytes × Bytes)) :=
  [[(userPrefix ++ [97], [49]), (userPrefix ++ [98], [50])],
    [([115, 101, 99, 117, 114, 105, 116, 121, 46, 115], [51]), (userPrefix ++ [122], [52])]]

/-- With --fake-super and a filter for "user.z". -/
def filtering : XattrPeers := linuxPeers (-1) (some fun name => name = userPrefix ++ [122])

/-- **The second file gets "user.b"** of the first one in place of its own attribute. -/
theorem not_xattrs_arrive : ¬ ∀ (p : XattrPeers) (files : List (List (Bytes × Bytes))),
    files.length < 2 ^ 31 → (∀ attrs ∈ files, attrs.length < 2 ^ 31 ∧
      ∀ a ∈ attrs, a.1.length + 17 < 2 ^ 31 ∧ a.2.length < 2 ^ 31) → p.XattrsArrive files := by
  intro h
  obtain ⟨t, hreads, hlists, -⟩ := h filtering staleAttrs (by decide) (by decide)
  have hrun : (readAll (fun _ => filtering.receiver.receiveXattr) ⟨.empty, []⟩
      (staleAttrs.map fun _ => ()) ((filtering.sentXattrs staleAttrs).2 ++ [])).map
        (fun r => r.1.2.lists.items[1]?) = some (some [⟨userPrefix ++ [98], 1, [50], 2⟩]) := by
    decide +kernel
  have hsent : (filtering.sentXattrs staleAttrs).1 = [0, 1] := by decide
  have harriving : (filtering.xals staleAttrs).map filtering.arriving =
      [[⟨userPrefix ++ [97], 1, [49], 1⟩, ⟨userPrefix ++ [98], 1, [50], 2⟩],
        [⟨rsyncPrefix true ++ [115, 101, 99, 117, 114, 105, 116, 121, 46, 115], 1, [51], 1⟩]] := by
    decide
  rw [hreads [], Option.map_some, Option.some.injEq] at hrun
  rw [hsent] at hlists
  obtain ⟨l₁, ls, hxals⟩ : ∃ l₁ l₂, filtering.xals staleAttrs = [l₁, l₂] := ⟨_, _, rfl⟩
  rw [hxals] at hlists harriving
  obtain ⟨stored, hstored, hfrom⟩ := (List.forall₂_cons.1 (List.forall₂_cons.1 hlists).2).1
  simp only [hrun, Option.some.injEq] at hstored
  have hperm := hfrom.exactly
  rw [(List.cons.inj (List.cons.inj harriving).2).1, ← hstored, List.perm_singleton] at hperm
  exact absurd hperm (by decide)

end CloudEdgeBackup
