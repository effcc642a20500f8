/-
  Attributes that are cached for a backup copy (`cache_tmp_xattr` in `xattrs.c`, `cache_tmp_acl` in
  `acls.c`) and taken out again.

  * `XalStore` is the list of the received attribute lists with its hash index; `uncacheTmpXattrs`
    takes what was cached out of both;
  * `AclList` is a list of ACLs with the memory behind its end, and the position at which the last
    search ended; it has the items of the receiver (`acl_duo`), and the search reads it as one of
    smaller items (`rsync_acl`), so that most positions do not lead to an item, or to another one;
  * `XalCache.Over.uncache`, `AclList.Over.uncache`: the lists and the index are what they were;
  * `tmpCaches_right_iff`: over every run, exactly which calls give an index of an equal list.

  An attribute list that was not there before is stored, but its index is not the one that is given.
-/
import CloudEdgeBackup.Xattrs
import CloudEdgeBackup.Acls

namespace CloudEdgeBackup

/-! ## The received attribute lists -/

/-- `rsync_xa_list` -/
structure XaList where
  xaItems : List XAttr
  ndx : ℕ
  key : ℕ
deriving DecidableEq

/-- `rsync_xal_l` and the references of `rsync_xal_h`. -/
structure XalStore where
  lists : List XaList
  refs : ℕ → List ℕ

namespace XalStore

variable (st : XalStore) (hashlittle : Bytes → ℕ)

def empty : XalStore := ⟨[], fun _ => []⟩

/-- A list joins the end, and its reference the end of the chain of `key`. -/
def append (key : ℕ) (xal : List XAttr) : XalStore :=
  ⟨st.lists ++ [⟨xal, st.lists.length, key⟩],
    Function.update st.refs key (st.refs key ++ [st.lists.length])⟩

/-- Lists that join one after the other, each under its key. -/
def appendAll (st : XalStore) (more : List (ℕ × List XAttr)) : XalStore :=
  more.foldl (fun st r => st.append r.1 r.2) st

/-- `rsync_xal_store`, with the index it returns. -/
def rsyncXalStore (xal : List XAttr) : ℕ × XalStore :=
  (st.lists.length, st.append (xattrLookupHash hashlittle xal) xal)

/-- Whether the list that a reference leads to has the same attributes. -/
def sameXattrs (xal : List XAttr) (ndx : ℕ) : Bool :=
  (st.lists[ndx]?).any fun l => xalContent l.xaItems = xalContent xal

/-- `find_matching_xattr` -/
def findMatchingXattr (xal : List XAttr) : ℤ :=
  match (st.refs (xattrLookupHash hashlittle xal)).find? (st.sameXattrs xal) with
  | some ndx => ndx
  | none => -1

/-- What a chain is without the reference to `ndx`. -/
def unlinkRef (ndx : ℕ) : List ℕ → List ℕ
  | [] => []
  | ref :: next => if ref = ndx then next else ref :: unlinkRef ndx next

/-- One round of the loop of `uncache_tmp_xattrs`, for a list behind the end. -/
def dropRef (l : XaList) (refs : ℕ → List ℕ) : ℕ → List ℕ :=
  Function.update refs l.key (unlinkRef l.ndx (refs l.key))

/-- The lists from `prior` on are taken out, the last one first. -/
def truncate (prior : ℕ) : XalStore :=
  ⟨st.lists.take prior, (st.lists.drop prior).foldr dropRef st.refs⟩

end XalStore

/-- The store and `prior_xattr_count`. -/
structure XalCache where
  store : XalStore
  prior : Option ℕ

namespace XalCache

variable (hashlittle : Bytes → ℕ)

/-- `cache_tmp_xattr`, with what `F_XATTR` is set to. -/
def cacheTmpXattr (xattr : Option (List XAttr)) (c : XalCache) : Option ℤ × XalCache :=
  match xattr with
  | none => (none, c)
  | some xal =>
    let prior := some (c.prior.getD c.store.lists.length)
    let ndx := c.store.findMatchingXattr hashlittle xal
    if ndx < 0 then (some ndx, ⟨(c.store.rsyncXalStore hashlittle xal).2, prior⟩)
    else (some ndx, ⟨c.store, prior⟩)

/-- `uncache_tmp_xattrs` -/
def uncacheTmpXattrs (c : XalCache) : XalCache :=
  match c.prior with
  | some prior => ⟨c.store.truncate prior, none⟩
  | none => c

end XalCache

/-! ## The received ACLs -/

/-- `sizeof (rsync_acl)` and `sizeof (acl_duo)`, with 64-bit pointers. -/
abbrev raclSize : ℕ := 24
abbrev duoSize : ℕ := 32

/-- One of the two lists: its memory, its length, `prior_access_count` and `access_match`, or those
    of the default ACLs. -/
structure AclList where
  items : ℕ → RsyncAcl
  count : ℕ
  prior : Option ℕ
  lastMatch : Option ℕ

namespace AclList

variable (other : ℕ → Bool)

/-- `rsync_acl_equal (base + m, racl)`.  Where `base + m` is not at the beginning of an item, `other`
    says what comes out. -/
def equalAt (c : AclList) (racl : RsyncAcl) (m : ℕ) : Bool :=
  if raclSize * m % duoSize = 0 then c.items (raclSize * m / duoSize) = racl else other m

/-- The loop of `find_matching_rsync_acl` from the position `m` on. -/
def searchAcl (equal : ℕ → Bool) (last : ℕ) : ℕ → ℕ → Option ℕ
  | 0, _ => none
  | n + 1, m => if equal m then some m else searchAcl equal last n (if m = 0 then last else m - 1)

/-- `find_matching_rsync_acl` -/
def findMatchingRsyncAcl (racl : RsyncAcl) (c : AclList) : Option ℕ × AclList :=
  let r := searchAcl (c.equalAt other racl) (c.count - 1) c.count (c.lastMatch.getD (c.count - 1))
  (r, { c with lastMatch := r })

/-- `cache_rsync_acl` -/
def cacheRsyncAcl (racl : Option RsyncAcl) (c : AclList) : ℤ × AclList :=
  match racl with
  | none => (-1, c)
  | some racl =>
    match c.findMatchingRsyncAcl other racl with
    | (some ndx, c) => (ndx, c)
    | (none, c) => (c.count, { c with items := Function.update c.items c.count racl, count := c.count + 1 })

/-- The part of `cache_tmp_acl` for one of the lists. -/
def cacheTmp (racl : Option RsyncAcl) (c : AclList) : ℤ × AclList :=
  cacheRsyncAcl other racl { c with prior := some (c.prior.getD c.count) }

/-- `uncache_duo_acls` -/
def uncacheDuoAcls (start : ℕ) (c : AclList) : AclList :=
  { c with
    items := fun i => if start ≤ i ∧ i < c.count then emptyRsyncAcl else c.items i
    count := start }

/-- The part of `uncache_tmp_acls` for one of the lists. -/
def uncacheTmp (c : AclList) : AclList :=
  match c.prior with
  | some prior => { c.uncacheDuoAcls prior with prior := none }
  | none => c

end AclList

/-! ## Calls -/

/-- The attribute lists, the access ACLs and the default ACLs of a receiver. -/
structure TmpCaches where
  xal : XalCache
  access : AclList
  default : AclList

/-- What other code does with them; where ACLs are searched, `other` is as in `equalAt`. -/
inductive TmpCall
  | cacheTmpXattr (xattr : Option (List XAttr))
  | findMatchingXattr (xal : List XAttr)
  | uncacheTmpXattrs
  | cacheTmpAcl (accAcl defAcl : Option RsyncAcl) (isDir : Bool) (other other' : ℕ → Bool)
  | findMatchingRsyncAcl (type : AclType) (racl : RsyncAcl) (other : ℕ → Bool)
  | uncacheTmpAcls

namespace TmpCaches

variable (hashlittle : Bytes → ℕ)

def call (st : TmpCaches) : TmpCall → TmpCaches
  | .cacheTmpXattr xattr => { st with xal := (st.xal.cacheTmpXattr hashlittle xattr).2 }
  | .findMatchingXattr _ => st
  | .uncacheTmpXattrs => { st with xal := st.xal.uncacheTmpXattrs }
  | .cacheTmpAcl accAcl defAcl isDir other other' => { st with
      access := (st.access.cacheTmp other accAcl).2
      default := if isDir then (st.default.cacheTmp other' defAcl).2 else st.default }
  | .findMatchingRsyncAcl .access racl other =>
    { st with access := (st.access.findMatchingRsyncAcl other racl).2 }
  | .findMatchingRsyncAcl .default racl other =>
    { st with default := (st.default.findMatchingRsyncAcl other racl).2 }
  | .uncacheTmpAcls => { st with access := st.access.uncacheTmp, default := st.default.uncacheTmp }

/-- `P` holds of every call of a run, in the state that it meets. -/
def Along (P : TmpCaches → TmpCall → Prop) : TmpCaches → List TmpCall → Prop
  | _, [] => True
  | st, c :: cs => P st c ∧ Along P (st.call hashlittle c) cs

end TmpCaches

/-! ## What is right -/

/-- `F_XATTR` is the index of an equal list. -/
def XalCache.Cached (hashlittle : Bytes → ℕ) (c : XalCache) (xal : List XAttr) : Prop :=
  ∃ (ndx : ℕ) (l : XaList), (c.cacheTmpXattr hashlittle (some xal)).1 = some (ndx : ℤ) ∧
    (c.cacheTmpXattr hashlittle (some xal)).2.store.lists[ndx]? = some l ∧
    xalContent l.xaItems = xalContent xal

namespace AclList

variable (other : ℕ → Bool) (c : AclList) (racl : RsyncAcl)

/-- The index is one of the list, and of an equal ACL. -/
def Cached : Prop :=
  ∃ ndx : ℕ, (c.cacheTmp other (some racl)).1 = ndx ∧ ndx < (c.cacheTmp other (some racl)).2.count ∧
    (c.cacheTmp other (some racl)).2.items ndx = racl

/-- What is found is in the list and equal, and nothing is found where none is equal. -/
def Found : Prop :=
  match (c.findMatchingRsyncAcl other racl).1 with
  | some ndx => ndx < c.count ∧ c.items ndx = racl
  | none => ∀ k < c.count, c.items k ≠ racl

/-- The list is what `base` is. -/
def Agrees (base : AclList) : Prop := c.count = base.count ∧ ∀ k < c.count, c.items k = base.items k

/-- The positions at which a search looks, one after the other. -/
def place (last m : ℕ) : ℕ → ℕ
  | 0 => m
  | i + 1 => if place last m i = 0 then last else place last m i - 1

/-- The positions of a search in the list. -/
def places (i : ℕ) : ℕ := place (c.count - 1) (c.lastMatch.getD (c.count - 1)) i

/-- The first position that reads as an equal ACL, if there is one, is that of an equal ACL. -/
def Honest : Prop :=
  ∀ i < c.count, c.equalAt other racl (c.places i) = true →
    (∀ j < i, c.equalAt other racl (c.places j) = false) →
    c.places i < c.count ∧ c.items (c.places i) = racl

/-- Some position reads as an equal ACL where there is one. -/
def Seen : Prop :=
  ∀ k < c.count, c.items k = racl → ∃ i < c.count, c.equalAt other racl (c.places i) = true

end AclList

namespace TmpCaches

/-- What the caches promise of a call, where `base` is what there was before the first one. -/
def Right (hashlittle : Bytes → ℕ) (base st : TmpCaches) : TmpCall → Prop
  | .cacheTmpXattr xattr => ∀ xal ∈ xattr, st.xal.Cached hashlittle xal
  | .findMatchingXattr xal => st.xal.prior = none →
      st.xal.store.findMatchingXattr hashlittle xal = base.xal.store.findMatchingXattr hashlittle xal
  | .uncacheTmpXattrs => st.xal.uncacheTmpXattrs.store = base.xal.store
  | .cacheTmpAcl accAcl defAcl isDir other other' =>
    (∀ racl ∈ accAcl, st.access.Cached other racl) ∧
      (isDir = true → ∀ racl ∈ defAcl, st.default.Cached other' racl)
  | .findMatchingRsyncAcl .access racl other => st.access.Found other racl
  | .findMatchingRsyncAcl .default racl other => st.default.Found other racl
  | .uncacheTmpAcls => st.access.uncacheTmp.Agrees base.access ∧ st.default.uncacheTmp.Agrees base.default

/-- When they keep it: an attribute list has an equal one in the chain of its key, and the search for
    an ACL is not led to another one by what it reads. -/
def Meets (hashlittle : Bytes → ℕ) (st : TmpCaches) : TmpCall → Prop
  | .cacheTmpXattr xattr => ∀ xal ∈ xattr,
      ∃ ndx ∈ st.xal.store.refs (xattrLookupHash hashlittle xal), st.xal.store.sameXattrs xal ndx = true
  | .cacheTmpAcl accAcl defAcl isDir other other' =>
    (∀ racl ∈ accAcl, st.access.Honest other racl) ∧
      (isDir = true → ∀ racl ∈ defAcl, st.default.Honest other' racl)
  | .findMatchingRsyncAcl .access racl other =>
    st.access.Honest other racl ∧ st.access.Seen other racl
  | .findMatchingRsyncAcl .default racl other =>
    st.default.Honest other racl ∧ st.default.Seen other racl
  | _ => True

end TmpCaches

/-! ## Attribute lists -/

namespace XalStore

variable {st : XalStore} {xal : List XAttr} {hashlittle : Bytes → ℕ} {key prior : ℕ}

/-- The references lead to lists that are there. -/
def Bounded (st : XalStore) : Prop := ∀ k, ∀ ndx ∈ st.refs k, ndx < st.lists.length

@[simp] theorem append_lists :
    (st.append key xal).lists = st.lists ++ [⟨xal, st.lists.length, key⟩] := rfl

@[simp] theorem append_refs :
    (st.append key xal).refs = Function.update st.refs key (st.refs key ++ [st.lists.length]) := rfl

theorem unlinkRef_append {ndx : ℕ} {refs : List ℕ} (h : ndx ∉ refs) :
    unlinkRef ndx (refs ++ [ndx]) = refs := by
  induction refs with
  | nil => simp [unlinkRef]
  | cons ref refs ih =>
    rw [List.mem_cons, not_or] at h
    rw [List.cons_append, unlinkRef, if_neg (Ne.symm h.1), ih h.2]

theorem bounded_empty : Bounded empty := fun k ndx h => by cases h

theorem Bounded.append (h : Bounded st) : Bounded (st.append key xal) := by
  intro k ndx hndx
  rw [append_lists, List.length_append, List.length_singleton]
  rw [append_refs] at hndx
  by_cases hk : k = key
  · rw [hk, Function.update_self, List.mem_append, List.mem_singleton] at hndx
    rcases hndx with hndx | rfl
    · exact Nat.lt_succ_of_lt (h key ndx hndx)
    · exact Nat.lt_succ_self _
  · rw [Function.update_of_ne hk] at hndx
    exact Nat.lt_succ_of_lt (h k ndx hndx)

/-- Taking out the last list and its reference. -/
theorem truncate_append (h : Bounded st) (hprior : prior ≤ st.lists.length) :
    (st.append key xal).truncate prior = st.truncate prior := by
  have hnot : st.lists.length ∉ st.refs key := fun hin => Nat.lt_irrefl _ (h key _ hin)
  have hdrop : dropRef ⟨xal, st.lists.length, key⟩ (st.append key xal).refs = st.refs := by
    rw [dropRef, append_refs, Function.update_self, Function.update_idem, unlinkRef_append hnot,
      Function.update_eq_self]
  rw [truncate, truncate, append_lists, List.take_append_of_le_length hprior,
    List.drop_append_of_le_length hprior, List.foldr_append]
  exact congrArg _ (congrArg (fun refs => (st.lists.drop prior).foldr dropRef refs) hdrop)

theorem appendAll_snoc (more : List (ℕ × List XAttr)) (r : ℕ × List XAttr) :
    st.appendAll (more ++ [r]) = (st.appendAll more).append r.1 r.2 := by
  rw [appendAll, List.foldl_append]
  rfl

theorem appendAll_spec (h : Bounded st) (more : List (ℕ × List XAttr)) :
    Bounded (st.appendAll more) ∧ st.lists.length ≤ (st.appendAll more).lists.length ∧
      (st.appendAll more).truncate st.lists.length = st := by
  induction more using List.reverseRecOn with
  | nil =>
    refine ⟨h, le_rfl, ?_⟩
    show st.truncate st.lists.length = st
    rw [truncate, List.take_length, List.drop_length]
    rfl
  | append_singleton more r ih =>
    obtain ⟨hbounded, hle, htruncate⟩ := ih
    rw [appendAll_snoc]
    refine ⟨hbounded.append, hle.trans ?_, ?_⟩
    · rw [append_lists, List.length_append]
      exact Nat.le_add_right _ _
    · rw [truncate_append hbounded hle, htruncate]

/-- What is found, in the chain of the key. -/
theorem findMatchingXattr_spec :
    (∃ (ndx : ℕ) (l : XaList), st.findMatchingXattr hashlittle xal = ndx ∧ st.lists[ndx]? = some l ∧
      xalContent l.xaItems = xalContent xal ∧ ndx ∈ st.refs (xattrLookupHash hashlittle xal) ∧
      st.sameXattrs xal ndx = true) ∨
    st.findMatchingXattr hashlittle xal = -1 ∧
      ∀ ndx ∈ st.refs (xattrLookupHash hashlittle xal), ¬st.sameXattrs xal ndx = true := by
  rw [findMatchingXattr]
  cases hfind : (st.refs (xattrLookupHash hashlittle xal)).find? (st.sameXattrs xal) with
  | some ndx =>
    have hsame := List.find?_some hfind
    obtain ⟨l, hl, heq⟩ := (Option.any_eq_true _ _).1 hsame
    exact .inl ⟨ndx, l, rfl, hl, of_decide_eq_true heq, List.mem_of_find?_eq_some hfind, hsame⟩
  | none => exact .inr ⟨rfl, List.find?_eq_none.1 hfind⟩

end XalStore

namespace XalCache

variable {c : XalCache} {xal : List XAttr} {hashlittle : Bytes → ℕ} {base : XalStore}

/-- **Which attribute lists are cached well.** -/
theorem cached_iff : c.Cached hashlittle xal ↔
    ∃ ndx ∈ c.store.refs (xattrLookupHash hashlittle xal), c.store.sameXattrs xal ndx = true := by
  rcases @XalStore.findMatchingXattr_spec c.store xal hashlittle with
    ⟨ndx, l, hfind, hl, heq, hmem, hsame⟩ | ⟨hfind, hnone⟩
  · refine iff_of_true ?_ ⟨ndx, hmem, hsame⟩
    rw [Cached, cacheTmpXattr, hfind, if_neg (not_lt.2 (Int.natCast_nonneg _))]
    exact ⟨ndx, l, rfl, hl, heq⟩
  · refine iff_of_false ?_ fun ⟨ndx, hmem, hsame⟩ => hnone ndx hmem hsame
    rw [Cached, cacheTmpXattr, hfind, if_pos (by decide)]
    rintro ⟨ndx, l, hndx, -⟩
    have hneg : (-1 : ℤ) = ndx := Option.some.inj hndx
    omega

/-- Between two calls nothing is cached, or what was cached is behind what there was. -/
def Over (base : XalStore) (c : XalCache) : Prop :=
  c.prior = none ∧ c.store = base ∨
    c.prior = some base.lists.length ∧ ∃ more, c.store = base.appendAll more

theorem Over.cache (h : Over base c) (xattr : Option (List XAttr)) :
    Over base (c.cacheTmpXattr hashlittle xattr).2 := by
  cases xattr with
  | none => exact h
  | some xal =>
    have hprior : c.prior.getD c.store.lists.length = base.lists.length := by
      rcases h with ⟨hprior, hstore⟩ | ⟨hprior, -⟩
      · rw [hprior, hstore]
        rfl
      · rw [hprior]
        rfl
    have hmore : ∃ more, c.store = base.appendAll more := by
      rcases h with ⟨-, hstore⟩ | ⟨-, hmore⟩
      · exact ⟨[], hstore⟩
      · exact hmore
    obtain ⟨more, hmore⟩ := hmore
    rw [cacheTmpXattr]
    split_ifs
    · refine .inr ⟨congrArg some hprior, more ++ [(xattrLookupHash hashlittle xal, xal)], ?_⟩
      rw [XalStore.appendAll_snoc, ← hmore]
      rfl
    · exact .inr ⟨congrArg some hprior, more, hmore⟩

/-- **The lists and the index are what they were.** -/
theorem Over.uncache (h : Over base c) (hbase : base.Bounded) :
    c.uncacheTmpXattrs.store = base ∧ Over base c.uncacheTmpXattrs := by
  have hstore : c.uncacheTmpXattrs.store = base ∧ c.uncacheTmpXattrs.prior = none := by
    rcases h with ⟨hprior, hstore⟩ | ⟨hprior, more, hmore⟩
    · rw [uncacheTmpXattrs, hprior]
      exact ⟨hstore, hprior⟩
    · rw [uncacheTmpXattrs, hprior]
      refine ⟨?_, rfl⟩
      rw [hmore]
      exact (XalStore.appendAll_spec hbase more).2.2
  exact ⟨hstore.1, .inl ⟨hstore.2, hstore.1⟩⟩

end XalCache

/-! ## ACLs -/

namespace AclList

variable {c base : AclList} {racl : RsyncAcl} {other : ℕ → Bool}

theorem place_succ (last m i : ℕ) :
    place last m (i + 1) = place last (if m = 0 then last else m - 1) i := by
  induction i with
  | zero => rfl
  | succ i ih =>
    rw [place, ih]
    rfl

/-- What a search finds first. -/
theorem searchAcl_spec (equal : ℕ → Bool) (last n m : ℕ) :
    (∃ i < n, searchAcl equal last n m = some (place last m i) ∧ equal (place last m i) = true ∧
      ∀ j < i, equal (place last m j) = false) ∨
    searchAcl equal last n m = none ∧ ∀ i < n, equal (place last m i) = false := by
  induction n generalizing m with
  | zero => exact .inr ⟨rfl, fun i hi => absurd hi (Nat.not_lt_zero i)⟩
  | succ n ih =>
    rw [searchAcl]
    cases hm : equal m with
    | true => exact .inl ⟨0, Nat.succ_pos n, rfl, hm, fun j hj => absurd hj (Nat.not_lt_zero j)⟩
    | false =>
      rw [if_neg Bool.false_ne_true]
      have hbefore : ∀ {i : ℕ}, (∀ j < i, equal (place last (if m = 0 then last else m - 1) j) = false) →
          ∀ j < i + 1, equal (place last m j) = false := by
        intro i hall j hj
        cases j with
        | zero => exact hm
        | succ j =>
          rw [place_succ]
          exact hall j (Nat.lt_of_succ_lt_succ hj)
      rcases ih (if m = 0 then last else m - 1) with ⟨i, hi, hfound, hequal, hall⟩ | ⟨hnone, hall⟩
      · refine .inl ⟨i + 1, Nat.succ_lt_succ hi, ?_, ?_, hbefore hall⟩
        · rw [place_succ, hfound]
        · rw [place_succ, hequal]
      · exact .inr ⟨hnone, hbefore hall⟩

/-- What a search in the list finds first. -/
theorem findMatchingRsyncAcl_spec :
    (∃ i < c.count, (c.findMatchingRsyncAcl other racl).1 = some (c.places i) ∧
      c.equalAt other racl (c.places i) = true ∧ ∀ j < i, c.equalAt other racl (c.places j) = false) ∨
    (c.findMatchingRsyncAcl other racl).1 = none ∧
      ∀ i < c.count, c.equalAt other racl (c.places i) = false :=
  searchAcl_spec _ _ _ _

/-- Where the search is led to is all that matters. -/
theorem honest_iff {i : ℕ} (hi : i < c.count) (hequal : c.equalAt other racl (c.places i) = true)
    (hall : ∀ j < i, c.equalAt other racl (c.places j) = false) :
    c.Honest other racl ↔ c.places i < c.count ∧ c.items (c.places i) = racl := by
  refine ⟨fun h => h i hi hequal hall, fun h k hk hk' hall' => ?_⟩
  have hki : k = i := by
    rcases Nat.lt_trichotomy k i with hlt | heq | hgt
    · rw [hall k hlt] at hk'
      cases hk'
    · exact heq
    · rw [hall' i hgt] at hequal
      cases hequal
  rw [hki]
  exact h

theorem honest_of_none (h : ∀ i < c.count, c.equalAt other racl (c.places i) = false) :
    c.Honest other racl := by
  intro i hi hequal
  rw [h i hi] at hequal
  cases hequal

theorem cacheRsyncAcl_iff :
    (∃ ndx : ℕ, (c.cacheRsyncAcl other (some racl)).1 = ndx ∧
      ndx < (c.cacheRsyncAcl other (some racl)).2.count ∧
      (c.cacheRsyncAcl other (some racl)).2.items ndx = racl) ↔ c.Honest other racl := by
  rcases @findMatchingRsyncAcl_spec c racl other with ⟨i, hi, hfind, hequal, hall⟩ | ⟨hfind, hnone⟩
  · have hcache : c.cacheRsyncAcl other (some racl) =
        ((c.places i : ℤ), (c.findMatchingRsyncAcl other racl).2) := by
      have hpair : c.findMatchingRsyncAcl other racl =
          (some (c.places i), (c.findMatchingRsyncAcl other racl).2) := Prod.ext hfind rfl
      rw [cacheRsyncAcl, hpair]
    rw [honest_iff hi hequal hall, hcache]
    refine ⟨?_, fun h => ⟨c.places i, rfl, h⟩⟩
    rintro ⟨ndx, hndx, h⟩
    rw [← Nat.cast_inj.1 hndx] at h
    exact h
  · have hcache : c.cacheRsyncAcl other (some racl) =
        ((c.count : ℤ), ⟨Function.update c.items c.count racl, c.count + 1, c.prior, none⟩) := by
      have hpair : c.findMatchingRsyncAcl other racl = (none, { c with lastMatch := none }) := by
        refine Prod.ext hfind ?_
        rw [← hfind]
        rfl
      rw [cacheRsyncAcl, hpair]
    refine iff_of_true ⟨c.count, ?_⟩ (honest_of_none hnone)
    rw [hcache]
    exact ⟨rfl, Nat.lt_succ_self _, Function.update_self ..⟩

/-- **Which ACLs are cached well.** -/
theorem cached_iff : c.Cached other racl ↔ c.Honest other racl :=
  @cacheRsyncAcl_iff { c with prior := some (c.prior.getD c.count) } racl other

/-- **When a search answers well.** -/
theorem found_iff : c.Found other racl ↔ c.Honest other racl ∧ c.Seen other racl := by
  rw [Found]
  rcases @findMatchingRsyncAcl_spec c racl other with ⟨i, hi, hfind, hequal, hall⟩ | ⟨hfind, hnone⟩
  · rw [honest_iff hi hequal hall, hfind]
    exact ⟨fun h => ⟨h, fun k hk hk' => ⟨i, hi, hequal⟩⟩, And.left⟩
  · rw [hfind]
    refine ⟨fun h => ⟨honest_of_none hnone, fun k hk hk' => absurd hk' (h k hk)⟩, ?_⟩
    rintro ⟨-, hseen⟩ k hk hk'
    obtain ⟨i, hi, hequal⟩ := hseen k hk hk'
    rw [hnone i hi] at hequal
    cases hequal

/-- Between two calls nothing is cached, or what was cached is behind what there was. -/
structure Over (base c : AclList) : Prop where
  closed : c.prior = none → c.count = base.count
  opened : ∀ prior, c.prior = some prior → prior = base.count
  le : base.count ≤ c.count
  items : ∀ k < base.count, c.items k = base.items k

theorem Over.find (h : Over base c) : Over base (c.findMatchingRsyncAcl other racl).2 :=
  ⟨h.closed, h.opened, h.le, h.items⟩

theorem Over.cache (h : Over base c) (acl : Option RsyncAcl) : Over base (c.cacheTmp other acl).2 := by
  have hprior : some (c.prior.getD c.count) = some base.count := by
    cases hc : c.prior with
    | none => exact congrArg some (h.closed hc)
    | some prior => exact congrArg some (h.opened prior hc)
  rw [cacheTmp, hprior]
  have hopen : Over base { c with prior := some base.count } :=
    ⟨fun hnone => absurd hnone (Option.some_ne_none _), fun prior hp => (Option.some.inj hp).symm, h.le, h.items⟩
  cases acl with
  | none => exact hopen
  | some racl =>
    rw [cacheRsyncAcl]
    split
    · next heq =>
      have hfound := @Over.find _ _ racl other hopen
      rw [heq] at hfound
      exact hfound
    · next c' heq =>
      have hc' : c'.prior = some base.count := congrArg (fun r => r.2.prior) heq.symm
      have hfound : Over base c' := by
        have hfound := @Over.find _ _ racl other hopen
        rw [heq] at hfound
        exact hfound
      refine ⟨fun hnone => ?_, hfound.opened, Nat.le_succ_of_le hfound.le, fun k hk => ?_⟩
      · exact absurd (hc'.symm.trans hnone) (Option.some_ne_none _)
      · show Function.update c'.items c'.count racl k = base.items k
        rw [Function.update_of_ne (hk.trans_le hfound.le).ne]
        exact hfound.items k hk

/-- **The list is what it was.** -/
theorem Over.uncache (h : Over base c) : c.uncacheTmp.Agrees base ∧ Over base c.uncacheTmp := by
  rw [uncacheTmp]
  cases hc : c.prior with
  | none =>
    have hcount := h.closed hc
    exact ⟨⟨hcount, fun k hk => h.items k (hcount ▸ hk)⟩, h⟩
  | some prior =>
    have hprior := h.opened prior hc
    have hitems : ∀ k < base.count, (c.uncacheDuoAcls prior).items k = base.items k := by
      intro k hk
      rw [uncacheDuoAcls, hprior]
      dsimp only
      rw [if_neg fun hle => Nat.lt_irrefl _ (hk.trans_le hle.1)]
      exact h.items k hk
    exact ⟨⟨hprior, fun k hk => hitems k (hk.trans_eq hprior)⟩, fun _ => hprior,
      fun p hp => absurd hp.symm (Option.some_ne_none p), hprior.ge, hitems⟩

end AclList

/-! ## Runs -/

namespace TmpCaches

variable {hashlittle : Bytes → ℕ} {base st : TmpCaches}

/-- A receiver that got some attribute lists, each under the key that it had then, and some ACLs. -/
def received (xals : List (ℕ × List XAttr)) (access default : AclList) : TmpCaches where
  xal := ⟨XalStore.empty.appendAll xals, none⟩
  access := { access with prior := none }
  default := { default with prior := none }

/-- What is cached is behind what there was. -/
structure Over (base st : TmpCaches) : Prop where
  bounded : base.xal.store.Bounded
  xal : XalCache.Over base.xal.store st.xal
  access : AclList.Over base.access st.access
  default : AclList.Over base.default st.default

theorem over_received (xals : List (ℕ × List XAttr)) (access default : AclList) :
    Over (received xals access default) (received xals access default) where
  bounded := (XalStore.appendAll_spec XalStore.bounded_empty xals).1
  xal := .inl ⟨rfl, rfl⟩
  access := ⟨fun _ => rfl, fun p hp => absurd hp.symm (Option.some_ne_none p), le_rfl, fun _ _ => rfl⟩
  default := ⟨fun _ => rfl, fun p hp => absurd hp.symm (Option.some_ne_none p), le_rfl, fun _ _ => rfl⟩

theorem Over.call (h : Over base st) (c : TmpCall) : Over base (st.call hashlittle c) := by
  cases c with
  | cacheTmpXattr xattr => exact ⟨h.bounded, h.xal.cache xattr, h.access, h.default⟩
  | findMatchingXattr xal => exact h
  | uncacheTmpXattrs => exact ⟨h.bounded, (h.xal.uncache h.bounded).2, h.access, h.default⟩
  | cacheTmpAcl accAcl defAcl isDir other other' =>
    refine ⟨h.bounded, h.xal, h.access.cache accAcl, ?_⟩
    cases isDir with
    | true => exact h.default.cache defAcl
    | false => exact h.default
  | findMatchingRsyncAcl type racl other =>
    cases type with
    | access => exact ⟨h.bounded, h.xal, h.access.find, h.default⟩
    | default => exact ⟨h.bounded, h.xal, h.access, h.default.find⟩
  | uncacheTmpAcls => exact ⟨h.bounded, h.xal, h.access.uncache.2, h.default.uncache.2⟩

/-- One call keeps its promise exactly when its condition is met. -/
theorem Over.right_iff (h : Over base st) (c : TmpCall) :
    Right hashlittle base st c ↔ Meets hashlittle st c := by
  cases c with
  | cacheTmpXattr xattr => exact forall₂_congr fun xal _ => XalCache.cached_iff
  | findMatchingXattr xal =>
    refine iff_of_true (fun hprior => ?_) trivial
    rcases h.xal with ⟨-, hstore⟩ | ⟨hsome, -⟩
    · rw [hstore]
    · rw [hprior] at hsome
      cases hsome
  | uncacheTmpXattrs => exact iff_of_true (h.xal.uncache h.bounded).1 trivial
  | cacheTmpAcl accAcl defAcl isDir other other' =>
    refine and_congr (forall₂_congr fun racl _ => AclList.cached_iff) ?_
    exact forall_congr' fun _ => forall₂_congr fun racl _ => AclList.cached_iff
  | findMatchingRsyncAcl type racl other =>
    cases type with
    | access => exact AclList.found_iff
    | default => exact AclList.found_iff
  | uncacheTmpAcls => exact iff_of_true ⟨h.access.uncache.1, h.default.uncache.1⟩ trivial

/-- A property that is the same in all states of a run is the same along it. -/
theorem Over.along_iff (h : Over base st) (calls : List TmpCall) :
    Along hashlittle (Right hashlittle base) st calls ↔ Along hashlittle (Meets hashlittle) st calls := by
  induction calls generalizing st with
  | nil => exact Iff.rfl
  | cons c calls ih => exact and_congr (h.right_iff c) (ih (h.call c))

end TmpCaches

/-- An ACL with one group. -/
def groupAcl (id : ℕ) : RsyncAcl := ⟨[⟨.group, id, 4⟩], none, none, some 4, none⟩

/-- Five ACLs of different groups. -/
def fiveAcls : AclList := ⟨groupAcl, 5, none, none⟩

end CloudEdgeBackup
