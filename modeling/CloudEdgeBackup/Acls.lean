/-
  Access control lists (`acls.c`): what is stripped from a file's list on the sending side, and
  what `set_acl` puts on the file on the other side.

  * `RsyncAcl` is an `rsync_acl`; `stripPerms` leaves out what the file's mode says;
  * `packSmbAcl`, `changeSaclPerms`: the system's list, which is made once for all files that share
    an entry and changed to the mode of each of them; `setRsyncAcl`, `setAcl`: what is put;
  * `restored` is an entry of the receiver for a stripped list; `setRsyncAcl_access`: from it every
    file gets its own list back, except for what is held back while a special bit of its mode is
    still to be set or cleared.
-/
import CloudEdgeBackup.IdLists

namespace CloudEdgeBackup

/-- `id_access`, where the bit `NAME_IS_USER` is a kind of its own. -/
structure IdAccess where
  kind : IdKind
  id : ℕ
  access : ℕ
deriving DecidableEq

/-- `rsync_acl`; `none` is `NO_ENTRY`. -/
structure RsyncAcl where
  names : List IdAccess
  userObj : Option ℕ
  groupObj : Option ℕ
  maskObj : Option ℕ
  otherObj : Option ℕ
deriving DecidableEq

/-- `empty_rsync_acl` -/
def emptyRsyncAcl : RsyncAcl := ⟨[], none, none, none, none⟩

/-- The three groups of permission bits of a mode. -/
def ownerBits (mode : ℕ) : ℕ := mode / 2 ^ 6 % 8
def groupBits (mode : ℕ) : ℕ := mode / 2 ^ 3 % 8
def otherBits (mode : ℕ) : ℕ := mode % 8

/-- `S_ISUID`, `S_ISGID` and `S_ISVTX` in a mode. -/
def isSuid (mode : ℕ) : Bool := mode / 2 ^ 11 % 2 = 1
def isSgid (mode : ℕ) : Bool := mode / 2 ^ 10 % 2 = 1
def isSticky (mode : ℕ) : Bool := mode / 2 ^ 9 % 2 = 1

namespace RsyncAcl

variable (racl : RsyncAcl)

/-- `rsync_acl_strip_perms` -/
def stripPerms (mode : ℕ) : RsyncAcl :=
  match racl.maskObj with
  | none => { racl with userObj := none, groupObj := none, otherObj := none }
  | some mask => { racl with
      userObj := none
      groupObj := if racl.groupObj = some (groupBits mode) then none else racl.groupObj
      maskObj := if racl.names ≠ [] ∧ mask = groupBits mode then none else some mask
      otherObj := none }

/-- `rsync_acl_fake_perms` -/
def fakePerms (mode : ℕ) : RsyncAcl :=
  { racl with
    userObj := some (ownerBits mode)
    groupObj := some (groupBits mode)
    otherObj := some (otherBits mode) }

/-- `rsync_acl_equal_enough`, where `racl2` may be condensed. -/
def equalEnough (racl2 : RsyncAcl) (mode : ℕ) : Bool :=
  if racl.maskObj.isSome ≠ racl2.maskObj.isSome then false
  else if racl.maskObj.isSome && !(match racl2.groupObj with
      | none => racl.groupObj = some (groupBits mode)
      | some group => racl.groupObj = some group) then false
  else racl.names = racl2.names

/-- Other ids for the ones that are named. -/
def mapIds (f : IdKind → ℕ → ℕ) : RsyncAcl :=
  { racl with names := racl.names.map fun ida => { ida with id := f ida.kind ida.id } }

end RsyncAcl

/-! ## The system's lists -/

inductive SmbTag
  | userObj
  | user (id : ℕ)
  | groupObj
  | group (id : ℕ)
  | mask
  | other
deriving DecidableEq

/-- A system access control list: its entries in their order. -/
abbrev SmbAcl := List (SmbTag × ℕ)

def IdAccess.entry (ida : IdAccess) : SmbTag × ℕ :=
  (match ida.kind with
    | .user => .user ida.id
    | .group => .group ida.id, ida.access)

/-- `pack_smb_acl`: the users come first, then all others are groups. -/
def packSmbAcl (racl : RsyncAcl) : SmbAcl :=
  (.userObj, racl.userObj.getD 0) ::
    ((racl.names.takeWhile (·.kind = .user)).map IdAccess.entry ++
      ((.groupObj, racl.groupObj.getD 0) ::
        ((racl.names.dropWhile (·.kind = .user)).map fun ida => (.group ida.id, ida.access)) ++
        (racl.maskObj.toList.map fun mask => (.mask, mask)) ++
        [(.other, racl.otherObj.getD 0)]))

/-- Whether the mode is one whose group and other bits are not safe to set yet: the sticky bit of
    a directory is still to be set, or a set-id bit of another file to be cleared. -/
def holdsBack (oldMode mode : ℕ) : Bool :=
  if isDir mode then isSticky mode && !isSticky oldMode
  else (isSuid oldMode && !isSuid mode) || (isSgid oldMode && !isSgid mode)

/-- The mode that `change_sacl_perms` goes on with. -/
def safeMode (oldMode mode : ℕ) : ℕ := if holdsBack oldMode mode then mode / 2 ^ 6 * 2 ^ 6 else mode

/-- The change of one entry in `change_sacl_perms`. -/
def changePerms (racl : RsyncAcl) (mode : ℕ) (e : SmbTag × ℕ) : SmbTag × ℕ :=
  match e.1 with
  | .userObj => (.userObj, ownerBits mode)
  | .groupObj => (.groupObj, if racl.groupObj.isSome then e.2 else groupBits mode)
  | .mask => (.mask, if racl.maskObj.isSome then groupBits mode else e.2)
  | .other => (.other, otherBits mode)
  | tag => (tag, e.2)

/-- `change_sacl_perms` on the list itself. -/
def changeSaclPerms (sacl : SmbAcl) (racl : RsyncAcl) (oldMode mode : ℕ) : SmbAcl :=
  sacl.map (changePerms racl (safeMode oldMode mode))

/-- `acl_duo` -/
structure Duo where
  racl : RsyncAcl
  sacl : Option SmbAcl
deriving DecidableEq

inductive AclType
  | access
  | default
deriving DecidableEq

/-- What is put on a file: a list of the system, the attribute of --fake-super, or the default list
    is deleted. -/
inductive AclPut
  | sys (sacl : SmbAcl)
  | xattr (racl : RsyncAcl)
  | noDefault
deriving DecidableEq

/-- The system's list of an entry, which is packed once, for the next file. -/
def Duo.nextSacl (type : AclType) (duo : Duo) (oldMode mode : ℕ) : SmbAcl :=
  match type with
  | .access => changeSaclPerms (duo.sacl.getD (packSmbAcl duo.racl)) duo.racl oldMode mode
  | .default => duo.sacl.getD (packSmbAcl duo.racl)

/-- `set_rsync_acl`, where every call of the system succeeds. -/
def setRsyncAcl (fakeSuper : Bool) (type : AclType) (duo : Duo) (oldMode mode : ℕ) :
    AclPut × Duo :=
  if type = .default ∧ duo.racl.userObj = none then (.noDefault, duo)
  else if fakeSuper then (.xattr duo.racl, duo)
  else (.sys (duo.nextSacl type oldMode mode),
    { duo with sacl := some (duo.nextSacl type oldMode mode) })

/-- Whether the list a file has is the one it is to have, as far as `set_acl` looks. -/
def aclUnchanged (type : AclType) (duo : Duo) (mode : ℕ) (old : Option RsyncAcl) : Bool :=
  old.any fun racl => match type with
    | .access => racl.equalEnough duo.racl mode
    | .default => racl = duo.racl

/-- One of the two parts of `set_acl`, for a file that has the list `old`; `none` leaves it. -/
def setAcl (fakeSuper : Bool) (type : AclType) (duo : Duo) (old : Option RsyncAcl)
    (oldMode mode : ℕ) : Option AclPut × Duo :=
  if aclUnchanged type duo mode old then (none, duo)
  else
    let r := setRsyncAcl fakeSuper type duo oldMode mode
    (some r.1, r.2)

/-- `get_rsync_acl` for --fake-super, from an attribute that was put. -/
def readFake (racl : RsyncAcl) (mode : ℕ) : RsyncAcl :=
  { racl with
    userObj := some (racl.userObj.getD (ownerBits mode))
    groupObj := some (racl.groupObj.getD (groupBits mode))
    otherObj := some (racl.otherObj.getD (otherBits mode)) }

/-! ## Files -/

/-- A file or directory with its access list and, for a directory, its default list. -/
structure AclFile where
  mode : ℕ
  access : RsyncAcl
  default : RsyncAcl

/-- The names of a list as `unpack_smb_acl` leaves them. -/
structure NamesOk (names : List IdAccess) : Prop where
  usersFirst : names.Pairwise fun a b => b.kind = .user → a.kind = .user
  small : ∀ ida ∈ names, ida.id < 2 ^ 32 ∧ ida.access < 8
  count : names.length < 2 ^ 31

/-- A valid list of a file: it says what the mode says, and it has a mask when it has names. -/
structure AclFile.Ok (f : AclFile) : Prop where
  names : NamesOk f.access.names
  user : f.access.userObj = some (ownerBits f.mode)
  other : f.access.otherObj = some (otherBits f.mode)
  group : ∃ group < 8, f.access.groupObj = some group
  mask : ∀ mask, f.access.maskObj = some mask → mask = groupBits f.mode
  noMask : f.access.maskObj = none → f.access.names = [] ∧ f.access.groupObj = some (groupBits f.mode)
  defaultNames : NamesOk f.default.names
  default : f.default = emptyRsyncAcl ∨ (∃ user group other, user < 8 ∧ group < 8 ∧ other < 8 ∧
    f.default.userObj = some user ∧ f.default.groupObj = some group ∧
    f.default.otherObj = some other ∧ (∀ mask, f.default.maskObj = some mask → mask < 8) ∧
    (f.default.maskObj = none → f.default.names = []))

/-- The list that is sent for a file. -/
def AclFile.condensed (f : AclFile) : RsyncAcl := f.access.stripPerms f.mode

/-- What the receiver makes of a condensed list, from the mode of the file it comes with. -/
def restored (racl : RsyncAcl) (mode : ℕ) : RsyncAcl :=
  if racl.names ≠ [] ∧ racl.maskObj = none then { racl with maskObj := some (groupBits mode) } else racl

/-- The list that is put while a special bit is still to be set or cleared: what comes from the
    mode is nothing for the group and for others. -/
def guardedAcl (f : AclFile) : RsyncAcl :=
  { f.access with
    groupObj := if f.condensed.groupObj = none then some 0 else f.access.groupObj
    maskObj := f.access.maskObj.map fun _ => 0
    otherObj := some 0 }

/-! ### What is put -/

/-- The bits of a mode that is held back. -/
theorem bits_cleared (mode : ℕ) : ownerBits (mode / 2 ^ 6 * 2 ^ 6) = ownerBits mode ∧
    groupBits (mode / 2 ^ 6 * 2 ^ 6) = 0 ∧ otherBits (mode / 2 ^ 6 * 2 ^ 6) = 0 := by
  rw [ownerBits, ownerBits, groupBits, otherBits]
  omega

/-- A second change undoes the first one. -/
theorem changeSaclPerms_twice (sacl : SmbAcl) (racl : RsyncAcl) (old₁ mode₁ old₂ mode₂ : ℕ) :
    changeSaclPerms (changeSaclPerms sacl racl old₁ mode₁) racl old₂ mode₂ =
      changeSaclPerms sacl racl old₂ mode₂ := by
  rw [changeSaclPerms, changeSaclPerms, changeSaclPerms, List.map_map]
  refine List.map_congr_left fun e _ => ?_
  obtain ⟨tag, access⟩ := e
  cases tag with
  | groupObj => cases hg : racl.groupObj.isSome <;> simp [changePerms, hg]
  | mask => cases hm : racl.maskObj.isSome <;> simp [changePerms, hm]
  | _ => rfl

/-- The states of an entry: any files were set from it before. -/
inductive Duo.Used (type : AclType) (racl : RsyncAcl) : Duo → Prop
  | fresh : Used type racl ⟨racl, none⟩
  | set {duo : Duo} (fakeSuper : Bool) (old : Option RsyncAcl) (oldMode mode : ℕ) :
      Used type racl duo → Used type racl (setAcl fakeSuper type duo old oldMode mode).2

/-- What any earlier call leaves behind is changed to the same list in the end. -/
theorem Duo.Used.sacl {type : AclType} {racl : RsyncAcl} {duo : Duo} (h : Duo.Used type racl duo) :
    duo.racl = racl ∧ (type = .default → duo.sacl.getD (packSmbAcl racl) = packSmbAcl racl) ∧
      ∀ old mode, changeSaclPerms (duo.sacl.getD (packSmbAcl racl)) racl old mode =
        changeSaclPerms (packSmbAcl racl) racl old mode := by
  induction h with
  | fresh => exact ⟨rfl, fun _ => rfl, fun _ _ => rfl⟩
  | @set duo fakeSuper old oldMode mode _ ih =>
    obtain ⟨hracl, hdefault, hchange⟩ := ih
    rw [setAcl]
    split_ifs with hold
    · exact ⟨hracl, hdefault, hchange⟩
    rw [setRsyncAcl]
    split_ifs with hnone hfake
    · exact ⟨hracl, hdefault, hchange⟩
    · exact ⟨hracl, hdefault, hchange⟩
    cases type with
    | access =>
      refine ⟨hracl, nofun, fun old' mode' => ?_⟩
      simp only [Duo.nextSacl, Option.getD_some, hracl, changeSaclPerms_twice]
      exact hchange old' mode'
    | default =>
      refine ⟨hracl, fun _ => ?_, fun old' mode' => ?_⟩
      · simp only [Duo.nextSacl, Option.getD_some, hracl]
        exact hdefault rfl
      · simp only [Duo.nextSacl, Option.getD_some, hracl]
        exact hchange old' mode'

section Put

variable {f : AclFile} {ids : IdKind → ℕ → ℕ}

/-- The names of a list are packed in their order, and no change concerns them. -/
theorem changePerms_entries (racl : RsyncAcl) (mode : ℕ) (names : List IdAccess) :
    (names.map IdAccess.entry).map (changePerms racl mode) = names.map IdAccess.entry ∧
      (names.map fun ida => ((.group ida.id, ida.access) : SmbTag × ℕ)).map (changePerms racl mode) =
        names.map fun ida => (.group ida.id, ida.access) := by
  constructor
  · rw [List.map_map]
    refine List.map_congr_left fun ida _ => ?_
    obtain ⟨_ | _, id, access⟩ := ida <;> rfl
  · rw [List.map_map]
    rfl

/-- **The change of a packed list** is the list with other permissions. -/
theorem changeSaclPerms_pack (racl : RsyncAcl) (oldMode mode : ℕ) :
    changeSaclPerms (packSmbAcl racl) racl oldMode mode = packSmbAcl { racl with
      userObj := some (ownerBits (safeMode oldMode mode))
      groupObj := some (racl.groupObj.getD (groupBits (safeMode oldMode mode)))
      maskObj := racl.maskObj.map fun _ => groupBits (safeMode oldMode mode)
      otherObj := some (otherBits (safeMode oldMode mode)) } := by
  rw [changeSaclPerms, packSmbAcl, packSmbAcl]
  simp only [List.map_cons, List.map_append, changePerms_entries]
  cases hg : racl.groupObj <;> cases hm : racl.maskObj <;>
    simp [changePerms, hg, hm]

theorem safeMode_bits (oldMode mode : ℕ) : ownerBits (safeMode oldMode mode) = ownerBits mode ∧
    (holdsBack oldMode mode = false → safeMode oldMode mode = mode) ∧
    (holdsBack oldMode mode = true →
      groupBits (safeMode oldMode mode) = 0 ∧ otherBits (safeMode oldMode mode) = 0) := by
  rw [safeMode]
  cases holdsBack oldMode mode with
  | true =>
    obtain ⟨howner, hgroup, hother⟩ := bits_cleared mode
    exact ⟨howner, nofun, fun _ => ⟨hgroup, hother⟩⟩
  | false => exact ⟨rfl, fun _ => rfl, nofun⟩

/-- What a file gets from the entry of its condensed list, whichever file the entry came with. -/
theorem restored_perms (h : f.Ok) (mode₁ oldMode : ℕ) :
    { restored f.condensed mode₁ with
      userObj := some (ownerBits (safeMode oldMode f.mode))
      groupObj := some ((restored f.condensed mode₁).groupObj.getD
        (groupBits (safeMode oldMode f.mode)))
      maskObj := (restored f.condensed mode₁).maskObj.map fun _ =>
        groupBits (safeMode oldMode f.mode)
      otherObj := some (otherBits (safeMode oldMode f.mode)) } =
      if holdsBack oldMode f.mode then guardedAcl f else f.access := by
  obtain ⟨mode, ⟨names, userObj, groupObj, maskObj, otherObj⟩, default⟩ := f
  obtain ⟨howner, hsafe, hheld⟩ := safeMode_bits oldMode mode
  obtain rfl : userObj = some (ownerBits mode) := h.user
  obtain rfl : otherObj = some (otherBits mode) := h.other
  obtain ⟨group, -, hgroup⟩ := h.group
  obtain rfl : groupObj = some group := hgroup
  cases maskObj with
  | none =>
    obtain ⟨hnames, hgb⟩ : names = [] ∧ some group = some (groupBits mode) := h.noMask rfl
    obtain rfl := hnames
    obtain rfl := Option.some.inj hgb
    cases hb : holdsBack oldMode mode with
    | true =>
      obtain ⟨hg0, ho0⟩ := hheld hb
      simp [AclFile.condensed, RsyncAcl.stripPerms, restored, guardedAcl, howner, hg0, ho0]
    | false => simp [AclFile.condensed, RsyncAcl.stripPerms, restored, hsafe hb]
  | some mask =>
    obtain rfl : mask = groupBits mode := h.mask mask rfl
    cases hb : holdsBack oldMode mode with
    | true =>
      obtain ⟨hg0, ho0⟩ := hheld hb
      by_cases hn : names = [] <;> by_cases hg : group = groupBits mode <;>
        simp [AclFile.condensed, RsyncAcl.stripPerms, restored, guardedAcl, howner, hg0, ho0, hn, hg]
    | false =>
      by_cases hn : names = [] <;> by_cases hg : group = groupBits mode <;>
        simp [AclFile.condensed, RsyncAcl.stripPerms, restored, hsafe hb, hn, hg]

theorem restored_mapIds (racl : RsyncAcl) (mode : ℕ) :
    restored (racl.mapIds ids) mode = (restored racl mode).mapIds ids := by
  rw [restored, restored]
  by_cases h : racl.names ≠ [] ∧ racl.maskObj = none
  · rw [if_pos h, if_pos]
    · rfl
    · exact ⟨fun hnil => h.1 (List.map_eq_nil_iff.1 hnil), h.2⟩
  · rw [if_neg h, if_neg]
    exact fun hmapped => h ⟨fun hnil => hmapped.1 (by rw [RsyncAcl.mapIds, hnil]; rfl), hmapped.2⟩

/-- **The access list of a file**: its own one with other ids, whichever files were set before
    from the same entry, and less where a special bit is still to be set or cleared. -/
theorem setRsyncAcl_access (h : f.Ok) {mode₁ oldMode : ℕ} {duo : Duo}
    (hduo : duo.Used .access (restored (f.condensed.mapIds ids) mode₁)) :
    (setRsyncAcl false .access duo oldMode f.mode).1 =
      .sys (packSmbAcl ((if holdsBack oldMode f.mode then guardedAcl f else f.access).mapIds ids)) := by
  obtain ⟨hracl, -, hchange⟩ := hduo.sacl
  rw [setRsyncAcl, if_neg (by simp), if_neg (by simp)]
  rw [Duo.nextSacl]
  simp only [hracl, hchange, changeSaclPerms_pack]
  rw [restored_mapIds, ← restored_perms h mode₁ oldMode]
  rfl

/-- **With --fake-super** a file gets its own list if it has the group bits of the file the entry
    came with. -/
theorem setRsyncAcl_fake (h : f.Ok) {mode₁ oldMode : ℕ} {duo : Duo}
    (hduo : duo.Used .access (restored (f.condensed.mapIds ids) mode₁))
    (hmode : f.access.names ≠ [] → groupBits mode₁ = groupBits f.mode) :
    ∃ racl, (setRsyncAcl true .access duo oldMode f.mode).1 = .xattr racl ∧
      readFake racl f.mode = f.access.mapIds ids := by
  obtain ⟨hracl, -, -⟩ := hduo.sacl
  refine ⟨duo.racl, ?_, ?_⟩
  · rw [setRsyncAcl, if_neg (by simp), if_pos rfl]
  · rw [hracl, restored_mapIds]
    obtain ⟨mode, ⟨names, userObj, groupObj, maskObj, otherObj⟩, default⟩ := f
    obtain rfl : userObj = some (ownerBits mode) := h.user
    obtain rfl : otherObj = some (otherBits mode) := h.other
    obtain ⟨group, -, hgroup⟩ := h.group
    obtain rfl : groupObj = some group := hgroup
    cases maskObj with
    | none =>
      obtain ⟨hnames, hgb⟩ : names = [] ∧ some group = some (groupBits mode) := h.noMask rfl
      obtain rfl := hnames
      obtain rfl := Option.some.inj hgb
      simp [AclFile.condensed, RsyncAcl.stripPerms, restored, readFake, RsyncAcl.mapIds]
    | some mask =>
      obtain rfl : mask = groupBits mode := h.mask mask rfl
      by_cases hn : names = []
      · by_cases hg : group = groupBits mode <;>
          simp [AclFile.condensed, RsyncAcl.stripPerms, restored, readFake, RsyncAcl.mapIds, hn, hg]
      · have hm : groupBits mode₁ = groupBits mode := hmode hn
        by_cases hg : group = groupBits mode <;>
          simp [AclFile.condensed, RsyncAcl.stripPerms, restored, readFake, RsyncAcl.mapIds, hn, hg, hm]

/-- **The default list of a directory**, or that it has none. -/
theorem setRsyncAcl_default (h : f.Ok) {oldMode mode : ℕ} {fakeSuper : Bool} {duo : Duo}
    (hduo : duo.Used .default (f.default.mapIds ids)) :
    (setRsyncAcl fakeSuper .default duo oldMode mode).1 =
      if f.default = emptyRsyncAcl then .noDefault
      else if fakeSuper then .xattr (f.default.mapIds ids)
      else .sys (packSmbAcl (f.default.mapIds ids)) := by
  obtain ⟨hracl, hdefault, -⟩ := hduo.sacl
  have huser : duo.racl.userObj = f.default.userObj := by rw [hracl]; rfl
  rcases h.default with hempty | ⟨user, group, other, -, -, -, hu, -⟩
  · rw [setRsyncAcl, if_pos ⟨rfl, by rw [huser, hempty]; rfl⟩, if_pos hempty]
  · have hne : f.default ≠ emptyRsyncAcl := by
      intro hempty
      rw [hempty] at hu
      cases hu
    rw [setRsyncAcl, if_neg (by rw [huser, hu]; simp), if_neg hne]
    cases fakeSuper with
    | true => rw [if_pos rfl, if_pos rfl, hracl]
    | false =>
      rw [if_neg (by simp), if_neg (by simp), Duo.nextSacl, hracl]
      exact congrArg AclPut.sys (hdefault rfl)

/-- A file whose list is left alone has the names and the mask entry it is to have, and its group's
    entry where that is not the mode's. -/
theorem equalEnough_spec (h : f.Ok) {mode₁ : ℕ} {old : RsyncAcl}
    (hold : old.equalEnough (restored (f.condensed.mapIds ids) mode₁) f.mode = true) :
    old.names = (f.access.mapIds ids).names ∧
      old.maskObj.isSome = f.access.maskObj.isSome ∧
      (old.maskObj.isSome = true → old.groupObj = f.access.groupObj) := by
  obtain ⟨mode, ⟨names, userObj, groupObj, maskObj, otherObj⟩, default⟩ := f
  obtain ⟨group, -, hgroup⟩ := h.group
  obtain rfl : groupObj = some group := hgroup
  have hmask : (restored ((AclFile.mk mode ⟨names, userObj, some group, maskObj, otherObj⟩
      default).condensed.mapIds ids) mode₁).maskObj.isSome = maskObj.isSome := by
    cases maskObj with
    | none =>
      obtain ⟨hnames, -⟩ : names = [] ∧ _ := h.noMask rfl
      simp [AclFile.condensed, RsyncAcl.stripPerms, restored, RsyncAcl.mapIds, hnames]
    | some mask =>
      by_cases hn : names = [] <;>
        simp [AclFile.condensed, RsyncAcl.stripPerms, restored, RsyncAcl.mapIds, hn]
      split_ifs <;> simp
  rw [restored_mapIds] at hold hmask
  rw [RsyncAcl.equalEnough, hmask] at hold
  split_ifs at hold with hpresent hgroupObj
  refine ⟨?_, not_not.1 hpresent, ?_⟩
  · have hnames : old.names = ((restored (AclFile.mk mode ⟨names, userObj, some group, maskObj,
        otherObj⟩ default).condensed mode₁).mapIds ids).names := of_decide_eq_true hold
    rw [hnames]
    cases maskObj <;> (rw [restored]; split_ifs <;> rfl)
  · intro hsome
    rw [hsome, Bool.true_and] at hgroupObj
    have hsender : maskObj.isSome = true := (not_not.1 hpresent) ▸ hsome
    obtain ⟨mask, rfl⟩ := Option.isSome_iff_exists.1 hsender
    have hcond : ((restored (AclFile.mk mode ⟨names, userObj, some group, some mask, otherObj⟩
        default).condensed mode₁).mapIds ids).groupObj =
        if some group = some (groupBits mode) then none else some group := by
      rw [restored]
      split_ifs <;> simp_all [AclFile.condensed, RsyncAcl.stripPerms, RsyncAcl.mapIds]
    rw [hcond] at hgroupObj
    by_cases hg : some group = some (groupBits mode)
    · rw [if_pos hg] at hgroupObj
      simp only [Bool.not_eq_true', decide_eq_false_iff_not, not_not] at hgroupObj
      rw [hgroupObj, hg]
    · rw [if_neg hg] at hgroupObj
      simpa using hgroupObj

end Put

end CloudEdgeBackup
