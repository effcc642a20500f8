/-
  The entries of a file list on the wire: `send_file_entry` and `recv_file_entry`
  (`flist.c`), for the protocols from 28 on.

  * an `FileEntry` is what `make_file` found out about a file, a `FileStruct` what the other
    side makes of the bytes; each side's static variables are a record (`Sender`,
    `Receiver`) that also holds its tables of ids and of inodes and the list the entry
    goes to;
  * `Sender.xflags` says which fields are "the same as before" and are left out.  The
    flags are kept as bits; three bits have two meanings each, as in `rsync.h`;
  * a later member of a hard-link group whose first member is in the same list is
    *abbreviated*: its name and that member's index are all that is sent.

  The options that rewrite entries on purpose (`--iconv`, `--chmod`, a sanitizing
  daemon, munged symlinks) are off, and so are ACLs and extended attributes.
-/
import CloudEdgeBackup.Wire

namespace CloudEdgeBackup

open Codec

/-! ## Modes -/

/-- `mode & S_IFMT` -/
def fileType (mode : ℕ) : ℕ := mode / 0o10000 % 16

def isReg (mode : ℕ) : Bool := fileType mode = 0o10
def isDir (mode : ℕ) : Bool := fileType mode = 0o4
def isLnk (mode : ℕ) : Bool := fileType mode = 0o12
def isDevice (mode : ℕ) : Bool := fileType mode = 0o2 || fileType mode = 0o6
def isSpecial (mode : ℕ) : Bool := fileType mode = 0o14 || fileType mode = 0o1

/-! ## Options and entries -/

/-- How user ids, or group ids, are treated. -/
structure IdOpts where
  /-- `preserve_uid`, `preserve_gid` -/
  preserve : Bool
  /-- `uid_to_user`, `gid_to_group` on the sending side. -/
  name : ℕ → Option Bytes
  /-- Whether the receiver looks an id up that comes without a name. -/
  mapped : Bool
  /-- The id `recv_add_id` finds for an id and its name. -/
  localId : ℕ → Option Bytes → ℕ

structure ListOpts where
  protocolVersion : ℤ
  incRecurse : Bool
  numericIds : Bool
  user : IdOpts
  group : IdOpts
  preserveDevices : Bool
  preserveSpecials : Bool
  preserveLinks : Bool
  preserveHardLinks : Bool
  relativePaths : Bool
  alwaysChecksum : Bool
  flistCsumLen : ℕ

/-- A file's device and inode (`tmp_dev`, `tmp_ino`). -/
abbrev Inode := ℤ × ℤ

/-- A file to send: its `file_struct`, the link's target and the `tmp_` variables
    `make_file` sets. -/
structure FileEntry where
  name : Bytes
  mode : ℕ
  length : ℕ
  modtime : ℤ
  modNsec : ℕ
  owner : ℕ
  group : ℕ
  /-- `tmp_rdev`, as its major and minor numbers. -/
  rdev : ℕ × ℕ
  symlink : Bytes
  /-- Set for a file that is no directory and has several links. -/
  inode : Option Inode
  sum : Bytes
  topDir : Bool
  contentDir : Bool
  impliedDir : Bool

/-- The `file_struct` of a received entry. -/
structure FileStruct where
  name : Bytes
  mode : ℕ
  length : ℕ
  modtime : ℤ
  modNsec : ℕ
  owner : ℕ
  group : ℕ
  rdev : ℕ × ℕ
  symlink : Bytes
  /-- `F_HL_GNUM`; `none` without `FLAG_HLINKED`. -/
  hlGnum : Option ℤ
  sum : Bytes
deriving DecidableEq

/-- The inode under which an entry is hard-linked; `none` is `tmp_dev == -1`. -/
def FileEntry.hlink (o : ListOpts) (e : FileEntry) : Option Inode :=
  if o.preserveHardLinks then e.inode else none

/-! ## The flags of an entry -/

/-- The bits of `xflags`, without `XMIT_EXTENDED_FLAGS`. -/
structure XFlags where
  topDir : Bool
  sameMode : Bool
  sameUid : Bool
  sameGid : Bool
  sameName : Bool
  longName : Bool
  sameTime : Bool
  /-- `XMIT_SAME_RDEV_MAJOR`; for directories `XMIT_NO_CONTENT_DIR`. -/
  sameRdevMajor : Bool
  hlinked : Bool
  /-- `XMIT_SAME_DEV_pre30`; from 30 on `XMIT_USER_NAME_FOLLOWS`. -/
  sameDev : Bool
  /-- `XMIT_RDEV_MINOR_8_pre30`; from 30 on `XMIT_GROUP_NAME_FOLLOWS`. -/
  rdevMinor8 : Bool
  hlinkFirst : Bool
  modNsec : Bool
deriving DecidableEq

namespace XFlags

def low (x : XFlags) (extended : Bool) : List Bool :=
  [x.topDir, x.sameMode, extended, x.sameUid, x.sameGid, x.sameName, x.longName, x.sameTime]

def high (x : XFlags) : List Bool :=
  [x.sameRdevMajor, x.hlinked, x.sameDev, x.rdevMinor8, x.hlinkFirst, x.modNsec]

/-- `(xflags & 0xFF00) || !xflags` -/
def extended (x : XFlags) : Bool := ofBits x.high ≠ 0 || ofBits (x.low false) = 0

/-- A zero flag byte would end the list: on a file that is no directory
    `XMIT_TOP_DIR` is harmless. -/
def nonzero (x : XFlags) (mode : ℕ) : XFlags :=
  { x with topDir := x.topDir || (ofBits x.high = 0 && ofBits (x.low false) = 0 && !isDir mode) }

def bytes (x : XFlags) : Bytes :=
  if x.extended then [UInt8.ofNat (ofBits (x.low true)), UInt8.ofNat (ofBits x.high)]
  else [UInt8.ofNat (ofBits (x.low false))]

def ofBytes (b b' : UInt8) : XFlags :=
  let l := toBits 8 b.toNat
  let h := toBits 6 b'.toNat
  ⟨l.getD 0 false, l.getD 1 false, l.getD 3 false, l.getD 4 false, l.getD 5 false, l.getD 6 false,
    l.getD 7 false, h.getD 0 false, h.getD 1 false, h.getD 2 false, h.getD 3 false, h.getD 4 false,
    h.getD 5 false⟩

end XFlags

/-- The loop of `recv_file_list` up to `recv_file_entry`; it fails where the list ends. -/
def readFlags : In XFlags := do
  let b ← get1
  if b = 0 then abort
  else if b &&& 4 ≠ 0 then do
    let b' ← get1
    if b = 4 ∧ b' = 16 then abort else pure (XFlags.ofBytes b b')
  else pure (XFlags.ofBytes b 0)

/-! ## User and group ids -/

/-- The static `uid` (or `gid`) of the sender and the ids `add_uid` has seen. -/
structure SentIds where
  id : ℕ
  seen : List ℕ

/-- The static `uid` (or `gid`) of the receiver and its `uidlist` (or `gidlist`). -/
structure RecvIds where
  id : ℕ
  list : List (ℕ × ℕ)

/-- `add_uid`, `add_gid`: the name of an id that is new. -/
def addId (i : IdOpts) (seen : List ℕ) (id : ℕ) : Option Bytes × List ℕ :=
  if id = 0 ∨ id ∈ seen then (none, seen) else (i.name id, id :: seen)

/-- `XMIT_SAME_UID`, `XMIT_SAME_GID` -/
def SentIds.same (i : IdOpts) (s : SentIds) (id : ℕ) (lastname : Bytes) : Bool :=
  !i.preserve || (id = s.id && lastname ≠ [])

/-- The ids after an entry, and the name that follows it. -/
def SentIds.next (o : ListOpts) (i : IdOpts) (s : SentIds) (id : ℕ) (lastname : Bytes) :
    Option Bytes × SentIds :=
  if s.same i id lastname then (none, s)
  else if o.numericIds then (none, ⟨id, s.seen⟩)
  else
    (if o.incRecurse then (addId i s.seen id).1 else none, ⟨id, (addId i s.seen id).2⟩)

def writeIdName : Option Bytes → Bytes
  | none => []
  | some name => UInt8.ofNat name.length :: name

def writeId (o : ListOpts) (i : IdOpts) (same : Bool) (id : ℕ) (name : Option Bytes) : Bytes :=
  if i.preserve && !same then
    if o.protocolVersion < 30 then writeInt (int32 id)
    else writeVarint (int32 id) ++ writeIdName name
  else []

/-- A number read as an `int` and stored in a `uint32`. -/
def toUint32 (x : ℤ) : ℕ := (x % 2 ^ 32).toNat

/-- `recv_add_id` -/
def recvAddId (i : IdOpts) (list : List (ℕ × ℕ)) (id : ℕ) (name : Option Bytes) : RecvIds :=
  ⟨i.localId id name, (id, i.localId id name) :: list⟩

/-- `match_uid`, `match_gid` -/
def matchId (i : IdOpts) (list : List (ℕ × ℕ)) (id : ℕ) : RecvIds :=
  match list.lookup id with
  | some id2 => ⟨id2, list⟩
  | none => recvAddId i list id none

/-- `recv_user_name`, `recv_group_name`, or what stands for them. -/
def readIdName (o : ListOpts) (i : IdOpts) (follows : Bool) (list : List (ℕ × ℕ)) (id : ℕ) :
    In RecvIds :=
  if follows then do
    let len ← get1
    let name ← getN len.toNat
    pure (recvAddId i list id (some name))
  else pure (if o.incRecurse && i.mapped then matchId i list id else ⟨id, list⟩)

def readId (o : ListOpts) (i : IdOpts) (same follows : Bool) (t : RecvIds) : In RecvIds :=
  if i.preserve && !same then
    if o.protocolVersion < 30 then do
      let id ← readInt
      pure ⟨toUint32 id, t.list⟩
    else do
      let id ← readVarint
      readIdName o i follows t.list (toUint32 id)
  else pure t

/-! ## The sender -/

/-- The static variables of `send_file_entry`, the table of inodes and the list that is
    being sent. -/
structure Sender where
  modtime : ℤ
  mode : ℕ
  dev : ℤ
  rdevMajor : ℕ
  uid : SentIds
  gid : SentIds
  lastname : Bytes
  /-- `idev_find`: the index of the first member of a group. -/
  idev : Inode → Option ℤ
  ndxStart : ℤ
  used : ℕ

/-- The first list starts at index 1 with incremental recursion. -/
def ListOpts.ndxStart (o : ListOpts) : ℤ := if o.incRecurse then 1 else 0

def Sender.init (o : ListOpts) : Sender :=
  ⟨0, 0, 0, 0, ⟨0, []⟩, ⟨0, []⟩, [], fun _ => none, o.ndxStart, 0⟩

/-- How much of the name is the last one's (`l1`). -/
def samePrefix : ℕ → Bytes → Bytes → ℕ
  | n + 1, a :: as, b :: bs => if a = b then samePrefix n as bs + 1 else 0
  | _, _, _ => 0

namespace Sender

variable (o : ListOpts) (s : Sender) (e : FileEntry)

def l1 : ℕ := samePrefix 255 s.lastname e.name

/-- `first_hlink_ndx`, where it is not negative. -/
def firstHlinkNdx : Option ℤ :=
  if 30 ≤ o.protocolVersion then (e.hlink o).bind s.idev else none

/-- The directory flags, as the first bit and `XMIT_NO_CONTENT_DIR`. -/
def dirFlags (e : FileEntry) : Bool × Bool :=
  if !isDir e.mode then (false, false)
  else if 30 ≤ o.protocolVersion then
    if e.contentDir then (e.topDir, false) else (e.impliedDir, true)
  else (e.topDir, false)

/-- Whether a device number is sent: for special files it is history. -/
def sendsRdev (o : ListOpts) (mode : ℕ) : Bool :=
  o.preserveDevices && isDevice mode ||
    o.preserveSpecials && isSpecial mode && o.protocolVersion < 31

/-- The minor number that is sent: `rdev` or, for a special file,
    `MAKEDEV(major(rdev), 0)`. -/
def rdevMinor (o : ListOpts) (e : FileEntry) : ℕ :=
  if o.preserveDevices && isDevice e.mode then e.rdev.2 else 0

/-- `XMIT_SAME_RDEV_MAJOR` -/
def sameRdevMajor : Bool :=
  if o.preserveDevices && isDevice e.mode then e.rdev.1 = s.rdevMajor else sendsRdev o e.mode

def sameDev : Bool := match e.hlink o with
  | some k => k.1 = s.dev
  | none => false

def userName : Option Bytes := (s.uid.next o o.user e.owner s.lastname).1

def groupName : Option Bytes := (s.gid.next o o.group e.group s.lastname).1

/-- The flags before the check for a zero byte. -/
def xflags₀ : XFlags where
  topDir := (dirFlags o e).1
  sameMode := e.mode = s.mode
  sameUid := s.uid.same o.user e.owner s.lastname
  sameGid := s.gid.same o.group e.group s.lastname
  sameName := 0 < s.l1 e
  longName := 255 < e.name.length - s.l1 e
  sameTime := e.modtime = s.modtime
  sameRdevMajor := (dirFlags o e).2 || s.sameRdevMajor o e
  hlinked := (e.hlink o).isSome
  sameDev := if 30 ≤ o.protocolVersion then (s.userName o e).isSome else s.sameDev o e
  rdevMinor8 :=
    if 30 ≤ o.protocolVersion then (s.groupName o e).isSome
    else sendsRdev o e.mode && rdevMinor o e ≤ 0xFF
  hlinkFirst := 30 ≤ o.protocolVersion && (e.hlink o).isSome && s.firstHlinkNdx o e = none
  modNsec := e.modNsec ≠ 0 && 31 ≤ o.protocolVersion

def xflags : XFlags := (s.xflags₀ o e).nonzero e.mode

/-- The static variables after an entry; an abbreviated one updates them too. -/
def next : Sender where
  modtime := e.modtime
  mode := e.mode
  dev := if o.protocolVersion < 30 then ((e.hlink o).map Prod.fst).getD s.dev else s.dev
  rdevMajor := if o.preserveDevices && isDevice e.mode then e.rdev.1 else s.rdevMajor
  uid := (s.uid.next o o.user e.owner s.lastname).2
  gid := (s.gid.next o o.group e.group s.lastname).2
  lastname := e.name
  idev := match e.hlink o with
    | some k =>
      if 30 ≤ o.protocolVersion ∧ s.idev k = none then
        Function.update s.idev k (some (s.ndxStart + s.used))
      else s.idev
    | none => s.idev
  ndxStart := s.ndxStart
  used := s.used + 1

end Sender

/-- `write_varint30` -/
def writeVarint30 (o : ListOpts) (x : ℤ) : Bytes :=
  if o.protocolVersion < 30 then writeInt x else writeVarint x

/-- `write_varlong30` -/
def writeVarlong30 (o : ListOpts) (x : ℤ) (minBytes : ℕ) : Bytes :=
  if o.protocolVersion < 30 then writeLongint x else writeVarlong x minBytes

def writeName (o : ListOpts) (x : XFlags) (l1 : ℕ) (name : Bytes) : Bytes :=
  let l2 := name.length - l1
  (if x.sameName then [UInt8.ofNat l1] else []) ++
    ((if x.longName then writeVarint30 o l2 else [UInt8.ofNat l2]) ++ name.drop l1)

def writeModtime (o : ListOpts) (x : XFlags) (modtime : ℤ) : Bytes :=
  if x.sameTime then []
  else if 30 ≤ o.protocolVersion then writeVarlong modtime 4
  else writeInt modtime

def writeRdev (o : ListOpts) (x : XFlags) (e : FileEntry) : Bytes :=
  if Sender.sendsRdev o e.mode then
    (if x.sameRdevMajor then [] else writeVarint30 o (int32 e.rdev.1)) ++
      (if 30 ≤ o.protocolVersion then writeVarint (int32 (Sender.rdevMinor o e))
      else if x.rdevMinor8 then [UInt8.ofNat (Sender.rdevMinor o e)]
      else writeInt (int32 (Sender.rdevMinor o e)))
  else []

/-- An empty `symlink_name` is not sent (`send_file_name` skips such a link). -/
def writeSymlink (o : ListOpts) (e : FileEntry) : Bytes :=
  if o.preserveLinks && isLnk e.mode && e.symlink ≠ [] then
    writeVarint30 o e.symlink.length ++ e.symlink
  else []

/-- Older protocols expect the device number 1-incremented so that it is never zero. -/
def writeInode (o : ListOpts) (x : XFlags) (e : FileEntry) : Bytes :=
  if o.protocolVersion < 30 then
    match e.hlink o with
    | some k => (if x.sameDev then [] else writeLongint (k.1 + 1)) ++ writeLongint k.2
    | none => []
  else []

def writeFileSum (o : ListOpts) (e : FileEntry) : Bytes :=
  if o.alwaysChecksum && isReg e.mode then e.sum else []

/-- What is sent of an entry that is not abbreviated, after its name. -/
def writeEntry (o : ListOpts) (s : Sender) (e : FileEntry) : Bytes :=
  let x := s.xflags o e
  writeVarlong30 o e.length 3 ++ (writeModtime o x e.modtime ++
    ((if x.modNsec then writeVarint (int32 e.modNsec) else []) ++
    ((if x.sameMode then [] else writeInt (int32 e.mode)) ++
    (writeId o o.user x.sameUid e.owner (s.userName o e) ++
    (writeId o o.group x.sameGid e.group (s.groupName o e) ++
    (writeRdev o x e ++ (writeSymlink o e ++ (writeInode o x e ++ writeFileSum o e))))))))

/-- The index of the first member, and all the rest unless that is in this list. -/
def writeMember (o : ListOpts) (s : Sender) (e : FileEntry) : Bytes :=
  match s.firstHlinkNdx o e with
  | some first => writeVarint first ++ if s.ndxStart ≤ first then [] else writeEntry o s e
  | none => writeEntry o s e

def sendFileEntry (o : ListOpts) (s : Sender) (e : FileEntry) : Sender × Bytes :=
  (s.next o e, (s.xflags o e).bytes ++ (writeName o (s.xflags o e) (s.l1 e) e.name ++
    writeMember o s e))

/-! ## The receiver -/

/-- The static variables of `recv_file_entry`, its table of inodes (older protocols) and
    the list that is being received. -/
structure Receiver where
  modtime : ℤ
  mode : ℕ
  dev : ℤ
  rdevMajor : ℕ
  uid : RecvIds
  gid : RecvIds
  lastname : Bytes
  idev : Inode → Option ℤ
  /-- The number of groups so far. -/
  cnt : ℕ
  ndxStart : ℤ
  files : List FileStruct

def Receiver.init (o : ListOpts) : Receiver :=
  ⟨0, 0, 0, 0, ⟨0, []⟩, ⟨0, []⟩, [], fun _ => none, 0, o.ndxStart, []⟩

def readVarint30 (o : ListOpts) : In ℤ :=
  if o.protocolVersion < 30 then readInt else readVarint

def readVarlong30 (o : ListOpts) (minBytes : ℕ) : In ℤ :=
  if o.protocolVersion < 30 then readLongint else readVarlong minBytes

abbrev slashByte : UInt8 := 47
abbrev dotByte : UInt8 := 46

/-- The loop of `clean_fname` with `CFN_REFUSE_DOT_DOT_DIRS`, at the start of an element
    or inside one. -/
def cleanElements : Bool → Bytes → Option Bytes
  | _, [] => some []
  | true, c :: f => (cleanElements (c != slashByte) f).map (c :: ·)
  | false, c :: f =>
    -- extra slashes and interior "." dirs are dropped
    if c = slashByte ∨ c = dotByte ∧ f.head? = some slashByte then cleanElements false f
    else if c = dotByte ∧ f.head? = some dotByte ∧ (f.tail = [] ∨ f.tail.head? = some slashByte) then
      none
    else (cleanElements true f).map (c :: ·)

/-- `clean_fname(name, CFN_REFUSE_DOT_DOT_DIRS)`; `none` is -1. -/
def cleanFname (name : Bytes) : Option Bytes :=
  let anchored := name.take 1 = [slashByte]
  ((if anchored then (cleanElements false name.tail).map (slashByte :: ·)
    else cleanElements false name).map fun t =>
      if (if anchored then 1 else 0) < t.length ∧ t.getLast? = some slashByte then t.dropLast
      else t).map fun t => if t = [] then [dotByte] else t

/-- The name on the wire, and the check for an unsafe one. -/
def checkName (o : ListOpts) (thisname : Bytes) : In Bytes :=
  if thisname = [] then pure thisname
  else match cleanFname thisname with
  | some name =>
    if !o.relativePaths && name.head? = some slashByte then abort else pure name
  | none => abort

def readL1 (x : XFlags) : In ℕ :=
  if x.sameName then do
    let b ← get1
    pure b.toNat
  else pure 0

def readL2 (o : ListOpts) (x : XFlags) : In ℕ :=
  if x.longName then do
    let n ← readVarint30 o
    pure (toUint32 n)
  else do
    let b ← get1
    pure b.toNat

/-- `thisname` as it is on the wire. -/
def readName (o : ListOpts) (x : XFlags) (lastname : Bytes) : In Bytes := do
  let l1 ← readL1 x
  let l2 ← readL2 o x
  if maxPathLen - l1 ≤ l2 then abort
  else do
    let rest ← getN l2
    pure (lastname.take l1 ++ rest)

/-- `first_hlink_ndx` -/
def readFirst (o : ListOpts) (x : XFlags) (used : ℤ) : In ℤ :=
  if 30 ≤ o.protocolVersion && x.hlinked && !x.hlinkFirst then do
    let first ← readVarint
    if first < 0 ∨ used ≤ first then abort else pure first
  else pure (-1)

def readModtime (o : ListOpts) (x : XFlags) (modtime : ℤ) : In ℤ :=
  if x.sameTime then pure modtime
  else if 30 ≤ o.protocolVersion then readVarlong 4
  else readInt

def readModNsec (x : XFlags) : In ℕ :=
  if x.modNsec then do
    let n ← readVarint
    pure (toUint32 n)
  else pure 0

def readMode (x : XFlags) (mode : ℕ) : In ℕ :=
  if x.sameMode then pure mode
  else do
    let n ← readInt
    pure (toUint32 n)

def readRdevMajor (o : ListOpts) (x : XFlags) (rdevMajor : ℕ) : In ℕ :=
  if x.sameRdevMajor then pure rdevMajor
  else do
    let n ← readVarint30 o
    pure (toUint32 n)

def readRdevMinor (o : ListOpts) (x : XFlags) : In ℕ :=
  if 30 ≤ o.protocolVersion then toUint32 <$> readVarint
  else if x.rdevMinor8 then UInt8.toNat <$> get1
  else toUint32 <$> readInt

/-- `rdev_major` and `rdev`; the latter matters for devices only. -/
def readRdev (o : ListOpts) (x : XFlags) (mode rdevMajor : ℕ) : In (ℕ × (ℕ × ℕ)) :=
  if Sender.sendsRdev o mode then do
    let rdevMajor ← readRdevMajor o x rdevMajor
    let rdevMinor ← readRdevMinor o x
    pure (rdevMajor, (rdevMajor, rdevMinor))
  else pure (rdevMajor, (0, 0))

/-- `linkname_len`, without the NUL. -/
def readSymlinkLen (o : ListOpts) (mode : ℕ) : In ℕ :=
  if o.preserveLinks && isLnk mode then do
    let n ← readVarint30 o
    if n < 0 ∨ maxPathLen ≤ n then abort else pure n.toNat
  else pure 0

def checkLength (length : ℤ) : In Unit := if length < 0 then abort else pure ()

def readDev (x : XFlags) (dev : ℤ) : In ℤ := if x.sameDev then pure dev else readLongint

/-- The group number, and `dev` and the table of inodes after it. -/
def readHlGnum (o : ListOpts) (x : XFlags) (first : ℤ) (t : Receiver) : In (Option ℤ × Receiver) :=
  if o.preserveHardLinks && x.hlinked then
    if 30 ≤ o.protocolVersion then
      pure (some (if x.hlinkFirst then t.ndxStart + t.files.length else first), t)
    else do
      let dev ← readDev x t.dev
      let ino ← readLongint
      match t.idev (dev, ino) with
      | some gnum => pure (some gnum, { t with dev := dev })
      | none => pure (some t.cnt, { t with
          dev := dev, idev := Function.update t.idev (dev, ino) (some t.cnt), cnt := t.cnt + 1 })
  else pure (none, t)

def readFileSum (o : ListOpts) (mode : ℕ) : In Bytes :=
  if o.alwaysChecksum && isReg mode then getN o.flistCsumLen else pure []

/-- `F_LENGTH` of what was stored: only regular files have the high half. -/
def fLength (mode : ℕ) (length : ℤ) : ℕ :=
  if isReg mode then length.toNat else length.toNat % 2 ^ 32

/-- The entry joins the list. -/
def Receiver.add (t : Receiver) (f : FileStruct) : FileStruct × Receiver :=
  (f, { t with files := t.files ++ [f] })

/-- An entry that was sent in full. -/
def readEntry (o : ListOpts) (x : XFlags) (name : Bytes) (first : ℤ) (t : Receiver) :
    In (FileStruct × Receiver) := do
  let length ← readVarlong30 o 3
  let modtime ← readModtime o x t.modtime
  let modNsec ← readModNsec x
  let mode ← readMode x t.mode
  let uid ← readId o o.user x.sameUid (30 ≤ o.protocolVersion && x.sameDev) t.uid
  let gid ← readId o o.group x.sameGid (30 ≤ o.protocolVersion && x.rdevMinor8) t.gid
  let (rdevMajor, rdev) ← readRdev o x mode t.rdevMajor
  let length := if Sender.sendsRdev o mode then 0 else length
  let linkLen ← readSymlinkLen o mode
  let _ ← checkLength length
  let symlink ← getN linkLen
  let (hlGnum, t) ← readHlGnum o x first { t with
    modtime := modtime, mode := mode, uid := uid, gid := gid, rdevMajor := rdevMajor }
  let sum ← readFileSum o mode
  pure (t.add ⟨name, mode, fLength mode length, modtime, modNsec, if o.user.preserve then uid.id else 0,
    if o.group.preserve then gid.id else 0, if o.preserveDevices && isDevice mode then rdev else (0, 0),
    symlink, hlGnum, sum⟩)

/-- An abbreviated entry: all but the name is the first member's; `rdev_major` stays. -/
def linkEntry (o : ListOpts) (x : XFlags) (name : Bytes) (first : ℤ) (f : FileStruct) (t : Receiver) :
    In (FileStruct × Receiver) := do
  let (hlGnum, t) ← readHlGnum o x first { t with
    modtime := f.modtime, mode := f.mode,
    uid := ⟨if o.user.preserve then f.owner else t.uid.id, t.uid.list⟩,
    gid := ⟨if o.group.preserve then f.group else t.gid.id, t.gid.list⟩ }
  pure (t.add { f with name := name, hlGnum := hlGnum })

/-- The rest of an entry whose group's first member is `first`, or -1. -/
def readMember (o : ListOpts) (x : XFlags) (name : Bytes) (first : ℤ) (t : Receiver) :
    In (FileStruct × Receiver) :=
  if t.ndxStart ≤ first then
    match t.files[(first - t.ndxStart).toNat]? with
    | some f => linkEntry o x name first f t
    | none => abort
  else readEntry o x name first t

def recvFileEntry (o : ListOpts) (t : Receiver) : In (FileStruct × Receiver) := do
  let x ← readFlags
  let thisname ← readName o x t.lastname
  let name ← checkName o thisname
  let first ← readFirst o x (t.ndxStart + t.files.length)
  readMember o x name first { t with lastname := thisname }

/-! ## Lists -/

/-- With incremental recursion the entries come in several lists. -/
inductive ListItem
  | entry (e : FileEntry)
  | nextList

/-- What the other side knows it is going to read. -/
inductive ListItemKind
  | entry
  | nextList

def ListItem.kind : ListItem → ListItemKind
  | .entry _ => .entry
  | .nextList => .nextList

/-- `flist_new` -/
def Sender.nextList (s : Sender) : Sender :=
  { s with ndxStart := s.ndxStart + s.used + 1, used := 0 }

def Receiver.nextList (t : Receiver) : Receiver :=
  { t with ndxStart := t.ndxStart + t.files.length + 1, files := [] }

def sendItem (o : ListOpts) (s : Sender) : ListItem → Sender × Bytes
  | .entry e => sendFileEntry o s e
  | .nextList => (s.nextList, [])

/-- The entry that was read; a new list has none. -/
def recvItem (o : ListOpts) (k : ListItemKind) (t : Receiver) : In (Option FileStruct × Receiver) :=
  match k with
  | .entry => do
    let (f, t) ← recvFileEntry o t
    pure (some f, t)
  | .nextList => pure (none, t.nextList)

def sendItems (o : ListOpts) : Sender → List ListItem → Sender × Bytes
  | s, [] => (s, [])
  | s, i :: is =>
    let (s', ws) := sendItem o s i
    let (s'', wss) := sendItems o s' is
    (s'', ws ++ wss)

end CloudEdgeBackup
