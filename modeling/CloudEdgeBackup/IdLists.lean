/-
  The names of users and groups on the wire (`uidlist.c`).

  * `parseNameMap`: a `--usermap` or `--groupmap` argument, read from its end into a list of
    nodes; `mapRules` is the same argument in the order the user wrote it;
  * `Mapper.recvAddId`, `Mapper.matchId`: `recv_add_id` and `match_uid` with its static `last`;
  * `sendIdList`, `recvIdList`: the names of all ids after a file list; `idFields` and
    `recvIdFields`: the ids of the entries with their names inline, for incremental recursion;
  * `LocalId` says which local id an id has, without any list.

  A name's length is sent in one byte, so the two sides agree exactly as long as every name that
  is sent has at most 255 bytes.
-/
import CloudEdgeBackup.FileEntryRoundTrip
import CloudEdgeBackup.Lib.Format

namespace CloudEdgeBackup

open Codec Cfmt

abbrev commaByte : UInt8 := 44
abbrev colonByte : UInt8 := 58
abbrev dashByte : UInt8 := 45

/-! ## The map of a user -/

/-- The loop of `id_parse`: a sum that wraps to less than the last one is refused. -/
def idParseLoop (num : ℕ) : Bytes → Option ℕ
  | [] => some num
  | c :: cs =>
    if !isDigit c then none
    else
      let tmp := (num * 10 + (c.toNat - 48)) % 2 ^ 32
      if tmp < num then none else idParseLoop tmp cs

/-- `id_parse`; the process exits where the result is `none`. -/
def idParse (numStr : Bytes) : Option ℕ := idParseLoop 0 numStr

/-- What a node of `uidmap` or `gidmap` is compared with: its `u`, `id` and `flags`. -/
inductive MapKey
  /-- `NFLAGS_WILD_NAME_MATCH` -/
  | wild (pattern : Bytes)
  /-- `NFLAGS_NAME_MATCH` -/
  | name (name : Bytes)
  | ids (id maxId : ℕ)
deriving DecidableEq

/-- A node of `uidmap` or `gidmap`. -/
structure MapNode where
  key : MapKey
  id2 : ℕ
deriving DecidableEq

/-- `user_to_uid`, `group_to_gid`, over what `getpwnam` or `getgrnam` finds. -/
def userToUid (idOf : Bytes → Option ℕ) (name : Bytes) (numOk : Bool) : Option (Option ℕ) :=
  if name = [] then some none
  else if numOk && name.all isDigit then (idParse name).map some
  else some (idOf name)

/-- The part of a rule before its colon. -/
def mapKey (cp : Bytes) : Option MapKey :=
  if cp.head?.any isDigit then
    if !cp.all (fun c => isDigit c || c = dashByte) then none
    else match cp.dropWhile (· ≠ dashByte) with
      | [] => (idParse cp).map fun id => .ids id 0
      | _ :: hi =>
        if hi = [] ∨ dashByte ∈ hi then none
        else do
          let maxId ← idParse hi
          let id ← idParse (cp.takeWhile (· ≠ dashByte))
          pure (.ids id maxId)
  else if cp.any (fun c => c = 42 || c = 91 || c = 63) then some (.wild cp)
  else some (.name cp)

/-- One rule; there is no node where the receiver does not know the name behind the colon. -/
def mapEntry (idOf : Bytes → Option ℕ) (cp : Bytes) : Option (Option MapNode) :=
  match cp.dropWhile (· ≠ colonByte) with
  | [] => none
  | _ :: name =>
    if name = [] then none
    else do
      let key ← mapKey (cp.takeWhile (· ≠ colonByte))
      let id2 ← userToUid idOf name true
      pure (id2.map (MapNode.mk key))

/-- The loop of `parse_name_map` over the text before `cp`, with the nodes found behind it. -/
def parseNameMapLoop (idOf : Bytes → Option ℕ) :
    ℕ → Bytes → List MapNode → Option (List MapNode)
  | 0, _, _ => none
  | fuel + 1, map, idmap => do
    let node ← mapEntry idOf (map.rtakeWhile (· ≠ commaByte))
    let before := map.rdropWhile (· ≠ commaByte)
    let idmap' := node.toList ++ idmap
    if before = [] then pure idmap' else parseNameMapLoop idOf fuel before.dropLast idmap'

/-- `parse_name_map`, without the node for the id 0. -/
def parseNameMap (idOf : Bytes → Option ℕ) (map : Bytes) : Option (List MapNode) :=
  parseNameMapLoop idOf (map.length + 1) map []

/-- The rules in the order in which they are written. -/
def mapRules (idOf : Bytes → Option ℕ) (map : Bytes) : Option (List MapNode) :=
  ((map.splitOn commaByte).mapM (mapEntry idOf)).map List.reduceOption

/-! ## The receiver's tables -/

/-- Whether the loop of `recv_add_id` stops at a node. -/
def MapNode.covers (wildmatch : Bytes → Bytes → Bool) (n : MapNode) (id : ℕ) (name : Bytes) :
    Bool :=
  match n.key with
  | .wild pattern => wildmatch pattern name
  | .name s => s = name
  | .ids lo hi => if hi ≠ 0 then lo ≤ id && id ≤ hi else lo = id

/-- A node of `uidlist` or `gidlist`. -/
structure IdNode where
  id : ℕ
  name : Option Bytes
  id2 : ℕ
deriving DecidableEq

/-- `uidlist` or `gidlist`, with the static `last` of `match_uid` or `match_gid`. -/
structure IdList where
  nodes : List IdNode
  last : Option IdNode

/-- What the receiver looks ids up with. -/
structure Mapper where
  wildmatch : Bytes → Bytes → Bool
  /-- `getpwnam`, `getgrnam` -/
  idOf : Bytes → Option ℕ
  /-- `uidmap`, `gidmap` -/
  idmap : List MapNode

namespace Mapper

variable (m : Mapper)

/-- The `id2` of `recv_add_id`. -/
def addedId (id : ℕ) (name : Option Bytes) : ℕ :=
  match m.idmap.find? (·.covers m.wildmatch id (name.getD [])) with
  | some node => node.id2
  | none => if name.getD [] ≠ [] ∧ id ≠ 0 then (m.idOf (name.getD [])).getD id else id

/-- `recv_add_id` -/
def recvAddId (l : IdList) (id : ℕ) (name : Option Bytes) : IdNode × IdList :=
  let node : IdNode := ⟨id, name, m.addedId id name⟩
  (node, { l with nodes := node :: l.nodes })

/-- `match_uid`, `match_gid` -/
def matchId (l : IdList) (id : ℕ) : ℕ × IdList :=
  match l.last.filter (·.id = id) with
  | some node => (node.id2, l)
  | none =>
    match l.nodes.find? (·.id = id) with
    | some node => (node.id2, { l with last := some node })
    | none =>
      let (node, l') := m.recvAddId l id none
      (node.id2, { l' with last := some node })

/-- `match_uid` or `match_gid` for one id after the other. -/
def matchIds : IdList → List ℕ → List ℕ × IdList
  | l, [] => ([], l)
  | l, id :: ids =>
    let (id2, l₁) := m.matchId l id
    let (id2s, l₂) := matchIds l₁ ids
    (id2 :: id2s, l₂)

end Mapper

/-! ## The two sides -/

inductive IdKind
  | user
  | group
deriving DecidableEq

/-- The options of a transfer and what both machines know of their users and groups. -/
structure IdSetup where
  base : ListOpts
  /-- `--numeric-ids` -/
  numericIds : Bool
  /-- A daemon's "numeric ids" parameter, on the sending and the receiving side. -/
  senderForced : Bool
  receiverForced : Bool
  /-- The receiver's `am_root`. -/
  amRoot : Bool
  preserve : IdKind → Bool
  preserveAcls : Bool
  /-- `uid_to_user`, `gid_to_group` on the sending side. -/
  senderName : IdKind → ℕ → Option Bytes
  /-- `uid_to_user`, `gid_to_group` on the receiving side. -/
  nameOf : IdKind → ℕ → Option Bytes
  /-- `getpwnam`, `getgrnam` on the receiving side. -/
  idOf : IdKind → Bytes → Option ℕ
  /-- `usermap`, `groupmap` -/
  map : IdKind → Option Bytes
  wildmatch : Bytes → Bytes → Bool

namespace IdSetup

variable (x : IdSetup)

/-- `numeric_ids` on the sending side. -/
def senderNumeric : ℤ := if x.numericIds then 1 else if x.senderForced then -1 else 0

/-- `numeric_ids` on the receiving side. -/
def receiverNumeric : ℤ := if x.numericIds then 1 else if x.receiverForced then -1 else 0

/-- Whether the receiver looks up ids that come without a name. -/
def mapsIds : IdKind → Bool
  | .user => x.amRoot && (x.receiverNumeric = 0 || (x.map .user).isSome)
  | .group => !x.amRoot || x.receiverNumeric = 0 || (x.map .group).isSome

/-- Whether the ids of a kind are named after the file list. -/
def listed (k : IdKind) : Bool := x.preserve k || x.preserveAcls

/-- The name `recv_user_name` goes on with. -/
def keptName (name : Bytes) : Option Bytes := if x.receiverNumeric < 0 then none else some name

/-- The tables when the file list starts: a map is parsed, and the id 0 is named. -/
def start (k : IdKind) : Option (Mapper × IdList) :=
  match x.map k with
  | none => some (⟨x.wildmatch, x.idOf k, []⟩, ⟨[], none⟩)
  | some map => do
    let idmap ← parseNameMap (x.idOf k) map
    let m : Mapper := ⟨x.wildmatch, x.idOf k, idmap⟩
    let name := if x.receiverNumeric ≠ 0 then none else x.nameOf k 0
    pure (m, (m.recvAddId ⟨[], none⟩ 0 name).2)

end IdSetup

/-! ## The list after the entries -/

/-- A sender's `uidlist` or `gidlist`: `add_uid` adds an id once and never the id 0. -/
structure IdTable where
  nodes : List (ℕ × Option Bytes)
  distinct : (nodes.map Prod.fst).Nodup
  nonzero : ∀ n ∈ nodes, n.1 ≠ 0
  lt : ∀ n ∈ nodes, n.1 < 2 ^ 32

/-- The ids that have a name, with their names. -/
def IdTable.named (t : IdTable) : List (ℕ × Bytes) :=
  t.nodes.filterMap fun n => n.2.map fun name => (n.1, name)

theorem IdTable.distinct_cons {t : IdTable} {id : ℕ} (name : Option Bytes)
    (h : ¬ (id = 0 ∨ id ∈ t.nodes.map Prod.fst)) : (((id, name) :: t.nodes).map Prod.fst).Nodup :=
  List.nodup_cons.2 ⟨fun hin => h (.inr hin), t.distinct⟩

theorem IdTable.nonzero_cons {t : IdTable} {id : ℕ} (name : Option Bytes)
    (h : ¬ (id = 0 ∨ id ∈ t.nodes.map Prod.fst)) : ∀ n ∈ (id, name) :: t.nodes, n.1 ≠ 0 := by
  intro n hn
  rcases List.mem_cons.1 hn with rfl | hn
  · exact fun h0 => h (.inl h0)
  · exact t.nonzero n hn

theorem IdTable.lt_cons {t : IdTable} {id : ℕ} (name : Option Bytes) (h : id < 2 ^ 32) :
    ∀ n ∈ (id, name) :: t.nodes, n.1 < 2 ^ 32 := by
  intro n hn
  rcases List.mem_cons.1 hn with rfl | hn
  · exact h
  · exact t.lt n hn

/-- `add_uid`, `add_gid`: the name of an id that is new, and the table after it. -/
def IdTable.add (t : IdTable) (names : ℕ → Option Bytes) (id : ℕ) (hid : id < 2 ^ 32) :
    Option Bytes × IdTable :=
  if h : id = 0 ∨ id ∈ t.nodes.map Prod.fst then (none, t)
  else (names id, ⟨(id, names id) :: t.nodes, IdTable.distinct_cons _ h,
    IdTable.nonzero_cons _ h, IdTable.lt_cons _ hid⟩)

/-- A table holds the ids that the sender of the entries has seen. -/
theorem IdTable.add_eq (t : IdTable) (i : IdOpts) {id : ℕ} (hid : id < 2 ^ 32) :
    addId i (t.nodes.map Prod.fst) id =
      ((t.add i.name id hid).1, (t.add i.name id hid).2.nodes.map Prod.fst) := by
  rw [addId, IdTable.add]
  split_ifs <;> rfl

def writeIdPair (o : ListOpts) (p : ℕ × Bytes) : Bytes :=
  writeVarint30 o (int32 p.1) ++ writeIdName (some p.2)

/-- One of the two loops of `send_id_list`. -/
def writeIdNodes (o : ListOpts) : List (ℕ × Option Bytes) → Bytes
  | [] => writeVarint30 o 0
  | (id, some name) :: nodes => writeIdPair o (id, name) ++ writeIdNodes o nodes
  | (_, none) :: nodes => writeIdNodes o nodes

/-- `send_id_list`, where the file list's sender calls it. -/
def IdSetup.sendIdList (x : IdSetup) (tables : IdKind → IdTable) : Bytes :=
  if 0 < x.senderNumeric then []
  else
    (if x.listed .user then writeIdNodes x.base (tables .user).nodes else []) ++
      (if x.listed .group then writeIdNodes x.base (tables .group).nodes else [])

/-- The name `recv_user_name` and `recv_group_name` read. -/
def readByteName : In Bytes := do
  let len ← get1
  getN len.toNat

/-- The pairs one loop of `recv_id_list` reads. -/
def readIdPairs (o : ListOpts) : ℕ → In (List (ℕ × Bytes))
  | 0 => abort
  | fuel + 1 => do
    let id ← readVarint30 o
    if toUint32 id = 0 then pure []
    else do
      let name ← readByteName
      let pairs ← readIdPairs o fuel
      pure ((toUint32 id, name) :: pairs)

/-- Every pair takes at least a byte, so the loop ends with the stream. -/
def readIdList (o : ListOpts) : In (List (ℕ × Bytes)) := fun s => readIdPairs o (s.length + 1) s

namespace IdSetup

variable (x : IdSetup)

/-- `recv_user_name`, `recv_group_name` for the pairs of a list. -/
def recvNames (m : Mapper) (l : IdList) (pairs : List (ℕ × Bytes)) : IdList :=
  pairs.foldl (fun l p => (m.recvAddId l p.1 (x.keptName p.2)).2) l

/-- What `recv_id_list` reads and what it makes of the ids it is given. -/
structure Received where
  userNames : List (ℕ × Bytes)
  groupNames : List (ℕ × Bytes)
  acls : List ℕ
  owners : List ℕ
  groups : List ℕ
deriving DecidableEq

/-- `match_acl_ids`, for the ids of all access control lists. -/
def matchAclIds (mu mg : Mapper) : IdList → IdList → List (IdKind × ℕ) → List ℕ × IdList × IdList
  | u, g, [] => ([], u, g)
  | u, g, (.user, id) :: acls =>
    let (id2, u') := mu.matchId u id
    let (id2s, r) := matchAclIds mu mg u' g acls
    (id2 :: id2s, r)
  | u, g, (.group, id) :: acls =>
    let (id2, g') := mg.matchId g id
    let (id2s, r) := matchAclIds mu mg u g' acls
    (id2 :: id2s, r)

/-- The call of `match_acl_ids` in `recv_id_list`. -/
def convertAcls (mu mg : Mapper) (u g : IdList) (acls : List (IdKind × ℕ)) :
    List ℕ × IdList × IdList :=
  if x.preserveAcls && (x.receiverNumeric = 0 || (x.map .user).isSome || (x.map .group).isSome)
  then matchAclIds mu mg u g acls else (acls.map Prod.snd, u, g)

/-- The part of `recv_id_list` after its two loops. -/
def convertIds (mu mg : Mapper) (u g : IdList) (userNames groupNames : List (ℕ × Bytes))
    (acls : List (IdKind × ℕ)) (owners groups : List ℕ) : Received :=
  let aclIds := x.convertAcls mu mg u g acls
  ⟨userNames, groupNames, aclIds.1,
    if x.preserve .user && x.mapsIds .user then (mu.matchIds aclIds.2.1 owners).1 else owners,
    if x.preserve .group && x.mapsIds .group then (mg.matchIds aclIds.2.2 groups).1 else groups⟩

/-- One of the two loops of `recv_id_list`. -/
def readNames (k : IdKind) : In (List (ℕ × Bytes)) :=
  if x.listed k && x.receiverNumeric ≤ 0 then readIdList x.base else pure []

/-- `recv_id_list`, from the tables the maps leave. -/
def recvIdList (u g : Mapper × IdList) (acls : List (IdKind × ℕ)) (owners groups : List ℕ) :
    In Received := do
  let userNames ← x.readNames .user
  let groupNames ← x.readNames .group
  pure (x.convertIds u.1 g.1 (x.recvNames u.1 u.2 userNames) (x.recvNames g.1 g.2 groupNames)
    userNames groupNames acls owners groups)

/-- A receiver's tables and list; it exits where a map cannot be parsed. -/
def recvIds (acls : List (IdKind × ℕ)) (owners groups : List ℕ) : In Received := do
  let u ← StateT.lift (x.start .user)
  let g ← StateT.lift (x.start .group)
  x.recvIdList u g acls owners groups

end IdSetup

/-! ## The ids inside the entries -/

/-- The field of an id in an entry, with what the entry's flags say about it. -/
structure IdField where
  same : Bool
  follows : Bool
  bytes : Bytes

namespace IdSetup

variable (x : IdSetup) (k : IdKind)

def listOpts : ListOpts := { x.base with numericIds := x.senderNumeric ≠ 0 }

/-- What the sender has to know about a kind of ids; it looks up no local id. -/
def senderOpts : IdOpts := ⟨x.preserve k, x.senderName k, x.mapsIds k, fun id _ => id⟩

/-- The fields of a run of entries, each of which is given by an id and its file's name. -/
def idFields : SentIds → Bytes → List (ℕ × Bytes) → List IdField
  | _, _, [] => []
  | s, lastname, (id, fname) :: entries =>
    let same := s.same (x.senderOpts k) id lastname
    let r := s.next x.listOpts (x.senderOpts k) id lastname
    ⟨same, r.1.isSome, writeId x.listOpts (x.senderOpts k) same id r.1⟩ ::
      idFields r.2 fname entries

/-- The name after an id, or what stands for it: the name it reads, the static `uid` of
    `recv_file_entry` and its list. -/
def recvIdName (m : Mapper) (follows : Bool) (l : IdList) (id : ℕ) :
    In (Option Bytes × ℕ × IdList) :=
  if follows then do
    let name ← readByteName
    let (node, l') := m.recvAddId l id (x.keptName name)
    pure (some name, node.id2, l')
  else if x.base.incRecurse && x.mapsIds k then pure (none, m.matchId l id)
  else pure (none, id, l)

/-- The part of `recv_file_entry` for an id. -/
def recvIdField (m : Mapper) (same follows : Bool) (t : ℕ × IdList) :
    In (Option Bytes × ℕ × IdList) :=
  if x.preserve k && !same then
    if x.base.protocolVersion < 30 then do
      let id ← readInt
      pure (none, toUint32 id, t.2)
    else do
      let id ← readVarint
      x.recvIdName k m follows t.2 (toUint32 id)
  else pure (none, t)

/-- The ids of a run of entries, with the names that are read. -/
def recvIdFields (m : Mapper) : List (Bool × Bool) → ℕ × IdList → In (List (ℕ × Option Bytes))
  | [], _ => pure []
  | (same, follows) :: fields, t => do
    let (name, t') ← x.recvIdField k m same follows t
    let ids ← recvIdFields m fields t'
    pure ((t'.1, name) :: ids)

/-- A receiver's table, and its entries. -/
def recvInline (fields : List IdField) : In (List (ℕ × Option Bytes)) := do
  let t ← StateT.lift (x.start k)
  x.recvIdFields k t.1 (fields.map fun f => (f.same, f.follows)) (0, t.2)

end IdSetup

/-! ## What a local id is -/

namespace IdSetup

variable (x : IdSetup) (k : IdKind)

/-- The rules of the user, in the order they are written. -/
def rules : Option (List MapNode) :=
  match x.map k with
  | none => some []
  | some map => mapRules (x.idOf k) map

/-- The local id of an id whose name is known, or is empty: the target of the first rule that
    covers it, else the id of the name here, else the id itself. -/
inductive LocalId (rules : List MapNode) (id : ℕ) (name : Bytes) : ℕ → Prop
  | rule {before after : List MapNode} {r : MapNode} : rules = before ++ r :: after →
      r.covers x.wildmatch id name = true →
      (∀ q ∈ before, q.covers x.wildmatch id name = false) → LocalId rules id name r.id2
  | name {id2 : ℕ} : (∀ q ∈ rules, q.covers x.wildmatch id name = false) → name ≠ [] → id ≠ 0 →
      x.idOf k name = some id2 → LocalId rules id name id2
  | self : (∀ q ∈ rules, q.covers x.wildmatch id name = false) →
      (name = [] ∨ id = 0 ∨ x.idOf k name = none) → LocalId rules id name id

/-- The name the receiver knows an id by, when the sender tells it the names `sent`. -/
def known (sent : ℕ → Option Bytes) (id : ℕ) : Option Bytes :=
  if id = 0 then if x.receiverNumeric = 0 then x.nameOf k 0 else none
  else if x.receiverNumeric < 0 then none else sent id

/-- Every id has become its local id, the same one wherever it occurs. -/
def Mapped (rules : List MapNode) (sent : ℕ → Option Bytes) (ids id2s : List ℕ) : Prop :=
  ∃ f : ℕ → ℕ, id2s = ids.map f ∧
    ∀ id, x.LocalId k rules id ((x.known k sent id).getD []) (f id)

/-- The pairs of a table that are sent after the entries. -/
def sentPairs (tables : IdKind → IdTable) : List (ℕ × Bytes) :=
  if 0 < x.senderNumeric ∨ x.listed k = false then [] else (tables k).named

/-- The name the sender gives inline with the first entry of an id. -/
def inlineName (id : ℕ) : Option Bytes := if x.senderNumeric = 0 then x.senderName k id else none

/-- The lists after the entries: the same pairs, nothing of what follows is read, and the ids of
    the entries are local. -/
def ListsAgree (ru rg : List MapNode) (tables : IdKind → IdTable) (acls : List (IdKind × ℕ))
    (owners groups : List ℕ) : Prop :=
  ∃ r, Reads (x.recvIds acls owners groups) (x.sendIdList tables) r ∧
    r.userNames = x.sentPairs .user tables ∧ r.groupNames = x.sentPairs .group tables ∧
    (x.amRoot = true → x.preserve .user = true →
      x.Mapped .user ru (fun id => (x.sentPairs .user tables).lookup id) owners r.owners) ∧
    (x.preserve .group = true →
      x.Mapped .group rg (fun id => (x.sentPairs .group tables).lookup id) groups r.groups)

/-- The names the sender writes into the entries. -/
def inlineNames : SentIds → Bytes → List (ℕ × Bytes) → List (Option Bytes)
  | _, _, [] => []
  | s, lastname, (id, fname) :: entries =>
    let r := s.next x.listOpts (x.senderOpts k) id lastname
    r.1 :: inlineNames r.2 fname entries

/-- The names inside the entries: the same names, nothing of what follows is read, and the ids
    are local. -/
def InlineAgrees (rules : List MapNode) (entries : List (ℕ × Bytes)) : Prop :=
  ∃ r, Reads (x.recvInline k (x.idFields k ⟨0, []⟩ [] entries))
      ((x.idFields k ⟨0, []⟩ [] entries).flatMap IdField.bytes) r ∧
    r.map Prod.snd = x.inlineNames k ⟨0, []⟩ [] entries ∧
    x.Mapped k rules (x.inlineName k) (entries.map Prod.fst) (r.map Prod.fst)

end IdSetup

/-! ## The order of the rules -/

theorem splitOn_of_notMem {α : Type} [DecidableEq α] {c : α} {s : List α} (h : c ∉ s) :
    s.splitOn c = [s] := by
  apply List.splitOnP_eq_singleton
  intro a ha
  rw [beq_eq_false_iff_ne]
  exact fun heq => h (heq ▸ ha)

/-- What stands behind the last separator is the last piece. -/
theorem splitOn_last {α : Type} [DecidableEq α] {c : α} (s : List α) :
    s.splitOn c = (if s.rdropWhile (· ≠ c) = [] then []
      else (s.rdropWhile (· ≠ c)).dropLast.splitOn c) ++ [s.rtakeWhile (· ≠ c)] := by
  have happ := List.rdropWhile_append_rtakeWhile (p := fun a => decide (a ≠ c)) (l := s)
  have hlast : c ∉ s.rtakeWhile (· ≠ c) := by
    intro hmem
    simpa using List.mem_rtakeWhile_imp hmem
  by_cases hnil : s.rdropWhile (· ≠ c) = []
  · rw [if_pos hnil, List.nil_append]
    rw [hnil, List.nil_append] at happ
    rw [happ] at hlast ⊢
    exact splitOn_of_notMem hlast
  · rw [if_neg hnil]
    have hc : (s.rdropWhile (· ≠ c)).getLast hnil = c := by
      have := List.rdropWhile_last_not (fun a => decide (a ≠ c)) s hnil
      simpa using this
    have hdrop := List.dropLast_append_getLast hnil
    rw [hc] at hdrop
    rw [← hdrop, List.append_assoc] at happ
    conv_lhs => rw [← happ]
    rw [List.splitOn, List.cons_append, List.nil_append, List.splitOnP_append_cons _ _ (by simp),
      ← List.splitOn, ← List.splitOn, splitOn_of_notMem hlast]

theorem mapM_reduce_concat {α β : Type} (f : α → Option (Option β)) (l : List α) (a : α) :
    ((l ++ [a]).mapM f).map List.reduceOption =
      ((l.mapM f).map List.reduceOption).bind fun bs => (f a).map fun b => bs ++ b.toList := by
  rw [List.mapM_append]
  cases l.mapM f with
  | none => rfl
  | some bs =>
    cases hb : f a with
    | none => simp [hb]
    | some b => cases b <;> simp [hb, List.reduceOption_append]

/-- **The rules keep their order.**  Parsing a map from its end gives the nodes in the order in
    which their rules are written. -/
theorem parseNameMapLoop_eq (idOf : Bytes → Option ℕ) {fuel : ℕ} {map : Bytes}
    (hfuel : map.length < fuel) (idmap : List MapNode) :
    parseNameMapLoop idOf fuel map idmap = (mapRules idOf map).map (· ++ idmap) := by
  induction fuel generalizing map idmap with
  | zero => omega
  | succ fuel ih =>
    have hlen := congrArg List.length
      (List.rdropWhile_append_rtakeWhile (p := fun a => decide (a ≠ commaByte)) (l := map))
    rw [List.length_append] at hlen
    rw [parseNameMapLoop, mapRules, splitOn_last map, mapM_reduce_concat]
    cases mapEntry idOf (map.rtakeWhile (· ≠ commaByte)) with
    | none => simp
    | some node =>
      by_cases hnil : map.rdropWhile (· ≠ commaByte) = []
      · rw [hnil, if_pos rfl]
        rfl
      · have hpos := List.length_pos_iff.2 hnil
        have hrec := @ih (map.rdropWhile (· ≠ commaByte)).dropLast
          (by rw [List.length_dropLast]; omega) (node.toList ++ idmap)
        simp only [Option.bind_eq_bind, Option.bind_some, if_neg hnil, hrec]
        rw [← mapRules]
        cases mapRules idOf (map.rdropWhile (· ≠ commaByte)).dropLast <;> simp

theorem parseNameMap_eq (idOf : Bytes → Option ℕ) (map : Bytes) :
    parseNameMap idOf map = mapRules idOf map := by
  rw [parseNameMap, parseNameMapLoop_eq idOf (Nat.lt_succ_self _)]
  simp

/-! ## One local id -/

namespace IdSetup

variable (x : IdSetup) (k : IdKind)

/-- The receiver's look-ups, once its map is read. -/
def mapper (rules : List MapNode) : Mapper := ⟨x.wildmatch, x.idOf k, rules⟩

/-- The receiver's first nodes: with a map the id 0 is named at once. -/
def firstNodes (rules : List MapNode) : List IdNode :=
  if (x.map k).isSome then
    [⟨0, x.known k (fun _ => none) 0,
      (x.mapper k rules).addedId 0 (x.known k (fun _ => none) 0)⟩]
  else []

variable {x : IdSetup} {k : IdKind} {rules : List MapNode}

theorem start_eq (h : x.rules k = some rules) :
    x.start k = some (x.mapper k rules, ⟨x.firstNodes k rules, none⟩) := by
  rw [IdSetup.rules] at h
  cases hmap : x.map k with
  | none =>
    rw [hmap, Option.some.injEq] at h
    subst h
    rw [start, hmap]
    simp [firstNodes, mapper, hmap]
  | some map =>
    rw [hmap] at h
    rw [start, hmap]
    simp only [parseNameMap_eq, h, Option.bind_eq_bind, Option.bind_some, firstNodes, mapper, hmap,
      Option.isSome_some, if_true, Mapper.recvAddId, known]
    by_cases hnum : x.receiverNumeric = 0 <;> simp [hnum]

theorem rules_of_none (h : x.rules k = some rules) (hmap : x.map k = none) : rules = [] := by
  rw [IdSetup.rules, hmap, Option.some.injEq] at h
  exact h.symm

theorem addedId_eq (id : ℕ) (name : Option Bytes) :
    (x.mapper k rules).addedId id name =
      match rules.find? (·.covers x.wildmatch id (name.getD [])) with
      | some node => node.id2
      | none => if name.getD [] ≠ [] ∧ id ≠ 0 then (x.idOf k (name.getD [])).getD id else id := rfl

theorem find_none {id : ℕ} {name : Bytes}
    (h : ∀ q ∈ rules, q.covers x.wildmatch id name = false) :
    rules.find? (·.covers x.wildmatch id name) = none :=
  List.find?_eq_none.2 fun q hq => by simpa using h q hq

/-- What `recv_add_id` finds is the local id. -/
theorem addedId_localId (id : ℕ) (name : Option Bytes) :
    x.LocalId k rules id (name.getD []) ((x.mapper k rules).addedId id name) := by
  rw [addedId_eq]
  cases hfind : rules.find? (·.covers x.wildmatch id (name.getD [])) with
  | some node =>
    obtain ⟨hcov, before, after, hsplit, hbefore⟩ := List.find?_eq_some_iff_append.1 hfind
    exact .rule hsplit hcov fun q hq => by simpa using hbefore q hq
  | none =>
    have hno : ∀ q ∈ rules, q.covers x.wildmatch id (name.getD []) = false := by
      intro q hq
      simpa using List.find?_eq_none.1 hfind q hq
    by_cases hname : name.getD [] ≠ [] ∧ id ≠ 0
    · simp only [if_pos hname]
      cases hid : x.idOf k (name.getD []) with
      | some id2 => exact .name hno hname.1 hname.2 hid
      | none => exact .self hno (.inr (.inr hid))
    · simp only [if_neg hname]
      rcases not_and_or.1 hname with hempty | hzero
      · exact .self hno (.inl (not_not.1 hempty))
      · exact .self hno (.inr (.inl (not_not.1 hzero)))

/-- An id has one local id. -/
theorem localId_iff {id n : ℕ} {name : Option Bytes} :
    x.LocalId k rules id (name.getD []) n ↔ n = (x.mapper k rules).addedId id name := by
  constructor
  · intro h
    rw [addedId_eq]
    cases h with
    | @rule before after r hsplit hcov hbefore =>
      have hfind : rules.find? (·.covers x.wildmatch id (name.getD [])) = some r :=
        List.find?_eq_some_iff_append.2
          ⟨hcov, before, after, hsplit, fun q hq => by simpa using hbefore q hq⟩
      rw [hfind]
    | name hno hname hid hfound =>
      rw [find_none hno]
      simp only [hfound, Option.getD_some]
      rw [if_pos ⟨hname, hid⟩]
    | self hno hwhy =>
      rw [find_none hno]
      by_cases hname : name.getD [] ≠ [] ∧ id ≠ 0
      · rcases hwhy with hempty | hzero | hunknown
        · exact absurd hempty hname.1
        · exact absurd hzero hname.2
        · simp only [if_pos hname, hunknown, Option.getD_none]
      · simp only [if_neg hname]
  · rintro rfl
    exact addedId_localId id name

/-- Without a map the id 0 stays 0. -/
theorem addedId_zero (name : Option Bytes) : (x.mapper k []).addedId 0 name = 0 := by
  simp [Mapper.addedId, mapper]

theorem addedId_unknown (id : ℕ) : (x.mapper k []).addedId id none = id := by
  simp [Mapper.addedId, mapper]

end IdSetup

/-! ## Look-ups -/

/-- Every node has the local id of its id, under the names that are known in the end. -/
structure IdList.Right (m : Mapper) (known : ℕ → Option Bytes) (l : IdList) : Prop where
  nodes : ∀ n ∈ l.nodes, n.id2 = m.addedId n.id (known n.id)
  last : ∀ n, l.last = some n → n.id2 = m.addedId n.id (known n.id)

/-- An id that has no node yet needs no name to be looked up. -/
def IdList.Ready (m : Mapper) (known : ℕ → Option Bytes) (l : IdList) (id : ℕ) : Prop :=
  (∀ n ∈ l.nodes, n.id ≠ id) → m.addedId id none = m.addedId id (known id)

namespace IdList

variable {m : Mapper} {known : ℕ → Option Bytes} {l : IdList} {id : ℕ}

theorem Right.add (h : l.Right m known) {name : Option Bytes}
    (hname : m.addedId id name = m.addedId id (known id)) :
    (m.recvAddId l id name).2.Right m known := by
  refine ⟨?_, h.last⟩
  intro n hn
  rcases List.mem_cons.1 hn with rfl | hn
  · exact hname
  · exact h.nodes n hn

/-- The last hit and the first node found both have the local id, and so has a new node. -/
theorem Right.matchId (h : l.Right m known) (hid : l.Ready m known id) :
    (m.matchId l id).1 = m.addedId id (known id) ∧ (m.matchId l id).2.Right m known ∧
      ∀ n ∈ l.nodes, n ∈ (m.matchId l id).2.nodes := by
  rw [Mapper.matchId]
  cases hlast : l.last.filter (·.id = id) with
  | some node =>
    obtain ⟨hnode, hnid⟩ := Option.filter_eq_some_iff.1 hlast
    have := h.last node hnode
    rw [of_decide_eq_true hnid] at this
    exact ⟨this, h, fun n hn => hn⟩
  | none =>
    cases hfind : l.nodes.find? (·.id = id) with
    | some node =>
      have hmem := List.mem_of_find?_eq_some hfind
      have hnid : node.id = id := by simpa using List.find?_some hfind
      have hright := h.nodes node hmem
      refine ⟨by rw [← hnid]; exact hright, ⟨h.nodes, ?_⟩, fun n hn => hn⟩
      rintro n hn
      rw [← Option.some.inj hn]
      exact hright
    | none =>
      have hnew : m.addedId id none = m.addedId id (known id) :=
        hid fun n hn heq => by simpa [heq] using List.find?_eq_none.1 hfind n hn
      refine ⟨hnew, ⟨(h.add hnew).nodes, ?_⟩, fun n hn => List.mem_cons_of_mem _ hn⟩
      rintro n hn
      rw [← Option.some.inj hn]
      exact hnew

theorem Ready.mono {l' : IdList} (h : l.Ready m known id) (hsub : ∀ n ∈ l.nodes, n ∈ l'.nodes) :
    l'.Ready m known id := fun hno => h fun n hn => hno n (hsub n hn)

/-- **Every id becomes its local id**, whatever was looked up before it. -/
theorem Right.matchIds (h : l.Right m known) (hids : ∀ id, l.Ready m known id) (ids : List ℕ) :
    (m.matchIds l ids).1 = ids.map fun id => m.addedId id (known id) := by
  induction ids generalizing l with
  | nil => rfl
  | cons id ids ih =>
    obtain ⟨hid, hright, hsub⟩ := h.matchId (hids id)
    rw [Mapper.matchIds, List.map_cons, ← hid]
    exact congrArg _ (ih hright fun id' => (hids id').mono hsub)

end IdList

namespace IdSetup

/-- Looking the ids of the access control lists up leaves both tables right. -/
theorem matchAclIds_right {mu mg : Mapper} {ku kg : ℕ → Option Bytes} (acls : List (IdKind × ℕ))
    {u g : IdList} (hu : u.Right mu ku ∧ ∀ id, u.Ready mu ku id)
    (hg : g.Right mg kg ∧ ∀ id, g.Ready mg kg id) :
    ((matchAclIds mu mg u g acls).2.1.Right mu ku ∧
      ∀ id, (matchAclIds mu mg u g acls).2.1.Ready mu ku id) ∧
    ((matchAclIds mu mg u g acls).2.2.Right mg kg ∧
      ∀ id, (matchAclIds mu mg u g acls).2.2.Ready mg kg id) := by
  induction acls generalizing u g with
  | nil => exact ⟨hu, hg⟩
  | cons acl acls ih =>
    obtain ⟨kind, id⟩ := acl
    cases kind with
    | user =>
      obtain ⟨-, hright, hsub⟩ := hu.1.matchId (hu.2 id)
      exact ih ⟨hright, fun id' => (hu.2 id').mono hsub⟩ hg
    | group =>
      obtain ⟨-, hright, hsub⟩ := hg.1.matchId (hg.2 id)
      exact ih hu ⟨hright, fun id' => (hg.2 id').mono hsub⟩

theorem convertAcls_right (x : IdSetup) {mu mg : Mapper} {ku kg : ℕ → Option Bytes}
    (acls : List (IdKind × ℕ)) {u g : IdList} (hu : u.Right mu ku ∧ ∀ id, u.Ready mu ku id)
    (hg : g.Right mg kg ∧ ∀ id, g.Ready mg kg id) :
    ((x.convertAcls mu mg u g acls).2.1.Right mu ku ∧
      ∀ id, (x.convertAcls mu mg u g acls).2.1.Ready mu ku id) ∧
    ((x.convertAcls mu mg u g acls).2.2.Right mg kg ∧
      ∀ id, (x.convertAcls mu mg u g acls).2.2.Ready mg kg id) := by
  rw [convertAcls]
  split_ifs
  · exact matchAclIds_right acls hu hg
  · exact ⟨hu, hg⟩

end IdSetup

/-! ## The pairs of a list -/

section Pairs

variable {o : ListOpts}

theorem writeIdNodes_eq (nodes : List (ℕ × Option Bytes)) :
    writeIdNodes o nodes =
      (nodes.filterMap fun n => n.2.map fun name => (n.1, name)).flatMap (writeIdPair o) ++
        writeVarint30 o 0 := by
  induction nodes with
  | nil => rfl
  | cons n nodes ih =>
    obtain ⟨id, _ | name⟩ := n
    · simpa [writeIdNodes] using ih
    · simp [writeIdNodes, ih]

theorem reads_byteName {name : Bytes} (h : name.length ≤ 255) :
    Reads readByteName (writeIdName (some name)) name := by
  refine Reads.cons ?_
  rw [UInt8.toNat_ofNat', Nat.mod_eq_of_lt (by omega)]
  exact reads_getN name

/-- A name whose length does not fit into the byte before it is not read as it was sent. -/
theorem recvName_short {name s rest : Bytes}
    (h : readByteName (writeIdName (some name) ++ s) = some (name, rest)) :
    name.length ≤ 255 ∧ rest = s := by
  have hlen : name.length ≤ 255 := by
    obtain ⟨len, s', hget, htake⟩ := bind_eq_some_iff.1 h
    rw [getN] at htake
    split_ifs at htake with hle
    have hname : s'.take len.toNat = name := congrArg Prod.fst (Option.some.inj htake)
    have := len.toNat_lt
    rw [← hname, List.length_take]
    omega
  rw [reads_byteName hlen s] at h
  exact ⟨hlen, (congrArg Prod.snd (Option.some.inj h)).symm⟩

theorem reads_idPairs {ps : List (ℕ × Bytes)}
    (hps : ∀ p ∈ ps, p.1 ≠ 0 ∧ p.1 < 2 ^ 32) (hshort : ∀ p ∈ ps, p.2.length ≤ 255) {fuel : ℕ}
    (hfuel : ps.length < fuel) :
    Reads (readIdPairs o fuel) (ps.flatMap (writeIdPair o) ++ writeVarint30 o 0) ps := by
  induction ps generalizing fuel with
  | nil =>
    obtain ⟨fuel, rfl⟩ := Nat.exists_eq_add_of_lt hfuel
    rw [readIdPairs]
    exact (reads_varint30 ⟨by norm_num, by norm_num⟩).bind_nil (Reads.pure [])
  | cons p ps ih =>
    obtain ⟨fuel, rfl⟩ := Nat.exists_eq_succ_of_ne_zero (Nat.ne_of_gt (Nat.zero_lt_of_lt hfuel))
    obtain ⟨hp, hlt⟩ := hps p List.mem_cons_self
    have hrest := ih (fun q hq => hps q (List.mem_cons_of_mem _ hq))
      (fun q hq => hshort q (List.mem_cons_of_mem _ hq)) (Nat.lt_of_succ_lt_succ hfuel)
    rw [readIdPairs, List.flatMap_cons, writeIdPair, List.append_assoc, List.append_assoc]
    refine (reads_varint30 (isInt32_int32 p.1)).bind ?_
    rw [toUint32_int32 hlt, if_neg hp]
    refine (reads_byteName (hshort p List.mem_cons_self)).bind ?_
    exact hrest.bind_nil (Reads.pure _)

/-- A list is read back only if every name fits its length byte. -/
theorem short_of_readIdPairs {ps : List (ℕ × Bytes)} (hps : ∀ p ∈ ps, p.1 ≠ 0 ∧ p.1 < 2 ^ 32)
    {fuel : ℕ} {s rest : Bytes}
    (h : readIdPairs o fuel (ps.flatMap (writeIdPair o) ++ s) = some (ps, rest)) :
    ∀ p ∈ ps, p.2.length ≤ 255 := by
  induction ps generalizing fuel with
  | nil => simp
  | cons p ps ih =>
    obtain _ | fuel := fuel
    · exact absurd h (by simp [readIdPairs, abort])
    obtain ⟨hp, hlt⟩ := hps p List.mem_cons_self
    rw [readIdPairs, List.flatMap_cons, writeIdPair, List.append_assoc, List.append_assoc,
      (reads_varint30 (isInt32_int32 p.1)).bind_apply, toUint32_int32 hlt, if_neg hp] at h
    obtain ⟨name, s₁, hname, hmore⟩ := bind_eq_some_iff.1 h
    obtain ⟨pairs, s₂, hpairs, hpure⟩ := bind_eq_some_iff.1 hmore
    have hr : ((p.1, name) :: pairs, s₂) = (p :: ps, rest) := Option.some.inj hpure
    simp only [Prod.mk.injEq, List.cons.injEq] at hr
    obtain ⟨⟨hhead, rfl⟩, rfl⟩ := hr
    have hsame : name = p.2 := congrArg Prod.snd hhead
    rw [hsame] at hname
    obtain ⟨hlen, rfl⟩ := recvName_short hname
    intro q hq
    rcases List.mem_cons.1 hq with rfl | hq
    · exact hlen
    · exact ih (fun q hq => hps q (List.mem_cons_of_mem _ hq)) hpairs q hq

end Pairs

/-! ## The lists after the entries -/

namespace IdSetup

variable {x : IdSetup} {k : IdKind} {rules : List MapNode} {tables : IdKind → IdTable}

theorem numeric_pos : 0 < x.senderNumeric ↔ ¬ x.receiverNumeric ≤ 0 := by
  rw [senderNumeric, receiverNumeric]
  cases x.numericIds <;> cases x.senderForced <;> cases x.receiverForced <;> simp

theorem lookup_of_nodup {ps : List (ℕ × Bytes)} (h : (ps.map Prod.fst).Nodup) {p : ℕ × Bytes}
    (hp : p ∈ ps) : ps.lookup p.1 = some p.2 := by
  obtain ⟨before, after, rfl⟩ := List.append_of_mem hp
  rw [List.lookup_eq_some_iff]
  refine ⟨before, after, rfl, ?_⟩
  intro q hq
  have hdisj := (List.nodup_append.1 (List.map_append ▸ h)).2.2 q.1 (List.mem_map_of_mem hq) p.1
    (List.mem_map_of_mem List.mem_cons_self)
  simpa using Ne.symm hdisj

/-- What is written for one kind of ids. -/
theorem sendIdList_eq : x.sendIdList tables =
    (if x.listed .user && x.receiverNumeric ≤ 0 then
      (x.sentPairs .user tables).flatMap (writeIdPair x.base) ++ writeVarint30 x.base 0 else []) ++
    (if x.listed .group && x.receiverNumeric ≤ 0 then
      (x.sentPairs .group tables).flatMap (writeIdPair x.base) ++ writeVarint30 x.base 0
      else []) := by
  rw [sendIdList, sentPairs, sentPairs]
  by_cases hnum : 0 < x.senderNumeric
  · simp [hnum, numeric_pos.1 hnum]
  · have hrecv : x.receiverNumeric ≤ 0 := not_not.1 fun h => hnum (numeric_pos.2 h)
    simp only [hnum, hrecv, if_false, decide_true, Bool.and_true, false_or]
    cases hu : x.listed .user <;> cases hg : x.listed .group <;>
      simp [writeIdNodes_eq, IdTable.named]

theorem sentPairs_ids : ∀ p ∈ x.sentPairs k tables, p.1 ≠ 0 ∧ p.1 < 2 ^ 32 := by
  intro p hp
  rw [sentPairs] at hp
  split_ifs at hp
  · exact absurd hp List.not_mem_nil
  · obtain ⟨n, hn, hname⟩ := List.mem_filterMap.1 hp
    obtain ⟨name, -, rfl⟩ := Option.map_eq_some_iff.1 hname
    exact ⟨(tables k).nonzero n hn, (tables k).lt n hn⟩

/-- The ids that are sent are distinct, so a look-up finds every pair. -/
theorem sentPairs_distinct : ((x.sentPairs k tables).map Prod.fst).Nodup := by
  rw [sentPairs]
  split_ifs
  · exact List.nodup_nil
  · refine (tables k).distinct.sublist ?_
    rw [IdTable.named, List.map_filterMap]
    induction (tables k).nodes with
    | nil => exact List.Sublist.slnil
    | cons n nodes ih =>
      obtain ⟨id, _ | name⟩ := n
      · exact ih.cons id
      · exact ih.cons_cons id

theorem reads_names (hshort : ∀ p ∈ x.sentPairs k tables, p.2.length ≤ 255) :
    Reads (x.readNames k)
      (if x.listed k && x.receiverNumeric ≤ 0 then
        (x.sentPairs k tables).flatMap (writeIdPair x.base) ++ writeVarint30 x.base 0 else [])
      (x.sentPairs k tables) := by
  rw [readNames]
  by_cases hread : (x.listed k && decide (x.receiverNumeric ≤ 0)) = true
  · rw [if_pos hread, if_pos hread]
    intro rest
    rw [readIdList]
    refine reads_idPairs sentPairs_ids hshort ?_ rest
    have hlen : (x.sentPairs k tables).length ≤
        ((x.sentPairs k tables).flatMap (writeIdPair x.base)).length := by
      rw [List.length_flatMap, ← List.length_map (writeIdPair x.base ·|>.length)]
      refine List.length_le_sum_of_one_le _ fun n hn => ?_
      obtain ⟨p, -, rfl⟩ := List.mem_map.1 hn
      rw [writeIdPair, writeIdName, List.length_append, List.length_cons]
      omega
    simp only [List.length_append]
    omega
  · rw [if_neg hread, if_neg hread]
    have hnil : x.sentPairs k tables = [] := by
      rw [sentPairs, if_pos]
      by_contra hno
      rw [not_or, numeric_pos, not_not, Bool.not_eq_false] at hno
      exact hread (by simp [hno])
    rw [hnil]
    exact Reads.pure []

/-- The names of a list leave a table that is right, and that has every id with a name. -/
theorem recvNames_right {m : Mapper} {known : ℕ → Option Bytes} {l : IdList}
    (h : l.Right m known) {ps : List (ℕ × Bytes)}
    (hps : ∀ p ∈ ps, known p.1 = x.keptName p.2) :
    (x.recvNames m l ps).Right m known ∧ (∀ n ∈ l.nodes, n ∈ (x.recvNames m l ps).nodes) ∧
      ∀ p ∈ ps, ∃ n ∈ (x.recvNames m l ps).nodes, n.id = p.1 := by
  induction ps generalizing l with
  | nil => exact ⟨h, fun n hn => hn, by simp⟩
  | cons p ps ih =>
    have hadd : (m.recvAddId l p.1 (x.keptName p.2)).2.Right m known :=
      h.add (by rw [hps p List.mem_cons_self])
    obtain ⟨hright, hsub, hall⟩ := ih hadd fun q hq => hps q (List.mem_cons_of_mem _ hq)
    refine ⟨hright, fun n hn => hsub n (List.mem_cons_of_mem _ hn), ?_⟩
    intro q hq
    rcases List.mem_cons.1 hq with rfl | hq
    · exact ⟨_, hsub _ List.mem_cons_self, rfl⟩
    · exact hall q hq

/-- The first table is right for whatever names come. -/
theorem firstNodes_right (sent : ℕ → Option Bytes) :
    (⟨x.firstNodes k rules, none⟩ : IdList).Right (x.mapper k rules) (x.known k sent) := by
  refine ⟨?_, by simp⟩
  intro n hn
  change n ∈ x.firstNodes k rules at hn
  rw [firstNodes] at hn
  split_ifs at hn with hmap
  · rw [List.mem_singleton.1 hn]
    simp [known]
  · exact absurd hn List.not_mem_nil

/-- The id 0 needs no name: with a map it has a node, and without one it stays 0. -/
theorem ready_zero {sent : ℕ → Option Bytes} (h : x.rules k = some rules) {l : IdList}
    (hsub : ∀ n ∈ x.firstNodes k rules, n ∈ l.nodes) :
    l.Ready (x.mapper k rules) (x.known k sent) 0 := by
  intro hno
  cases hmap : x.map k with
  | none =>
    rw [rules_of_none h hmap, addedId_zero, addedId_zero]
  | some map =>
    have hnode : ∃ n ∈ x.firstNodes k rules, n.id = 0 := by simp [firstNodes, hmap]
    obtain ⟨n, hn, hid⟩ := hnode
    exact absurd hid (hno n (hsub n hn))

/-- Where the receiver looks no ids up, ids stand for themselves. -/
theorem addedId_unmapped {sent : ℕ → Option Bytes} (h : x.rules k = some rules)
    (hk : k = .user → x.amRoot = true) (hmaps : x.mapsIds k = false)
    (hsent : 0 < x.receiverNumeric → ∀ id, sent id = none) (id : ℕ) :
    (x.mapper k rules).addedId id (x.known k sent id) = id := by
  have hoff : x.receiverNumeric ≠ 0 ∧ x.map k = none := by
    cases k with
    | user => simpa [mapsIds, hk rfl] using hmaps
    | group =>
      simp only [mapsIds, Bool.or_eq_false_iff, decide_eq_false_iff_not] at hmaps
      exact ⟨hmaps.1.2, by simpa using hmaps.2⟩
  have hnone : x.known k sent id = none := by
    rw [known]
    split_ifs with h0 hzero hneg
    · exact absurd hzero hoff.1
    · rfl
    · rfl
    · exact hsent (by omega) id
  rw [rules_of_none h hoff.2, hnone, addedId_unknown]

variable (x k rules tables) in
/-- The receiver's table once the sender's is read. -/
def listAfter : IdList :=
  x.recvNames (x.mapper k rules) ⟨x.firstNodes k rules, none⟩ (x.sentPairs k tables)

/-- **After the lists every id is looked up right.** -/
theorem listAfter_right (h : x.rules k = some rules) (tables : IdKind → IdTable) :
    (x.listAfter k rules tables).Right (x.mapper k rules)
      (x.known k fun id => (x.sentPairs k tables).lookup id) ∧
    ∀ id, (x.listAfter k rules tables).Ready (x.mapper k rules)
      (x.known k fun id => (x.sentPairs k tables).lookup id) id := by
  have hknown : ∀ p ∈ x.sentPairs k tables,
      x.known k (fun id => (x.sentPairs k tables).lookup id) p.1 = x.keptName p.2 := by
    intro p hp
    have hlook : (x.sentPairs k tables).lookup p.1 = some p.2 :=
      lookup_of_nodup sentPairs_distinct hp
    rw [known, if_neg (sentPairs_ids p hp).1, hlook, keptName]
  obtain ⟨hright, hsub, hall⟩ := recvNames_right
    (@firstNodes_right x k rules
      (fun id => (x.sentPairs k tables).lookup id)) hknown
  refine ⟨hright, fun id => ?_⟩
  by_cases h0 : id = 0
  · rw [h0]
    exact ready_zero h hsub
  · intro hno
    have hnone : (x.sentPairs k tables).lookup id = none := by
      rw [List.lookup_eq_none_iff]
      intro p hp
      obtain ⟨n, hn, hid⟩ := hall p hp
      have := hno n hn
      rw [hid] at this
      simpa using Ne.symm this
    rw [known, if_neg h0, hnone]
    split_ifs <;> rfl

end IdSetup

namespace IdSetup

variable {x : IdSetup} {ru rg : List MapNode} {tables : IdKind → IdTable}
  {acls : List (IdKind × ℕ)} {owners groups : List ℕ}

theorem recvIds_eq (hu : x.rules .user = some ru) (hg : x.rules .group = some rg) :
    x.recvIds acls owners groups =
      x.recvIdList (x.mapper .user ru, ⟨x.firstNodes .user ru, none⟩)
        (x.mapper .group rg, ⟨x.firstNodes .group rg, none⟩) acls owners groups := by
  rw [recvIds, start_eq hu, start_eq hg]
  rfl

/-- One of the two loops over the entries. -/
theorem mapped_entries {k : IdKind} {rules : List MapNode} {sent : ℕ → Option Bytes}
    (h : x.rules k = some rules) (hk : k = .user → x.amRoot = true)
    (hsent : 0 < x.receiverNumeric → ∀ id, sent id = none) {l : IdList}
    (hright : l.Right (x.mapper k rules) (x.known k sent))
    (hready : ∀ id, l.Ready (x.mapper k rules) (x.known k sent) id) (hpre : x.preserve k = true)
    (ids : List ℕ) :
    x.Mapped k rules sent ids
      (if x.preserve k && x.mapsIds k then ((x.mapper k rules).matchIds l ids).1 else ids) := by
  refine ⟨fun id => (x.mapper k rules).addedId id (x.known k sent id), ?_,
    fun id => addedId_localId id _⟩
  cases hmaps : x.mapsIds k with
  | true =>
    rw [hpre, Bool.and_true, if_pos rfl]
    exact hright.matchIds hready ids
  | false =>
    rw [Bool.and_false, if_neg (by simp)]
    simp only [addedId_unmapped h hk hmaps hsent, List.map_id']

theorem sentPairs_numeric {k : IdKind} (h : 0 < x.receiverNumeric) : x.sentPairs k tables = [] := by
  rw [sentPairs, if_pos]
  exact .inl (numeric_pos.2 (by omega))

theorem listsAgree_of_short (hu : x.rules .user = some ru) (hg : x.rules .group = some rg)
    (h : ∀ k, ∀ p ∈ x.sentPairs k tables, p.2.length ≤ 255) :
    x.ListsAgree ru rg tables acls owners groups := by
  obtain ⟨⟨hru, hyu⟩, hrg, hyg⟩ := x.convertAcls_right acls (listAfter_right hu tables)
    (listAfter_right hg tables)
  have hnone : ∀ k, 0 < x.receiverNumeric → ∀ id, (x.sentPairs k tables).lookup id = none := by
    intro k hnum id
    rw [sentPairs_numeric hnum, List.lookup_nil]
  refine ⟨x.convertIds (x.mapper .user ru) (x.mapper .group rg) (x.listAfter .user ru tables)
    (x.listAfter .group rg tables) (x.sentPairs .user tables) (x.sentPairs .group tables) acls
    owners groups, ?_, rfl, rfl, ?_, ?_⟩
  · rw [recvIds_eq hu hg, recvIdList, sendIdList_eq]
    refine (reads_names (h .user)).bind ?_
    exact (reads_names (h .group)).bind_nil (Reads.pure _)
  · intro hroot hpre
    exact mapped_entries hu (fun _ => hroot) (hnone .user) hru hyu hpre owners
  · intro hpre
    exact mapped_entries hg (by simp) (hnone .group) hrg hyg hpre groups

/-- One loop that reads what was sent read no name that is too long. -/
theorem short_of_readNames {k : IdKind} {s rest : Bytes}
    (h : x.readNames k ((if x.listed k && x.receiverNumeric ≤ 0 then
        (x.sentPairs k tables).flatMap (writeIdPair x.base) ++ writeVarint30 x.base 0 else []) ++ s) =
      some (x.sentPairs k tables, rest)) :
    ∀ p ∈ x.sentPairs k tables, p.2.length ≤ 255 := by
  rw [readNames] at h
  by_cases hread : (x.listed k && decide (x.receiverNumeric ≤ 0)) = true
  · rw [if_pos hread, if_pos hread, readIdList, List.append_assoc] at h
    exact short_of_readIdPairs sentPairs_ids h
  · rw [if_neg hread] at h
    have hnil : [] = x.sentPairs k tables := congrArg Prod.fst (Option.some.inj h)
    rw [← hnil]
    simp

theorem short_of_listsAgree (hu : x.rules .user = some ru) (hg : x.rules .group = some rg)
    (h : x.ListsAgree ru rg tables acls owners groups) :
    ∀ k, ∀ p ∈ x.sentPairs k tables, p.2.length ≤ 255 := by
  obtain ⟨r, hreads, huser, hgroup, -, -⟩ := h
  have hrun := hreads []
  rw [recvIds_eq hu hg, recvIdList, sendIdList_eq, List.append_assoc] at hrun
  obtain ⟨userNames, s₁, hread₁, hrun⟩ := bind_eq_some_iff.1 hrun
  obtain ⟨groupNames, s₂, hread₂, hpure⟩ := bind_eq_some_iff.1 hrun
  obtain rfl : _ = r := congrArg Prod.fst (Option.some.inj hpure)
  change userNames = _ at huser
  change groupNames = _ at hgroup
  rw [huser] at hread₁
  rw [hgroup] at hread₂
  have hshort := short_of_readNames hread₁
  rw [reads_names hshort] at hread₁
  obtain rfl : _ = s₁ := congrArg Prod.snd (Option.some.inj hread₁)
  intro k
  cases k with
  | user => exact hshort
  | group => exact short_of_readNames hread₂

end IdSetup

/-! ## The names inside the entries -/

section Inline

variable {x : IdSetup} {k : IdKind} {rules : List MapNode}

/-- Both sides between two entries: the static ids agree, and the receiver has a node for every
    id whose name it was told. -/
structure IdSetup.InStepIds (x : IdSetup) (k : IdKind) (rules : List MapNode) (s : SentIds)
    (lastname : Bytes) (t : ℕ × IdList) : Prop where
  right : t.2.Right (x.mapper k rules) (x.known k (x.inlineName k))
  same : lastname ≠ [] →
    t.1 = (x.mapper k rules).addedId s.id (x.known k (x.inlineName k) s.id)
  told : x.senderNumeric = 0 → ∀ id ∈ s.seen, x.senderName k id ≠ none →
    ∃ n ∈ t.2.nodes, n.id = id
  first : ∀ n ∈ x.firstNodes k rules, n ∈ t.2.nodes

namespace IdSetup

theorem inlineName_numeric (h : 0 < x.receiverNumeric) (id : ℕ) : x.inlineName k id = none := by
  have hpos : 0 < x.senderNumeric := numeric_pos.2 (by omega)
  rw [inlineName, if_neg (by omega)]

/-- The entry of an id that is not the last one's. -/
theorem next_of_notSame {s : SentIds} {lastname : Bytes} {id : ℕ}
    (h : s.same (x.senderOpts k) id lastname = false) (hinc : x.base.incRecurse = true) :
    s.next x.listOpts (x.senderOpts k) id lastname =
      if x.senderNumeric = 0 then
        ((addId (x.senderOpts k) s.seen id).1, ⟨id, (addId (x.senderOpts k) s.seen id).2⟩)
      else (none, ⟨id, s.seen⟩) := by
  rw [SentIds.next, if_neg (by rw [h]; simp)]
  by_cases hnum : x.senderNumeric = 0 <;> simp [listOpts, hnum, hinc]

/-- An id without a name is looked up right: it is new and nameless, or its node is there. -/
theorem InStepIds.ready {s : SentIds} {lastname : Bytes} {t : ℕ × IdList} {id : ℕ}
    (h : x.InStepIds k rules s lastname t) (hrules : x.rules k = some rules)
    (hname : x.senderNumeric = 0 → (addId (x.senderOpts k) s.seen id).1 = none) :
    t.2.Ready (x.mapper k rules) (x.known k (x.inlineName k)) id := by
  by_cases h0 : id = 0
  · rw [h0]
    exact ready_zero hrules h.first
  intro hno
  have hnone : x.inlineName k id = none := by
    rw [inlineName]
    split_ifs with hnum
    · have hadd := hname hnum
      rw [addId] at hadd
      split_ifs at hadd with hseen
      · by_contra hsome
        obtain ⟨n, hn, hid⟩ := h.told hnum id (hseen.resolve_left h0) hsome
        exact hno n hn hid
      · exact hadd
    · rfl
  rw [known, if_neg h0, hnone]
  split_ifs <;> rfl

/-- The name the sender gives is the one the receiver knows the id by. -/
theorem known_of_addId {seen : List ℕ} {id : ℕ} {name : Bytes} (hnum : x.senderNumeric = 0)
    (h : (addId (x.senderOpts k) seen id).1 = some name) :
    id ≠ 0 ∧ x.known k (x.inlineName k) id = x.keptName name := by
  rw [addId] at h
  split_ifs at h with hseen
  rw [not_or] at hseen
  have hsender : x.senderName k id = some name := h
  refine ⟨hseen.1, ?_⟩
  rw [known, if_neg hseen.1, inlineName, if_pos hnum, hsender, keptName]

/-- The name that follows an id, or the look-up where none does. -/
theorem InStepIds.reads_idName {s : SentIds} {lastname : Bytes} (fname : Bytes) {t : ℕ × IdList} {id : ℕ}
    (h : x.InStepIds k rules s lastname t) (hrules : x.rules k = some rules)
    (hk : k = .user → x.amRoot = true) (hinc : x.base.incRecurse = true)
    (hsame : s.same (x.senderOpts k) id lastname = false)
    (hshort : ∀ name, (s.next x.listOpts (x.senderOpts k) id lastname).1 = some name →
      name.length ≤ 255) :
    ∃ t', Reads (x.recvIdName k (x.mapper k rules)
        (s.next x.listOpts (x.senderOpts k) id lastname).1.isSome t.2 id)
        (writeIdName (s.next x.listOpts (x.senderOpts k) id lastname).1)
        ((s.next x.listOpts (x.senderOpts k) id lastname).1, t') ∧
      t'.1 = (x.mapper k rules).addedId id (x.known k (x.inlineName k) id) ∧
      x.InStepIds k rules (s.next x.listOpts (x.senderOpts k) id lastname).2 fname t' := by
  have hnext := next_of_notSame (k := k) hsame hinc
  have hid : (s.next x.listOpts (x.senderOpts k) id lastname).2.id = id := by
    rw [hnext]
    split_ifs <;> rfl
  cases hname : (s.next x.listOpts (x.senderOpts k) id lastname).1 with
  | some name =>
    -- the first entry of a named id: a node is added, whatever the list holds
    have hnum : x.senderNumeric = 0 := by
      by_contra hno
      rw [hnext, if_neg hno] at hname
      cases hname
    rw [hnext, if_pos hnum] at hname
    obtain ⟨h0, hknown⟩ := known_of_addId hnum hname
    have hval : (x.mapper k rules).addedId id (x.keptName name) =
        (x.mapper k rules).addedId id (x.known k (x.inlineName k) id) := by rw [hknown]
    refine ⟨⟨_, ((x.mapper k rules).recvAddId t.2 id (x.keptName name)).2⟩, ?_, hval, ?_⟩
    · rw [recvIdName, Option.isSome_some, if_pos rfl]
      exact (reads_byteName (hshort name (by rw [hnext, if_pos hnum]; exact hname))).bind_nil
        (Reads.pure _)
    · refine ⟨h.right.add hval, fun _ => by rw [hid]; exact hval, ?_,
        fun n hn => List.mem_cons_of_mem _ (h.first n hn)⟩
      intro _ id' hid' hsome
      rw [hnext, if_pos hnum, addId] at hid'
      have hcase : id' = id ∨ id' ∈ s.seen := by
        split_ifs at hid' with hseen
        · exact .inr hid'
        · exact List.mem_cons.1 hid'
      rcases hcase with rfl | hold
      · exact ⟨_, List.mem_cons_self, rfl⟩
      · obtain ⟨n, hn, heq⟩ := h.told hnum id' hold hsome
        exact ⟨n, List.mem_cons_of_mem _ hn, heq⟩
  | none =>
    have hadd : x.senderNumeric = 0 → (addId (x.senderOpts k) s.seen id).1 = none := by
      intro hnum
      rw [hnext, if_pos hnum] at hname
      exact hname
    have hready := h.ready hrules hadd
    obtain ⟨hval, hright, hsub⟩ := h.right.matchId hready
    -- nothing new is told: an id that is new to the sender has no name
    have htold : ∀ t' : ℕ × IdList, (∀ n ∈ t.2.nodes, n ∈ t'.2.nodes) → x.senderNumeric = 0 →
        ∀ id' ∈ (s.next x.listOpts (x.senderOpts k) id lastname).2.seen,
          x.senderName k id' ≠ none → ∃ n ∈ t'.2.nodes, n.id = id' := by
      intro t' hsub' hnum id' hid' hsome
      have hold : id' ∈ s.seen := by
        rw [hnext, if_pos hnum, addId] at hid'
        have hnone := hadd hnum
        rw [addId] at hnone
        split_ifs at hid' hnone with hseen
        · exact hid'
        · rcases List.mem_cons.1 hid' with rfl | hold
          · exact absurd hnone hsome
          · exact hold
      obtain ⟨n, hn, heq⟩ := h.told hnum id' hold hsome
      exact ⟨n, hsub' n hn, heq⟩
    rw [recvIdName, Option.isSome_none, if_neg (by simp), hinc, Bool.true_and]
    cases hmaps : x.mapsIds k with
    | true =>
      refine ⟨(x.mapper k rules).matchId t.2 id, ?_, hval, hright, ?_, htold _ hsub,
        fun n hn => hsub n (h.first n hn)⟩
      · rw [if_pos rfl]
        exact Reads.pure _
      · intro _
        rw [hid]
        exact hval
    | false =>
      have hself := @addedId_unmapped x k rules (x.inlineName k) hrules hk hmaps inlineName_numeric id
      refine ⟨(id, t.2), ?_, hself.symm, h.right, ?_, htold _ fun n hn => hn, h.first⟩
      · rw [if_neg (by simp)]
        exact Reads.pure _
      · intro _
        rw [hid]
        exact hself.symm

/-- **One entry.**  Its id becomes its local id, and the two sides stay in step. -/
theorem InStepIds.reads_field {s : SentIds} {lastname : Bytes} (fname : Bytes) {t : ℕ × IdList} {id : ℕ}
    (h : x.InStepIds k rules s lastname t) (hrules : x.rules k = some rules)
    (hk : k = .user → x.amRoot = true) (hpre : x.preserve k = true)
    (hproto : 30 ≤ x.base.protocolVersion) (hinc : x.base.incRecurse = true) (hid : id < 2 ^ 32)
    (hshort : ∀ name, (s.next x.listOpts (x.senderOpts k) id lastname).1 = some name →
      name.length ≤ 255) :
    ∃ t', Reads (x.recvIdField k (x.mapper k rules) (s.same (x.senderOpts k) id lastname)
        (s.next x.listOpts (x.senderOpts k) id lastname).1.isSome t)
        (writeId x.listOpts (x.senderOpts k) (s.same (x.senderOpts k) id lastname) id
          (s.next x.listOpts (x.senderOpts k) id lastname).1)
        ((s.next x.listOpts (x.senderOpts k) id lastname).1, t') ∧
      t'.1 = (x.mapper k rules).addedId id (x.known k (x.inlineName k) id) ∧
      x.InStepIds k rules (s.next x.listOpts (x.senderOpts k) id lastname).2 fname t' := by
  cases hsame : s.same (x.senderOpts k) id lastname with
  | true =>
    rw [SentIds.next_same hsame, recvIdField, writeId]
    have hlast : id = s.id ∧ lastname ≠ [] := by
      simpa [SentIds.same, senderOpts, hpre] using hsame
    have hval : t.1 = (x.mapper k rules).addedId id (x.known k (x.inlineName k) id) := by
      rw [hlast.1]
      exact h.same hlast.2
    refine ⟨t, ?_, hval, h.right, fun _ => ?_, h.told, h.first⟩
    · simp only [Bool.not_true, Bool.and_false, Bool.false_eq_true, if_false]
      exact Reads.pure _
    · rw [hval, hlast.1]
  | false =>
    obtain ⟨t', hreads, hval, hstep⟩ := h.reads_idName fname hrules hk hinc hsame hshort
    refine ⟨t', ?_, hval, hstep⟩
    have hold : ¬ x.base.protocolVersion < 30 := not_lt.2 hproto
    have hsend : (x.preserve k && !false) = true := by rw [hpre]; rfl
    rw [recvIdField, writeId, if_pos hsend, if_neg hold]
    rw [if_pos (show ((x.senderOpts k).preserve && !false) = true from hsend),
      if_neg (show ¬ x.listOpts.protocolVersion < 30 from hold)]
    refine (reads_varint (isInt32_int32 id)).bind ?_
    rw [toUint32_int32 hid]
    exact hreads

/-- **All entries.**  Every id becomes its local id, and the names are read as they were sent. -/
theorem InStepIds.reads_fields (hrules : x.rules k = some rules)
    (hk : k = .user → x.amRoot = true) (hpre : x.preserve k = true)
    (hproto : 30 ≤ x.base.protocolVersion) (hinc : x.base.incRecurse = true)
    {entries : List (ℕ × Bytes)} (hids : ∀ e ∈ entries, e.1 < 2 ^ 32) {s : SentIds}
    {lastname : Bytes} {t : ℕ × IdList} (h : x.InStepIds k rules s lastname t)
    (hshort : ∀ name, some name ∈ x.inlineNames k s lastname entries → name.length ≤ 255) :
    ∃ r, Reads (x.recvIdFields k (x.mapper k rules)
        ((x.idFields k s lastname entries).map fun f => (f.same, f.follows)) t)
        ((x.idFields k s lastname entries).flatMap IdField.bytes) r ∧
      r.map Prod.snd = x.inlineNames k s lastname entries ∧
      r.map Prod.fst = (entries.map Prod.fst).map
        (fun id => (x.mapper k rules).addedId id (x.known k (x.inlineName k) id)) := by
  induction entries generalizing s lastname t with
  | nil => exact ⟨[], Reads.pure [], rfl, rfl⟩
  | cons e entries ih =>
    obtain ⟨id, fname⟩ := e
    obtain ⟨t', hfield, hval, hstep⟩ := h.reads_field fname hrules hk hpre hproto hinc
      (hids (id, fname) List.mem_cons_self)
      (fun name hname => hshort name (by rw [inlineNames, hname]; exact List.mem_cons_self))
    obtain ⟨r, hreads, hnames, hvals⟩ := ih (fun e he => hids e (List.mem_cons_of_mem _ he)) hstep
      fun name hname => hshort name (List.mem_cons_of_mem _ hname)
    refine ⟨(t'.1, (s.next x.listOpts (x.senderOpts k) id lastname).1) :: r,
      hfield.bind (hreads.bind_nil (Reads.pure _)), ?_, ?_⟩
    · rw [List.map_cons, hnames, inlineNames]
    · rw [List.map_cons, hvals, hval, List.map_cons, List.map_cons]

/-- Names that are read as they were sent fit their length bytes. -/
theorem short_of_recvIdFields {m : Mapper} (hpre : x.preserve k = true)
    (hproto : 30 ≤ x.base.protocolVersion) {entries : List (ℕ × Bytes)} {s : SentIds}
    {lastname : Bytes} {t : ℕ × IdList} {r : List (ℕ × Option Bytes)} {tail rest : Bytes}
    (h : x.recvIdFields k m ((x.idFields k s lastname entries).map fun f => (f.same, f.follows)) t
      ((x.idFields k s lastname entries).flatMap IdField.bytes ++ tail) = some (r, rest))
    (hr : r.map Prod.snd = x.inlineNames k s lastname entries) :
    ∀ name, some name ∈ x.inlineNames k s lastname entries → name.length ≤ 255 := by
  induction entries generalizing s lastname t r with
  | nil => simp [inlineNames]
  | cons e entries ih =>
    obtain ⟨id, fname⟩ := e
    rw [idFields, List.map_cons, List.flatMap_cons, List.append_assoc] at h
    obtain ⟨⟨name, t'⟩, s₁, hfield, hmore⟩ := bind_eq_some_iff.1 h
    obtain ⟨ids, s₂, hfields, hpure⟩ := bind_eq_some_iff.1 hmore
    obtain ⟨rfl, rfl⟩ : (t'.1, name) :: ids = r ∧ s₂ = rest :=
      Prod.mk.inj (Option.some.inj hpure)
    rw [List.map_cons, inlineNames, List.cons.injEq] at hr
    obtain ⟨hname, hnames⟩ := hr
    change name = _ at hname
    -- one field: its name is short, and nothing behind the field was read
    have hone : (∀ n, name = some n → n.length ≤ 255) ∧
        s₁ = (x.idFields k (s.next x.listOpts (x.senderOpts k) id lastname).2 fname
          entries).flatMap IdField.bytes ++ tail := by
      cases hsame : s.same (x.senderOpts k) id lastname with
      | true =>
        rw [SentIds.next_same hsame] at hname
        simp only [hsame, SentIds.next_same hsame, recvIdField, writeId, Bool.not_true,
          Bool.and_false, Bool.false_eq_true, if_false, List.nil_append] at hfield
        rw [SentIds.next_same hsame]
        refine ⟨by rw [hname]; simp, ?_⟩
        exact (congrArg Prod.snd (Option.some.inj hfield)).symm
      | false =>
        have hold : ¬ x.base.protocolVersion < 30 := not_lt.2 hproto
        have hsend : (x.preserve k && !false) = true := by rw [hpre]; rfl
        simp only [hsame] at hfield
        rw [recvIdField, writeId, if_pos hsend, if_neg hold,
          if_pos (show ((x.senderOpts k).preserve && !false) = true from hsend),
          if_neg (show ¬ x.listOpts.protocolVersion < 30 from hold), List.append_assoc,
          (reads_varint (isInt32_int32 id)).bind_apply, ← hname, recvIdName] at hfield
        cases name with
        | some n =>
          rw [Option.isSome_some, if_pos rfl] at hfield
          obtain ⟨n', s₃, hread, hpure'⟩ := bind_eq_some_iff.1 hfield
          have hboth := Prod.mk.inj (Option.some.inj hpure')
          have hn : n' = n := Option.some.inj (congrArg Prod.fst hboth.1)
          rw [hn] at hread
          obtain ⟨hlen, hs⟩ := recvName_short hread
          refine ⟨fun a ha => by rw [← Option.some.inj ha]; exact hlen, ?_⟩
          rw [← hboth.2, hs]
        | none =>
          rw [Option.isSome_none, if_neg (by simp)] at hfield
          refine ⟨by simp, ?_⟩
          split_ifs at hfield
          · exact (Prod.mk.inj (Option.some.inj hfield)).2.symm
          · exact (Prod.mk.inj (Option.some.inj hfield)).2.symm
    intro n hn
    rw [inlineNames, ← hname] at hn
    rcases List.mem_cons.1 hn with heq | hn
    · exact hone.1 n heq.symm
    · rw [hone.2] at hfields
      exact ih hfields hnames n hn

/-- The names that are written: each id's, with its first entry. -/
theorem mem_inlineNames (hpre : x.preserve k = true) (hinc : x.base.incRecurse = true)
    {entries : List (ℕ × Bytes)} {s : SentIds} {lastname : Bytes}
    (hseen : s.id = 0 ∨ s.id ∈ s.seen ∨ x.senderNumeric ≠ 0) {e : ℕ × Bytes} (he : e ∈ entries)
    {name : Bytes} (h0 : e.1 ≠ 0) (hnew : e.1 ∉ s.seen)
    (hname : x.inlineName k e.1 = some name) :
    some name ∈ x.inlineNames k s lastname entries := by
  induction entries generalizing s lastname with
  | nil => exact absurd he List.not_mem_nil
  | cons f entries ih =>
    obtain ⟨id, fname⟩ := f
    have hnum : x.senderNumeric = 0 := by
      by_contra hno
      rw [inlineName, if_neg hno] at hname
      cases hname
    rw [inlineName, if_pos hnum] at hname
    rw [inlineNames]
    by_cases heq : e.1 = id
    · have hsame : s.same (x.senderOpts k) id lastname = false := by
        rw [SentIds.same, Bool.or_eq_false_iff]
        refine ⟨by simp [senderOpts, hpre], ?_⟩
        rw [Bool.and_eq_false_iff, decide_eq_false_iff_not]
        refine .inl fun hid => ?_
        rw [heq, hid] at h0 hnew
        rcases hseen with hz | hs | hn
        · exact h0 hz
        · exact hnew hs
        · exact hn hnum
      rw [next_of_notSame hsame hinc, if_pos hnum, addId, if_neg (by rw [← heq]; tauto)]
      refine List.mem_cons.2 (.inl ?_)
      rw [← hname, heq]
      rfl
    · refine List.mem_cons_of_mem _ ?_
      have hmem : e ∈ entries := by
        rcases List.mem_cons.1 he with rfl | he
        · exact absurd rfl heq
        · exact he
      cases hsame : s.same (x.senderOpts k) id lastname with
      | true =>
        rw [SentIds.next_same hsame]
        exact ih hseen hmem hnew
      | false =>
        rw [next_of_notSame hsame hinc, if_pos hnum, addId]
        refine ih ?_ hmem ?_
        · split_ifs with hold
          · exact hold.imp_right Or.inl
          · exact .inr (.inl List.mem_cons_self)
        · split_ifs with hold
          · exact hnew
          · exact fun hin => (List.mem_cons.1 hin).elim heq hnew

end IdSetup

end Inline

/-! ## When both sides agree -/

namespace IdSetup

variable {x : IdSetup} {ru rg : List MapNode} {tables : IdKind → IdTable}

theorem names_short {k : IdKind} (hinc : x.base.incRecurse = true)
    {entries : List (ℕ × Bytes)} {s : SentIds} {lastname : Bytes} {name : Bytes}
    (h : some name ∈ x.inlineNames k s lastname entries) :
    ∃ e ∈ entries, e.1 ≠ 0 ∧ x.inlineName k e.1 = some name := by
  induction entries generalizing s lastname with
  | nil => simp [inlineNames] at h
  | cons e entries ih =>
    obtain ⟨id, fname⟩ := e
    rw [inlineNames] at h
    rcases List.mem_cons.1 h with hhead | htail
    · refine ⟨(id, fname), List.mem_cons_self, ?_⟩
      cases hsame : s.same (x.senderOpts k) id lastname with
      | true =>
        rw [SentIds.next_same hsame] at hhead
        cases hhead
      | false =>
        rw [next_of_notSame hsame hinc] at hhead
        split_ifs at hhead with hnum
        obtain ⟨h0, -⟩ := known_of_addId hnum hhead.symm
        refine ⟨h0, ?_⟩
        rw [addId] at hhead
        split_ifs at hhead
        rw [inlineName, if_pos hnum]
        exact hhead.symm
    · obtain ⟨e, he, hrest⟩ := ih htail
      exact ⟨e, List.mem_cons_of_mem _ he, hrest⟩

theorem start_inStep {k : IdKind} {rules : List MapNode} :
    x.InStepIds k rules ⟨0, []⟩ [] (0, ⟨x.firstNodes k rules, none⟩) :=
  ⟨firstNodes_right _, fun h => absurd rfl h, by simp, fun n hn => hn⟩

theorem recvInline_eq {k : IdKind} {rules : List MapNode} (h : x.rules k = some rules)
    (fields : List IdField) :
    x.recvInline k fields = x.recvIdFields k (x.mapper k rules)
      (fields.map fun f => (f.same, f.follows)) (0, ⟨x.firstNodes k rules, none⟩) := by
  rw [recvInline, start_eq h]
  rfl

/-- The names inside the entries agree exactly as long as every one fits its length byte. -/
theorem inlineAgrees_iff {k : IdKind} {rules : List MapNode} (h : x.rules k = some rules)
    (hk : k = .user → x.amRoot = true) (hpre : x.preserve k = true)
    (hproto : 30 ≤ x.base.protocolVersion) (hinc : x.base.incRecurse = true)
    {entries : List (ℕ × Bytes)} (hids : ∀ e ∈ entries, e.1 < 2 ^ 32) :
    x.InlineAgrees k rules entries ↔
      ∀ e ∈ entries, e.1 ≠ 0 → ∀ name, x.inlineName k e.1 = some name → name.length ≤ 255 := by
  constructor
  · rintro ⟨r, hreads, hnames, -⟩ e he h0 name hname
    have hrun := hreads []
    rw [recvInline_eq h] at hrun
    exact short_of_recvIdFields hpre hproto hrun hnames name
      (mem_inlineNames hpre hinc (.inl rfl) he h0 (by simp) hname)
  · intro hshort
    have hstart : x.InStepIds k rules ⟨0, []⟩ [] (0, ⟨x.firstNodes k rules, none⟩) := start_inStep
    obtain ⟨r, hreads, hnames, hvals⟩ := hstart.reads_fields h hk hpre hproto hinc hids
      (fun name hname => by
        obtain ⟨e, he, h0, hsome⟩ := names_short hinc hname
        exact hshort e he h0 name hsome)
    refine ⟨r, ?_, hnames, fun id => (x.mapper k rules).addedId id (x.known k (x.inlineName k) id),
      hvals, fun id => addedId_localId id _⟩
    rw [recvInline_eq h]
    exact hreads

end IdSetup

/-- A transfer to a root receiver with the map "al*:5,bob:6". -/
def namedSetup (senderName : ℕ → Option Bytes) : IdSetup where
  base := { deviceOpts with incRecurse := true }
  numericIds := false
  senderForced := false
  receiverForced := false
  amRoot := true
  preserve _ := true
  preserveAcls := false
  senderName _ := senderName
  nameOf _ _ := none
  idOf _ _ := none
  map
    | .user => some [97, 108, 42, 58, 53, 44, 98, 111, 98, 58, 54]
    | .group => none
  wildmatch pattern name := pattern.dropLast.isPrefixOf name

/-- "alice", "bob" and a user without a name. -/
def namedUsers : IdTable where
  nodes := [(1000, some [97, 108, 105, 99, 101]), (1001, some [98, 111, 98]), (1002, none)]
  distinct := by decide
  nonzero := by decide
  lt := by decide

def noIds : IdTable := ⟨[], List.nodup_nil, nofun, nofun⟩

/-- A user whose name has 256 bytes. -/
def longUser : IdTable where
  nodes := [(1000, some (List.replicate 256 97))]
  distinct := by decide
  nonzero := by decide
  lt := by decide

end CloudEdgeBackup
