/-
  The generator and the entries of a group of hard links (`check_prior`, `hard_link_check`,
  `finish_hard_link` and `skip_hard_link` of hlink.c with their callers in generator.c, and
  `match_gnums` and `got_flist_entry_status` where they touch a group).

  Only one entry of a group is transferred.  An entry that is not there waits for a later one of
  the group, an entry that comes when one is being transferred waits behind that one, and all that
  wait are threaded through `F_HL_PREV`, which otherwise names the entry before, or when an entry is
  done the one it is linked to.  With incremental recursion the entries come in several lists, a
  list is freed when its `in_progress` is 0, and `prior_hlinks` keeps the path of a finished entry.

  * `LinkTable` is what the process has of a group, `LinkEvent.run` a round of the generator, a
    message of the receiver or one of `check_for_finished_files`;
  * `LinkTable.Reach`: the states after any sequence of these in which nothing is given up half way.

  What one group does to another is only to raise and to lower `in_progress`.
-/
import CloudEdgeBackup.HardLinkGroups

namespace CloudEdgeBackup

/-- An entry with `FLAG_HLINKED`. -/
structure LinkedFile where
  hlinkFirst : Bool
  hlinkLast : Bool
  hlinkDone : Bool
  fileSent : Bool
  skipHlink : Bool
  hlPrev : ℤ
deriving DecidableEq

/-- The data of the group's node in `prior_hlinks`: the index of the last entry, or the path of the
    entry that is finished. -/
inductive PriorNode where
  | last (ndx : ℕ)
  | path (ndx : ℕ)
deriving DecidableEq

/-- What does not change: the place of an index in the order of the generator, which is the order
    of the indexes without `unsort_ndx`, and the list it belongs to. -/
structure LinkOrder where
  incRecurse : Bool
  pos : ℕ → ℕ
  flistOf : ℕ → ℕ

/-- The entries have places of their own, and those of a list stand together. -/
structure LinkOrder.Ok (c : LinkOrder) : Prop where
  inj : ∀ {i j : ℕ}, c.pos i = c.pos j → i = j
  mono : ∀ {i j : ℕ}, c.pos i ≤ c.pos j → c.flistOf i ≤ c.flistOf j

/-- The group as the generator has it.  `next` is the place the generator has come to, `active` are
    the entries the receiver was asked for, `hlinkList` those it has told about, `made` the calls
    of `maybe_hard_link`, with the entry whose name is linked to.  `others` is the share of other
    entries in `in_progress`. -/
structure LinkTable where
  files : ℕ → LinkedFile
  members : Finset ℕ
  next : ℕ
  received : ℕ
  curFlist : ℕ
  firstFlist : ℕ
  inProgress : ℕ → ℤ
  others : ℕ → ℕ
  node : Option PriorNode
  active : Finset ℕ
  hlinkList : List ℤ
  made : List (ℕ × ℕ)

/-- What `check_prior` finds: an entry, or the name of a finished one. -/
inductive Prior where
  | entry (ndx : ℕ)
  | name (ndx : ℕ)
  | none
deriving DecidableEq

/-- The value of `hard_link_check`: 0, 1 or -1. -/
inductive LinkCheck where
  | process
  | skip
  | error
deriving DecidableEq

/-- What `recv_generator` makes of an entry: one of the calls of `handle_skipped_hlink`, before or
    after `hard_link_check`; no file to compare with, whose `stat` failed with `ENOENT` or not; a
    transfer; `finish_hard_link`, for a file that is up to date; or another way to `cleanup`. -/
inductive Verdict where
  | skipped (early : Bool)
  | missing (enoent : Bool)
  | sent
  | finished (altDest : ℤ)
  | abandoned
deriving DecidableEq

/-- The outcome for an entry, with those of the `stat` and the `link` of `hard_link_check`. -/
structure LinkOutcome where
  verdict : Verdict
  statOk : Bool
  linkOk : Bool
deriving DecidableEq

namespace LinkTable

def blank : LinkedFile := ⟨false, false, false, false, false, 0⟩

def start : LinkTable :=
  ⟨fun _ => blank, ∅, 0, 0, 0, 0, fun _ => 0, fun _ => 0, none, ∅, [], []⟩

variable (c : LinkOrder) (t : LinkTable)

def modify (i : ℕ) (f : LinkedFile → LinkedFile) : LinkTable :=
  { t with files := Function.update t.files i (f (t.files i)) }

def setPrev (i : ℕ) (z : ℤ) : LinkTable := t.modify i fun file => { file with hlPrev := z }

/-- `in_progress` of the list of an entry -/
def count (i : ℕ) (d : ℤ) : LinkTable :=
  { t with inProgress := Function.update t.inProgress (c.flistOf i) (t.inProgress (c.flistOf i) + d) }

/-- `flist_for_ndx`, for the entries of the group -/
def flistForNdx (ndx : ℤ) : Option ℕ :=
  if 0 ≤ ndx ∧ t.firstFlist ≤ c.flistOf ndx.toNat then some ndx.toNat else none

/-! ## `hlink.c` -/

/-- The loop of `check_prior`; `none` is a loop that does not end. -/
def priorLoop (i : ℕ) : ℕ → LinkTable → Option (LinkTable × Option ℕ)
  | 0, _ => none
  | fuel + 1, t =>
    match t.flistForNdx c (t.files i).hlPrev with
    | none => some (t, none)
    | some p =>
      if !(t.files p).skipHlink then some (t, some p)
      else priorLoop i fuel (t.setPrev i (t.files p).hlPrev)

/-- `check_prior` -/
def checkPrior (i : ℕ) : Option (LinkTable × Prior) := do
  let (t, found) ← t.priorLoop c i (t.members.card + 1)
  match found, t.node with
  | some p, _ => pure (t, .entry p)
  | none, some (.path n) => pure (t, if c.incRecurse then .name n else .none)
  | none, some (.last _) => pure (if c.incRecurse then t.setPrev i (-1) else t, .none)
  | none, none => pure (t, .none)

/-- The end of `hard_link_check`, with an entry to link to. -/
def linkTo (i target : ℕ) (o : LinkOutcome) : LinkTable × LinkCheck :=
  if !o.statOk then (t, .error)
  else
    let t := { t with made := t.made ++ [(i, target)] }
    if o.linkOk then (t.modify i fun file => { file with hlinkDone := true }, .skip)
    else (t, .error)

/-- `hard_link_check`; `none` is a failed assertion or a loop that does not end. -/
def hardLinkCheck (i : ℕ) (o : LinkOutcome) : Option (LinkTable × LinkCheck) := do
  let (t, prior) ← t.checkPrior c i
  match prior with
  | .none => pure (t, .process)
  | .name n => pure (t.linkTo i n o)
  | .entry p =>
    if !(t.files p).hlinkDone then
      if (t.files p).fileSent then
        let t := t.modify i fun file => { file with hlPrev := (t.files p).hlPrev, fileSent := true }
        pure ((t.setPrev p i).count c i 1, .skip)
      else pure (t, .process)
    else if !(t.files p).hlinkFirst then do
      let (t, prior) ← t.checkPrior c p
      match prior with
      | .entry q => pure ((t.setPrev i q).linkTo i q o)
      | .name n => pure ((t.setPrev i (-1)).linkTo i n o)
      | .none => none
    else pure (t.linkTo i p o)

/-- What `finish_hard_link` does with an entry that waits for `i`. -/
def finishOne (i ndx : ℕ) : LinkTable :=
  { t.modify ndx (fun file => { file with hlinkFirst := false, hlinkDone := true, hlPrev := i }) with
    made := t.made ++ [(ndx, i)] }.count c ndx (-1)

/-- The loop of `finish_hard_link` over the entries that wait for `i`; `none` is an index of no
    list, or a loop that does not end. -/
def finishLoop (i : ℕ) : ℕ → ℤ → LinkTable → Option LinkTable
  | 0, _, _ => none
  | fuel + 1, z, t =>
    if z < 0 then some t
    else do
      let ndx ← t.flistForNdx c z
      finishLoop i fuel (t.files ndx).hlPrev (t.finishOne c i ndx)

/-- `finish_hard_link`, whose `stp` may be given; `statOk` is the outcome of its own `link_stat`.
    `none` is one of its error exits. -/
def finishHardLink (i : ℕ) (stp statOk : Bool) (altDest : ℤ) : Option LinkTable :=
  let prev := (t.files i).hlPrev
  if !stp ∧ 0 ≤ prev ∧ !statOk then some t
  else do
    let t ← finishLoop c i (t.members.card + 1) prev
      (t.modify i fun file => { file with hlinkFirst := true, hlinkDone := true, hlPrev := altDest })
    if c.incRecurse then
      match t.node with
      | some (.last _) => some { t with node := some (.path i) }
      | _ => none
    else some t

/-- `skip_hard_link`; it gives the entry that is the last one now. -/
def skipHardLink (i : ℕ) : Option (LinkTable × Option ℕ) :=
  let t := t.modify i fun file => { file with skipHlink := true }
  if !(t.files i).hlinkLast then some (t, none)
  else do
    let (t, prior) ← t.checkPrior c i
    match prior with
    | .entry p =>
      if (t.files p).hlinkDone || (t.files p).fileSent then pure (t, none)
      else pure (t.modify p fun file => { file with hlinkLast := true }, some p)
    | _ => pure (t, none)

/-! ## The callers -/

/-- The receiver is asked for the entry. -/
def request (i : ℕ) : LinkTable :=
  { t.modify i (fun file => { file with fileSent := true }) with active := insert i t.active }

/-- `notify_others` -/
def notifyOthers (i : ℕ) : LinkTable :=
  (if c.incRecurse then t.count c i 1 else t).request i

/-- The call of `hard_link_check` in `recv_generator`. -/
def checkNotFirst (i : ℕ) (o : LinkOutcome) : Option (LinkTable × LinkCheck) :=
  if !(t.files i).hlinkFirst then t.hardLinkCheck c i o else some (t, .process)

/-- `recv_generator` behind `hard_link_check`, by what it finds of the entry. -/
def dispose (handle : ℕ → LinkTable → Option LinkTable) (i : ℕ) (t : LinkTable) :
    Verdict → Option LinkTable
  | .skipped _ => handle i t
  | .missing enoent =>
    if !(t.files i).hlinkLast then some (t.count c i 1)
    else if enoent then some (t.notifyOthers c i) else some t
  | .sent => some (t.notifyOthers c i)
  | .finished altDest => t.finishHardLink c i true true altDest
  | .abandoned => some t

/-- `recv_generator`, where `handle` is `handle_skipped_hlink`. -/
def recvGeneratorWith (handle : ℕ → LinkTable → Option LinkTable) (o : ℕ → LinkOutcome) (i : ℕ)
    (t : LinkTable) : Option LinkTable :=
  if (o i).verdict = .skipped true then handle i t
  else do
    let (t, check) ← t.checkNotFirst c i (o i)
    if check ≠ .process then some t else t.dispose c handle i (o i).verdict

/-- `handle_skipped_hlink`: the entry before the last one may now be the last, which
    `recv_generator` is called for again. -/
def handleSkippedHlink (o : ℕ → LinkOutcome) : ℕ → ℕ → LinkTable → Option LinkTable
  | 0, _, _ => none
  | fuel + 1, i, t => do
    let (t, newLast) ← t.skipHardLink c i
    match newLast with
    | none => some t
    | some p => recvGeneratorWith c (handleSkippedHlink o fuel) o p (t.count c p (-1))

/-- `recv_generator` -/
def recvGenerator (o : ℕ → LinkOutcome) (i : ℕ) : Option LinkTable :=
  recvGeneratorWith c (handleSkippedHlink c o (t.members.card + 1)) o i t

/-- The group's last entry is another one now, unless the group has a name. -/
def PriorNode.move (i : ℕ) : PriorNode → PriorNode
  | .last _ => .last i
  | .path m => .path m

/-- The inner loop of `match_gnums` and what follows it: the entries of a group in a new list. -/
def chain (prev : ℤ) : List ℕ → LinkTable → LinkTable
  | [], t => t
  | [i], t =>
    if prev < 0 ∧ !c.incRecurse then t
    else
      let t := { t with members := insert i t.members }.modify i
        fun file => { file with hlinkLast := true, hlPrev := prev }
      { t with node := t.node.map (PriorNode.move i) }
  | i :: j :: rest, t =>
    chain i (j :: rest) ({ t with members := insert i t.members }.setPrev i prev)

/-- The entries of a new list behind the last one so far, if its list is still there. -/
def chainBehind (last : ℤ) (i : ℕ) (ndxs : List ℕ) : LinkTable :=
  match t.flistForNdx c last with
  | some p => chain c p ndxs (t.modify p fun file => { file with hlinkLast := false })
  | none => chain c (-1) ndxs (t.modify i fun file => { file with hlinkFirst := true })

/-- `match_gnums`, for the group -/
def matchGnums (ndxs : List ℕ) : LinkTable :=
  match ndxs with
  | [] => t
  | i :: _ =>
    let first := fun t : LinkTable => t.modify i fun file => { file with hlinkFirst := true }
    if c.incRecurse then
      match t.node with
      | none => chain c (-1) ndxs (first { t with node := some (.last 0) })
      | some (.last prev) => t.chainBehind c prev i ndxs
      | some (.path _) => chain c (-1) ndxs t
    else chain c (-1) ndxs (first t)

end LinkTable

/-- What can come next: a list with these entries of the group, the next entry of the generator,
    the next list of the generator, a message of the receiver about an entry, the next number of
    `get_hlink_num`, the end of the first list, and another entry that comes into progress or goes
    out of it. -/
inductive LinkEvent where
  | arrive (ndxs : List ℕ)
  | generate (i : ℕ) (o : ℕ → LinkOutcome)
  | nextFlist
  | status (i : ℕ) (success : Bool)
  | finish (statOk : Bool) (o : ℕ → LinkOutcome)
  | free
  | other (flist : ℕ) (up : Bool)

namespace LinkEvent

variable (c : LinkOrder)

/-- When an event can come. -/
def Enabled (t : LinkTable) : LinkEvent → Prop
  | .arrive ndxs => (c.incRecurse = true ∨ t.received = 0 ∧ 2 ≤ ndxs.length) ∧
      (∀ i ∈ ndxs, c.flistOf i = t.received) ∧ ndxs.Pairwise fun i j => c.pos i < c.pos j
  | .generate i _ => i ∈ t.members ∧ t.next ≤ c.pos i ∧ c.flistOf i = t.curFlist ∧
      ∀ j ∈ t.members, t.next ≤ c.pos j → c.pos i ≤ c.pos j
  | .nextFlist => t.curFlist + 1 < t.received ∧
      ∀ j ∈ t.members, t.next ≤ c.pos j → t.curFlist < c.flistOf j
  | .status i _ => i ∈ t.active
  | .finish .. => t.hlinkList ≠ []
  | .free => t.firstFlist < t.curFlist ∧ t.inProgress t.firstFlist = 0 ∧ t.hlinkList = []
  | .other flist up => up = true ∨ 0 < t.others flist

instance (t : LinkTable) : (e : LinkEvent) → Decidable (e.Enabled c t)
  | .arrive _ => inferInstanceAs (Decidable (_ ∧ _ ∧ _))
  | .generate .. => inferInstanceAs (Decidable (_ ∧ _ ∧ _ ∧ _))
  | .nextFlist => inferInstanceAs (Decidable (_ ∧ _))
  | .status .. => inferInstanceAs (Decidable (_ ∈ _))
  | .finish .. => inferInstanceAs (Decidable (_ ≠ _))
  | .free => inferInstanceAs (Decidable (_ ∧ _ ∧ _))
  | .other .. => inferInstanceAs (Decidable (_ ∨ _))

/-- `check_for_finished_files`, with what `get_hlink_num` gives.  `none` is an error exit. -/
def finishNext (statOk : Bool) (o : ℕ → LinkOutcome) (t : LinkTable) : Option LinkTable :=
  match t.hlinkList with
  | [] => none
  | ndx :: rest =>
    if ndx = -2 then
      match rest with
      | [] => none
      | ndx :: rest => do
        let t ← LinkTable.handleSkippedHlink c o (t.members.card + 1) ndx.toNat { t with hlinkList := rest }
        some (t.count c ndx.toNat (-1))
    else do
      let t ← { t with hlinkList := rest }.finishHardLink c ndx.toNat false statOk (-1)
      some (t.count c ndx.toNat (-1))

/-- The state after an event. -/
def run (t : LinkTable) : LinkEvent → Option LinkTable
  | .arrive ndxs => some { t.matchGnums c ndxs with received := t.received + 1 }
  | .generate i o => { t with next := c.pos i + 1 }.recvGenerator c o i
  | .nextFlist => some { t with curFlist := t.curFlist + 1 }
  | .status i success => some { t with
      active := t.active.erase i
      hlinkList := t.hlinkList ++ if success then [(i : ℤ)] else [-2, (i : ℤ)] }
  | .finish statOk o => finishNext c statOk o t
  | .free => some { t with firstFlist := t.firstFlist + 1 }
  | .other flist up => some { t with
      others := Function.update t.others flist (if up then t.others flist + 1 else t.others flist - 1)
      inProgress := Function.update t.inProgress flist
        (t.inProgress flist + if up then 1 else -1) }

end LinkEvent

end CloudEdgeBackup
