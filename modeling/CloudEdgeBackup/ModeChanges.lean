/-
  Mode changes (`chmod.c`).

  * `parseChmod` reads a mode string with a machine of three states, and makes of every clause a
    pair `ModeAND`/`ModeOR` by sums, differences and products; `tweakMode` applies the pairs;
  * `readClause` reads a clause by the letters in it, and `Clause.apply` says what it asks for in
    terms of classes and permissions. `parseLoop_readClauses` joins the two readings;
  * `closeBits` is the same construction by bit operations, and `close_eq_closeBits` says that
    nothing is borrowed or carried; `tweakMode_items` is the meaning of the whole list.

  Three requests are not met (`Clause.slipped`). Where neither `u` nor `g` is named, an `s` takes
  back the `t` before it. An `x` next to an `X` counts as an `X`, and an `X` to be removed as an `x`.
-/
import CloudEdgeBackup.Rsync

namespace CloudEdgeBackup

namespace Chmod

/-- An `int` of the code. -/
abbrev ModeBits := BitVec 32

/-- `CHMOD_BITS`. -/
def chmodBits : ModeBits := 0o7777

/-- `S_ISDIR`. -/
def IsDir (mode : ModeBits) : Prop := mode &&& 0o170000 = 0o040000

instance (mode : ModeBits) : Decidable (IsDir mode) := inferInstanceAs (Decidable (_ = _))

/-- The characters that the parser tells apart; `other` is an error everywhere. -/
inductive ModeChar where
  | D | F | u | g | o | a | plus | minus | equals | r | w | X | x | s | t | comma
  | digit (d : Fin 8)
  | other
  deriving DecidableEq

/-- A character of a mode string; `digit` is `isDigit(modestr) && *modestr < '8'`. -/
def modeChar (c : UInt8) : ModeChar :=
  match Char.ofNat c.toNat with
  | 'D' => .D
  | 'F' => .F
  | 'u' => .u
  | 'g' => .g
  | 'o' => .o
  | 'a' => .a
  | '+' => .plus
  | '-' => .minus
  | '=' => .equals
  | 'r' => .r
  | 'w' => .w
  | 'X' => .X
  | 'x' => .x
  | 's' => .s
  | 't' => .t
  | ',' => .comma
  | '0' => .digit 0
  | '1' => .digit 1
  | '2' => .digit 2
  | '3' => .digit 3
  | '4' => .digit 4
  | '5' => .digit 5
  | '6' => .digit 6
  | '7' => .digit 7
  | _ => .other

/-! ## The parser -/

inductive ChmodOp where
  | add | sub | eq | set
  deriving DecidableEq

inductive ChmodState where
  | firstHalf | secondHalf | octalNum
  deriving DecidableEq

/-- An item of the list: `ModeAND`, `ModeOR` and the flags. -/
structure ChmodMode where
  modeAnd : ModeBits
  modeOr : ModeBits
  xKeep : Bool
  dirsOnly : Bool
  filesOnly : Bool
  deriving DecidableEq

/-- The variables of `parse_chmod`; `STATE_ERROR` is the `none` of the functions below. -/
structure ChmodVars where
  state : ChmodState
  whereBits : ModeBits
  what : ModeBits
  op : Option ChmodOp
  topbits : ModeBits
  topoct : ModeBits
  xKeep : Bool
  dirsOnly : Bool
  filesOnly : Bool
  deriving DecidableEq

def ChmodVars.init : ChmodVars := ⟨.firstHalf, 0, 0, none, 0, 0, false, false, false⟩

/-- `*modestr - '0'`. -/
def digitOf (d : Fin 8) : ModeBits := BitVec.ofNat 32 d

def step (v : ChmodVars) (c : ModeChar) : Option ChmodVars :=
  match v.state, c with
  | .firstHalf, .D => if v.filesOnly then none else some { v with dirsOnly := true }
  | .firstHalf, .F => if v.dirsOnly then none else some { v with filesOnly := true }
  | .firstHalf, .u =>
    some { v with whereBits := v.whereBits ||| 0o100, topbits := v.topbits ||| 0o4000 }
  | .firstHalf, .g =>
    some { v with whereBits := v.whereBits ||| 0o010, topbits := v.topbits ||| 0o2000 }
  | .firstHalf, .o => some { v with whereBits := v.whereBits ||| 0o001 }
  | .firstHalf, .a => some { v with whereBits := v.whereBits ||| 0o111 }
  | .firstHalf, .plus => some { v with op := some .add, state := .secondHalf }
  | .firstHalf, .minus => some { v with op := some .sub, state := .secondHalf }
  | .firstHalf, .equals => some { v with op := some .eq, state := .secondHalf }
  | .firstHalf, .digit d =>
    if v.whereBits = 0 then
      some { v with op := some .set, state := .octalNum, whereBits := 1, what := digitOf d }
    else none
  | .secondHalf, .r => some { v with what := v.what ||| 4 }
  | .secondHalf, .w => some { v with what := v.what ||| 2 }
  | .secondHalf, .X => some { v with xKeep := true, what := v.what ||| 1 }
  | .secondHalf, .x => some { v with what := v.what ||| 1 }
  | .secondHalf, .s =>
    some { v with topoct := if v.topbits ≠ 0 then v.topoct ||| v.topbits else 0o4000 }
  | .secondHalf, .t => some { v with topoct := v.topoct ||| 0o1000 }
  | .octalNum, .digit d =>
    if v.what * 8 + digitOf d > chmodBits then none
    else some { v with what := v.what * 8 + digitOf d }
  | _, _ => none

/-- `where` at the end of a clause, all classes where none is named. -/
def ChmodVars.classes (v : ChmodVars) : ModeBits := if v.whereBits ≠ 0 then v.whereBits else 0o111

/-- `bits`, from the product of the classes and the permissions. -/
def ChmodVars.bits (umask : ModeBits) (v : ChmodVars) (product : ModeBits) : ModeBits :=
  if v.whereBits ≠ 0 then product else product &&& ~~~umask

/-- The end of a clause: its item, or an error without an operation. -/
def close (umask : ModeBits) (v : ChmodVars) : Option ChmodMode :=
  let bits := v.bits umask (v.classes * v.what)
  match v.op with
  | none => none
  | some .add => some ⟨chmodBits, bits + v.topoct, v.xKeep, v.dirsOnly, v.filesOnly⟩
  | some .sub => some ⟨chmodBits - bits - v.topoct, 0, v.xKeep, v.dirsOnly, v.filesOnly⟩
  | some .eq =>
    some ⟨chmodBits - v.classes * 7 - (if v.topoct ≠ 0 then v.topbits else 0), bits + v.topoct,
      v.xKeep, v.dirsOnly, v.filesOnly⟩
  | some .set => some ⟨0, bits, v.xKeep, v.dirsOnly, v.filesOnly⟩

/-- The product `where * what` by shifts. -/
def shiftBits (whereBits what : ModeBits) : ModeBits :=
  (if whereBits.getLsbD 6 then what <<< 6 else 0) ||| (if whereBits.getLsbD 3 then what <<< 3 else 0) |||
    (if whereBits.getLsbD 0 then what else 0)

/-- `close` by bit operations instead of arithmetic. -/
def closeBits (umask : ModeBits) (v : ChmodVars) : Option ChmodMode :=
  let bits := v.bits umask (shiftBits v.classes v.what)
  match v.op with
  | none => none
  | some .add => some ⟨chmodBits, bits ||| v.topoct, v.xKeep, v.dirsOnly, v.filesOnly⟩
  | some .sub =>
    some ⟨chmodBits &&& ~~~bits &&& ~~~v.topoct, 0, v.xKeep, v.dirsOnly, v.filesOnly⟩
  | some .eq =>
    some ⟨chmodBits &&& ~~~shiftBits v.classes 7 &&& ~~~(if v.topoct ≠ 0 then v.topbits else 0),
      bits ||| v.topoct, v.xKeep, v.dirsOnly, v.filesOnly⟩
  | some .set => some ⟨0, bits, v.xKeep, v.dirsOnly, v.filesOnly⟩

/-- The loop of `parse_chmod`. What follows a comma is read at once in the first state, and so the
    end of the string and a second comma are errors there. -/
def parseLoop (close : ChmodVars → Option ChmodMode) :
    ChmodVars → List ModeChar → Option (List ChmodMode)
  | v, [] => (close v).map fun m => [m]
  | v, c :: s =>
    if c = .comma then
      match close v, s with
      | some m, d :: s =>
        match step .init d with
        | some v => (parseLoop close v s).map fun ms => m :: ms
        | none => none
      | _, _ => none
    else
      match step v c with
      | some v => parseLoop close v s
      | none => none

/-- `parse_chmod`: the new items, `none` for an error, and the list they are added to. -/
def parseChmod (umask : ModeBits) (modestr : Bytes) (root : List ChmodMode) :
    Option (List ChmodMode) × List ChmodMode :=
  match parseLoop (close umask) .init (modestr.map modeChar) with
  | some ms => (some ms, root ++ ms)
  | none => (none, root)

/-! ## Applying a list -/

/-- A round of `tweak_mode` on a file whose mode was `mode₀`. -/
def tweakStep (mode₀ mode : ModeBits) (m : ChmodMode) : ModeBits :=
  if m.dirsOnly ∧ ¬IsDir mode₀ then mode
  else if m.filesOnly ∧ IsDir mode₀ then mode
  else if m.xKeep ∧ mode₀ &&& 0o111 = 0 ∧ ¬IsDir mode₀ then
    (mode &&& m.modeAnd) ||| (m.modeOr &&& ~~~0o111)
  else (mode &&& m.modeAnd) ||| m.modeOr

def tweakMode (mode : ModeBits) (ms : List ChmodMode) : ModeBits :=
  ms.foldl (tweakStep mode) mode ||| (mode &&& ~~~chmodBits)

/-! ## Clauses -/

inductive ClauseOp where
  | add | sub | eq
  deriving DecidableEq

/-- A clause with letters, by what is named in it. -/
structure Symbolic where
  user : Bool
  group : Bool
  other : Bool
  all : Bool
  op : ClauseOp
  read : Bool
  write : Bool
  exec : Bool
  execIf : Bool
  setId : Bool
  sticky : Bool
  /-- A `t` stands behind the last `s`. -/
  stickyLast : Bool

inductive ClauseBody where
  | symbolic (c : Symbolic)
  | octal (value : BitVec 12)

/-- A clause, for directories (`D`), for other files (`F`) or for all. -/
structure Clause where
  dirsOnly : Bool
  filesOnly : Bool
  body : ClauseBody

/-- The value of octal digits; `none` for another character. -/
def octalValue (n : ℕ) : List ModeChar → Option ℕ
  | [] => some n
  | .digit d :: cs => octalValue (n * 8 + d) cs
  | _ :: _ => none

def IsHead (c : ModeChar) : Bool := c ∈ [ModeChar.D, .F, .u, .g, .o, .a]
def IsPerm (c : ModeChar) : Bool := c ∈ [ModeChar.r, .w, .x, .X, .s, .t]

/-- The letters before and behind the operator, by membership. -/
def symbolicOf (head : List ModeChar) (op : ClauseOp) (perms : List ModeChar) : Symbolic where
  user := .u ∈ head
  group := .g ∈ head
  other := .o ∈ head
  all := .a ∈ head
  op := op
  read := .r ∈ perms
  write := .w ∈ perms
  exec := .x ∈ perms
  execIf := .X ∈ perms
  setId := .s ∈ perms
  sticky := .t ∈ perms
  stickyLast := .t ∈ perms.reverse.takeWhile (· ≠ .s)

/-- The body of a clause: an operator and permissions, or octal digits where no class is named. -/
def readBody (head : List ModeChar) : List ModeChar → Option ClauseBody
  | .plus :: perms => if perms.all IsPerm then some (.symbolic (symbolicOf head .add perms)) else none
  | .minus :: perms => if perms.all IsPerm then some (.symbolic (symbolicOf head .sub perms)) else none
  | .equals :: perms => if perms.all IsPerm then some (.symbolic (symbolicOf head .eq perms)) else none
  | .digit d :: digits =>
    if head.all (· ∈ [ModeChar.D, .F]) then
      match octalValue d digits with
      | some n => if n < 2 ^ 12 then some (.octal (BitVec.ofNat 12 n)) else none
      | none => none
    else none
  | _ => none

/-- A clause starts with the letters `D`, `F` (not both) and those of classes. -/
def readClause (piece : List ModeChar) : Option Clause :=
  let head := piece.takeWhile IsHead
  if ModeChar.D ∈ head ∧ ModeChar.F ∈ head then none
  else (readBody head (piece.dropWhile IsHead)).map fun body =>
    ⟨ModeChar.D ∈ head, ModeChar.F ∈ head, body⟩

/-- The clauses between the commas. -/
def readClauses (modestr : Bytes) : Option (List Clause) :=
  ((modestr.map modeChar).splitOn .comma).mapM readClause

/-! ## What a clause asks for -/

/-- The bits where the condition holds. -/
def bitsIf (b : Bool) (bits : ModeBits) : ModeBits := if b then bits else 0

namespace Symbolic

def named (c : Symbolic) : Bool := c.user || c.group || c.other || c.all

/-- The classes a clause is about: all of them when none is named. -/
def forUser (c : Symbolic) : Bool := c.user || c.all || !c.named
def forGroup (c : Symbolic) : Bool := c.group || c.all || !c.named
def forOther (c : Symbolic) : Bool := c.other || c.all || !c.named

/-- The permissions of one class; `X` is `x` where `hasX` holds. -/
def rwx (c : Symbolic) (hasX : Bool) : ModeBits :=
  bitsIf c.read 4 ||| bitsIf c.write 2 ||| bitsIf (c.exec || c.execIf && hasX) 1

/-- Permissions for all its classes. -/
def spread (c : Symbolic) (rwx : ModeBits) : ModeBits :=
  bitsIf c.forUser (rwx <<< 6) ||| bitsIf c.forGroup (rwx <<< 3) ||| bitsIf c.forOther rwx

/-- The umask masks the permissions only when no class is named. -/
def classBits (c : Symbolic) (umask : ModeBits) (hasX : Bool) : ModeBits :=
  if c.named then c.spread (c.rwx hasX) else c.spread (c.rwx hasX) &&& ~~~umask

/-- `s` is the set-user-id bit for `u`, the set-group-id bit for `g`, and the former where neither
    is named; `t` is the sticky bit. -/
def setIdBits (c : Symbolic) : ModeBits :=
  bitsIf (c.setId && (c.user || !c.group)) 0o4000 ||| bitsIf (c.setId && c.group) 0o2000

def given (c : Symbolic) (umask : ModeBits) (hasX : Bool) : ModeBits :=
  c.classBits umask hasX ||| c.setIdBits ||| bitsIf c.sticky 0o1000

/-- What `=` takes away first: all permissions of its classes and, where it sets an `s` or a `t`,
    the set-id bits of `u` and `g`. -/
def cleared (c : Symbolic) : ModeBits :=
  bitsIf c.forUser 0o700 ||| bitsIf c.forGroup 0o070 ||| bitsIf c.forOther 0o007 |||
    bitsIf ((c.setId || c.sticky) && c.user) 0o4000 ||| bitsIf ((c.setId || c.sticky) && c.group) 0o2000

def apply (c : Symbolic) (umask : ModeBits) (hasX : Bool) (mode : ModeBits) : ModeBits :=
  match c.op with
  | .add => mode ||| c.given umask hasX
  | .sub => mode &&& ~~~c.given umask hasX
  | .eq => (mode &&& ~~~c.cleared) ||| c.given umask hasX

end Symbolic

/-- The files whose `X` is an `x`, by the mode they had at first. -/
def HasX (mode₀ : ModeBits) : Bool := IsDir mode₀ ∨ mode₀ &&& 0o111 ≠ 0

namespace Clause

def AppliesTo (c : Clause) (mode₀ : ModeBits) : Prop :=
  (c.dirsOnly = true → IsDir mode₀) ∧ (c.filesOnly = true → ¬IsDir mode₀)

instance (c : Clause) (mode₀ : ModeBits) : Decidable (c.AppliesTo mode₀) := by
  unfold AppliesTo
  infer_instance

/-- The clause on a file whose mode was `mode₀`. -/
def apply (umask mode₀ : ModeBits) (mode : ModeBits) (c : Clause) : ModeBits :=
  if c.AppliesTo mode₀ then
    match c.body with
    | .symbolic c => c.apply umask (HasX mode₀) mode
    | .octal value => (mode &&& ~~~chmodBits) ||| value.setWidth 32
  else mode

end Clause

/-- The clauses one after the other. -/
def applyClauses (umask mode : ModeBits) (cs : List Clause) : ModeBits :=
  cs.foldl (Clause.apply umask mode) mode

/-! ## Requests that are not met -/

/-- The `t` as it is kept. -/
def Symbolic.kept (c : Symbolic) : Symbolic :=
  { c with sticky := if c.user || c.group then c.sticky else c.stickyLast }

/-- What is made of a clause with letters. -/
def Symbolic.slipped (c : Symbolic) : Symbolic :=
  { c.kept with
    exec := if c.op = .sub then c.exec || c.execIf else c.exec && !c.execIf }

def Clause.slipped (c : Clause) : Clause :=
  match c.body with
  | .symbolic b => { c with body := .symbolic b.slipped }
  | .octal _ => c

/-- The item of a clause, by bit operations. -/
def Clause.item (umask : ModeBits) (c : Clause) : ChmodMode :=
  match c.body with
  | .symbolic b =>
    match b.op with
    | .add => ⟨chmodBits, b.kept.given umask true, b.execIf, c.dirsOnly, c.filesOnly⟩
    | .sub => ⟨chmodBits &&& ~~~b.kept.given umask true, 0, b.execIf, c.dirsOnly, c.filesOnly⟩
    | .eq =>
      ⟨chmodBits &&& ~~~b.cleared, b.kept.given umask true, b.execIf, c.dirsOnly, c.filesOnly⟩
  | .octal value => ⟨0, value.setWidth 32, false, c.dirsOnly, c.filesOnly⟩

/-! ## Reading -/

/-- `where` and `topbits` by the letters. -/
def whereOf (u g o a : Bool) : ModeBits :=
  bitsIf (u || a) 0o100 ||| bitsIf (g || a) 0o010 ||| bitsIf (o || a) 0o001

def topbitsOf (u g : Bool) : ModeBits := bitsIf u 0o4000 ||| bitsIf g 0o2000

theorem whereOf_or : ∀ u g o a : Bool, whereOf u g o a ||| 0o100 = whereOf true g o a ∧
    whereOf u g o a ||| 0o010 = whereOf u true o a ∧ whereOf u g o a ||| 0o001 = whereOf u g true a ∧
    whereOf u g o a ||| 0o111 = whereOf u g o true := by
  decide

theorem topbitsOf_or : ∀ u g : Bool, topbitsOf u g ||| 0o4000 = topbitsOf true g ∧
    topbitsOf u g ||| 0o2000 = topbitsOf u true := by
  decide

/-- The variables behind the first letters of a clause. -/
def headVars (head : List ModeChar) : ChmodVars :=
  { ChmodVars.init with
    whereBits := whereOf (ModeChar.u ∈ head) (ModeChar.g ∈ head) (ModeChar.o ∈ head) (ModeChar.a ∈ head)
    topbits := topbitsOf (ModeChar.u ∈ head) (ModeChar.g ∈ head)
    dirsOnly := ModeChar.D ∈ head
    filesOnly := ModeChar.F ∈ head }

theorem step_headVars {head : List ModeChar} {c : ModeChar} (hc : IsHead c = true)
    (hok : ¬(ModeChar.D ∈ head ∧ ModeChar.F ∈ head)) :
    step (headVars head) c = if ModeChar.D ∈ head ++ [c] ∧ ModeChar.F ∈ head ++ [c] then none
      else some (headVars (head ++ [c])) := by
  obtain ⟨hu, hg, ho, ha⟩ := whereOf_or (ModeChar.u ∈ head) (ModeChar.g ∈ head) (ModeChar.o ∈ head)
    (ModeChar.a ∈ head)
  obtain ⟨htu, htg⟩ := topbitsOf_or (ModeChar.u ∈ head) (ModeChar.g ∈ head)
  cases c <;> first | (simp [IsHead] at hc; done) | skip
  case D => by_cases hF : ModeChar.F ∈ head <;> simp [step, headVars, ChmodVars.init, hF]
  case F => by_cases hD : ModeChar.D ∈ head <;> simp [step, headVars, ChmodVars.init, hD]
  case u => simp [step, headVars, ChmodVars.init, hok, ← hu, ← htu]
  case g => simp [step, headVars, ChmodVars.init, hok, ← hg, ← htg]
  case o => simp [step, headVars, ChmodVars.init, hok, ← ho]
  case a => simp [step, headVars, ChmodVars.init, hok, ← ha]

/-- The first letters: an error exactly where both `D` and `F` are among them. -/
theorem foldlM_head {l : List ModeChar} (hl : ∀ c ∈ l, IsHead c = true) :
    ∀ head : List ModeChar, ¬(ModeChar.D ∈ head ∧ ModeChar.F ∈ head) →
      l.foldlM step (headVars head) = if ModeChar.D ∈ head ++ l ∧ ModeChar.F ∈ head ++ l then none
        else some (headVars (head ++ l)) := by
  induction l with
  | nil =>
    intro head hok
    simp [hok]
  | cons c l ih =>
    intro head hok
    rw [List.foldlM_cons, step_headVars (hl c List.mem_cons_self) hok]
    by_cases hboth : ModeChar.D ∈ head ++ [c] ∧ ModeChar.F ∈ head ++ [c]
    · have hD : ModeChar.D ∈ head ++ c :: l := by grind
      have hF : ModeChar.F ∈ head ++ c :: l := by grind
      rw [if_pos hboth, if_pos ⟨hD, hF⟩]
      rfl
    · rw [if_neg hboth]
      simpa using ih (fun d hd => hl d (List.mem_cons_of_mem c hd)) (head ++ [c]) hboth

/-- `topoct` by the permissions. -/
def topoctOf (topbits : ModeBits) (perms : List ModeChar) : ModeBits :=
  if topbits ≠ 0 then bitsIf (ModeChar.s ∈ perms) topbits ||| bitsIf (ModeChar.t ∈ perms) 0o1000
  else bitsIf (ModeChar.s ∈ perms) 0o4000 |||
    bitsIf (ModeChar.t ∈ perms.reverse.takeWhile (· ≠ .s)) 0o1000

def whatOf (r w x : Bool) : ModeBits := bitsIf r 4 ||| bitsIf w 2 ||| bitsIf x 1

theorem whatOf_or : ∀ r w x : Bool, whatOf r w x ||| 4 = whatOf true w x ∧
    whatOf r w x ||| 2 = whatOf r true x ∧ whatOf r w x ||| 1 = whatOf r w true := by
  decide

/-- The variables behind an operator and permissions. -/
def permVars (v : ChmodVars) (perms : List ModeChar) : ChmodVars :=
  { v with
    what := whatOf (ModeChar.r ∈ perms) (ModeChar.w ∈ perms) (ModeChar.x ∈ perms || ModeChar.X ∈ perms)
    topoct := topoctOf v.topbits perms
    xKeep := ModeChar.X ∈ perms }

theorem bitsIf_or_self (b : Bool) (x : ModeBits) : bitsIf b x ||| x = x := by
  cases b <;> simp [bitsIf]

theorem topoctOf_s (topbits : ModeBits) (perms : List ModeChar) : topoctOf topbits (perms ++ [.s]) =
    if topbits ≠ 0 then topoctOf topbits perms ||| topbits else 0o4000 := by
  rw [topoctOf, topoctOf]
  split_ifs with htop
  · rw [BitVec.or_assoc, BitVec.or_comm _ topbits, ← BitVec.or_assoc, bitsIf_or_self]
    simp [bitsIf]
  · simp [bitsIf]

theorem topoctOf_t (topbits : ModeBits) (perms : List ModeChar) : topoctOf topbits (perms ++ [.t]) =
    topoctOf topbits perms ||| 0o1000 := by
  rw [topoctOf, topoctOf]
  split_ifs with htop
  · rw [BitVec.or_assoc, bitsIf_or_self]
    simp [bitsIf]
  · rw [BitVec.or_assoc, bitsIf_or_self]
    simp [bitsIf]

theorem step_permVars {v : ChmodVars} (hv : v.state = .secondHalf) (perms : List ModeChar)
    (c : ModeChar) : step (permVars v perms) c =
      if IsPerm c = true then some (permVars v (perms ++ [c])) else none := by
  obtain ⟨hr, hw, hx⟩ := whatOf_or (ModeChar.r ∈ perms) (ModeChar.w ∈ perms)
    (ModeChar.x ∈ perms || ModeChar.X ∈ perms)
  cases c <;> first | (simp [IsPerm, step, permVars, hv]; done) | skip
  case r => simp [step, permVars, IsPerm, hv, ← hr, topoctOf]
  case w => simp [step, permVars, IsPerm, hv, ← hw, topoctOf]
  case X => simp [step, permVars, IsPerm, hv, ← hx, topoctOf]
  case x => simp [step, permVars, IsPerm, hv, ← hx, topoctOf]
  case s => simp [step, permVars, IsPerm, hv, topoctOf_s]
  case t => simp [step, permVars, IsPerm, hv, topoctOf_t]

theorem foldlM_perms {v : ChmodVars} (hv : v.state = .secondHalf) (l : List ModeChar) :
    ∀ perms : List ModeChar, l.foldlM step (permVars v perms) =
      if l.all IsPerm then some (permVars v (perms ++ l)) else none := by
  induction l with
  | nil =>
    intro perms
    simp
  | cons c l ih =>
    intro perms
    rw [List.foldlM_cons, step_permVars hv]
    by_cases hc : IsPerm c = true
    · simpa [hc] using ih (perms ++ [c])
    · simp [hc]

/-- The variables behind octal digits. -/
def octalVars (v : ChmodVars) (n : ℕ) : ChmodVars := { v with what := BitVec.ofNat 32 n }

theorem le_octalValue {l : List ModeChar} : ∀ {n m : ℕ}, octalValue n l = some m → n ≤ m := by
  induction l with
  | nil =>
    intro n m h
    cases h
    exact le_rfl
  | cons c l ih =>
    intro n m h
    cases c <;> first | (cases h) | skip
    have := ih h
    omega

theorem foldlM_octal {v : ChmodVars} (hv : v.state = .octalNum) (l : List ModeChar) :
    ∀ n : ℕ, n < 2 ^ 12 → l.foldlM step (octalVars v n) = (octalValue n l).bind fun m =>
      if m < 2 ^ 12 then some (octalVars v m) else none := by
  induction l with
  | nil =>
    intro n hn
    simp only [octalValue, List.foldlM_nil, Option.bind_some, if_pos hn]
    rfl
  | cons c l ih =>
    intro n hn
    rw [List.foldlM_cons]
    cases c <;> first | (simp [step, octalVars, hv, octalValue]; done) | skip
    rename_i d
    have hd := d.isLt
    have hwhat : BitVec.ofNat 32 n * 8 + digitOf d = BitVec.ofNat 32 (n * 8 + d) := by
      rw [digitOf, BitVec.ofNat_add, BitVec.ofNat_mul]
      rfl
    have hstep : step (octalVars v n) (.digit d) =
        if n * 8 + d < 2 ^ 12 then some (octalVars v (n * 8 + d)) else none := by
      have hgt : BitVec.ofNat 32 (n * 8 + d) > chmodBits ↔ ¬n * 8 + d < 2 ^ 12 := by
        have hbits : BitVec.toNat chmodBits = 4095 := rfl
        rw [gt_iff_lt, BitVec.lt_def, BitVec.toNat_ofNat, Nat.mod_eq_of_lt (by omega), hbits]
        omega
      simp only [step, octalVars, hv, hwhat, hgt]
      split_ifs <;> simp_all
    rw [hstep, octalValue]
    split_ifs with hlt
    · exact ih _ hlt
    · cases hval : octalValue (n * 8 + d) l with
      | none => rfl
      | some m =>
        have := le_octalValue hval
        simp only [Option.bind_some]
        rw [if_neg (by omega)]
        rfl

/-! ## Sums and differences -/

/-- All bits of `x` are bits of `m`. -/
def Within (x m : ModeBits) : Prop := x &&& m = x

instance (x m : ModeBits) : Decidable (Within x m) := inferInstanceAs (Decidable (_ = _))

theorem within_iff {x m : ModeBits} :
    Within x m ↔ ∀ i, x.getLsbD i = true → m.getLsbD i = true := by
  constructor
  · intro h i hi
    rw [← h, BitVec.getLsbD_and, Bool.and_eq_true] at hi
    exact hi.2
  · intro h
    refine BitVec.eq_of_getLsbD_eq fun i _ => ?_
    rw [BitVec.getLsbD_and]
    cases hi : x.getLsbD i with
    | false => rfl
    | true => simp [h i hi]

theorem Within.trans {x y z : ModeBits} (hxy : Within x y) (hyz : Within y z) : Within x z :=
  within_iff.2 fun i hi => within_iff.1 hyz i (within_iff.1 hxy i hi)

theorem Within.and_not {x m y : ModeBits} (hx : Within x m) (hdisj : x &&& y = 0) :
    Within x (m &&& ~~~y) := by
  rw [Within, ← BitVec.and_assoc, hx]
  refine BitVec.eq_of_getLsbD_eq fun i hi => ?_
  have hbit := congrArg (fun z => z.getLsbD i) hdisj
  simp only [BitVec.getLsbD_and, BitVec.getLsbD_not, hi] at hbit ⊢
  cases hxi : x.getLsbD i <;> simp_all

theorem Within.and_eq_zero {x y a b : ModeBits} (hx : Within x a) (hy : Within y b)
    (hab : a &&& b = 0) : x &&& y = 0 := by
  rw [← hx, ← hy]
  calc x &&& a &&& (y &&& b) = x &&& y &&& (a &&& b) := by
        rw [BitVec.and_assoc, BitVec.and_assoc, ← BitVec.and_assoc a, BitVec.and_comm a y,
          BitVec.and_assoc y]
    _ = 0 := by rw [hab]; simp

theorem sub_eq_and_not {m x : ModeBits} (h : Within x m) : m - x = m &&& ~~~x := by
  have hdisj : (m &&& ~~~x) &&& x = 0 := by
    ext i hi
    simp
  have hm : (m &&& ~~~x) + x = m := by
    rw [BitVec.add_eq_or_of_and_eq_zero _ _ hdisj]
    refine BitVec.eq_of_getLsbD_eq fun i hi => ?_
    have hbit := within_iff.1 h i
    cases hx : x.getLsbD i <;> simp_all
  rw [← BitVec.add_sub_cancel (m &&& ~~~x) x, hm]

/-- The permissions lie below the set-id bits, class by class. -/
structure Formed (v : ChmodVars) : Prop where
  mul : v.classes * v.what = shiftBits v.classes v.what
  mul_seven : v.classes * 7 = shiftBits v.classes 7
  bits : Within (shiftBits v.classes v.what) 0o777
  bits_seven : Within (shiftBits v.classes 7) 0o777
  topoct : Within v.topoct 0o7000
  topbits : Within v.topbits 0o7000

/-- A difference of permissions and of set-id bits. -/
theorem sub_sub_eq {x y : ModeBits} (hx : Within x 0o777) (hy : Within y 0o7000) :
    chmodBits - x - y = chmodBits &&& ~~~x &&& ~~~y := by
  have hdisj : y &&& x = 0 := hy.and_eq_zero hx (by decide)
  have hfull : Within y chmodBits := hy.trans (by decide)
  rw [sub_eq_and_not (hx.trans (by decide)), sub_eq_and_not (hfull.and_not hdisj)]

theorem within_bits {v : ChmodVars} {umask x m : ModeBits} (hx : Within x m) :
    Within (v.bits umask x) m := by
  rw [ChmodVars.bits]
  split_ifs
  · exact hx
  · refine within_iff.2 fun i hi => within_iff.1 hx i ?_
    rw [BitVec.getLsbD_and, Bool.and_eq_true] at hi
    exact hi.1

/-- No clause borrows or carries. -/
theorem close_eq_closeBits {v : ChmodVars} (hv : Formed v) (umask : ModeBits) :
    close umask v = closeBits umask v := by
  have hbits : Within (v.bits umask (shiftBits v.classes v.what)) 0o777 := within_bits hv.bits
  have hadd := BitVec.add_eq_or_of_and_eq_zero _ _ (hbits.and_eq_zero hv.topoct (by decide))
  have hsub := sub_sub_eq hbits hv.topoct
  have htop : Within (if v.topoct ≠ 0 then v.topbits else 0) 0o7000 := by
    split_ifs
    · exact hv.topbits
    · decide
  have hseven := sub_sub_eq hv.bits_seven htop
  simp only [close, closeBits, hv.mul, hv.mul_seven, hadd, hsub, hseven]

/-! ## Items -/

def ClauseOp.toChmodOp : ClauseOp → ChmodOp
  | .add => .add
  | .sub => .sub
  | .eq => .eq

/-- The variables behind an operator. -/
def opVars (head : List ModeChar) (op : ChmodOp) (state : ChmodState) : ChmodVars :=
  { headVars head with op := some op, state := state }

/-- `where` at the end, by the letters. -/
theorem classes_of_letters : ∀ u g o a : Bool,
    (if whereOf u g o a ≠ 0 then whereOf u g o a else 0o111) =
      whereOf (u || a || !(u || g || o || a)) (g || a || !(u || g || o || a))
        (o || a || !(u || g || o || a)) false ∧
    (whereOf u g o a ≠ 0 ↔ (u || g || o || a) = true) := by
  decide

theorem shiftBits_whereOf : ∀ u g o r w x : Bool, shiftBits (whereOf u g o false) (whatOf r w x) =
    bitsIf u (whatOf r w x <<< 6) ||| bitsIf g (whatOf r w x <<< 3) ||| bitsIf o (whatOf r w x) := by
  decide

theorem mul_whereOf : ∀ u g o r w x : Bool, whereOf u g o false * whatOf r w x =
    shiftBits (whereOf u g o false) (whatOf r w x) ∧
    Within (shiftBits (whereOf u g o false) (whatOf r w x)) 0o777 := by
  decide

theorem topbits_cases : ∀ u g s t last : Bool,
    (if topbitsOf u g ≠ 0 then bitsIf s (topbitsOf u g) ||| bitsIf t 0o1000
      else bitsIf s 0o4000 ||| bitsIf last 0o1000) =
      bitsIf (s && (u || !g)) 0o4000 ||| bitsIf (s && g) 0o2000 |||
        bitsIf (if u || g then t else last) 0o1000 := by
  decide

theorem topoctOf_eq (head perms : List ModeChar) (op : ClauseOp) :
    topoctOf (topbitsOf (ModeChar.u ∈ head) (ModeChar.g ∈ head)) perms =
      (symbolicOf head op perms).setIdBits |||
        bitsIf (symbolicOf head op perms).kept.sticky 0o1000 :=
  topbits_cases _ _ _ _ _

theorem setId_within : ∀ u g s t : Bool, Within (bitsIf (s && (u || !g)) 0o4000 |||
    bitsIf (s && g) 0o2000 ||| bitsIf t 0o1000) 0o7000 ∧ Within (topbitsOf u g) 0o7000 := by
  decide

/-- The variables of a clause with letters, by what is named in it. -/
theorem symbolic_vars (head perms : List ModeChar) (op : ClauseOp) :
    let v := permVars (opVars head op.toChmodOp .secondHalf) perms
    let c := symbolicOf head op perms
    v.classes = whereOf c.forUser c.forGroup c.forOther false ∧
      (v.whereBits ≠ 0 ↔ c.named = true) ∧ v.what = c.rwx true ∧
      v.topoct = c.setIdBits ||| bitsIf c.kept.sticky 0o1000 ∧
      v.topbits = topbitsOf c.user c.group := by
  refine ⟨(classes_of_letters _ _ _ _).1, (classes_of_letters _ _ _ _).2, ?_, topoctOf_eq head perms op,
    rfl⟩
  simp [permVars, Symbolic.rwx, symbolicOf, whatOf]

theorem formed_symbolic (head perms : List ModeChar) (op : ClauseOp) :
    Formed (permVars (opVars head op.toChmodOp .secondHalf) perms) := by
  obtain ⟨hclasses, -, hwhat, htopoct, htopbits⟩ := symbolic_vars head perms op
  have hmul := mul_whereOf (symbolicOf head op perms).forUser (symbolicOf head op perms).forGroup
    (symbolicOf head op perms).forOther
  have hrwx : (symbolicOf head op perms).rwx true = whatOf _ _ _ := rfl
  refine ⟨?_, ?_, ?_, ?_, ?_, ?_⟩
  · rw [hclasses, hwhat, hrwx]
    exact (hmul _ _ _).1
  · rw [hclasses]
    exact (hmul true true true).1
  · rw [hclasses, hwhat, hrwx]
    exact (hmul _ _ _).2
  · rw [hclasses]
    exact (hmul true true true).2
  · rw [htopoct]
    exact (setId_within _ _ _ _).1
  · rw [htopbits]
    exact (setId_within _ _ false false).2

theorem cleared_cases : ∀ u g s t k : Bool, ((u || g) = true → k = t) →
    (if bitsIf (s && (u || !g)) 0o4000 ||| bitsIf (s && g) 0o2000 ||| bitsIf k 0o1000 ≠ 0 then
      topbitsOf u g else 0) = bitsIf ((s || t) && u) 0o4000 ||| bitsIf ((s || t) && g) 0o2000 := by
  decide

theorem shiftBits_seven : ∀ u g o : Bool, shiftBits (whereOf u g o false) 7 =
    bitsIf u 0o700 ||| bitsIf g 0o070 ||| bitsIf o 0o007 := by
  decide

/-- The item of a clause with letters. -/
theorem closeBits_symbolic (umask : ModeBits) (head perms : List ModeChar) (op : ClauseOp) :
    closeBits umask (permVars (opVars head op.toChmodOp .secondHalf) perms) =
      some (Clause.item umask ⟨ModeChar.D ∈ head, ModeChar.F ∈ head,
        .symbolic (symbolicOf head op perms)⟩) := by
  obtain ⟨hclasses, hnamed, hwhat, htopoct, htopbits⟩ := symbolic_vars head perms op
  have hop : (permVars (opVars head op.toChmodOp .secondHalf) perms).op = some op.toChmodOp := rfl
  have hcop : (symbolicOf head op perms).op = op := rfl
  generalize hv : permVars (opVars head op.toChmodOp .secondHalf) perms = v at *
  have hdirs : v.dirsOnly = decide (ModeChar.D ∈ head) := by rw [← hv]; rfl
  have hfiles : v.filesOnly = decide (ModeChar.F ∈ head) := by rw [← hv]; rfl
  have hkeep : v.xKeep = (symbolicOf head op perms).execIf := by rw [← hv]; rfl
  generalize symbolicOf head op perms = c at *
  have hbits : v.bits umask (shiftBits v.classes v.what) = c.classBits umask true := by
    rw [hclasses, hwhat, ChmodVars.bits, Symbolic.classBits]
    simp only [hnamed]
    rw [Symbolic.rwx, ← whatOf, shiftBits_whereOf, ← Symbolic.spread]
  have hgiven : c.classBits umask true ||| v.topoct =
      c.kept.given umask true := by
    rw [htopoct, ← BitVec.or_assoc]
    rfl
  have hcleared : shiftBits v.classes 7 ||| (if v.topoct ≠ 0 then v.topbits else 0) = c.cleared := by
    rw [hclasses, shiftBits_seven, htopoct, htopbits, Symbolic.setIdBits, cleared_cases _ _ _ c.sticky]
    · rw [← BitVec.or_assoc]
      rfl
    · intro hug
      simp [Symbolic.kept, hug]
  cases op
  case add =>
    simp only [closeBits, hop, ClauseOp.toChmodOp, hbits, hgiven, Clause.item, hcop, hkeep, hdirs, hfiles]
  case sub =>
    have hsub : chmodBits &&& ~~~c.classBits umask true &&& ~~~v.topoct =
        chmodBits &&& ~~~c.kept.given umask true := by
      rw [← hgiven, BitVec.not_or, BitVec.and_assoc]
    simp only [closeBits, hop, ClauseOp.toChmodOp, hbits, hsub, Clause.item, hcop, hkeep, hdirs, hfiles]
  case eq =>
    simp only [closeBits, hop, ClauseOp.toChmodOp, hbits, hgiven, ← hcleared, Clause.item, hcop, hkeep,
      hdirs, hfiles, BitVec.not_or, BitVec.and_assoc]

theorem whereBits_headVars {head : List ModeChar} (hhead : ∀ c ∈ head, IsHead c = true) :
    (headVars head).whereBits = 0 ↔ head.all (· ∈ [ModeChar.D, .F]) = true := by
  have hnamed := (classes_of_letters (ModeChar.u ∈ head) (ModeChar.g ∈ head) (ModeChar.o ∈ head)
    (ModeChar.a ∈ head)).2
  rw [← not_iff_not]
  refine hnamed.trans ?_
  simp only [Bool.or_eq_true, decide_eq_true_eq, List.all_eq_true, not_forall]
  constructor
  · rintro (((h | h) | h) | h) <;> exact ⟨_, h, by decide⟩
  · rintro ⟨c, hc, hne⟩
    have := hhead c hc
    cases c <;> simp_all [IsHead]

/-- The end of a clause, whether by arithmetic or by bit operations. -/
theorem bind_close {fin : ChmodVars → Option ChmodMode} {umask : ModeBits}
    (hfin : ∀ v, v.op = none → fin v = none)
    (hsym : ∀ v, Formed v → fin v = closeBits umask v)
    (hoct : ∀ v : ChmodVars, v.op = some .set → v.whereBits = 1 →
      fin v = some ⟨0, v.what, v.xKeep, v.dirsOnly, v.filesOnly⟩) (piece : List ModeChar) :
    (piece.foldlM step .init).bind fin = (readClause piece).map (Clause.item umask) := by
  have hhead : ∀ c ∈ piece.takeWhile IsHead, IsHead c = true := fun c hc =>
    List.mem_takeWhile_imp hc
  have hinit : ChmodVars.init = headVars [] := rfl
  rw [readClause]
  conv_lhs => rw [← List.takeWhile_append_dropWhile (p := IsHead) (l := piece), List.foldlM_append,
    hinit, foldlM_head hhead [] (by simp), List.nil_append]
  split_ifs with hboth
  · rfl
  simp only [Option.bind_eq_bind, Option.bind_some]
  have hrest := List.head?_dropWhile_not IsHead piece
  generalize piece.takeWhile IsHead = head at *
  generalize piece.dropWhile IsHead = rest at *
  have hsymbolic : ∀ (op : ClauseOp) (perms : List ModeChar),
      (perms.foldlM step (opVars head op.toChmodOp .secondHalf)).bind fin =
        ((if perms.all IsPerm then some (ClauseBody.symbolic (symbolicOf head op perms)) else none).map
          fun body => ⟨ModeChar.D ∈ head, ModeChar.F ∈ head, body⟩).map (Clause.item umask) := by
    intro op perms
    have hstart : opVars head op.toChmodOp .secondHalf =
        permVars (opVars head op.toChmodOp .secondHalf) [] := by
      simp [permVars, opVars, headVars, ChmodVars.init, whatOf, topoctOf, bitsIf]
    rw [hstart, foldlM_perms rfl, List.nil_append]
    split_ifs
    · exact (hsym _ (formed_symbolic head perms op)).trans (closeBits_symbolic umask head perms op)
    · rfl
  cases rest with
  | nil => exact hfin _ rfl
  | cons c rest =>
    rw [List.foldlM_cons]
    cases c with
    | D | F | u | g | o | a => simp [IsHead] at hrest
    | plus => exact hsymbolic .add rest
    | minus => exact hsymbolic .sub rest
    | equals => exact hsymbolic .eq rest
    | digit d =>
      have hnone := whereBits_headVars hhead
      let v : ChmodVars := { opVars head .set .octalNum with whereBits := 1 }
      by_cases hall : head.all (· ∈ [ModeChar.D, .F]) = true
      · have hstep : step (headVars head) (.digit d) = some (octalVars v d) :=
          if_pos (hnone.2 hall)
        rw [hstep, readBody, if_pos hall]
        simp only [Option.bind_eq_bind, Option.bind_some]
        rw [foldlM_octal (v := v) rfl rest d (by omega)]
        cases octalValue d rest with
        | none => rfl
        | some n =>
          simp only [Option.bind_some]
          split_ifs with hlt
          · simp only [Option.bind_some, Option.map_some, Clause.item]
            rw [hoct _ rfl rfl]
            simp only [octalVars, v, opVars, headVars, ChmodVars.init]
            congr 2
            refine BitVec.eq_of_toNat_eq ?_
            rw [BitVec.toNat_setWidth, BitVec.toNat_ofNat, BitVec.toNat_ofNat]
            omega
          · rfl
      · have hstep : step (headVars head) (.digit d) = none := if_neg (mt hnone.1 hall)
        rw [hstep, readBody, if_neg hall]
        rfl
    | r | w | X | x | s | t | comma | other => rfl

/-! ## A whole string -/

theorem parseLoop_cons {fin : ChmodVars → Option ChmodMode} {v : ChmodVars} {c : ModeChar}
    (hc : c ≠ .comma) (s : List ModeChar) :
    parseLoop fin v (c :: s) = (step v c).bind fun v => parseLoop fin v s := by
  rw [parseLoop.eq_def]
  cases hstep : step v c <;> simp [hc, hstep]

theorem parseLoop_comma {fin : ChmodVars → Option ChmodMode} (hfin : fin .init = none)
    (v : ChmodVars) (s : List ModeChar) : parseLoop fin v (.comma :: s) =
      (fin v).bind fun m => (parseLoop fin .init s).map fun ms => m :: ms := by
  cases hv : fin v with
  | none => cases s <;> simp [parseLoop, hv]
  | some m =>
    cases s with
    | nil => simp [parseLoop, hv, hfin]
    | cons d s =>
      by_cases hd : d = .comma
      · subst hd
        have hstep : step .init .comma = none := rfl
        cases s <;> simp [parseLoop, hv, hfin, hstep]
      · rw [parseLoop_cons hd]
        cases hstep : step .init d <;> simp [parseLoop, hv, hstep]

/-- A string from the middle of a clause: the rest of this clause, and the clauses behind it. -/
def parsePieces (fin : ChmodVars → Option ChmodMode) (v : ChmodVars) :
    List (List ModeChar) → Option (List ChmodMode)
  | [] => none
  | p :: ps => ((p.foldlM step v).bind fin).bind fun m =>
    (ps.mapM fun (p : List ModeChar) => (p.foldlM step .init).bind fin).map fun ms => m :: ms

theorem parseLoop_eq_parsePieces {fin : ChmodVars → Option ChmodMode} (hfin : fin .init = none)
    (s : List ModeChar) : ∀ v : ChmodVars,
      parseLoop fin v s = parsePieces fin v (s.splitOn .comma) := by
  induction s with
  | nil =>
    intro v
    cases h : fin v <;> simp [parseLoop, parsePieces, h]
  | cons c s ih =>
    intro v
    rw [List.splitOn, List.splitOnP_cons_eq_if_modifyHead, ← List.splitOn]
    by_cases hc : c = .comma
    · subst hc
      rw [parseLoop_comma hfin, ih .init]
      simp only [BEq.rfl, if_true]
      cases hs : s.splitOn .comma with
      | nil => exact (List.splitOn_ne_nil _ _ hs).elim
      | cons p ps => simp [parsePieces, List.mapM_cons, Option.map_eq_bind]
    · rw [parseLoop_cons hc]
      have hne : (c == ModeChar.comma) = false := by simpa using hc
      simp only [hne]
      cases hs : s.splitOn .comma with
      | nil => exact (List.splitOn_ne_nil _ _ hs).elim
      | cons p ps =>
        cases hstep : step v c with
        | none => simp [parsePieces, hstep]
        | some w => simp [parsePieces, hstep, ih w, hs]

theorem parseLoop_eq {fin : ChmodVars → Option ChmodMode} (hfin : fin .init = none)
    (s : List ModeChar) : parseLoop fin .init s =
      (s.splitOn .comma).mapM fun (p : List ModeChar) => (p.foldlM step .init).bind fin := by
  rw [parseLoop_eq_parsePieces hfin]
  cases hs : s.splitOn .comma with
  | nil => exact (List.splitOn_ne_nil _ _ hs).elim
  | cons p ps => simp [parsePieces, List.mapM_cons, Option.map_eq_bind]

theorem mapM_map_option {α β γ : Type} (f : α → Option β) (g : β → γ) (l : List α) :
    l.mapM (fun x => (f x).map g) = (l.mapM f).map (List.map g) := by
  induction l with
  | nil => rfl
  | cons x l ih =>
    rw [List.mapM_cons, List.mapM_cons, ih]
    cases f x <;> cases l.mapM f <;> rfl

theorem close_octal (umask : ModeBits) {v : ChmodVars} (hop : v.op = some .set)
    (hwhere : v.whereBits = 1) :
    close umask v = some ⟨0, v.what, v.xKeep, v.dirsOnly, v.filesOnly⟩ ∧
      closeBits umask v = some ⟨0, v.what, v.xKeep, v.dirsOnly, v.filesOnly⟩ := by
  have hne : v.whereBits ≠ 0 := by
    rw [hwhere]
    decide
  have hshift : shiftBits 1 v.what = v.what := by simp [shiftBits]
  have hmul : (1 : ModeBits) * v.what = v.what := BitVec.one_mul _
  have hclasses : v.classes = 1 := by rw [ChmodVars.classes, if_pos hne, hwhere]
  have hbits : ∀ product : ModeBits, v.bits umask product = product := fun product => if_pos hne
  constructor
  · simp only [close, hop, hbits, hclasses, hmul]
  · simp only [closeBits, hop, hbits, hclasses, hshift]

/-- The parser reads the clauses, and its sums, differences and products are bit operations. -/
theorem parseLoop_readClauses (umask : ModeBits) (modestr : Bytes) :
    parseLoop (close umask) .init (modestr.map modeChar) =
        (readClauses modestr).map (List.map (Clause.item umask)) ∧
      parseLoop (close umask) .init (modestr.map modeChar) =
        parseLoop (closeBits umask) .init (modestr.map modeChar) := by
  have hclose : ∀ v : ChmodVars, v.op = none → close umask v = none := by
    intro v hv
    simp [close, hv]
  have hcloseBits : ∀ v : ChmodVars, v.op = none → closeBits umask v = none := by
    intro v hv
    simp [closeBits, hv]
  have harith := bind_close hclose (fun v hv => close_eq_closeBits hv umask)
    fun v hop hwhere => (close_octal umask hop hwhere).1
  have hbits := bind_close hcloseBits (fun v _ => rfl) fun v hop hwhere => (close_octal umask hop hwhere).2
  rw [parseLoop_eq (hclose _ rfl), parseLoop_eq (hcloseBits _ rfl)]
  simp only [harith, hbits, mapM_map_option, readClauses, and_self]

/-! ## Applying the items -/

/-- A request to a bit: to be set, to be cleared, or none. -/
def Clause.asks (umask mode₀ : ModeBits) (i : ℕ) (c : Clause) : Option Bool :=
  if c.AppliesTo mode₀ then
    match c.body with
    | .symbolic c =>
      match c.op with
      | .add => if (c.given umask (HasX mode₀)).getLsbD i then some true else none
      | .sub => if (c.given umask (HasX mode₀)).getLsbD i then some false else none
      | .eq =>
        if (c.given umask (HasX mode₀)).getLsbD i then some true
        else if c.cleared.getLsbD i then some false else none
    | .octal value => if i < 12 then some (value.getLsbD i) else none
  else none

theorem getLsbD_chmodBits (i : ℕ) : BitVec.getLsbD chmodBits i = decide (i < 12) := by
  have hones : chmodBits = (BitVec.allOnes 12).setWidth 32 := by decide
  rw [hones, BitVec.getLsbD_setWidth, BitVec.getLsbD_allOnes]
  by_cases h : i < 12
  · simp [h, show i < 32 by omega]
  · simp [h]

theorem getLsbD_apply (umask mode₀ mode : ModeBits) (c : Clause) {i : ℕ} (hi : i < 32) :
    (c.apply umask mode₀ mode).getLsbD i = (c.asks umask mode₀ i).getD (mode.getLsbD i) := by
  rw [Clause.apply, Clause.asks]
  by_cases happ : c.AppliesTo mode₀
  · rw [if_pos happ, if_pos happ]
    cases c.body with
    | symbolic c =>
      simp only [Symbolic.apply]
      cases c.op <;> simp only [BitVec.getLsbD_or, BitVec.getLsbD_and, BitVec.getLsbD_not, hi]
      all_goals split_ifs <;> simp_all
    | octal value =>
      simp only [BitVec.getLsbD_or, BitVec.getLsbD_and, BitVec.getLsbD_not, hi, getLsbD_chmodBits,
        BitVec.getLsbD_setWidth]
      by_cases h12 : i < 12
      · simp [h12]
      · simp [h12, BitVec.getLsbD_of_ge value i (by omega)]
  · rw [if_neg happ, if_neg happ]
    rfl

theorem spread_cases : ∀ u g o r w x : Bool,
    (bitsIf u (whatOf r w x <<< 6) ||| bitsIf g (whatOf r w x <<< 3) ||| bitsIf o (whatOf r w x)) &&&
      ~~~(0o111 : ModeBits) = (bitsIf u (whatOf r w false <<< 6) |||
        bitsIf g (whatOf r w false <<< 3) ||| bitsIf o (whatOf r w false)) ∧
    Within (bitsIf u (whatOf r w x <<< 6) ||| bitsIf g (whatOf r w x <<< 3) ||| bitsIf o (whatOf r w x))
      0o777 := by
  decide

theorem setId_and_not : ∀ u g s t : Bool, (bitsIf (s && (u || !g)) 0o4000 |||
    bitsIf (s && g) 0o2000 ||| bitsIf t 0o1000) &&& ~~~(0o111 : ModeBits) =
      bitsIf (s && (u || !g)) 0o4000 ||| bitsIf (s && g) 0o2000 ||| bitsIf t 0o1000 := by
  decide

theorem or_and_distrib (x y m : ModeBits) : (x ||| y) &&& m = x &&& m ||| y &&& m := by
  ext i hi
  simp [Bool.and_or_distrib_right]

/-- Without the execute bits, what is given is what a clause without `x` and `X` gives. -/
theorem given_and_not (c : Symbolic) (umask : ModeBits) (hasX hasX' : Bool) :
    c.given umask hasX &&& ~~~0o111 =
      { c with exec := false, execIf := false }.given umask hasX' := by
  have hspread : c.spread (c.rwx hasX) &&& ~~~0o111 = c.spread (whatOf c.read c.write false) :=
    (spread_cases c.forUser c.forGroup c.forOther c.read c.write (c.exec || c.execIf && hasX)).1
  have hset := setId_and_not c.user c.group c.setId c.sticky
  have hclass : c.classBits umask hasX &&& ~~~0o111 =
      { c with exec := false, execIf := false }.classBits umask hasX' := by
    have hnamed : { c with exec := false, execIf := false }.named = c.named := rfl
    rw [Symbolic.classBits, Symbolic.classBits, hnamed]
    split_ifs
    · exact hspread
    · rw [BitVec.and_assoc, BitVec.and_comm (~~~umask), ← BitVec.and_assoc, hspread]
      rfl
  rw [Symbolic.given, BitVec.or_assoc, or_and_distrib, hclass, Symbolic.setIdBits, hset]
  exact (BitVec.or_assoc _ _ _).symm

theorem given_within (c : Symbolic) (umask : ModeBits) (hasX : Bool) :
    Within (c.given umask hasX) chmodBits := by
  have hspread : Within (c.spread (c.rwx hasX)) 0o777 :=
    (spread_cases c.forUser c.forGroup c.forOther c.read c.write (c.exec || c.execIf && hasX)).2
  have hset := (setId_within c.user c.group c.setId c.sticky).1
  refine within_iff.2 fun i hi => ?_
  rw [Symbolic.given, BitVec.or_assoc, BitVec.getLsbD_or, Bool.or_eq_true] at hi
  rcases hi with hi | hi
  · have hi : (c.spread (c.rwx hasX)).getLsbD i = true := by
      rw [Symbolic.classBits] at hi
      split_ifs at hi
      · exact hi
      · rw [BitVec.getLsbD_and, Bool.and_eq_true] at hi
        exact hi.1
    exact within_iff.1 (hspread.trans (by decide)) i hi
  · exact within_iff.1 (hset.trans (by decide)) i hi

theorem cleared_within (c : Symbolic) : Within c.cleared chmodBits := by
  have h : ∀ u g o s t : Bool, Within (bitsIf u 0o700 ||| bitsIf g 0o070 ||| bitsIf o 0o007 |||
      bitsIf s 0o4000 ||| bitsIf t 0o2000) chmodBits := by decide
  exact h _ _ _ _ _

/-- No clause asks for a bit of the file type. -/
theorem asks_eq_none (umask mode₀ : ModeBits) {i : ℕ} (hi : 12 ≤ i) (c : Clause) :
    c.asks umask mode₀ i = none := by
  have hout : ∀ x : ModeBits, Within x chmodBits → x.getLsbD i = false := by
    intro x hx
    have hbit := mt (within_iff.1 hx i)
    rw [getLsbD_chmodBits] at hbit
    simpa using hbit (by simpa using hi)
  rw [Clause.asks]
  cases c.body with
  | symbolic b =>
    simp only [hout _ (given_within b umask _), hout _ (cleared_within b)]
    cases b.op <;> simp
  | octal value => simp [hi.not_gt]

/-! ## What is made of the clauses -/

theorem given_exec (c : Symbolic) (umask : ModeBits) {e f h e' f' h' : Bool}
    (heq : (e || f && h) = (e' || f' && h')) : { c with exec := e, execIf := f }.given umask h =
      { c with exec := e', execIf := f' }.given umask h' := by
  simp only [Symbolic.given, Symbolic.classBits, Symbolic.rwx, heq]
  rfl

/-- What `+` and `=` give to a file: without the execute bits where an `X` is among the letters and
    the file has no `x`. -/
theorem given_slipped (c : Symbolic) (umask : ModeBits) (hasX : Bool) (hop : c.op ≠ .sub) :
    (if c.execIf = true ∧ hasX = false then
      c.kept.given umask true &&& ~~~0o111
    else c.kept.given umask true) = c.slipped.given umask hasX := by
  have hexec : c.slipped.exec = (c.exec && !c.execIf) := if_neg hop
  have hslipped : c.slipped = { c.kept with exec := c.slipped.exec, execIf := c.execIf } := rfl
  split_ifs with hkeep
  · rw [given_and_not _ umask true hasX, hslipped]
    refine given_exec _ umask ?_
    simp [hexec, hkeep]
  · conv_rhs => rw [hslipped]
    refine given_exec (e := c.exec) (f := c.execIf) c.kept umask ?_
    rw [hexec]
    clear hslipped
    cases hx : c.exec <;> cases hX : c.execIf <;> cases hasX <;> simp_all

theorem given_slipped_sub (c : Symbolic) (umask : ModeBits) (hasX : Bool) (hop : c.op = .sub) :
    c.kept.given umask true = c.slipped.given umask hasX := by
  have hexec : c.slipped.exec = (c.exec || c.execIf) := if_pos hop
  have hslipped : c.slipped = { c.kept with exec := c.slipped.exec, execIf := c.execIf } := rfl
  rw [hslipped]
  refine given_exec (e := c.exec) (f := c.execIf) c.kept umask ?_
  rw [hexec]
  cases hx : c.exec <;> cases hX : c.execIf <;> cases hasX <;> rfl

theorem cleared_slipped (c : Symbolic) : c.slipped.cleared = c.cleared := by
  have hforUser : c.slipped.forUser = c.forUser := rfl
  have hforGroup : c.slipped.forGroup = c.forGroup := rfl
  have hforOther : c.slipped.forOther = c.forOther := rfl
  rw [Symbolic.cleared, Symbolic.cleared, hforUser, hforGroup, hforOther]
  cases hu : c.user <;> cases hg : c.group <;> simp [Symbolic.slipped, Symbolic.kept, hu, hg]

theorem item_flags (umask : ModeBits) (c : Clause) :
    (c.item umask).dirsOnly = c.dirsOnly ∧ (c.item umask).filesOnly = c.filesOnly := by
  rw [Clause.item]
  cases c.body with
  | symbolic b =>
    simp only
    cases b.op <;> exact ⟨rfl, rfl⟩
  | octal value => exact ⟨rfl, rfl⟩

theorem slipped_flags (c : Clause) :
    c.slipped.dirsOnly = c.dirsOnly ∧ c.slipped.filesOnly = c.filesOnly := by
  rw [Clause.slipped]
  cases c.body <;> exact ⟨rfl, rfl⟩

theorem appliesTo_slipped (c : Clause) (mode₀ : ModeBits) :
    c.slipped.AppliesTo mode₀ ↔ c.AppliesTo mode₀ := by
  rw [Clause.AppliesTo, Clause.AppliesTo, (slipped_flags c).1, (slipped_flags c).2]

theorem tweakStep_eq (umask mode₀ a : ModeBits) (c : Clause) :
    tweakStep mode₀ a (c.item umask) = if c.AppliesTo mode₀ then
      (a &&& (c.item umask).modeAnd) |||
        (if (c.item umask).xKeep = true ∧ HasX mode₀ = false then (c.item umask).modeOr &&& ~~~0o111
          else (c.item umask).modeOr)
    else a := by
  have hX : HasX mode₀ = false ↔ mode₀ &&& 0o111 = 0 ∧ ¬IsDir mode₀ := by
    simp [HasX, and_comm]
  simp only [tweakStep, Clause.AppliesTo, item_flags, hX]
  split_ifs <;> simp_all

/-- A round of `tweak_mode` does what the clause asks for as it is made. -/
theorem getLsbD_tweakStep (umask mode₀ a b : ModeBits) (c : Clause) {i : ℕ} (hi : i < 12)
    (hab : a.getLsbD i = b.getLsbD i) : (tweakStep mode₀ a (c.item umask)).getLsbD i =
      (c.slipped.apply umask mode₀ b).getLsbD i := by
  have hfull : BitVec.getLsbD chmodBits i = true := by simp [getLsbD_chmodBits, hi]
  have hi32 : i < 32 := by omega
  rw [tweakStep_eq, Clause.apply]
  by_cases happ : c.AppliesTo mode₀
  · rw [if_pos happ, if_pos ((appliesTo_slipped c mode₀).2 happ)]
    cases hbody : c.body with
    | symbolic s =>
      simp only [Clause.slipped, hbody, Symbolic.apply, Clause.item]
      have hop : s.slipped.op = s.op := rfl
      rw [hop]
      cases h : s.op with
      | add =>
        simp only [given_slipped s umask _ (by simp [h]), BitVec.getLsbD_or, BitVec.getLsbD_and, hab, hfull,
          Bool.and_true]
      | sub =>
        simp only [given_slipped_sub s umask (HasX mode₀) h, BitVec.getLsbD_or, BitVec.getLsbD_and,
          BitVec.getLsbD_not, hi32, hab, hfull]
        simp
      | eq =>
        simp only [given_slipped s umask _ (by simp [h]), BitVec.getLsbD_or, BitVec.getLsbD_and,
          BitVec.getLsbD_not, hi32, hab, hfull, cleared_slipped]
        simp
    | octal value =>
      simp only [Clause.slipped, hbody, Clause.item, BitVec.getLsbD_or, BitVec.getLsbD_and,
        BitVec.getLsbD_not, hi32, hfull]
      simp
  · rw [if_neg happ, if_neg (mt (appliesTo_slipped c mode₀).1 happ), hab]

theorem getLsbD_foldl_tweakStep (umask mode₀ : ModeBits) (cs : List Clause) {i : ℕ} (hi : i < 12) :
    ∀ a b : ModeBits, a.getLsbD i = b.getLsbD i →
      ((cs.map (Clause.item umask)).foldl (tweakStep mode₀) a).getLsbD i =
        ((cs.map Clause.slipped).foldl (Clause.apply umask mode₀) b).getLsbD i := by
  induction cs with
  | nil => exact fun a b hab => hab
  | cons c cs ih => exact fun a b hab => ih _ _ (getLsbD_tweakStep umask mode₀ a b c hi hab)

theorem modeOr_within (umask : ModeBits) (c : Clause) : Within (c.item umask).modeOr chmodBits := by
  rw [Clause.item]
  cases c.body with
  | symbolic b =>
    simp only
    cases b.op with
    | add | eq => exact given_within _ umask true
    | sub => simp [Within]
  | octal value =>
    refine within_iff.2 fun i hi => ?_
    have hlt := BitVec.lt_of_getLsbD (x := value) (i := i) (by simp_all)
    simp [getLsbD_chmodBits, hlt]

/-- The list adds no bit of the file type. -/
theorem foldl_tweakStep_le (umask mode₀ : ModeBits) (cs : List Clause) {i : ℕ} (hi : 12 ≤ i) :
    ∀ a : ModeBits, ((cs.map (Clause.item umask)).foldl (tweakStep mode₀) a).getLsbD i = true →
      a.getLsbD i = true := by
  induction cs with
  | nil => exact fun a h => h
  | cons c cs ih =>
    intro a h
    have h := ih _ h
    rw [tweakStep_eq] at h
    have hor : (c.item umask).modeOr.getLsbD i = false := by
      have := mt (within_iff.1 (modeOr_within umask c) i)
      simpa [getLsbD_chmodBits, hi] using this
    split_ifs at h
    · simp_all
    · simp_all
    · exact h

/-- The last request to a bit. -/
def lastAsk (umask mode₀ : ModeBits) (i : ℕ) (cs : List Clause) : Option Bool :=
  (cs.filterMap (Clause.asks umask mode₀ i)).getLast?

theorem getLsbD_applyClauses (umask mode : ModeBits) (cs : List Clause) {i : ℕ} (hi : i < 32) :
    (applyClauses umask mode cs).getLsbD i = (lastAsk umask mode i cs).getD (mode.getLsbD i) := by
  induction cs using List.reverseRecOn with
  | nil => rfl
  | append_singleton cs c ih =>
    rw [applyClauses, List.foldl_append, List.foldl_cons, List.foldl_nil, getLsbD_apply _ _ _ _ hi,
      ← applyClauses, ih, lastAsk, lastAsk, List.filterMap_append]
    cases hc : c.asks umask mode i <;> simp [hc]

/-- The code does what the clauses ask for as they are made. -/
theorem tweakMode_items (umask mode : ModeBits) (cs : List Clause) :
    tweakMode mode (cs.map (Clause.item umask)) = applyClauses umask mode (cs.map Clause.slipped) := by
  refine BitVec.eq_of_getLsbD_eq fun i hi32 => ?_
  rw [tweakMode, BitVec.getLsbD_or, BitVec.getLsbD_and, BitVec.getLsbD_not, getLsbD_chmodBits]
  by_cases hi : i < 12
  · rw [getLsbD_foldl_tweakStep umask mode cs hi mode mode rfl, applyClauses]
    simp [hi]
  · have hnone : lastAsk umask mode i (cs.map Clause.slipped) = none := by
      have hall : (Clause.asks umask mode i) = fun _ => none :=
        funext fun c => asks_eq_none umask mode (by omega) c
      simp [lastAsk, hall]
    have hle := foldl_tweakStep_le umask mode cs (by omega : 12 ≤ i) mode
    rw [getLsbD_applyClauses _ _ _ hi32, hnone]
    cases hm : mode.getLsbD i <;> simp_all

theorem given_slipped_bit (c : Symbolic) (umask : ModeBits) (hasX : Bool) {i : ℕ} (hi : i < 32)
    (hplace : i ∉ [0, 3, 6, 9]) :
    (c.slipped.given umask hasX).getLsbD i = (c.given umask hasX).getLsbD i := by
  have hbits : ∀ i < 32, i ∉ [0, 3, 6, 9] → BitVec.getLsbD (0o111 : ModeBits) i = false ∧
      ∀ b, (bitsIf b 0o1000).getLsbD i = false := by decide
  obtain ⟨hx, hsticky⟩ := hbits i hi hplace
  have hnot : ∀ y : ModeBits, (y &&& ~~~0o111).getLsbD i = y.getLsbD i := by
    intro y
    simp only [BitVec.getLsbD_and, BitVec.getLsbD_not, hi, hx]
    simp
  rw [← hnot, given_and_not c.slipped umask hasX false, ← hnot (c.given umask hasX),
    given_and_not c umask hasX false]
  simp only [Symbolic.given, BitVec.getLsbD_or, hsticky, Bool.or_false]
  rfl

theorem asks_slipped (umask mode₀ : ModeBits) (c : Clause) {i : ℕ} (hi : i < 32)
    (hplace : i ∉ [0, 3, 6, 9]) : c.slipped.asks umask mode₀ i = c.asks umask mode₀ i := by
  have happ := appliesTo_slipped c mode₀
  rw [Clause.asks, Clause.asks]
  simp only [happ]
  cases hbody : c.body with
  | symbolic b =>
    have hop : b.slipped.op = b.op := rfl
    simp only [Clause.slipped, hbody, hop, given_slipped_bit b umask _ hi hplace, cleared_slipped]
  | octal value => simp only [Clause.slipped, hbody]

/-- The sticky bit and the execute bits end as the clauses ask for, in spite of what is made of the
    clauses: the last requests are the same, or else the bit has that value already. -/
def SlipsOverruled (umask mode : ModeBits) (cs : List Clause) : Prop :=
  ∀ i ∈ [0, 3, 6, 9], (lastAsk umask mode i (cs.map Clause.slipped)).getD (mode.getLsbD i) =
    (lastAsk umask mode i cs).getD (mode.getLsbD i)

/-- What holds of every mode string. -/
structure ChangesOnlyBits (umask : ModeBits) (modestr : Bytes) (root : List ChmodMode)
    (mode : ModeBits) : Prop where
  /-- An error leaves the list as it was. -/
  rejected : (parseChmod umask modestr root).1 = none → (parseChmod umask modestr root).2 = root
  accepted : ∀ ms, (parseChmod umask modestr root).1 = some ms →
    (parseChmod umask modestr root).2 = root ++ ms
  /-- Nothing is borrowed or carried. -/
  arithmetic : parseLoop (close umask) .init (modestr.map modeChar) =
    parseLoop (closeBits umask) .init (modestr.map modeChar)
  typeBits : ∀ ms, (parseChmod umask modestr root).1 = some ms →
    tweakMode mode ms &&& ~~~chmodBits = mode &&& ~~~chmodBits

/-- The items of an accepted string do what its clauses ask for. -/
def DoesClauses (umask : ModeBits) (modestr : Bytes) (root : List ChmodMode) (mode : ModeBits) : Prop :=
  ∀ ms, (parseChmod umask modestr root).1 = some ms →
    ∃ cs, readClauses modestr = some cs ∧ tweakMode mode ms = applyClauses umask mode cs

theorem changesOnlyBits (umask : ModeBits) (modestr : Bytes) (root : List ChmodMode) (mode : ModeBits) :
    ChangesOnlyBits umask modestr root mode := by
  have hread := (parseLoop_readClauses umask modestr).1
  refine ⟨?_, ?_, (parseLoop_readClauses umask modestr).2, ?_⟩
  · rw [parseChmod]
    cases parseLoop (close umask) .init (modestr.map modeChar) <;> simp
  · rw [parseChmod]
    cases parseLoop (close umask) .init (modestr.map modeChar) <;> simp
  · intro ms hms
    have hitems : (readClauses modestr).map (List.map (Clause.item umask)) = some ms := by
      rw [← hread]
      rw [parseChmod] at hms
      cases hloop : parseLoop (close umask) .init (modestr.map modeChar) <;> simp_all
    obtain ⟨cs, -, rfl⟩ := Option.map_eq_some_iff.1 hitems
    rw [tweakMode_items]
    refine BitVec.eq_of_getLsbD_eq fun i hi32 => ?_
    rw [BitVec.getLsbD_and, BitVec.getLsbD_and, BitVec.getLsbD_not, getLsbD_chmodBits]
    by_cases hi : i < 12
    · simp [hi]
    · have hall : (Clause.asks umask mode i) = fun _ => none :=
        funext fun c => asks_eq_none umask mode (by omega) c
      rw [getLsbD_applyClauses _ _ _ hi32, lastAsk, hall]
      simp

/-- **Mode changes.** A mode string changes no bit of the file type and its items are made without
    a borrow or a carry. What its clauses ask for happens exactly where the requests that are not
    met are overruled or make no difference. -/
theorem doesClauses_iff (umask : ModeBits) (modestr : Bytes) (root : List ChmodMode) (mode : ModeBits) :
    ChangesOnlyBits umask modestr root mode ∧
      (DoesClauses umask modestr root mode ↔
        ∀ cs, readClauses modestr = some cs → SlipsOverruled umask mode cs) := by
  refine ⟨changesOnlyBits umask modestr root mode, ?_⟩
  have hread := (parseLoop_readClauses umask modestr).1
  cases hcs : readClauses modestr with
  | none =>
    rw [hcs, Option.map_none] at hread
    simp [DoesClauses, parseChmod, hread]
  | some cs =>
    rw [hcs, Option.map_some] at hread
    have hsame : tweakMode mode (cs.map (Clause.item umask)) = applyClauses umask mode cs ↔
        SlipsOverruled umask mode cs := by
      rw [tweakMode_items]
      constructor
      · intro h i hi
        have hi32 : i < 32 := by
          have : ∀ j ∈ [0, 3, 6, 9], j < 32 := by decide
          exact this i hi
        rw [← getLsbD_applyClauses _ _ _ hi32, ← getLsbD_applyClauses _ _ _ hi32, h]
      · intro h
        refine BitVec.eq_of_getLsbD_eq fun i hi => ?_
        rw [getLsbD_applyClauses _ _ _ hi, getLsbD_applyClauses _ _ _ hi]
        by_cases hplace : i ∈ [0, 3, 6, 9]
        · exact h i hplace
        · have hfun : Clause.asks umask mode i ∘ Clause.slipped = Clause.asks umask mode i :=
            funext fun c => asks_slipped umask mode c hi hplace
          rw [lastAsk, List.filterMap_map, hfun, ← lastAsk]
    simp [DoesClauses, parseChmod, hread, hcs, hsame]

/-- `+ts` sets no sticky bit. -/
theorem not_doesClauses_ts : ¬DoesClauses 0o022 (cstr "+ts") [] 0 := by
  intro h
  obtain ⟨cs, hcs, heq⟩ := h [⟨chmodBits, 0o4000, false, false, false⟩] (by decide)
  have hread : readClauses (cstr "+ts") = some [⟨false, false, .symbolic
      ⟨false, false, false, false, .add, false, false, false, false, true, true, false⟩⟩] := by rfl
  rw [hread] at hcs
  cases hcs
  exact absurd heq (by decide)

end Chmod

end CloudEdgeBackup
