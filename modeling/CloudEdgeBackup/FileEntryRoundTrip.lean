/-
  The receiver decodes the entries the sender encoded.

  * field by field, what is left out is what the receiver still has (`reads_modtime`,
    `reads_ids`, ...);
  * `InSync` relates the static variables of the two sides; one entry keeps it
    (`InSync.entry`), and so do whole lists (`InSync.items`);
  * one static is not kept: an abbreviated device leaves `rdev_major` alone in the
    receiver but not in the sender, and a later device can get a wrong major number
    (`not_entriesComeBack_rdevMajor`).  `SharesStatics` is the condition that no entry runs into it.
-/
import CloudEdgeBackup.FileEntry

namespace CloudEdgeBackup

open Codec

/-! ## The flags -/

namespace XFlags

theorem extended_bit : ∀ a b c d e f g h : Bool,
    (UInt8.ofNat (ofBits [a, b, c, d, e, f, g, h]) &&& 4 ≠ 0 ↔ c = true) := by
  decide

theorem endlist_bits : ∀ a b c d e f : Bool,
    UInt8.ofNat (ofBits [a, b, c, d, e, f]) = 16 → b = false ∧ e = true := by
  decide

theorem toBits_byte {bs : List Bool} {n : ℕ} (hn : bs.length = n) (h : n ≤ 8) :
    toBits n (UInt8.ofNat (ofBits bs)).toNat = bs := by
  subst hn
  have hlt : ofBits bs < 2 ^ 8 :=
    (ofBits_lt bs).trans_le (Nat.pow_le_pow_right (by norm_num) h)
  rw [UInt8.toNat_ofNat', Nat.mod_eq_of_lt hlt, toBits_ofBits]

theorem ofBytes_bits (x : XFlags) (extended : Bool) :
    ofBytes (UInt8.ofNat (ofBits (x.low extended))) (UInt8.ofNat (ofBits x.high)) = x := by
  have hlow : toBits 8 (UInt8.ofNat (ofBits (x.low extended))).toNat = x.low extended :=
    toBits_byte rfl le_rfl
  have hhigh : toBits 6 (UInt8.ofNat (ofBits x.high)).toNat = x.high := toBits_byte rfl (by norm_num)
  rw [ofBytes, hlow, hhigh]
  rfl

/-- The first byte is never zero and the two are never the mark of the list's end. -/
theorem reads_flags (x : XFlags) (hfirst : x.hlinkFirst = true → x.hlinked = true) :
    Reads readFlags x.bytes x := by
  have hlow := ofBytes_bits x
  rw [readFlags, bytes]
  split_ifs with hext
  · set b := UInt8.ofNat (ofBits (x.low true)) with hb
    have hbit : b &&& 4 ≠ 0 := (extended_bit _ _ _ _ _ _ _ _).2 rfl
    have hne : b ≠ 0 := by
      intro h0
      rw [h0] at hbit
      exact hbit rfl
    refine Reads.cons ?_
    rw [if_neg hne, if_pos hbit]
    refine Reads.cons ?_
    have hmark : ¬ (b = 4 ∧ UInt8.ofNat (ofBits x.high) = 16) := by
      rintro ⟨-, h16⟩
      obtain ⟨hno, hyes⟩ := endlist_bits _ _ _ _ _ _ h16
      rw [hfirst hyes] at hno
      cases hno
    rw [if_neg hmark, hlow]
    exact Reads.pure x
  · rw [extended, Bool.or_eq_true, not_or, decide_eq_true_eq, decide_eq_true_eq, not_not] at hext
    obtain ⟨hhigh, hnz⟩ := hext
    set b := UInt8.ofNat (ofBits (x.low false)) with hb
    have hbit : ¬ (b &&& 4 ≠ 0) := fun h => by
      have := (extended_bit _ _ _ _ _ _ _ _).1 h
      cases this
    have hne : b ≠ 0 := by
      intro h0
      have hlt := ofBits_lt (x.low false)
      have hnat := congrArg UInt8.toNat h0
      rw [hb, UInt8.toNat_ofNat', Nat.mod_eq_of_lt (by simpa [low] using hlt)] at hnat
      exact hnz hnat
    refine Reads.cons ?_
    rw [if_neg hne, if_neg hbit]
    have hx := hlow false
    rw [hhigh] at hx
    rw [← hb] at hx
    change ofBytes b 0 = x at hx
    rw [hx]
    exact Reads.pure x

end XFlags

/-! ## What can be sent -/

/-- Names are short, and they mean the same ids on both sides. -/
structure IdOpts.Ok (i : IdOpts) : Prop where
  name_length : ∀ id name, i.name id = some name → name.length < 256
  localId : ∀ id name, i.localId id name = id

structure ListOpts.Ok (o : ListOpts) : Prop where
  protocol : 28 ≤ o.protocolVersion
  incRecurse : o.incRecurse = true → 30 ≤ o.protocolVersion
  user : o.user.Ok
  group : o.group.Ok

/-- The entries `make_file` makes: cleaned names, values of the fields' types. -/
structure FileEntry.Ok (o : ListOpts) (e : FileEntry) : Prop where
  name_ne : e.name ≠ []
  name_length : e.name.length < maxPathLen
  name_clean : cleanFname e.name = some e.name
  name_relative : o.relativePaths = true ∨ e.name.head? ≠ some slashByte
  mode : e.mode < 2 ^ 16
  length : (isReg e.mode = true ∧ e.length < 2 ^ 63) ∨ e.length < 2 ^ 32
  length_zero : isDevice e.mode = true ∨ isSpecial e.mode = true → e.length = 0
  modtime : if 30 ≤ o.protocolVersion then IsInt64 e.modtime else IsInt32 e.modtime
  modNsec : e.modNsec < 10 ^ 9 ∧ (e.modNsec ≠ 0 → 31 ≤ o.protocolVersion)
  owner : e.owner < 2 ^ 32
  group : e.group < 2 ^ 32
  rdev : e.rdev.1 < 2 ^ 32 ∧ e.rdev.2 < 2 ^ 32
  symlink : isLnk e.mode = true → e.symlink ≠ [] ∧ e.symlink.length < maxPathLen
  inode : ∀ k, e.inode = some k → k.1 ≠ -1 ∧ IsInt64 k.1 ∧ IsInt64 (k.1 + 1) ∧ IsInt64 k.2
  sum : isReg e.mode = true → e.sum.length = o.flistCsumLen

/-! ## One field -/

section Fields

variable {o : ListOpts} {x : XFlags}

theorem toUint32_int32 {n : ℕ} (h : n < 2 ^ 32) : toUint32 (int32 n) = n := by
  rw [toUint32, int32]
  have hmod : Int.bmod (n : ℤ) (2 ^ 32) % 2 ^ 32 = n % 2 ^ 32 := Int.bmod_emod
  omega

theorem isInt32_int32 (x : ℤ) : IsInt32 (int32 x) := by
  have hlo := Int.le_bmod (x := x) (m := 2 ^ 32) (by norm_num)
  have hhi := Int.bmod_lt (x := x) (m := 2 ^ 32) (by norm_num)
  rw [IsInt32, int32]
  constructor <;> omega

theorem isInt32_ofNat {n : ℕ} (h : n < 2 ^ 31) : IsInt32 n := ⟨by omega, by omega⟩

theorem toUint32_ofNat {n : ℕ} (h : n < 2 ^ 32) : toUint32 n = n := by
  rw [toUint32]
  omega

theorem reads_varint30 {n : ℤ} (h : IsInt32 n) : Reads (readVarint30 o) (writeVarint30 o n) n := by
  rw [readVarint30, writeVarint30]
  split_ifs
  · exact reads_int h
  · exact reads_varint h

theorem reads_varlong30 {n : ℤ} (h : IsInt64 n) :
    Reads (readVarlong30 o 3) (writeVarlong30 o n 3) n := by
  rw [readVarlong30, writeVarlong30]
  split_ifs
  · exact reads_longint h
  · exact reads_varlong h le_rfl (by norm_num)

/-- One byte, as a number. -/
theorem reads_byte {n : ℕ} (h : n < 256) : Reads (UInt8.toNat <$> get1 : In ℕ) [UInt8.ofNat n] n := by
  have hn : (UInt8.ofNat n).toNat = n := by rw [UInt8.toNat_ofNat', Nat.mod_eq_of_lt h]
  intro rest
  change some ((UInt8.ofNat n).toNat, rest) = _
  rw [hn]

theorem samePrefix_spec (n : ℕ) (a b : Bytes) :
    samePrefix n a b ≤ n ∧ samePrefix n a b ≤ b.length ∧
      a.take (samePrefix n a b) = b.take (samePrefix n a b) := by
  induction n generalizing a b with
  | zero => simp [samePrefix]
  | succ n ih =>
    cases a with
    | nil => simp [samePrefix]
    | cons x as =>
      cases b with
      | nil => simp [samePrefix]
      | cons y bs =>
        rw [samePrefix]
        split_ifs with hxy
        · obtain ⟨hn, hlen, htake⟩ := ih as bs
          refine ⟨by omega, by simpa using hlen, ?_⟩
          rw [List.take_succ_cons, List.take_succ_cons, hxy, htake]
        · simp

theorem reads_name {last name : Bytes} (hlen : name.length < maxPathLen)
    (hsame : x.sameName = decide (0 < samePrefix 255 last name))
    (hlong : x.longName = decide (255 < name.length - samePrefix 255 last name)) :
    Reads (readName o x last) (writeName o x (samePrefix 255 last name) name) name := by
  obtain ⟨h255, hle, htake⟩ := samePrefix_spec 255 last name
  have hmax : name.length < 4096 := hlen
  set l1 := samePrefix 255 last name with hl1
  have hread1 : Reads (readL1 x) (if x.sameName then [UInt8.ofNat l1] else []) l1 := by
    rw [readL1]
    split_ifs with hx
    · exact reads_byte (by omega)
    · rw [hsame, decide_eq_true_eq] at hx
      rw [show l1 = 0 by omega]
      exact Reads.pure 0
  have hread2 : Reads (readL2 o x)
      (if x.longName then writeVarint30 o (name.length - l1 : ℕ) else [UInt8.ofNat (name.length - l1)])
      (name.length - l1) := by
    rw [readL2]
    split_ifs with hx
    · have hint : IsInt32 (name.length - l1 : ℕ) := isInt32_ofNat (by omega)
      refine (reads_varint30 hint).bind_nil ?_
      rw [toUint32_ofNat (by omega)]
      exact Reads.pure _
    · rw [hlong, decide_eq_true_eq] at hx
      exact reads_byte (by omega)
  refine hread1.bind (hread2.bind ?_)
  rw [if_neg (by omega)]
  have hdrop : (name.drop l1).length = name.length - l1 := List.length_drop
  refine (reads_getN_of_length hdrop).bind_nil ?_
  rw [htake, List.take_append_drop]
  exact Reads.pure name

theorem reads_modtime {m old : ℤ}
    (hm : if 30 ≤ o.protocolVersion then IsInt64 m else IsInt32 m)
    (hsame : x.sameTime = true → old = m) :
    Reads (readModtime o x old) (writeModtime o x m) m := by
  rw [readModtime, writeModtime]
  split_ifs at hm ⊢ with hx hv hv
  · rw [hsame hx]
    exact Reads.pure m
  · rw [hsame hx]
    exact Reads.pure m
  · exact reads_varlong hm (by norm_num) (by norm_num)
  · exact reads_int hm

theorem reads_modNsec {n : ℕ} (hn : n < 2 ^ 32) (hx : x.modNsec = false → n = 0) :
    Reads (readModNsec x) (if x.modNsec then writeVarint (int32 n) else []) n := by
  rw [readModNsec]
  split_ifs with hnsec
  · refine (reads_varint (isInt32_int32 n)).bind_nil ?_
    rw [toUint32_int32 hn]
    exact Reads.pure n
  · rw [hx (by simpa using hnsec)]
    exact Reads.pure 0

theorem reads_mode {mode old : ℕ} (hmode : mode < 2 ^ 32) (hsame : x.sameMode = true → old = mode) :
    Reads (readMode x old) (if x.sameMode then [] else writeInt (int32 mode)) mode := by
  rw [readMode]
  split_ifs with hx
  · rw [hsame hx]
    exact Reads.pure mode
  · refine (reads_int (isInt32_int32 mode)).bind_nil ?_
    rw [toUint32_int32 hmode]
    exact Reads.pure mode

theorem reads_symlinkLen {e : FileEntry} (h : isLnk e.mode = true → e.symlink ≠ [] ∧
      e.symlink.length < maxPathLen) :
    ∃ n ws, Reads (readSymlinkLen o e.mode) ws n ∧
      Reads (getN n) (if o.preserveLinks && isLnk e.mode then e.symlink else [])
        (if o.preserveLinks && isLnk e.mode then e.symlink else []) ∧
      writeSymlink o e = ws ++ if o.preserveLinks && isLnk e.mode then e.symlink else [] := by
  rw [readSymlinkLen, writeSymlink]
  by_cases hlink : (o.preserveLinks && isLnk e.mode) = true
  · obtain ⟨hne, hlen⟩ := h (by simpa using (Bool.and_eq_true_iff.1 hlink).2)
    have hmax : e.symlink.length < 4096 := hlen
    have hint : IsInt32 e.symlink.length := isInt32_ofNat (by omega)
    refine ⟨e.symlink.length, writeVarint30 o e.symlink.length, ?_, ?_, ?_⟩
    · rw [if_pos hlink]
      refine (reads_varint30 hint).bind_nil ?_
      rw [if_neg (by omega), Int.toNat_natCast]
      exact Reads.pure _
    · rw [if_pos hlink]
      exact reads_getN _
    · simp [hlink, hne]
  · refine ⟨0, [], ?_, ?_, ?_⟩
    · rw [if_neg hlink]
      exact Reads.pure 0
    · rw [if_neg hlink]
      exact reads_getN []
    · simp [hlink]

theorem reads_fileSum {e : FileEntry} (h : isReg e.mode = true → e.sum.length = o.flistCsumLen) :
    Reads (readFileSum o e.mode) (writeFileSum o e) (writeFileSum o e) := by
  rw [readFileSum, writeFileSum]
  split_ifs with hsum
  · exact reads_getN_of_length (h (Bool.and_eq_true_iff.1 hsum).2)
  · exact Reads.pure []

/-- The same id on both sides, and a table that changes no id. -/
structure SentIds.InSync (s : SentIds) (t : RecvIds) : Prop where
  id : s.id = t.id
  list : ∀ p ∈ t.list, p.2 = p.1

theorem addId_name {i : IdOpts} (hi : i.Ok) {seen : List ℕ} {id : ℕ} {name : Bytes}
    (h : (addId i seen id).1 = some name) : name.length < 256 := by
  rw [addId] at h
  split_ifs at h
  exact hi.name_length id name h

theorem SentIds.next_name {i : IdOpts} (hi : i.Ok) {s : SentIds} {id : ℕ} {last name : Bytes}
    (h : (s.next o i id last).1 = some name) : name.length < 256 := by
  rw [SentIds.next] at h
  split_ifs at h
  exact addId_name hi h

theorem SentIds.next_id {i : IdOpts} {s : SentIds} {id : ℕ} {last : Bytes}
    (h : i.preserve = true) : (s.next o i id last).2.id = id := by
  rw [SentIds.next]
  by_cases hsame : s.same i id last = true
  · rw [if_pos hsame]
    rw [SentIds.same, h] at hsame
    simp only [Bool.not_true, Bool.false_or, Bool.and_eq_true, decide_eq_true_eq] at hsame
    exact hsame.1.symm
  · rw [if_neg hsame]
    split_ifs <;> rfl

theorem SentIds.next_same {i : IdOpts} {s : SentIds} {id : ℕ} {last : Bytes}
    (h : s.same i id last = true) : s.next o i id last = (none, s) := by
  rw [SentIds.next, if_pos h]

theorem matchId_ok {i : IdOpts} (hi : i.Ok) {list : List (ℕ × ℕ)} (hlist : ∀ p ∈ list, p.2 = p.1)
    (id : ℕ) : (matchId i list id).id = id ∧ ∀ p ∈ (matchId i list id).list, p.2 = p.1 := by
  rw [matchId]
  cases hlook : list.lookup id with
  | some id2 =>
    obtain ⟨l₁, l₂, hl, -⟩ := List.lookup_eq_some_iff.1 hlook
    refine ⟨hlist (id, id2) (by rw [hl]; simp), hlist⟩
  | none =>
    refine ⟨hi.localId id none, ?_⟩
    intro p hp
    rcases List.mem_cons.1 hp with rfl | hp
    · exact hi.localId id none
    · exact hlist p hp

/-- An id is read as it was written, with the name that may follow it. -/
theorem reads_id {i : IdOpts} (hi : i.Ok) {s : SentIds} {t : RecvIds} (hst : s.InSync t) {id : ℕ}
    (hid : id < 2 ^ 32) {last : Bytes} {follows : Bool}
    (hfollows : 30 ≤ o.protocolVersion → follows = (s.next o i id last).1.isSome) :
    ∃ t', Reads (readId o i (s.same i id last) follows t)
        (writeId o i (s.same i id last) id (s.next o i id last).1) t' ∧
      (s.next o i id last).2.InSync t' ∧ (i.preserve = true → t'.id = id) := by
  rw [readId, writeId]
  have hnext : i.preserve = true → (s.next o i id last).2.id = id := SentIds.next_id
  by_cases hsame : s.same i id last = true
  · have hskip : ¬ ((i.preserve && !s.same i id last) = true) := by rw [hsame]; simp
    rw [SentIds.next_same hsame] at hnext
    rw [if_neg hskip, if_neg hskip, SentIds.next_same hsame]
    exact ⟨t, Reads.pure t, hst, fun hpre => hst.id.symm.trans (hnext hpre)⟩
  · have hpre : i.preserve = true := by
      by_contra hno
      exact hsame (by simp [SentIds.same, hno])
    have hsend : (i.preserve && !s.same i id last) = true := by simp [hpre, hsame]
    specialize hnext hpre
    rw [if_pos hsend, if_pos hsend]
    split_ifs with hv
    · refine ⟨⟨id, t.list⟩, ?_, ⟨hnext, hst.list⟩, fun _ => rfl⟩
      refine (reads_int (isInt32_int32 id)).bind_nil ?_
      rw [toUint32_int32 hid]
      exact Reads.pure _
    · have hread := reads_varint (isInt32_int32 id)
      rw [hfollows (not_lt.1 hv)]
      cases hname : (s.next o i id last).1 with
      | none =>
        set r := if o.incRecurse && i.mapped then matchId i t.list id else ⟨id, t.list⟩ with hr
        have hok : r.id = id ∧ ∀ p ∈ r.list, p.2 = p.1 := by
          rw [hr]
          split_ifs
          · exact matchId_ok hi hst.list id
          · exact ⟨rfl, hst.list⟩
        refine ⟨r, hread.bind ?_, ⟨hnext.trans hok.1.symm, hok.2⟩, fun _ => hok.1⟩
        rw [toUint32_int32 hid]
        exact Reads.pure r
      | some name =>
        have hlen := SentIds.next_name hi hname
        have hloc := hi.localId id (some name)
        refine ⟨recvAddId i t.list id (some name), hread.bind ?_, ⟨hnext.trans hloc.symm, ?_⟩,
          fun _ => hloc⟩
        · rw [toUint32_int32 hid]
          refine Reads.cons ?_
          rw [UInt8.toNat_ofNat', Nat.mod_eq_of_lt hlen]
          exact (reads_getN name).bind_nil (Reads.pure _)
        · intro p hp
          rcases List.mem_cons.1 hp with rfl | hp
          · exact hloc
          · exact hst.list p hp

theorem reads_rdevMinor {e : FileEntry} (hrdev : e.rdev.2 < 2 ^ 32)
    (hminor : o.protocolVersion < 30 → x.rdevMinor8 = true → Sender.rdevMinor o e ≤ 0xFF) :
    Reads (readRdevMinor o x)
      (if 30 ≤ o.protocolVersion then writeVarint (int32 (Sender.rdevMinor o e))
        else if x.rdevMinor8 then [UInt8.ofNat (Sender.rdevMinor o e)]
        else writeInt (int32 (Sender.rdevMinor o e))) (Sender.rdevMinor o e) := by
  have hlt : Sender.rdevMinor o e < 2 ^ 32 := by
    rw [Sender.rdevMinor]
    split_ifs
    · exact hrdev
    · norm_num
  rw [readRdevMinor]
  split_ifs with hv h8
  · have hread := (reads_varint (isInt32_int32 (Sender.rdevMinor o e))).map toUint32
    rwa [toUint32_int32 hlt] at hread
  · have := hminor (not_le.1 hv) h8
    exact reads_byte (by omega)
  · have hread := (reads_int (isInt32_int32 (Sender.rdevMinor o e))).map toUint32
    rwa [toUint32_int32 hlt] at hread

/-- A device number: the major one may be the receiver's last one. -/
theorem reads_rdev {e : FileEntry} (hrdev : e.rdev.1 < 2 ^ 32 ∧ e.rdev.2 < 2 ^ 32) {major : ℕ}
    (hsame : o.preserveDevices = true → isDevice e.mode = true → x.sameRdevMajor = true →
      major = e.rdev.1)
    (hminor : o.protocolVersion < 30 → x.rdevMinor8 = true → Sender.rdevMinor o e ≤ 0xFF) :
    ∃ r, Reads (readRdev o x e.mode major) (writeRdev o x e) r ∧
      (o.preserveDevices = true → isDevice e.mode = true → r.2 = e.rdev) := by
  rw [readRdev, writeRdev]
  by_cases hsend : Sender.sendsRdev o e.mode = true
  · have hreadMajor : ∃ m, Reads (readRdevMajor o x major)
        (if x.sameRdevMajor then [] else writeVarint30 o (int32 e.rdev.1)) m ∧
        (o.preserveDevices = true → isDevice e.mode = true → m = e.rdev.1) := by
      rw [readRdevMajor]
      by_cases hx : x.sameRdevMajor = true
      · rw [if_pos hx, if_pos hx]
        exact ⟨major, Reads.pure major, fun hpre hdev => hsame hpre hdev hx⟩
      · rw [if_neg hx, if_neg hx]
        refine ⟨e.rdev.1, (reads_varint30 (isInt32_int32 e.rdev.1)).bind_nil ?_, fun _ _ => rfl⟩
        rw [toUint32_int32 hrdev.1]
        exact Reads.pure _
    obtain ⟨m, hm, hmeq⟩ := hreadMajor
    have hminor' := reads_rdevMinor hrdev.2 hminor
    rw [if_pos hsend, if_pos hsend]
    refine ⟨(m, (m, Sender.rdevMinor o e)), hm.bind (hminor'.bind_nil (Reads.pure _)), ?_⟩
    intro hpre hdev
    have hmin : Sender.rdevMinor o e = e.rdev.2 := by rw [Sender.rdevMinor, hpre, hdev]; rfl
    rw [hmeq hpre hdev, hmin]
  · rw [if_neg hsend, if_neg hsend]
    refine ⟨(major, (0, 0)), Reads.pure _, fun hpre hdev => absurd ?_ hsend⟩
    rw [Sender.sendsRdev, hpre, hdev]
    rfl

end Fields

/-! ## Hard-link groups -/

/-- A table that gives different inodes different numbers below `next`. -/
structure Numbering (table : Inode → Option ℤ) (next : ℤ) : Prop where
  range : ∀ k n, table k = some n → 0 ≤ n ∧ n < next
  inj : ∀ k k' n, table k = some n → table k' = some n → k = k'

namespace Numbering

variable {table : Inode → Option ℤ} {next : ℤ}

theorem mono (h : Numbering table next) {next' : ℤ} (hle : next ≤ next') : Numbering table next' :=
  ⟨fun k n hk => ⟨(h.range k n hk).1, (h.range k n hk).2.trans_le hle⟩, h.inj⟩

theorem insert (h : Numbering table next) (h0 : 0 ≤ next) (k : Inode) :
    Numbering (Function.update table k (some next)) (next + 1) := by
  have hold : ∀ k' n, k' ≠ k → Function.update table k (some next) k' = some n → table k' = some n :=
    fun k' n hne hk' => by rwa [Function.update_of_ne hne] at hk'
  have hnew : ∀ n, Function.update table k (some next) k = some n → n = next := by
    intro n hn
    rw [Function.update_self, Option.some.injEq] at hn
    exact hn.symm
  constructor
  · intro k' n hk'
    by_cases hk : k' = k
    · subst hk
      rw [hnew n hk']
      omega
    · have := h.range k' n (hold k' n hk hk')
      omega
  · intro k₁ k₂ n h₁ h₂
    by_cases hk₁ : k₁ = k <;> by_cases hk₂ : k₂ = k
    · rw [hk₁, hk₂]
    · subst hk₁
      have := (h.range k₂ n (hold k₂ n hk₂ h₂)).2
      rw [hnew n h₁] at this
      omega
    · subst hk₂
      have := (h.range k₁ n (hold k₁ n hk₁ h₁)).2
      rw [hnew n h₂] at this
      omega
    · exact h.inj k₁ k₂ n (hold k₁ n hk₁ h₁) (hold k₂ n hk₂ h₂)

theorem le_insert {k : Inode} (h : table k = none) {k' : Inode} {n : ℤ} (hk' : table k' = some n) :
    Function.update table k (some next) k' = some n := by
  have hne : k' ≠ k := by
    rintro rfl
    rw [h] at hk'
    cases hk'
  rwa [Function.update_of_ne hne]

end Numbering

/-- The receiver's `dev` of an older protocol: one more, but for the initial zero. -/
def sentDev (dev : ℤ) : ℤ := if dev = 0 then 0 else dev + 1

theorem sentDev_inj {d d' : ℤ} (hd : d ≠ -1) (hd' : d' ≠ -1) (h : sentDev d = sentDev d') : d = d' := by
  simp only [sentDev] at h
  split_ifs at h <;> omega

/-- The number of an inode's group: the sender numbers the groups from protocol 30 on,
    before that the receiver does. -/
def groupOf (o : ListOpts) (sent recv : Inode → Option ℤ) (k : Inode) : Option ℤ :=
  if 30 ≤ o.protocolVersion then sent k else recv (sentDev k.1, k.2)

section Groups

variable {o : ListOpts} {s : Sender} {t : Receiver} {e : FileEntry} {x : XFlags}

theorem next_idev_none (h : e.hlink o = none) : (s.next o e).idev = s.idev := by
  simp only [Sender.next, h]

theorem next_idev_some {k : Inode} (h : e.hlink o = some k) :
    (s.next o e).idev = if 30 ≤ o.protocolVersion ∧ s.idev k = none then
      Function.update s.idev k (some (s.ndxStart + s.used)) else s.idev := by
  simp only [Sender.next, h]

theorem idev_next (k : Inode) (n : ℤ) (h : s.idev k = some n) : (s.next o e).idev k = some n := by
  cases hlink : e.hlink o with
  | none => rwa [next_idev_none hlink]
  | some k' =>
    rw [next_idev_some hlink]
    split_ifs with hnew
    · exact Numbering.le_insert hnew.2 h
    · exact h

/-- A new group has the index of this entry. -/
theorem idev_next_cases {k : Inode} {n : ℤ} (h : (s.next o e).idev k = some n) :
    s.idev k = some n ∨ e.hlink o = some k ∧ n = s.ndxStart + s.used := by
  cases hlink : e.hlink o with
  | none =>
    rw [next_idev_none hlink] at h
    exact .inl h
  | some k' =>
    rw [next_idev_some hlink] at h
    split_ifs at h with hnew
    · by_cases hk : k = k'
      · subst hk
        rw [Function.update_self, Option.some.injEq] at h
        exact .inr ⟨rfl, h.symm⟩
      · rw [Function.update_of_ne hk] at h
        exact .inl h
    · exact .inl h

theorem numbering_next (h : Numbering s.idev (s.ndxStart + s.used)) (h0 : 0 ≤ s.ndxStart) :
    Numbering (s.next o e).idev ((s.next o e).ndxStart + (s.next o e).used) := by
  have hnext : (s.next o e).ndxStart + ((s.next o e).used : ℤ) = s.ndxStart + s.used + 1 := by
    simp only [Sender.next]
    push_cast
    ring
  rw [hnext]
  cases hlink : e.hlink o with
  | none =>
    rw [next_idev_none hlink]
    exact h.mono (by omega)
  | some k =>
    rw [next_idev_some hlink]
    split_ifs
    · exact h.insert (by omega) _
    · exact h.mono (by omega)

theorem idev_self {k : Inode} (hv : 30 ≤ o.protocolVersion) (hk : e.hlink o = some k) :
    (s.next o e).idev k = some ((s.idev k).getD (s.ndxStart + s.used)) := by
  rw [next_idev_some hk]
  cases hold : s.idev k with
  | none => simp [hv]
  | some n => simpa [hv] using hold

/-- **The group number** is read, or worked out; the receiver's tables go along. -/
theorem reads_hlGnum (hdev : t.dev = sentDev s.dev) (hnum : Numbering t.idev t.cnt)
    (hused : t.ndxStart + t.files.length = s.ndxStart + s.used)
    (hk : ∀ k, e.inode = some k → k.1 ≠ -1 ∧ IsInt64 k.1 ∧ IsInt64 (k.1 + 1) ∧ IsInt64 k.2)
    (hkept : o.protocolVersion < 30 → ∀ k, e.hlink o = some k → k.1 = 0 → s.dev = 0)
    (hlinked : x.hlinked = (e.hlink o).isSome)
    (hfirst : 30 ≤ o.protocolVersion → x.hlinkFirst = ((e.hlink o).isSome && s.firstHlinkNdx o e = none))
    (hsame : o.protocolVersion < 30 → x.sameDev = s.sameDev o e) {first : ℤ}
    (hndx : ∀ n, s.firstHlinkNdx o e = some n → first = n) :
    ∃ g dev idev cnt, Reads (readHlGnum o x first t) (writeInode o x e)
        (g, { t with dev := dev, idev := idev, cnt := cnt }) ∧
      dev = sentDev (s.next o e).dev ∧ Numbering idev cnt ∧
      (∀ k n, t.idev k = some n → idev k = some n) ∧
      (e.hlink o).isSome = g.isSome ∧ g = (e.hlink o).bind (groupOf o (s.next o e).idev idev) := by
  rw [readHlGnum]
  cases hlink : e.hlink o with
  | none =>
    have hno : ¬ ((o.preserveHardLinks && x.hlinked) = true) := by simp [hlinked, hlink]
    have hwrite : writeInode o x e = [] := by simp [writeInode, hlink]
    have hsdev : (s.next o e).dev = s.dev := by simp [Sender.next, hlink]
    rw [if_neg hno, hwrite]
    exact ⟨none, t.dev, t.idev, t.cnt, Reads.pure _, by rw [hsdev]; exact hdev, hnum,
      fun _ _ h => h, rfl, rfl⟩
  | some k =>
    have hinode : o.preserveHardLinks = true ∧ e.inode = some k := by
      rw [FileEntry.hlink] at hlink
      split_ifs at hlink with hpre
      exact ⟨hpre, hlink⟩
    have hyes : (o.preserveHardLinks && x.hlinked) = true := by
      rw [hlinked, hlink, hinode.1]
      rfl
    rw [if_pos hyes]
    by_cases hv : 30 ≤ o.protocolVersion
    · have hwrite : writeInode o x e = [] := if_neg (not_lt.2 hv)
      have hsdev : (s.next o e).dev = s.dev := if_neg (not_lt.2 hv)
      have hndx' : s.firstHlinkNdx o e = s.idev k := by
        rw [Sender.firstHlinkNdx, if_pos hv, hlink]
        rfl
      rw [if_pos hv, hwrite]
      refine ⟨_, t.dev, t.idev, t.cnt, Reads.pure _, by rw [hsdev]; exact hdev, hnum,
        fun _ _ h => h, rfl, ?_⟩
      rw [Option.bind_some, groupOf, if_pos hv, idev_self hv hlink, hfirst hv, hlink, hndx', hused]
      cases hold : s.idev k with
      | none => rfl
      | some n =>
        rw [hndx n (hndx'.trans hold)]
        rfl
    · have hlt := not_le.1 hv
      obtain ⟨hne, -, hsucc, hino⟩ := hk k hinode.2
      have hsdev : (s.next o e).dev = k.1 := by simp [Sender.next, hlt, hlink]
      have hreadDev : Reads (readDev x t.dev) (if x.sameDev then [] else writeLongint (k.1 + 1))
          (sentDev k.1) := by
        have hsd : x.sameDev = decide (k.1 = s.dev) := by
          rw [hsame hlt, Sender.sameDev, hlink]
        rw [readDev, hsd]
        by_cases heq : k.1 = s.dev
        · rw [decide_eq_true heq, hdev, heq]
          exact Reads.pure _
        · have hk0 : k.1 ≠ 0 := fun h0 => heq (by rw [hkept hlt k hlink h0, h0])
          rw [decide_eq_false heq, sentDev, if_neg hk0]
          exact reads_longint hsucc
      have hwrite : writeInode o x e =
          (if x.sameDev then [] else writeLongint (k.1 + 1)) ++ writeLongint k.2 := by
        rw [writeInode, if_pos hlt, hlink]
      have hgroup : ∀ idev : Inode → Option ℤ,
          (some k).bind (groupOf o (s.next o e).idev idev) = idev (sentDev k.1, k.2) := by
        intro idev
        rw [Option.bind_some, groupOf, if_neg hv]
      rw [if_neg hv, hwrite]
      cases hold : t.idev (sentDev k.1, k.2) with
      | some gnum =>
        refine ⟨some gnum, sentDev k.1, t.idev, t.cnt, ?_, by rw [hsdev], hnum, fun _ _ h => h, rfl, ?_⟩
        · refine hreadDev.bind ((reads_longint hino).bind_nil ?_)
          rw [hold]
          exact Reads.pure _
        · rw [hgroup, hold]
      | none =>
        refine ⟨some t.cnt, sentDev k.1, Function.update t.idev (sentDev k.1, k.2) (some t.cnt),
          t.cnt + 1, ?_, by rw [hsdev], ?_, fun _ _ => Numbering.le_insert hold, rfl, ?_⟩
        · refine hreadDev.bind ((reads_longint hino).bind_nil ?_)
          rw [hold]
          exact Reads.pure _
        · exact_mod_cast hnum.insert (Int.natCast_nonneg _) _
        · rw [hgroup, Function.update_self]

end Groups

/-! ## The static variables of the two sides -/

/-- `f` has the data of `e`, but for its name and group. -/
structure Attributes (o : ListOpts) (e : FileEntry) (f : FileStruct) : Prop where
  mode : f.mode = e.mode
  length : f.length = e.length
  modtime : f.modtime = e.modtime
  modNsec : f.modNsec = e.modNsec
  owner : o.user.preserve = true → f.owner = e.owner
  group : o.group.preserve = true → f.group = e.group
  rdev : o.preserveDevices = true → isDevice e.mode = true → f.rdev = e.rdev
  symlink : o.preserveLinks = true → isLnk e.mode = true → f.symlink = e.symlink
  sum : o.alwaysChecksum = true → isReg e.mode = true → f.sum = e.sum

/-- Two names of one inode. -/
structure FileEntry.SameFile (e e' : FileEntry) : Prop where
  mode : e.mode = e'.mode
  length : e.length = e'.length
  modtime : e.modtime = e'.modtime
  modNsec : e.modNsec = e'.modNsec
  owner : e.owner = e'.owner
  group : e.group = e'.group
  rdev : isDevice e.mode = true → e.rdev = e'.rdev
  symlink : isLnk e.mode = true → e.symlink = e'.symlink
  sum : isReg e.mode = true → e.sum = e'.sum

theorem Attributes.of_sameFile {o : ListOpts} {e e' : FileEntry} {f : FileStruct} (h : Attributes o e f)
    (hsame : e.SameFile e') : Attributes o e' f where
  mode := h.mode.trans hsame.mode
  length := h.length.trans hsame.length
  modtime := h.modtime.trans hsame.modtime
  modNsec := h.modNsec.trans hsame.modNsec
  owner hpre := (h.owner hpre).trans hsame.owner
  group hpre := (h.group hpre).trans hsame.group
  rdev hpre hdev := by
    rw [← hsame.mode] at hdev
    exact (h.rdev hpre hdev).trans (hsame.rdev hdev)
  symlink hpre hlnk := by
    rw [← hsame.mode] at hlnk
    exact (h.symlink hpre hlnk).trans (hsame.symlink hlnk)
  sum hpre hreg := by
    rw [← hsame.mode] at hreg
    exact (h.sum hpre hreg).trans (hsame.sum hreg)

/-- **The static variables agree**, but for `rdev_major`; `all` are the entries of the
    transfer. -/
structure InSync (o : ListOpts) (all : List FileEntry) (s : Sender) (t : Receiver) : Prop where
  modtime : t.modtime = s.modtime
  mode : t.mode = s.mode
  dev : t.dev = sentDev s.dev
  uid : s.uid.InSync t.uid
  gid : s.gid.InSync t.gid
  lastname : t.lastname = s.lastname
  ndxStart : t.ndxStart = s.ndxStart
  ndxStart_nonneg : 0 ≤ s.ndxStart
  used : t.files.length = s.used
  sent : Numbering s.idev (s.ndxStart + s.used)
  recv : Numbering t.idev t.cnt
  /-- The first members in this list have been received. -/
  first : ∀ k n, s.idev k = some n → s.ndxStart ≤ n →
    ∃ e ∈ all, e.hlink o = some k ∧ ∃ f, t.files[(n - s.ndxStart).toNat]? = some f ∧ Attributes o e f

/-- An entry whose first member is in the same list. -/
def Sender.Abbreviates (o : ListOpts) (s : Sender) (e : FileEntry) : Prop :=
  ∃ n, s.firstHlinkNdx o e = some n ∧ s.ndxStart ≤ n

/-- **The entry does not run into a static that the two sides do not share**: a device
    that is sent without its major number because the sender's `rdev_major` is the same
    finds the same `rdev_major` in the receiver; and before protocol 30 the device
    number 0 does not come back after another one. -/
def SharesStatics (o : ListOpts) (s : Sender) (t : Receiver) (e : FileEntry) : Prop :=
  (o.preserveDevices = true → isDevice e.mode = true → ¬ s.Abbreviates o e →
    e.rdev.1 = s.rdevMajor → t.rdevMajor = e.rdev.1) ∧
  (o.protocolVersion < 30 → ∀ k, e.hlink o = some k → k.1 = 0 → s.dev = 0)

/-- What is to be decoded of an entry. -/
structure Decodes (o : ListOpts) (gnum : Inode → Option ℤ) (e : FileEntry) (f : FileStruct) : Prop where
  name : f.name = e.name
  attributes : Attributes o e f
  hlinked : f.hlGnum.isSome = (e.hlink o).isSome
  hlGnum : f.hlGnum = (e.hlink o).bind gnum

section Step

variable {o : ListOpts} {all : List FileEntry} {s : Sender} {t t' : Receiver} {e : FileEntry}

/-- The state after an entry that was received with all its data. -/
theorem InSync.push (h : InSync o all s t) (he : e ∈ all) {f : FileStruct} (hf : Attributes o e f)
    (hfiles : t'.files = t.files ++ [f]) (hstart : t'.ndxStart = t.ndxStart)
    (hmodtime : t'.modtime = e.modtime) (hmode : t'.mode = e.mode) (hname : t'.lastname = e.name)
    (hdev : t'.dev = sentDev (s.next o e).dev) (huid : (s.next o e).uid.InSync t'.uid)
    (hgid : (s.next o e).gid.InSync t'.gid) (hrecv : Numbering t'.idev t'.cnt) :
    InSync o all (s.next o e) t' where
  modtime := hmodtime
  mode := hmode
  dev := hdev
  uid := huid
  gid := hgid
  lastname := hname
  ndxStart := hstart.trans h.ndxStart
  ndxStart_nonneg := h.ndxStart_nonneg
  used := by rw [hfiles, List.length_append, h.used]; rfl
  sent := numbering_next h.sent h.ndxStart_nonneg
  recv := hrecv
  first k n hk hn := by
    rw [hfiles]
    rcases idev_next_cases hk with hold | ⟨hlink, rfl⟩
    · obtain ⟨e₀, he₀, hlink, f₀, hf₀, hattr⟩ := h.first k n hold hn
      obtain ⟨hlt, -⟩ := List.getElem?_eq_some_iff.1 hf₀
      exact ⟨e₀, he₀, hlink, f₀, (List.getElem?_append_left hlt).trans hf₀, hattr⟩
    · refine ⟨e, he, hlink, f, ?_, hf⟩
      have hlast : (s.ndxStart + s.used - (s.next o e).ndxStart).toNat = t.files.length := by
        rw [h.used]
        simp only [Sender.next]
        omega
      rw [hlast, List.getElem?_append_right le_rfl, Nat.sub_self]
      rfl

theorem fLength_eq {mode length : ℕ} (h : (isReg mode = true ∧ length < 2 ^ 63) ∨ length < 2 ^ 32) :
    fLength mode length = length := by
  rw [fLength, Int.toNat_natCast]
  split_ifs with hreg
  · rfl
  · rcases h with ⟨h, -⟩ | h
    · exact absurd h hreg
    · exact Nat.mod_eq_of_lt h

theorem sameRdevMajor_device (hdev : isDevice e.mode = true) (hpre : o.preserveDevices = true)
    (hx : (s.xflags o e).sameRdevMajor = true) : e.rdev.1 = s.rdevMajor := by
  have hdir : isDir e.mode = false := by
    rw [isDevice, Bool.or_eq_true, decide_eq_true_eq, decide_eq_true_eq] at hdev
    rw [isDir, decide_eq_false_iff_not]
    omega
  have hflags : (Sender.dirFlags o e).2 = false := by simp [Sender.dirFlags, hdir]
  change ((Sender.dirFlags o e).2 || s.sameRdevMajor o e) = true at hx
  rw [hflags, Bool.false_or, Sender.sameRdevMajor, hpre, hdev] at hx
  exact of_decide_eq_true hx

theorem rdevMinor8_le (hv : o.protocolVersion < 30) (hx : (s.xflags o e).rdevMinor8 = true) :
    Sender.rdevMinor o e ≤ 0xFF := by
  change (if 30 ≤ o.protocolVersion then (s.groupName o e).isSome
    else Sender.sendsRdev o e.mode && decide (Sender.rdevMinor o e ≤ 0xFF)) = true at hx
  rw [if_neg (not_le.2 hv), Bool.and_eq_true, decide_eq_true_eq] at hx
  exact hx.2

theorem modNsec_of_false (hok : e.Ok o) (hx : (s.xflags o e).modNsec = false) : e.modNsec = 0 := by
  change (decide (e.modNsec ≠ 0) && decide (31 ≤ o.protocolVersion)) = false at hx
  by_contra hne
  rw [decide_eq_true hne, decide_eq_true (hok.modNsec.2 hne)] at hx
  cases hx

/-- A name follows the id where the flag says so. -/
theorem userName_follows (hv : 30 ≤ o.protocolVersion) :
    (decide (30 ≤ o.protocolVersion) && (s.xflags o e).sameDev) = (s.userName o e).isSome := by
  change (decide (30 ≤ o.protocolVersion) &&
    if 30 ≤ o.protocolVersion then (s.userName o e).isSome else s.sameDev o e) = _
  rw [decide_eq_true hv, if_pos hv, Bool.true_and]

theorem groupName_follows (hv : 30 ≤ o.protocolVersion) :
    (decide (30 ≤ o.protocolVersion) && (s.xflags o e).rdevMinor8) = (s.groupName o e).isSome := by
  change (decide (30 ≤ o.protocolVersion) && if 30 ≤ o.protocolVersion then (s.groupName o e).isSome
    else Sender.sendsRdev o e.mode && decide (Sender.rdevMinor o e ≤ 0xFF)) = _
  rw [decide_eq_true hv, if_pos hv, Bool.true_and]

theorem hlinkFirst_eq (hv : 30 ≤ o.protocolVersion) : (s.xflags o e).hlinkFirst =
    ((e.hlink o).isSome && decide (s.firstHlinkNdx o e = none)) := by
  change (decide (30 ≤ o.protocolVersion) && (e.hlink o).isSome && _) = _
  rw [decide_eq_true hv, Bool.true_and]

theorem sameDev_eq (hv : o.protocolVersion < 30) : (s.xflags o e).sameDev = s.sameDev o e :=
  if_neg (not_le.2 hv)

theorem reads_checkLength (n : ℕ) : Reads (checkLength n) [] () := by
  rw [checkLength, if_neg (by omega)]
  exact Reads.pure ()

/-- **An entry that is sent in full.** -/
theorem InSync.reads_entry (h : InSync o all s t) (ho : o.Ok) (he : e ∈ all) (hok : e.Ok o)
    (hkept : SharesStatics o s t e) (hfull : ¬ s.Abbreviates o e) {first : ℤ}
    (hndx : ∀ n, s.firstHlinkNdx o e = some n → first = n) :
    ∃ f t', Reads (readEntry o (s.xflags o e) e.name first { t with lastname := e.name })
        (writeEntry o s e) (f, t') ∧
      InSync o all (s.next o e) t' ∧ Decodes o (groupOf o (s.next o e).idev t'.idev) e f ∧
      ∀ k n, t.idev k = some n → t'.idev k = some n := by
  have hTime : (s.xflags o e).sameTime = true → t.modtime = e.modtime := by
    intro hx
    rw [h.modtime]
    exact (of_decide_eq_true hx).symm
  have hMode : (s.xflags o e).sameMode = true → t.mode = e.mode := by
    intro hx
    rw [h.mode]
    exact (of_decide_eq_true hx).symm
  have hlen : IsInt64 (e.length : ℤ) := by
    have hlt : e.length < 2 ^ 63 := by
      rcases hok.length with ⟨-, hlt⟩ | hlt
      · exact hlt
      · omega
    constructor <;> omega
  have hlength : (if Sender.sendsRdev o e.mode then 0 else (e.length : ℤ)) = e.length := by
    split_ifs with hsend
    · have hzero : e.length = 0 := by
        refine hok.length_zero ?_
        simp only [Sender.sendsRdev, Bool.or_eq_true, Bool.and_eq_true] at hsend
        rcases hsend with ⟨-, hdev⟩ | ⟨⟨-, hspecial⟩, -⟩
        · exact .inl hdev
        · exact .inr hspecial
      rw [hzero]
      rfl
    · rfl
  have hMajor : o.preserveDevices = true → isDevice e.mode = true →
      (s.xflags o e).sameRdevMajor = true → t.rdevMajor = e.rdev.1 := by
    intro hpre hdev hx
    exact hkept.1 hpre hdev hfull (sameRdevMajor_device hdev hpre hx)
  obtain ⟨uid, huid, huidSync, huidEq⟩ := reads_id ho.user h.uid hok.owner (userName_follows (e := e))
  obtain ⟨gid, hgid, hgidSync, hgidEq⟩ := reads_id ho.group h.gid hok.group (groupName_follows (e := e))
  obtain ⟨⟨major, rdev⟩, hrdev, hrdevEq⟩ := reads_rdev hok.rdev hMajor rdevMinor8_le
  obtain ⟨linkLen, ws, hlinkLen, hlink, hwrite⟩ := reads_symlinkLen (o := o) hok.symlink
  let t₁ : Receiver := ⟨e.modtime, e.mode, t.dev, major, uid, gid, e.name, t.idev, t.cnt, t.ndxStart,
    t.files⟩
  obtain ⟨g, dev, idev, cnt, hgnum, hdev, hnum, hmono, hsome, hgeq⟩ :=
    reads_hlGnum (t := t₁) (x := s.xflags o e) h.dev h.recv (by rw [h.ndxStart, h.used]) hok.inode
      hkept.2 rfl hlinkFirst_eq sameDev_eq hndx
  let f : FileStruct := ⟨e.name, e.mode, e.length, e.modtime, e.modNsec,
    if o.user.preserve then uid.id else 0, if o.group.preserve then gid.id else 0,
    if o.preserveDevices && isDevice e.mode then rdev else (0, 0),
    if o.preserveLinks && isLnk e.mode then e.symlink else [], g, writeFileSum o e⟩
  let t₂ : Receiver := ⟨e.modtime, e.mode, dev, major, uid, gid, e.name, idev, cnt, t.ndxStart,
    t.files ++ [f]⟩
  have hcheck : Reads (checkLength (if Sender.sendsRdev o e.mode then 0 else (e.length : ℤ))) [] () := by
    rw [hlength]
    exact reads_checkLength e.length
  have hread : Reads (readEntry o (s.xflags o e) e.name first { t with lastname := e.name })
      (writeEntry o s e) (f, t₂) := by
    rw [writeEntry, hwrite, List.append_assoc]
    refine (reads_varlong30 hlen).bind ((reads_modtime hok.modtime hTime).bind
      ((reads_modNsec (by have := hok.modNsec.1; omega) (modNsec_of_false hok)).bind
      ((reads_mode (by have := hok.mode; omega) hMode).bind (huid.bind (hgid.bind (hrdev.bind
      (hlinkLen.bind (hcheck.nil_bind (hlink.bind (hgnum.bind
      ((reads_fileSum hok.sum).bind_nil ?_)))))))))))
    rw [hlength, fLength_eq hok.length]
    exact Reads.pure _
  have hattr : Attributes o e f := by
    constructor
    · rfl
    · rfl
    · rfl
    · rfl
    · intro hpre
      exact (if_pos hpre).trans (huidEq hpre)
    · intro hpre
      exact (if_pos hpre).trans (hgidEq hpre)
    · intro hpre hdev
      exact (if_pos (by rw [hpre, hdev]; rfl)).trans (hrdevEq hpre hdev)
    · intro hpre hlnk
      exact if_pos (by rw [hpre, hlnk]; rfl)
    · intro hpre hreg
      exact if_pos (by rw [hpre, hreg]; rfl)
  exact ⟨f, t₂, hread, h.push he hattr rfl rfl rfl rfl rfl hdev huidSync hgidSync hnum,
    ⟨rfl, hattr, hsome.symm, hgeq⟩, hmono⟩

theorem firstHlinkNdx_eq {n : ℤ} (hn : s.firstHlinkNdx o e = some n) :
    30 ≤ o.protocolVersion ∧ ∃ k, e.hlink o = some k ∧ s.idev k = some n := by
  rw [Sender.firstHlinkNdx] at hn
  split_ifs at hn with hv
  obtain ⟨k, hk, hidev⟩ := Option.bind_eq_some_iff.1 hn
  exact ⟨hv, k, hk, hidev⟩

/-- The ids after an abbreviated entry. -/
theorem SentIds.InSync.linked {i : IdOpts} {u : SentIds} {r : RecvIds} (h : u.InSync r) {id owner : ℕ}
    {last : Bytes} (howner : i.preserve = true → owner = id) :
    (u.next o i id last).2.InSync ⟨if i.preserve then owner else r.id, r.list⟩ := by
  by_cases hpre : i.preserve = true
  · refine ⟨?_, h.list⟩
    rw [SentIds.next_id hpre, if_pos hpre, howner hpre]
  · have hsame : u.same i id last = true := by simp [SentIds.same, hpre]
    rw [SentIds.next_same hsame, if_neg hpre]
    exact h

theorem readMember_link {x : XFlags} {name : Bytes} {first : ℤ} {f : FileStruct}
    (hle : t.ndxStart ≤ first) (hf : t.files[(first - t.ndxStart).toNat]? = some f) :
    readMember o x name first t = linkEntry o x name first f t := by
  rw [readMember, if_pos hle, hf]

theorem readMember_full {x : XFlags} {name : Bytes} {first : ℤ} (hlt : ¬ t.ndxStart ≤ first) :
    readMember o x name first t = readEntry o x name first t := by
  rw [readMember, if_neg hlt]

/-- **An abbreviated entry** gets the data of the group's first member. -/
theorem InSync.reads_link (h : InSync o all s t) (he : e ∈ all) (hok : e.Ok o)
    (hshared : ∀ e₀ ∈ all, ∀ k, e₀.hlink o = some k → e.hlink o = some k → e₀.SameFile e) {n : ℤ}
    (hn : s.firstHlinkNdx o e = some n) (hle : s.ndxStart ≤ n) :
    ∃ f t', Reads (readMember o (s.xflags o e) e.name n { t with lastname := e.name }) [] (f, t') ∧
      InSync o all (s.next o e) t' ∧ Decodes o (groupOf o (s.next o e).idev t'.idev) e f ∧
      ∀ k n, t.idev k = some n → t'.idev k = some n := by
  obtain ⟨hv, k, hk, hidev⟩ := firstHlinkNdx_eq hn
  obtain ⟨e₀, he₀, hk₀, f₀, hf₀, hattr₀⟩ := h.first k n hidev hle
  have hattr := hattr₀.of_sameFile (hshared e₀ he₀ k hk₀ hk)
  let t₁ : Receiver := ⟨f₀.modtime, f₀.mode, t.dev, t.rdevMajor,
    ⟨if o.user.preserve then f₀.owner else t.uid.id, t.uid.list⟩,
    ⟨if o.group.preserve then f₀.group else t.gid.id, t.gid.list⟩, e.name, t.idev, t.cnt, t.ndxStart,
    t.files⟩
  have hold : o.protocolVersion < 30 → ∀ k, e.hlink o = some k → k.1 = 0 → s.dev = 0 :=
    fun hlt => absurd hv (not_le.2 hlt)
  obtain ⟨g, dev, idev, cnt, hgnum, hdev, hnum, hmono, hsome, hgeq⟩ :=
    reads_hlGnum (t := t₁) (x := s.xflags o e) h.dev h.recv (by rw [h.ndxStart, h.used]) hok.inode
      hold rfl hlinkFirst_eq sameDev_eq fun m hm => Option.some.inj (hn.symm.trans hm)
  have hnone : writeInode o (s.xflags o e) e = [] := if_neg (not_lt.2 hv)
  rw [hnone] at hgnum
  let f : FileStruct := { f₀ with name := e.name, hlGnum := g }
  let t₂ : Receiver := ⟨f₀.modtime, f₀.mode, dev, t.rdevMajor, t₁.uid, t₁.gid, e.name, idev, cnt,
    t.ndxStart, t.files ++ [f]⟩
  have hread : Reads (readMember o (s.xflags o e) e.name n { t with lastname := e.name }) [] (f, t₂) := by
    rw [readMember_link (t := { t with lastname := e.name }) (h.ndxStart.trans_le hle)
      (by simp only [h.ndxStart]; exact hf₀), linkEntry]
    exact hgnum.bind_nil (Reads.pure _)
  have hfattr : Attributes o e f := ⟨hattr.mode, hattr.length, hattr.modtime, hattr.modNsec, hattr.owner,
    hattr.group, hattr.rdev, hattr.symlink, hattr.sum⟩
  exact ⟨f, t₂, hread, h.push he hfattr rfl rfl hattr.modtime hattr.mode rfl hdev
    (h.uid.linked hattr.owner) (h.gid.linked hattr.group) hnum, ⟨rfl, hfattr, hsome.symm, hgeq⟩, hmono⟩

theorem reads_first_none (hn : s.firstHlinkNdx o e = none) (used : ℤ) :
    Reads (readFirst o (s.xflags o e) used) [] (-1) := by
  have hno : ¬ ((decide (30 ≤ o.protocolVersion) && (s.xflags o e).hlinked &&
      !(s.xflags o e).hlinkFirst) = true) := by
    intro hyes
    rw [Bool.and_eq_true, Bool.and_eq_true, decide_eq_true_eq, Bool.not_eq_true'] at hyes
    obtain ⟨⟨hv, hlinked⟩, hfirst⟩ := hyes
    change (e.hlink o).isSome = true at hlinked
    rw [hlinkFirst_eq hv, hlinked, hn] at hfirst
    cases hfirst
  rw [readFirst, if_neg hno]
  exact Reads.pure _

theorem InSync.reads_first (h : InSync o all s t) {n : ℤ} (hn : s.firstHlinkNdx o e = some n)
    (hlt : s.ndxStart + s.used < 2 ^ 31) :
    Reads (readFirst o (s.xflags o e) (t.ndxStart + t.files.length)) (writeVarint n) n := by
  obtain ⟨hv, k, hk, hidev⟩ := firstHlinkNdx_eq hn
  obtain ⟨h0, hmax⟩ := h.sent.range k n hidev
  have hyes : (decide (30 ≤ o.protocolVersion) && (s.xflags o e).hlinked &&
      !(s.xflags o e).hlinkFirst) = true := by
    have hlinked : (s.xflags o e).hlinked = true := by
      change (e.hlink o).isSome = true
      rw [hk]
      rfl
    rw [hlinkFirst_eq hv, hlinked, decide_eq_true hv, hn]
    simp
  have hint : IsInt32 n := ⟨by omega, by omega⟩
  have hrange : ¬ (n < 0 ∨ t.ndxStart + t.files.length ≤ n) := by
    rw [h.ndxStart, h.used]
    omega
  rw [readFirst, if_pos hyes]
  refine (reads_varint hint).bind_nil ?_
  rw [if_neg hrange]
  exact Reads.pure n

/-- The group's first member, and what follows. -/
theorem InSync.reads_member (h : InSync o all s t) (ho : o.Ok) (he : e ∈ all) (hok : e.Ok o)
    (hshared : ∀ e₀ ∈ all, ∀ k, e₀.hlink o = some k → e.hlink o = some k → e₀.SameFile e)
    (hkept : SharesStatics o s t e) (hlt : s.ndxStart + s.used < 2 ^ 31) :
    ∃ n f t', ∃ ws ws', writeMember o s e = ws ++ ws' ∧
      Reads (readFirst o (s.xflags o e) (t.ndxStart + t.files.length)) ws n ∧
      Reads (readMember o (s.xflags o e) e.name n { t with lastname := e.name }) ws' (f, t') ∧
      InSync o all (s.next o e) t' ∧ Decodes o (groupOf o (s.next o e).idev t'.idev) e f ∧
      ∀ k n, t.idev k = some n → t'.idev k = some n := by
  rw [writeMember]
  cases hn : s.firstHlinkNdx o e with
  | none =>
    have hno : ¬ s.Abbreviates o e := by
      rintro ⟨n, hsome, -⟩
      rw [hn] at hsome
      cases hsome
    have hneg : ¬ t.ndxStart ≤ -1 := by
      have := h.ndxStart_nonneg
      rw [h.ndxStart]
      omega
    have hndx : ∀ n, s.firstHlinkNdx o e = some n → (-1 : ℤ) = n := by
      intro n hsome
      rw [hn] at hsome
      cases hsome
    obtain ⟨f, t', hread, hrest⟩ := h.reads_entry ho he hok hkept hno hndx
    refine ⟨-1, f, t', [], writeEntry o s e, (List.nil_append _).symm, reads_first_none hn _, ?_, hrest⟩
    rwa [readMember_full (t := { t with lastname := e.name }) hneg]
  | some n =>
    have hfirst := h.reads_first hn hlt
    by_cases hle : s.ndxStart ≤ n
    · obtain ⟨f, t', hread, hrest⟩ := h.reads_link he hok hshared hn hle
      exact ⟨n, f, t', _, [], by simp only [if_pos hle], hfirst, hread, hrest⟩
    · have hno : ¬ s.Abbreviates o e := by
        rintro ⟨m, hm, hle'⟩
        rw [hn, Option.some.injEq] at hm
        exact hle (hm ▸ hle')
      obtain ⟨f, t', hread, hrest⟩ := h.reads_entry ho he hok hkept hno
        fun m hm => Option.some.inj (hn.symm.trans hm)
      refine ⟨n, f, t', writeVarint n, writeEntry o s e, by simp only [if_neg hle], hfirst, ?_, hrest⟩
      have hbelow : ¬ t.ndxStart ≤ n := by rwa [h.ndxStart]
      rwa [readMember_full (t := { t with lastname := e.name }) hbelow]

theorem reads_checkName (hok : e.Ok o) : Reads (checkName o e.name) [] e.name := by
  have hsafe : ¬ ((!o.relativePaths && decide (e.name.head? = some slashByte)) = true) := by
    intro h
    rw [Bool.and_eq_true, Bool.not_eq_true', decide_eq_true_eq] at h
    rcases hok.name_relative with hrel | hhead
    · rw [h.1] at hrel
      cases hrel
    · exact hhead h.2
  rw [checkName, if_neg hok.name_ne, hok.name_clean]
  simp only
  rw [if_neg hsafe]
  exact Reads.pure _

/-- **One entry**: it is decoded as it was sent, and the statics stay in agreement. -/
theorem InSync.entry (h : InSync o all s t) (ho : o.Ok) (he : e ∈ all) (hok : e.Ok o)
    (hshared : ∀ e₀ ∈ all, ∀ k, e₀.hlink o = some k → e.hlink o = some k → e₀.SameFile e)
    (hkept : SharesStatics o s t e) (hlt : s.ndxStart + s.used < 2 ^ 31) :
    ∃ f t', Reads (recvFileEntry o t) (sendFileEntry o s e).2 (f, t') ∧
      InSync o all (s.next o e) t' ∧ Decodes o (groupOf o (s.next o e).idev t'.idev) e f ∧
      ∀ k n, t.idev k = some n → t'.idev k = some n := by
  obtain ⟨n, f, t', ws, ws', hwrite, hfirst, hmember, hrest⟩ :=
    h.reads_member ho he hok hshared hkept hlt
  have hflags : Reads readFlags (s.xflags o e).bytes (s.xflags o e) := by
    refine XFlags.reads_flags _ fun hx => ?_
    change (decide (30 ≤ o.protocolVersion) && (e.hlink o).isSome && _) = true at hx
    rw [Bool.and_eq_true, Bool.and_eq_true] at hx
    exact hx.1.2
  have hname : Reads (readName o (s.xflags o e) t.lastname)
      (writeName o (s.xflags o e) (s.l1 e) e.name) e.name := by
    rw [h.lastname]
    exact reads_name hok.name_length rfl rfl
  refine ⟨f, t', ?_, hrest⟩
  rw [sendFileEntry, hwrite]
  exact hflags.bind (hname.bind ((reads_checkName hok).nil_bind (hfirst.bind hmember)))

end Step

/-! ## Whole transfers -/

/-- Each entry meets `P` in the states the two sides are in when it is sent. -/
def Throughout (o : ListOpts) (P : Sender → Receiver → FileEntry → Prop) :
    Sender → Receiver → List ListItem → Prop
  | _, _, [] => True
  | s, t, .nextList :: is => Throughout o P s.nextList t.nextList is
  | s, t, .entry e :: is => P s t e ∧ ∀ r, recvFileEntry o t (sendFileEntry o s e).2 = some (r, []) →
      Throughout o P (s.next o e) r.2 is

def entries : List ListItem → List FileEntry
  | [] => []
  | .entry e :: is => e :: entries is
  | .nextList :: is => entries is

/-- A condition that does not depend on the state. -/
theorem throughout_of_forall {o : ListOpts} {P : Sender → Receiver → FileEntry → Prop} {is : List ListItem}
    (h : ∀ e ∈ entries is, ∀ s t, P s t e) (s : Sender) (t : Receiver) : Throughout o P s t is := by
  induction is generalizing s t with
  | nil => trivial
  | cons i is ih =>
    cases i with
    | nextList => exact ih h _ _
    | entry e =>
      exact ⟨h e (List.mem_cons_self ..) s t,
        fun r _ => ih (fun e' he' => h e' (List.mem_cons_of_mem _ he')) _ _⟩

/-- An entry has been decoded. -/
def ItemDecodes (o : ListOpts) (gnum : Inode → Option ℤ) : ListItem → Option FileStruct → Prop
  | .entry e, some f => Decodes o gnum e f
  | .nextList, none => True
  | _, _ => False

theorem ItemDecodes.mono {o : ListOpts} {gnum gnum' : Inode → Option ℤ}
    (h : ∀ k n, gnum k = some n → gnum' k = some n) {i : ListItem} {f : Option FileStruct}
    (hd : ItemDecodes o gnum i f) : ItemDecodes o gnum' i f := by
  cases i with
  | nextList => cases f <;> exact hd
  | entry e =>
    cases f with
    | none => exact hd
    | some f =>
      obtain ⟨hname, hattr, hlinked, hgnum⟩ := hd
      refine ⟨hname, hattr, hlinked, ?_⟩
      cases hk : e.hlink o with
      | none => rw [hgnum, hk]; rfl
      | some k =>
        rw [hk] at hlinked hgnum
        rw [Option.isSome_some, hgnum, Option.isSome_iff_exists] at hlinked
        obtain ⟨n, hn⟩ := hlinked
        rw [hgnum, hn]
        exact (h k n hn).symm

section Run

variable {o : ListOpts} {all : List FileEntry} {s : Sender} {t : Receiver} {is : List ListItem}

theorem InSync.nextList (h : InSync o all s t) : InSync o all s.nextList t.nextList where
  modtime := h.modtime
  mode := h.mode
  dev := h.dev
  uid := h.uid
  gid := h.gid
  lastname := h.lastname
  ndxStart := by simp only [Receiver.nextList, Sender.nextList, h.ndxStart, h.used]
  ndxStart_nonneg := by
    have := h.ndxStart_nonneg
    simp only [Sender.nextList]
    omega
  used := rfl
  sent := by
    refine h.sent.mono ?_
    simp only [Sender.nextList]
    omega
  recv := h.recv
  first k n hk hn := by
    have hlt := (h.sent.range k n hk).2
    simp only [Sender.nextList] at hn
    omega

theorem InSync.init (o : ListOpts) (all : List FileEntry) : InSync o all (.init o) (.init o) where
  modtime := rfl
  mode := rfl
  dev := rfl
  uid := ⟨rfl, nofun⟩
  gid := ⟨rfl, nofun⟩
  lastname := rfl
  ndxStart := rfl
  ndxStart_nonneg := by
    simp only [Sender.init, ListOpts.ndxStart]
    split_ifs <;> norm_num
  used := rfl
  sent := ⟨nofun, nofun⟩
  recv := ⟨nofun, nofun⟩
  first := nofun

/-- **A whole transfer** is decoded, and the statics agree at its end. -/
theorem InSync.items (h : InSync o all s t) (ho : o.Ok) (hall : ∀ e ∈ entries is, e ∈ all)
    (hok : ∀ e ∈ all, e.Ok o)
    (hshared : ∀ e₀ ∈ all, ∀ e ∈ all, ∀ k, e₀.hlink o = some k → e.hlink o = some k → e₀.SameFile e)
    (hkept : Throughout o (SharesStatics o) s t is) (hlt : s.ndxStart + s.used + is.length < 2 ^ 31) :
    ∃ fs t', Reads (readAll (recvItem o) t (is.map ListItem.kind)) (sendItems o s is).2 (fs, t') ∧
      InSync o all (sendItems o s is).1 t' ∧
      List.Forall₂ (ItemDecodes o (groupOf o (sendItems o s is).1.idev t'.idev)) is fs ∧
      (∀ k n, s.idev k = some n → (sendItems o s is).1.idev k = some n) ∧
      ∀ k n, t.idev k = some n → t'.idev k = some n := by
  induction is generalizing s t with
  | nil => exact ⟨[], t, Reads.pure _, h, .nil, fun _ _ hk => hk, fun _ _ hk => hk⟩
  | cons i is ih =>
    have hlt' : s.ndxStart + s.used + is.length + 1 < 2 ^ 31 := by
      rw [List.length_cons] at hlt
      push_cast at hlt
      omega
    cases i with
    | nextList =>
      obtain ⟨fs, t', hread, hsync, hdec, hsent, hrecv⟩ := ih h.nextList hall hkept (by
        simp only [Sender.nextList]
        push_cast
        omega)
      refine ⟨none :: fs, t', ?_, hsync, .cons trivial hdec, hsent, hrecv⟩
      exact (Reads.pure _).nil_bind (hread.bind_nil (Reads.pure _))
    | entry e =>
      have he : e ∈ all := hall e (List.mem_cons_self ..)
      obtain ⟨f, t₁, hread₁, hsync₁, hdec₁, hmono₁⟩ := h.entry ho he (hok e he)
        (fun e₀ he₀ => hshared e₀ he₀ e he) hkept.1 (by omega)
      have hrest : recvFileEntry o t (sendFileEntry o s e).2 = some ((f, t₁), []) := by
        simpa using hread₁ []
      obtain ⟨fs, t', hread, hsync, hdec, hsent, hrecv⟩ := ih hsync₁
        (fun e' he' => hall e' (List.mem_cons_of_mem _ he')) (hkept.2 _ hrest) (by
          simp only [Sender.next]
          push_cast
          omega)
      have hsent₁ : ∀ k n, s.idev k = some n → (sendItems o s (.entry e :: is)).1.idev k = some n :=
        fun k n hk => hsent k n (idev_next k n hk)
      have hgroups : ∀ k n, groupOf o (s.next o e).idev t₁.idev k = some n →
          groupOf o (sendItems o s (.entry e :: is)).1.idev t'.idev k = some n := by
        intro k n hk
        rw [groupOf] at hk ⊢
        split_ifs at hk ⊢
        · exact hsent k n hk
        · exact hrecv _ n hk
      have hfirst : ItemDecodes o (groupOf o (s.next o e).idev t₁.idev) (.entry e) (some f) := hdec₁
      refine ⟨some f :: fs, t', ?_, hsync, .cons (hfirst.mono hgroups) hdec, hsent₁,
        fun k n hk => hrecv k n (hmono₁ k n hk)⟩
      have hitem : Reads (recvItem o .entry t) (sendFileEntry o s e).2 (some f, t₁) :=
        hread₁.bind_nil (Reads.pure _)
      exact hitem.bind (hread.bind_nil (Reads.pure _))

end Run

/-- The static variables both sides have, but for `rdev_major`. -/
structure StaticsAgree (s : Sender) (t : Receiver) : Prop where
  modtime : t.modtime = s.modtime
  mode : t.mode = s.mode
  uid : t.uid.id = s.uid.id
  gid : t.gid.id = s.gid.id
  lastname : t.lastname = s.lastname

/-- The inodes entries are hard-linked under. -/
def linked (o : ListOpts) (is : List ListItem) : Set Inode := {k | ∃ e ∈ entries is, e.hlink o = some k}

/-- **The entries come back**: all data, and different groups for different inodes; the
    statics the next entry is relative to agree. -/
def EntriesComeBack (o : ListOpts) (is : List ListItem) : Prop :=
  ∃ fs t', ∃ gnum : Inode → ℤ,
    Reads (readAll (recvItem o) (.init o) (is.map ListItem.kind)) (sendItems o (.init o) is).2 (fs, t') ∧
    Set.InjOn gnum (linked o is) ∧ List.Forall₂ (ItemDecodes o fun k => some (gnum k)) is fs ∧
    StaticsAgree (sendItems o (.init o) is).1 t'

section Whole

variable {o : ListOpts} {is : List ListItem} {fs : List (Option FileStruct)} {gnum : Inode → Option ℤ}

/-- Every group that occurs has a number. -/
theorem gnum_isSome (h : List.Forall₂ (ItemDecodes o gnum) is fs) :
    ∀ k ∈ linked o is, (gnum k).isSome := by
  rintro k ⟨e, he, hk⟩
  induction h with
  | nil => cases he
  | @cons i f is fs hd _ ih =>
    cases i with
    | nextList => exact ih he
    | entry e' =>
      rcases List.mem_cons.1 he with rfl | he
      · cases f with
        | none => exact hd.elim
        | some f =>
          have hlinked := hd.hlinked
          rw [hd.hlGnum, hk] at hlinked
          exact hlinked
      · exact ih he

theorem decodes_total (h : List.Forall₂ (ItemDecodes o gnum) is fs) :
    List.Forall₂ (ItemDecodes o fun k => some ((gnum k).getD 0)) is fs := by
  refine h.imp fun i f hd => hd.mono fun k n hk => ?_
  rw [hk]
  rfl

theorem groupOf_inj {sent recv : Inode → Option ℤ} {a b : ℤ} (hs : Numbering sent a)
    (hr : Numbering recv b) {k k' : Inode} (hk : k.1 ≠ -1) (hk' : k'.1 ≠ -1) {n : ℤ}
    (h : groupOf o sent recv k = some n) (h' : groupOf o sent recv k' = some n) : k = k' := by
  rw [groupOf] at h h'
  split_ifs at h h'
  · exact hs.inj k k' n h h'
  · have hpair := hr.inj _ _ n h h'
    rw [Prod.mk.injEq] at hpair
    exact Prod.ext (sentDev_inj hk hk' hpair.1) hpair.2

end Whole

/-- `rsync -D -H` with protocol 31. -/
def deviceOpts : ListOpts where
  protocolVersion := 31
  incRecurse := false
  numericIds := false
  user := ⟨false, fun _ => none, false, fun id _ => id⟩
  group := ⟨false, fun _ => none, false, fun id _ => id⟩
  preserveDevices := true
  preserveSpecials := true
  preserveLinks := true
  preserveHardLinks := true
  relativePaths := false
  alwaysChecksum := false
  flistCsumLen := 16

/-- An entry without a link, owner or checksum. -/
def plainEntry (name : Bytes) (mode : ℕ) (rdev : ℕ × ℕ) (inode : Option Inode) : FileEntry :=
  ⟨name, mode, 0, 0, 0, 0, 0, rdev, [], inode, List.replicate 16 0, false, false, false⟩

theorem deviceOpts_ok : deviceOpts.Ok where
  protocol := by decide
  incRecurse := nofun
  user := ⟨nofun, fun _ _ => rfl⟩
  group := ⟨nofun, fun _ _ => rfl⟩

theorem plainEntry_ok {name : Bytes} {mode : ℕ} {rdev : ℕ × ℕ} {inode : Option Inode}
    (hname : name ≠ [] ∧ name.length < maxPathLen ∧ cleanFname name = some name ∧
      name.head? ≠ some slashByte)
    (hmode : mode < 2 ^ 16 ∧ isLnk mode = false) (hrdev : rdev.1 < 2 ^ 32 ∧ rdev.2 < 2 ^ 32)
    (hinode : inode = none ∨ inode = some (1, 10)) :
    (plainEntry name mode rdev inode).Ok deviceOpts where
  name_ne := hname.1
  name_length := hname.2.1
  name_clean := hname.2.2.1
  name_relative := .inr hname.2.2.2
  mode := hmode.1
  length := .inr (by norm_num [plainEntry])
  length_zero _ := rfl
  modtime := by simp [plainEntry, deviceOpts, IsInt64]
  modNsec := ⟨by norm_num [plainEntry], fun h => absurd rfl h⟩
  owner := by norm_num [plainEntry]
  group := by norm_num [plainEntry]
  rdev := hrdev
  symlink h := by
    change isLnk mode = true at h
    rw [hmode.2] at h
    cases h
  inode k hk := by
    change inode = some k at hk
    rcases hinode with hno | hyes
    · rw [hno] at hk
      cases hk
    · rw [hyes, Option.some.injEq] at hk
      subst hk
      decide
  sum _ := List.length_replicate

theorem plainEntry_sameFile {name name' : Bytes} {mode mode' : ℕ} {rdev rdev' : ℕ × ℕ}
    {inode inode' : Option Inode} (h : inode.isSome → inode'.isSome → mode = mode' ∧ rdev = rdev')
    (k : Inode) (hk : (plainEntry name mode rdev inode).hlink deviceOpts = some k)
    (hk' : (plainEntry name' mode' rdev' inode').hlink deviceOpts = some k) :
    (plainEntry name mode rdev inode).SameFile (plainEntry name' mode' rdev' inode') := by
  change inode = some k at hk
  change inode' = some k at hk'
  obtain ⟨rfl, rfl⟩ := h (by rw [hk]; rfl) (by rw [hk']; rfl)
  exact ⟨rfl, rfl, rfl, rfl, rfl, rfl, fun _ => rfl, fun _ => rfl, fun _ => rfl⟩

/-- The devices 1:3, 5:1, 1:3 under another name, and 1:5: the last one is received
    as 5:5. -/
def lostMajor : List ListItem :=
  [.entry (plainEntry [97] 0o20644 (1, 3) (some (1, 10))), .entry (plainEntry [98] 0o20644 (5, 1) none),
    .entry (plainEntry [99] 0o20644 (1, 3) (some (1, 10))), .entry (plainEntry [100] 0o20644 (1, 5) none)]

end CloudEdgeBackup
