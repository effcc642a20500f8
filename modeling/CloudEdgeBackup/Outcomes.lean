/-
  How a pass of `recv_files` ends, and what it does to the version stores then.

  * `verification_iff`: the digest of the sender is compared with nothing; the
    verdict is right exactly if the data is;
  * `fullBackup_iff`: the full backup is copied from the file of that name, which
    is the received one exactly if it was installed before the copy;
  * `failed_intact`: a file that is not installed leaves the stores alone if it
    was discarded while no delta is recorded.
-/
import CloudEdgeBackup.RecvFiles

namespace CloudEdgeBackup

open Zext Versions

/-! ## The install step -/

namespace Request

variable (r : Request) (o : RunOpts)

/-- The new file goes to its name, not to the partial dir. -/
def Direct : Prop := o.delayUpdates = false ∨ r.partialptr o = none

instance : Decidable (r.Direct o) := by unfold Direct; infer_instance

/-- The file's own name is the target of `finish_transfer`. -/
def TargetsName (dirMade : Bool) : Prop :=
  r.Direct o ∨ o.keepPartial = true ∧ dirMade = true ∧ r.partialptr o = some r.fname

instance (dirMade : Bool) : Decidable (r.TargetsName o dirMade) := by
  unfold TargetsName; infer_instance

/-- The new file is under its name before the full backup is copied. -/
def Placed (dirMade : Bool) (finish : Finish) : Prop :=
  o.inplace = true ∨ r.TargetsName o dirMade ∧ finish = .done

instance (dirMade : Bool) (finish : Finish) : Decidable (r.Placed o dirMade finish) := by
  unfold Placed; infer_instance

/-- What is under the name otherwise. -/
def stays (w : World) (dirMade : Bool) : Finish → Option Bytes
  | .done => w.files r.fname
  | .failed left _ => if r.TargetsName o dirMade then left else w.files r.fname

/-- The new file is not brought to where it has to go. -/
def Fails (dirMade : Bool) (finish : Finish) : Prop :=
  o.inplace = false ∧
    if r.Direct o then finish ≠ .done
    else o.keepPartial = true ∧ (dirMade = false ∨ finish ≠ .done)

instance (dirMade : Bool) (finish : Finish) : Decidable (r.Fails o dirMade finish) := by
  unfold Fails; infer_instance

end Request

section Install

variable {o : RunOpts} {w : World} {r : Request} {cmp : Bytes} {dirMade : Bool} {finish : Finish}
  {res : Received}

theorem finishTransfer_files (fname : Bytes) {partialptr : Option Bytes} (out : Bytes)
    (h : partialptr ≠ some fname) : (finishTransfer w fname partialptr out finish).1.files fname =
      match finish with
      | .done => some out
      | .failed left _ => left := by
  cases finish with
  | done => simp [finishTransfer]
  | failed left kept =>
    cases kept <;> cases hp : partialptr with
    | none => simp [finishTransfer]
    | some path =>
      have : fname ≠ path := by
        rintro rfl
        exact h hp
      simp [finishTransfer, this]

theorem finishTransfer_ok (fname : Bytes) (partialptr : Option Bytes) (out : Bytes) :
    (finishTransfer w fname partialptr out finish).2 = true ↔ finish = .done := by
  cases finish with
  | done => simp [finishTransfer]
  | failed left kept => cases kept <;> cases partialptr <;> simp [finishTransfer]

theorem putInPlace_spec (fname cmp : Bytes) (partialptr : Option Bytes) :
    (putInPlace w fname cmp partialptr finish res).1.files fname =
      (match finish with
      | .done => some res.out
      | .failed left _ => left) ∧
      (putInPlace w fname cmp partialptr finish res).2 = if finish = .done then (res.ret : ℤ) else -1 := by
  unfold putInPlace
  dsimp only
  set path := if partialptr = some fname then none else partialptr with hpath
  have hne : path ≠ some fname := by
    rw [hpath]
    split_ifs with h
    · simp
    · exact h
  have hfiles : (finishTransfer w fname path res.out finish).1.files fname = _ :=
    finishTransfer_files fname res.out hne
  by_cases hok : finish = .done
  · rw [if_pos ((finishTransfer_ok _ _ _).2 hok), if_pos hok]
    refine ⟨?_, rfl⟩
    dsimp only
    split_ifs with hcmp
    · have : fname ≠ cmp := by
        rintro rfl
        exact hne hcmp
      rw [files_setFile, if_neg this, hfiles]
    · exact hfiles
  · rw [if_neg fun h => hok ((finishTransfer_ok _ _ _).1 h), if_neg hok]
    exact ⟨hfiles, rfl⟩

theorem keepInPartialDir_spec (fname path : Bytes) :
    (keepInPartialDir o w fname path finish res).1.files fname =
      (if path = fname then
        match finish with
        | .done => some res.out
        | .failed left _ => left
      else w.files fname) ∧
      (keepInPartialDir o w fname path finish res).2 =
        if finish = .done then if o.delayUpdates ∧ res.ret ≠ 0 then 2 else (res.ret : ℤ) else -1 := by
  have hfiles : (finishTransfer w path none res.out finish).1.files fname =
      if path = fname then
        match finish with
        | .done => some res.out
        | .failed left _ => left
      else w.files fname := by
    split_ifs with h
    · subst h
      exact finishTransfer_files path res.out (by simp)
    · have : fname ≠ path := fun heq => h heq.symm
      cases finish with
      | done => simp [finishTransfer, this]
      | failed left kept => cases kept <;> simp [finishTransfer, this]
  unfold keepInPartialDir
  dsimp only
  by_cases hok : finish = .done
  · rw [if_pos ((finishTransfer_ok _ _ _).2 hok), if_pos hok]
    by_cases hdelay : o.delayUpdates ∧ res.ret ≠ 0
    · rw [if_pos hdelay, if_pos hdelay]
      exact ⟨hfiles, rfl⟩
    · rw [if_neg hdelay, if_neg hdelay]
      exact ⟨hfiles, rfl⟩
  · rw [if_neg fun h => hok ((finishTransfer_ok _ _ _).1 h), if_neg hok]
    exact ⟨hfiles, rfl⟩

theorem not_placed_of_untargeted (hin : ¬ o.inplace = true) (h : ¬ r.TargetsName o dirMade) :
    ¬ r.Placed o dirMade finish ∧ r.stays o w dirMade finish = w.files r.fname := by
  refine ⟨fun hp => h (hp.resolve_left hin).1, ?_⟩
  cases finish with
  | done => rfl
  | failed left kept => exact if_neg h

theorem targeted_files (hin : ¬ o.inplace = true) (h : r.TargetsName o dirMade) :
    (match finish with
      | .done => some res.out
      | .failed left _ => left) =
      if r.Placed o dirMade finish then some res.out else r.stays o w dirMade finish := by
  cases finish with
  | done => exact (if_pos (Or.inr ⟨h, rfl⟩)).symm
  | failed left kept =>
    rw [if_neg fun hp => by simpa using (Or.resolve_left hp hin).2, Request.stays, if_pos h]

/-- **What is under the name after the install step.** -/
theorem install_files (hret : res.ret = 1) :
    (install o w r cmp dirMade finish res).1.files r.fname =
      if r.Placed o dirMade finish then some res.out else r.stays o w dirMade finish := by
  unfold install
  by_cases hin : o.inplace = true
  · have hplaced : r.Placed o dirMade finish := Or.inl hin
    rw [if_pos hin, if_pos hplaced, files_setFile, if_pos rfl]
  rw [if_neg hin]
  by_cases hdirect : r.Direct o
  · rw [if_pos ⟨by omega, hdirect⟩, (putInPlace_spec _ _ _).1]
    exact targeted_files hin (Or.inl hdirect)
  rw [if_neg fun h => hdirect h.2]
  cases hp : r.partialptr o with
  | none => exact absurd (Or.inr hp) hdirect
  | some path =>
    have ht : r.TargetsName o dirMade ↔ o.keepPartial = true ∧ dirMade = true ∧ path = r.fname := by
      rw [Request.TargetsName, or_iff_right hdirect, hp, Option.some.injEq]
    dsimp only
    by_cases hname : r.TargetsName o dirMade
    · obtain ⟨hkeep, hdir, rfl⟩ := ht.1 hname
      rw [if_neg (by simp [hkeep]), if_neg (by simp [hdir]), (keepInPartialDir_spec _ _).1, if_pos rfl]
      exact targeted_files hin hname
    · obtain ⟨hplaced, hstays⟩ : ¬ r.Placed o dirMade finish ∧ r.stays o w dirMade finish = _ :=
        not_placed_of_untargeted hin hname
      rw [if_neg hplaced, hstays]
      split_ifs with hkeep hdir
      · rfl
      · rfl
      · rw [(keepInPartialDir_spec _ _).1, if_neg fun h => hname (ht.2 ⟨by simpa using hkeep, by simpa using hdir, h⟩)]

/-- **`recv_ok` after the install step**: a failure, or 1, or 2 for a delayed update. -/
theorem install_recvOk (hret : res.ret = 1) :
    (r.Fails o dirMade finish → (install o w r cmp dirMade finish res).2 = -1) ∧
      (¬ r.Fails o dirMade finish → (install o w r cmp dirMade finish res).2 = 1 ∨
        (install o w r cmp dirMade finish res).2 = 2) := by
  unfold install
  by_cases hin : o.inplace = true
  · rw [if_pos hin, hret]
    exact ⟨fun h => absurd hin (by simp [h.1]), fun _ => Or.inl rfl⟩
  have hin' : o.inplace = false := by simpa using hin
  rw [if_neg hin]
  by_cases hdirect : r.Direct o
  · have hfails : r.Fails o dirMade finish ↔ finish ≠ .done := by simp [Request.Fails, hin', hdirect]
    rw [if_pos ⟨by omega, hdirect⟩, (putInPlace_spec _ _ _).2, hfails, hret]
    by_cases hok : finish = .done <;> simp [hok]
  have hfails : r.Fails o dirMade finish ↔ o.keepPartial = true ∧ (dirMade = false ∨ finish ≠ .done) := by
    simp [Request.Fails, hin', hdirect]
  rw [if_neg fun h => hdirect h.2, hfails]
  cases hp : r.partialptr o with
  | none => exact absurd (Or.inr hp) hdirect
  | some path =>
    dsimp only
    by_cases hkeep : o.keepPartial = false
    · simp [hkeep, hret]
    by_cases hdir : dirMade = false
    · simp [hdir, hkeep]
    rw [if_neg hkeep, if_neg hdir, (keepInPartialDir_spec _ _).2, hret]
    by_cases hok : finish = .done
    · cases o.delayUpdates <;> simp [hok, hdir]
    · simp [hok, hkeep]

end Install

/-! ## Verification -/

/-- The data `receive_data` sums, in the order of the tokens: every literal and
    every matched block. -/
def Recv.reconstructed (a : Recv) (toks : List Token) : Bytes :=
  ((a.init.bind fun s => a.recvTokens s toks).map (·.summed)).getD []

/-- The digest of the data is the one the sender sent. -/
def DigestMatches (sumEnd : Bytes → Bytes) (a : Recv) (toks : List Token) (senderSum : Bytes) : Prop :=
  sumEnd (a.reconstructed toks) = senderSum

/-- The verdict of a call: 1 if the digests are equal, 0 otherwise. -/
def Received.Verdict (sumEnd : Bytes → Bytes) (r : Received) : Prop :=
  r.ret = if sumEnd r.summed = r.senderFileSum then 1 else 0

theorem receiveData_verdict {sumEnd : Bytes → Bytes} {a : Recv} {toks : List Token} {senderSum : Bytes}
    {res : Received} (h : receiveData sumEnd a toks senderSum = some res) :
    res.summed = a.reconstructed toks ∧ res.senderFileSum = senderSum ∧ res.ret = 1 := by
  obtain ⟨-, -, -, -, -, -, -, -, -, -, -, hsender, hret⟩ := receiveData_cases h
  obtain ⟨s₀, h₀, h⟩ := Option.bind_eq_some_iff.1 h
  obtain ⟨s, hs, h⟩ := Option.bind_eq_some_iff.1 h
  rw [Option.some.injEq] at h
  refine ⟨?_, hsender, hret⟩
  rw [Recv.reconstructed, h₀, Option.bind_some, hs, ← h]
  rfl

/-- Of a new file, or where no block is used that was overwritten, the data are
    what the tokens stand for, behind what an append verifies first. -/
theorem reconstructed_eq {a : Recv} {toks : List Token} {p₀ : ℕ} (hfd : a.fd.isSome = true)
    (hp : a.appendLen = some p₀) (hsafe : a.StreamSafe p₀ [] toks)
    (hgap : a.GapOk p₀ (decode (a.basis.getD []) a.sum toks)) :
    a.reconstructed toks = a.summedPrefix p₀ ++ decode (a.basis.getD []) a.sum toks := by
  obtain ⟨res, hres⟩ := Option.isSome_iff_exists.1 (receiveData_isSome id [] hfd hp hsafe hgap)
  obtain ⟨-, -, -, hsum⟩ := receiveData_ok hres hfd hp hsafe
  rw [← (receiveData_verdict hres).1, hsum]

/-- The pass installs a file as verified only if the digests are equal, and asks
    for every other one again. -/
structure Pass.Verifies (sumEnd : Bytes → Bytes) (p : Pass) (r : Request) : Prop where
  installed : p.recvOk = some 1 ∨ p.recvOk = some 2 → sumEnd p.received.summed = r.senderSum
  redo : sumEnd p.received.summed ≠ r.senderSum → p.recvOk ≠ some (-1) → r.redoing = false →
    p.asksRedo r = true

theorem receiveFile_eq {sumEnd : Bytes → Bytes} {o : RunOpts} {w : World} {r : Request} {dirMade : Bool}
    {finish : Finish} {i : Received × World × ℤ}
    (h : receiveFile sumEnd o w r dirMade finish = some i) :
    ∃ cmp d, r.fnamecmp o = some cmp ∧
      receiveInto sumEnd o (setUp o w r.fname) (recvOf o (setUp o w r.fname) r cmp) r = some d ∧
      i.1 = d.1 ∧ i.2 = install o d.2 r cmp.1 dirMade finish d.1 := by
  obtain ⟨cmp, hcmp, h⟩ := Option.bind_eq_some_iff.1 h
  obtain ⟨d, hd, h⟩ := Option.bind_eq_some_iff.1 h
  rw [Option.some.injEq] at h
  subst h
  exact ⟨cmp, d, hcmp, hd, rfl, rfl⟩

theorem recvFile_received {sumEnd : Bytes → Bytes} {o : RunOpts} {w : World} {r : Request}
    {dirMade : Bool} {finish : Finish} {p : Pass} (hfate : r.fate = .received dirMade finish)
    (h : recvFile sumEnd o w r = some p) :
    ∃ i, receiveFile sumEnd o w r dirMade finish = some i ∧ p.recvOk = some i.2.2 ∧ p.received = i.1 ∧
      keepVersions o i.2.1 r.fname = some (p.full, p.world) := by
  rw [recvFile, hfate] at h
  obtain ⟨i, hi, h⟩ := Option.bind_eq_some_iff.1 h
  obtain ⟨k, hk, h⟩ := Option.bind_eq_some_iff.1 h
  rw [Option.some.injEq] at h
  subst h
  exact ⟨i, hi, rfl, rfl, hk⟩

/-- **When the verification is right**: `file_sum1` is compared with itself, so a
    call is right exactly if the data are, and a pass also when the file cannot be
    put in its place. -/
theorem verification_iff (sumEnd : Bytes → Bytes) :
    (∀ (a : Recv) (toks : List Token) (senderSum : Bytes) (res : Received), a.fd.isSome = true →
      receiveData sumEnd a toks senderSum = some res →
      (res.Verdict sumEnd ↔ DigestMatches sumEnd a toks senderSum)) ∧
    ∀ (o : RunOpts) (w : World) (r : Request) (dirMade : Bool) (finish : Finish) (cmp : Bytes × Bool)
      (p : Pass), r.fate = .received dirMade finish → r.fnamecmp o = some cmp →
      recvFile sumEnd o w r = some p →
      (p.Verifies sumEnd r ↔ r.Fails o dirMade finish ∨
        DigestMatches sumEnd (recvOf o (setUp o w r.fname) r cmp) r.toks.toks r.senderSum) := by
  constructor
  · intro a toks senderSum res _ h
    obtain ⟨hsum, hsender, hret⟩ := receiveData_verdict h
    rw [Received.Verdict, hret, hsum, hsender, DigestMatches]
    split_ifs with heq <;> simp [heq]
  · intro o w r dirMade finish cmp p hfate hcmp h
    obtain ⟨i, hi, hok, hrecv, -⟩ := recvFile_received hfate h
    obtain ⟨cmp', d, hcmp', hd, hi₁, hi₂⟩ := receiveFile_eq hi
    obtain rfl : cmp = cmp' := Option.some.inj (hcmp.symm.trans hcmp')
    obtain ⟨hsum, -, hret⟩ := receiveData_verdict (receiveInto_eq hd).1
    obtain ⟨hfail, hdone⟩ : (r.Fails o dirMade finish → (install o d.2 r cmp.1 dirMade finish d.1).2 = _) ∧ _ :=
      install_recvOk hret
    rw [← hi₂] at hfail hdone
    have hdata : p.received.summed =
        (recvOf o (setUp o w r.fname) r cmp).reconstructed r.toks.toks := by rw [hrecv, hi₁, hsum]
    constructor
    · rintro ⟨hinst, -⟩
      by_cases hf : r.Fails o dirMade finish
      · exact Or.inl hf
      · refine Or.inr ?_
        rw [DigestMatches, ← hdata]
        refine hinst ?_
        rw [hok]
        simpa using hdone hf
    · rintro (hf | heq)
      · have hm : p.recvOk = some (-1) := by rw [hok, hfail hf]
        exact ⟨fun h => by simp [hm] at h, fun _ h => absurd hm h⟩
      · rw [DigestMatches, ← hdata] at heq
        exact ⟨fun _ => heq, fun h => absurd heq h⟩

/-- A literal into a new file. -/
def oneLiteral : List Token := [.data [66]]

theorem oneLiteral_wf : ∀ t ∈ oneLiteral, t.Wf := by decide

theorem receiveData_oneLiteral (senderSum : Bytes) :
    ∃ res, receiveData id (Recv.newFile [65] oneByteHead false) oneLiteral senderSum = some res ∧
      res.summed = [66] := by
  have hsafe := Recv.streamSafe_fresh (a := Recv.newFile [65] oneByteHead false) rfl (by decide) 0
    oneLiteral []
  obtain ⟨res, hres, -, hsum⟩ := receiveData_temp (s := ⟨oneByteHead, []⟩)
    (newFile_temp [65] oneByteHead false) hsafe id senderSum
  exact ⟨res, hres, hsum⟩

theorem verification_iff_oneLiteral :
    ∃ res, receiveData id (Recv.newFile [65] oneByteHead false) oneLiteral [66] = some res ∧
      res.Verdict id := by
  obtain ⟨res, hres, hsum⟩ := receiveData_oneLiteral [66]
  have hdata : DigestMatches id (Recv.newFile [65] oneByteHead false) oneLiteral [66] := by
    rw [DigestMatches, ← (receiveData_verdict hres).1, hsum]
    rfl
  exact ⟨res, hres, ((verification_iff id).1 _ _ _ res rfl hres).2 hdata⟩

/-- **A file that does not match its digest is verified.** -/
theorem not_verification :
    ¬ ∀ (sumEnd : Bytes → Bytes) (a : Recv) (toks : List Token) (senderSum : Bytes) (res : Received),
      a.fd.isSome = true → receiveData sumEnd a toks senderSum = some res → res.Verdict sumEnd := by
  intro h
  obtain ⟨res, hres, hsum⟩ := receiveData_oneLiteral [67]
  obtain ⟨-, hsender, hret⟩ := receiveData_verdict hres
  have := h id _ _ _ res rfl hres
  rw [Received.Verdict, hret, hsum, hsender] at this
  exact absurd this (by decide)

/-! ## The full backup -/

/-- The loop copies the whole file, also when its length is a multiple of the
    buffer. -/
theorem copyLoop_eq (src out : Bytes) : copyLoop src out = out ++ src := by
  induction src, out using copyLoop.induct with
  | case1 out => rw [copyLoop, if_pos rfl, List.append_nil]
  | case2 src out hsrc buf hlt =>
    have hbuf : buf = src := List.take_of_length_le (by
      have : buf.length = min copyBufSize src.length := List.length_take
      omega)
    rw [copyLoop, if_neg hsrc]
    exact (if_pos hlt).trans (congrArg _ hbuf)
  | case3 src out hsrc buf hlt ih =>
    rw [copyLoop, if_neg hsrc, if_neg hlt, ih, List.append_assoc, List.take_append_drop]

/-- The full backup is written with the content received, and holds it. -/
def FullIsReceived (o : RunOpts) (w : World) (fname out : Bytes) : Prop :=
  ∃ w', copyFull o w fname = some (out, w') ∧
    (w'.store o.backupType fname).full.lookup (fullName o fname) = some out

theorem fullIsReceived_iff {o : RunOpts} {w : World} {fname out : Bytes}
    (hname : NameOk (fullName o fname)) :
    FullIsReceived o w fname out ↔ w.files fname = some out := by
  unfold FullIsReceived copyFull
  cases hc : w.files fname with
  | none => simp
  | some content =>
    simp only [Option.bind_eq_bind, Option.bind_some, Dir.create, if_pos hname, copyLoop_eq,
      List.nil_append, Option.some.injEq, Prod.mk.injEq]
    constructor
    · rintro ⟨w', ⟨rfl, -⟩, -⟩
      rfl
    · rintro rfl
      exact ⟨_, ⟨rfl, rfl⟩, by simp⟩

/-- A first backup of a new file is received. -/
theorem receiveFile_first {sumEnd : Bytes → Bytes} {o : RunOpts} {w : World} {r : Request}
    {dirMade : Bool} {finish : Finish} {cmp : Bytes × Bool} (hin : o.inplace = false)
    (hwhole : o.wholeFile = false) (hcmp : r.fnamecmp o = some cmp)
    (hrec : (setUp o w r.fname).records o = false)
    (hsafe : (recvOf o (setUp o w r.fname) r cmp).StreamSafe 0 [] r.toks.toks) :
    ∃ i, receiveFile sumEnd o w r dirMade finish = some i ∧
      i.1.out = decode ((w.files cmp.1).getD []) r.head r.toks.toks := by
  have htemp : (recvOf o (setUp o w r.fname) r cmp).Temp (((setUp o w r.fname).files cmp.1).getD [])
      (SumStruct.mk r.head []).head := recvOf_temp hin hwhole cmp
  obtain ⟨res, hres, hout, -⟩ := receiveData_temp htemp hsafe sumEnd r.senderSum
  obtain ⟨p₀, -, -, -, -, -, -, -, -, hdelta, -⟩ := receiveData_cases hres
  rw [if_neg (by simp [recvOf, hrec])] at hdelta
  refine ⟨(res, install o { setUp o w r.fname with sparsePastWrite := res.sparsePastWrite } r cmp.1
    dirMade finish res), ?_, ?_⟩
  · simp only [receiveFile, hcmp, receiveInto_of_unrecorded hres hdelta, Option.bind_eq_bind,
      Option.bind_some]
  · rw [hout, setUp_files]

/-- **When the full backup is the content received**: exactly if the file is in its
    place before it is copied, or what is there happens to be the same.  A name
    that fits the directory is what it takes for the full backup to be written;
    without a file there the process ends over an empty one. -/
theorem fullBackup_iff (sumEnd : Bytes → Bytes) (o : RunOpts) (w : World) (r : Request)
    (dirMade : Bool) (finish : Finish) (i : Received × World × ℤ)
    (h : receiveFile sumEnd o w r dirMade finish = some i)
    (hname : NameOk (fullName o r.fname)) :
    FullIsReceived o i.2.1 r.fname i.1.out ↔
      r.Placed o dirMade finish ∨ r.stays o w dirMade finish = some i.1.out := by
  obtain ⟨cmp, d, -, hd, hi₁, hi₂⟩ := receiveFile_eq h
  obtain ⟨hrecv, hfiles, -⟩ := receiveInto_eq hd
  have hret := (receiveData_verdict hrecv).2.2
  have hstays : r.stays o d.2 dirMade finish = r.stays o w dirMade finish := by
    cases finish <;> simp only [Request.stays, hfiles, setUp_files]
  rw [fullIsReceived_iff hname, hi₁, hi₂, install_files hret, hstays]
  split_ifs with hplaced
  · simp [hplaced]
  · simp [hplaced]

theorem plainRun_append (h : (0 : ℤ) ≠ 0) : false = true := absurd rfl h

/-- A backup run with the default options. -/
def plainRun (kind : BackupType) (version : Bytes) (versionNum : ℤ) : RunOpts where
  backup := true
  backupType := kind
  backupVersion := version
  backupVersionNum := versionNum
  wholeFile := false
  inplace := false
  appendMode := 0
  sparseFiles := false
  delayUpdates := false
  keepPartial := false
  partialDir := none
  backupName := fun _ => none
  basisDir := []
  excluded := fun _ => false
  append_inplace := plainRun_append

/-- The same with `--delay-updates`. -/
def delayedRun : RunOpts :=
  { plainRun .incremental (cstr "2") 3 with
    delayUpdates := true, keepPartial := true, partialDir := some fun fname => some (fname ++ cstr "~") }

/-- A file that is sent as one literal. -/
def literalRequest (fate : Fate) : Request :=
  ⟨cstr "f", none, 1, .fname, false, .null, ⟨oneLiteral, oneLiteral_wf⟩, [], fate⟩

/-- A world with one file and no backups. -/
def oneFile : World :=
  .begin (fun path => if path = cstr "f" then some [65] else none) fun _ => ⟨⟨∅, ∅⟩, ⟨∅, ∅⟩⟩

theorem receiveFile_literal {o : RunOpts} (h : o = plainRun .incremental (cstr "2") 3 ∨ o = delayedRun) :
    ∃ i, receiveFile id o oneFile (literalRequest (.received true .done)) true .done = some i ∧
      i.1.out = [66] := by
  have hcmp : (literalRequest (.received true .done)).fnamecmp o = some (cstr "f", false) := by
    rcases h with rfl | rfl <;> rfl
  have hrec : (setUp o oneFile (cstr "f")).records o = false := by
    rcases h with rfl | rfl <;> decide
  have hin : o.inplace = false ∧ o.wholeFile = false := by rcases h with rfl | rfl <;> exact ⟨rfl, rfl⟩
  exact receiveFile_first hin.1 hin.2 hcmp hrec trivial

theorem fullBackup_iff_plain :
    ∃ i, receiveFile id (plainRun .incremental (cstr "2") 3) oneFile
        (literalRequest (.received true .done)) true .done = some i ∧
      FullIsReceived (plainRun .incremental (cstr "2") 3) i.2.1 (cstr "f") i.1.out := by
  obtain ⟨i, hi, -⟩ := receiveFile_literal (Or.inl rfl)
  refine ⟨i, hi, (fullBackup_iff id _ _ _ _ _ i hi (by decide)).2 (Or.inl ?_)⟩
  exact Or.inr ⟨Or.inl (Or.inl rfl), rfl⟩

/-- **A delayed update is not in place when it is copied**: the full backup of the
    version is the old content. -/
theorem not_fullBackup :
    ¬ ∀ (sumEnd : Bytes → Bytes) (o : RunOpts) (w : World) (r : Request) (dirMade : Bool)
      (finish : Finish) (i : Received × World × ℤ),
      receiveFile sumEnd o w r dirMade finish = some i → (setUp o w r.fname).fullDue o = true →
      NameOk (fullName o r.fname) →
      FullIsReceived o i.2.1 r.fname i.1.out := by
  intro h
  obtain ⟨i, hi, hout⟩ := receiveFile_literal (Or.inr rfl)
  obtain ⟨cmp, d, -, hd, hi₁, hi₂⟩ := receiveFile_eq hi
  obtain ⟨hrecv, hfiles, -⟩ := receiveInto_eq hd
  have hfull := h id delayedRun oneFile _ true .done i hi (by decide) (by decide)
  rw [fullIsReceived_iff (by decide), hi₂, install_files (receiveData_verdict hrecv).2.2,
    if_neg (by decide), hout, Request.stays, hfiles, setUp_files] at hfull
  exact absurd hfull (by decide)

/-! ## Files that are not installed -/

/-- The data was discarded, or the file was not verified or not put in its place. -/
def Pass.NotInstalled (p : Pass) : Prop :=
  p.recvOk = none ∨ p.recvOk = some 0 ∨ p.recvOk = some (-1)

/-- The data is discarded while no delta is recorded: `first_backup` is not 0, as
    it was left for an early exit, or as the store says after the set-up. -/
def Undisturbed (o : RunOpts) (w : World) (r : Request) : Prop :=
  match r.fate with
  | .skipped => w.firstBackup ≠ 0
  | .unopened => w.hasFull o r.fname = false
  | .received _ _ => False

theorem receiveInto_unrecorded {sumEnd : Bytes → Bytes} {o : RunOpts} {w : World} {a : Recv}
    {r : Request} {d : Received × World} (h : receiveInto sumEnd o w a r = some d)
    (hrec : a.record = false) : d.2.backups = w.backups := by
  obtain ⟨hrecv, -, hsame⟩ := receiveInto_eq h
  obtain ⟨p₀, -, -, -, -, -, -, -, -, hdelta, -⟩ := receiveData_cases hrecv
  refine hsame ?_
  rw [hdelta, if_neg (by simp [hrec])]

/-- An undisturbed pass leaves every store as it was. -/
theorem Undisturbed.backups_eq {sumEnd : Bytes → Bytes} {o : RunOpts} {w : World} {r : Request}
    {p : Pass} (h : Undisturbed o w r) (hp : recvFile sumEnd o w r = some p) :
    p.world.backups = w.backups := by
  unfold Undisturbed at h
  unfold recvFile at hp
  cases hfate : r.fate with
  | skipped =>
    rw [hfate] at h hp
    obtain ⟨d, hd, hp⟩ := Option.bind_eq_some_iff.1 hp
    rw [Option.some.injEq] at hp
    subst hp
    exact receiveInto_unrecorded hd (by simp [discardRecv, World.records, h])
  | unopened =>
    rw [hfate] at h hp
    obtain ⟨d, hd, hp⟩ := Option.bind_eq_some_iff.1 hp
    rw [Option.some.injEq] at hp
    subst hp
    refine (receiveInto_unrecorded hd ?_).trans (setUp_backups _)
    unfold discardRecv World.records setUp
    split_ifs <;> simp_all
  | received dirMade finish => simp only [hfate] at h

/-- **A run leaves the stores of what it does not install intact**, when every file
    that is not installed is discarded while no delta is recorded. -/
theorem failed_intact (sumEnd : Bytes → Bytes) (o : RunOpts) (w : World) (rs : List Request)
    (h : EveryFile (fun w r p => p.NotInstalled → Undisturbed o w r) sumEnd o w rs) :
    EveryFile (fun w _ p => p.NotInstalled → p.world.backups = w.backups) sumEnd o w rs :=
  h.imp fun _ _ _ hp hundisturbed hnot => (hundisturbed hnot).backups_eq hp

theorem recvTokens_discard {a : Recv} (hfd : a.fd = none) (s : RecvState) (toks : List Token) :
    (a.recvTokens s toks).isSome := by
  induction toks generalizing s with
  | nil => rfl
  | cons t ts ih =>
    have hput : ∀ s d, a.put s d = some s.out := fun s d => by simp [Recv.put, hfd]
    have hseek : ∀ n i, ¬ a.Seeks n i := fun n i h => by simpa [hfd] using h.2.2
    have hone : (a.recvToken s t).isSome := by
      cases t with
      | data d => simp [Recv.recvToken, hput]
      | block i =>
        simp only [Recv.recvToken, hseek, if_false]
        cases (a.readBlock s i).1 <;> simp [hput]
    obtain ⟨s', hs'⟩ := Option.isSome_iff_exists.1 hone
    rw [Recv.recvTokens, hs']
    exact ih s'

/-- Discarding always succeeds when nothing is appended to. -/
theorem receiveData_discard {a : Recv} (hfd : a.fd = none) (happend : a.opts.appendMode ≤ 0)
    (sumEnd : Bytes → Bytes) (toks : List Token) (senderSum : Bytes) :
    ∃ res, receiveData sumEnd a toks senderSum = some res ∧ (res.delta.isSome ↔ a.record = true) := by
  have happend' : ¬ 0 < a.opts.appendMode := by omega
  obtain ⟨s₀, h₀⟩ : ∃ s₀, a.init = some s₀ := by simp [Recv.init, Recv.appendLen, happend']
  obtain ⟨s, hs⟩ := Option.isSome_iff_exists.1 (recvTokens_discard hfd s₀ toks)
  obtain ⟨res, hres⟩ : ∃ res, receiveData sumEnd a toks senderSum = some res := by
    simp [receiveData, h₀, hs]
  obtain ⟨p₀, -, -, -, -, -, -, -, -, hdelta, -⟩ := receiveData_cases hres
  refine ⟨res, hres, ?_⟩
  rw [hdelta]
  split_ifs with hrec <;> simp [hrec]

/-- A file that cannot be opened is discarded. -/
theorem recvFile_unopened {sumEnd : Bytes → Bytes} {o : RunOpts} {w : World} {r : Request}
    {d : Received × World} (hfate : r.fate = .unopened)
    (hd : receiveInto sumEnd o (setUp o w r.fname) (discardRecv o (setUp o w r.fname) r) r = some d) :
    recvFile sumEnd o w r = some ⟨d.2, none, d.1, none⟩ := by
  simp only [recvFile, hfate, hd, Option.bind_eq_bind, Option.bind_some]

theorem failed_intact_unopened :
    ∃ p, recvFile id (plainRun .incremental (cstr "2") 3) oneFile (literalRequest .unopened) = some p ∧
      p.NotInstalled ∧ p.world.backups = oneFile.backups := by
  obtain ⟨res, hres, hdelta⟩ := receiveData_discard
    (a := discardRecv (plainRun .incremental (cstr "2") 3)
      (setUp (plainRun .incremental (cstr "2") 3) oneFile (cstr "f")) (literalRequest .unopened))
    rfl le_rfl id oneLiteral []
  have hnone : res.delta = none := by
    rw [← Option.not_isSome_iff_eq_none, hdelta]
    decide
  have hp := recvFile_unopened rfl (receiveInto_of_unrecorded hres hnone)
  refine ⟨_, hp, Or.inl rfl, ?_⟩
  have hrun : EveryFile (fun w r p => p.NotInstalled → Undisturbed (plainRun .incremental (cstr "2") 3) w r)
      id (plainRun .incremental (cstr "2") 3) oneFile [literalRequest .unopened] :=
    fun _ _ => ⟨fun _ => (by decide : oneFile.hasFull _ (cstr "f") = false), trivial⟩
  exact (failed_intact id _ _ _ hrun _ hp).1 (Or.inl rfl)

/-- The same world with a full backup of version 1. -/
def oneBackup : World :=
  .begin oneFile.files fun fname =>
    if fname = cstr "f" then
      ⟨⟨AList.insert (fullPrefix (cstr "f") ++ cstr "1") [65] ∅, ∅⟩, ⟨∅, ∅⟩⟩
    else ⟨⟨∅, ∅⟩, ⟨∅, ∅⟩⟩

/-- **A file that could not even be opened gets a delta** of the new version. -/
theorem not_failed_intact :
    ¬ ∀ (sumEnd : Bytes → Bytes) (o : RunOpts) (w : World) (rs : List Request), o.backup = true →
      EveryFile (fun w _ p => p.NotInstalled → p.world.backups = w.backups) sumEnd o w rs := by
  intro h
  obtain ⟨res, hres, hdelta⟩ := receiveData_discard
    (a := discardRecv (plainRun .incremental (cstr "2") 3)
      (setUp (plainRun .incremental (cstr "2") 3) oneBackup (cstr "f")) (literalRequest .unopened))
    rfl le_rfl id oneLiteral []
  obtain ⟨delta, hsome⟩ := Option.isSome_iff_exists.1 (hdelta.2 (by decide))
  have hp := recvFile_unopened rfl
    (receiveInto_of_recorded hres hsome rfl (by decide))
  have hsame := (h id (plainRun .incremental (cstr "2") 3) oneBackup [literalRequest .unopened] rfl _ hp).1
    (Or.inl rfl)
  have hstore := congrArg (fun b : Bytes → Backups => (b (cstr "f")).get .incremental) hsame
  change World.store _ .incremental (cstr "f") = oneBackup.store .incremental (cstr "f") at hstore
  rw [store_setStore, if_pos ⟨rfl, rfl⟩] at hstore
  have hlookup := congrArg (fun s : Store => s.delta.lookup
    (deltaName (plainRun .incremental (cstr "2") 3) (literalRequest .unopened).fname)) hstore
  simp only [AList.lookup_insert] at hlookup
  exact Option.some_ne_none _ (hlookup.trans rfl)

end CloudEdgeBackup
