/-
  The basis a delta is recorded against, and the version it is replayed on.

  The receiver records block numbers of whatever file it mapped; recovery replays
  them on the newest version of the store.

  * `Recv.transferred` is what the tokens of a call stand for;
  * `RecordsNewest`: the delta recorded turns the newest stored version into it,
    and recovery rebuilds it;
  * `recordedBasis_iff`: that is so exactly if everything is recorded and every
    block matched has the same bytes in the newest stored version.
-/
import CloudEdgeBackup.BackupPass

namespace CloudEdgeBackup

open Zext Versions

/-- What a transfer delivers: the data appended to, then what the tokens stand for
    against the basis. -/
def Recv.transferred (a : Recv) (p₀ : ℕ) (toks : List Token) : Bytes :=
  zslice (a.basis.getD []) 0 p₀ ++ decode (a.basis.getD []) a.sum toks

/-- The store `b` of the file rebuilds the new version, by a delta that gives
    `content` on the newest version before it. -/
def RecordsNewest (o : RunOpts) (fname : Bytes) (b : Backups) (newestStored content : Bytes) : Prop :=
  ∃ delta, b.incremental.delta.lookup (deltaName o fname) = some delta ∧
    applyDelta newestStored delta = some content ∧
    recover (dirNameOf fname) (fileNameOf fname) b .incremental o.backupVersion = some (some content)

/-- Everything transferred is recorded, and every block matched in the basis has
    the same bytes in `other`. -/
structure SameBlocks (a : Recv) (p₀ : ℕ) (toks : List Token) (other : Bytes) : Prop where
  recorded : a.Recorded p₀ toks
  blocks : ∀ i, Token.block i ∈ toks →
    zslice other (a.sum.offset i) (a.sum.len i) =
      zslice (a.basis.getD []) (a.sum.offset i) (a.sum.len i)

/-- What recovery of the version `V` reads fits its buffers: the newest full backup
    is `f`, the deltas are `dl`. -/
structure RecoveryFits (f V : Bytes) (fl dl : List (Bytes × Bytes)) : Prop where
  full : f.length < 128
  version : V.length < 128
  deltas : Fits 128 f dl
  fullCount : fl.length ≤ maxBackupNum
  deltaCount : dl.length < maxBackupNum

section Basis

variable {sumEnd : Bytes → Bytes} {a : Recv} {p₀ : ℕ}

theorem decode_length (file : Bytes) (sum : SumHead) (toks : List Token) :
    (decode file sum toks).length = (toks.map (Token.size sum)).sum := by
  simp [decode, List.length_flatMap, Token.bytes_length]

/-- **The delta gives what was transferred** on another file exactly if the blocks
    matched are the same there, and everything was recorded. -/
theorem applyDelta_transferred {toks : TokenStream} {senderSum : Bytes} {res : Received}
    (h : receiveData sumEnd a toks.toks senderSum = some res) (hp : a.appendLen = some p₀)
    {delta : Bytes} (hdelta : res.delta = some delta) (other : Bytes) :
    applyDelta other delta = some (a.transferred p₀ toks.toks) ↔ SameBlocks a p₀ toks.toks other := by
  rw [applyDelta_received toks h hp hdelta other, Option.some.injEq]
  have hlen := a.records_length other p₀ toks.toks
  constructor
  · intro heq
    have hrec : a.Recorded p₀ toks.toks := by
      rw [heq, Recv.transferred, List.length_append, zslice_length, decode_length] at hlen
      unfold Recv.Recorded
      omega
    obtain ⟨hp₀, hun⟩ := Nat.add_eq_zero_iff.1 hrec
    refine ⟨hrec, decode_eq_iff.1 ?_⟩
    rw [Recv.replay_records hun] at heq
    rw [heq, Recv.transferred, hp₀]
    simp
  · rintro ⟨hrec, hblocks⟩
    obtain ⟨hp₀, hun⟩ := Nat.add_eq_zero_iff.1 hrec
    rw [Recv.replay_records hun, Recv.transferred, decode_eq_iff.2 hblocks, hp₀]
    simp

theorem fits_append {f V delta : Bytes} {dl : List (Bytes × Bytes)} (hf : f < V) :
    Fits 128 f (dl ++ [(V, delta)]) ↔ V.length < 128 ∧ Fits 128 f dl := by
  have hrank : rank f (dl ++ [(V, delta)]) = rank f dl := by
    unfold rank upTo
    rw [List.takeWhile_append]
    split_ifs with h
    · simp [not_le.2 hf, h]
    · rfl
  have hle := rank_le f dl
  unfold Fits
  rw [hrank, List.length_append, List.length_singleton, fitsBelow_succ (by simp) (by omega)]
  simp only [List.getElem_concat_length]
  refine and_congr_right fun _ => ⟨fun h i hi hik hm => ?_, fun h i hi hik hm => ?_⟩
  · have := h i (by rw [List.length_append, List.length_singleton]; omega) hik hm
    rwa [List.getElem_append_left hi] at this
  · rw [List.getElem_append_left hik]
    exact h i hik hik hm

/-- The newest of full backups that are all before `V`. -/
theorem fits_fulls {V : Bytes} {fl : List (Bytes × Bytes)} {e : Bytes × Bytes}
    (hfl : ∀ e ∈ fl, e.1 < V) (he : newest V fl = some e) :
    Fits 128 V fl ↔ e.1.length < 128 := by
  have hall : rank V fl = fl.length := by
    rw [rank, upTo, List.takeWhile_eq_self_iff.2 fun e he => by simpa using (hfl e he).le]
  rw [newest_eq_getElem?, hall] at he
  split_ifs at he with h0
  obtain ⟨hi, rfl⟩ := List.getElem?_eq_some_iff.1 he
  rw [Fits, hall]
  constructor
  · intro h
    exact h _ hi (by omega) (by omega)
  · intro h i hi' _ hm
    obtain rfl : i = fl.length - 1 := by omega
    exact h

/-- Recovery of a version whose delta gives `content` on the newest version before. -/
theorem recover_appended {b : Backups} {dirName fileName V delta content newestStored : Bytes}
    {fl dl : List (Bytes × Bytes)} {f : Bytes × Bytes}
    (hfull : b.incremental.full.Holds (fullPrefix fileName) fl)
    (hdelta : b.incremental.delta.Holds (deltaPrefix fileName) (dl ++ [(V, delta)]))
    (hnew : newest V fl = some f) (hfl : ∀ e ∈ fl, e.1 < V) (hdl : ∀ e ∈ dl, e.1 < V)
    (hcur : replay applyDelta f.2 (between f.1 V dl) = some newestStored)
    (happly : applyDelta newestStored delta = some content) :
    recover dirName fileName b .incremental V = some (some content) ↔ RecoveryFits f.1 V fl dl := by
  have hfV : f.1 < V := hfl f (hfull.ascending.newest_eq_some.1 hnew).1
  have hreplay : replay applyDelta f.2 (between f.1 V (dl ++ [(V, delta)])) = some content := by
    have hbetween : between f.1 V (dl ++ [(V, delta)]) = between f.1 V dl ++ [(V, delta)] :=
      between_append_singleton (e := (V, delta)) (fun a ha => (hdl a ha).le) hfV
    rw [hbetween, replay_append, hcur, Option.bind_some, replay, happly]
    rfl
  have hcombine : combineIncrementalFiles dirName fileName b.incremental
      ⟨Dir.Holds.names (fullPrefix fileName) fl, Dir.Holds.names (deltaPrefix fileName) (dl ++ [(V, delta)])⟩
      V = some (some content) ↔ f.1.length < 128 ∧ V.length < 128 ∧ Fits 128 f.1 dl := by
    rw [combineIncrementalFiles_eq hfull hdelta, fits_fulls hfl hnew, hnew]
    dsimp only
    rw [fits_append hfV, hreplay]
    simp [hfV.ne]
  rw [recover_of_holds hfull hdelta, List.length_append, List.length_singleton]
  by_cases hcount : fl.length ≤ maxBackupNum ∧ dl.length + 1 ≤ maxBackupNum
  · rw [if_pos hcount]
    refine Iff.trans hcombine ⟨?_, ?_⟩
    · rintro ⟨h₁, h₂, h₃⟩
      exact ⟨h₁, h₂, h₃, hcount.1, hcount.2⟩
    · rintro ⟨h₁, h₂, h₃, -, -⟩
      exact ⟨h₁, h₂, h₃⟩
  · rw [if_neg hcount]
    constructor
    · rintro ⟨⟩
    · rintro ⟨-, -, -, h₄, h₅⟩
      exact absurd ⟨h₄, h₅⟩ hcount

/-- A backup that is not the first records a delta under the name of the file. -/
theorem receiveFile_recorded {o : RunOpts} {w : World} {r : Request} {dirMade : Bool} {finish : Finish}
    {i : Received × World × ℤ} {cmp : Bytes × Bool}
    (h : receiveFile sumEnd o w r dirMade finish = some i) (hcmp : r.fnamecmp o = some cmp)
    (hb : o.backup = true) (hkind : o.backupType = .incremental) (hhas : w.hasFull o r.fname = true) :
    ∃ delta, receiveData sumEnd (recvOf o (setUp o w r.fname) r cmp) r.toks.toks r.senderSum = some i.1 ∧
      i.1.delta = some delta ∧ (i.2.1.backups r.fname).incremental =
        { (w.backups r.fname).incremental with
          delta := (w.backups r.fname).incremental.delta.insert (deltaName o r.fname) delta } := by
  obtain ⟨cmp', d, hcmp', hd, hi₁, hi₂⟩ := receiveFile_eq h
  obtain rfl : cmp = cmp' := Option.some.inj (hcmp.symm.trans hcmp')
  have hrecv := (receiveInto_eq hd).1
  obtain ⟨p₀, -, -, -, -, -, -, -, -, hdelta, -⟩ := receiveData_cases hrecv
  have hrec : (recvOf o (setUp o w r.fname) r cmp).record = true := by
    simp [recvOf, World.records, setUp, hb, hhas]
  rw [if_pos hrec] at hdelta
  obtain ⟨fname, hname, hbackups⟩ := receiveInto_recorded hd hdelta
  obtain rfl : fname = r.fname := by
    simp only [setUp, hb, if_true, Option.some.injEq] at hname
    exact hname.symm
  rw [hi₁]
  refine ⟨_, hrecv, hdelta, ?_⟩
  rw [hi₂, (install_stores _ _ _ _).backups, hbackups, hkind]
  simp [World.setStore, Backups.set, World.store, Backups.get]

end Basis

/-- **When a delta is recorded against the newest stored version**: exactly if
    everything transferred is recorded and the blocks matched in the basis, be it
    the destination file, a partial file, a fuzzy match or an alternate basis, are
    the same in that version (and the versions fit the buffers of recovery). -/
theorem recordedBasis_iff (sumEnd : Bytes → Bytes) (o : RunOpts) (w : World) (r : Request)
    (dirMade : Bool) (finish : Finish) (i : Received × World × ℤ) (cmp : Bytes × Bool)
    (fl dl : List (Bytes × Bytes)) (f : Bytes × Bytes) (newestStored : Bytes) (p₀ : ℕ)
    (h : receiveFile sumEnd o w r dirMade finish = some i) (hcmp : r.fnamecmp o = some cmp)
    (hb : o.backup = true) (hkind : o.backupType = .incremental)
    (hfull : (w.backups r.fname).incremental.full.Holds (fullPrefix (fileNameOf r.fname)) fl)
    (hdelta : (w.backups r.fname).incremental.delta.Holds (deltaPrefix (fileNameOf r.fname)) dl)
    (hnew : newest o.backupVersion fl = some f) (hfl : ∀ e ∈ fl, e.1 < o.backupVersion)
    (hdl : ∀ e ∈ dl, e.1 < o.backupVersion) (hdot : dot ∉ o.backupVersion)
    (hcur : replay applyDelta f.2 (between f.1 o.backupVersion dl) = some newestStored)
    (hp : (recvOf o (setUp o w r.fname) r cmp).appendLen = some p₀) :
    RecordsNewest o r.fname (i.2.1.backups r.fname) newestStored
        ((recvOf o (setUp o w r.fname) r cmp).transferred p₀ r.toks.toks) ↔
      SameBlocks (recvOf o (setUp o w r.fname) r cmp) p₀ r.toks.toks newestStored ∧
        RecoveryFits f.1 o.backupVersion fl dl := by
  have hf := (hfull.ascending.newest_eq_some.1 hnew).1
  have hhas : w.hasFull o r.fname = true := by
    have hfull' : (w.store o.backupType r.fname).full.Holds (fullPrefix (fileNameOf r.fname)) fl := by
      rw [hkind]
      exact hfull
    exact (hasFull_of_holds hfull').2 (List.ne_nil_of_mem hf)
  obtain ⟨delta, hrecv, hsome, hstore⟩ := receiveFile_recorded h hcmp hb hkind hhas
  have hfull' : (i.2.1.backups r.fname).incremental.full.Holds (fullPrefix (fileNameOf r.fname)) fl := by
    rw [hstore]
    exact hfull
  have hdelta' : (i.2.1.backups r.fname).incremental.delta.Holds (deltaPrefix (fileNameOf r.fname))
      (dl ++ [(o.backupVersion, delta)]) := by
    rw [hstore]
    exact hdelta.insert hdot hdl
  have hlookup : (i.2.1.backups r.fname).incremental.delta.lookup (deltaName o r.fname) = some delta := by
    rw [hstore]
    exact AList.lookup_insert _
  have hsame := applyDelta_transferred hrecv hp hsome newestStored
  constructor
  · rintro ⟨delta', hlookup', happly, hrec⟩
    obtain rfl : delta = delta' := Option.some.inj (hlookup.symm.trans hlookup')
    exact ⟨hsame.1 happly, (recover_appended hfull' hdelta' hnew hfl hdl hcur happly).1 hrec⟩
  · rintro ⟨hblocks, hfits⟩
    have happly := hsame.2 hblocks
    exact ⟨delta, hlookup, happly, (recover_appended hfull' hdelta' hnew hfl hdl hcur happly).2 hfits⟩

/-- A later backup is received, whatever the basis. -/
theorem receiveFile_later {sumEnd : Bytes → Bytes} {o : RunOpts} {w : World} {r : Request}
    {cmp : Bytes × Bool} (hb : o.backup = true) (hin : o.inplace = false) (hwhole : o.wholeFile = false)
    (hcmp : r.fnamecmp o = some cmp) (hfull : w.hasFull o r.fname = true)
    (hblocks : ∀ i, Token.block i ∈ r.toks.toks → (w.files cmp.1).getD [] ≠ [])
    (hname : NameOk (deltaName o r.fname)) (dirMade : Bool) (finish : Finish) :
    ∃ i, receiveFile sumEnd o w r dirMade finish = some i := by
  set a := recvOf o (setUp o w r.fname) r cmp with ha
  have htemp : a.Temp ((w.files cmp.1).getD []) (SumStruct.mk r.head []).head := by
    have := recvOf_temp (w := setUp o w r.fname) (r := r) hin hwhole cmp
    rwa [setUp_files] at this
  have hmapped : ∀ i, Token.block i ∈ r.toks.toks → a.Mapped := fun i hi => by
    rw [Recv.Mapped, Recv.sizeR, htemp.basis]
    exact List.length_pos_iff.2 (hblocks i hi)
  obtain ⟨res, hres, -⟩ := receiveData_temp htemp (streamSafe_of_blocks hin hmapped []) sumEnd r.senderSum
  obtain ⟨p₀, -, -, -, -, -, -, -, -, hdelta, -⟩ := receiveData_cases hres
  have hrec : a.record = true := by simp [ha, recvOf, World.records, setUp, hb, hfull]
  rw [if_pos hrec] at hdelta
  have hdb : (setUp o w r.fname).deltaBackup = some r.fname := by simp [setUp, hb]
  have hinto := receiveInto_of_recorded hres hdelta hdb hname
  simp only [receiveFile, hcmp, ← ha, hinto, Option.bind_eq_bind, Option.bind_some]
  exact ⟨_, rfl⟩

/-- A backup of `f` as the first block of the basis `cmp`. -/
def blockRequest (cmp : FnameCmp) : Request :=
  ⟨cstr "f", none, 1, cmp, false, oneByteHead, firstBlock, [], .received true .done⟩

/-- Next to the backed-up file there is another one. -/
def twoFiles : World := oneBackup.setFile (cstr "g") (some [66])

/-- The run that makes version 2. -/
def secondRun : RunOpts := plainRun .incremental (cstr "2") 3

theorem twoFiles_full : ((twoFiles.backups (cstr "f")).incremental.full).Holds
    (fullPrefix (fileNameOf (cstr "f"))) [(cstr "1", [65])] := by
  have := (Dir.Holds.empty (fullPrefix (cstr "f"))).insert (v := cstr "1") (c := [65]) (by decide) (by simp)
  exact this

theorem receiveFile_block {cmp : FnameCmp} {path : Bytes}
    (hcmp : (blockRequest cmp).fnamecmp secondRun = some (path, false))
    (hpath : (twoFiles.files path).getD [] ≠ []) :
    ∃ i, receiveFile id secondRun twoFiles (blockRequest cmp) true .done = some i := by
  have hfull : twoFiles.hasFull secondRun (cstr "f") = true :=
    (hasFull_of_holds (show Dir.Holds _ (twoFiles.store .incremental (cstr "f")).full _ from twoFiles_full)).2
      (by simp)
  exact receiveFile_later rfl rfl rfl hcmp hfull (fun _ _ => hpath)
    (show NameOk (deltaName secondRun (cstr "f")) by decide) true .done

theorem recordedBasis_iff_fname :
    ∃ i, receiveFile id secondRun twoFiles (blockRequest .fname) true .done = some i ∧
      RecordsNewest secondRun (cstr "f") (i.2.1.backups (cstr "f")) [65] [65] := by
  have hcmp : (blockRequest .fname).fnamecmp secondRun = some (cstr "f", false) := rfl
  obtain ⟨i, hi⟩ := receiveFile_block hcmp (by decide)
  refine ⟨i, hi, ?_⟩
  have hiff := recordedBasis_iff id secondRun twoFiles (blockRequest .fname) true .done i (cstr "f", false)
    [(cstr "1", [65])] [] (cstr "1", [65]) [65] 0 hi hcmp rfl rfl twoFiles_full (Dir.Holds.empty _)
    (by decide) (by decide) (by simp) (by decide) rfl rfl
  refine hiff.2 ⟨⟨by decide, fun i _ => rfl⟩, by decide, by decide, ?_, by norm_num, by norm_num⟩
  intro i hi
  simp at hi

/-- **A fuzzy basis is not a stored version**: the block is one of the file next to
    it, and recovery takes it from the full backup. -/
theorem not_recordedBasis :
    ¬ ∀ (sumEnd : Bytes → Bytes) (o : RunOpts) (w : World) (r : Request) (dirMade : Bool) (finish : Finish)
      (i : Received × World × ℤ) (cmp : Bytes × Bool) (fl dl : List (Bytes × Bytes)) (f : Bytes × Bytes)
      (newestStored : Bytes) (p₀ : ℕ),
      receiveFile sumEnd o w r dirMade finish = some i → r.fnamecmp o = some cmp → o.backup = true →
      o.backupType = .incremental →
      (w.backups r.fname).incremental.full.Holds (fullPrefix (fileNameOf r.fname)) fl →
      (w.backups r.fname).incremental.delta.Holds (deltaPrefix (fileNameOf r.fname)) dl →
      newest o.backupVersion fl = some f → (∀ e ∈ fl, e.1 < o.backupVersion) →
      (∀ e ∈ dl, e.1 < o.backupVersion) → dot ∉ o.backupVersion →
      replay applyDelta f.2 (between f.1 o.backupVersion dl) = some newestStored →
      (recvOf o (setUp o w r.fname) r cmp).appendLen = some p₀ →
      RecordsNewest o r.fname (i.2.1.backups r.fname) newestStored
        ((recvOf o (setUp o w r.fname) r cmp).transferred p₀ r.toks.toks) := by
  intro h
  have hcmp : (blockRequest (.fuzzy (cstr "g"))).fnamecmp secondRun = some (cstr "g", false) := rfl
  obtain ⟨i, hi⟩ := receiveFile_block hcmp (by decide)
  obtain ⟨delta, hlookup, happly, -⟩ := h id secondRun twoFiles _ true .done i (cstr "g", false)
    [(cstr "1", [65])] [] (cstr "1", [65]) [65] 0 hi hcmp rfl rfl twoFiles_full (Dir.Holds.empty _)
    (by decide) (by decide) (by simp) (by decide) rfl rfl
  obtain ⟨delta', hrecv, hsome, hstore⟩ := receiveFile_recorded hi hcmp rfl rfl (by decide)
  obtain rfl : delta' = delta := by
    have hlookup' : AList.lookup (deltaName secondRun (cstr "f")) (i.2.1.backups (cstr "f")).incremental.delta =
        some delta' := by
      rw [show (i.2.1.backups (cstr "f")).incremental = _ from hstore]
      exact AList.lookup_insert _
    exact Option.some.inj (hlookup'.symm.trans hlookup)
  have hblocks := ((applyDelta_transferred hrecv rfl hsome [65]).1 happly).blocks 0 (by decide)
  exact absurd hblocks (by decide)

end CloudEdgeBackup
