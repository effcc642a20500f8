/-
  Host access of the daemon (`access.c`).

  * `matchAddress` is `match_address`: it cuts the token at its slash, and puts the slash back on
    every way out;
  * the masks are those of `make_mask`, or a mask address; `matchBinary_iff` says which bits are
    compared, `getElem_makeMask` which bits a length selects;
  * `accessMatch` takes the tokens of a list one after the other (`accessLoop_iff`), and
    `allowAccess` puts the two lists together.

  The resolver functions are a parameter (`NameService`), and so are the character classes.
-/
import CloudEdgeBackup.Wildmatch

namespace CloudEdgeBackup

namespace Access

/-! ## The resolver -/

inductive Family where
  | inet | inet6
  deriving DecidableEq

/-- `addrlen`. -/
def Family.width : Family → ℕ
  | .inet => 4
  | .inet6 => 16

/-- The bytes of an address or a mask. -/
abbrev IpAddr (f : Family) := { b : Bytes // b.length = f.width }

structure SockAddr where
  family : Family
  addr : IpAddr family
  scopeId : ℕ

/-- `getaddrinfo` for numeric hosts, `inet_pton`, and the addresses of `gethostbyname` as
    `inet_ntoa` prints them. -/
structure NameService where
  getaddrinfo : Bytes → Option SockAddr
  inetPton : (f : Family) → Bytes → Option (IpAddr f)
  gethostbyname : Bytes → Option (List Bytes)

/-! ## Addresses -/

def isDigitByte (c : UInt8) : Bool := 48 ≤ c && c ≤ 57
def isSpaceByte (c : UInt8) : Bool := 9 ≤ c && c ≤ 13 || c == 32

/-- The value of decimal digits. -/
def decimal (digits : Bytes) : ℕ := digits.foldl (fun n c => n * 10 + (c.toNat - 48)) 0

/-- The range of a `long`. -/
def clampLong (n : ℤ) : ℤ := max (-2 ^ 63) (min (2 ^ 63 - 1) n)

/-- `strtol(p, &ep, 10)`: the value, and what stands at `ep`. -/
def strtol (p : Bytes) : ℤ × Bytes :=
  let t := p.dropWhile isSpaceByte
  let negative : Bool := t.head? = some 45
  let t := if negative ∨ t.head? = some 43 then t.tail else t
  if t.takeWhile isDigitByte = [] then (0, p)
  else
    let n : ℤ := decimal (t.takeWhile isDigitByte)
    (clampLong (if negative then -n else n), t.dropWhile isDigitByte)

/-- `make_mask`, as far as `addrlen`. -/
def makeMask (plen addrlen : ℕ) : Bytes :=
  let w := plen / 8
  let b := plen % 8
  (List.replicate w (0xff : UInt8)).take addrlen ++
    (if w < addrlen then [UInt8.ofNat (0xff <<< (8 - b))] else []) ++
    List.replicate (addrlen - (w + 1)) 0

/-- `match_binary`. -/
def matchBinary : Bytes → Bytes → Bytes → Bool
  | x :: b1, y :: b2, m :: mask => if (x ^^^ y) &&& m ≠ 0 then false else matchBinary b1 b2 mask
  | _, _, _ => true

/-- The second part of `match_address`: two addresses, and what stands behind the slash. -/
def compareAddr (ns : NameService) (resa rest : SockAddr) (p : Option Bytes) : Bool :=
  if rest.family ≠ resa.family then false
  else if resa.family = .inet6 ∧ rest.scopeId ≠ 0 ∧ resa.scopeId ≠ rest.scopeId then false
  else
    let a := resa.addr.1
    let t := rest.addr.1
    let addrlen := resa.family.width
    match p with
    | none => matchBinary a t (makeMask 128 addrlen)
    | some p =>
      match ns.inetPton resa.family p with
      | some mask => matchBinary a t mask.1
      | none =>
        let (bits, ep) := strtol p
        if p = [] ∨ ep ≠ [] then false
        else if bits = 0 then true
        else if bits < 0 ∨ (addrlen * 8 : ℕ) < bits then false
        else matchBinary a t (makeMask bits.toNat addrlen)

/-- A C string in a buffer. -/
def cstring (s : Bytes) : Bytes := s.takeWhile (· ≠ 0)

/-- The byte at the slash of a token, where it has one. -/
def putAt (p : Option ℕ) (b : UInt8) (tok : Bytes) : Bytes :=
  match p with
  | some i => tok.set i b
  | none => tok

/-- `match_address`: the answer, and the token as it is left. -/
def matchAddress (ns : NameService) (addr tok : Bytes) : Bool × Bytes :=
  if addr = [] then (false, tok)
  else
    let p := tok.findIdx? (· = slash)
    let cut := putAt p 0 tok
    let restored := putAt p slash cut
    -- a hostname, not an address
    if !(cstring cut).all (· ∈ cstr ".0123456789") && classColon ∉ cstring cut then (false, restored)
    else
      match ns.getaddrinfo addr with
      | none => (false, restored)
      | some resa =>
        match ns.getaddrinfo (cstring cut) with
        | none => (false, restored)
        | some rest => (compareAddr ns resa rest (p.map fun i => cstring (restored.drop (i + 1))), restored)

/-! ## Host names -/

/-- `*host_ptr`, and whether it is `undetermined_hostname`. -/
structure ClientHost where
  name : Bytes
  undetermined : Bool

/-- `match_hostname`. -/
def matchHostname (ns : NameService) (ct : Ctype) (allowForwardDns : Bool) (host : ClientHost)
    (addr tok : Bytes) : Bool × ClientHost :=
  if host.name = [] then (false, host)
  else if iwildmatch ct tok host.name then (true, host)
  else if !allowForwardDns then (false, host)
  else if tok.all (· ∈ cstr ".0123456789") || tok.any (· ∈ cstr ":/*?[") then (false, host)
  else
    match ns.gethostbyname tok with
    | none => (false, host)
    | some addrs =>
      if addr ∈ addrs then (true, if host.undetermined then ⟨tok, false⟩ else host) else (false, host)

/-! ## The lists -/

/-- The separators of a list. -/
def isSep (c : UInt8) : Bool := c ∈ cstr " ,\t"

/-- `strtok`: the next token and what is behind it. -/
def strtok (s : Bytes) : Option (Bytes × Bytes) :=
  let s := s.dropWhile isSep
  if s = [] then none else some (s.takeWhile (!isSep ·), (s.dropWhile (!isSep ·)).tail)

theorem strtok_length {s : Bytes} {r : Bytes × Bytes} (h : strtok s = some r) :
    r.2.length < s.length := by
  rw [strtok] at h
  split at h
  · cases h
  · rename_i hne
    obtain rfl := Option.some.inj h
    have hle := (List.dropWhile_suffix (l := s) isSep).length_le
    have hle' := (List.dropWhile_suffix (l := s.dropWhile isSep) (!isSep ·)).length_le
    have hpos := List.length_pos_iff.2 hne
    rw [List.length_tail]
    omega

/-- The loop of `access_match`. -/
def accessLoop (ns : NameService) (ct : Ctype) (allowForwardDns : Bool) (addr : Bytes)
    (host : ClientHost) (s : Bytes) : Bool × ClientHost :=
  match _h : strtok s with
  | none => (false, host)
  | some (tok, behind) =>
    let (matched, host) := matchHostname ns ct allowForwardDns host addr tok
    if matched then (true, host)
    else
      let (matched, _) := matchAddress ns addr tok
      if matched then (true, host) else accessLoop ns ct allowForwardDns addr host behind
termination_by s.length
decreasing_by exact strtok_length _h

/-- `access_match`. -/
def accessMatch (ns : NameService) (ct : Ctype) (allowForwardDns : Bool) (list addr : Bytes)
    (host : ClientHost) : Bool × ClientHost :=
  accessLoop ns ct allowForwardDns addr host (list.map (foldCase ct true))

/-- `allow_access`, on the lists of a module. -/
def allowAccess (ns : NameService) (ct : Ctype) (allowForwardDns : Bool) (allowList denyList : Option Bytes)
    (addr : Bytes) (host : ClientHost) : Bool × ClientHost :=
  let allowList := allowList.filter (· ≠ [])
  let denyList := denyList.filter (· ≠ [])
  match allowList, denyList with
  | some allow, deny =>
    let (matched, host) := accessMatch ns ct allowForwardDns allow addr host
    if matched then (true, host)
    else
      match deny with
      | none => (false, host)
      | some deny =>
        let (matched, host) := accessMatch ns ct allowForwardDns deny addr host
        (!matched, host)
  | none, some deny =>
    let (matched, host) := accessMatch ns ct allowForwardDns deny addr host
    (!matched, host)
  | none, none => (true, host)

/-! ## What is meant -/

/-- The patterns of a list: what stands between separators, in small letters. -/
def patterns (ct : Ctype) (list : Bytes) : List Bytes :=
  ((list.map (foldCase ct true)).splitOnP isSep).filter (· ≠ [])

/-- A pattern matches a client by its name or its address. -/
def PatternMatches (ns : NameService) (ct : Ctype) (allowForwardDns : Bool) (addr : Bytes)
    (host : ClientHost) (tok : Bytes) : Prop :=
  (matchHostname ns ct allowForwardDns host addr tok).1 = true ∨ (matchAddress ns addr tok).1 = true

/-- Some pattern of a list matches; a list that is missing has none. -/
def SomeMatch (ns : NameService) (ct : Ctype) (allowForwardDns : Bool) (addr : Bytes)
    (host : ClientHost) (list : Option Bytes) : Prop :=
  ∃ l, list = some l ∧ ∃ tok ∈ patterns ct l, PatternMatches ns ct allowForwardDns addr host tok

/-- A bit of an address, the first one on the left. -/
def bitAt (a : Bytes) (j : ℕ) : Bool := (a.getD (j / 8) 0).toNat.testBit (7 - j % 8)

/-- Two addresses of one family agree on the selected bits. -/
def AgreeOn (a t : SockAddr) (selected : ℕ → Prop) : Prop :=
  a.family = t.family ∧ ∀ j < 8 * t.family.width, selected j → bitAt a.addr.1 j = bitAt t.addr.1 j

/-! ## Tokens -/

theorem strtok_sep {c : UInt8} (hc : isSep c = true) (s : Bytes) : strtok (c :: s) = strtok s := by
  rw [strtok, strtok, List.dropWhile_cons_of_pos hc]

/-- The tokens of `strtok` are the patterns. -/
theorem splitOnP_strtok (s : Bytes) : (s.splitOnP isSep).filter (· ≠ []) =
    match strtok s with
    | none => []
    | some (tok, behind) => tok :: (behind.splitOnP isSep).filter (· ≠ []) := by
  induction s with
  | nil => rfl
  | cons c s ih =>
    by_cases hc : isSep c = true
    · rw [strtok_sep hc, List.splitOnP_cons_eq_if_modifyHead, if_pos hc, ← ih]
      rfl
    · have hdrop : (c :: s).dropWhile isSep = c :: s := List.dropWhile_cons_of_neg hc
      have htake : (c :: s).takeWhile (!isSep ·) = c :: s.takeWhile (!isSep ·) :=
        List.takeWhile_cons_of_pos (by simpa using hc)
      have hno : ∀ x ∈ (c :: s).takeWhile (!isSep ·), isSep x = false := by
        intro x hx
        simpa using List.mem_takeWhile_imp hx
      have hd : ∀ d ∈ ((c :: s).dropWhile (!isSep ·)).head?, isSep d = true := by
        intro d hmem
        have := List.head?_dropWhile_not (!isSep ·) (c :: s)
        rw [Option.mem_def.1 hmem] at this
        simpa using this
      have hne : (c :: s).takeWhile (!isSep ·) ≠ [] := by simp [htake]
      have hstrtok : strtok (c :: s) =
          some ((c :: s).takeWhile (!isSep ·), ((c :: s).dropWhile (!isSep ·)).tail) := by
        rw [strtok, hdrop, if_neg (List.cons_ne_nil c s)]
      have hsplit := (List.takeWhile_append_dropWhile (p := (!isSep ·)) (l := c :: s)).symm
      rw [hstrtok]
      generalize (c :: s).takeWhile (!isSep ·) = tok at *
      generalize (c :: s).dropWhile (!isSep ·) = rest at *
      cases rest with
      | nil =>
        rw [hsplit, List.append_nil, List.splitOnP_eq_singleton hno]
        simp [hne]
      | cons d rest =>
        rw [hsplit, List.splitOnP_append_cons_of_forall_mem hno d (hd d rfl)]
        simp [hne]

section Scan

variable {ns : NameService} {ct : Ctype} {allowForwardDns : Bool} {addr : Bytes} {host : ClientHost}

/-- The host name changes only in a match. -/
theorem matchHostname_false {tok : Bytes}
    (h : (matchHostname ns ct allowForwardDns host addr tok).1 = false) :
    (matchHostname ns ct allowForwardDns host addr tok).2 = host := by
  rw [matchHostname] at h ⊢
  by_cases hname : host.name = []
  · rw [if_pos hname]
  rw [if_neg hname] at h ⊢
  by_cases hwild : iwildmatch ct tok host.name = true
  · rw [if_pos hwild] at h
    cases h
  rw [if_neg hwild] at h ⊢
  split at h
  · rename_i hfwd
    rw [if_pos hfwd]
  rename_i hfwd
  rw [if_neg hfwd]
  split at h
  · rename_i htok
    rw [if_pos htok]
  rename_i htok
  rw [if_neg htok]
  cases haddrs : ns.gethostbyname tok with
  | none => rfl
  | some addrs =>
    rw [haddrs] at h
    dsimp only at h ⊢
    split at h
    · cases h
    · rename_i haddr
      rw [if_neg haddr]

theorem accessLoop_spec : ∀ s : Bytes,
    ((accessLoop ns ct allowForwardDns addr host s).1 = true ↔
      ∃ tok ∈ (s.splitOnP isSep).filter (· ≠ []), PatternMatches ns ct allowForwardDns addr host tok) ∧
    ((accessLoop ns ct allowForwardDns addr host s).1 = false →
      (accessLoop ns ct allowForwardDns addr host s).2 = host) := by
  intro s
  induction hn : s.length using Nat.strong_induction_on generalizing s with
  | _ n ih =>
    subst hn
    rw [splitOnP_strtok, accessLoop.eq_def]
    cases htok : strtok s with
    | none => simp
    | some r =>
      obtain ⟨tok, behind⟩ := r
      have hbehind := ih _ (strtok_length htok) behind rfl
      have hkeep : (matchHostname ns ct allowForwardDns host addr tok).1 = false →
          (matchHostname ns ct allowForwardDns host addr tok).2 = host := matchHostname_false
      dsimp only
      cases hhost : matchHostname ns ct allowForwardDns host addr tok with
      | mk matched host' =>
        cases matched with
        | true => simp [PatternMatches, hhost]
        | false =>
          rw [hhost] at hkeep
          obtain rfl : host' = host := hkeep rfl
          cases haddr : matchAddress ns addr tok with
          | mk matched tok' =>
            cases matched with
            | true => simp [PatternMatches, haddr]
            | false =>
              simp only [Bool.false_eq_true, if_false]
              refine ⟨hbehind.1.trans ?_, hbehind.2⟩
              simp [PatternMatches, haddr, hhost]

theorem accessMatch_iff (list : Bytes) :
    (accessMatch ns ct allowForwardDns list addr host).1 = true ↔
      ∃ tok ∈ patterns ct list, PatternMatches ns ct allowForwardDns addr host tok :=
  (accessLoop_spec _).1

theorem accessMatch_false {list : Bytes}
    (h : (accessMatch ns ct allowForwardDns list addr host).1 = false) :
    (accessMatch ns ct allowForwardDns list addr host).2 = host :=
  (accessLoop_spec _).2 h

/-- A list that is given, and not empty. -/
def Given (list : Option Bytes) : Prop := ∃ l, list = some l ∧ l ≠ []

theorem someMatch_filter (list : Option Bytes) :
    SomeMatch ns ct allowForwardDns addr host (list.filter (· ≠ [])) ↔
      SomeMatch ns ct allowForwardDns addr host list := by
  cases list with
  | none => rfl
  | some l =>
    by_cases hl : l = []
    · subst hl
      simp [SomeMatch, patterns]
    · simp [Option.filter, hl]

theorem given_iff (list : Option Bytes) : Given list ↔ list.filter (· ≠ []) ≠ none := by
  cases list with
  | none => simp [Given]
  | some l => by_cases hl : l = [] <;> simp [Given, Option.filter, hl]

/-- **The decision by the two lists.** -/
theorem allowAccess_iff (allowList denyList : Option Bytes) :
    (allowAccess ns ct allowForwardDns allowList denyList addr host).1 = true ↔
      SomeMatch ns ct allowForwardDns addr host allowList ∨
        ¬SomeMatch ns ct allowForwardDns addr host allowList ∧
          ¬SomeMatch ns ct allowForwardDns addr host denyList ∧ (¬Given allowList ∨ Given denyList) := by
  rw [← someMatch_filter allowList, ← someMatch_filter denyList, given_iff, given_iff, allowAccess]
  generalize allowList.filter (· ≠ []) = allow
  generalize denyList.filter (· ≠ []) = deny
  have hsome : ∀ l : Bytes, SomeMatch ns ct allowForwardDns addr host (some l) ↔
      (accessMatch ns ct allowForwardDns l addr host).1 = true := by
    intro l
    rw [accessMatch_iff]
    simp [SomeMatch]
  have hnone : ¬SomeMatch ns ct allowForwardDns addr host none := by simp [SomeMatch]
  cases allow with
  | none =>
    cases deny with
    | none => simp [hnone]
    | some d => simp [hnone, hsome]
  | some l =>
    have hkeep : (accessMatch ns ct allowForwardDns l addr host).1 = false →
        (accessMatch ns ct allowForwardDns l addr host).2 = host := accessMatch_false
    rw [hsome]
    dsimp only
    cases hmatch : accessMatch ns ct allowForwardDns l addr host with
    | mk matched host' =>
      cases matched with
      | true => simp
      | false =>
        rw [hmatch] at hkeep
        obtain rfl : host' = host := hkeep rfl
        cases deny with
        | none => simp
        | some d => simp [hsome]

end Scan

/-! ## Masks -/

theorem bitAt_cons (x : UInt8) (a : Bytes) {j : ℕ} (hj : j < 8) :
    bitAt (x :: a) j = x.toNat.testBit (7 - j) := by
  rw [bitAt, Nat.div_eq_of_lt hj, Nat.mod_eq_of_lt hj]
  rfl

theorem bitAt_cons_add (x : UInt8) (a : Bytes) (j : ℕ) : bitAt (x :: a) (j + 8) = bitAt a j := by
  rw [bitAt, bitAt, Nat.add_div_right j (by norm_num), Nat.add_mod_right]
  rfl

/-- A masked difference is zero where the selected bits agree. -/
theorem xor_and_eq_zero_iff (x y m : UInt8) : (x ^^^ y) &&& m = 0 ↔
    ∀ k < 8, m.toNat.testBit k = true → x.toNat.testBit k = y.toNat.testBit k := by
  rw [← UInt8.toNat_inj, UInt8.toNat_and, UInt8.toNat_xor]
  constructor
  · intro h k _ hm
    have hbit := congrArg (fun n => Nat.testBit n k) h
    simp [hm] at hbit
    exact hbit
  · intro h
    refine Nat.eq_of_testBit_eq fun k => ?_
    rw [Nat.testBit_and, Nat.testBit_xor]
    have hzero : (0 : UInt8).toNat.testBit k = false := by simp
    rw [hzero]
    by_cases hk : k < 8
    · cases hm : m.toNat.testBit k with
      | false => simp
      | true => simp [h k hk hm]
    · have hm : m.toNat.testBit k = false :=
        Nat.testBit_lt_two_pow (m.toNat_lt.trans_le (Nat.pow_le_pow_right (by norm_num) (by omega : 8 ≤ k)))
      simp [hm]

/-- **What `match_binary` compares.** -/
theorem matchBinary_iff : ∀ {a t mask : Bytes}, a.length = t.length → mask.length = t.length →
    (matchBinary a t mask = true ↔ ∀ j < 8 * t.length, bitAt mask j = true → bitAt a j = bitAt t j)
  | [], [], [], _, _ => by simp [matchBinary]
  | x :: a, y :: t, m :: mask, ha, hm => by
    have hlen : a.length = t.length := by simpa using ha
    have ih : matchBinary a t mask = true ↔
        ∀ j < 8 * t.length, bitAt mask j = true → bitAt a j = bitAt t j :=
      matchBinary_iff hlen (by simpa using hm)
    rw [matchBinary]
    have hfirst : (∀ k < 8, m.toNat.testBit k = true → x.toNat.testBit k = y.toNat.testBit k) ↔
        ∀ j < 8, bitAt (m :: mask) j = true → bitAt (x :: a) j = bitAt (y :: t) j := by
      constructor
      · intro h j hj hbit
        rw [bitAt_cons _ _ hj] at hbit ⊢
        rw [bitAt_cons _ _ hj]
        exact h (7 - j) (by omega) hbit
      · intro h k hk hbit
        have := h (7 - k) (by omega)
        rw [bitAt_cons _ _ (by omega), bitAt_cons _ _ (by omega), bitAt_cons _ _ (by omega),
          Nat.sub_sub_self (by omega)] at this
        exact this hbit
    have hsplit : (∀ j < 8 * (y :: t).length, bitAt (m :: mask) j = true →
        bitAt (x :: a) j = bitAt (y :: t) j) ↔
        (∀ j < 8, bitAt (m :: mask) j = true → bitAt (x :: a) j = bitAt (y :: t) j) ∧
          ∀ j < 8 * t.length, bitAt mask j = true → bitAt a j = bitAt t j := by
      constructor
      · intro h
        refine ⟨fun j hj => h j (by rw [List.length_cons]; omega), fun j hj => ?_⟩
        have := h (j + 8) (by rw [List.length_cons]; omega)
        rwa [bitAt_cons_add, bitAt_cons_add, bitAt_cons_add] at this
      · rintro ⟨hlow, hhigh⟩ j hj
        by_cases h8 : j < 8
        · exact hlow j h8
        · obtain ⟨k, rfl⟩ : ∃ k, j = k + 8 := ⟨j - 8, by omega⟩
          rw [bitAt_cons_add, bitAt_cons_add, bitAt_cons_add]
          exact hhigh k (by rw [List.length_cons] at hj; omega)
    rw [hsplit, ← hfirst, ← xor_and_eq_zero_iff, ← ih]
    by_cases hzero : (x ^^^ y) &&& m = 0 <;> simp [hzero]

theorem length_makeMask (plen addrlen : ℕ) : (makeMask plen addrlen).length = addrlen := by
  simp only [makeMask, List.length_append, List.length_take, List.length_replicate]
  split_ifs <;> simp <;> omega

theorem getD_makeMask (plen : ℕ) {addrlen i : ℕ} (hi : i < addrlen) :
    (makeMask plen addrlen).getD i 0 = if i < plen / 8 then 0xff
      else if i = plen / 8 then UInt8.ofNat (0xff <<< (8 - plen % 8)) else 0 := by
  have htake : ((List.replicate (plen / 8) (0xff : UInt8)).take addrlen).length = min addrlen (plen / 8) := by
    rw [List.length_take, List.length_replicate]
  rw [makeMask, List.getD_eq_getElem?_getD, List.append_assoc]
  by_cases hlt : i < plen / 8
  · rw [if_pos hlt, List.getElem?_append_left (by omega), List.getElem?_take_of_lt hi,
      List.getElem?_replicate_of_lt hlt]
    rfl
  · rw [if_neg hlt, List.getElem?_append_right (by omega), htake, if_pos (by omega : plen / 8 < addrlen)]
    by_cases heq : i = plen / 8
    · rw [if_pos heq]
      have hzero : i - min addrlen (plen / 8) = 0 := by omega
      rw [hzero]
      rfl
    · rw [if_neg heq]
      obtain ⟨k, hk⟩ : ∃ k, i - min addrlen (plen / 8) = k + 1 := ⟨i - plen / 8 - 1, by omega⟩
      rw [hk, List.singleton_append, List.getElem?_cons_succ, List.getElem?_replicate_of_lt (by omega)]
      rfl

/-- The bits a length selects. -/
theorem bitAt_makeMask (plen : ℕ) {addrlen j : ℕ} (hj : j < 8 * addrlen) :
    bitAt (makeMask plen addrlen) j = decide (j < plen) := by
  have hfull : ∀ r < 8, (0xff : UInt8).toNat.testBit (7 - r) = true := by decide
  have hpart : ∀ b < 8, ∀ r < 8, (UInt8.ofNat (0xff <<< (8 - b))).toNat.testBit (7 - r) = decide (r < b) := by
    decide
  have hr := Nat.mod_lt j (by norm_num : 0 < 8)
  have hb := Nat.mod_lt plen (by norm_num : 0 < 8)
  have hjdiv := Nat.div_add_mod j 8
  have hpdiv := Nat.div_add_mod plen 8
  rw [bitAt, getD_makeMask plen (by omega)]
  split_ifs with hlt heq
  · rw [hfull _ hr]
    simp
    omega
  · rw [hpart _ hb _ hr]
    congr 1
    rw [eq_iff_iff]
    omega
  · simp
    omega

/-! ## Two addresses -/

/-- What is relied on: `inet_pton` takes no number for an address, and nothing is an empty one. -/
structure NameService.Documented (ns : NameService) : Prop where
  pton : ∀ f s mask, ns.inetPton f s = some mask → dot ∈ s ∨ classColon ∈ s
  empty : ns.getaddrinfo [] = none

/-- A pattern that is an address: in dotted decimal notation, or with colons, and without a scope. -/
structure IsIp (ns : NameService) (ip : Bytes) (t : SockAddr) : Prop where
  numeric : ns.getaddrinfo ip = some t
  form : ip.all (· ∈ cstr ".0123456789") = true ∨ classColon ∈ ip
  scope : t.scopeId = 0
  noSlash : slash ∉ ip
  noNul : 0 ∉ ip

/-- A number as it is written behind a slash, perhaps with a minus. -/
def IsNumber (num : Bytes) (n : ℤ) : Prop :=
  ∃ digits : Bytes, digits ≠ [] ∧ digits.all isDigitByte = true ∧
    (num = digits ∧ n = decimal digits ∨ num = 45 :: digits ∧ n = -decimal digits)

theorem strtol_digits {digits : Bytes} (hne : digits ≠ []) (hdigits : ∀ c ∈ digits, isDigitByte c = true) :
    strtol digits = (clampLong (decimal digits), []) ∧
      strtol (45 :: digits) = (clampLong (-decimal digits), []) := by
  have htake : digits.takeWhile isDigitByte = digits := List.takeWhile_eq_self_iff.2 hdigits
  have hdrop : digits.dropWhile isDigitByte = [] := List.dropWhile_eq_nil_iff.2 hdigits
  obtain ⟨c, rest, rfl⟩ := List.exists_cons_of_ne_nil hne
  have hc := hdigits c List.mem_cons_self
  have hspace : isSpaceByte c = false := by
    simp only [isDigitByte, Bool.and_eq_true, decide_eq_true_eq, UInt8.le_iff_toNat_le] at hc
    simp only [isSpaceByte, Bool.or_eq_false_iff, Bool.and_eq_false_iff, decide_eq_false_iff_not,
      UInt8.le_iff_toNat_le, beq_eq_false_iff_ne, ne_eq, ← UInt8.toNat_inj]
    simp at hc ⊢
    omega
  have hsign : c ≠ 45 ∧ c ≠ 43 := by
    constructor <;> rintro rfl <;> exact absurd hc (by decide)
  have hminus : isSpaceByte 45 = false := by decide
  constructor
  · simp [strtol, List.dropWhile_cons_of_neg, hspace, hsign.1, hsign.2, htake, hdrop]
  · simp [strtol, List.dropWhile_cons_of_neg, hminus, htake, hdrop]

theorem strtol_isNumber {num : Bytes} {n : ℤ} (h : IsNumber num n) :
    strtol num = (clampLong n, []) := by
  obtain ⟨digits, hne, hdigits, ⟨rfl, rfl⟩ | ⟨rfl, rfl⟩⟩ := h
  · exact (strtol_digits hne (List.all_eq_true.1 hdigits)).1
  · exact (strtol_digits hne (List.all_eq_true.1 hdigits)).2

theorem number_ne_nil {num : Bytes} {n : ℤ} (h : IsNumber num n) : num ≠ [] := by
  obtain ⟨digits, hne, -, ⟨rfl, -⟩ | ⟨rfl, -⟩⟩ := h
  · exact hne
  · exact List.cons_ne_nil _ _

/-- The characters of a number. -/
theorem number_chars {num : Bytes} {n : ℤ} (h : IsNumber num n) :
    ∀ c ∈ num, c ≠ 0 ∧ c ≠ dot ∧ c ≠ classColon := by
  have hdigit : ∀ c : UInt8, isDigitByte c = true → c ≠ 0 ∧ c ≠ dot ∧ c ≠ classColon := by
    intro c hc
    refine ⟨?_, ?_, ?_⟩ <;> rintro rfl <;> exact absurd hc (by decide)
  obtain ⟨digits, -, hdigits, ⟨rfl, -⟩ | ⟨rfl, -⟩⟩ := h
  · exact fun c hc => hdigit c (List.all_eq_true.1 hdigits c hc)
  · intro c hc
    rcases List.mem_cons.1 hc with rfl | hc
    · decide
    · exact hdigit c (List.all_eq_true.1 hdigits c hc)

section Compare

variable {ns : NameService} {a t : SockAddr}

/-- Addresses of one family are compared by a mask. -/
theorem matchBinary_agreeOn (hfam : t.family = a.family) {mask : Bytes} {selected : ℕ → Prop}
    (hlen : mask.length = a.family.width)
    (hmask : ∀ j < 8 * t.family.width, bitAt mask j = true ↔ selected j) :
    matchBinary a.addr.1 t.addr.1 mask = true ↔ AgreeOn a t selected := by
  rw [matchBinary_iff (by rw [a.addr.2, t.addr.2, hfam]) (by rw [hlen, t.addr.2, hfam]), t.addr.2]
  constructor
  · exact fun h => ⟨hfam.symm, fun j hj hsel => h j hj ((hmask j hj).2 hsel)⟩
  · exact fun h j hj hbit => h.2 j hj ((hmask j hj).1 hbit)

theorem not_agreeOn (hfam : t.family ≠ a.family) (selected : ℕ → Prop) : ¬AgreeOn a t selected :=
  fun h => hfam h.1.symm

/-- Without a mask, all bits count. -/
theorem compareAddr_none (hscope : t.scopeId = 0) :
    compareAddr ns a t none = true ↔ AgreeOn a t fun _ => True := by
  by_cases hfam : t.family = a.family
  · have hskip : ¬(a.family = .inet6 ∧ t.scopeId ≠ 0 ∧ a.scopeId ≠ t.scopeId) := by simp [hscope]
    rw [compareAddr, if_neg (not_not.2 hfam), if_neg hskip]
    refine matchBinary_agreeOn hfam (length_makeMask _ _) fun j hj => ?_
    have hwide : t.family.width ≤ 16 := by cases t.family <;> decide
    rw [bitAt_makeMask _ (by rwa [← hfam])]
    simp
    omega
  · rw [compareAddr, if_pos hfam]
    simp [not_agreeOn hfam]

/-- A mask address selects its bits. -/
theorem compareAddr_mask (hscope : t.scopeId = 0) {p : Bytes} {mask : IpAddr t.family}
    (hmask : ns.inetPton t.family p = some mask) :
    compareAddr ns a t (some p) = true ↔ AgreeOn a t fun j => bitAt mask.1 j = true := by
  obtain ⟨tf, taddr, tscope⟩ := t
  obtain ⟨af, aaddr, ascope⟩ := a
  dsimp only at hscope hmask mask
  subst hscope
  by_cases hfam : tf = af
  · subst hfam
    rw [compareAddr]
    simp only [ne_eq, not_true_eq_false, if_false, and_false, false_and, hmask]
    exact matchBinary_agreeOn (a := ⟨tf, aaddr, ascope⟩) (t := ⟨tf, taddr, 0⟩) rfl mask.2 fun j _ => Iff.rfl
  · rw [compareAddr, if_pos hfam]
    have hnot : ¬AgreeOn ⟨af, aaddr, ascope⟩ ⟨tf, taddr, 0⟩ fun j => bitAt mask.1 j = true :=
      fun h => hfam h.1.symm
    simp [hnot]

/-- A length selects the first bits, and one out of range nothing at all. -/
theorem compareAddr_number (hdoc : ns.Documented) (hscope : t.scopeId = 0) {num : Bytes} {n : ℤ}
    (hnum : IsNumber num n) : compareAddr ns a t (some num) = true ↔
      (0 ≤ n ∧ n ≤ (8 * t.family.width : ℕ)) ∧ AgreeOn a t fun j => (j : ℤ) < n := by
  by_cases hfam : t.family = a.family
  · have hskip : ¬(a.family = .inet6 ∧ t.scopeId ≠ 0 ∧ a.scopeId ≠ t.scopeId) := by simp [hscope]
    have hpton : ns.inetPton a.family num = none := by
      refine Option.eq_none_iff_forall_not_mem.2 fun mask hmask => ?_
      rcases hdoc.pton _ _ _ hmask with h | h
      · exact (number_chars hnum _ h).2.1 rfl
      · exact (number_chars hnum _ h).2.2 rfl
    have hwide : a.family.width ≤ 16 := by cases a.family <;> decide
    rw [compareAddr, if_neg (not_not.2 hfam), if_neg hskip]
    simp only [hpton, strtol_isNumber hnum, number_ne_nil hnum, ne_eq, not_true_eq_false, or_self, if_false]
    have hzero : clampLong n = 0 ↔ n = 0 := by
      rw [clampLong]
      omega
    have hout : (clampLong n < 0 ∨ ((a.family.width * 8 : ℕ) : ℤ) < clampLong n) ↔
        ¬(0 ≤ n ∧ n ≤ (8 * t.family.width : ℕ)) := by
      rw [clampLong, hfam]
      push_cast
      omega
    simp only [hzero, hout]
    by_cases hn0 : n = 0
    · have hagree : AgreeOn a t fun j => (j : ℤ) < n := by
        refine ⟨hfam.symm, fun j _ hj => ?_⟩
        omega
      rw [if_pos hn0]
      exact iff_of_true rfl ⟨⟨hn0.ge, by omega⟩, hagree⟩
    · rw [if_neg hn0]
      by_cases hrange : 0 ≤ n ∧ n ≤ (8 * t.family.width : ℕ)
      · rw [if_neg (not_not.2 hrange), and_iff_right hrange]
        refine matchBinary_agreeOn hfam (length_makeMask _ _) fun j hj => ?_
        have hclamp : clampLong n = n := by
          rw [clampLong]
          rw [hfam] at hrange
          push_cast at hrange
          omega
        rw [bitAt_makeMask _ (by rwa [← hfam]), hclamp, decide_eq_true_eq]
        omega
      · rw [if_pos hrange]
        exact iff_of_false Bool.false_ne_true fun h => hrange h.1
  · rw [compareAddr, if_pos hfam]
    simp [not_agreeOn hfam]

end Compare

/-! ## Tokens and addresses -/

section Address

variable {ns : NameService} {addr : Bytes} {a t : SockAddr}

theorem putAt_slash (tok : Bytes) : putAt (tok.findIdx? (· = slash)) slash
    (putAt (tok.findIdx? (· = slash)) 0 tok) = tok := by
  cases hp : tok.findIdx? (· = slash) with
  | none => rfl
  | some i =>
    obtain ⟨hlt, hslash, -⟩ := List.findIdx?_eq_some_iff_getElem.1 hp
    rw [putAt, putAt, List.set_set, ← of_decide_eq_true hslash, List.set_getElem_self]

/-- The slash is back on every way out. -/
theorem matchAddress_token (ns : NameService) (addr tok : Bytes) : (matchAddress ns addr tok).2 = tok := by
  rw [matchAddress]
  dsimp only
  rw [putAt_slash]
  split
  · rfl
  split
  · rfl
  cases ns.getaddrinfo addr with
  | none => rfl
  | some resa => cases ns.getaddrinfo (cstring (putAt (tok.findIdx? (· = slash)) 0 tok)) <;> rfl

/-- The answer where the part before the slash is an address. -/
theorem matchAddress_eq (hdoc : ns.Documented) (ha : ns.getaddrinfo addr = some a) {ip tok : Bytes}
    (hip : IsIp ns ip t) {p : Option ℕ} (hp : tok.findIdx? (· = slash) = p)
    (hcut : cstring (putAt p 0 tok) = ip) :
    (matchAddress ns addr tok).1 = compareAddr ns a t (p.map fun i => cstring (tok.drop (i + 1))) := by
  have hne : addr ≠ [] := by
    rintro rfl
    rw [hdoc.empty] at ha
    cases ha
  have hform : (!ip.all (· ∈ cstr ".0123456789") && decide (classColon ∉ ip)) = false := by
    rcases hip.form with h | h <;> simp [h]
  rw [matchAddress, if_neg hne]
  dsimp only
  rw [putAt_slash, hp, hcut, hform, if_neg Bool.false_ne_true, ha]
  dsimp only
  rw [hip.numeric]

theorem cstring_eq {s : Bytes} (hs : 0 ∉ s) : cstring s = s :=
  List.takeWhile_eq_self_iff.2 fun c hc => by
    simpa using fun heq : c = 0 => hs (heq ▸ hc)

theorem matchAddress_ip (hdoc : ns.Documented) (ha : ns.getaddrinfo addr = some a) {ip : Bytes}
    (hip : IsIp ns ip t) : (matchAddress ns addr ip).1 = compareAddr ns a t none := by
  have hp : ip.findIdx? (· = slash) = none := by
    rw [List.findIdx?_eq_none_iff]
    intro c hc
    simpa using fun heq : c = slash => hip.noSlash (heq ▸ hc)
  exact matchAddress_eq hdoc ha hip hp (cstring_eq hip.noNul)

theorem matchAddress_slash (hdoc : ns.Documented) (ha : ns.getaddrinfo addr = some a) {ip m : Bytes}
    (hip : IsIp ns ip t) (hm : 0 ∉ m) :
    (matchAddress ns addr (ip ++ slash :: m)).1 = compareAddr ns a t (some m) := by
  have hp : (ip ++ slash :: m).findIdx? (· = slash) = some ip.length := by
    rw [List.findIdx?_append]
    have hnone : ip.findIdx? (· = slash) = none := by
      rw [List.findIdx?_eq_none_iff]
      intro c hc
      simpa using fun heq : c = slash => hip.noSlash (heq ▸ hc)
    rw [hnone]
    simp [List.findIdx?_cons]
  have hcut : cstring (putAt (some ip.length) 0 (ip ++ slash :: m)) = ip := by
    rw [putAt, List.set_append_right _ _ le_rfl, Nat.sub_self, List.set_cons_zero, cstring,
      List.takeWhile_append_of_pos]
    · simp
    · intro c hc
      simpa using fun heq : c = 0 => hip.noNul (heq ▸ hc)
  have hdrop : (ip ++ slash :: m).drop (ip.length + 1) = m := by
    rw [← List.drop_drop, List.drop_left]
    rfl
  rw [matchAddress_eq hdoc ha hip hp hcut, Option.map_some, hdrop, cstring_eq hm]

end Address

/-- **Host access.** The decision follows the two lists; every token is left as it was; and an
    address pattern matches the clients of its family that agree with it on the bits of its mask, a
    length out of range none. -/
theorem allowAccess_spec (ns : NameService) (hdoc : ns.Documented) (ct : Ctype) :
    (∀ allowForwardDns allowList denyList addr host,
      ((allowAccess ns ct allowForwardDns allowList denyList addr host).1 = true ↔
        SomeMatch ns ct allowForwardDns addr host allowList ∨
          ¬SomeMatch ns ct allowForwardDns addr host allowList ∧
            ¬SomeMatch ns ct allowForwardDns addr host denyList ∧ (¬Given allowList ∨ Given denyList))) ∧
    (∀ addr tok, (matchAddress ns addr tok).2 = tok) ∧
    ∀ addr a ip t, ns.getaddrinfo addr = some a → IsIp ns ip t →
      ((matchAddress ns addr ip).1 = true ↔ AgreeOn a t fun _ => True) ∧
      (∀ num n, IsNumber num n → ((matchAddress ns addr (ip ++ slash :: num)).1 = true ↔
        (0 ≤ n ∧ n ≤ (8 * t.family.width : ℕ)) ∧ AgreeOn a t fun j => (j : ℤ) < n)) ∧
      ∀ m mask, 0 ∉ m → ns.inetPton t.family m = some mask →
        ((matchAddress ns addr (ip ++ slash :: m)).1 = true ↔ AgreeOn a t fun j => bitAt mask.1 j = true) := by
  refine ⟨fun _ _ _ _ _ => allowAccess_iff _ _, matchAddress_token ns, ?_⟩
  intro addr a ip t ha hip
  refine ⟨?_, ?_, ?_⟩
  · rw [matchAddress_ip hdoc ha hip]
    exact compareAddr_none hip.scope
  · intro num n hnum
    rw [matchAddress_slash hdoc ha hip fun h => (number_chars hnum _ h).1 rfl]
    exact compareAddr_number hdoc hip.scope hnum
  · intro m mask hm hmask
    rw [matchAddress_slash hdoc ha hip hm]
    exact compareAddr_mask hip.scope hmask

/-- A resolver that knows a few addresses. -/
def someAddresses : NameService where
  getaddrinfo s :=
    if s = cstr "10.1.2.3" then some ⟨.inet, ⟨[10, 1, 2, 3], rfl⟩, 0⟩
    else if s = cstr "10.1.0.0" then some ⟨.inet, ⟨[10, 1, 0, 0], rfl⟩, 0⟩
    else none
  inetPton f s :=
    match f with
    | .inet => if s = cstr "255.255.0.0" then some ⟨[255, 255, 0, 0], rfl⟩ else none
    | .inet6 => none
  gethostbyname _ := none

/-- The client 10.1.2.3 and the pattern 10.1.0.0/16. -/
theorem allowAccess_spec_sixteen : (matchAddress someAddresses (cstr "10.1.2.3") (cstr "10.1.0.0/16")).1 = true ↔
    (0 ≤ (16 : ℤ) ∧ (16 : ℤ) ≤ (32 : ℕ)) ∧
      AgreeOn ⟨.inet, ⟨[10, 1, 2, 3], rfl⟩, 0⟩ ⟨.inet, ⟨[10, 1, 0, 0], rfl⟩, 0⟩ fun j => (j : ℤ) < 16 := by
  have hdoc : someAddresses.Documented := by
    constructor
    · intro f s mask h
      cases f with
      | inet =>
        simp only [someAddresses] at h
        split_ifs at h with hs
        subst hs
        exact .inl (by decide)
      | inet6 => cases h
    · rfl
  have hip : IsIp someAddresses (cstr "10.1.0.0") ⟨.inet, ⟨[10, 1, 0, 0], rfl⟩, 0⟩ :=
    ⟨rfl, .inl (by decide), rfl, by decide, by decide⟩
  have hnum : IsNumber (cstr "16") 16 :=
    ⟨cstr "16", by decide, by decide, .inl ⟨rfl, rfl⟩⟩
  exact ((allowAccess_spec someAddresses hdoc cLocale).2.2 (cstr "10.1.2.3") _ (cstr "10.1.0.0") _ rfl hip).2.1
    (cstr "16") 16 hnum

end Access

end CloudEdgeBackup
