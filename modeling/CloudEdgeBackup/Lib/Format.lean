/-
  Text records with decimal fields: the part of `sprintf`, `sscanf` and
  `fgets` that line-oriented C formats use.

  A format is a list of pieces (`Piece`): a character or a decimal conversion;
  `fmt` reads it off a C format string (`%d`, `%ld`).

  * `print f as` is `sprintf`, `scan f s` the list of the values `sscanf`
    assigns before its first mismatch (white space in the format matches any
    amount of white space, a conversion skips leading white space);
  * `fgets n s` cuts off the next line, at most `n` bytes of it;
  * `scan_print`: in a format whose conversions are followed by something
    that cannot continue a number, `scan` gives back the printed values;
  * `fgets_line`: a printed line is read back as one line.
-/
import Mathlib

namespace Cfmt

/-- A character of the format, or a decimal conversion. -/
inductive Piece where
  | chr (c : UInt8)
  | dec
  deriving DecidableEq, Repr

/-- The pieces of a C format string. -/
def fmtChars : List Char → List Piece
  | '%' :: 'l' :: 'd' :: r => .dec :: fmtChars r
  | '%' :: 'd' :: r => .dec :: fmtChars r
  | c :: r => .chr (UInt8.ofNat c.toNat) :: fmtChars r
  | [] => []

def fmt (s : String) : List Piece := fmtChars s.toList

theorem fmt_ofList (l : List Char) : fmt (String.ofList l) = fmtChars l := by
  rw [fmt, String.toList_ofList]

/-! ## Numbers -/

def isDigit (b : UInt8) : Bool := 48 ≤ b && b ≤ 57

/-- `isspace` in the C locale. -/
def isSpace (b : UInt8) : Bool := b == 32 || (9 ≤ b && b ≤ 13)

/-- The decimal digits of `n`. -/
def decimal (n : ℕ) : List UInt8 :=
  if n = 0 then [48] else (Nat.digits 10 n).reverse.map fun d => UInt8.ofNat (48 + d)

/-- A signed number in decimal. -/
def showInt : ℤ → List UInt8
  | .ofNat n => decimal n
  | .negSucc n => 45 :: decimal (n + 1)

/-- The value of a run of digits. -/
def value (ds : List UInt8) : ℕ := ds.foldl (fun a d => 10 * a + (d.toNat - 48)) 0

/-- A non-empty run of digits and what follows it. -/
def scanNat (s : List UInt8) : Option (ℕ × List UInt8) :=
  if s.takeWhile isDigit = [] then none
  else some (value (s.takeWhile isDigit), s.dropWhile isDigit)

/-- An optionally signed, non-empty run of digits and what follows it. -/
def scanInt : List UInt8 → Option (ℤ × List UInt8)
  | 45 :: s => (scanNat s).map fun p => (-(p.1 : ℤ), p.2)
  | 43 :: s => (scanNat s).map fun p => ((p.1 : ℤ), p.2)
  | s => (scanNat s).map fun p => ((p.1 : ℤ), p.2)

theorem digit_toNat {d : ℕ} (h : d < 10) : (UInt8.ofNat (48 + d)).toNat = 48 + d := by
  rw [UInt8.toNat_ofNat']; omega

theorem isDigit_ofNat {d : ℕ} (h : d < 10) : isDigit (UInt8.ofNat (48 + d)) = true := by
  simp only [isDigit, Bool.and_eq_true, decide_eq_true_eq, UInt8.le_iff_toNat_le, digit_toNat h]
  exact ⟨by simp, by simp; omega⟩

theorem decimal_isDigit (n : ℕ) : ∀ b ∈ decimal n, isDigit b = true := by
  unfold decimal
  split_ifs with h
  · simp [isDigit]
  · intro b hb
    obtain ⟨d, hd, rfl⟩ := List.mem_map.1 hb
    exact isDigit_ofNat (Nat.digits_lt_base (by norm_num) (List.mem_reverse.1 hd))

theorem decimal_ne_nil (n : ℕ) : decimal n ≠ [] := by
  unfold decimal
  split_ifs with h
  · simp
  · simpa using Nat.digits_ne_nil_iff_ne_zero.2 h

theorem value_map (ds : List ℕ) (h : ∀ d ∈ ds, d < 10) :
    value (ds.reverse.map fun d => UInt8.ofNat (48 + d)) = Nat.ofDigits 10 ds := by
  induction ds with
  | nil => rfl
  | cons d ds ih =>
    have hd : (UInt8.ofNat (48 + d)).toNat - 48 = d := by rw [digit_toNat (h d (by simp))]; omega
    rw [Nat.ofDigits_cons, ← ih fun x hx => h x (by simp [hx])]
    simp only [value, List.reverse_cons, List.map_append, List.foldl_append, List.map_cons,
      List.map_nil, List.foldl_cons, List.foldl_nil, hd]
    omega

/-- **The value of the digits of `n` is `n`.** -/
theorem value_decimal (n : ℕ) : value (decimal n) = n := by
  unfold decimal
  split_ifs with h
  · subst h; rfl
  · rw [value_map _ fun d hd => Nat.digits_lt_base (by norm_num) hd, Nat.ofDigits_digits]

theorem decimal_length_le {n k : ℕ} (hk : 0 < k) (h : n < 10 ^ k) : (decimal n).length ≤ k := by
  unfold decimal
  split_ifs with h0
  · exact hk
  · simpa using (Nat.digits_length_le_iff (by norm_num) n).2 h

theorem showInt_ne_nil (x : ℤ) : showInt x ≠ [] := by
  cases x with
  | ofNat n => exact decimal_ne_nil n
  | negSucc n => simp [showInt]

theorem mem_showInt {x : ℤ} {b : UInt8} (h : b ∈ showInt x) : b = 45 ∨ isDigit b = true := by
  cases x with
  | ofNat n => exact Or.inr (decimal_isDigit n b h)
  | negSucc n => exact (List.mem_cons.1 h).imp id (decimal_isDigit _ b)

theorem isSpace_of_mem_showInt {x : ℤ} {b : UInt8} (h : b ∈ showInt x) : isSpace b = false := by
  rcases mem_showInt h with rfl | hb
  · rfl
  · simp only [isDigit, Bool.and_eq_true, decide_eq_true_eq, UInt8.le_iff_toNat_le] at hb
    simp only [isSpace, Bool.or_eq_false_iff, beq_eq_false_iff_ne, Bool.and_eq_false_iff,
      decide_eq_false_iff_not, UInt8.le_iff_toNat_le, ne_eq, ← UInt8.toNat_inj]
    simp at hb ⊢; omega

/-- A 64-bit value prints in at most 20 characters. -/
theorem showInt_length_le {x : ℤ} (h₁ : -2 ^ 63 ≤ x) (h₂ : x < 2 ^ 63) :
    (showInt x).length ≤ 20 := by
  cases x with
  | ofNat n =>
    have : (n : ℤ) < 2 ^ 63 := h₂
    exact (decimal_length_le (k := 19) (by norm_num) (by norm_num at this ⊢; omega)).trans
      (by norm_num)
  | negSucc n =>
    have : -(2 : ℤ) ^ 63 ≤ -((n : ℤ) + 1) := by simpa [Int.negSucc_eq] using h₁
    have := decimal_length_le (n := n + 1) (k := 19) (by norm_num) (by norm_num at this ⊢; omega)
    simpa [showInt, Nat.lt_succ_iff] using this

theorem takeWhile_append_stop {p : UInt8 → Bool} {a r : List UInt8} (ha : ∀ b ∈ a, p b = true)
    (hr : ∀ b ∈ r.head?, p b = false) : (a ++ r).takeWhile p = a ∧ (a ++ r).dropWhile p = r := by
  have h1 : r.takeWhile p = [] ∧ r.dropWhile p = r := by
    cases r with
    | nil => simp
    | cons b r => simp [hr b (by simp)]
  rw [List.takeWhile_append_of_pos ha, List.dropWhile_append_of_pos ha, h1.1, h1.2]
  simp

theorem scanNat_decimal (n : ℕ) {r : List UInt8} (hr : ∀ b ∈ r.head?, isDigit b = false) :
    scanNat (decimal n ++ r) = some (n, r) := by
  obtain ⟨h₁, h₂⟩ := takeWhile_append_stop (decimal_isDigit n) hr
  rw [scanNat, h₁, h₂, if_neg (decimal_ne_nil n), value_decimal]

/-- **A printed number is scanned back**, if what follows cannot continue it. -/
theorem scanInt_showInt (x : ℤ) {r : List UInt8} (hr : ∀ b ∈ r.head?, isDigit b = false) :
    scanInt (showInt x ++ r) = some (x, r) := by
  cases x with
  | ofNat n =>
    have hn := scanNat_decimal n hr
    obtain ⟨d, ds, h⟩ := List.exists_cons_of_ne_nil (decimal_ne_nil n)
    have hd : isDigit d = true := decimal_isDigit n d (by simp [h])
    -- a digit is no sign
    have h₁ : d ≠ 45 := by rintro rfl; simp [isDigit] at hd
    have h₂ : d ≠ 43 := by rintro rfl; simp [isDigit] at hd
    have hs : scanInt (showInt (.ofNat n) ++ r) =
        (scanNat (decimal n ++ r)).map fun p => ((p.1 : ℤ), p.2) := by
      rw [show showInt (.ofNat n) = d :: ds from h, h, List.cons_append]
      exact scanInt.eq_3 _ (fun _ hc => h₁ (List.cons.inj hc).1) (fun _ hc => h₂ (List.cons.inj hc).1)
    rw [hs, hn]; rfl
  | negSucc n =>
    have hs : scanInt (showInt (.negSucc n) ++ r) =
        (scanNat (decimal (n + 1) ++ r)).map fun p => (-(p.1 : ℤ), p.2) := rfl
    rw [hs, scanNat_decimal _ hr]; rfl

/-! ## Hexadecimal numbers -/

/-- The character of a digit, as `%x` prints it. -/
def hexDigit (d : ℕ) : UInt8 := UInt8.ofNat (if d < 10 then 48 + d else 87 + d)

/-- The digit a character stands for. -/
def hexValue (b : UInt8) : ℕ :=
  if b.toNat ≤ 57 then b.toNat - 48 else if b.toNat ≤ 70 then b.toNat - 55 else b.toNat - 87

def isHexDigit (b : UInt8) : Bool :=
  isDigit b || (65 ≤ b && b ≤ 70) || (97 ≤ b && b ≤ 102)

/-- A number in lower-case hexadecimal. -/
def showHex (n : ℕ) : List UInt8 :=
  if n = 0 then [48] else (Nat.digits 16 n).reverse.map hexDigit

/-- A non-empty run of hexadecimal digits and what follows it. -/
def scanHex (s : List UInt8) : Option (ℕ × List UInt8) :=
  if s.takeWhile isHexDigit = [] then none
  else some ((s.takeWhile isHexDigit).foldl (fun a b => 16 * a + hexValue b) 0, s.dropWhile isHexDigit)

theorem hexDigit_spec : ∀ d < 16, hexValue (hexDigit d) = d ∧ isHexDigit (hexDigit d) = true := by
  decide

theorem showHex_isHexDigit (n : ℕ) : ∀ b ∈ showHex n, isHexDigit b = true := by
  unfold showHex
  split_ifs with h
  · simp [isHexDigit, isDigit]
  · intro b hb
    obtain ⟨d, hd, rfl⟩ := List.mem_map.1 hb
    exact (hexDigit_spec d (Nat.digits_lt_base (by norm_num) (List.mem_reverse.1 hd))).2

theorem showHex_ne_nil (n : ℕ) : showHex n ≠ [] := by
  unfold showHex
  split_ifs with h
  · simp
  · simpa using Nat.digits_ne_nil_iff_ne_zero.2 h

theorem showHex_length_le {n k : ℕ} (hk : 0 < k) (h : n < 16 ^ k) : (showHex n).length ≤ k := by
  unfold showHex
  split_ifs with h0
  · exact hk
  · simpa using (Nat.digits_length_le_iff (by norm_num) n).2 h

theorem foldl_hexValue (ds : List ℕ) (h : ∀ d ∈ ds, d < 16) :
    (ds.reverse.map hexDigit).foldl (fun a b => 16 * a + hexValue b) 0 = Nat.ofDigits 16 ds := by
  induction ds with
  | nil => rfl
  | cons d ds ih =>
    have hd : hexValue (hexDigit d) = d := (hexDigit_spec d (h d List.mem_cons_self)).1
    rw [Nat.ofDigits_cons, ← ih fun x hx => h x (List.mem_cons_of_mem _ hx)]
    simp only [List.reverse_cons, List.map_append, List.foldl_append, List.map_cons, List.map_nil,
      List.foldl_cons, List.foldl_nil, hd]
    omega

/-- **A hexadecimal number is scanned back**, if what follows cannot continue it. -/
theorem scanHex_showHex (n : ℕ) {r : List UInt8} (hr : ∀ b ∈ r.head?, isHexDigit b = false) :
    scanHex (showHex n ++ r) = some (n, r) := by
  obtain ⟨h₁, h₂⟩ := takeWhile_append_stop (showHex_isHexDigit n) hr
  have hvalue : (showHex n).foldl (fun a b => 16 * a + hexValue b) 0 = n := by
    unfold showHex
    split_ifs with h
    · rw [h]
      rfl
    · rw [foldl_hexValue _ fun d hd => Nat.digits_lt_base (by norm_num) hd, Nat.ofDigits_digits]
  rw [scanHex, h₁, h₂, if_neg (showHex_ne_nil n), hvalue]

/-! ## `sprintf` and `sscanf` -/

/-- `sprintf`: the arguments fill the conversions in order. -/
def print : List Piece → List ℤ → List UInt8
  | .chr c :: f, as => c :: print f as
  | .dec :: f, a :: as => showInt a ++ print f as
  | .dec :: f, [] => print f []
  | [], _ => []

/-- `sscanf`: the values assigned before the first mismatch. -/
def scan : List Piece → List UInt8 → List ℤ
  | .chr c :: f, s =>
    if isSpace c then scan f (s.dropWhile isSpace)
    else match s with
      | b :: r => if b = c then scan f r else []
      | [] => []
  | .dec :: f, s =>
    match scanInt (s.dropWhile isSpace) with
    | some (v, r) => v :: scan f r
    | none => []
  | [], _ => []

/-- The number of conversions. -/
def arity (f : List Piece) : ℕ := f.count .dec

/-- Every conversion is followed by a character that cannot continue a number
    (or ends the format). -/
def Separated : List Piece → Bool
  | .dec :: .chr c :: f => !isDigit c && Separated (.chr c :: f)
  | .dec :: .dec :: _ => false
  | .dec :: [] => true
  | .chr _ :: f => Separated f
  | [] => true

/-- Skipping white space first changes nothing for `scan` on printed text. -/
theorem scan_dropSpace (f : List Piece) (as : List ℤ) (r : List UInt8) :
    scan f ((print f as ++ r).dropWhile isSpace) = scan f (print f as ++ r) := by
  cases f with
  | nil => rfl
  | cons p f =>
    cases p with
    | dec => simp only [scan, List.dropWhile_idempotent]
    | chr c =>
      by_cases hc : isSpace c = true
      · simp only [scan, hc, if_true, List.dropWhile_idempotent]
      · simp [print, hc]

/-- **`sscanf` gives back what `sprintf` printed.** -/
theorem scan_print : ∀ (f : List Piece) (as : List ℤ) (r : List UInt8),
    Separated f = true → arity f = as.length → (∀ b ∈ r.head?, isDigit b = false) →
    scan f (print f as ++ r) = as
  | [], as, r, _, ha, _ => by
    have : as = [] := by simpa [arity, eq_comm] using ha
    simp [scan, this]
  | .chr c :: f, as, r, hs, ha, hr => by
    have ih := scan_print f as r (by simpa [Separated] using hs) (by simpa [arity] using ha) hr
    by_cases hc : isSpace c = true
    · have : (c :: (print f as ++ r)).dropWhile isSpace = (print f as ++ r).dropWhile isSpace := by
        simp [hc]
      simp only [scan, print, hc, if_true, List.cons_append, this, scan_dropSpace, ih]
    · simp [scan, print, hc, ih]
  | .dec :: f, as, r, hs, ha, hr => by
    obtain ⟨a, as, rfl⟩ : ∃ a bs, as = a :: bs := by
      cases as with
      | nil => simp [arity] at ha
      | cons a as => exact ⟨a, as, rfl⟩
    have hs' : Separated f = true ∧ ∀ b ∈ (print f as ++ r).head?, isDigit b = false := by
      cases f with
      | nil => exact ⟨rfl, by simpa [print] using hr⟩
      | cons p f =>
        cases p with
        | dec => simp [Separated] at hs
        | chr c => simpa [Separated, print, and_comm] using hs
    have hsp : (showInt a ++ (print f as ++ r)).dropWhile isSpace =
        showInt a ++ (print f as ++ r) := by
      obtain ⟨b, bs, hb⟩ := List.exists_cons_of_ne_nil (showInt_ne_nil a)
      rw [hb]; simp [isSpace_of_mem_showInt (x := a) (b := b) (by simp [hb])]
    simp only [scan, print, List.append_assoc, hsp, scanInt_showInt a hs'.2]
    rw [scan_print f as r hs'.1 (by simpa [arity] using ha) hr]

/-- What follows the last conversion assigns nothing. -/
theorem scan_append_chr (f g : List Piece) (hg : arity g = 0) (s : List UInt8) :
    scan (f ++ g) s = scan f s := by
  have hg' : ∀ s, scan g s = [] := by
    induction g with
    | nil => intro s; rfl
    | cons p g ih =>
      cases p with
      | dec => simp [arity] at hg
      | chr c =>
        have ih := ih (by simpa [arity] using hg)
        intro s
        simp only [scan, ih]
        split_ifs
        · rfl
        · cases s <;> simp
  induction f generalizing s with
  | nil => simpa [scan] using hg' s
  | cons p f ih => cases p <;> simp only [List.cons_append, scan, ih]

theorem print_append (f g : List Piece) (as bs : List ℤ) (h : arity f = as.length) :
    print (f ++ g) (as ++ bs) = print f as ++ print g bs := by
  induction f generalizing as with
  | nil =>
    have : as = [] := by simpa [arity, eq_comm] using h
    simp [print, this]
  | cons p f ih =>
    cases p with
    | chr c => simp [print, ih as (by simpa [arity] using h)]
    | dec =>
      cases as with
      | nil => simp [arity] at h
      | cons a as => simp [print, ih as (by simpa [arity] using h)]

theorem mem_print {b : UInt8} : ∀ {f : List Piece} {as : List ℤ}, b ∈ print f as →
    Piece.chr b ∈ f ∨ b = 45 ∨ isDigit b = true
  | .chr c :: f, as, h => by
    rcases List.mem_cons.1 h with rfl | h
    · simp
    · exact (mem_print h).imp (List.mem_cons_of_mem _) id
  | .dec :: f, a :: as, h => by
    rcases List.mem_append.1 h with h | h
    · exact Or.inr (mem_showInt h)
    · exact (mem_print h).imp (List.mem_cons_of_mem _) id
  | .dec :: f, [], h => (mem_print (f := f) h).imp (List.mem_cons_of_mem _) id
  | [], _, h => by simp [print] at h

theorem print_length_le {m : ℕ} : ∀ {f : List Piece} {as : List ℤ},
    (∀ a ∈ as, (showInt a).length ≤ m) → (print f as).length ≤ f.length + m * arity f
  | .chr c :: f, as, h => by
    have := print_length_le (f := f) h
    simp [print, arity] at this ⊢; omega
  | .dec :: f, a :: as, h => by
    have h1 := h a (by simp)
    have := print_length_le (f := f) fun (x : ℤ) (hx : x ∈ as) => h x (by simp [hx])
    simp [print, arity, Nat.mul_add] at this ⊢; omega
  | .dec :: f, [], h => by
    have : (print f []).length ≤ f.length + m * arity f := print_length_le (by simp)
    simp [print, arity, Nat.mul_add] at this ⊢; omega
  | [], _, _ => by simp [print]

/-! ## `fgets` -/

/-- The next line, its newline included, but at most `n` bytes; and the rest. -/
def fgets : ℕ → List UInt8 → List UInt8 × List UInt8
  | 0, s => ([], s)
  | _ + 1, [] => ([], [])
  | n + 1, c :: s => if c = 10 then ([c], s) else ((c :: (fgets n s).1), (fgets n s).2)

theorem fgets_line {l : List UInt8} (h : (10 : UInt8) ∉ l) (r : List UInt8) {n : ℕ}
    (hn : l.length < n) : fgets n (l ++ 10 :: r) = (l ++ [10], r) := by
  induction l generalizing n with
  | nil =>
    obtain ⟨n, rfl⟩ := Nat.exists_eq_succ_of_ne_zero (by simpa using Nat.pos_iff_ne_zero.1 hn)
    simp [fgets]
  | cons c l ih =>
    obtain ⟨n, rfl⟩ := Nat.exists_eq_succ_of_ne_zero (n := n) (by omega)
    have hc : c ≠ 10 := by rintro rfl; simp at h
    simp [fgets, hc, ih (by simp at h; exact h.2) (n := n) (by simpa using hn)]

theorem fgets_length : ∀ (n : ℕ) (s : List UInt8),
    (fgets n s).1.length + (fgets n s).2.length = s.length
  | 0, s => by simp [fgets]
  | n + 1, [] => by simp [fgets]
  | n + 1, c :: s => by
    have := fgets_length n s
    simp only [fgets]; split_ifs <;> (simp; try omega)

theorem fgets_pos {n : ℕ} (hn : 0 < n) {s : List UInt8} (hs : s ≠ []) :
    (fgets n s).2.length < s.length := by
  obtain ⟨n, rfl⟩ := Nat.exists_eq_succ_of_ne_zero hn.ne'
  obtain ⟨c, s, rfl⟩ := List.exists_cons_of_ne_nil hs
  have := fgets_length n s
  simp only [fgets]; split_ifs <;> simp; omega

end Cfmt
