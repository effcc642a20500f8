/-
  Codecs: writers that make strings of symbols and readers that take them off
  the front of their input.

  * a reader `Get ω α` fails or returns a value and the rest of the input;
    `Reads g ws a` says that `g` takes exactly `ws` and returns `a`, whatever
    follows.  It composes along `bind` (`Reads.bind`), which is how a reader is
    matched with the writer of what it reads;
  * `writeAll`, `readAll` run a writer and a reader with a state each over a
    sequence.  When they are `InStep`, the sequence comes back and the states end
    related (`InStep.reads_all`);
  * `leBytes`, `leValue` are the little-endian bytes of a number, `ofBits`, `toBits`
    its bits.
-/
import Mathlib

namespace Codec

/-! ## Readers -/

/-- A reader of symbols `ω`. -/
abbrev Get (ω α : Type) := StateT (List ω) Option α

section Readers

variable {ω α β : Type}

/-- The next `n` symbols. -/
def getN (n : ℕ) : Get ω (List ω) := fun l =>
  if n ≤ l.length then some (l.take n, l.drop n) else none

/-- The next symbol. -/
def get1 : Get ω ω := fun l => l.head?.map fun a => (a, l.tail)

/-- A reader that fails. -/
def abort : Get ω α := fun _ => none

/-- `g` takes exactly `ws` and returns `a`. -/
def Reads (g : Get ω α) (ws : List ω) (a : α) : Prop :=
  ∀ rest, g (ws ++ rest) = some (a, rest)

variable {g : Get ω α} {f : α → Get ω β} {ws ws' : List ω} {a : α} {b : β}

theorem Reads.pure (a : α) : Reads (Pure.pure a : Get ω α) [] a := fun _ => rfl

/-- Reading on behind what a reader takes. -/
theorem Reads.bind_apply (h : Reads g ws a) (rest : List ω) :
    (g >>= f) (ws ++ rest) = f a rest := by
  change (g (ws ++ rest) >>= fun p => f p.1 p.2) = _
  rw [h rest]
  rfl

theorem bind_eq_some_iff {s rest : List ω} : (g >>= f) s = some (b, rest) ↔
    ∃ a s', g s = some (a, s') ∧ f a s' = some (b, rest) := by
  change ((g s).bind fun p => f p.1 p.2) = _ ↔ _
  rw [Option.bind_eq_some_iff]
  exact Prod.exists

theorem Reads.bind (h : Reads g ws a) (h' : Reads (f a) ws' b) :
    Reads (g >>= f) (ws ++ ws') b := by
  intro rest
  rw [List.append_assoc, h.bind_apply]
  exact h' rest

/-- A last step that takes nothing. -/
theorem Reads.bind_nil (h : Reads g ws a) (h' : Reads (f a) [] b) : Reads (g >>= f) ws b := by
  simpa using h.bind h'

/-- A first step that takes nothing. -/
theorem Reads.nil_bind (h : Reads g [] a) (h' : Reads (f a) ws b) : Reads (g >>= f) ws b :=
  h.bind h'

theorem Reads.map (h : Reads g ws a) (k : α → β) : Reads (k <$> g) ws (k a) := by
  intro rest
  change (g (ws ++ rest) >>= fun p => some (k p.1, p.2)) = _
  rw [h rest]
  rfl

theorem reads_getN (ws : List ω) : Reads (getN ws.length) ws ws := by
  intro rest
  simp [getN]

theorem reads_getN_of_length {n : ℕ} (h : ws.length = n) : Reads (getN n) ws ws :=
  h ▸ reads_getN ws

/-- A symbol, and the rest as it depends on it. -/
theorem Reads.cons {k : ω → Get ω β} {w : ω} (h : Reads (k w) ws b) :
    Reads (get1 >>= k) (w :: ws) b :=
  fun rest => h rest

end Readers

/-! ## Sequences -/

section Sequences

variable {ω α γ κ S T : Type}

/-- A writer with a state, over a sequence. -/
def writeAll (write : S → α → Option (S × List ω)) : S → List α → Option (S × List ω)
  | s, [] => some (s, [])
  | s, a :: as => do
    let r ← write s a
    let rs ← writeAll write r.1 as
    some (rs.1, r.2 ++ rs.2)

/-- A reader with a state, over a sequence of kinds of entries. -/
def readAll (read : κ → T → Get ω (γ × T)) : T → List κ → Get ω (List γ × T)
  | t, [] => pure ([], t)
  | t, k :: ks => do
    let r ← read k t
    let rs ← readAll read r.2 ks
    pure (r.1 :: rs.1, rs.2)

variable {write : S → α → Option (S × List ω)} {read : κ → T → Get ω (γ × T)} {kind : α → κ}
  {R : S → T → Prop} {P : S → α → Prop} {Q : α → γ → Prop}

/-- Every entry of the sequence meets `P` in the state it is written in. -/
def Admits (write : S → α → Option (S × List ω)) (P : S → α → Prop) : S → List α → Prop
  | _, [] => True
  | s, a :: as => P s a ∧ ∀ r, write s a = some r → Admits write P r.1 as

/-- A condition that does not depend on the state. -/
theorem admits_of_forall {P : α → Prop} {as : List α} (h : ∀ a ∈ as, P a) (s : S) :
    Admits write (fun _ => P) s as := by
  induction as generalizing s with
  | nil => trivial
  | cons a as ih => exact ⟨h a (by simp), fun _ _ => ih (fun b hb => h b (by simp [hb])) _⟩

/-- Entry by entry, the reader takes what the writer wrote, returns a value that is
    `Q`-related to the entry and keeps the two states `R`-related. -/
structure InStep (write : S → α → Option (S × List ω)) (read : κ → T → Get ω (γ × T)) (kind : α → κ)
    (R : S → T → Prop) (P : S → α → Prop) (Q : α → γ → Prop) : Prop where
  step : ∀ s t a, R s t → P s a → ∃ r c t', write s a = some r ∧
    Reads (read (kind a) t) r.2 (c, t') ∧ Q a c ∧ R r.1 t'

/-- **A sequence is read as it was written**, and the states stay related. -/
theorem InStep.reads_all (h : InStep write read kind R P Q) {s : S} {t : T} {as : List α}
    (hR : R s t) (hP : Admits write P s as) :
    ∃ r cs t', writeAll write s as = some r ∧ Reads (readAll read t (as.map kind)) r.2 (cs, t') ∧
      List.Forall₂ Q as cs ∧ R r.1 t' := by
  induction as generalizing s t with
  | nil => exact ⟨(s, []), [], t, rfl, Reads.pure _, .nil, hR⟩
  | cons a as ih =>
    obtain ⟨hPa, hP⟩ := hP
    obtain ⟨r, c, t₁, hwrite, hread, hQ, hR₁⟩ := h.step s t a hR hPa
    obtain ⟨rs, cs, t₂, hwrites, hreads, hQs, hR₂⟩ := ih hR₁ (hP r hwrite)
    refine ⟨(rs.1, r.2 ++ rs.2), c :: cs, t₂, ?_, ?_, .cons hQ hQs, hR₂⟩
    · rw [writeAll, hwrite, Option.bind_eq_bind, Option.bind_some, hwrites]
      rfl
    · exact hread.bind (hreads.bind_nil (Reads.pure _))

end Sequences

/-! ## Little-endian numbers -/

/-- The `k` low bytes of `n`, the lowest first. -/
def leBytes : ℕ → ℕ → List UInt8
  | 0, _ => []
  | k + 1, n => UInt8.ofNat n :: leBytes k (n / 256)

/-- The number with these bytes. -/
def leValue : List UInt8 → ℕ
  | [] => 0
  | b :: bs => b.toNat + 256 * leValue bs

@[simp] theorem leBytes_length (k n : ℕ) : (leBytes k n).length = k := by
  induction k generalizing n with
  | zero => rfl
  | succ k ih => simp [leBytes, ih]

/-- **The bytes of a number give its remainder.** -/
theorem leValue_leBytes (k n : ℕ) : leValue (leBytes k n) = n % 256 ^ k := by
  induction k generalizing n with
  | zero => simp [leBytes, leValue, Nat.mod_one]
  | succ k ih =>
    have hmod : n % 256 ^ (k + 1) = n % 256 + 256 * (n / 256 % 256 ^ k) := by
      rw [pow_succ', Nat.mod_mul]
    rw [leBytes, leValue, ih, UInt8.toNat_ofNat', hmod]

theorem leValue_append (a b : List UInt8) :
    leValue (a ++ b) = leValue a + 256 ^ a.length * leValue b := by
  induction a with
  | nil => simp [leValue]
  | cons x a ih =>
    rw [List.cons_append, leValue, leValue, ih, List.length_cons, pow_succ]
    ring

theorem leValue_replicate_zero (n : ℕ) : leValue (List.replicate n 0) = 0 := by
  induction n with
  | zero => rfl
  | succ n ih => simp [List.replicate_succ, leValue, ih]

theorem leValue_append_zeros (a : List UInt8) (n : ℕ) :
    leValue (a ++ List.replicate n 0) = leValue a := by
  rw [leValue_append, leValue_replicate_zero, Nat.mul_zero, Nat.add_zero]

/-! ## Bits -/

/-- The number with these bits, the lowest first. -/
def ofBits : List Bool → ℕ
  | [] => 0
  | b :: bs => b.toNat + 2 * ofBits bs

/-- The `k` low bits of `n`, the lowest first. -/
def toBits : ℕ → ℕ → List Bool
  | 0, _ => []
  | k + 1, n => decide (n % 2 = 1) :: toBits k (n / 2)

theorem ofBits_lt (bs : List Bool) : ofBits bs < 2 ^ bs.length := by
  induction bs with
  | nil => simp [ofBits]
  | cons b bs ih =>
    have hb := b.toNat_le
    rw [ofBits, List.length_cons, pow_succ]
    omega

/-- **The bits of a number are the ones it was made of.** -/
theorem toBits_ofBits (bs : List Bool) : toBits bs.length (ofBits bs) = bs := by
  induction bs with
  | nil => rfl
  | cons b bs ih =>
    have hrest : (b.toNat + 2 * ofBits bs) / 2 = ofBits bs := by
      have hb := b.toNat_le
      cases b <;> simp only [Bool.toNat_true, Bool.toNat_false] <;> omega
    have hbit : decide ((b.toNat + 2 * ofBits bs) % 2 = 1) = b := by cases b <;> simp
    rw [List.length_cons, ofBits, toBits, hrest, hbit, ih]

end Codec
