/-
  Interning: values that are kept once each in a growing list and are named by their positions.

  * `Interns content items a items' i`: one value, which is found at a position or joins the end;
    two values with the same `content` are the same;
  * `InternsAll`: a sequence of values.  Positions stay what they are, no content is kept twice, and
    two values get the same position exactly when they are the same (`InternsAll.index_eq_iff`);
  * `Hashed`: the list with a hash index, whose search is `Interns` (`Hashed.interns`).
-/
import Mathlib.Data.List.Forall2
import Mathlib.Logic.Function.Basic

namespace Interning

variable {α β κ : Type} {content : α → β} {items items' : List α} {a b : α} {i j : ℕ}

/-- One value is found, or joins the end. -/
inductive Interns (content : α → β) (items : List α) (a : α) : List α → ℕ → Prop
  | found {i : ℕ} {b : α} : items[i]? = some b → content b = content a →
      Interns content items a items i
  | new : (∀ b ∈ items, content b ≠ content a) →
      Interns content items a (items ++ [a]) items.length

/-- The values one after the other. -/
inductive InternsAll (content : α → β) : List α → List α → List α → List ℕ → Prop
  | nil (items : List α) : InternsAll content items [] items []
  | cons {items items₁ items₂ : List α} {a : α} {as : List α} {i : ℕ} {is : List ℕ} :
      Interns content items a items₁ i → InternsAll content items₁ as items₂ is →
      InternsAll content items (a :: as) items₂ (i :: is)

/-- No content is kept twice. -/
def Distinct (content : α → β) (items : List α) : Prop :=
  items.Pairwise fun a b => content a ≠ content b

theorem Interns.grows (h : Interns content items a items' i) : items <+: items' := by
  cases h with
  | found => exact List.prefix_rfl
  | new => exact List.prefix_append ..

theorem Interns.length_le (h : Interns content items a items' i) :
    items'.length ≤ items.length + 1 := by
  cases h with
  | found => exact Nat.le_succ _
  | new => exact Nat.le_of_eq List.length_append

/-- The position leads to the value. -/
theorem Interns.denotes (h : Interns content items a items' i) :
    ∃ b, items'[i]? = some b ∧ content b = content a := by
  cases h with
  | found hb heq => exact ⟨_, hb, heq⟩
  | new => exact ⟨a, by simp, rfl⟩

theorem Interns.distinct (h : Interns content items a items' i) (hd : Distinct content items) :
    Distinct content items' := by
  cases h with
  | found => exact hd
  | new hne =>
    refine List.pairwise_append.2 ⟨hd, List.pairwise_singleton .., fun x hx y hy => ?_⟩
    rw [List.mem_singleton.1 hy]
    exact hne x hx

/-- Positions are where they are once a list has grown. -/
theorem getElem?_of_grown (h : items <+: items') (hi : items[i]? = some a) : items'[i]? = some a := by
  obtain ⟨rest, rfl⟩ := h
  rw [List.getElem?_append_left (List.getElem?_eq_some_iff.1 hi).1, hi]

/-- **Two positions are the same** exactly when they hold the same content. -/
theorem Distinct.index_eq_iff (hd : Distinct content items) (hi : items[i]? = some a)
    (hj : items[j]? = some b) : i = j ↔ content a = content b := by
  constructor
  · rintro rfl
    rw [hi] at hj
    rw [Option.some.inj hj]
  · intro heq
    obtain ⟨hilt, rfl⟩ := List.getElem?_eq_some_iff.1 hi
    obtain ⟨hjlt, rfl⟩ := List.getElem?_eq_some_iff.1 hj
    have hne := List.pairwise_iff_getElem.1 hd
    rcases Nat.lt_trichotomy i j with hlt | hij | hgt
    · exact absurd heq (hne i j hilt hjlt hlt)
    · exact hij
    · exact absurd heq.symm (hne j i hjlt hilt hgt)

namespace InternsAll

variable {as : List α} {is : List ℕ}

theorem grows (h : InternsAll content items as items' is) : items <+: items' := by
  induction h with
  | nil => exact List.prefix_rfl
  | cons h _ ih => exact h.grows.trans ih

theorem distinct (h : InternsAll content items as items' is) (hd : Distinct content items) :
    Distinct content items' := by
  induction h with
  | nil => exact hd
  | cons h _ ih => exact ih (h.distinct hd)

/-- Every position leads to its value in the end. -/
theorem denotes (h : InternsAll content items as items' is) :
    List.Forall₂ (fun a i => ∃ b, items'[i]? = some b ∧ content b = content a) as is := by
  induction h with
  | nil => exact .nil
  | cons h hrest ih =>
    obtain ⟨b, hb, heq⟩ := h.denotes
    exact .cons ⟨b, getElem?_of_grown hrest.grows hb, heq⟩ ih

/-- **Two values have the same position** exactly when they are the same. -/
theorem index_eq_iff (h : InternsAll content items as items' is) (hd : Distinct content items)
    {m n : ℕ} (ha : as[m]? = some a) (hb : as[n]? = some b) (hi : is[m]? = some i)
    (hj : is[n]? = some j) : i = j ↔ content a = content b := by
  obtain ⟨hlen, hall⟩ := List.forall₂_iff_get.1 h.denotes
  have hat : ∀ {k : ℕ} {c : α} {p : ℕ}, as[k]? = some c → is[k]? = some p →
      ∃ d, items'[p]? = some d ∧ content d = content c := by
    intro k c p hc hp
    obtain ⟨hk, rfl⟩ := List.getElem?_eq_some_iff.1 hc
    obtain ⟨hk', rfl⟩ := List.getElem?_eq_some_iff.1 hp
    exact hall k hk hk'
  obtain ⟨c, hc, hca⟩ := hat ha hi
  obtain ⟨d, hd', hdb⟩ := hat hb hj
  rw [(h.distinct hd).index_eq_iff hc hd', hca, hdb]

end InternsAll

/-! ## A hash index -/

/-- The values, and for every key the positions of the values that have it. -/
structure Hashed (κ α : Type) where
  items : List α
  chains : κ → List ℕ

namespace Hashed

variable [DecidableEq κ] [DecidableEq β] (key : α → κ) (content : α → β) (t : Hashed κ α) (a : α)

def empty : Hashed κ α := ⟨[], fun _ => []⟩

/-- The first position in the chain of the key that holds the same content. -/
def find : Option ℕ :=
  (t.chains (key a)).find? fun i => (t.items[i]?).any fun b => content b = content a

/-- The value joins the end, of its chain too. -/
def store : Hashed κ α :=
  ⟨t.items ++ [a], Function.update t.chains (key a) (t.chains (key a) ++ [t.items.length])⟩

/-- The chains hold the positions of all values. -/
def Indexed : Prop := ∀ i b, t.items[i]? = some b → i ∈ t.chains (key b)

variable {key content t a}

omit [DecidableEq κ] in
theorem indexed_empty : (empty : Hashed κ α).Indexed key := fun i b h => by cases h

theorem Indexed.store (h : t.Indexed key) : (t.store key a).Indexed key := by
  intro i b hb
  change (t.items ++ [a])[i]? = some b at hb
  change i ∈ Function.update t.chains (key a) (t.chains (key a) ++ [t.items.length]) (key b)
  have hmem : i ∈ t.chains (key b) ∨ b = a ∧ i = t.items.length := by
    rcases Nat.lt_or_ge i t.items.length with hlt | hge
    · rw [List.getElem?_append_left hlt] at hb
      exact .inl (h i b hb)
    · rw [List.getElem?_append_right hge] at hb
      obtain ⟨hone, hval⟩ := List.getElem?_eq_some_iff.1 hb
      rw [List.length_singleton] at hone
      exact .inr ⟨by simpa using hval.symm, by omega⟩
  by_cases hk : key b = key a
  · rw [hk, Function.update_self, List.mem_append, List.mem_singleton, ← hk]
    exact hmem.imp_right And.right
  · rw [Function.update_of_ne hk]
    exact hmem.resolve_right fun hb => hk (hb.1 ▸ rfl)

/-- **The search by hash** finds the value or shows that it is new. -/
theorem interns (h : t.Indexed key)
    (hkey : ∀ b ∈ t.items, content b = content a → key b = key a) :
    (∃ i, t.find key content a = some i ∧ Interns content t.items a t.items i) ∨
      t.find key content a = none ∧
        Interns content t.items a (t.store key a).items t.items.length := by
  cases hfind : t.find key content a with
  | some i =>
    have hsame := List.find?_some hfind
    rw [Option.any_eq_true] at hsame
    obtain ⟨b, hb, heq⟩ := hsame
    exact .inl ⟨i, rfl, .found hb (by simpa using heq)⟩
  | none =>
    refine .inr ⟨rfl, .new ?_⟩
    intro b hb heq
    obtain ⟨i, hi⟩ := List.getElem?_of_mem hb
    have hin : i ∈ t.chains (key a) := hkey b hb heq ▸ h i b hi
    refine List.find?_eq_none.1 hfind i hin ?_
    rw [hi, Option.any_some, heq, decide_eq_true_eq]

end Hashed

end Interning
