/-
  Open addressing with linear probing: `slot` is what stands in each of `n` places, a key or
  nothing, and a search goes from the place a key has by its hash to the next one, around the
  end, until it meets the key or an empty place.

  * `search` is the loop, with fuel; where a place is empty it ends within `n` steps
    (`search_isSome`);
  * `Placed`: every key stands where a search for it gets to, and stands there alone.  Then a
    search ends at the key if it is there at all (`Placed.search_key`), and a key put where its
    search ended keeps this (`Placed.update`);
  * `keys` are the keys of a table; with fewer of them than places one place is empty
    (`Placed.exists_empty`).
-/
import Mathlib

namespace Probing

variable {κ : Type*} {n : ℕ} {slot : ℕ → Option κ} {home : κ → ℕ} {k k' : κ}
  {i j d fuel : ℕ}

/-! ## The search -/

/-- The place of `k`, or the first empty one, from `i` on. -/
def search [DecidableEq κ] (n : ℕ) (slot : ℕ → Option κ) (k : κ) : ℕ → ℕ → Option ℕ
  | 0, _ => none
  | fuel + 1, i => if slot i = some k ∨ slot i = none then some i else search n slot k fuel ((i + 1) % n)

/-- The places before the `d`th from `i` on are taken by other keys. -/
def Passes (n : ℕ) (slot : ℕ → Option κ) (k : κ) (i d : ℕ) : Prop :=
  ∀ e < d, slot ((i + e) % n) ≠ some k ∧ slot ((i + e) % n) ≠ none

theorem Passes.succ_iff (hi : i < n) : Passes n slot k i (d + 1) ↔
    (slot i ≠ some k ∧ slot i ≠ none) ∧ Passes n slot k ((i + 1) % n) d := by
  constructor
  · intro h
    refine ⟨by simpa [Nat.mod_eq_of_lt hi] using h 0 d.succ_pos, fun e he => ?_⟩
    have hstep := h (e + 1) (Nat.succ_lt_succ he)
    rwa [show i + (e + 1) = i + 1 + e by omega, ← Nat.mod_add_mod] at hstep
  · rintro ⟨hfirst, hrest⟩ e he
    cases e with
    | zero => simpa [Nat.mod_eq_of_lt hi] using hfirst
    | succ e =>
      have hstep := hrest e (Nat.lt_of_succ_lt_succ he)
      rwa [Nat.mod_add_mod, show i + 1 + e = i + (e + 1) by omega] at hstep

variable [DecidableEq κ]

/-- **Where a search ends.** -/
theorem search_eq_some_iff (hi : i < n) : search n slot k fuel i = some j ↔ ∃ d < fuel,
    j = (i + d) % n ∧ Passes n slot k i d ∧ (slot j = some k ∨ slot j = none) := by
  induction fuel generalizing i with
  | zero => simp [search]
  | succ fuel ih =>
    rw [search]
    by_cases hend : slot i = some k ∨ slot i = none
    · rw [if_pos hend, Option.some.injEq]
      constructor
      · rintro rfl
        exact ⟨0, by omega, (Nat.mod_eq_of_lt hi).symm, fun e he => absurd he e.not_lt_zero, hend⟩
      · rintro ⟨d, -, rfl, hpass, -⟩
        cases d with
        | zero => exact (Nat.mod_eq_of_lt hi).symm
        | succ d =>
          obtain ⟨hkey, hempty⟩ := ((Passes.succ_iff hi).1 hpass).1
          exact absurd hend (not_or.2 ⟨hkey, hempty⟩)
    · rw [if_neg hend, ih (Nat.mod_lt _ (by omega))]
      constructor
      · rintro ⟨d, hd, rfl, hpass, hlast⟩
        refine ⟨d + 1, by omega, ?_, (Passes.succ_iff hi).2 ⟨not_or.1 hend, hpass⟩, hlast⟩
        rw [Nat.mod_add_mod, show i + 1 + d = i + (d + 1) by omega]
      · rintro ⟨d, hd, hj, hpass, hlast⟩
        cases d with
        | zero =>
          rw [Nat.add_zero, Nat.mod_eq_of_lt hi] at hj
          exact absurd (hj ▸ hlast) hend
        | succ d =>
          refine ⟨d, by omega, ?_, ((Passes.succ_iff hi).1 hpass).2, hlast⟩
          rw [hj, Nat.mod_add_mod, show i + 1 + d = i + (d + 1) by omega]

/-- **A search ends where a place is empty.** -/
theorem search_isSome (hi : i < n) (hj : j < n) (hempty : slot j = none) (hfuel : n ≤ fuel) :
    ∃ j, search n slot k fuel i = some j := by
  -- the first place that ends the search is no further than the empty one
  have hex : ∃ d, d < n ∧ (slot ((i + d) % n) = some k ∨ slot ((i + d) % n) = none) := by
    refine ⟨(j + (n - i)) % n, Nat.mod_lt _ (by omega), .inr ?_⟩
    rw [Nat.add_mod_mod, show i + (j + (n - i)) = j + n by omega, Nat.add_mod_right,
      Nat.mod_eq_of_lt hj, hempty]
  obtain ⟨hlt, hend⟩ := Nat.find_spec hex
  refine ⟨_, (search_eq_some_iff hi).2 ⟨Nat.find hex, by omega, rfl, fun e he => ?_, hend⟩⟩
  have hmin := Nat.find_min hex he
  rw [not_and, not_or] at hmin
  exact hmin (he.trans hlt)

/-! ## Where the keys stand -/

/-- Every key stands where its search gets to, in one place only. -/
structure Placed (n : ℕ) (home : κ → ℕ) (slot : ℕ → Option κ) : Prop where
  reached : ∀ i < n, ∀ k, slot i = some k →
    ∃ d < n, i = (home k + d) % n ∧ ∀ e < d, slot ((home k + e) % n) ≠ none
  alone : ∀ i < n, ∀ j < n, ∀ k, slot i = some k → slot j = some k → i = j

omit [DecidableEq κ] in
theorem Placed.empty : Placed n home fun _ => none := by
  constructor
  · intro i hi k h
    cases h
  · intro i hi j hj k h
    cases h

/-- A search for a key that is there ends at the key. -/
theorem Placed.search_key (h : Placed n home slot) (hhome : home k < n) (hi : i < n)
    (hk : slot i = some k) (hj : search n slot k fuel (home k) = some j) : j = i := by
  obtain ⟨d, hd, rfl, hpass, hend⟩ := (search_eq_some_iff hhome).1 hj
  obtain ⟨d', hd', rfl, htaken⟩ := h.reached i hi k hk
  rcases lt_trichotomy d d' with hlt | rfl | hgt
  · obtain hkey | hempty := hend
    · exact h.alone _ (Nat.mod_lt _ (by omega)) _ hi k hkey hk
    · exact absurd hempty (htaken d hlt)
  · rfl
  · exact absurd hk (hpass d' hgt).1

/-- So one that ends at an empty place has a key that is not there. -/
theorem Placed.not_there (h : Placed n home slot) (hhome : home k < n)
    (hj : search n slot k fuel (home k) = some j) (hempty : slot j = none) (hi : i < n) :
    slot i ≠ some k := by
  intro hk
  rw [h.search_key hhome hi hk hj, hk] at hempty
  cases hempty

/-- **A key is put where its search ended.** -/
theorem Placed.update (h : Placed n home slot) (hhome : home k < n) (hfuel : fuel ≤ n)
    (hj : search n slot k fuel (home k) = some j) (hempty : slot j = none) :
    Placed n home (Function.update slot j (some k)) := by
  have hnot : ∀ i < n, slot i ≠ some k := fun i hi => h.not_there hhome hj hempty hi
  obtain ⟨d, hd, hjd, hpass, -⟩ := (search_eq_some_iff hhome).1 hj
  have hstays : ∀ i, slot i ≠ none → Function.update slot j (some k) i ≠ none := by
    intro i hi
    rcases eq_or_ne i j with rfl | hne
    · simp
    · rwa [Function.update_of_ne hne]
  constructor
  · intro i hi k' hk'
    rcases eq_or_ne i j with rfl | hne
    · rw [Function.update_self, Option.some.injEq] at hk'
      subst hk'
      exact ⟨d, by omega, hjd, fun e he => hstays _ (hpass e he).2⟩
    · rw [Function.update_of_ne hne] at hk'
      obtain ⟨d', hd', hid, htaken⟩ := h.reached i hi k' hk'
      exact ⟨d', hd', hid, fun e he => hstays _ (htaken e he)⟩
  · intro i hi i' hi' k' hk hk'
    rcases eq_or_ne i j with rfl | hne <;> rcases eq_or_ne i' i with rfl | hne'
    · rfl
    · rw [Function.update_self, Option.some.injEq] at hk
      subst hk
      rw [Function.update_of_ne hne'] at hk'
      exact absurd hk' (hnot i' hi')
    · rfl
    · rw [Function.update_of_ne hne] at hk
      rcases eq_or_ne i' j with rfl | hne''
      · rw [Function.update_self, Option.some.injEq] at hk'
        subst hk'
        exact absurd hk (hnot i hi)
      · rw [Function.update_of_ne hne''] at hk'
        exact h.alone i hi i' hi' k' hk hk'

/-! ## How many places are taken -/

/-- The keys of the table. -/
def keys (n : ℕ) (slot : ℕ → Option κ) : Finset κ := (Finset.range n).biUnion fun i => (slot i).toFinset

theorem mem_keys : k ∈ keys n slot ↔ ∃ i < n, slot i = some k := by
  simp [keys]

theorem keys_update (hj : j < n) (hempty : slot j = none) :
    keys n (Function.update slot j (some k)) = insert k (keys n slot) := by
  ext x
  rw [Finset.mem_insert, mem_keys, mem_keys]
  constructor
  · rintro ⟨i, hi, hx⟩
    rcases eq_or_ne i j with rfl | hne
    · rw [Function.update_self, Option.some.injEq] at hx
      exact .inl hx.symm
    · rw [Function.update_of_ne hne] at hx
      exact .inr ⟨i, hi, hx⟩
  · rintro (rfl | ⟨i, hi, hx⟩)
    · exact ⟨j, hj, Function.update_self ..⟩
    · refine ⟨i, hi, ?_⟩
      rw [Function.update_of_ne, hx]
      rintro rfl
      rw [hempty] at hx
      cases hx

/-- With fewer keys than places one place is empty. -/
theorem Placed.exists_empty (h : Placed n home slot) (hcard : (keys n slot).card < n) :
    ∃ j < n, slot j = none := by
  by_contra hfull
  push Not at hfull
  have hinj : Set.InjOn slot (Finset.range n) := by
    intro i hi j hj heq
    obtain ⟨k, hk⟩ := Option.ne_none_iff_exists'.1 (hfull i (Finset.mem_range.1 hi))
    exact h.alone i (Finset.mem_range.1 hi) j (Finset.mem_range.1 hj) k hk (heq ▸ hk)
  have hsub : (Finset.range n).image slot ⊆ (keys n slot).image some := by
    intro x hx
    obtain ⟨i, hi, rfl⟩ := Finset.mem_image.1 hx
    obtain ⟨k, hk⟩ := Option.ne_none_iff_exists'.1 (hfull i (Finset.mem_range.1 hi))
    rw [hk]
    exact Finset.mem_image_of_mem some (mem_keys.2 ⟨i, Finset.mem_range.1 hi, hk⟩)
  have hle := (Finset.card_le_card hsub).trans Finset.card_image_le
  rw [Finset.card_image_of_injOn hinj, Finset.card_range] at hle
  omega

end Probing
