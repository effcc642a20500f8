/-
  Scanning sets of numbers in increasing order.

  * `xor_and_sub_one`: for a word `x`, `x ^ (x & (x - 1))` is its lowest bit;
  * `LeastFrom S lo r`: `r` is the least element of `S` from `lo` on, and `-1` without one;
  * `forEach next`: the loop that starts behind `-1` and goes on from each element `next` finds.
    If `next` finds the least one, the loop is a fold over the elements in order
    (`forEach_eq_foldl`).
-/
import Mathlib.Data.Nat.Bits
import Mathlib.Data.List.Pairwise
import Mathlib.Tactic.Ring

namespace BitScan

/-! ## The lowest bit of a word -/

section Lowest

variable {n : ℕ}

/-- A number whose lowest bit is `n`. -/
theorem eq_of_lowest {x : ℕ} (hn : x.testBit n = true) (hlow : ∀ m < n, x.testBit m = false) :
    ∃ q, x = 2 ^ n * (2 * q + 1) := by
  have hmod : x % 2 ^ n = 0 := by
    apply Nat.eq_of_testBit_eq
    intro i
    rw [Nat.testBit_mod_two_pow, Nat.zero_testBit]
    by_cases hi : i < n
    · rw [hlow i hi, Bool.and_false]
    · rw [decide_eq_false hi, Bool.false_and]
  have hodd : x / 2 ^ n % 2 = 1 := by
    rw [Nat.testBit_eq_decide_div_mod_eq, decide_eq_true_eq] at hn
    exact hn
  refine ⟨x / 2 ^ n / 2, ?_⟩
  have hdiv := Nat.div_add_mod (x / 2 ^ n) 2
  rw [hodd] at hdiv
  rw [hdiv]
  have hx := Nat.div_add_mod x (2 ^ n)
  rw [hmod, Nat.add_zero] at hx
  exact hx.symm

theorem testBit_sub_one {x : ℕ} (hn : x.testBit n = true) (hlow : ∀ m < n, x.testBit m = false)
    (j : ℕ) : (x - 1).testBit j = if j < n then true else if j = n then false else x.testBit j := by
  obtain ⟨q, rfl⟩ := eq_of_lowest hn hlow
  have hpos : 0 < 2 ^ n := Nat.two_pow_pos n
  have hsub : 2 ^ n * (2 * q + 1) - 1 = 2 ^ n * (2 * q) + (2 ^ n - 1) := by
    rw [Nat.mul_add, Nat.mul_one]
    omega
  rw [hsub, Nat.testBit_two_pow_mul_add _ (Nat.sub_lt hpos Nat.one_pos)]
  by_cases hj : j < n
  · rw [if_pos hj, if_pos hj, Nat.testBit_two_pow_sub_one, decide_eq_true hj]
  rw [if_neg hj, if_neg hj]
  by_cases heq : j = n
  · rw [if_pos heq, heq, Nat.sub_self, Nat.testBit_zero, decide_eq_false]
    omega
  · obtain ⟨k, rfl⟩ : ∃ k, j = n + (k + 1) := ⟨j - n - 1, by omega⟩
    rw [if_neg heq, Nat.testBit_two_pow_mul, Nat.add_sub_cancel_left, Nat.testBit_succ,
      Nat.testBit_succ, decide_eq_true (by omega), Bool.true_and]
    congr 1
    omega

theorem getLsbD_sub_one {w : ℕ} {x : BitVec w} (hn : x.getLsbD n = true)
    (hlow : ∀ m < n, x.getLsbD m = false) (j : ℕ) :
    (x - 1#w).getLsbD j = if j < n then true else if j = n then false else x.getLsbD j := by
  have hw : n < w := BitVec.lt_of_getLsbD hn
  have hpos : 1 ≤ x.toNat := by
    by_contra hzero
    rw [BitVec.getLsbD, Nat.lt_one_iff.1 (not_le.1 hzero), Nat.zero_testBit] at hn
    cases hn
  have hone : (1#w).toNat = 1 := BitVec.toNat_one (by omega)
  have hsub : (x - 1#w).toNat = x.toNat - 1 := by
    rw [BitVec.toNat_sub_of_le, hone]
    rw [BitVec.le_def, hone]
    exact hpos
  rw [BitVec.getLsbD, hsub]
  exact testBit_sub_one hn hlow j

/-- **The lowest bit of a word.** -/
theorem xor_and_sub_one {w : ℕ} {x : BitVec w} (hn : x.getLsbD n = true)
    (hlow : ∀ m < n, x.getLsbD m = false) : x ^^^ (x &&& (x - 1#w)) = BitVec.twoPow w n := by
  have hw : n < w := BitVec.lt_of_getLsbD hn
  apply BitVec.eq_of_getLsbD_eq
  intro j hj
  rw [BitVec.getLsbD_xor, BitVec.getLsbD_and, getLsbD_sub_one hn hlow, BitVec.getLsbD_twoPow,
    decide_eq_true hw, Bool.true_and]
  by_cases hlt : j < n
  · rw [hlow j hlt, decide_eq_false (by omega)]
    rfl
  rw [if_neg hlt]
  by_cases heq : j = n
  · subst heq
    rw [if_pos rfl, hn, decide_eq_true rfl]
    rfl
  · rw [if_neg heq, decide_eq_false (by omega), Bool.and_self, Bool.xor_self]

end Lowest

/-! ## Loops over a set -/

/-- `r` is the least element of `S` from `lo` on, and `-1` if there is none. -/
def LeastFrom (S : ℕ → Prop) (lo : ℕ) (r : ℤ) : Prop :=
  (r = -1 ∧ ∀ m, lo ≤ m → ¬S m) ∨
    ∃ n : ℕ, r = n ∧ lo ≤ n ∧ S n ∧ ∀ m, lo ≤ m → m < n → ¬S m

/-- Numbers that are not in the set are passed over. -/
theorem LeastFrom.skip {S : ℕ → Prop} {lo hi : ℕ} {r : ℤ} (h : LeastFrom S hi r) (hle : lo ≤ hi)
    (hempty : ∀ m, lo ≤ m → m < hi → ¬S m) : LeastFrom S lo r := by
  rcases h with ⟨rfl, hnone⟩ | ⟨n, rfl, hn, hmem, hleast⟩
  · refine .inl ⟨rfl, fun m hm => ?_⟩
    by_cases hlt : m < hi
    · exact hempty m hm hlt
    · exact hnone m (not_lt.1 hlt)
  · refine .inr ⟨n, rfl, hle.trans hn, hmem, fun m hm hmn => ?_⟩
    by_cases hlt : m < hi
    · exact hempty m hm hlt
    · exact hleast m (not_lt.1 hlt) hmn

variable {σ : Type}

/-- The loop over what `next` finds behind `after`. -/
def forEach (next : ℤ → ℤ) (body : σ → ℕ → σ) : ℕ → ℤ → σ → Option σ
  | 0, _, _ => none
  | fuel + 1, after, s =>
    if 0 ≤ next after then forEach next body fuel (next after) (body s (next after).toNat)
    else some s

/-- **The loop visits the elements in order, each once.** -/
theorem forEach_eq_foldl {S : ℕ → Prop} {next : ℤ → ℤ}
    (hnext : ∀ a : ℤ, -1 ≤ a → LeastFrom S (a + 1).toNat (next a)) (body : σ → ℕ → σ) :
    ∀ (l : List ℕ) (a : ℤ) (fuel : ℕ) (s : σ), -1 ≤ a → l.Pairwise (· < ·) →
      (∀ n, n ∈ l ↔ S n ∧ a < n) → l.length < fuel →
      forEach next body fuel a s = some (l.foldl body s) := by
  intro l
  induction l with
  | nil =>
    intro a fuel s ha _ hmem hfuel
    obtain ⟨fuel, rfl⟩ := Nat.exists_eq_add_one.2 hfuel
    rcases hnext a ha with ⟨hdone, -⟩ | ⟨n, -, hn, hS, -⟩
    · rw [forEach, hdone, if_neg (by decide)]
      rfl
    · exact absurd ((hmem n).2 ⟨hS, by omega⟩) List.not_mem_nil
  | cons x l ih =>
    intro a fuel s ha hsorted hmem hfuel
    obtain ⟨fuel, rfl⟩ := Nat.exists_eq_add_one.2 (Nat.zero_lt_of_lt hfuel)
    obtain ⟨hx, hsorted⟩ := List.pairwise_cons.1 hsorted
    obtain ⟨hS, hax⟩ := (hmem x).1 List.mem_cons_self
    have hfound : next a = x := by
      rcases hnext a ha with ⟨-, hnone⟩ | ⟨n, heq, hn, hSn, hleast⟩
      · exact absurd hS (hnone x (by omega))
      · rcases List.mem_cons.1 ((hmem n).2 ⟨hSn, by omega⟩) with rfl | hlater
        · exact heq
        · exact absurd hS (hleast x (by omega) (hx n hlater))
    rw [forEach, hfound, if_pos (Int.natCast_nonneg x), Int.toNat_natCast, List.foldl_cons]
    refine ih x fuel (body s x) (by omega) hsorted (fun n => ?_) (Nat.lt_of_succ_lt_succ hfuel)
    constructor
    · intro hn
      exact ⟨((hmem n).1 (List.mem_cons_of_mem _ hn)).1, Int.ofNat_lt.2 (hx n hn)⟩
    · rintro ⟨hSn, hlt⟩
      refine ((List.mem_cons.1 ((hmem n).2 ⟨hSn, hax.trans hlt⟩)).resolve_left ?_)
      rintro rfl
      exact absurd hlt (lt_irrefl _)

end BitScan
