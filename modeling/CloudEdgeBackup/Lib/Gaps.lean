/-
  Arrays with idle positions that carry a hint where to go on.

  * `seek` follows the hints to the next position in use;
  * `SkipsUp`, `SkipsDown` say that the hints jump over idle positions only.  They stay
    true when a position in use becomes idle (`SkipsUp.mono`), so a removal has to set no
    hint but its own;
  * with them `seek` ends at the nearest position in use (`seek_up`, `seek_down`).
-/
import Mathlib.Tactic

namespace Gaps

/-- From `m` on along `next`, up to the first position in use. -/
def seek (act : ℕ → Bool) (next : ℕ → ℕ) : ℕ → ℕ → Option ℕ
  | 0, _ => none
  | n + 1, m => if act m then some m else seek act next n (next m)

variable {act act' : ℕ → Bool} {next next' : ℕ → ℕ} {n : ℕ}

/-- Below `n` the hints go up, over idle positions. -/
def SkipsUp (act : ℕ → Bool) (next : ℕ → ℕ) (n : ℕ) : Prop :=
  ∀ m < n, act m = false → m < next m ∧ ∀ x, m ≤ x → x < next m → act x = false

/-- Below `n` the hints go down, over idle positions. -/
def SkipsDown (act : ℕ → Bool) (next : ℕ → ℕ) (n : ℕ) : Prop :=
  ∀ m < n, act m = false → (m ≠ 0 → next m < m) ∧ ∀ x, next m < x → x ≤ m → act x = false

/-- A position may become idle if its own hint is right. -/
theorem SkipsUp.mono (h : SkipsUp act next n) (hact : ∀ m, act m = false → act' m = false)
    (hnext : ∀ m < n, act' m = false → act m = false ∧ next' m = next m ∨
      m < next' m ∧ ∀ x, m ≤ x → x < next' m → act' x = false) : SkipsUp act' next' n := by
  intro m hm hidle
  rcases hnext m hm hidle with ⟨hold, heq⟩ | hnew
  · obtain ⟨hlt, hall⟩ := h m hm hold
    rw [heq]
    exact ⟨hlt, fun x hx hx' => hact x (hall x hx hx')⟩
  · exact hnew

theorem SkipsDown.mono (h : SkipsDown act next n) (hact : ∀ m, act m = false → act' m = false)
    (hnext : ∀ m < n, act' m = false → act m = false ∧ next' m = next m ∨
      (m ≠ 0 → next' m < m) ∧ ∀ x, next' m < x → x ≤ m → act' x = false) :
    SkipsDown act' next' n := by
  intro m hm hidle
  rcases hnext m hm hidle with ⟨hold, heq⟩ | hnew
  · obtain ⟨hlt, hall⟩ := h m hm hold
    rw [heq]
    exact ⟨hlt, fun x hx hx' => hact x (hall x hx hx')⟩
  · exact hnew

/-- **Upward, the next position in use is found.** -/
theorem seek_up (h : SkipsUp act next n) {a : ℕ} (ha : act a = true) (han : a < n) {fuel m : ℕ}
    (hm : m ≤ a) (hfuel : a - m < fuel) :
    ∃ u, seek act next fuel m = some u ∧ act u = true ∧ m ≤ u ∧ u ≤ a ∧
      ∀ x, m ≤ x → x < u → act x = false := by
  induction fuel generalizing m with
  | zero => omega
  | succ fuel ih =>
    rw [seek]
    cases hact : act m with
    | true => exact ⟨m, rfl, hact, le_rfl, hm, fun x hx hx' => absurd hx' (not_lt.2 hx)⟩
    | false =>
      obtain ⟨hlt, hall⟩ := h m (hm.trans_lt han) hact
      have hnext : next m ≤ a := by
        by_contra hgt
        rw [hall a hm (not_le.1 hgt)] at ha
        cases ha
      obtain ⟨u, hu, hactu, hle, hua, hbelow⟩ := ih hnext (by omega)
      refine ⟨u, by simpa using hu, hactu, by omega, hua, fun x hx hxu => ?_⟩
      by_cases hxn : x < next m
      · exact hall x hx hxn
      · exact hbelow x (not_lt.1 hxn) hxu

/-- **Downward, the position in use before is found.** -/
theorem seek_down (h : SkipsDown act next n) {a : ℕ} (ha : act a = true) {fuel m : ℕ} (hmn : m < n)
    (hm : a ≤ m) (hfuel : m - a < fuel) :
    ∃ d, seek act next fuel m = some d ∧ act d = true ∧ d ≤ m ∧ a ≤ d ∧
      ∀ x, d < x → x ≤ m → act x = false := by
  induction fuel generalizing m with
  | zero => omega
  | succ fuel ih =>
    rw [seek]
    cases hact : act m with
    | true => exact ⟨m, rfl, hact, le_rfl, hm, fun x hx hx' => absurd hx (not_lt.2 hx')⟩
    | false =>
      obtain ⟨hlt, hall⟩ := h m hmn hact
      have hne : a ≠ m := by
        rintro rfl
        rw [ha] at hact
        cases hact
      have hnext : a ≤ next m := by
        by_contra hgt
        rw [hall a (not_le.1 hgt) hm] at ha
        cases ha
      have hlt' := hlt (by omega)
      obtain ⟨d, hd, hactd, hle, had, habove⟩ := ih (by omega) hnext (by omega)
      refine ⟨d, by simpa using hd, hactd, by omega, had, fun x hx hxm => ?_⟩
      by_cases hxn : next m < x
      · exact hall x hxn hxm
      · exact habove x hx (not_lt.1 hxn)

end Gaps
