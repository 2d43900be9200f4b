import Mathlib.Data.Rat.Floor
import Mathlib.Tactic.Linarith
import Mathlib.Tactic.Positivity
import Mathlib.Tactic.NormNum

/-!
# Rounded arithmetic on the rationals

A `Rounding` is the rounding of a binary floating-point format with 53 significant bits: integers
up to `2 ^ 53` are kept, and a normal number moves by at most one part in `2 ^ 53`. Rounding to
nearest is one, and so is no rounding at all (`Rounding.exact`). A result proved for every
`Rounding` holds of the rounded computation and of the exact one.

## Main results

* `Rounding.floor_add_nat`: rounding a quotient of small naturals and then the sum with a natural
  does not move the integer part.
-/

namespace PicoUros

/-- Rounding to 53 significant bits, in the range where nothing underflows. -/
structure Rounding where
  rnd : ℚ → ℚ
  rnd_int : ∀ n : ℤ, |n| ≤ 2 ^ 53 → rnd n = n
  rnd_err : ∀ x : ℚ, 1 ≤ |x| → |x| ≤ 2 ^ 53 → |rnd x - x| ≤ |x| / 2 ^ 53

namespace Rounding

/-- Exact arithmetic. -/
def exact : Rounding where
  rnd := id
  rnd_int _ _ := rfl
  rnd_err x _ _ := by
    rw [id, sub_self, abs_zero]
    positivity

variable (R : Rounding)

theorem rnd_nat {n : ℕ} (h : n ≤ 2 ^ 53) : R.rnd n = n := by
  have := R.rnd_int n (by rw [Nat.abs_cast]; exact_mod_cast h)
  exact_mod_cast this

/-- A rounding moves a number of moderate size by very little. -/
theorem abs_rnd_sub_le {x : ℚ} (h₁ : 1 ≤ x) (h₂ : x ≤ 2 ^ 22) : |R.rnd x - x| ≤ 1 / 2 ^ 30 := by
  have habs : |x| = x := abs_of_nonneg (zero_le_one.trans h₁)
  have herr := R.rnd_err x (habs.symm ▸ h₁) (habs.symm ▸ h₂.trans (by norm_num))
  refine herr.trans ?_
  rw [habs, div_le_div_iff₀ (by positivity) (by positivity)]
  norm_num
  linarith

/-- A quotient of naturals that is no integer keeps its distance from both its neighbours. -/
private theorem fract_bounds {a b : ℕ} (hb : b ≤ 2 ^ 10) (hpos : 0 < a % b) (hmod : a % b < b) :
    1 / 2 ^ 10 ≤ ((a % b : ℕ) : ℚ) / b ∧ ((a % b : ℕ) : ℚ) / b ≤ 1 - 1 / 2 ^ 10 := by
  have hbQ : (0 : ℚ) < b := by exact_mod_cast hpos.trans hmod
  have hb' : (b : ℚ) ≤ 2 ^ 10 := by exact_mod_cast hb
  have hlow : (1 : ℚ) ≤ (a % b : ℕ) := by exact_mod_cast hpos
  have hhigh : ((a % b : ℕ) : ℚ) + 1 ≤ b := by exact_mod_cast hmod
  constructor
  · rw [div_le_div_iff₀ (by positivity) hbQ]
    linarith
  · rw [div_le_iff₀ hbQ]
    linarith

/-- The integer part of a rounded quotient plus a natural is that of the exact one: the quotient
is an integer, or further from the next integer than two roundings can move it. -/
theorem floor_add_nat {a b c : ℕ} (hb : 0 < b) (hab : b ≤ a) (ha : a ≤ 2 ^ 20) (hb' : b ≤ 2 ^ 10)
    (hc : c ≤ 2 ^ 20) : ⌊R.rnd (R.rnd ((a : ℚ) / b) + c)⌋ = (a / b + c : ℕ) := by
  have hbQ : (0 : ℚ) < b := by exact_mod_cast hb
  have hdiv : (a : ℚ) / b = (a / b : ℕ) + (a % b : ℕ) / b := by
    have h : ((b * (a / b) + a % b : ℕ) : ℚ) = a := by rw [Nat.div_add_mod]
    push_cast at h
    field_simp
    linarith
  have hle : a / b ≤ 2 ^ 20 := (Nat.div_le_self a b).trans ha
  have hone : 1 ≤ a / b := (Nat.one_le_div_iff hb).mpr hab
  rcases Nat.eq_zero_or_pos (a % b) with hzero | hpos
  · rw [hdiv, hzero, Nat.cast_zero, zero_div, add_zero, R.rnd_nat (by omega), ← Nat.cast_add,
      R.rnd_nat (by omega), Int.floor_natCast]
  · obtain ⟨hlow, hhigh⟩ := fract_bounds hb' hpos (Nat.mod_lt a hb)
    have hleQ : ((a / b : ℕ) : ℚ) ≤ 2 ^ 20 := by exact_mod_cast hle
    have honeQ : (1 : ℚ) ≤ (a / b : ℕ) := by exact_mod_cast hone
    have hcQ : (c : ℚ) ≤ 2 ^ 20 := by exact_mod_cast hc
    have hc0 : (0 : ℚ) ≤ c := Nat.cast_nonneg c
    have hr := abs_le.mp (R.abs_rnd_sub_le (x := (a : ℚ) / b) (by linarith) (by linarith))
    set r := R.rnd ((a : ℚ) / b)
    have hgap : (1 : ℚ) / 2 ^ 30 + 1 / 2 ^ 30 < 1 / 2 ^ 10 := by norm_num
    have hs := abs_le.mp (R.abs_rnd_sub_le (x := r + c)
      (by linarith [show (1 : ℚ) / 2 ^ 30 ≤ 1 / 2 ^ 10 by norm_num]) (by linarith))
    rw [Int.floor_eq_iff, Int.cast_natCast, Nat.cast_add]
    constructor <;> linarith

end Rounding

end PicoUros
