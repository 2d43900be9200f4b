import Mathlib.Data.List.Basic
import Mathlib.Data.Nat.ModEq

/-!
# Windows of a circular store

Element number `i` of a stream is kept in slot `i % N` of a store with `N` slots.
`ringWindow N ring a b` reads the elements number `a`, …, `b - 1` back. While fewer than `N`
elements are between `a` and `b`, writing element number `b` does not disturb the window.

## Main results

* `ringWindow_concat`, `ringWindow_eq_cons`: the window grows on the right and shrinks on the left.
* `ringWindow_update`: a write to the slot behind the window.
-/

namespace PicoUros

variable {α : Type*} {N : ℕ} {ring : ℕ → α} {a b : ℕ}

/-- The elements number `a`, …, `b - 1` of a stream kept in a circular store of `N` slots. -/
def ringWindow (N : ℕ) (ring : ℕ → α) (a b : ℕ) : List α :=
  (List.range' a (b - a)).map fun i => ring (i % N)

@[simp] theorem length_ringWindow : (ringWindow N ring a b).length = b - a := by
  simp [ringWindow]

@[simp] theorem ringWindow_self : ringWindow N ring a a = [] := by
  simp [ringWindow]

theorem ringWindow_concat (h : a ≤ b) :
    ringWindow N ring a (b + 1) = ringWindow N ring a b ++ [ring (b % N)] := by
  have hlen : b + 1 - a = (b - a) + 1 := by omega
  rw [ringWindow, hlen, List.range'_concat, List.map_append, List.map_singleton, Nat.one_mul,
    Nat.add_sub_cancel' h]
  rfl

theorem ringWindow_eq_cons (h : a < b) :
    ringWindow N ring a b = ring (a % N) :: ringWindow N ring (a + 1) b := by
  have hlen : b - a = (b - (a + 1)) + 1 := by omega
  rw [ringWindow, hlen, List.range'_succ, List.map_cons]
  rfl

/-- The window only reads the slots of its own elements. -/
theorem ringWindow_update (h : b < a + N) (x : α) :
    ringWindow N (Function.update ring (b % N) x) a b = ringWindow N ring a b := by
  refine List.map_congr_left fun i hi => ?_
  have hi' := List.mem_range'_1.mp hi
  refine Function.update_of_ne (fun heq => ?_) _ _
  have hdvd : N ∣ b - i := (Nat.modEq_iff_dvd' (by omega)).mp heq
  have hle := Nat.le_of_dvd (by omega) hdvd
  omega

end PicoUros
