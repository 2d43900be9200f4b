import Mathlib.Data.List.Induction

/-!
# Machines with a partial step function

A machine is a partial step function `step : σ → α → Option σ`. The action `α` carries every
choice that the scheduler or the environment makes, so an interleaving of several parties is a
list of actions, and `none` means that the action is not enabled in the state.

* `run step s as` performs the actions `as` from `s`, all of them or none.

## Main results

* `run_append`: runs are composed.
* `inv_of_run`: the invariant rule, what one step preserves, a run preserves.
-/

namespace PicoUros.Machine

variable {σ α : Type*} (step : σ → α → Option σ)

/-- Perform the actions of a list in order; `none` when one of them is not enabled. -/
def run : σ → List α → Option σ
  | s, [] => some s
  | s, a :: as => (step s a).bind fun t => run t as

@[simp] theorem run_nil (s : σ) : run step s [] = some s := rfl

@[simp] theorem run_cons (s : σ) (a : α) (as : List α) :
    run step s (a :: as) = (step s a).bind fun t => run step t as := rfl

theorem run_append (s : σ) (as bs : List α) :
    run step s (as ++ bs) = (run step s as).bind fun t => run step t bs := by
  induction as generalizing s with
  | nil => rfl
  | cons a as ih =>
    rw [List.cons_append, run_cons, run_cons, Option.bind_assoc]
    exact congrArg _ (funext fun t => ih t)

variable {step}

/-- **The invariant rule.** What every step preserves holds at the end of a run. -/
theorem inv_of_run {Inv : σ → Prop} (hstep : ∀ s a t, Inv s → step s a = some t → Inv t)
    {s t : σ} {as : List α} (hs : Inv s) (h : run step s as = some t) : Inv t := by
  induction as generalizing s with
  | nil =>
    cases h
    exact hs
  | cons a as ih =>
    obtain ⟨u, hu, h⟩ := Option.bind_eq_some_iff.mp h
    exact ih (hstep s a u hs hu) h

end PicoUros.Machine
