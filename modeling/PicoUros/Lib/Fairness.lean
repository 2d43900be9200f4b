import PicoUros.Lib.Machine
import Mathlib.Order.Monotone.Basic

/-!
# Infinite executions and weak fairness

A machine that never stops has infinite executions. What it does sooner or later is proved under a
fairness assumption: a party that can move all the time does move. The rule for this counts down a
rank that no other party raises.

## Main definitions

* `Execution`: an infinite execution of a machine with a partial step function.
* `Execution.ofRun`: a finite run and one action for ever after.
* `Execution.WeaklyFair`: actions of one kind are not delayed forever.

## Main results

* `Execution.inv`: what every step preserves holds from any moment on.
* `Execution.goal_or_busy`: what holds until a goal is reached.
* `Execution.eventually_of_rank`: a rank that falls with every move of one party leads to the goal.
-/

namespace PicoUros.Machine

variable {σ α : Type*}

structure Execution (step : σ → α → Option σ) where
  state : ℕ → σ
  act : ℕ → α
  next : ∀ n, step (state n) (act n) = some (state (n + 1))

namespace Execution

variable {step : σ → α → Option σ} (e : Execution step)

/-- A finite run that goes on with the action `idle` for ever. -/
def ofRun {s t : σ} {as : List α} (h : run step s as = some t) (idle : α) (loop : ℕ → σ)
    (hzero : loop 0 = t) (hloop : ∀ n, step (loop n) idle = some (loop (n + 1))) :
    Execution step where
  state n := if n < as.length then (run step s (as.take n)).getD s else loop (n - as.length)
  act n := as[n]?.getD idle
  next n := by
    by_cases hn : n < as.length
    · have hsplit := h
      rw [← List.take_append_drop n as, run_append, List.drop_eq_getElem_cons hn] at hsplit
      obtain ⟨u, hu, hsplit⟩ := Option.bind_eq_some_iff.mp hsplit
      obtain ⟨v, hv, hrest⟩ := Option.bind_eq_some_iff.mp hsplit
      have htake : run step s (as.take (n + 1)) = some v := by
        rw [List.take_succ_eq_append_getElem hn, run_append, hu, Option.bind_some, run_cons, hv]
        rfl
      rw [if_pos hn, hu, List.getElem?_eq_getElem hn, Option.getD_some, Option.getD_some, hv]
      split_ifs with hlt
      · rw [htake, Option.getD_some]
      · have hlen : n + 1 = as.length := by omega
        rw [hlen, List.take_length, h] at htake
        rw [hlen, Nat.sub_self, hzero, htake]
    · rw [if_neg hn, if_neg (by omega), List.getElem?_eq_none (by omega), Option.getD_none, hloop,
        Nat.succ_sub (by omega)]

/-- Actions of the kind `P` are taken again and again, unless there are moments at which none of
them is enabled. -/
def WeaklyFair (P : α → Prop) : Prop :=
  ∀ n, (∀ m, n ≤ m → ∃ a, P a ∧ (step (e.state m) a).isSome) → ∃ m, n ≤ m ∧ P (e.act m)

variable {e}

/-- It is enough that an action of the kind is enabled from some later moment on. -/
theorem WeaklyFair.exists_act {P : α → Prop} (h : e.WeaklyFair P) {k n : ℕ} (hk : n ≤ k)
    (henabled : ∀ m, k ≤ m → ∃ a, P a ∧ (step (e.state m) a).isSome) :
    ∃ m, n ≤ m ∧ P (e.act m) := by
  obtain ⟨m, hm, hact⟩ := h k henabled
  exact ⟨m, hk.trans hm, hact⟩

/-- The invariant rule for executions. -/
theorem inv {Inv : σ → Prop} (hstep : ∀ s a t, Inv s → step s a = some t → Inv t) {m : ℕ}
    (hm : Inv (e.state m)) {n : ℕ} (hn : m ≤ n) : Inv (e.state n) := by
  induction n, hn using Nat.le_induction with
  | base => exact hm
  | succ n _ ih => exact hstep _ _ _ ih (e.next n)

/-- What every step keeps or ends by reaching a goal, holds until the goal is reached. -/
theorem goal_or_busy {busy goal : σ → Prop}
    (hstep : ∀ s a t, busy s → step s a = some t → goal t ∨ busy t) {m : ℕ}
    (hm : busy (e.state m)) {n : ℕ} (hn : m ≤ n) :
    (∃ k, m ≤ k ∧ k ≤ n ∧ goal (e.state k)) ∨ busy (e.state n) := by
  induction n, hn using Nat.le_induction with
  | base => exact .inr hm
  | succ n hn ih =>
    rcases ih with ⟨k, hmk, hkn, hk⟩ | hbusy
    · exact .inl ⟨k, hmk, hkn.trans n.le_succ, hk⟩
    · rcases hstep _ _ _ hbusy (e.next n) with hgoal | hbusy
      · exact .inl ⟨n + 1, hn.trans n.le_succ, le_rfl, hgoal⟩
      · exact .inr hbusy

/-- A quantity that never falls and has no bound passes every value, after any moment. -/
theorem exists_le_of_unbounded {f : σ → ℕ} (hmono : ∀ n, f (e.state n) ≤ f (e.state (n + 1)))
    (h : ∀ b, ∃ n, b ≤ f (e.state n)) (b n : ℕ) : ∃ m, n ≤ m ∧ ∀ k, m ≤ k → b ≤ f (e.state k) := by
  have hmono : Monotone fun n => f (e.state n) := monotone_nat_of_le_succ hmono
  obtain ⟨m, hm⟩ := h b
  refine ⟨max n m, le_max_left n m, fun k hk => hm.trans (hmono ?_)⟩
  exact (le_max_right n m).trans hk

/-- **The ranking rule.** Until the goal is reached no step raises the rank, and each step of the
kind `P` lowers it. If there is always another step of this kind, the goal is reached. -/
theorem eventually_of_rank (busy : σ → Prop) {goal : σ → Prop} {P : α → Prop} {rank : σ → ℕ}
    (hstep : ∀ s a t, busy s → step s a = some t →
      goal t ∨ (busy t ∧ rank t ≤ rank s ∧ (P a → rank t < rank s)))
    (hmoves : ∀ n, (∀ m, n ≤ m → busy (e.state m)) → ∃ m, n ≤ m ∧ P (e.act m)) {n : ℕ}
    (hn : busy (e.state n)) : ∃ m, n ≤ m ∧ goal (e.state m) := by
  induction hr : rank (e.state n) using Nat.strong_induction_on generalizing n with
  | _ r ih =>
    subst hr
    by_contra hnot
    have hnot : ∀ m, n ≤ m → ¬ goal (e.state m) := fun m hm hgoal => hnot ⟨m, hm, hgoal⟩
    have hbusy : ∀ m, n ≤ m → busy (e.state m) ∧ rank (e.state m) ≤ rank (e.state n) := by
      intro m hm
      induction m, hm using Nat.le_induction with
      | base => exact ⟨hn, le_rfl⟩
      | succ m hm ih =>
        rcases hstep _ _ _ ih.1 (e.next m) with hgoal | ⟨hbusy, hle, -⟩
        · exact (hnot (m + 1) (hm.trans m.le_succ) hgoal).elim
        · exact ⟨hbusy, hle.trans ih.2⟩
    obtain ⟨m, hm, hact⟩ := hmoves n fun m hm => (hbusy m hm).1
    obtain ⟨hbusym, hlem⟩ := hbusy m hm
    rcases hstep _ _ _ hbusym (e.next m) with hgoal | ⟨hnext, -, hlt⟩
    · exact hnot (m + 1) (hm.trans m.le_succ) hgoal
    · obtain ⟨k, hk, hgoal⟩ := ih _ ((hlt hact).trans_le hlem) hnext rfl
      exact hnot k ((hm.trans m.le_succ).trans hk) hgoal

end Execution

end PicoUros.Machine
