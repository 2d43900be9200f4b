import Mathlib.Data.List.Basic

/-!
# Bounded FIFO queues

`BoundedFifo cap α` is a first-in first-out queue that holds at most `cap` elements; the bound is
a field of the structure. Adding fails on a full queue and removing fails on an empty one, and
neither waits. This is what a queue guarded by a lock looks like to the parties that use it, one
call being one atomic step.

## Main definitions

* `BoundedFifo.tryAdd`, `BoundedFifo.tryRemove`.

## Main results

* `BoundedFifo.tryAdd_eq_some_iff`, `BoundedFifo.tryAdd_eq_none_iff`,
  `BoundedFifo.tryRemove_eq_some_iff`, `BoundedFifo.tryRemove_eq_none_iff`: what each call does, by
  its result.
-/

namespace PicoUros

/-- A first-in first-out queue of at most `cap` elements, the oldest in front. -/
structure BoundedFifo (cap : ℕ) (α : Type*) where
  items : List α
  length_le : items.length ≤ cap

namespace BoundedFifo

variable {cap : ℕ} {α : Type*}

@[ext] theorem ext {q q' : BoundedFifo cap α} (h : q.items = q'.items) : q = q' := by
  cases q
  cases q'
  cases h
  rfl

/-- The empty queue. -/
def empty (cap : ℕ) (α : Type*) : BoundedFifo cap α := ⟨[], Nat.zero_le _⟩

/-- Append an element, or fail on a full queue. -/
def tryAdd (q : BoundedFifo cap α) (a : α) : Option (BoundedFifo cap α) :=
  if h : q.items.length < cap then some ⟨q.items ++ [a], by simpa using Nat.succ_le_of_lt h⟩
  else none

/-- Take the oldest element, or fail on an empty queue. -/
def tryRemove : BoundedFifo cap α → Option (α × BoundedFifo cap α)
  | ⟨[], _⟩ => none
  | ⟨a :: l, h⟩ => some (a, ⟨l, Nat.le_of_succ_le h⟩)

theorem tryAdd_eq_some_iff {q q' : BoundedFifo cap α} {a : α} :
    q.tryAdd a = some q' ↔ q.items.length < cap ∧ q'.items = q.items ++ [a] := by
  unfold tryAdd
  split_ifs with h
  · rw [Option.some_inj]
    exact ⟨fun hq => hq ▸ ⟨h, rfl⟩, fun hq => BoundedFifo.ext hq.2.symm⟩
  · simp [h]

theorem tryAdd_eq_none_iff {q : BoundedFifo cap α} {a : α} :
    q.tryAdd a = none ↔ q.items.length = cap := by
  have hle := q.length_le
  unfold tryAdd
  split_ifs with h
  · simp only [false_iff]
    omega
  · simp only [true_iff]
    omega

theorem tryRemove_eq_some_iff {q q' : BoundedFifo cap α} {a : α} :
    q.tryRemove = some (a, q') ↔ q.items = a :: q'.items := by
  obtain ⟨_ | ⟨b, l⟩, h⟩ := q
  · simp [tryRemove]
  · simp only [tryRemove, Option.some_inj, Prod.mk.injEq, List.cons.injEq]
    exact and_congr_right fun _ => ⟨fun hq => hq ▸ rfl, fun hq => BoundedFifo.ext hq⟩

theorem tryRemove_eq_none_iff {q : BoundedFifo cap α} : q.tryRemove = none ↔ q.items = [] := by
  obtain ⟨_ | ⟨b, l⟩, h⟩ := q <;> simp [tryRemove]

end BoundedFifo

end PicoUros
