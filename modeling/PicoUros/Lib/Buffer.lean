import Mathlib.Data.List.Basic
import Mathlib.Data.List.Infix

/-!
# Buffers of a fixed size

A buffer has room for `n` elements. Elements are copied into it, and out of it, at a position; a
copy that would pass the end of the buffer is refused. So an access out of bounds is a value of
the model, not an undefined one.

## Main definitions

* `Buffer.write b i l`: `b` with the elements `l` at the positions from `i` on.
* `Buffer.read b i k`: the `k` elements from the position `i` on.

## Main results

* `Buffer.write_eq_some_iff`, `Buffer.read_eq_some_iff`: an access succeeds exactly within bounds.
* `Buffer.take_write`: the elements in front of the end of a copy.
-/

namespace PicoUros

/-- `n` elements of type `α`. -/
structure Buffer (n : ℕ) (α : Type*) where
  elems : List α
  length_elems : elems.length = n

namespace Buffer

variable {n : ℕ} {α : Type*}

@[ext]
theorem ext {b c : Buffer n α} (h : b.elems = c.elems) : b = c := by
  cases b
  cases c
  cases h
  rfl

instance [DecidableEq α] : DecidableEq (Buffer n α) := fun b c =>
  decidable_of_iff (b.elems = c.elems) ⟨ext, congrArg elems⟩

/-- A buffer that holds the same element everywhere. -/
def fill (n : ℕ) (a : α) : Buffer n α := ⟨List.replicate n a, List.length_replicate⟩

/-- The elements `l` in place of those from the position `i` on. -/
def overwrite (m : List α) (i : ℕ) (l : List α) : List α := m.take i ++ l ++ m.drop (i + l.length)

theorem length_overwrite {m l : List α} {i : ℕ} (h : i + l.length ≤ m.length) :
    (overwrite m i l).length = m.length := by
  simp only [overwrite, List.length_append, List.length_take, List.length_drop]
  omega

/-- Copy `l` into the buffer, from the position `i` on. -/
def write (b : Buffer n α) (i : ℕ) (l : List α) : Option (Buffer n α) :=
  if h : i + l.length ≤ n then
    some
      ⟨overwrite b.elems i l, by
        rw [length_overwrite (h.trans b.length_elems.ge), b.length_elems]⟩
  else none

/-- Copy `k` elements out of the buffer, from the position `i` on. -/
def read (b : Buffer n α) (i k : ℕ) : Option (List α) :=
  if i + k ≤ n then some ((b.elems.drop i).take k) else none

variable {b c : Buffer n α} {i k : ℕ} {l : List α}

theorem write_eq_some_iff :
    b.write i l = some c ↔ i + l.length ≤ n ∧ c.elems = overwrite b.elems i l := by
  unfold write
  split_ifs with h
  · rw [Option.some.injEq]
    exact ⟨fun hc => ⟨h, hc ▸ rfl⟩, fun hc => ext hc.2.symm⟩
  · exact iff_of_false id fun hc => h hc.1

theorem write_eq_none_iff : b.write i l = none ↔ n < i + l.length := by
  unfold write
  split_ifs with h
  · exact iff_of_false id h.not_gt
  · exact iff_of_true rfl (not_le.mp h)

theorem exists_write (h : i + l.length ≤ n) : ∃ c, b.write i l = some c := by
  rw [← Option.ne_none_iff_exists', ne_eq, write_eq_none_iff]
  exact h.not_gt

theorem read_eq_some_iff :
    b.read i k = some l ↔ i + k ≤ n ∧ l = (b.elems.drop i).take k := by
  unfold read
  split_ifs with h
  · rw [Option.some.injEq]
    exact ⟨fun hl => ⟨h, hl.symm⟩, fun hl => hl.2.symm⟩
  · exact iff_of_false id fun hl => h hl.1

/-- Behind a copy at `i` the buffer starts with what it had in front of `i`, and the copy. -/
theorem take_write (h : b.write i l = some c) :
    c.elems.take (i + l.length) = b.elems.take i ++ l := by
  obtain ⟨hle, hc⟩ := write_eq_some_iff.mp h
  have hlen : (b.elems.take i ++ l).length = i + l.length := by
    rw [List.length_append, List.length_take, b.length_elems, min_eq_left (by omega)]
  rw [hc, overwrite, ← hlen, List.take_left]

end Buffer

end PicoUros
