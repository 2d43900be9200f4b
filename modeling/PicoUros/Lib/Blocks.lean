import Mathlib.Data.List.Basic
import Mathlib.Data.List.Infix

/-!
# Positions in a stream of blocks

A stream of records is the concatenation `l.flatMap f` of the encodings `f b` of a list `l` of
blocks. A position in it is the start of a block, or lies inside one, and never both.

## Main definitions

* `BlockStart f l p`: a block of `l.flatMap f` starts at `p`.
* `InsideBlock f l p`: `p` lies behind the start of a block of `l.flatMap f`, and before its end.

## Main results

* `BlockStart.append`, `InsideBlock.append`: both are kept when blocks are added at the end.
* `InsideBlock.not_blockStart`: a position inside a block is not a start.
-/

namespace PicoUros

variable {α β : Type*} {f : β → List α} {l l' : List β} {p : ℕ}

def BlockStart (f : β → List α) (l : List β) (p : ℕ) : Prop :=
  ∃ pre b post, l = pre ++ b :: post ∧ p = (pre.flatMap f).length

def InsideBlock (f : β → List α) (l : List β) (p : ℕ) : Prop :=
  ∃ pre b post, l = pre ++ b :: post ∧ (pre.flatMap f).length < p ∧
    p < (pre.flatMap f).length + (f b).length

theorem BlockStart.append (h : BlockStart f l p) (l' : List β) : BlockStart f (l ++ l') p := by
  obtain ⟨pre, b, post, rfl, hp⟩ := h
  exact ⟨pre, b, post ++ l', by rw [List.append_assoc, List.cons_append], hp⟩

theorem InsideBlock.append (h : InsideBlock f l p) (l' : List β) : InsideBlock f (l ++ l') p := by
  obtain ⟨pre, b, post, rfl, hp⟩ := h
  exact ⟨pre, b, post ++ l', by rw [List.append_assoc, List.cons_append], hp⟩

theorem length_flatMap_le (f : β → List α) {pre pre' : List β} (h : pre <+: pre') :
    (pre.flatMap f).length ≤ (pre'.flatMap f).length := by
  obtain ⟨rest, rfl⟩ := h
  rw [List.flatMap_append, List.length_append]
  exact Nat.le_add_right _ _

/-- **A position inside a block is not the start of a block.** -/
theorem InsideBlock.not_blockStart (h : InsideBlock f l p) : ¬ BlockStart f l p := by
  rintro ⟨pre', b', post', hl', rfl⟩
  obtain ⟨pre, b, post, hl, hlt, hlt'⟩ := h
  have hpre : pre <+: l := ⟨b :: post, hl.symm⟩
  have hpre' : pre' <+: l := ⟨b' :: post', hl'.symm⟩
  have hpreb : pre ++ [b] <+: l := ⟨post, by rw [hl, List.append_assoc]; rfl⟩
  rcases Nat.lt_or_ge pre.length pre'.length with hlen | hlen
  · -- The block `b` is among those in front of the start.
    have hle := length_flatMap_le f (List.prefix_of_prefix_length_le hpreb hpre' (by simpa))
    rw [List.flatMap_append, List.length_append, List.flatMap_singleton] at hle
    omega
  · have hle := length_flatMap_le f (List.prefix_of_prefix_length_le hpre' hpre hlen)
    omega

end PicoUros
