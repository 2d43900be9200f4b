import Mathlib.Data.List.Infix
import Mathlib.Data.UInt

/-!
# Frames in a stream

A receiver finds a frame by its first occurrence of a header, and the end of the frame by what the
frame says of itself. A checksum is the complement of the sum of the bytes.

## Main definitions

* `FirstAt pat junk`: behind `junk` the pattern `pat` occurs for the first time.
* `PrefixFree code`: no word of a code is the beginning of another one.
* `checksum`: the complement of a sum of bytes.

## Main results

* `FirstAt.unique`: there is one first occurrence.
* `PrefixFree.flatMap_injective`: the words of a stream can be read back.
* `checksum_ne_of_changed`, `eq_of_checksums`: the checksum shows that a byte was changed.
-/

namespace PicoUros

variable {α β : Type*}

/-! ### The first occurrence of a pattern -/

/-- The pattern does not occur in what is in front of its last element. -/
def FirstAt (pat junk : List α) : Prop := ¬ pat <:+: junk ++ pat.dropLast

instance [DecidableEq α] (pat junk : List α) : Decidable (FirstAt pat junk) :=
  inferInstanceAs (Decidable (¬ _))

/-- The two occurrences of the pattern in a list are not both the first one, if one comes before the
other. -/
theorem FirstAt.le {pat junk junk' r r' : List α} (hpat : pat ≠ []) (h' : FirstAt pat junk')
    (heq : junk ++ (pat ++ r) = junk' ++ (pat ++ r')) : junk'.length ≤ junk.length := by
  by_contra hlt
  rw [not_le] at hlt
  have hend := List.dropLast_append_getLast hpat
  have hlen := congrArg List.length hend
  rw [List.length_append, List.length_singleton] at hlen
  have hfst : junk ++ pat <+: junk ++ (pat ++ r) := ⟨r, List.append_assoc ..⟩
  have hsnd : junk' ++ pat.dropLast <+: junk ++ (pat ++ r) :=
    ⟨[pat.getLast hpat] ++ r', by rw [heq, ← List.append_assoc, List.append_assoc junk', hend,
      List.append_assoc]⟩
  have hle : (junk ++ pat).length ≤ (junk' ++ pat.dropLast).length := by
    simp only [List.length_append]
    omega
  exact h' ((List.suffix_append junk pat).isInfix.trans
    (List.prefix_of_prefix_length_le hfst hsnd hle).isInfix)

/-- **The first occurrence of a pattern is at one place only.** -/
theorem FirstAt.unique {pat junk junk' r r' : List α} (hpat : pat ≠ []) (h : FirstAt pat junk)
    (h' : FirstAt pat junk') (heq : junk ++ (pat ++ r) = junk' ++ (pat ++ r')) :
    junk = junk' ∧ r = r' := by
  have hlen := Nat.le_antisymm (h.le hpat heq.symm) (h'.le hpat heq)
  obtain ⟨hjunk, hrest⟩ := List.append_inj heq hlen
  exact ⟨hjunk, List.append_cancel_left hrest⟩

/-! ### Codes -/

/-- A word is known by any stream that begins with it. -/
def PrefixFree (code : α → List β) : Prop :=
  ∀ a b r r', code a ++ r = code b ++ r' → a = b

/-- **The words of a stream can be read back.** -/
theorem PrefixFree.flatMap_injective {code : α → List β} (h : PrefixFree code)
    (hne : ∀ a, code a ≠ []) : Function.Injective fun l : List α => l.flatMap code := by
  intro l l' heq
  simp only at heq
  induction l generalizing l' with
  | nil =>
    cases l' with
    | nil => rfl
    | cons b l' =>
      rw [List.flatMap_nil, List.flatMap_cons] at heq
      exact absurd (List.append_eq_nil_iff.mp heq.symm).1 (hne b)
  | cons a l ih =>
    cases l' with
    | nil =>
      rw [List.flatMap_nil, List.flatMap_cons] at heq
      exact absurd (List.append_eq_nil_iff.mp heq).1 (hne a)
    | cons b l' =>
      rw [List.flatMap_cons, List.flatMap_cons] at heq
      obtain rfl := h a b _ _ heq
      rw [ih (List.append_cancel_left heq)]

/-! ### Checksums -/

/-- The complement of the sum. -/
def checksum (l : List UInt8) : UInt8 := ~~~ l.sum

theorem checksum_inj {l l' : List UInt8} : checksum l = checksum l' ↔ l.sum = l'.sum := by
  rw [checksum, checksum, UInt8.not_inj]

/-- **A change of one byte changes the checksum.** -/
theorem checksum_ne_of_changed {l r : List UInt8} {a b : UInt8} (h : a ≠ b) :
    checksum (l ++ a :: r) ≠ checksum (l ++ b :: r) := by
  rw [Ne, checksum_inj, List.sum_append, List.sum_append, List.sum_cons, List.sum_cons]
  intro heq
  have hsum := congrArg UInt8.toNat heq
  apply h
  apply UInt8.toNat_inj.mp
  have ha := a.toNat_lt
  have hb := b.toNat_lt
  simp only [UInt8.toNat_add] at hsum
  omega

/-- **Two words with their checksums do not differ in one byte only.** -/
theorem eq_of_checksums {w w' l r : List UInt8} {a b : UInt8} (h : w ++ [checksum w] = l ++ a :: r)
    (h' : w' ++ [checksum w'] = l ++ b :: r) : a = b := by
  by_contra hne
  rcases List.eq_nil_or_concat r with rfl | ⟨r, c, rfl⟩
  · obtain ⟨rfl, hck⟩ := List.append_inj' h rfl
    obtain ⟨rfl, hck'⟩ := List.append_inj' h' rfl
    exact hne ((List.cons.inj hck).1.symm.trans (List.cons.inj hck').1)
  · rw [List.concat_eq_append, ← List.cons_append, ← List.append_assoc] at h h'
    obtain ⟨rfl, hck⟩ := List.append_inj' h rfl
    obtain ⟨rfl, hck'⟩ := List.append_inj' h' rfl
    exact checksum_ne_of_changed hne ((List.cons.inj hck).1.trans (List.cons.inj hck').1.symm)

end PicoUros
