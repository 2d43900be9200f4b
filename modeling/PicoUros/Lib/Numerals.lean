import Mathlib.Algebra.Field.Rat
import Mathlib.Data.List.TakeWhile
import Mathlib.Data.Nat.Digits.Defs
import Mathlib.Tactic.FieldSimp
import Mathlib.Tactic.Ring

/-!
# Numerals in C strings

`atoi` and `atof` skip white space, take a sign, and read as much as belongs to a numeral. Here they
are functions on lists of bytes, with exact results. Hexadecimal numerals and the names of infinity
and NaN, which `atof` reads too, are left out.

## Main definitions

* `Numeral.atoi`, `Numeral.atof`.
* `Decimal`: a decimal numeral, with `Decimal.text` and `Decimal.val`.

## Main results

* `Numeral.value_append`, `Numeral.value_lt`: the number that a string of digits stands for.
* `Decimal.atof_text`, `Numeral.atoi_of_digits`: a numeral is read as its value.
-/

namespace PicoUros

namespace Numeral

/-! ### Digits -/

/-- `isdigit`. -/
def isDigit (b : UInt8) : Bool := 0x30 ≤ b && b ≤ 0x39

/-- The number that a string of digits stands for. -/
def value (s : List UInt8) : ℕ := Nat.ofDigits 10 (s.reverse.map fun b => b.toNat - 0x30)

theorem value_append (s t : List UInt8) : value (s ++ t) = value s * 10 ^ t.length + value t := by
  rw [value, value, value, List.reverse_append, List.map_append, Nat.ofDigits_append,
    List.length_map, List.length_reverse]
  ring

theorem isDigit_iff {b : UInt8} : isDigit b ↔ 48 ≤ b.toNat ∧ b.toNat ≤ 57 := by
  simp [isDigit, UInt8.le_iff_toNat_le]

theorem value_lt {s : List UInt8} (h : ∀ b ∈ s, isDigit b) : value s < 10 ^ s.length := by
  have hlt : ∀ d ∈ s.reverse.map fun b => b.toNat - 0x30, d < 10 := by
    intro d hd
    obtain ⟨b, hb, rfl⟩ := List.mem_map.mp hd
    have hdigit := isDigit_iff.mp (h b (List.mem_reverse.mp hb))
    omega
  have hpow := Nat.ofDigits_lt_base_pow_length (by decide) hlt
  rwa [List.length_map, List.length_reverse] at hpow

/-! ### Reading -/

/-- `isspace`. -/
def isSpace (b : UInt8) : Bool := b == 0x20 || (0x09 ≤ b && b ≤ 0x0D)

/-- Whether a minus sign comes first, and the string behind the sign. -/
def readSign : List UInt8 → Bool × List UInt8
  | 0x2D :: t => (true, t)
  | 0x2B :: t => (false, t)
  | s => (false, s)

/-- The digits behind a point that comes first, and the string behind them. -/
def readFraction : List UInt8 → List UInt8 × List UInt8
  | 0x2E :: t => (t.takeWhile isDigit, t.dropWhile isDigit)
  | s => ([], s)

/-- A number with a sign. -/
def signed {R : Type*} [Neg R] (neg : Bool) (x : R) : R := if neg then -x else x

/-- The exponent that comes first: `e` or `E`, a sign and digits. -/
def readExponent : List UInt8 → ℤ
  | [] => 0
  | b :: t =>
    if b = 0x65 ∨ b = 0x45 then
      let (neg, u) := readSign t
      signed neg (value (u.takeWhile isDigit))
    else 0

/-- `atoi`. -/
def atoi (s : List UInt8) : ℤ :=
  let (neg, t) := readSign (s.dropWhile isSpace)
  signed neg (value (t.takeWhile isDigit))

/-- `atof`. -/
def atof (s : List UInt8) : ℚ :=
  let (neg, t) := readSign (s.dropWhile isSpace)
  let whole := t.takeWhile isDigit
  let (frac, rest) := readFraction (t.dropWhile isDigit)
  signed neg (value (whole ++ frac) / 10 ^ frac.length * 10 ^ readExponent rest)

theorem not_isSpace_of_isDigit {b : UInt8} (h : isDigit b) : isSpace b = false := by
  have hdigit := isDigit_iff.mp h
  have hne : b ≠ 0x20 := by
    rintro rfl
    exact absurd hdigit.1 (by decide)
  have hle : ¬ b ≤ 0x0D := by
    rw [UInt8.le_iff_toNat_le, show (0x0D : UInt8).toNat = 13 from rfl]
    omega
  simp [isSpace, hne, hle]

theorem readSign_of_isDigit {b : UInt8} (h : isDigit b) (s : List UInt8) :
    readSign (b :: s) = (false, b :: s) := by
  have hdigit := isDigit_iff.mp h
  unfold readSign
  split
  · next heq =>
    cases heq
    exact absurd hdigit.1 (by decide)
  · next heq =>
    cases heq
    exact absurd hdigit.1 (by decide)
  · rfl

/-- A string of digits is read as its value. -/
theorem atoi_of_digits {s : List UInt8} (h : ∀ b ∈ s, isDigit b) : atoi s = value s := by
  cases s with
  | nil => rfl
  | cons b s =>
    have hb := h b List.mem_cons_self
    rw [atoi, List.dropWhile_cons_of_neg (by rw [not_isSpace_of_isDigit hb]; decide),
      readSign_of_isDigit hb]
    simp only [signed, Bool.false_eq_true, if_false]
    rw [List.takeWhile_eq_self_iff.mpr h]

end Numeral

/-! ### Decimal numerals -/

open Numeral

/-- A decimal numeral: possibly a minus sign, digits, and possibly a point and digits. -/
structure Decimal where
  neg : Bool
  whole : List UInt8
  /-- The digits behind the point, if there is one. -/
  frac : Option (List UInt8)
  isDigit_whole : ∀ b ∈ whole, isDigit b
  isDigit_frac : ∀ b ∈ frac.getD [], isDigit b
  ne_nil : whole ++ frac.getD [] ≠ []

namespace Decimal

variable (d : Decimal)

/-- The digits behind the point. -/
def fracDigits : List UInt8 := d.frac.getD []

/-- The numeral without its sign. -/
def unsignedText : List UInt8 := d.whole ++ d.frac.elim [] fun f => 0x2E :: f

def text : List UInt8 := (if d.neg then [0x2D] else []) ++ d.unsignedText

/-- The number without its sign. -/
def abs : ℚ := value (d.whole ++ d.fracDigits) / 10 ^ d.fracDigits.length

def val : ℚ := signed d.neg d.abs

/-- The first byte of a numeral without a sign is a digit or the point. -/
theorem exists_unsignedText :
    ∃ b s, d.unsignedText = b :: s ∧ (isDigit b ∨ b = 0x2E) := by
  obtain ⟨neg, whole, frac, hwhole, hfrac, hne⟩ := d
  cases whole with
  | cons b s => exact ⟨b, _, rfl, .inl (hwhole b List.mem_cons_self)⟩
  | nil =>
    cases frac with
    | none => exact absurd rfl hne
    | some f => exact ⟨0x2E, f, rfl, .inr rfl⟩

/-- A numeral has no other bytes than digits, a sign and a point. -/
theorem mem_text {b : UInt8} (h : b ∈ d.text) : isDigit b ∨ b = 0x2D ∨ b = 0x2E := by
  rcases List.mem_append.mp h with h | h
  · split_ifs at h
    · exact .inr (.inl (List.mem_singleton.mp h))
    · exact absurd h List.not_mem_nil
  · rcases List.mem_append.mp h with h | h
    · exact .inl (d.isDigit_whole b h)
    · have hfrac := d.isDigit_frac
      cases hd : d.frac with
      | none =>
        rw [hd] at h
        exact absurd h List.not_mem_nil
      | some f =>
        rw [hd] at h hfrac
        rcases List.mem_cons.mp h with h | h
        · exact .inr (.inr h)
        · exact .inl (hfrac b h)

theorem text_ne_nil : d.text ≠ [] := by
  obtain ⟨b, s, heq, -⟩ := d.exists_unsignedText
  rw [text, heq]
  exact List.append_ne_nil_of_right_ne_nil _ (List.cons_ne_nil _ _)

theorem readSign_text : readSign (d.text.dropWhile isSpace) = (d.neg, d.unsignedText) := by
  obtain ⟨b, s, heq, hb⟩ := d.exists_unsignedText
  rw [text, heq]
  cases hneg : d.neg with
  | true => rfl
  | false =>
    rcases hb with hb | rfl
    · simp only [Bool.false_eq_true, if_false, List.nil_append]
      rw [List.dropWhile_cons_of_neg (by rw [not_isSpace_of_isDigit hb]; decide),
        readSign_of_isDigit hb]
    · rfl

theorem takeWhile_unsignedText : d.unsignedText.takeWhile isDigit = d.whole := by
  rw [unsignedText, List.takeWhile_append_of_pos d.isDigit_whole]
  cases d.frac with
  | none => exact List.append_nil _
  | some f => exact List.append_nil _

theorem readFraction_unsignedText :
    readFraction (d.unsignedText.dropWhile isDigit) = (d.fracDigits, []) := by
  have hfrac := d.isDigit_frac
  rw [unsignedText, List.dropWhile_append_of_pos d.isDigit_whole, fracDigits]
  cases hd : d.frac with
  | none => rfl
  | some f =>
    rw [hd] at hfrac
    have htake := List.takeWhile_eq_self_iff.mpr hfrac
    have hdrop := List.dropWhile_eq_nil_iff.mpr hfrac
    exact Prod.ext htake hdrop

/-- **A decimal numeral is read as its value.** -/
theorem atof_text : atof d.text = d.val := by
  rw [atof, d.readSign_text]
  simp only [d.takeWhile_unsignedText, d.readFraction_unsignedText, readExponent, zpow_zero,
    mul_one]
  rfl

end Decimal

end PicoUros
