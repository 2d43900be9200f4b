import Mathlib.Data.Int.DivMod
import Mathlib.Data.Nat.Digits.Defs

/-!
# Numbers as bytes, the lowest byte first

* `leNat`: the number that bytes stand for.
* `leBytes k n`: the number `n` as `k` bytes. What does not fit is cut off.
* `leInt k l`: the number that the first `k` bytes of `l` stand for in two's complement.

## Main results

* `leNat_leBytes`, `leInt_leBytes`: the round trips.
-/

namespace PicoUros

/-- The number that bytes stand for, the lowest byte first. -/
def leNat (l : List UInt8) : ℕ := Nat.ofDigits 256 (l.map UInt8.toNat)

/-- The bytes of a number, the lowest first. -/
def leBytes : ℕ → ℕ → List UInt8
  | 0, _ => []
  | k + 1, n => UInt8.ofNat n :: leBytes k (n / 256)

/-- The number that `k` bytes stand for in two's complement. -/
def leInt (k : ℕ) (l : List UInt8) : ℤ := Int.bmod (leNat (l.take k)) (256 ^ k)

theorem length_leBytes (k n : ℕ) : (leBytes k n).length = k := by
  induction k generalizing n with
  | zero => rfl
  | succ k ih => rw [leBytes, List.length_cons, ih]

theorem leNat_cons (b : UInt8) (l : List UInt8) : leNat (b :: l) = b.toNat + 256 * leNat l :=
  Nat.ofDigits_cons ..

theorem leNat_leBytes (k n : ℕ) : leNat (leBytes k n) = n % 256 ^ k := by
  induction k generalizing n with
  | zero => simp [leBytes, leNat, Nat.mod_one]
  | succ k ih =>
    have hmod : n % 2 ^ 8 = n % 256 := rfl
    rw [leBytes, leNat_cons, ih, UInt8.toNat_ofNat', hmod, pow_succ' 256 k, Nat.mod_mul]

theorem take_leBytes (k n : ℕ) (rest : List UInt8) :
    (leBytes k n ++ rest).take k = leBytes k n := by
  have hlen := length_leBytes k n
  rw [List.take_append_of_le_length hlen.ge, List.take_of_length_le hlen.le]

/-- Numbers that stand one behind the other, each in `k` bytes. -/
theorem drop_flatMap_leBytes {α : Type*} (k : ℕ) (f : α → ℕ) (l : List α) (i : ℕ) :
    (l.flatMap fun a => leBytes k (f a)).drop (k * i) =
      (l.drop i).flatMap fun a => leBytes k (f a) := by
  induction l generalizing i with
  | nil => simp
  | cons a l ih =>
    cases i with
    | zero => rfl
    | succ i =>
      have hsplit : k * (i + 1) = (leBytes k (f a)).length + k * i := by
        rw [length_leBytes, Nat.mul_succ, Nat.add_comm]
      rw [List.flatMap_cons, hsplit, ← List.drop_drop, List.drop_left, ih, List.drop_succ_cons]

/-- **A number in two's complement is read back**, if it has room in the bytes. -/
theorem leInt_leBytes {k : ℕ} {x : ℤ} (hmin : -(256 ^ k : ℕ) ≤ x * 2) (hmax : x * 2 < (256 ^ k : ℕ))
    (rest : List UInt8) : leInt k (leBytes k (x % (256 ^ k : ℕ)).toNat ++ rest) = x := by
  have hpos : (0 : ℤ) < (256 ^ k : ℕ) := by positivity
  have hnonneg := Int.emod_nonneg x hpos.ne'
  have hlt := Int.emod_lt_of_pos x hpos
  have hsmall : (x % (256 ^ k : ℕ)).toNat < 256 ^ k := by omega
  rw [leInt, take_leBytes, leNat_leBytes, Nat.mod_eq_of_lt hsmall, Int.toNat_of_nonneg hnonneg,
    Int.emod_bmod, Int.bmod_eq_of_le_mul_two hmin hmax]

end PicoUros
