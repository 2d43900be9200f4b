import Mathlib.Algebra.Quaternion
import Mathlib.Tactic.LinearCombination

/-!
# Rotations by unit quaternions

A unit quaternion `q` rotates a vector `v`, taken as a quaternion without real part, to `q v q*`.
The rotations about the three axes are given here by the cosine and the sine of half their angles,
which may be any two numbers whose squares have the sum `1`, over any commutative ring.

## Main definitions

* `HalfAngle`: an angle, by the cosine and the sine of its half.
* `rotate`, `aboutX`, `aboutY`, `aboutZ`: rotations.

## Main results

* `rotate_mul`: a product of quaternions rotates by one after the other.
* `rotate_aboutX`, `rotate_aboutY`, `rotate_aboutZ`: the three rotation matrices.
-/

namespace PicoUros.Rotation

open Quaternion

variable {K : Type*} [CommRing K]

/-- An angle, given by the cosine and the sine of its half. -/
structure HalfAngle (K : Type*) [CommRing K] where
  c : K
  s : K
  sq_add_sq : c ^ 2 + s ^ 2 = 1

namespace HalfAngle

variable (a : HalfAngle K)

/-- The cosine of the angle. -/
def cos : K := a.c ^ 2 - a.s ^ 2

/-- The sine of the angle. -/
def sin : K := 2 * a.s * a.c

end HalfAngle

/-- A vector as a quaternion. -/
@[simps] def vec (x y z : K) : ℍ[K] := ⟨0, x, y, z⟩

theorem vec_inj {x y z x' y' z' : K} : vec x y z = vec x' y' z' ↔ x = x' ∧ y = y' ∧ z = z' := by
  rw [Quaternion.ext_iff]
  simp

/-- The rotation by a unit quaternion. -/
def rotate (q v : ℍ[K]) : ℍ[K] := q * v * star q

@[simps] def aboutX (a : HalfAngle K) : ℍ[K] := ⟨a.c, a.s, 0, 0⟩

@[simps] def aboutY (a : HalfAngle K) : ℍ[K] := ⟨a.c, 0, a.s, 0⟩

@[simps] def aboutZ (a : HalfAngle K) : ℍ[K] := ⟨a.c, 0, 0, a.s⟩

/-- The rotation by a product is one rotation after the other. -/
theorem rotate_mul (p q v : ℍ[K]) : rotate (p * q) v = rotate p (rotate q v) := by
  simp only [rotate, star_mul, mul_assoc]

@[simp] theorem normSq_aboutX (a : HalfAngle K) : normSq (aboutX a) = 1 := by
  simp [normSq_def', a.sq_add_sq]

@[simp] theorem normSq_aboutY (a : HalfAngle K) : normSq (aboutY a) = 1 := by
  simp [normSq_def', a.sq_add_sq]

@[simp] theorem normSq_aboutZ (a : HalfAngle K) : normSq (aboutZ a) = 1 := by
  simp [normSq_def', a.sq_add_sq]

theorem rotate_aboutX (a : HalfAngle K) (x y z : K) :
    rotate (aboutX a) (vec x y z) = vec x (a.cos * y - a.sin * z) (a.sin * y + a.cos * z) := by
  have h := a.sq_add_sq
  ext <;> simp [rotate, HalfAngle.cos, HalfAngle.sin]
  · ring
  · linear_combination x * h
  · ring
  · ring

theorem rotate_aboutY (a : HalfAngle K) (x y z : K) :
    rotate (aboutY a) (vec x y z) = vec (a.cos * x + a.sin * z) y (-a.sin * x + a.cos * z) := by
  have h := a.sq_add_sq
  ext <;> simp [rotate, HalfAngle.cos, HalfAngle.sin]
  · ring
  · ring
  · linear_combination y * h
  · ring

theorem rotate_aboutZ (a : HalfAngle K) (x y z : K) :
    rotate (aboutZ a) (vec x y z) = vec (a.cos * x - a.sin * y) (a.sin * x + a.cos * y) z := by
  have h := a.sq_add_sq
  ext <;> simp [rotate, HalfAngle.cos, HalfAngle.sin]
  · ring
  · ring
  · ring
  · linear_combination z * h

end PicoUros.Rotation
