import PicoUros.Lib.Numerals

/-!
# The GNSS record and its numbers

`gnss_t` (`src/main.cpp`, lines 110–137) is the record that core 1 fills from the receiver's lines
and sends to core 0. Its numbers are of type `double` and `float`. Nothing in this development
depends on how these types round, so `Floating` has their operations and no law, and `Libc` has the
functions of the C library and the conversions that the parsers use.

## Main definitions

* `Floating`, `Libc`: arithmetic and library functions.
* `GnssT`: the record.
* `GnssT.coords`, `GnssT.cov`, `GnssT.heading`: its three parts, each behind its validity flag.
* `Libc.exactWith`: exact arithmetic with any functions of the C library.
* `Libc.exact`: an instance of it, to evaluate the parsers with.
-/

namespace PicoUros.Gnss

/-- The operations of a C floating-point type. -/
class Floating (R : Type) extends Add R, Sub R, Mul R, Div R, Neg R, BEq R where
  /-- `x <= y`. -/
  leb : R → R → Bool
  /-- The value of a literal. -/
  lit : ℚ → R

export Floating (leb lit)

/-- Library functions and conversions, for `double` values in `D` and `float` values in `F`. -/
structure Libc (D F : Type) where
  atof : List UInt8 → D
  atoi : List UInt8 → ℤ
  cosf : F → F
  sinf : F → F
  /-- `(int)x`. -/
  toInt : D → ℤ
  /-- `(double)n`. -/
  ofInt : ℤ → D
  /-- `(float)x`. -/
  toFloat : D → F
  /-- A `float` value assigned to a `double` variable. -/
  toDouble : F → D

/-- `gnss_t`. The two arrays of characters are given by the C strings that they hold. -/
structure GnssT (D F : Type) where
  latDeg : D
  lonDeg : D
  altM : D
  fixQuality : UInt8
  validCoords : Bool
  covNorth : D
  covEast : D
  covUp : D
  validCov : Bool
  qx : F
  qy : F
  qz : F
  qw : F
  yawVar : F
  pitchVar : F
  yawDeg : F
  pitchDeg : F
  headingStatus : List UInt8
  headingSol : List UInt8
  validHeading : Bool
  deriving DecidableEq

variable {D F : Type}

/-- What `parse_gga_line` sets. -/
structure Coords (D : Type) where
  latDeg : D
  lonDeg : D
  altM : D
  fixQuality : UInt8
  deriving DecidableEq

/-- What `parse_gst_line` sets. -/
structure Cov (D : Type) where
  covNorth : D
  covEast : D
  covUp : D
  deriving DecidableEq

/-- What `parse_headingga_line` sets. -/
structure Heading (F : Type) where
  qx : F
  qy : F
  qz : F
  qw : F
  yawVar : F
  pitchVar : F
  yawDeg : F
  pitchDeg : F
  headingStatus : List UInt8
  headingSol : List UInt8
  deriving DecidableEq

/-- The coordinates, if they are valid. -/
def GnssT.coords (r : GnssT D F) : Option (Coords D) :=
  if r.validCoords then some ⟨r.latDeg, r.lonDeg, r.altM, r.fixQuality⟩ else none

/-- The covariances, if they are valid. -/
def GnssT.cov (r : GnssT D F) : Option (Cov D) :=
  if r.validCov then some ⟨r.covNorth, r.covEast, r.covUp⟩ else none

/-- The heading, if it is valid. -/
def GnssT.heading (r : GnssT D F) : Option (Heading F) :=
  if r.validHeading then
    some ⟨r.qx, r.qy, r.qz, r.qw, r.yawVar, r.pitchVar, r.yawDeg, r.pitchDeg, r.headingStatus,
      r.headingSol⟩
  else none

/-- `gnss_t gnss = {0}`. -/
def GnssT.zero [Floating D] [Floating F] : GnssT D F where
  latDeg := lit 0
  lonDeg := lit 0
  altM := lit 0
  fixQuality := 0
  validCoords := false
  covNorth := lit 0
  covEast := lit 0
  covUp := lit 0
  validCov := false
  qx := lit 0
  qy := lit 0
  qz := lit 0
  qw := lit 0
  yawVar := lit 0
  pitchVar := lit 0
  yawDeg := lit 0
  pitchDeg := lit 0
  headingStatus := []
  headingSol := []
  validHeading := false

/-! ### Exact arithmetic

An instance to evaluate the parsers with. -/

instance : Floating ℚ where
  leb x y := decide (x ≤ y)
  lit q := q

/-- Exact arithmetic, with any functions in the place of those of the C library. -/
def Libc.exactWith (atof : List UInt8 → ℚ) (atoi : List UInt8 → ℤ) (cosf sinf : ℚ → ℚ) :
    Libc ℚ ℚ where
  atof := atof
  atoi := atoi
  cosf := cosf
  sinf := sinf
  toInt x := x.num.tdiv x.den
  ofInt n := n
  toFloat x := x
  toDouble x := x

/-- Exact arithmetic. The cosine and the sine are right only at zero. -/
def Libc.exact : Libc ℚ ℚ :=
  .exactWith Numeral.atof Numeral.atoi (fun _ => 1) fun _ => 0

end PicoUros.Gnss
