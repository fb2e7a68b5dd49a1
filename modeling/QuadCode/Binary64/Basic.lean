/-!
# Double-precision numbers

A double is its bit pattern: one sign bit, eleven exponent bits and fifty-two
fraction bits. Every finite double is a whole multiple of the smallest positive
one, so its magnitude is kept exactly as a natural number of such units.

* `Binary64.isNaN`, `Binary64.isInfinite`, `Binary64.isFinite`, `Binary64.isZero`
  sort the patterns into classes;
* `Binary64.magnitude` is the absolute value of a finite double in units of
  `2 ^ (-1074)`, and `Binary64.spacing` the distance to the next double above it;
* `x == y` compares numbers and not patterns: a NaN differs from itself and the
  two zeros are equal. Equality of patterns is `x = y`.
-/

namespace QuadCode

/-- A double-precision number, given by its bit pattern. -/
structure Binary64 where
  bits : UInt64
  deriving DecidableEq, Repr

namespace Binary64

/-- The sign bit. -/
def negative (x : Binary64) : Bool := decide (Nat.pow 2 63 ≤ x.bits.toNat)

/-- The biased exponent. -/
def exponent (x : Binary64) : Nat := x.bits.toNat / Nat.pow 2 52 % Nat.pow 2 11

/-- The fraction field. -/
def fraction (x : Binary64) : Nat := x.bits.toNat % Nat.pow 2 52

/-- Not a number. -/
def isNaN (x : Binary64) : Bool := x.exponent == 2047 && x.fraction != 0

/-- One of the two infinities. -/
def isInfinite (x : Binary64) : Bool := x.exponent == 2047 && x.fraction == 0

/-- Neither infinite nor a NaN. -/
def isFinite (x : Binary64) : Bool := x.exponent != 2047

/-- One of the two zeros. -/
def isZero (x : Binary64) : Bool := x.exponent == 0 && x.fraction == 0

/-- The number of units `2 ^ (-1074)` that make up one. -/
def unitsPerOne : Nat := Nat.pow 2 1074

/-- The significand, with the leading one of a normal number. -/
def significand (x : Binary64) : Nat :=
  if x.exponent = 0 then x.fraction else Nat.pow 2 52 + x.fraction

/-- The distance, in units, from a finite double to the next one of larger magnitude. -/
def spacing (x : Binary64) : Nat := Nat.pow 2 (x.exponent - 1)

/-- The absolute value of a finite double, in units. -/
def magnitude (x : Binary64) : Nat := x.significand * x.spacing

/-- A finite double without a fractional part. -/
def isWhole (x : Binary64) : Bool := x.isFinite && x.magnitude % unitsPerOne == 0

/-- Equality as numbers. -/
def numEq (x y : Binary64) : Bool :=
  !x.isNaN && !y.isNaN && (decide (x = y) || x.isZero && y.isZero)

instance : BEq Binary64 := ⟨numEq⟩

theorem beq_def (x y : Binary64) :
    (x == y) = (!x.isNaN && !y.isNaN && (decide (x = y) || x.isZero && y.isZero)) := rfl

theorem fraction_lt (x : Binary64) : x.fraction < Nat.pow 2 52 := Nat.mod_lt _ (by decide)

theorem spacing_pos (x : Binary64) : 0 < x.spacing := Nat.two_pow_pos _

end Binary64

end QuadCode
