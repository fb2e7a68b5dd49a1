import QuadCode.Binary64.Shortest

/-!
# The text of a double

A finite double is written with a point and at least one place, never with an
exponent. A whole number is written with all its digits and one place, any
other by its shortest decimal. Minus zero keeps its sign; a NaN has none.
-/

namespace QuadCode.Binary64

/-- The decimal that stands for the magnitude of a finite double. -/
def decimal (x : Binary64) : Decimal :=
  if x.isWhole then ⟨10 * (x.magnitude / unitsPerOne), 1⟩ else x.shortest

/-- The sign as it is written. -/
def sign (x : Binary64) : String := if x.negative then "-" else ""

/-- The text of a double. -/
def text (x : Binary64) : String :=
  if x.isNaN then "NaN"
  else if x.isInfinite then x.sign ++ "inf"
  else x.sign ++ x.decimal.text

end QuadCode.Binary64
