import QuadCode.Binary64.Basic
import QuadCode.Decimal

/-!
# The shortest decimal of a double

Every double owns the interval of reals that round to it. Its ends lie halfway
to the two neighbours and belong to it exactly when the significand is even.
The shortest decimal of a double is the one with the fewest places in that
interval; of two such decimals the nearer is taken, and the larger if both are
equally near.

* `Binary64.Admits` is membership in the interval, on natural numbers only;
* `Binary64.shortest` searches the numbers of places in increasing order. Only
  the two decimals on either side of the double matter on each grid: if any
  decimal of the grid is in the interval, one of those is.

A double with a fractional part is further from every whole number than half
its spacing, so at least one place is needed, and a multiple of `2 ^ (-1074)`
has at most 1074 places, so the search always succeeds.
-/

namespace QuadCode.Binary64

/-- The distance to the lower end of the interval of `x`, in quarter units. The neighbour below a
power of two is only half as far away as the one above. -/
def gapBelow (x : Binary64) : Nat :=
  if x.fraction = 0 ∧ 1 < x.exponent then x.spacing else 2 * x.spacing

/-- The distance to the upper end of the interval of `x`, in quarter units. -/
def gapAbove (x : Binary64) : Nat := 2 * x.spacing

/-- The decimal `d` rounds to the magnitude of `x`. -/
def Admits (x : Binary64) (d : Decimal) : Prop :=
  let scale := Nat.pow 10 d.places
  let point := 4 * (d.coefficient * unitsPerOne)
  let centre := 4 * (x.magnitude * scale)
  if x.significand % 2 = 0 then
    centre ≤ point + x.gapBelow * scale ∧ point ≤ centre + x.gapAbove * scale
  else
    centre < point + x.gapBelow * scale ∧ point < centre + x.gapAbove * scale

instance (x : Binary64) (d : Decimal) : Decidable (x.Admits d) :=
  inferInstanceAs (Decidable (ite _ _ _))

/-- The largest decimal with `places` places that is not above the magnitude of `x`. -/
def decimalBelow (x : Binary64) (places : Nat) : Decimal :=
  ⟨x.magnitude * Nat.pow 10 places / unitsPerOne, places⟩

/-- The decimal that follows `decimalBelow` on its grid. -/
def decimalAbove (x : Binary64) (places : Nat) : Decimal :=
  ⟨x.magnitude * Nat.pow 10 places / unitsPerOne + 1, places⟩

/-- The magnitude of `x` is at least as near to `decimalAbove` as to `decimalBelow`. -/
def RoundsUp (x : Binary64) (places : Nat) : Prop :=
  unitsPerOne ≤ 2 * (x.magnitude * Nat.pow 10 places % unitsPerOne)

instance (x : Binary64) (places : Nat) : Decidable (x.RoundsUp places) :=
  inferInstanceAs (Decidable (_ ≤ _))

/-- The better decimal with `places` places in the interval of `x`, if there is one. -/
def decimalAt? (x : Binary64) (places : Nat) : Option Decimal :=
  let below := x.decimalBelow places
  let above := x.decimalAbove places
  if x.Admits below then
    if x.Admits above ∧ x.RoundsUp places then some above else some below
  else if x.Admits above then some above
  else none

/-- The decimal with the fewest places, at least one, in the interval of `x`. -/
def shortest (x : Binary64) : Decimal :=
  ((List.range' 1 1074).findSome? x.decimalAt?).getD (x.decimalBelow 1074)

end QuadCode.Binary64
