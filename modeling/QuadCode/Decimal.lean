/-!
# Decimals

A decimal is a coefficient with a number of places after the point. Its text
has a nonempty whole part, the point and exactly that many places.
-/

namespace QuadCode

/-- The number `coefficient / 10 ^ places`. -/
structure Decimal where
  coefficient : Nat
  places : Nat
  deriving DecidableEq, Repr

namespace Decimal

/-- The last `k` decimal digits of `n`, leading zeros included. -/
def lastDigits : (k n : Nat) → List Char
  | 0, _ => []
  | k + 1, n => lastDigits k (n / 10) ++ [Nat.digitChar (n % 10)]

@[simp] theorem length_lastDigits (k n : Nat) : (lastDigits k n).length = k := by
  induction k generalizing n with
  | zero => rfl
  | succ k ih => simp [lastDigits, ih]

/-- Whole part, point and places, without a sign. -/
def text (d : Decimal) : String :=
  Nat.repr (d.coefficient / Nat.pow 10 d.places) ++ "." ++
    String.ofList (lastDigits d.places d.coefficient)

end Decimal

end QuadCode
