import QuadCode.Binary64.Text
import QuadCode.Scalar

/-!
# Literals

A literal is an integer of sixty-four bits or a double. `l == m` compares
literals as numbers of one type; `l = m` is identity, down to the bit pattern.
-/

namespace QuadCode

/-- A literal. -/
inductive Literal where
  | int (value : Int64)
  | float (value : Binary64)
  deriving DecidableEq, Repr

namespace Literal

/-- The type of a literal. -/
def ty : Literal → Scalar
  | int _ => .int
  | float _ => .float

/-- The text of a literal. The text of a finite double has a point, that of an integer has none. -/
def text : Literal → String
  | int n => Int.repr n.toInt
  | float x => x.text

/-- Equality as numbers of one type. -/
def numEq : Literal → Literal → Bool
  | int m, int n => m == n
  | float x, float y => x == y
  | _, _ => false

instance : BEq Literal := ⟨numEq⟩

@[simp] theorem int_beq_int (m n : Int64) : (int m == int n) = (m == n) := rfl

@[simp] theorem float_beq_float (x y : Binary64) : (float x == float y) = (x == y) := rfl

@[simp] theorem int_beq_float (n : Int64) (x : Binary64) : (int n == float x) = false := rfl

@[simp] theorem float_beq_int (x : Binary64) (n : Int64) : (float x == int n) = false := rfl

end Literal

end QuadCode
