/-!
# Scalar types

The two types of the language and of the machine. Truth values have no type of
their own: they are integers that hold `0` or `1`.

* `Scalar.join` is the type of an operation on two operands;
* `Scalar.letter` selects the integer or real variant of an instruction.
-/

namespace QuadCode

/-- A scalar type. -/
inductive Scalar where
  | int
  | float
  deriving DecidableEq, Repr

namespace Scalar

/-- The name of the type in messages. -/
def text : Scalar → String
  | int => "int"
  | float => "float"

/-- The first letter of the instructions that work on the type. -/
def letter : Scalar → Char
  | int => 'I'
  | float => 'R'

/-- The type of an operation on two operands: integer only if both are. -/
def join : Scalar → Scalar → Scalar
  | int, int => int
  | _, _ => float

@[simp] theorem join_self (s : Scalar) : s.join s = s := by cases s <;> rfl

@[simp] theorem float_join (s : Scalar) : float.join s = float := rfl

@[simp] theorem join_float (s : Scalar) : s.join float = float := by cases s <;> rfl

end Scalar

end QuadCode
