import QuadCode.Literal

/-!
# Expressions

Arithmetic expressions and conditions of the source language. Truth values
exist only in conditions, which stand only where a statement branches.

Each tree type has two equalities: `=` is identity, and `==` compares floats as
numbers and all else by identity.
-/

namespace QuadCode

/-- An arithmetic operation. -/
inductive Arith where
  | add
  | sub
  | mul
  | div
  deriving DecidableEq, Repr

/-- A relation between two numbers. -/
inductive Relation where
  | lt
  | gt
  | eq
  | ne
  | le
  | ge
  deriving DecidableEq, Repr

/-- An arithmetic expression. -/
inductive Expr where
  | lit (value : Literal)
  | var (name : String)
  | arith (op : Arith) (lhs rhs : Expr)
  | cast (ty : Scalar) (operand : Expr)
  deriving DecidableEq, Repr

/-- A condition. -/
inductive Cond where
  | or (lhs rhs : Cond)
  | and (lhs rhs : Cond)
  | not (operand : Cond)
  | rel (op : Relation) (lhs rhs : Expr)
  deriving DecidableEq, Repr

/-- Equality with floats compared as numbers. -/
def Expr.numEq : Expr → Expr → Bool
  | lit l, lit m => l == m
  | var x, var y => x == y
  | arith o a b, arith p c d => o == p && numEq a c && numEq b d
  | cast s a, cast t b => s == t && numEq a b
  | _, _ => false

instance : BEq Expr := ⟨Expr.numEq⟩

/-- Equality with floats compared as numbers. -/
def Cond.numEq : Cond → Cond → Bool
  | or a b, or c d => numEq a c && numEq b d
  | and a b, and c d => numEq a c && numEq b d
  | not a, not b => numEq a b
  | rel r a b, rel s c d => r == s && a == c && b == d
  | _, _ => false

instance : BEq Cond := ⟨Cond.numEq⟩

end QuadCode
