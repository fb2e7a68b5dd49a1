import QuadCode.Lowering.Basic

/-!
# Lowering of expressions

Literals and variables need no code. Every operation leaves its result in a
temporary of its own. The right operand is lowered before the left one, and if
only one of them is a float the other is converted, the left one first.
-/

namespace QuadCode

/-- Two operands of one type and the code that computes them. -/
structure Operands where
  code : List Item
  lhs : Operand
  rhs : Operand
  ty : Scalar

/-- Bring a value to the joint type of an operation. Only an integer ever has to change. -/
def Value.widen (v : Value) (ty : Scalar) : Lower (List Item × Operand) :=
  match v.ty, ty with
  | .int, .float => do
    let dst ← Lower.freshTemp .float
    return ([.instr (.convert .float dst v.operand)], .var dst)
  | _, _ => return ([], v.operand)

/-- Bring two lowered operands to their joint type. The code of the right operand comes first. -/
def Lowered.balance (left right : Lowered) : Lower Operands := do
  let ty := left.ty.join right.ty
  let (widenLeft, lhs) ← left.value.widen ty
  let (widenRight, rhs) ← right.value.widen ty
  return { code := right.code ++ left.code ++ widenLeft ++ widenRight, lhs, rhs, ty }

/-- The code of an expression. -/
def Expr.lower : Expr → Lower Lowered
  | lit l => return ⟨[], ⟨.lit l, l.ty⟩⟩
  | var name => do
    let ty ← Lower.typeOf name
    return .inVar [] name ty
  | arith op l r => do
    let right ← r.lower
    let left ← l.lower
    let ops ← left.balance right
    let dst ← Lower.freshTemp ops.ty
    return .inVar (ops.code ++ [.instr (.arith op ops.ty dst ops.lhs ops.rhs)]) dst ops.ty
  | cast ty e => do
    let x ← e.lower
    if x.ty = ty then
      return x
    else
      let dst ← Lower.freshTemp ty
      return .inVar (x.code ++ [.instr (.convert ty dst x.operand)]) dst ty

end QuadCode
