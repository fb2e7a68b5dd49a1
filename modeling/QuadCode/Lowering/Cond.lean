import QuadCode.Lowering.Expr

/-!
# Lowering of conditions

The value of a condition is an integer temporary that holds exactly `0` or `1`.
Both sides of a disjunction or conjunction are evaluated, the right one first.

The machine has no comparison for `≤` and `≥`: they are the strict comparison
or equality, so their operands are computed twice.
-/

namespace QuadCode

/-- The literal zero, which stands for falsehood. -/
def Operand.zero : Operand := .lit (.int 0)

/-- Compare two expressions. -/
def Comparison.lower (op : Comparison) (l r : Expr) : Lower Lowered := do
  let right ← r.lower
  let left ← l.lower
  let ops ← left.balance right
  let dst ← Lower.freshFlag
  return .inVar (ops.code ++ [.instr (.compare op ops.ty dst ops.lhs ops.rhs)]) dst .int

namespace Lowered

/-- One of two truth values holds: their sum is not zero. -/
def disjoin (left right : Lowered) : Lower Lowered := do
  let sum ← Lower.freshFlag
  let dst ← Lower.freshFlag
  return .inVar
    (right.code ++ left.code ++
      [.instr (.arith .add .int sum left.operand right.operand),
        .instr (.compare .ne .int dst (.var sum) .zero)])
    dst .int

/-- Both of two truth values hold: the right one counts only if the left one holds. -/
def conjoin (left right : Lowered) : Lower Lowered := do
  let dst ← Lower.freshFlag
  let keep ← Lower.freshLabel
  return .inVar
    (right.code ++ left.code ++
      [.instr (.compare .ne .int dst left.operand .zero),
        .instr (.jumpIfZero keep (.var dst)),
        .instr (.compare .ne .int dst right.operand .zero),
        .mark keep])
    dst .int

/-- A truth value does not hold. -/
def negate (x : Lowered) : Lower Lowered := do
  let dst ← Lower.freshFlag
  return .inVar (x.code ++ [.instr (.compare .eq .int dst x.operand .zero)]) dst .int

end Lowered

/-- A comparison of two expressions that holds in the case of equality too. -/
def Comparison.lowerOrEqual (strict : Comparison) (l r : Expr) : Lower Lowered := do
  let equal ← Comparison.eq.lower l r
  let less ← strict.lower l r
  less.disjoin equal

/-- Relate two expressions. -/
def Relation.lower : Relation → Expr → Expr → Lower Lowered
  | lt => Comparison.lt.lower
  | gt => Comparison.gt.lower
  | eq => Comparison.eq.lower
  | ne => Comparison.ne.lower
  | le => Comparison.lt.lowerOrEqual
  | ge => Comparison.gt.lowerOrEqual

/-- The code of a condition. -/
def Cond.lower : Cond → Lower Lowered
  | or l r => do
    let right ← r.lower
    let left ← l.lower
    left.disjoin right
  | and l r => do
    let right ← r.lower
    let left ← l.lower
    left.conjoin right
  | not c => do
    let x ← c.lower
    x.negate
  | rel op l r => op.lower l r

end QuadCode
