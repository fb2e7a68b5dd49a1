import QuadCode.Compile

/-!
# Emission

The code of a program, put together fragment by fragment. Every tree becomes a
`Fragment`, and the fragment of an expression or of a condition carries the
place of its value. Whoever needs the value takes it out of the fragment.
Nothing in the type of a fragment says that it has one: taking the value can
fail, and the fault names what the value was needed for.

* `Fragment.takeValue` takes the value out of a fragment;
* `Lower.drawTemp` looks for a free temporary and then declares it, which would
  fail if the search had ended at a name in use;
* `Expr.emit`, `Cond.emit`, `Stmt.emit`, `Program.emit` build the fragments.
-/

namespace QuadCode

/-- Take the value out of a fragment, which must have one. It is needed as `what`. -/
def Fragment.takeValue (f : Fragment) (what : String) : Except Fault (Value × Fragment) :=
  match f.value with
  | some v => .ok (v, { f with value := none })
  | none => .error (.valueless what)

/-- Give a fragment a value. -/
def Fragment.withValue (f : Fragment) (v : Value) : Fragment := { f with value := some v }

namespace Lower

/-- Take the value out of a fragment. -/
def takeValue (f : Fragment) (what : String) : Lower (Value × Fragment) :=
  ofExcept (f.takeValue what)

/-- Look for a free temporary and declare it. -/
def drawTemp (ty : Scalar) : Lower String := fun s =>
  let n := s.scope.firstFree s.nextTemp
  (s.scope.declare (tempName n) ty).map fun scope =>
    (tempName n, { s with scope, nextTemp := n + 1 })

/-- Look for a free temporary for a truth value and declare it. -/
def drawFlag : Lower String := drawTemp .int

end Lower

/-! ### Expressions -/

/-- Bring a value to the type `ty`, with the conversion behind `code`. -/
def Value.emitWiden (v : Value) (ty : Scalar) (code : Fragment) : Lower (Value × Fragment) := do
  if v.ty = ty ∨ ty ≠ .float then
    return (v, code)
  else
    let dst ← Lower.drawTemp .float
    return (⟨.var dst, .float⟩, code.emit (.convert .float dst v.operand))

/-- The code of two operands, their values at the joint type, and this type. -/
def Fragment.joinOperands (left right : Fragment) :
    Lower (Fragment × Value × Value × Scalar) := do
  let (rhs, right) ← Lower.takeValue right "right operand"
  let (lhs, left) ← Lower.takeValue left "left operand"
  let code := (({} : Fragment).append right).append left
  let ty := lhs.ty.join rhs.ty
  let (lhs, code) ← lhs.emitWiden ty code
  let (rhs, code) ← rhs.emitWiden ty code
  return (code, lhs, rhs, ty)

/-- The fragment of an expression. -/
def Expr.emit : Expr → Lower Fragment
  | lit l => return .ofValue ⟨.lit l, l.ty⟩
  | var name => do
    let ty ← Lower.typeOf name
    return .ofValue ⟨.var name, ty⟩
  | arith op l r => do
    let right ← r.emit
    let left ← l.emit
    let (code, lhs, rhs, ty) ← left.joinOperands right
    let dst ← Lower.drawTemp ty
    return (code.emit (.arith op ty dst lhs.operand rhs.operand)).withValue ⟨.var dst, ty⟩
  | cast ty e => do
    let code ← e.emit
    let (v, code) ← Lower.takeValue code "cast operand"
    if v.ty = ty then
      return code.withValue v
    else
      let dst ← Lower.drawTemp ty
      return (code.emit (.convert ty dst v.operand)).withValue ⟨.var dst, ty⟩

/-! ### Conditions -/

/-- The fragment of a comparison. -/
def Comparison.emit (op : Comparison) (l r : Expr) : Lower Fragment := do
  let right ← r.emit
  let left ← l.emit
  let (code, lhs, rhs, ty) ← left.joinOperands right
  let dst ← Lower.drawFlag
  return (code.emit (.compare op ty dst lhs.operand rhs.operand)).withValue ⟨.var dst, .int⟩

namespace Fragment

/-- The code of two conditions, and where their truth values are. -/
def joinConds (left right : Fragment) : Lower (Fragment × Operand × Operand) := do
  let (rhs, right) ← Lower.takeValue right "right condition"
  let (lhs, left) ← Lower.takeValue left "left condition"
  return ((({} : Fragment).append right).append left, lhs.operand, rhs.operand)

/-- One of two conditions holds. -/
def emitOr (left right : Fragment) : Lower Fragment := do
  let (code, lhs, rhs) ← left.joinConds right
  let sum ← Lower.drawFlag
  let dst ← Lower.drawFlag
  let code := code.emit (.arith .add .int sum lhs rhs)
  let code := code.emit (.compare .ne .int dst (.var sum) .zero)
  return code.withValue ⟨.var dst, .int⟩

/-- Both of two conditions hold. -/
def emitAnd (left right : Fragment) : Lower Fragment := do
  let (code, lhs, rhs) ← left.joinConds right
  let dst ← Lower.drawFlag
  let keep ← Lower.freshLabel
  let code := code.emit (.compare .ne .int dst lhs .zero)
  let code := code.emit (.jumpIfZero keep (.var dst))
  let code := code.emit (.compare .ne .int dst rhs .zero)
  return (code.place keep).withValue ⟨.var dst, .int⟩

/-- A condition does not hold. -/
def emitNot (f : Fragment) : Lower Fragment := do
  let (v, code) ← Lower.takeValue f "negated condition"
  let dst ← Lower.drawFlag
  return (code.emit (.compare .eq .int dst v.operand .zero)).withValue ⟨.var dst, .int⟩

end Fragment

/-- The fragment of a comparison or equality: the disjunction of the two. -/
def Comparison.emitOrEqual (strict : Comparison) (l r : Expr) : Lower Fragment := do
  let equal ← Comparison.eq.emit l r
  let less ← strict.emit l r
  less.emitOr equal

/-- The fragment of a relation. -/
def Relation.emit : Relation → Expr → Expr → Lower Fragment
  | lt => Comparison.lt.emit
  | gt => Comparison.gt.emit
  | eq => Comparison.eq.emit
  | ne => Comparison.ne.emit
  | le => Comparison.lt.emitOrEqual
  | ge => Comparison.gt.emitOrEqual

/-- The fragment of a condition. -/
def Cond.emit : Cond → Lower Fragment
  | or l r => do
    let right ← r.emit
    let left ← l.emit
    left.emitOr right
  | and l r => do
    let right ← r.emit
    let left ← l.emit
    left.emitAnd right
  | not c => do
    let f ← c.emit
    f.emitNot
  | rel op l r => op.emit l r

/-! ### Statements -/

/-- A label for each case in turn. The number of a case must not be in `seen`, nor be that of an
earlier case. -/
def Case.drawLabels (seen : List Int64) : List Case → Lower (List Label)
  | [] => return []
  | c :: cases => do
    if c.number ∈ seen then
      Lower.ofExcept (.error (.duplicateCase c.number))
    else
      let label ← Lower.freshLabel
      let labels ← Case.drawLabels (c.number :: seen) cases
      return label :: labels

/-- Compare the selector with the number of a case, and go to the label of the case if they are
equal. -/
def Fragment.emitTest (selector : Operand) (flag : String) (code : Fragment)
    (arm : Label × Case) : Fragment :=
  (code.emit (.compare .ne .int flag selector (.lit (.int arm.2.number)))).emit
    (.jumpIfZero arm.1 (.var flag))

/-- Compare the selector with the number of each case. Without cases no flag is drawn. -/
def Fragment.emitTests (code : Fragment) (selector : Operand) (arms : List (Label × Case)) :
    Lower Fragment := do
  if arms.isEmpty then
    return code
  else
    let flag ← Lower.drawFlag
    return arms.foldl (Fragment.emitTest selector flag) code

mutual

/-- The fragment of a statement. -/
def Stmt.emit : Stmt → Lower Fragment
  | .assign target e => do
    let code ← e.emit
    let (v, code) ← Lower.takeValue code ("expression assigned to '" ++ target ++ "'")
    let ty ← Lower.typeOf target
    let i ← Lower.ofExcept (v.store target ty)
    return code.emit i
  | .input target => do
    let ty ← Lower.typeOf target
    return ({} : Fragment).emit (.read ty target)
  | .output e => do
    let code ← e.emit
    let (v, code) ← Lower.takeValue code "printed expression"
    return code.emit (.print v.ty v.operand)
  | .ite c yes no => do
    let thenLabel ← Lower.freshLabel
    let elseLabel ← Lower.freshLabel
    let endLabel ← Lower.freshLabel
    let test ← c.emit
    let (flag, code) ← Lower.takeValue test "if condition"
    let code := (code.emit (.jumpIfZero elseLabel flag.operand)).place thenLabel
    let yesCode ← yes.emit
    let code := ((code.append yesCode).emit (.jump endLabel)).place elseLabel
    let noCode ← no.emit
    return (code.append noCode).place endLabel
  | .loop c body => do
    let testLabel ← Lower.freshLabel
    let endLabel ← Lower.freshLabel
    let test ← c.emit
    let (flag, test) ← Lower.takeValue test "while condition"
    let code := (({} : Fragment).place testLabel).append test
    let code := code.emit (.jumpIfZero endLabel flag.operand)
    let bodyCode ← body.emit
    return ((code.append bodyCode).emit (.jump testLabel)).place endLabel
  | .switch e cases otherwise => do
    let code ← e.emit
    let (v, code) ← Lower.takeValue code "switch expression"
    let selector ← Lower.ofExcept v.asSelector
    let endLabel ← Lower.freshLabel
    let labels ← Case.drawLabels [] cases
    let code ← code.emitTests selector (labels.zip cases)
    let otherwiseCode ← Stmt.emitAll {} otherwise
    let code := (code.append otherwiseCode).emit (.jump endLabel)
    let code ← Case.emitAll endLabel code labels cases
    return code.place endLabel
  | .leave => Lower.ofExcept (.error (.unsupported "break"))
  | .block body => Stmt.emitAll {} body

/-- Add the fragments of statements to `code`. The value becomes that of the last one. -/
def Stmt.emitAll (code : Fragment) : List Stmt → Lower Fragment
  | [] => return code
  | s :: l => do
    let f ← s.emit
    Stmt.emitAll ({ code with value := f.value }.append f) l

/-- Add the fragments of cases to `code`, each behind its label and with a jump to `endLabel`. -/
def Case.emitAll (endLabel : Label) (code : Fragment) (labels : List Label) :
    List Case → Lower Fragment
  | [] => return code
  | ⟨_, body⟩ :: cases =>
    match labels with
    | [] => return code
    | label :: labels => do
      let bodyCode ← Stmt.emitAll {} body
      let code := ((code.place label).append bodyCode).emit (.jump endLabel)
      Case.emitAll endLabel code labels cases

end

/-- The fragment of a program, whose variables are declared first. -/
def Program.emit (p : Program) : Except Fault Fragment :=
  Prod.fst <$> StateT.run (do Lower.declareAll p.declared; Stmt.emitAll {} p.body) {}

end QuadCode
