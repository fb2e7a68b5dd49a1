import QuadCode.Lowering.Cond
import QuadCode.Repetition
import QuadCode.Stmt

/-!
# Lowering of statements

Branches and loops become jumps to fresh labels. A switch compares its selector
with the number of each case in turn and jumps to the first that is equal; if
none is, it runs into the body that stands otherwise. Every body of a switch
ends with a jump behind the switch, so exactly one of them runs.
-/

namespace QuadCode

/-- Store a value in a variable. An integer may be stored in a float variable, but not the other
way round. -/
def Value.store (v : Value) (target : String) (ty : Scalar) : Except Fault (Instr Label) :=
  match v.ty, ty with
  | .int, .float => .ok (.convert .float target v.operand)
  | .float, .int => .error (.narrowing target)
  | _, _ => .ok (.copy ty target v.operand)

/-- The operand of a selector, which has to be an integer. -/
def Value.asSelector (v : Value) : Except Fault Operand :=
  match v.ty with
  | .int => .ok v.operand
  | .float => .error (.selector .float)

/-- The cases of a switch must have distinct numbers. -/
def Case.checkDistinct (cases : List Case) : Except Fault Unit :=
  match firstRepeat? (cases.map Case.number) with
  | none => .ok ()
  | some n => .error (.duplicateCase n)

/-- The comparisons at the head of a switch. The cases have the labels from `first` on. -/
def Case.dispatch (selector : Operand) (flag : String) (first : Nat) : List Case → List Item
  | [] => []
  | c :: cases =>
    [.instr (.compare .ne .int flag selector (.lit (.int c.number))),
      .instr (.jumpIfZero ⟨first⟩ (.var flag))] ++ Case.dispatch selector flag (first + 1) cases

/-- The head of a switch. Without cases there is nothing to compare, and no flag is drawn. -/
def Case.lowerDispatch (selector : Operand) (first : Nat) (cases : List Case) : Lower (List Item) :=
  match cases with
  | [] => return []
  | _ :: _ => do
    let flag ← Lower.freshFlag
    return Case.dispatch selector flag first cases

mutual

/-- The code of a statement. -/
def Stmt.lower : Stmt → Lower (List Item)
  | .assign target e => do
    let x ← e.lower
    let ty ← Lower.typeOf target
    let i ← Lower.ofExcept (x.value.store target ty)
    return x.code ++ [.instr i]
  | .input target => do
    let ty ← Lower.typeOf target
    return [.instr (.read ty target)]
  | .output e => do
    let x ← e.lower
    return x.code ++ [.instr (.print x.ty x.operand)]
  | .ite c yes no => do
    let thenLabel ← Lower.freshLabel
    let elseLabel ← Lower.freshLabel
    let endLabel ← Lower.freshLabel
    let test ← c.lower
    let yesCode ← yes.lower
    let noCode ← no.lower
    return test.code ++
      [.instr (.jumpIfZero elseLabel test.operand), .mark thenLabel] ++ yesCode ++
      [.instr (.jump endLabel), .mark elseLabel] ++ noCode ++
      [.mark endLabel]
  | .loop c body => do
    let testLabel ← Lower.freshLabel
    let endLabel ← Lower.freshLabel
    let test ← c.lower
    let bodyCode ← body.lower
    return [.mark testLabel] ++ test.code ++
      [.instr (.jumpIfZero endLabel test.operand)] ++ bodyCode ++
      [.instr (.jump testLabel), .mark endLabel]
  | .switch e cases otherwise => do
    let x ← e.lower
    let selector ← Lower.ofExcept x.value.asSelector
    Lower.ofExcept (Case.checkDistinct cases)
    let endLabel ← Lower.freshLabel
    let first ← Lower.freshLabels cases.length
    let head ← Case.lowerDispatch selector first cases
    let otherwiseCode ← Stmt.lowerAll otherwise
    let caseCode ← Case.lowerAll endLabel first cases
    return x.code ++ head ++ otherwiseCode ++ [.instr (.jump endLabel)] ++ caseCode ++
      [.mark endLabel]
  | .leave => Lower.ofExcept (.error (.unsupported "break"))
  | .block body => Stmt.lowerAll body

/-- The code of statements that run one after the other. -/
def Stmt.lowerAll : List Stmt → Lower (List Item)
  | [] => return []
  | s :: l => do
    let code ← s.lower
    let rest ← Stmt.lowerAll l
    return code ++ rest

/-- The code of the cases of a switch, with the labels from `first` on. Each ends with a jump to
`endLabel`. -/
def Case.lowerAll (endLabel : Label) (first : Nat) : List Case → Lower (List Item)
  | [] => return []
  | ⟨_, body⟩ :: cases => do
    let code ← Stmt.lowerAll body
    let rest ← Case.lowerAll endLabel (first + 1) cases
    return [.mark ⟨first⟩] ++ code ++ [.instr (.jump endLabel)] ++ rest

end

end QuadCode
