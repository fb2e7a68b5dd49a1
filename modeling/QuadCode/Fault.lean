import QuadCode.Scalar

/-!
# Faults

Everything that can go wrong between a source program and its executable, by
cause. The first fault ends the compilation. `Fault.message` is the one place
that words them.
-/

namespace QuadCode

/-- The reason why a program has no executable. -/
inductive Fault where
  /-- A name is declared again; `existing` is the type it has. -/
  | redeclared (name : String) (existing : Scalar)
  /-- A name is used that has no type. -/
  | undeclared (name : String)
  /-- A piece of code was to leave a value and leaves none. -/
  | valueless (what : String)
  /-- A float is assigned to an integer variable. -/
  | narrowing (target : String)
  /-- The selector of a switch is not an integer. -/
  | selector (found : Scalar)
  /-- Two cases of a switch have one number. -/
  | duplicateCase (number : Int64)
  /-- A statement of the language that has no code. -/
  | unsupported (feature : String)
  /-- A jump to a label without a marker. -/
  | unplacedLabel (label : String)
  /-- Two markers of one label. -/
  | duplicateLabel (label : String)
  deriving DecidableEq, Repr

namespace Fault

/-- The wording of a fault. -/
def message : Fault → String
  | redeclared name existing =>
    "variable '" ++ name ++ "' was already declared as " ++ existing.text
  | undeclared name => "variable '" ++ name ++ "' was not declared"
  | valueless what => what ++ " produces no value"
  | narrowing target =>
    "cannot assign a float expression into int variable '" ++ target ++ "'"
  | selector found => "switch expression must be int, found " ++ found.text
  | duplicateCase number =>
    "duplicate case " ++ Int.repr number.toInt ++ " in switch statement"
  | unsupported feature => "'" ++ feature ++ "' statement is not implemented"
  | unplacedLabel label => "jump to label '" ++ label ++ "' which is never placed"
  | duplicateLabel label => "label '" ++ label ++ "' is placed more than once"

end Fault

end QuadCode
