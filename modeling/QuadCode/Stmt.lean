import QuadCode.Expr

/-!
# Statements and programs

A program declares variables and then runs a list of statements. The two
equalities are those of expressions.
-/

namespace QuadCode

mutual

/-- A statement. -/
inductive Stmt where
  | assign (target : String) (value : Expr)
  | input (target : String)
  | output (value : Expr)
  | ite (cond : Cond) (yes no : Stmt)
  | loop (cond : Cond) (body : Stmt)
  | switch (selector : Expr) (cases : List Case) (otherwise : List Stmt)
  | leave
  | block (body : List Stmt)

/-- A case of a switch: its body runs when the selector equals its number. -/
structure Case where
  number : Int64
  body : List Stmt

end

/-- A group of variables of one type. -/
structure Declaration where
  names : List String
  ty : Scalar
  deriving DecidableEq, Repr

/-- A source program. -/
structure Program where
  declarations : List Declaration
  body : List Stmt

/-- The declared variables with their types, in order. -/
def Program.declared (p : Program) : List (String × Scalar) :=
  p.declarations.flatMap fun d => d.names.map (·, d.ty)

mutual

/-- Equality with floats compared as numbers. -/
def Stmt.numEq : Stmt → Stmt → Bool
  | .assign x a, .assign y b => x == y && a == b
  | .input x, .input y => x == y
  | .output a, .output b => a == b
  | .ite c s t, .ite d u v => c == d && s.numEq u && t.numEq v
  | .loop c s, .loop d t => c == d && s.numEq t
  | .switch a cs s, .switch b ds t => a == b && Case.numEqAll cs ds && Stmt.numEqAll s t
  | .leave, .leave => true
  | .block s, .block t => Stmt.numEqAll s t
  | _, _ => false

/-- Equality of statement lists with floats compared as numbers. -/
def Stmt.numEqAll : List Stmt → List Stmt → Bool
  | [], [] => true
  | s :: l, t :: m => s.numEq t && Stmt.numEqAll l m
  | _, _ => false

/-- Equality of cases with floats compared as numbers. -/
def Case.numEqAll : List Case → List Case → Bool
  | [], [] => true
  | ⟨m, s⟩ :: cs, ⟨n, t⟩ :: ds => m == n && Stmt.numEqAll s t && Case.numEqAll cs ds
  | _, _ => false

end

instance : BEq Stmt := ⟨Stmt.numEq⟩

/-- Equality with floats compared as numbers. -/
def Program.numEq (p q : Program) : Bool :=
  decide (p.declarations = q.declarations) && Stmt.numEqAll p.body q.body

instance : BEq Program := ⟨Program.numEq⟩

end QuadCode
