import QuadCode.Executable
import QuadCode.Lowering.Stmt

/-!
# Compilation

The way of a program to its executable: its variables are declared, its body is
lowered to symbolic code, and the code is linked.

* `Program.lower` gives the symbolic code, `Program.build` the executable and
  `Program.compile` its text.
-/

namespace QuadCode

/-- What a compilation may be told. -/
structure Options where
  /-- Written into the last line of the text of an executable. -/
  signature : String := "cpq 0.1.0"
  deriving DecidableEq, Repr

namespace Program

/-- Declare the variables, then lower the body. -/
def lowerItems (p : Program) : Lower (List Item) := do
  Lower.declareAll p.declared
  Stmt.lowerAll p.body

/-- The symbolic code of a program. Statements leave no value, and neither does it. -/
def lower (p : Program) : Except Fault Fragment :=
  (p.lowerItems.run {}).map fun r => { items := r.1 }

/-- The executable of a program. -/
def build (p : Program) (options : Options := {}) : Except Fault Executable := do
  let f ← p.lower
  f.link options.signature

/-- The text of the executable of a program. -/
def compile (p : Program) (options : Options := {}) : Except Fault String :=
  (p.build options).map Executable.text

end Program

end QuadCode
