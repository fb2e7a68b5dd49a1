import QuadCode.Expr

/-!
# Instructions

The instructions of the machine, over any type of jump targets: labels while
code is put together, line numbers once it is finished.

* `Instr.opcode` is the name of an instruction and `Instr.text` its line: the
  opcode and the operands, separated by single spaces;
* `Instr.mapTarget` replaces the jump target, if there is one.
-/

namespace QuadCode

/-- A source of data: a variable or a literal. -/
inductive Operand where
  | var (name : String)
  | lit (value : Literal)
  deriving DecidableEq, BEq, Repr

/-- The text of an operand. -/
def Operand.text : Operand → String
  | var name => name
  | lit value => value.text

/-- Where the result of an expression is found, with its type. -/
structure Value where
  operand : Operand
  ty : Scalar
  deriving DecidableEq, BEq, Repr

/-- A symbolic jump target. -/
structure Label where
  index : Nat
  deriving DecidableEq, Repr

/-- The text of a label. -/
def Label.text (l : Label) : String := "_L" ++ Nat.repr l.index

/-- A comparison that the machine can make. -/
inductive Comparison where
  | eq
  | ne
  | lt
  | gt
  deriving DecidableEq, Repr

/-- An instruction whose jump targets are of type `α`. -/
inductive Instr (α : Type) where
  /-- `dst` becomes `src`. -/
  | copy (ty : Scalar) (dst : String) (src : Operand)
  /-- `dst` becomes the next number of the input. -/
  | read (ty : Scalar) (dst : String)
  /-- `src` is appended to the output. -/
  | print (ty : Scalar) (src : Operand)
  /-- `dst` becomes the result of an arithmetic operation. -/
  | arith (op : Arith) (ty : Scalar) (dst : String) (lhs rhs : Operand)
  /-- `dst` becomes `1` if the comparison holds and `0` otherwise. -/
  | compare (op : Comparison) (ty : Scalar) (dst : String) (lhs rhs : Operand)
  /-- `dst` becomes `src`, converted to the type `ty` from the other one. -/
  | convert (ty : Scalar) (dst : String) (src : Operand)
  /-- Control goes to `target`. -/
  | jump (target : α)
  /-- Control goes to `target` if `cond` is zero. -/
  | jumpIfZero (target : α) (cond : Operand)
  /-- The run ends. -/
  | halt
  deriving DecidableEq, BEq, Repr

/-- The part of an opcode that names an arithmetic operation. -/
def Arith.mnemonic : Arith → String
  | add => "ADD"
  | sub => "SUB"
  | mul => "MLT"
  | div => "DIV"

/-- The part of an opcode that names a comparison. -/
def Comparison.mnemonic : Comparison → String
  | eq => "EQL"
  | ne => "NQL"
  | lt => "LSS"
  | gt => "GRT"

namespace Instr

variable {α β : Type}

/-- The name of an instruction. -/
def opcode : Instr α → String
  | copy ty _ _ => ty.letter.toString ++ "ASN"
  | read ty _ => ty.letter.toString ++ "INP"
  | print ty _ => ty.letter.toString ++ "PRT"
  | arith op ty _ _ _ => ty.letter.toString ++ op.mnemonic
  | compare op ty _ _ _ => ty.letter.toString ++ op.mnemonic
  | convert .float _ _ => "ITOR"
  | convert .int _ _ => "RTOI"
  | jump _ => "JUMP"
  | jumpIfZero _ _ => "JMPZ"
  | halt => "HALT"

/-- The texts of the operands in order, with `target` to write a jump target. -/
def operands (target : α → String) : Instr α → List String
  | copy _ dst src => [dst, src.text]
  | read _ dst => [dst]
  | print _ src => [src.text]
  | arith _ _ dst lhs rhs => [dst, lhs.text, rhs.text]
  | compare _ _ dst lhs rhs => [dst, lhs.text, rhs.text]
  | convert _ dst src => [dst, src.text]
  | jump t => [target t]
  | jumpIfZero t cond => [target t, cond.text]
  | halt => []

/-- The line of an instruction, with `target` to write a jump target. -/
def text (target : α → String) (i : Instr α) : String :=
  " ".intercalate (i.opcode :: i.operands target)

/-- The jump target, if the instruction has one. -/
def target? : Instr α → Option α
  | jump t => some t
  | jumpIfZero t _ => some t
  | _ => none

/-- Replace the jump target by an action that may fail. An instruction without a target never
runs it. -/
def mapTarget {m : Type → Type} [Monad m] (f : α → m β) : Instr α → m (Instr β)
  | copy ty dst src => pure (copy ty dst src)
  | read ty dst => pure (read ty dst)
  | print ty src => pure (print ty src)
  | arith op ty dst lhs rhs => pure (arith op ty dst lhs rhs)
  | compare op ty dst lhs rhs => pure (compare op ty dst lhs rhs)
  | convert ty dst src => pure (convert ty dst src)
  | jump t => do return jump (← f t)
  | jumpIfZero t cond => do return jumpIfZero (← f t) cond
  | halt => pure halt

end Instr

end QuadCode
