import QuadCode.Proofs.Machine
import QuadCode.Proofs.Syntax

/-!
# The meaning of programs

Expressions and conditions have values in a store; both operands of an operation
are always evaluated, and an integer meets a float as a float. Statements run
one after the other.

* `Expr.eval`, `Cond.eval` are the values, undefined where an operation or a
  variable is;
* `Source.step` runs the first of the statements that are left. A run ends when
  none is left, and it sticks where the first one has no meaning.
-/

namespace QuadCode

namespace Numerics

variable (N : Numerics)

/-- Two numbers brought to their joint type. -/
def balance (u v : Literal) : Option (Literal × Literal) := do
  let a ← N.convert (u.ty.join v.ty) u
  let b ← N.convert (u.ty.join v.ty) v
  return (a, b)

/-- A relation of two numbers. A relation that is not strict holds if the strict one or equality
does, and needs both to be defined. -/
def relate : Relation → Literal → Literal → Option Bool
  | .lt, u, v => N.compare .lt u v
  | .gt, u, v => N.compare .gt u v
  | .eq, u, v => N.compare .eq u v
  | .ne, u, v => N.compare .ne u v
  | .le, u, v => do return (← N.compare .lt u v) || (← N.compare .eq u v)
  | .ge, u, v => do return (← N.compare .gt u v) || (← N.compare .eq u v)

/-- The number that a variable of a type holds after a number is assigned to it. A float does not
fit into an integer variable. -/
def assign : Scalar → Literal → Option Literal
  | .int, .float _ => none
  | ty, v => N.convert ty v

end Numerics

/-- The value of an expression in a store. -/
def Expr.eval (N : Numerics) (store : String → Option Literal) : Expr → Option Literal
  | lit v => some v
  | var name => store name
  | arith op l r => do
    let u ← l.eval N store
    let v ← r.eval N store
    let (a, b) ← N.balance u v
    N.arith op a b
  | cast ty e => do
    let v ← e.eval N store
    N.convert ty v

/-- The truth value of a condition in a store. -/
def Cond.eval (N : Numerics) (store : String → Option Literal) : Cond → Option Bool
  | or l r => do
    let p ← l.eval N store
    let q ← r.eval N store
    return p || q
  | and l r => do
    let p ← l.eval N store
    let q ← r.eval N store
    return p && q
  | not c => do
    let p ← c.eval N store
    return !p
  | rel op l r => do
    let u ← l.eval N store
    let v ← r.eval N store
    let (a, b) ← N.balance u v
    N.relate op a b

/-- The body that a switch runs: that of the case with the number of the selector, if there is
one. -/
def Case.select (n : Int64) (cases : List Case) (otherwise : List Stmt) : List Stmt :=
  match cases.find? (fun c => c.number == n) with
  | some c => c.body
  | none => otherwise

/-- A state of a program: the statements that are left, and the world. -/
structure Source where
  rest : List Stmt
  world : World

/-- Run the first of the statements that are left. -/
def Source.step (N : Numerics) (types : String → Option Scalar) : Source → Option Source
  | ⟨[], _⟩ => none
  | ⟨.assign target e :: rest, w⟩ => do
    let v ← e.eval N w.store
    let ty ← types target
    let u ← N.assign ty v
    return ⟨rest, w.set target u⟩
  | ⟨.input target :: rest, w⟩ => do
    let ty ← types target
    let u ← w.read N ty target
    return ⟨rest, u⟩
  | ⟨.output e :: rest, w⟩ => do
    let v ← e.eval N w.store
    return ⟨rest, w.print v⟩
  | ⟨.ite c yes no :: rest, w⟩ => do
    let p ← c.eval N w.store
    return ⟨(if p then yes else no) :: rest, w⟩
  | ⟨.loop c body :: rest, w⟩ => do
    let p ← c.eval N w.store
    return ⟨if p then body :: .loop c body :: rest else rest, w⟩
  | ⟨.switch e cases otherwise :: rest, w⟩ => do
    match ← e.eval N w.store with
    | .int n => return ⟨Case.select n cases otherwise ++ rest, w⟩
    | .float _ => none
  | ⟨.leave :: _, _⟩ => none
  | ⟨.block body :: rest, w⟩ => return ⟨body ++ rest, w⟩

end QuadCode
