import QuadCode.Stmt
import Mathlib.Data.List.Flatten

/-!
# Statements within statements

Statements nest through branches, loops, blocks and switches, so a property of
statements is proved together with the same property of all their parts.

* `Stmt.induction` is that induction, with lists of statements and cases taken
  member by member;
* `Stmt.parts` lists a statement with all statements inside it, and what depends
  on the whole tree is a fold over this list;
* `Expr.names`, `Cond.names`, `Stmt.names` are the names that a tree mentions.
-/

namespace QuadCode

/-- A property of statements holds of all if it passes from the parts of a statement to it. -/
theorem Stmt.induction {motive : Stmt → Prop}
    (assign : ∀ target e, motive (.assign target e))
    (input : ∀ target, motive (.input target))
    (output : ∀ e, motive (.output e))
    (ite : ∀ c yes no, motive yes → motive no → motive (.ite c yes no))
    (loop : ∀ c body, motive body → motive (.loop c body))
    (switch : ∀ e cases otherwise, (∀ c ∈ cases, ∀ s ∈ c.body, motive s) →
      (∀ s ∈ otherwise, motive s) → motive (.switch e cases otherwise))
    (leave : motive .leave)
    (block : ∀ body, (∀ s ∈ body, motive s) → motive (.block body)) (s : Stmt) : motive s :=
  @Stmt.rec motive (fun c => ∀ s ∈ c.body, motive s)
    (fun cases => ∀ c ∈ cases, ∀ s ∈ c.body, motive s) (fun l => ∀ s ∈ l, motive s)
    assign input output ite loop switch leave block
    (fun _ _ h => h)
    (fun _ h => absurd h List.not_mem_nil)
    (fun _ _ hc hcases => List.forall_mem_cons.2 ⟨hc, hcases⟩)
    (fun _ h => absurd h List.not_mem_nil)
    (fun _ _ hs hl => List.forall_mem_cons.2 ⟨hs, hl⟩) s

mutual

/-- A statement and all statements inside it. -/
def Stmt.parts : Stmt → List Stmt
  | .ite c yes no => .ite c yes no :: (yes.parts ++ no.parts)
  | .loop c body => .loop c body :: body.parts
  | .switch e cases otherwise =>
    .switch e cases otherwise :: (Stmt.partsAll otherwise ++ Case.partsAll cases)
  | .block body => .block body :: Stmt.partsAll body
  | s => [s]

/-- All statements inside a list of statements. -/
def Stmt.partsAll : List Stmt → List Stmt
  | [] => []
  | s :: l => s.parts ++ Stmt.partsAll l

/-- All statements inside the bodies of cases. -/
def Case.partsAll : List Case → List Stmt
  | [] => []
  | ⟨_, body⟩ :: cases => Stmt.partsAll body ++ Case.partsAll cases

end

/-- The names that an expression mentions. -/
def Expr.names : Expr → List String
  | lit _ => []
  | var name => [name]
  | arith _ l r => l.names ++ r.names
  | cast _ e => e.names

/-- The names that a condition mentions. -/
def Cond.names : Cond → List String
  | or l r => l.names ++ r.names
  | and l r => l.names ++ r.names
  | not c => c.names
  | rel _ l r => l.names ++ r.names

/-- The names that a statement mentions outside the statements inside it. -/
def Stmt.headNames : Stmt → List String
  | .assign target e => target :: e.names
  | .input target => [target]
  | .output e => e.names
  | .ite c _ _ => c.names
  | .loop c _ => c.names
  | .switch e _ _ => e.names
  | .leave => []
  | .block _ => []

/-- The names that a statement mentions. -/
def Stmt.names (s : Stmt) : List String := s.parts.flatMap Stmt.headNames

/-- The names that a list of statements mentions. -/
def Stmt.namesAll (l : List Stmt) : List String := (Stmt.partsAll l).flatMap Stmt.headNames

/-- The names that the bodies of cases mention. -/
def Case.namesAll (cases : List Case) : List String :=
  (Case.partsAll cases).flatMap Stmt.headNames

namespace Stmt

attribute [local simp] names namesAll parts partsAll headNames

@[simp] theorem names_assign (target : String) (e : Expr) :
    (assign target e).names = target :: e.names := by simp

@[simp] theorem names_input (target : String) : (input target).names = [target] := by simp

@[simp] theorem names_output (e : Expr) : (output e).names = e.names := by simp

@[simp] theorem names_ite (c : Cond) (yes no : Stmt) :
    (ite c yes no).names = c.names ++ (yes.names ++ no.names) := by simp

@[simp] theorem names_loop (c : Cond) (body : Stmt) :
    (loop c body).names = c.names ++ body.names := by simp

@[simp] theorem names_switch (e : Expr) (cases : List Case) (otherwise : List Stmt) :
    (switch e cases otherwise).names =
      e.names ++ (namesAll otherwise ++ Case.namesAll cases) := by
  simp [Case.namesAll]

@[simp] theorem names_block (body : List Stmt) : (block body).names = namesAll body := by simp

@[simp] theorem namesAll_nil : namesAll [] = [] := rfl

@[simp] theorem namesAll_cons (s : Stmt) (l : List Stmt) :
    namesAll (s :: l) = s.names ++ namesAll l := by simp

end Stmt

@[simp] theorem Case.namesAll_nil : Case.namesAll [] = [] := rfl

@[simp] theorem Case.namesAll_cons (number : Int64) (body : List Stmt) (cases : List Case) :
    Case.namesAll (⟨number, body⟩ :: cases) = Stmt.namesAll body ++ Case.namesAll cases := by
  simp [Stmt.namesAll, Case.namesAll, Case.partsAll]

/-- The names that the body of a program mentions. -/
def Program.mentioned (p : Program) : List String := Stmt.namesAll p.body

/-- The type that a program declares for a name, if it declares the name. -/
def Program.types (p : Program) (name : String) : Option Scalar := p.declared.lookup name

/-- The body of a program mentions declared names only. -/
def Program.Closed (p : Program) : Prop := ∀ x ∈ p.mentioned, p.types x ≠ none

/-- A program that has a use for every construct: it counts `n` down and adds up in `x`. -/
def Program.sample : Program where
  declarations := [⟨["n"], .int⟩, ⟨["x"], .float⟩]
  body := [
    .input "n",
    .assign "x" (.var "n"),
    .loop (.and (.rel .ge (.var "n") (.lit (.int 1))) (.not (.rel .lt (.var "x") (.var "n"))))
      (.block [
        .switch (.var "n") [⟨1, [.output (.var "x")]⟩, ⟨2, []⟩] [.output (.var "n")],
        .ite (.or (.rel .eq (.var "n") (.lit (.int 2))) (.rel .ne (.var "x") (.var "n")))
          (.assign "x" (.arith .add (.var "x") (.var "n")))
          (.block []),
        .assign "n" (.arith .sub (.var "n") (.cast .int (.var "x")))])]

end QuadCode
