import QuadCode.Instr
import QuadCode.Scope

/-!
# Name supplies

A compilation draws two kinds of fresh names. A temporary is a variable that no
one else uses; it joins the scope like a declared variable. A label has a
number that was not given out before.

* `NameSupply.freshTemp` takes the first temporary name at or above a counter
  that is not in use, and moves the counter past it. A program may have declared
  names of this form, so some have to be skipped;
* `NameSupply.freshLabel` and `NameSupply.freshLabels` count upwards.
-/

namespace QuadCode

/-- The name of the temporary with number `n`. -/
def tempName (n : Nat) : String := "_t" ++ Nat.repr n

/-- The least number from `n` on whose temporary name is not in use. A scope cannot hold more names
than its size, so the search never has to look further than that. -/
def Scope.firstFree (s : Scope) (n : Nat) : Nat :=
  ((List.range' n s.size).find? fun k => !s.contains (tempName k)).getD (n + s.size)

/-- The names in use, and where the search for the next fresh ones starts. -/
structure NameSupply where
  scope : Scope := {}
  nextTemp : Nat := 0
  nextLabel : Nat := 0
  deriving DecidableEq, Repr

namespace NameSupply

/-- Declare a variable. A name in use leaves the supply as it is. -/
def declare (s : NameSupply) (name : String) (ty : Scalar) : Except Fault NameSupply :=
  (s.scope.declare name ty).map fun scope => { s with scope }

/-- A temporary that was not in use. -/
def freshTemp (s : NameSupply) (ty : Scalar) : String × NameSupply :=
  let n := s.scope.firstFree s.nextTemp
  (tempName n, { s with scope := s.scope.insert (tempName n) ty, nextTemp := n + 1 })

/-- A temporary for a truth value. -/
def freshFlag (s : NameSupply) : String × NameSupply := s.freshTemp .int

/-- A label that was not in use. -/
def freshLabel (s : NameSupply) : Label × NameSupply :=
  (⟨s.nextLabel⟩, { s with nextLabel := s.nextLabel + 1 })

/-- The number of the first of `n` labels with consecutive numbers that were not in use. -/
def freshLabels (s : NameSupply) (n : Nat) : Nat × NameSupply :=
  (s.nextLabel, { s with nextLabel := s.nextLabel + n })

@[simp] theorem scope_freshLabel (s : NameSupply) : s.freshLabel.2.scope = s.scope := rfl

@[simp] theorem nextLabel_freshTemp (s : NameSupply) (ty : Scalar) :
    (s.freshTemp ty).2.nextLabel = s.nextLabel := rfl

end NameSupply

end QuadCode
