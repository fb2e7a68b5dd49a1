import QuadCode.Fault

/-!
# Scopes

A scope gives types to names. Names are only ever added, and a name keeps the
type that it was given first.

`Scope.find?` is the view of a scope through which the other operations are
described.
-/

namespace QuadCode

/-- The names in use with their types, the latest first. -/
structure Scope where
  entries : List (String × Scalar) := []
  deriving DecidableEq, Repr

namespace Scope

/-- The type of a name, if it has one. -/
def find? (s : Scope) (name : String) : Option Scalar := s.entries.lookup name

/-- The name is in use. -/
def contains (s : Scope) (name : String) : Bool := (s.find? name).isSome

/-- The number of names in use. -/
def size (s : Scope) : Nat := s.entries.length

/-- Add a name. -/
def insert (s : Scope) (name : String) (ty : Scalar) : Scope := ⟨(name, ty) :: s.entries⟩

/-- The type of a name that has to be in use. -/
def typeOf (s : Scope) (name : String) : Except Fault Scalar :=
  match s.find? name with
  | some ty => .ok ty
  | none => .error (.undeclared name)

/-- Add a name that must not be in use. -/
def declare (s : Scope) (name : String) (ty : Scalar) : Except Fault Scope :=
  match s.find? name with
  | some existing => .error (.redeclared name existing)
  | none => .ok (s.insert name ty)

/-- Add names one after the other, up to the first that is in use. -/
def declareAll (s : Scope) (vars : List (String × Scalar)) : Except Fault Scope :=
  vars.foldlM (fun t v => t.declare v.1 v.2) s

@[simp] theorem find?_empty (name : String) : ({} : Scope).find? name = none := rfl

theorem find?_insert (s : Scope) (name other : String) (ty : Scalar) :
    (s.insert name ty).find? other = if other = name then some ty else s.find? other := by
  by_cases h : other = name
  · simp [find?, insert, h]
  · simp [find?, insert, List.lookup_cons, h, beq_eq_false_iff_ne.mpr h]

@[simp] theorem find?_insert_self (s : Scope) (name : String) (ty : Scalar) :
    (s.insert name ty).find? name = some ty := by simp [find?_insert]

@[simp] theorem size_insert (s : Scope) (name : String) (ty : Scalar) :
    (s.insert name ty).size = s.size + 1 := rfl

theorem typeOf_eq_ok_iff {s : Scope} {name : String} {ty : Scalar} :
    s.typeOf name = .ok ty ↔ s.find? name = some ty := by
  unfold typeOf
  cases s.find? name <;> simp

theorem declare_eq_ok_iff {s t : Scope} {name : String} {ty : Scalar} :
    s.declare name ty = .ok t ↔ s.find? name = none ∧ t = s.insert name ty := by
  unfold declare
  cases s.find? name <;> simp [eq_comm]

end Scope

end QuadCode
