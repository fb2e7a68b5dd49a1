import QuadCode.Fragment
import QuadCode.NameSupply

/-!
# Lowering

Lowering turns trees into symbolic code. It draws temporaries and labels from a
name supply and stops at the first fault.

* `Lower` is the type of lowering steps, and `Lower.bind_eq_ok_iff` takes a
  successful run of several apart;
* `Lowered` is the code of an expression together with the place of its value.
-/

namespace QuadCode

/-- A step that draws names from a supply and may fail. -/
abbrev Lower := StateT NameSupply (Except Fault)

namespace Lower

variable {α β : Type}

/-- A step that leaves the supply as it is. -/
def ofExcept (r : Except Fault α) : Lower α := fun s => r.map (·, s)

/-- The type of a name in scope. -/
def typeOf (name : String) : Lower Scalar := fun s => ofExcept (s.scope.typeOf name) s

/-- Add variables to the scope. -/
def declareAll (vars : List (String × Scalar)) : Lower Unit := fun s =>
  (s.scope.declareAll vars).map fun scope => ((), { s with scope })

/-- Draw a temporary. -/
def freshTemp (ty : Scalar) : Lower String := fun s => .ok (s.freshTemp ty)

/-- Draw a temporary for a truth value. -/
def freshFlag : Lower String := fun s => .ok s.freshFlag

/-- Draw a label. -/
def freshLabel : Lower Label := fun s => .ok s.freshLabel

/-- Draw labels with consecutive numbers. The result is the first number. -/
def freshLabels (n : Nat) : Lower Nat := fun s => .ok (s.freshLabels n)

/-! ### Runs that succeed -/

@[simp] theorem pure_eq_ok_iff {a : α} {s : NameSupply} {r : α × NameSupply} :
    (pure a : Lower α) s = .ok r ↔ r = (a, s) := by
  show Except.ok (a, s) = Except.ok r ↔ r = (a, s)
  rw [Except.ok.injEq, eq_comm]

/-- Two steps succeed if the first does and the second does from where the first has ended. -/
@[simp] theorem bind_eq_ok_iff {x : Lower α} {f : α → Lower β} {s : NameSupply}
    {r : β × NameSupply} :
    (x >>= f) s = .ok r ↔ ∃ a t, x s = .ok (a, t) ∧ f a t = .ok r := by
  simp only [bind, StateT.bind, Except.bind]
  rcases x s with e | ⟨a, t⟩
  · simp
  · constructor
    · exact fun h => ⟨a, t, rfl, h⟩
    · rintro ⟨_, _, ⟨⟩, h⟩
      exact h

@[simp] theorem map_eq_ok_iff {x : Lower α} {f : α → β} {s : NameSupply} {r : β × NameSupply} :
    (f <$> x) s = .ok r ↔ ∃ a t, x s = .ok (a, t) ∧ r = (f a, t) := by
  rw [map_eq_pure_bind, bind_eq_ok_iff]
  simp only [pure_eq_ok_iff]

@[simp] theorem ofExcept_eq_ok_iff {e : Except Fault α} {s : NameSupply} {r : α × NameSupply} :
    ofExcept e s = .ok r ↔ e = .ok r.1 ∧ r.2 = s := by
  rcases r with ⟨a, t⟩
  cases e <;> simp [ofExcept, Except.map, eq_comm]

@[simp] theorem typeOf_eq_ok_iff {name : String} {s : NameSupply} {r : Scalar × NameSupply} :
    typeOf name s = .ok r ↔ s.scope.find? name = some r.1 ∧ r.2 = s := by
  rw [← Scope.typeOf_eq_ok_iff]
  exact ofExcept_eq_ok_iff

@[simp] theorem freshTemp_eq_ok_iff {ty : Scalar} {s : NameSupply} {r : String × NameSupply} :
    freshTemp ty s = .ok r ↔ r = s.freshTemp ty := by simp [freshTemp, eq_comm]

@[simp] theorem freshFlag_eq_ok_iff {s : NameSupply} {r : String × NameSupply} :
    freshFlag s = .ok r ↔ r = s.freshTemp .int := by
  simp [freshFlag, NameSupply.freshFlag, eq_comm]

@[simp] theorem freshLabel_eq_ok_iff {s : NameSupply} {r : Label × NameSupply} :
    freshLabel s = .ok r ↔ r = s.freshLabel := by simp [freshLabel, eq_comm]

@[simp] theorem freshLabels_eq_ok_iff {n : Nat} {s : NameSupply} {r : Nat × NameSupply} :
    freshLabels n s = .ok r ↔ r = s.freshLabels n := by simp [freshLabels, eq_comm]

end Lower

/-- The code of an expression and the place of its value once the code has run. -/
structure Lowered where
  code : List Item
  value : Value
  deriving DecidableEq, Repr

namespace Lowered

/-- The operand that holds the value. -/
abbrev operand (x : Lowered) : Operand := x.value.operand

/-- The type of the value. -/
abbrev ty (x : Lowered) : Scalar := x.value.ty

/-- Code that leaves its value in a variable. -/
def inVar (code : List Item) (name : String) (ty : Scalar) : Lowered := ⟨code, ⟨.var name, ty⟩⟩

end Lowered

end QuadCode
