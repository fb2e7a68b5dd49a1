import QuadCode.Executable
import Mathlib.Computability.StateTransition
import Mathlib.Logic.Function.Basic
import Mathlib.Tactic

/-!
# The machine

The machine keeps a store, a queue of input and a list of output, and runs the
lines of a program one after the other unless a jump says otherwise.

* `Numerics` is the arithmetic of the machine. Every operation may be undefined;
  all that is known is that integers are compared exactly and that the sums of
  truth values are right;
* `Instr.exec` is the effect of an instruction, over any type of jump targets;
* `Config.step` is a step of the machine. A run ends at a halt, and it sticks
  where an instruction has no effect.

An operand of the other type than the instruction's is converted when it is read.
-/

namespace QuadCode

/-- The integer of a truth value. -/
def flag (b : Bool) : Int64 := if b then 1 else 0

@[simp] theorem flag_true : flag true = 1 := rfl

@[simp] theorem flag_false : flag false = 0 := rfl

/-- A comparison of integers. -/
def Comparison.ofInts : Comparison → Int64 → Int64 → Bool
  | eq, m, n => m == n
  | ne, m, n => m != n
  | lt, m, n => decide (m < n)
  | gt, m, n => decide (n < m)

/-- The operations on numbers that a program and its code have in common. -/
structure Numerics where
  intArith : Arith → Int64 → Int64 → Option Int64
  floatArith : Arith → Binary64 → Binary64 → Option Binary64
  floatCompare : Comparison → Binary64 → Binary64 → Option Bool
  toFloat : Int64 → Option Binary64
  toInt : Binary64 → Option Int64
  readInt : String → Option Int64
  readFloat : String → Option Binary64
  add_flags : ∀ p q, intArith .add (flag p) (flag q) = some (flag p + flag q)

namespace Numerics

variable (N : Numerics)

/-- A number brought to a type. -/
def convert : Scalar → Literal → Option Literal
  | .float, .int n => (N.toFloat n).map .float
  | .int, .float x => (N.toInt x).map .int
  | _, v => some v

/-- An arithmetic operation on numbers of one type. -/
def arith (op : Arith) : Literal → Literal → Option Literal
  | .int m, .int n => (N.intArith op m n).map .int
  | .float x, .float y => (N.floatArith op x y).map .float
  | _, _ => none

/-- A comparison of numbers of one type. -/
def compare (op : Comparison) : Literal → Literal → Option Bool
  | .int m, .int n => some (op.ofInts m n)
  | .float x, .float y => N.floatCompare op x y
  | _, _ => none

/-- A number of a type as it stands in the input. -/
def read : Scalar → String → Option Literal
  | .int, text => (N.readInt text).map .int
  | .float, text => (N.readFloat text).map .float

theorem convert_self {v : Literal} {ty : Scalar} (h : v.ty = ty) : N.convert ty v = some v := by
  subst h
  cases v <;> rfl

theorem ty_of_convert {ty : Scalar} {u v : Literal} (h : N.convert ty u = some v) : v.ty = ty := by
  cases ty <;> cases u <;> simp [convert] at h
  case int.int => rw [← h]; rfl
  case int.float => obtain ⟨n, -, rfl⟩ := h; rfl
  case float.int => obtain ⟨x, -, rfl⟩ := h; rfl
  case float.float => rw [← h]; rfl

theorem ty_of_arith {op : Arith} {u v r : Literal} (h : N.arith op u v = some r) : r.ty = u.ty := by
  cases u <;> cases v <;> simp [arith] at h
  case int.int => obtain ⟨n, -, rfl⟩ := h; rfl
  case float.float => obtain ⟨x, -, rfl⟩ := h; rfl

theorem ty_of_read {ty : Scalar} {text : String} {v : Literal} (h : N.read ty text = some v) :
    v.ty = ty := by
  cases ty <;> simp [read] at h <;> obtain ⟨n, -, rfl⟩ := h <;> rfl

/-- Wrapping arithmetic. -/
def wordArith : Arith → Int64 → Int64 → Option Int64
  | .add, m, n => some (m + n)
  | .sub, m, n => some (m - n)
  | .mul, m, n => some (m * n)
  | .div, m, n => if n = 0 then none else some (m / n)

/-- Words with wrapping arithmetic. A float is handled as the word that has its bits. -/
def words : Numerics where
  intArith := wordArith
  floatArith op x y :=
    (wordArith op x.bits.toInt64 y.bits.toInt64).map fun n => ⟨n.toUInt64⟩
  floatCompare op x y := some (op.ofInts x.bits.toInt64 y.bits.toInt64)
  toFloat n := some ⟨n.toUInt64⟩
  toInt x := some x.bits.toInt64
  readInt text := text.toInt?.map Int64.ofInt
  readFloat text := text.toInt?.map fun n => ⟨(Int64.ofInt n).toUInt64⟩
  add_flags _ _ := rfl

end Numerics

/-- The store, the input that is left and the output so far. -/
structure World where
  store : String → Option Literal
  input : List String
  output : List Literal

namespace World

/-- Give a variable a value. -/
def set (w : World) (name : String) (v : Literal) : World :=
  { w with store := Function.update w.store name (some v) }

/-- Append a number to the output. -/
def print (w : World) (v : Literal) : World := { w with output := w.output ++ [v] }

/-- Give a variable the next number of the input. -/
def read (N : Numerics) (w : World) (ty : Scalar) (name : String) : Option World :=
  match w.input with
  | [] => none
  | text :: rest => do
    let v ← N.read ty text
    return { w with input := rest }.set name v

/-- The value of an operand. -/
def value (w : World) : Operand → Option Literal
  | .var name => w.store name
  | .lit v => some v

/-- The value of an operand, brought to a type. -/
def fetch (N : Numerics) (w : World) (ty : Scalar) (o : Operand) : Option Literal :=
  (w.value o).bind (N.convert ty)

@[simp] theorem store_set (w : World) (name : String) (v : Literal) :
    (w.set name v).store = Function.update w.store name (some v) := rfl

@[simp] theorem input_set (w : World) (name : String) (v : Literal) :
    (w.set name v).input = w.input := rfl

@[simp] theorem output_set (w : World) (name : String) (v : Literal) :
    (w.set name v).output = w.output := rfl

@[simp] theorem store_print (w : World) (v : Literal) : (w.print v).store = w.store := rfl

@[simp] theorem input_print (w : World) (v : Literal) : (w.print v).input = w.input := rfl

@[simp] theorem output_print (w : World) (v : Literal) :
    (w.print v).output = w.output ++ [v] := rfl

@[simp] theorem value_lit (w : World) (v : Literal) : w.value (.lit v) = some v := rfl

@[simp] theorem value_var (w : World) (name : String) : w.value (.var name) = w.store name := rfl

theorem exists_of_read {N : Numerics} {w u : World} {ty : Scalar} {name : String}
    (h : w.read N ty name = some u) :
    ∃ rest v, v.ty = ty ∧ u = { w with input := rest }.set name v := by
  unfold read at h
  split at h
  · cases h
  · obtain ⟨v, hv, hu⟩ := Option.bind_eq_some_iff.1 h
    exact ⟨_, v, N.ty_of_read hv, (Option.some.inj hu).symm⟩

end World

/-- Where control goes after an instruction. -/
inductive Control (α : Type) where
  | next
  | goto (target : α)
  | stop

/-- The effect of an instruction, if it has one. -/
def Instr.exec {α : Type} (N : Numerics) (w : World) : Instr α → Option (Control α × World)
  | copy ty dst src => do
    let v ← w.fetch N ty src
    return (.next, w.set dst v)
  | read ty dst => do
    let u ← w.read N ty dst
    return (.next, u)
  | print ty src => do
    let v ← w.fetch N ty src
    return (.next, w.print v)
  | arith op ty dst lhs rhs => do
    let a ← w.fetch N ty lhs
    let b ← w.fetch N ty rhs
    let v ← N.arith op a b
    return (.next, w.set dst v)
  | compare op ty dst lhs rhs => do
    let a ← w.fetch N ty lhs
    let b ← w.fetch N ty rhs
    let p ← N.compare op a b
    return (.next, w.set dst (.int (flag p)))
  | convert ty dst src => do
    let v ← w.fetch N ty src
    return (.next, w.set dst v)
  | jump target => some (.goto target, w)
  | jumpIfZero target cond => do
    let v ← w.fetch N .int cond
    return (if v = .int 0 then .goto target else .next, w)
  | halt => some (.stop, w)

/-- A state of the machine: the line that is next, and the world. -/
structure Config where
  line : Nat
  world : World

/-- Where the machine stands after an instruction. -/
def Control.config (line : Nat) (w : World) : Control Nat → Option Config
  | next => some ⟨line + 1, w⟩
  | goto target => some ⟨target, w⟩
  | stop => none

/-- A step of the machine. -/
def Config.step (N : Numerics) (code : List (Instr Nat)) (c : Config) : Option Config := do
  let i ← code[c.line]?
  let (control, w) ← i.exec N c.world
  control.config c.line w

/-- The machine is at a halt. -/
def Config.Halted (code : List (Instr Nat)) (c : Config) : Prop := code[c.line]? = some .halt

/-- The machine is not at a halt and has no step to make. -/
def Config.Stuck (N : Numerics) (code : List (Instr Nat)) (c : Config) : Prop :=
  c.step N code = none ∧ ¬ c.Halted code

/-! ### What a step does -/

/-- Control says which kind of instruction was executed. -/
theorem Instr.control_of_exec {α : Type} {N : Numerics} {w u : World} {i : Instr α}
    {control : Control α} (h : i.exec N w = some (control, u)) :
    (control = .next ∧ i ≠ .halt) ∨ (∃ l, control = .goto l ∧ i.target? = some l) ∨
      (control = .stop ∧ i = .halt) := by
  cases i with
  | jump l =>
    simp only [exec, Option.some.injEq, Prod.mk.injEq] at h
    exact Or.inr (Or.inl ⟨l, h.1.symm, rfl⟩)
  | jumpIfZero l cond =>
    simp only [exec, Option.bind_eq_bind, Option.bind_eq_some_iff, Option.pure_def,
      Option.some.injEq, Prod.mk.injEq] at h
    obtain ⟨v, -, hv, -⟩ := h
    split_ifs at hv
    · exact Or.inr (Or.inl ⟨l, hv.symm, rfl⟩)
    · exact Or.inl ⟨hv.symm, by simp⟩
  | halt =>
    simp only [exec, Option.some.injEq, Prod.mk.injEq] at h
    exact Or.inr (Or.inr ⟨h.1.symm, rfl⟩)
  | _ =>
    refine Or.inl ⟨?_, by simp⟩
    simp only [exec, Option.bind_eq_bind, Option.bind_eq_some_iff, Option.pure_def,
      Option.some.injEq, Prod.mk.injEq] at h
    grind

namespace Config

variable {N : Numerics} {code : List (Instr Nat)}

/-- A step executes an instruction that goes on to the next line or jumps. -/
theorem step_eq_some_iff {c d : Config} :
    c.step N code = some d ↔ ∃ i, code[c.line]? = some i ∧
      ((i.exec N c.world = some (.next, d.world) ∧ d.line = c.line + 1) ∨
        i.exec N c.world = some (.goto d.line, d.world)) := by
  obtain ⟨line, w⟩ := d
  simp only [step, Option.bind_eq_bind, Option.bind_eq_some_iff]
  constructor
  · rintro ⟨i, hi, ⟨control, u⟩, hu, hd⟩
    refine ⟨i, hi, ?_⟩
    cases control <;> simp only [Control.config, reduceCtorEq, Option.some.injEq,
      Config.mk.injEq] at hd
    · obtain ⟨rfl, rfl⟩ := hd
      exact Or.inl ⟨hu, rfl⟩
    · obtain ⟨rfl, rfl⟩ := hd
      exact Or.inr hu
  · rintro ⟨i, hi, ⟨hu, rfl⟩ | hu⟩
    · exact ⟨i, hi, _, hu, rfl⟩
    · exact ⟨i, hi, _, hu, rfl⟩

theorem exec_of_step {c d : Config} (h : c.step N code = some d) :
    ∃ i control, code[c.line]? = some i ∧ i.exec N c.world = some (control, d.world) := by
  obtain ⟨i, hi, ⟨hexec, -⟩ | hexec⟩ := step_eq_some_iff.1 h
  · exact ⟨i, _, hi, hexec⟩
  · exact ⟨i, _, hi, hexec⟩

/-- The machine sticks at an instruction without an effect. -/
theorem stuck_of_exec {c : Config} {i : Instr Nat} (hi : code[c.line]? = some i)
    (h : i.exec N c.world = none) : c.Stuck N code := by
  constructor
  · simp [step, hi, h]
  · intro hhalt
    obtain rfl := Option.some.inj (hi.symm.trans hhalt)
    simp [Instr.exec] at h

theorem step_of_halted {c : Config} (h : c.Halted code) : c.step N code = none := by
  simp [step, show code[c.line]? = some .halt from h, Instr.exec, Control.config]

end Config

end QuadCode
