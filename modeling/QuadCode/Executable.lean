import QuadCode.Fault
import QuadCode.Fragment
import QuadCode.Repetition

/-!
# Executables

A finished program: the jump targets are line numbers, counted from zero, and
the last line is a halt. Its text has one line for each instruction and then a
comment with the signature.

`Fragment.link` makes an executable of a fragment. The markers vanish; a label
stands for the number of instructions before its marker. Labels placed twice
are found before labels that are not placed.
-/

namespace QuadCode

/-- A finished program. -/
structure Executable where
  instrs : List (Instr Nat)
  signature : String
  deriving DecidableEq, BEq, Repr

/-- The text of a finished program. -/
def Executable.text (x : Executable) : String :=
  String.join (x.instrs.map fun i => i.text Nat.repr ++ "\n") ++
    "; generated by " ++ x.signature ++ "\n"

/-- The number of instructions before the marker of a label, if there is one. -/
def Label.addressIn? (l : Label) : List Item → Option Nat
  | [] => none
  | .mark m :: items => if m = l then some 0 else l.addressIn? items
  | .instr _ :: items => (l.addressIn? items).map (· + 1)

/-- The line number of a label that has to be placed. -/
def Label.resolve (items : List Item) (l : Label) : Except Fault Nat :=
  match l.addressIn? items with
  | some n => .ok n
  | none => .error (.unplacedLabel l.text)

/-- The lines of the finished program before its labels are resolved: the code falls into a halt. -/
def Fragment.lines (f : Fragment) : List (Instr Label) := f.instrs ++ [.halt]

/-- The finished program of a fragment. -/
def Fragment.link (f : Fragment) (signature : String) : Except Fault Executable := do
  match firstRepeat? f.labels with
  | some l => throw (.duplicateLabel l.text)
  | none =>
    let instrs ← f.lines.mapM (Instr.mapTarget (Label.resolve f.items))
    return { instrs, signature }

end QuadCode
