import QuadCode.Instr

/-!
# Fragments

Code that is being put together: instructions whose jumps go to labels, and
markers that give a label to the instruction that follows. A fragment may also
say where the value that it computes is found.

* `Fragment.emit`, `Fragment.place`, `Fragment.append` build fragments;
* `Fragment.instrs` and `Fragment.labels` are its instructions and its markers;
* `Fragment.text` is its listing, with markers at the margin and instructions
  indented.
-/

namespace QuadCode

/-- An entry of symbolic code. -/
inductive Item where
  /-- A marker of a label. -/
  | mark (label : Label)
  /-- An instruction. -/
  | instr (i : Instr Label)
  deriving DecidableEq, BEq, Repr

namespace Item

/-- The label of a marker. -/
def label? : Item → Option Label
  | mark l => some l
  | instr _ => none

/-- The instruction of an entry that is not a marker. -/
def instr? : Item → Option (Instr Label)
  | mark _ => none
  | instr i => some i

/-- The text of an entry by itself. -/
def text : Item → String
  | mark l => l.text
  | instr i => i.text Label.text

/-- The line of an entry in a listing. -/
def line : Item → String
  | mark l => l.text ++ ":\n"
  | instr i => "  " ++ i.text Label.text ++ "\n"

end Item

/-- Symbolic code with the place of its value, if it has one. -/
structure Fragment where
  items : List Item := []
  value : Option Value := none
  deriving DecidableEq, BEq, Repr

namespace Fragment

/-- No code and a value that is already there. -/
def ofValue (v : Value) : Fragment := { value := some v }

/-- Add an instruction. -/
def emit (f : Fragment) (i : Instr Label) : Fragment := { f with items := f.items ++ [.instr i] }

/-- Add a marker. -/
def place (f : Fragment) (l : Label) : Fragment := { f with items := f.items ++ [.mark l] }

/-- Add the code of `g`. The value of `f` stays and that of `g` is dropped. -/
def append (f g : Fragment) : Fragment := { f with items := f.items ++ g.items }

/-- The instructions in order. -/
def instrs (f : Fragment) : List (Instr Label) := f.items.filterMap Item.instr?

/-- The labels of the markers in order. -/
def labels (f : Fragment) : List Label := f.items.filterMap Item.label?

/-- The listing of a fragment. -/
def text (f : Fragment) : String := String.join (f.items.map Item.line)

@[simp] theorem instrs_emit (f : Fragment) (i : Instr Label) :
    (f.emit i).instrs = f.instrs ++ [i] := by simp [instrs, emit, Item.instr?]

@[simp] theorem instrs_place (f : Fragment) (l : Label) : (f.place l).instrs = f.instrs := by
  simp [instrs, place, Item.instr?]

@[simp] theorem instrs_append (f g : Fragment) :
    (f.append g).instrs = f.instrs ++ g.instrs := by simp [instrs, append]

@[simp] theorem labels_emit (f : Fragment) (i : Instr Label) : (f.emit i).labels = f.labels := by
  simp [labels, emit, Item.label?]

@[simp] theorem labels_place (f : Fragment) (l : Label) :
    (f.place l).labels = f.labels ++ [l] := by simp [labels, place, Item.label?]

@[simp] theorem labels_append (f g : Fragment) :
    (f.append g).labels = f.labels ++ g.labels := by simp [labels, append]

end Fragment

end QuadCode
