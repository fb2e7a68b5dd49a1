import QuadCode.Proofs.Rounding
import QuadCode.Proofs.Temporaries

/-!
# Reading code

A reader of the text of executables. It takes the lines in front of the comment,
divides each at its single spaces and reads the opcode and the operands.

* numbers: `readNat?`, `readInt64?`, `readDecimal?`;
* operands: what starts with a digit or a sign is a literal, and one with a point
  is a double (`readLiteral?`); everything else must be a name (`readName?`);
* instructions: an opcode has a name of its own, or it is the letter of a type
  and the name of an operation (`Instr.readPlain?`, `Instr.readTyped?`);
* `readCode?` reads the text of an executable.

The reader undoes the writer on operands that are `Legible`: names are words and
doubles are finite (`readOperand?_text`, `Instr.ofTokens?_tokens`).
-/

namespace QuadCode

/-! ### The reader -/

/-- The characters of names. -/
def isWordChar (c : Char) : Bool := c.isAlphanum || c == '_'

/-- Names are nonempty words that do not start with a digit. -/
def isName : List Char → Bool
  | [] => false
  | c :: cs => !c.isDigit && (c :: cs).all isWordChar

/-- A name. -/
def readName? (cs : List Char) : Option String :=
  if isName cs then some (String.ofList cs) else none

/-- A nonempty sequence of digits. -/
def readNat? (cs : List Char) : Option ℕ :=
  if !cs.isEmpty && cs.all Char.isDigit then some (Nat.ofDigitChars 10 cs 0) else none

/-- The sign of a number, and the rest of it. -/
def readSign : List Char → Bool × List Char
  | '-' :: cs => (true, cs)
  | cs => (false, cs)

/-- An integer in the range of sixty-four bits, after its sign. -/
def readInt64? (negative : Bool) (cs : List Char) : Option Int64 :=
  (readNat? cs).bind fun n =>
    let value : ℤ := if negative then -n else n
    if (Int64.ofInt value).toInt = value then some (Int64.ofInt value) else none

/-- Digits, a point and digits. -/
def readDecimal? (cs : List Char) : Option Decimal :=
  match cs.splitOn '.' with
  | [whole, places] =>
    if whole.isEmpty || places.isEmpty then none
    else (readNat? (whole ++ places)).map fun n => ⟨n, places.length⟩
  | _ => none

/-- A literal. A point makes it a double. -/
def readLiteral? (cs : List Char) : Option Literal :=
  let (negative, number) := readSign cs
  if number.contains '.' then
    (readDecimal? number).map fun d => .float (Binary64.ofDecimal negative d)
  else (readInt64? negative number).map .int

/-- An operand. A digit or a sign makes it a literal. -/
def readOperand? (cs : List Char) : Option Operand :=
  if cs.head?.any fun c => c.isDigit || c == '-' then (readLiteral? cs).map .lit
  else (readName? cs).map .var

/-- The type of a letter. -/
def Scalar.ofLetter? (c : Char) : Option Scalar := [int, float].find? fun ty => ty.letter == c

/-- The operation of a mnemonic. -/
def Arith.ofMnemonic? (s : String) : Option Arith :=
  [add, sub, mul, div].find? fun op => op.mnemonic == s

/-- The comparison of a mnemonic. -/
def Comparison.ofMnemonic? (s : String) : Option Comparison :=
  [eq, ne, lt, gt].find? fun op => op.mnemonic == s

namespace Instr

/-- An instruction whose opcode does not start with the letter of a type. -/
def readPlain? (opcode : String) : List (List Char) → Option (Instr ℕ)
  | [] => if opcode = "HALT" then some halt else none
  | [a] => if opcode = "JUMP" then (readNat? a).map jump else none
  | [a, b] =>
    if opcode = "JMPZ" then do return jumpIfZero (← readNat? a) (← readOperand? b)
    else if opcode = "ITOR" then do return convert .float (← readName? a) (← readOperand? b)
    else if opcode = "RTOI" then do return convert .int (← readName? a) (← readOperand? b)
    else none
  | _ => none

/-- An instruction on the type `ty`, from the opcode behind its first letter. -/
def readTyped? (ty : Scalar) (mnemonic : String) : List (List Char) → Option (Instr ℕ)
  | [a] =>
    if mnemonic = "INP" then (readName? a).map (read ty)
    else if mnemonic = "PRT" then (readOperand? a).map (print ty)
    else none
  | [a, b] =>
    if mnemonic = "ASN" then do return copy ty (← readName? a) (← readOperand? b) else none
  | [a, b, c] =>
    match Arith.ofMnemonic? mnemonic, Comparison.ofMnemonic? mnemonic with
    | some op, _ => do return arith op ty (← readName? a) (← readOperand? b) (← readOperand? c)
    | none, some op => do
      return compare op ty (← readName? a) (← readOperand? b) (← readOperand? c)
    | none, none => none
  | _ => none

/-- An instruction, from its opcode and its operands. -/
def ofTokens? : List (List Char) → Option (Instr ℕ)
  | (letter :: mnemonic) :: operands =>
    readPlain? (String.ofList (letter :: mnemonic)) operands <|>
      (Scalar.ofLetter? letter).bind fun ty => readTyped? ty (String.ofList mnemonic) operands
  | _ => none

/-- An instruction, from its line. -/
def read? (line : List Char) : Option (Instr ℕ) := ofTokens? (line.splitOn ' ')

end Instr

/-- The lines of a text. -/
def linesOf (text : String) : List (List Char) := text.toList.splitOn '\n'

/-- A line that ends the code. -/
def isComment (line : List Char) : Bool := line.head? == some ';'

/-- The lines of a text in front of the first comment. -/
def codeLines (text : String) : List (List Char) := (linesOf text).takeWhile fun l => !isComment l

/-- The instructions in a text. -/
def readCode? (text : String) : Option (List (Instr ℕ)) := (codeLines text).mapM Instr.read?

/-! ### Numbers -/

theorem readNat?_of_digits {cs : List Char} (hne : cs ≠ []) (h : ∀ c ∈ cs, c.isDigit = true) :
    readNat? cs = some (Nat.ofDigitChars 10 cs 0) := by
  have hall : cs.all Char.isDigit = true := List.all_eq_true.2 h
  simp [readNat?, hall, hne]

theorem isDigit_of_mem_toDigits {n : ℕ} {c : Char} (h : c ∈ Nat.toDigits 10 n) :
    c.isDigit = true :=
  Nat.isDigit_of_mem_toDigits (by decide) (by decide) h

@[simp] theorem readNat?_toDigits (n : ℕ) : readNat? (Nat.toDigits 10 n) = some n := by
  rw [readNat?_of_digits Nat.toDigits_ne_nil fun _ => isDigit_of_mem_toDigits,
    Nat.ofDigitChars_ten_toDigits]

namespace Decimal

theorem isDigit_of_mem_lastDigits {k n : ℕ} {c : Char} (h : c ∈ lastDigits k n) :
    c.isDigit = true := by
  induction k generalizing n with
  | zero => exact absurd h List.not_mem_nil
  | succ k ih =>
    rcases List.mem_append.1 h with h | h
    · exact ih h
    · obtain rfl := List.mem_singleton.1 h
      simp [Nat.mod_lt]

/-- The last digits of `n` are those of a remainder. -/
theorem ofDigitChars_lastDigits (k n init : ℕ) :
    Nat.ofDigitChars 10 (lastDigits k n) init = 10 ^ k * init + n % 10 ^ k := by
  induction k generalizing n with
  | zero => simp [lastDigits, Nat.mod_one]
  | succ k ih =>
    have hmod : n % 10 ^ (k + 1) = n % 10 + 10 * (n / 10 % 10 ^ k) := by
      rw [pow_succ', Nat.mod_mul]
    rw [lastDigits, Nat.ofDigitChars_append, ih,
      Nat.ofDigitChars_cons_digitChar_of_lt_ten (Nat.mod_lt n (by decide)), Nat.ofDigitChars_nil,
      hmod, pow_succ]
    ring

theorem toList_text (d : Decimal) :
    d.text.toList = Nat.toDigits 10 (d.coefficient / 10 ^ d.places) ++
      '.' :: lastDigits d.places d.coefficient := by
  simp [text]

end Decimal

theorem point_not_mem_of_digits {cs : List Char} (h : ∀ c ∈ cs, c.isDigit = true) : '.' ∉ cs :=
  fun hmem => absurd (h _ hmem) (by decide)

theorem readDecimal?_text {d : Decimal} (h : 0 < d.places) :
    readDecimal? d.text.toList = some d := by
  generalize hw : Nat.toDigits 10 (d.coefficient / 10 ^ d.places) = whole
  generalize hp : Decimal.lastDigits d.places d.coefficient = places
  have hlen : places.length = d.places := hp ▸ Decimal.length_lastDigits _ _
  have hwhole : ∀ c ∈ whole, c.isDigit = true := fun c hc => isDigit_of_mem_toDigits (hw ▸ hc)
  have hplaces : ∀ c ∈ places, c.isDigit = true :=
    fun c hc => Decimal.isDigit_of_mem_lastDigits (hp ▸ hc)
  have hwne : whole ≠ [] := hw ▸ Nat.toDigits_ne_nil
  have hpne : places ≠ [] := List.ne_nil_of_length_pos (by omega)
  have hsplit : d.text.toList.splitOn '.' = [whole, places] := by
    rw [d.toList_text, hw, hp,
      List.splitOn_append_cons_self_of_not_mem (point_not_mem_of_digits hwhole),
      List.splitOn_eq_singleton (point_not_mem_of_digits hplaces)]
  have hdigits : ∀ c ∈ whole ++ places, c.isDigit = true := fun c hc =>
    (List.mem_append.1 hc).elim (hwhole c) (hplaces c)
  have hvalue : Nat.ofDigitChars 10 (whole ++ places) 0 = d.coefficient := by
    rw [Nat.ofDigitChars_append, ← hp, Decimal.ofDigitChars_lastDigits, ← hw,
      Nat.ofDigitChars_ten_toDigits]
    exact Nat.div_add_mod _ _
  have hread : readNat? (whole ++ places) = some d.coefficient := by
    rw [readNat?_of_digits (by simp [hwne]) hdigits, hvalue]
  simp [readDecimal?, hsplit, hwne, hpne, hread, hlen]

/-! ### Signs -/

/-- A number with its sign in front. -/
def signed (negative : Bool) (number : List Char) : List Char :=
  if negative then '-' :: number else number

/-- Numbers start with a digit. -/
def StartsWithDigit (cs : List Char) : Prop := ∃ c ∈ cs.head?, c.isDigit = true

theorem startsWithDigit_toDigits (n : ℕ) (rest : List Char) :
    StartsWithDigit (Nat.toDigits 10 n ++ rest) := by
  obtain ⟨c, cs, h⟩ := List.exists_cons_of_ne_nil (Nat.toDigits_ne_nil (n := n) (b := 10))
  rw [h]
  exact ⟨c, rfl, isDigit_of_mem_toDigits (h ▸ List.mem_cons_self)⟩

theorem readSign_signed {negative : Bool} {number : List Char} (h : StartsWithDigit number) :
    readSign (signed negative number) = (negative, number) := by
  obtain ⟨c, hc, hdigit⟩ := h
  cases negative with
  | true => rfl
  | false =>
    unfold readSign
    split
    · rename_i heq
      simp only [signed, Bool.false_eq_true, if_false] at heq
      subst heq
      cases hc
      exact absurd hdigit (by decide)
    · rfl

/-! ### Operands -/

/-- Doubles have to be finite. -/
def Literal.Legible : Literal → Prop
  | int _ => True
  | float x => x.isFinite = true

/-- Names have to be words. -/
def Operand.Legible : Operand → Prop
  | var name => isName name.toList = true
  | lit value => value.Legible

instance (l : Literal) : Decidable l.Legible :=
  match l with
  | .int _ => inferInstanceAs (Decidable True)
  | .float x => inferInstanceAs (Decidable (x.isFinite = true))

instance (o : Operand) : Decidable o.Legible :=
  match o with
  | .var name => inferInstanceAs (Decidable (isName name.toList = true))
  | .lit value => inferInstanceAs (Decidable value.Legible)

theorem readName?_of_isName {name : String} (h : isName name.toList = true) :
    readName? name.toList = some name := by
  simp [readName?, h]

theorem toList_repr_int (z : ℤ) :
    (Int.repr z).toList = signed (decide (z < 0)) (Nat.toDigits 10 z.natAbs) := by
  cases z with
  | ofNat n => simp [signed, Int.repr]
  | negSucc n => simp [signed, Int.repr]

theorem readInt64?_toDigits (n : Int64) :
    readInt64? (decide (n.toInt < 0)) (Nat.toDigits 10 n.toInt.natAbs) = some n := by
  have hvalue : (if decide (n.toInt < 0) then -(n.toInt.natAbs : ℤ) else n.toInt.natAbs)
      = n.toInt := by
    split_ifs with hneg <;> simp only [decide_eq_true_eq] at hneg <;> omega
  simp only [readInt64?, readNat?_toDigits, Option.bind_some, hvalue, Int64.ofInt_toInt, if_true]

theorem Binary64.toList_text {x : Binary64} (hx : x.isFinite = true) :
    x.text.toList = signed x.negative x.decimal.text.toList := by
  have hne : x.exponent ≠ 2047 := by simpa [isFinite] using hx
  cases hneg : x.negative <;> simp [text, isNaN, isInfinite, hne, sign, signed, hneg]

/-- The text of a literal is a number with a sign, and reading it gives the literal back. -/
theorem Literal.exists_number {l : Literal} (h : l.Legible) :
    ∃ negative number, l.text.toList = signed negative number ∧ StartsWithDigit number ∧
      readLiteral? (signed negative number) = some l := by
  cases l with
  | int n =>
    have hstart := startsWithDigit_toDigits n.toInt.natAbs []
    rw [List.append_nil] at hstart
    have hpoint : '.' ∉ Nat.toDigits 10 n.toInt.natAbs :=
      point_not_mem_of_digits fun _ => isDigit_of_mem_toDigits
    refine ⟨_, _, toList_repr_int n.toInt, hstart, ?_⟩
    simp [readLiteral?, readSign_signed hstart, hpoint, readInt64?_toDigits]
  | float x =>
    have hstart : StartsWithDigit x.decimal.text.toList := by
      rw [x.decimal.toList_text]
      exact startsWithDigit_toDigits _ _
    have hpoint : '.' ∈ x.decimal.text.toList := by simp [x.decimal.toList_text]
    refine ⟨_, _, Binary64.toList_text h, hstart, ?_⟩
    simp [readLiteral?, readSign_signed hstart, hpoint,
      readDecimal?_text x.places_decimal_pos, Binary64.ofDecimal_decimal h]

theorem readOperand?_text {o : Operand} (h : o.Legible) : readOperand? o.text.toList = some o := by
  cases o with
  | var name =>
    have hname : isName name.toList = true := h
    have hread : readName? name.toList = some name := readName?_of_isName hname
    have hhead : (name.toList.head?.any fun c => c.isDigit || c == '-') = false := by
      cases hcs : name.toList with
      | nil => rfl
      | cons c cs =>
        rw [hcs] at hname
        simp only [isName, List.all_cons, Bool.and_eq_true, Bool.not_eq_true'] at hname
        have hne : c ≠ '-' := by
          rintro rfl
          exact absurd hname.2.1 (by decide)
        simp [hname.1, hne]
    simp [readOperand?, Operand.text, hhead, hread]
  | lit l =>
    obtain ⟨negative, number, htext, ⟨c, hc, hdigit⟩, hread⟩ := Literal.exists_number h
    have hhead : ((signed negative number).head?.any fun c => c.isDigit || c == '-') = true := by
      cases negative with
      | true => rfl
      | false => simp [signed, Option.mem_def.1 hc, hdigit]
    simp [readOperand?, Operand.text, htext, hhead, hread]

/-! ### Instructions -/

theorem Scalar.toList_letter_append (ty : Scalar) (mnemonic : String) :
    (ty.letter.toString ++ mnemonic).toList = ty.letter :: mnemonic.toList := by
  simp

namespace Instr

variable {α : Type}

/-- All operands of an instruction can be read. -/
def Legible (i : Instr α) : Prop :=
  (∀ name ∈ i.dst?, isName name.toList = true) ∧ ∀ o ∈ i.reads, o.1.Legible

instance (i : Instr α) : Decidable i.Legible := inferInstanceAs (Decidable (_ ∧ _))

theorem ofTokens?_typed (ty : Scalar) (mnemonic : String) {operands : List (List Char)}
    (h : readPlain? (ty.letter.toString ++ mnemonic) operands = none) :
    ofTokens? ((ty.letter.toString ++ mnemonic).toList :: operands) =
      readTyped? ty mnemonic operands := by
  have hletter : Scalar.ofLetter? ty.letter = some ty := by cases ty <;> rfl
  have hback : String.ofList (ty.letter :: mnemonic.toList) = ty.letter.toString ++ mnemonic := by
    rw [← ty.toList_letter_append, String.ofList_toList]
  rw [ty.toList_letter_append, ofTokens?, hback, h, hletter, String.ofList_toList]
  rfl

/-- The opcode and the operands of an instruction, with `target` to write a jump target. -/
def tokens (target : α → String) (i : Instr α) : List (List Char) :=
  (i.opcode :: i.operands target).map String.toList

theorem ofTokens?_tokens {i : Instr ℕ} (h : i.Legible) :
    ofTokens? (i.tokens Nat.repr) = some i := by
  have hname : ∀ name ∈ i.dst?, readName? name.toList = some name :=
    fun name hn => readName?_of_isName (h.1 name hn)
  have hoperand : ∀ o ∈ i.reads, readOperand? o.1.text.toList = some o.1 :=
    fun o ho => readOperand?_text (h.2 o ho)
  cases i with
  | copy ty dst src =>
    have hdst := hname dst rfl
    have hsrc := hoperand (src, ty) List.mem_cons_self
    refine (ofTokens?_typed ty "ASN" ?_).trans ?_
    · cases ty <;> rfl
    · simp [operands, readTyped?, hdst, hsrc]
  | read ty dst =>
    have hdst := hname dst rfl
    refine (ofTokens?_typed ty "INP" ?_).trans ?_
    · cases ty <;> rfl
    · simp [operands, readTyped?, hdst]
  | print ty src =>
    have hsrc := hoperand (src, ty) List.mem_cons_self
    refine (ofTokens?_typed ty "PRT" ?_).trans ?_
    · cases ty <;> rfl
    · simp [operands, readTyped?, hsrc]
  | arith op ty dst lhs rhs =>
    have hdst := hname dst rfl
    have hlhs := hoperand (lhs, ty) List.mem_cons_self
    have hrhs := hoperand (rhs, ty) (List.mem_cons_of_mem _ List.mem_cons_self)
    have hop : Arith.ofMnemonic? op.mnemonic = some op := by cases op <;> rfl
    refine (ofTokens?_typed ty op.mnemonic rfl).trans ?_
    simp [operands, readTyped?, hop, hdst, hlhs, hrhs]
  | compare op ty dst lhs rhs =>
    have hdst := hname dst rfl
    have hlhs := hoperand (lhs, ty) List.mem_cons_self
    have hrhs := hoperand (rhs, ty) (List.mem_cons_of_mem _ List.mem_cons_self)
    have harith : Arith.ofMnemonic? op.mnemonic = none := by cases op <;> rfl
    have hop : Comparison.ofMnemonic? op.mnemonic = some op := by cases op <;> rfl
    refine (ofTokens?_typed ty op.mnemonic rfl).trans ?_
    simp [operands, readTyped?, harith, hop, hdst, hlhs, hrhs]
  | convert ty dst src =>
    have hdst := hname dst (by cases ty <;> rfl)
    have hsrc : readOperand? src.text.toList = some src := by
      cases ty <;> exact hoperand (src, _) List.mem_cons_self
    cases ty <;> simp [tokens, opcode, operands, ofTokens?, readPlain?, hdst, hsrc]
  | jump target => simp [tokens, opcode, operands, ofTokens?, readPlain?]
  | jumpIfZero target cond =>
    have hcond := hoperand (cond, .int) List.mem_cons_self
    simp [tokens, opcode, operands, ofTokens?, readPlain?, hcond]
  | halt => rfl

end Instr

end QuadCode
