import QuadCode.Proofs.Reading

/-!
# Code is determined by its text

What separates the parts of a text does not occur in the parts: there is no
space in an opcode or an operand, no line break in a line, and no line of code
starts like a comment. So a text divides into the lines and the lines into the
tokens that it was made of, and reading it gives the code back.

* `Instr.read?_line`: an instruction is determined by its line;
* `Executable.linesOf_text`: the lines of a text are those of the instructions
  and then those of the comment, whatever the signature is;
* `text_determines_code`: reading the text of code gives the code back.
-/

namespace QuadCode

/-! ### Characters -/

/-- The characters of opcodes and operands. -/
def isTokenChar (c : Char) : Bool := isWordChar c || c == '-' || c == '.'

/-- Opcodes and operands are nonempty. -/
def isToken (cs : List Char) : Bool := !cs.isEmpty && cs.all isTokenChar

/-- Nonempty words. Unlike a name, a word may start with a digit. -/
def isWord (cs : List Char) : Bool := !cs.isEmpty && cs.all isWordChar

theorem isToken_iff {cs : List Char} :
    isToken cs = true ↔ cs ≠ [] ∧ ∀ c ∈ cs, isTokenChar c = true := by
  simp [isToken]

theorem isWord_iff {cs : List Char} :
    isWord cs = true ↔ cs ≠ [] ∧ ∀ c ∈ cs, isWordChar c = true := by
  simp [isWord]

theorem isWord_of_isName {cs : List Char} (h : isName cs = true) : isWord cs = true := by
  cases cs with
  | nil => exact h
  | cons c cs =>
    rw [isName, Bool.and_eq_true] at h
    exact h.2

theorem isToken_of_isWord {cs : List Char} (h : isWord cs = true) : isToken cs = true := by
  obtain ⟨hne, hword⟩ := isWord_iff.1 h
  refine isToken_iff.2 ⟨hne, fun c hc => ?_⟩
  simp [isTokenChar, hword c hc]

theorem isTokenChar_of_isDigit {c : Char} (h : c.isDigit = true) : isTokenChar c = true := by
  simp [isTokenChar, isWordChar, Char.isAlphanum, h]

theorem isToken_toDigits (n : ℕ) : isToken (Nat.toDigits 10 n) = true :=
  isToken_iff.2
    ⟨Nat.toDigits_ne_nil, fun _ hc => isTokenChar_of_isDigit (isDigit_of_mem_toDigits hc)⟩

theorem isToken_repr (n : ℕ) : isToken (Nat.repr n).toList = true := by
  rw [Nat.toList_repr]
  exact isToken_toDigits n

theorem isToken_signed (negative : Bool) {number : List Char} (h : isToken number = true) :
    isToken (signed negative number) = true := by
  cases negative with
  | false => exact h
  | true =>
    obtain ⟨-, hnumber⟩ := isToken_iff.1 h
    exact isToken_iff.2 ⟨List.cons_ne_nil _ _, List.forall_mem_cons.2 ⟨rfl, hnumber⟩⟩

theorem Decimal.isToken_text (d : Decimal) : isToken d.text.toList = true := by
  obtain ⟨-, hwhole⟩ := isToken_iff.1 (isToken_toDigits (d.coefficient / 10 ^ d.places))
  rw [d.toList_text, isToken_iff]
  refine ⟨by simp, List.forall_mem_append.2 ⟨hwhole, List.forall_mem_cons.2 ⟨rfl, fun c hc => ?_⟩⟩⟩
  exact isTokenChar_of_isDigit (isDigit_of_mem_lastDigits hc)

/-- The texts of doubles that are not finite are tokens too. -/
theorem Binary64.isToken_text (x : Binary64) : isToken x.text.toList = true := by
  have hsign : ∀ s : String, (x.sign ++ s).toList = signed x.negative s.toList := by
    intro s
    cases hneg : x.negative <;> simp [sign, signed, hneg]
  unfold text
  split_ifs
  · decide
  · rw [hsign]
    exact isToken_signed _ (by decide)
  · rw [hsign]
    exact isToken_signed _ x.decimal.isToken_text

theorem Literal.isToken_text (l : Literal) : isToken l.text.toList = true := by
  cases l with
  | int n =>
    show isToken (Int.repr n.toInt).toList = true
    rw [toList_repr_int]
    exact isToken_signed _ (isToken_toDigits _)
  | float x => exact x.isToken_text

/-- What occurs in a list that was joined is a separator or occurs in a part. -/
theorem mem_intercalate {sep c : Char} {ts : List (List Char)} (h : c ∈ [sep].intercalate ts) :
    c = sep ∨ ∃ t ∈ ts, c ∈ t := by
  induction ts with
  | nil => exact absurd h List.not_mem_nil
  | cons t ts ih =>
    cases ts with
    | nil =>
      rw [List.intercalate_singleton] at h
      exact Or.inr ⟨t, List.mem_cons_self, h⟩
    | cons u us =>
      rw [List.intercalate_cons_cons, List.append_assoc] at h
      rcases List.mem_append.1 h with h | h
      · exact Or.inr ⟨t, List.mem_cons_self, h⟩
      · rcases List.mem_cons.1 h with h | h
        · exact Or.inl h
        · exact (ih h).imp_right fun ⟨v, hv, hc⟩ => ⟨v, List.mem_cons_of_mem t hv, hc⟩

/-! ### Tokens -/

/-- Names have to be words. All literals can be written. -/
def Operand.Worded : Operand → Prop
  | var name => isWord name.toList = true
  | lit _ => True

instance (o : Operand) : Decidable o.Worded :=
  match o with
  | .var name => inferInstanceAs (Decidable (isWord name.toList = true))
  | .lit _ => inferInstanceAs (Decidable True)

theorem Operand.isToken_text {o : Operand} (h : o.Worded) : isToken o.text.toList = true := by
  cases o with
  | var name => exact isToken_of_isWord h
  | lit value => exact value.isToken_text

theorem Operand.Legible.worded {o : Operand} (h : o.Legible) : o.Worded := by
  cases o with
  | var name => exact isWord_of_isName h
  | lit value => trivial

namespace Instr

section Tokens

variable {α : Type} {target : α → String} {i : Instr α}

/-- All variables of an instruction are words. -/
def Worded (i : Instr α) : Prop :=
  (∀ name ∈ i.dst?, isWord name.toList = true) ∧ ∀ o ∈ i.reads, o.1.Worded

instance (i : Instr α) : Decidable i.Worded := inferInstanceAs (Decidable (_ ∧ _))

theorem Legible.worded (h : i.Legible) : i.Worded :=
  ⟨fun name hname => isWord_of_isName (h.1 name hname), fun o ho => (h.2 o ho).worded⟩

theorem isToken_typed (ty : Scalar) {mnemonic : String} (h : isToken mnemonic.toList = true) :
    isToken (ty.letter.toString ++ mnemonic).toList = true := by
  obtain ⟨-, hchars⟩ := isToken_iff.1 h
  have hletter : isTokenChar ty.letter = true := by cases ty <;> rfl
  rw [ty.toList_letter_append]
  exact isToken_iff.2 ⟨List.cons_ne_nil _ _, List.forall_mem_cons.2 ⟨hletter, hchars⟩⟩

theorem isToken_opcode (i : Instr α) : isToken i.opcode.toList = true := by
  cases i with
  | copy ty _ _ => exact isToken_typed ty (by decide)
  | read ty _ => exact isToken_typed ty (by decide)
  | print ty _ => exact isToken_typed ty (by decide)
  | arith op ty _ _ _ => exact isToken_typed ty (by cases op <;> decide)
  | compare op ty _ _ _ => exact isToken_typed ty (by cases op <;> decide)
  | convert ty _ _ =>
    cases ty with
    | int =>
      show isToken "RTOI".toList = true
      decide
    | float =>
      show isToken "ITOR".toList = true
      decide
  | jump _ =>
    show isToken "JUMP".toList = true
    decide
  | jumpIfZero _ _ =>
    show isToken "JMPZ".toList = true
    decide
  | halt =>
    show isToken "HALT".toList = true
    decide

/-- The operands are the jump target, the variable that is written and what is read. -/
theorem operands_eq (target : α → String) (i : Instr α) :
    i.operands target =
      (i.target?.map target).toList ++ (i.dst?.toList ++ i.reads.map fun o => o.1.text) := by
  cases i with
  | convert ty _ _ => cases ty <;> rfl
  | _ => rfl

theorem isToken_of_mem_tokens (htarget : ∀ l, isToken (target l).toList = true) (h : i.Worded) :
    ∀ t ∈ i.tokens target, isToken t = true := by
  intro t ht
  obtain ⟨s, hs, rfl⟩ := List.mem_map.1 ht
  rcases List.mem_cons.1 hs with rfl | hs
  · exact i.isToken_opcode
  rw [operands_eq, List.mem_append, List.mem_append, Option.mem_toList, Option.mem_toList] at hs
  rcases hs with hl | hdst | hsrc
  · obtain ⟨l, -, rfl⟩ := Option.map_eq_some_iff.1 hl
    exact htarget l
  · exact isToken_of_isWord (h.1 s hdst)
  · obtain ⟨o, ho, rfl⟩ := List.mem_map.1 hsrc
    exact Operand.isToken_text (h.2 o ho)

/-! ### Lines -/

theorem toList_text (target : α → String) (i : Instr α) :
    (i.text target).toList = [' '].intercalate (i.tokens target) := by
  rw [text, String.toList_intercalate]
  rfl

/-- A line divides into its tokens. -/
theorem splitOn_text (htarget : ∀ l, isToken (target l).toList = true) (h : i.Worded) :
    (i.text target).toList.splitOn ' ' = i.tokens target := by
  have hspace : ∀ t ∈ i.tokens target, ' ' ∉ t := fun t ht hmem =>
    absurd ((isToken_iff.1 (isToken_of_mem_tokens htarget h t ht)).2 _ hmem) (by decide)
  rw [toList_text, List.splitOn_intercalate ' ' hspace (List.cons_ne_nil _ _)]

theorem isTokenChar_of_mem_text (htarget : ∀ l, isToken (target l).toList = true) (h : i.Worded)
    {c : Char} (hc : c ∈ (i.text target).toList) : c = ' ' ∨ isTokenChar c = true := by
  rw [toList_text] at hc
  exact (mem_intercalate hc).imp_right fun ⟨t, ht, hmem⟩ =>
    (isToken_iff.1 (isToken_of_mem_tokens htarget h t ht)).2 c hmem

theorem newline_not_mem_text (htarget : ∀ l, isToken (target l).toList = true) (h : i.Worded) :
    '\n' ∉ (i.text target).toList := fun hmem =>
  absurd (isTokenChar_of_mem_text htarget h hmem) (by decide)

end Tokens

/-- The line of an instruction. -/
def line (i : Instr ℕ) : List Char := (i.text Nat.repr).toList

/-- An instruction is determined by its line. -/
theorem read?_line {i : Instr ℕ} (h : i.Legible) : read? i.line = some i := by
  rw [read?, line, splitOn_text isToken_repr h.worded, ofTokens?_tokens h]

theorem isComment_line {i : Instr ℕ} (h : i.Legible) : isComment i.line = false := by
  cases hline : i.line with
  | nil => rfl
  | cons c cs =>
    have hc := isTokenChar_of_mem_text isToken_repr h.worded (hline ▸ List.mem_cons_self)
    have hne : c ≠ ';' := by
      rintro rfl
      exact absurd hc (by decide)
    simp [isComment, hne]

end Instr

/-- A text divides into the lines that it was made of. -/
theorem linesOf_join {rows : List String} (h : ∀ r ∈ rows, '\n' ∉ r.toList) (rest : String) :
    linesOf (String.join (rows.map (· ++ "\n")) ++ rest) =
      rows.map String.toList ++ linesOf rest := by
  induction rows with
  | nil => simp
  | cons r rows ih =>
    obtain ⟨hr, hrows⟩ := List.forall_mem_cons.1 h
    have htail := ih hrows
    rw [List.map_cons, String.join_cons, linesOf]
    generalize String.join (rows.map (· ++ "\n")) = others at htail ⊢
    have htext : (r ++ "\n" ++ others ++ rest).toList =
        r.toList ++ '\n' :: (others ++ rest).toList := by
      simp
    rw [htext, List.splitOn_append_cons_self_of_not_mem hr, ← linesOf, htail]
    rfl

/-- The lines of a text that starts with code. -/
theorem linesOf_code {code : List (Instr ℕ)} (h : ∀ i ∈ code, i.Legible) (rest : String) :
    linesOf (String.join (code.map fun i => i.text Nat.repr ++ "\n") ++ rest) =
      code.map Instr.line ++ linesOf rest := by
  have hrows : ∀ r ∈ code.map (Instr.text Nat.repr), '\n' ∉ r.toList := by
    intro r hr
    obtain ⟨i, hi, rfl⟩ := List.mem_map.1 hr
    exact Instr.newline_not_mem_text isToken_repr (h i hi).worded
  have hlines := linesOf_join hrows rest
  rw [List.map_map, List.map_map] at hlines
  exact hlines

/-- No line stands in front of a comment. -/
theorem takeWhile_linesOf_comment {text : String} {cs : List Char} (h : text.toList = ';' :: cs) :
    (linesOf text).takeWhile (fun l => !isComment l) = [] := by
  obtain ⟨l, ls, hls⟩ := List.exists_cons_of_ne_nil (List.splitOn_ne_nil '\n' cs)
  have hlines : linesOf text = (';' :: l) :: ls := by
    rw [linesOf, h, List.splitOn_cons_eq_if_modifyHead, hls]
    rfl
  rw [hlines]
  rfl

namespace Executable

variable {x : Executable}

/-- The comment behind the code. -/
def comment (x : Executable) : String := "; generated by " ++ x.signature ++ "\n"

theorem toList_comment (x : Executable) :
    x.comment.toList = ';' :: (" generated by " ++ x.signature ++ "\n").toList := by
  unfold comment
  simp only [String.toList_append]
  rfl

theorem text_eq (x : Executable) :
    x.text = String.join (x.instrs.map fun i => i.text Nat.repr ++ "\n") ++ x.comment := by
  unfold text comment
  simp only [String.append_assoc]

theorem linesOf_text (h : ∀ i ∈ x.instrs, i.Legible) :
    linesOf x.text = x.instrs.map Instr.line ++ linesOf x.comment := by
  rw [text_eq, linesOf_code h]

theorem codeLines_text (h : ∀ i ∈ x.instrs, i.Legible) :
    codeLines x.text = x.instrs.map Instr.line := by
  have hcode : ∀ l ∈ x.instrs.map Instr.line, (!isComment l) = true := by
    intro l hl
    obtain ⟨i, hi, rfl⟩ := List.mem_map.1 hl
    rw [Instr.isComment_line (h i hi), Bool.not_false]
  rw [codeLines, linesOf_text h, List.takeWhile_append_of_pos hcode,
    takeWhile_linesOf_comment x.toList_comment, List.append_nil]

end Executable

theorem mapM_read?_line {code : List (Instr ℕ)} (h : ∀ i ∈ code, i.Legible) :
    (code.map Instr.line).mapM Instr.read? = some code := by
  induction code with
  | nil => rfl
  | cons i code ih =>
    have hi := Instr.read?_line (h i List.mem_cons_self)
    have htail := ih fun j hj => h j (List.mem_cons_of_mem i hj)
    simp [hi, htail]

/-- Reading the text of code gives the code back, and line `k` of the text is that of instruction
`k`, which is what a jump to `k` means. The signature may be any text. -/
theorem text_determines_code (x : Executable) (h : ∀ i ∈ x.instrs, i.Legible) :
    readCode? x.text = some x.instrs ∧
      ∀ (k : ℕ) (i : Instr ℕ), x.instrs[k]? = some i →
        (linesOf x.text)[k]? = some (i.text Nat.repr).toList ∧
          Instr.read? (i.text Nat.repr).toList = some i := by
  constructor
  · rw [readCode?, Executable.codeLines_text h, mapM_read?_line h]
  · intro k i hi
    obtain ⟨hk, -⟩ := List.getElem?_eq_some_iff.1 hi
    have hmem : i ∈ x.instrs := List.mem_of_getElem? hi
    refine ⟨?_, Instr.read?_line (h i hmem)⟩
    rw [Executable.linesOf_text h, List.getElem?_append_left (by rwa [List.length_map]),
      List.getElem?_map, hi]
    rfl

/-- Code with literals of all kinds: minus zero, the largest double, one that is not whole and the
smallest integer. -/
def Executable.literals : Executable where
  instrs :=
    [.read .float "x",
      .copy .float "_t0" (.lit (.float ⟨0x8000000000000000⟩)),
      .arith .div .float "_t1" (.var "x") (.lit (.float ⟨0x7FEFFFFFFFFFFFFF⟩)),
      .compare .gt .float "_t2" (.var "_t1") (.lit (.float ⟨0xBFB999999999999A⟩)),
      .jumpIfZero 0 (.var "_t2"),
      .convert .int "n1" (.var "_t0"),
      .print .int (.lit (.int Int64.minValue)),
      .jump 0,
      .halt]
  signature := "two\n; lines\nHALT"

theorem text_determines_code_literals :
    (∀ i ∈ Executable.literals.instrs, i.Legible) ∧
      readCode? Executable.literals.text = some Executable.literals.instrs :=
  have hlegible : ∀ i ∈ Executable.literals.instrs, i.Legible := by decide
  ⟨hlegible, (text_determines_code Executable.literals hlegible).1⟩

end QuadCode
