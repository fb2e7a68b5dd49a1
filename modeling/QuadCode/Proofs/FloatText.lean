import QuadCode.Proofs.RoundTrip

/-!
# Texts that read as floats

The machine tells literals and variables apart by their spelling alone. A text that
reads as a float is an optional minus, digits, a point and digits. The text of a
double is of this form exactly if the double is finite, and then it stands for that
double and for nothing else. The other doubles are written as words: the texts of
infinity and of a NaN are names that a variable may have.

* `ReadsAsFloat` is the form; `Decimal.exists_digits_text`: decimals have it;
* `Binary64.text_of_not_isFinite`: what is written for doubles that are not finite;
* `finite_doubles_read_as_floats`, `infinity_written_like_name` are the main
  statements.
-/

namespace QuadCode

/-- A nonempty sequence of digits. -/
def IsDigits (cs : List Char) : Prop := cs ≠ [] ∧ ∀ c ∈ cs, c.isDigit = true

/-- An optional minus, digits, a point and digits. -/
def ReadsAsFloat (text : String) : Prop :=
  ∃ negative whole places, text.toList = signed negative (whole ++ '.' :: places) ∧
    IsDigits whole ∧ IsDigits places

theorem ReadsAsFloat.point_mem {text : String} (h : ReadsAsFloat text) : '.' ∈ text.toList := by
  obtain ⟨negative, whole, places, htext, -, -⟩ := h
  rw [htext]
  cases negative <;> simp [signed]

theorem Decimal.exists_digits_text {d : Decimal} (h : 0 < d.places) :
    ∃ whole places, d.text.toList = whole ++ '.' :: places ∧ IsDigits whole ∧ IsDigits places := by
  refine ⟨_, _, d.toList_text, ⟨Nat.toDigits_ne_nil, fun c => isDigit_of_mem_toDigits⟩, ?_,
    fun c => isDigit_of_mem_lastDigits⟩
  apply List.ne_nil_of_length_pos
  rwa [length_lastDigits]

namespace Binary64

variable {x : Binary64}

theorem readsAsFloat_text (hx : x.isFinite = true) : ReadsAsFloat x.text := by
  obtain ⟨whole, places, htext, hwhole, hplaces⟩ := Decimal.exists_digits_text x.places_decimal_pos
  refine ⟨x.negative, whole, places, ?_, hwhole, hplaces⟩
  rw [toList_text hx, htext]

theorem text_of_not_isFinite (hx : x.isFinite = false) :
    x.text = "NaN" ∨ x.text = "inf" ∨ x.text = "-inf" := by
  have hexponent : x.exponent = 2047 := by simpa [isFinite] using hx
  unfold text sign
  by_cases hfraction : x.fraction = 0
  · cases x.negative <;> simp [isNaN, isInfinite, hexponent, hfraction]
  · simp [isNaN, hexponent, hfraction]

theorem readsAsFloat_text_iff : ReadsAsFloat x.text ↔ x.isFinite = true := by
  refine ⟨fun h => ?_, readsAsFloat_text⟩
  by_contra hx
  -- there is no point in the texts of the other doubles
  have hpoint := h.point_mem
  rcases text_of_not_isFinite (Bool.eq_false_iff.2 hx) with htext | htext | htext <;>
    rw [htext] at hpoint <;> exact absurd hpoint (by decide)

end Binary64

/-- An operand with the text of a finite double can be read. -/
theorem Operand.legible_of_text {o : Operand} {x : Binary64} (hx : x.isFinite = true)
    (ho : o.Worded) (h : o.text = x.text) : o.Legible := by
  have hfloat := Binary64.readsAsFloat_text hx
  cases o with
  | var name =>
    obtain ⟨-, hword⟩ := isWord_iff.1 ho
    rw [← h] at hfloat
    exact absurd (hword '.' hfloat.point_mem) (by decide)
  | lit l =>
    cases l with
    | int n => trivial
    | float y =>
      rw [← h] at hfloat
      exact Binary64.readsAsFloat_text_iff.1 hfloat

/-- A text that reads as a float is written for exactly the doubles that are finite. No other
literal and no variable is written like a finite double. -/
theorem finite_doubles_read_as_floats (x : Binary64) :
    (ReadsAsFloat (Literal.float x).text ↔ x.isFinite = true) ∧
    (x.isFinite = true → ∀ o : Operand, o.Worded → o.text = (Literal.float x).text →
      o = .lit (.float x)) ∧
    (x.isFinite = false → (Literal.float x).text ∈ ["NaN", "inf", "-inf"]) := by
  refine ⟨Binary64.readsAsFloat_text_iff, fun hx o ho h => ?_, fun hx => ?_⟩
  · have hread := readOperand?_text (Operand.legible_of_text hx ho h)
    have hreadx := readOperand?_text (o := .lit (.float x)) hx
    rw [h] at hread
    exact Option.some.inj (hread.symm.trans hreadx)
  · rcases Binary64.text_of_not_isFinite hx with htext | htext | htext <;>
      simp [Literal.text, htext]

/-- A subnormal double, which is written with all its places, and a double that is not a number. -/
theorem finite_doubles_read_as_floats_subnormal :
    let x : Binary64 := ⟨0x8000000000000001⟩
    let y : Binary64 := ⟨0x7FF8000000000000⟩
    (x.isFinite = true ∧ ReadsAsFloat (Literal.float x).text ∧
      ∀ o : Operand, o.Worded → o.text = (Literal.float x).text → o = .lit (.float x)) ∧
    y.isFinite = false ∧ (Literal.float y).text ∈ ["NaN", "inf", "-inf"] := by
  intro x y
  have hx : x.isFinite = true := by decide
  have hy : y.isFinite = false := by decide
  obtain ⟨hfloat, hunique, -⟩ := finite_doubles_read_as_floats x
  exact ⟨⟨hx, hfloat.2 hx, hunique hx⟩, hy, (finite_doubles_read_as_floats y).2.2 hy⟩

/-- The program that declares the variable `inf` and writes the value of an expression. -/
def Program.writing (e : Expr) : Program where
  declarations := [⟨["inf"], .float⟩]
  body := [.output e]

/-- Infinity is written like the variable `inf`, so the code that writes the one and the code that
writes the other have the same text. -/
theorem infinity_written_like_name :
    let infinity : Literal := .float ⟨0x7FF0000000000000⟩
    ¬ ReadsAsFloat infinity.text ∧
    isName "inf".toList = true ∧ (Operand.lit infinity).text = (Operand.var "inf").text ∧
    (Program.writing (.lit infinity)).lower ≠ (Program.writing (.var "inf")).lower ∧
    ∃ text, (Program.writing (.lit infinity)).compile {} = .ok text ∧
      (Program.writing (.var "inf")).compile {} = .ok text := by
  intro infinity
  refine ⟨fun h => ?_, by decide, rfl, by decide +kernel, _, rfl, rfl⟩
  have hfinite := Binary64.readsAsFloat_text_iff.1 h
  exact absurd hfinite (by decide)

end QuadCode
