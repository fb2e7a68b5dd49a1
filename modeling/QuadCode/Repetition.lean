/-!
# Repetition

The first entry of a list that stands in it earlier already.
-/

namespace QuadCode

variable {α : Type} [DecidableEq α]

/-- The first entry of a list that is in `seen` or stands earlier in the list. -/
def firstRepeatAfter (seen : List α) : List α → Option α
  | [] => none
  | a :: l => if a ∈ seen then some a else firstRepeatAfter (a :: seen) l

/-- The first entry of a list that stands earlier in it. -/
def firstRepeat? (l : List α) : Option α := firstRepeatAfter [] l

theorem firstRepeatAfter_eq_none_iff {seen l : List α} :
    firstRepeatAfter seen l = none ↔ l.Nodup ∧ ∀ a ∈ l, a ∉ seen := by
  induction l generalizing seen with
  | nil => simp [firstRepeatAfter]
  | cons a l ih =>
    by_cases h : a ∈ seen
    · simp [firstRepeatAfter, h]
    · grind [firstRepeatAfter]

/-- A list without a repetition has distinct entries. -/
theorem firstRepeat?_eq_none_iff {l : List α} : firstRepeat? l = none ↔ l.Nodup := by
  simp [firstRepeat?, firstRepeatAfter_eq_none_iff]

end QuadCode
