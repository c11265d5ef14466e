import CinderFront.Ascii

/-!
# Classes of bytes

The classes that the scanner asks for exclude each other. Which class a byte belongs to decides how
it is read, so every rule of the language rests on one of these facts.

* `Ascii.isIndent_iff`, `Ascii.isBlank_iff` — the members of the small classes;
* `Ascii.isWordStart_eq_false_of_isDigit`, `Ascii.isBlank_eq_false_of_isWordByte` — classes without
  a common member;
* `Ascii.isWordByte_iff` — a byte of a word may begin one, or it is a digit.
-/

namespace CinderFront.Ascii

variable {b : UInt8}

theorem isIndent_iff : isIndent b = true ↔ b = space ∨ b = tab := by
  simp [isIndent]

theorem isBlank_iff : isBlank b = true ↔ b = space ∨ b = tab ∨ b = carriageReturn := by
  simp [isBlank, isIndent, or_assoc]

theorem isWordByte_iff : isWordByte b = true ↔ isWordStart b = true ∨ isDigit b = true := by
  simp only [isWordByte, isWordStart, Bool.or_eq_true]
  grind

theorem isWordByte_of_isDigit (h : isDigit b = true) : isWordByte b = true :=
  isWordByte_iff.2 (.inr h)

theorem isWordStart_eq_false_of_isDigit (h : isDigit b = true) : isWordStart b = false := by
  simp only [isWordStart, isLetter, isDigit] at h ⊢
  grind

theorem isBlank_eq_false_of_isWordByte (h : isWordByte b = true) : isBlank b = false := by
  simp only [isWordByte, isLetter, isDigit, isBlank, isIndent] at h ⊢
  grind

/-- What is no byte of a word begins neither a word nor a number. -/
theorem eq_false_of_isWordByte_eq_false (h : isWordByte b = false) :
    isWordStart b = false ∧ isDigit b = false := by
  have hnot : ¬ (isWordStart b = true ∨ isDigit b = true) := by
    rw [← isWordByte_iff, h]
    decide
  simpa using hnot

theorem ne_of_isWordByte {c : UInt8} (hb : isWordByte b = true)
    (hc : isWordByte c = false := by decide) : b ≠ c := by
  intro heq
  rw [heq, hc] at hb
  cases hb

/-- A blank belongs to no other class, and to no mark that matters to numbers and comments. -/
theorem ne_of_isBlank (h : isBlank b = true) :
    isWordByte b = false ∧ isNumberByte b = false ∧
      b ≠ fullStop ∧ b ≠ slash ∧ b ≠ asterisk ∧ b ≠ nul := by
  rcases isBlank_iff.1 h with hb | hb | hb <;> rw [hb] <;> decide

end CinderFront.Ascii
