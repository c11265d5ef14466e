import CinderFront.Ascii

/-!
# Positions in a source

A position is a line and a byte column, both counted from one. Positions are ordered as the bytes
of a source are: by line, then by column.

* `Position.past` — the position after a byte; a line feed ends its line.
-/

namespace CinderFront

/-- A line and a byte column, both counted from one. -/
structure Position where
  line : Nat
  column : Nat
  deriving DecidableEq, Repr

namespace Position

/-- The position of the first byte of a source. -/
def start : Position := ⟨1, 1⟩

instance : Inhabited Position := ⟨start⟩

/-- One column further on the same line. -/
def nextColumn (p : Position) : Position := ⟨p.line, p.column + 1⟩

/-- The first column of the following line. -/
def nextLine (p : Position) : Position := ⟨p.line + 1, 1⟩

/-- The position of the byte that follows a `b` at `p`. -/
def past (p : Position) (b : UInt8) : Position :=
  if b = Ascii.lineFeed then p.nextLine else p.nextColumn

/-! ### Order -/

/-- Earlier lines come first; on one line, earlier columns. -/
instance : LE Position :=
  ⟨fun p q => p.line < q.line ∨ (p.line = q.line ∧ p.column ≤ q.column)⟩

/-- The strict order of `LE`. -/
instance : LT Position :=
  ⟨fun p q => p.line < q.line ∨ (p.line = q.line ∧ p.column < q.column)⟩

theorem le_def {p q : Position} :
    p ≤ q ↔ p.line < q.line ∨ (p.line = q.line ∧ p.column ≤ q.column) := Iff.rfl

theorem lt_def {p q : Position} :
    p < q ↔ p.line < q.line ∨ (p.line = q.line ∧ p.column < q.column) := Iff.rfl

instance (p q : Position) : Decidable (p ≤ q) := decidable_of_iff' _ le_def

instance (p q : Position) : Decidable (p < q) := decidable_of_iff' _ lt_def

/-- The comparison that goes with `LE` and `LT`. -/
instance : Ord Position :=
  ⟨fun p q => (compare p.line q.line).then (compare p.column q.column)⟩

theorem le_refl (p : Position) : p ≤ p := .inr ⟨rfl, Nat.le_refl _⟩

theorem le_trans {p q r : Position} (hpq : p ≤ q) (hqr : q ≤ r) : p ≤ r := by
  rw [le_def] at *
  omega

theorem le_total (p q : Position) : p ≤ q ∨ q ≤ p := by
  rw [le_def, le_def]
  omega

theorem lt_past (p : Position) (b : UInt8) : p < p.past b := by
  rw [lt_def, past]
  split <;> simp [nextLine, nextColumn]

/-! ### Text -/

/-- The line and the column with a colon between them. -/
def text (p : Position) : String :=
  toString p.line ++ ":" ++ toString p.column

end Position

end CinderFront
