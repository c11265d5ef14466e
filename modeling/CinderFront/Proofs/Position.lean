import CinderFront.Position

/-!
# Positions behind texts

Where a text that begins at a given position ends, and how positions inside one text compare.

* `Position.after` — the position of the byte that follows a text;
* `Position.after_append` — texts one after the other;
* `Position.lt_after` — a text that is not empty ends behind its beginning, so two different places
  of one text never share a position.
-/

namespace CinderFront.Position

/-- The position of the byte that follows the text `x`, which begins at `p`. -/
def after (p : Position) (x : List UInt8) : Position := x.foldl past p

@[simp] theorem after_nil (p : Position) : p.after [] = p := rfl

@[simp] theorem after_cons (p : Position) (b : UInt8) (x : List UInt8) :
    p.after (b :: x) = (p.past b).after x := rfl

theorem after_append (p : Position) (x y : List UInt8) :
    p.after (x ++ y) = (p.after x).after y :=
  List.foldl_append

/-! ### Order inside a text -/

theorem le_of_lt {p q : Position} (h : p < q) : p ≤ q := by
  rw [lt_def] at h
  rw [le_def]
  omega

theorem lt_of_lt_of_le {p q r : Position} (hpq : p < q) (hqr : q ≤ r) : p < r := by
  rw [lt_def] at *
  rw [le_def] at hqr
  omega

theorem ne_of_lt {p q : Position} (h : p < q) : p ≠ q := by
  intro heq
  rw [heq, lt_def] at h
  omega

theorem le_after (p : Position) (x : List UInt8) : p ≤ p.after x := by
  induction x generalizing p with
  | nil => exact le_refl p
  | cons b x ih => exact le_trans (le_of_lt (lt_past p b)) (ih (p.past b))

/-- A text that is not empty ends behind its beginning. -/
theorem lt_after (p : Position) {x : List UInt8} (h : x ≠ []) : p < p.after x := by
  cases x with
  | nil => exact absurd rfl h
  | cons b x => exact lt_of_lt_of_le (lt_past p b) (le_after (p.past b) x)

/-- Of two places in one text, the earlier one has the smaller position. -/
theorem after_lt_after (p : Position) {x y : List UInt8} (hy : y ≠ []) :
    p.after x < p.after (x ++ y) := by
  rw [after_append]
  exact lt_after _ hy

end CinderFront.Position
