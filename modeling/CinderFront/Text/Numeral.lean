/-!
# Numerals on the command line

A numeral is a run of ASCII digits, which one plus sign may precede. Its value must fit into 64
bits; leading zeros do not count.

* `Numeral.value?` — the value of a numeral.
-/

namespace CinderFront.Numeral

/-- The largest value of a numeral. -/
def maxValue : Nat := UInt64.size - 1

/-- The value of a run of digits read after a run of value `n`. -/
def digits? (n : Nat) : List Char → Option Nat
  | [] => some n
  | c :: rest => if c.isDigit then digits? (n * 10 + (c.toNat - 48)) rest else none

/-- The digits of a numeral, without its sign. -/
def unsigned : List Char → List Char
  | '+' :: rest => rest
  | text => text

/-- The value of a numeral, if the text is one and its value is not too large. -/
def value? (text : String) : Option Nat :=
  match unsigned text.toList with
  | [] => none
  | run =>
    match digits? 0 run with
    | some n => if n ≤ maxValue then some n else none
    | none => none

end CinderFront.Numeral
