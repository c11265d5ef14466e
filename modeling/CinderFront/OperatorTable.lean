import CinderFront.Punctuation

/-!
# Marks by their first byte

A mark is found in two steps. Some first bytes have a table of the longer operators that begin with
them, which are tried in the order of the table. Any other first byte is a delimiter by itself, or
no mark at all.

* `OperatorTable.all`, `OperatorTable.at?` — the tables, and the one for a first byte;
* `OperatorTable.resolve` — the first operator of a table that fits;
* `Punctuation.ofByte?` — the delimiter that a byte is by itself.
-/

namespace CinderFront

/-- The operators that begin with one byte: the byte alone, and the longer ones with their
spellings. One that begins another stands behind it. -/
structure OperatorTable where
  trigger : UInt8
  single : Punctuation
  candidates : List (String × Punctuation)

namespace OperatorTable

/-- The tables of all operators that share their first byte with others. -/
def all : List OperatorTable :=
  [⟨'='.toUInt8, .assign, [("==", .equal), ("=>", .fatArrow)]⟩,
    ⟨':'.toUInt8, .colon, [(":=", .declare), ("::", .pathSep)]⟩,
    ⟨'>'.toUInt8, .greater, [(">=", .greaterEqual), (">>", .shiftRight)]⟩,
    ⟨'<'.toUInt8, .less,
      [("<=", .lessEqual), ("<|", .pipeLeft), ("<<", .shiftLeft), ("<>", .diamond)]⟩,
    ⟨'-'.toUInt8, .minus, [("--", .decrement), ("->", .arrow), ("-=", .minusAssign)]⟩,
    ⟨'+'.toUInt8, .plus, [("++", .increment), ("+=", .plusAssign)]⟩,
    ⟨'*'.toUInt8, .star, [("**=", .powerAssign), ("**", .power), ("*=", .starAssign)]⟩,
    ⟨'.'.toUInt8, .dot, [("..=", .rangeInclusive), ("..", .range)]⟩,
    ⟨'!'.toUInt8, .bang, [("!=", .notEqual)]⟩,
    ⟨'|'.toUInt8, .pipe, [("|>", .pipeRight)]⟩]

/-- The table for a first byte, if there is one. -/
def at? (b : UInt8) : Option OperatorTable := all.find? fun table => table.trigger == b

/-- The first operator of the table that the bytes in view begin with, or else the single byte, and
how many bytes it takes. -/
def resolve (table : OperatorTable) (view : List UInt8) : Punctuation × Nat :=
  match table.candidates.find? fun entry => (Ascii.codes entry.1).isPrefixOf view with
  | some (text, mark) => (mark, (Ascii.codes text).length)
  | none => (table.single, 1)

theorem trigger_eq_of_at? {table : OperatorTable} {b : UInt8} (h : at? b = some table) :
    table.trigger = b := by
  simpa using List.find?_some h

/-- An operator takes at least one byte. -/
theorem resolve_length_pos {table : OperatorTable} {b : UInt8} (h : at? b = some table)
    (view : List UInt8) : 0 < (table.resolve view).2 := by
  have hall : ∀ table ∈ all, ∀ entry ∈ table.candidates, 0 < (Ascii.codes entry.1).length := by
    decide
  unfold resolve
  split
  · next text mark hfind =>
    exact hall table (List.mem_of_find?_eq_some h) _ (List.mem_of_find?_eq_some hfind)
  · exact Nat.one_pos

end OperatorTable

namespace Punctuation

/-- The delimiters, each with the byte that it is. -/
def delimiters : List (Char × Punctuation) :=
  [('%', percent), ('^', caret), ('&', ampersand), ('~', tilde), ('?', question), ('@', atSign),
    ('#', hash), ('$', dollar), (',', comma), (';', semicolon), ('(', leftParen),
    (')', rightParen), ('\x7b', leftBrace), ('\x7d', rightBrace), ('[', leftBracket),
    (']', rightBracket), ('\\', backslash), ('\n', newline)]

/-- The delimiter that a byte is by itself. -/
def ofByte? (b : UInt8) : Option Punctuation :=
  (delimiters.find? fun entry => entry.1.toUInt8 == b).map (·.2)

end Punctuation

end CinderFront
