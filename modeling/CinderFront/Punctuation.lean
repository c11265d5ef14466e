import CinderFront.Ascii

/-!
# Operators and delimiters

The fixed marks of the language: operators of one, two and three bytes, delimiters, and the line
break.

* `Punctuation.spelling`, `Punctuation.bytes` — how a mark is written in a source.
-/

namespace CinderFront

/-- A fixed mark of the language. -/
inductive Punctuation
  | assign | plus | minus | star | slash | colon | dot | bang | pipe | greater | less
  | percent | caret | ampersand | tilde | question | atSign | hash | dollar | comma | semicolon
  | leftParen | rightParen | leftBrace | rightBrace | leftBracket | rightBracket | backslash
  | newline
  | equal | notEqual | greaterEqual | lessEqual | pipeRight | pipeLeft | shiftLeft | shiftRight
  | diamond | increment | decrement | power | arrow | fatArrow | range | rangeInclusive
  | declare | pathSep | plusAssign | minusAssign | starAssign | powerAssign
  deriving DecidableEq, Repr

namespace Punctuation

/-- How the mark is written in a source. -/
def spelling : Punctuation → String
  | assign => "="
  | plus => "+"
  | minus => "-"
  | star => "*"
  | slash => "/"
  | colon => ":"
  | dot => "."
  | bang => "!"
  | pipe => "|"
  | greater => ">"
  | less => "<"
  | percent => "%"
  | caret => "^"
  | ampersand => "&"
  | tilde => "~"
  | question => "?"
  | atSign => "@"
  | hash => "#"
  | dollar => "$"
  | comma => ","
  | semicolon => ";"
  | leftParen => "("
  | rightParen => ")"
  | leftBrace => "\x7b"
  | rightBrace => "\x7d"
  | leftBracket => "["
  | rightBracket => "]"
  | backslash => "\\"
  | newline => "\n"
  | equal => "=="
  | notEqual => "!="
  | greaterEqual => ">="
  | lessEqual => "<="
  | pipeRight => "|>"
  | pipeLeft => "<|"
  | shiftLeft => "<<"
  | shiftRight => ">>"
  | diamond => "<>"
  | increment => "++"
  | decrement => "--"
  | power => "**"
  | arrow => "->"
  | fatArrow => "=>"
  | range => ".."
  | rangeInclusive => "..="
  | declare => ":="
  | pathSep => "::"
  | plusAssign => "+="
  | minusAssign => "-="
  | starAssign => "*="
  | powerAssign => "**="

/-- The name of the mark in the inspection form of a token. -/
def name : Punctuation → String
  | assign => "Assign"
  | plus => "Plus"
  | minus => "Minus"
  | star => "Star"
  | slash => "Slash"
  | colon => "Colon"
  | dot => "Dot"
  | bang => "Bang"
  | pipe => "Pipe"
  | greater => "Greater"
  | less => "Less"
  | percent => "Percent"
  | caret => "Caret"
  | ampersand => "Ampersand"
  | tilde => "Tilde"
  | question => "Question"
  | atSign => "At"
  | hash => "Hash"
  | dollar => "Dollar"
  | comma => "Comma"
  | semicolon => "Semicolon"
  | leftParen => "LeftParen"
  | rightParen => "RightParen"
  | leftBrace => "LeftBrace"
  | rightBrace => "RightBrace"
  | leftBracket => "LeftBracket"
  | rightBracket => "RightBracket"
  | backslash => "Backslash"
  | newline => "Newline"
  | equal => "Equal"
  | notEqual => "NotEqual"
  | greaterEqual => "GreaterEqual"
  | lessEqual => "LessEqual"
  | pipeRight => "PipeRight"
  | pipeLeft => "PipeLeft"
  | shiftLeft => "ShiftLeft"
  | shiftRight => "ShiftRight"
  | diamond => "Diamond"
  | increment => "Increment"
  | decrement => "Decrement"
  | power => "Power"
  | arrow => "Arrow"
  | fatArrow => "FatArrow"
  | range => "Range"
  | rangeInclusive => "RangeInclusive"
  | declare => "Declare"
  | pathSep => "PathSep"
  | plusAssign => "PlusAssign"
  | minusAssign => "MinusAssign"
  | starAssign => "StarAssign"
  | powerAssign => "PowerAssign"

/-- The mark in words for a reader: its spelling, but a line break is named. -/
def displayName : Punctuation → String
  | newline => "newline"
  | mark => mark.spelling

/-- The bytes of the mark in a source. -/
def bytes (mark : Punctuation) : List UInt8 := Ascii.codes mark.spelling

theorem bytes_ne_nil (mark : Punctuation) : mark.bytes ≠ [] := by
  cases mark <;> decide

theorem length_bytes_le (mark : Punctuation) : mark.bytes.length ≤ 3 := by
  cases mark <;> decide

theorem length_bytes_pos (mark : Punctuation) : 0 < mark.bytes.length :=
  List.length_pos_iff.2 mark.bytes_ne_nil

end Punctuation

end CinderFront
