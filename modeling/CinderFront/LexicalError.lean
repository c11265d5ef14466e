import CinderFront.Diagnostic
import CinderFront.Text.Escape

/-!
# Lexical errors

What can be wrong with the text of a source. The scanner reports such an error and goes on with the
best token it can make.

* `LexicalError.toDiagnostic` — the finding that reports an error at a position.
-/

namespace CinderFront

/-- What is wrong with the text of a source. -/
inductive LexicalError
  /-- A string literal without its closing quote. -/
  | unterminatedString
  /-- A character literal without its closing quote. -/
  | unterminatedCharacter
  /-- A character literal that stands for no byte. -/
  | emptyCharacter
  /-- A character literal that stands for more than one byte. -/
  | overlongCharacter
  /-- A backslash before a byte that is no escape letter. -/
  | unrecognizedEscape (byte : UInt8)
  /-- A backslash as the last byte of a literal. -/
  | unterminatedEscape
  /-- A block comment without its end. -/
  | unterminatedComment
  /-- A line of a multi-line string that does not begin with a bar. -/
  | missingDelimiter
  deriving DecidableEq, Repr

namespace LexicalError

/-- The code that the error is reported under. -/
def code : LexicalError → ErrorCode
  | unterminatedString => .unterminatedString
  | unterminatedCharacter => .unterminatedCharacter
  | emptyCharacter => .emptyCharacter
  | overlongCharacter => .overlongCharacter
  | unrecognizedEscape _ => .unrecognizedEscape
  | unterminatedEscape => .unterminatedEscape
  | unterminatedComment => .unterminatedComment
  | missingDelimiter => .missingDelimiter

/-- The message that the error is reported with. -/
def message : LexicalError → String
  | unterminatedString => "unterminated string literal"
  | unterminatedCharacter => "unterminated character literal"
  | emptyCharacter => "character literal is empty"
  | overlongCharacter => "too many characters in character literal"
  | unrecognizedEscape byte => "unrecognized escape character: " ++ Ascii.visible byte
  | unterminatedEscape => "unterminated escape sequence"
  | unterminatedComment => "unterminated multiline comment"
  | missingDelimiter => "missing start of line delimiter `|`"

/-- The lexical error that a malformed escape is. -/
def ofEscape : MalformedEscape → LexicalError
  | .unrecognized byte _ => unrecognizedEscape byte
  | .unterminated _ => unterminatedEscape

/-- The finding that reports the error at a position of a source. -/
def toDiagnostic (e : LexicalError) (sourceName : String) (position : Position) : Diagnostic where
  code := e.code
  sourceName := sourceName
  position := position
  message := e.message

end LexicalError

end CinderFront
