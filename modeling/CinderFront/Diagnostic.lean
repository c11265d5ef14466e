import CinderFront.Position

/-!
# Diagnostics

A diagnostic is one finding about a source: a code from a fixed list, how grave it is, where it is,
a message, and notes. All codes are of the scanner today.

* `ErrorCode.label`, `ErrorCode.ofLabel?` — the code as it is printed, and back;
* `Diagnostic.line` — the finding on one line.
-/

namespace CinderFront

/-! ### Severity, category and code -/

/-- How grave a finding is. -/
inductive Severity
  | error | warning | note
  deriving DecidableEq, Repr

/-- The severity in words. -/
def Severity.text : Severity → String
  | .error => "error"
  | .warning => "warning"
  | .note => "note"

/-- The part of the compiler that a finding comes from. -/
inductive Category
  | scanner
  deriving DecidableEq, Repr

/-- The category in words. -/
def Category.text : Category → String
  | .scanner => "scanner error"

/-- What kind of finding it is. -/
inductive ErrorCode
  | unterminatedString
  | unterminatedCharacter
  | emptyCharacter
  | overlongCharacter
  | unrecognizedEscape
  | unterminatedEscape
  | unterminatedComment
  | missingDelimiter
  deriving DecidableEq, Repr

namespace ErrorCode

/-- Every code, in the order of the labels. -/
def all : List ErrorCode :=
  [unterminatedString, unterminatedCharacter, emptyCharacter, overlongCharacter,
    unrecognizedEscape, unterminatedEscape, unterminatedComment, missingDelimiter]

/-- The label that is printed for the code. -/
def label : ErrorCode → String
  | unterminatedString => "E0001"
  | unterminatedCharacter => "E0002"
  | emptyCharacter => "E0003"
  | overlongCharacter => "E0004"
  | unrecognizedEscape => "E0005"
  | unterminatedEscape => "E0006"
  | unterminatedComment => "E0007"
  | missingDelimiter => "E0008"

/-- The code in words, without the details of a finding. -/
def description : ErrorCode → String
  | unterminatedString => "unterminated string literal"
  | unterminatedCharacter => "unterminated character literal"
  | emptyCharacter => "empty character literal"
  | overlongCharacter => "too many characters in character literal"
  | unrecognizedEscape => "unrecognized escape character"
  | unterminatedEscape => "unterminated escape sequence"
  | unterminatedComment => "unterminated multiline comment"
  | missingDelimiter => "missing start of line delimiter in multi-line string"

/-- The part of the compiler that reports the code. -/
def category : ErrorCode → Category
  | _ => .scanner

/-- The code with the given label. -/
def ofLabel? (text : String) : Option ErrorCode :=
  all.find? fun code => code.label == text

theorem mem_all (code : ErrorCode) : code ∈ all := by
  cases code <;> decide

theorem ofLabel?_label (code : ErrorCode) : ofLabel? code.label = some code := by
  cases code <;> decide

end ErrorCode

/-! ### Findings -/

/-- One finding about a source. -/
structure Diagnostic where
  code : ErrorCode
  severity : Severity := .error
  sourceName : String := ""
  position : Position := .start
  message : String := ""
  notes : List String := []
  deriving DecidableEq, Repr

namespace Diagnostic

/-- Where the finding comes from. -/
def category (d : Diagnostic) : Category := d.code.category

/-- Whether the finding is an error. -/
def isError (d : Diagnostic) : Bool := d.severity == .error

/-- Whether the finding is a warning. -/
def isWarning (d : Diagnostic) : Bool := d.severity == .warning

theorem isWarning_eq_false {d : Diagnostic} (h : d.isError = true) : d.isWarning = false := by
  have hseverity : d.severity = .error := beq_iff_eq.1 h
  rw [isWarning, hseverity]
  rfl

/-- The source name and the position with a colon between them. -/
def location (d : Diagnostic) : String :=
  d.sourceName ++ ":" ++ d.position.text

/-- The finding on one line. -/
def line (d : Diagnostic) : String :=
  d.location ++ ": " ++ d.category.text ++ " [" ++ d.code.label ++ "]: " ++ d.message

end Diagnostic

end CinderFront
