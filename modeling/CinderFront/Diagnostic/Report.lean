import CinderFront.Diagnostic

/-!
# Findings as text for a terminal

The text of a finding, of a note and of the closing summary. Colours are decoration: they surround a
word and change nothing else.

* `ColorChoice` — when to decorate;
* `Diagnostic.report` — a finding over several lines;
* `noteLine`, `summaryLine` — what follows the findings.
-/

namespace CinderFront

/-! ### Colours -/

/-- When to decorate. -/
inductive ColorChoice
  /-- On a terminal only. -/
  | auto
  | always
  | never
  deriving DecidableEq, Repr

namespace ColorChoice

/-- The choice as it is written on the command line. -/
def text : ColorChoice → String
  | auto => "auto"
  | always => "always"
  | never => "never"

/-- The choice that is written like this. -/
def ofText? (text : String) : Option ColorChoice :=
  [auto, always, never].find? fun choice => choice.text == text

/-- Whether to decorate, given whether the output is a terminal. -/
def decorates (choice : ColorChoice) (isTerminal : Bool) : Bool :=
  match choice with
  | auto => isTerminal
  | always => true
  | never => false

theorem ofText?_text (choice : ColorChoice) : ofText? choice.text = some choice := by
  cases choice <;> decide

end ColorChoice

/-- A way to decorate a word. -/
inductive Style
  | error | warning | note | bold | location
  deriving DecidableEq, Repr

namespace Style

/-- The control sequence that begins the decoration. -/
def sequence : Style → String
  | error => "\x1b[1;31m"
  | warning => "\x1b[1;33m"
  | note => "\x1b[1;36m"
  | bold => "\x1b[1m"
  | location => "\x1b[1;34m"

/-- The control sequence that ends every decoration. -/
def reset : String := "\x1b[0m"

/-- A word, decorated if colours are on. -/
def paint (style : Style) (colours : Bool) (word : String) : String :=
  if colours then style.sequence ++ word ++ reset else word

end Style

/-- The decoration of a severity. -/
def Severity.style : Severity → Style
  | .error => .error
  | .warning => .warning
  | .note => .note

/-! ### Texts -/

namespace Diagnostic

/-- One note of a finding. -/
def noteText (colours : Bool) (note : String) : String :=
  "  = " ++ Style.bold.paint colours "note" ++ ": " ++ note ++ "\n"

/-- A finding over several lines, with a blank line after it. -/
def report (colours : Bool) (d : Diagnostic) : String :=
  d.severity.style.paint colours d.severity.text ++
    Style.bold.paint colours ("[" ++ d.code.label ++ "]") ++ ": " ++ d.message ++ "\n" ++
  "  " ++ Style.location.paint colours "-->" ++ " " ++ d.location ++ "\n" ++
  "  = " ++ d.category.text ++ "\n" ++
  String.join (d.notes.map (noteText colours)) ++
  "\n"

end Diagnostic

/-- A note that stands by itself. -/
def noteLine (colours : Bool) (message : String) : String :=
  Style.note.paint colours "note" ++ ": " ++ message ++ "\n"

/-- A number of things, with a plural if there is not exactly one. -/
def counted (n : Nat) (thing : String) : String :=
  toString n ++ " " ++ thing ++ (if n = 1 then "" else "s")

/-- How many errors a summary speaks of; a single one is not numbered. -/
def previousErrors (errors : Nat) : String :=
  if errors = 1 then "previous error" else toString errors ++ " previous errors"

/-- The closing summary: that errors end the work, and how many warnings there were. Where there was
neither, nothing is said. -/
def summaryLine (colours : Bool) (errors warnings : Nat) : String :=
  if 0 < errors then
    Style.error.paint colours "error" ++ ": aborting due to " ++ previousErrors errors ++
      (if 0 < warnings then "; " ++ counted warnings "warning" ++ " emitted" else "") ++ "\n"
  else if 0 < warnings then
    Style.warning.paint colours "warning" ++ ": " ++ counted warnings "warning" ++ " emitted\n"
  else ""

end CinderFront
