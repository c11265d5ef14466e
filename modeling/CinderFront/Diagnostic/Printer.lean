import CinderFront.Diagnostic.Report
import CinderFront.Diagnostic.Receiver
import CinderFront.Output

/-!
# Writing findings to a terminal

A printer writes findings to a channel and counts the errors and the warnings. A finding is counted
when its writing begins, so one that the channel does not take counts as well. Texts are written
piece by piece, and the first piece that the channel refuses ends the writing.

* `Printer.paint` — a word with its decoration;
* `Printer.print`, `Printer.printAll` — findings;
* `Printer.printNote`, `Printer.printSummary` — what follows them.
-/

namespace CinderFront

/-- A channel for findings, whether to decorate them, and how many there were. -/
structure Printer where
  channel : Channel := {}
  colours : Bool := false
  errorCount : Nat := 0
  warningCount : Nat := 0
  deriving DecidableEq, Repr

namespace Printer

/-- The printer to a channel that is a terminal or is none. -/
def new (channel : Channel) (choice : ColorChoice) (isTerminal : Bool) : Printer where
  channel := channel
  colours := choice.decorates isTerminal

/-- The printer that has counted one more finding. -/
def count (d : Diagnostic) (printer : Printer) : Printer :=
  { printer with
    errorCount := if d.isError then printer.errorCount + 1 else printer.errorCount
    warningCount := if d.isWarning then printer.warningCount + 1 else printer.warningCount }

/-- Writes a text. -/
def write (text : String) : EStateM IoError Printer Unit := fun printer =>
  match printer.channel.write text with
  | .ok _ channel => .ok () { printer with channel }
  | .error e channel => .error e { printer with channel }

/-- Writes a word, decorated if colours are on. -/
def paint (style : Style) (word : String) : EStateM IoError Printer Unit := do
  let printer ← get
  if printer.colours then
    write style.sequence
    write word
    write Style.reset
  else
    write word

/-- Writes one note of a finding. -/
def printDetail (note : String) : EStateM IoError Printer Unit := do
  write "  = "
  paint .bold "note"
  write (": " ++ note ++ "\n")

/-- Counts and writes a finding, piece by piece. -/
def print (d : Diagnostic) : EStateM IoError Printer Unit := do
  modify (count d)
  paint d.severity.style d.severity.text
  paint .bold ("[" ++ d.code.label ++ "]")
  write (": " ++ d.message ++ "\n")
  write "  "
  paint .location "-->"
  write (" " ++ d.location ++ "\n")
  write ("  = " ++ d.category.text ++ "\n")
  d.notes.forM printDetail
  write "\n"

/-- Counts and writes findings one after the other, up to the first that fails. -/
def printAll (ds : List Diagnostic) : EStateM IoError Printer Unit := ds.forM print

/-- Writes a note that stands by itself. -/
def printNote (message : String) : EStateM IoError Printer Unit := do
  paint .note "note"
  write (": " ++ message ++ "\n")

/-- Writes the closing summary for the given numbers, if there is anything to say. -/
def printSummary (errors warnings : Nat) : EStateM IoError Printer Unit := do
  if 0 < errors then
    paint .error "error"
    if 0 < warnings then
      write (": aborting due to " ++ previousErrors errors ++ "; " ++
        counted warnings "warning" ++ " emitted\n")
    else
      write (": aborting due to " ++ previousErrors errors ++ "\n")
  else if 0 < warnings then
    paint .warning "warning"
    write (": " ++ counted warnings "warning" ++ " emitted\n")

/-- Makes sure that what was written has arrived. -/
def flush : EStateM IoError Printer Unit := pure ()

instance : Receiver Printer where
  report d := fun printer =>
    match print d printer with
    | .ok _ printer => .ok () printer
    | .error e printer => .error ⟨e⟩ printer

end Printer

end CinderFront
