import CinderFront.Compilation
import CinderFront.Diagnostic.Printer
import CinderFront.Listing

/-!
# The commands on a source

A session has one compilation, a channel for listings and a printer for findings, which all go on
from one command to the next.

* `Command.lex` — lists the tokens, then reports what is wrong;
* `Command.check` — only reports what is wrong.
-/

namespace CinderFront

/-- A command on a source. -/
inductive Command
  | lex
  | check
  deriving DecidableEq, Repr

/-- One compilation, and where its results go. -/
structure Session where
  compilation : Compilation
  out : Channel := {}
  printer : Printer := {}

namespace Session

/-- Runs the compilation of the session. -/
def compile : EStateM CompilationFailure Session CompilationResult := fun s =>
  match s.compilation.run with
  | .ok output compilation => .ok output { s with compilation }
  | .error e compilation => .error e { s with compilation }

/-- Writes to the channel for listings. -/
def toOutput (act : EStateM IoError Channel Unit) :
    EStateM CompilationFailure Session Unit := fun s =>
  match act s.out with
  | .ok _ out => .ok () { s with out }
  | .error e out => .error (.output e) { s with out }

/-- Writes to the printer. -/
def toPrinter (act : EStateM IoError Printer Unit) :
    EStateM CompilationFailure Session Unit := fun s =>
  match act s.printer with
  | .ok _ printer => .ok () { s with printer }
  | .error e printer => .error (.output e) { s with printer }

/-- Writes the listing of some tokens, line by line. -/
def writeListing (symbols : SymbolTable) (tokens : List Token) : EStateM IoError Channel Unit :=
  tokens.forM fun token => Channel.write (token.listingLine symbols)

/-- Lists the tokens of a compilation. -/
def list (output : CompilationResult) : EStateM CompilationFailure Session Unit := do
  let session ← get
  toOutput (writeListing session.compilation.symbols output.tokens)
  toOutput Channel.flush

/-- The note on findings that were dropped. -/
def suppressedNote (suppressed : Nat) : String :=
  toString suppressed ++ " further diagnostic(s) suppressed (limit or duplicates)"

/-- Writes the findings of a compilation, a summary of all findings that the printer has seen, and a
note if some were dropped. -/
def reportFindings (output : CompilationResult) : EStateM IoError Printer Unit := do
  Printer.printAll output.diagnostics
  let printer ← get
  Printer.printSummary printer.errorCount printer.warningCount
  if 0 < output.suppressed then
    Printer.printNote (suppressedNote output.suppressed)
  Printer.flush

end Session

namespace Command

/-- The name of the command on the command line. -/
def name : Command → String
  | lex => "lex"
  | check => "check"

/-- The command with the given name. -/
def ofName? (name : String) : Option Command :=
  [lex, check].find? fun command => command.name == name

/-- Runs a command; the answer is whether errors were found. -/
def run (command : Command) : EStateM CompilationFailure Session Bool := do
  let output ← Session.compile
  if command = .lex then
    Session.list output
  Session.toPrinter (Session.reportFindings output)
  return output.hasErrors

end Command

end CinderFront
