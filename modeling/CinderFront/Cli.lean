import CinderFront.Command
import CinderFront.FileTree

/-!
# The command line

The whole program as a function from its arguments and its surroundings to what it prints and the
status that it ends with.

* `Cli.run` — a run of the program;
* `FileTree.host` — surroundings in which a tree of files is all there is.
-/

namespace CinderFront

/-- What surrounds a run of the program. -/
structure Host (m : Type → Type) where
  files : Compilation.Files m
  /-- Whether reports go to a terminal. -/
  reportsToTerminal : Bool := false

/-- The surroundings in which a tree of files is all there is. -/
def FileTree.host (tree : FileTree) (workingDirectory : String) : Host Id where
  files := {
    workingDirectory := .ok workingDirectory
    read := fun path =>
      match tree.read workingDirectory path with
      | .ok contents => .ok contents
      | .error e => .error ⟨e.message⟩ }

namespace Cli

/-- What a run leaves: its status, and the bytes that it printed on either channel. -/
structure Outcome where
  status : Nat
  stdout : Array UInt8 := #[]
  stderr : Array UInt8 := #[]
  deriving DecidableEq, Repr

/-- The version of the program. -/
def version : String := "0.1.0-alpha.1"

/-- The options in words. -/
def optionsText : String :=
  "Options:\n" ++
  "  --error-limit=<n>          Stop collecting after n errors (0 = unlimited)\n" ++
  "  --color=auto|always|never  Colorize diagnostics\n" ++
  "  --no-dedup                 Keep repeated diagnostics on the same line\n"

/-- How the program is used. -/
def usageText : String :=
  "Cinder Compiler\n\n" ++
  "Usage: cinder <command> [options]\n\n" ++
  "Commands:\n" ++
  "  lex <file.cin>     Print the token stream\n" ++
  "  check <file.cin>   Report lexical errors\n" ++
  "  help               Show this help message\n" ++
  "  version            Show version information\n\n" ++
  optionsText ++ "\n" ++
  "Set RUST_LOG (e.g. RUST_LOG=cinder_lexer=trace) for tracing output.\n"

/-- How a command is used. -/
def commandUsage (command : Command) : String :=
  "Usage: cinder " ++ command.name ++ " <file.cin> [options]\n\n"

/-- The outcome that prints the given texts. -/
def Outcome.print (status : Nat) (stdout stderr : String) : Outcome :=
  ⟨status, Utf8.bytes stdout, Utf8.bytes stderr⟩

/-- An error in one line. -/
def errorLine (message : String) : String := "error: " ++ message ++ "\n"

/-- The outcome of a run that fails before anything is compiled. -/
def Outcome.failure (message : String) : Outcome := .print 1 "" (errorLine message)

/-- Runs a command in a session of its own. Errors in the source make the status one, and so does a
failure, which is reported after all else. -/
def runSession (command : Command) (session : Session) : Outcome :=
  match command.run session with
  | .ok errors s => ⟨if errors then 1 else 0, s.out.accepted, s.printer.channel.accepted⟩
  | .error e s =>
    ⟨1, s.out.accepted, s.printer.channel.accepted ++ Utf8.bytes (errorLine e.message)⟩

variable {m : Type → Type} [Monad m]

/-- Runs a command on one file. -/
def runOnFile (host : Host m) (command : Command) (file : String) (options : Options) :
    m Outcome := do
  match ← Compilation.ofFile host.files file none options with
  | .error e => return .failure e.message
  | .ok compilation =>
    let printer := Printer.new {} options.color host.reportsToTerminal
    return runSession command { compilation, printer }

/-- Runs a command with its arguments, which must name exactly one file. -/
def runCommand (host : Host m) (command : Command) (arguments : List String) : m Outcome :=
  match Arguments.parse arguments with
  | .error e => return .failure e.message
  | .ok parsed =>
    match parsed.positional with
    | [file] => runOnFile host command file parsed.options
    | _ => return .print 1 optionsText (commandUsage command)

/-- A run of the program. -/
def run (host : Host m) : List String → m Outcome
  | [] => return .print 1 usageText ""
  | name :: arguments =>
    match Command.ofName? name with
    | some command => runCommand host command arguments
    | none =>
      if name ∈ ["help", "--help", "-h"] then return .print 0 usageText ""
      else if name ∈ ["version", "--version", "-V"] then
        return .print 0 ("cinder " ++ version ++ "\n") ""
      else return .print 1 usageText ("Unknown command: " ++ name ++ "\n\n")

end Cli

end CinderFront
