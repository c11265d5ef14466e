import CinderFront.Arguments
import CinderFront.Diagnostic.Backlog
import CinderFront.FilePath
import CinderFront.Scanner.Stream

/-!
# Compiling one source

A compilation holds one source together with what outlives a scan of it: the symbols of its string
literals, and the backlog that collects what is reported. It can be run again and again.

* `Compilation.ofFile` — a compilation of a file, which must be a Cinder source by its name;
* `Compilation.run` — scans the source; what is wrong with the text is part of the result.
-/

namespace CinderFront

/-- A failure that stops a compilation. -/
inductive CompilationFailure
  /-- The file is of another kind by its name. -/
  | invalidExtension (path found : String)
  /-- The name of the file does not say its kind. -/
  | missingExtension (path : String)
  /-- The file cannot be read. -/
  | io (path : String) (cause : IoError)
  /-- The scan failed. -/
  | scan (cause : ScanFailure)
  /-- The listing or the report cannot be written. -/
  | output (cause : IoError)
  deriving DecidableEq, Repr

/-- The extension of Cinder sources, without its dot. -/
def sourceExtension : String := "cin"

/-- What is said of a failed compilation. -/
def CompilationFailure.message : CompilationFailure → String
  | invalidExtension path found =>
    "invalid extension: " ++ found ++ ", expected: cin (" ++ path ++ ")"
  | missingExtension path => "missing extension, expected a .cin file: " ++ path
  | io path cause => "failed to read " ++ path ++ ": " ++ cause.message
  | scan cause => cause.message
  | output cause => "failed to write output: " ++ cause.message

/-- What a compilation yields: the tokens through the end of the input, the findings that the
backlog kept, sorted by position, and how many findings there were. -/
structure CompilationResult where
  tokens : List Token
  diagnostics : List Diagnostic
  errorCount : Nat
  /-- How many findings the backlog dropped. -/
  suppressed : Nat
  deriving DecidableEq, Repr

/-- Whether an error was kept. -/
def CompilationResult.hasErrors (output : CompilationResult) : Bool := 0 < output.errorCount

/-- One source, and what outlives a scan of it. -/
structure Compilation where
  /-- The name of the source in tokens and findings. -/
  sourceName : String
  contents : List UInt8
  options : Options := {}
  /-- Where compiled code is to go. -/
  target : Option String := none
  symbols : SymbolTable := .new
  backlog : Backlog := .new options.retention

namespace Compilation

/-! ### Opening a source -/

/-- The compilation of a source in memory. -/
def ofSource (sourceName : String) (contents : List UInt8) (options : Options) : Compilation :=
  { sourceName, contents, options }

/-- The contents of a file without the white space at its end. -/
def trimEnd (contents : List UInt8) : List UInt8 :=
  (contents.reverse.dropWhile Ascii.isTrailing).reverse

/-- Checks that a path names a Cinder source. -/
def checkExtension (path : String) : Except CompilationFailure Unit :=
  match FilePath.extension? path with
  | none => .error (.missingExtension path)
  | some found =>
    if found = sourceExtension then .ok () else .error (.invalidExtension path found)

/-- What files are read with: the working directory, and the contents of the file at a path. -/
structure Files (m : Type → Type) where
  workingDirectory : m (Except IoError String)
  read : String → m (Except IoError (List UInt8))

/-- The compilation of a file, which is named relative to the working directory. Its kind is checked
before it is read. -/
def ofFile {m : Type → Type} [Monad m] (files : Files m) (file : String)
    (target : Option String) (options : Options) : m (Except CompilationFailure Compilation) := do
  match ← files.workingDirectory with
  | .error cause => return .error (.io "." cause)
  | .ok directory =>
    let path := FilePath.join directory file
    match checkExtension path with
    | .error e => return .error e
    | .ok () =>
      match ← files.read path with
      | .error cause => return .error (.io path cause)
      | .ok contents =>
        return .ok { sourceName := file, contents := trimEnd contents, options, target }

/-! ### Scanning it -/

/-- Scans the source from its beginning. The backlog is emptied into the result, so that the next
run yields findings of its own only. -/
def run : EStateM CompilationFailure Compilation CompilationResult := fun c =>
  match Scanner.ofStream (⟨c.contents⟩ : SourceText) c.sourceName c.symbols c.backlog with
  | .error e => .error (.scan e) c
  | .ok scanner =>
    match Scan.tokenize scanner with
    | .error e s => .error (.scan e) { c with symbols := s.symbols, backlog := s.receiver }
    | .ok tokens s =>
      let (diagnostics, backlog) := s.receiver.release
      .ok ⟨tokens, diagnostics, s.receiver.errorCount, s.receiver.suppressed⟩
        { c with symbols := s.symbols, backlog }

end Compilation

end CinderFront
