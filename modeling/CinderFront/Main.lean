import CinderFront.Cli

/-!
# The program

Reads files, runs the command line on them, and prints what it yields.
-/

namespace CinderFront

/-- What the system says of a failure, with the number of the failure if it has one. -/
def systemMessage : IO.Error → String
  | .noFileOrDirectory _ code details => numbered details code
  | .permissionDenied _ code details => numbered details code
  | .resourceExhausted _ code details => numbered details code
  | .inappropriateType _ code details => numbered details code
  | .invalidArgument _ code details => numbered details code
  | .otherError code details => numbered details code
  | e => toString e
where
  /-- The words of the system and the number. -/
  numbered (details : String) (code : UInt32) : String :=
    details ++ " (os error " ++ toString code ++ ")"

/-- An action of the system whose failure is a value. -/
def attempt {α : Type} (act : IO α) : IO (Except IoError α) :=
  try
    return .ok (← act)
  catch e =>
    return .error ⟨systemMessage e⟩

/-- The files of the system. -/
def systemFiles : Compilation.Files IO where
  workingDirectory := attempt do return toString (← IO.currentDir)
  read path :=
    if path.toList.contains (Char.ofNat 0) then
      return .error ⟨FileError.message .nulInPath⟩
    else
      attempt do return (← IO.FS.withFile path .read (·.readBinToEnd)).toList

end CinderFront

/-- Runs the program with its arguments. -/
def main (arguments : List String) : IO UInt32 := do
  let stdout ← IO.getStdout
  let stderr ← IO.getStderr
  let host : CinderFront.Host IO :=
    { files := CinderFront.systemFiles, reportsToTerminal := ← stderr.isTty }
  let outcome ← CinderFront.Cli.run host arguments
  stdout.write ⟨outcome.stdout⟩
  stdout.flush
  stderr.write ⟨outcome.stderr⟩
  stderr.flush
  return outcome.status.toUInt32
