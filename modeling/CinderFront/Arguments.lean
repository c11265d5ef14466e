import CinderFront.Diagnostic.Backlog
import CinderFront.Diagnostic.Report
import CinderFront.Text.Affix
import CinderFront.Text.Numeral

/-!
# Command-line arguments

An argument that begins with two dashes is a flag, and every other one is positional. Flags and
positional arguments may be mixed; a later flag overrides an earlier one of its kind.

* `Argument.ofText` — what a single argument says;
* `Arguments.parse` — what a list of arguments says, or the first error in it.
-/

namespace CinderFront

/-- What flags can set. -/
structure Options where
  retention : Retention := {}
  color : ColorChoice := .auto
  deriving DecidableEq, Repr

/-- What is wrong with an argument. -/
inductive ArgumentError
  /-- The value of a limit is no numeral. -/
  | invalidErrorLimit (value : String)
  /-- The value does not say when to decorate. -/
  | invalidColor (value : String)
  /-- The whole argument is a flag that does not exist. -/
  | unknownFlag (argument : String)
  deriving DecidableEq, Repr

namespace ArgumentError

/-- The offending part of the argument. -/
def value : ArgumentError → String
  | invalidErrorLimit value => value
  | invalidColor value => value
  | unknownFlag argument => argument

/-- What is said of a wrong argument. -/
def message : ArgumentError → String
  | invalidErrorLimit value =>
    "invalid value for --error-limit: `" ++ value ++ "` (expected a non-negative integer)"
  | invalidColor value =>
    "invalid value for --color: `" ++ value ++ "` (expected auto, always or never)"
  | unknownFlag argument => "unknown option: " ++ argument

end ArgumentError

/-! ### One argument -/

/-- What a single argument says. -/
inductive Argument
  | errorLimit (limit : Nat)
  | color (choice : ColorChoice)
  | keepRepeated
  | positional (text : String)
  deriving DecidableEq, Repr

namespace Argument

/-- What a single argument says. -/
def ofText (text : String) : Except ArgumentError Argument :=
  match Text.after? "--error-limit=" text with
  | some value =>
    match Numeral.value? value with
    | some limit => .ok (errorLimit limit)
    | none => .error (.invalidErrorLimit value)
  | none =>
    match Text.after? "--color=" text with
    | some value =>
      match ColorChoice.ofText? value with
      | some choice => .ok (color choice)
      | none => .error (.invalidColor value)
    | none =>
      if text = "--no-dedup" then .ok keepRepeated
      else if (Text.after? "--" text).isSome then .error (.unknownFlag text)
      else .ok (positional text)

/-- Sets what the argument says. -/
def set (options : Options) : Argument → Options
  | errorLimit limit => { options with retention.errorLimit := limit }
  | color choice => { options with color := choice }
  | keepRepeated => { options with retention.deduplicate := false }
  | positional _ => options

/-- The text of a positional argument. -/
def positional? : Argument → Option String
  | positional text => some text
  | _ => none

end Argument

/-! ### All arguments -/

/-- The options that the flags set, and the positional arguments in order. -/
structure Arguments where
  options : Options := {}
  positional : List String := []
  deriving DecidableEq, Repr

/-- What a list of arguments says. Of several errors, the first counts. -/
def Arguments.parse (arguments : List String) : Except ArgumentError Arguments := do
  let parsed ← arguments.mapM Argument.ofText
  return { options := parsed.foldl Argument.set {}, positional := parsed.filterMap (·.positional?) }

end CinderFront
