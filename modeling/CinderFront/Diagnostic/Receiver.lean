import CinderFront.Diagnostic
import CinderFront.Effect

/-!
# Receivers of diagnostics

Whoever finds something reports it to a receiver. A receiver may refuse a report, which ends the
work of whoever reported; what the receiver keeps of a finding is its own affair.

* `Receiver` — a receiver of findings;
* `Recorder` — keeps every finding, in the order of the reports;
* `FaultyRecorder` — a recorder that refuses certain calls.
-/

namespace CinderFront

/-- Why a report was refused. -/
structure Refusal where
  cause : IoError
  deriving DecidableEq, Repr

/-- What is said of a refused report. -/
def Refusal.message (e : Refusal) : String :=
  "failed to write diagnostic: " ++ e.cause.message

/-- A receiver of findings. -/
class Receiver (δ : Type) where
  report : Diagnostic → EStateM Refusal δ Unit

/-- The findings reported so far, in the order of the reports. -/
structure Recorder where
  diagnostics : Array Diagnostic := #[]
  deriving DecidableEq, Repr

instance : Receiver Recorder where
  report d := fun r => .ok () ⟨r.diagnostics.push d⟩

/-- A recorder that refuses certain calls. Calls are counted from zero, and the refused ones count;
a refused finding is not recorded. -/
structure FaultyRecorder where
  refuses : Nat → Bool
  diagnostics : Array Diagnostic := #[]
  calls : Nat := 0

namespace FaultyRecorder

/-- The reason that a refused call gives. -/
def closed : Refusal := ⟨⟨"sink closed"⟩⟩

/-- Records a finding, unless this call is to be refused. -/
def report (d : Diagnostic) : EStateM Refusal FaultyRecorder Unit := fun r =>
  if r.refuses r.calls then
    .error closed { r with calls := r.calls + 1 }
  else
    .ok () { r with diagnostics := r.diagnostics.push d, calls := r.calls + 1 }

instance : Receiver FaultyRecorder where
  report := report

end FaultyRecorder

end CinderFront
