import CinderFront.Diagnostic.Receiver

/-!
# Findings held back

A backlog holds findings back until they are wanted, sorted by position. It may stop at a number of
errors, and it may drop an error that repeats the error before it.

* `Backlog.offer` — offers a finding, which is kept or counted as suppressed;
* `Backlog.release` — the findings kept, sorted, and the backlog as new.
-/

namespace CinderFront

/-- What a backlog keeps of the findings that it is offered. -/
structure Retention where
  /-- The number of errors after which nothing more is kept; zero stands for no limit. -/
  errorLimit : Nat := 10
  /-- Whether an error is dropped that repeats the last error kept. -/
  deduplicate : Bool := true
  deriving DecidableEq, Repr

/-- A backlog that drops nothing. -/
def Retention.unlimited : Retention where
  errorLimit := 0
  deduplicate := false

/-- What makes two errors repetitions of each other. -/
structure ErrorKey where
  position : Position
  code : ErrorCode
  message : String
  deriving DecidableEq, Repr

/-- The key of a finding. -/
def Diagnostic.key (d : Diagnostic) : ErrorKey := ⟨d.position, d.code, d.message⟩

/-- The findings kept since the last release, and the counts that go with them. -/
structure Backlog where
  retention : Retention := {}
  kept : Array Diagnostic := #[]
  errorCount : Nat := 0
  warningCount : Nat := 0
  suppressed : Nat := 0
  /-- The key of the last error kept. -/
  lastError : Option ErrorKey := none
  deriving DecidableEq, Repr

namespace Backlog

/-- The empty backlog that keeps what it is told to. -/
def new (retention : Retention) : Backlog := { retention }

/-- Whether the limit of errors is reached. -/
def limitReached (backlog : Backlog) : Bool :=
  0 < backlog.retention.errorLimit && backlog.retention.errorLimit ≤ backlog.errorCount

/-- Whether a finding is an error that repeats the last one kept, and is dropped for that. -/
def repeats (backlog : Backlog) (d : Diagnostic) : Bool :=
  d.isError && backlog.retention.deduplicate && backlog.lastError == some d.key

/-- Whether a finding would be kept. -/
def accepts (backlog : Backlog) (d : Diagnostic) : Bool :=
  !backlog.limitReached && !backlog.repeats d

/-- Keeps a finding. -/
def keep (backlog : Backlog) (d : Diagnostic) : Backlog :=
  { backlog with
    kept := backlog.kept.push d
    errorCount := if d.isError then backlog.errorCount + 1 else backlog.errorCount
    warningCount := if d.isWarning then backlog.warningCount + 1 else backlog.warningCount
    lastError := if d.isError then some d.key else backlog.lastError }

/-- Counts a finding that is not kept. -/
def suppress (backlog : Backlog) : Backlog :=
  { backlog with suppressed := backlog.suppressed + 1 }

/-- Offers a finding; the answer is whether it was kept. -/
def offer (d : Diagnostic) (backlog : Backlog) : Bool × Backlog :=
  if backlog.accepts d then (true, backlog.keep d) else (false, backlog.suppress)

/-- Whether an error has been kept. -/
def hasErrors (backlog : Backlog) : Bool := 0 < backlog.errorCount

/-- Whether nothing has been kept. -/
def isEmpty (backlog : Backlog) : Bool := backlog.kept.isEmpty

/-- Whether the findings kept are already in the order of their positions, pair by pair. -/
def isSorted (backlog : Backlog) : Bool :=
  let kept := backlog.kept.toList
  (kept.zip kept.tail).all fun (a, b) => a.position ≤ b.position

/-- The findings kept, sorted by position; at one position they stay in the order in which they
came. What is in order already is left as it is. -/
def sorted (backlog : Backlog) : List Diagnostic :=
  if backlog.isSorted then backlog.kept.toList
  else backlog.kept.toList.mergeSort fun a b => a.position ≤ b.position

/-- Takes the findings kept out of the backlog, sorted, and begins anew. -/
def release (backlog : Backlog) : List Diagnostic × Backlog :=
  (backlog.sorted, new backlog.retention)

instance : Receiver Backlog where
  report d := fun backlog => .ok () (backlog.offer d).2

end Backlog

end CinderFront
