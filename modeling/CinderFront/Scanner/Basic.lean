import CinderFront.Diagnostic.Receiver
import CinderFront.LexicalError
import CinderFront.SymbolTable
import CinderFront.Lookahead

/-!
# The scanner and its actions

A scanner reads a stream through its lookahead, reports what is wrong with the text to a receiver,
and puts the contents of string literals into a symbol table. This module holds the scanner, the
three things it can do — move, report, intern — and the one loop by which it reads the bytes of a
token.

* `Scanner.ofStream` — a scanner at the beginning of a stream;
* `Scan` — an action of a scanner; only reading, reporting and numbering can fail;
* `Transition`, `Scan.absorb` — how the bytes of a token are taken, and the loop that takes them.
-/

namespace CinderFront

/-! ### Failures -/

/-- A failure that ends a scan. What is wrong with the text is no such failure. -/
inductive ScanFailure
  /-- The source with this name could not be read. -/
  | io (sourceName : String) (cause : IoError)
  /-- The receiver refused a report. -/
  | refused (cause : Refusal)
  /-- There is no symbol left for a new string. -/
  | capacity (cause : CapacityError)
  deriving DecidableEq, Repr

/-- What is said of a failed scan. -/
def ScanFailure.message : ScanFailure → String
  | io sourceName cause => "failed to read `" ++ sourceName ++ "`: " ++ cause.message
  | refused cause => cause.message
  | capacity cause => cause.message

/-! ### The scanner -/

/-- A scanner over the stream `σ` that reports to the receiver `δ`. -/
structure Scanner (σ δ : Type) where
  view : Lookahead σ
  receiver : δ
  symbols : SymbolTable
  sourceName : String
  /-- Whether the sequence of tokens has come to its end. -/
  finished : Bool := false

/-- An action of a scanner. -/
abbrev Scan (σ δ : Type) := EStateM ScanFailure (Scanner σ δ)

namespace Scanner

variable {σ δ : Type} [ByteStream σ]

/-- The scanner at the beginning of a stream. -/
def ofStream (stream : σ) (sourceName : String) (symbols : SymbolTable) (receiver : δ) :
    Except ScanFailure (Scanner σ δ) :=
  match Lookahead.ofStream stream with
  | .ok view => .ok { view, receiver, symbols, sourceName }
  | .error cause => .error (.io sourceName cause)

/-- The position of the next byte to be read. -/
def position (s : Scanner σ δ) : Position := s.view.position

/-- A bound on how often the scanner can still move. -/
def ahead (s : Scanner σ δ) : Nat := s.view.ahead

end Scanner

namespace Scan

variable {σ δ α β : Type}

/-! ### Moving, reporting, interning -/

/-- An action on the lookahead alone. -/
def onView (act : EStateM IoError (Lookahead σ) α) : Scan σ δ α := fun s =>
  match act s.view with
  | .ok a view => .ok a { s with view }
  | .error cause view => .error (.io s.sourceName cause) { s with view }

/-- Moves on by `n` bytes, or to the end of the input. -/
def advance [ByteStream σ] (n : Nat) : Scan σ δ Unit := onView (Lookahead.advance n)

/-- Moves on while the current byte is in the class `p`. -/
def skipWhile [ByteStream σ] (p : UInt8 → Bool) : Scan σ δ Unit := onView (Lookahead.skipWhile p)

/-- Reports what is wrong with the text at a position. -/
def report [Receiver δ] (e : LexicalError) (position : Position) : Scan σ δ Unit := fun s =>
  match Receiver.report (e.toDiagnostic s.sourceName position) s.receiver with
  | .ok _ receiver => .ok () { s with receiver }
  | .error cause receiver => .error (.refused cause) { s with receiver }

/-- Reports what is wrong with the text at the current byte. -/
def reportHere [Receiver δ] (e : LexicalError) : Scan σ δ Unit := fun s =>
  report e s.view.position s

/-- The symbol of a byte string. If no number is left for a new one, nothing is entered. -/
def intern (bytes : List UInt8) : Scan σ δ Symbol := fun s =>
  match s.symbols.tryIntern bytes with
  | .ok (symbol, symbols) => .ok symbol { s with symbols }
  | .error cause => .error (.capacity cause) s

/-- Passes the current byte: reports what is wrong with it, if anything is, and moves on. -/
def pass [ByteStream σ] [Receiver δ] : Option LexicalError → Scan σ δ Unit
  | none => advance 1
  | some e => do
    reportHere e
    advance 1

/-! ### What the actions leave ahead -/

variable [ByteStream σ]

theorem keeps_onView {act : EStateM IoError (Lookahead σ) α}
    (h : EStateM.Keeps Lookahead.ahead act) :
    EStateM.Keeps Scanner.ahead (onView act : Scan σ δ α) := by
  intro s
  have hs := h s.view
  unfold onView
  split <;> simp_all [Scanner.ahead]

theorem keeps_advance (n : Nat) : EStateM.Keeps Scanner.ahead (advance n : Scan σ δ Unit) :=
  keeps_onView (Lookahead.keeps_advance n)

theorem keeps_skipWhile (p : UInt8 → Bool) :
    EStateM.Keeps Scanner.ahead (skipWhile p : Scan σ δ Unit) :=
  keeps_onView (Lookahead.keeps_skipWhile p)

theorem keeps_intern (bytes : List UInt8) :
    EStateM.Keeps Scanner.ahead (intern bytes : Scan σ δ Symbol) := by
  intro s
  unfold intern
  split <;> exact Nat.le_refl _

theorem ahead_advance_lt {n : Nat} {s : Scanner σ δ} (hn : 0 < n)
    (h : s.view.current ≠ Ascii.nul) : (advance n s).after.ahead < s.ahead := by
  have hs := Lookahead.ahead_advance_lt hn h
  unfold advance onView
  split <;> simp_all [Scanner.ahead]

variable [Receiver δ]

omit [ByteStream σ] in
theorem view_report (e : LexicalError) (position : Position) (s : Scanner σ δ) :
    (report e position s).after.view = s.view := by
  unfold report
  split <;> rfl

theorem keeps_report (e : LexicalError) (position : Position) :
    EStateM.Keeps Scanner.ahead (report e position : Scan σ δ Unit) := by
  intro s
  simp [Scanner.ahead, view_report]

theorem keeps_reportHere (e : LexicalError) :
    EStateM.Keeps Scanner.ahead (reportHere e : Scan σ δ Unit) :=
  fun s => keeps_report e s.view.position s

theorem keeps_pass (complaint : Option LexicalError) :
    EStateM.Keeps Scanner.ahead (pass complaint : Scan σ δ Unit) := by
  cases complaint with
  | none => exact keeps_advance 1
  | some e => exact EStateM.Keeps.bind (keeps_reportHere e) fun _ => keeps_advance 1

/-- Unless its report is refused, passing a byte lowers the bound on moves. -/
theorem ahead_pass_lt {complaint : Option LexicalError} {s s' : Scanner σ δ}
    (h : s.view.current ≠ Ascii.nul) (hpass : pass complaint s = .ok () s') :
    s'.ahead < s.ahead := by
  cases complaint with
  | none =>
    have := ahead_advance_lt Nat.one_pos h
    simp only [pass] at hpass
    simpa [hpass] using this
  | some e =>
    have hw := view_report e s.view.position s
    cases hr : reportHere e s with
    | ok u s₁ =>
      rw [pass, EStateM.bind_of_ok hr] at hpass
      rw [reportHere] at hr
      simp only [hr, EStateM.Result.after_ok] at hw
      have := ahead_advance_lt Nat.one_pos (s := s₁) (by simpa [hw] using h)
      rw [hpass] at this
      simpa [Scanner.ahead, hw] using this
    | error e' s₁ =>
      rw [pass, EStateM.bind_of_error hr] at hpass
      simp at hpass

end Scan

/-! ### Reading the bytes of a token -/

/-- How the bytes of a token are taken, given what has been taken before. -/
structure Transition (β : Type) where
  /-- Whether to stop before the current byte. -/
  stops : β → UInt8 → Bool
  /-- What is taken with the current byte, given also the byte after it and its position. -/
  take : β → UInt8 → UInt8 → Position → β
  /-- What is wrong with the current byte. -/
  complaint : β → UInt8 → Option LexicalError := fun _ _ => none

namespace Scan

variable {σ δ β : Type} [ByteStream σ] [Receiver δ]

/-- Takes bytes by a transition until it stops or the input ends. -/
def absorb (t : Transition β) (taken : β) (s : Scanner σ δ) :
    EStateM.Result ScanFailure (Scanner σ δ) β :=
  let b := s.view.current
  if _h : b = Ascii.nul then .ok taken s
  else if t.stops taken b then .ok taken s
  else
    let next := s.view.next
    let position := s.view.position
    match _hp : pass (t.complaint taken b) s with
    | .ok _ s' => absorb t (t.take taken b next position) s'
    | .error e s' => .error e s'
termination_by s.ahead
decreasing_by exact ahead_pass_lt _h _hp

theorem keeps_absorb (t : Transition β) (taken : β) :
    EStateM.Keeps Scanner.ahead (absorb t taken : Scan σ δ β) := by
  intro s
  fun_induction absorb t taken s with
  | case1 taken s b h => simp
  | case2 taken s b h hstop => simp
  | case3 taken s b h hstop next position u s' hp ih =>
    exact Nat.le_trans ih (by simpa [b, hp] using keeps_pass (t.complaint taken b) s)
  | case4 taken s b h hstop e s' hp =>
    simpa [b, hp] using keeps_pass (t.complaint taken b) s

/-- If the transition takes the current byte without complaint, the bound on moves is lowered. -/
theorem ahead_absorb_lt {t : Transition β} {taken : β} {s : Scanner σ δ}
    (h : s.view.current ≠ Ascii.nul) (hstop : t.stops taken s.view.current = false)
    (hcomplaint : t.complaint taken s.view.current = none) :
    (absorb t taken s).after.ahead < s.ahead := by
  have hs := ahead_advance_lt Nat.one_pos h
  rw [absorb]
  simp only [h, hstop, dite_false, Bool.false_eq_true, if_false]
  split
  · next u s' hp =>
    rw [hcomplaint, pass] at hp
    exact Nat.lt_of_le_of_lt (keeps_absorb t _ s') (by simpa [hp] using hs)
  · next e s' hp =>
    rw [hcomplaint, pass] at hp
    simpa [hp] using hs

end Scan

end CinderFront
