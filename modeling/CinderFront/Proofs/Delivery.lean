import CinderFront.Proofs.Room
import CinderFront.Proofs.Session

/-!
# Commands where there is room for so many bytes only

A session goes on after a command has failed for want of room. The source is compiled before
anything is written, so each command finds what it would have found anyway. The channel for listings
takes the beginning of the listing, repeated for each command that lists, whatever becomes of the
reports; and where a listing does not fit, nothing is reported.

* `Command.FailsAtListing` — commands that fail because of the channel for listings;
* `Session.Supplies`, `Session.supplies_afterCommands` — a session after some commands;
* `Session.delivers_afterCommands` — what the channel takes, and what the next command does.
-/

namespace CinderFront

/-- A text so many times over. -/
def repeated (text : String) : Nat → String
  | 0 => ""
  | n + 1 => repeated text n ++ text

theorem size_bytes_repeated (text : String) (n : Nat) :
    (Utf8.bytes (repeated text n)).size = n * (Utf8.bytes text).size := by
  induction n with
  | zero => rw [Nat.zero_mul]; rfl
  | succ n ih => rw [repeated, Utf8.bytes_append, Array.size_append, ih, Nat.succ_mul]

/-- A text that has been repeated so many times fits once more if one time more is not too much. -/
theorem Channel.fits_repeated_iff {room : Nat} {text : String} {n : Nat} :
    (filled room (repeated text n)).Fits text ↔ (n + 1) * (Utf8.bytes text).size ≤ room := by
  have hagain : (Utf8.bytes (repeated text n ++ text)).size = (n + 1) * (Utf8.bytes text).size :=
    size_bytes_repeated text (n + 1)
  rw [fits_filled_iff, hagain]
  refine or_iff_right_of_imp ?_
  rintro rfl
  exact Nat.zero_le room

/-- The command fails because its listing cannot be written. -/
def Command.FailsAtListing (command : Command) (s : Session) : Prop :=
  command = .lex ∧ ∃ output compiled, Session.compile s = .ok output compiled ∧
    ∃ e s', Session.list output compiled = .error e s'

namespace Session

/-! ### One command -/

/-- Nothing but the printer is changed by what is written to it. -/
theorem exists_after_toPrinter (act : EStateM IoError Printer Unit) (s : Session) :
    ∃ printer, (toPrinter act s).after = { s with printer } := by
  rw [toPrinter]
  cases act s.printer with
  | ok _ printer => exact ⟨printer, rfl⟩
  | error _ printer => exact ⟨printer, rfl⟩

/-- The end of a command: it reports, and if this succeeds it answers. -/
def reportAndAnswer (output : CompilationResult) : EStateM CompilationFailure Session Bool := do
  toPrinter (reportFindings output)
  return output.hasErrors

section

variable {s compiled : Session} {output : CompilationResult}

theorem exists_after_reportAndAnswer (output : CompilationResult) (s : Session) :
    ∃ printer, (reportAndAnswer output s).after = { s with printer } := by
  obtain ⟨printer, hafter⟩ := exists_after_toPrinter (reportFindings output) s
  refine ⟨printer, ?_⟩
  rw [reportAndAnswer]
  cases hreport : toPrinter (reportFindings output) s with
  | ok _ s' =>
    rw [hreport] at hafter
    rw [EStateM.bind_of_ok hreport]
    exact hafter
  | error e s' =>
    rw [hreport] at hafter
    rw [EStateM.bind_of_error hreport]
    exact hafter

theorem answer_of_reportAndAnswer {answer : Bool} {s' : Session}
    (h : reportAndAnswer output s = .ok answer s') : answer = output.hasErrors := by
  rw [reportAndAnswer] at h
  cases hreport : toPrinter (reportFindings output) s with
  | ok _ s'' =>
    rw [EStateM.bind_of_ok hreport] at h
    exact (EStateM.Result.ok.inj h).1.symm
  | error e s'' =>
    rw [EStateM.bind_of_error hreport] at h
    cases h

theorem run_check (hcompile : compile s = .ok output compiled) :
    Command.run .check s = reportAndAnswer output compiled := by
  rw [Command.run, EStateM.bind_of_ok hcompile, if_neg (by decide)]
  rfl

/-- The tokens are listed before anything is reported. -/
theorem run_lex (hcompile : compile s = .ok output compiled) :
    Command.run .lex s = (list output >>= fun _ => reportAndAnswer output) compiled := by
  rw [Command.run, EStateM.bind_of_ok hcompile, if_pos rfl]
  rfl

theorem list_of_fits
    (h : s.out.Fits (listing s.compilation.symbols output.tokens)) :
    list output s = .ok () { s with
      out := s.out.offered (listing s.compilation.symbols output.tokens) } := by
  rw [list_eq]
  exact toOutput_of_ok (Channel.write_of_fits h)

theorem list_of_not_fits
    (h : ¬ s.out.Fits (listing s.compilation.symbols output.tokens)) :
    list output s = .error (.output Channel.full) { s with
      out := s.out.offered (listing s.compilation.symbols output.tokens) } := by
  rw [list_eq]
  simp only [toOutput, Channel.write_of_not_fits h]

end

/-! ### Many commands -/

/-- The session stands where some commands have left it, of which `n` were to list the tokens. Its
compilation yields `output` now and from then on, and its channel for listings was offered the
listing so many times. Anything may have become of its printer. -/
structure Supplies (output : CompilationResult) (after : Compilation) (room n : Nat) (s : Session) :
    Prop where
  run_eq : s.compilation.run = .ok output after
  again : after.run = .ok output after
  out_eq : s.out = .filled room (repeated (listing after.symbols output.tokens) n)

namespace Supplies

variable {output : CompilationResult} {after : Compilation} {room n : Nat} {s : Session}

theorem compile_eq (h : Supplies output after room n s) :
    compile s = .ok output { s with compilation := after } :=
  compile_of_ok h.run_eq

theorem fits_iff (h : Supplies output after room n s) :
    s.out.Fits (listing after.symbols output.tokens) ↔
      (n + 1) * (Utf8.bytes (listing after.symbols output.tokens)).size ≤ room := by
  rw [h.out_eq, Channel.fits_repeated_iff]

theorem failsAtListing_iff (h : Supplies output after room n s) (command : Command) :
    command.FailsAtListing s ↔ command = .lex ∧
      room < (n + 1) * (Utf8.bytes (listing after.symbols output.tokens)).size := by
  rw [← Nat.not_le, ← h.fits_iff]
  refine and_congr_right fun _ => ⟨?_, fun hfits => ?_⟩
  · rintro ⟨output', compiled, hcompile, e, s', hlist⟩ hfits
    rw [h.compile_eq] at hcompile
    obtain ⟨rfl, rfl⟩ := EStateM.Result.ok.inj hcompile
    have hlisted := list_of_fits (s := { s with compilation := after }) hfits
    cases hlisted.symm.trans hlist
  · have hlist := list_of_not_fits (s := { s with compilation := after }) hfits
    exact ⟨output, _, h.compile_eq, _, _, hlist⟩

/-- A command that cannot list the tokens touches nothing but the channel that is full. -/
theorem run_of_failsAtListing (h : Supplies output after room n s) {command : Command}
    (hfails : command.FailsAtListing s) :
    command.run s = .error (.output Channel.full) { s with
      compilation := after
      out := .filled room (repeated (listing after.symbols output.tokens) (n + 1)) } := by
  obtain ⟨rfl, hlt⟩ := (h.failsAtListing_iff command).1 hfails
  have hlist := list_of_not_fits (s := { s with compilation := after })
    (mt h.fits_iff.1 (Nat.not_le.2 hlt))
  rw [run_lex h.compile_eq, EStateM.bind_of_error hlist, h.out_eq, Channel.offered_filled]
  rfl

/-- Any other command reports once it has listed the tokens. -/
theorem run_of_not_failsAtListing (h : Supplies output after room n s) {command : Command}
    (hfails : ¬ command.FailsAtListing s) :
    command.run s = reportAndAnswer output { s with
      compilation := after
      out := .filled room
        (repeated (listing after.symbols output.tokens) (n + [command].count .lex)) } := by
  cases command with
  | check =>
    rw [run_check h.compile_eq, h.out_eq]
    rfl
  | lex =>
    have hle : s.out.Fits (listing after.symbols output.tokens) := by
      rw [h.failsAtListing_iff, ← Nat.not_le, ← h.fits_iff] at hfails
      simpa using hfails
    have hlist := list_of_fits (s := { s with compilation := after }) hle
    rw [run_lex h.compile_eq, EStateM.bind_of_ok hlist, h.out_eq, Channel.offered_filled]
    rfl

/-- One command more, whether it succeeds or not. -/
theorem supplies_after_run (h : Supplies output after room n s) (command : Command) :
    Supplies output after room (n + [command].count .lex) (command.run s).after := by
  by_cases hfails : command.FailsAtListing s
  · obtain ⟨rfl, -⟩ := (h.failsAtListing_iff command).1 hfails
    rw [h.run_of_failsAtListing hfails]
    exact ⟨h.again, h.again, rfl⟩
  · rw [h.run_of_not_failsAtListing hfails]
    obtain ⟨printer, hafter⟩ := exists_after_reportAndAnswer output { s with
      compilation := after
      out := .filled room
        (repeated (listing after.symbols output.tokens) (n + [command].count .lex)) }
    rw [hafter]
    exact ⟨h.again, h.again, rfl⟩

theorem supplies_afterCommands (h : Supplies output after room n s) (commands : List Command) :
    Supplies output after room (n + commands.count .lex) (s.afterCommands commands) := by
  induction commands generalizing n s with
  | nil => exact h
  | cons command commands ih =>
    have hcount : n + (command :: commands).count .lex =
        n + [command].count .lex + commands.count .lex := by
      rw [Nat.add_assoc, ← List.count_append, List.singleton_append]
    rw [hcount]
    exact ih (h.supplies_after_run command)

/-- Whatever failed before, a command that succeeds answers as it must. -/
theorem answer_eq (h : Supplies output after room n s) {command : Command} {answer : Bool}
    {s' : Session} (hrun : command.run s = .ok answer s') : answer = output.hasErrors := by
  by_cases hfails : command.FailsAtListing s
  · rw [h.run_of_failsAtListing hfails] at hrun
    cases hrun
  · rw [h.run_of_not_failsAtListing hfails] at hrun
    exact answer_of_reportAndAnswer hrun

end Supplies

/-- Let there be symbols for all strings of the source. Where there is room for so many bytes only,
the channel for listings takes the beginning of what it takes where there is room for all: the
listing of a scan, once for each command that lists the tokens. Such a command fails because of this
channel exactly if the listings through its own are too long together, and then it leaves the
printer as it is. A command that succeeds answers as it does where there is room for all. None of
this depends on the room that the printer has. -/
theorem delivers_afterCommands (sourceName : String) {contents : List UInt8}
    (hfew : FewStrings contents) :
    ∃ result, scan (⟨contents⟩ : SourceText) sourceName = .ok result ∧
      ∀ (options : Options) (target : Option String) (color : ColorChoice) (isTerminal : Bool)
        (room : Nat) (printerRoom : Option Nat) (commands : List Command),
        let text := listing result.symbols result.tokens
        let compilation : Compilation := { sourceName, contents, options, target }
        let s := afterCommands commands {
          compilation
          out := { room := some room }
          printer := .new { room := printerRoom } color isTerminal }
        let unbounded := afterCommands commands {
          compilation
          printer := .new {} color isTerminal }
        s.out.accepted = (Utf8.bytes (repeated text (commands.count .lex))).take room ∧
        ∀ command : Command,
          (command.FailsAtListing s ↔ command = .lex ∧
            room < (commands.count .lex + 1) * (Utf8.bytes text).size) ∧
          (command.FailsAtListing s →
            ∃ e s', command.run s = .error (.output e) s' ∧ s'.printer = s.printer) ∧
          ∀ answer s', command.run s = .ok answer s' →
            ∃ s'', command.run unbounded = .ok answer s'' := by
  obtain ⟨result, hscan, hsession⟩ := exists_stands sourceName hfew
  refine ⟨result, hscan, fun options target color isTerminal room printerRoom commands => ?_⟩
  intro text compilation s unbounded
  obtain ⟨output, after, hstands, hsymbols, hselects⟩ := hsession options target color isTerminal
  have hbegin : Supplies output after room 0 {
      compilation
      out := { room := some room }
      printer := .new { room := printerRoom } color isTerminal } :=
    ⟨hstands.run_eq, hstands.again, (Channel.filled_empty room).symm⟩
  have hs : Supplies output after room (commands.count .lex) s := by
    have h := hbegin.supplies_afterCommands commands
    rwa [Nat.zero_add] at h
  have htext : listing after.symbols output.tokens = text := by rw [hsymbols, hselects.tokens_eq]
  refine ⟨?_, fun command => ⟨?_, fun hfails => ?_, fun answer s' hrun => ?_⟩⟩
  · rw [hs.out_eq, Channel.accepted_filled, htext]
  · rw [hs.failsAtListing_iff, htext]
  · exact ⟨_, _, hs.run_of_failsAtListing hfails, rfl⟩
  · obtain ⟨s'', hcommand, -⟩ :=
      (hstands.stands_afterCommands hselects commands).exists_run hselects command
    rw [hs.answer_eq hrun]
    exact ⟨s'', hcommand⟩

/-- A source of one name, which takes a line of the listing, and the end of the input another. -/
theorem delivers_afterCommands_name :
    FewStrings (Ascii.codes "x") ∧
      ∃ result, scan (⟨Ascii.codes "x"⟩ : SourceText) "file" = .ok result ∧
        ∀ (options : Options) (target : Option String) (color : ColorChoice) (isTerminal : Bool)
          (room : Nat) (printerRoom : Option Nat) (commands : List Command),
          let text := listing result.symbols result.tokens
          let compilation : Compilation :=
            { sourceName := "file", contents := Ascii.codes "x", options, target }
          let s := afterCommands commands {
            compilation
            out := { room := some room }
            printer := .new { room := printerRoom } color isTerminal }
          let unbounded := afterCommands commands {
            compilation
            printer := .new {} color isTerminal }
          s.out.accepted = (Utf8.bytes (repeated text (commands.count .lex))).take room ∧
          ∀ command : Command,
            (command.FailsAtListing s ↔ command = .lex ∧
              room < (commands.count .lex + 1) * (Utf8.bytes text).size) ∧
            (command.FailsAtListing s →
              ∃ e s', command.run s = .error (.output e) s' ∧ s'.printer = s.printer) ∧
            ∀ answer s', command.run s = .ok answer s' →
              ∃ s'', command.run unbounded = .ok answer s'' :=
  have hfew : FewStrings (Ascii.codes "x") := fewStrings_of_length_lt (by decide)
  ⟨hfew, delivers_afterCommands "file" hfew⟩

end Session

end CinderFront
