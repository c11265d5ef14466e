import CinderFront.Command
import CinderFront.Proofs.Printer
import CinderFront.Proofs.Recompilation

/-!
# Commands one after the other

All commands of a session share one compilation and one printer. Every run of the compilation yields
the same, so a command finds in its source what the commands before it have found. Only the summary
differs: it speaks of all errors that the printer has seen.

* `CompilationResult.Selects` — how what a compilation yields comes from a scan of its source;
* `Session.run_of_unbounded` — what one command does, where there is room for all that it writes;
* `Session.Stands`, `Session.stands_afterCommands` — a session after so many commands;
* `Session.run_afterCommands` — the answer of the next command, and what it writes.
-/

namespace CinderFront

/-! ### What a compilation makes of a scan -/

/-- A compilation yields what a scan of its source yields: all tokens, and of the findings the first
ones, in the order of their positions. All of them are errors, and if there is one, the first of
them is kept. -/
structure CompilationResult.Selects (result : ScanResult) (output : CompilationResult) : Prop where
  tokens_eq : output.tokens = result.tokens
  sorted : Diagnostic.StablySorted (result.diagnostics.take output.errorCount) output.diagnostics
  length_eq : output.errorCount + output.suppressed = result.diagnostics.length
  isError : ∀ d ∈ output.diagnostics, d.isError = true
  errorCount_eq_zero_iff : output.errorCount = 0 ↔ result.diagnostics = []

namespace CompilationResult.Selects

variable {result : ScanResult} {output : CompilationResult} (h : output.Selects result)

include h

theorem length_diagnostics : output.diagnostics.length = output.errorCount := by
  have hlength := h.sorted.perm.length_eq
  have hsum := h.length_eq
  rw [List.length_take] at hlength
  omega

theorem hasErrors_eq : output.hasErrors = decide (result.diagnostics ≠ []) := by
  rw [CompilationResult.hasErrors, decide_eq_decide, Nat.pos_iff_ne_zero]
  exact not_congr h.errorCount_eq_zero_iff

/-- Where no error is kept, there was none to be dropped either. -/
theorem eq_nil_of_errorCount_eq_zero (hzero : output.errorCount = 0) :
    output.diagnostics = [] ∧ output.suppressed = 0 := by
  have hsum := h.length_eq
  rw [h.errorCount_eq_zero_iff.1 hzero, List.length_nil] at hsum
  constructor
  · exact List.eq_nil_of_length_eq_zero (h.length_diagnostics.trans hzero)
  · omega

end CompilationResult.Selects

/-- However it is set up, a compilation for whose strings there are symbols yields the result of a
scan of its source, and it yields this again when it is run again. -/
theorem Compilation.exists_selects (sourceName : String) {contents : List UInt8}
    (hfew : FewStrings contents) :
    ∃ result, scan (⟨contents⟩ : SourceText) sourceName = .ok result ∧
      ∀ (options : Options) (target : Option String),
        let c : Compilation := { sourceName, contents, options, target }
        ∃ output after, c.run = .ok output after ∧ after.run = .ok output after ∧
          after.symbols = result.symbols ∧ output.Selects result := by
  obtain ⟨items, fs, result, hlexes, hscan, htokens, hdiagnostics, hsymbols⟩ :=
    exists_scan hfew sourceName
  refine ⟨result, hscan, fun options target => ?_⟩
  intro c
  obtain ⟨output, hfirst, hagain, -⟩ :=
    run_run_of_lexes (c := c) hlexes (hfew.fit hlexes) SymbolTable.consistent_new rfl
  refine ⟨output, _, hfirst, hagain, hsymbols.symm, ?_⟩
  -- The first run is known in closed form, so what it yields is what the backlog keeps.
  have hrun := run_of_lexes (c := c) hlexes (hfew.fit hlexes) rfl
  rw [hfirst] at hrun
  obtain ⟨rfl, -⟩ := EStateM.Result.ok.inj hrun
  let backlog := Backlog.holding options.retention result.diagnostics
  have hbacklog : Backlog.holding options.retention (fs.map (Finding.toDiagnostic sourceName)) =
      backlog := by rw [← hdiagnostics]
  have hsorted : Diagnostic.StablySorted backlog.kept.toList backlog.sorted :=
    backlog.stablySorted_sorted
  have hle := options.retention.admitted_le result.diagnostics.length
  have herror : ∀ d ∈ result.diagnostics, d.isError = true := by
    intro d hd
    rw [hdiagnostics] at hd
    obtain ⟨f, -, rfl⟩ := List.mem_map.1 hd
    exact f.isError_toDiagnostic sourceName
  simp only [c, hbacklog]
  refine ⟨htokens.symm, hsorted, ?_, ?_, ?_⟩
  · exact Nat.add_sub_cancel' hle
  · intro d hd
    exact herror d (List.mem_of_mem_take (hsorted.perm.mem_iff.1 hd))
  · exact Retention.admitted_eq_zero_iff.trans List.length_eq_zero_iff

namespace Session

/-! ### One command -/

theorem compile_of_ok {s : Session} {output : CompilationResult} {compilation : Compilation}
    (h : s.compilation.run = .ok output compilation) :
    compile s = .ok output { s with compilation } := by
  simp only [compile, h]

theorem toOutput_of_ok {act : EStateM IoError Channel Unit} {s : Session} {out : Channel}
    (h : act s.out = .ok () out) : toOutput act s = .ok () { s with out } := by
  simp only [toOutput, h]

theorem toPrinter_of_ok {act : EStateM IoError Printer Unit} {s : Session} {printer : Printer}
    (h : act s.printer = .ok () printer) : toPrinter act s = .ok () { s with printer } := by
  simp only [toPrinter, h]

/-- Line by line, the listing of the tokens is written. -/
theorem writeListing_eq (symbols : SymbolTable) (tokens : List Token) (channel : Channel) :
    writeListing symbols tokens channel = Channel.write (listing symbols tokens) channel := by
  induction tokens generalizing channel with
  | nil => exact (Channel.write_empty channel).symm
  | cons token tokens ih =>
    have hlisting : listing symbols (token :: tokens) =
        token.listingLine symbols ++ listing symbols tokens := by
      rw [listing, List.map_cons, String.join_cons, ← listing]
    have hlines : writeListing symbols (token :: tokens) =
        (Channel.write (token.listingLine symbols) >>= fun _ => writeListing symbols tokens) := rfl
    rw [hlisting, hlines, Channel.write_append]
    cases hline : Channel.write (token.listingLine symbols) channel with
    | ok _ channel' => rw [EStateM.bind_of_ok hline, EStateM.bind_of_ok hline, ih]
    | error e channel' => rw [EStateM.bind_of_error hline, EStateM.bind_of_error hline]

/-- A session lists its tokens by writing their listing. -/
theorem list_eq (output : CompilationResult) (s : Session) :
    list output s =
      toOutput (Channel.write (listing s.compilation.symbols output.tokens)) s := by
  have hget : (get : EStateM CompilationFailure Session Session) s = .ok s s := rfl
  have hwrite : toOutput (writeListing s.compilation.symbols output.tokens) s =
      toOutput (Channel.write (listing s.compilation.symbols output.tokens)) s := by
    simp only [toOutput, writeListing_eq]
  rw [list, EStateM.bind_of_ok hget, ← hwrite]
  cases hlist : toOutput (writeListing s.compilation.symbols output.tokens) s with
  | ok _ s' =>
    rw [EStateM.bind_of_ok hlist]
    exact toOutput_of_ok rfl
  | error e s' => rw [EStateM.bind_of_error hlist]

/-- The report on a compilation: the findings, a summary of the given numbers of errors and
warnings, and a note if findings were dropped. -/
def reportText (colours : Bool) (output : CompilationResult) (errors warnings : Nat) : String :=
  String.join (output.diagnostics.map (Diagnostic.report colours)) ++
    summaryLine colours errors warnings ++
    (if 0 < output.suppressed then noteLine colours (suppressedNote output.suppressed) else "")

/-- The summary is about the findings of the compilation and all those before them. -/
theorem reportFindings_of_unbounded {printer : Printer} (h : printer.channel.room = none)
    {output : CompilationResult} (herror : ∀ d ∈ output.diagnostics, d.isError = true) :
    reportFindings output printer = .ok () ((printer.countAll output.diagnostics).wrote
      (reportText printer.colours output (printer.errorCount + output.diagnostics.length)
        printer.warningCount)) := by
  let counted := printer.countAll output.diagnostics
  have hroom : counted.channel.room = none := by
    rw [Printer.channel_countAll]
    exact h
  have hcolours : counted.colours = printer.colours := Printer.colours_countAll _ _
  obtain ⟨herrors, hwarnings⟩ := Printer.counts_countAll_of_isError herror printer
  let reports := String.join (output.diagnostics.map (Diagnostic.report printer.colours))
  let summary := summaryLine printer.colours (printer.errorCount + output.diagnostics.length)
    printer.warningCount
  have hfindings : Printer.printAll output.diagnostics printer = .ok () (counted.wrote reports) :=
    Printer.printAll_of_unbounded h output.diagnostics
  have hget : (get : EStateM IoError Printer Printer) (counted.wrote reports) =
      .ok (counted.wrote reports) (counted.wrote reports) := rfl
  have hsummary : Printer.printSummary (printer.errorCount + output.diagnostics.length)
      printer.warningCount (counted.wrote reports) =
        .ok () (counted.wrote (reports ++ summary)) := by
    rw [(Printer.writes_printSummary _ _).apply_wrote hroom, hcolours]
  rw [reportFindings, EStateM.bind_of_ok hfindings, EStateM.bind_of_ok hget,
    Printer.errorCount_wrote, Printer.warningCount_wrote, herrors, hwarnings,
    EStateM.bind_of_ok hsummary, reportText]
  by_cases hsuppressed : 0 < output.suppressed
  · have hnote : Printer.printNote (suppressedNote output.suppressed)
        (counted.wrote (reports ++ summary)) = .ok () (counted.wrote (reports ++ summary ++
          noteLine printer.colours (suppressedNote output.suppressed))) := by
      rw [(Printer.writes_printNote _).apply_wrote hroom, hcolours]
    rw [if_pos hsuppressed, if_pos hsuppressed, EStateM.bind_of_ok hnote]
    rfl
  · rw [if_neg hsuppressed, if_neg hsuppressed, String.append_empty]
    rfl

/-- The session after some commands, whether they succeeded or not. -/
def afterCommands (commands : List Command) (s : Session) : Session :=
  commands.foldl (fun s command => (command.run s).after) s

/-- What a command writes to the channel for listings. -/
def listed (symbols : SymbolTable) (tokens : List Token) : Command → String
  | .lex => listing symbols tokens
  | .check => ""

/-- A command compiles the source, lists the tokens if it is to do so, and reports the findings. -/
theorem run_of_unbounded {s : Session} {output : CompilationResult} {compilation : Compilation}
    (hcompile : s.compilation.run = .ok output compilation) (hout : s.out.room = none)
    (hprinter : s.printer.channel.room = none)
    (herror : ∀ d ∈ output.diagnostics, d.isError = true) (command : Command) :
    command.run s = .ok output.hasErrors {
      compilation
      out := s.out.accept (listed compilation.symbols output.tokens command)
      printer := (s.printer.countAll output.diagnostics).wrote
        (reportText s.printer.colours output (s.printer.errorCount + output.diagnostics.length)
          s.printer.warningCount) } := by
  let printer := (s.printer.countAll output.diagnostics).wrote
    (reportText s.printer.colours output (s.printer.errorCount + output.diagnostics.length)
      s.printer.warningCount)
  have hreport (out : Channel) : toPrinter (reportFindings output)
      { s with compilation, out } = .ok () { compilation, out, printer } :=
    toPrinter_of_ok (reportFindings_of_unbounded hprinter herror)
  have hanswer (out : Channel) :
      (do toPrinter (reportFindings output); return output.hasErrors) { s with compilation, out } =
        .ok output.hasErrors { compilation, out, printer } := EStateM.bind_of_ok (hreport out)
  rw [Command.run, EStateM.bind_of_ok (compile_of_ok hcompile)]
  cases command with
  | lex =>
    let out := s.out.accept (listing compilation.symbols output.tokens)
    have hlist : list output { s with compilation } = .ok () { s with compilation, out } := by
      rw [list_eq]
      exact toOutput_of_ok (Channel.write_of_unbounded hout _)
    rw [if_pos rfl, EStateM.bind_of_ok hlist]
    exact hanswer out
  | check =>
    rw [if_neg (by decide), listed, Channel.accept_empty]
    exact hanswer s.out

/-! ### Many commands -/

/-- The session stands where `n` commands have left it: its compilation yields `output` now and from
then on, there is room for all that it writes, and its printer has seen the errors of `n` runs. -/
structure Stands (output : CompilationResult) (after : Compilation) (colours : Bool) (n : Nat)
    (s : Session) : Prop where
  run_eq : s.compilation.run = .ok output after
  again : after.run = .ok output after
  out_room : s.out.room = none
  printer_room : s.printer.channel.room = none
  colours_eq : s.printer.colours = colours
  errorCount_eq : s.printer.errorCount = n * output.errorCount
  warningCount_eq : s.printer.warningCount = 0

section

variable {result : ScanResult} {output : CompilationResult} {after : Compilation} {colours : Bool}
  {n : Nat} {s : Session}

/-- One command more: what it answers, what it writes, and where it leaves the session. -/
theorem Stands.exists_run (h : Stands output after colours n s)
    (hselects : output.Selects result) (command : Command) :
    ∃ s', command.run s = .ok output.hasErrors s' ∧ Stands output after colours (n + 1) s' ∧
      s'.out = s.out.accept (listed after.symbols output.tokens command) ∧
      s'.printer.channel = s.printer.channel.accept
        (reportText colours output ((n + 1) * output.errorCount) 0) := by
  obtain ⟨herrors, hwarnings⟩ := Printer.counts_countAll_of_isError hselects.isError s.printer
  have hseen : s.printer.errorCount + output.diagnostics.length =
      (n + 1) * output.errorCount := by
    rw [h.errorCount_eq, hselects.length_diagnostics, Nat.succ_mul]
  have hrun := run_of_unbounded h.run_eq h.out_room h.printer_room hselects.isError command
  -- The printer's counts go on from command to command, while the findings are those of one run.
  rw [h.colours_eq, h.warningCount_eq, hseen] at hrun
  refine ⟨_, hrun, ?_, rfl, ?_⟩
  · exact {
      run_eq := h.again
      again := h.again
      out_room := h.out_room
      printer_room := by rw [Printer.room_wrote, Printer.channel_countAll, h.printer_room]
      colours_eq := by rw [Printer.colours_wrote, Printer.colours_countAll, h.colours_eq]
      errorCount_eq := by rw [Printer.errorCount_wrote, herrors, hseen]
      warningCount_eq := by rw [Printer.warningCount_wrote, hwarnings, h.warningCount_eq] }
  · rw [Printer.channel_wrote, Printer.channel_countAll]

/-- So many commands more leave the session where so many more runs have left it. -/
theorem Stands.stands_afterCommands (h : Stands output after colours n s)
    (hselects : output.Selects result) (commands : List Command) :
    Stands output after colours (n + commands.length) (s.afterCommands commands) := by
  induction commands generalizing n s with
  | nil => exact h
  | cons command commands ih =>
    obtain ⟨s', hrun, hs', -, -⟩ := h.exists_run hselects command
    have hafter : s.afterCommands (command :: commands) = s'.afterCommands commands := by
      show ((command.run s).after).afterCommands commands = s'.afterCommands commands
      rw [hrun]
      rfl
    have hlength : n + (command :: commands).length = n + 1 + commands.length := by
      rw [List.length_cons]
      omega
    rw [hafter, hlength]
    exact ih hs'

end

/-- A new session on a source yields the result of a scan of it. -/
theorem exists_stands (sourceName : String) {contents : List UInt8} (hfew : FewStrings contents) :
    ∃ result, scan (⟨contents⟩ : SourceText) sourceName = .ok result ∧
      ∀ (options : Options) (target : Option String) (color : ColorChoice) (isTerminal : Bool),
        ∃ output after,
          Stands output after (color.decorates isTerminal) 0 {
            compilation := { sourceName, contents, options, target }
            printer := .new {} color isTerminal } ∧
          after.symbols = result.symbols ∧ output.Selects result := by
  obtain ⟨result, hscan, hcompilation⟩ := Compilation.exists_selects sourceName hfew
  refine ⟨result, hscan, fun options target color isTerminal => ?_⟩
  obtain ⟨output, after, hrun, hagain, hsymbols, hselects⟩ := hcompilation options target
  exact ⟨output, after, ⟨hrun, hagain, rfl, rfl, rfl, (Nat.zero_mul _).symm, rfl⟩, hsymbols,
    hselects⟩

/-- A report on no errors is empty. -/
theorem reportText_of_errorCount_eq_zero {result : ScanResult} {output : CompilationResult}
    (hselects : output.Selects result) (hzero : output.errorCount = 0) (colours : Bool) :
    reportText colours output 0 0 = "" := by
  obtain ⟨hdiagnostics, hsuppressed⟩ := hselects.eq_nil_of_errorCount_eq_zero hzero
  rw [reportText, hdiagnostics, hsuppressed]
  rfl

/-- A report on some errors has a summary at least. -/
theorem reportText_ne_empty (colours : Bool) (output : CompilationResult) {errors : Nat}
    (h : 0 < errors) : reportText colours output errors 0 ≠ "" := by
  have hsummary : summaryLine colours errors 0 ≠ "" := by simp [summaryLine, h]
  intro hempty
  rw [reportText, String.append_eq_empty_iff, String.append_eq_empty_iff] at hempty
  exact hsummary hempty.1.2

/-- All commands of a session on a source for whose strings there are symbols answer whether a scan
of the source finds something wrong. Each listing is that of the scan. Each report is empty if
nothing is wrong; and else it consists of the same findings, a summary of the errors of this and of
all earlier commands, and a note if findings were dropped. -/
theorem run_afterCommands (sourceName : String) {contents : List UInt8}
    (hfew : FewStrings contents) :
    ∃ result, scan (⟨contents⟩ : SourceText) sourceName = .ok result ∧
      ∀ (options : Options) (target : Option String) (color : ColorChoice) (isTerminal : Bool),
        let session : Session := {
          compilation := { sourceName, contents, options, target }
          printer := .new {} color isTerminal }
        ∃ output after, session.compilation.run = .ok output after ∧ output.Selects result ∧
          ∀ (before : List Command) (command : Command),
            let s := session.afterCommands before
            ∃ s', command.run s = .ok (decide (result.diagnostics ≠ [])) s' ∧
              s'.out.accepted =
                s.out.accepted ++ Utf8.bytes (listed result.symbols result.tokens command) ∧
              s'.printer.channel.accepted = s.printer.channel.accepted ++ Utf8.bytes
                (if output.errorCount = 0 then ""
                else reportText (color.decorates isTerminal) output
                  ((before.length + 1) * output.errorCount) 0) := by
  obtain ⟨result, hscan, hsession⟩ := exists_stands sourceName hfew
  refine ⟨result, hscan, fun options target color isTerminal => ?_⟩
  intro session
  obtain ⟨output, after, hstands, hsymbols, hselects⟩ :=
    hsession options target color isTerminal
  refine ⟨output, after, hstands.run_eq, hselects, fun before command => ?_⟩
  have hbefore := hstands.stands_afterCommands hselects before
  rw [Nat.zero_add] at hbefore
  obtain ⟨s', hcommand, -, hout, hchannel⟩ := hbefore.exists_run hselects command
  refine ⟨s', ?_, ?_, ?_⟩
  · rw [hcommand, hselects.hasErrors_eq]
  · rw [hout, hsymbols, hselects.tokens_eq]
    rfl
  · rw [hchannel]
    split
    · next hzero =>
      rw [hzero, Nat.mul_zero, reportText_of_errorCount_eq_zero hselects hzero]
      rfl
    · rfl

/-- A session on a source with one defect. -/
theorem run_afterCommands_emptyCharacter :
    FewStrings (Ascii.codes "''") ∧
      ∃ result, scan (⟨Ascii.codes "''"⟩ : SourceText) "file" = .ok result ∧
        ∀ (options : Options) (target : Option String) (color : ColorChoice) (isTerminal : Bool),
          let session : Session := {
            compilation := { sourceName := "file", contents := Ascii.codes "''", options, target }
            printer := .new {} color isTerminal }
          ∃ output after, session.compilation.run = .ok output after ∧ output.Selects result ∧
            ∀ (before : List Command) (command : Command),
              let s := session.afterCommands before
              ∃ s', command.run s = .ok (decide (result.diagnostics ≠ [])) s' ∧
                s'.out.accepted =
                  s.out.accepted ++ Utf8.bytes (listed result.symbols result.tokens command) ∧
                s'.printer.channel.accepted = s.printer.channel.accepted ++ Utf8.bytes
                  (if output.errorCount = 0 then ""
                  else reportText (color.decorates isTerminal) output
                    ((before.length + 1) * output.errorCount) 0) :=
  have hfew : FewStrings (Ascii.codes "''") := fewStrings_of_length_lt (by decide)
  ⟨hfew, run_afterCommands "file" hfew⟩

end Session

end CinderFront
