import Mathlib.Data.List.DropRight
import CinderFront.Cli
import CinderFront.Proofs.Session

/-!
# The status of a run

A run of a command ends with the status zero or with the status one. It is zero exactly if the
arguments name one Cinder source that can be read and in which a scan finds nothing wrong. The flags
have no part in this: whatever the limit of errors is, the first error is kept.

* `Compilation.TrimsTo`, `Compilation.trimEnd_eq_iff` — white space at the end of a file;
* `Compilation.Files.Opens` — the files that can be compiled, and `Compilation.ofFile_of_opens`;
* `Cli.Accepts` — the arguments of runs that end with the status zero;
* `Cli.Outcome.Passes`, `Cli.Outcome.Fails` — the two ways in which a run can end;
* `Cli.status_run` — which arguments lead to which status.
-/

namespace CinderFront

/-! ### Opening a file -/

namespace Compilation

/-- The contents are the text with white space behind it, and the text does not end in white space
itself. -/
structure TrimsTo (contents text : List UInt8) : Prop where
  exists_eq : ∃ trailing, contents = text ++ trailing ∧ ∀ b ∈ trailing, Ascii.isTrailing b = true
  last : ∀ b, text.getLast? = some b → Ascii.isTrailing b = false

theorem trimEnd_eq_iff {contents text : List UInt8} :
    trimEnd contents = text ↔ TrimsTo contents text := by
  have htrim : trimEnd contents = contents.rdropWhile Ascii.isTrailing := rfl
  rw [htrim]
  constructor
  · rintro rfl
    constructor
    · exact ⟨contents.rtakeWhile Ascii.isTrailing, (List.rdropWhile_append_rtakeWhile ..).symm,
        fun b => List.mem_rtakeWhile_imp⟩
    · intro b hb
      have hne : contents.rdropWhile Ascii.isTrailing ≠ [] := by
        rintro hnil
        rw [hnil] at hb
        cases hb
      rw [List.getLast?_eq_some_getLast hne] at hb
      obtain rfl := Option.some.inj hb
      exact Bool.eq_false_iff.2 (List.rdropWhile_last_not _ _ hne)
  · rintro ⟨⟨trailing, rfl, htrailing⟩, hlast⟩
    have hself : text.rdropWhile Ascii.isTrailing = text := by
      refine List.rdropWhile_eq_self_iff.2 fun hne => ?_
      rw [hlast _ (List.getLast?_eq_some_getLast hne)]
      decide
    have hdrop : (text ++ trailing).rdropWhile Ascii.isTrailing =
        text.rdropWhile Ascii.isTrailing := by
      rw [List.rdropWhile, List.reverse_append, List.dropWhile_append_of_pos]
      · rfl
      · simpa using htrailing
    rw [hdrop, hself]

/-- The file can be compiled: it is a Cinder source by its name, and these are its contents. -/
def Files.Opens (files : Files Id) (file : String) (contents : List UInt8) : Prop :=
  ∃ directory, files.workingDirectory = .ok directory ∧
    FilePath.extension? (FilePath.join directory file) = some "cin" ∧
    files.read (FilePath.join directory file) = .ok contents

theorem checkExtension_eq_ok_iff {path : String} :
    checkExtension path = .ok () ↔ FilePath.extension? path = some "cin" := by
  rw [checkExtension]
  cases FilePath.extension? path with
  | none => simp
  | some found =>
    by_cases hfound : found = "cin"
    · simp [sourceExtension, hfound]
    · simp [sourceExtension, hfound]

section

variable {files : Files Id} {file : String}

theorem ofFile_of_opens {contents : List UInt8} (h : files.Opens file contents)
    (target : Option String) (options : Options) :
    ofFile files file target options =
      .ok { sourceName := file, contents := trimEnd contents, options, target } := by
  obtain ⟨directory, hdirectory, hextension, hread⟩ := h
  have hcheck := checkExtension_eq_ok_iff.2 hextension
  simp only [ofFile, bind, pure, hdirectory, hcheck, hread]

/-- A file that cannot be compiled is refused, whatever the reason is. -/
theorem exists_ofFile_eq_error (h : ∀ contents, ¬ files.Opens file contents)
    (target : Option String) (options : Options) :
    ∃ e, ofFile files file target options = .error e := by
  cases hdirectory : files.workingDirectory with
  | error cause => exact ⟨.io "." cause, by simp only [ofFile, bind, pure, hdirectory]⟩
  | ok directory =>
    cases hcheck : checkExtension (FilePath.join directory file) with
    | error e => exact ⟨e, by simp only [ofFile, bind, pure, hdirectory, hcheck]⟩
    | ok _ =>
      cases hread : files.read (FilePath.join directory file) with
      | error cause =>
        exact ⟨.io (FilePath.join directory file) cause,
          by simp only [ofFile, bind, pure, hdirectory, hcheck, hread]⟩
      | ok contents =>
        have hopens : files.Opens file contents :=
          ⟨directory, hdirectory, checkExtension_eq_ok_iff.1 hcheck, hread⟩
        exact absurd hopens (h contents)

end

end Compilation

/-! ### Outcomes -/

namespace Cli

/-- The run ends with the status zero and reports nothing. -/
structure Outcome.Passes (outcome : Outcome) : Prop where
  status_eq : outcome.status = 0
  stderr_eq : outcome.stderr = #[]

/-- The run ends with the status one and reports something. -/
structure Outcome.Fails (outcome : Outcome) : Prop where
  status_eq : outcome.status = 1
  stderr_ne : outcome.stderr ≠ #[]

theorem Outcome.fails_print (stdout : String) {stderr : String} (h : stderr ≠ "") :
    (Outcome.print 1 stdout stderr).Fails where
  status_eq := rfl
  stderr_ne := mt Utf8.bytes_eq_empty_iff.1 h

theorem Outcome.fails_failure (message : String) : (Outcome.failure message).Fails := by
  have hline : errorLine message ≠ "" := by
    intro hempty
    exact absurd (String.append_eq_empty_iff.1 hempty).2 (by decide)
  exact fails_print "" hline

theorem commandUsage_ne_empty (command : Command) : commandUsage command ≠ "" := by
  intro hempty
  exact absurd (String.append_eq_empty_iff.1 hempty).2 (by decide)

/-! ### Runs -/

/-- The file can be compiled, and a scan of its text finds nothing wrong. -/
def Sound (host : Host Id) (file : String) : Prop :=
  ∃ contents text result, host.files.Opens file contents ∧ Compilation.TrimsTo contents text ∧
    scan (⟨text⟩ : SourceText) file = .ok result ∧ result.diagnostics = []

/-- The arguments are right and name one file, which is sound. -/
def Accepts (host : Host Id) (arguments : List String) : Prop :=
  ∃ parsed file, Arguments.parse arguments = .ok parsed ∧ parsed.positional = [file] ∧
    Sound host file

/-- A command in a session of its own passes if a scan of the source finds nothing, and it fails if
a scan finds something, of which the first is kept and reported. -/
theorem runSession_of_scan {sourceName : String} {contents : List UInt8} {result : ScanResult}
    (hscan : scan (⟨contents⟩ : SourceText) sourceName = .ok result) (command : Command)
    (options : Options) (target : Option String) (color : ColorChoice) (isTerminal : Bool) :
    let outcome := runSession command {
      compilation := { sourceName, contents, options, target }
      printer := .new {} color isTerminal }
    (result.diagnostics = [] → outcome.Passes) ∧ (result.diagnostics ≠ [] → outcome.Fails) := by
  intro outcome
  obtain ⟨result', hscan', hsession⟩ :=
    Session.exists_stands sourceName (fewStrings_of_scan hscan)
  obtain rfl := Except.ok.inj (hscan.symm.trans hscan')
  obtain ⟨output, after, hstands, -, hselects⟩ := hsession options target color isTerminal
  obtain ⟨s, hrun, -, -, hchannel⟩ := hstands.exists_run hselects command
  have houtcome : outcome =
      ⟨if output.hasErrors then 1 else 0, s.out.accepted, s.printer.channel.accepted⟩ := by
    simp only [outcome, runSession, hrun]
  have hstderr : s.printer.channel.accepted = Utf8.bytes (Session.reportText
      (color.decorates isTerminal) output ((0 + 1) * output.errorCount) 0) := by
    rw [hchannel]
    exact Array.empty_append
  rw [houtcome, hselects.hasErrors_eq]
  constructor
  · intro hnil
    have hzero := hselects.errorCount_eq_zero_iff.2 hnil
    constructor
    · simp [hnil]
    · rw [hstderr, hzero, Nat.mul_zero,
        Session.reportText_of_errorCount_eq_zero hselects hzero]
      rfl
  · intro hne
    have hpos : 0 < (0 + 1) * output.errorCount := by
      have := mt hselects.errorCount_eq_zero_iff.1 hne
      omega
    constructor
    · simp [hne]
    · rw [hstderr, ne_eq, Utf8.bytes_eq_empty_iff]
      exact Session.reportText_ne_empty _ output hpos

/-- A command fails, and says so, if there are not enough symbols for the strings of the source. -/
theorem fails_runSession {contents : List UInt8} (hmany : ¬ FewStrings contents)
    (sourceName : String) (command : Command) (options : Options) (target : Option String)
    (color : ColorChoice) (isTerminal : Bool) :
    Outcome.Fails (runSession command {
      compilation := { sourceName, contents, options, target }
      printer := .new {} color isTerminal }) := by
  obtain ⟨items, fs, hlexes, hfit⟩ := exists_not_fit hmany
  have hsize : SymbolTable.new.size ≤ UInt32.size := by decide
  obtain ⟨compilation, hrun⟩ := Compilation.exists_run_of_not_fit
    (c := { sourceName, contents, options, target }) hlexes hfit hsize
  let session : Session := {
    compilation := { sourceName, contents, options, target }
    printer := .new {} color isTerminal }
  have hcompile : Session.compile session =
      .error (.scan (.capacity ⟨UInt32.size⟩)) { session with compilation } := by
    simp only [Session.compile, session, hrun]
  have hcommand : command.run session = _ := EStateM.bind_of_error hcompile
  rw [runSession, hcommand]
  refine ⟨rfl, fun hempty => ?_⟩
  obtain ⟨-, hline⟩ := Array.append_eq_empty_iff.1 hempty
  exact (Outcome.fails_failure _).stderr_ne hline

section

variable {host : Host Id} {file : String} {arguments : List String}

theorem passes_runOnFile (h : Sound host file) (command : Command) (options : Options) :
    Outcome.Passes (runOnFile host command file options) := by
  obtain ⟨contents, text, result, hopens, htrims, hscan, hnil⟩ := h
  obtain rfl := Compilation.trimEnd_eq_iff.2 htrims
  have hfile := Compilation.ofFile_of_opens hopens none options
  simp only [runOnFile, bind, pure, hfile]
  exact (runSession_of_scan hscan command options none options.color host.reportsToTerminal).1 hnil

theorem fails_runOnFile (h : ¬ Sound host file) (command : Command) (options : Options) :
    Outcome.Fails (runOnFile host command file options) := by
  -- A file that can be compiled has findings or too many strings; any other one is refused before
  -- it is scanned.
  by_cases hopens : ∃ contents, host.files.Opens file contents
  · obtain ⟨contents, hopens⟩ := hopens
    have hfile := Compilation.ofFile_of_opens hopens none options
    simp only [runOnFile, bind, pure, hfile]
    by_cases hfew : FewStrings (Compilation.trimEnd contents)
    · obtain ⟨-, -, result, -, hscan, -⟩ := exists_scan hfew file
      have hne : result.diagnostics ≠ [] := fun hnil =>
        h ⟨contents, _, result, hopens, Compilation.trimEnd_eq_iff.1 rfl, hscan, hnil⟩
      exact (runSession_of_scan hscan command options none options.color
        host.reportsToTerminal).2 hne
    · exact fails_runSession hfew file command options none options.color host.reportsToTerminal
  · obtain ⟨e, hfile⟩ :=
      Compilation.exists_ofFile_eq_error (not_exists.1 hopens) none options
    simp only [runOnFile, bind, pure, hfile]
    exact Outcome.fails_failure e.message

theorem run_name (host : Host Id) (command : Command) (arguments : List String) :
    run host (command.name :: arguments) = runCommand host command arguments := by
  have hname : Command.ofName? command.name = some command := by cases command <;> decide
  simp only [run, hname]

theorem passes_run (h : Accepts host arguments) (command : Command) :
    Outcome.Passes (run host (command.name :: arguments)) := by
  obtain ⟨parsed, file, hparse, hpositional, hsound⟩ := h
  rw [run_name]
  simp only [runCommand, hparse, hpositional]
  exact passes_runOnFile hsound command parsed.options

theorem fails_run (h : ¬ Accepts host arguments) (command : Command) :
    Outcome.Fails (run host (command.name :: arguments)) := by
  rw [run_name]
  unfold runCommand
  cases hparse : Arguments.parse arguments with
  | error e => exact Outcome.fails_failure e.message
  | ok parsed =>
    match hpositional : parsed.positional with
    | [] | _ :: _ :: _ =>
      simp only [hpositional]
      exact Outcome.fails_print optionsText (commandUsage_ne_empty command)
    | [file] =>
      simp only [hpositional]
      exact fails_runOnFile (fun hsound => h ⟨parsed, file, hparse, hpositional, hsound⟩) command
        parsed.options

/-- Runs that are both accepted or both not accepted end with the same status. -/
theorem status_eq_of_accepts_iff {arguments' : List String}
    (h : Accepts host arguments' ↔ Accepts host arguments) (command' command : Command) :
    Outcome.status (run host (command'.name :: arguments')) =
      Outcome.status (run host (command.name :: arguments)) := by
  by_cases haccepts : Accepts host arguments
  · rw [(passes_run haccepts command).status_eq, (passes_run (h.2 haccepts) command').status_eq]
  · rw [(fails_run haccepts command).status_eq, (fails_run (mt h.1 haccepts) command').status_eq]

/-- Only the positional arguments count, as long as nothing is wrong with the others. -/
theorem accepts_congr {arguments' : List String} {parsed parsed' : Arguments}
    (hparse : Arguments.parse arguments = .ok parsed)
    (hparse' : Arguments.parse arguments' = .ok parsed')
    (h : parsed'.positional = parsed.positional) :
    Accepts host arguments' ↔ Accepts host arguments := by
  simp only [Accepts, hparse, hparse', Except.ok.injEq]
  constructor
  · rintro ⟨_, file, rfl, hfile, hsound⟩
    exact ⟨parsed, file, rfl, h ▸ hfile, hsound⟩
  · rintro ⟨_, file, rfl, hfile, hsound⟩
    exact ⟨parsed', file, rfl, h.trans hfile, hsound⟩

end

/-- A run of a command ends with the status zero exactly if its arguments name one Cinder source
that can be read and in which a scan finds nothing wrong, and else it ends with the status one. It
reports something exactly if the status is one. So both commands end with the same status on the
same arguments, and no flag has any influence on it. -/
theorem status_run (host : Host Id) (command : Command) (arguments : List String) :
    let outcome : Outcome := run host (command.name :: arguments)
    (outcome.status = 0 ↔ Accepts host arguments) ∧
    (outcome.status = 0 ∨ outcome.status = 1) ∧
    (outcome.status = 0 → outcome.stderr = #[]) ∧
    (outcome.status = 1 → outcome.stderr ≠ #[]) ∧
    (∀ command' : Command,
      Outcome.status (run host (command'.name :: arguments)) = outcome.status) ∧
    ∀ parsed arguments' parsed', Arguments.parse arguments = .ok parsed →
      Arguments.parse arguments' = .ok parsed' → parsed'.positional = parsed.positional →
        Outcome.status (run host (command.name :: arguments')) = outcome.status := by
  intro outcome
  have hstatus : outcome.Passes ∧ Accepts host arguments ∨
      outcome.Fails ∧ ¬ Accepts host arguments := by
    by_cases haccepts : Accepts host arguments
    · exact .inl ⟨passes_run haccepts command, haccepts⟩
    · exact .inr ⟨fails_run haccepts command, haccepts⟩
  have hcommands (command' : Command) :
      Outcome.status (run host (command'.name :: arguments)) = outcome.status :=
    status_eq_of_accepts_iff Iff.rfl command' command
  have hflags (parsed) (arguments') (parsed') (hparse : Arguments.parse arguments = .ok parsed)
      (hparse' : Arguments.parse arguments' = .ok parsed')
      (h : parsed'.positional = parsed.positional) :
      Outcome.status (run host (command.name :: arguments')) = outcome.status :=
    status_eq_of_accepts_iff (accepts_congr hparse hparse' h) command command
  rcases hstatus with ⟨hpasses, haccepts⟩ | ⟨hfails, hrefused⟩
  · have hzero := hpasses.status_eq
    refine ⟨iff_of_true hzero haccepts, .inl hzero, fun _ => hpasses.stderr_eq, ?_, hcommands,
      hflags⟩
    intro hone
    omega
  · have hone := hfails.status_eq
    refine ⟨iff_of_false (by omega) hrefused, .inr hone, ?_, fun _ => hfails.stderr_ne, hcommands,
      hflags⟩
    intro hzero
    omega

end Cli

end CinderFront
