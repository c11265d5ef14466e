import CinderFront.Proofs.Printer

/-!
# Printing where there is room for so many bytes only

A printer goes on after a failure, and nothing is written twice or left out for it. Over all calls
its channel takes the beginning of what they write where there is room for all of it, and a call
fails exactly if it writes something that ends behind the bound. The counts follow the findings
whose writing was begun, whether or not it came to its end.

* `Channel.filled` — a channel with a bound, once a text was offered to it;
* `Printer.begun`, `Printer.printAll_eq` — the findings whose writing is begun;
* `Printer.Call`, `Printer.Call.run_eq` — what one call counts and writes;
* `Printer.afterCalls_eq`, `Printer.afterCalls_of_unbounded` — what many calls count and write;
* `Printer.accepted_afterCalls` — the two printers compared.
-/

namespace CinderFront

/-! ### Channels -/

namespace Channel

/-- A channel with room for so many bytes, after a text was offered to it. -/
def filled (room : Nat) (text : String) : Channel :=
  ({ room := some room } : Channel).offered text

variable {room : Nat} {text more : String}

theorem filled_empty (room : Nat) : filled room "" = { room := some room } :=
  offered_empty _

theorem accepted_filled (room : Nat) (text : String) :
    (filled room text).accepted = (Utf8.bytes text).take room := by
  rw [filled, offered_of_bounded rfl, Array.empty_append]

theorem room_filled (room : Nat) (text : String) :
    (filled room text).room = some (room - (Utf8.bytes text).size) := by
  rw [filled, offered_of_bounded rfl]

theorem offered_filled (room : Nat) (text more : String) :
    (filled room text).offered more = filled room (text ++ more) :=
  (offered_append text more _).symm

/-- Nothing always fits, and a text fits if it does not end behind the bound. -/
theorem fits_filled_iff :
    (filled room text).Fits more ↔ more = "" ∨ (Utf8.bytes (text ++ more)).size ≤ room := by
  have hempty : more = "" ↔ (Utf8.bytes more).size = 0 := by
    rw [← Utf8.bytes_eq_empty_iff, Array.size_eq_zero_iff]
  rw [fits_iff_of_bounded (room_filled room text), hempty, Utf8.bytes_append, Array.size_append]
  omega

end Channel

/-! ### Findings -/

theorem Diagnostic.report_ne_empty (colours : Bool) (d : Diagnostic) : d.report colours ≠ "" := by
  intro hempty
  exact absurd (String.append_eq_empty_iff.1 hempty).2 (by decide)

namespace Printer

/-- The findings whose writing is begun, where there is room for `room` bytes and `written` bytes
stand before them: all findings up to the first one whose report ends behind the bound, this one
included. -/
def begun (colours : Bool) (room : Nat) : Nat → List Diagnostic → List Diagnostic
  | _, [] => []
  | written, d :: ds =>
    let ending := written + (Utf8.bytes (d.report colours)).size
    d :: if ending ≤ room then begun colours room ending ds else []

/-- The findings are counted up to the first that fails, and as much of their texts is written as
there is room for. -/
theorem printAll_eq {room : Nat} (ds : List Diagnostic) {printer : Printer} {text : String}
    (h : printer.channel = .filled room text) :
    printAll ds printer = write (String.join (ds.map (Diagnostic.report printer.colours)))
      (printer.countAll (begun printer.colours room (Utf8.bytes text).size ds)) := by
  induction ds generalizing printer text with
  | nil => exact (write_empty printer).symm
  | cons d ds ih =>
    let report := d.report printer.colours
    have hfits : printer.channel.Fits report ↔
        (Utf8.bytes text).size + (Utf8.bytes report).size ≤ room := by
      rw [h, Channel.fits_filled_iff, Utf8.bytes_append, Array.size_append]
      exact or_iff_right (d.report_ne_empty printer.colours)
    rw [printAll_cons, List.map_cons, String.join_cons, write_append]
    by_cases hle : (Utf8.bytes text).size + (Utf8.bytes report).size ≤ room
    · have hprint : print d printer = .ok () ((printer.count d).offered report) := by
        rw [print_eq]
        exact write_of_fits (hfits.2 hle)
      have hchannel : ((printer.count d).offered report).channel =
          .filled room (text ++ report) := by
        rw [← Channel.offered_filled, ← h]
        rfl
      have hbegun : begun printer.colours room (Utf8.bytes text).size (d :: ds) =
          d :: begun printer.colours room (Utf8.bytes (text ++ report)).size ds := by
        rw [begun, if_pos hle, Utf8.bytes_append, Array.size_append]
      -- Whether the counting comes before the writing or after it makes no difference.
      have hwrite : write report (printer.countAll (begun printer.colours room
          (Utf8.bytes text).size (d :: ds))) =
            .ok () (((printer.count d).offered report).countAll
              (begun printer.colours room (Utf8.bytes (text ++ report)).size ds)) := by
        have hroom : (printer.countAll (begun printer.colours room (Utf8.bytes text).size
            (d :: ds))).channel.Fits report := by
          rw [channel_countAll]
          exact hfits.2 hle
        rw [write_of_fits hroom, hbegun, countAll_cons, countAll_offered]
      rw [EStateM.bind_of_ok hprint, EStateM.bind_of_ok hwrite, ih hchannel]
      rfl
    · have hprint : print d printer =
          .error Channel.full ((printer.count d).offered report) := by
        rw [print_eq]
        exact write_of_not_fits (mt hfits.1 hle)
      have hbegun : begun printer.colours room (Utf8.bytes text).size (d :: ds) = [d] := by
        rw [begun, if_neg hle]
      have hwrite : write report (printer.countAll [d]) =
          .error Channel.full ((printer.count d).offered report) :=
        write_of_not_fits (mt hfits.1 hle)
      rw [hbegun, EStateM.bind_of_error hprint, EStateM.bind_of_error hwrite]

/-! ### Calls -/

/-- What a printer is asked to do. -/
inductive Call
  | print (d : Diagnostic)
  /-- The same, by one who knows it as a receiver of findings only. -/
  | report (d : Diagnostic)
  | printAll (ds : List Diagnostic)
  | printNote (message : String)
  | printSummary (errors warnings : Nat)
  | flush

namespace Call

/-- Does what is asked. -/
def run : Call → EStateM IoError Printer Unit
  | print d => Printer.print d
  | report d => fun printer =>
    match Receiver.report d printer with
    | .ok _ printer => .ok () printer
    | .error e printer => .error e.cause printer
  | printAll ds => Printer.printAll ds
  | printNote message => Printer.printNote message
  | printSummary errors warnings => Printer.printSummary errors warnings
  | flush => Printer.flush

/-- What the call writes where there is room for all of it. -/
def text (colours : Bool) : Call → String
  | print d | report d => d.report colours
  | printAll ds => String.join (ds.map (Diagnostic.report colours))
  | printNote message => noteLine colours message
  | printSummary errors warnings => summaryLine colours errors warnings
  | flush => ""

/-- The findings that the call is about. -/
def findings : Call → List Diagnostic
  | print d | report d => [d]
  | printAll ds => ds
  | printNote _ | printSummary _ _ | flush => []

/-- Those of them whose writing is begun. -/
def begun (colours : Bool) (room written : Nat) : Call → List Diagnostic
  | printAll ds => Printer.begun colours room written ds
  | call => call.findings

theorem run_report (d : Diagnostic) : (report d).run = (print d).run := by
  funext printer
  simp only [run, Receiver.report]
  cases Printer.print d printer <;> rfl

/-- A call counts the findings whose writing it begins, and writes as much of its text as there is
room for. -/
theorem run_eq (call : Call) {room : Nat} {printer : Printer} {before : String}
    (h : printer.channel = .filled room before) :
    call.run printer = write (call.text printer.colours)
      (printer.countAll (call.begun printer.colours room (Utf8.bytes before).size)) := by
  cases call with
  | print d => exact print_eq d printer
  | report d =>
    rw [run_report]
    exact print_eq d printer
  | printAll ds => exact printAll_eq ds h
  | printNote message => exact writes_printNote message printer
  | printSummary errors warnings => exact writes_printSummary errors warnings printer
  | flush => exact writes_pure printer

/-- Where there is room for all, a call counts all its findings and writes all of its text. -/
theorem run_of_unbounded (call : Call) {printer : Printer} (h : printer.channel.room = none) :
    call.run printer =
      .ok () ((printer.countAll call.findings).wrote (call.text printer.colours)) := by
  cases call with
  | print d => exact print_of_unbounded h d
  | report d =>
    rw [run_report]
    exact print_of_unbounded h d
  | printAll ds => exact printAll_of_unbounded h ds
  | printNote message => exact (writes_printNote message printer).trans (write_of_unbounded h _)
  | printSummary errors warnings =>
    exact (writes_printSummary errors warnings printer).trans (write_of_unbounded h _)
  | flush => exact (writes_pure printer).trans (write_of_unbounded h _)

end Call

/-- The printer after some calls, whether they succeeded or not. -/
def afterCalls (calls : List Call) (printer : Printer) : Printer :=
  calls.foldl (fun printer call => (call.run printer).after) printer

/-- What some calls write where there is room for all of it. -/
def texts (colours : Bool) (calls : List Call) : String :=
  String.join (calls.map (Call.text colours))

/-- The findings whose writing some calls begin, where there is room for `room` bytes and `written`
bytes stand before them. -/
def begunByCalls (colours : Bool) (room : Nat) : Nat → List Call → List Diagnostic
  | _, [] => []
  | written, call :: calls =>
    call.begun colours room written ++
      begunByCalls colours room (written + (Utf8.bytes (call.text colours)).size) calls

theorem texts_cons (colours : Bool) (call : Call) (calls : List Call) :
    texts colours (call :: calls) = call.text colours ++ texts colours calls := by
  rw [texts, List.map_cons, String.join_cons, ← texts]

theorem countAll_append (ds es : List Diagnostic) (printer : Printer) :
    printer.countAll (ds ++ es) = (printer.countAll ds).countAll es :=
  List.foldl_append

/-- Calls that go on after failures count the findings whose writing was begun, and write as much of
their texts as there is room for. -/
theorem afterCalls_eq (calls : List Call) {room : Nat} {printer : Printer} {before : String}
    (h : printer.channel = .filled room before) :
    printer.afterCalls calls =
      { printer.countAll (begunByCalls printer.colours room (Utf8.bytes before).size calls) with
        channel := .filled room (before ++ texts printer.colours calls) } := by
  induction calls generalizing printer before with
  | nil =>
    show printer = { printer with channel := .filled room (before ++ "") }
    rw [String.append_empty, ← h]
  | cons call calls ih =>
    let counted := printer.countAll (call.begun printer.colours room (Utf8.bytes before).size)
    let text := call.text printer.colours
    have hcall : (call.run printer).after =
        { counted with channel := .filled room (before ++ text) } := by
      rw [call.run_eq h, after_write, offered, channel_countAll, h, Channel.offered_filled]
    have hcolours : counted.colours = printer.colours := colours_countAll _ printer
    show (call.run printer).after.afterCalls calls = _
    rw [hcall, ih rfl, countAll_withChannel]
    simp only [counted, text, hcolours, begunByCalls, countAll_append, texts_cons,
      String.append_assoc, Utf8.bytes_append, Array.size_append]

/-- Where there is room for all, calls count all their findings and write all of their texts. -/
theorem afterCalls_of_unbounded (calls : List Call) {printer : Printer}
    (h : printer.channel.room = none) :
    printer.afterCalls calls = (printer.countAll (calls.flatMap Call.findings)).wrote
      (texts printer.colours calls) := by
  induction calls generalizing printer with
  | nil => exact (wrote_empty printer).symm
  | cons call calls ih =>
    let printer' := (printer.countAll call.findings).wrote (call.text printer.colours)
    have hcall : (call.run printer).after = printer' := by
      rw [call.run_of_unbounded h, EStateM.Result.after_ok]
    have hroom : printer'.channel.room = none := by
      rw [room_wrote, channel_countAll, h]
    have hcolours : printer'.colours = printer.colours := colours_countAll _ printer
    show (call.run printer).after.afterCalls calls = _
    rw [hcall, ih hroom, hcolours, countAll_wrote, ← wrote_append, ← countAll_append, texts_cons,
      List.flatMap_cons]

theorem accepted_afterCalls_of_unbounded (colours : Bool) (calls : List Call) :
    (({ colours } : Printer).afterCalls calls).channel.accepted =
      Utf8.bytes (texts colours calls) := by
  rw [afterCalls_of_unbounded calls rfl, channel_wrote, channel_countAll]
  exact Array.empty_append

/-- What a printer with room for so many bytes does with some calls, compared with what a printer
with room for all does with them. Its channel takes the beginning of the same bytes. It counts the
findings whose writing was begun. And the next call fails exactly if it writes something that ends
behind the bound, while it succeeds where there is room for all. -/
theorem accepted_afterCalls (choice : ColorChoice) (isTerminal : Bool) (room : Nat)
    (calls : List Call) :
    let colours := choice.decorates isTerminal
    let bounded := (new { room := some room } choice isTerminal).afterCalls calls
    let unbounded := (new {} choice isTerminal).afterCalls calls
    let counted := begunByCalls colours room 0 calls
    bounded.channel.accepted = unbounded.channel.accepted.take room ∧
    bounded.errorCount = counted.countP Diagnostic.isError ∧
    bounded.warningCount = counted.countP Diagnostic.isWarning ∧
    ∀ call : Call,
      let text := Utf8.bytes (call.text colours)
      (∃ printer, call.run unbounded = .ok () printer ∧
        printer.channel.accepted = unbounded.channel.accepted ++ text) ∧
      ((∃ e printer, call.run bounded = .error e printer) ↔
        text ≠ #[] ∧ room < unbounded.channel.accepted.size + text.size) := by
  intro colours bounded unbounded counted
  have hbounded : bounded = { (new { room := some room } choice isTerminal).countAll counted with
      channel := .filled room (texts colours calls) } := by
    have hempty : (new { room := some room } choice isTerminal).channel = .filled room "" :=
      (Channel.filled_empty room).symm
    have heq := afterCalls_eq calls hempty
    rwa [String.empty_append] at heq
  have hchannel : bounded.channel = .filled room (texts colours calls) := by rw [hbounded]
  have hcolours : bounded.colours = colours := by
    rw [hbounded]
    exact colours_countAll _ _
  have haccepted : unbounded.channel.accepted = Utf8.bytes (texts colours calls) :=
    accepted_afterCalls_of_unbounded colours calls
  refine ⟨?_, ?_, ?_, fun call => ?_⟩
  · rw [hchannel, Channel.accepted_filled, haccepted]
  · rw [hbounded, errorCount_countAll]
    exact Nat.zero_add _
  · rw [hbounded, warningCount_countAll]
    exact Nat.zero_add _
  intro text
  constructor
  · have hunbounded : unbounded = ((new {} choice isTerminal).countAll
        (calls.flatMap Call.findings)).wrote (texts colours calls) :=
      afterCalls_of_unbounded calls rfl
    have hroom : unbounded.channel.room = none := by
      rw [hunbounded, room_wrote, channel_countAll]
      rfl
    have hcolours' : unbounded.colours = colours := by
      rw [hunbounded, colours_wrote, colours_countAll]
      rfl
    refine ⟨_, call.run_of_unbounded hroom, ?_⟩
    rw [channel_wrote, channel_countAll, hcolours']
    rfl
  · rw [call.run_eq hchannel, exists_write_eq_error_iff, channel_countAll, hchannel,
      Channel.fits_filled_iff, not_or, Nat.not_le, hcolours, haccepted, ← Array.size_append,
      ← Utf8.bytes_append, ne_eq, Utf8.bytes_eq_empty_iff]

end Printer

end CinderFront
