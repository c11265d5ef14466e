import CinderFront.Diagnostic.Printer

/-!
# What printers write

Printers write piece by piece, and the first piece that is refused ends the writing. This comes to
the same as writing all pieces as one text: a channel takes as much of it, and it fails as well.

A channel without a bound accepts every text, so nothing that writes to it can fail. A printer to
such a channel writes its texts one behind the other, and its counts grow by the findings that it is
given.

* `Channel.write_append` — two texts one after the other, and both as one;
* `Printer.Writes` — an action that does nothing but write a text, and `Printer.print_eq`,
  `Printer.writes_printNote`, `Printer.writes_printSummary` — the texts that printers write;
* `Channel.accept`, `Printer.wrote` — a channel that has accepted one more text, and its printer;
* `Channel.write_of_unbounded`, `Printer.write_of_unbounded` — what writing a text comes to;
* `Printer.countAll` — a printer that has counted some findings;
* `Printer.printAll_of_unbounded` — what printing some findings comes to.
-/

namespace CinderFront

theorem Utf8.bytes_append (text more : String) :
    bytes (text ++ more) = bytes text ++ bytes more := by
  show (text ++ more).toByteArray.data = text.toByteArray.data ++ more.toByteArray.data
  rw [String.toByteArray_append, ByteArray.data_append]

theorem Utf8.bytes_eq_empty_iff {text : String} : bytes text = #[] ↔ text = "" := by
  constructor
  · intro h
    have hdata : text.toByteArray.data = "".toByteArray.data := h
    exact String.toByteArray_inj.1 (ByteArray.ext hdata)
  · rintro rfl
    rfl

/-! ### Channels -/

theorem take_append (a b : Array UInt8) (room : Nat) :
    (a ++ b).take room = a.take room ++ b.take (room - a.size) := by
  rw [Array.take_eq_extract, Array.extract_append, Nat.zero_sub]

namespace Channel

/-- The channel that has accepted a text. -/
def accept (text : String) (channel : Channel) : Channel :=
  { channel with accepted := channel.accepted ++ Utf8.bytes text }

theorem accept_empty (channel : Channel) : channel.accept "" = channel := by
  show { channel with accepted := channel.accepted ++ #[] } = channel
  rw [Array.append_empty]

theorem accept_append (text more : String) (channel : Channel) :
    channel.accept (text ++ more) = (channel.accept text).accept more := by
  simp only [accept, Utf8.bytes_append, Array.append_assoc]

/-- The channel after a text was offered to it: it has taken as much as there was room for. -/
def offered (text : String) (channel : Channel) : Channel :=
  match channel.room with
  | none => channel.accept text
  | some room => {
      accepted := channel.accepted ++ (Utf8.bytes text).take room
      room := some (room - (Utf8.bytes text).size) }

/-- There is room for all of the text. -/
def Fits (text : String) (channel : Channel) : Prop :=
  ∀ room, channel.room = some room → (Utf8.bytes text).size ≤ room

section

variable {channel : Channel} {text more : String}

theorem offered_of_unbounded (h : channel.room = none) (text : String) :
    channel.offered text = channel.accept text := by
  simp only [offered, h]

theorem offered_of_bounded {room : Nat} (h : channel.room = some room) (text : String) :
    channel.offered text = {
      accepted := channel.accepted ++ (Utf8.bytes text).take room
      room := some (room - (Utf8.bytes text).size) } := by
  simp only [offered, h]

theorem fits_of_unbounded (h : channel.room = none) (text : String) : channel.Fits text := by
  intro room hroom
  rw [h] at hroom
  cases hroom

theorem fits_iff_of_bounded {room : Nat} (h : channel.room = some room) :
    channel.Fits text ↔ (Utf8.bytes text).size ≤ room := by
  constructor
  · intro hfits
    exact hfits room h
  · intro hle room' hroom'
    obtain rfl := Option.some.inj (h.symm.trans hroom')
    exact hle

theorem write_of_fits (h : channel.Fits text) :
    write text channel = .ok () (channel.offered text) := by
  cases hroom : channel.room with
  | none => simp only [write, offered, accept, hroom]
  | some room => simp only [write, offered, hroom, if_pos (h room hroom)]

theorem write_of_not_fits (h : ¬ channel.Fits text) :
    write text channel = .error full (channel.offered text) := by
  cases hroom : channel.room with
  | none => exact absurd (fits_of_unbounded hroom text) h
  | some room =>
    have hlt : ¬ (Utf8.bytes text).size ≤ room := mt (fits_iff_of_bounded hroom).2 h
    simp only [write, offered, hroom, if_neg hlt]
    rw [Nat.sub_eq_zero_of_le (Nat.le_of_not_le hlt)]

theorem offered_empty (channel : Channel) : channel.offered "" = channel := by
  have hbytes : Utf8.bytes "" = #[] := rfl
  cases hroom : channel.room with
  | none => rw [offered_of_unbounded hroom, accept_empty]
  | some room =>
    rw [offered_of_bounded hroom, hbytes, Array.take_eq_extract, Array.extract_empty,
      Array.append_empty, Array.size_empty, Nat.sub_zero, ← hroom]

theorem fits_empty (channel : Channel) : channel.Fits "" :=
  fun room _ => Nat.zero_le room

/-- Two texts are offered one after the other as they are offered as one. -/
theorem offered_append (text more : String) (channel : Channel) :
    channel.offered (text ++ more) = (channel.offered text).offered more := by
  cases hroom : channel.room with
  | none =>
    have haccept : (channel.accept text).room = none := hroom
    rw [offered_of_unbounded hroom, offered_of_unbounded hroom, offered_of_unbounded haccept,
      accept_append]
  | some room =>
    rw [offered_of_bounded hroom, offered_of_bounded hroom, offered_of_bounded rfl,
      Utf8.bytes_append, take_append, Array.append_assoc, Array.size_append, Nat.sub_sub]

theorem fits_append : channel.Fits (text ++ more) ↔
    channel.Fits text ∧ (channel.offered text).Fits more := by
  cases hroom : channel.room with
  | none =>
    have hoffered : (channel.offered text).room = none := by
      rw [offered_of_unbounded hroom]
      exact hroom
    exact iff_of_true (fits_of_unbounded hroom _)
      ⟨fits_of_unbounded hroom _, fits_of_unbounded hoffered _⟩
  | some room =>
    have hoffered : (channel.offered text).room = some (room - (Utf8.bytes text).size) := by
      rw [offered_of_bounded hroom]
    rw [fits_iff_of_bounded hroom, fits_iff_of_bounded hroom, fits_iff_of_bounded hoffered,
      Utf8.bytes_append, Array.size_append]
    omega

/-- Once a text did not fit, nothing more is taken. -/
theorem offered_offered_of_not_fits (h : ¬ channel.Fits text) (more : String) :
    (channel.offered text).offered more = channel.offered text := by
  cases hroom : channel.room with
  | none => exact absurd (fits_of_unbounded hroom text) h
  | some room =>
    have hzero : room - (Utf8.bytes text).size = 0 := by
      rw [fits_iff_of_bounded hroom] at h
      omega
    have hnone : (Utf8.bytes more).take 0 = #[] := Array.extract_zero
    rw [offered_of_bounded hroom, hzero, offered_of_bounded rfl, hnone, Array.append_empty,
      Nat.zero_sub]

end

/-- Writing one text after the other is writing both as one: what there is no room for is left over
in either case, and it is the first refusal that ends the writing. -/
theorem write_append (text more : String) (channel : Channel) :
    write (text ++ more) channel = (write text >>= fun _ => write more) channel := by
  by_cases htext : channel.Fits text
  · rw [EStateM.bind_of_ok (write_of_fits htext)]
    by_cases hmore : (channel.offered text).Fits more
    · rw [write_of_fits hmore, write_of_fits (fits_append.2 ⟨htext, hmore⟩), offered_append]
    · rw [write_of_not_fits hmore, write_of_not_fits (fun h => hmore (fits_append.1 h).2),
        offered_append]
  · rw [EStateM.bind_of_error (write_of_not_fits htext),
      write_of_not_fits (fun h => htext (fits_append.1 h).1), offered_append,
      offered_offered_of_not_fits htext]

theorem write_empty (channel : Channel) : write "" channel = .ok () channel := by
  rw [write_of_fits (fits_empty channel), offered_empty]

theorem write_of_unbounded {channel : Channel} (h : channel.room = none) (text : String) :
    write text channel = .ok () (channel.accept text) := by
  rw [write_of_fits (fits_of_unbounded h text), offered_of_unbounded h]

end Channel

/-! ### The texts of printers -/

namespace Printer

/-- The printer after a text was offered to its channel. -/
def offered (text : String) (printer : Printer) : Printer :=
  { printer with channel := printer.channel.offered text }

theorem write_of_fits {text : String} {printer : Printer} (h : printer.channel.Fits text) :
    write text printer = .ok () (printer.offered text) := by
  simp only [write, Channel.write_of_fits h, offered]

theorem write_of_not_fits {text : String} {printer : Printer} (h : ¬ printer.channel.Fits text) :
    write text printer = .error Channel.full (printer.offered text) := by
  simp only [write, Channel.write_of_not_fits h, offered]

theorem after_write (text : String) (printer : Printer) :
    (write text printer).after = printer.offered text := by
  by_cases h : printer.channel.Fits text
  · rw [write_of_fits h, EStateM.Result.after_ok]
  · rw [write_of_not_fits h, EStateM.Result.after_error]

theorem exists_write_eq_error_iff {text : String} {printer : Printer} :
    (∃ e printer', write text printer = .error e printer') ↔ ¬ printer.channel.Fits text := by
  constructor
  · rintro ⟨e, printer', herror⟩ hfits
    rw [write_of_fits hfits] at herror
    cases herror
  · intro hfits
    exact ⟨_, _, write_of_not_fits hfits⟩

theorem write_empty (printer : Printer) : write "" printer = .ok () printer := by
  rw [write_of_fits printer.channel.fits_empty, offered, Channel.offered_empty]

theorem write_append (text more : String) (printer : Printer) :
    write (text ++ more) printer = (write text >>= fun _ => write more) printer := by
  have happend := Channel.write_append text more printer.channel
  by_cases htext : printer.channel.Fits text
  · rw [EStateM.bind_of_ok (Channel.write_of_fits htext)] at happend
    rw [EStateM.bind_of_ok (write_of_fits htext)]
    simp only [write, offered, happend]
  · rw [EStateM.bind_of_error (Channel.write_of_not_fits htext)] at happend
    rw [EStateM.bind_of_error (write_of_not_fits htext)]
    simp only [write, offered, happend]

/-- The action does nothing but write a text, which depends on whether colours are on. -/
def Writes (act : EStateM IoError Printer Unit) (text : Bool → String) : Prop :=
  ∀ printer, act printer = write (text printer.colours) printer

section

variable {act act' : EStateM IoError Printer Unit} {text more : Bool → String}

theorem writes_write (text : String) : Writes (write text) fun _ => text :=
  fun _ => rfl

theorem writes_pure : Writes (pure ()) fun _ => "" :=
  fun printer => (write_empty printer).symm

theorem Writes.of_eq (h : Writes act text) (heq : ∀ colours, text colours = more colours) :
    Writes act more := by
  obtain rfl := funext heq
  exact h

/-- One action after the other writes one text behind the other. -/
theorem Writes.bind (h : Writes act text) (h' : Writes act' more) :
    Writes (act >>= fun _ => act') fun colours => text colours ++ more colours := by
  intro printer
  have hact := h printer
  rw [write_append]
  by_cases hfits : printer.channel.Fits (text printer.colours)
  · rw [write_of_fits hfits] at hact
    rw [EStateM.bind_of_ok hact, EStateM.bind_of_ok (write_of_fits hfits), h']
    rfl
  · rw [write_of_not_fits hfits] at hact
    rw [EStateM.bind_of_error hact, EStateM.bind_of_error (write_of_not_fits hfits)]

theorem Writes.forM {α : Type} {f : α → EStateM IoError Printer Unit} {text : Bool → α → String}
    (h : ∀ a, Writes (f a) (text · a)) (as : List α) :
    Writes (as.forM f) fun colours => String.join (as.map (text colours)) := by
  induction as with
  | nil => exact writes_pure
  | cons a as ih =>
    refine ((h a).bind ih).of_eq fun colours => ?_
    rw [List.map_cons, String.join_cons]

end

theorem writes_paint (style : Style) (word : String) :
    Writes (paint style word) (style.paint · word) := by
  intro printer
  have hget : (get : EStateM IoError Printer Printer) printer = .ok printer printer := rfl
  rw [paint, EStateM.bind_of_ok hget]
  cases hcolours : printer.colours with
  | false => rfl
  | true =>
    have hall := (writes_write style.sequence).bind
      ((writes_write word).bind (writes_write Style.reset)) printer
    rw [if_pos rfl, hall, ← String.append_assoc]
    rfl

theorem writes_printDetail (note : String) :
    Writes (printDetail note) (Diagnostic.noteText · note) := by
  refine ((writes_write "  = ").bind ((writes_paint .bold "note").bind
    (writes_write (": " ++ note ++ "\n")))).of_eq fun colours => ?_
  simp only [Diagnostic.noteText, String.append_assoc]

/-- Of a finding its report is written, once it is counted. -/
theorem print_eq (d : Diagnostic) (printer : Printer) :
    print d printer = write (d.report printer.colours) (printer.count d) := by
  have hpieces := (writes_paint d.severity.style d.severity.text).bind
    ((writes_paint .bold ("[" ++ d.code.label ++ "]")).bind
      ((writes_write (": " ++ d.message ++ "\n")).bind
        ((writes_write "  ").bind
          ((writes_paint .location "-->").bind
            ((writes_write (" " ++ d.location ++ "\n")).bind
              ((writes_write ("  = " ++ d.category.text ++ "\n")).bind
                ((Writes.forM writes_printDetail d.notes).bind (writes_write "\n"))))))))
  have hreport : Writes _ (d.report ·) := hpieces.of_eq fun colours => by
    simp only [Diagnostic.report, String.append_assoc]
  exact hreport (printer.count d)

theorem writes_printNote (message : String) :
    Writes (printNote message) (noteLine · message) := by
  refine ((writes_paint .note "note").bind (writes_write (": " ++ message ++ "\n"))).of_eq
    fun colours => ?_
  simp only [noteLine, String.append_assoc]

theorem writes_printSummary (errors warnings : Nat) :
    Writes (printSummary errors warnings) (summaryLine · errors warnings) := by
  unfold printSummary
  by_cases herrors : 0 < errors
  · rw [if_pos herrors]
    by_cases hwarnings : 0 < warnings
    · rw [if_pos hwarnings]
      refine ((writes_paint .error "error").bind (writes_write _)).of_eq fun colours => ?_
      have hend : " emitted" ++ "\n" = " emitted\n" := rfl
      simp only [summaryLine, if_pos herrors, if_pos hwarnings, String.append_assoc, hend]
    · rw [if_neg hwarnings]
      refine ((writes_paint .error "error").bind (writes_write _)).of_eq fun colours => ?_
      simp only [summaryLine, if_pos herrors, if_neg hwarnings, String.append_assoc,
        String.empty_append]
  · rw [if_neg herrors]
    by_cases hwarnings : 0 < warnings
    · rw [if_pos hwarnings]
      refine ((writes_paint .warning "warning").bind (writes_write _)).of_eq fun colours => ?_
      simp only [summaryLine, if_neg herrors, if_pos hwarnings, String.append_assoc]
    · rw [if_neg hwarnings]
      refine writes_pure.of_eq fun colours => ?_
      simp only [summaryLine, if_neg herrors, if_neg hwarnings]

/-! ### Printers with room for all -/

/-- The printer whose channel has accepted a text. -/
def wrote (text : String) (printer : Printer) : Printer :=
  { printer with channel := printer.channel.accept text }

theorem wrote_empty (printer : Printer) : printer.wrote "" = printer := by
  simp only [wrote, Channel.accept_empty]

theorem wrote_append (text more : String) (printer : Printer) :
    printer.wrote (text ++ more) = (printer.wrote text).wrote more := by
  simp only [wrote, Channel.accept_append]

theorem write_of_unbounded {printer : Printer} (h : printer.channel.room = none)
    (text : String) : write text printer = .ok () (printer.wrote text) := by
  simp only [write, Channel.write_of_unbounded h, wrote]

theorem channel_wrote (text : String) (printer : Printer) :
    (printer.wrote text).channel = printer.channel.accept text := rfl

theorem room_wrote (text : String) (printer : Printer) :
    (printer.wrote text).channel.room = printer.channel.room := rfl

theorem colours_wrote (text : String) (printer : Printer) :
    (printer.wrote text).colours = printer.colours := rfl

theorem errorCount_wrote (text : String) (printer : Printer) :
    (printer.wrote text).errorCount = printer.errorCount := rfl

theorem warningCount_wrote (text : String) (printer : Printer) :
    (printer.wrote text).warningCount = printer.warningCount := rfl

theorem colours_count (d : Diagnostic) (printer : Printer) :
    (printer.count d).colours = printer.colours := rfl

/-- The printer that has counted some findings. -/
def countAll (ds : List Diagnostic) (printer : Printer) : Printer :=
  ds.foldl (fun printer d => printer.count d) printer

theorem countAll_cons (d : Diagnostic) (ds : List Diagnostic) (printer : Printer) :
    printer.countAll (d :: ds) = (printer.count d).countAll ds := rfl

/-- The channel has no part in counting. -/
theorem countAll_withChannel (ds : List Diagnostic) (printer : Printer) (channel : Channel) :
    ({ printer with channel } : Printer).countAll ds =
      { printer.countAll ds with channel } := by
  induction ds generalizing printer with
  | nil => rfl
  | cons d ds ih => exact ih (printer.count d)

theorem channel_countAll (ds : List Diagnostic) (printer : Printer) :
    (printer.countAll ds).channel = printer.channel := by
  have hsame : printer.countAll ds = { printer.countAll ds with channel := printer.channel } :=
    countAll_withChannel ds printer printer.channel
  rw [hsame]

theorem countAll_wrote (ds : List Diagnostic) (text : String) (printer : Printer) :
    (printer.wrote text).countAll ds = (printer.countAll ds).wrote text := by
  rw [wrote, countAll_withChannel, wrote, channel_countAll]

theorem countAll_offered (ds : List Diagnostic) (text : String) (printer : Printer) :
    (printer.offered text).countAll ds = (printer.countAll ds).offered text := by
  rw [offered, countAll_withChannel, offered, channel_countAll]

theorem colours_countAll (ds : List Diagnostic) (printer : Printer) :
    (printer.countAll ds).colours = printer.colours := by
  induction ds generalizing printer with
  | nil => rfl
  | cons d ds ih => exact ih (printer.count d)

theorem errorCount_countAll (ds : List Diagnostic) (printer : Printer) :
    (printer.countAll ds).errorCount = printer.errorCount + ds.countP Diagnostic.isError := by
  induction ds generalizing printer with
  | nil => rfl
  | cons d ds ih =>
    rw [countAll_cons, ih, List.countP_cons]
    simp only [count]
    split <;> omega

theorem warningCount_countAll (ds : List Diagnostic) (printer : Printer) :
    (printer.countAll ds).warningCount =
      printer.warningCount + ds.countP Diagnostic.isWarning := by
  induction ds generalizing printer with
  | nil => rfl
  | cons d ds ih =>
    rw [countAll_cons, ih, List.countP_cons]
    simp only [count]
    split <;> omega

/-- Errors are counted as errors, and as nothing else. -/
theorem counts_countAll_of_isError {ds : List Diagnostic} (h : ∀ d ∈ ds, d.isError = true)
    (printer : Printer) :
    (printer.countAll ds).errorCount = printer.errorCount + ds.length ∧
      (printer.countAll ds).warningCount = printer.warningCount := by
  have hwarnings : ds.countP Diagnostic.isWarning = 0 := by
    refine List.countP_eq_zero.2 fun d hd => ?_
    rw [Diagnostic.isWarning_eq_false (h d hd)]
    exact Bool.false_ne_true
  constructor
  · rw [errorCount_countAll, List.countP_eq_length.2 h]
  · rw [warningCount_countAll, hwarnings, Nat.add_zero]

/-- A text is written behind the one before it. -/
theorem Writes.apply_wrote {act : EStateM IoError Printer Unit} {text : Bool → String}
    (hact : Writes act text) {printer : Printer} (h : printer.channel.room = none)
    (before : String) :
    act (printer.wrote before) = .ok () (printer.wrote (before ++ text printer.colours)) := by
  have hroom : (printer.wrote before).channel.room = none := by
    rw [room_wrote]
    exact h
  rw [hact, write_of_unbounded hroom, colours_wrote, wrote_append]

/-- A finding is counted, and then it is written. -/
theorem print_of_unbounded {printer : Printer} (h : printer.channel.room = none) (d : Diagnostic) :
    print d printer = .ok () ((printer.count d).wrote (d.report printer.colours)) := by
  have hroom : (printer.count d).channel.room = none := h
  rw [print_eq, write_of_unbounded hroom]

theorem printAll_cons (d : Diagnostic) (ds : List Diagnostic) :
    printAll (d :: ds) = (print d >>= fun _ => printAll ds) := rfl

/-- Findings are counted, and their texts are written one behind the other. -/
theorem printAll_of_unbounded {printer : Printer} (h : printer.channel.room = none)
    (ds : List Diagnostic) :
    printAll ds printer = .ok ()
      ((printer.countAll ds).wrote (String.join (ds.map (Diagnostic.report printer.colours)))) := by
  induction ds generalizing printer with
  | nil =>
    show EStateM.Result.ok () printer = .ok () (printer.wrote "")
    rw [wrote_empty]
  | cons d ds ih =>
    have hroom : ((printer.count d).wrote (d.report printer.colours)).channel.room = none := by
      rw [room_wrote]
      exact h
    rw [printAll_cons, EStateM.bind_of_ok (print_of_unbounded h d), ih hroom, colours_wrote,
      colours_count, countAll_wrote, ← wrote_append, ← String.join_cons, ← List.map_cons,
      ← countAll_cons]

end Printer

end CinderFront
