import CinderFront.Proofs.Room

/-!
# Colours

Colours are decoration and nothing else. With colours on, some words of the text are surrounded by
control sequences; once these are deleted, the text is the one that is written with colours off.
Each decorated word is on one line, and its decoration ends before the next one begins. All this
holds as long as no message, source name or note has an escape byte of its own.

* `undecorate` — the text without control sequences;
* `Decorated` — texts in which every decoration is closed on its line;
* `Decorates` — the same text with colours on and with colours off;
* `Diagnostic.decorates_report`, `decorates_noteLine`, `decorates_summaryLine` — what a
  printer writes;
* `Printer.undecorate_afterCalls` — two printers, one with colours on and one with colours off.
-/

namespace CinderFront

/-- The byte that begins a control sequence. -/
abbrev Ascii.escape : UInt8 := 0x1B

/-- The letter `m`, which ends a control sequence. -/
abbrev Ascii.lowerM : UInt8 := 0x6D

/-! ### Control sequences -/

/-- The text behind the beginning of a control sequence, or between two of them, without everything
that stands from an escape byte through the next `m`. -/
def withoutSequences : (inside : Bool) → List UInt8 → List UInt8
  | _, [] => []
  | true, b :: rest => withoutSequences (b != Ascii.lowerM) rest
  | false, b :: rest =>
    if b = Ascii.escape then withoutSequences true rest else b :: withoutSequences false rest

/-- The text without its control sequences. -/
def undecorate (text : List UInt8) : List UInt8 := withoutSequences false text

/-- The text has decorated words in it, each on one line. A decoration begins with the sequence of
its style and ends with the reset sequence, and there are no other escape bytes. -/
inductive Decorated : List UInt8 → Prop
  | nil : Decorated []
  | byte {b : UInt8} {rest : List UInt8} : b ≠ Ascii.escape → Decorated rest →
      Decorated (b :: rest)
  | word (style : Style) {word rest : List UInt8} : Ascii.escape ∉ word →
      Ascii.lineFeed ∉ word → Decorated rest →
      Decorated ((Utf8.bytes style.sequence).toList ++
        (word ++ ((Utf8.bytes Style.reset).toList ++ rest)))

theorem undecorate_byte {b : UInt8} (hb : b ≠ Ascii.escape) (rest : List UInt8) :
    undecorate (b :: rest) = b :: undecorate rest := by
  rw [undecorate, withoutSequences, if_neg hb, ← undecorate]

theorem undecorate_append_of_not_mem {word : List UInt8} (hword : Ascii.escape ∉ word)
    (rest : List UInt8) : undecorate (word ++ rest) = word ++ undecorate rest := by
  induction word with
  | nil => rfl
  | cons b word ih =>
    obtain ⟨hb, hword⟩ := not_or.1 (mt List.mem_cons.2 hword)
    rw [List.cons_append, undecorate_byte (Ne.symm hb), ih hword, List.cons_append]

theorem undecorate_sequence (style : Style) (rest : List UInt8) :
    undecorate ((Utf8.bytes style.sequence).toList ++ rest) = undecorate rest := by
  cases style <;> rfl

theorem undecorate_reset (rest : List UInt8) :
    undecorate ((Utf8.bytes Style.reset).toList ++ rest) = undecorate rest :=
  rfl

theorem undecorate_word (style : Style) {word : List UInt8} (hword : Ascii.escape ∉ word)
    (rest : List UInt8) :
    undecorate ((Utf8.bytes style.sequence).toList ++
      (word ++ ((Utf8.bytes Style.reset).toList ++ rest))) = word ++ undecorate rest := by
  rw [undecorate_sequence, undecorate_append_of_not_mem hword, undecorate_reset]

namespace Decorated

variable {text more : List UInt8}

theorem append (h : Decorated text) (hmore : Decorated more) : Decorated (text ++ more) := by
  induction h with
  | nil => exact hmore
  | byte hb _ ih => exact .byte hb ih
  | word style hescape hlineFeed _ ih =>
    simp only [List.append_assoc]
    exact .word style hescape hlineFeed ih

/-- No control sequence reaches from one decorated text into the next. -/
theorem undecorate_append (h : Decorated text) (more : List UInt8) :
    undecorate (text ++ more) = undecorate text ++ undecorate more := by
  induction h with
  | nil => rfl
  | byte hb _ ih => rw [List.cons_append, undecorate_byte hb, undecorate_byte hb, ih]; rfl
  | word style hescape _ _ ih =>
    simp only [List.append_assoc]
    rw [undecorate_word style hescape, undecorate_word style hescape, ih, List.append_assoc]

theorem of_not_mem (h : Ascii.escape ∉ text) : Decorated text := by
  induction text with
  | nil => exact .nil
  | cons b text ih =>
    obtain ⟨hb, htext⟩ := not_or.1 (mt List.mem_cons.2 h)
    exact .byte (Ne.symm hb) (ih htext)

end Decorated

/-! ### Texts without control sequences -/

/-- No control sequence begins in the text. -/
def Plain (text : String) : Prop := Ascii.escape ∉ (Utf8.bytes text).toList

instance (text : String) : Decidable (Plain text) :=
  inferInstanceAs (Decidable (Ascii.escape ∉ (Utf8.bytes text).toList))

theorem Utf8.toList_bytes_append (text more : String) :
    (bytes (text ++ more)).toList = (bytes text).toList ++ (bytes more).toList := by
  rw [bytes_append, Array.toList_append]

theorem plain_append {text more : String} : Plain (text ++ more) ↔ Plain text ∧ Plain more := by
  rw [Plain, Utf8.toList_bytes_append, List.mem_append, not_or]
  rfl

/-- A digit is one byte, which begins no control sequence. -/
theorem escape_not_mem_utf8EncodeChar {c : Char} (h : c.isDigit = true) :
    Ascii.escape ∉ String.utf8EncodeChar c := by
  have hdigit : 48 ≤ c.val.toNat ∧ c.val.toNat ≤ 57 := by
    simp only [Char.isDigit, Bool.and_eq_true, decide_eq_true_eq, ge_iff_le] at h
    exact ⟨UInt32.le_iff_toNat_le.1 h.1, UInt32.le_iff_toNat_le.1 h.2⟩
  have hascii : c.val.toNat ≤ 127 := by omega
  intro hmem
  rw [String.utf8EncodeChar, if_pos hascii, List.mem_singleton] at hmem
  have hnat : 27 = c.val.toNat % 256 := congrArg UInt8.toNat hmem
  omega

theorem plain_toString (n : Nat) : Plain (toString n) := by
  have hbytes : (Utf8.bytes (toString n)).toList =
      (Nat.toDigits 10 n).flatMap String.utf8EncodeChar := by
    show (String.ofList (Nat.toDigits 10 n)).toByteArray.data.toList = _
    rw [String.toByteArray_ofList, List.utf8Encode, List.toList_data_toByteArray]
  rw [Plain, hbytes, List.mem_flatMap]
  rintro ⟨c, hc, hmem⟩
  exact escape_not_mem_utf8EncodeChar (Nat.isDigit_of_mem_toDigits (by decide) (by decide) hc) hmem

theorem plain_text (p : Position) : Plain p.text := by
  rw [Position.text, plain_append, plain_append]
  exact ⟨⟨plain_toString p.line, by decide⟩, plain_toString p.column⟩

theorem plain_counted (n : Nat) {thing : String} (h : Plain thing) : Plain (counted n thing) := by
  have hplural : Plain (if n = 1 then "" else "s") := by
    split <;> decide
  rw [counted, plain_append, plain_append, plain_append]
  exact ⟨⟨⟨plain_toString n, by decide⟩, h⟩, hplural⟩

theorem plain_previousErrors (errors : Nat) : Plain (previousErrors errors) := by
  rw [previousErrors]
  split
  · decide
  · exact plain_append.2 ⟨plain_toString errors, by decide⟩

/-! ### The same text with colours on and with colours off -/

/-- The first text is the second one with some of its words decorated. -/
structure Decorates (coloured plain : String) : Prop where
  decorated : Decorated (Utf8.bytes coloured).toList
  undecorate_eq : undecorate (Utf8.bytes coloured).toList = (Utf8.bytes plain).toList

namespace Decorates

theorem of_plain {text : String} (h : Plain text) : Decorates text text where
  decorated := .of_not_mem h
  undecorate_eq := by
    have hall := undecorate_append_of_not_mem h []
    rwa [List.append_nil, show undecorate [] = [] from rfl, List.append_nil] at hall

theorem append {coloured plain coloured' plain' : String} (h : Decorates coloured plain)
    (h' : Decorates coloured' plain') : Decorates (coloured ++ coloured') (plain ++ plain') where
  decorated := by
    rw [Utf8.toList_bytes_append]
    exact h.decorated.append h'.decorated
  undecorate_eq := by
    rw [Utf8.toList_bytes_append, h.decorated.undecorate_append, h.undecorate_eq, h'.undecorate_eq,
      Utf8.toList_bytes_append]

theorem append_plain {coloured plain : String} (h : Decorates coloured plain) (text : String)
    (htext : Plain text) : Decorates (coloured ++ text) (plain ++ text) :=
  h.append (.of_plain htext)

theorem join {α : Type} {text : Bool → α → String} (as : List α)
    (h : ∀ a ∈ as, Decorates (text true a) (text false a)) :
    Decorates (String.join (as.map (text true))) (String.join (as.map (text false))) := by
  induction as with
  | nil =>
    show Decorates "" ""
    exact of_plain (by decide)
  | cons a as ih =>
    obtain ⟨ha, has⟩ := List.forall_mem_cons.1 h
    rw [List.map_cons, List.map_cons, String.join_cons, String.join_cons]
    exact ha.append (ih has)

/-- A word on one line is decorated as a whole. -/
theorem paint (style : Style) {word : String} (hplain : Plain word)
    (hline : Ascii.lineFeed ∉ (Utf8.bytes word).toList) :
    Decorates (style.paint true word) (style.paint false word) := by
  have hbytes : (Utf8.bytes (style.paint true word)).toList =
      (Utf8.bytes style.sequence).toList ++
        ((Utf8.bytes word).toList ++ ((Utf8.bytes Style.reset).toList ++ [])) := by
    rw [show style.paint true word = style.sequence ++ word ++ Style.reset from rfl,
      Utf8.toList_bytes_append, Utf8.toList_bytes_append, List.append_nil, List.append_assoc]
  constructor
  · rw [hbytes]
    exact .word style hplain hline .nil
  · rw [hbytes, undecorate_word style hplain, show undecorate [] = [] from rfl, List.append_nil]
    rfl

end Decorates

/-! ### What printers write -/

namespace Diagnostic

/-- No control sequence begins in what the finding says of its own. -/
def IsPlain (d : Diagnostic) : Prop :=
  Plain d.sourceName ∧ Plain d.message ∧ ∀ note ∈ d.notes, Plain note

theorem decorates_noteText {note : String} (h : Plain note) :
    Decorates (noteText true note) (noteText false note) := by
  have hword : Decorates (Style.bold.paint true "note") (Style.bold.paint false "note") :=
    .paint .bold (by decide) (by decide)
  have hbegin : Decorates "  = " "  = " := .of_plain (by decide)
  exact (((hbegin.append hword).append_plain ": " (by decide)).append_plain note h).append_plain
    "\n" (by decide)

theorem plain_location {d : Diagnostic} (h : Plain d.sourceName) : Plain d.location :=
  plain_append.2 ⟨plain_append.2 ⟨h, by decide⟩, plain_text d.position⟩

/-- The three decorated words of a finding are its severity, its code and the arrow. -/
theorem decorates_report {d : Diagnostic} (h : d.IsPlain) :
    Decorates (d.report true) (d.report false) := by
  obtain ⟨hsource, hmessage, hnotes⟩ := h
  have hseverity : Decorates (d.severity.style.paint true d.severity.text)
      (d.severity.style.paint false d.severity.text) := by
    cases d.severity <;> exact .paint _ (by decide) (by decide)
  have hcode : Decorates (Style.bold.paint true ("[" ++ d.code.label ++ "]"))
      (Style.bold.paint false ("[" ++ d.code.label ++ "]")) := by
    cases d.code <;> exact .paint _ (by decide) (by decide)
  have harrow : Decorates (Style.location.paint true "-->") (Style.location.paint false "-->") :=
    .paint .location (by decide) (by decide)
  have hcategory : Plain d.category.text := by
    cases d.category
    decide
  have hnotes : Decorates (String.join (d.notes.map (noteText true)))
      (String.join (d.notes.map (noteText false))) :=
    .join d.notes fun note hnote => decorates_noteText (hnotes note hnote)
  have hheader := (((hseverity.append hcode).append_plain ": " (by decide)).append_plain
    d.message hmessage).append_plain "\n" (by decide)
  have hlocation := ((((hheader.append_plain "  " (by decide)).append harrow).append_plain
    " " (by decide)).append_plain d.location (plain_location hsource)).append_plain "\n" (by decide)
  have hcategory := ((hlocation.append_plain "  = " (by decide)).append_plain
    d.category.text hcategory).append_plain "\n" (by decide)
  exact (hcategory.append hnotes).append_plain "\n" (by decide)

end Diagnostic

theorem decorates_noteLine {message : String} (h : Plain message) :
    Decorates (noteLine true message) (noteLine false message) := by
  have hword : Decorates (Style.note.paint true "note") (Style.note.paint false "note") :=
    .paint .note (by decide) (by decide)
  exact ((hword.append_plain ": " (by decide)).append_plain message h).append_plain "\n" (by decide)

theorem decorates_summaryLine (errors warnings : Nat) :
    Decorates (summaryLine true errors warnings) (summaryLine false errors warnings) := by
  have hwarnings : Plain (counted warnings "warning") := plain_counted warnings (by decide)
  by_cases herror : 0 < errors
  · have hword : Decorates (Style.error.paint true "error") (Style.error.paint false "error") :=
      .paint .error (by decide) (by decide)
    have htail : Plain
        (if 0 < warnings then "; " ++ counted warnings "warning" ++ " emitted" else "") := by
      split
      · exact plain_append.2 ⟨plain_append.2 ⟨by decide, hwarnings⟩, by decide⟩
      · decide
    rw [summaryLine, summaryLine, if_pos herror, if_pos herror]
    exact (((hword.append_plain ": aborting due to " (by decide)).append_plain
      (previousErrors errors) (plain_previousErrors errors)).append_plain _ htail).append_plain
        "\n" (by decide)
  · rw [summaryLine, summaryLine, if_neg herror, if_neg herror]
    by_cases hwarning : 0 < warnings
    · have hword : Decorates (Style.warning.paint true "warning")
          (Style.warning.paint false "warning") := .paint .warning (by decide) (by decide)
      rw [if_pos hwarning, if_pos hwarning]
      exact ((hword.append_plain ": " (by decide)).append_plain _ hwarnings).append_plain
        " emitted\n" (by decide)
    · rw [if_neg hwarning, if_neg hwarning]
      exact .of_plain (by decide)

/-! ### Printers -/

namespace Printer

/-- No control sequence begins in what the call is to write. -/
def Call.IsPlain : Call → Prop
  | print d | report d => d.IsPlain
  | printAll ds => ∀ d ∈ ds, d.IsPlain
  | printNote message => Plain message
  | printSummary _ _ | flush => True

theorem Call.decorates_text {call : Call} (h : call.IsPlain) :
    Decorates (call.text true) (call.text false) := by
  cases call with
  | print d | report d => exact d.decorates_report h
  | printAll ds => exact .join ds fun d hd => d.decorates_report (h d hd)
  | printNote message => exact decorates_noteLine h
  | printSummary errors warnings => exact decorates_summaryLine errors warnings
  | flush => exact .of_plain (by decide)

/-- The same calls on two printers, one with colours on and one with colours off. The first one
writes a text in which each decoration is closed before the next one begins and before the line
ends; without its control sequences it is the text of the second one. And both count the same. -/
theorem undecorate_afterCalls {calls : List Call} (h : ∀ call ∈ calls, call.IsPlain) :
    let coloured := ({ colours := true } : Printer).afterCalls calls
    let plain := ({ colours := false } : Printer).afterCalls calls
    Decorated coloured.channel.accepted.toList ∧
    undecorate coloured.channel.accepted.toList = plain.channel.accepted.toList ∧
    coloured.errorCount = plain.errorCount ∧
    coloured.warningCount = plain.warningCount := by
  intro coloured plain
  have hcoloured : coloured = (({ colours := true } : Printer).countAll
      (calls.flatMap Call.findings)).wrote (texts true calls) := afterCalls_of_unbounded calls rfl
  have hplain : plain = (({ colours := false } : Printer).countAll
      (calls.flatMap Call.findings)).wrote (texts false calls) := afterCalls_of_unbounded calls rfl
  have hcolouredText : coloured.channel.accepted = Utf8.bytes (texts true calls) :=
    accepted_afterCalls_of_unbounded true calls
  have hplainText : plain.channel.accepted = Utf8.bytes (texts false calls) :=
    accepted_afterCalls_of_unbounded false calls
  have htexts : Decorates (texts true calls) (texts false calls) :=
    .join calls fun call hcall => Call.decorates_text (h call hcall)
  refine ⟨?_, ?_, ?_, ?_⟩
  · rw [hcolouredText]
    exact htexts.decorated
  · rw [hcolouredText, hplainText]
    exact htexts.undecorate_eq
  · rw [hcoloured, hplain, errorCount_wrote, errorCount_wrote, errorCount_countAll,
      errorCount_countAll]
  · rw [hcoloured, hplain, warningCount_wrote, warningCount_wrote, warningCount_countAll,
      warningCount_countAll]

/-- A message that looks like the end of a control sequence, a note of two lines, and a summary. -/
theorem undecorate_afterCalls_bracket :
    let d : Diagnostic := {
      code := .emptyCharacter
      sourceName := "m.cin"
      message := "[0m"
      notes := ["a\nm"] }
    let calls : List Call := [.print d, .printSummary 1 2]
    let coloured := ({ colours := true } : Printer).afterCalls calls
    let plain := ({ colours := false } : Printer).afterCalls calls
    (∀ call ∈ calls, call.IsPlain) ∧
    Decorated coloured.channel.accepted.toList ∧
    undecorate coloured.channel.accepted.toList = plain.channel.accepted.toList ∧
    coloured.errorCount = plain.errorCount ∧
    coloured.warningCount = plain.warningCount := by
  intro d calls
  have hfinding : d.IsPlain := ⟨by decide, by decide, by decide⟩
  have hcalls : ∀ call ∈ calls, call.IsPlain :=
    List.forall_mem_cons.2 ⟨hfinding, List.forall_mem_singleton.2 trivial⟩
  exact ⟨hcalls, undecorate_afterCalls hcalls⟩

end Printer

end CinderFront
