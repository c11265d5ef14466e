import CinderFront.Proofs.RoundTrip

/-!
# Multi-line strings read back

A multi-line string can hold any bytes: each line is written behind a margin of spaces and tabs and
a bar, with every byte escaped that has an escape. Scanning what was written yields the contents
again, line breaks included, and finds nothing wrong.

Inside such a string a text is first copied without its margins and bars, and what was copied is
decoded when the string is closed. Both go piece by piece.

* `Escape.Spells` — raw bytes that are decoded into certain bytes, whatever stands around them;
* `Literal.Copies` — a text, in the middle of a multi-line string, of which certain raw bytes are
  kept;
* `Literal.Copies.encode`, `Literal.Copies.lineBreak` — encoded bytes are kept as they are, and of a
  line break with margin and bar the line break;
* `Literal.StandsFor` — both together, closed under `append`;
* `quotation_multiLine` — what a string is read as whose text stands for its contents;
* `TextBlock` — the contents of a string by lines, each with the margin it is written behind;
* `scan_textBlock` — the scan of a text block.
-/

namespace CinderFront

/-! ### What is decoded -/

namespace Escape

/-- Wherever the bytes `raw` stand in a raw literal, they are decoded into `bytes`, and nothing is
wrong with them. -/
def Spells (raw bytes : List UInt8) : Prop :=
  ∀ (offset : Nat) (d : Decoded) (rest : List UInt8),
    decodeFrom offset d (raw ++ rest) =
      decodeFrom (offset + raw.length) { d with bytes := d.bytes ++ bytes.toArray } rest

theorem spells_encode (bytes : List UInt8) : Spells (encode bytes) bytes :=
  decodeFrom_encode bytes

theorem spells_byte {b : UInt8} (hb : b ≠ Ascii.backslash) : Spells [b] [b] := by
  intro offset d rest
  rw [List.singleton_append, decodeFrom_byte offset d hb]
  simp [Decoded.push]

namespace Spells

variable {raw raw' bytes bytes' : List UInt8}

theorem append (h : Spells raw bytes) (h' : Spells raw' bytes') :
    Spells (raw ++ raw') (bytes ++ bytes') := by
  intro offset d rest
  rw [List.append_assoc, h, h', List.length_append, Nat.add_assoc]
  simp

theorem decode_eq (h : Spells raw bytes) : decode raw = ⟨bytes.toArray, #[]⟩ := by
  have hdecode := h 0 {} []
  simpa [decode, decodeAfter] using hdecode

end Spells

end Escape

/-! ### What is copied -/

namespace Literal

/-- In the middle of a multi-line string, the text `x` is passed, its bytes `raw` are kept, and the
string goes on. -/
def Copies (x raw : List UInt8) : Prop :=
  ∀ (lit : LiteralText) (p : Position) (rest : List UInt8),
    ∃ lit' : LiteralText, lit'.bytes.toList = lit.bytes.toList ++ raw ∧
      multiLine.run ⟨lit, .content⟩ p (x ++ rest) =
        (⟨(), x, rest, []⟩ : Passage Unit).append
          (multiLine.run ⟨lit', .content⟩ (p.after x) rest)

namespace Copies

theorem nil : Copies [] [] := by
  intro lit p rest
  exact ⟨lit, by simp, rfl⟩

theorem append {x y raw more : List UInt8} (hx : Copies x raw) (hy : Copies y more) :
    Copies (x ++ y) (raw ++ more) := by
  intro lit p rest
  obtain ⟨lit₁, hbytes₁, hrun₁⟩ := hx lit p (y ++ rest)
  obtain ⟨lit₂, hbytes₂, hrun₂⟩ := hy lit₁ (p.after x) rest
  refine ⟨lit₂, ?_, ?_⟩
  · rw [hbytes₂, hbytes₁, List.append_assoc]
  · rw [List.append_assoc, hrun₁, hrun₂, Position.after_append]
    simp [Passage.append]

/-- A byte that begins nothing, ends nothing and breaks no line is kept. -/
theorem byte {b : UInt8} (hb : Escape.letterOf? b = none) : Copies [b] [b] := by
  intro lit p rest
  have hlineFeed : b ≠ Ascii.lineFeed := Escape.ne_of_letterOf?_eq_none hb
  have hbackslash : b ≠ Ascii.backslash := Escape.ne_of_letterOf?_eq_none hb
  have hquote : b ≠ Ascii.doubleQuote := Escape.ne_of_letterOf?_eq_none hb
  have htake : ∀ next, multiLine.take ⟨lit, .content⟩ b next p = ⟨lit.push b, .content⟩ :=
    fun next => by simp [multiLine, lineContent, content, hlineFeed, hbackslash, hquote]
  refine ⟨lit.push b, by simp [LiteralText.push], ?_⟩
  rw [List.singleton_append, Transition.run_cons _ _ p rest rfl, htake]
  rfl

/-- A backslash and the letter behind it are kept, and the letter ends nothing. -/
theorem escape {letter : UInt8} (hletter : letter ≠ Ascii.lineFeed) :
    Copies [Ascii.backslash, letter] [Ascii.backslash, letter] := by
  intro lit p rest
  have hquote : Ascii.backslash ≠ Ascii.doubleQuote := by decide
  have htake : multiLine.take ⟨lit, .content⟩ Ascii.backslash letter p =
      ⟨lit.pushBackslash p, .escaped⟩ := by
    show lineContent lit Ascii.backslash letter p = _
    rw [lineContent, if_neg (by decide), if_neg (fun h => hletter h.2), content, if_neg hquote,
      if_pos rfl]
  refine ⟨(lit.pushBackslash p).push letter, ?_, ?_⟩
  · simp [LiteralText.pushBackslash, LiteralText.push]
  · rw [List.cons_append, List.singleton_append, Transition.run_cons _ _ p _ rfl, List.headD_cons,
      htake, Transition.run_cons _ _ _ rest rfl]
    rfl

theorem encodeByte (b : UInt8) : Copies (Escape.encodeByte b) (Escape.encodeByte b) := by
  rw [Escape.encodeByte]
  cases h : Escape.letterOf? b with
  | some letter =>
    have hbyte := Escape.byteOf?_of_letterOf? h
    refine escape ?_
    rintro rfl
    rw [show Escape.byteOf? Ascii.lineFeed = none by decide] at hbyte
    cases hbyte
  | none => exact byte h

/-- Encoded bytes are kept as they are. -/
theorem encode (bytes : List UInt8) : Copies (Escape.encode bytes) (Escape.encode bytes) := by
  induction bytes with
  | nil => exact nil
  | cons b bytes ih => exact (encodeByte b).append ih

end Copies

/-- In a margin, indentation is passed through the bar, and nothing of it is kept. -/
theorem run_margin {margin : List UInt8} (hmargin : ∀ b ∈ margin, Ascii.isIndent b = true)
    (lit : LiteralText) (p : Position) (rest : List UInt8) :
    multiLine.run ⟨lit, .margin⟩ p (margin ++ Ascii.bar :: rest) =
      (⟨(), margin ++ [Ascii.bar], rest, []⟩ : Passage Unit).append
        (multiLine.run ⟨lit, .content⟩ (p.after (margin ++ [Ascii.bar])) rest) := by
  induction margin generalizing p with
  | nil =>
    rw [List.nil_append, Transition.run_cons _ _ p rest rfl]
    rfl
  | cons b margin ih =>
    obtain ⟨hb, hmargin⟩ := List.forall_mem_cons.1 hmargin
    have htake : ∀ next, multiLine.take ⟨lit, .margin⟩ b next p = ⟨lit, .margin⟩ :=
      fun next => if_pos hb
    have hnoted : multiLine.noted ⟨lit, .margin⟩ b p = [] := by
      simp [Transition.noted, multiLine, hb]
    rw [List.cons_append, Transition.run_cons _ _ p _ rfl, htake, hnoted, ih hmargin]
    rfl

/-- Of a line break with its margin and its bar, the line break is kept. -/
theorem Copies.lineBreak {margin : List UInt8} (hmargin : ∀ b ∈ margin, Ascii.isIndent b = true) :
    Copies (Ascii.lineFeed :: (margin ++ [Ascii.bar])) [Ascii.lineFeed] := by
  intro lit p rest
  refine ⟨lit.push Ascii.lineFeed, by simp [LiteralText.push], ?_⟩
  have htake : ∀ next, multiLine.take ⟨lit, .content⟩ Ascii.lineFeed next p =
      ⟨lit.push Ascii.lineFeed, .margin⟩ := fun _ => rfl
  rw [List.cons_append, List.append_assoc, List.singleton_append,
    Transition.run_cons _ _ p _ rfl, htake, run_margin hmargin]
  rfl

/-! ### Both together -/

/-- In the middle of a multi-line string, the text stands for these bytes. -/
def StandsFor (x bytes : List UInt8) : Prop := ∃ raw, Copies x raw ∧ Escape.Spells raw bytes

namespace StandsFor

theorem encode (bytes : List UInt8) : StandsFor (Escape.encode bytes) bytes :=
  ⟨_, .encode bytes, Escape.spells_encode bytes⟩

theorem lineBreak {margin : List UInt8} (hmargin : ∀ b ∈ margin, Ascii.isIndent b = true) :
    StandsFor (Ascii.lineFeed :: (margin ++ [Ascii.bar])) [Ascii.lineFeed] :=
  ⟨_, .lineBreak hmargin, Escape.spells_byte (by decide)⟩

theorem append {x y bytes more : List UInt8} (hx : StandsFor x bytes) (hy : StandsFor y more) :
    StandsFor (x ++ y) (bytes ++ more) := by
  obtain ⟨raw, hcopies, hspells⟩ := hx
  obtain ⟨raw', hcopies', hspells'⟩ := hy
  exact ⟨raw ++ raw', hcopies.append hcopies', hspells.append hspells'⟩

end StandsFor

end Literal

/-- A multi-line string whose text stands for some bytes is read as these bytes, through the quote
behind them, with nothing wrong in it. -/
theorem quotation_multiLine {x bytes : List UInt8} (h : Literal.StandsFor x bytes)
    (unterminated : LexicalError) (p : Position) (rest : List UInt8) :
    quotation Literal.multiLine unterminated [Ascii.doubleQuote, Ascii.bar] p
        (x ++ Ascii.doubleQuote :: rest) =
      ⟨bytes, Ascii.doubleQuote :: Ascii.bar :: (x ++ [Ascii.doubleQuote]), rest, []⟩ := by
  obtain ⟨raw, hcopies, hspells⟩ := h
  obtain ⟨lit, hbytes, hrun⟩ := hcopies {} (p.after [Ascii.doubleQuote, Ascii.bar])
    (Ascii.doubleQuote :: rest)
  have htake : ∀ next q, Literal.multiLine.take ⟨lit, .content⟩ Ascii.doubleQuote next q =
      ⟨lit, .closed⟩ := fun _ _ => rfl
  have hraw : lit.bytes.toList = raw := by simpa using hbytes
  have hdecode : Escape.decode lit.bytes.toList = ⟨bytes.toArray, #[]⟩ := by
    rw [hraw, hspells.decode_eq]
  have hrun' : Literal.multiLine.run {} (p.after [Ascii.doubleQuote, Ascii.bar])
      (x ++ Ascii.doubleQuote :: rest) = ⟨⟨lit, .closed⟩, x ++ [Ascii.doubleQuote], rest, []⟩ := by
    rw [hrun, Transition.run_cons _ _ _ rest rfl, htake, Literal.form_multiLine.run_closed]
    rfl
  simp only [quotation, hrun']
  simp [LiteralText.contents, LiteralText.faults, hdecode, Literal.isClosed]

/-! ### Text blocks -/

/-- What a line may be indented by: spaces and tabs. -/
structure Margin where
  bytes : List UInt8
  isIndent_of_mem : ∀ b ∈ bytes, Ascii.isIndent b = true

/-- A line of a text block behind the first, with the margin it is written behind. -/
structure TextLine where
  margin : Margin
  contents : List UInt8

namespace TextLine

/-- The line as it is written, with the line break before it. -/
def print (line : TextLine) : List UInt8 :=
  Ascii.lineFeed :: (line.margin.bytes ++ [Ascii.bar]) ++ Escape.encode line.contents

/-- What the line adds to the contents. -/
def value (line : TextLine) : List UInt8 := [Ascii.lineFeed] ++ line.contents

theorem standsFor (line : TextLine) : Literal.StandsFor line.print line.value :=
  (Literal.StandsFor.lineBreak line.margin.isIndent_of_mem).append (.encode line.contents)

theorem standsFor_flatMap (lines : List TextLine) :
    Literal.StandsFor (lines.flatMap print) (lines.flatMap value) := by
  induction lines with
  | nil => exact .encode []
  | cons line lines ih => exact line.standsFor.append ih

end TextLine

/-- A string by lines. The last of them has nothing but the margin of its closing bar. -/
structure TextBlock where
  first : List UInt8
  lines : List TextLine
  last : Margin

namespace TextBlock

/-- The contents: the lines with line breaks between them, and one behind them. -/
def contents (block : TextBlock) : List UInt8 :=
  block.first ++ (block.lines.flatMap TextLine.value ++ [Ascii.lineFeed])

/-- The text between the opening bar and the closing quote. -/
def body (block : TextBlock) : List UInt8 :=
  Escape.encode block.first ++ (block.lines.flatMap TextLine.print ++
    Ascii.lineFeed :: (block.last.bytes ++ [Ascii.bar]))

/-- The text block as a multi-line string. -/
def print (block : TextBlock) : List UInt8 :=
  Ascii.doubleQuote :: Ascii.bar :: (block.body ++ [Ascii.doubleQuote])

theorem standsFor_body (block : TextBlock) : Literal.StandsFor block.body block.contents :=
  (Literal.StandsFor.encode block.first).append
    ((TextLine.standsFor_flatMap block.lines).append (.lineBreak block.last.isIndent_of_mem))

example : TextBlock.print
    ⟨Ascii.codes "a", [⟨⟨[Ascii.space], List.forall_mem_singleton.2 rfl⟩, Ascii.codes "\"b|"⟩],
      ⟨[], List.forall_mem_nil _⟩⟩ = Ascii.codes "\"|a\n |\\\"b\\|\n|\"" := by
  decide

/-- A text block is read as its contents, whatever stands behind it. -/
theorem reads (block : TextBlock) (p : Position) (rest : List UInt8) :
    Reads p (block.print ++ rest) ⟨some (.string block.contents), block.print, rest, []⟩ := by
  have h := Reads.multiLine (p := p) (r := block.body ++ Ascii.doubleQuote :: rest)
  rw [quotation_multiLine block.standsFor_body] at h
  simpa [print, Passage.map] using h

/-- No text block has a NUL in it, whatever its contents are. -/
theorem nul_not_mem_print (block : TextBlock) : Ascii.nul ∉ block.print := by
  have hmarks : Ascii.nul ≠ Ascii.doubleQuote ∧ Ascii.nul ≠ Ascii.bar ∧
      Ascii.nul ≠ Ascii.lineFeed := by decide
  have hmargin : ∀ margin : Margin, Ascii.nul ∉ margin.bytes := fun margin hmem =>
    absurd (margin.isIndent_of_mem _ hmem) (by decide)
  have hlines : Ascii.nul ∉ block.lines.flatMap TextLine.print := by
    intro hmem
    obtain ⟨line, -, hline⟩ := List.mem_flatMap.1 hmem
    simp [TextLine.print, hmarks, hmargin, Escape.nul_not_mem_encode] at hline
  simp [print, body, hmarks, hmargin, hlines, Escape.nul_not_mem_encode]

end TextBlock

/-- A scan of a text block yields one string, whose contents are those of the block, and the end of
the input, and it finds nothing wrong. -/
theorem scan_textBlock (block : TextBlock) (sourceName : String) :
    ∃ symbol result, scan (⟨block.print⟩ : SourceText) sourceName = .ok result ∧
      result.tokens = [⟨.string symbol, sourceName, .start⟩,
        ⟨.endOfFile, sourceName, Position.start.after block.print⟩] ∧
      result.diagnostics = [] ∧
      result.symbols.lookup? symbol = some block.contents := by
  have hbeforeNul := Ascii.beforeNul_eq_self block.nul_not_mem_print
  have hlexes : Lexes .start block.print [⟨.string block.contents, .start⟩] [] := by
    have h := Lexes.token (p := .start) (List.forall_mem_nil _) (block.reads .start [])
      (.finish (List.forall_mem_nil _))
    simpa using h
  rw [← hbeforeNul] at hlexes
  -- A new table has room for one string, whatever it is.
  have hfit : Lexes.Fit .new [⟨.string block.contents, .start⟩] :=
    ⟨Lexeme.fits_string_iff.2 (.inl (by decide)), trivial⟩
  obtain ⟨result, hscan, htokens, hdiagnostics, hsymbols⟩ :=
    scan_of_lexes (SourceText.delivers block.print) hlexes sourceName hfit
  rw [hbeforeNul] at htokens
  refine ⟨(SymbolTable.new.intern block.contents).1, result, hscan, htokens, hdiagnostics, ?_⟩
  rw [hsymbols]
  exact SymbolTable.consistent_new.lookup?_intern block.contents

end CinderFront
