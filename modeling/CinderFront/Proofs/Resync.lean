import CinderFront.Proofs.Crlf

/-!
# Literals with carriage returns

In a literal a carriage return is contents. It takes the place of the line break behind a backslash,
and it ends the margin of a line. So two readings of a literal, one with the carriage returns and
one without, come apart before a line break. Behind it they are together again.

* `Literal.Resyncs` — how the phases of two readings are related, step by step;
* `Literal.Resyncs.run` — the two pass the same bytes apart from the carriage returns, and close the
  literal at the same quote;
* `Literal.resyncs_quoted`, `Literal.resyncs_multiLine` — both forms of literals;
* `Literal.raw_quoted_crlf` — the raw bytes of a quoted literal;
* `passed_quotation_crlf`, `rest_quotation_crlf`, `quotation_crlf_eq_nil_iff` — literals with their
  opening marks, and which of them stand for nothing.
-/

namespace CinderFront

namespace Literal

/-- `R` relates the phases of two readings of a literal, the second one with the carriage returns,
while the text is left that its last argument says. Any other byte takes either reading one step. A
line break takes the second one two, and behind it the phases are related again. -/
structure Resyncs (t : Transition Literal) (R : LiteralPhase → LiteralPhase → List UInt8 → Prop) :
    Prop where
  stops_eq : ∀ lit b, t.stops lit b = lit.isClosed
  closed_iff : ∀ {phase phase' text}, R phase phase' text → (phase = .closed ↔ phase' = .closed)
  byte : ∀ {lit lit' : Literal} {b : UInt8} {r : List UInt8} (p p' : Position), b ≠ Ascii.lineFeed →
    lit.phase ≠ .closed → R lit.phase lit'.phase (b :: r) →
    R (t.take lit b (r.headD Ascii.nul) p).phase
      (t.take lit' b ((Ascii.crlf r).headD Ascii.nul) p').phase r
  carriageReturn : ∀ {lit : Literal} (p : Position), lit.phase ≠ .closed →
    (t.take lit Ascii.carriageReturn Ascii.lineFeed p).phase ≠ .closed
  lineFeed : ∀ {lit lit' : Literal} {r : List UInt8} (next next' : UInt8) (p p' p'' : Position),
    lit.phase ≠ .closed → R lit.phase lit'.phase (Ascii.lineFeed :: r) →
    R (t.take lit Ascii.lineFeed next p).phase
      (t.take (t.take lit' Ascii.carriageReturn Ascii.lineFeed p') Ascii.lineFeed next' p'').phase r

theorem isClosed_iff {lit : Literal} : lit.isClosed = true ↔ lit.phase = .closed := by
  simp [isClosed]

/-- With the carriage returns, a literal passes the same bytes with carriage returns among them, and
it is closed if it was. -/
theorem Resyncs.run {t : Transition Literal} {R : LiteralPhase → LiteralPhase → List UInt8 → Prop}
    (h : Resyncs t R) (text : List UInt8) :
    ∀ (lit lit' : Literal) (p p' : Position), R lit.phase lit'.phase text →
      (t.run lit' p' (Ascii.crlf text)).passed = Ascii.crlf (t.run lit p text).passed ∧
      (t.run lit' p' (Ascii.crlf text)).rest = Ascii.crlf (t.run lit p text).rest ∧
      (t.run lit' p' (Ascii.crlf text)).value.isClosed = (t.run lit p text).value.isClosed := by
  have hclosed : ∀ {lit lit' : Literal} {text}, R lit.phase lit'.phase text →
      lit'.isClosed = lit.isClosed := by
    intro lit lit' text hR
    rw [Bool.eq_iff_iff, isClosed_iff, isClosed_iff, h.closed_iff hR]
  induction text with
  | nil => exact fun lit lit' p p' hR => ⟨rfl, rfl, hclosed hR⟩
  | cons b r ih =>
    intro lit lit' p p' hR
    cases hstop : lit.isClosed with
    | true =>
      have hstop' : lit'.isClosed = true := (hclosed hR).trans hstop
      rw [Transition.run_cons_of_stops t lit p r ((h.stops_eq lit b).trans hstop)]
      obtain ⟨c, s, hs⟩ : ∃ c s, Ascii.crlf (b :: r) = c :: s :=
        List.exists_cons_of_ne_nil (mt Ascii.crlf_eq_nil_iff.1 (List.cons_ne_nil b r))
      rw [hs, Transition.run_cons_of_stops t lit' p' s ((h.stops_eq lit' c).trans hstop'), ← hs]
      exact ⟨rfl, rfl, hstop'.trans hstop.symm⟩
    | false =>
      have hphase : lit.phase ≠ .closed := fun hc => by
        rw [isClosed_iff.2 hc] at hstop
        cases hstop
      have hstop' : lit'.isClosed = false := (hclosed hR).trans hstop
      have hphase' : lit'.phase ≠ .closed := mt (h.closed_iff hR).2 hphase
      rw [Transition.run_cons t lit p r ((h.stops_eq lit b).trans hstop)]
      by_cases hb : b = Ascii.lineFeed
      · subst hb
        have hopen := h.carriageReturn p' hphase'
        have hstop'' : (t.take lit' Ascii.carriageReturn Ascii.lineFeed p').isClosed = false := by
          simpa [isClosed] using hopen
        rw [Ascii.crlf_lineFeed, Transition.run_cons t lit' p' _ ((h.stops_eq _ _).trans hstop'),
          List.headD_cons, Transition.run_cons t _ _ _ ((h.stops_eq _ _).trans hstop'')]
        obtain ⟨hpassed, hrest, hvalue⟩ := ih _ _ (p.past Ascii.lineFeed)
          ((p'.past Ascii.carriageReturn).past Ascii.lineFeed)
          (h.lineFeed (r.headD Ascii.nul) ((Ascii.crlf r).headD Ascii.nul) p p'
            (p'.past Ascii.carriageReturn) hphase hR)
        refine ⟨?_, hrest, hvalue⟩
        simp only [Passage.passed_append, hpassed, Ascii.crlf_append]
        rfl
      · rw [Ascii.crlf_cons hb, Transition.run_cons t lit' p' _ ((h.stops_eq _ _).trans hstop')]
        obtain ⟨hpassed, hrest, hvalue⟩ := ih _ _ (p.past b) (p'.past b)
          (h.byte p p' hb hphase hR)
        refine ⟨?_, hrest, hvalue⟩
        simp only [Passage.passed_append, hpassed, Ascii.crlf_append, Ascii.crlf_cons hb,
          Ascii.crlf_nil]

/-! ### Quoted literals -/

/-- What a byte of the contents makes of the phase does not depend on what was read before. -/
theorem phase_content_eq (quote : UInt8) (raw raw' : LiteralText) (b : UInt8) (p p' : Position) :
    (content quote raw b p).phase = (content quote raw' b p').phase := by
  unfold content
  split
  · rfl
  · split <;> rfl

theorem phase_quoted_eq {quote : UInt8} {lit lit' : Literal} (h : lit.phase = lit'.phase)
    (b next next' : UInt8) (p p' : Position) :
    ((quoted quote).take lit b next p).phase = ((quoted quote).take lit' b next' p').phase := by
  obtain ⟨raw, phase⟩ := lit
  obtain ⟨raw', phase'⟩ := lit'
  obtain rfl : phase = phase' := h
  cases phase with
  | escaped => rfl
  | content | margin | closed => exact phase_content_eq quote raw raw' b p p'

/-- A byte that is neither the quote nor a backslash is followed by contents. -/
theorem phase_quoted_content {quote b : UInt8} (hquote : b ≠ quote) (hb : b ≠ Ascii.backslash)
    (lit : Literal) (next : UInt8) (p : Position) :
    ((quoted quote).take lit b next p).phase = .content := by
  obtain ⟨raw, phase⟩ := lit
  cases phase with
  | escaped => rfl
  | content | margin | closed =>
    show (content quote raw b p).phase = .content
    rw [content, if_neg hquote, if_neg hb]

/-- Two readings of a quoted literal are always in the same phase. -/
theorem resyncs_quoted (quote : UInt8)
    (hq : quote = Ascii.doubleQuote ∨ quote = Ascii.singleQuote) :
    Resyncs (quoted quote) fun phase phase' _ => phase = phase' := by
  have hlf : Ascii.lineFeed ≠ quote := by rcases hq with rfl | rfl <;> decide
  have hcr : Ascii.carriageReturn ≠ quote := by rcases hq with rfl | rfl <;> decide
  exact
    { stops_eq := fun _ _ => rfl
      closed_iff := fun h => by rw [h]
      byte := fun p p' _ _ h => phase_quoted_eq h _ _ _ p p'
      carriageReturn := fun {lit} p _ => by
        rw [phase_quoted_content hcr (by decide)]
        decide
      lineFeed := fun next next' p p' p'' _ _ => by
        rw [phase_quoted_content hlf (by decide), phase_quoted_content hlf (by decide)] }

/-! ### Multi-line strings -/

/-- Two readings of a multi-line string are in the same phase, or a backslash stands directly before
a line break: without the carriage return it escapes nothing, and with it the carriage return. -/
inductive InStep : LiteralPhase → LiteralPhase → List UInt8 → Prop
  | same {phase : LiteralPhase} {text : List UInt8} :
      (phase = .escaped → text.head? ≠ some Ascii.lineFeed) → InStep phase phase text
  | backslash {text : List UInt8} : text.head? = some Ascii.lineFeed →
      InStep .content .escaped text

theorem headD_ne_lineFeed {r : List UInt8} (h : r.head? ≠ some Ascii.lineFeed) :
    r.headD Ascii.nul ≠ Ascii.lineFeed := by
  cases r with
  | nil => decide
  | cons b r => simpa using h

theorem head?_crlf_ne_lineFeed (r : List UInt8) :
    (Ascii.crlf r).head? ≠ some Ascii.lineFeed := by
  cases r with
  | nil => simp
  | cons b r =>
    by_cases hb : b = Ascii.lineFeed
    · subst hb
      show some Ascii.carriageReturn ≠ some Ascii.lineFeed
      decide
    · simpa [Ascii.crlf_cons hb] using hb

/-- A backslash escapes the byte behind it, unless that is a line break. -/
theorem lineContent_backslash {next : UInt8} (h : next ≠ Ascii.lineFeed) (raw : LiteralText)
    (p : Position) :
    lineContent raw Ascii.backslash next p = ⟨raw.pushBackslash p, .escaped⟩ := by
  rw [lineContent, if_neg (by decide), if_neg (fun hb => h hb.2), content, if_neg (by decide),
    if_pos rfl]

theorem lineContent_of_ne {b : UInt8} (hb : b ≠ Ascii.lineFeed) (hb' : b ≠ Ascii.backslash)
    (raw : LiteralText) (next : UInt8) (p : Position) :
    lineContent raw b next p = content Ascii.doubleQuote raw b p := by
  rw [lineContent, if_neg hb, if_neg (fun h => hb' h.1)]

theorem phase_content_ne_escaped {quote b : UInt8} (hb : b ≠ Ascii.backslash) (raw : LiteralText)
    (p : Position) : (content quote raw b p).phase ≠ .escaped := by
  rw [content, if_neg hb]
  split <;> (intro h; cases h)

theorem inStep_lineContent {b : UInt8} (hb : b ≠ Ascii.lineFeed) (raw raw' : LiteralText)
    (r : List UInt8) (p p' : Position) :
    InStep (lineContent raw b (r.headD Ascii.nul) p).phase
      (lineContent raw' b ((Ascii.crlf r).headD Ascii.nul) p').phase r := by
  by_cases hb' : b = Ascii.backslash
  · subst hb'
    rw [lineContent_backslash (headD_ne_lineFeed (head?_crlf_ne_lineFeed r))]
    by_cases hr : r.head? = some Ascii.lineFeed
    · have hnext : r.headD Ascii.nul = Ascii.lineFeed := by
        rw [List.headD_eq_head?_getD, hr]
        rfl
      rw [hnext]
      exact .backslash hr
    · rw [lineContent_backslash (headD_ne_lineFeed hr)]
      exact .same fun _ => hr
  · rw [lineContent_of_ne hb hb', lineContent_of_ne hb hb',
      phase_content_eq Ascii.doubleQuote raw' raw b p' p]
    exact .same fun h => absurd h (phase_content_ne_escaped hb' raw p)

/-- Behind a line break comes a margin, unless the line break is escaped. -/
theorem phase_multiLine_lineFeed {lit : Literal} (h : lit.phase ≠ .escaped) (next : UInt8)
    (p : Position) : (multiLine.take lit Ascii.lineFeed next p).phase = .margin := by
  obtain ⟨raw, phase⟩ := lit
  cases phase with
  | escaped => exact absurd rfl h
  | content | margin | closed => rfl

/-- Behind a carriage return come contents. -/
theorem phase_multiLine_carriageReturn (lit : Literal) (next : UInt8) (p : Position) :
    (multiLine.take lit Ascii.carriageReturn next p).phase = .content := by
  obtain ⟨raw, phase⟩ := lit
  cases phase with
  | content | escaped | margin | closed => rfl

theorem resyncs_multiLine : Resyncs multiLine InStep where
  stops_eq _ _ := rfl
  closed_iff h := by
    cases h with
    | same _ => exact Iff.rfl
    | backslash _ => decide
  byte {lit lit' b r} p p' hb hphase hR := by
    obtain ⟨raw, phase⟩ := lit
    obtain ⟨raw', phase'⟩ := lit'
    cases hR with
    | backslash hhead => exact absurd (Option.some.inj hhead) hb
    | same _ =>
      cases phase with
      | closed => exact absurd rfl hphase
      | escaped => exact .same fun h => by cases h
      | content => exact inStep_lineContent hb raw raw' r p p'
      | margin =>
        simp only [multiLine]
        split
        · exact .same fun h => by cases h
        · split
          · exact .same fun h => by cases h
          · exact inStep_lineContent hb raw raw' r p p'
  carriageReturn p _ := by
    rw [phase_multiLine_carriageReturn]
    decide
  lineFeed {lit lit' r} next next' p p' p'' _ hR := by
    have hphase : lit.phase ≠ .escaped := by
      generalize lit.phase = phase at hR
      generalize lit'.phase = phase' at hR
      cases hR with
      | same h => exact fun hescaped => h hescaped rfl
      | backslash _ => decide
    have hphase' : (multiLine.take lit' Ascii.carriageReturn Ascii.lineFeed p').phase ≠
        .escaped := by
      rw [phase_multiLine_carriageReturn]
      decide
    rw [phase_multiLine_lineFeed hphase, phase_multiLine_lineFeed hphase']
    exact .same fun h => by cases h

end Literal

/-! ### Contents -/

/-- A quoted literal keeps all that is passed, so the carriage returns are put into its raw bytes as
well. -/
theorem Literal.raw_quoted_crlf (quote : UInt8)
    (hq : quote = Ascii.doubleQuote ∨ quote = Ascii.singleQuote) (p : Position) (r : List UInt8) :
    ((quoted quote).run {} p (Ascii.crlf r)).value.raw.bytes.toList =
      Ascii.crlf ((quoted quote).run {} p r).value.raw.bytes.toList := by
  have hlf : quote ≠ Ascii.lineFeed := by rcases hq with rfl | rfl <;> decide
  obtain ⟨hpassed, -, hclosed⟩ := (resyncs_quoted quote hq).run r {} {} p p rfl
  have hverbatim := verbatim_quoted hlf r {} .content p (by decide)
  have hverbatim' := verbatim_quoted hlf (Ascii.crlf r) {} .content p (by decide)
  generalize (quoted quote).run {} p r = o at *
  generalize (quoted quote).run {} p (Ascii.crlf r) = o' at *
  have hend : Ascii.crlf (if o.value.isClosed then [quote] else []) =
      if o.value.isClosed then [quote] else [] := by
    split
    · rw [Ascii.crlf_cons hlf, Ascii.crlf_nil]
    · rfl
  rw [Verbatim, hclosed, hpassed] at hverbatim'
  rw [Verbatim] at hverbatim
  simp only [List.nil_append] at hverbatim hverbatim'
  rw [hverbatim, Ascii.crlf_append, hend] at hverbatim'
  exact (List.append_cancel_right hverbatim').symm

theorem LiteralText.contents_eq_nil_iff {raw : LiteralText} :
    raw.contents = [] ↔ raw.bytes.toList = [] := by
  constructor
  · intro hnil
    by_contra hne
    exact Escape.decode_bytes_ne_nil hne hnil
  · intro hnil
    rw [contents, hnil]
    rfl

/-! ### With their opening marks -/

section

variable {t : Transition Literal} {R : LiteralPhase → LiteralPhase → List UInt8 → Prop}
  (h : Literal.Resyncs t R) {r opening : List UInt8} (hR : R .content .content r)
  (unterminated : LexicalError) (p : Position)

include h hR

theorem passed_quotation_crlf (hopening : Ascii.lineFeed ∉ opening) :
    (quotation t unterminated opening p (Ascii.crlf r)).passed =
      Ascii.crlf (quotation t unterminated opening p r).passed := by
  obtain ⟨hpassed, -⟩ := h.run r {} {} (p.after opening) (p.after opening) hR
  simp only [quotation, hpassed, Ascii.crlf_append, Ascii.crlf_eq_self hopening]

theorem rest_quotation_crlf : (quotation t unterminated opening p (Ascii.crlf r)).rest =
    Ascii.crlf (quotation t unterminated opening p r).rest :=
  (h.run r {} {} (p.after opening) (p.after opening) hR).2.1

end

/-- A quoted literal stands for nothing with the carriage returns only if it does without them. -/
theorem quotation_crlf_eq_nil_iff (quote : UInt8)
    (hq : quote = Ascii.doubleQuote ∨ quote = Ascii.singleQuote) (unterminated : LexicalError)
    (opening : List UInt8) (p : Position) (r : List UInt8) :
    (quotation (Literal.quoted quote) unterminated opening p (Ascii.crlf r)).value = [] ↔
      (quotation (Literal.quoted quote) unterminated opening p r).value = [] := by
  simp only [quotation]
  rw [LiteralText.contents_eq_nil_iff, LiteralText.contents_eq_nil_iff,
    Literal.raw_quoted_crlf quote hq, Ascii.crlf_eq_nil_iff]

end CinderFront
