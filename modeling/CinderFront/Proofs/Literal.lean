import CinderFront.Proofs.LiteralText
import CinderFront.Proofs.Transition

/-!
# How literals are read

Quoted literals and multi-line strings differ in what they skip and in what they make of line
breaks, but one step of either does one of five things. Everything here is derived from that.

* `Literal.Form` — what a step can do, for either form of literals;
* `Literal.Form.rest_eq_nil`, `Literal.Form.exists_quote` — a literal ends with its quote or with
  the text;
* `Literal.Form.collects` — the raw literal is collected from the text that is passed;
* `Literal.verbatim_quoted`, `Literal.run_quoted_encode` — quoted literals skip nothing, and one
  whose contents were encoded ends where it should;
* `Literal.exists_of_mem_findings` — where a line of a multi-line string is missing its bar.
-/

namespace CinderFront

/-- The next byte of the literal is not the letter of an escape, and the literal is not over. -/
def LiteralPhase.IsOpen (phase : LiteralPhase) : Prop := phase = .content ∨ phase = .margin

namespace Literal

/-! ### One step -/

/-- What may become of a raw literal when the byte `b` at `p` is taken, which is not escaped. -/
inductive Taken (quote : UInt8) (raw : LiteralText) (b next : UInt8) (p : Position) :
    Literal → Prop
  | byte {phase : LiteralPhase} : phase.IsOpen → b ≠ Ascii.backslash →
      Taken quote raw b next p ⟨raw.push b, phase⟩
  | skip {phase : LiteralPhase} : phase.IsOpen → Taken quote raw b next p ⟨raw, phase⟩
  | close : b = quote → Taken quote raw b next p ⟨raw, .closed⟩
  | escape : b = Ascii.backslash → Taken quote raw b next p ⟨raw.pushBackslash p, .escaped⟩
  | lineEscape : b = Ascii.backslash → next = Ascii.lineFeed →
      Taken quote raw b next p ⟨raw.pushBackslash p, .content⟩

/-- A transition that reads literals with this closing quote. -/
structure Form (t : Transition Literal) (quote : UInt8) : Prop where
  stops_eq : ∀ lit b, t.stops lit b = lit.isClosed
  take_escaped : ∀ raw b next p, t.take ⟨raw, .escaped⟩ b next p = ⟨raw.push b, .content⟩
  take_open : ∀ raw phase b next p, phase.IsOpen →
    Taken quote raw b next p (t.take ⟨raw, phase⟩ b next p)
  take_lineFeed : ∀ raw next p, ∃ phase, phase.IsOpen ∧
    t.take ⟨raw, .content⟩ Ascii.lineFeed next p = ⟨raw.push Ascii.lineFeed, phase⟩

theorem taken_content (quote : UInt8) (raw : LiteralText) (b next : UInt8) (p : Position) :
    Taken quote raw b next p (content quote raw b p) := by
  unfold content
  split
  · next hb => exact .close hb
  · split
    · next hb => exact .escape hb
    · next hb => exact .byte (.inl rfl) hb

theorem taken_lineContent (raw : LiteralText) (b next : UInt8) (p : Position) :
    Taken Ascii.doubleQuote raw b next p (lineContent raw b next p) := by
  unfold lineContent
  split
  · next hb =>
    rw [hb]
    exact .byte (.inr rfl) (by decide)
  · split
    · next hb => exact .lineEscape hb.1 hb.2
    · exact taken_content _ raw b next p

theorem form_quoted {quote : UInt8} (hq : quote ≠ Ascii.lineFeed) : Form (quoted quote) quote where
  stops_eq _ _ := rfl
  take_escaped _ _ _ _ := rfl
  take_open raw phase b next p hphase := by
    rcases hphase with rfl | rfl
    · exact taken_content quote raw b next p
    · exact taken_content quote raw b next p
  take_lineFeed raw next p := by
    refine ⟨.content, .inl rfl, ?_⟩
    show content quote raw Ascii.lineFeed p = _
    rw [content, if_neg (Ne.symm hq), if_neg (by decide)]

theorem form_multiLine : Form multiLine Ascii.doubleQuote where
  stops_eq _ _ := rfl
  take_escaped _ _ _ _ := rfl
  take_open raw phase b next p hphase := by
    rcases hphase with rfl | rfl
    · exact taken_lineContent raw b next p
    · show Taken _ raw b next p (if Ascii.isIndent b then ⟨raw, .margin⟩
        else if b = Ascii.bar then ⟨raw, .content⟩ else lineContent raw b next p)
      split
      · exact .skip (.inr rfl)
      · split
        · exact .skip (.inl rfl)
        · exact taken_lineContent raw b next p
  take_lineFeed raw next p := ⟨.margin, .inr rfl, rfl⟩

/-! ### Whole literals -/

namespace Form

variable {t : Transition Literal} {quote : UInt8}

theorem stops_eq_false (ht : Form t quote) {phase : LiteralPhase} (hphase : phase ≠ .closed)
    (raw : LiteralText) (b : UInt8) : t.stops ⟨raw, phase⟩ b = false := by
  rw [ht.stops_eq, isClosed]
  simpa using hphase

theorem run_closed (ht : Form t quote) (raw : LiteralText) (p : Position) (text : List UInt8) :
    t.run ⟨raw, .closed⟩ p text = ⟨⟨raw, .closed⟩, [], text, []⟩ := by
  cases text with
  | nil => rfl
  | cons b r => exact Transition.run_cons_of_stops t _ p r (ht.stops_eq _ b)

/-- A literal that is not closed has taken the whole text. -/
theorem rest_eq_nil (ht : Form t quote) {lit : Literal} {p : Position} {text : List UInt8}
    (h : (t.run lit p text).value.isClosed = false) : (t.run lit p text).rest = [] := by
  rcases t.rest_eq_nil_or_stops lit p text with hrest | ⟨b, hb⟩
  · exact hrest
  · rw [ht.stops_eq, h] at hb
    cases hb

/-- A literal that is closed ends with its quote. -/
theorem exists_quote (ht : Form t quote) (text : List UInt8) :
    ∀ (raw : LiteralText) (phase : LiteralPhase) (p : Position), phase ≠ .closed →
      (t.run ⟨raw, phase⟩ p text).value.isClosed = true →
      ∃ x, (t.run ⟨raw, phase⟩ p text).passed = x ++ [quote] := by
  induction text with
  | nil =>
    intro raw phase p hphase hclosed
    exact absurd (by simpa [isClosed] using hclosed) hphase
  | cons b r ih =>
    intro raw phase p hphase
    rw [t.run_cons _ p r (ht.stops_eq_false hphase raw b)]
    -- Unless the step closes the literal, the quote is further on.
    have hlater : ∀ raw' phase', phase' ≠ .closed →
        t.take ⟨raw, phase⟩ b (r.headD Ascii.nul) p = ⟨raw', phase'⟩ →
        (t.run (t.take ⟨raw, phase⟩ b (r.headD Ascii.nul) p) (p.past b) r).value.isClosed →
        ∃ x, b :: (t.run (t.take ⟨raw, phase⟩ b (r.headD Ascii.nul) p) (p.past b) r).passed =
          x ++ [quote] := by
      intro raw' phase' hphase' htake hclosed
      rw [htake] at hclosed ⊢
      obtain ⟨x, hx⟩ := ih raw' phase' _ hphase' hclosed
      exact ⟨b :: x, congrArg (b :: ·) hx⟩
    by_cases hescaped : phase = .escaped
    · subst hescaped
      exact hlater _ .content (by decide) (ht.take_escaped raw b _ p)
    · have hopen : phase.IsOpen := by
        cases phase <;> simp_all [LiteralPhase.IsOpen]
      have hstep := ht.take_open raw phase b (r.headD Ascii.nul) p hopen
      generalize htake : t.take ⟨raw, phase⟩ b (r.headD Ascii.nul) p = lit at hstep hlater ⊢
      cases hstep with
      | byte h _ => exact hlater _ _ (by rcases h with rfl | rfl <;> decide) rfl
      | skip h => exact hlater _ _ (by rcases h with rfl | rfl <;> decide) rfl
      | close hb =>
        intro _
        rw [ht.run_closed, hb]
        exact ⟨[], rfl⟩
      | escape _ => exact hlater _ .escaped (by decide) rfl
      | lineEscape _ _ => exact hlater _ .content (by decide) rfl

/-- A literal whose last byte is a backslash is not closed. -/
theorem isClosed_eq_false (ht : Form t quote) (hquote : quote ≠ Ascii.backslash)
    {raw : LiteralText} {phase : LiteralPhase} (hphase : phase ≠ .closed) {p : Position}
    {text u : List UInt8} (hu : (t.run ⟨raw, phase⟩ p text).passed = u ++ [Ascii.backslash]) :
    (t.run ⟨raw, phase⟩ p text).value.isClosed = false := by
  by_contra hclosed
  obtain ⟨x, hx⟩ := ht.exists_quote text raw phase p hphase (by simpa using hclosed)
  rw [hu] at hx
  have hlast : u = x ∧ Ascii.backslash = quote := by simpa using hx
  exact hquote hlast.2.symm

end Form

/-! ### What a literal collects -/

/-- The passage `o` goes on collecting the raw literal `raw` from a text that begins at `p`. -/
def Continues (raw : LiteralText) (p : Position) (o : Passage Literal) : Prop :=
  ∃ bytes escapes, o.value.raw.bytes.toList = raw.bytes.toList ++ bytes ∧
    o.value.raw.escapes.toList = raw.escapes.toList ++ escapes ∧
    LiteralText.Collects p raw.bytes.size o.passed bytes escapes

namespace Continues

variable {raw : LiteralText} {p : Position} {b c : UInt8} {o : Passage Literal}
  {y z : Passage Unit}

theorem refl (lit : Literal) (p : Position) (text : List UInt8) :
    Continues lit.raw p ⟨lit, [], text, []⟩ :=
  ⟨[], [], by simp, by simp, .nil⟩

theorem byte (hb : b ≠ Ascii.backslash) (hy : y.passed = [b])
    (h : Continues (raw.push b) (p.past b) o) : Continues raw p (y.append o) := by
  obtain ⟨bytes, escapes, hbytes, hescapes, hcollects⟩ := h
  refine ⟨b :: bytes, escapes, ?_, hescapes, ?_⟩
  · simpa [LiteralText.push] using hbytes
  · simp only [LiteralText.push, Array.size_push] at hcollects
    simp only [Passage.passed_append, hy]
    exact .byte hb hcollects

theorem skip (hy : y.passed = [b]) (h : Continues raw (p.past b) o) :
    Continues raw p (y.append o) := by
  obtain ⟨bytes, escapes, hbytes, hescapes, hcollects⟩ := h
  refine ⟨bytes, escapes, hbytes, hescapes, ?_⟩
  simp only [Passage.passed_append, hy]
  exact .skip hcollects

theorem pair (hy : y.passed = [Ascii.backslash]) (hz : z.passed = [c])
    (h : Continues ((raw.pushBackslash p).push c) ((p.past Ascii.backslash).past c) o) :
    Continues raw p (y.append (z.append o)) := by
  obtain ⟨bytes, escapes, hbytes, hescapes, hcollects⟩ := h
  refine ⟨Ascii.backslash :: c :: bytes, (raw.bytes.size, p) :: escapes, ?_, ?_, ?_⟩
  · simpa [LiteralText.pushBackslash, LiteralText.push] using hbytes
  · simpa [LiteralText.pushBackslash, LiteralText.push] using hescapes
  · simp only [LiteralText.pushBackslash, LiteralText.push, Array.size_push] at hcollects
    simp only [Passage.passed_append, hy, hz]
    exact .pair hcollects

theorem lone (hy : y.passed = [Ascii.backslash]) (phase : LiteralPhase) (text : List UInt8) :
    Continues raw p (y.append ⟨⟨raw.pushBackslash p, phase⟩, [], text, []⟩) := by
  refine ⟨[Ascii.backslash], [(raw.bytes.size, p)], ?_, ?_, ?_⟩
  · simp [LiteralText.pushBackslash]
  · simp [LiteralText.pushBackslash]
  · simp only [Passage.passed_append, hy]
    exact .lone

end Continues

/-- A literal is collected from the text that is passed, whatever was collected before. -/
theorem Form.continues {t : Transition Literal} {quote : UInt8} (ht : Form t quote)
    (text : List UInt8) :
    ∀ (raw : LiteralText) (phase : LiteralPhase) (p : Position), phase.IsOpen →
      Continues raw p (t.run ⟨raw, phase⟩ p text) := by
  -- An escape is taken in two steps, so the induction is on the length of the text.
  induction hn : text.length using Nat.strong_induction_on generalizing text with
  | _ n ih =>
    intro raw phase p hphase
    cases text with
    | nil => exact Continues.refl ⟨raw, phase⟩ p []
    | cons b r =>
      have hr : r.length < n := by simp [← hn]
      rw [t.run_cons _ p r (ht.stops_eq_false (by rcases hphase with rfl | rfl <;> decide) raw b)]
      have hstep := ht.take_open raw phase b (r.headD Ascii.nul) p hphase
      generalize t.take ⟨raw, phase⟩ b (r.headD Ascii.nul) p = lit at hstep ⊢
      cases hstep with
      | byte h hb => exact .byte hb rfl (ih _ hr r rfl _ _ _ h)
      | skip h => exact .skip rfl (ih _ hr r rfl _ _ _ h)
      | close hb =>
        rw [ht.run_closed]
        exact .skip rfl (.refl _ _ _)
      | escape hb =>
        subst hb
        cases r with
        | nil => exact .lone rfl _ _
        | cons c r =>
          have hr' : r.length < n := by simp at hr; omega
          rw [t.run_cons _ _ r (ht.stops_eq_false (by decide) _ c), ht.take_escaped]
          exact .pair rfl rfl (ih _ hr' r rfl _ _ _ (.inl rfl))
      | lineEscape hb hnext =>
        subst hb
        cases r with
        | nil => exact absurd hnext (by decide)
        | cons c r =>
          obtain rfl : c = Ascii.lineFeed := hnext
          have hr' : r.length < n := by simp at hr; omega
          obtain ⟨phase', hphase', htake⟩ :=
            ht.take_lineFeed (raw.pushBackslash p) (r.headD Ascii.nul) (p.past Ascii.backslash)
          rw [t.run_cons _ _ r (ht.stops_eq_false (by decide) _ _), htake]
          exact .pair rfl rfl (ih _ hr' r rfl _ _ _ hphase')

/-- The raw literal is collected from the text that is passed. -/
theorem Form.collects {t : Transition Literal} {quote : UInt8} (ht : Form t quote)
    (p : Position) (text : List UInt8) :
    LiteralText.Collects p 0 (t.run {} p text).passed
      (t.run {} p text).value.raw.bytes.toList (t.run {} p text).value.raw.escapes.toList := by
  obtain ⟨bytes, escapes, hbytes, hescapes, hcollects⟩ :=
    ht.continues text {} .content p (.inl rfl)
  rw [hbytes, hescapes]
  exact hcollects

/-! ### Quoted literals -/

/-- The raw bytes of a passage are those of `raw` and all it passes, up to the closing quote. -/
def Verbatim (quote : UInt8) (raw : LiteralText) (o : Passage Literal) : Prop :=
  raw.bytes.toList ++ o.passed =
    o.value.raw.bytes.toList ++ (if o.value.isClosed then [quote] else [])

theorem Verbatim.byte {quote b : UInt8} {raw raw' : LiteralText} {y : Passage Unit}
    {o : Passage Literal} (hy : y.passed = [b]) (hraw : raw'.bytes = raw.bytes.push b)
    (h : Verbatim quote raw' o) : Verbatim quote raw (y.append o) := by
  rw [Verbatim, hraw, Array.toList_push, List.append_assoc] at h
  rw [Verbatim, Passage.passed_append, hy]
  exact h

/-- A quoted literal skips nothing. -/
theorem verbatim_quoted {quote : UInt8} (hq : quote ≠ Ascii.lineFeed) (text : List UInt8) :
    ∀ (raw : LiteralText) (phase : LiteralPhase) (p : Position), phase ≠ .closed →
      Verbatim quote raw ((quoted quote).run ⟨raw, phase⟩ p text) := by
  have hform := form_quoted hq
  induction text with
  | nil =>
    intro raw phase p hphase
    simp [Verbatim, isClosed, hphase]
  | cons b r ih =>
    intro raw phase p hphase
    rw [Transition.run_cons _ _ p r (hform.stops_eq_false hphase raw b)]
    by_cases hescaped : phase = .escaped
    · subst hescaped
      rw [hform.take_escaped]
      exact .byte rfl rfl (ih _ .content _ (by decide))
    · have htake : (quoted quote).take ⟨raw, phase⟩ b (r.headD Ascii.nul) p =
          content quote raw b p := by
        cases phase with
        | escaped => exact absurd rfl hescaped
        | content | margin | closed => rfl
      rw [htake, content]
      split
      · next hb =>
        rw [hform.run_closed, hb]
        simp [Verbatim, isClosed]
      · split
        · next hb =>
          rw [hb]
          exact .byte rfl rfl (ih _ .escaped _ (by decide))
        · exact .byte rfl rfl (ih _ .content _ (by decide))

theorem findings_quoted (quote : UInt8) (lit : Literal) (p : Position) (text : List UInt8) :
    ((quoted quote).run lit p text).findings = [] :=
  Transition.findings_eq_nil _ (fun _ _ => rfl) text lit p

/-- A quoted literal whose contents were encoded is closed by the quote after them. -/
theorem run_quoted_encode {quote : UInt8}
    (hq : quote = Ascii.doubleQuote ∨ quote = Ascii.singleQuote) (bytes rest : List UInt8) :
    ∀ (raw : LiteralText) (p : Position),
      ((quoted quote).run ⟨raw, .content⟩ p (Escape.encode bytes ++ quote :: rest)).passed =
          Escape.encode bytes ++ [quote] ∧
        ((quoted quote).run ⟨raw, .content⟩ p
          (Escape.encode bytes ++ quote :: rest)).value.isClosed = true := by
  have hform : Form (quoted quote) quote := form_quoted (by rcases hq with rfl | rfl <;> decide)
  have hbackslash : Ascii.backslash ≠ quote := by rcases hq with rfl | rfl <;> decide
  induction bytes with
  | nil =>
    intro raw p
    have htake : (quoted quote).take ⟨raw, .content⟩ quote (rest.headD Ascii.nul) p =
        ⟨raw, .closed⟩ := if_pos rfl
    simp only [Escape.encode, List.flatMap_nil, List.nil_append]
    rw [Transition.run_cons _ _ p rest rfl, htake, hform.run_closed]
    exact ⟨rfl, rfl⟩
  | cons b bytes ih =>
    intro raw p
    have hsplit : Escape.encode (b :: bytes) = Escape.encodeByte b ++ Escape.encode bytes := rfl
    cases h : Escape.letterOf? b with
    | some letter =>
      have hbyte : Escape.encodeByte b = [Ascii.backslash, letter] := by
        simp [Escape.encodeByte, h]
      have htake : ∀ next, (quoted quote).take ⟨raw, .content⟩ Ascii.backslash next p =
          ⟨raw.pushBackslash p, .escaped⟩ := fun next => by simp [quoted, content, hbackslash]
      have htext : Escape.encode (b :: bytes) ++ quote :: rest =
          Ascii.backslash :: letter :: (Escape.encode bytes ++ quote :: rest) := by
        rw [hsplit, hbyte]
        rfl
      rw [htext, hsplit, hbyte, Transition.run_cons _ _ p _ rfl, htake,
        Transition.run_cons _ _ _ _ rfl, hform.take_escaped]
      obtain ⟨hpassed, hclosed⟩ := ih ((raw.pushBackslash p).push letter)
        ((p.past Ascii.backslash).past letter)
      refine ⟨?_, hclosed⟩
      simp only [Passage.passed_append, hpassed]
      rfl
    | none =>
      have hbyte : Escape.encodeByte b = [b] := by simp [Escape.encodeByte, h]
      have hb : b ≠ quote := by
        rcases hq with rfl | rfl <;> exact Escape.ne_of_letterOf?_eq_none h
      have hb' : b ≠ Ascii.backslash := Escape.ne_of_letterOf?_eq_none h
      have htake : ∀ next, (quoted quote).take ⟨raw, .content⟩ b next p =
          ⟨raw.push b, .content⟩ := fun next => by simp [quoted, content, hb, hb']
      rw [hsplit, hbyte, List.singleton_append, List.cons_append,
        Transition.run_cons _ _ p _ rfl, htake]
      obtain ⟨hpassed, hclosed⟩ := ih (raw.push b) (p.past b)
      refine ⟨?_, hclosed⟩
      simp only [Passage.passed_append, hpassed]
      rfl

/-! ### Lines of a multi-line string -/

/-- The text `u` ends with a line break and some indentation, or it is itself indentation behind a
line break. -/
def AtMargin (phase : LiteralPhase) (u : List UInt8) : Prop :=
  (∃ v w, u = v ++ Ascii.lineFeed :: w ∧ ∀ c ∈ w, Ascii.isIndent c = true) ∨
    (phase = .margin ∧ ∀ c ∈ u, Ascii.isIndent c = true)

theorem eq_lineFeed_or_isIndent {raw : LiteralText} {phase : LiteralPhase} {b next : UInt8}
    {p : Position} (h : (multiLine.take ⟨raw, phase⟩ b next p).phase = .margin) :
    b = Ascii.lineFeed ∨ (phase = .margin ∧ Ascii.isIndent b = true) := by
  have hcontent : (lineContent raw b next p).phase = .margin → b = Ascii.lineFeed := by
    unfold lineContent content
    split
    · next hb => exact fun _ => hb
    · split
      · nofun
      · split
        · nofun
        · split <;> nofun
  cases phase with
  | content => exact .inl (hcontent h)
  | closed => exact .inl (hcontent h)
  | escaped => cases h
  | margin =>
    by_cases hb : Ascii.isIndent b
    · exact .inr ⟨rfl, hb⟩
    · by_cases hbar : b = Ascii.bar
      · subst hbar
        cases h
      · refine .inl (hcontent ?_)
        simpa [multiLine, hb, hbar] using h

/-- A line without its bar is found at its first byte that is neither indentation nor a bar. -/
theorem exists_of_mem_findings {f : Finding} (text : List UInt8) :
    ∀ (raw : LiteralText) (phase : LiteralPhase) (p : Position),
      f ∈ (multiLine.run ⟨raw, phase⟩ p text).findings →
      ∃ u b v, (multiLine.run ⟨raw, phase⟩ p text).passed = u ++ b :: v ∧
        f = ⟨.missingDelimiter, p.after u⟩ ∧ Ascii.isIndent b = false ∧ b ≠ Ascii.bar ∧
        AtMargin phase u := by
  induction text with
  | nil => intro raw phase p hf; simp at hf
  | cons b r ih =>
    intro raw phase p hf
    cases hstop : multiLine.stops ⟨raw, phase⟩ b with
    | true => simp [Transition.run_cons_of_stops _ _ p r hstop] at hf
    | false =>
      rw [Transition.run_cons _ _ p r hstop] at hf ⊢
      rcases List.mem_append.1 hf with hf | hf
      · have hmissing : (phase = .margin ∧ Ascii.isIndent b = false) ∧ b ≠ Ascii.bar := by
          by_contra hne
          have hnone : multiLine.complaint ⟨raw, phase⟩ b = none := by
            simpa [multiLine] using hne
          simp [Transition.noted, hnone] at hf
        refine ⟨[], b, _, rfl, ?_, hmissing.1.2, hmissing.2, .inr ⟨hmissing.1.1, by simp⟩⟩
        simpa [Transition.noted, multiLine, hmissing] using hf
      · generalize htake : multiLine.take ⟨raw, phase⟩ b (r.headD Ascii.nul) p = lit at hf ⊢
        obtain ⟨u, c, v, hpassed, rfl, hindent, hbar, hmargin⟩ := ih lit.raw lit.phase _ hf
        refine ⟨b :: u, c, v, congrArg (b :: ·) hpassed, rfl, hindent, hbar, ?_⟩
        rcases hmargin with ⟨v, w, rfl, hw⟩ | ⟨hphase, hu⟩
        · exact .inl ⟨b :: v, w, rfl, hw⟩
        · rw [← htake] at hphase
          rcases eq_lineFeed_or_isIndent hphase with rfl | ⟨rfl, hb⟩
          · exact .inl ⟨[], u, rfl, hu⟩
          · refine .inr ⟨rfl, fun d hd => ?_⟩
            rcases List.mem_cons.1 hd with rfl | hd
            · exact hb
            · exact hu d hd

end Literal

end CinderFront
