import CinderFront.Proofs.Capacity

/-!
# Every diagnostic points at its defect

A diagnostic has a code and a position. This module says for every code what stands at the position,
and shows that the diagnostics of a scan keep to it and that none of them is repeated.

* `ErrorCode.IsAt` — what stands before and behind the place of a diagnostic;
* `Finding.Placed`, `Faults` — the findings of one rule;
* `exists_literalFaults`, `Reads.faults` — literals, and with them all rules;
* `Sound`, `Lexes.sound` — the findings of a whole text;
* `scan_pinpoints` — the diagnostics of a scan of any source.
-/

namespace CinderFront

/-! ### What the codes say -/

/-- The codes for what should have ended and did not. -/
def ErrorCode.isUnterminated : ErrorCode → Bool
  | unterminatedString | unterminatedCharacter | unterminatedComment => true
  | _ => false

/-- What a diagnostic with this code and this message says of the text before its position and of
the text from there on. -/
def ErrorCode.IsAt (message : String) (before after : List UInt8) : ErrorCode → Prop
  | unterminatedString | unterminatedCharacter | unterminatedComment => after = []
  | emptyCharacter => ∃ r, after = Ascii.singleQuote :: r ∧
      (r = [] ∨ r.head? = some Ascii.singleQuote)
  | overlongCharacter => ∃ r, after = Ascii.singleQuote :: r
  | unrecognizedEscape => ∃ b r, after = Ascii.backslash :: b :: r ∧
      b ∉ Ascii.codes "nrt\\|'\"0" ∧
      message = "unrecognized escape character: " ++ Ascii.visible b
  | unterminatedEscape => after = [Ascii.backslash]
  | missingDelimiter =>
      (∃ lines margin, before = lines ++ Ascii.lineFeed :: margin ∧
        ∀ c ∈ margin, c = Ascii.space ∨ c = Ascii.tab) ∧
      ∃ b r, after = b :: r ∧ b ≠ Ascii.space ∧ b ≠ Ascii.tab ∧ b ≠ Ascii.bar

theorem ErrorCode.IsAt.append_left {message : String} {before after : List UInt8}
    {code : ErrorCode} (h : code.IsAt message before after) (x : List UInt8) :
    code.IsAt message (x ++ before) after := by
  cases code with
  | missingDelimiter =>
    obtain ⟨⟨lines, margin, rfl, hmargin⟩, hafter⟩ := h
    exact ⟨⟨x ++ lines, margin, by simp, hmargin⟩, hafter⟩
  | _ => exact h

namespace Finding

/-- The finding says of the text, which begins at `p`, what is the case at its position. -/
def PointsAt (p : Position) (text : List UInt8) (f : Finding) : Prop :=
  ∃ before after, text = before ++ after ∧ f.position = p.after before ∧
    f.error.code.IsAt f.error.message before after

/-- The finding is about a byte of `x`, which begins at `p` and is followed by `rest`. -/
def Within (p : Position) (x rest : List UInt8) (f : Finding) : Prop :=
  ∃ u b v, x = u ++ b :: v ∧ f.position = p.after u ∧
    f.error.code.IsAt f.error.message u (b :: v ++ rest)

/-- The finding is about a byte of `x`, or it is about the end of the text, and `x` goes up to
that. -/
def Placed (p : Position) (x rest : List UInt8) (f : Finding) : Prop :=
  f.Within p x rest ∨
    f.error.code.isUnterminated = true ∧ rest = [] ∧ f.position = p.after x

/-- The findings differ in code or position, and not both are about something unterminated. -/
def Apart (f g : Finding) : Prop :=
  ¬ (f.error.code = g.error.code ∧ f.position = g.position) ∧
    ¬ (f.error.code.isUnterminated = true ∧ g.error.code.isUnterminated = true)

variable {p : Position} {text x rest : List UInt8} {f g : Finding}

theorem PointsAt.append_left (h : f.PointsAt (p.after x) text) : f.PointsAt p (x ++ text) := by
  obtain ⟨before, after, rfl, hposition, hat⟩ := h
  refine ⟨x ++ before, after, by simp, ?_, hat.append_left x⟩
  rw [hposition, Position.after_append]

theorem Within.append_left {y : List UInt8} (h : f.Within (p.after y) x rest) :
    f.Within p (y ++ x) rest := by
  obtain ⟨u, b, v, rfl, hposition, hat⟩ := h
  refine ⟨y ++ u, b, v, by simp, ?_, hat.append_left y⟩
  rw [hposition, Position.after_append]

theorem Placed.pointsAt (h : f.Placed p x rest) : f.PointsAt p (x ++ rest) := by
  rcases h with ⟨u, b, v, rfl, hposition, hat⟩ | ⟨hcode, rfl, hposition⟩
  · exact ⟨u, b :: v ++ rest, by simp, hposition, hat⟩
  · refine ⟨x, [], rfl, hposition, ?_⟩
    generalize f.error.code = code at hcode
    cases code with
    | unterminatedString | unterminatedCharacter | unterminatedComment => rfl
    | _ => cases hcode

theorem Placed.lt_or_eq_nil (h : f.Placed p x rest) : f.position < p.after x ∨ rest = [] := by
  rcases h with ⟨u, b, v, rfl, hposition, -⟩ | ⟨-, hrest, -⟩
  · rw [hposition]
    exact .inl (Position.after_lt_after p (List.cons_ne_nil b v))
  · exact .inr hrest

theorem PointsAt.le (h : f.PointsAt p text) : p ≤ f.position := by
  obtain ⟨before, after, -, hposition, -⟩ := h
  rw [hposition]
  exact Position.le_after p before

/-- What is unterminated is found at the end of the text. -/
theorem PointsAt.position_eq (h : f.PointsAt p text)
    (hcode : f.error.code.isUnterminated = true) : f.position = p.after text := by
  obtain ⟨before, after, rfl, hposition, hat⟩ := h
  have hafter : after = [] := by
    generalize f.error.code = code at hcode hat
    cases code with
    | unterminatedString | unterminatedCharacter | unterminatedComment => exact hat
    | _ => cases hcode
  rw [hafter, List.append_nil, hposition]

theorem Apart.of_code_ne (h : f.error.code ≠ g.error.code)
    (hend : f.error.code.isUnterminated = false ∨ g.error.code.isUnterminated = false) :
    f.Apart g := by
  refine ⟨fun heq => h heq.1, fun hboth => ?_⟩
  rcases hend with hf | hg
  · simp [hf] at hboth
  · simp [hg] at hboth

theorem Apart.of_lt (h : f.position < g.position)
    (hend : f.error.code.isUnterminated = false ∨ g.error.code.isUnterminated = false) :
    f.Apart g := by
  refine ⟨fun heq => Position.ne_of_lt h heq.2, fun hboth => ?_⟩
  rcases hend with hf | hg
  · simp [hf] at hboth
  · simp [hg] at hboth

end Finding

/-! ### Literals -/

/-- The findings of a rule that passes `x`, which begins at `p`, and leaves `rest`. -/
structure Faults (p : Position) (x rest : List UInt8) (fs : List Finding) : Prop where
  placed : ∀ f ∈ fs, f.Placed p x rest
  apart : fs.Pairwise Finding.Apart
  escape : ∀ f ∈ fs, f.error.code = .unterminatedEscape →
    ∃ g ∈ fs, g.error.code = .unterminatedString ∨ g.error.code = .unterminatedCharacter

theorem Faults.nil (p : Position) (x rest : List UInt8) : Faults p x rest [] :=
  ⟨by simp, .nil, by simp⟩

theorem Finding.within_of_liesAt {b : UInt8} {offset : Nat} {q p : Position}
    {x : List UInt8} (h : (MalformedEscape.unrecognized b offset).LiesAt q p x)
    (rest : List UInt8) : Finding.Within p x rest ⟨.unrecognizedEscape b, q⟩ := by
  obtain ⟨u, rfl, hb, v, rfl⟩ := h
  exact ⟨u, Ascii.backslash, b :: v, rfl, rfl, b, v ++ rest, rfl, Escape.byteOf?_eq_none_iff.1 hb,
    rfl⟩

/-- Where a literal of either form finds a line without its bar. -/
def FindsLines (form : Transition Literal) : Prop :=
  ∀ (p : Position) (r rest : List UInt8), ∀ f ∈ (form.run {} p r).findings,
    f.error = .missingDelimiter ∧ f.Within p (form.run {} p r).passed rest

theorem findsLines_quoted (quote : UInt8) : FindsLines (Literal.quoted quote) := by
  intro p r rest f hf
  rw [Literal.findings_quoted] at hf
  cases hf

theorem findsLines_multiLine : FindsLines Literal.multiLine := by
  intro p r rest f hf
  obtain ⟨u, b, v, hpassed, rfl, hindent, hbar, hmargin⟩ :=
    Literal.exists_of_mem_findings r {} .content p hf
  refine ⟨rfl, u, b, v, hpassed, rfl, ?_, b, v ++ rest, rfl, ?_⟩
  · rcases hmargin with ⟨lines, margin, rfl, hmargin⟩ | ⟨hphase, -⟩
    · exact ⟨lines, margin, rfl, fun c hc => Ascii.isIndent_iff.1 (hmargin c hc)⟩
    · cases hphase
  · have hnot : ¬ (b = Ascii.space ∨ b = Ascii.tab) := by
      rw [← Ascii.isIndent_iff, hindent]
      decide
    exact ⟨fun h => hnot (.inl h), fun h => hnot (.inr h), hbar⟩

/-- The findings of a literal: lines without their bars, then the missing end, if it is missing,
then malformed escapes. -/
structure LiteralFaults (p : Position) (x rest : List UInt8)
    (lines ends escapes : List Finding) : Prop where
  line : ∀ f ∈ lines, f.error.code = .missingDelimiter ∧ f.Within p x rest
  ending : ∀ f ∈ ends,
    (f.error.code = .unterminatedString ∨ f.error.code = .unterminatedCharacter) ∧
      f.Placed p x rest
  escape : ∀ f ∈ escapes,
    (f.error.code = .unrecognizedEscape ∨ f.error.code = .unterminatedEscape) ∧
      f.Within p x rest
  lines_sorted : lines.Pairwise (·.position < ·.position)
  ends_unique : ends.length ≤ 1
  escapes_sorted : escapes.Pairwise (·.position < ·.position)
  ends_of_escape : ∀ f ∈ escapes, f.error.code = .unterminatedEscape → ends ≠ []

namespace LiteralFaults

variable {p : Position} {x rest : List UInt8} {lines ends escapes : List Finding}
  (h : LiteralFaults p x rest lines ends escapes)

theorem mem_cases {f : Finding} (hf : f ∈ lines ++ ends ++ escapes) :
    f ∈ lines ∨ f ∈ ends ∨ f ∈ escapes := by
  rw [List.append_assoc, List.mem_append, List.mem_append] at hf
  exact hf

include h

theorem apart : (lines ++ ends ++ escapes).Pairwise Finding.Apart := by
  have hescape : ∀ f ∈ escapes, f.error.code.isUnterminated = false := by
    intro f hf
    rcases (h.escape f hf).1 with hcode | hcode <;> rw [hcode] <;> rfl
  have hends : ends.Pairwise Finding.Apart := by
    match ends, h.ends_unique with
    | [], _ => exact .nil
    | [f], _ => exact List.pairwise_singleton _ f
  refine List.pairwise_append.2 ⟨List.pairwise_append.2 ⟨?_, hends, ?_⟩, ?_, ?_⟩
  · refine h.lines_sorted.imp_of_mem fun hf _ hlt => .of_lt hlt (.inl ?_)
    rw [(h.line _ hf).1]
    rfl
  · intro f hf g hg
    have hcode := (h.line f hf).1
    refine .of_code_ne ?_ (.inl (by rw [hcode]; rfl))
    rcases (h.ending g hg).1 with hcode' | hcode' <;> simp [hcode, hcode']
  · exact h.escapes_sorted.imp_of_mem fun hf _ hlt => .of_lt hlt (.inl (hescape _ hf))
  · intro f hf g hg
    refine .of_code_ne ?_ (.inr (hescape g hg))
    have hcode := (h.escape g hg).1
    rcases List.mem_append.1 hf with hf | hf
    · rcases hcode with hcode | hcode <;> simp [(h.line f hf).1, hcode]
    · rcases (h.ending f hf).1 with hcode' | hcode' <;>
        rcases hcode with hcode | hcode <;> simp [hcode, hcode']

theorem faults : Faults p x rest (lines ++ ends ++ escapes) := by
  refine ⟨?_, h.apart, ?_⟩
  · intro f hf
    rcases mem_cases hf with hf | hf | hf
    · exact .inl (h.line f hf).2
    · exact (h.ending f hf).2
    · exact .inl (h.escape f hf).2
  · intro f hf hcode
    have hmem : f ∈ escapes := by
      rcases mem_cases hf with hf | hf | hf
      · simp [(h.line f hf).1] at hcode
      · rcases (h.ending f hf).1 with hcode' | hcode' <;> simp [hcode'] at hcode
      · exact hf
    obtain ⟨g, hg⟩ := List.exists_mem_of_ne_nil _ (h.ends_of_escape f hmem hcode)
    exact ⟨g, List.mem_append_left _ (List.mem_append_right _ hg), (h.ending g hg).1⟩

theorem code_ne : ∀ f ∈ lines ++ ends ++ escapes,
    f.error.code ≠ .emptyCharacter ∧ f.error.code ≠ .overlongCharacter := by
  intro f hf
  rcases mem_cases hf with hf | hf | hf
  · simp [(h.line f hf).1]
  · rcases (h.ending f hf).1 with hcode | hcode <;> simp [hcode]
  · rcases (h.escape f hf).1 with hcode | hcode <;> simp [hcode]

end LiteralFaults

theorem LexicalError.code_unterminatedString :
    unterminatedString.code = .unterminatedString := rfl

theorem LexicalError.code_unterminatedCharacter :
    unterminatedCharacter.code = .unterminatedCharacter := rfl

/-- What is found in a literal. -/
theorem exists_literalFaults {form : Transition Literal} {quote : UInt8}
    (hform : Literal.Form form quote) (hlines : FindsLines form) (hquote : quote ≠ Ascii.backslash)
    {unterminated : LexicalError}
    (hcode : unterminated.code = .unterminatedString ∨
      unterminated.code = .unterminatedCharacter)
    (opening : List UInt8) (p : Position) (r : List UInt8) :
    let o := quotation form unterminated opening p r
    ∃ lines ends escapes, o.findings = lines ++ ends ++ escapes ∧
      LiteralFaults p o.passed o.rest lines ends escapes := by
  have hcollects := hform.collects (p.after opening) r
  have hopen : ((form.run {} (p.after opening) r).value.isClosed = false →
    (form.run {} (p.after opening) r).rest = []) := hform.rest_eq_nil
  have hlast : ∀ u, (form.run {} (p.after opening) r).passed = u ++ [Ascii.backslash] →
      (form.run {} (p.after opening) r).value.isClosed = false :=
    fun u => hform.isClosed_eq_false hquote (by decide)
  have hwithin := hlines (p.after opening) r
  have hpairwise := form.pairwise_findings r {} (p.after opening)
  obtain ⟨located, hfaults, hsorted, hlies⟩ :=
    LiteralText.exists_located_of_faults hcollects p
  simp only [quotation]
  rw [hfaults]
  generalize form.run {} (p.after opening) r = o at hopen hlast hwithin hpairwise hlies
  refine ⟨_, _, _, rfl, ?_, ?_, ?_, hpairwise, ?_, ?_, ?_⟩
  · intro f hf
    obtain ⟨herror, hf⟩ := hwithin o.rest f hf
    exact ⟨by rw [herror]; rfl, hf.append_left⟩
  · intro f hf
    cases hclosed : o.value.isClosed with
    | true => simp [hclosed] at hf
    | false =>
      obtain rfl : f = ⟨unterminated, p.after (opening ++ o.passed)⟩ := by
        simpa [hclosed] using hf
      refine ⟨hcode, .inr ⟨?_, hopen hclosed, rfl⟩⟩
      rcases hcode with hcode | hcode <;> simp only [hcode] <;> rfl
  · intro f hf
    obtain ⟨⟨e, q⟩, hl, rfl⟩ := List.mem_map.1 hf
    have hlie := hlies _ hl
    cases e with
    | unrecognized b offset =>
      exact ⟨.inl rfl, (Finding.within_of_liesAt hlie o.rest).append_left⟩
    | unterminated offset =>
      obtain ⟨u, rfl, hpassed⟩ := hlie
      refine ⟨.inr rfl, Finding.Within.append_left ⟨u, Ascii.backslash, [], hpassed, rfl, ?_⟩⟩
      rw [hopen (hlast u hpassed)]
      rfl
  · split <;> simp
  · exact List.pairwise_map.2 hsorted
  · intro f hf hescape
    obtain ⟨⟨e, q⟩, hl, rfl⟩ := List.mem_map.1 hf
    cases e with
    | unrecognized b offset => cases hescape
    | unterminated offset =>
      obtain ⟨u, -, hpassed⟩ := hlies _ hl
      simp [hlast u hpassed]

/-! ### Rules -/

/-- One more finding about a byte, under a code of its own. -/
theorem Faults.concat {p : Position} {x rest : List UInt8} {fs : List Finding} {f : Finding}
    (h : Faults p x rest fs) (hf : f.Within p x rest)
    (hcode : ∀ g ∈ fs, g.error.code ≠ f.error.code)
    (hend : f.error.code.isUnterminated = false) (hescape : f.error.code ≠ .unterminatedEscape) :
    Faults p x rest (fs ++ [f]) := by
  refine ⟨?_, ?_, ?_⟩
  · intro g hg
    rcases List.mem_append.1 hg with hg | hg
    · exact h.placed g hg
    · rw [List.mem_singleton.1 hg]
      exact .inl hf
  · refine List.pairwise_append.2 ⟨h.apart, List.pairwise_singleton _ f, ?_⟩
    intro g hg g' hg'
    rw [List.mem_singleton.1 hg']
    exact .of_code_ne (hcode g hg) (.inr hend)
  · intro g hg hgcode
    rcases List.mem_append.1 hg with hg | hg
    · obtain ⟨g', hg', hcode'⟩ := h.escape g hg hgcode
      exact ⟨g', List.mem_append_left _ hg', hcode'⟩
    · rw [List.mem_singleton.1 hg] at hgcode
      exact absurd hgcode hescape

/-- What is found in a character literal, before its length is looked at. -/
theorem exists_characterFaults {p : Position} {r x rest contents : List UInt8}
    {fs : List Finding}
    (h : quotation (Literal.quoted Ascii.singleQuote) .unterminatedCharacter
      [Ascii.singleQuote] p r = ⟨contents, x, rest, fs⟩) :
    Faults p x rest fs ∧
      ∀ f ∈ fs, f.error.code ≠ .emptyCharacter ∧ f.error.code ≠ .overlongCharacter := by
  obtain ⟨lines, ends, escapes, hfs, hfaults⟩ := exists_literalFaults
    (Literal.form_quoted (by decide)) (findsLines_quoted Ascii.singleQuote) (by decide)
    (.inr LexicalError.code_unterminatedCharacter) [Ascii.singleQuote] p r
  simp only [h] at hfs hfaults
  rw [hfs]
  exact ⟨hfaults.faults, hfaults.code_ne⟩

/-- What a rule finds is where it says. -/
theorem Reads.faults {p : Position} {text : List UInt8} {o : Passage (Option Lexeme)}
    (h : Reads p text o) : Faults p o.passed o.rest o.findings := by
  cases h with
  | @string r _ =>
    obtain ⟨lines, ends, escapes, hfs, hfaults⟩ := exists_literalFaults
      (Literal.form_quoted (by decide)) (findsLines_quoted Ascii.doubleQuote) (by decide)
      (.inl LexicalError.code_unterminatedString) [Ascii.doubleQuote] p r
    rw [Passage.findings_map, hfs]
    exact hfaults.faults
  | @multiLine r =>
    obtain ⟨lines, ends, escapes, hfs, hfaults⟩ := exists_literalFaults
      Literal.form_multiLine findsLines_multiLine (by decide)
      (.inl LexicalError.code_unterminatedString) [Ascii.doubleQuote, Ascii.bar] p r
    rw [Passage.findings_map, hfs]
    exact hfaults.faults
  | character hq => exact (exists_characterFaults hq).1
  | @emptyCharacter r x rest fs hq =>
    obtain ⟨hfaults, hcode⟩ := exists_characterFaults hq
    refine hfaults.concat ?_ (fun g hg => (hcode g hg).1) rfl nofun
    rcases quotation_nil (by decide) hq with rfl | ⟨rfl, rfl⟩
    · exact ⟨[], Ascii.singleQuote, [Ascii.singleQuote], rfl, rfl, _, rfl, .inr rfl⟩
    · exact ⟨[], Ascii.singleQuote, [], rfl, rfl, _, rfl, .inl rfl⟩
  | overlongCharacter hq =>
    obtain ⟨hfaults, hcode⟩ := exists_characterFaults hq
    refine hfaults.concat ?_ (fun g hg => (hcode g hg).2) rfl nofun
    obtain ⟨-, rfl, -, -⟩ := Passage.mk.inj hq
    exact ⟨[], Ascii.singleQuote, _, rfl, rfl, _, rfl⟩
  | openComment _ =>
    refine ⟨?_, List.pairwise_singleton _ _, ?_⟩
    · intro f hf
      obtain rfl := List.mem_singleton.1 hf
      exact .inr ⟨rfl, rfl, rfl⟩
    · intro f hf hcode
      obtain rfl := List.mem_singleton.1 hf
      cases hcode
  | lineComment | blockComment _ | word _ | integer _ _ | float _ _ _ | mark _ _
  | unknown _ _ _ _ _ => exact .nil p _ _

/-! ### Whole texts -/

/-- The findings of a whole text, which begins at `p`. -/
structure Sound (p : Position) (text : List UInt8) (fs : List Finding) : Prop where
  pointsAt : ∀ f ∈ fs, f.PointsAt p text
  apart : fs.Pairwise Finding.Apart
  escape : ∀ f ∈ fs, f.error.code = .unterminatedEscape →
    ∃ g ∈ fs, g.error.code = .unterminatedString ∨ g.error.code = .unterminatedCharacter

/-- The findings of a rule and those of the text behind it. -/
theorem Sound.append {p : Position} {x rest : List UInt8} {fs gs : List Finding}
    (hfs : Faults p x rest fs) (hgs : Sound (p.after x) rest gs) (hnil : rest = [] → gs = []) :
    Sound p (x ++ rest) (fs ++ gs) := by
  refine ⟨?_, ?_, ?_⟩
  · intro f hf
    rcases List.mem_append.1 hf with hf | hf
    · exact (hfs.placed f hf).pointsAt
    · exact (hgs.pointsAt f hf).append_left
  · refine List.pairwise_append.2 ⟨hfs.apart, hgs.apart, fun f hf g hg => ?_⟩
    have hrest : rest ≠ [] := fun h => by simp [hnil h] at hg
    have hlt : f.position < p.after x := (hfs.placed f hf).lt_or_eq_nil.resolve_right hrest
    refine .of_lt (Position.lt_of_lt_of_le hlt (hgs.pointsAt g hg).le) (.inl ?_)
    by_contra hcode
    -- What is unterminated goes up to the end of the text, and nothing is found behind that.
    have hposition := (hfs.placed f hf).pointsAt.position_eq (by simpa using hcode)
    rw [hposition, Position.after_append] at hlt
    exact Position.ne_of_lt (Position.lt_of_lt_of_le hlt (Position.le_after _ rest)) rfl
  · intro f hf hcode
    rcases List.mem_append.1 hf with hf | hf
    · obtain ⟨g, hg, hgcode⟩ := hfs.escape f hf hcode
      exact ⟨g, List.mem_append_left _ hg, hgcode⟩
    · obtain ⟨g, hg, hgcode⟩ := hgs.escape f hf hcode
      exact ⟨g, List.mem_append_right _ hg, hgcode⟩

theorem Sound.append_left {p : Position} {x text : List UInt8} {fs : List Finding}
    (h : Sound (p.after x) text fs) : Sound p (x ++ text) fs :=
  ⟨fun f hf => (h.pointsAt f hf).append_left, h.apart, h.escape⟩

/-- Nothing is found in an empty text. -/
theorem Lexes.findings_eq_nil {p : Position} {items : List Item} {fs : List Finding}
    (h : Lexes p [] items fs) : fs = [] := by
  generalize htext : ([] : List UInt8) = text at h
  cases h with
  | finish _ => rfl
  | token _ ho _ | skip _ ho _ =>
    have hx := ho.passed_ne_nil
    simp_all

theorem Lexes.sound {p : Position} {text : List UInt8} {items : List Item} {fs : List Finding}
    (h : Lexes p text items fs) : Sound p text fs := by
  induction h with
  | finish _ => exact ⟨by simp, .nil, by simp⟩
  | token _ ho hrest ih | skip _ ho hrest ih =>
    rw [Position.after_append] at ih
    refine (Sound.append ho.faults ih fun hnil => ?_).append_left
    subst hnil
    exact hrest.findings_eq_nil

/-! ### Whole sources -/

/-- The diagnostics of a scan of `text`: every one says of the text what is the case at its
position; no two of them share code and position; at most one is about something unterminated, and
it is at the position of the end of the input, the last of the tokens; at most one is about a
backslash at the end, and then a literal is reported as unterminated. -/
structure Pinpoints (text : List UInt8) (tokens : List Token) (ds : List Diagnostic) : Prop where
  isAt : ∀ d ∈ ds, ∃ before after, text = before ++ after ∧
    d.position = Position.start.after before ∧ d.code.IsAt d.message before after
  distinct : ds.Pairwise fun d e => ¬ (d.code = e.code ∧ d.position = e.position)
  unterminated : ds.Pairwise fun d e =>
    ¬ (d.code.isUnterminated = true ∧ e.code.isUnterminated = true)
  atEnd : ∀ d ∈ ds, d.code.isUnterminated = true →
    ∃ t, tokens.getLast? = some t ∧ t.kind = .endOfFile ∧ d.position = t.position
  escape : ds.Pairwise fun d e =>
    ¬ (d.code = .unterminatedEscape ∧ e.code = .unterminatedEscape)
  escape_unterminated : ∀ d ∈ ds, d.code = .unterminatedEscape →
    ∃ e ∈ ds, e.code = .unterminatedString ∨ e.code = .unterminatedCharacter

/-- Two backslashes at the end of one text are one. -/
theorem Finding.Apart.not_unterminatedEscape {p : Position} {text : List UInt8} {f g : Finding}
    (h : f.Apart g) (hf : f.PointsAt p text) (hg : g.PointsAt p text) :
    ¬ (f.error.code = .unterminatedEscape ∧ g.error.code = .unterminatedEscape) := by
  intro hcodes
  obtain ⟨hfcode, hgcode⟩ := hcodes
  obtain ⟨u, v, hu, hfposition, hv⟩ := hf
  obtain ⟨u', v', hu', hgposition, hv'⟩ := hg
  rw [hfcode] at hv
  rw [hgcode] at hv'
  obtain rfl : v = [Ascii.backslash] := hv
  obtain rfl : v' = [Ascii.backslash] := hv'
  have huu : u = u' := List.append_cancel_right (hu.symm.trans hu')
  refine h.1 ⟨hfcode.trans hgcode.symm, ?_⟩
  rw [hfposition, hgposition, huu]

theorem Sound.pinpoints {text : List UInt8} {fs : List Finding} (h : Sound .start text fs)
    (sourceName : String) (tokens : List Token) :
    Pinpoints text (tokens ++ [⟨.endOfFile, sourceName, Position.start.after text⟩])
      (fs.map (Finding.toDiagnostic sourceName)) := by
  refine ⟨?_, ?_, ?_, ?_, ?_, ?_⟩
  · intro d hd
    obtain ⟨f, hf, rfl⟩ := List.mem_map.1 hd
    exact h.pointsAt f hf
  · exact List.pairwise_map.2 (h.apart.imp fun hfg => hfg.1)
  · exact List.pairwise_map.2 (h.apart.imp fun hfg => hfg.2)
  · intro d hd hcode
    obtain ⟨f, hf, rfl⟩ := List.mem_map.1 hd
    refine ⟨_, List.getLast?_concat, rfl, ?_⟩
    exact (h.pointsAt f hf).position_eq hcode
  · refine List.pairwise_map.2 (h.apart.imp_of_mem fun hf hg hfg => ?_)
    exact hfg.not_unterminatedEscape (h.pointsAt _ hf) (h.pointsAt _ hg)
  · intro d hd hcode
    obtain ⟨f, hf, rfl⟩ := List.mem_map.1 hd
    obtain ⟨g, hg, hgcode⟩ := h.escape f hf hcode
    exact ⟨_, List.mem_map_of_mem hg, hgcode⟩

/-- The diagnostics of a scan point at the defects of the source, each once. -/
theorem scan_pinpoints {source : List UInt8} (hfew : FewStrings source) (sourceName : String) :
    ∃ result, scan (⟨source⟩ : SourceText) sourceName = .ok result ∧
      Pinpoints (Ascii.beforeNul source) result.tokens result.diagnostics := by
  obtain ⟨items, fs, result, hlexes, hscan, htokens, hdiagnostics, -⟩ :=
    exists_scan hfew sourceName
  refine ⟨result, hscan, ?_⟩
  rw [htokens, hdiagnostics]
  exact hlexes.sound.pinpoints sourceName _

/-- A string with two defects: an escape that is none, and a backslash at the end of the text. -/
theorem scan_pinpoints_backslashes :
    FewStrings (Ascii.codes "\"\\s\\") ∧
      ∃ result, scan (⟨Ascii.codes "\"\\s\\"⟩ : SourceText) "open" = .ok result ∧
        Pinpoints (Ascii.beforeNul (Ascii.codes "\"\\s\\")) result.tokens
          result.diagnostics :=
  have hfew : FewStrings (Ascii.codes "\"\\s\\") := fewStrings_of_length_lt (by decide)
  ⟨hfew, scan_pinpoints hfew "open"⟩

end CinderFront
