import CinderFront.Proofs.Lexis
import CinderFront.Proofs.OperatorTable

/-!
# Reading by the rules

The scanner reads at the beginning of a text what the lexical rules say stands there, whatever
stream the text comes from. First the readers one by one, then the choice between them.

* `Scan.yields_literal`, `Scan.yields_decode` — literals, up to what is made of their contents;
* `Scan.Makes` — an action makes a token, or nothing, of a passage, and enters it into the symbols;
* `Scan.makes_lexeme?` — reading one token makes of the text what the rules say.
-/

namespace CinderFront

/-! ### Room among the symbols -/

namespace Scanner

variable {σ δ : Type} {s : Scanner σ δ} {l : Lexeme}

/-- The scanner with the contents of a string among its symbols. -/
def enter (s : Scanner σ δ) (l : Lexeme) : Scanner σ δ :=
  { s with symbols := l.enter s.symbols }

/-- How reading ends once all of a lexeme has been passed: with its token, or with a failure if
there is no room for its contents. What is no token ends with none. -/
def conclude (s : Scanner σ δ) :
    Option Lexeme → EStateM.Result ScanFailure (Scanner σ δ) (Option Token.Kind)
  | none => .ok none s
  | some l =>
    if l.Fits s.symbols then .ok (some (l.kind s.symbols)) (s.enter l)
    else .error (.capacity ⟨s.symbols.size⟩) s

theorem conclude_of_fits (h : l.Fits s.symbols) :
    s.conclude (some l) = .ok (some (l.kind s.symbols)) (s.enter l) := if_pos h

theorem conclude_of_not_fits (h : ¬ l.Fits s.symbols) :
    s.conclude (some l) = .error (.capacity ⟨s.symbols.size⟩) s := if_neg h

/-- What reading ends with is made of a lexeme. -/
theorem exists_of_conclude_eq_ok {l? : Option Lexeme} {kind : Token.Kind} {s' : Scanner σ δ}
    (h : s.conclude l? = .ok (some kind) s') :
    ∃ l, l? = some l ∧ l.Fits s.symbols ∧ kind = l.kind s.symbols ∧ s' = s.enter l := by
  cases l? with
  | none => cases h
  | some l =>
    by_cases hfits : l.Fits s.symbols
    · rw [conclude_of_fits hfits] at h
      cases h
      exact ⟨l, rfl, hfits, rfl, rfl⟩
    · rw [conclude_of_not_fits hfits] at h
      cases h

/-- What is no string needs no room. -/
theorem conclude_of_contents?_eq_none (h : l.contents? = none) :
    s.conclude (some l) = .ok (some (l.kind s.symbols)) s := by
  rw [conclude_of_fits (Lexeme.fits_of_contents?_eq_none _ h), enter,
    Lexeme.enter_of_contents?_eq_none _ h]

end Scanner

namespace Scan

variable {σ δ α : Type} [ByteStream σ] [Receiver δ] [Receptive δ] {s : Scanner σ δ}

/-! ### Literals -/

theorem yields_literal (form : Transition Literal) (unterminated : LexicalError)
    {opening r : List UInt8} (h : s.view.Shows (opening ++ r)) :
    let o := form.run {} (s.view.position.after opening) r
    Yields (literal opening.length form unterminated) s
      ⟨o.value.raw, opening ++ o.passed, o.rest,
        o.findings ++ if o.value.isClosed then []
          else [⟨unterminated, s.view.position.after (opening ++ o.passed)⟩]⟩ := by
  obtain ⟨s₁, hs₁, h₁⟩ := yields_advance h
  obtain ⟨s₂, hs₂, h₂⟩ := yields_absorb form {} h₁.shows
  rw [show s₁.view.position = s.view.position.after opening from h₁.position_eq] at hs₂ h₂
  have h₁₂ := h₁.trans h₂
  intro o
  cases hclosed : o.value.isClosed with
  | true =>
    refine ⟨s₂, ?_, by simpa using h₁₂⟩
    rw [literal, EStateM.bind_of_ok hs₁, EStateM.bind_of_ok hs₂, hclosed]
    rfl
  | false =>
    obtain ⟨s₃, hs₃, h₃⟩ := yields_reportHere unterminated h₂.shows
    have hposition : s₂.view.position = s.view.position.after (opening ++ o.passed) :=
      h₁₂.position_eq
    rw [hposition] at h₃
    refine ⟨s₃, ?_, by simpa using h₁₂.trans h₃⟩
    rw [literal, EStateM.bind_of_ok hs₁, EStateM.bind_of_ok hs₂, hclosed, if_neg (by decide),
      EStateM.bind_of_ok hs₃]
    rfl

theorem yields_decode (raw : LiteralText) (start : Position) {r : List UInt8}
    (h : s.view.Shows r) :
    Yields (decode raw start) s ⟨raw.contents, [], r, raw.faults start⟩ := by
  obtain ⟨s₁, hs₁, h₁⟩ := yields_forM_report LexicalError.ofEscape
    (fun e => (raw.escapePosition? e.offset).getD start)
    (Escape.decode raw.bytes.toList).errors.toList h
  exact ⟨s₁, EStateM.bind_of_ok hs₁, h₁⟩

/-- A literal is read and decoded; `f` is whatever is done with its contents. -/
theorem exists_of_quotation (form : Transition Literal) (unterminated : LexicalError)
    (opening : List UInt8) {r : List UInt8} (h : s.view.Shows (opening ++ r))
    (f : List UInt8 → Scan σ δ α) :
    let o := quotation form unterminated opening s.view.position r
    ∃ s', (literal opening.length form unterminated >>= fun raw =>
        decode raw s.view.position >>= f) s = f o.value s' ∧
      s.Passes o.passed o.rest o.findings s' := by
  obtain ⟨s₁, hs₁, h₁⟩ := yields_literal form unterminated h
  obtain ⟨s₂, hs₂, h₂⟩ := yields_decode _ s.view.position h₁.shows
  refine ⟨s₂, ?_, by simpa [quotation] using h₁.trans h₂⟩
  rw [EStateM.bind_of_ok hs₁, EStateM.bind_of_ok hs₂]
  rfl

/-! ### Comments, words and numbers -/

theorem yields_lineComment {r : List UInt8}
    (h : s.view.Shows (Ascii.slash :: Ascii.slash :: r)) :
    Yields lineComment s
      ⟨(), Ascii.slash :: Ascii.slash :: r.takeWhile (· != Ascii.lineFeed),
        r.dropWhile (· != Ascii.lineFeed), []⟩ := by
  obtain ⟨s₁, hs₁, h₁⟩ := yields_advance (x := [Ascii.slash, Ascii.slash]) h
  obtain ⟨s₂, hs₂, h₂⟩ := yields_skipWhile (· != Ascii.lineFeed) h₁.shows
  exact ⟨s₂, (EStateM.bind_of_ok hs₁).trans hs₂, h₁.trans h₂⟩

theorem yields_closedComment {body rest : List UInt8} (hbody : ¬ Comment.endMark <:+: body)
    (h : s.view.Shows (Ascii.slash :: Ascii.asterisk :: (body ++ Comment.endMark ++ rest))) :
    Yields blockComment s
      ⟨(), Ascii.slash :: Ascii.asterisk :: (body ++ Comment.endMark), rest, []⟩ := by
  obtain ⟨s₁, hs₁, h₁⟩ := yields_advance (x := [Ascii.slash, Ascii.asterisk])
    (r := body ++ Comment.endMark ++ rest) h
  obtain ⟨s₂, hs₂, h₂⟩ := yields_absorb Comment.transition .inside h₁.shows
  rw [Comment.run_closed hbody] at hs₂ h₂
  refine ⟨s₂, ?_, h₁.trans h₂⟩
  rw [blockComment]
  exact (EStateM.bind_of_ok hs₁).trans (EStateM.bind_of_ok hs₂)

theorem yields_openComment {body : List UInt8} (hbody : ¬ Comment.endMark <:+: body)
    (h : s.view.Shows (Ascii.slash :: Ascii.asterisk :: body)) :
    Yields blockComment s
      ⟨(), Ascii.slash :: Ascii.asterisk :: body, [],
        [⟨.unterminatedComment,
          s.view.position.after (Ascii.slash :: Ascii.asterisk :: body)⟩]⟩ := by
  obtain ⟨s₁, hs₁, h₁⟩ := yields_advance (x := [Ascii.slash, Ascii.asterisk]) h
  obtain ⟨s₂, hs₂, h₂⟩ := yields_absorb Comment.transition .inside h₁.shows
  rw [Comment.run_open hbody] at hs₂ h₂
  obtain ⟨s₃, hs₃, h₃⟩ := yields_reportHere .unterminatedComment h₂.shows
  have h₁₂ := h₁.trans h₂
  have hposition : s₂.view.position =
      s.view.position.after (Ascii.slash :: Ascii.asterisk :: body) := h₁₂.position_eq
  rw [hposition] at h₃
  refine ⟨s₃, ?_, by simpa using h₁₂.trans h₃⟩
  rw [blockComment]
  exact (EStateM.bind_of_ok hs₁).trans ((EStateM.bind_of_ok hs₂).trans hs₃)

theorem yields_collect (c : UInt8 → Bool) {text : List UInt8} (h : s.view.Shows text) :
    Yields (absorb (collect c) #[]) s
      ⟨(text.takeWhile c).toArray, text.takeWhile c, text.dropWhile c, []⟩ := by
  have ho := yields_absorb (collect c) #[] h
  rw [run_collect] at ho
  simpa using ho

theorem yields_word {text : List UInt8} (h : s.view.Shows text) :
    Yields word s ⟨classify (text.takeWhile Ascii.isWordByte),
      text.takeWhile Ascii.isWordByte, text.dropWhile Ascii.isWordByte, []⟩ := by
  obtain ⟨s₁, hs₁, h₁⟩ := yields_collect Ascii.isWordByte h
  refine ⟨s₁, ?_, h₁⟩
  rw [word, EStateM.bind_of_ok hs₁]
  rfl

omit [Receiver δ] [Receptive δ] in
theorem atFraction_iff {r : List UInt8} (h : s.view.Shows r) :
    atFraction s = true ↔ AtFraction r := by
  simp only [atFraction, AtFraction, Bool.and_eq_true, beq_iff_eq, bne_iff_ne]
  cases r with
  | nil =>
    rw [show s.view.current = Ascii.nul from h.current_eq]
    constructor
    · intro hat
      exact absurd hat.1 (by decide)
    · intro hat
      obtain ⟨r', hr', -⟩ := hat
      cases hr'
  | cons b r =>
    rw [show s.view.current = b from h.current_eq, ne_eq, h.next_eq_iff]
    constructor
    · intro hat
      obtain ⟨rfl, hnext⟩ := hat
      exact ⟨r, rfl, hnext⟩
    · intro hat
      obtain ⟨r', hr', hnext⟩ := hat
      cases hr'
      exact ⟨rfl, hnext⟩

theorem yields_number {text : List UInt8} (h : s.view.Shows text)
    (hfraction : ¬ AtFraction (text.dropWhile Ascii.isNumberByte)) :
    Yields number s ⟨.integer (text.takeWhile Ascii.isNumberByte),
      text.takeWhile Ascii.isNumberByte, text.dropWhile Ascii.isNumberByte, []⟩ := by
  obtain ⟨s₁, hs₁, h₁⟩ := yields_collect Ascii.isNumberByte h
  have hat : ¬ atFraction s₁ = true := fun hat => hfraction ((atFraction_iff h₁.shows).1 hat)
  refine ⟨s₁, ?_, h₁⟩
  rw [number, EStateM.bind_of_ok hs₁, EStateM.bind_of_ok (a := s₁) (by rfl), if_neg hat]
  rfl

theorem yields_fraction {text r : List UInt8} (h : s.view.Shows text)
    (hr : text.dropWhile Ascii.isNumberByte = Ascii.fullStop :: r)
    (hhead : r.head? ≠ some Ascii.fullStop) :
    Yields number s
      ⟨.float (text.takeWhile Ascii.isNumberByte ++
          Ascii.fullStop :: mantissa (r.takeWhile Ascii.isNumberByte)),
        text.takeWhile Ascii.isNumberByte ++ Ascii.fullStop :: r.takeWhile Ascii.isNumberByte,
        r.dropWhile Ascii.isNumberByte, []⟩ := by
  obtain ⟨s₁, hs₁, h₁⟩ := yields_collect Ascii.isNumberByte h
  rw [hr] at h₁
  have hat : atFraction s₁ = true := (atFraction_iff h₁.shows).2 ⟨r, rfl, hhead⟩
  obtain ⟨s₂, hs₂, h₂⟩ := yields_advance (x := [Ascii.fullStop]) h₁.shows
  obtain ⟨s₃, hs₃, h₃⟩ := yields_collect Ascii.isNumberByte h₂.shows
  refine ⟨s₃, ?_, by simpa using (h₁.trans h₂).trans h₃⟩
  rw [number, EStateM.bind_of_ok hs₁, EStateM.bind_of_ok (a := s₁) (by rfl), if_pos hat]
  refine (EStateM.bind_of_ok hs₂).trans ((EStateM.bind_of_ok hs₃).trans ?_)
  by_cases hempty : r.takeWhile Ascii.isNumberByte = []
  · simp [hempty, mantissa, pure, EStateM.pure]
  · simp [hempty, mantissa, pure, EStateM.pure]

/-! ### Marks -/

/-- Other marks than the slash are found in the tables, as the longest there are. -/
theorem markAt_of_longestAt? {b : UInt8} {r : List UInt8} {m : Punctuation}
    (hb : b ≠ Ascii.slash) (h : Punctuation.longestAt? (b :: r) = some m) :
    markAt b (b :: r) = (.mark m, m.bytes.length) := by
  unfold markAt
  cases htable : OperatorTable.at? b with
  | some table =>
    obtain ⟨n, hresolve, hlongest⟩ := OperatorTable.resolve_of_at? htable r
    rw [h] at hlongest
    simp only [hresolve, Option.some.inj hlongest]
  | none =>
    rw [Punctuation.longestAt?_of_at?_eq_none htable hb] at h
    simp [h, Punctuation.bytes_of_ofByte? h]

theorem markAt_of_longestAt?_eq_none {b : UInt8} {r : List UInt8} (hb : b ≠ Ascii.slash)
    (h : Punctuation.longestAt? (b :: r) = none) : markAt b (b :: r) = (.unknown b, 1) := by
  unfold markAt
  cases htable : OperatorTable.at? b with
  | some table =>
    obtain ⟨n, -, hlongest⟩ := OperatorTable.resolve_of_at? htable r
    rw [h] at hlongest
    cases hlongest
  | none =>
    rw [Punctuation.longestAt?_of_at?_eq_none htable hb] at h
    simp [h]

theorem yields_mark_of_markAt {x rest : List UInt8} {kind : Token.Kind}
    (h : s.view.Shows (x ++ rest))
    (hmark : markAt s.view.current s.view.bytes = (kind, x.length)) :
    Yields mark s ⟨kind, x, rest, []⟩ := by
  obtain ⟨s₁, hs₁, h₁⟩ := yields_advance h
  refine ⟨s₁, ?_, h₁⟩
  rw [mark, EStateM.bind_of_ok (a := s) (by rfl), hmark]
  refine (EStateM.bind_of_ok hs₁).trans ?_
  rfl

theorem yields_mark {m : Punctuation} {rest : List UInt8} (h : s.view.Shows (m.bytes ++ rest))
    (hm : Punctuation.longestAt? (m.bytes ++ rest) = some m)
    (hslash : s.view.current ≠ Ascii.slash) :
    Yields mark s ⟨.mark m, m.bytes, rest, []⟩ :=
  yields_mark_of_markAt h
    (markAt_of_longestAt? hslash ((Punctuation.longestAt?_bytes h).trans hm))

theorem yields_unknown {b : UInt8} {r : List UInt8} (h : s.view.Shows (b :: r))
    (hb : Punctuation.longestAt? (b :: r) = none) (hslash : s.view.current ≠ Ascii.slash) :
    Yields mark s ⟨.unknown b, [b], r, []⟩ := by
  refine yields_mark_of_markAt (x := [b]) h ?_
  have hcurrent : s.view.current = b := h.current_eq
  rw [← hcurrent]
  exact markAt_of_longestAt?_eq_none hslash ((Punctuation.longestAt?_bytes h).trans hb)

theorem yields_slash {r : List UInt8} (h : s.view.Shows (Ascii.slash :: r)) :
    Yields (do advance 1; return Token.Kind.mark .slash) s
      ⟨.mark .slash, [Ascii.slash], r, []⟩ := by
  obtain ⟨s₁, hs₁, h₁⟩ := yields_advance (x := [Ascii.slash]) h
  refine ⟨s₁, ?_, h₁⟩
  refine (EStateM.bind_of_ok hs₁).trans ?_
  rfl

/-! ### What is made of a passage -/

/-- The action makes of the passage the token that the lexeme is, or none. -/
def Makes (act : Scan σ δ (Option Token.Kind)) (s : Scanner σ δ)
    (o : Passage (Option Lexeme)) : Prop :=
  ∃ s', act s = s'.conclude o.value ∧ s.Passes o.passed o.rest o.findings s'

/-- What is no string is entered nowhere. -/
theorem makes_of_yields {act : Scan σ δ Token.Kind} {l : Lexeme} {x r : List UInt8}
    {fs : List Finding} (hact : Yields act s ⟨l.kind s.symbols, x, r, fs⟩)
    (hl : l.contents? = none) : Makes (some <$> act) s ⟨some l, x, r, fs⟩ := by
  obtain ⟨s', hs', h⟩ := hact.map some
  refine ⟨s', ?_, h⟩
  rw [hs', Scanner.conclude_of_contents?_eq_none hl, h.symbols_eq]
  rfl

theorem makes_none {act : Scan σ δ Unit} {x r : List UInt8} {fs : List Finding}
    (hact : Yields act s ⟨(), x, r, fs⟩) :
    Makes (do act; return none) s ⟨none, x, r, fs⟩ := by
  obtain ⟨s', hs', h⟩ := hact
  refine ⟨s', ?_, h⟩
  rw [EStateM.bind_of_ok hs']
  rfl

omit [ByteStream σ] [Receiver δ] [Receptive δ] in
/-- The contents of a string are interned last, if there is room for them. -/
theorem intern_eq_conclude (contents : List UInt8) (s : Scanner σ δ) :
    (some <$> do
      let symbol ← intern contents
      return Token.Kind.string symbol) s = s.conclude (some (.string contents)) := by
  by_cases h : (Lexeme.string contents).Fits s.symbols
  · have hintern : intern contents s = .ok (s.symbols.intern contents).1
        { s with symbols := (s.symbols.intern contents).2 } := by
      rw [intern, SymbolTable.tryIntern_of_admits (Lexeme.fits_string_iff.1 h)]
    rw [Scanner.conclude_of_fits h]
    simp only [Functor.map, EStateM.map, EStateM.bind_of_ok hintern]
    rfl
  · have hintern : intern contents s = .error (.capacity ⟨s.symbols.size⟩) s := by
      rw [intern, SymbolTable.tryIntern_of_not_admits (mt Lexeme.fits_string_iff.2 h)]
    rw [Scanner.conclude_of_not_fits h]
    simp only [Functor.map, EStateM.map, EStateM.bind_of_error hintern]

theorem makes_string (form : Transition Literal) (opening : List UInt8) {r : List UInt8}
    (h : s.view.Shows (opening ++ r)) :
    Makes (some <$> string opening.length form s.view.position) s
      ((quotation form .unterminatedString opening s.view.position r).map
        fun contents => some (.string contents)) := by
  obtain ⟨s', hs', h'⟩ := exists_of_quotation form .unterminatedString opening h
    (fun contents => do
      let symbol ← intern contents
      return Token.Kind.string symbol)
  refine ⟨s', ?_, h'⟩
  have hstring : string opening.length form s.view.position s = _ := hs'
  rw [Passage.value_map, ← intern_eq_conclude]
  simp only [Functor.map, EStateM.map, hstring]

/-- A character literal is read and decoded, and `f` is what is made of its contents. -/
theorem exists_of_character {r x rest contents : List UInt8} {fs : List Finding}
    (h : s.view.Shows (Ascii.singleQuote :: r))
    (ho : quotation (Literal.quoted Ascii.singleQuote) .unterminatedCharacter
      [Ascii.singleQuote] s.view.position r = ⟨contents, x, rest, fs⟩) :
    ∃ (f : List UInt8 → Scan σ δ (Option Token.Kind)) (s' : Scanner σ δ),
      character s.view.position s = f contents s' ∧ s.Passes x rest fs s' ∧
      (f [] = do report .emptyCharacter s.view.position; return none) ∧
      (∀ b, f [b] = return some (.character b)) ∧
      ∀ b c bs, f (b :: c :: bs) = do
        report .overlongCharacter s.view.position
        return some (.character b) := by
  obtain ⟨f, hf, hnil, hone, hmore⟩ : ∃ f : List UInt8 → Scan σ δ (Option Token.Kind),
      (character s.view.position = do
        let raw ← literal 1 (Literal.quoted Ascii.singleQuote) .unterminatedCharacter
        let contents ← decode raw s.view.position
        f contents) ∧
      (f [] = do report .emptyCharacter s.view.position; return none) ∧
      (∀ b, f [b] = return some (.character b)) ∧
      ∀ b c bs, f (b :: c :: bs) = do
        report .overlongCharacter s.view.position
        return some (.character b) :=
    ⟨_, rfl, rfl, fun _ => rfl, fun _ _ _ => rfl⟩
  obtain ⟨s', hs', h'⟩ := exists_of_quotation (Literal.quoted Ascii.singleQuote)
    .unterminatedCharacter [Ascii.singleQuote] h f
  rw [ho] at hs' h'
  refine ⟨f, s', ?_, h', hnil, hone, hmore⟩
  rw [hf]
  exact hs'

theorem makes_emptyCharacter {r x rest : List UInt8} {fs : List Finding}
    (h : s.view.Shows (Ascii.singleQuote :: r))
    (ho : quotation (Literal.quoted Ascii.singleQuote) .unterminatedCharacter
      [Ascii.singleQuote] s.view.position r = ⟨[], x, rest, fs⟩) :
    Makes (character s.view.position) s
      ⟨none, x, rest, fs ++ [⟨.emptyCharacter, s.view.position⟩]⟩ := by
  obtain ⟨f, s₁, hs₁, h₁, hnil, -, -⟩ := exists_of_character h ho
  obtain ⟨s₂, hs₂, h₂⟩ := yields_report .emptyCharacter s.view.position h₁.shows
  refine ⟨s₂, ?_, by simpa using h₁.trans h₂⟩
  rw [hs₁, hnil, EStateM.bind_of_ok hs₂]
  rfl

theorem makes_oneCharacter {b : UInt8} {r x rest : List UInt8} {fs : List Finding}
    (h : s.view.Shows (Ascii.singleQuote :: r))
    (ho : quotation (Literal.quoted Ascii.singleQuote) .unterminatedCharacter
      [Ascii.singleQuote] s.view.position r = ⟨[b], x, rest, fs⟩) :
    Makes (character s.view.position) s ⟨some (.character b), x, rest, fs⟩ := by
  obtain ⟨f, s₁, hs₁, h₁, -, hone, -⟩ := exists_of_character h ho
  refine ⟨s₁, ?_, h₁⟩
  rw [hs₁, hone, Scanner.conclude_of_contents?_eq_none rfl]
  rfl

theorem makes_overlongCharacter {b c : UInt8} {bs r x rest : List UInt8} {fs : List Finding}
    (h : s.view.Shows (Ascii.singleQuote :: r))
    (ho : quotation (Literal.quoted Ascii.singleQuote) .unterminatedCharacter
      [Ascii.singleQuote] s.view.position r = ⟨b :: c :: bs, x, rest, fs⟩) :
    Makes (character s.view.position) s
      ⟨some (.character b), x, rest, fs ++ [⟨.overlongCharacter, s.view.position⟩]⟩ := by
  obtain ⟨f, s₁, hs₁, h₁, -, -, hmore⟩ := exists_of_character h ho
  obtain ⟨s₂, hs₂, h₂⟩ := yields_report .overlongCharacter s.view.position h₁.shows
  refine ⟨s₂, ?_, by simpa using h₁.trans h₂⟩
  rw [hs₁, hmore, EStateM.bind_of_ok hs₂, Scanner.conclude_of_contents?_eq_none rfl]
  rfl

/-! ### One token -/

theorem Makes.of_eq {act act' : Scan σ δ (Option Token.Kind)} {o : Passage (Option Lexeme)}
    (h : Makes act' s o) (heq : act s = act' s) : Makes act s o := by
  obtain ⟨s', hs', h'⟩ := h
  exact ⟨s', heq.trans hs', h'⟩

section

omit [Receptive δ]

theorem lexeme?_eq_dispatch {b : UInt8} {r : List UInt8} (h : s.view.Shows (b :: r)) :
    lexeme? s = dispatch s.view.position b s.view.next s := by
  have hcurrent : s.view.current = b := h.current_eq
  rw [lexeme?, hcurrent]

theorem lexeme?_eq_word {b : UInt8} {r : List UInt8} (h : s.view.Shows (b :: r))
    (hb : Ascii.isWordStart b = true) : lexeme? s = (some <$> word) s := by
  have hbyte := Ascii.isWordByte_of_isWordStart hb
  rw [lexeme?_eq_dispatch h, dispatch, if_neg (Ascii.ne_of_isWordByte hbyte),
    if_neg (Ascii.ne_of_isWordByte hbyte), if_neg (Ascii.ne_of_isWordByte hbyte), if_pos hb]

theorem lexeme?_eq_number {b : UInt8} {r : List UInt8} (h : s.view.Shows (b :: r))
    (hb : Ascii.isDigit b = true) : lexeme? s = (some <$> number) s := by
  have hbyte := Ascii.isWordByte_of_isDigit hb
  have hstart : ¬ Ascii.isWordStart b = true := by
    simp [Ascii.isWordStart_eq_false_of_isDigit hb]
  rw [lexeme?_eq_dispatch h, dispatch, if_neg (Ascii.ne_of_isWordByte hbyte),
    if_neg (Ascii.ne_of_isWordByte hbyte), if_neg (Ascii.ne_of_isWordByte hbyte),
    if_neg hstart, if_pos hb]

theorem lexeme?_eq_mark {b : UInt8} {r : List UInt8} (h : s.view.Shows (b :: r))
    (hdouble : b ≠ Ascii.doubleQuote) (hsingle : b ≠ Ascii.singleQuote)
    (hslash : b ≠ Ascii.slash) (hword : Ascii.isWordByte b = false) :
    lexeme? s = (some <$> mark) s := by
  have hclass := Ascii.eq_false_of_isWordByte_eq_false hword
  rw [lexeme?_eq_dispatch h, dispatch, if_neg hdouble, if_neg hsingle, if_neg hslash,
    if_neg (by simp [hclass.1]), if_neg (by simp [hclass.2])]

theorem lexeme?_eq_character {r : List UInt8} (h : s.view.Shows (Ascii.singleQuote :: r)) :
    lexeme? s = character s.view.position s := by
  rw [lexeme?_eq_dispatch h, dispatch, if_neg (by decide), if_pos rfl]

theorem lexeme?_eq_slash {r : List UInt8} (h : s.view.Shows (Ascii.slash :: r)) :
    lexeme? s = slash s.view.next s := by
  rw [lexeme?_eq_dispatch h, dispatch, if_neg (by decide), if_neg (by decide), if_pos rfl]

theorem lexeme?_eq_blockComment {r : List UInt8}
    (h : s.view.Shows (Ascii.slash :: Ascii.asterisk :: r)) :
    lexeme? s = (do blockComment; return none : Scan σ δ (Option Token.Kind)) s := by
  have hnext : s.view.next = Ascii.asterisk := h.next_eq
  rw [lexeme?_eq_slash h, hnext, slash, if_neg (by decide), if_pos rfl]

/-- A slash that begins no comment is a mark. -/
theorem lexeme?_eq_slashMark {r : List UInt8} (h : s.view.Shows (Ascii.slash :: r))
    (hr : r.head? ≠ some Ascii.slash ∧ r.head? ≠ some Ascii.asterisk) :
    lexeme? s = (some <$> do advance 1; return Token.Kind.mark .slash) s := by
  have hline : ¬ s.view.next = Ascii.slash := fun hn => hr.1 (h.next_eq_iff.1 hn)
  have hblock : ¬ s.view.next = Ascii.asterisk := fun hn => hr.2 (h.next_eq_iff.1 hn)
  rw [lexeme?_eq_slash h, slash, if_neg hline, if_neg hblock]
  simp

end

/-- Reading one token makes of the text what the rules say. -/
theorem makes_lexeme? {text : List UInt8} {o : Passage (Option Lexeme)} (h : s.view.Shows text)
    (ho : Reads s.view.position text o) : Makes lexeme? s o := by
  cases ho with
  | string hbar =>
    refine (makes_string _ [Ascii.doubleQuote] h).of_eq ?_
    have hnext : ¬ s.view.next = Ascii.bar := fun hn => hbar (h.next_eq_iff.1 hn)
    rw [lexeme?_eq_dispatch h, dispatch, if_pos rfl, if_neg hnext]
    rfl
  | multiLine =>
    refine (makes_string _ [Ascii.doubleQuote, Ascii.bar] h).of_eq ?_
    have hnext : s.view.next = Ascii.bar := h.next_eq
    rw [lexeme?_eq_dispatch h, dispatch, if_pos rfl, if_pos hnext]
    rfl
  | emptyCharacter hq => exact (makes_emptyCharacter h hq).of_eq (lexeme?_eq_character h)
  | character hq => exact (makes_oneCharacter h hq).of_eq (lexeme?_eq_character h)
  | overlongCharacter hq => exact (makes_overlongCharacter h hq).of_eq (lexeme?_eq_character h)
  | lineComment =>
    refine (makes_none (yields_lineComment h)).of_eq ?_
    have hnext : s.view.next = Ascii.slash := h.next_eq
    rw [lexeme?_eq_slash h, hnext, slash, if_pos rfl]
  | blockComment hbody =>
    exact (makes_none (yields_closedComment hbody h)).of_eq (lexeme?_eq_blockComment h)
  | openComment hbody =>
    exact (makes_none (yields_openComment hbody h)).of_eq (lexeme?_eq_blockComment h)
  | @word b r hb =>
    have hact := yields_word h
    rw [← Lexeme.kind_ofWord s.symbols] at hact
    exact (makes_of_yields hact (Lexeme.contents?_ofWord _)).of_eq (lexeme?_eq_word h hb)
  | integer hb hfraction =>
    exact (makes_of_yields (yields_number h hfraction) rfl).of_eq (lexeme?_eq_number h hb)
  | float hb hr hhead =>
    exact (makes_of_yields (yields_fraction h hr hhead) rfl).of_eq (lexeme?_eq_number h hb)
  | @mark m rest hm hslash =>
    obtain ⟨b, r, hbytes⟩ := List.exists_cons_of_ne_nil m.bytes_ne_nil
    by_cases hb : b = Ascii.slash
    · obtain rfl : m = .slash := Punctuation.eq_slash_of_mem_head? (by rw [hbytes, hb]; rfl)
      exact (makes_of_yields (yields_slash h) rfl).of_eq (lexeme?_eq_slashMark h (hslash rfl))
    · obtain ⟨-, -, hword, hdouble, hsingle⟩ := m.mem_bytes b (by simp [hbytes])
      have hbegin : s.view.Shows (b :: (r ++ rest)) := by rwa [hbytes] at h
      have hcurrent : s.view.current = b := hbegin.current_eq
      exact (makes_of_yields (yields_mark h hm (hcurrent ▸ hb)) rfl).of_eq
        (lexeme?_eq_mark hbegin hdouble hsingle hb hword)
  | @unknown b r hnone hdouble hsingle hword hblank =>
    have hslash : b ≠ Ascii.slash := by
      rintro rfl
      exact Punctuation.longestAt?_eq_none_iff.1 hnone .slash (List.prefix_append [Ascii.slash] r)
    have hcurrent : s.view.current = b := h.current_eq
    exact (makes_of_yields (yields_unknown h hnone (hcurrent ▸ hslash)) rfl).of_eq
      (lexeme?_eq_mark h hdouble hsingle hslash hword)

end Scan

end CinderFront
