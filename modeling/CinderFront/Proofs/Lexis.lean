import CinderFront.Proofs.Ascii
import CinderFront.Proofs.Literal
import CinderFront.Proofs.Punctuation
import CinderFront.Proofs.SymbolTable
import CinderFront.Scanner.Lexeme

/-!
# The lexical rules

What stands at the beginning of a text, as rules about texts and positions alone: which bytes belong
to it, which token it is, and what is wrong with it. Blanks between tokens are no part of the rules.

* `Lexeme` — what a token stands for, apart from any symbol table;
* `quotation` — a literal with its opening mark;
* `Reads` — the rules, one for each form of tokens and of comments;
* `Reads.passed_append_rest`, `Reads.passed_ne_nil` — a rule passes a beginning of the text, and at
  least one byte;
* `exists_reads` — to every text that does not begin with a blank, some rule applies.
-/

namespace CinderFront

/-! ### Lexemes -/

/-- What a token stands for. String literals stand for their contents. -/
inductive Lexeme
  | mark (mark : Punctuation)
  | unknown (byte : UInt8)
  | keyword (word : Keyword)
  | mode (word : Mode)
  | identifier (text : List UInt8)
  | string (contents : List UInt8)
  | integer (text : List UInt8)
  | float (text : List UInt8)
  | character (byte : UInt8)
  deriving DecidableEq, Repr

namespace Lexeme

/-- The kind of the token, with the symbol that the table gives to a string. -/
def kind (symbols : SymbolTable) : Lexeme → Token.Kind
  | mark m => .mark m
  | unknown b => .unknown b
  | keyword k => .keyword k
  | mode m => .mode m
  | identifier text => .identifier text
  | string contents => .string (symbols.intern contents).1
  | integer text => .integer text
  | float text => .float text
  | character b => .character b

theorem kind_ne_endOfFile (symbols : SymbolTable) (l : Lexeme) : l.kind symbols ≠ .endOfFile := by
  cases l <;> simp [kind]

/-- The table with the contents of the lexeme, if it is a string. -/
def enter (symbols : SymbolTable) : Lexeme → SymbolTable
  | string contents => (symbols.intern contents).2
  | _ => symbols

/-- The lexeme that a word is. -/
def ofWord (word : List UInt8) : Lexeme :=
  match Mode.ofBytes? word with
  | some m => mode m
  | none =>
    match Keyword.ofBytes? word with
    | some k => keyword k
    | none => identifier word

theorem kind_ofWord (symbols : SymbolTable) (word : List UInt8) :
    (ofWord word).kind symbols = Scan.classify word := by
  unfold ofWord Scan.classify
  cases Mode.ofBytes? word with
  | some m => rfl
  | none => cases Keyword.ofBytes? word <;> rfl

/-- The contents of a string literal, if the lexeme is one. -/
def contents? : Lexeme → Option (List UInt8)
  | string contents => some contents
  | _ => none

theorem contents?_ofWord (word : List UInt8) : (ofWord word).contents? = none := by
  unfold ofWord
  cases Mode.ofBytes? word with
  | some m => rfl
  | none => cases Keyword.ofBytes? word <;> rfl

theorem enter_of_contents?_eq_none (symbols : SymbolTable) {l : Lexeme}
    (h : l.contents? = none) : l.enter symbols = symbols := by
  cases l with
  | string contents => cases h
  | _ => rfl

theorem size_le_enter (symbols : SymbolTable) (l : Lexeme) :
    symbols.size ≤ (l.enter symbols).size := by
  cases l with
  | string contents => exact symbols.size_le_intern contents
  | _ => exact Nat.le_refl _

theorem size_enter_le (symbols : SymbolTable) (l : Lexeme) :
    (l.enter symbols).size ≤ symbols.size + 1 := by
  cases l with
  | string contents => exact symbols.size_intern_le contents
  | _ => exact Nat.le_succ _

/-- There is room in the table for the contents of the lexeme, if it is a string. -/
def Fits (symbols : SymbolTable) (l : Lexeme) : Prop :=
  ∀ contents ∈ l.contents?, symbols.Admits contents

instance (symbols : SymbolTable) (l : Lexeme) : Decidable (l.Fits symbols) :=
  inferInstanceAs (Decidable (∀ contents ∈ l.contents?, symbols.Admits contents))

theorem fits_string_iff {symbols : SymbolTable} {contents : List UInt8} :
    (string contents).Fits symbols ↔ symbols.Admits contents := by
  simp [Fits, contents?]

theorem fits_of_contents?_eq_none (symbols : SymbolTable) {l : Lexeme}
    (h : l.contents? = none) : l.Fits symbols := by
  simp [Fits, h]

/-- A lexeme for which there is room is entered only if that makes no more strings than there are
numbers. -/
theorem fits_iff {symbols : SymbolTable} (h : symbols.size ≤ UInt32.size) {l : Lexeme} :
    l.Fits symbols ↔ (l.enter symbols).size ≤ UInt32.size := by
  cases l with
  | string contents => exact fits_string_iff.trans (SymbolTable.admits_iff h)
  | _ => exact iff_of_true (fits_of_contents?_eq_none symbols rfl) h

/-- Where there is no room for a lexeme, all numbers are taken. -/
theorem maxIndex_lt_of_not_fits {symbols : SymbolTable} {l : Lexeme} (h : ¬ l.Fits symbols) :
    SymbolTable.maxIndex < symbols.size := by
  by_contra hsize
  exact h fun contents _ => .inl (Nat.le_of_not_lt hsize)

end Lexeme

/-! ### Literals -/

/-- A literal that opens with `opening` at `p`, before the text `r`. -/
def quotation (form : Transition Literal) (unterminated : LexicalError) (opening : List UInt8)
    (p : Position) (r : List UInt8) : Passage (List UInt8) :=
  let o := form.run {} (p.after opening) r
  ⟨o.value.raw.contents, opening ++ o.passed, o.rest,
    o.findings ++
      (if o.value.isClosed then [] else [⟨unterminated, p.after (opening ++ o.passed)⟩]) ++
      o.value.raw.faults p⟩

theorem quotation_append_rest (form : Transition Literal) (unterminated : LexicalError)
    (opening : List UInt8) (p : Position) (r : List UInt8) :
    (quotation form unterminated opening p r).passed ++
      (quotation form unterminated opening p r).rest = opening ++ r := by
  simp only [quotation]
  rw [List.append_assoc, Transition.passed_append_rest]

/-- A quoted literal that stands for nothing is its two quotes, or its opening one at the end of the
text. -/
theorem quotation_nil {quote : UInt8} (hq : quote ≠ Ascii.lineFeed) {unterminated : LexicalError}
    {p : Position} {r x rest : List UInt8} {fs : List Finding}
    (h : quotation (Literal.quoted quote) unterminated [quote] p r = ⟨[], x, rest, fs⟩) :
    x = [quote, quote] ∨ x = [quote] ∧ rest = [] := by
  obtain ⟨hcontents, rfl, rfl, -⟩ := Passage.mk.inj h
  have hraw : ((Literal.quoted quote).run {} (p.after [quote]) r).value.raw.bytes.toList = [] := by
    by_contra hne
    exact Escape.decode_bytes_ne_nil hne hcontents
  have hverbatim := Literal.verbatim_quoted hq r {} .content (p.after [quote]) (by decide)
  rw [Literal.Verbatim, hraw] at hverbatim
  generalize hrun : (Literal.quoted quote).run {} (p.after [quote]) r = o at hverbatim ⊢
  cases hclosed : o.value.isClosed with
  | true =>
    left
    simpa [hclosed] using hverbatim
  | false =>
    right
    refine ⟨by simpa [hclosed] using hverbatim, ?_⟩
    rw [← hrun] at hclosed ⊢
    exact (Literal.form_quoted hq).rest_eq_nil hclosed

/-- A quoted literal whose contents were encoded is read as those contents, with nothing wrong in
it. -/
theorem quotation_encode {quote : UInt8}
    (hq : quote = Ascii.doubleQuote ∨ quote = Ascii.singleQuote) (unterminated : LexicalError)
    (p : Position) (bytes rest : List UInt8) :
    quotation (Literal.quoted quote) unterminated [quote] p
        (Escape.encode bytes ++ quote :: rest) =
      ⟨bytes, quote :: (Escape.encode bytes ++ [quote]), rest, []⟩ := by
  have hlineFeed : quote ≠ Ascii.lineFeed := by rcases hq with rfl | rfl <;> decide
  obtain ⟨hpassed, hclosed⟩ :=
    Literal.run_quoted_encode hq bytes rest {} (p.after [quote])
  have hrest := Transition.passed_append_rest (Literal.quoted quote) {} (p.after [quote])
    (Escape.encode bytes ++ quote :: rest)
  have hverbatim := Literal.verbatim_quoted hlineFeed (Escape.encode bytes ++ quote :: rest) {}
    .content (p.after [quote]) (by decide)
  have hfindings := Literal.findings_quoted quote {} (p.after [quote])
    (Escape.encode bytes ++ quote :: rest)
  simp only [quotation]
  generalize (Literal.quoted quote).run {} (p.after [quote])
    (Escape.encode bytes ++ quote :: rest) = o at *
  have hraw : o.value.raw.bytes.toList = Escape.encode bytes := by
    rw [Literal.Verbatim, hclosed, hpassed] at hverbatim
    simpa using hverbatim.symm
  have hrest' : o.rest = rest := by
    rw [hpassed] at hrest
    simpa using hrest
  have hdecoded : Escape.decode o.value.raw.bytes.toList = ⟨bytes.toArray, #[]⟩ := by
    rw [hraw, Escape.decode_encode]
  rw [hfindings, hpassed, hclosed, hrest']
  simp [LiteralText.contents, LiteralText.faults, hdecoded]

/-! ### The rules -/

/-- A number goes on after its integral part: a full stop follows that does not begin a range. -/
def AtFraction (r : List UInt8) : Prop :=
  ∃ r', r = Ascii.fullStop :: r' ∧ r'.head? ≠ some Ascii.fullStop

/-- The digits of a fraction, of which there is at least one. -/
def mantissa (digits : List UInt8) : List UInt8 := if digits = [] then [Ascii.zero] else digits

/-- `Reads p text o`: at the beginning of `text`, which is at `p`, stands what `o` says. -/
inductive Reads (p : Position) : List UInt8 → Passage (Option Lexeme) → Prop
  | string {r : List UInt8} : r.head? ≠ some Ascii.bar →
      Reads p (Ascii.doubleQuote :: r)
        ((quotation (Literal.quoted Ascii.doubleQuote) .unterminatedString [Ascii.doubleQuote]
          p r).map fun contents => some (.string contents))
  | multiLine {r : List UInt8} :
      Reads p (Ascii.doubleQuote :: Ascii.bar :: r)
        ((quotation Literal.multiLine .unterminatedString [Ascii.doubleQuote, Ascii.bar]
          p r).map fun contents => some (.string contents))
  | emptyCharacter {r x rest : List UInt8} {fs : List Finding} :
      quotation (Literal.quoted Ascii.singleQuote) .unterminatedCharacter [Ascii.singleQuote] p r =
        ⟨[], x, rest, fs⟩ →
      Reads p (Ascii.singleQuote :: r) ⟨none, x, rest, fs ++ [⟨.emptyCharacter, p⟩]⟩
  | character {b : UInt8} {r x rest : List UInt8} {fs : List Finding} :
      quotation (Literal.quoted Ascii.singleQuote) .unterminatedCharacter [Ascii.singleQuote] p r =
        ⟨[b], x, rest, fs⟩ →
      Reads p (Ascii.singleQuote :: r) ⟨some (.character b), x, rest, fs⟩
  | overlongCharacter {b c : UInt8} {bs r x rest : List UInt8} {fs : List Finding} :
      quotation (Literal.quoted Ascii.singleQuote) .unterminatedCharacter [Ascii.singleQuote] p r =
        ⟨b :: c :: bs, x, rest, fs⟩ →
      Reads p (Ascii.singleQuote :: r)
        ⟨some (.character b), x, rest, fs ++ [⟨.overlongCharacter, p⟩]⟩
  | lineComment {r : List UInt8} :
      Reads p (Ascii.slash :: Ascii.slash :: r)
        ⟨none, Ascii.slash :: Ascii.slash :: r.takeWhile (· != Ascii.lineFeed),
          r.dropWhile (· != Ascii.lineFeed), []⟩
  | blockComment {body rest : List UInt8} : ¬ Comment.endMark <:+: body →
      Reads p (Ascii.slash :: Ascii.asterisk :: (body ++ Comment.endMark ++ rest))
        ⟨none, Ascii.slash :: Ascii.asterisk :: (body ++ Comment.endMark), rest, []⟩
  | openComment {body : List UInt8} : ¬ Comment.endMark <:+: body →
      Reads p (Ascii.slash :: Ascii.asterisk :: body)
        ⟨none, Ascii.slash :: Ascii.asterisk :: body, [],
          [⟨.unterminatedComment, p.after (Ascii.slash :: Ascii.asterisk :: body)⟩]⟩
  | word {b : UInt8} {r : List UInt8} : Ascii.isWordStart b = true →
      Reads p (b :: r)
        ⟨some (.ofWord ((b :: r).takeWhile Ascii.isWordByte)),
          (b :: r).takeWhile Ascii.isWordByte, (b :: r).dropWhile Ascii.isWordByte, []⟩
  | integer {b : UInt8} {r : List UInt8} : Ascii.isDigit b = true →
      ¬ AtFraction ((b :: r).dropWhile Ascii.isNumberByte) →
      Reads p (b :: r)
        ⟨some (.integer ((b :: r).takeWhile Ascii.isNumberByte)),
          (b :: r).takeWhile Ascii.isNumberByte, (b :: r).dropWhile Ascii.isNumberByte, []⟩
  | float {b : UInt8} {r r' : List UInt8} : Ascii.isDigit b = true →
      (b :: r).dropWhile Ascii.isNumberByte = Ascii.fullStop :: r' →
      r'.head? ≠ some Ascii.fullStop →
      Reads p (b :: r)
        ⟨some (.float ((b :: r).takeWhile Ascii.isNumberByte ++
            Ascii.fullStop :: mantissa (r'.takeWhile Ascii.isNumberByte))),
          (b :: r).takeWhile Ascii.isNumberByte ++
            Ascii.fullStop :: r'.takeWhile Ascii.isNumberByte,
          r'.dropWhile Ascii.isNumberByte, []⟩
  | mark {m : Punctuation} {rest : List UInt8} :
      Punctuation.longestAt? (m.bytes ++ rest) = some m →
      (m = .slash → rest.head? ≠ some Ascii.slash ∧ rest.head? ≠ some Ascii.asterisk) →
      Reads p (m.bytes ++ rest) ⟨some (.mark m), m.bytes, rest, []⟩
  | unknown {b : UInt8} {r : List UInt8} : Punctuation.longestAt? (b :: r) = none →
      b ≠ Ascii.doubleQuote → b ≠ Ascii.singleQuote → Ascii.isWordByte b = false →
      Ascii.isBlank b = false →
      Reads p (b :: r) ⟨some (.unknown b), [b], r, []⟩

namespace Reads

variable {p : Position} {text : List UInt8} {o : Passage (Option Lexeme)}

/-- A rule passes a beginning of the text. -/
theorem passed_append_rest (h : Reads p text o) : o.passed ++ o.rest = text := by
  cases h with
  | string _ =>
    rw [Passage.passed_map, Passage.rest_map, quotation_append_rest]
    rfl
  | multiLine =>
    rw [Passage.passed_map, Passage.rest_map, quotation_append_rest]
    rfl
  | @emptyCharacter r _ _ _ ho | @character _ r _ _ _ ho | @overlongCharacter _ _ _ r _ _ _ ho =>
    have h := quotation_append_rest (Literal.quoted Ascii.singleQuote) .unterminatedCharacter
      [Ascii.singleQuote] p r
    rw [ho] at h
    exact h
  | lineComment => simp
  | blockComment _ => simp
  | openComment _ => simp
  | word _ => exact List.takeWhile_append_dropWhile
  | integer _ _ => exact List.takeWhile_append_dropWhile
  | @float b r r' _ hr' _ =>
    have hsplit : r'.takeWhile Ascii.isNumberByte ++ r'.dropWhile Ascii.isNumberByte = r' :=
      List.takeWhile_append_dropWhile
    simp only [List.append_assoc, List.cons_append, hsplit]
    rw [← hr']
    exact List.takeWhile_append_dropWhile
  | mark _ _ => rfl
  | unknown _ _ _ _ _ => rfl

/-- A rule passes at least one byte. -/
theorem passed_ne_nil (h : Reads p text o) : o.passed ≠ [] := by
  cases h with
  | string _ => simp [Passage.map, quotation]
  | multiLine => simp [Passage.map, quotation]
  | emptyCharacter ho | character ho | overlongCharacter ho =>
    have hx := congrArg Passage.passed ho
    simp only [quotation] at hx
    simp [← hx]
  | lineComment => simp
  | blockComment _ => simp
  | openComment _ => simp
  | word hb => simp [Ascii.isWordByte_of_isWordStart hb]
  | integer hb _ => simp [Ascii.isNumberByte_of_isDigit hb]
  | float hb _ _ => simp
  | mark _ _ => exact Punctuation.bytes_ne_nil _
  | unknown _ _ _ _ _ => simp

end Reads

/-! ### Every text is read -/

theorem exists_reads_number {b : UInt8} {r : List UInt8} (p : Position)
    (hb : Ascii.isDigit b = true) : ∃ o, Reads p (b :: r) o := by
  by_cases h : AtFraction ((b :: r).dropWhile Ascii.isNumberByte)
  · obtain ⟨r', hr', hhead⟩ := h
    exact ⟨_, .float hb hr' hhead⟩
  · exact ⟨_, .integer hb h⟩

theorem exists_reads_character (p : Position) (r : List UInt8) :
    ∃ o, Reads p (Ascii.singleQuote :: r) o := by
  rcases ho : quotation (Literal.quoted Ascii.singleQuote) .unterminatedCharacter
    [Ascii.singleQuote] p r with ⟨_ | ⟨b, _ | ⟨c, bs⟩⟩, x, rest, fs⟩
  · exact ⟨_, .emptyCharacter ho⟩
  · exact ⟨_, .character ho⟩
  · exact ⟨_, .overlongCharacter ho⟩

theorem exists_reads_blockComment (p : Position) (r : List UInt8) :
    ∃ o, Reads p (Ascii.slash :: Ascii.asterisk :: r) o := by
  rcases Comment.exists_first_endMark r with h | ⟨body, rest, rfl, h⟩
  · exact ⟨_, .openComment h⟩
  · exact ⟨_, .blockComment h⟩

/-- To every text that does not begin with a blank, some rule applies. -/
theorem exists_reads {b : UInt8} (r : List UInt8) (p : Position)
    (hblank : Ascii.isBlank b = false) : ∃ o, Reads p (b :: r) o := by
  by_cases hdouble : b = Ascii.doubleQuote
  · subst hdouble
    by_cases hbar : r.head? = some Ascii.bar
    · obtain ⟨r', rfl⟩ : ∃ r', r = Ascii.bar :: r' := by
        cases r with
        | nil => cases hbar
        | cons c r => exact ⟨r, by rw [Option.some.inj hbar]⟩
      exact ⟨_, .multiLine⟩
    · exact ⟨_, .string hbar⟩
  by_cases hsingle : b = Ascii.singleQuote
  · subst hsingle
    exact exists_reads_character p r
  by_cases hword : Ascii.isWordStart b = true
  · exact ⟨_, .word hword⟩
  by_cases hdigit : Ascii.isDigit b = true
  · exact exists_reads_number p hdigit
  have hbyte : Ascii.isWordByte b = false := by
    rw [← Bool.not_eq_true, Ascii.isWordByte_iff]
    exact fun h => h.elim hword hdigit
  cases hmark : Punctuation.longestAt? (b :: r) with
  | none => exact ⟨_, .unknown hmark hdouble hsingle hbyte hblank⟩
  | some m =>
    obtain ⟨rest, hrest⟩ := (Punctuation.longestAt?_eq_some_iff.1 hmark).1
    by_cases hslash : m = .slash ∧
        (rest.head? = some Ascii.slash ∨ rest.head? = some Ascii.asterisk)
    · -- What looks like a slash begins a comment.
      obtain ⟨rfl, hhead⟩ := hslash
      cases rest with
      | nil => simp at hhead
      | cons c rest =>
        obtain ⟨rfl, rfl⟩ : Ascii.slash = b ∧ c :: rest = r := List.cons.inj hrest
        rcases hhead with hc | hc
        · rw [Option.some.inj hc]
          exact ⟨_, .lineComment⟩
        · rw [Option.some.inj hc]
          exact exists_reads_blockComment p rest
    · rw [← hrest] at hmark ⊢
      refine ⟨_, .mark hmark fun hm => ?_⟩
      exact ⟨fun h => hslash ⟨hm, .inl h⟩, fun h => hslash ⟨hm, .inr h⟩⟩

end CinderFront
