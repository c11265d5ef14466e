import CinderFront.Proofs.Decoding
import CinderFront.Proofs.Description
import CinderFront.Proofs.Payload

/-!
# Listings

A listing has a line for each token, and no line is ever broken by what a token carries: names and
numbers have no line break in them, and in literals it is escaped. From the listing of a source that
is ASCII the tokens can be told again, since all its literals have ASCII contents.

* `Lexes.exists_reads` — whatever came of a text was read somewhere in it;
* `Reads.hasAsciiContents` — literals in ASCII text have ASCII contents;
* `Position.text_injective`, `Token.matches_of_line_eq` — what one line tells;
* `forall₂_matches_of_listing_eq` — what a whole listing tells;
* `scan_listing` — listings of scans.
-/

namespace CinderFront

/-! ### Where lexemes come from -/

/-- Whatever came of a text was read somewhere in it. -/
theorem Lexes.exists_reads {p : Position} {text : List UInt8} {items : List Item}
    {fs : List Finding} (h : Lexes p text items fs) {item : Item} (hitem : item ∈ items) :
    ∃ before x rest gs, text = before ++ (x ++ rest) ∧
      Reads item.position (x ++ rest) ⟨some item.lexeme, x, rest, gs⟩ := by
  induction h with
  | finish _ => cases hitem
  | @token p gap x rest l items fs gs _ ho _ ih =>
    rcases List.mem_cons.1 hitem with rfl | hitem
    · exact ⟨gap, x, rest, fs, rfl, ho⟩
    · obtain ⟨before, y, rest', gs', rfl, hreads⟩ := ih hitem
      exact ⟨gap ++ (x ++ before), y, rest', gs', by simp, hreads⟩
  | @skip p gap x rest items fs gs _ _ _ ih =>
    obtain ⟨before, y, rest', gs', rfl, hreads⟩ := ih hitem
    exact ⟨gap ++ (x ++ before), y, rest', gs', by simp, hreads⟩

/-! ### ASCII contents -/

/-- The bytes of a raw literal are bytes of the text that it was read off. -/
theorem LiteralText.Collects.mem_of_mem {p : Position} {o : Nat} {x bytes : List UInt8}
    {escapes : List (Nat × Position)} (h : Collects p o x bytes escapes) :
    ∀ b ∈ bytes, b ∈ x := by
  induction h with
  | nil => exact fun b hb => hb
  | byte _ _ ih =>
    intro c hc
    rcases List.mem_cons.1 hc with rfl | hc
    · exact List.mem_cons_self
    · exact List.mem_cons_of_mem _ (ih c hc)
  | skip _ ih => exact fun c hc => List.mem_cons_of_mem _ (ih c hc)
  | pair _ ih =>
    intro d hd
    rcases List.mem_cons.1 hd with rfl | hd
    · exact List.mem_cons_self
    · rcases List.mem_cons.1 hd with rfl | hd
      · exact List.mem_cons_of_mem _ List.mem_cons_self
      · exact List.mem_cons_of_mem _ (List.mem_cons_of_mem _ (ih d hd))
  | lone => exact fun b hb => hb

namespace Escape

/-- A piece stands for its own bytes, or for one that the table has. -/
theorem Piece.mem_bytes_or_lt {p : Piece} {b : UInt8} (h : b ∈ p.contents) :
    b ∈ p.bytes ∨ b < 0x80 := by
  cases p with
  | single c => exact .inl h
  | pair letter =>
    cases hletter : byteOf? letter with
    | some c =>
      obtain ⟨entry, hfind, rfl⟩ := Option.map_eq_some_iff.1 hletter
      obtain rfl : b = entry.2 := by simpa [contents, hletter] using h
      exact .inr (lt_of_mem_table (List.mem_of_find?_eq_some hfind)).2
    | none => exact .inl (by simpa [contents, bytes, hletter] using h)

/-- What is decoded of ASCII bytes is ASCII. -/
theorem lt_of_mem_decode {raw : List UInt8} (h : ∀ b ∈ raw, b < 0x80) :
    ∀ b ∈ (decode raw).bytes.toList, b < 0x80 := by
  intro b hb
  rw [decode_eq_pieces] at hb
  obtain ⟨p, hp, hb⟩ := List.mem_flatMap.1 hb
  rcases p.mem_bytes_or_lt hb with hb | hb
  · apply h
    rw [← flatMap_bytes_pieces raw]
    exact List.mem_flatMap.2 ⟨p, hp, hb⟩
  · exact hb

end Escape

theorem lt_of_mem_quotation {form : Transition Literal} {quote : UInt8}
    (hform : Literal.Form form quote) (unterminated : LexicalError) (opening : List UInt8)
    (p : Position) {r : List UInt8} (hr : ∀ b ∈ r, b < 0x80) :
    ∀ b ∈ (quotation form unterminated opening p r).value, b < 0x80 := by
  apply Escape.lt_of_mem_decode
  intro b hb
  have hpassed := (hform.collects (p.after opening) r).mem_of_mem b hb
  have hsplit := form.passed_append_rest {} (p.after opening) r
  apply hr
  rw [← hsplit]
  exact List.mem_append_left _ hpassed

/-- Literals in ASCII text have ASCII contents. -/
theorem Reads.hasAsciiContents {p : Position} {text x rest : List UInt8} {l : Lexeme}
    {fs : List Finding} (h : Reads p text ⟨some l, x, rest, fs⟩) (htext : ∀ b ∈ text, b < 0x80) :
    l.HasAsciiContents := by
  generalize ho : (⟨some l, x, rest, fs⟩ : Passage (Option Lexeme)) = o at h
  have hquoted : ∀ {quote : UInt8} {r : List UInt8} (e : LexicalError), quote ≠ Ascii.lineFeed →
      text = quote :: r →
      ∀ b ∈ (quotation (Literal.quoted quote) e [quote] p r).value, b < 0x80 := by
    intro quote r e hquote heq
    apply lt_of_mem_quotation (Literal.form_quoted hquote)
    intro b hb
    exact htext b (heq ▸ List.mem_cons_of_mem _ hb)
  cases h with
  | string _ =>
    obtain ⟨hl, -⟩ := Passage.mk.inj ho
    cases hl
    exact hquoted _ (by decide) rfl
  | multiLine =>
    obtain ⟨hl, -⟩ := Passage.mk.inj ho
    cases hl
    apply lt_of_mem_quotation Literal.form_multiLine
    intro b hb
    exact htext b (List.mem_cons_of_mem _ (List.mem_cons_of_mem _ hb))
  | character hc | overlongCharacter hc =>
    cases ho
    have hcontents := hquoted .unterminatedCharacter (by decide) rfl
    rw [hc] at hcontents
    exact hcontents _ List.mem_cons_self
  | @word b r hb =>
    cases ho
    unfold Lexeme.ofWord
    split
    · trivial
    · split <;> trivial
  | integer _ _ | float _ _ _ | mark _ _ | unknown _ _ _ _ _ =>
    cases ho
    trivial
  | emptyCharacter _ | lineComment | blockComment _ | openComment _ => cases ho

/-! ### Tokens -/

/-- A property of every lexeme that is read in a text is one of every token that comes of it. -/
theorem Lexes.standsFor_of_mem_tokens {property : Lexeme → Prop} {p : Position}
    {text : List UInt8} {items : List Item} {fs : List Finding} (h : Lexes p text items fs)
    (hread : ∀ {q before x rest gs l}, text = before ++ (x ++ rest) →
      Reads q (x ++ rest) ⟨some l, x, rest, gs⟩ → property l) (sourceName : String) :
    ∀ token ∈ tokens sourceName .new items,
      token.kind.StandsFor property (symbols .new items) := by
  intro token htoken
  have hlexeme : token.kind.lexeme? (symbols .new items) ∈ (items.map Item.lexeme).map some := by
    rw [← map_lexeme?_tokens sourceName SymbolTable.consistent_new]
    exact List.mem_map.2 ⟨token, htoken, rfl⟩
  obtain ⟨l, hl, heq⟩ := List.mem_map.1 hlexeme
  obtain ⟨item, hitem, rfl⟩ := List.mem_map.1 hl
  obtain ⟨before, x, rest, gs, htext, ho⟩ := h.exists_reads hitem
  exact .inr ⟨item.lexeme, heq.symm, hread htext ho⟩

/-! ### Lines -/

/-- Texts that are the same fall into the same parts at their first separators. -/
theorem append_cons_inj {α : Type} [DecidableEq α] {a : α} {x x' y y' : List α} (hx : a ∉ x)
    (hx' : a ∉ x') (h : x ++ a :: y = x' ++ a :: y') : x = x' ∧ y = y' := by
  have htake : ∀ {z r : List α}, a ∉ z → (z ++ a :: r).takeWhile (· ≠ a) = z := by
    intro z r hz
    rw [List.takeWhile_append_of_pos, List.takeWhile_cons_of_neg (by simp), List.append_nil]
    intro c hc
    exact decide_eq_true fun heq => hz (heq ▸ hc)
  have hparts : x = x' := by rw [← htake hx, h, htake hx']
  subst hparts
  exact ⟨rfl, (List.cons.inj (List.append_cancel_left h)).2⟩

namespace Position

theorem isDigit_of_mem_toString {n : Nat} {c : Char} (h : c ∈ (toString n).toList) :
    c.isDigit = true := by
  rw [Nat.toString_eq_repr, Nat.toList_repr] at h
  exact Nat.isDigit_of_mem_toDigits (by decide) (by decide) h

/-- A number can be told from its digits. -/
theorem eq_of_toList_toString_eq {m n : Nat} (h : (toString m).toList = (toString n).toList) :
    m = n := by
  rw [Nat.toString_eq_repr, Nat.toString_eq_repr, Nat.toList_repr, Nat.toList_repr] at h
  calc m = Nat.ofDigitChars 10 (Nat.toDigits 10 m) 0 := Nat.ofDigitChars_ten_toDigits.symm
    _ = Nat.ofDigitChars 10 (Nat.toDigits 10 n) 0 := by rw [h]
    _ = n := Nat.ofDigitChars_ten_toDigits

theorem not_mem_toString {c : Char} (n : Nat) (hc : c.isDigit = false := by decide) :
    c ∉ (toString n).toList := by
  intro h
  rw [isDigit_of_mem_toString h] at hc
  cases hc

theorem toList_text (p : Position) :
    p.text.toList = (toString p.line).toList ++ ':' :: (toString p.column).toList := by
  unfold text
  simp only [String.toList_append, List.append_assoc]
  rfl

/-- A position in a listing has only digits and one colon. -/
theorem not_mem_text {c : Char} (p : Position) (hc : c.isDigit = false := by decide)
    (hcolon : c ≠ ':' := by decide) : c ∉ p.text.toList := by
  rw [toList_text, List.mem_append, List.mem_cons]
  rintro (h | h | h)
  · exact not_mem_toString p.line hc h
  · exact hcolon h
  · exact not_mem_toString p.column hc h

/-- The line and the column can be told from the text of a position. -/
theorem text_injective {p q : Position} (h : p.text = q.text) : p = q := by
  have hlists := congrArg String.toList h
  rw [toList_text, toList_text] at hlists
  obtain ⟨hline, hcolumn⟩ :=
    append_cons_inj (not_mem_toString p.line) (not_mem_toString q.line) hlists
  cases p
  cases q
  exact congrArg₂ Position.mk (eq_of_toList_toString_eq hline) (eq_of_toList_toString_eq hcolumn)

end Position

namespace Token

/-- A line of a listing, without the line break that ends it. -/
def line (symbols : SymbolTable) (token : Token) : String :=
  token.position.text ++ " " ++ token.kind.describe symbols

theorem toList_line (symbols : SymbolTable) (token : Token) :
    (token.line symbols).toList =
      token.position.text.toList ++ ' ' :: (token.kind.describe symbols).toList := by
  unfold line
  simp only [String.toList_append, List.append_assoc]
  rfl

/-- The tokens are at the same position, and alike. -/
structure Matches (symbols symbols' : SymbolTable) (token token' : Token) : Prop where
  position_eq : token.position = token'.position
  alike : token.kind.Alike symbols symbols' token'.kind

variable {symbols symbols' : SymbolTable} {token token' : Token}

theorem lineBreak_not_mem_line (h : token.kind.StandsFor Lexeme.WellFormed symbols) :
    '\n' ∉ (token.line symbols).toList := by
  rw [toList_line, List.mem_append, List.mem_cons]
  rintro (hmem | hmem | hmem)
  · exact token.position.not_mem_text (by decide) (by decide) hmem
  · exact absurd hmem (by decide)
  · exact Kind.lineBreak_not_mem_describe h hmem

/-- A line tells its token, as long as the contents of literals are ASCII. -/
theorem matches_of_line_eq (h : token.kind.StandsFor Lexeme.Readable symbols)
    (h' : token'.kind.StandsFor Lexeme.Readable symbols')
    (heq : token.line symbols = token'.line symbols') : Matches symbols symbols' token token' := by
  have hlists := congrArg String.toList heq
  rw [toList_line, toList_line] at hlists
  obtain ⟨hposition, hdescribe⟩ :=
    append_cons_inj token.position.not_mem_text token'.position.not_mem_text hlists
  exact ⟨Position.text_injective (String.toList_inj.1 hposition),
    Kind.alike_of_describe_eq h h' (String.toList_inj.1 hdescribe)⟩

end Token

/-! ### Whole listings -/

section

variable {symbols symbols' : SymbolTable}

theorem toList_listing_cons (symbols : SymbolTable) (token : Token) (tokens : List Token) :
    (listing symbols (token :: tokens)).toList =
      (token.line symbols).toList ++ '\n' :: (listing symbols tokens).toList := by
  unfold listing
  rw [String.toList_join, String.toList_join, List.map_cons, List.flatMap_cons]
  show (token.line symbols ++ "\n").toList ++ _ = _
  rw [String.toList_append, List.append_assoc]
  rfl

/-- A listing has as many line breaks as there are tokens. -/
theorem count_lineBreak_listing {tokens : List Token}
    (h : ∀ token ∈ tokens, token.kind.StandsFor Lexeme.WellFormed symbols) :
    (listing symbols tokens).toList.count '\n' = tokens.length := by
  induction tokens with
  | nil => rfl
  | cons token tokens ih =>
    obtain ⟨htoken, htokens⟩ := List.forall_mem_cons.1 h
    have hline := List.count_eq_zero.2 (Token.lineBreak_not_mem_line htoken)
    rw [toList_listing_cons, List.count_append, hline, List.count_cons_self, ih htokens,
      List.length_cons, Nat.zero_add]

/-- A listing tells its tokens, as long as the contents of literals are ASCII. -/
theorem forall₂_matches_of_listing_eq {tokens tokens' : List Token}
    (h : ∀ token ∈ tokens, token.kind.StandsFor Lexeme.Readable symbols)
    (h' : ∀ token ∈ tokens', token.kind.StandsFor Lexeme.Readable symbols')
    (heq : listing symbols tokens = listing symbols' tokens') :
    List.Forall₂ (Token.Matches symbols symbols') tokens tokens' := by
  have hlists := congrArg String.toList heq
  clear heq
  induction tokens generalizing tokens' with
  | nil =>
    cases tokens' with
    | nil => exact .nil
    | cons token' tokens' =>
      rw [toList_listing_cons] at hlists
      exact absurd hlists.symm (by simp [listing])
  | cons token tokens ih =>
    obtain ⟨htoken, htokens⟩ := List.forall_mem_cons.1 h
    cases tokens' with
    | nil =>
      rw [toList_listing_cons] at hlists
      exact absurd hlists (by simp [listing])
    | cons token' tokens' =>
      obtain ⟨htoken', htokens'⟩ := List.forall_mem_cons.1 h'
      rw [toList_listing_cons, toList_listing_cons] at hlists
      -- Neither line has a break in it, so the first breaks are those that end them.
      obtain ⟨hline, hrest⟩ := append_cons_inj
        (Token.lineBreak_not_mem_line (htoken.imp Lexeme.Readable.wellFormed))
        (Token.lineBreak_not_mem_line (htoken'.imp Lexeme.Readable.wellFormed)) hlists
      exact .cons (Token.matches_of_line_eq htoken htoken' (String.toList_inj.1 hline))
        (ih htokens htokens' hrest)

end

/-! ### Scans -/

/-- The tokens of a scan stand for well-formed lexemes, and for lexemes with ASCII contents if the
source is ASCII. -/
theorem exists_scan_standsFor {source : List UInt8} (hfew : FewStrings source)
    (sourceName : String) :
    ∃ result, scan (⟨source⟩ : SourceText) sourceName = .ok result ∧
      (∀ token ∈ result.tokens, token.kind.StandsFor Lexeme.WellFormed result.symbols) ∧
      ((∀ b ∈ source, b < 0x80) → ∀ token ∈ result.tokens,
        token.kind.StandsFor Lexeme.Readable result.symbols) := by
  obtain ⟨items, fs, result, hlexes, hscan, htokens, -, hsymbols⟩ := exists_scan hfew sourceName
  have hstandsFor : ∀ {property : Lexeme → Prop},
      (∀ {q x rest gs l}, (∀ b ∈ x ++ rest, b ∈ Ascii.beforeNul source) →
        Reads q (x ++ rest) ⟨some l, x, rest, gs⟩ → property l) →
      ∀ token ∈ result.tokens, token.kind.StandsFor property result.symbols := by
    intro property hread token htoken
    rw [htokens] at htoken
    rw [hsymbols]
    rcases List.mem_append.1 htoken with htoken | htoken
    · refine hlexes.standsFor_of_mem_tokens (fun htext ho => ?_) sourceName token htoken
      exact hread (fun b hb => htext ▸ List.mem_append_right _ hb) ho
    · obtain rfl := List.mem_singleton.1 htoken
      exact .inl rfl
  have hwellFormed : ∀ {q : Position} {x rest : List UInt8} {gs : List Finding} {l : Lexeme},
      (∀ b ∈ x ++ rest, b ∈ Ascii.beforeNul source) →
      Reads q (x ++ rest) ⟨some l, x, rest, gs⟩ → l.WellFormed := by
    intro q x rest gs l hsub ho
    apply ho.wellFormed
    intro hnul
    exact Ascii.ne_nul_of_mem_beforeNul (hsub _ hnul) rfl
  refine ⟨result, hscan, hstandsFor hwellFormed, fun hascii => hstandsFor fun hsub ho => ?_⟩
  refine ⟨hwellFormed hsub ho, ho.hasAsciiContents fun b hb => ?_⟩
  exact hascii b ((List.takeWhile_prefix _).subset (hsub b hb))

/-- The listing of a scan has a line for each token, and each token has its own line. For sources
that are ASCII, what is listed alike has the same tokens, one by one and with the same contents of
strings. No source may have more strings than there are symbols. -/
theorem scan_listing {source : List UInt8} (hfew : FewStrings source) (sourceName : String) :
    ∃ result, scan (⟨source⟩ : SourceText) sourceName = .ok result ∧
      (listing result.symbols result.tokens).toList.count '\n' = result.tokens.length ∧
      (∀ token ∈ result.tokens, ∃ line : String,
        token.listingLine result.symbols = line ++ "\n" ∧ '\n' ∉ line.toList) ∧
      ∀ source' sourceName', (∀ b ∈ source, b < 0x80) → (∀ b ∈ source', b < 0x80) →
        FewStrings source' → ∃ result', scan (⟨source'⟩ : SourceText) sourceName' = .ok result' ∧
          (listing result.symbols result.tokens = listing result'.symbols result'.tokens →
            List.Forall₂ (Token.Matches result.symbols result'.symbols)
              result.tokens result'.tokens) := by
  obtain ⟨result, hscan, hwellFormed, hcontents⟩ := exists_scan_standsFor hfew sourceName
  refine ⟨result, hscan, count_lineBreak_listing hwellFormed, ?_, ?_⟩
  · intro token htoken
    exact ⟨token.line result.symbols, rfl, Token.lineBreak_not_mem_line (hwellFormed token htoken)⟩
  · intro source' sourceName' hascii hascii' hfew'
    obtain ⟨result', hscan', -, hcontents'⟩ := exists_scan_standsFor hfew' sourceName'
    refine ⟨result', hscan', ?_⟩
    intro heq
    exact forall₂_matches_of_listing_eq (hcontents hascii) (hcontents' hascii') heq

/-- A quote in a string, once with its escape and once without, but with a blank behind the string:
both are listed alike. -/
theorem scan_listing_quote :
    (∀ b ∈ Ascii.codes "\"\\'\"", b < 0x80) ∧ (∀ b ∈ Ascii.codes "\"'\" ", b < 0x80) ∧
      FewStrings (Ascii.codes "\"\\'\"") ∧ FewStrings (Ascii.codes "\"'\" ") ∧
      ∃ result result', scan (⟨Ascii.codes "\"\\'\""⟩ : SourceText) "escaped" = .ok result ∧
        scan (⟨Ascii.codes "\"'\" "⟩ : SourceText) "plain" = .ok result' ∧
        (listing result.symbols result.tokens).toList.count '\n' = result.tokens.length ∧
        (∀ token ∈ result.tokens, ∃ line : String,
          token.listingLine result.symbols = line ++ "\n" ∧ '\n' ∉ line.toList) ∧
        listing result.symbols result.tokens = listing result'.symbols result'.tokens ∧
        List.Forall₂ (Token.Matches result.symbols result'.symbols)
          result.tokens result'.tokens := by
  have hascii : ∀ b ∈ Ascii.codes "\"\\'\"", b < 0x80 := by
    have hall : ((Ascii.codes "\"\\'\"").all fun b => b < 0x80) = true := by decide
    simpa using hall
  have hascii' : ∀ b ∈ Ascii.codes "\"'\" ", b < 0x80 := by
    have hall : ((Ascii.codes "\"'\" ").all fun b => b < 0x80) = true := by decide
    simpa using hall
  have hfew : FewStrings (Ascii.codes "\"\\'\"") := fewStrings_of_length_lt (by decide)
  have hfew' : FewStrings (Ascii.codes "\"'\" ") := fewStrings_of_length_lt (by decide)
  have hread : Reads .start (Ascii.codes "\"\\'\"" ++ [])
      ⟨some (.string [Ascii.singleQuote]), Ascii.codes "\"\\'\"", [], []⟩ :=
    .string (r := Ascii.codes "\\'\"") (by decide)
  have hread' : Reads .start (Ascii.codes "\"'\"" ++ Ascii.codes " ")
      ⟨some (.string [Ascii.singleQuote]), Ascii.codes "\"'\"", Ascii.codes " ", []⟩ :=
    .string (r := Ascii.codes "'\" ") (by decide)
  have hlexes : Lexes .start (Ascii.beforeNul (Ascii.codes "\"\\'\""))
      [⟨.string [Ascii.singleQuote], .start⟩] [] :=
    .token (p := .start) (List.forall_mem_nil _) hread (.finish (List.forall_mem_nil _))
  have hlexes' : Lexes .start (Ascii.beforeNul (Ascii.codes "\"'\" "))
      [⟨.string [Ascii.singleQuote], .start⟩] [] :=
    .token (p := .start) (List.forall_mem_nil _) hread'
      (.finish (List.forall_mem_singleton.2 rfl))
  obtain ⟨result₁, hscan₁, htokens, -, hsymbols⟩ :=
    scan_of_lexes (SourceText.delivers (Ascii.codes "\"\\'\"")) hlexes "escaped"
      (hfew.fit hlexes)
  obtain ⟨result₂, hscan₂, htokens', -, hsymbols'⟩ :=
    scan_of_lexes (SourceText.delivers (Ascii.codes "\"'\" ")) hlexes' "plain"
      (hfew'.fit hlexes')
  obtain ⟨result, hscan, hcount, hlines, hlisting⟩ :=
    scan_listing hfew "escaped"
  obtain ⟨result', hscan', hmatches⟩ :=
    hlisting (Ascii.codes "\"'\" ") "plain" hascii hascii' hfew'
  obtain rfl : result₁ = result := Except.ok.inj (hscan₁.symm.trans hscan)
  obtain rfl : result₂ = result' := Except.ok.inj (hscan₂.symm.trans hscan')
  have heq : listing result₁.symbols result₁.tokens = listing result₂.symbols result₂.tokens := by
    rw [htokens, htokens', hsymbols, hsymbols']
    rfl
  exact ⟨hascii, hascii', hfew, hfew', result₁, result₂, hscan, hscan', hcount, hlines, heq,
    hmatches heq⟩

end CinderFront
