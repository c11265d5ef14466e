import CinderFront.Listing
import CinderFront.Proofs.LineBreak
import CinderFront.Proofs.Utf8

/-!
# Tokens in words

A token in words begins with a heading, which tells its form, and goes on with what tokens of that
form differ in. Both can be read back: the heading by its first letters, and the rest by what the
form says, as long as the contents of literals are ASCII. None of it ever has a line break in it,
whatever the contents are.

* `Wording` — the forms, each with its heading;
* `Wording.read?` — what a token in words stands for;
* `Token.Kind.describe_eq` — a token in words is a heading and its details;
* `Lexeme.read?_description`, `Token.Kind.read?_describe` — reading takes the description back;
* `Token.Kind.lineBreak_not_mem_describe` — a description stays on its line;
* `Token.Kind.alike_of_describe_eq` — what is described alike is alike.
-/

namespace CinderFront

/-! ### Forms -/

/-- The forms of tokens in words. -/
inductive Wording
  | lineBreak | mark | unknown | keyword | mode | identifier | string | integer | float | character
  | endOfFile
  deriving DecidableEq, Repr

namespace Wording

/-- How every token of the form begins. -/
def heading : Wording → String
  | lineBreak => "newline"
  | mark => "`"
  | unknown => "unknown 0x"
  | keyword => "keyword "
  | mode => "mode "
  | identifier => "identifier "
  | string => "string "
  | integer => "integer "
  | float => "float "
  | character => "character "
  | endOfFile => "end of file"

/-- The form of a token in words, which its first letters tell. -/
def ofText : List Char → Wording
  | 'n' :: _ => lineBreak
  | '`' :: _ => mark
  | 'u' :: _ => unknown
  | 'k' :: _ => keyword
  | 'm' :: _ => mode
  | 'i' :: 'd' :: _ => identifier
  | 's' :: _ => string
  | 'i' :: _ => integer
  | 'f' :: _ => float
  | 'c' :: _ => character
  | _ => endOfFile

theorem ofText_heading (w : Wording) (details : List Char) :
    ofText (w.heading.toList ++ details) = w := by
  cases w <;> rfl

/-- The number that a hexadecimal digit stands for. -/
def hexValue (digit : UInt8) : Nat :=
  if digit < 'A'.toUInt8 then digit.toNat - 48 else digit.toNat - 55

/-- The contents of a literal between two quotes. -/
def unquote (details : List UInt8) : List UInt8 :=
  (Escape.decode details.tail.dropLast).bytes.toList

/-- What a token of the form stands for, by the bytes behind its heading. -/
def lexeme? : Wording → List UInt8 → Option Lexeme
  | lineBreak, _ => some (.mark .newline)
  | mark, details => (Punctuation.longestAt? details.dropLast).map .mark
  | unknown, [high, low] => some (.unknown (UInt8.ofNat (16 * hexValue high + hexValue low)))
  | keyword, details => (Keyword.ofBytes? details).map .keyword
  | mode, details => (Mode.ofBytes? details).map .mode
  | identifier, details => some (.identifier details)
  | string, details => some (.string (unquote details))
  | integer, details => some (.integer details)
  | float, details => some (.float details)
  | character, details => (unquote details).head?.map .character
  | _, _ => none

/-- What a token in words stands for. The end of the input stands for nothing. -/
def read? (text : String) : Option Lexeme :=
  let w := ofText text.toList
  w.lexeme? ((text.toList.drop w.heading.toList.length).map Char.toUInt8)

theorem read?_append (w : Wording) (details : String) :
    read? (w.heading ++ details) = w.lexeme? (Ascii.codes details) := by
  unfold read? Ascii.codes
  simp only [String.toList_append, ofText_heading, List.drop_left]

end Wording

namespace Lexeme

/-- The form of the lexeme in words. -/
def wording : Lexeme → Wording
  | mark .newline => .lineBreak
  | mark _ => .mark
  | unknown _ => .unknown
  | keyword _ => .keyword
  | mode _ => .mode
  | identifier _ => .identifier
  | string _ => .string
  | integer _ => .integer
  | float _ => .float
  | character _ => .character

/-- What the lexeme in words has behind its heading. -/
def details : Lexeme → String
  | mark .newline => ""
  | mark m => m.displayName ++ "`"
  | unknown byte => Ascii.hex .upper byte
  | keyword k => k.spelling
  | mode m => m.spelling
  | identifier text | integer text | float text => Utf8.text text
  | string contents => quotedText "\"" contents
  | character byte => quotedText "'" [byte]

/-- If the lexeme is a literal, its contents are ASCII. -/
def HasAsciiContents : Lexeme → Prop
  | string contents => ∀ b ∈ contents, b < 0x80
  | character b => b < 0x80
  | _ => True

/-- The lexeme can be told from its words. -/
structure Readable (l : Lexeme) : Prop where
  wellFormed : l.WellFormed
  hasAsciiContents : l.HasAsciiContents

end Lexeme

/-- A token in words is a heading and the details behind it. -/
theorem Token.Kind.describe_eq {symbols : SymbolTable} {kind : Token.Kind} {l : Lexeme}
    (h : kind.lexeme? symbols = some l) :
    kind.describe symbols = l.wording.heading ++ l.details := by
  cases kind with
  | mark m =>
    obtain rfl := Option.some.inj h
    cases m <;> rfl
  | string symbol =>
    obtain ⟨contents, hlookup, rfl⟩ := Option.map_eq_some_iff.1 h
    show "string " ++ quotedText "\"" ((symbols.lookup? symbol).getD []) = _
    rw [hlookup]
    rfl
  | endOfFile => cases h
  | unknown _ | keyword _ | mode _ | identifier _ | integer _ | float _ | character _ =>
    obtain rfl := Option.some.inj h
    rfl

/-! ### Reading back -/

namespace Ascii

/-- A byte of a name or a number is ASCII, and no line break. -/
theorem plain_of_isWordByte {b : UInt8} (h : isWordByte b = true) : b < 0x80 ∧ b ≠ lineFeed := by
  simp only [isWordByte, isLetter, isDigit] at h
  grind

theorem plain_of_isNumberByte {b : UInt8} (h : isNumberByte b = true) :
    b < 0x80 ∧ b ≠ lineFeed := by
  simp only [isNumberByte, isDigit] at h
  grind

theorem codes_hex (b : UInt8) :
    codes (hex .upper b) =
      [(hexDigit .upper (b.toNat / 16)).toUInt8, (hexDigit .upper (b.toNat % 16)).toUInt8] := by
  unfold codes hex
  rw [String.toList_ofList]
  rfl

end Ascii

namespace Escape

/-- The letters of escapes are ASCII, and so is what they stand for. -/
theorem lt_of_mem_table {entry : UInt8 × UInt8} (h : entry ∈ table) :
    entry.1 < 0x80 ∧ entry.2 < 0x80 := by
  have hall : (table.all fun entry => entry.1 < 0x80 && entry.2 < 0x80) = true := by decide
  simpa using List.all_eq_true.1 hall entry h

/-- What is encoded of ASCII bytes is ASCII. -/
theorem lt_of_mem_encode {bytes : List UInt8} (h : ∀ b ∈ bytes, b < 0x80) :
    ∀ b ∈ encode bytes, b < 0x80 := by
  intro b hb
  obtain ⟨c, hc, hb⟩ := List.mem_flatMap.1 hb
  unfold encodeByte at hb
  split at hb
  · next letter hletter =>
    obtain ⟨entry, hfind, rfl⟩ := Option.map_eq_some_iff.1 hletter
    rcases List.mem_cons.1 hb with rfl | hb
    · decide
    · rw [List.mem_singleton.1 hb]
      exact (lt_of_mem_table (List.mem_of_find?_eq_some hfind)).1
  · rw [List.mem_singleton.1 hb]
    exact h c hc

end Escape

/-- The bytes of ASCII contents in quotes. -/
theorem codes_quotedText (quote : String) {contents : List UInt8} (h : ∀ b ∈ contents, b < 0x80) :
    Ascii.codes (quotedText quote contents) =
      Ascii.codes quote ++ Escape.encode contents ++ Ascii.codes quote := by
  unfold quotedText
  rw [Ascii.codes_append, Ascii.codes_append, Utf8.codes_text (Escape.lt_of_mem_encode h)]

theorem Wording.unquote_codes {quote : String} {q : UInt8} (hquote : Ascii.codes quote = [q])
    {contents : List UInt8} (h : ∀ b ∈ contents, b < 0x80) :
    unquote (Ascii.codes (quotedText quote contents)) = contents := by
  unfold unquote
  rw [codes_quotedText quote h, hquote]
  simp [Escape.decode_encode]

theorem Wording.hexValue_hexDigit (n : Nat) (h : n < 16) :
    hexValue (Ascii.hexDigit .upper n).toUInt8 = n := by
  revert n
  decide

namespace Lexeme

/-- The text of a name or a number, which is shown as it is. -/
def text? : Lexeme → Option (List UInt8)
  | identifier text | integer text | float text => some text
  | _ => none

/-- Names and numbers are ASCII, and without line breaks. -/
theorem plain_of_text? {l : Lexeme} {text : List UInt8} (hl : l.WellFormed)
    (htext : l.text? = some text) : ∀ b ∈ text, b < 0x80 ∧ b ≠ Ascii.lineFeed := by
  cases l with
  | identifier _ =>
    obtain rfl := Option.some.inj htext
    intro b hb
    exact Ascii.plain_of_isWordByte (hl.2.1 b hb)
  | integer _ =>
    obtain rfl := Option.some.inj htext
    intro b hb
    exact Ascii.plain_of_isNumberByte (hl.isNumberByte_of_mem b hb)
  | float _ =>
    obtain rfl := Option.some.inj htext
    obtain ⟨integral, digits, rfl, hintegral, -, hdigits⟩ := hl
    intro b hb
    rcases List.mem_append.1 hb with hb | hb
    · exact Ascii.plain_of_isNumberByte (hintegral.isNumberByte_of_mem b hb)
    · rcases List.mem_cons.1 hb with rfl | hb
      · decide
      · exact Ascii.plain_of_isNumberByte (hdigits b hb)
  | mark _ | unknown _ | keyword _ | mode _ | string _ | character _ => cases htext

theorem wording_mark {m : Punctuation} (hm : m ≠ .newline) :
    (mark m).wording = .mark ∧ (mark m).details = m.spelling ++ "`" := by
  cases m with
  | newline => exact absurd rfl hm
  | _ => exact ⟨rfl, rfl⟩

/-- A lexeme is read back from its words. -/
theorem read?_description {l : Lexeme} (hl : l.Readable) :
    Wording.read? (l.wording.heading ++ l.details) = some l := by
  have htext : ∀ {text : List UInt8}, l.text? = some text →
      Ascii.codes (Utf8.text text) = text := by
    intro text h
    apply Utf8.codes_text
    intro b hb
    exact (plain_of_text? hl.wellFormed h b hb).1
  rw [Wording.read?_append]
  cases l with
  | mark m =>
    by_cases hm : m = .newline
    · subst hm
      rfl
    · obtain ⟨hwording, hdetails⟩ := wording_mark hm
      have hbytes : Ascii.codes (m.spelling ++ "`") = m.bytes ++ [0x60] := Ascii.codes_append _ _
      rw [hwording, hdetails, hbytes]
      show (Punctuation.longestAt? (m.bytes ++ [0x60]).dropLast).map mark = some (mark m)
      rw [List.dropLast_concat, m.longestAt?_bytes_self]
      rfl
  | unknown b =>
    have hb := b.toNat_lt
    have hhigh := Wording.hexValue_hexDigit (b.toNat / 16) (by omega)
    have hlow := Wording.hexValue_hexDigit (b.toNat % 16) (by omega)
    show Wording.lexeme? .unknown (Ascii.codes (Ascii.hex .upper b)) = _
    rw [Ascii.codes_hex, Wording.lexeme?, hhigh, hlow, Nat.div_add_mod, UInt8.ofNat_toNat]
  | keyword k => exact congrArg (Option.map keyword) k.ofBytes?_spelling
  | mode m => exact congrArg (Option.map mode) m.ofBytes?_spelling
  | identifier text => exact congrArg (fun bytes => some (identifier bytes)) (htext rfl)
  | string contents =>
    have hcontents : ∀ b ∈ contents, b < 0x80 := hl.hasAsciiContents
    exact congrArg (fun bytes => some (string bytes)) (Wording.unquote_codes rfl hcontents)
  | integer text => exact congrArg (fun bytes => some (integer bytes)) (htext rfl)
  | float text => exact congrArg (fun bytes => some (float bytes)) (htext rfl)
  | character b =>
    have hb : ∀ c ∈ [b], c < 0x80 := List.forall_mem_singleton.2 hl.hasAsciiContents
    exact congrArg (fun bytes => (List.head? bytes).map character) (Wording.unquote_codes rfl hb)

end Lexeme

/-! ### No line break -/

theorem Wording.lineBreak_not_mem_heading (w : Wording) : '\n' ∉ w.heading.toList := by
  cases w <;> decide

theorem lineBreak_not_mem_text {bytes : List UInt8} (h : Ascii.lineFeed ∉ bytes) :
    '\n' ∉ (Utf8.text bytes).toList := by
  intro hmem
  exact h (Utf8.mem_of_mem_text hmem (by decide) (by decide))

theorem lineBreak_not_mem_quotedText {quote : String} (hquote : '\n' ∉ quote.toList)
    (contents : List UInt8) : '\n' ∉ (quotedText quote contents).toList := by
  have hcontents := lineBreak_not_mem_text (Escape.not_mem_encode (c := Ascii.lineFeed) contents)
  unfold quotedText
  simp only [String.toList_append, List.mem_append, not_or]
  exact ⟨⟨hquote, hcontents⟩, hquote⟩

theorem Ascii.lineBreak_not_mem_hex (b : UInt8) : '\n' ∉ (hex .upper b).toList := by
  have hdigit : ∀ n < 16, '\n' ≠ hexDigit .upper n := by decide
  have hb := b.toNat_lt
  unfold hex
  rw [String.toList_ofList]
  simp only [List.mem_cons, List.not_mem_nil, or_false, not_or]
  exact ⟨hdigit _ (by omega), hdigit _ (by omega)⟩

/-- No details have a line break in them, whatever is in a literal. -/
theorem Lexeme.lineBreak_not_mem_details {l : Lexeme} (hl : l.WellFormed) :
    '\n' ∉ l.details.toList := by
  have htext : ∀ {text : List UInt8}, l.text? = some text →
      '\n' ∉ (Utf8.text text).toList := by
    intro text h
    apply lineBreak_not_mem_text
    intro hmem
    exact (plain_of_text? hl h _ hmem).2 rfl
  cases l with
  | mark m => cases m <;> decide
  | unknown b => exact Ascii.lineBreak_not_mem_hex b
  | keyword k => cases k <;> decide
  | mode m => cases m <;> decide
  | identifier text => exact htext rfl
  | string contents => exact lineBreak_not_mem_quotedText (by decide) contents
  | integer text => exact htext rfl
  | float text => exact htext rfl
  | character b => exact lineBreak_not_mem_quotedText (by decide) [b]

/-! ### Kinds -/

namespace Token.Kind

/-- The kind is the end of the input, or it stands for a lexeme that has the property. -/
def StandsFor (property : Lexeme → Prop) (symbols : SymbolTable) (kind : Token.Kind) : Prop :=
  kind = .endOfFile ∨ ∃ l, kind.lexeme? symbols = some l ∧ property l

variable {symbols symbols' : SymbolTable} {kind kind' : Token.Kind}

theorem StandsFor.imp {property property' : Lexeme → Prop} (h : kind.StandsFor property symbols)
    (himp : ∀ {l : Lexeme}, property l → property' l) : kind.StandsFor property' symbols := by
  rcases h with h | ⟨l, hl, hproperty⟩
  · exact .inl h
  · exact .inr ⟨l, hl, himp hproperty⟩

/-- A kind in words stays on its line. -/
theorem lineBreak_not_mem_describe (h : kind.StandsFor Lexeme.WellFormed symbols) :
    '\n' ∉ (kind.describe symbols).toList := by
  rcases h with rfl | ⟨l, hl, hwellFormed⟩
  · exact Wording.lineBreak_not_mem_heading .endOfFile
  · rw [describe_eq hl, String.toList_append, List.mem_append, not_or]
    exact ⟨l.wording.lineBreak_not_mem_heading, l.lineBreak_not_mem_details hwellFormed⟩

/-- What a kind stands for is read back from its words. -/
theorem read?_describe (h : kind.StandsFor Lexeme.Readable symbols) :
    Wording.read? (kind.describe symbols) = kind.lexeme? symbols := by
  rcases h with rfl | ⟨l, hl, hreadable⟩
  · exact Wording.read?_append .endOfFile ""
  · rw [describe_eq hl, hl, Lexeme.read?_description hreadable]

/-- A kind that stands for a string has its symbol; any other is the same in every table. -/
theorem kind_of_lexeme? {l : Lexeme} (h : kind.lexeme? symbols = some l) :
    (∃ symbol contents, kind = .string symbol ∧ l = .string contents ∧
      symbols.lookup? symbol = some contents) ∨
    ((∀ contents, l ≠ .string contents) ∧ kind = l.kind .new) := by
  cases kind with
  | string symbol =>
    obtain ⟨contents, hlookup, rfl⟩ := Option.map_eq_some_iff.1 h
    exact .inl ⟨symbol, contents, rfl, rfl, hlookup⟩
  | endOfFile => cases h
  | _ =>
    obtain rfl := Option.some.inj h
    exact .inr ⟨nofun, rfl⟩

/-- Kinds that stand for the same lexeme are alike. -/
theorem alike_of_lexeme? {l : Lexeme} (h : kind.lexeme? symbols = some l)
    (h' : kind'.lexeme? symbols' = some l) : kind.Alike symbols symbols' kind' := by
  rcases kind_of_lexeme? h with ⟨symbol, contents, rfl, rfl, hlookup⟩ | ⟨hl, rfl⟩
  · rcases kind_of_lexeme? h' with ⟨symbol', contents', rfl, heq, hlookup'⟩ | ⟨hl, -⟩
    · cases heq
      exact .string hlookup hlookup'
    · exact absurd rfl (hl contents)
  · rcases kind_of_lexeme? h' with ⟨_, contents, -, rfl, -⟩ | ⟨-, rfl⟩
    · exact absurd rfl (hl contents)
    · refine .same fun symbol heq => ?_
      cases l with
      | string contents => exact hl contents rfl
      | _ => cases heq

/-- Kinds with the same words are alike, as long as the contents of literals are ASCII. -/
theorem alike_of_describe_eq (h : kind.StandsFor Lexeme.Readable symbols)
    (h' : kind'.StandsFor Lexeme.Readable symbols')
    (heq : kind.describe symbols = kind'.describe symbols') :
    kind.Alike symbols symbols' kind' := by
  have hlexeme : kind.lexeme? symbols = kind'.lexeme? symbols' := by
    rw [← read?_describe h, heq, read?_describe h']
  rcases h with rfl | ⟨l, hl, -⟩
  · rcases h' with rfl | ⟨l', hl', -⟩
    · exact .same nofun
    · rw [hl'] at hlexeme
      cases hlexeme
  · exact alike_of_lexeme? hl (hlexeme ▸ hl)

end Token.Kind

end CinderFront
