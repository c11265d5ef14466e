import CinderFront.Text.Escape
import CinderFront.Text.Utf8
import CinderFront.Token

/-!
# Token listings

A listing shows the tokens of a source, one on each line: the position, then the token in words.
Contents of literals are shown with their escapes, so that no listing line is ever broken.

* `Token.Kind.describe` — a token in words;
* `listing` — all tokens.
-/

namespace CinderFront

/-- A decoded literal between two quotes, with its escapes. -/
def quotedText (quote : String) (contents : List UInt8) : String :=
  quote ++ Utf8.text (Escape.encode contents) ++ quote

/-- A kind in words, with what it carries. The contents of a string literal are those that the
symbol has in the table. -/
def Token.Kind.describe (symbols : SymbolTable) : Token.Kind → String
  | .mark .newline => Token.Kind.displayName (.mark .newline)
  | .mark m => "`" ++ m.displayName ++ "`"
  | .unknown byte => "unknown 0x" ++ Ascii.hex .upper byte
  | .keyword k => "keyword " ++ k.spelling
  | .mode m => "mode " ++ m.spelling
  | .identifier text => "identifier " ++ Utf8.text text
  | .string symbol => "string " ++ quotedText "\"" ((symbols.lookup? symbol).getD [])
  | .integer text => "integer " ++ Utf8.text text
  | .float text => "float " ++ Utf8.text text
  | .character byte => "character " ++ quotedText "'" [byte]
  | .endOfFile => Token.Kind.displayName .endOfFile

/-- One line of a listing. -/
def Token.listingLine (symbols : SymbolTable) (token : Token) : String :=
  token.position.text ++ " " ++ token.kind.describe symbols ++ "\n"

/-- The listing of some tokens. -/
def listing (symbols : SymbolTable) (tokens : List Token) : String :=
  String.join (tokens.map (Token.listingLine symbols))

end CinderFront
