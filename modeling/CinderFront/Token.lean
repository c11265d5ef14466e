import CinderFront.Position
import CinderFront.Punctuation
import CinderFront.SymbolTable
import CinderFront.Word

/-!
# Tokens

A token says what was read, in which source, and where its first byte stands. Names and numbers
carry their text; a string literal carries the symbol of its contents.

* `Token.Kind.displayName` — what a kind is called in messages;
* `Token.inspect` — the inspection form, which shows all of a token.
-/

namespace CinderFront

/-- What a token is, with what it carries. -/
inductive Token.Kind
  /-- An operator, a delimiter or a line break. -/
  | mark (mark : Punctuation)
  /-- A byte that begins no token of the language. -/
  | unknown (byte : UInt8)
  | keyword (word : Keyword)
  | mode (word : Mode)
  | identifier (text : List UInt8)
  /-- A string literal; the symbol stands for its decoded contents. -/
  | string (contents : Symbol)
  /-- The text of an integer, with its grouping underscores. -/
  | integer (text : List UInt8)
  /-- The text of a number with a fraction, which is never empty. -/
  | float (text : List UInt8)
  /-- The one decoded byte of a character literal. -/
  | character (byte : UInt8)
  /-- The end of the input, which is there for ever once it is reached. -/
  | endOfFile
  deriving DecidableEq, Repr

/-- A kind with the name of its source and the position of its first byte. -/
structure Token where
  kind : Token.Kind
  sourceName : String
  position : Position
  deriving DecidableEq, Repr

namespace Token.Kind

/-- What the kind is called in messages. -/
def displayName : Token.Kind → String
  | mark m => m.displayName
  | unknown _ => "unknown"
  | keyword k => k.spelling
  | mode m => m.spelling
  | identifier _ => "identifier"
  | string _ => "string"
  | integer _ => "integer"
  | float _ => "float"
  | character _ => "character"
  | endOfFile => "end of file"

/-- Whether the kind carries more than its own name. -/
def hasPayload : Token.Kind → Bool
  | unknown _ | identifier _ | string _ | integer _ | float _ | character _ => true
  | mark _ | keyword _ | mode _ | endOfFile => false

/-- The name of the kind alone, without what it carries. -/
def name : Token.Kind → String
  | mark m => m.name
  | unknown _ => "Unknown"
  | keyword _ => "Keyword"
  | mode _ => "Mode"
  | identifier _ => "Identifier"
  | string _ => "String"
  | integer _ => "Integer"
  | float _ => "Float"
  | character _ => "Character"
  | endOfFile => "Eof"

/-- The numbers of some bytes in square brackets. -/
def inspectBytes (bytes : List UInt8) : String :=
  "[" ++ ", ".intercalate (bytes.map fun b => toString b.toNat) ++ "]"

/-- The inspection form of what the kind carries. -/
def inspectPayload : Token.Kind → Option String
  | keyword k => some k.name
  | mode m => some m.name
  | identifier text | integer text | float text => some (inspectBytes text)
  | string symbol => some ("Symbol(" ++ toString symbol.index ++ ")")
  | unknown byte | character byte => some (toString byte.toNat)
  | mark _ | endOfFile => none

/-- The inspection form: the name, then what is carried in round brackets. -/
def inspect (kind : Token.Kind) : String :=
  match kind.inspectPayload with
  | some payload => kind.name ++ "(" ++ payload ++ ")"
  | none => kind.name

end Token.Kind

namespace Token

/-- Whether the token is the end of the input. -/
def isEnd (t : Token) : Bool := t.kind == .endOfFile

/-- The inspection form: the kind, then the source and the position. -/
def inspect (t : Token) : String :=
  t.kind.inspect ++ " @ " ++ t.sourceName ++ ":" ++ t.position.text

end Token

end CinderFront
