/-!
# Bytes of source text

Cinder source is read as bytes, and only the ASCII ones have a meaning of their own. This module
names the bytes and the byte classes that the scanner asks for.

* `Ascii.isWordByte`, `Ascii.isNumberByte` — what may continue a word or a number;
* `Ascii.isBlank`, `Ascii.isIndent` — what separates tokens, and what may stand before the bar of
  a multi-line string;
* `Ascii.codes` — the bytes of a spelling;
* `Ascii.visible` — a byte made visible inside a message.
-/

namespace CinderFront.Ascii

/-! ### Single bytes -/

/-- The byte that marks the end of the input. -/
abbrev nul : UInt8 := 0x00
/-- A horizontal tab. -/
abbrev tab : UInt8 := 0x09
/-- A line feed, the one line break. -/
abbrev lineFeed : UInt8 := 0x0A
/-- A form feed. -/
abbrev formFeed : UInt8 := 0x0C
/-- A carriage return. -/
abbrev carriageReturn : UInt8 := 0x0D
/-- A space. -/
abbrev space : UInt8 := 0x20
/-- A double quote. -/
abbrev doubleQuote : UInt8 := 0x22
/-- A single quote. -/
abbrev singleQuote : UInt8 := 0x27
/-- An asterisk. -/
abbrev asterisk : UInt8 := 0x2A
/-- A full stop. -/
abbrev fullStop : UInt8 := 0x2E
/-- A slash. -/
abbrev slash : UInt8 := 0x2F
/-- The digit zero. -/
abbrev zero : UInt8 := 0x30
/-- A backslash. -/
abbrev backslash : UInt8 := 0x5C
/-- An underscore. -/
abbrev underscore : UInt8 := 0x5F
/-- A vertical bar. -/
abbrev bar : UInt8 := 0x7C

/-! ### Classes of bytes -/

/-- The letters `A` to `Z` and `a` to `z`. -/
def isLetter (b : UInt8) : Bool :=
  (0x41 ≤ b && b ≤ 0x5A) || (0x61 ≤ b && b ≤ 0x7A)

/-- The digits `0` to `9`. -/
def isDigit (b : UInt8) : Bool :=
  0x30 ≤ b && b ≤ 0x39

/-- A byte that may begin a word. -/
def isWordStart (b : UInt8) : Bool :=
  isLetter b || b == underscore

/-- A byte that may continue a word. -/
def isWordByte (b : UInt8) : Bool :=
  isLetter b || isDigit b || b == underscore

/-- A byte that may continue a number; underscores group digits. -/
def isNumberByte (b : UInt8) : Bool :=
  isDigit b || b == underscore

/-- A byte of the margin of a multi-line string: a space or a tab. -/
def isIndent (b : UInt8) : Bool :=
  b == space || b == tab

/-- A byte that separates tokens and is none itself: a space, a tab or a carriage return. -/
def isBlank (b : UInt8) : Bool :=
  isIndent b || b == carriageReturn

/-- A byte that is dropped from the end of a file. A vertical tab is not one. -/
def isTrailing (b : UInt8) : Bool :=
  isBlank b || b == lineFeed || b == formFeed

theorem isWordByte_of_isWordStart {b : UInt8} (h : isWordStart b = true) :
    isWordByte b = true := by
  simp_all [isWordStart, isWordByte]
  grind

theorem isNumberByte_of_isDigit {b : UInt8} (h : isDigit b = true) : isNumberByte b = true := by
  simp [isNumberByte, h]

/-! ### Spellings and numerals -/

/-- The bytes of an ASCII spelling, one per character. -/
def codes (text : String) : List UInt8 :=
  text.toList.map Char.toUInt8

/-- The byte as a character; the bytes from 0x80 on are the characters of the same number. -/
def char (b : UInt8) : Char :=
  Char.ofNat b.toNat

/-- The digits of the hexadecimal numerals below. -/
inductive HexCase
  | lower
  | upper
  deriving DecidableEq, Repr

/-- One hexadecimal digit. -/
def hexDigit (style : HexCase) (n : Nat) : Char :=
  if n < 10 then Char.ofNat (48 + n)
  else match style with
    | .lower => Char.ofNat (87 + n)
    | .upper => Char.ofNat (55 + n)

/-- The byte as two hexadecimal digits. -/
def hex (style : HexCase) (b : UInt8) : String :=
  String.ofList [hexDigit style (b.toNat / 16), hexDigit style (b.toNat % 16)]

/-- A byte made visible: the usual letter escapes, the printable characters as they are, and a
hexadecimal escape for the rest. -/
def visible (b : UInt8) : String :=
  if b == tab then "\\t"
  else if b == carriageReturn then "\\r"
  else if b == lineFeed then "\\n"
  else if b == singleQuote then "\\'"
  else if b == doubleQuote then "\\\""
  else if b == backslash then "\\\\"
  else if 0x20 ≤ b && b ≤ 0x7E then String.ofList [char b]
  else "\\x" ++ hex .lower b

end CinderFront.Ascii
