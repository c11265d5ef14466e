import CinderFront.Ascii

/-!
# Escapes in literals

Inside a literal a backslash and the byte after it stand for one byte. A pair outside the table
is malformed: its backslash is kept, and decoding goes on with the byte after the backslash as with
any other byte.

* `Escape.decode` — the bytes that a raw literal stands for, with the malformed escapes in order;
* `Escape.decodeAfter` — the same for one literal of several that share a list of malformed escapes;
* `Escape.encode` — every byte that has an escape written as that escape.
-/

namespace CinderFront

/-- A malformed escape, with the offset of its backslash in the raw literal. -/
inductive MalformedEscape
  /-- A backslash before a byte that is no escape letter. -/
  | unrecognized (byte : UInt8) (offset : Nat)
  /-- A backslash at the end of the literal. -/
  | unterminated (offset : Nat)
  deriving DecidableEq, Repr

namespace MalformedEscape

/-- The offset of the backslash. -/
def offset : MalformedEscape → Nat
  | unrecognized _ offset => offset
  | unterminated offset => offset

end MalformedEscape

namespace Escape

/-- The escape letters, each with the byte that its escape stands for. -/
def table : List (UInt8 × UInt8) :=
  [('n'.toUInt8, Ascii.lineFeed), ('r'.toUInt8, Ascii.carriageReturn), ('t'.toUInt8, Ascii.tab),
    (Ascii.backslash, Ascii.backslash), (Ascii.bar, Ascii.bar),
    (Ascii.singleQuote, Ascii.singleQuote), (Ascii.doubleQuote, Ascii.doubleQuote),
    (Ascii.zero, Ascii.nul)]

/-- The byte that the escape with this letter stands for. -/
def byteOf? (letter : UInt8) : Option UInt8 :=
  (table.find? fun entry => entry.1 == letter).map (·.2)

/-- The letter of the escape that stands for this byte. -/
def letterOf? (byte : UInt8) : Option UInt8 :=
  (table.find? fun entry => entry.2 == byte).map (·.1)

/-! ### Decoding -/

/-- What a raw literal stands for, and its malformed escapes in order. -/
structure Decoded where
  bytes : Array UInt8 := #[]
  errors : Array MalformedEscape := #[]
  deriving DecidableEq, Repr

/-- The decoded literal with one more byte. -/
def Decoded.push (d : Decoded) (b : UInt8) : Decoded :=
  { d with bytes := d.bytes.push b }

/-- The decoded literal with a malformed escape, whose backslash stays. -/
def Decoded.keep (d : Decoded) (e : MalformedEscape) : Decoded :=
  { bytes := d.bytes.push Ascii.backslash, errors := d.errors.push e }

/-- Decodes the rest of a raw literal, which begins at `offset`. -/
def decodeFrom (offset : Nat) (d : Decoded) : List UInt8 → Decoded
  | [] => d
  | [b] =>
    if b = Ascii.backslash then d.keep (.unterminated offset) else d.push b
  | b :: letter :: rest =>
    if b = Ascii.backslash then
      match byteOf? letter with
      | some byte => decodeFrom (offset + 2) (d.push byte) rest
      | none => decodeFrom (offset + 1) (d.keep (.unrecognized letter offset)) (letter :: rest)
    else
      decodeFrom (offset + 1) (d.push b) (letter :: rest)

/-- Decodes a raw literal and adds its malformed escapes to those of earlier literals. -/
def decodeAfter (errors : Array MalformedEscape) (raw : List UInt8) : Decoded :=
  decodeFrom 0 { errors } raw

/-- Decodes a raw literal. -/
def decode (raw : List UInt8) : Decoded := decodeAfter #[] raw

/-! ### Encoding -/

/-- A byte as it is written inside a literal. -/
def encodeByte (b : UInt8) : List UInt8 :=
  match letterOf? b with
  | some letter => [Ascii.backslash, letter]
  | none => [b]

/-- Writes each byte that has an escape as that escape. -/
def encode (bytes : List UInt8) : List UInt8 := bytes.flatMap encodeByte

end Escape

end CinderFront
