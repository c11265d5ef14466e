/-!
# Text and its bytes

Texts are written as UTF-8. Bytes that come from a source need not be UTF-8, so they are read with
replacement: each longest part that begins a well-formed sequence without completing it, and each
byte that begins none, becomes one replacement character.

* `Utf8.bytes` — the bytes of a text;
* `Utf8.text` — bytes read as text, with replacement.
-/

namespace CinderFront.Utf8

/-- The bytes of a text. -/
def bytes (text : String) : Array UInt8 := text.toUTF8.data

/-- The character that stands for what is not UTF-8. -/
def replacement : Char := Char.ofNat 0xFFFD

/-- A sequence of which some bytes have been read. -/
inductive Sequence
  /-- No byte has been read. -/
  | empty
  /-- The bits read so far, how many bytes are still to come, and the range of the next byte. -/
  | started (bits missing : Nat) (low high : UInt8)
  deriving DecidableEq, Repr

namespace Sequence

/-- Reads the first byte of a sequence. -/
def start (text : String) (b : UInt8) : Sequence × String :=
  if b < 0x80 then (empty, text.push (Char.ofNat b.toNat))
  else if b < 0xC2 then (empty, text.push replacement)
  else if b < 0xE0 then (started (b.toNat - 0xC0) 1 0x80 0xBF, text)
  else if b = 0xE0 then (started 0 2 0xA0 0xBF, text)
  else if b = 0xED then (started 0xD 2 0x80 0x9F, text)
  else if b < 0xF0 then (started (b.toNat - 0xE0) 2 0x80 0xBF, text)
  else if b = 0xF0 then (started 0 3 0x90 0xBF, text)
  else if b < 0xF4 then (started (b.toNat - 0xF0) 3 0x80 0xBF, text)
  else if b = 0xF4 then (started 4 3 0x80 0x8F, text)
  else (empty, text.push replacement)

/-- Reads one byte. One that does not go on with the sequence begins the next. -/
def step : Sequence × String → UInt8 → Sequence × String
  | (empty, text), b => start text b
  | (started bits missing low high, text), b =>
    if low ≤ b ∧ b ≤ high then
      let bits := bits * 64 + (b.toNat - 0x80)
      if missing ≤ 1 then (empty, text.push (Char.ofNat bits))
      else (started bits (missing - 1) 0x80 0xBF, text)
    else start (text.push replacement) b

/-- The text once all bytes have been read. -/
def finish : Sequence × String → String
  | (empty, text) => text
  | (started .., text) => text.push replacement

end Sequence

/-- Bytes read as text, with replacement. -/
def text (bytes : List UInt8) : String :=
  Sequence.finish (bytes.foldl Sequence.step (.empty, ""))

end CinderFront.Utf8
