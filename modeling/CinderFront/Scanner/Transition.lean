import CinderFront.Scanner.Basic

/-!
# How the bytes of each token are taken

One transition for each form of token that is read byte by byte. A transition sees the current byte
and the one after it, and nothing else of the input.

* `collect` — the longest run of bytes of one class;
* `Comment.transition` — a block comment, up to the first end mark;
* `LiteralText` — the bytes of a literal before its escapes are decoded, with the position of every
  backslash that begins an escape;
* `Literal.quoted`, `Literal.multiLine` — the two forms of literals.
-/

namespace CinderFront

/-- Takes bytes while they are in the class `p`. -/
def collect (p : UInt8 → Bool) : Transition (Array UInt8) where
  stops _ b := !p b
  take run b _ _ := run.push b

/-! ### Block comments -/

/-- How far a block comment has been read. -/
inductive Comment
  | inside
  /-- The asterisk of the end mark has been taken, and the slash is next. -/
  | ending
  | closed
  deriving DecidableEq, Repr

/-- How far the comment has been read once the current byte is taken. -/
def Comment.take : Comment → UInt8 → UInt8 → Comment
  | .inside, b, next => if b = Ascii.asterisk ∧ next = Ascii.slash then .ending else .inside
  | .ending, _, _ => .closed
  | .closed, _, _ => .closed

/-- Takes bytes through the first end mark. -/
def Comment.transition : Transition Comment where
  stops comment _ := comment == .closed
  take comment b next _ := comment.take b next

/-! ### Raw literals -/

/-- The bytes of a literal before decoding, and for every escape the offset of its backslash and the
position of that backslash in the source, in ascending order. -/
structure LiteralText where
  bytes : Array UInt8 := #[]
  escapes : Array (Nat × Position) := #[]
  deriving DecidableEq, Repr

namespace LiteralText

/-- The literal with one more byte. -/
def push (raw : LiteralText) (b : UInt8) : LiteralText :=
  { raw with bytes := raw.bytes.push b }

/-- The literal with one more backslash, which begins an escape. -/
def pushBackslash (raw : LiteralText) (position : Position) : LiteralText :=
  let ⟨bytes, escapes⟩ := raw
  let offset := bytes.size
  ⟨bytes.push Ascii.backslash, escapes.push (offset, position)⟩

/-- Searches the entries from `low` up to `high` for the escape at an offset, by halving. -/
def bisect (escapes : Array (Nat × Position)) (offset low high : Nat) : Option Position :=
  if _h : low < high then
    let middle := low + (high - low) / 2
    match escapes[middle]? with
    | none => none
    | some (found, position) =>
      if found = offset then some position
      else if found < offset then bisect escapes offset (middle + 1) high
      else bisect escapes offset low middle
  else none
termination_by high - low

/-- The position of the escape that begins at an offset of the raw bytes. -/
def escapePosition? (raw : LiteralText) (offset : Nat) : Option Position :=
  bisect raw.escapes offset 0 raw.escapes.size

end LiteralText

/-! ### Literals -/

/-- Where the next byte of a literal stands. -/
inductive LiteralPhase
  | content
  /-- Directly after a backslash. -/
  | escaped
  /-- At the beginning of a line of a multi-line string, before its bar. -/
  | margin
  | closed
  deriving DecidableEq, Repr

/-- A literal that is being read. -/
structure Literal where
  raw : LiteralText := {}
  phase : LiteralPhase := .content
  deriving DecidableEq, Repr

namespace Literal

/-- Whether the closing quote has been taken. -/
def isClosed (lit : Literal) : Bool := lit.phase == .closed

/-- A byte of the contents of a literal that ends with `quote`. -/
def content (quote : UInt8) (raw : LiteralText) (b : UInt8) (position : Position) : Literal :=
  if b = quote then { raw, phase := .closed }
  else if b = Ascii.backslash then { raw := raw.pushBackslash position, phase := .escaped }
  else { raw := raw.push b, phase := .content }

/-- Takes bytes through the first `quote` that is not escaped. Line breaks are contents. -/
def quoted (quote : UInt8) : Transition Literal where
  stops lit _ := lit.isClosed
  take
    | ⟨raw, .escaped⟩, b, _, _ => ⟨raw.push b, .content⟩
    | ⟨raw, _⟩, b, _, position => content quote raw b position

/-- A byte of the contents of a multi-line string. A line feed begins a margin, and a backslash
before a line feed does not hide it. -/
def lineContent (raw : LiteralText) (b next : UInt8) (position : Position) : Literal :=
  if b = Ascii.lineFeed then { raw := raw.push b, phase := .margin }
  else if b = Ascii.backslash ∧ next = Ascii.lineFeed then
    { raw := raw.pushBackslash position, phase := .content }
  else content Ascii.doubleQuote raw b position

/-- Takes bytes through the first double quote that is not escaped. At the beginning of a line,
indentation and a bar are skipped; a line without its bar is reported at its first other byte, which
is contents. -/
def multiLine : Transition Literal where
  stops lit _ := lit.isClosed
  take
    | ⟨raw, .escaped⟩, b, _, _ => ⟨raw.push b, .content⟩
    | ⟨raw, .margin⟩, b, next, position =>
      if Ascii.isIndent b then ⟨raw, .margin⟩
      else if b = Ascii.bar then ⟨raw, .content⟩
      else lineContent raw b next position
    | ⟨raw, _⟩, b, next, position => lineContent raw b next position
  complaint lit b :=
    if lit.phase == .margin && !Ascii.isIndent b && b != Ascii.bar then some .missingDelimiter
    else none

end Literal

end CinderFront
