import CinderFront.OperatorTable
import CinderFront.Scanner.Transition
import CinderFront.Token

/-!
# Reading one token

What stands at the current byte decides how it is read. Blanks and comments are skipped, and so is a
character literal that stands for nothing. What is wrong with the text is reported, and reading goes
on with the best token that can be made of it.

* `Scan.lexeme?` — reads what stands at the current byte; nothing if it is no token;
* `Scan.nextToken` — the next token, however much has to be skipped before it.
-/

namespace CinderFront.Scan

variable {σ δ : Type} [ByteStream σ] [Receiver δ]

/-! ### Literals -/

/-- Decodes a raw literal, and reports each malformed escape at its backslash. The position `start`
would stand in for the position of a backslash that was not recorded. -/
def decode (raw : LiteralText) (start : Position) : Scan σ δ (List UInt8) := do
  let decoded := Escape.decode raw.bytes.toList
  decoded.errors.toList.forM fun e =>
    report (.ofEscape e) ((raw.escapePosition? e.offset).getD start)
  return decoded.bytes.toList

/-- Reads a literal whose opening mark has `opening` bytes, and reports `unterminated` if it does
not end. -/
def literal (opening : Nat) (form : Transition Literal) (unterminated : LexicalError) :
    Scan σ δ LiteralText := do
  advance opening
  let lit ← absorb form {}
  unless lit.isClosed do
    reportHere unterminated
  return lit.raw

/-- Reads a string literal. -/
def string (opening : Nat) (form : Transition Literal) (start : Position) :
    Scan σ δ Token.Kind := do
  let raw ← literal opening form .unterminatedString
  let contents ← decode raw start
  let symbol ← intern contents
  return .string symbol

/-- Reads a character literal. One that stands for no byte is no token; one that stands for more
than one byte is taken for its first. -/
def character (start : Position) : Scan σ δ (Option Token.Kind) := do
  let raw ← literal 1 (Literal.quoted Ascii.singleQuote) .unterminatedCharacter
  match ← decode raw start with
  | [] =>
    report .emptyCharacter start
    return none
  | [byte] => return some (.character byte)
  | byte :: _ =>
    report .overlongCharacter start
    return some (.character byte)

/-! ### Comments -/

/-- Skips a line comment; the line break is not part of it. -/
def lineComment : Scan σ δ Unit := do
  advance 2
  skipWhile (· != Ascii.lineFeed)

/-- Skips a block comment, and reports one that does not end. -/
def blockComment : Scan σ δ Unit := do
  advance 2
  let comment ← absorb Comment.transition .inside
  unless comment = .closed do
    reportHere .unterminatedComment

/-- Skips a comment, or reads the slash that begins none. -/
def slash (next : UInt8) : Scan σ δ (Option Token.Kind) :=
  if next = Ascii.slash then do
    lineComment
    return none
  else if next = Ascii.asterisk then do
    blockComment
    return none
  else do
    advance 1
    return some (.mark .slash)

/-! ### Words, numbers and marks -/

/-- What a word is: a mode, a keyword or a name. -/
def classify (word : List UInt8) : Token.Kind :=
  match Mode.ofBytes? word with
  | some mode => .mode mode
  | none =>
    match Keyword.ofBytes? word with
    | some keyword => .keyword keyword
    | none => .identifier word

/-- Reads a word, which is as long as possible. -/
def word : Scan σ δ Token.Kind := do
  let text ← absorb (collect Ascii.isWordByte) #[]
  return classify text.toList

/-- Whether a number goes on after its integral part: a full stop follows that does not begin a
range. -/
def atFraction (s : Scanner σ δ) : Bool :=
  s.view.current == Ascii.fullStop && s.view.next != Ascii.fullStop

/-- Reads a number. The fraction after a full stop is never empty: a missing one is written as a
zero. -/
def number : Scan σ δ Token.Kind := do
  let integral ← absorb (collect Ascii.isNumberByte) #[]
  if atFraction (← get) then
    advance 1
    let fraction ← absorb (collect Ascii.isNumberByte) #[]
    let fraction := if fraction.isEmpty then #[Ascii.zero] else fraction
    return .float (integral.toList ++ Ascii.fullStop :: fraction.toList)
  else
    return .integer integral.toList

/-- The operator or delimiter at the beginning of the bytes in view, of which `b` is the first, or
else that byte alone, and how many bytes it takes. -/
def markAt (b : UInt8) (view : List UInt8) : Token.Kind × Nat :=
  match OperatorTable.at? b with
  | some table =>
    let (mark, length) := table.resolve view
    (.mark mark, length)
  | none =>
    match Punctuation.ofByte? b with
    | some mark => (.mark mark, 1)
    | none => (.unknown b, 1)

/-- Reads the operator or delimiter at the current byte, or else that byte alone. -/
def mark : Scan σ δ Token.Kind := do
  let view := (← get).view
  let (kind, length) := markAt view.current view.bytes
  advance length
  return kind

/-! ### One token -/

/-- How a token is read that begins at `start`, with the byte `b` and the byte `next` after it. -/
def dispatch (start : Position) (b next : UInt8) : Scan σ δ (Option Token.Kind) :=
  if b = Ascii.doubleQuote then
    if next = Ascii.bar then some <$> string 2 Literal.multiLine start
    else some <$> string 1 (Literal.quoted Ascii.doubleQuote) start
  else if b = Ascii.singleQuote then character start
  else if b = Ascii.slash then slash next
  else if Ascii.isWordStart b then some <$> word
  else if Ascii.isDigit b then some <$> number
  else some <$> mark

/-- Reads what stands at the current byte, which is not the end of the input. A comment and an empty
character literal are no token. -/
def lexeme? : Scan σ δ (Option Token.Kind) := fun s =>
  dispatch s.view.position s.view.current s.view.next s

/-! ### Every attempt moves on -/

theorem keeps_decode (raw : LiteralText) (start : Position) :
    EStateM.Keeps Scanner.ahead (decode raw start : Scan σ δ (List UInt8)) :=
  .bind (.forM (fun _ => keeps_report _ _) _) fun _ => .pure _ _

theorem ahead_literal_lt {opening : Nat} (form : Transition Literal) (unterminated : LexicalError)
    {s : Scanner σ δ} (hopening : 0 < opening) (h : s.view.current ≠ Ascii.nul) :
    (literal opening form unterminated s).after.ahead < s.ahead := by
  refine EStateM.after_bind_lt (ahead_advance_lt hopening h) fun _ => ?_
  refine .bind (keeps_absorb form {}) fun lit => ?_
  split
  · exact .bind (.pure _ _) fun _ => .pure _ _
  · exact .bind (keeps_reportHere _) fun _ => .pure _ _

theorem ahead_string_lt {opening : Nat} (form : Transition Literal) (start : Position)
    {s : Scanner σ δ} (hopening : 0 < opening) (h : s.view.current ≠ Ascii.nul) :
    (string opening form start s).after.ahead < s.ahead := by
  refine EStateM.after_bind_lt (ahead_literal_lt form _ hopening h) fun raw => ?_
  exact .bind (keeps_decode raw start) fun _ => .bind (keeps_intern _) fun _ => .pure _ _

theorem ahead_character_lt (start : Position) {s : Scanner σ δ}
    (h : s.view.current ≠ Ascii.nul) : (character start s).after.ahead < s.ahead := by
  refine EStateM.after_bind_lt (ahead_literal_lt _ _ Nat.one_pos h) fun raw => ?_
  refine .bind (keeps_decode raw start) fun contents => ?_
  split
  · exact .bind (keeps_report _ _) fun _ => .pure _ _
  · exact .pure _ _
  · exact .bind (keeps_report _ _) fun _ => .pure _ _

omit [Receiver δ] in
theorem ahead_lineComment_lt {s : Scanner σ δ} (h : s.view.current ≠ Ascii.nul) :
    (lineComment s).after.ahead < s.ahead :=
  EStateM.after_bind_lt (ahead_advance_lt Nat.two_pos h) fun _ => keeps_skipWhile _

theorem ahead_blockComment_lt {s : Scanner σ δ} (h : s.view.current ≠ Ascii.nul) :
    (blockComment s).after.ahead < s.ahead := by
  refine EStateM.after_bind_lt (ahead_advance_lt Nat.two_pos h) fun _ => ?_
  refine .bind (keeps_absorb _ _) fun comment => ?_
  split
  · exact .pure _ _
  · exact keeps_reportHere _

theorem ahead_collect_lt {p : UInt8 → Bool} {s : Scanner σ δ}
    (h : s.view.current ≠ Ascii.nul) (hp : p s.view.current = true) :
    (absorb (collect p) #[] s).after.ahead < s.ahead :=
  ahead_absorb_lt h (by simp [collect, hp]) rfl

theorem ahead_word_lt {s : Scanner σ δ} (h : s.view.current ≠ Ascii.nul)
    (hb : Ascii.isWordByte s.view.current = true) : (word s).after.ahead < s.ahead :=
  EStateM.after_bind_lt (ahead_collect_lt h hb) fun _ => .pure _ _

theorem ahead_number_lt {s : Scanner σ δ} (h : s.view.current ≠ Ascii.nul)
    (hb : Ascii.isNumberByte s.view.current = true) : (number s).after.ahead < s.ahead := by
  refine EStateM.after_bind_lt (ahead_collect_lt h hb) fun integral => ?_
  refine .bind (fun _ => Nat.le_refl _) fun s' => ?_
  split
  · exact .bind (keeps_advance _) fun _ => .bind (keeps_absorb _ _) fun _ => .pure _ _
  · exact .pure _ _

theorem ahead_slash_lt (next : UInt8) {s : Scanner σ δ} (h : s.view.current ≠ Ascii.nul) :
    (slash next s).after.ahead < s.ahead := by
  unfold slash
  split
  · exact EStateM.after_bind_lt (ahead_lineComment_lt h) fun _ => .pure _ _
  · split
    · exact EStateM.after_bind_lt (ahead_blockComment_lt h) fun _ => .pure _ _
    · exact EStateM.after_bind_lt (ahead_advance_lt Nat.one_pos h) fun _ => .pure _ _

/-- What is read as a mark takes at least one byte. -/
theorem markAt_length_pos (b : UInt8) (view : List UInt8) : 0 < (markAt b view).2 := by
  unfold markAt
  split
  · next table htable => exact OperatorTable.resolve_length_pos htable view
  · split <;> exact Nat.one_pos

omit [Receiver δ] in
theorem ahead_mark_lt {s : Scanner σ δ} (h : s.view.current ≠ Ascii.nul) :
    (mark s).after.ahead < s.ahead := by
  have hget : (get : Scan σ δ (Scanner σ δ)) s = .ok s s := rfl
  rw [mark, EStateM.bind_of_ok hget]
  exact EStateM.after_bind_lt (ahead_advance_lt (markAt_length_pos _ _) h) fun _ => .pure _ _

/-- An attempt to read a token moves on, whatever comes of it. -/
theorem ahead_lexeme?_lt {s : Scanner σ δ} (h : s.view.current ≠ Ascii.nul) :
    (lexeme? s).after.ahead < s.ahead := by
  unfold lexeme? dispatch
  split
  · split <;> rw [EStateM.after_map]
    · exact ahead_string_lt _ _ Nat.two_pos h
    · exact ahead_string_lt _ _ Nat.one_pos h
  · split
    · exact ahead_character_lt _ h
    · split
      · exact ahead_slash_lt _ h
      · split
        · next hb =>
          rw [EStateM.after_map]
          exact ahead_word_lt h (Ascii.isWordByte_of_isWordStart hb)
        · split
          · next hb =>
            rw [EStateM.after_map]
            exact ahead_number_lt h (Ascii.isNumberByte_of_isDigit hb)
          · rw [EStateM.after_map]
            exact ahead_mark_lt h

/-! ### The next token -/

/-- The next token. What is no token is skipped; at the end of the input, the token is the end. -/
def nextToken (s : Scanner σ δ) : EStateM.Result ScanFailure (Scanner σ δ) Token :=
  match _hb : skipWhile Ascii.isBlank s with
  | .error e s' => .error e s'
  | .ok _ s₁ =>
    let token (kind : Token.Kind) : Token := ⟨kind, s₁.sourceName, s₁.view.position⟩
    if _hn : s₁.view.current = Ascii.nul then .ok (token .endOfFile) s₁
    else match _hl : lexeme? s₁ with
      | .error e s' => .error e s'
      | .ok (some kind) s' => .ok (token kind) s'
      | .ok none s' => nextToken s'
termination_by s.ahead
decreasing_by
  have hskip := keeps_skipWhile (σ := σ) (δ := δ) Ascii.isBlank s
  have hlexeme := ahead_lexeme?_lt _hn
  simp only [_hb, _hl, EStateM.Result.after_ok] at hskip hlexeme
  omega

end CinderFront.Scan
