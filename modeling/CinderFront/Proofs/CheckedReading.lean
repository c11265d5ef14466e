import CinderFront.Proofs.Escape
import CinderFront.Proofs.Uniform

/-!
# Reading with every access checked

A reader looks things up by index, takes the first of some bytes, and asks a table about bytes that
must begin with the byte of the table. Here are the readers once more, with every such step checked
when it is done; a check that fails stops the reading. They do the same as the readers without
checks, whatever the scanner: no check ever fails.

* `Escape.decodeIn?`, `LiteralText.searchIn?`, `OperatorTable.resolveIn?` — decoding, searching and
  asking a table with their checks;
* `Scan.lift` — an action without checks as a part of a checked reading;
* `CheckedScan.decode`, …, `CheckedScan.nextToken` — the readers with their checks;
* `CheckedScan.nextToken_eq` — they read the next token as the readers without checks do.
-/

namespace CinderFront

/-! ### Checks -/

namespace Escape

/-- Decodes the raw literal from the index `i` on; there is no result if an index is out of
bounds. -/
def decodeIn? (raw : Array UInt8) (i : Nat) (d : Decoded) : Option Decoded :=
  if _h : i < raw.size then
    match raw[i]? with
    | none => none
    | some b =>
      if b = Ascii.backslash then
        match raw[i + 1]? with
        | some letter =>
          match byteOf? letter with
          | some byte => decodeIn? raw (i + 2) (d.push byte)
          | none => decodeIn? raw (i + 1) (d.keep (.unrecognized letter i))
        | none => decodeIn? raw (i + 1) (d.keep (.unterminated i))
      else decodeIn? raw (i + 1) (d.push b)
  else some d
termination_by raw.size - i

theorem drop_toList_of_getElem? {raw : Array UInt8} {i : Nat} {b : UInt8}
    (h : raw[i]? = some b) : raw.toList.drop i = b :: raw.toList.drop (i + 1) := by
  obtain ⟨hi, rfl⟩ := Array.getElem?_eq_some_iff.1 h
  rw [List.drop_eq_getElem_cons (by simpa using hi), Array.getElem_toList]

theorem drop_toList_of_size_le {raw : Array UInt8} {i : Nat} (h : raw.size ≤ i) :
    raw.toList.drop i = [] :=
  List.drop_eq_nil_iff.2 (by simpa using h)

/-- Decoding by index stays within bounds, and it decodes what is left of the raw literal. -/
theorem decodeIn?_eq (raw : Array UInt8) (i : Nat) (d : Decoded) :
    decodeIn? raw i d = some (decodeFrom i d (raw.toList.drop i)) := by
  fun_induction decodeIn? raw i d with
  | case1 i d h hnone =>
    rw [Array.getElem?_eq_none_iff] at hnone
    omega
  | case2 i d h letter hletter byte hbyte hb ih =>
    rw [ih, drop_toList_of_getElem? hb, drop_toList_of_getElem? hletter,
      decodeFrom_escape i d hbyte]
  | case3 i d h letter hletter hbyte hb ih =>
    rw [ih, drop_toList_of_getElem? hb, drop_toList_of_getElem? hletter]
    simp [decodeFrom, hbyte]
  | case4 i d h hnone hb ih =>
    rw [Array.getElem?_eq_none_iff] at hnone
    rw [ih, drop_toList_of_getElem? hb, drop_toList_of_size_le hnone, decodeFrom_lone]
    rfl
  | case5 i d h b hb hne ih =>
    rw [ih, drop_toList_of_getElem? hb, decodeFrom_byte i d hne]
  | case6 i d h => rw [drop_toList_of_size_le (Nat.le_of_not_lt h), decodeFrom_nil]

end Escape

namespace LiteralText

/-- Searches the entries from `low` up to `high` for the escape at an offset; there is no result if
an index is out of bounds. -/
def searchIn? (escapes : Array (Nat × Position)) (offset low high : Nat) :
    Option (Option Position) :=
  if _h : low < high then
    let middle := low + (high - low) / 2
    match escapes[middle]? with
    | none => none
    | some (found, position) =>
      if found = offset then some (some position)
      else if found < offset then searchIn? escapes offset (middle + 1) high
      else searchIn? escapes offset low middle
  else some none
termination_by high - low

/-- The search by halves stays within bounds. -/
theorem searchIn?_eq {escapes : Array (Nat × Position)} {high : Nat} (h : high ≤ escapes.size)
    (offset low : Nat) :
    searchIn? escapes offset low high = some (bisect escapes offset low high) := by
  fun_induction searchIn? escapes offset low high with
  | case1 low high hlt middle hnone =>
    have hmiddle : middle = low + (high - low) / 2 := rfl
    rw [Array.getElem?_eq_none_iff] at hnone
    omega
  | case2 low high hlt middle position hhere =>
    rw [bisect, dif_pos hlt]
    simp only [middle] at hhere
    simp [hhere]
  | case3 low high hlt middle found position hhere hne hless ih =>
    rw [ih h, bisect.eq_def escapes offset low high, dif_pos hlt]
    simp only [middle] at hhere ⊢
    simp [hhere, hne, hless]
  | case4 low high hlt middle found position hhere hne hless ih =>
    have hmiddle : middle = low + (high - low) / 2 := rfl
    rw [ih (by omega), bisect.eq_def escapes offset low high, dif_pos hlt]
    simp only [middle] at hhere ⊢
    simp [hhere, hne, hless]
  | case5 low high hlt => rw [bisect, dif_neg hlt]

end LiteralText

namespace OperatorTable

/-- Searches the table; there is no result if the bytes in view do not begin with the byte of the
table. -/
def resolveIn? (table : OperatorTable) (view : List UInt8) : Option (Punctuation × Nat) :=
  if view.head? = some table.trigger then some (table.resolve view) else none

end OperatorTable

/-! ### Readings with checks -/

/-- What stops a reading that is checked. -/
inductive Halt
  | failure (cause : ScanFailure)
  /-- An index is out of bounds, or an assertion does not hold. -/
  | check

/-- An action of a scanner that may be stopped by a check. -/
abbrev CheckedScan (σ δ : Type) := EStateM Halt (Scanner σ δ)

section

variable {σ δ α β : Type}

/-- What comes of an action without checks, in a checked reading. -/
def Halt.ofResult : EStateM.Result ScanFailure (Scanner σ δ) α →
    EStateM.Result Halt (Scanner σ δ) α
  | .ok a s => .ok a s
  | .error e s => .error (.failure e) s

theorem Halt.ofResult_eq_ok_iff {r : EStateM.Result ScanFailure (Scanner σ δ) α} {a : α}
    {s : Scanner σ δ} : ofResult r = .ok a s ↔ r = .ok a s := by
  cases r <;> simp [ofResult]

theorem Halt.exists_of_ofResult_eq_error {r : EStateM.Result ScanFailure (Scanner σ δ) α}
    {halt : Halt} {s : Scanner σ δ} (h : ofResult r = .error halt s) :
    ∃ e, r = .error e s ∧ halt = .failure e := by
  cases r with
  | ok a s' => cases h
  | error e s' =>
    cases h
    exact ⟨e, rfl, rfl⟩

/-- An action without checks, as a part of a checked reading. -/
def Scan.lift (act : Scan σ δ α) : CheckedScan σ δ α := fun s => Halt.ofResult (act s)

theorem Scan.lift_bind (act : Scan σ δ α) (f : α → Scan σ δ β) :
    lift (act >>= f) = lift act >>= fun a => lift (f a) := by
  funext s
  cases h : act s with
  | ok a s' =>
    have hlift : lift act s = .ok a s' := by rw [lift, h, Halt.ofResult]
    rw [EStateM.bind_of_ok hlift]
    simp only [lift, EStateM.bind_of_ok h]
  | error e s' =>
    have hlift : lift act s = .error (.failure e) s' := by rw [lift, h, Halt.ofResult]
    rw [EStateM.bind_of_error hlift]
    simp only [lift, EStateM.bind_of_error h, Halt.ofResult]

theorem Scan.lift_pure (a : α) : lift (pure a : Scan σ δ α) = pure a := rfl

theorem Scan.lift_map (f : α → β) (act : Scan σ δ α) : lift (f <$> act) = f <$> lift act :=
  lift_bind act fun a => pure (f a)

theorem Scan.lift_forM {f : α → Scan σ δ PUnit} {g : α → CheckedScan σ δ PUnit}
    (h : ∀ a, g a = lift (f a)) (as : List α) : as.forM g = lift (as.forM f) := by
  induction as with
  | nil => rfl
  | cons a as ih =>
    show (g a >>= fun _ => as.forM g) = lift (f a >>= fun _ => as.forM f)
    rw [lift_bind, h, ih]

end

namespace CheckedScan

variable {σ δ α : Type}

/-- A check: without a result, the reading stops. -/
def check : Option α → CheckedScan σ δ α
  | some a => pure a
  | none => throw .check

variable [ByteStream σ] [Receiver δ]

/-! ### The readers with their checks -/

/-- Decodes a raw literal by index, and looks the malformed escapes up by index. -/
def decode (raw : LiteralText) (start : Position) : CheckedScan σ δ (List UInt8) := do
  let decoded ← check (Escape.decodeIn? raw.bytes 0 {})
  decoded.errors.toList.forM fun e => do
    let position ← check (LiteralText.searchIn? raw.escapes e.offset 0 raw.escapes.size)
    Scan.lift (Scan.report (.ofEscape e) (position.getD start))
  return decoded.bytes.toList

/-- Reads a string literal. -/
def string (opening : Nat) (form : Transition Literal) (start : Position) :
    CheckedScan σ δ Token.Kind := do
  let raw ← Scan.lift (Scan.literal opening form .unterminatedString)
  let contents ← decode raw start
  let symbol ← Scan.lift (Scan.intern contents)
  return .string symbol

/-- Reads a character literal. Its byte is the first of its contents, which must be there. -/
def character (start : Position) : CheckedScan σ δ (Option Token.Kind) := do
  let raw ← Scan.lift (Scan.literal 1 (Literal.quoted Ascii.singleQuote) .unterminatedCharacter)
  let contents ← decode raw start
  if contents.length = 0 then
    Scan.lift (Scan.report .emptyCharacter start)
    return none
  else
    if 1 < contents.length then
      Scan.lift (Scan.report .overlongCharacter start)
    let byte ← check contents[0]?
    return some (.character byte)

/-- Reads the operator or delimiter at the current byte, or else that byte alone. The table for the
byte is asked about the bytes in view, which must begin with the byte of the table. -/
def mark : CheckedScan σ δ Token.Kind := do
  let view := (← get).view
  match OperatorTable.at? view.current with
  | some table =>
    let (mark, length) ← check (table.resolveIn? view.bytes)
    Scan.lift (Scan.advance length)
    return .mark mark
  | none =>
    Scan.lift (Scan.advance 1)
    match Punctuation.ofByte? view.current with
    | some mark => return .mark mark
    | none => return .unknown view.current

/-- How a token is read that begins at `start`, with the byte `b` and the byte `next` after it. -/
def dispatch (start : Position) (b next : UInt8) : CheckedScan σ δ (Option Token.Kind) :=
  if b = Ascii.doubleQuote then
    if next = Ascii.bar then some <$> string 2 Literal.multiLine start
    else some <$> string 1 (Literal.quoted Ascii.doubleQuote) start
  else if b = Ascii.singleQuote then character start
  else if b = Ascii.slash then Scan.lift (Scan.slash next)
  else if Ascii.isWordStart b then some <$> Scan.lift Scan.word
  else if Ascii.isDigit b then some <$> Scan.lift Scan.number
  else some <$> mark

/-- Reads what stands at the current byte. -/
def lexeme? : CheckedScan σ δ (Option Token.Kind) := fun s =>
  dispatch s.view.position s.view.current s.view.next s

/-! ### No check fails -/

omit [ByteStream σ] in
theorem decode_eq (raw : LiteralText) (start : Position) :
    (decode raw start : CheckedScan σ δ (List UInt8)) = Scan.lift (Scan.decode raw start) := by
  have hdecoded : Escape.decodeIn? raw.bytes 0 {} = some (Escape.decode raw.bytes.toList) :=
    Escape.decodeIn?_eq raw.bytes 0 {}
  have hreports := Scan.lift_forM
    (f := fun e => Scan.report (.ofEscape e) ((raw.escapePosition? e.offset).getD start))
    (g := fun e => (do
      let position ← check (LiteralText.searchIn? raw.escapes e.offset 0 raw.escapes.size)
      Scan.lift (Scan.report (.ofEscape e) (position.getD start)) : CheckedScan σ δ PUnit))
    (fun e => by rw [LiteralText.searchIn?_eq (Nat.le_refl _)]; rfl)
    (Escape.decode raw.bytes.toList).errors.toList
  rw [Scan.decode, Scan.lift_bind, decode, hdecoded]
  exact congrArg (· >>= fun _ => pure (Escape.decode raw.bytes.toList).bytes.toList) hreports

theorem string_eq (opening : Nat) (form : Transition Literal) (start : Position) :
    (string opening form start : CheckedScan σ δ Token.Kind) =
      Scan.lift (Scan.string opening form start) := by
  simp only [string, Scan.string, Scan.lift_bind, decode_eq, Scan.lift_pure]

theorem character_eq (start : Position) :
    (character start : CheckedScan σ δ (Option Token.Kind)) =
      Scan.lift (Scan.character start) := by
  simp only [character, Scan.character, Scan.lift_bind, decode_eq]
  congr 1
  funext raw
  congr 1
  funext contents
  rcases contents with _ | ⟨b, _ | ⟨c, bs⟩⟩
  · simp [Scan.lift_map]
  · simp [check, Scan.lift_pure]
  · simp [check, Scan.lift_map]

omit [Receiver δ] in
/-- A table is asked only about bytes that begin with its own. -/
theorem mark_eq : (mark : CheckedScan σ δ Token.Kind) = Scan.lift Scan.mark := by
  funext s
  rw [mark, Scan.mark, Scan.lift_bind, EStateM.bind_of_ok (a := s) (by rfl),
    EStateM.bind_of_ok (a := s) (by rfl)]
  simp only [Scan.markAt]
  cases htable : OperatorTable.at? s.view.current with
  | some table =>
    have hhead : s.view.bytes.head? = some table.trigger :=
      congrArg some (OperatorTable.trigger_eq_of_at? htable).symm
    simp only [OperatorTable.resolveIn?, if_pos hhead, Scan.lift_bind, Scan.lift_pure]
    rfl
  | none =>
    cases Punctuation.ofByte? s.view.current with
    | some m => simp only [Scan.lift_bind, Scan.lift_pure]
    | none => simp only [Scan.lift_bind, Scan.lift_pure]

theorem dispatch_eq (start : Position) (b next : UInt8) :
    (dispatch start b next : CheckedScan σ δ (Option Token.Kind)) =
      Scan.lift (Scan.dispatch start b next) := by
  simp only [dispatch, Scan.dispatch]
  split_ifs
  · rw [string_eq, Scan.lift_map]
  · rw [string_eq, Scan.lift_map]
  · rw [character_eq]
  · rfl
  · rw [Scan.lift_map]
  · rw [Scan.lift_map]
  · rw [mark_eq, Scan.lift_map]

theorem lexeme?_eq : (lexeme? : CheckedScan σ δ (Option Token.Kind)) = Scan.lift Scan.lexeme? := by
  funext s
  rw [lexeme?, dispatch_eq]
  rfl

/-! ### The next token -/

/-- An attempt to read a token at the current byte; it may come to nothing. -/
def attempt? : CheckedScan σ δ (Option Token) := fun s =>
  let token (kind : Token.Kind) : Token := ⟨kind, s.sourceName, s.view.position⟩
  if s.view.current = Ascii.nul then .ok (some (token .endOfFile)) s
  else (Option.map token <$> lexeme?) s

theorem attempt?_eq (s : Scanner σ δ) : attempt? s = Halt.ofResult (Scan.attempt? s) := by
  rw [attempt?, Scan.attempt?, Scan.attemptAt]
  split_ifs
  · rfl
  · rw [lexeme?_eq, ← Scan.lift_map]
    rfl

/-- The next token, with every access checked on the way. -/
def nextToken (s : Scanner σ δ) : EStateM.Result Halt (Scanner σ δ) Token :=
  match _hb : Scan.skipWhile Ascii.isBlank s with
  | .error e s' => .error (.failure e) s'
  | .ok _ s₁ =>
    match _ho : attempt? s₁ with
    | .error halt s' => .error halt s'
    | .ok (some token) s' => .ok token s'
    | .ok none s' => nextToken s'
termination_by s.ahead
decreasing_by
  rw [attempt?_eq, Halt.ofResult_eq_ok_iff] at _ho
  exact Scan.ahead_lt_of_attempt?_eq_none _hb _ho

/-- No check fails: the next token is read as without checks, whatever the scanner. -/
theorem nextToken_eq (s : Scanner σ δ) : nextToken s = Halt.ofResult (Scan.nextToken s) := by
  fun_induction nextToken s with
  | case1 s e s' hb => rw [Scan.nextToken_eq, EStateM.bind_of_error hb, Halt.ofResult]
  | case2 s u s₁ hb halt s' ho =>
    rw [attempt?_eq] at ho
    obtain ⟨e, he, rfl⟩ := Halt.exists_of_ofResult_eq_error ho
    rw [Scan.nextToken_eq, EStateM.bind_of_ok hb, EStateM.bind_of_error he, Halt.ofResult]
  | case3 s u s₁ hb token s' ho =>
    rw [attempt?_eq, Halt.ofResult_eq_ok_iff] at ho
    rw [Scan.nextToken_eq, EStateM.bind_of_ok hb, EStateM.bind_of_ok ho]
    rfl
  | case4 s u s₁ hb s' ho ih =>
    rw [attempt?_eq, Halt.ofResult_eq_ok_iff] at ho
    rw [ih, Scan.nextToken_eq s, EStateM.bind_of_ok hb, EStateM.bind_of_ok ho]
    rfl

end CheckedScan

end CinderFront
