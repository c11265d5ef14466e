import CinderFront.Proofs.Layout

/-!
# Every token is as long as it can be

Marks, words and numbers have no end of their own: each goes on for as long as the text allows. This
module says what that means for each of the three and that every token of a scan has it.

* `MarkMatch` — no longer mark begins the text at its place;
* `WordMatch` — a word is the longest run of its bytes, and its spelling decides what it is;
* `NumberMatch` — so is a number, which has a fraction exactly if a full stop follows that does not
  begin a range;
* `LongestMatch` — what is said of a token, and which tokens are words and numbers;
* `scan_longestMatch` — every token of a scan is the longest match at its place.
-/

namespace CinderFront

/-! ### What a longest match is -/

namespace Token.Kind

def IsWord : Token.Kind → Prop
  | mode _ | keyword _ | identifier _ => True
  | _ => False

def IsNumber : Token.Kind → Prop
  | integer _ | float _ => True
  | _ => False

end Token.Kind

/-- The word `x`, before the text `rest`, is of this kind. -/
structure WordMatch (kind : Token.Kind) (x rest : List UInt8) : Prop where
  eq_run : x = (x ++ rest).takeWhile Ascii.isWordByte
  mode_iff : ∀ m : Mode, kind = .mode m ↔ x = Ascii.codes m.spelling
  keyword_iff : ∀ k : Keyword, kind = .keyword k ↔
    (∀ m : Mode, x ≠ Ascii.codes m.spelling) ∧ x = Ascii.codes k.spelling
  identifier_iff : ∀ text, kind = .identifier text ↔
    (∀ m : Mode, x ≠ Ascii.codes m.spelling) ∧ (∀ k : Keyword, x ≠ Ascii.codes k.spelling) ∧
      text = x

/-- The number `x`, before the text `rest`, is of this kind. -/
structure NumberMatch (kind : Token.Kind) (x rest : List UInt8) : Prop where
  integer : ∀ text, kind = .integer text →
    text = x ∧ x = (x ++ rest).takeWhile Ascii.isNumberByte ∧
      ∀ r, rest = Ascii.fullStop :: r → r.head? = some Ascii.fullStop
  float_iff : ∀ text, kind = .float text ↔
    ∃ r, (x ++ rest).dropWhile Ascii.isNumberByte = Ascii.fullStop :: r ∧
      r.head? ≠ some Ascii.fullStop ∧
      text = (x ++ rest).takeWhile Ascii.isNumberByte ++
        Ascii.fullStop :: mantissa (r.takeWhile Ascii.isNumberByte)

/-- The mark `x`, before the text `rest`, is `m`. -/
structure MarkMatch (m : Punctuation) (x rest : List UInt8) : Prop where
  eq_bytes : x = m.bytes
  longest : ∀ n : Punctuation, n.bytes <+: x ++ rest → n.bytes.length ≤ m.bytes.length
  slash : m = .slash → rest.head? ≠ some Ascii.slash ∧ rest.head? ≠ some Ascii.asterisk

/-- A token of this kind, with the text `x` before the text `rest`, is as long as it can be. -/
structure LongestMatch (kind : Token.Kind) (x rest : List UInt8) : Prop where
  mark : ∀ m, kind = .mark m → MarkMatch m x rest
  isWord_iff : kind.IsWord ↔ ∃ b ∈ x.head?, Ascii.isWordStart b = true
  isNumber_iff : kind.IsNumber ↔ ∃ b ∈ x.head?, Ascii.isDigit b = true
  word : kind.IsWord → WordMatch kind x rest
  number : kind.IsNumber → NumberMatch kind x rest

/-! ### Words -/

theorem Lexeme.isWord_ofWord (symbols : SymbolTable) (word : List UInt8) :
    ((ofWord word).kind symbols).IsWord := by
  unfold ofWord
  cases Mode.ofBytes? word with
  | some m => trivial
  | none => cases Keyword.ofBytes? word <;> trivial

/-- The spelling of a word decides what it is; modes come before keywords. -/
theorem Lexeme.wordMatch_ofWord (symbols : SymbolTable) {x rest : List UInt8}
    (hx : x = (x ++ rest).takeWhile Ascii.isWordByte) :
    WordMatch ((ofWord x).kind symbols) x rest := by
  have hmode : ∀ m, Mode.ofBytes? x = some m ↔ x = Ascii.codes m.spelling :=
    fun m => Mode.ofBytes?_eq_some_iff
  have hkeyword : ∀ k, Keyword.ofBytes? x = some k ↔ x = Ascii.codes k.spelling :=
    fun k => Keyword.ofBytes?_eq_some_iff
  refine ⟨hx, fun m => ?_, fun k => ?_, fun text => ?_⟩
  all_goals
    simp only [ofWord, ne_eq, ← hmode, ← hkeyword]
    cases hm : Mode.ofBytes? x with
    | some m' => simp [kind]
    | none =>
      cases hk : Keyword.ofBytes? x with
      | some k' => simp [kind]
      | none => simp [kind, eq_comm]

/-! ### Numbers -/

theorem numberMatch_integer {x rest : List UInt8}
    (hx : x = (x ++ rest).takeWhile Ascii.isNumberByte)
    (hrest : (x ++ rest).dropWhile Ascii.isNumberByte = rest) (h : ¬ AtFraction rest) :
    NumberMatch (.integer x) x rest := by
  constructor
  · intro text hkind
    cases hkind
    refine ⟨rfl, hx, fun r hr => ?_⟩
    by_contra hhead
    exact h ⟨r, hr, hhead⟩
  · intro text
    rw [hrest]
    constructor
    · intro hkind
      cases hkind
    · intro hfloat
      obtain ⟨r, hr, hhead, -⟩ := hfloat
      exact absurd ⟨r, hr, hhead⟩ h

theorem numberMatch_float {x rest r : List UInt8} (text : List UInt8)
    (hr : (x ++ rest).dropWhile Ascii.isNumberByte = Ascii.fullStop :: r)
    (hhead : r.head? ≠ some Ascii.fullStop)
    (htext : text = (x ++ rest).takeWhile Ascii.isNumberByte ++
      Ascii.fullStop :: mantissa (r.takeWhile Ascii.isNumberByte)) :
    NumberMatch (.float text) x rest := by
  constructor
  · intro text' hkind
    cases hkind
  · intro text'
    constructor
    · intro hkind
      cases hkind
      exact ⟨r, hr, hhead, htext⟩
    · intro hfloat
      obtain ⟨r', hr', -, htext'⟩ := hfloat
      rw [hr] at hr'
      cases hr'
      rw [htext, htext']

/-! ### All tokens -/

/-- What begins with no letter, digit or underscore is neither a word nor a number. -/
theorem LongestMatch.of_other {kind : Token.Kind} {b : UInt8} {x rest : List UInt8}
    (hx : x.head? = some b) (hb : Ascii.isWordByte b = false) (hword : ¬ kind.IsWord)
    (hnumber : ¬ kind.IsNumber)
    (hmark : ∀ m, kind = .mark m → MarkMatch m x rest) : LongestMatch kind x rest := by
  obtain ⟨hstart, hdigit⟩ := Ascii.eq_false_of_isWordByte_eq_false hb
  refine ⟨hmark, ?_, ?_, fun h => absurd h hword, fun h => absurd h hnumber⟩
  · simp [hword, hx, hstart]
  · simp [hnumber, hx, hdigit]

theorem LongestMatch.of_word {kind : Token.Kind} {b : UInt8} {x rest : List UInt8}
    (hx : x.head? = some b) (hb : Ascii.isWordStart b = true) (hword : kind.IsWord)
    (h : WordMatch kind x rest) : LongestMatch kind x rest := by
  have hdigit : Ascii.isDigit b ≠ true := fun hdigit => by
    simp [Ascii.isWordStart_eq_false_of_isDigit hdigit] at hb
  have hnumber : ¬ kind.IsNumber := by
    cases kind <;> simp_all [Token.Kind.IsWord, Token.Kind.IsNumber]
  refine ⟨?_, ?_, ?_, fun _ => h, fun h => absurd h hnumber⟩
  · intro m hkind
    subst hkind
    exact absurd hword id
  · simp [hword, hx, hb]
  · simp [hnumber, hx, hdigit]

theorem LongestMatch.of_number {kind : Token.Kind} {b : UInt8} {x rest : List UInt8}
    (hx : x.head? = some b) (hb : Ascii.isDigit b = true) (hnumber : kind.IsNumber)
    (h : NumberMatch kind x rest) : LongestMatch kind x rest := by
  have hstart := Ascii.isWordStart_eq_false_of_isDigit hb
  have hword : ¬ kind.IsWord := by
    cases kind <;> simp_all [Token.Kind.IsWord, Token.Kind.IsNumber]
  refine ⟨?_, ?_, ?_, fun h => absurd h hword, fun _ => h⟩
  · intro m hkind
    subst hkind
    exact absurd hnumber id
  · simp [hword, hx, hstart]
  · simp [hnumber, hx, hb]

/-- A rule reads the longest match. -/
theorem Reads.longestMatch {p : Position} {x rest : List UInt8} {l : Lexeme} {fs : List Finding}
    (symbols : SymbolTable) (h : Reads p (x ++ rest) ⟨some l, x, rest, fs⟩) :
    LongestMatch (l.kind symbols) x rest := by
  generalize htext : x ++ rest = text at h
  generalize ho : (⟨some l, x, rest, fs⟩ : Passage (Option Lexeme)) = o at h
  cases h with
  | string _ | multiLine =>
    obtain ⟨hl, rfl, -, -⟩ := Passage.mk.inj ho
    cases hl
    exact .of_other (b := Ascii.doubleQuote) rfl (by decide) id id (by simp [Lexeme.kind])
  | emptyCharacter _ | lineComment | blockComment _ | openComment _ => simp at ho
  | character hq | overlongCharacter hq =>
    obtain ⟨hl, rfl, -, -⟩ := Passage.mk.inj ho
    cases hl
    obtain ⟨-, rfl, -, -⟩ := Passage.mk.inj hq
    exact .of_other (b := Ascii.singleQuote) rfl (by decide) id id (by simp [Lexeme.kind])
  | word hb =>
    obtain ⟨hl, hx, -, -⟩ := Passage.mk.inj ho
    cases hl
    rw [← hx]
    refine .of_word (b := _) ?_ hb (Lexeme.isWord_ofWord symbols x)
      (Lexeme.wordMatch_ofWord symbols (by rw [htext, hx]))
    simp [hx, Ascii.isWordByte_of_isWordStart hb]
  | integer hb hfraction =>
    obtain ⟨hl, hx, hrest, -⟩ := Passage.mk.inj ho
    cases hl
    rw [← hx]
    refine .of_number ?_ hb trivial
      (numberMatch_integer (by rw [htext, hx]) (by rw [htext, hrest]) (by rwa [hrest]))
    simp [hx, Ascii.isNumberByte_of_isDigit hb]
  | float hb hr hhead =>
    obtain ⟨hl, hx, -, -⟩ := Passage.mk.inj ho
    cases hl
    refine .of_number ?_ hb trivial
      (numberMatch_float _ (by rw [htext, hr]) hhead (by rw [htext]))
    simp [hx, Ascii.isNumberByte_of_isDigit hb]
  | @mark m rest' hm hslash =>
    obtain ⟨hl, rfl, rfl, -⟩ := Passage.mk.inj ho
    cases hl
    obtain ⟨b, r, hbytes⟩ := List.exists_cons_of_ne_nil m.bytes_ne_nil
    have hword := (m.mem_bytes b (by simp [hbytes])).2.2.1
    refine .of_other (b := b) (by rw [hbytes]; rfl) hword id id ?_
    intro n hn
    cases hn
    exact ⟨rfl, (Punctuation.longestAt?_eq_some_iff.1 hm).2, hslash⟩
  | unknown _ _ _ hword _ =>
    obtain ⟨hl, rfl, rfl, -⟩ := Passage.mk.inj ho
    cases hl
    exact .of_other rfl hword id id (by simp [Lexeme.kind])

/-- Every token of a scan is the longest match at its place. -/
theorem scan_longestMatch {source : List UInt8} (hfew : FewStrings source) (sourceName : String) :
    ∃ result, scan (⟨source⟩ : SourceText) sourceName = .ok result ∧
      Layout (fun kind x rest => kind.SpelledBy x ∧ LongestMatch kind x rest) sourceName .start
        (Ascii.beforeNul source) result.tokens := by
  obtain ⟨items, fs, result, hlexes, hscan, htokens, -, -⟩ := exists_scan hfew sourceName
  refine ⟨result, hscan, ?_⟩
  rw [htokens]
  exact hlexes.layout (fun symbols ho => ⟨ho.spelledBy symbols, ho.longestMatch symbols⟩) .new

/-- A range between two numbers, a power and its assignment, and a word that a keyword begins. -/
theorem scan_longestMatch_range :
    FewStrings (Ascii.codes "1..=2**=**iffy") ∧
      ∃ result, scan (⟨Ascii.codes "1..=2**=**iffy"⟩ : SourceText) "range" = .ok result ∧
        Layout (fun kind x rest => kind.SpelledBy x ∧ LongestMatch kind x rest) "range" .start
          (Ascii.beforeNul (Ascii.codes "1..=2**=**iffy")) result.tokens :=
  have hfew : FewStrings (Ascii.codes "1..=2**=**iffy") := fewStrings_of_length_lt (by decide)
  ⟨hfew, scan_longestMatch hfew "range"⟩

end CinderFront
