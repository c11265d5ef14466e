import CinderFront.Proofs.Lookahead
import CinderFront.Punctuation

/-!
# The longest mark that fits

If all marks are searched from long spellings to short ones, the first mark that fits is the longest
one. It is unique, because no two marks are spelled alike.

* `Punctuation.longestFirst`, `Punctuation.longestAt?` — the marks in that order, and the search;
* `Punctuation.longestAt?_eq_some_iff`, `Punctuation.longestAt?_eq_none_iff` — the mark found at a
  text is the longest that begins it, and none is found only where none begins it;
* `Punctuation.longestAt?_bytes` — three bytes in view are enough to find it.
-/

namespace CinderFront.Punctuation

/-- Every mark, those with the longer spellings first. -/
def longestFirst : List Punctuation :=
  [rangeInclusive, powerAssign,
    equal, notEqual, greaterEqual, lessEqual, pipeRight, pipeLeft, shiftLeft, shiftRight,
    diamond, increment, decrement, power, arrow, fatArrow, range, declare, pathSep,
    plusAssign, minusAssign, starAssign,
    assign, plus, minus, star, slash, colon, dot, bang, pipe, greater, less,
    percent, caret, ampersand, tilde, question, atSign, hash, dollar, comma, semicolon,
    leftParen, rightParen, leftBrace, rightBrace, leftBracket, rightBracket, backslash, newline]

/-- The bytes of every mark, those with the longer spellings first. -/
def table : List (List UInt8 × Punctuation) :=
  longestFirst.map fun mark => (mark.bytes, mark)

/-- The longest mark whose spelling begins `text`. -/
def longestAt? (text : List UInt8) : Option Punctuation :=
  (table.find? fun entry => entry.1.isPrefixOf text).map (·.2)

theorem mem_longestFirst (mark : Punctuation) : mark ∈ longestFirst := by
  cases mark <;> decide

/-! ### The bytes of marks -/

/-- No mark has a NUL, a blank, a quote, a letter, a digit or an underscore in it. -/
theorem mem_bytes (m : Punctuation) : ∀ b ∈ m.bytes, b ≠ Ascii.nul ∧ Ascii.isBlank b = false ∧
    Ascii.isWordByte b = false ∧ b ≠ Ascii.doubleQuote ∧ b ≠ Ascii.singleQuote := by
  have hall : (m.bytes.all fun b => b != Ascii.nul && !Ascii.isBlank b && !Ascii.isWordByte b &&
      b != Ascii.doubleQuote && b != Ascii.singleQuote) = true := by
    cases m <;> decide
  intro b hb
  have hb := List.all_eq_true.1 hall b hb
  simpa [and_assoc] using hb

theorem longestAt?_bytes_self (m : Punctuation) : longestAt? m.bytes = some m := by
  cases m <;> decide

theorem bytes_injective {m n : Punctuation} (h : m.bytes = n.bytes) : m = n := by
  have hm := longestAt?_bytes_self m
  rw [h, longestAt?_bytes_self n] at hm
  exact (Option.some.inj hm).symm

/-- Only the slash itself begins with a slash. -/
theorem eq_slash_of_mem_head? {m : Punctuation} (h : m.bytes.head? = some Ascii.slash) :
    m = slash := by
  revert h
  cases m <;> decide

theorem pairwise_longestFirst :
    longestFirst.Pairwise fun m n => n.bytes.length ≤ m.bytes.length := by
  decide

/-! ### The search -/

theorem longestAt?_eq_find? (text : List UInt8) :
    longestAt? text = longestFirst.find? fun m => m.bytes.isPrefixOf text := by
  rw [longestAt?, table, List.find?_map, Option.map_map]
  exact Option.map_id'

theorem longestAt?_eq_none_iff {text : List UInt8} :
    longestAt? text = none ↔ ∀ m : Punctuation, ¬ m.bytes <+: text := by
  rw [longestAt?_eq_find?, List.find?_eq_none]
  constructor
  · intro h m hm
    exact h m (mem_longestFirst m) (List.isPrefixOf_iff_prefix.2 hm)
  · intro h m _ hm
    exact h m (List.isPrefixOf_iff_prefix.1 hm)

theorem longest_of_longestAt? {text : List UInt8} {m : Punctuation}
    (h : longestAt? text = some m) :
    m.bytes <+: text ∧ ∀ n : Punctuation, n.bytes <+: text → n.bytes.length ≤ m.bytes.length := by
  rw [longestAt?_eq_find?, List.find?_eq_some_iff_append] at h
  obtain ⟨hm, before, after, hlist, hbefore⟩ := h
  refine ⟨List.isPrefixOf_iff_prefix.1 hm, fun n hn => ?_⟩
  -- A mark before `m` in the list does not fit, and one behind it is no longer.
  have hmem := mem_longestFirst n
  have hpairwise := pairwise_longestFirst
  rw [hlist] at hmem hpairwise
  rcases List.mem_append.1 hmem with hmem | hmem
  · have hnot := hbefore n hmem
    rw [List.isPrefixOf_iff_prefix.2 hn] at hnot
    cases hnot
  · rcases List.mem_cons.1 hmem with rfl | hmem
    · exact Nat.le_refl _
    · exact (List.pairwise_cons.1 (List.pairwise_append.1 hpairwise).2.1).1 n hmem

/-- The mark that is found at a text is the longest one that begins it. -/
theorem longestAt?_eq_some_iff {text : List UInt8} {m : Punctuation} :
    longestAt? text = some m ↔ m.bytes <+: text ∧
      ∀ n : Punctuation, n.bytes <+: text → n.bytes.length ≤ m.bytes.length := by
  refine ⟨longest_of_longestAt?, fun ⟨hm, hlongest⟩ => ?_⟩
  cases hfound : longestAt? text with
  | none => exact absurd hm (longestAt?_eq_none_iff.1 hfound m)
  | some n =>
    obtain ⟨hn, hlongest'⟩ := longest_of_longestAt? hfound
    have hlen := Nat.le_antisymm (hlongest n hn) (hlongest' m hm)
    rw [bytes_injective ((List.prefix_of_prefix_length_le hn hm (Nat.le_of_eq hlen)).eq_of_length
      hlen)]

/-- What is in view is enough to find the mark that a text begins with. -/
theorem longestAt?_bytes {σ : Type} [ByteStream σ] {v : Lookahead σ} {text : List UInt8}
    (h : v.Shows text) : longestAt? v.bytes = longestAt? text := by
  rw [longestAt?_eq_find?, longestAt?_eq_find?]
  congr 1
  funext m
  rw [Bool.eq_iff_iff, List.isPrefixOf_iff_prefix, List.isPrefixOf_iff_prefix]
  exact h.isPrefix_bytes_iff (fun b hb => (mem_bytes m b hb).1) (length_bytes_le m)

end CinderFront.Punctuation
