import CinderFront.Ascii

/-!
# Reserved words

A word of the source is a keyword, a mode or an identifier. Keywords are the vocabulary of
statements and expressions; modes say how a binding or a parameter is held. Each reserved word has
one spelling, in lower case, and words are compared byte by byte.

* `Keyword.ofLength`, `Mode.table` — what a word is compared with: the keywords of its length, and
  all modes;
* `Keyword.ofBytes?`, `Mode.ofBytes?` — the reserved word with the given spelling, if there is one.
-/

namespace CinderFront

/-- A word of the statement and expression vocabulary. -/
inductive Keyword
  | let | fn | if | else | match | while | for | in | loop | break | continue | return
  | struct | enum | trait | impl | import | pub | true | false | and | or | not | as
  deriving DecidableEq, Repr

/-- A word that says how a binding or a parameter is held. -/
inductive Mode
  | mut | const | ref | move
  deriving DecidableEq, Repr

/-! ### Keywords -/

/-- Every keyword, in the order of declaration. -/
def Keyword.all : List Keyword :=
  [.let, .fn, .if, .else, .match, .while, .for, .in, .loop, .break, .continue, .return,
    .struct, .enum, .trait, .impl, .import, .pub, .true, .false, .and, .or, .not, .as]

/-- How the keyword is written in a source. -/
def Keyword.spelling : Keyword → String
  | .let => "let"
  | .fn => "fn"
  | .if => "if"
  | .else => "else"
  | .match => "match"
  | .while => "while"
  | .for => "for"
  | .in => "in"
  | .loop => "loop"
  | .break => "break"
  | .continue => "continue"
  | .return => "return"
  | .struct => "struct"
  | .enum => "enum"
  | .trait => "trait"
  | .impl => "impl"
  | .import => "import"
  | .pub => "pub"
  | .true => "true"
  | .false => "false"
  | .and => "and"
  | .or => "or"
  | .not => "not"
  | .as => "as"

/-- The name of the keyword in the inspection form of a token: its spelling with a capital. -/
def Keyword.name (k : Keyword) : String := k.spelling.capitalize

/-- The keywords of so many bytes, by their spellings. -/
def Keyword.ofLength : Nat → List (String × Keyword)
  | 2 => [("fn", .fn), ("if", .if), ("in", .in), ("or", .or), ("as", .as)]
  | 3 => [("let", .let), ("for", .for), ("pub", .pub), ("and", .and), ("not", .not)]
  | 4 => [("else", .else), ("loop", .loop), ("enum", .enum), ("impl", .impl), ("true", .true)]
  | 5 => [("match", .match), ("while", .while), ("break", .break), ("trait", .trait),
      ("false", .false)]
  | 6 => [("return", .return), ("struct", .struct), ("import", .import)]
  | 8 => [("continue", .continue)]
  | _ => []

/-- The keyword that the word `w` spells. Only keywords of its length are looked at. -/
def Keyword.ofBytes? (w : List UInt8) : Option Keyword :=
  ((Keyword.ofLength w.length).find? fun entry => Ascii.codes entry.1 == w).map (·.2)

theorem Keyword.mem_all (k : Keyword) : k ∈ Keyword.all := by
  cases k <;> decide

/-! ### Modes -/

/-- Every mode, in the order of declaration. -/
def Mode.all : List Mode := [.mut, .const, .ref, .move]

/-- How the mode is written in a source. -/
def Mode.spelling : Mode → String
  | .mut => "mut"
  | .const => "const"
  | .ref => "ref"
  | .move => "move"

/-- The name of the mode in the inspection form of a token: its spelling with a capital. -/
def Mode.name (m : Mode) : String := m.spelling.capitalize

/-- The modes, by their spellings. -/
def Mode.table : List (String × Mode) :=
  [("mut", .mut), ("const", .const), ("ref", .ref), ("move", .move)]

/-- The mode that the word `w` spells. -/
def Mode.ofBytes? (w : List UInt8) : Option Mode :=
  (Mode.table.find? fun entry => Ascii.codes entry.1 == w).map (·.2)

theorem Mode.mem_all (m : Mode) : m ∈ Mode.all := by
  cases m <;> decide

/-! ### The tables and the spellings -/

theorem Keyword.eq_spelling_of_mem {n : Nat} {entry : String × Keyword}
    (h : entry ∈ Keyword.ofLength n) : entry.1 = entry.2.spelling := by
  revert entry
  unfold Keyword.ofLength
  split <;> decide

theorem Mode.eq_spelling_of_mem {entry : String × Mode} (h : entry ∈ Mode.table) :
    entry.1 = entry.2.spelling := by
  revert entry
  decide

theorem Keyword.ofBytes?_spelling (k : Keyword) :
    Keyword.ofBytes? (Ascii.codes k.spelling) = some k := by
  cases k <;> decide

theorem Mode.ofBytes?_spelling (m : Mode) :
    Mode.ofBytes? (Ascii.codes m.spelling) = some m := by
  cases m <;> decide

theorem Keyword.ofBytes?_mode_spelling (m : Mode) :
    Keyword.ofBytes? (Ascii.codes m.spelling) = none := by
  cases m <;> decide

end CinderFront
