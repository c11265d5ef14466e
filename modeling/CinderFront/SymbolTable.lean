import Std.Data.TreeMap

/-!
# Symbols for byte strings

The contents of string literals outlive the scan that read them. A symbol table keeps each byte
string once and numbers it; equal contents have equal symbols. Symbol zero is the empty string, in
every table. Numbers have 32 bits, so a table may run out of them.

* `SymbolTable.tryIntern` — the symbol of a byte string, which is added if it is new, as long as
  there are numbers left;
* `SymbolTable.insert` — its second half, which adds the string unless it is there by now;
* `SymbolTable.intern` — the same with room taken for granted;
* `SymbolTable.lookup?` — the byte string of a symbol.
-/

namespace CinderFront

/-- The number of a byte string in a symbol table. -/
structure Symbol where
  index : Nat
  deriving DecidableEq, Repr

namespace Symbol

/-- The symbol of the empty string. -/
def empty : Symbol := ⟨0⟩

/-- Symbols are ordered by their numbers. -/
instance : Ord Symbol := ⟨fun a b => compare a.index b.index⟩

end Symbol

/-- Byte strings in the order in which they were first seen, with the number of each. -/
structure SymbolTable where
  strings : Array (List UInt8)
  index : Std.TreeMap (List UInt8) Nat

/-- A table has no number left for a new string. It holds so many already. -/
structure CapacityError where
  count : Nat
  deriving DecidableEq, Repr

namespace SymbolTable

/-- The largest number of a 32-bit symbol. -/
def maxIndex : Nat := UInt32.size - 1

/-- The table that holds the empty string only. -/
def new : SymbolTable :=
  ⟨#[[]], (∅ : Std.TreeMap (List UInt8) Nat).insert [] 0⟩

instance : Inhabited SymbolTable := ⟨new⟩

/-- The number of strings in the table. -/
def size (t : SymbolTable) : Nat := t.strings.size

/-- Whether the table holds no string at all. -/
def isEmpty (t : SymbolTable) : Bool := t.strings.isEmpty

/-- The symbol of a byte string that the table holds. -/
def find? (t : SymbolTable) (bytes : List UInt8) : Option Symbol :=
  (t.index[bytes]?).map Symbol.mk

/-- The byte string of a symbol. -/
def lookup? (t : SymbolTable) (symbol : Symbol) : Option (List UInt8) :=
  t.strings[symbol.index]?

/-- The table with one more string at its end. -/
def push (t : SymbolTable) (bytes : List UInt8) : SymbolTable :=
  let ⟨strings, index⟩ := t
  let n := strings.size
  ⟨strings.push bytes, index.insert bytes n⟩

/-- The symbol of a byte string, with room taken for granted. A string that the table does not hold
is added at its end. -/
def intern (t : SymbolTable) (bytes : List UInt8) : Symbol × SymbolTable :=
  match t.find? bytes with
  | some symbol => (symbol, t)
  | none => (⟨t.size⟩, t.push bytes)

/-- The table with a string for which an earlier search came to nothing. It is searched once more,
since the string may have been added in the meantime; a new one needs a number that fits into 32
bits. -/
def insert (t : SymbolTable) (bytes : List UInt8) :
    Except CapacityError (Symbol × SymbolTable) :=
  match t.find? bytes with
  | some symbol => .ok (symbol, t)
  | none => if t.size ≤ maxIndex then .ok (⟨t.size⟩, t.push bytes) else .error ⟨t.size⟩

/-- The symbol of a byte string, or an error if a new string would need a number that does not fit
into 32 bits. -/
def tryIntern (t : SymbolTable) (bytes : List UInt8) :
    Except CapacityError (Symbol × SymbolTable) :=
  match t.find? bytes with
  | some symbol => .ok (symbol, t)
  | none => t.insert bytes

/-- The inspection form of a table shows its size only. -/
def inspect (t : SymbolTable) : String :=
  "StringArena \x7b len: " ++ toString t.size ++ " \x7d"

/-- Between the two searches of one call nothing comes. -/
theorem tryIntern_eq_insert (t : SymbolTable) (bytes : List UInt8) :
    t.tryIntern bytes = t.insert bytes := by
  unfold tryIntern insert
  cases t.find? bytes <;> rfl

/-- Without room taken for granted, the same is entered, or nothing if no number is left. -/
theorem tryIntern_cases (t : SymbolTable) (bytes : List UInt8) :
    t.tryIntern bytes = .ok (t.intern bytes) ∨
      maxIndex < t.size ∧ t.tryIntern bytes = .error ⟨t.size⟩ := by
  rw [tryIntern_eq_insert, insert, intern]
  cases t.find? bytes with
  | some symbol => exact .inl rfl
  | none =>
    by_cases h : t.size ≤ maxIndex
    · exact .inl (if_pos h)
    · exact .inr ⟨Nat.lt_of_not_le h, if_neg h⟩

theorem insert_eq_intern {t : SymbolTable} (h : t.size ≤ maxIndex) (bytes : List UInt8) :
    t.insert bytes = .ok (t.intern bytes) := by
  unfold insert intern
  cases t.find? bytes with
  | some symbol => rfl
  | none => exact if_pos h

end SymbolTable

/-- What is said of a table that has no number left. -/
def CapacityError.message (e : CapacityError) : String :=
  "string arena exceeded capacity: " ++ toString e.count ++ " strings, max is " ++
    toString SymbolTable.maxIndex

end CinderFront
