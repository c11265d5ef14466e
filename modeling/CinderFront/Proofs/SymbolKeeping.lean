import CinderFront.Proofs.Foresight
import CinderFront.Proofs.Interning
import CinderFront.Proofs.Progress

/-!
# What any call leaves of the table

A scanner shares its table with whatever was scanned before, so the table may be in any state, also
a full one. Only a call that yields a string touches it. One that fails leaves it as it was, and
this holds of a call that fails for want of room as well.

* `Scan.Enters` — what a call that yields a string has read and entered;
* `Scan.Settles` — what the next call leaves of the table, whatever comes of it;
* `Scan.settles_afterCalls` — this holds of every call, whatever has failed before.
-/

namespace CinderFront.Scan

variable {σ δ : Type} [ByteStream σ] [Receiver δ]

/-- The scanner `s` has read a string literal with these contents, and has become `s'`: the literal
stands first in the text ahead, its contents are in the table, at the end if they are new, and the
symbols from before stand for what they stood for. -/
structure Enters (s s' : Scanner σ δ) (position : Position) (symbol : Symbol)
    (contents : List UInt8) : Prop where
  decoded : ∃ gap x rest fs, s.view.Offers (gap ++ (x ++ rest)) ∧ Gap gap (x ++ rest) ∧
    position = s.position.after gap ∧
    Reads position (x ++ rest) ⟨some (.string contents), x, rest, fs⟩
  interned : s.symbols.tryIntern contents = .ok (symbol, s'.symbols)
  symbols_eq : s'.symbols = s.symbols ∨ contents ∉ s.symbols.strings.toList ∧
    s'.symbols.strings.toList = s.symbols.strings.toList ++ [contents]
  lookup?_eq : s'.symbols.lookup? symbol = some contents
  lookup?_earlier : ∀ {earlier : Symbol} {bytes : List UInt8},
    s.symbols.lookup? earlier = some bytes → s'.symbols.lookup? earlier = some bytes

/-- What the next call leaves of the table: all of it, unless it yields a string. If it fails for
want of room, then no number was left. -/
structure Settles (s : Scanner σ δ) : Prop where
  failure : ∀ {e : ScanFailure} {s' : Scanner σ δ}, nextToken s = .error e s' →
    s'.symbols = s.symbols
  capacity : ∀ {cause : CapacityError} {s' : Scanner σ δ},
    nextToken s = .error (.capacity cause) s' →
    SymbolTable.maxIndex < s.symbols.size ∧ cause = ⟨s.symbols.size⟩
  other : ∀ {token : Token} {s' : Scanner σ δ}, nextToken s = .ok token s' →
    (∀ symbol, token.kind ≠ .string symbol) → s'.symbols = s.symbols
  string : ∀ {token : Token} {s' : Scanner σ δ} {symbol : Symbol}, nextToken s = .ok token s' →
    token.kind = .string symbol → ∃ contents, Enters s s' token.position symbol contents

/-- What is yielded as a string stands first in the text ahead, and its contents are entered. -/
theorem exists_enters {s s' : Scanner σ δ} {token : Token} {symbol : Symbol}
    (hs : s.symbols.Consistent) (h : nextToken s = .ok token s')
    (hkind : token.kind = .string symbol) :
    ∃ contents, Enters s s' token.position symbol contents := by
  obtain ⟨text, htext⟩ := s.view.exists_offers
  obtain ⟨gap, x, rest, contents, fs, rfl, hgap, hposition, ho, hintern⟩ :=
    (firstToken_of_nextToken h htext).exists_contents hkind
  have hsymbols : s'.symbols = (s.symbols.intern contents).2 :=
    (congrArg Prod.snd (SymbolTable.intern_eq_of_tryIntern hintern)).symm
  refine ⟨contents, ⟨gap, x, rest, fs, htext, hgap, hposition, ho⟩, hintern, ?_,
    hs.lookup?_of_tryIntern hintern, ?_⟩
  · by_cases hmem : contents ∈ s.symbols.strings.toList
    · obtain ⟨symbol', hfind⟩ := hs.mem_strings_iff.1 hmem
      rw [hs.intern_of_lookup? (hs.find?_eq_some_iff.1 hfind)] at hsymbols
      exact .inl hsymbols
    · have hstrings := hs.strings_intern contents
      rw [if_neg hmem, ← hsymbols] at hstrings
      exact .inr ⟨hmem, hstrings⟩
  · intro earlier bytes hearlier
    rw [hsymbols]
    exact SymbolTable.lookup?_intern_of_lookup? hearlier contents

theorem settles_of_consistent {s : Scanner σ δ} (hs : s.symbols.Consistent) : Settles s where
  failure h := entersFor_nextToken.symbols_of_error h
  capacity h := by
    rcases token_or_failure s with ⟨token, s₁, hs₁⟩ | ⟨e, s₁, hs₁, he⟩
    · cases h.symm.trans hs₁
    · cases h.symm.trans hs₁
      rcases he with hexternal | ⟨hfull, he⟩
      · cases hexternal
      · exact ⟨hfull, ScanFailure.capacity.inj he⟩
  other h hkind := entersFor_nextToken.symbols_of_ok h fun ⟨symbol, heq⟩ => hkind symbol heq
  string h hkind := exists_enters hs h hkind

/-- Let a scanner be made over any stream, with any receiver, and with a table on which any calls
have been made, and let it be asked for tokens any number of times, whatever comes of it. The next
call leaves the table alone unless it yields a string, and then it enters the contents of that. -/
theorem settles_afterCalls (stream : σ) (receiver : δ) (sourceName : String)
    (earlier : List SymbolTable.Call) {s : Scanner σ δ}
    (h : Scanner.ofStream stream sourceName (SymbolTable.new.afterCalls earlier) receiver = .ok s)
    (n : Nat) : Settles (afterCalls n s) := by
  obtain ⟨view, -, rfl⟩ := Scanner.exists_of_ofStream h
  refine settles_of_consistent ((reaches_afterCalls n _).consistent_symbols ?_)
  exact SymbolTable.consistent_afterCalls SymbolTable.consistent_new earlier

/-- A string literal whose stream fails before its end, with a malformed escape whose report is
refused, and a table that has its contents already. -/
theorem settles_afterCalls_faulty :
    ∃ s : Scanner Script FaultyRecorder,
      Scanner.ofStream (⟨[.byte Ascii.doubleQuote, .byte Ascii.backslash, .byte 'x'.toUInt8,
        .failure "lost", .byte Ascii.doubleQuote, .finished], 0⟩ : Script) "faulty"
        (SymbolTable.new.afterCalls [.intern .tryIntern (Ascii.codes "x")])
        { refuses := fun call => call == 0 } = .ok s ∧
      ∀ n, Settles (afterCalls n s) :=
  ⟨_, rfl, settles_afterCalls (⟨[.byte Ascii.doubleQuote, .byte Ascii.backslash,
    .byte 'x'.toUInt8, .failure "lost", .byte Ascii.doubleQuote, .finished], 0⟩ : Script)
    { refuses := fun call => call == 0 } "faulty" [.intern .tryIntern (Ascii.codes "x")] rfl⟩

end CinderFront.Scan
