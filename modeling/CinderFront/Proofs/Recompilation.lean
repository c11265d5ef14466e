import CinderFront.Proofs.Compilation
import CinderFront.Proofs.RoundTrip

/-!
# Running a compilation again

A compilation keeps its symbols and its backlog from one run to the next. A run leaves the backlog
empty, and it leaves every string of the source among the symbols. So each run after the first finds
all its strings and yields what the first run yielded.

* `Lexes.tokens_of_holds`, `Lexes.symbols_of_holds`, `Lexes.fit_of_holds` — a table that holds the
  strings of a text gives them the same symbols again, stays as it is, and has room for them;
* `Compilation.afterRuns` — a compilation that has been run several times;
* `Compilation.run_afterRuns` — all its runs yield the same and leave the same behind.
-/

namespace CinderFront

/-! ### The strings of a text -/

/-- The contents of a string literal, which are those that its symbol has in the table. -/
def Token.contents? (symbols : SymbolTable) (token : Token) : Option (List UInt8) :=
  (token.kind.lexeme? symbols).bind Lexeme.contents?

namespace Lexes

/-- The tokens of some items have the contents of these items. -/
theorem filterMap_contents?_tokens (sourceName : String) {t : SymbolTable} (h : t.Consistent)
    (items : List Item) :
    (tokens sourceName t items).filterMap (Token.contents? (symbols t items)) = contents items := by
  have hlexemes := map_lexeme?_tokens sourceName h items
  calc (tokens sourceName t items).filterMap (Token.contents? (symbols t items))
      = ((tokens sourceName t items).map fun token =>
          token.kind.lexeme? (symbols t items)).filterMap (·.bind Lexeme.contents?) := by
        rw [List.filterMap_map]
        rfl
    _ = ((items.map Item.lexeme).map some).filterMap (·.bind Lexeme.contents?) := by
        rw [hlexemes]
    _ = contents items := by
        rw [List.filterMap_map, List.filterMap_map]
        rfl

/-! ### Entering a text again -/

section

variable {t t' : SymbolTable} (h : t.Consistent) (h' : t'.Consistent)

include h h'

/-- A table that holds the contents of a lexeme under the same symbol gives it this symbol, and need
not be changed for it. -/
theorem enter_of_holds {l : Lexeme}
    (hholds : ∀ symbol bytes, (l.enter t).lookup? symbol = some bytes →
      t'.lookup? symbol = some bytes) :
    l.kind t' = l.kind t ∧ l.enter t' = t' ∧ l.Fits t' := by
  cases l with
  | string bytes =>
    have hlookup := hholds _ _ (h.lookup?_intern bytes)
    have hfound := h'.intern_of_lookup? hlookup
    refine ⟨?_, ?_, Lexeme.fits_string_iff.2 (.inr ?_)⟩
    · show Token.Kind.string (t'.intern bytes).1 = Token.Kind.string (t.intern bytes).1
      rw [hfound]
    · show (t'.intern bytes).2 = t'
      rw [hfound]
    · rw [h'.find?_eq_some_iff.2 hlookup]
      rfl
  | _ => exact ⟨rfl, rfl, Lexeme.fits_of_contents?_eq_none t' rfl⟩

theorem symbols_of_holds (items : List Item)
    (hholds : ∀ symbol bytes, (symbols t items).lookup? symbol = some bytes →
      t'.lookup? symbol = some bytes) : symbols t' items = t' := by
  induction items generalizing t with
  | nil => rfl
  | cons item items ih =>
    have hitem := enter_of_holds h h' (l := item.lexeme) fun symbol bytes hlookup =>
      hholds symbol bytes (lookup?_symbols hlookup items)
    show symbols (item.lexeme.enter t') items = t'
    rw [hitem.2.1]
    exact ih (item.lexeme.consistent_enter h) hholds

theorem tokens_of_holds (sourceName : String) (items : List Item)
    (hholds : ∀ symbol bytes, (symbols t items).lookup? symbol = some bytes →
      t'.lookup? symbol = some bytes) :
    tokens sourceName t' items = tokens sourceName t items := by
  induction items generalizing t with
  | nil => rfl
  | cons item items ih =>
    have hitem := enter_of_holds h h' (l := item.lexeme) fun symbol bytes hlookup =>
      hholds symbol bytes (lookup?_symbols hlookup items)
    have hrest := ih (item.lexeme.consistent_enter h) hholds
    simp only [tokens, hitem.1, hitem.2.1, hrest]

theorem fit_of_holds (items : List Item)
    (hholds : ∀ symbol bytes, (symbols t items).lookup? symbol = some bytes →
      t'.lookup? symbol = some bytes) : Fit t' items := by
  induction items generalizing t with
  | nil => trivial
  | cons item items ih =>
    have hitem := enter_of_holds h h' (l := item.lexeme) fun symbol bytes hlookup =>
      hholds symbol bytes (lookup?_symbols hlookup items)
    refine ⟨hitem.2.2, ?_⟩
    rw [hitem.2.1]
    exact ih (item.lexeme.consistent_enter h) hholds

end

end Lexes

/-! ### Runs -/

namespace Compilation

/-- A compilation whose backlog is empty, and whose symbols have room for the strings of the source,
leaves, when it is run, one that yields the same and does not change any more. -/
theorem run_run_of_lexes {c : Compilation} {items : List Item} {fs : List Finding}
    (h : Lexes .start (Ascii.beforeNul c.contents) items fs)
    (hfit : Lexes.Fit c.symbols items) (hsymbols : c.symbols.Consistent)
    {retention : Retention} (hbacklog : c.backlog = .new retention) :
    ∃ result : CompilationResult,
      let c' := { c with symbols := Lexes.symbols c.symbols items, backlog := .new retention }
      c.run = .ok result c' ∧ c'.run = .ok result c' ∧
        result.tokens = Lexes.tokens c.sourceName c.symbols items ++
          [⟨.endOfFile, c.sourceName, Position.start.after (Ascii.beforeNul c.contents)⟩] := by
  let symbols := Lexes.symbols c.symbols items
  have hheld : symbols.Consistent := Lexes.consistent_symbols hsymbols items
  have hfirst := run_of_lexes h hfit hbacklog
  have hfit' : Lexes.Fit symbols items :=
    Lexes.fit_of_holds hsymbols hheld items fun _ _ hlookup => hlookup
  have hagain := run_of_lexes (c := { c with symbols, backlog := .new retention }) h hfit' rfl
  rw [Lexes.tokens_of_holds hsymbols hheld c.sourceName items fun _ _ hlookup => hlookup,
    Lexes.symbols_of_holds hsymbols hheld items fun _ _ hlookup => hlookup] at hagain
  exact ⟨_, hfirst, hagain, rfl⟩

/-- The compilation after `n` runs. -/
def afterRuns : Nat → Compilation → Compilation
  | 0, c => c
  | n + 1, c => (run (afterRuns n c)).after

theorem run_afterRuns_of_run_run {c c' : Compilation} {result : CompilationResult}
    (hfirst : c.run = .ok result c') (hagain : c'.run = .ok result c') (n : Nat) :
    (c.afterRuns n).run = .ok result c' := by
  induction n with
  | zero => exact hfirst
  | succ n ih =>
    show (run (c.afterRuns n)).after.run = .ok result c'
    rw [ih]
    exact hagain

/-- All runs of a compilation for whose strings there are symbols yield the same: the tokens with
their symbols and positions, the findings and the numbers. They leave the same compilation behind,
so the table of symbols does not change after the first of them. It holds the empty string and then
the distinct contents of the string literals, in the order in which they first occur; and what the
tokens stand for in it are the lexemes of the source. -/
theorem run_afterRuns (sourceName : String) {contents : List UInt8} (hfew : FewStrings contents)
    (options : Options) (target : Option String) :
    let c : Compilation := { sourceName, contents, options, target }
    ∃ result symbols, (∀ n, (c.afterRuns n).run = .ok result { c with symbols }) ∧
      symbols.Consistent ∧
      symbols.strings.toList =
        [] :: ((result.tokens.filterMap (Token.contents? symbols)).filter (· ≠ [])).eraseDups ∧
      ∃ items fs, Lexes .start (Ascii.beforeNul contents) items fs ∧
        result.tokens.map (fun token => token.kind.lexeme? symbols) =
          items.map (fun item => some item.lexeme) ++ [none] := by
  intro c
  obtain ⟨items, fs, hlexes⟩ := exists_lexes .start (Ascii.beforeNul contents)
  have hnew : SymbolTable.Consistent c.symbols := SymbolTable.consistent_new
  obtain ⟨result, hfirst, hagain, htokens⟩ :=
    run_run_of_lexes (c := c) hlexes (hfew.fit hlexes) hnew rfl
  let symbols := Lexes.symbols c.symbols items
  have hlexemes := Lexes.map_lexeme?_tokens sourceName hnew items
  have hcontents : result.tokens.filterMap (Token.contents? symbols) = Lexes.contents items := by
    rw [htokens, List.filterMap_append, Lexes.filterMap_contents?_tokens sourceName hnew]
    exact List.append_nil _
  refine ⟨result, symbols, run_afterRuns_of_run_run hfirst hagain,
    Lexes.consistent_symbols hnew items, ?_, items, fs, hlexes, ?_⟩
  · rw [hcontents]
    exact Lexes.strings_symbols_new items
  · rw [htokens, List.map_append, hlexemes, List.map_map]
    rfl

/-- A source in which one string comes twice and another is empty. -/
theorem run_afterRuns_repeated :
    FewStrings (Ascii.codes "\"a\" \"\" \"a\"") ∧
      let c : Compilation :=
        { sourceName := "twice", contents := Ascii.codes "\"a\" \"\" \"a\"", target := none }
      ∃ result symbols, (∀ n, (c.afterRuns n).run = .ok result { c with symbols }) ∧
        symbols.Consistent ∧
        symbols.strings.toList =
          [] :: ((result.tokens.filterMap (Token.contents? symbols)).filter (· ≠ [])).eraseDups ∧
        ∃ items fs,
          Lexes .start (Ascii.beforeNul (Ascii.codes "\"a\" \"\" \"a\"")) items fs ∧
          result.tokens.map (fun token => token.kind.lexeme? symbols) =
            items.map (fun item => some item.lexeme) ++ [none] :=
  have hfew : FewStrings (Ascii.codes "\"a\" \"\" \"a\"") := fewStrings_of_length_lt (by decide)
  ⟨hfew, run_afterRuns "twice" hfew {} none⟩

end Compilation

end CinderFront
