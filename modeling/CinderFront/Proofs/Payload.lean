import CinderFront.Proofs.Foresight
import CinderFront.Proofs.Interning
import CinderFront.Proofs.Progress
import CinderFront.Proofs.RoundTrip

/-!
# What tokens carry

A name, a number, a byte or a symbol that comes with a token has its proper form, in every state
that a failure may leave. A failure may leave a scanner in the middle of a word, and with a byte
twice in view; still what it yields next was read by the rules from what is in view then.

* `Punctuation.exists_bytes_eq` — the first byte of a mark is a mark;
* `Reads.wellFormed` — the rules make well-formed lexemes only;
* `Token.Sound` — what a token carries, and how long its symbol is good for;
* `FirstToken.sound`, `FirstToken.position_between` — the token that stands first in a text;
* `Scanner.Reaches.position_le` — no step leads back;
* `Scan.sound_afterCalls` — every token of every sequence of calls carries what it should, and none
  stands before an earlier one.
-/

namespace CinderFront

/-! ### Lexemes -/

/-- The first byte of a mark is a mark of its own. -/
theorem Punctuation.exists_bytes_eq {m : Punctuation} {b : UInt8} (h : m.bytes.head? = some b) :
    ∃ n : Punctuation, n.bytes = [b] := by
  have hall : ∀ m ∈ longestFirst, ∃ n ∈ longestFirst, m.bytes.head? = n.bytes.head? ∧
      n.bytes.length = 1 := by decide
  obtain ⟨n, -, hn, hlength⟩ := hall m (mem_longestFirst m)
  obtain ⟨c, hc⟩ := List.length_eq_one_iff.1 hlength
  rw [h, hc] at hn
  exact ⟨n, hc.trans (congrArg (fun c => [c]) (Option.some.inj hn).symm)⟩

/-- A word is a mode, a keyword, or a name that is neither. -/
theorem Lexeme.wellFormed_ofWord {b : UInt8} {r : List UInt8} (hb : Ascii.isWordStart b = true)
    (hr : ∀ c ∈ b :: r, Ascii.isWordByte c = true) : (ofWord (b :: r)).WellFormed := by
  unfold ofWord
  cases hmode : Mode.ofBytes? (b :: r) with
  | some m => trivial
  | none =>
    cases hkeyword : Keyword.ofBytes? (b :: r) with
    | some k => trivial
    | none =>
      refine ⟨⟨b, r, rfl, ?_⟩, hr, fun k hk => ?_, fun m hm => ?_⟩
      · by_contra hdigit
        rw [Bool.not_eq_false] at hdigit
        rw [Ascii.isWordStart_eq_false_of_isDigit hdigit] at hb
        cases hb
      · rw [Keyword.ofBytes?_eq_some_iff.2 hk] at hkeyword
        cases hkeyword
      · rw [Mode.ofBytes?_eq_some_iff.2 hm] at hmode
        cases hmode

theorem Lexeme.isInteger_takeWhile {b : UInt8} (hb : Ascii.isDigit b = true) (r : List UInt8) :
    IsInteger ((b :: r).takeWhile Ascii.isNumberByte) := by
  rw [List.takeWhile_cons_of_pos (Ascii.isNumberByte_of_isDigit hb)]
  exact ⟨b, _, rfl, hb, fun c hc => List.mem_takeWhile_imp hc⟩

/-- The rules make well-formed lexemes only. -/
theorem Reads.wellFormed {p : Position} {text x rest : List UInt8} {l : Lexeme} {fs : List Finding}
    (h : Reads p text ⟨some l, x, rest, fs⟩) (hnul : Ascii.nul ∉ text) : l.WellFormed := by
  generalize ho : (⟨some l, x, rest, fs⟩ : Passage (Option Lexeme)) = o at h
  cases h with
  | string _ | multiLine =>
    obtain ⟨hl, -⟩ := Passage.mk.inj ho
    cases hl
    trivial
  | emptyCharacter _ | lineComment | blockComment _ | openComment _ => cases ho
  | character _ | overlongCharacter _ | mark _ _ =>
    cases ho
    trivial
  | @word b r hb =>
    cases ho
    have hword := List.takeWhile_cons_of_pos (l := r) (Ascii.isWordByte_of_isWordStart hb)
    have hbytes : ∀ c ∈ (b :: r).takeWhile Ascii.isWordByte, Ascii.isWordByte c = true :=
      fun c hc => List.mem_takeWhile_imp hc
    rw [hword] at hbytes ⊢
    exact Lexeme.wellFormed_ofWord hb hbytes
  | @integer b r hb _ =>
    cases ho
    exact Lexeme.isInteger_takeWhile hb r
  | @float b r r' hb _ _ =>
    cases ho
    refine ⟨_, _, rfl, Lexeme.isInteger_takeWhile hb r, ?_⟩
    -- A missing fraction is written as a zero, which is a digit.
    unfold mantissa
    split
    · exact ⟨List.cons_ne_nil _ _, List.forall_mem_singleton.2 rfl⟩
    · next hne => exact ⟨hne, fun c hc => List.mem_takeWhile_imp hc⟩
  | @unknown b r hnone hdouble hsingle hword hblank =>
    cases ho
    refine ⟨?_, hblank, hword, hdouble, hsingle, fun m hm => ?_⟩
    · rintro rfl
      exact hnul List.mem_cons_self
    · obtain ⟨n, hn⟩ := Punctuation.exists_bytes_eq hm
      exact Punctuation.longestAt?_eq_none_iff.1 hnone n (hn ▸ ⟨rest, rfl⟩)

/-! ### Tokens -/

/-- What a kind stands for is the same in every table that has the strings of the first. -/
theorem Token.Kind.lexeme?_of_lookup? {t t' : SymbolTable} {kind : Token.Kind} {l : Lexeme}
    (h : kind.lexeme? t = some l)
    (hlookup : ∀ {symbol : Symbol} {bytes : List UInt8},
      t.lookup? symbol = some bytes → t'.lookup? symbol = some bytes) :
    kind.lexeme? t' = some l := by
  cases kind with
  | string symbol =>
    obtain ⟨bytes, hbytes, rfl⟩ := Option.map_eq_some_iff.1 h
    exact congrArg (Option.map Lexeme.string) (hlookup hbytes)
  | _ => exact h

/-- What a token carries: the name of its source, and a kind that stands for a well-formed lexeme,
unless it is the end of the input. The symbol of a string is one of the table. -/
structure Token.Sound (sourceName : String) (symbols : SymbolTable) (token : Token) : Prop where
  sourceName_eq : token.sourceName = sourceName
  wellFormed : token.kind = .endOfFile ∨
    ∃ l, token.kind.lexeme? symbols = some l ∧ l.WellFormed

namespace FirstToken

variable {symbols symbols' : SymbolTable} {sourceName : String} {p q : Position}
  {text : List UInt8} {token : Token}

theorem sound (h : FirstToken symbols sourceName p text token symbols' q)
    (hsymbols : symbols.Consistent) (hnul : Ascii.nul ∉ text) :
    token.Sound sourceName symbols' := by
  cases h with
  | finish _ => exact ⟨rfl, .inl rfl⟩
  | @token gap x rest l fs _ ho =>
    refine ⟨rfl, .inr ⟨l, Lexes.lexeme?_kind hsymbols l [], ho.wellFormed ?_⟩⟩
    exact fun hmem => hnul (List.mem_append_right gap hmem)

/-- The token stands between where its text begins and where what follows it begins. -/
theorem position_between (h : FirstToken symbols sourceName p text token symbols' q) :
    p ≤ token.position ∧ token.position ≤ q := by
  cases h with
  | finish _ => exact ⟨p.le_after text, Position.le_refl _⟩
  | @token gap x _ _ _ _ _ =>
    rw [Position.after_append]
    exact ⟨p.le_after gap, (p.after gap).le_after x⟩

end FirstToken

/-! ### Every call -/

section

variable {σ δ : Type} [ByteStream σ] [Receiver δ]

/-- No step leads back: a move that fails leaves the position as it is. -/
theorem Scanner.Reaches.position_le {s t : Scanner σ δ} (h : s.Reaches t) :
    s.position ≤ t.position := by
  induction h with
  | refl => exact Position.le_refl _
  | @tail t _ _ hstep ih =>
    cases hstep with
    | report _ _ | intern _ => exact ih
    | move =>
      refine Position.le_trans ih ?_
      show t.view.position ≤ (Lookahead.shift t.view).after.position
      unfold Lookahead.shift
      split
      · exact Position.le_refl _
      · split
        · exact Position.le_of_lt (Position.lt_past _ _)
        · exact Position.le_refl _

namespace Scan

theorem afterCalls_add (m n : Nat) (s : Scanner σ δ) :
    afterCalls (m + n) s = afterCalls n (afterCalls m s) := by
  induction m generalizing s with
  | zero => rw [Nat.zero_add, afterCalls]
  | succ m ih =>
    rw [Nat.succ_add]
    exact ih (nextToken s).after

/-- Every later call begins from what the call `m` leaves, or further on. -/
theorem reaches_afterCalls_of_lt {m n : Nat} (hmn : m < n) (s : Scanner σ δ) :
    (nextToken (afterCalls m s)).after.Reaches (afterCalls n s) := by
  obtain ⟨k, rfl⟩ := Nat.exists_eq_add_of_lt hmn
  rw [Nat.add_assoc, afterCalls_add, Nat.add_comm k 1, afterCalls_add]
  exact reaches_afterCalls k _

/-- Let a scanner be made over any stream, with any receiver, and with a table on which any calls
have been made, and let it be asked for tokens again and again, whatever comes of it. Every token
that is yielded carries what it should, now and after any later calls, and it does not stand before
one that was yielded earlier. -/
theorem sound_afterCalls (stream : σ) (receiver : δ) (sourceName : String)
    (earlier : List SymbolTable.Call) {s : Scanner σ δ}
    (h : Scanner.ofStream stream sourceName (SymbolTable.new.afterCalls earlier) receiver = .ok s) :
    (∀ m n, m < n → ∀ token s', nextToken (afterCalls m s) = .ok token s' →
      token.Sound sourceName (afterCalls n s).symbols) ∧
    ∀ m n, m < n → ∀ token token' s₁ s₂, nextToken (afterCalls m s) = .ok token s₁ →
      nextToken (afterCalls n s) = .ok token' s₂ → token.position ≤ token'.position := by
  have hname : s.sourceName = sourceName := by
    obtain ⟨view, -, rfl⟩ := Scanner.exists_of_ofStream h
    rfl
  have hconsistent : s.symbols.Consistent := by
    obtain ⟨view, -, rfl⟩ := Scanner.exists_of_ofStream h
    exact SymbolTable.consistent_afterCalls SymbolTable.consistent_new earlier
  refine ⟨fun m n hmn token s' hs' => ?_, fun m n hmn token token' s₁ s₂ hs₁ hs₂ => ?_⟩
  · have hreaches := reaches_afterCalls m s
    have hlater := reaches_afterCalls_of_lt hmn s
    rw [hs'] at hlater
    obtain ⟨text, htext⟩ := (afterCalls m s).view.exists_offers
    have hsound := (firstToken_of_nextToken hs' htext).sound
      (hreaches.consistent_symbols hconsistent) fun hmem => htext.ne_nul hmem rfl
    rw [hreaches.sourceName_eq, hname] at hsound
    refine ⟨hsound.sourceName_eq, hsound.wellFormed.imp_right ?_⟩
    intro hl
    obtain ⟨l, hl, hwellFormed⟩ := hl
    exact ⟨l, Token.Kind.lexeme?_of_lookup? hl fun h => hlater.lookup?_symbols h, hwellFormed⟩
  · have hlater := reaches_afterCalls_of_lt hmn s
    rw [hs₁] at hlater
    obtain ⟨text, htext⟩ := (afterCalls m s).view.exists_offers
    obtain ⟨text', htext'⟩ := (afterCalls n s).view.exists_offers
    have hend := (firstToken_of_nextToken hs₁ htext).position_between.2
    have hbegin := (firstToken_of_nextToken hs₂ htext').position_between.1
    exact Position.le_trans hend (Position.le_trans hlater.position_le hbegin)

end Scan

end

/-- A number whose stream fails in the middle of it, and a string whose report is refused. -/
theorem Scan.sound_afterCalls_faulty :
    ∃ s : Scanner Script FaultyRecorder,
      Scanner.ofStream (⟨[.byte '1'.toUInt8, .byte '2'.toUInt8, .byte '.'.toUInt8, .failure "lost",
        .byte '3'.toUInt8, .byte Ascii.doubleQuote, .byte Ascii.backslash, .byte 'x'.toUInt8,
        .finished], 0⟩ : Script) "faulty" (SymbolTable.new.afterCalls [])
        { refuses := fun call => call == 0 } = .ok s ∧
      (∀ m n, m < n → ∀ token s', nextToken (afterCalls m s) = .ok token s' →
        token.Sound "faulty" (afterCalls n s).symbols) ∧
      ∀ m n, m < n → ∀ token token' s₁ s₂, nextToken (afterCalls m s) = .ok token s₁ →
        nextToken (afterCalls n s) = .ok token' s₂ → token.position ≤ token'.position :=
  ⟨_, rfl, Scan.sound_afterCalls (⟨[.byte '1'.toUInt8, .byte '2'.toUInt8, .byte '.'.toUInt8,
    .failure "lost", .byte '3'.toUInt8, .byte Ascii.doubleQuote, .byte Ascii.backslash,
    .byte 'x'.toUInt8, .finished], 0⟩ : Script) { refuses := fun call => call == 0 } "faulty" []
    rfl⟩

end CinderFront
