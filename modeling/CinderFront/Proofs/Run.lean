import CinderFront.Proofs.Reading
import CinderFront.Scanner.Stream

/-!
# Whole scans

A text is taken apart by the lexical rules, one after the other with blanks between them. A scan
does exactly that: what it yields is determined by how the rules take the text apart.

* `Lexes` — how the rules take a whole text apart;
* `exists_lexes` — they take every text apart;
* `Lexes.tokens`, `Lexes.symbols` — the tokens and the symbols that come of it;
* `Lexes.Fit` — whether there is room for its strings;
* `Scan.tokenizeAfter_of_lexes`, `exists_tokenize_of_lexes` — if there is, a scanner yields them,
  and fails at nothing;
* `Scan.tokenizeAfter_of_not_fit`, `exists_tokenize_of_not_fit` — otherwise it fails for want of
  room.
-/

namespace CinderFront

/-! ### Texts taken apart -/

/-- A lexeme and where its text begins. -/
structure Item where
  lexeme : Lexeme
  position : Position
  deriving DecidableEq, Repr

/-- `Lexes p text items fs`: the rules take the text, which begins at `p`, apart into these items
and find these things wrong with it. -/
inductive Lexes : Position → List UInt8 → List Item → List Finding → Prop
  | finish {p : Position} {gap : List UInt8} : (∀ b ∈ gap, Ascii.isBlank b = true) →
      Lexes p gap [] []
  | token {p : Position} {gap x rest : List UInt8} {l : Lexeme} {items : List Item}
      {fs gs : List Finding} : (∀ b ∈ gap, Ascii.isBlank b = true) →
      Reads (p.after gap) (x ++ rest) ⟨some l, x, rest, fs⟩ →
      Lexes (p.after (gap ++ x)) rest items gs →
      Lexes p (gap ++ (x ++ rest)) (⟨l, p.after gap⟩ :: items) (fs ++ gs)
  | skip {p : Position} {gap x rest : List UInt8} {items : List Item} {fs gs : List Finding} :
      (∀ b ∈ gap, Ascii.isBlank b = true) →
      Reads (p.after gap) (x ++ rest) ⟨none, x, rest, fs⟩ →
      Lexes (p.after (gap ++ x)) rest items gs →
      Lexes p (gap ++ (x ++ rest)) items (fs ++ gs)

/-- The rules take every text apart. -/
theorem exists_lexes (p : Position) (text : List UInt8) : ∃ items fs, Lexes p text items fs := by
  -- A rule passes at least one byte, so the induction is on the length of the text.
  induction hlen : text.length using Nat.strongRecOn generalizing p text with
  | ind n ih =>
    have hgap : ∀ b ∈ text.takeWhile Ascii.isBlank, Ascii.isBlank b = true :=
      fun b hb => List.mem_takeWhile_imp hb
    have hsplit : text.takeWhile Ascii.isBlank ++ text.dropWhile Ascii.isBlank = text :=
      List.takeWhile_append_dropWhile
    rw [← hsplit]
    generalize text.takeWhile Ascii.isBlank = gap at hgap hsplit
    cases hbegin : text.dropWhile Ascii.isBlank with
    | nil =>
      rw [List.append_nil]
      exact ⟨[], [], .finish hgap⟩
    | cons b r =>
      have hblank : Ascii.isBlank b = false := by
        have hb := List.head?_dropWhile_not Ascii.isBlank text
        rw [hbegin] at hb
        simpa using hb
      obtain ⟨⟨value, x, rest, fs⟩, ho⟩ := exists_reads r (p.after gap) hblank
      have hpassed : x ++ rest = b :: r := ho.passed_append_rest
      have hshorter : rest.length < n := by
        have hx := List.length_pos_iff.2 ho.passed_ne_nil
        rw [hbegin, ← hpassed] at hsplit
        rw [← hlen, ← hsplit]
        simp only [List.length_append]
        simp only at hx
        omega
      obtain ⟨items, gs, hrest⟩ := ih rest.length hshorter (p.after (gap ++ x)) rest rfl
      rw [← hpassed] at ho ⊢
      cases value with
      | none => exact ⟨_, _, .skip hgap ho hrest⟩
      | some l => exact ⟨_, _, .token hgap ho hrest⟩

/-! ### What comes of it -/

namespace Lexes

/-- The tokens of some items, with the symbols that a table gives to their strings. -/
def tokens (sourceName : String) : SymbolTable → List Item → List Token
  | _, [] => []
  | symbols, item :: items =>
    ⟨item.lexeme.kind symbols, sourceName, item.position⟩ ::
      tokens sourceName (item.lexeme.enter symbols) items

/-- The table with the contents of the strings among some items. -/
def symbols (table : SymbolTable) (items : List Item) : SymbolTable :=
  items.foldl (fun symbols item => item.lexeme.enter symbols) table

/-- Each string among some items finds room in the table when its turn comes. -/
def Fit : SymbolTable → List Item → Prop
  | _, [] => True
  | symbols, item :: items =>
    item.lexeme.Fits symbols ∧ Fit (item.lexeme.enter symbols) items

end Lexes

/-! ### The next token -/

/-- What a rule passes does not begin with a blank. -/
theorem Reads.isBlank_eq_false {p : Position} {b : UInt8} {r : List UInt8}
    {o : Passage (Option Lexeme)} (h : Reads p (b :: r) o) : Ascii.isBlank b = false := by
  generalize htext : b :: r = text at h
  cases h with
  | string _ | multiLine | emptyCharacter _ | character _ | overlongCharacter _ | lineComment
  | blockComment _ | openComment _ =>
    obtain ⟨rfl, -⟩ := List.cons.inj htext
    decide
  | word hb =>
    obtain ⟨rfl, -⟩ := List.cons.inj htext
    exact Ascii.isBlank_eq_false_of_isWordByte (Ascii.isWordByte_of_isWordStart hb)
  | integer hb _ | float hb _ _ =>
    obtain ⟨rfl, -⟩ := List.cons.inj htext
    exact Ascii.isBlank_eq_false_of_isWordByte (Ascii.isWordByte_of_isDigit hb)
  | @mark m rest _ _ =>
    obtain ⟨c, cs, hbytes⟩ := List.exists_cons_of_ne_nil m.bytes_ne_nil
    rw [hbytes] at htext
    obtain ⟨rfl, -⟩ := List.cons.inj htext
    exact (m.mem_bytes b (by simp [hbytes])).2.1
  | unknown _ _ _ _ hblank =>
    obtain ⟨rfl, -⟩ := List.cons.inj htext
    exact hblank

namespace Scan

variable {σ δ : Type} [ByteStream σ] [Receiver δ] [Receptive δ] {s : Scanner σ δ}
  {gap x rest : List UInt8} {fs : List Finding}

theorem yields_gap (h : s.view.Shows (gap ++ rest))
    (hgap : ∀ b ∈ gap, Ascii.isBlank b = true)
    (hrest : ∀ b ∈ rest.head?, Ascii.isBlank b = false) :
    Yields (skipWhile Ascii.isBlank) s ⟨(), gap, rest, []⟩ := by
  have hskip := yields_skipWhile Ascii.isBlank h
  rwa [takeWhile_run_append hgap hrest, dropWhile_run_append hgap hrest] at hskip

/-- Before a rule applies, the blanks are passed, and what the rule reads is made of the text. -/
theorem exists_lexeme?_after_gap {l : Option Lexeme} (h : s.view.Shows (gap ++ (x ++ rest)))
    (hgap : ∀ b ∈ gap, Ascii.isBlank b = true)
    (ho : Reads (s.view.position.after gap) (x ++ rest) ⟨l, x, rest, fs⟩) :
    ∃ s₁ s₂, skipWhile Ascii.isBlank s = .ok () s₁ ∧ s₁.view.current ≠ Ascii.nul ∧
      s₁.sourceName = s.sourceName ∧ s₁.view.position = s.view.position.after gap ∧
      lexeme? s₁ = s₂.conclude l ∧ s.Passes (gap ++ x) rest fs s₂ := by
  have hne : x ++ rest ≠ [] := by
    simp [show x ≠ [] from ho.passed_ne_nil]
  obtain ⟨s₁, hs₁, h₁⟩ := yields_gap h hgap (by
    intro b hb
    obtain ⟨r, hr⟩ := List.head?_eq_some_iff.1 hb
    rw [hr] at ho
    exact ho.isBlank_eq_false)
  rw [← h₁.position_eq] at ho
  obtain ⟨s₂, hs₂, h₂⟩ := makes_lexeme? h₁.shows ho
  exact ⟨s₁, s₂, hs₁, h₁.shows.current_ne_nul hne, h₁.sourceName_eq, h₁.position_eq, hs₂,
    h₁.trans h₂⟩

theorem nextToken_of_blanks (h : s.view.Shows gap) (hgap : ∀ b ∈ gap, Ascii.isBlank b = true) :
    Yields nextToken s
      ⟨⟨.endOfFile, s.sourceName, s.view.position.after gap⟩, gap, [], []⟩ := by
  rw [← List.append_nil gap] at h
  obtain ⟨s₁, hs₁, h₁⟩ := yields_gap h hgap (by simp)
  have hcurrent : s₁.view.current = Ascii.nul := h₁.shows.current_eq
  refine ⟨s₁, ?_, h₁⟩
  rw [nextToken]
  split
  · next e s' hb => cases hs₁.symm.trans hb
  · next u s' hb =>
    cases hs₁.symm.trans hb
    rw [dif_pos hcurrent, h₁.sourceName_eq, h₁.position_eq]

omit [Receptive δ] in
/-- Behind the blanks, the call goes on as the attempt to read one token says. -/
theorem nextToken_of_skipWhile {s₁ : Scanner σ δ} (hs₁ : skipWhile Ascii.isBlank s = .ok () s₁)
    (hcurrent : s₁.view.current ≠ Ascii.nul) :
    nextToken s =
      match lexeme? s₁ with
      | .error e s' => .error e s'
      | .ok (some kind) s' => .ok ⟨kind, s₁.sourceName, s₁.view.position⟩ s'
      | .ok none s' => nextToken s' := by
  rw [nextToken]
  split
  · next e s' hb => cases hs₁.symm.trans hb
  · next u s' hb =>
    cases hs₁.symm.trans hb
    rw [dif_neg hcurrent]
    split <;> simp [*]

/-- If a token stands behind the blanks, it is the next one. -/
theorem nextToken_of_reads_some {l : Lexeme} (h : s.view.Shows (gap ++ (x ++ rest)))
    (hgap : ∀ b ∈ gap, Ascii.isBlank b = true)
    (ho : Reads (s.view.position.after gap) (x ++ rest) ⟨some l, x, rest, fs⟩)
    (hfits : l.Fits s.symbols) :
    ∃ s', nextToken s =
        .ok ⟨l.kind s.symbols, s.sourceName, s.view.position.after gap⟩ (s'.enter l) ∧
      s.Passes (gap ++ x) rest fs s' := by
  obtain ⟨s₁, s₂, hs₁, hcurrent, hname, hposition, hs₂, h₂⟩ := exists_lexeme?_after_gap h hgap ho
  refine ⟨s₂, ?_, h₂⟩
  rw [← h₂.symbols_eq] at hfits ⊢
  rw [nextToken_of_skipWhile hs₁ hcurrent, hs₂, Scanner.conclude_of_fits hfits]
  simp only [hname, hposition]

/-- If it is a string for which there is no room, all of it is passed before the failure. -/
theorem nextToken_of_reads_some_of_not_fits {l : Lexeme}
    (h : s.view.Shows (gap ++ (x ++ rest))) (hgap : ∀ b ∈ gap, Ascii.isBlank b = true)
    (ho : Reads (s.view.position.after gap) (x ++ rest) ⟨some l, x, rest, fs⟩)
    (hfits : ¬ l.Fits s.symbols) :
    ∃ s', nextToken s = .error (.capacity ⟨s.symbols.size⟩) s' ∧
      s.Passes (gap ++ x) rest fs s' := by
  obtain ⟨s₁, s₂, hs₁, hcurrent, -, -, hs₂, h₂⟩ := exists_lexeme?_after_gap h hgap ho
  refine ⟨s₂, ?_, h₂⟩
  rw [← h₂.symbols_eq] at hfits ⊢
  rw [nextToken_of_skipWhile hs₁ hcurrent, hs₂, Scanner.conclude_of_not_fits hfits]

/-- What is no token is skipped. -/
theorem nextToken_of_reads_none (h : s.view.Shows (gap ++ (x ++ rest)))
    (hgap : ∀ b ∈ gap, Ascii.isBlank b = true)
    (ho : Reads (s.view.position.after gap) (x ++ rest) ⟨none, x, rest, fs⟩) :
    ∃ s', nextToken s = nextToken s' ∧ s.Passes (gap ++ x) rest fs s' := by
  obtain ⟨s₁, s₂, hs₁, hcurrent, -, -, hs₂, h₂⟩ := exists_lexeme?_after_gap h hgap ho
  refine ⟨s₂, ?_, h₂⟩
  rw [nextToken_of_skipWhile hs₁ hcurrent, hs₂]
  rfl

/-! ### All tokens -/

omit [Receptive δ] in
theorem tokenizeAfter_eq (tokens : Array Token) (s : Scanner σ δ) :
    tokenizeAfter tokens s =
      match next? s with
      | .ok none s' => .ok tokens s'
      | .ok (some token) s' => tokenizeAfter (tokens.push token) s'
      | .error e s' => .error e s' := by
  rw [tokenizeAfter]
  split <;> simp [*]

omit [Receptive δ] in
theorem tokenizeAfter_of_nextToken {s' : Scanner σ δ} {token : Token} (tokens : Array Token)
    (hfinished : s.finished = false) (h : nextToken s = .ok token s') :
    tokenizeAfter tokens s =
      tokenizeAfter (tokens.push token) { s' with finished := token.isEnd } := by
  rw [tokenizeAfter_eq, next?, if_neg (by simp [hfinished]), h]

omit [Receptive δ] in
/-- A skip yields no token: the next one is that of the scanner behind it. -/
theorem tokenizeAfter_of_reads_none {s' : Scanner σ δ} (tokens : Array Token)
    (hfinished : s.finished = false) (hfinished' : s'.finished = s.finished)
    (h : nextToken s = nextToken s') : tokenizeAfter tokens s = tokenizeAfter tokens s' := by
  have hnext : next? s = next? s' := by
    simp [next?, h, hfinished', hfinished]
  rw [tokenizeAfter_eq, hnext, ← tokenizeAfter_eq]

/-- From a text that is taken apart, a scanner yields its tokens, and the end of the input after
them, if there is room for its strings. -/
theorem tokenizeAfter_of_lexes {p : Position} {text : List UInt8} {items : List Item}
    {fs : List Finding} (hlexes : Lexes p text items fs) (tokens : Array Token)
    (h : s.view.Shows text) (hp : s.view.position = p) (hfinished : s.finished = false)
    (hfit : Lexes.Fit s.symbols items) :
    ∃ s', tokenizeAfter tokens s =
        .ok (tokens ++ (Lexes.tokens s.sourceName s.symbols items).toArray ++
          #[⟨.endOfFile, s.sourceName, p.after text⟩]) s' ∧
      s'.receiver = Receptive.acceptAll s.sourceName fs s.receiver ∧
      s'.symbols = Lexes.symbols s.symbols items := by
  induction hlexes generalizing s tokens with
  | finish hgap =>
    subst hp
    obtain ⟨s₁, hs₁, h₁⟩ := nextToken_of_blanks h hgap
    refine ⟨{ s₁ with finished := true }, ?_, h₁.receiver_eq, h₁.symbols_eq⟩
    rw [tokenizeAfter_of_nextToken tokens hfinished hs₁, tokenizeAfter_eq]
    simp [next?, Token.isEnd, Lexes.tokens]
  | @token p gap x rest l items fs gs hgap ho _ ih =>
    subst hp
    obtain ⟨hfits, hfit⟩ := hfit
    obtain ⟨s₁, hs₁, h₁⟩ := nextToken_of_reads_some h hgap ho hfits
    have hend : Token.isEnd ⟨l.kind s.symbols, s.sourceName, s.view.position.after gap⟩ = false :=
      beq_eq_false_iff_ne.2 (l.kind_ne_endOfFile s.symbols)
    -- The rest is read by the scanner that has entered the lexeme into its table.
    obtain ⟨s₂, hs₂, hreceiver, hsymbols⟩ := ih (s := { s₁.enter l with finished := false })
      (tokens.push ⟨l.kind s.symbols, s.sourceName, s.view.position.after gap⟩)
      h₁.shows h₁.position_eq rfl (by rwa [Scanner.enter, h₁.symbols_eq])
    simp only [Scanner.enter, h₁.symbols_eq, h₁.sourceName_eq, h₁.receiver_eq] at hs₂ hreceiver
    simp only [Scanner.enter, h₁.symbols_eq] at hsymbols
    refine ⟨s₂, ?_, ?_, hsymbols⟩
    · rw [tokenizeAfter_of_nextToken tokens hfinished hs₁, hend]
      simp only [Scanner.enter, h₁.symbols_eq, h₁.sourceName_eq, h₁.receiver_eq, hs₂]
      simp [Lexes.tokens, Position.after_append]
    · rw [hreceiver, Receptive.acceptAll_append]
  | @skip p gap x rest items fs gs hgap ho _ ih =>
    subst hp
    obtain ⟨s₁, hs₁, h₁⟩ := nextToken_of_reads_none h hgap ho
    obtain ⟨s₂, hs₂, hreceiver, hsymbols⟩ := ih tokens h₁.shows h₁.position_eq
      (h₁.finished_eq.trans hfinished) (by rwa [h₁.symbols_eq])
    rw [h₁.symbols_eq, h₁.sourceName_eq] at hs₂
    rw [h₁.receiver_eq, h₁.sourceName_eq] at hreceiver
    rw [h₁.symbols_eq] at hsymbols
    refine ⟨s₂, ?_, ?_, hsymbols⟩
    · rw [tokenizeAfter_of_reads_none tokens hfinished h₁.finished_eq hs₁, hs₂]
      simp [Position.after_append]
    · rw [hreceiver, Receptive.acceptAll_append]

/-- If there is no room for its strings, the scanner fails at the first of them that finds none. -/
theorem tokenizeAfter_of_not_fit {p : Position} {text : List UInt8} {items : List Item}
    {fs : List Finding} (hlexes : Lexes p text items fs) (tokens : Array Token)
    (h : s.view.Shows text) (hp : s.view.position = p) (hfinished : s.finished = false)
    (hfit : ¬ Lexes.Fit s.symbols items) (hsize : s.symbols.size ≤ UInt32.size) :
    ∃ s', tokenizeAfter tokens s = .error (.capacity ⟨UInt32.size⟩) s' := by
  induction hlexes generalizing s tokens with
  | finish _ => exact absurd trivial hfit
  | @token p gap x rest l items fs gs hgap ho _ ih =>
    subst hp
    by_cases hfits : l.Fits s.symbols
    · obtain ⟨s₁, hs₁, h₁⟩ := nextToken_of_reads_some h hgap ho hfits
      have hend : Token.isEnd ⟨l.kind s.symbols, s.sourceName, s.view.position.after gap⟩ = false :=
        beq_eq_false_iff_ne.2 (l.kind_ne_endOfFile s.symbols)
      rw [tokenizeAfter_of_nextToken tokens hfinished hs₁, hend]
      have hsymbols : (s₁.enter l).symbols = l.enter s.symbols := by
        rw [Scanner.enter, h₁.symbols_eq]
      refine ih (s := { s₁.enter l with finished := false }) _ h₁.shows h₁.position_eq rfl ?_ ?_
      · rw [hsymbols]
        exact fun hrest => hfit ⟨hfits, hrest⟩
      · rw [hsymbols]
        exact (Lexeme.fits_iff hsize).1 hfits
    · obtain ⟨s₁, hs₁, -⟩ := nextToken_of_reads_some_of_not_fits h hgap ho hfits
      have hfull : s.symbols.size = UInt32.size :=
        Nat.le_antisymm hsize (Lexeme.maxIndex_lt_of_not_fits hfits)
      refine ⟨{ s₁ with finished := true }, ?_⟩
      rw [tokenizeAfter_eq, next?, if_neg (by simp [hfinished]), hs₁, hfull]
  | @skip p gap x rest items fs gs hgap ho _ ih =>
    subst hp
    obtain ⟨s₁, hs₁, h₁⟩ := nextToken_of_reads_none h hgap ho
    rw [tokenizeAfter_of_reads_none tokens hfinished h₁.finished_eq hs₁]
    rw [← h₁.symbols_eq] at hfit hsize
    exact ih tokens h₁.shows h₁.position_eq (h₁.finished_eq.trans hfinished) hfit hsize

end Scan

/-! ### Whole sources -/

section

variable {σ δ : Type} [ByteStream σ] [Receiver δ] [Receptive δ] {stream : σ}
  {bytes : List UInt8} (hstream : ByteStream.Delivers stream bytes)

include hstream

omit [Receiver δ] [Receptive δ] in
theorem exists_ofStream_shows (sourceName : String) (symbols : SymbolTable) (receiver : δ) :
    ∃ s : Scanner σ δ, Scanner.ofStream stream sourceName symbols receiver = .ok s ∧
      s.view.Shows (Ascii.beforeNul bytes) ∧ s.view.position = .start ∧
      s.receiver = receiver ∧ s.symbols = symbols ∧ s.sourceName = sourceName ∧
      s.finished = false := by
  obtain ⟨v, hv, hshows, hposition⟩ := Lookahead.exists_ofStream hstream
  exact ⟨_, by rw [Scanner.ofStream, hv], hshows, hposition, rfl, rfl, rfl, rfl⟩

variable {items : List Item} {fs : List Finding}
  (h : Lexes .start (Ascii.beforeNul bytes) items fs)

include h

/-- Whatever stream a source comes from, whatever receiver its findings go to and whatever table its
strings go to, as long as there is room for them: all its tokens are what comes of taking its text
apart. -/
theorem exists_tokenize_of_lexes (sourceName : String) {symbols : SymbolTable}
    (hfit : Lexes.Fit symbols items) (receiver : δ) :
    ∃ s s' : Scanner σ δ, Scanner.ofStream stream sourceName symbols receiver = .ok s ∧
      Scan.tokenize s = .ok (Lexes.tokens sourceName symbols items ++
        [⟨.endOfFile, sourceName, Position.start.after (Ascii.beforeNul bytes)⟩]) s' ∧
      s'.receiver = Receptive.acceptAll sourceName fs receiver ∧
      s'.symbols = Lexes.symbols symbols items := by
  obtain ⟨s, hs, hshows, hposition, rfl, rfl, rfl, hfinished⟩ :=
    exists_ofStream_shows hstream sourceName symbols receiver
  obtain ⟨s', hs', hreceiver, hsymbols⟩ :=
    Scan.tokenizeAfter_of_lexes h #[] hshows hposition hfinished hfit
  refine ⟨s, s', hs, ?_, hreceiver, hsymbols⟩
  simp [Scan.tokenize, Functor.map, EStateM.map, hs']

/-- If there is no room for the strings, there are no tokens. -/
theorem exists_tokenize_of_not_fit (sourceName : String) {symbols : SymbolTable}
    (hfit : ¬ Lexes.Fit symbols items) (hsize : symbols.size ≤ UInt32.size) (receiver : δ) :
    ∃ s s' : Scanner σ δ, Scanner.ofStream stream sourceName symbols receiver = .ok s ∧
      Scan.tokenize s = .error (.capacity ⟨UInt32.size⟩) s' := by
  obtain ⟨s, hs, hshows, hposition, -, rfl, -, hfinished⟩ :=
    exists_ofStream_shows hstream sourceName symbols receiver
  obtain ⟨s', hs'⟩ :=
    Scan.tokenizeAfter_of_not_fit h #[] hshows hposition hfinished hfit hsize
  refine ⟨s, s', hs, ?_⟩
  simp [Scan.tokenize, Functor.map, EStateM.map, hs']

end

end CinderFront
