import CinderFront.Proofs.Findings
import CinderFront.Proofs.RoundTrip
import CinderFront.Proofs.Shift
import Mathlib.Data.List.Forall2

/-!
# Texts with a line break between them

If nothing is unterminated in a text, nothing in it goes on behind its end. With a line break behind
it, it is taken apart as before, and what follows the line break is taken apart as if it stood
alone, only further down.

* `Passage.followedBy` — the passage over a text that has more behind it;
* `Transition.run_followedBy`, `quotation_followedBy` — literals that are closed;
* `Ascii.Separates`, `Punctuation.longestAt?_append_of_separates` — bytes that make no mark longer;
* `Reads.followedBy_or`, `Reads.followedBy` — what any rule reads, unless it is unterminated;
* `Lexes.join`, `Lexes.join_start` — whole texts;
* `Token.Kind.Alike`, `ScanResult.Joins` — how the scans of the two texts and of both together
  compare;
* `scan_lineBreak` — the scan of both together.
-/

namespace CinderFront

/-! ### Runs of bytes before a line break -/

section

variable {c : UInt8 → Bool} {b : UInt8}

theorem takeWhile_append_cons (hb : c b = false) (r more : List UInt8) :
    (r ++ b :: more).takeWhile c = r.takeWhile c := by
  induction r with
  | nil => simp [hb]
  | cons d r ih =>
    rw [List.cons_append, List.takeWhile_cons, List.takeWhile_cons, ih]

theorem dropWhile_append_cons (hb : c b = false) (r more : List UInt8) :
    (r ++ b :: more).dropWhile c = r.dropWhile c ++ b :: more := by
  induction r with
  | nil => simp [hb]
  | cons d r ih =>
    rw [List.cons_append, List.dropWhile_cons, List.dropWhile_cons, ih]
    split <;> rfl

theorem takeWhile_append_of_mem (hb : c b = false) {r : List UInt8} (hmem : b ∈ r)
    (more : List UInt8) : (r ++ more).takeWhile c = r.takeWhile c := by
  obtain ⟨u, v, rfl⟩ := List.append_of_mem hmem
  rw [List.append_assoc, List.cons_append, takeWhile_append_cons hb, takeWhile_append_cons hb]

theorem dropWhile_append_of_mem (hb : c b = false) {r : List UInt8} (hmem : b ∈ r)
    (more : List UInt8) : (r ++ more).dropWhile c = r.dropWhile c ++ more := by
  obtain ⟨u, v, rfl⟩ := List.append_of_mem hmem
  rw [List.append_assoc, List.cons_append, dropWhile_append_cons hb, dropWhile_append_cons hb,
    List.append_assoc, List.cons_append]

theorem head?_append_cons_ne {d : UInt8} (hb : b ≠ d) {r : List UInt8} (hr : r.head? ≠ some d)
    (more : List UInt8) : (r ++ b :: more).head? ≠ some d := by
  cases r with
  | nil => simpa using hb
  | cons e r => exact hr

/-- What does not have `b` in it and begins a text with a `b` in it ends before that. -/
theorem prefix_of_prefix_append_cons {w : List UInt8} (hw : b ∉ w) {r more : List UInt8}
    (h : w <+: r ++ b :: more) : w <+: r := by
  induction w generalizing r with
  | nil => exact List.nil_prefix
  | cons c w ih =>
    obtain ⟨hc, hw⟩ := not_or.1 (mt List.mem_cons.2 hw)
    cases r with
    | nil => exact absurd (List.cons_prefix_cons.1 h).1.symm hc
    | cons d r =>
      obtain ⟨hhead, htail⟩ := List.cons_prefix_cons.1 h
      exact List.cons_prefix_cons.2 ⟨hhead, ih hw htail⟩

end

theorem Ascii.beforeNul_append_lineFeed {s : List UInt8} (hs : Ascii.nul ∉ s)
    (more : List UInt8) : Ascii.beforeNul (s ++ Ascii.lineFeed :: more) =
      s ++ Ascii.lineFeed :: Ascii.beforeNul more := by
  rw [Ascii.beforeNul, List.takeWhile_append_of_pos, ← Ascii.beforeNul,
    Ascii.beforeNul_cons (by decide)]
  intro b hb
  have hne : b ≠ Ascii.nul := fun h => hs (h ▸ hb)
  simpa using hne

/-- A byte that ends every word, number and mark before it, and that closes nothing. -/
structure Ascii.Separates (b : UInt8) : Prop where
  isWordByte_eq : Ascii.isWordByte b = false
  isNumberByte_eq : Ascii.isNumberByte b = false
  ne_fullStop : b ≠ Ascii.fullStop
  ne_slash : b ≠ Ascii.slash
  ne_asterisk : b ≠ Ascii.asterisk
  ne_bar : b ≠ Ascii.bar
  ne_doubleQuote : b ≠ Ascii.doubleQuote
  ne_singleQuote : b ≠ Ascii.singleQuote
  eq_newline_of_mem : ∀ m : Punctuation, b ∈ m.bytes → m = .newline

namespace Ascii

theorem separates_lineFeed : Separates lineFeed where
  isWordByte_eq := by decide
  isNumberByte_eq := by decide
  ne_fullStop := by decide
  ne_slash := by decide
  ne_asterisk := by decide
  ne_bar := by decide
  ne_doubleQuote := by decide
  ne_singleQuote := by decide
  eq_newline_of_mem m h := by
    revert h
    cases m <;> decide

theorem separates_of_isBlank {b : UInt8} (h : isBlank b = true) : Separates b := by
  obtain ⟨hword, hnumber, hfullStop, hslash, hasterisk, -⟩ := ne_of_isBlank h
  have hothers : b ≠ bar ∧ b ≠ doubleQuote ∧ b ≠ singleQuote := by
    rcases isBlank_iff.1 h with hb | hb | hb <;> rw [hb] <;> decide
  refine ⟨hword, hnumber, hfullStop, hslash, hasterisk, hothers.1, hothers.2.1, hothers.2.2, ?_⟩
  intro m hm
  rw [(m.mem_bytes b hm).2.1] at h
  cases h

end Ascii

/-! ### Literals -/

/-- The passage over the text when `more` follows it. -/
def Passage.followedBy {α : Type} (o : Passage α) (more : List UInt8) : Passage α :=
  { o with rest := o.rest ++ more }

/-- Nothing that was found is something unterminated. -/
def Ended (fs : List Finding) : Prop := ∀ f ∈ fs, f.error.code.isUnterminated = false

theorem ended_append {fs gs : List Finding} : Ended (fs ++ gs) ↔ Ended fs ∧ Ended gs :=
  List.forall_mem_append

/-- A step that closes a literal does so whatever the byte after the quote is. -/
structure Literal.Closes (t : Transition Literal) : Prop where
  stops_eq : ∀ lit b, t.stops lit b = lit.isClosed
  take_eq : ∀ {lit : Literal} {b next : UInt8} {p : Position} (next' : UInt8),
    (t.take lit b next p).isClosed = true → t.take lit b next' p = t.take lit b next p

theorem Literal.closes_quoted (quote : UInt8) : Closes (quoted quote) where
  stops_eq _ _ := rfl
  take_eq {lit _ _ _} _ _ := by
    obtain ⟨raw, phase⟩ := lit
    cases phase <;> rfl

theorem Literal.lineContent_eq {raw : LiteralText} {b next : UInt8} {p : Position} (next' : UInt8)
    (h : (lineContent raw b next p).isClosed = true) :
    lineContent raw b next' p = lineContent raw b next p := by
  -- The byte after it matters only to a backslash, and no backslash closes a literal.
  have hb : b ≠ Ascii.backslash := by
    rintro rfl
    revert h
    simp only [lineContent, content]
    split
    · simp [isClosed]
    · split <;> simp [isClosed, show Ascii.backslash ≠ Ascii.doubleQuote by decide]
  simp [lineContent, hb]

theorem Literal.closes_multiLine : Closes multiLine where
  stops_eq _ _ := rfl
  take_eq {lit b next p} next' h := by
    obtain ⟨raw, phase⟩ := lit
    cases phase with
    | escaped => rfl
    | content | closed => exact lineContent_eq next' h
    | margin =>
      simp only [multiLine] at h ⊢
      split
      · rfl
      · next hindent =>
        split
        · rfl
        · next hbar =>
          rw [if_neg hindent, if_neg hbar] at h
          exact lineContent_eq next' h

/-- A literal that is closed is closed whatever follows. -/
theorem Transition.run_followedBy {t : Transition Literal} (ht : Literal.Closes t)
    (more : List UInt8) (text : List UInt8) :
    ∀ (lit : Literal) (p : Position), (t.run lit p text).value.isClosed = true →
      t.run lit p (text ++ more) = (t.run lit p text).followedBy more := by
  have hover : ∀ (lit : Literal) (p : Position), lit.isClosed = true →
      t.run lit p more = ⟨lit, [], more, []⟩ := by
    intro lit p hclosed
    cases more with
    | nil => rfl
    | cons b r => exact run_cons_of_stops t lit p r ((ht.stops_eq lit b).trans hclosed)
  induction text with
  | nil => exact hover
  | cons b r ih =>
    intro lit p hclosed
    cases hstops : t.stops lit b with
    | true =>
      rw [List.cons_append, run_cons_of_stops t lit p _ hstops, run_cons_of_stops t lit p _ hstops]
      rfl
    | false =>
      rw [run_cons t lit p _ hstops] at hclosed
      have hstep : t.take lit b ((r ++ more).headD Ascii.nul) p =
          t.take lit b (r.headD Ascii.nul) p := by
        cases r with
        | nil => exact ht.take_eq _ hclosed
        | cons c r => rfl
      rw [List.cons_append, run_cons t lit p _ hstops, run_cons t lit p _ hstops, hstep,
        ih _ _ hclosed]
      rfl

/-- If nothing is missing of a literal, it is closed. -/
theorem isClosed_of_ended {form : Transition Literal} {unterminated : LexicalError}
    (hcode : unterminated.code.isUnterminated = true) {opening : List UInt8} {p : Position}
    {r : List UInt8} (hended : Ended (quotation form unterminated opening p r).findings) :
    (form.run {} (p.after opening) r).value.isClosed = true := by
  by_contra hopen
  have hmissing := (ended_append.1 (ended_append.1 hended).1).2
  rw [if_neg hopen] at hmissing
  simpa [hcode] using hmissing _ (List.mem_singleton_self _)

/-- A closed literal is read alike whatever follows. -/
theorem quotation_followedBy_of_isClosed {form : Transition Literal} (hform : Literal.Closes form)
    {unterminated : LexicalError} {opening : List UInt8} {p : Position} {r : List UInt8}
    (hclosed : (form.run {} (p.after opening) r).value.isClosed = true) (more : List UInt8) :
    quotation form unterminated opening p (r ++ more) =
      (quotation form unterminated opening p r).followedBy more := by
  simp only [quotation, Transition.run_followedBy hform more r {} _ hclosed]
  rfl

/-- A literal of which nothing is missing is read alike whatever follows. -/
theorem quotation_followedBy {form : Transition Literal} (hform : Literal.Closes form)
    {unterminated : LexicalError} (hcode : unterminated.code.isUnterminated = true)
    {opening : List UInt8} {p : Position} {r : List UInt8}
    (hended : Ended (quotation form unterminated opening p r).findings) (more : List UInt8) :
    quotation form unterminated opening p (r ++ more) =
      (quotation form unterminated opening p r).followedBy more :=
  quotation_followedBy_of_isClosed hform (isClosed_of_ended hcode hended) more

theorem quotation_followedBy_of_eq {form : Transition Literal} (hform : Literal.Closes form)
    {unterminated : LexicalError} (hcode : unterminated.code.isUnterminated = true)
    {opening r x rest contents : List UInt8} {p : Position} {fs : List Finding}
    (ho : quotation form unterminated opening p r = ⟨contents, x, rest, fs⟩) (hended : Ended fs)
    (more : List UInt8) :
    quotation form unterminated opening p (r ++ more) = ⟨contents, x, rest ++ more, fs⟩ := by
  rw [quotation_followedBy hform hcode (by rwa [ho]), ho]
  rfl

/-! ### Marks -/

namespace Punctuation

theorem eq_newline_of_mem {m : Punctuation} (h : Ascii.lineFeed ∈ m.bytes) : m = newline :=
  Ascii.separates_lineFeed.eq_newline_of_mem m h

theorem longestAt?_lineFeed (r : List UInt8) :
    longestAt? (Ascii.lineFeed :: r) = some newline := by
  refine longestAt?_eq_some_iff.2 ⟨List.prefix_append [Ascii.lineFeed] r, fun n hn => ?_⟩
  obtain ⟨b, bs, hbytes⟩ := List.exists_cons_of_ne_nil n.bytes_ne_nil
  have hb : b = Ascii.lineFeed := by
    rw [hbytes] at hn
    exact (List.cons_prefix_cons.1 hn).1
  rw [eq_newline_of_mem (m := n) (by simp [hbytes, hb])]

/-- A separator behind a text makes no mark at its beginning longer. -/
theorem longestAt?_append_of_separates {c : UInt8} (hc : Ascii.Separates c) (b : UInt8)
    (r more : List UInt8) :
    longestAt? (b :: r ++ c :: more) = longestAt? (b :: r) := by
  rw [longestAt?_eq_find?, longestAt?_eq_find?]
  congr 1
  funext m
  rw [Bool.eq_iff_iff, List.isPrefixOf_iff_prefix, List.isPrefixOf_iff_prefix]
  refine ⟨fun h => ?_, fun h => h.trans (List.prefix_append _ _)⟩
  by_cases hm : c ∈ m.bytes
  · obtain rfl := hc.eq_newline_of_mem m hm
    exact List.cons_prefix_cons.2 ⟨(List.cons_prefix_cons.1 h).1, List.nil_prefix⟩
  · exact prefix_of_prefix_append_cons hm h

end Punctuation

/-! ### Rules -/

theorem not_atFraction_append {r : List UInt8} (h : ¬ AtFraction r) {c : UInt8}
    (hc : c ≠ Ascii.fullStop) (more : List UInt8) : ¬ AtFraction (r ++ c :: more) := by
  intro hat
  obtain ⟨r', hr', hhead⟩ := hat
  cases r with
  | nil => exact hc (List.cons.inj hr').1
  | cons b r =>
    obtain ⟨rfl, rfl⟩ := List.cons.inj hr'
    refine h ⟨r, rfl, fun hr => hhead ?_⟩
    obtain ⟨r', rfl⟩ := List.head?_eq_some_iff.1 hr
    rfl

/-- What stands at the beginning of a text stands there if a separator and more follow the text,
unless it is unterminated, or it is a line comment that goes on. -/
theorem Reads.followedBy_or {p : Position} {text : List UInt8} {o : Passage (Option Lexeme)}
    (h : Reads p text o) (hended : Ended o.findings) {c : UInt8} (hc : Ascii.Separates c)
    (more : List UInt8) :
    Reads p (text ++ c :: more) (o.followedBy (c :: more)) ∨
      c ≠ Ascii.lineFeed ∧ o = ⟨none, text, [], []⟩ ∧
        ∃ r, text = Ascii.slash :: Ascii.slash :: r ∧ Ascii.lineFeed ∉ r := by
  have hdouble := Literal.closes_quoted Ascii.doubleQuote
  have hsingle := Literal.closes_quoted Ascii.singleQuote
  -- Only a line comment can go on behind a separator; every other rule reads on as before.
  by_cases hcomment : c ≠ Ascii.lineFeed ∧ o = ⟨none, text, [], []⟩ ∧
      ∃ r, text = Ascii.slash :: Ascii.slash :: r ∧ Ascii.lineFeed ∉ r
  · exact .inr hcomment
  refine .inl ?_
  cases h with
  | string hbar =>
    have h := Reads.string (p := p) (head?_append_cons_ne hc.ne_bar hbar more)
    rwa [quotation_followedBy hdouble rfl hended] at h
  | @multiLine r =>
    have h := Reads.multiLine (p := p) (r := r ++ c :: more)
    rwa [quotation_followedBy Literal.closes_multiLine rfl hended] at h
  | emptyCharacter ho =>
    have hended := (ended_append.1 hended).1
    exact .emptyCharacter (quotation_followedBy_of_eq hsingle rfl ho hended _)
  | character ho =>
    exact .character (quotation_followedBy_of_eq hsingle rfl ho hended _)
  | overlongCharacter ho =>
    have hended := (ended_append.1 hended).1
    exact .overlongCharacter (quotation_followedBy_of_eq hsingle rfl ho hended _)
  | @lineComment r =>
    have h := Reads.lineComment (p := p) (r := r ++ c :: more)
    by_cases hlineFeed : c = Ascii.lineFeed
    · subst hlineFeed
      rwa [takeWhile_append_cons (by decide), dropWhile_append_cons (by decide)] at h
    by_cases hmem : Ascii.lineFeed ∈ r
    · rwa [takeWhile_append_of_mem (by decide) hmem, dropWhile_append_of_mem (by decide) hmem] at h
    · have hall : ∀ b ∈ r, (b != Ascii.lineFeed) = true := by
        intro b hb
        simpa using ne_of_mem_of_not_mem hb hmem
      refine absurd ⟨hlineFeed, ?_, r, rfl, hmem⟩ hcomment
      rw [List.takeWhile_eq_self_iff.2 hall, List.dropWhile_eq_nil_iff.2 hall]
  | @blockComment body rest hbody =>
    have h := @Reads.blockComment p body (rest ++ c :: more) hbody
    rwa [← List.append_assoc] at h
  | openComment _ => cases hended _ (List.mem_singleton_self _)
  | @word b r hb =>
    have h := Reads.word (p := p) (r := r ++ c :: more) hb
    rw [← List.cons_append] at h
    rwa [takeWhile_append_cons hc.isWordByte_eq, dropWhile_append_cons hc.isWordByte_eq] at h
  | @integer b r hb hfraction =>
    have h := Reads.integer (p := p) (r := r ++ c :: more) hb
    rw [← List.cons_append] at h
    rw [takeWhile_append_cons hc.isNumberByte_eq, dropWhile_append_cons hc.isNumberByte_eq] at h
    exact h (not_atFraction_append hfraction hc.ne_fullStop more)
  | @float b r r' hb hr hhead =>
    have hr' : (b :: (r ++ c :: more)).dropWhile Ascii.isNumberByte =
        Ascii.fullStop :: (r' ++ c :: more) := by
      rw [← List.cons_append, dropWhile_append_cons hc.isNumberByte_eq, hr]
      rfl
    have h := Reads.float (p := p) hb hr' (head?_append_cons_ne hc.ne_fullStop hhead more)
    rw [← List.cons_append] at h
    rwa [takeWhile_append_cons hc.isNumberByte_eq, takeWhile_append_cons hc.isNumberByte_eq,
      dropWhile_append_cons hc.isNumberByte_eq] at h
  | @mark m rest hm hslash =>
    have hm' : Punctuation.longestAt? (m.bytes ++ (rest ++ c :: more)) = some m := by
      obtain ⟨b, bs, hbytes⟩ := List.exists_cons_of_ne_nil m.bytes_ne_nil
      rw [hbytes] at hm ⊢
      rw [← List.append_assoc, ← hm]
      exact Punctuation.longestAt?_append_of_separates hc b (bs ++ rest) more
    have h := Reads.mark (p := p) hm' fun h =>
      ⟨head?_append_cons_ne hc.ne_slash (hslash h).1 more,
        head?_append_cons_ne hc.ne_asterisk (hslash h).2 more⟩
    rwa [← List.append_assoc] at h
  | @unknown b r hnone hdouble hsingle hword hblank =>
    have hnone' := (Punctuation.longestAt?_append_of_separates hc b r more).trans hnone
    exact .unknown hnone' hdouble hsingle hword hblank

/-- What stands at the beginning of a text stands there if a line break and more follow the text,
unless it is unterminated. -/
theorem Reads.followedBy {p : Position} {text : List UInt8} {o : Passage (Option Lexeme)}
    (h : Reads p text o) (hended : Ended o.findings) (more : List UInt8) :
    Reads p (text ++ Ascii.lineFeed :: more) (o.followedBy (Ascii.lineFeed :: more)) :=
  (h.followedBy_or hended Ascii.separates_lineFeed more).resolve_right fun h => h.1 rfl

/-! ### Positions behind a line break -/

namespace Position

theorem line_after (p : Position) (x : List UInt8) :
    (p.after x).line = p.line + x.count Ascii.lineFeed := by
  induction x generalizing p with
  | nil => rfl
  | cons b x ih =>
    rw [after_cons, ih, List.count_cons]
    by_cases hb : b = Ascii.lineFeed
    · simp [past, hb, nextLine]
      omega
    · simp [past, hb, nextColumn]

/-- Behind a text and a line break, a text begins as it begins alone, further down. -/
theorem past_lineFeed_after_start (x : List UInt8) :
    (start.after x).past Ascii.lineFeed = start.below (1 + x.count Ascii.lineFeed) := by
  simp only [past, nextLine, if_true, line_after, below, start]
  congr 1
  omega

theorem after_append_lineFeed (x y : List UInt8) : start.after (x ++ Ascii.lineFeed :: y) =
    (start.after y).below (1 + x.count Ascii.lineFeed) := by
  rw [after_append, after_cons, past_lineFeed_after_start, below_after]

end Position

/-! ### Texts -/

section

variable {p : Position} {s text : List UInt8} {items items' : List Item} {fs fs' : List Finding}

/-- A text in which nothing is unterminated, a line break and another text are taken apart one after
the other. -/
theorem Lexes.join (h : Lexes p s items fs) (hended : Ended fs)
    (h' : Lexes ((p.after s).past Ascii.lineFeed) text items' fs') :
    Lexes p (s ++ Ascii.lineFeed :: text)
      (items ++ ⟨.mark .newline, p.after s⟩ :: items') (fs ++ fs') := by
  induction h with
  | @finish p gap hgap =>
    have ho : Reads (p.after gap) (Punctuation.newline.bytes ++ text)
        ⟨some (.mark .newline), Punctuation.newline.bytes, text, []⟩ :=
      .mark (Punctuation.longestAt?_lineFeed text) nofun
    refine Lexes.token hgap ho ?_
    rw [Position.after_append]
    exact h'
  | @token p gap x rest l items fs gs hgap ho _ ih =>
    obtain ⟨hfs, hgs⟩ := ended_append.1 hended
    rw [← List.append_assoc, Position.after_append] at h'
    have ho := ho.followedBy hfs text
    rw [List.append_assoc] at ho
    have hjoined := Lexes.token hgap ho (ih hgs h')
    simpa [Position.after_append] using hjoined
  | @skip p gap x rest items fs gs hgap ho _ ih =>
    obtain ⟨hfs, hgs⟩ := ended_append.1 hended
    rw [← List.append_assoc, Position.after_append] at h'
    have ho := ho.followedBy hfs text
    rw [List.append_assoc] at ho
    have hjoined := Lexes.skip hgap ho (ih hgs h')
    simpa [Position.after_append] using hjoined

/-- The same for two texts that both begin where sources begin. -/
theorem Lexes.join_start (hnul : Ascii.nul ∉ s) (h : Lexes .start (Ascii.beforeNul s) items fs)
    (hended : Ended fs) (h' : Lexes .start (Ascii.beforeNul text) items' fs') :
    let k := 1 + s.count Ascii.lineFeed
    Lexes .start (Ascii.beforeNul (s ++ Ascii.lineFeed :: text))
      (items ++ ⟨.mark .newline, Position.start.after s⟩ :: items'.map (Item.below k))
      (fs ++ fs'.map (Finding.below k)) := by
  intro k
  have hbehind := h'.map_below k
  rw [← Position.past_lineFeed_after_start] at hbehind
  rw [Ascii.beforeNul_eq_self hnul] at h
  rw [Ascii.beforeNul_append_lineFeed hnul]
  exact h.join hended hbehind

/-! ### What comes of them -/

variable (sourceName : String) (table : SymbolTable)

theorem Lexes.symbols_append :
    symbols table (items ++ items') = symbols (symbols table items) items' :=
  List.foldl_append

theorem Lexes.tokens_append : tokens sourceName table (items ++ items') =
    tokens sourceName table items ++ tokens sourceName (symbols table items) items' := by
  induction items generalizing table with
  | nil => rfl
  | cons item items ih => exact congrArg (_ :: ·) (ih _)

theorem Lexes.symbols_map_below (k : Nat) :
    symbols table (items.map (Item.below k)) = symbols table items :=
  List.foldl_map

end

/-! ### Scans -/

/-- The kinds are the same, except that strings have symbols of the same contents, each in a table
of its own. -/
inductive Token.Kind.Alike (symbols symbols' : SymbolTable) : Token.Kind → Token.Kind → Prop
  | string {symbol symbol' : Symbol} {contents : List UInt8} :
      symbols.lookup? symbol = some contents → symbols'.lookup? symbol' = some contents →
      Alike symbols symbols' (.string symbol) (.string symbol')
  | same {kind : Token.Kind} : (∀ symbol, kind ≠ .string symbol) →
      Alike symbols symbols' kind kind

/-- The second token is the first one `lines` lines further down. -/
structure Token.AlikeBelow (lines : Nat) (symbols symbols' : SymbolTable) (t t' : Token) :
    Prop where
  alike : t.kind.Alike symbols symbols' t'.kind
  sourceName_eq : t'.sourceName = t.sourceName
  position_eq : t'.position = t.position.below lines

/-- The diagnostic, `k` lines further down. -/
def Diagnostic.below (k : Nat) (d : Diagnostic) : Diagnostic :=
  { d with position := d.position.below k }

/-- `r` is the result of scanning two texts with a line break between them, `r₁` and `r₂` are the
results of scanning them alone, and the second text begins `lines` lines further down. -/
structure ScanResult.Joins (sourceName : String) (lines : Nat) (r₁ r₂ r : ScanResult) : Prop where
  tokens : ∃ before position after,
    r₁.tokens = before ++ [⟨.endOfFile, sourceName, position⟩] ∧
    r.tokens = before ++ ⟨.mark .newline, sourceName, position⟩ :: after ∧
    List.Forall₂ (Token.AlikeBelow lines r₂.symbols r.symbols) r₂.tokens after
  symbols : ∀ symbol contents, r₁.symbols.lookup? symbol = some contents →
    r.symbols.lookup? symbol = some contents
  diagnostics : r.diagnostics = r₁.diagnostics ++ r₂.diagnostics.map (Diagnostic.below lines)

section

variable {table table' : SymbolTable} (h : table.Consistent) (h' : table'.Consistent)

include h h'

/-- A lexeme makes kinds alike, whatever the tables are that it is entered into. -/
theorem Lexeme.alike_kind (l : Lexeme) (items items' : List Item) :
    (l.kind table).Alike (Lexes.symbols (l.enter table) items)
      (Lexes.symbols (l.enter table') items') (l.kind table') := by
  cases l with
  | string contents =>
    exact .string (Lexes.lookup?_symbols (h.lookup?_intern contents) items)
      (Lexes.lookup?_symbols (h'.lookup?_intern contents) items')
  | _ => exact .same nofun

/-- The same items further down make tokens alike. -/
theorem Lexes.forall₂_tokens (sourceName : String) (k : Nat) (items : List Item) :
    List.Forall₂ (Token.AlikeBelow k (symbols table items) (symbols table' items))
      (tokens sourceName table items)
      (tokens sourceName table' (items.map (Item.below k))) := by
  induction items generalizing table table' with
  | nil => exact .nil
  | cons item items ih =>
    have hitem := item.lexeme.alike_kind h h' items items
    exact .cons ⟨hitem, rfl, rfl⟩
      (ih (item.lexeme.consistent_enter h) (item.lexeme.consistent_enter h'))

end

/-- A scan of two texts with a line break between them yields what the scans of the two yield, one
after the other, with the line break in place of the end of the first. What comes of the second is
further down by the lines of the first. The first may have no NUL in it and nothing unterminated,
and none of the three may have more strings than there are symbols. -/
theorem scan_lineBreak {s₁ s₂ : List UInt8} (hnul : Ascii.nul ∉ s₁) (hfew₁ : FewStrings s₁)
    (hfew₂ : FewStrings s₂) (hfew : FewStrings (s₁ ++ Ascii.lineFeed :: s₂)) (sourceName : String) :
    ∃ r₁, scan (⟨s₁⟩ : SourceText) sourceName = .ok r₁ ∧
      ((∀ d ∈ r₁.diagnostics, d.code.isUnterminated = false) →
        ∃ r₂ r, scan (⟨s₂⟩ : SourceText) sourceName = .ok r₂ ∧
          scan (⟨s₁ ++ Ascii.lineFeed :: s₂⟩ : SourceText) sourceName = .ok r ∧
          ScanResult.Joins sourceName (1 + s₁.count Ascii.lineFeed) r₁ r₂ r) := by
  obtain ⟨items₁, fs₁, r₁, hlexes₁, hscan₁, htokens₁, hdiagnostics₁, hsymbols₁⟩ :=
    exists_scan hfew₁ sourceName
  refine ⟨r₁, hscan₁, fun hended => ?_⟩
  obtain ⟨items₂, fs₂, r₂, hlexes₂, hscan₂, htokens₂, hdiagnostics₂, hsymbols₂⟩ :=
    exists_scan hfew₂ sourceName
  have hfs₁ : Ended fs₁ := fun f hf =>
    hended (f.toDiagnostic sourceName) (by rw [hdiagnostics₁]; exact List.mem_map_of_mem hf)
  have hlexes := hlexes₁.join_start hnul hfs₁ hlexes₂
  obtain ⟨r, hscan, htokens, hdiagnostics, hsymbols⟩ :=
    scan_of_lexes (SourceText.delivers (s₁ ++ Ascii.lineFeed :: s₂)) hlexes sourceName
      (hfew.fit hlexes)
  rw [Ascii.beforeNul_eq_self hnul] at htokens₁
  rw [Ascii.beforeNul_append_lineFeed hnul, Position.after_append_lineFeed, Lexes.tokens_append,
    List.append_assoc] at htokens
  have hsymbols' : r.symbols = Lexes.symbols (Lexes.symbols .new items₁) items₂ := by
    rw [hsymbols, Lexes.symbols_append]
    exact Lexes.symbols_map_below _ _
  have hconsistent := SymbolTable.consistent_new
  refine ⟨r₂, r, hscan₂, hscan, ⟨_, _, _, htokens₁, htokens, ?_⟩, ?_, ?_⟩
  · rw [htokens₂, hsymbols₂, hsymbols']
    refine List.rel_append (Lexes.forall₂_tokens hconsistent
      (Lexes.consistent_symbols hconsistent items₁) sourceName _ items₂) (.cons ?_ .nil)
    exact ⟨.same nofun, rfl, rfl⟩
  · intro symbol contents hlookup
    rw [hsymbols₁] at hlookup
    rw [hsymbols']
    exact Lexes.lookup?_symbols hlookup items₂
  · rw [hdiagnostics, hdiagnostics₁, hdiagnostics₂, List.map_append, List.map_map, List.map_map]
    rfl

/-- An empty character literal, which is reported, and a line comment that holds a quote: the line
break ends the comment, and behind it begins a string. -/
theorem scan_lineBreak_comment :
    ∃ r₁, Ascii.nul ∉ Ascii.codes "''//\"" ∧ FewStrings (Ascii.codes "''//\"") ∧
      FewStrings (Ascii.codes "\"//\"") ∧
      FewStrings (Ascii.codes "''//\"" ++ Ascii.lineFeed :: Ascii.codes "\"//\"") ∧
      scan (⟨Ascii.codes "''//\""⟩ : SourceText) "line" = .ok r₁ ∧ r₁.diagnostics ≠ [] ∧
      (∀ d ∈ r₁.diagnostics, d.code.isUnterminated = false) ∧
      ∃ r₂ r, scan (⟨Ascii.codes "\"//\""⟩ : SourceText) "line" = .ok r₂ ∧
        scan (⟨Ascii.codes "''//\"" ++ Ascii.lineFeed :: Ascii.codes "\"//\""⟩ : SourceText)
          "line" = .ok r ∧
        ScanResult.Joins "line" (1 + (Ascii.codes "''//\"").count Ascii.lineFeed) r₁ r₂ r := by
  have hnul : Ascii.nul ∉ Ascii.codes "''//\"" := by decide
  have hfew₁ : FewStrings (Ascii.codes "''//\"") := fewStrings_of_length_lt (by decide)
  have hfew₂ : FewStrings (Ascii.codes "\"//\"") := fewStrings_of_length_lt (by decide)
  have hfew : FewStrings (Ascii.codes "''//\"" ++ Ascii.lineFeed :: Ascii.codes "\"//\"") :=
    fewStrings_of_length_lt (by decide)
  have hempty : Reads .start (Ascii.codes "''" ++ Ascii.codes "//\"")
      ⟨none, Ascii.codes "''", Ascii.codes "//\"", [⟨.emptyCharacter, .start⟩]⟩ :=
    .emptyCharacter (quotation_encode (.inr rfl) .unterminatedCharacter .start [] _)
  have hcomment : Reads (Position.start.after (Ascii.codes "''")) (Ascii.codes "//\"" ++ [])
      ⟨none, Ascii.codes "//\"", [], []⟩ := .lineComment
  have hlexes : Lexes .start (Ascii.beforeNul (Ascii.codes "''//\"")) []
      [⟨.emptyCharacter, .start⟩] :=
    .skip (p := .start) (List.forall_mem_nil _) hempty
      (.skip (p := Position.start.after (Ascii.codes "''")) (List.forall_mem_nil _) hcomment
        (.finish (List.forall_mem_nil _)))
  obtain ⟨r₁, hscan, -, hdiagnostics, -⟩ :=
    scan_of_lexes (SourceText.delivers (Ascii.codes "''//\"")) hlexes "line" trivial
  have hended : ∀ d ∈ r₁.diagnostics, d.code.isUnterminated = false := by
    rw [hdiagnostics]
    decide
  obtain ⟨r₁', hscan', hjoins⟩ := scan_lineBreak hnul hfew₁ hfew₂ hfew "line"
  obtain rfl : r₁ = r₁' := Except.ok.inj (hscan.symm.trans hscan')
  refine ⟨r₁, hnul, hfew₁, hfew₂, hfew, hscan, ?_, hended, hjoins hended⟩
  rw [hdiagnostics]
  exact List.cons_ne_nil _ _

end CinderFront
