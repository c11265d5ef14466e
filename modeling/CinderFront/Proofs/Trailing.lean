import CinderFront.Compilation
import CinderFront.Proofs.LineBreak
import Mathlib.Data.List.DropRight

/-!
# White space at the end of a file

White space at the end of a file is dropped before the file is scanned. Nothing is lost by that if
nothing in the file is unterminated: the white space makes no token longer, it ends no comment and
no literal, and of itself it has one token for each line break.

* `Transition.isClosed_of_run_append` — white space closes no literal;
* `Reads.exists_append`, `Lexes.exists_append` — what is unterminated stays so;
* `Lexes.append_blank`, `Lexes.append_trailing` — what is not is taken apart as before;
* `ScanResult.AddsLineBreaks`, `scan_trimEnd` — the scans of the file with the white space and
  without it.
-/

namespace CinderFront

/-! ### Literals -/

namespace Literal

variable {raw : LiteralText} {c : UInt8}

theorem isClosed_content {quote : UInt8} (hc : c ≠ quote) (p : Position) :
    (content quote raw c p).isClosed = false := by
  rw [content, if_neg hc]
  split <;> rfl

theorem isClosed_lineContent (hc : c ≠ Ascii.doubleQuote) (next : UInt8) (p : Position) :
    (lineContent raw c next p).isClosed = false := by
  rw [lineContent]
  split
  · rfl
  · split
    · rfl
    · exact isClosed_content hc p

theorem isClosed_take_quoted {quote : UInt8} (hc : c ≠ quote) (lit : Literal) (next : UInt8)
    (p : Position) : ((quoted quote).take lit c next p).isClosed = false := by
  obtain ⟨raw, phase⟩ := lit
  cases phase with
  | escaped => rfl
  | content | margin | closed => exact isClosed_content hc p

theorem isClosed_take_multiLine (hc : c ≠ Ascii.doubleQuote) (lit : Literal) (next : UInt8)
    (p : Position) : (multiLine.take lit c next p).isClosed = false := by
  obtain ⟨raw, phase⟩ := lit
  cases phase with
  | escaped => rfl
  | content | closed => exact isClosed_lineContent hc next p
  | margin =>
    simp only [multiLine]
    split
    · rfl
    · split
      · rfl
      · exact isClosed_lineContent hc next p

end Literal

/-- A literal that is closed once a byte stands behind the text, which closes none, is closed
without it. -/
theorem Transition.isClosed_of_run_append {t : Transition Literal} (ht : Literal.Closes t)
    {c : UInt8}
    (hc : ∀ (lit : Literal) (next : UInt8) (p : Position), (t.take lit c next p).isClosed = false)
    (text : List UInt8) :
    ∀ (lit : Literal) (p : Position), (t.run lit p (text ++ [c])).value.isClosed = true →
      (t.run lit p text).value.isClosed = true := by
  induction text with
  | nil =>
    intro lit p hclosed
    cases hstops : t.stops lit c with
    | true => exact (ht.stops_eq lit c).symm.trans hstops
    | false =>
      rw [List.nil_append, run_cons t lit p _ hstops] at hclosed
      exact absurd hclosed (Bool.eq_false_iff.1 (hc lit _ p))
  | cons b r ih =>
    intro lit p hclosed
    cases hstops : t.stops lit b with
    | true =>
      rw [List.cons_append, run_cons_of_stops t lit p _ hstops] at hclosed
      rwa [run_cons_of_stops t lit p _ hstops]
    | false =>
      rw [List.cons_append, run_cons t lit p _ hstops] at hclosed
      have hrest := ih _ _ hclosed
      rw [run_cons t lit p _ hstops]
      cases r with
      | nil =>
        -- The byte behind the last one of the text matters to no byte that closes the literal.
        have hlast := ht.take_eq Ascii.nul hrest
        show (t.take lit b Ascii.nul p).isClosed = true
        rw [hlast]
        exact hrest
      | cons d r => exact hrest

theorem ended_nil : Ended [] := List.forall_mem_nil _

/-- If nothing is missing of a literal once a byte stands behind the text, which closes no literal,
then nothing is missing of it without this byte. -/
theorem ended_quotation_of_append {form : Transition Literal} (hform : Literal.Closes form)
    {unterminated : LexicalError} (hcode : unterminated.code.isUnterminated = true) {c : UInt8}
    (hc : ∀ (lit : Literal) (next : UInt8) (p : Position),
      (form.take lit c next p).isClosed = false)
    {opening : List UInt8} {p : Position} {r : List UInt8}
    (hended : Ended (quotation form unterminated opening p (r ++ [c])).findings) :
    Ended (quotation form unterminated opening p r).findings := by
  have hclosed := Transition.isClosed_of_run_append hform hc r {} _ (isClosed_of_ended hcode hended)
  rwa [quotation_followedBy_of_isClosed hform hclosed] at hended

/-! ### What is unterminated stays so -/

theorem exists_reads_character_append {p : Position} {r contents x rest : List UInt8}
    {fs : List Finding}
    (h : quotation (Literal.quoted Ascii.singleQuote) .unterminatedCharacter
      [Ascii.singleQuote] p r =
      ⟨contents, x, rest, fs⟩) {c : UInt8} (hc : c ≠ Ascii.singleQuote) :
    ∃ o', Reads p (Ascii.singleQuote :: (r ++ [c])) o' ∧ (Ended o'.findings → Ended fs) := by
  have hended : Ended (quotation (Literal.quoted Ascii.singleQuote) .unterminatedCharacter
        [Ascii.singleQuote] p (r ++ [c])).findings →
      Ended (quotation (Literal.quoted Ascii.singleQuote) .unterminatedCharacter
        [Ascii.singleQuote] p r).findings :=
    ended_quotation_of_append (Literal.closes_quoted _) rfl (Literal.isClosed_take_quoted hc)
  rw [h] at hended
  rcases ho : quotation (Literal.quoted Ascii.singleQuote) .unterminatedCharacter
    [Ascii.singleQuote] p (r ++ [c]) with ⟨_ | ⟨b, _ | ⟨d, bs⟩⟩, x', rest', fs'⟩
  all_goals rw [ho] at hended
  · exact ⟨_, .emptyCharacter ho, fun h => hended (ended_append.1 h).1⟩
  · exact ⟨_, .character ho, hended⟩
  · exact ⟨_, .overlongCharacter ho, fun h => hended (ended_append.1 h).1⟩

theorem Comment.not_endMark_infix_append {body : List UInt8} (h : ¬ endMark <:+: body) {c : UInt8}
    (hc : c ≠ Ascii.slash) : ¬ endMark <:+: body ++ [c] := by
  rw [List.infix_concat_iff]
  rintro (hsuffix | hinfix)
  · obtain ⟨u, hu⟩ := hsuffix
    have hlast := congrArg List.getLast? hu
    rw [List.getLast?_append, List.getLast?_concat] at hlast
    exact hc (Option.some.inj hlast).symm
  · exact h hinfix

/-- Some rule applies if a separator follows the text, and it finds something unterminated if the
rule for the text alone does. -/
theorem Reads.exists_append {p : Position} {text : List UInt8} {o : Passage (Option Lexeme)}
    (h : Reads p text o) {c : UInt8} (hc : Ascii.Separates c) :
    ∃ o', Reads p (text ++ [c]) o' ∧ (Ended o'.findings → Ended o.findings) := by
  by_cases hended : Ended o.findings
  · obtain ⟨b, r, rfl⟩ : ∃ b r, text = b :: r := by
      refine List.exists_cons_of_ne_nil ?_
      rw [← h.passed_append_rest]
      exact List.append_ne_nil_of_left_ne_nil h.passed_ne_nil _
    obtain ⟨o', ho'⟩ := exists_reads (r ++ [c]) p h.isBlank_eq_false
    exact ⟨o', ho', fun _ => hended⟩
  cases h with
  | string hbar =>
    refine ⟨_, .string (head?_append_cons_ne hc.ne_bar hbar []), ?_⟩
    exact ended_quotation_of_append (Literal.closes_quoted _) rfl
      (Literal.isClosed_take_quoted hc.ne_doubleQuote)
  | @multiLine r =>
    refine ⟨_, .multiLine (r := r ++ [c]), ?_⟩
    exact ended_quotation_of_append Literal.closes_multiLine rfl
      (Literal.isClosed_take_multiLine hc.ne_doubleQuote)
  | emptyCharacter ho =>
    obtain ⟨o', ho', hfs⟩ := exists_reads_character_append ho hc.ne_singleQuote
    exact ⟨o', ho', fun h => ended_append.2 ⟨hfs h, List.forall_mem_singleton.2 rfl⟩⟩
  | character ho => exact exists_reads_character_append ho hc.ne_singleQuote
  | overlongCharacter ho =>
    obtain ⟨o', ho', hfs⟩ := exists_reads_character_append ho hc.ne_singleQuote
    exact ⟨o', ho', fun h => ended_append.2 ⟨hfs h, List.forall_mem_singleton.2 rfl⟩⟩
  | @openComment body hbody =>
    refine ⟨_, .openComment (Comment.not_endMark_infix_append hbody hc.ne_slash), ?_⟩
    intro hopen
    cases hopen _ (List.mem_singleton_self _)
  | lineComment | blockComment _ | word _ | integer _ _ | float _ _ _ | mark _ _
  | unknown _ _ _ _ _ => exact absurd ended_nil hended

/-- Nothing stands in an empty text. -/
theorem Lexes.eq_nil {p : Position} {items : List Item} {fs : List Finding}
    (h : Lexes p [] items fs) : items = [] ∧ fs = [] := by
  generalize htext : ([] : List UInt8) = text at h
  cases h with
  | finish _ => exact ⟨rfl, rfl⟩
  | token _ ho _ | skip _ ho _ =>
    have hx := List.append_eq_nil_iff.1 (List.append_eq_nil_iff.1 htext.symm).2
    exact absurd hx.1 ho.passed_ne_nil

/-- Whatever a rule leaves of a text is taken apart as well. -/
theorem Reads.exists_lexes {p : Position} {gap text : List UInt8} {o : Passage (Option Lexeme)}
    (h : Reads (p.after gap) text o) (hgap : ∀ b ∈ gap, Ascii.isBlank b = true) :
    ∃ items fs, Lexes p (gap ++ text) items (o.findings ++ fs) := by
  obtain ⟨value, x, rest, fs⟩ := o
  obtain rfl : x ++ rest = text := h.passed_append_rest
  obtain ⟨items, gs, hrest⟩ := CinderFront.exists_lexes (p.after (gap ++ x)) rest
  cases value with
  | none => exact ⟨_, _, .skip hgap h hrest⟩
  | some l => exact ⟨_, _, .token hgap h hrest⟩

/-- If a rule finds something unterminated, then so does one if a separator follows the text. -/
theorem Reads.exists_lexes_append {p : Position} {gap text : List UInt8}
    {o : Passage (Option Lexeme)} (h : Reads (p.after gap) text o)
    (hgap : ∀ b ∈ gap, Ascii.isBlank b = true) {c : UInt8} (hc : Ascii.Separates c)
    (hopen : ¬ Ended o.findings) :
    ∃ items fs, Lexes p (gap ++ (text ++ [c])) items fs ∧ ¬ Ended fs := by
  obtain ⟨o', ho', hended⟩ := h.exists_append hc
  obtain ⟨items, fs, hlexes⟩ := ho'.exists_lexes hgap
  exact ⟨items, _, hlexes, fun h => hopen (hended (ended_append.1 h).1)⟩

/-- A line comment goes on to the end of its line. -/
theorem Reads.lineComment_of_not_mem {p : Position} {r : List UInt8} (hr : Ascii.lineFeed ∉ r) :
    Reads p (Ascii.slash :: Ascii.slash :: r)
      ⟨none, Ascii.slash :: Ascii.slash :: r, [], []⟩ := by
  have hall : ∀ b ∈ r, (b != Ascii.lineFeed) = true := by
    intro b hb
    simpa using ne_of_mem_of_not_mem hb hr
  have h := Reads.lineComment (p := p) (r := r)
  rwa [List.takeWhile_eq_self_iff.2 hall, List.dropWhile_eq_nil_iff.2 hall] at h

section

variable {p : Position} {s : List UInt8} {items : List Item} {fs : List Finding}

/-- If nothing is unterminated in a text with a separator behind it, nothing is unterminated in the
text. -/
theorem Lexes.exists_append (h : Lexes p s items fs) {c : UInt8} (hc : Ascii.Separates c) :
    ∃ items' fs', Lexes p (s ++ [c]) items' fs' ∧ (Ended fs' → Ended fs) := by
  -- What is unterminated in a text is what its last rule finds, so all rules before it read on.
  induction h with
  | @finish p gap _ =>
    obtain ⟨items', fs', hlexes⟩ := exists_lexes p (gap ++ [c])
    exact ⟨items', fs', hlexes, fun _ => ended_nil⟩
  | @token p gap x rest l items fs gs hgap ho _ ih =>
    rw [List.append_assoc]
    by_cases hfs : Ended fs
    · rcases ho.followedBy_or hfs hc [] with ho | ⟨-, ho, -⟩
      · obtain ⟨items', gs', hlexes, hgs⟩ := ih
        rw [List.append_assoc] at ho ⊢
        exact ⟨_, _, .token hgap ho hlexes, fun h =>
          ended_append.2 ⟨hfs, hgs (ended_append.1 h).2⟩⟩
      · cases ho
    · obtain ⟨items', fs', hlexes, hopen⟩ := ho.exists_lexes_append hgap hc hfs
      exact ⟨items', fs', hlexes, fun h => absurd h hopen⟩
  | @skip p gap x rest items fs gs hgap ho hrest ih =>
    rw [List.append_assoc]
    by_cases hfs : Ended fs
    · rcases ho.followedBy_or hfs hc [] with ho | ⟨-, ho, -⟩
      · obtain ⟨items', gs', hlexes, hgs⟩ := ih
        rw [List.append_assoc] at ho ⊢
        exact ⟨_, _, .skip hgap ho hlexes, fun h =>
          ended_append.2 ⟨hfs, hgs (ended_append.1 h).2⟩⟩
      · obtain ⟨-, -, rfl, rfl⟩ := Passage.mk.inj ho
        obtain ⟨-, rfl⟩ := hrest.eq_nil
        obtain ⟨items', fs', hlexes⟩ := exists_lexes p (gap ++ (x ++ [] ++ [c]))
        exact ⟨items', fs', hlexes, fun _ => ended_nil⟩
    · obtain ⟨items', fs', hlexes, hopen⟩ := ho.exists_lexes_append hgap hc hfs
      exact ⟨items', fs', hlexes, fun h => absurd h hopen⟩

/-- A blank behind a text changes nothing in it. -/
theorem Lexes.append_blank (h : Lexes p s items fs) (hended : Ended fs) {c : UInt8}
    (hc : Ascii.isBlank c = true) : Lexes p (s ++ [c]) items fs := by
  induction h with
  | finish hgap => exact .finish (List.forall_mem_append.2 ⟨hgap, List.forall_mem_singleton.2 hc⟩)
  | @token p gap x rest l items fs gs hgap ho _ ih =>
    obtain ⟨hfs, hgs⟩ := ended_append.1 hended
    rcases ho.followedBy_or hfs (Ascii.separates_of_isBlank hc) [] with ho | ⟨-, ho, -⟩
    · rw [List.append_assoc] at ho
      rw [List.append_assoc, List.append_assoc]
      exact .token hgap ho (ih hgs)
    · cases ho
  | @skip p gap x rest items fs gs hgap ho hrest ih =>
    obtain ⟨hfs, hgs⟩ := ended_append.1 hended
    rcases ho.followedBy_or hfs (Ascii.separates_of_isBlank hc) [] with
      ho | ⟨hlineFeed, ho, r, htext, hr⟩
    · rw [List.append_assoc] at ho
      rw [List.append_assoc, List.append_assoc]
      exact .skip hgap ho (ih hgs)
    · -- A line comment at the end of the text takes the blank.
      obtain ⟨-, -, rfl, rfl⟩ := Passage.mk.inj ho
      obtain ⟨rfl, rfl⟩ := hrest.eq_nil
      rw [List.append_nil] at htext
      subst htext
      have hr' : Ascii.lineFeed ∉ r ++ [c] :=
        List.not_mem_append hr fun h => hlineFeed (List.mem_singleton.1 h).symm
      have hcomment : Reads (p.after gap) (Ascii.slash :: Ascii.slash :: (r ++ [c]) ++ [])
          ⟨none, Ascii.slash :: Ascii.slash :: (r ++ [c]), [], []⟩ := by
        rw [List.append_nil]
        exact .lineComment_of_not_mem hr'
      have hlexes := Lexes.skip hgap hcomment (.finish (List.forall_mem_nil _))
      simpa using hlexes

/-! ### White space of any length -/

/-- A byte that is dropped from the end of a file is a blank, a line break or a form feed. -/
theorem Ascii.isTrailing_iff {b : UInt8} :
    Ascii.isTrailing b = true ↔
      Ascii.isBlank b = true ∨ b = Ascii.lineFeed ∨ b = Ascii.formFeed := by
  simp [Ascii.isTrailing, or_assoc]

/-- The line breaks of some white space that begins at a position. -/
def lineBreaks : Position → List UInt8 → List Item
  | _, [] => []
  | p, b :: w =>
    if b = Ascii.lineFeed then ⟨.mark .newline, p⟩ :: lineBreaks (p.past b) w
    else lineBreaks (p.past b) w

theorem length_lineBreaks (p : Position) (w : List UInt8) :
    (lineBreaks p w).length = w.count Ascii.lineFeed := by
  induction w generalizing p with
  | nil => rfl
  | cons b w ih =>
    rw [lineBreaks, List.count_cons]
    by_cases hb : b = Ascii.lineFeed
    · rw [if_pos hb, List.length_cons, ih, if_pos (beq_iff_eq.2 hb)]
    · rw [if_neg hb, ih, if_neg (mt beq_iff_eq.1 hb), Nat.add_zero]

/-- White space behind a text adds its line breaks, and nothing else. -/
theorem Lexes.append_trailing (h : Lexes p s items fs) (hended : Ended fs) {w : List UInt8}
    (hw : ∀ b ∈ w, Ascii.isBlank b = true ∨ b = Ascii.lineFeed) :
    Lexes p (s ++ w) (items ++ lineBreaks (p.after s) w) fs := by
  induction w generalizing s items with
  | nil =>
    rw [List.append_nil, lineBreaks, List.append_nil]
    exact h
  | cons b w ih =>
    obtain ⟨hb, hrest⟩ := List.forall_mem_cons.1 hw
    have hafter : (p.after s).past b = p.after (s ++ [b]) := by
      rw [Position.after_append]
      rfl
    rw [List.append_cons s b w, lineBreaks, hafter]
    by_cases hlineFeed : b = Ascii.lineFeed
    · subst hlineFeed
      have hbreak := h.join hended (.finish (List.forall_mem_nil _))
      rw [List.append_nil] at hbreak
      rw [if_pos rfl, List.append_cons items]
      exact ih hbreak hrest
    · rw [if_neg hlineFeed]
      exact ih (h.append_blank hended (hb.resolve_right hlineFeed)) hrest

/-- If nothing is unterminated in a text with white space behind it, nothing is unterminated in the
text. -/
theorem Lexes.exists_append_separators (h : Lexes p s items fs) {w : List UInt8}
    (hw : ∀ b ∈ w, Ascii.Separates b) :
    ∃ items' fs', Lexes p (s ++ w) items' fs' ∧ (Ended fs' → Ended fs) := by
  induction w generalizing s items fs with
  | nil =>
    rw [List.append_nil]
    exact ⟨items, fs, h, id⟩
  | cons b w ih =>
    obtain ⟨hb, hw⟩ := List.forall_mem_cons.1 hw
    obtain ⟨items', fs', hlexes, hended⟩ := h.exists_append hb
    obtain ⟨items'', fs'', hlexes', hended'⟩ := ih hlexes hw
    rw [List.append_cons]
    exact ⟨items'', fs'', hlexes', fun h => hended (hended' h)⟩

end

theorem Lexes.symbols_lineBreaks (table : SymbolTable) (p : Position) (w : List UInt8) :
    symbols table (lineBreaks p w) = table := by
  induction w generalizing p with
  | nil => rfl
  | cons b w ih =>
    rw [lineBreaks]
    split
    · exact ih (p.past b)
    · exact ih (p.past b)

theorem Lexes.tokens_lineBreaks (sourceName : String) (table : SymbolTable) (p : Position)
    (w : List UInt8) : tokens sourceName table (lineBreaks p w) =
      (lineBreaks p w).map fun item => ⟨.mark .newline, sourceName, item.position⟩ := by
  induction w generalizing p with
  | nil => rfl
  | cons b w ih =>
    rw [lineBreaks]
    split
    · exact congrArg (_ :: ·) (ih (p.past b))
    · exact ih (p.past b)

/-! ### Files -/

/-- The results of scanning a text alone and of scanning it with white space behind it in which
there are `k` line breaks. -/
structure ScanResult.AddsLineBreaks (sourceName : String) (k : Nat) (alone whole : ScanResult) :
    Prop where
  tokens : ∃ before position lineBreaks position',
    alone.tokens = before ++ [⟨.endOfFile, sourceName, position⟩] ∧
    whole.tokens = before ++ lineBreaks ++ [⟨.endOfFile, sourceName, position'⟩] ∧
    lineBreaks.length = k ∧ ∀ token ∈ lineBreaks, token.kind = .mark .newline
  symbols : whole.symbols = alone.symbols
  diagnostics : whole.diagnostics = alone.diagnostics

theorem Lexes.scan_append_trailing {text trailing : List UInt8}
    (hnul : Ascii.nul ∉ text ++ trailing)
    {items : List Item} {fs : List Finding} (h : Lexes .start text items fs) (hended : Ended fs)
    (htrailing : ∀ b ∈ trailing, Ascii.isBlank b = true ∨ b = Ascii.lineFeed)
    (hfew : FewStrings (text ++ trailing)) (sourceName : String) :
    ∃ r' r, scan (⟨text⟩ : SourceText) sourceName = .ok r' ∧
      scan (⟨text ++ trailing⟩ : SourceText) sourceName = .ok r ∧
      ScanResult.AddsLineBreaks sourceName (trailing.count Ascii.lineFeed) r' r := by
  have hall := h.append_trailing hended htrailing
  have hnul' : Ascii.nul ∉ text := fun h => hnul (List.mem_append_left _ h)
  rw [← Ascii.beforeNul_eq_self hnul'] at h
  rw [← Ascii.beforeNul_eq_self hnul] at hall
  have hfit := hfew.fit hall
  obtain ⟨r', hscan', htokens', hdiagnostics', hsymbols'⟩ :=
    scan_of_lexes (SourceText.delivers text) h sourceName (fit_append.1 hfit).1
  obtain ⟨r, hscan, htokens, hdiagnostics, hsymbols⟩ :=
    scan_of_lexes (SourceText.delivers (text ++ trailing)) hall sourceName hfit
  rw [tokens_append, tokens_lineBreaks] at htokens
  refine ⟨r', r, hscan', hscan, ⟨_, _, _, _, htokens', htokens, ?_, ?_⟩, ?_, ?_⟩
  · rw [List.length_map, length_lineBreaks]
  · intro token htoken
    obtain ⟨item, -, rfl⟩ := List.mem_map.1 htoken
    rfl
  · rw [hsymbols, hsymbols', symbols_append, symbols_lineBreaks]
  · rw [hdiagnostics, hdiagnostics']

/-- The white space at the end of a file, which is dropped, has no meaning but its line breaks: a
scan of the file yields what a scan of the text without it yields, and then one token for each of
them. The file may have no NUL in it, nothing unterminated, no form feed among the white space, and
no more strings than there are symbols. -/
theorem scan_trimEnd {contents : List UInt8} (hnul : Ascii.nul ∉ contents)
    (hformFeed : Ascii.formFeed ∉ contents.rtakeWhile Ascii.isTrailing)
    (hfew : FewStrings contents) (sourceName : String) :
    ∃ r, scan (⟨contents⟩ : SourceText) sourceName = .ok r ∧
      ((∀ d ∈ r.diagnostics, d.code.isUnterminated = false) →
        ∃ r', scan (⟨Compilation.trimEnd contents⟩ : SourceText) sourceName = .ok r' ∧
          ScanResult.AddsLineBreaks sourceName
            ((contents.rtakeWhile Ascii.isTrailing).count Ascii.lineFeed) r' r) := by
  let text := Compilation.trimEnd contents
  let trailing := contents.rtakeWhile Ascii.isTrailing
  have hsplit : text ++ trailing = contents := List.rdropWhile_append_rtakeWhile ..
  have htrailing : ∀ b ∈ trailing, Ascii.isBlank b = true ∨ b = Ascii.lineFeed := by
    intro b hb
    have hclass := Ascii.isTrailing_iff.1 (List.mem_rtakeWhile_imp hb)
    rw [← or_assoc] at hclass
    exact hclass.resolve_right fun h => hformFeed (h ▸ hb)
  have hseparates : ∀ b ∈ trailing, Ascii.Separates b := fun b hb =>
    (htrailing b hb).elim Ascii.separates_of_isBlank fun h => h ▸ Ascii.separates_lineFeed
  obtain ⟨items, fs, hlexes⟩ := exists_lexes .start text
  obtain ⟨items', fs', hlexes', hended⟩ := hlexes.exists_append_separators hseparates
  rw [hsplit, ← Ascii.beforeNul_eq_self hnul] at hlexes'
  obtain ⟨r, hscan, -, hdiagnostics, -⟩ :=
    scan_of_lexes (SourceText.delivers contents) hlexes' sourceName (hfew.fit hlexes')
  refine ⟨r, hscan, fun hterminated => ?_⟩
  have hfs' : Ended fs' := fun f hf =>
    hterminated (f.toDiagnostic sourceName) (by rw [hdiagnostics]; exact List.mem_map_of_mem hf)
  obtain ⟨r', r₂, hscan', hscan₂, hadds⟩ :=
    hlexes.scan_append_trailing (by rwa [hsplit]) (hended hfs') htrailing (by rwa [hsplit])
      sourceName
  rw [hsplit] at hscan₂
  obtain rfl : r₂ = r := Except.ok.inj (hscan₂.symm.trans hscan)
  exact ⟨r', hscan', hadds⟩

/-- An empty character literal, which is reported, and a line comment with white space behind it:
the comment takes the white space of its line, and behind that are two line breaks. -/
theorem scan_trimEnd_comment :
    ∃ r, Ascii.nul ∉ Ascii.codes "''// \n\t\n" ∧
      Ascii.formFeed ∉ (Ascii.codes "''// \n\t\n").rtakeWhile Ascii.isTrailing ∧
      FewStrings (Ascii.codes "''// \n\t\n") ∧
      scan (⟨Ascii.codes "''// \n\t\n"⟩ : SourceText) "file" = .ok r ∧ r.diagnostics ≠ [] ∧
      (∀ d ∈ r.diagnostics, d.code.isUnterminated = false) ∧
      ∃ r', scan (⟨Ascii.codes "''//"⟩ : SourceText) "file" = .ok r' ∧
        ScanResult.AddsLineBreaks "file" 2 r' r := by
  have hnul : Ascii.nul ∉ Ascii.codes "''// \n\t\n" := by decide
  have hformFeed : Ascii.formFeed ∉ (Ascii.codes "''// \n\t\n").rtakeWhile Ascii.isTrailing := by
    decide
  have hfew : FewStrings (Ascii.codes "''// \n\t\n") := fewStrings_of_length_lt (by decide)
  have hempty : Reads .start (Ascii.codes "''" ++ Ascii.codes "//")
      ⟨none, Ascii.codes "''", Ascii.codes "//", [⟨.emptyCharacter, .start⟩]⟩ :=
    .emptyCharacter (quotation_encode (.inr rfl) .unterminatedCharacter .start [] _)
  have hcomment : Reads (Position.start.after (Ascii.codes "''")) (Ascii.codes "//" ++ [])
      ⟨none, Ascii.codes "//", [], []⟩ := .lineComment
  have htext : Lexes .start (Ascii.codes "''//") [] [⟨.emptyCharacter, .start⟩] :=
    .skip (p := .start) (List.forall_mem_nil _) hempty
      (.skip (p := Position.start.after (Ascii.codes "''")) (List.forall_mem_nil _) hcomment
        (.finish (List.forall_mem_nil _)))
  have htrailing : ∀ b ∈ Ascii.codes " \n\t\n", Ascii.isBlank b = true ∨ b = Ascii.lineFeed :=
    List.forall_iff_forall_mem.1 (by decide)
  have hlexes := htext.append_trailing (List.forall_mem_singleton.2 rfl) htrailing
  obtain ⟨r, hscan, -, hdiagnostics, -⟩ :=
    scan_of_lexes (SourceText.delivers (Ascii.codes "''// \n\t\n")) hlexes "file"
      (hfew.fit hlexes)
  have hended : ∀ d ∈ r.diagnostics, d.code.isUnterminated = false := by
    rw [hdiagnostics]
    decide
  obtain ⟨r₂, hscan₂, hadds⟩ := scan_trimEnd hnul hformFeed hfew "file"
  obtain rfl : r = r₂ := Except.ok.inj (hscan.symm.trans hscan₂)
  refine ⟨r, hnul, hformFeed, hfew, hscan, ?_, hended, hadds hended⟩
  rw [hdiagnostics]
  exact List.cons_ne_nil _ _

end CinderFront
