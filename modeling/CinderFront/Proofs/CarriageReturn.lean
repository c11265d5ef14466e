import CinderFront.Proofs.Layout
import CinderFront.Proofs.Resync

/-!
# Line breaks with carriage returns

Some sources have a carriage return before every line break. Between tokens it is a blank, in a
comment it is passed with the rest, and in a literal it is contents, which changes what the literal
stands for but not where it ends. So such a source is scanned as it is without them.

* `Lexeme.Akin`, `Passage.MatchesCrlf` — how what a rule reads compares;
* `Reads.exists_crlf` — every rule applies with the carriage returns as it does without them;
* `Lexes.exists_crlf` — so a whole text is taken apart into as many items;
* `Token.Kind.Akin`, `Token.MatchesCrlf` — how the tokens of the two sources compare;
* `scan_crlf` — the scans of the two sources.
-/

namespace CinderFront

/-! ### Rules -/

/-- The lexemes are the same, except that the contents of literals may differ. -/
inductive Lexeme.Akin : Lexeme → Lexeme → Prop
  | same {l : Lexeme} : Akin l l
  | string {contents contents' : List UInt8} : Akin (.string contents) (.string contents')
  | character {b b' : UInt8} : Akin (.character b) (.character b')

/-- The passage `o'` is `o` with the carriage returns. Those of them that stand between what `o`
passes and what it has left are passed by `o'`, and they are blanks. -/
structure Passage.MatchesCrlf (o o' : Passage (Option Lexeme)) (y : List UInt8) : Prop where
  isBlank_of_mem : ∀ b ∈ y, Ascii.isBlank b = true
  passed_eq : o'.passed = Ascii.crlf o.passed ++ y
  rest_eq : Ascii.crlf o.rest = y ++ o'.rest
  value : Option.Rel Lexeme.Akin o.value o'.value

theorem Passage.matchesCrlf_nil {value value' : Option Lexeme} {x x' rest rest' : List UInt8}
    {fs fs' : List Finding} (hx : x' = Ascii.crlf x) (hrest : rest' = Ascii.crlf rest)
    (hvalue : Option.Rel Lexeme.Akin value value') :
    MatchesCrlf ⟨value, x, rest, fs⟩ ⟨value', x', rest', fs'⟩ [] where
  isBlank_of_mem := List.forall_mem_nil _
  passed_eq := by rw [List.append_nil, hx]
  rest_eq := hrest.symm
  value := hvalue

theorem Lexeme.rel_akin_refl (value : Option Lexeme) : Option.Rel Lexeme.Akin value value := by
  cases value with
  | none => exact .none
  | some l => exact .some .same

/-- A character literal stays one, and an empty one stays empty. -/
theorem exists_reads_character_crlf {p : Position} {r contents x rest : List UInt8}
    {fs : List Finding}
    (h : quotation (Literal.quoted Ascii.singleQuote) .unterminatedCharacter [Ascii.singleQuote]
      p r = ⟨contents, x, rest, fs⟩) :
    ∃ value fs', Reads p (Ascii.singleQuote :: Ascii.crlf r)
        ⟨value, Ascii.crlf x, Ascii.crlf rest, fs'⟩ ∧
      (contents = [] → value = none) ∧
      (contents ≠ [] → ∃ b, value = some (.character b)) := by
  have hresyncs := Literal.resyncs_quoted Ascii.singleQuote (.inr rfl)
  have hopening : Ascii.lineFeed ∉ [Ascii.singleQuote] := by decide
  have hpassed := passed_quotation_crlf hresyncs (r := r) rfl .unterminatedCharacter p hopening
  have hrest : (quotation (Literal.quoted Ascii.singleQuote) .unterminatedCharacter
      [Ascii.singleQuote] p (Ascii.crlf r)).rest = _ := rest_quotation_crlf hresyncs rfl _ p
  have hnil := quotation_crlf_eq_nil_iff Ascii.singleQuote (.inr rfl) .unterminatedCharacter
    [Ascii.singleQuote] p r
  obtain ⟨contents', x', rest', fs', hq⟩ : ∃ contents' x' rest' fs',
      quotation (Literal.quoted Ascii.singleQuote) .unterminatedCharacter [Ascii.singleQuote] p
        (Ascii.crlf r) = ⟨contents', x', rest', fs'⟩ := ⟨_, _, _, _, rfl⟩
  rw [h, hq] at hpassed hrest hnil
  obtain rfl : x' = Ascii.crlf x := hpassed
  obtain rfl : rest' = Ascii.crlf rest := hrest
  match contents' with
  | [] => exact ⟨_, _, .emptyCharacter hq, fun _ => rfl, fun hne => absurd (hnil.1 rfl) hne⟩
  | [b] =>
    exact ⟨_, _, .character hq, fun he => (List.cons_ne_nil _ _ (hnil.2 he)).elim,
      fun _ => ⟨b, rfl⟩⟩
  | b :: c :: bs =>
    exact ⟨_, _, .overlongCharacter hq, fun he => (List.cons_ne_nil _ _ (hnil.2 he)).elim,
      fun _ => ⟨b, rfl⟩⟩

/-- No fraction begins where none began. -/
theorem not_atFraction_crlf {r : List UInt8} (h : ¬ AtFraction r) :
    ¬ AtFraction (Ascii.crlf r) := by
  intro hat
  obtain ⟨r', hr', hhead⟩ := hat
  have hfullStop : r.head? = some Ascii.fullStop := by
    rw [← Ascii.head?_crlf_eq_some_iff (by decide) (by decide), hr']
    rfl
  obtain ⟨u, rfl⟩ := List.head?_eq_some_iff.1 hfullStop
  rw [Ascii.crlf_cons (by decide)] at hr'
  obtain rfl : Ascii.crlf u = r' := (List.cons.inj hr').2
  exact h ⟨u, rfl, mt (Ascii.head?_crlf_eq_some_iff (by decide) (by decide)).2 hhead⟩

/-- A line comment before a line break takes the carriage return with it. -/
theorem exists_reads_lineComment_crlf (p : Position) (r : List UInt8) :
    ∃ o' y, Reads p (Ascii.slash :: Ascii.slash :: Ascii.crlf r) o' ∧
      Passage.MatchesCrlf ⟨none, Ascii.slash :: Ascii.slash :: r.takeWhile (· != Ascii.lineFeed),
        r.dropWhile (· != Ascii.lineFeed), []⟩ o' y := by
  have hbody : Ascii.lineFeed ∉ r.takeWhile (· != Ascii.lineFeed) := fun hmem => by
    simpa using List.mem_takeWhile_imp hmem
  have hsplit : r.takeWhile (· != Ascii.lineFeed) ++ r.dropWhile (· != Ascii.lineFeed) = r :=
    List.takeWhile_append_dropWhile
  have hstop := List.head?_dropWhile_not (· != Ascii.lineFeed) r
  generalize r.takeWhile (· != Ascii.lineFeed) = body at *
  generalize r.dropWhile (· != Ascii.lineFeed) = rest at *
  subst hsplit
  have hmarks : Ascii.crlf (Ascii.slash :: Ascii.slash :: body) =
      Ascii.slash :: Ascii.slash :: body := by
    rw [Ascii.crlf_cons (by decide), Ascii.crlf_cons (by decide), Ascii.crlf_eq_self hbody]
  have hpass : ∀ b ∈ body, (b != Ascii.lineFeed) = true := by
    intro b hb
    have hne : b ≠ Ascii.lineFeed := fun h => hbody (h ▸ hb)
    simpa using hne
  cases rest with
  | nil =>
    have h := Reads.lineComment (p := p) (r := Ascii.crlf (body ++ []))
    rw [Ascii.crlf_append, Ascii.crlf_eq_self hbody, Ascii.crlf_nil,
      takeWhile_run_append hpass (by simp), dropWhile_run_append hpass (by simp)] at h
    rw [Ascii.crlf_append, Ascii.crlf_eq_self hbody, Ascii.crlf_nil]
    exact ⟨_, [], h, Passage.matchesCrlf_nil hmarks.symm rfl .none⟩
  | cons b rest =>
    obtain rfl : b = Ascii.lineFeed := by simpa using hstop
    have hpass' : ∀ b ∈ body ++ [Ascii.carriageReturn], (b != Ascii.lineFeed) = true :=
      List.forall_mem_append.2 ⟨hpass, List.forall_mem_singleton.2 (by decide)⟩
    have htext : Ascii.crlf (body ++ Ascii.lineFeed :: rest) =
        body ++ [Ascii.carriageReturn] ++ Ascii.lineFeed :: Ascii.crlf rest := by
      rw [Ascii.crlf_append, Ascii.crlf_eq_self hbody, Ascii.crlf_lineFeed, List.append_assoc]
      rfl
    have h := Reads.lineComment (p := p) (r := Ascii.crlf (body ++ Ascii.lineFeed :: rest))
    rw [htext, takeWhile_run_append hpass' (by simp), dropWhile_run_append hpass' (by simp)] at h
    rw [htext]
    have hblank : ∀ b ∈ [Ascii.carriageReturn], Ascii.isBlank b = true :=
      List.forall_mem_singleton.2 (by decide)
    refine ⟨_, [Ascii.carriageReturn], h, ⟨hblank, ?_, rfl, .none⟩⟩
    show _ = Ascii.crlf (Ascii.slash :: Ascii.slash :: body) ++ [Ascii.carriageReturn]
    rw [hmarks]
    rfl

/-- What stands at the beginning of a text, other than a line break, stands there with the carriage
returns as well. -/
theorem Reads.exists_crlf {p : Position} {b : UInt8} {r : List UInt8}
    {o : Passage (Option Lexeme)} (h : Reads p (b :: r) o) (hb : b ≠ Ascii.lineFeed) :
    ∃ o' y, Reads p (Ascii.crlf (b :: r)) o' ∧ o.MatchesCrlf o' y := by
  have hquoted := Literal.resyncs_quoted Ascii.doubleQuote (.inl rfl)
  have hblock := Literal.resyncs_multiLine
  have hword : ∀ x, (Ascii.crlf x).takeWhile Ascii.isWordByte = x.takeWhile Ascii.isWordByte :=
    Ascii.takeWhile_crlf (by decide) (by decide)
  have hnumber : ∀ x, (Ascii.crlf x).takeWhile Ascii.isNumberByte =
      x.takeWhile Ascii.isNumberByte := Ascii.takeWhile_crlf (by decide) (by decide)
  have hwordRest : ∀ x, (Ascii.crlf x).dropWhile Ascii.isWordByte =
      Ascii.crlf (x.dropWhile Ascii.isWordByte) := Ascii.dropWhile_crlf (by decide) (by decide)
  have hnumberRest : ∀ x, (Ascii.crlf x).dropWhile Ascii.isNumberByte =
      Ascii.crlf (x.dropWhile Ascii.isNumberByte) := Ascii.dropWhile_crlf (by decide) (by decide)
  generalize htext : b :: r = text at h
  cases h with
  | @string s hbar =>
    have hbar' := mt (Ascii.head?_crlf_eq_some_iff (by decide) (by decide)).1 hbar
    rw [Ascii.crlf_cons (by decide)]
    exact ⟨_, [], .string hbar', Passage.matchesCrlf_nil
      (passed_quotation_crlf hquoted rfl _ p (by decide)) (rest_quotation_crlf hquoted rfl _ p)
      (.some .string)⟩
  | @multiLine s =>
    rw [Ascii.crlf_cons (by decide), Ascii.crlf_cons (by decide)]
    exact ⟨_, [], .multiLine, Passage.matchesCrlf_nil
      (passed_quotation_crlf hblock (.same nofun) _ p (by decide))
      (rest_quotation_crlf hblock (.same nofun) _ p) (.some .string)⟩
  | emptyCharacter ho =>
    obtain ⟨value, fs', ho', hnone, -⟩ := exists_reads_character_crlf ho
    rw [Ascii.crlf_cons (by decide)]
    obtain rfl := hnone rfl
    exact ⟨_, [], ho', Passage.matchesCrlf_nil rfl rfl .none⟩
  | character ho | overlongCharacter ho =>
    obtain ⟨value, fs', ho', -, hsome⟩ := exists_reads_character_crlf ho
    obtain ⟨b', rfl⟩ := hsome (List.cons_ne_nil _ _)
    rw [Ascii.crlf_cons (by decide)]
    exact ⟨_, [], ho', Passage.matchesCrlf_nil rfl rfl (.some .character)⟩
  | @lineComment s =>
    rw [Ascii.crlf_cons (by decide), Ascii.crlf_cons (by decide)]
    exact exists_reads_lineComment_crlf p s
  | @blockComment body rest hbody =>
    have h := @Reads.blockComment p (Ascii.crlf body) (Ascii.crlf rest)
      (Comment.not_endMark_infix_crlf hbody)
    have hmark : Ascii.crlf Comment.endMark = Comment.endMark := rfl
    rw [Ascii.crlf_cons (by decide), Ascii.crlf_cons (by decide), Ascii.crlf_append,
      Ascii.crlf_append, hmark]
    refine ⟨_, [], h, Passage.matchesCrlf_nil ?_ rfl .none⟩
    rw [Ascii.crlf_cons (by decide), Ascii.crlf_cons (by decide), Ascii.crlf_append, hmark]
  | @openComment body hbody =>
    have h := @Reads.openComment p (Ascii.crlf body) (Comment.not_endMark_infix_crlf hbody)
    rw [Ascii.crlf_cons (by decide), Ascii.crlf_cons (by decide)]
    refine ⟨_, [], h, Passage.matchesCrlf_nil ?_ rfl .none⟩
    rw [Ascii.crlf_cons (by decide), Ascii.crlf_cons (by decide)]
  | @word c s hc =>
    obtain ⟨rfl, rfl⟩ := List.cons.inj htext
    have h := Reads.word (p := p) (r := Ascii.crlf r) hc
    rw [← Ascii.crlf_cons hb, hword, hwordRest] at h
    exact ⟨_, [], h, Passage.matchesCrlf_nil (Ascii.crlf_takeWhile (by decide) _).symm rfl
      (Lexeme.rel_akin_refl _)⟩
  | @integer c s hc hfraction =>
    obtain ⟨rfl, rfl⟩ := List.cons.inj htext
    have h := Reads.integer (p := p) (r := Ascii.crlf r) hc
    rw [← Ascii.crlf_cons hb, hnumber, hnumberRest] at h
    exact ⟨_, [], h (not_atFraction_crlf hfraction),
      Passage.matchesCrlf_nil (Ascii.crlf_takeWhile (by decide) _).symm rfl
        (Lexeme.rel_akin_refl _)⟩
  | @float c s s' hc hs hhead =>
    obtain ⟨rfl, rfl⟩ := List.cons.inj htext
    have hs' : (b :: Ascii.crlf r).dropWhile Ascii.isNumberByte =
        Ascii.fullStop :: Ascii.crlf s' := by
      rw [← Ascii.crlf_cons hb, hnumberRest, hs, Ascii.crlf_cons (by decide)]
    have h := Reads.float (p := p) hc hs'
      (mt (Ascii.head?_crlf_eq_some_iff (by decide) (by decide)).1 hhead)
    rw [← Ascii.crlf_cons hb, hnumber, hnumber, hnumberRest] at h
    refine ⟨_, [], h, Passage.matchesCrlf_nil ?_ rfl (Lexeme.rel_akin_refl _)⟩
    rw [Ascii.crlf_append, Ascii.crlf_cons (by decide), Ascii.crlf_takeWhile (by decide),
      Ascii.crlf_takeWhile (by decide)]
  | @mark m rest hm hslash =>
    have hne : m ≠ .newline := by
      rintro rfl
      exact hb (List.cons.inj htext).1
    have hbytes := Punctuation.crlf_bytes hne
    have hm' : Punctuation.longestAt? (Ascii.crlf (m.bytes ++ rest)) = some m := by
      rw [← htext, Punctuation.longestAt?_crlf hb, htext, hm]
    rw [Ascii.crlf_append, hbytes] at hm' ⊢
    have h := Reads.mark (p := p) hm' fun hm =>
      ⟨mt (Ascii.head?_crlf_eq_some_iff (by decide) (by decide)).1 (hslash hm).1,
        mt (Ascii.head?_crlf_eq_some_iff (by decide) (by decide)).1 (hslash hm).2⟩
    exact ⟨_, [], h, Passage.matchesCrlf_nil hbytes.symm rfl (Lexeme.rel_akin_refl _)⟩
  | @unknown c s hnone hdouble hsingle hwordByte hblank =>
    obtain ⟨rfl, rfl⟩ := List.cons.inj htext
    have hnone' := (Punctuation.longestAt?_crlf hb r).trans hnone
    rw [Ascii.crlf_cons hb] at hnone' ⊢
    refine ⟨_, [], .unknown hnone' hdouble hsingle hwordByte hblank,
      Passage.matchesCrlf_nil ?_ rfl (Lexeme.rel_akin_refl _)⟩
    rw [Ascii.crlf_cons hb, Ascii.crlf_nil]

/-! ### Texts taken apart -/

/-- If a text begins with a blank, the gap before what a rule reads does. -/
theorem Reads.exists_gap_eq_cons {q : Position} {b : UInt8} {text gap t : List UInt8}
    {o : Passage (Option Lexeme)} (h : Reads q t o) (hb : Ascii.isBlank b = true)
    (htext : b :: text = gap ++ t) : ∃ gap', gap = b :: gap' ∧ text = gap' ++ t := by
  cases gap with
  | nil =>
    obtain rfl : b :: text = t := htext
    rw [h.isBlank_eq_false] at hb
    cases hb
  | cons c gap =>
    obtain ⟨rfl, htail⟩ := List.cons.inj htext
    exact ⟨gap, rfl, htail⟩

/-- A blank at the beginning of a text is nothing of what it is taken apart into. -/
theorem Lexes.of_blank {b : UInt8} {text : List UInt8} {items : List Item} {fs : List Finding}
    {p : Position} (hb : Ascii.isBlank b = true) (h : Lexes p (b :: text) items fs) :
    Lexes (p.past b) text items fs := by
  generalize ht : b :: text = t at h
  cases h with
  | finish hgap =>
    subst ht
    exact .finish (List.forall_mem_cons.1 hgap).2
  | token hgap ho hrest =>
    obtain ⟨gap, rfl, rfl⟩ := ho.exists_gap_eq_cons hb ht
    exact .token (List.forall_mem_cons.1 hgap).2 ho hrest
  | skip hgap ho hrest =>
    obtain ⟨gap, rfl, rfl⟩ := ho.exists_gap_eq_cons hb ht
    exact .skip (List.forall_mem_cons.1 hgap).2 ho hrest

theorem Lexes.of_blanks {y text : List UInt8} {items : List Item} {fs : List Finding}
    (hy : ∀ b ∈ y, Ascii.isBlank b = true) {p : Position} (h : Lexes p (y ++ text) items fs) :
    Lexes (p.after y) text items fs := by
  induction y generalizing p with
  | nil => exact h
  | cons b y ih =>
    obtain ⟨hb, hy⟩ := List.forall_mem_cons.1 hy
    exact ih hy (h.of_blank hb)

/-- At a line break, the line break is read. -/
theorem Reads.eq_newline {p : Position} {r : List UInt8} {o : Passage (Option Lexeme)}
    (h : Reads p (Ascii.lineFeed :: r) o) :
    o = ⟨some (.mark .newline), [Ascii.lineFeed], r, []⟩ := by
  have hmark := Punctuation.longestAt?_lineFeed r
  generalize htext : Ascii.lineFeed :: r = text at h
  cases h with
  | string _ | multiLine | emptyCharacter _ | character _ | overlongCharacter _ | lineComment
  | blockComment _ | openComment _ => exact absurd (List.cons.inj htext).1 (by decide)
  | word hb =>
    obtain ⟨rfl, -⟩ := List.cons.inj htext
    exact absurd hb (by decide)
  | integer hb _ | float hb _ _ =>
    obtain ⟨rfl, -⟩ := List.cons.inj htext
    exact absurd hb (by decide)
  | mark hm _ =>
    rw [← htext, hmark] at hm
    cases hm
    obtain rfl := (List.cons.inj htext).2
    rfl
  | unknown hnone _ _ _ _ =>
    rw [← htext, hmark] at hnone
    cases hnone

/-- A carriage return before a line break stands in the gap before its token. -/
theorem Lexes.newline_crlf {p : Position} {gap rest : List UInt8} {items : List Item}
    {fs : List Finding} (hgap : ∀ b ∈ gap, Ascii.isBlank b = true)
    (hrest : Lexes (p.after (gap ++ [Ascii.lineFeed])) rest items fs) :
    Lexes p (gap ++ Ascii.carriageReturn :: Ascii.lineFeed :: rest)
      (⟨.mark .newline, (p.after gap).nextColumn⟩ :: items) fs := by
  have hgap' : ∀ b ∈ gap ++ [Ascii.carriageReturn], Ascii.isBlank b = true :=
    List.forall_mem_append.2 ⟨hgap, List.forall_mem_singleton.2 (by decide)⟩
  have ho : Reads (p.after (gap ++ [Ascii.carriageReturn])) (Punctuation.newline.bytes ++ rest)
      ⟨some (.mark .newline), Punctuation.newline.bytes, rest, []⟩ :=
    .mark (Punctuation.longestAt?_lineFeed rest) nofun
  have hposition : p.after (gap ++ [Ascii.carriageReturn]) = (p.after gap).nextColumn := by
    rw [Position.after_append]
    rfl
  have hbehind : p.after (gap ++ [Ascii.lineFeed]) =
      p.after (gap ++ [Ascii.carriageReturn] ++ Punctuation.newline.bytes) := by
    rw [Position.after_append, Position.after_append, hposition]
    rfl
  rw [hbehind] at hrest
  have h := Lexes.token hgap' ho hrest
  rw [hposition, List.append_assoc] at h
  exact h

/-- What a rule other than that for line breaks passes is passed with the carriage returns, and what
is left is taken apart as it is without those that were passed along. -/
theorem Reads.exists_crlf_append {q : Position} {b : UInt8} {r x rest : List UInt8}
    {value : Option Lexeme} {fs : List Finding} (h : Reads q (x ++ rest) ⟨value, x, rest, fs⟩)
    (hbegin : x ++ rest = b :: r) (hb : b ≠ Ascii.lineFeed) :
    ∃ value' x' rest' fs', Ascii.crlf (x ++ rest) = x' ++ rest' ∧
      Reads q (x' ++ rest') ⟨value', x', rest', fs'⟩ ∧ Option.Rel Lexeme.Akin value value' ∧
      ∀ {p : Position} {gap : List UInt8} {items : List Item} {gs : List Finding},
        Lexes (p.after (gap ++ x)) (Ascii.crlf rest) items gs →
        Lexes (p.after (gap ++ x')) rest' items gs := by
  rw [hbegin] at h
  obtain ⟨⟨value', x', rest', fs'⟩, y, h', hy, hpassed, hrest, hvalue⟩ := h.exists_crlf hb
  obtain rfl : x' = Ascii.crlf x ++ y := hpassed
  have hrest : Ascii.crlf rest = y ++ rest' := hrest
  have htext : Ascii.crlf (x ++ rest) = Ascii.crlf x ++ y ++ rest' := by
    rw [Ascii.crlf_append, hrest, List.append_assoc]
  rw [← hbegin, htext] at h'
  refine ⟨value', _, rest', fs', htext, h', hvalue, fun hlexes => ?_⟩
  rw [hrest] at hlexes
  rw [Position.after_append, Position.after_append, Position.after_crlf,
    ← Position.after_append _ _ x]
  exact hlexes.of_blanks hy

/-- The second item is the first one with the carriage returns: if it is a line break, its own
carriage return stands before it. -/
structure Item.MatchesCrlf (item item' : Item) : Prop where
  akin : item.lexeme.Akin item'.lexeme
  position_eq : item'.position =
    if item.lexeme = .mark .newline then item.position.nextColumn else item.position

/-- With the carriage returns, a text is taken apart into as many items. -/
theorem Lexes.exists_crlf {p : Position} {text : List UInt8} {items : List Item}
    {fs : List Finding} (h : Lexes p text items fs) :
    ∃ items' fs', Lexes p (Ascii.crlf text) items' fs' ∧
      List.Forall₂ Item.MatchesCrlf items items' := by
  have hblanks : ∀ {gap : List UInt8}, (∀ b ∈ gap, Ascii.isBlank b = true) →
      Ascii.crlf gap = gap := fun hgap => Ascii.crlf_eq_self fun hmem =>
    absurd (hgap _ hmem) (by decide)
  induction h with
  | finish hgap =>
    rw [hblanks hgap]
    exact ⟨[], [], .finish hgap, .nil⟩
  | @token p gap x rest l items fs gs hgap ho _ ih =>
    obtain ⟨items', fs', hlexes, hitems⟩ := ih
    obtain ⟨b, r, hbegin⟩ := List.exists_cons_of_ne_nil
      (List.append_ne_nil_of_left_ne_nil ho.passed_ne_nil rest)
    rw [Ascii.crlf_append, hblanks hgap]
    by_cases hb : b = Ascii.lineFeed
    · -- The carriage return stands in the gap before the line break.
      subst hb
      have ho' := ho
      rw [hbegin] at ho'
      obtain ⟨hl, rfl, rfl, rfl⟩ := Passage.mk.inj ho'.eq_newline
      obtain rfl := Option.some.inj hl
      exact ⟨_, _, .newline_crlf hgap hlexes, .cons ⟨.same, (if_pos rfl).symm⟩ hitems⟩
    · obtain ⟨value', x', rest', fs'', htext, ho', hvalue, hbehind⟩ :=
        ho.exists_crlf_append hbegin hb
      cases hvalue with
      | @some _ l' hakin =>
        have hne : l ≠ .mark .newline := by
          rintro rfl
          obtain rfl : x = [Ascii.lineFeed] := ho.spelledBy .new
          exact hb (List.cons.inj hbegin).1.symm
        rw [htext]
        exact ⟨_, _, .token hgap ho' (hbehind hlexes),
          .cons ⟨hakin, (if_neg hne).symm⟩ hitems⟩
  | @skip p gap x rest items fs gs hgap ho _ ih =>
    obtain ⟨items', fs', hlexes, hitems⟩ := ih
    obtain ⟨b, r, hbegin⟩ := List.exists_cons_of_ne_nil
      (List.append_ne_nil_of_left_ne_nil ho.passed_ne_nil rest)
    have hb : b ≠ Ascii.lineFeed := by
      rintro rfl
      rw [hbegin] at ho
      cases ho.eq_newline
    obtain ⟨value', x', rest', fs'', htext, ho', hvalue, hbehind⟩ :=
      ho.exists_crlf_append hbegin hb
    cases hvalue
    rw [Ascii.crlf_append, hblanks hgap, htext]
    exact ⟨_, _, .skip hgap ho' (hbehind hlexes), hitems⟩

/-! ### Tokens -/

/-- Whether the kind is that of a literal, which stands between quotes. -/
def Token.Kind.isLiteral : Token.Kind → Bool
  | string _ | character _ => true
  | _ => false

/-- The kinds are equal, or both are strings, or both are characters. -/
inductive Token.Kind.Akin : Token.Kind → Token.Kind → Prop
  | same {kind : Token.Kind} : Akin kind kind
  | string {symbol symbol' : Symbol} : Akin (.string symbol) (.string symbol')
  | character {b b' : UInt8} : Akin (.character b) (.character b')

theorem Token.Kind.Akin.eq_of_isLiteral {kind kind' : Token.Kind} (h : kind.Akin kind')
    (hkind : kind.isLiteral = false) : kind' = kind := by
  cases h with
  | same => rfl
  | string | character => cases hkind

/-- The second token is the first one with the carriage returns: the kinds are akin, and a line
break is one column further on its line. -/
structure Token.MatchesCrlf (t t' : Token) : Prop where
  akin : t.kind.Akin t'.kind
  sourceName_eq : t'.sourceName = t.sourceName
  position_eq : t'.position = if t.kind = .mark .newline then t.position.nextColumn else t.position

theorem Lexeme.Akin.kind {l l' : Lexeme} (h : l.Akin l') (table table' : SymbolTable) :
    (l.kind table).Akin (l'.kind table') := by
  cases h with
  | string => exact .string
  | character => exact .character
  | same =>
    cases l with
    | string contents => exact .string
    | _ => exact .same

theorem Lexeme.kind_eq_newline_iff {l : Lexeme} {table : SymbolTable} :
    l.kind table = .mark .newline ↔ l = .mark .newline := by
  cases l <;> simp [kind]

theorem Lexes.matchesCrlf_tokens (sourceName : String) {items items' : List Item}
    (h : List.Forall₂ Item.MatchesCrlf items items') (table table' : SymbolTable) :
    List.Forall₂ Token.MatchesCrlf (tokens sourceName table items)
      (tokens sourceName table' items') := by
  induction h generalizing table table' with
  | nil => exact .nil
  | @cons item item' _ _ hitem _ ih =>
    refine .cons ⟨hitem.akin.kind table table', rfl, ?_⟩ (ih _ _)
    rw [hitem.position_eq]
    simp only [Lexeme.kind_eq_newline_iff]

/-- No literal comes of a text without quotes. -/
theorem Lexes.isLiteral_of_mem_tokens (sourceName : String) {p : Position} {text : List UInt8}
    {items : List Item} {fs : List Finding} (h : Lexes p text items fs)
    (hdouble : Ascii.doubleQuote ∉ text) (hsingle : Ascii.singleQuote ∉ text)
    (table : SymbolTable) :
    ∀ t ∈ tokens sourceName table items, t.kind.isLiteral = false := by
  induction h generalizing table with
  | finish _ => exact fun t ht => absurd ht List.not_mem_nil
  | @token p gap x rest l items fs gs _ ho _ ih =>
    simp only [List.mem_append, not_or] at hdouble hsingle
    refine List.forall_mem_cons.2 ⟨?_, ih hdouble.2.2 hsingle.2.2 _⟩
    have hspelled := ho.spelledBy table
    cases hkind : l.kind table with
    | string symbol =>
      rw [hkind] at hspelled
      exact absurd (List.mem_of_mem_head? hspelled) hdouble.2.1
    | character b =>
      rw [hkind] at hspelled
      exact absurd (List.mem_of_mem_head? hspelled) hsingle.2.1
    | _ => rfl
  | skip _ _ _ ih =>
    simp only [List.mem_append, not_or] at hdouble hsingle
    exact ih hdouble.2.2 hsingle.2.2 _

/-! ### Scans -/

theorem Token.map_kind_eq_of_matchesCrlf {ts ts' : List Token}
    (h : List.Forall₂ Token.MatchesCrlf ts ts') (hts : ∀ t ∈ ts, t.kind.isLiteral = false) :
    ts'.map Token.kind = ts.map Token.kind := by
  induction h with
  | nil => rfl
  | cons ht _ ih =>
    obtain ⟨hkind, hts⟩ := List.forall_mem_cons.1 hts
    rw [List.map_cons, List.map_cons, ht.akin.eq_of_isLiteral hkind, ih hts]

/-- A source whose line breaks all have a carriage return before them is scanned as it is without
them: there are as many tokens, one by one of the same kinds, apart from the contents of literals,
and in the same places, apart from the line breaks, which are one column further. If there are no
quotes in the source, the kinds are the same altogether. Both forms must have symbols enough for
their strings, which need not be the same. -/
theorem scan_crlf {source : List UInt8} (hfew : FewStrings source)
    (hfew' : FewStrings (Ascii.crlf source)) (sourceName : String) :
    ∃ r r', scan (⟨source⟩ : SourceText) sourceName = .ok r ∧
      scan (⟨Ascii.crlf source⟩ : SourceText) sourceName = .ok r' ∧
      List.Forall₂ Token.MatchesCrlf r.tokens r'.tokens ∧
      (Ascii.doubleQuote ∉ source → Ascii.singleQuote ∉ source →
        r'.tokens.map Token.kind = r.tokens.map Token.kind) := by
  obtain ⟨items, fs, r, hlexes, hscan, htokens, -, -⟩ := exists_scan hfew sourceName
  obtain ⟨items', fs', hlexes', hitems⟩ := hlexes.exists_crlf
  rw [← Ascii.beforeNul_crlf] at hlexes'
  obtain ⟨r', hscan', htokens', -, -⟩ :=
    scan_of_lexes (SourceText.delivers (Ascii.crlf source)) hlexes' sourceName
      (hfew'.fit hlexes')
  rw [Ascii.beforeNul_crlf, Position.after_crlf] at htokens'
  have hmatches : List.Forall₂ Token.MatchesCrlf r.tokens r'.tokens := by
    rw [htokens, htokens']
    exact List.rel_append (Lexes.matchesCrlf_tokens sourceName hitems _ _)
      (.cons ⟨.same, rfl, (if_neg nofun).symm⟩ .nil)
  refine ⟨r, r', hscan, hscan', hmatches, fun hdouble hsingle => ?_⟩
  refine Token.map_kind_eq_of_matchesCrlf hmatches ?_
  have hsource : Ascii.beforeNul source <+: source := List.takeWhile_prefix _
  have hliteral := hlexes.isLiteral_of_mem_tokens sourceName (mt (hsource.subset ·) hdouble)
    (mt (hsource.subset ·) hsingle) .new
  rw [htokens]
  exact List.forall_mem_append.2 ⟨hliteral, List.forall_mem_singleton.2 rfl⟩

/-- A comment before a line break, and a number with nothing behind its full stop. -/
theorem scan_crlf_comment :
    FewStrings (Ascii.codes "x //y\n1.\n") ∧ FewStrings (Ascii.codes "x //y\r\n1.\r\n") ∧
      Ascii.doubleQuote ∉ Ascii.codes "x //y\n1.\n" ∧
      Ascii.singleQuote ∉ Ascii.codes "x //y\n1.\n" ∧
      ∃ r r', scan (⟨Ascii.codes "x //y\n1.\n"⟩ : SourceText) "lines" = .ok r ∧
        scan (⟨Ascii.codes "x //y\r\n1.\r\n"⟩ : SourceText) "lines" = .ok r' ∧
        List.Forall₂ Token.MatchesCrlf r.tokens r'.tokens ∧
        r'.tokens.map Token.kind = r.tokens.map Token.kind := by
  have hdouble : Ascii.doubleQuote ∉ Ascii.codes "x //y\n1.\n" := by decide
  have hsingle : Ascii.singleQuote ∉ Ascii.codes "x //y\n1.\n" := by decide
  have hsource : Ascii.crlf (Ascii.codes "x //y\n1.\n") = Ascii.codes "x //y\r\n1.\r\n" := by
    decide
  have hfew : FewStrings (Ascii.codes "x //y\n1.\n") := fewStrings_of_length_lt (by decide)
  have hfew' : FewStrings (Ascii.codes "x //y\r\n1.\r\n") := fewStrings_of_length_lt (by decide)
  obtain ⟨r, r', hscan, hscan', hmatches, hkinds⟩ := scan_crlf hfew (hsource.symm ▸ hfew') "lines"
  rw [hsource] at hscan'
  exact ⟨hfew, hfew', hdouble, hsingle, r, r', hscan, hscan', hmatches, hkinds hdouble hsingle⟩

end CinderFront
