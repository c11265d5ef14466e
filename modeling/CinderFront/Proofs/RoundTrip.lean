import CinderFront.Proofs.Capacity
import CinderFront.Proofs.Word

/-!
# Scanning undoes printing

Lexemes that are well formed can be printed, each with a separator behind it. A separator begins
with a blank and goes on with blanks and block comments. Scanning the printed text yields the
lexemes again and finds nothing wrong.

* `Lexeme.WellFormed`, `Lexeme.print` — which lexemes a source can hold, and how they are written;
* `Filler`, `Separator`, `Printed` — what stands behind each of them;
* `reads_print` — a printed lexeme is read as it was;
* `Printed.exists_lexes` — a printed text is taken apart into its lexemes;
* `Lexes.map_lexeme?_tokens` — tokens stand for their lexemes, strings by their contents;
* `scan_printed` — a scan of a printed text.
-/

namespace CinderFront

/-! ### Printing -/

namespace Lexeme

/-- How the lexeme is written in a source. -/
def print : Lexeme → List UInt8
  | mark m => m.bytes
  | unknown b => [b]
  | keyword k => Ascii.codes k.spelling
  | mode m => Ascii.codes m.spelling
  | identifier text | integer text | float text => text
  | string contents =>
    Ascii.doubleQuote :: (Escape.encode contents ++ [Ascii.doubleQuote])
  | character b => Ascii.singleQuote :: (Escape.encode [b] ++ [Ascii.singleQuote])

/-- The text of an integer: a digit, then digits and underscores. -/
def IsInteger (text : List UInt8) : Prop :=
  ∃ d r, text = d :: r ∧ Ascii.isDigit d = true ∧ ∀ b ∈ r, Ascii.isNumberByte b = true

theorem IsInteger.isNumberByte_of_mem {text : List UInt8} (h : IsInteger text) :
    ∀ b ∈ text, Ascii.isNumberByte b = true := by
  obtain ⟨d, r, rfl, hd, hr⟩ := h
  exact List.forall_mem_cons.2 ⟨Ascii.isNumberByte_of_isDigit hd, hr⟩

/-- Whether some source has the lexeme. -/
def WellFormed : Lexeme → Prop
  | mark _ | keyword _ | mode _ | string _ | character _ => True
  | unknown b => b ≠ Ascii.nul ∧ Ascii.isBlank b = false ∧ Ascii.isWordByte b = false ∧
      b ≠ Ascii.doubleQuote ∧ b ≠ Ascii.singleQuote ∧
      ∀ m : Punctuation, m.bytes.head? ≠ some b
  | identifier text => (∃ b r, text = b :: r ∧ Ascii.isDigit b = false) ∧
      (∀ b ∈ text, Ascii.isWordByte b = true) ∧
      (∀ k : Keyword, text ≠ Ascii.codes k.spelling) ∧
      ∀ m : Mode, text ≠ Ascii.codes m.spelling
  | integer text => IsInteger text
  | float text => ∃ integral digits, text = integral ++ Ascii.fullStop :: digits ∧
      IsInteger integral ∧ digits ≠ [] ∧ ∀ b ∈ digits, Ascii.isNumberByte b = true

end Lexeme

/-- Blanks and closed block comments. -/
inductive Filler : List UInt8 → Prop
  | nil : Filler []
  | blank {b : UInt8} {s : List UInt8} : Ascii.isBlank b = true → Filler s → Filler (b :: s)
  | comment {body s : List UInt8} : Ascii.nul ∉ body → ¬ Comment.endMark <:+: body → Filler s →
      Filler (Ascii.slash :: Ascii.asterisk :: (body ++ Comment.endMark ++ s))

/-- A blank and then any filler. -/
def Separator (s : List UInt8) : Prop :=
  ∃ b r, s = b :: r ∧ Ascii.isBlank b = true ∧ Filler r

/-- The text consists of these lexemes as they are written, with a separator behind each. -/
inductive Printed : List Lexeme → List UInt8 → Prop
  | nil : Printed [] []
  | cons {l : Lexeme} {s text : List UInt8} {ls : List Lexeme} : l.WellFormed → Separator s →
      Printed ls text → Printed (l :: ls) (l.print ++ (s ++ text))

/-! ### Reading what was printed -/

theorem Lexeme.ofWord_mode (m : Mode) : ofWord (Ascii.codes m.spelling) = mode m := by
  simp [ofWord, Mode.ofBytes?_spelling]

theorem Lexeme.ofWord_keyword (k : Keyword) : ofWord (Ascii.codes k.spelling) = keyword k := by
  simp [ofWord, Mode.ofBytes?_keyword_spelling, Keyword.ofBytes?_spelling]

theorem Lexeme.ofWord_identifier {text : List UInt8}
    (hkeyword : ∀ k : Keyword, text ≠ Ascii.codes k.spelling)
    (hmode : ∀ m : Mode, text ≠ Ascii.codes m.spelling) : ofWord text = identifier text := by
  have hm : Mode.ofBytes? text = none := by
    rw [Option.eq_none_iff_forall_ne_some]
    exact fun m h => hmode m (Mode.ofBytes?_eq_some_iff.1 h)
  have hk : Keyword.ofBytes? text = none := by
    rw [Option.eq_none_iff_forall_ne_some]
    exact fun k h => hkeyword k (Keyword.ofBytes?_eq_some_iff.1 h)
  simp [ofWord, hm, hk]

section Reading

variable {b : UInt8} {r : List UInt8} (p : Position) (hb : Ascii.isBlank b = true)

include hb

theorem reads_mark (m : Punctuation) :
    Reads p (m.bytes ++ b :: r) ⟨some (.mark m), m.bytes, b :: r, []⟩ := by
  obtain ⟨-, -, -, hslash, hasterisk, -⟩ := Ascii.ne_of_isBlank hb
  refine .mark (Punctuation.longestAt?_eq_some_iff.2 ⟨List.prefix_append _ _, ?_⟩) fun _ => ?_
  · intro n hn
    by_contra hlt
    -- A longer mark would have the blank in it.
    have hm : m.bytes ++ [b] <+: m.bytes ++ b :: r := ⟨r, by simp⟩
    have hmn : m.bytes ++ [b] <+: n.bytes := by
      refine List.prefix_of_prefix_length_le hm hn ?_
      rw [List.length_append, List.length_singleton]
      omega
    have hblank := (n.mem_bytes b (hmn.subset (by simp))).2.1
    rw [hb] at hblank
    cases hblank
  · simp [hslash, hasterisk]

theorem reads_word {w : List UInt8} (hstart : w.head?.any Ascii.isWordStart = true)
    (hw : ∀ d ∈ w, Ascii.isWordByte d = true) :
    Reads p (w ++ b :: r) ⟨some (.ofWord w), w, b :: r, []⟩ := by
  have hstop : ∀ d ∈ (b :: r).head?, Ascii.isWordByte d = false := by
    simp [(Ascii.ne_of_isBlank hb).1]
  cases w with
  | nil => cases hstart
  | cons c w =>
    have h := Reads.word (p := p) (b := c) (r := w ++ b :: r) hstart
    rwa [← List.cons_append, takeWhile_run_append hw hstop, dropWhile_run_append hw hstop] at h

theorem reads_integer {text : List UInt8} (htext : Lexeme.IsInteger text) :
    Reads p (text ++ b :: r) ⟨some (.integer text), text, b :: r, []⟩ := by
  obtain ⟨-, hnumber, hfullStop, -⟩ := Ascii.ne_of_isBlank hb
  have hrun := htext.isNumberByte_of_mem
  obtain ⟨d, t, rfl, hd, -⟩ := htext
  have hstop : ∀ c ∈ (b :: r).head?, Ascii.isNumberByte c = false := by simp [hnumber]
  have hdrop := dropWhile_run_append hrun hstop
  have hfraction : ¬ AtFraction ((d :: t ++ b :: r).dropWhile Ascii.isNumberByte) := by
    rw [hdrop]
    intro hat
    obtain ⟨r', hr', -⟩ := hat
    exact hfullStop (List.cons.inj hr').1
  have h := Reads.integer (p := p) (b := d) (r := t ++ b :: r) hd hfraction
  rwa [← List.cons_append, takeWhile_run_append hrun hstop, hdrop] at h

theorem reads_float {integral digits : List UInt8} (hintegral : Lexeme.IsInteger integral)
    (hne : digits ≠ []) (hdigits : ∀ c ∈ digits, Ascii.isNumberByte c = true) :
    Reads p ((integral ++ Ascii.fullStop :: digits) ++ b :: r)
      ⟨some (.float (integral ++ Ascii.fullStop :: digits)),
        integral ++ Ascii.fullStop :: digits, b :: r, []⟩ := by
  obtain ⟨-, hnumber, -⟩ := Ascii.ne_of_isBlank hb
  have hrun := hintegral.isNumberByte_of_mem
  obtain ⟨d, t, rfl, hd, -⟩ := hintegral
  have hdot : ∀ c ∈ (Ascii.fullStop :: (digits ++ b :: r)).head?,
      Ascii.isNumberByte c = false := by
    simp only [List.head?_cons, Option.mem_some_iff, forall_eq']
    decide
  have hstop : ∀ c ∈ (b :: r).head?, Ascii.isNumberByte c = false := by simp [hnumber]
  have hhead : (digits ++ b :: r).head? ≠ some Ascii.fullStop := by
    obtain ⟨c, cs, rfl⟩ := List.exists_cons_of_ne_nil hne
    intro hc
    obtain rfl : c = Ascii.fullStop := Option.some.inj hc
    exact absurd (hdigits Ascii.fullStop List.mem_cons_self) (by decide)
  have h := Reads.float (p := p) (b := d) (r := t ++ Ascii.fullStop :: (digits ++ b :: r)) hd
    (dropWhile_run_append hrun hdot) hhead
  rw [← List.cons_append, takeWhile_run_append hrun hdot, takeWhile_run_append hdigits hstop,
    dropWhile_run_append hdigits hstop, mantissa, if_neg hne] at h
  simpa using h

/-- A printed lexeme is read as it was. -/
theorem reads_print {l : Lexeme} (hl : l.WellFormed) :
    Reads p (l.print ++ b :: r) ⟨some l, l.print, b :: r, []⟩ := by
  cases l with
  | mark m => exact reads_mark p hb m
  | unknown c =>
    obtain ⟨-, hblank, hword, hdouble, hsingle, hmark⟩ := hl
    refine .unknown (Punctuation.longestAt?_eq_none_iff.2 fun m hm => ?_) hdouble hsingle hword
      hblank
    obtain ⟨c', cs, hbytes⟩ := List.exists_cons_of_ne_nil m.bytes_ne_nil
    rw [hbytes] at hm
    refine hmark m ?_
    rw [hbytes, (List.cons_prefix_cons.1 hm).1]
    rfl
  | keyword k =>
    have h := reads_word (r := r) p hb k.isWordStart_head? k.isWordByte_of_mem
    rwa [Lexeme.ofWord_keyword] at h
  | mode m =>
    have h := reads_word (r := r) p hb m.isWordStart_head? m.isWordByte_of_mem
    rwa [Lexeme.ofWord_mode] at h
  | identifier text =>
    obtain ⟨⟨c, t, rfl, hc⟩, hbytes, hkeyword, hmode⟩ := hl
    have hstart : Ascii.isWordStart c = true := by
      rcases Ascii.isWordByte_iff.1 (hbytes c List.mem_cons_self) with h | h
      · exact h
      · rw [hc] at h
        cases h
    have h := reads_word (r := r) p hb (w := c :: t) hstart hbytes
    rwa [Lexeme.ofWord_identifier hkeyword hmode] at h
  | string contents =>
    have hquote : Ascii.doubleQuote ≠ Ascii.bar := by decide
    have h := Reads.string (p := p) (Escape.head?_encode_ne_bar contents hquote (b :: r))
    rw [quotation_encode (.inl rfl)] at h
    simpa [Lexeme.print, Passage.map] using h
  | integer text => exact reads_integer p hb hl
  | float text =>
    obtain ⟨integral, digits, rfl, hintegral, hne, hdigits⟩ := hl
    exact reads_float p hb hintegral hne hdigits
  | character c =>
    have h := Reads.character (p := p)
      (quotation_encode (.inr rfl) .unterminatedCharacter p [c] (b :: r))
    simpa [Lexeme.print] using h

end Reading

/-! ### Texts -/

section Texts

variable {p : Position} {s text : List UInt8} {items : List Item} {fs : List Finding}

theorem Lexes.blank {b : UInt8} (hb : Ascii.isBlank b = true)
    (h : Lexes (p.past b) text items fs) : Lexes p (b :: text) items fs := by
  cases h with
  | finish hgap => exact .finish (List.forall_mem_cons.2 ⟨hb, hgap⟩)
  | token hgap ho hrest => exact .token (List.forall_mem_cons.2 ⟨hb, hgap⟩) ho hrest
  | skip hgap ho hrest => exact .skip (List.forall_mem_cons.2 ⟨hb, hgap⟩) ho hrest

/-- Filler before a text changes nothing but the positions. -/
theorem Lexes.filler (hs : Filler s) (h : Lexes (p.after s) text items fs) :
    Lexes p (s ++ text) items fs := by
  induction hs generalizing p with
  | nil => exact h
  | blank hb _ ih => exact .blank hb (ih h)
  | @comment body s _ hbody _ ih =>
    have hrest : Lexes (p.after (Ascii.slash :: Ascii.asterisk :: (body ++ Comment.endMark)))
        (s ++ text) items fs := by
      refine ih ?_
      rw [← Position.after_append]
      exact h
    have ho : Reads p (Ascii.slash :: Ascii.asterisk :: (body ++ Comment.endMark) ++ (s ++ text))
        ⟨none, Ascii.slash :: Ascii.asterisk :: (body ++ Comment.endMark), s ++ text, []⟩ :=
      .blockComment hbody
    have hcomment := Lexes.skip (p := p) (List.forall_mem_nil _) ho hrest
    simpa using hcomment

/-- A printed text is taken apart into its lexemes, and nothing is wrong with it. -/
theorem Printed.exists_lexes {ls : List Lexeme} (h : Printed ls text) (p : Position) :
    ∃ items, items.map Item.lexeme = ls ∧ Lexes p text items [] := by
  induction h generalizing p with
  | nil => exact ⟨[], rfl, .finish (List.forall_mem_nil _)⟩
  | @cons l s text ls hl hs _ ih =>
    obtain ⟨b, r, rfl, hb, hr⟩ := hs
    obtain ⟨items, hitems, hlexes⟩ := ih (((p.after l.print).past b).after r)
    refine ⟨⟨l, p⟩ :: items, by rw [List.map_cons, hitems], ?_⟩
    exact .token (List.forall_mem_nil _) (reads_print p hb hl) (.blank hb (.filler hr hlexes))

/-! ### No NUL is printed -/

theorem Lexeme.nul_not_mem_print {l : Lexeme} (hl : l.WellFormed) : Ascii.nul ∉ l.print := by
  have hword : Ascii.isWordByte Ascii.nul = false := by decide
  have hnumber : Ascii.isNumberByte Ascii.nul = false := by decide
  intro hmem
  cases l with
  | mark m => exact (m.mem_bytes _ hmem).1 rfl
  | unknown b => exact hl.1 (List.mem_singleton.1 hmem).symm
  | keyword k => simp [k.isWordByte_of_mem _ hmem] at hword
  | mode m => simp [m.isWordByte_of_mem _ hmem] at hword
  | identifier text => simp [hl.2.1 _ hmem] at hword
  | string contents =>
    have hquote : Ascii.nul ≠ Ascii.doubleQuote := by decide
    simp [Lexeme.print, Escape.nul_not_mem_encode, hquote] at hmem
  | integer text => simp [hl.isNumberByte_of_mem _ hmem] at hnumber
  | float text =>
    obtain ⟨integral, digits, rfl, hintegral, -, hdigits⟩ := hl
    have hfullStop : Ascii.nul ≠ Ascii.fullStop := by decide
    rcases List.mem_append.1 hmem with h | h
    · simp [hintegral.isNumberByte_of_mem _ h] at hnumber
    · rcases List.mem_cons.1 h with h | h
      · exact hfullStop h
      · simp [hdigits _ h] at hnumber
  | character b =>
    have hquote : Ascii.nul ≠ Ascii.singleQuote := by decide
    simp [Lexeme.print, Escape.nul_not_mem_encode, hquote] at hmem

theorem Filler.nul_not_mem (h : Filler s) : Ascii.nul ∉ s := by
  induction h with
  | nil => exact List.not_mem_nil
  | blank hb _ ih =>
    obtain ⟨-, -, -, -, -, hnul⟩ := Ascii.ne_of_isBlank hb
    exact List.not_mem_cons_of_ne_of_not_mem (Ne.symm hnul) ih
  | comment hbody _ _ ih =>
    have hmarks : Ascii.nul ≠ Ascii.slash ∧ Ascii.nul ≠ Ascii.asterisk := by decide
    simp [hbody, ih, hmarks]

theorem Printed.nul_not_mem {ls : List Lexeme} (h : Printed ls text) : Ascii.nul ∉ text := by
  induction h with
  | nil => exact List.not_mem_nil
  | cons hl hs _ ih =>
    obtain ⟨b, r, rfl, hb, hr⟩ := hs
    have hsep := (Filler.blank hb hr).nul_not_mem
    simp only [List.mem_append, not_or]
    exact ⟨Lexeme.nul_not_mem_print hl, hsep, ih⟩

end Texts

/-! ### What tokens stand for -/

/-- What a kind stands for, with the contents that the table has for a string. -/
def Token.Kind.lexeme? (symbols : SymbolTable) : Token.Kind → Option Lexeme
  | mark m => some (.mark m)
  | unknown b => some (.unknown b)
  | keyword k => some (.keyword k)
  | mode m => some (.mode m)
  | identifier text => some (.identifier text)
  | string symbol => (symbols.lookup? symbol).map Lexeme.string
  | integer text => some (.integer text)
  | float text => some (.float text)
  | character b => some (.character b)
  | endOfFile => none

theorem Lexeme.consistent_enter {t : SymbolTable} (h : t.Consistent) (l : Lexeme) :
    (l.enter t).Consistent := by
  cases l with
  | string contents => exact h.intern contents
  | _ => exact h

theorem Lexes.consistent_symbols {t : SymbolTable} (h : t.Consistent) (items : List Item) :
    (symbols t items).Consistent := by
  induction items generalizing t with
  | nil => exact h
  | cons item items ih => exact ih (item.lexeme.consistent_enter h)

theorem Lexeme.lookup?_enter {t : SymbolTable} {symbol : Symbol} {bytes : List UInt8}
    (h : t.lookup? symbol = some bytes) (l : Lexeme) :
    (l.enter t).lookup? symbol = some bytes := by
  cases l with
  | string contents => exact SymbolTable.lookup?_intern_of_lookup? h contents
  | _ => exact h

theorem Lexes.lookup?_symbols {t : SymbolTable} {symbol : Symbol} {bytes : List UInt8}
    (h : t.lookup? symbol = some bytes) (items : List Item) :
    (symbols t items).lookup? symbol = some bytes := by
  induction items generalizing t with
  | nil => exact h
  | cons item items ih => exact ih (Lexeme.lookup?_enter h item.lexeme)

/-- A kind stands for the lexeme that it was made of, whatever is read after it. -/
theorem Lexes.lexeme?_kind {t : SymbolTable} (h : t.Consistent) (l : Lexeme)
    (items : List Item) : (l.kind t).lexeme? (symbols (l.enter t) items) = some l := by
  cases l with
  | string contents =>
    have hlookup := lookup?_symbols (h.lookup?_intern contents) items
    exact congrArg (Option.map Lexeme.string) hlookup
  | _ => rfl

/-- The tokens of some items stand for their lexemes in the table that is left in the end. -/
theorem Lexes.map_lexeme?_tokens (sourceName : String) {t : SymbolTable} (h : t.Consistent)
    (items : List Item) :
    (tokens sourceName t items).map (fun token => token.kind.lexeme? (symbols t items)) =
      (items.map Item.lexeme).map some := by
  induction items generalizing t with
  | nil => rfl
  | cons item items ih =>
    have hhead := lexeme?_kind h item.lexeme items
    have htail := ih (item.lexeme.consistent_enter h)
    simp only [tokens, List.map_cons]
    exact congrArg₂ List.cons hhead htail

/-! ### Whole sources -/

/-- A scan of a printed text for whose strings there are symbols succeeds and finds nothing wrong.
Its tokens stand for the lexemes that were printed, and the end of the input comes after them. -/
theorem scan_printed {ls : List Lexeme} {text : List UInt8} (h : Printed ls text)
    (hfew : FewStrings text) (sourceName : String) :
    ∃ result tokens, scan (⟨text⟩ : SourceText) sourceName = .ok result ∧
      result.diagnostics = [] ∧
      result.tokens = tokens ++ [⟨.endOfFile, sourceName, Position.start.after text⟩] ∧
      tokens.map (fun token => token.kind.lexeme? result.symbols) = ls.map some := by
  obtain ⟨items, hitems, hlexes⟩ := h.exists_lexes .start
  have htext := Ascii.beforeNul_eq_self h.nul_not_mem
  rw [← htext] at hlexes
  obtain ⟨result, hscan, htokens, hdiagnostics, hsymbols⟩ :=
    scan_of_lexes (SourceText.delivers text) hlexes sourceName (hfew.fit hlexes)
  rw [htext] at htokens
  refine ⟨result, _, hscan, hdiagnostics, htokens, ?_⟩
  rw [hsymbols, Lexes.map_lexeme?_tokens sourceName SymbolTable.consistent_new, hitems]

/-- A mark and a string that holds a bar, with a comment between them that holds a quote. -/
theorem scan_printed_assign_string :
    Printed [.mark .assign, .string [Ascii.bar]] (Ascii.codes "= /*\"*/\t\"\\|\" ") ∧
      FewStrings (Ascii.codes "= /*\"*/\t\"\\|\" ") ∧
      ∃ result tokens,
        scan (⟨Ascii.codes "= /*\"*/\t\"\\|\" "⟩ : SourceText) "line" = .ok result ∧
        result.diagnostics = [] ∧
        result.tokens = tokens ++ [⟨.endOfFile, "line",
          Position.start.after (Ascii.codes "= /*\"*/\t\"\\|\" ")⟩] ∧
        tokens.map (fun token => token.kind.lexeme? result.symbols) =
          [Lexeme.mark .assign, .string [Ascii.bar]].map some := by
  have hbody : Ascii.nul ∉ [Ascii.doubleQuote] := by decide
  have hcomment : Filler (Ascii.codes "/*\"*/\t") :=
    .comment hbody (by decide) (.blank (by decide) .nil)
  have hassign : (Lexeme.mark .assign).WellFormed := trivial
  have hstring : (Lexeme.string [Ascii.bar]).WellFormed := trivial
  have h : Printed [.mark .assign, .string [Ascii.bar]]
      (Ascii.codes "=" ++ (Ascii.codes " /*\"*/\t" ++
        (Ascii.codes "\"\\|\"" ++ (Ascii.codes " " ++ [])))) :=
    .cons hassign ⟨_, _, rfl, by decide, hcomment⟩
      (.cons hstring ⟨_, _, rfl, by decide, .nil⟩ .nil)
  have hfew : FewStrings (Ascii.codes "= /*\"*/\t\"\\|\" ") :=
    fewStrings_of_length_lt (by decide)
  exact ⟨h, hfew, scan_printed h hfew "line"⟩

end CinderFront
