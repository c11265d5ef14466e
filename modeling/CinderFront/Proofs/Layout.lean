import CinderFront.Proofs.Capacity
import CinderFront.Proofs.Word

/-!
# Nothing of a source is lost

A source is its tokens in order, with blanks, comments and empty character literals between them.
The texts of the tokens and the gaps between them make up all of it, up to its first NUL, and every
token stands where it says.

* `Trivia`, `Gap` — what may stand between tokens;
* `Layout` — the tokens of a text in their places, with a relation between tokens and their texts;
* `Lexes.layout` — the tokens of a scan are laid out over its text;
* `Token.Kind.SpelledBy` — the text of a token, as far as the token determines it;
* `scan_layout` — a scan of a source succeeds, and its tokens are laid out over the source.
-/

namespace CinderFront

/-! ### What stands between tokens -/

/-- A blank, a comment or an empty character literal, before the text `rest`. -/
inductive Trivia : (x rest : List UInt8) → Prop
  | blank {b : UInt8} {rest : List UInt8} :
      b = Ascii.space ∨ b = Ascii.tab ∨ b = Ascii.carriageReturn → Trivia [b] rest
  | lineComment {body rest : List UInt8} : Ascii.lineFeed ∉ body →
      rest = [] ∨ rest.head? = some Ascii.lineFeed →
      Trivia (Ascii.slash :: Ascii.slash :: body) rest
  | blockComment {body rest : List UInt8} : ¬ Comment.endMark <:+: body →
      Trivia (Ascii.slash :: Ascii.asterisk :: (body ++ Comment.endMark)) rest
  | openComment {body : List UInt8} : ¬ Comment.endMark <:+: body →
      Trivia (Ascii.slash :: Ascii.asterisk :: body) []
  | emptyCharacter {rest : List UInt8} : Trivia [Ascii.singleQuote, Ascii.singleQuote] rest
  | loneQuote : Trivia [Ascii.singleQuote] []

/-- Any amount of that. -/
inductive Gap : (gap rest : List UInt8) → Prop
  | nil {rest : List UInt8} : Gap [] rest
  | cons {x gap rest : List UInt8} : Trivia x (gap ++ rest) → Gap gap rest → Gap (x ++ gap) rest

theorem Gap.append {x y rest : List UInt8} (hx : Gap x (y ++ rest)) (hy : Gap y rest) :
    Gap (x ++ y) rest := by
  generalize hr : y ++ rest = r at hx
  induction hx with
  | nil => exact hy
  | cons htrivia _ ih =>
    subst hr
    rw [List.append_assoc]
    refine .cons ?_ (ih rfl)
    rwa [List.append_assoc]

theorem Gap.of_trivia {x rest : List UInt8} (h : Trivia x rest) : Gap x rest := by
  rw [← List.append_nil x]
  exact .cons h .nil

theorem Gap.of_blanks {gap : List UInt8} (h : ∀ b ∈ gap, Ascii.isBlank b = true)
    (rest : List UInt8) : Gap gap rest := by
  induction gap with
  | nil => exact .nil
  | cons b gap ih =>
    have hb := Ascii.isBlank_iff.1 (h b List.mem_cons_self)
    exact .cons (x := [b]) (.blank hb) (ih fun c hc => h c (List.mem_cons_of_mem b hc))

/-- What the rules skip may stand between tokens. -/
theorem Reads.trivia {p : Position} {x rest : List UInt8} {fs : List Finding}
    (h : Reads p (x ++ rest) ⟨none, x, rest, fs⟩) : Trivia x rest := by
  generalize htext : x ++ rest = text at h
  generalize ho : (⟨none, x, rest, fs⟩ : Passage (Option Lexeme)) = o at h
  cases h with
  | string _ | multiLine => simp [Passage.map] at ho
  | emptyCharacter hq =>
    obtain ⟨-, rfl, rfl, -⟩ := Passage.mk.inj ho
    rcases quotation_nil (by decide) hq with rfl | ⟨rfl, rfl⟩
    · exact .emptyCharacter
    · exact .loneQuote
  | character _ | overlongCharacter _ | word _ | integer _ _ | float _ _ _ | mark _ _
  | unknown _ _ _ _ _ => simp at ho
  | @lineComment r =>
    obtain ⟨-, rfl, rfl, -⟩ := Passage.mk.inj ho
    refine .lineComment ?_ ?_
    · intro hmem
      simpa using List.mem_takeWhile_imp hmem
    · cases hrest : r.dropWhile (· != Ascii.lineFeed) with
      | nil => exact .inl rfl
      | cons b rest =>
        have hb := List.head?_dropWhile_not (· != Ascii.lineFeed) r
        rw [hrest] at hb
        exact .inr (by simpa using hb)
  | blockComment hbody =>
    obtain ⟨-, rfl, rfl, -⟩ := Passage.mk.inj ho
    exact .blockComment hbody
  | openComment hbody =>
    obtain ⟨-, rfl, rfl, -⟩ := Passage.mk.inj ho
    exact .openComment hbody

/-! ### Tokens in their places -/

/-- `Layout R sourceName p text tokens`: over the text, which begins at `p`, the tokens are laid out
with gaps between them, the end of the input last. `R kind x rest` holds of the kind of each token,
its text and what follows it. -/
inductive Layout (R : Token.Kind → List UInt8 → List UInt8 → Prop) (sourceName : String) :
    Position → List UInt8 → List Token → Prop
  | finish {p : Position} {gap : List UInt8} : Gap gap [] →
      Layout R sourceName p gap [⟨.endOfFile, sourceName, p.after gap⟩]
  | token {p : Position} {gap x rest : List UInt8} {kind : Token.Kind} {tokens : List Token} :
      Gap gap (x ++ rest) → R kind x rest →
      Layout R sourceName (p.after (gap ++ x)) rest tokens →
      Layout R sourceName p (gap ++ (x ++ rest)) (⟨kind, sourceName, p.after gap⟩ :: tokens)

namespace Layout

variable {R : Token.Kind → List UInt8 → List UInt8 → Prop} {sourceName : String} {p : Position}
  {x text : List UInt8} {tokens : List Token}

/-- More may be skipped before a layout. -/
theorem skip (hx : Gap x text) (h : Layout R sourceName (p.after x) text tokens) :
    Layout R sourceName p (x ++ text) tokens := by
  cases h with
  | finish hgap =>
    rw [← Position.after_append]
    exact .finish (.append (by rwa [List.append_nil]) hgap)
  | @token _ gap y rest kind tokens hgap hR hrest =>
    rw [← Position.after_append, ← List.append_assoc]
    refine .token (.append hx hgap) hR ?_
    rwa [List.append_assoc, Position.after_append]

end Layout

/-- What comes of a text that is taken apart is laid out over it. -/
theorem Lexes.layout {R : Token.Kind → List UInt8 → List UInt8 → Prop} {sourceName : String}
    {p : Position} {text : List UInt8} {items : List Item} {fs : List Finding}
    (h : Lexes p text items fs)
    (hR : ∀ {q l x rest gs} symbols, Reads q (x ++ rest) ⟨some l, x, rest, gs⟩ →
      R (l.kind symbols) x rest) (symbols : SymbolTable) :
    Layout R sourceName p text
      (tokens sourceName symbols items ++ [⟨.endOfFile, sourceName, p.after text⟩]) := by
  induction h generalizing symbols with
  | finish hgap => exact .finish (Gap.of_blanks hgap [])
  | @token p gap x rest l items fs gs hgap ho _ ih =>
    have hrest := Layout.token (Gap.of_blanks hgap (x ++ rest)) (hR symbols ho)
      (ih (l.enter symbols))
    rwa [← Position.after_append, List.append_assoc] at hrest
  | @skip p gap x rest items fs gs hgap ho _ ih =>
    have hskipped : Gap (gap ++ x) rest :=
      .append (Gap.of_blanks hgap (x ++ rest)) (.of_trivia ho.trivia)
    have hrest := Layout.skip hskipped (ih symbols)
    rwa [← Position.after_append, List.append_assoc] at hrest

/-! ### The texts of tokens -/

/-- The text `x` of a token of this kind: all of it, except that only the beginning of a literal is
said, and that a number which ends in a full stop is kept with a zero behind it. -/
def Token.Kind.SpelledBy (x : List UInt8) : Token.Kind → Prop
  | mark m => x = m.bytes
  | unknown b => x = [b]
  | keyword k => x = Ascii.codes k.spelling
  | mode m => x = Ascii.codes m.spelling
  | identifier text => x = text
  | string _ => x.head? = some Ascii.doubleQuote
  | integer text => x = text
  | float text => text = if x.getLast? = some Ascii.fullStop then x ++ [Ascii.zero] else x
  | character _ => x.head? = some Ascii.singleQuote
  | endOfFile => False

theorem Lexeme.spelledBy_ofWord (symbols : SymbolTable) (word : List UInt8) :
    ((ofWord word).kind symbols).SpelledBy word := by
  unfold ofWord
  cases hmode : Mode.ofBytes? word with
  | some m => exact Mode.ofBytes?_eq_some_iff.1 hmode
  | none =>
    cases hkeyword : Keyword.ofBytes? word with
    | some k => exact Keyword.ofBytes?_eq_some_iff.1 hkeyword
    | none => rfl

/-- The text of a number ends in its full stop only if no digit follows that. -/
theorem getLast?_fraction (integral digits : List UInt8)
    (h : ∀ b ∈ digits, Ascii.isNumberByte b = true) :
    (integral ++ Ascii.fullStop :: digits).getLast? = some Ascii.fullStop ↔ digits = [] := by
  rcases List.eq_nil_or_concat digits with rfl | ⟨digits, c, rfl⟩
  · simp
  · have hc : c ≠ Ascii.fullStop := by
      rintro rfl
      exact absurd (h Ascii.fullStop (by simp)) (by decide)
    rw [List.concat_eq_append, ← List.cons_append, ← List.append_assoc, List.getLast?_concat]
    simp [hc]

/-- The text that a rule passes is the text of the token that it reads. -/
theorem Reads.spelledBy {p : Position} {x rest : List UInt8} {l : Lexeme} {fs : List Finding}
    (symbols : SymbolTable) (h : Reads p (x ++ rest) ⟨some l, x, rest, fs⟩) :
    (l.kind symbols).SpelledBy x := by
  generalize htext : x ++ rest = text at h
  generalize ho : (⟨some l, x, rest, fs⟩ : Passage (Option Lexeme)) = o at h
  cases h with
  | string _ | multiLine =>
    obtain ⟨hl, rfl, -, -⟩ := Passage.mk.inj ho
    cases hl
    simp [Lexeme.kind, Token.Kind.SpelledBy, quotation]
  | emptyCharacter _ | lineComment | blockComment _ | openComment _ => simp at ho
  | character hq | overlongCharacter hq =>
    obtain ⟨hl, rfl, -, -⟩ := Passage.mk.inj ho
    cases hl
    obtain ⟨-, rfl, -, -⟩ := Passage.mk.inj hq
    simp [Lexeme.kind, Token.Kind.SpelledBy]
  | word _ =>
    obtain ⟨hl, rfl, -, -⟩ := Passage.mk.inj ho
    cases hl
    exact Lexeme.spelledBy_ofWord symbols _
  | integer _ _ =>
    obtain ⟨hl, rfl, -, -⟩ := Passage.mk.inj ho
    cases hl
    rfl
  | @float b r r' _ _ _ =>
    obtain ⟨hl, rfl, -, -⟩ := Passage.mk.inj ho
    cases hl
    have hdigits : ∀ b ∈ r'.takeWhile Ascii.isNumberByte, Ascii.isNumberByte b = true :=
      fun b hb => List.mem_takeWhile_imp hb
    simp only [Lexeme.kind, Token.Kind.SpelledBy, getLast?_fraction _ _ hdigits, mantissa]
    split
    · next hempty => simp [hempty]
    · rfl
  | mark _ _ | unknown _ _ _ _ _ =>
    obtain ⟨hl, rfl, -, -⟩ := Passage.mk.inj ho
    cases hl
    rfl

/-! ### Whole sources -/

/-- A scan of a source for whose strings there are symbols succeeds. Its tokens, the end of the
input last, are laid out over the source up to its first NUL, and the text of each is that of its
kind. -/
theorem scan_layout {source : List UInt8} (hfew : FewStrings source) (sourceName : String) :
    ∃ result, scan (⟨source⟩ : SourceText) sourceName = .ok result ∧
      Layout (fun kind x _ => x ≠ [] ∧ kind.SpelledBy x) sourceName .start
        (Ascii.beforeNul source) result.tokens := by
  obtain ⟨items, fs, result, hlexes, hscan, htokens, -, -⟩ := exists_scan hfew sourceName
  refine ⟨result, hscan, ?_⟩
  rw [htokens]
  exact hlexes.layout (fun symbols ho => ⟨ho.passed_ne_nil, ho.spelledBy symbols⟩) .new

/-- An open string behind an empty character literal, with a NUL in it. -/
theorem scan_layout_openString :
    FewStrings [39, 39, 34, 97, 0, 34] ∧
      ∃ result, scan (⟨[39, 39, 34, 97, 0, 34]⟩ : SourceText) "open" = .ok result ∧
        Layout (fun kind x _ => x ≠ [] ∧ kind.SpelledBy x) "open" .start [39, 39, 34, 97]
          result.tokens :=
  have hfew : FewStrings [39, 39, 34, 97, 0, 34] := fewStrings_of_length_lt (by decide)
  ⟨hfew, scan_layout hfew "open"⟩

end CinderFront
