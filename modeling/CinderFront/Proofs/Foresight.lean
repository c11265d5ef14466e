import CinderFront.Proofs.Layout
import CinderFront.Proofs.Uniform

/-!
# What a token is read from

A stream may fail at any time, and a scanner goes on after a failure from whatever the failure has
left in view. Still a token that is yielded comes of the rules: it is the first token of the text
that the scanner has ahead up to the next failure of its stream, or up to the end. For as long as
the stream does not fail, the scanner cannot be told from one over that text.

* `ByteStream.Offers`, `Lookahead.Offers` — the bytes up to the next failure or the end;
* `FirstToken` — which token stands first in a text, and what it leaves;
* `Scan.firstToken_of_lexes` — whatever a scanner over a text yields stands first in it;
* `Imitation.foreseen` — a scanner of any stream imitates one over what the stream offers;
* `Scan.firstToken_of_nextToken` — whatever is yielded stands first in what was offered.
-/

namespace CinderFront

/-! ### What a stream offers -/

section

variable {σ : Type} [ByteStream σ]

/-- The stream delivers these bytes, one on each call, and then its end or a failure. -/
inductive ByteStream.Offers : σ → List UInt8 → Prop
  | finish {s s' : σ} : ByteStream.pull s = .ok none s' → ByteStream.Offers s []
  | failure {s s' : σ} {e : IoError} : ByteStream.pull s = .error e s' → ByteStream.Offers s []
  | byte {s s' : σ} {b : UInt8} {bytes : List UInt8} :
      ByteStream.pull s = .ok (some b) s' → ByteStream.Offers s' bytes →
      ByteStream.Offers s (b :: bytes)

theorem ByteStream.exists_offers (s : σ) : ∃ bytes, Offers s bytes := by
  -- Every byte uses up some of what is pending, so the induction is on that.
  induction hn : ByteStream.pending s using Nat.strongRecOn generalizing s with
  | ind n ih =>
    subst hn
    cases hp : ByteStream.pull s with
    | error e s' => exact ⟨[], .failure hp⟩
    | ok o s' =>
      cases o with
      | none => exact ⟨[], .finish hp⟩
      | some b =>
        obtain ⟨bytes, hbytes⟩ := ih _ (ByteStream.pending_byte hp) s' rfl
        exact ⟨b :: bytes, .byte hp hbytes⟩

/-- The feed has these bytes to come before a failure; one that is exhausted has none. -/
def Feed.Offers (f : Feed σ) (bytes : List UInt8) : Prop :=
  if f.exhausted then bytes = [] else ByteStream.Offers f.stream bytes

theorem Feed.exists_offers (f : Feed σ) : ∃ bytes, f.Offers bytes := by
  unfold Offers
  by_cases h : f.exhausted
  · exact ⟨[], by rw [if_pos h]⟩
  · simpa only [if_neg h] using ByteStream.exists_offers f.stream

/-- The text that is ahead: the bytes in view and those that come before a failure, up to the first
NUL. -/
def Lookahead.Offers (v : Lookahead σ) (text : List UInt8) : Prop :=
  ∃ bytes, v.feed.Offers bytes ∧ Ascii.beforeNul (v.bytes ++ bytes) = text

theorem Lookahead.exists_offers (v : Lookahead σ) : ∃ text, v.Offers text := by
  obtain ⟨bytes, hbytes⟩ := v.feed.exists_offers
  exact ⟨_, bytes, hbytes, rfl⟩

theorem Lookahead.Offers.ne_nul {v : Lookahead σ} {text : List UInt8} (h : v.Offers text)
    {b : UInt8} (hb : b ∈ text) : b ≠ Ascii.nul := by
  obtain ⟨bytes, -, rfl⟩ := h
  exact Ascii.ne_nul_of_mem_beforeNul hb

end

/-! ### The token that stands first -/

/-- `FirstToken symbols sourceName p text token symbols' q`: in the text, which begins at `p`, the
token stands first, behind a gap. It enters its contents into the table if it is a string, for which
there has to be room, and what follows it begins at `q`. -/
inductive FirstToken (symbols : SymbolTable) (sourceName : String) (p : Position) :
    List UInt8 → Token → SymbolTable → Position → Prop
  | finish {gap : List UInt8} : Gap gap [] →
      FirstToken symbols sourceName p gap ⟨.endOfFile, sourceName, p.after gap⟩ symbols
        (p.after gap)
  | token {gap x rest : List UInt8} {l : Lexeme} {fs : List Finding} : Gap gap (x ++ rest) →
      Reads (p.after gap) (x ++ rest) ⟨some l, x, rest, fs⟩ → l.Fits symbols →
      FirstToken symbols sourceName p (gap ++ (x ++ rest))
        ⟨l.kind symbols, sourceName, p.after gap⟩ (l.enter symbols) (p.after (gap ++ x))

/-- More may be skipped before it. -/
theorem FirstToken.skip {symbols symbols' : SymbolTable} {sourceName : String} {p q : Position}
    {x text : List UInt8} {token : Token} (hx : Gap x text)
    (h : FirstToken symbols sourceName (p.after x) text token symbols' q) :
    FirstToken symbols sourceName p (x ++ text) token symbols' q := by
  cases h with
  | finish hgap =>
    rw [← Position.after_append]
    exact .finish (.append (by rwa [List.append_nil]) hgap)
  | @token gap y rest l fs hgap ho hfits =>
    rw [← Position.after_append] at ho
    rw [← Position.after_append, ← Position.after_append, ← List.append_assoc x gap y,
      ← List.append_assoc x gap (y ++ rest)]
    exact .token (.append hx hgap) ho hfits

/-- A string stands for the contents of a literal, which are entered. -/
theorem FirstToken.exists_contents {symbols symbols' : SymbolTable} {sourceName : String}
    {p q : Position} {text : List UInt8} {token : Token} {symbol : Symbol}
    (h : FirstToken symbols sourceName p text token symbols' q)
    (hkind : token.kind = .string symbol) :
    ∃ gap x rest contents fs, text = gap ++ (x ++ rest) ∧ Gap gap (x ++ rest) ∧
      token.position = p.after gap ∧
      Reads token.position (x ++ rest) ⟨some (.string contents), x, rest, fs⟩ ∧
      symbols.tryIntern contents = .ok (symbol, symbols') := by
  cases h with
  | finish _ => cases hkind
  | @token gap x rest l fs hgap ho hfits =>
    cases l with
    | string contents =>
      cases hkind
      exact ⟨gap, x, rest, contents, fs, rfl, hgap, rfl, ho,
        SymbolTable.tryIntern_of_admits (Lexeme.fits_string_iff.1 hfits)⟩
    | _ => cases hkind

namespace Scan

/-- What a scanner yields over a text that is taken apart is the token that stands first in it. -/
theorem firstToken_of_lexes {σ δ : Type} [ByteStream σ] [Receiver δ] [Receptive δ]
    {p : Position} {text : List UInt8} {items : List Item} {fs : List Finding}
    (hlexes : Lexes p text items fs) {s s' : Scanner σ δ} {token : Token}
    (h : s.view.Shows text) (hp : s.view.position = p) (hnext : nextToken s = .ok token s') :
    FirstToken s.symbols s.sourceName p text token s'.symbols s'.position := by
  induction hlexes generalizing s with
  | @finish p gap hgap =>
    subst hp
    obtain ⟨s₁, hs₁, h₁⟩ := nextToken_of_blanks h hgap
    cases hnext.symm.trans hs₁
    rw [h₁.symbols_eq, Scanner.position, h₁.position_eq]
    exact .finish (.of_blanks hgap [])
  | @token p gap x rest l items fs gs hgap ho _ _ =>
    subst hp
    -- A string for which there is no room would have made the call fail.
    by_cases hfits : l.Fits s.symbols
    · obtain ⟨s₁, hs₁, h₁⟩ := nextToken_of_reads_some h hgap ho hfits
      cases hnext.symm.trans hs₁
      show FirstToken _ _ _ _ _ (l.enter s₁.symbols) s₁.view.position
      rw [h₁.symbols_eq, h₁.position_eq]
      exact .token (.of_blanks hgap _) ho hfits
    · obtain ⟨s₁, hs₁, -⟩ := nextToken_of_reads_some_of_not_fits h hgap ho hfits
      cases hnext.symm.trans hs₁
  | @skip p gap x rest items fs gs hgap ho _ ih =>
    subst hp
    obtain ⟨s₁, hs₁, h₁⟩ := nextToken_of_reads_none h hgap ho
    have hfirst := ih h₁.shows h₁.position_eq (hs₁.symm.trans hnext)
    rw [h₁.symbols_eq, h₁.sourceName_eq] at hfirst
    rw [← List.append_assoc]
    exact hfirst.skip (.append (.of_blanks hgap _) (.of_trivia ho.trivia))

end Scan

/-! ### Scanners over what a stream offers -/

section

variable (σ δ : Type) [ByteStream σ] [Receiver δ]

/-- A scanner of any stream, with any receiver, imitates one over the bytes that the stream offers.
Nothing is said of what comes of a failure. -/
def Imitation.foreseen : Imitation σ SourceText δ Recorder where
  streams f g := ∃ bytes, f.Offers bytes ∧ g.Holds bytes
  receivers _ _ := True
  broken _ _ _ := True
  pull := by
    rintro f g ⟨bytes, hf, hg⟩
    obtain ⟨g', hpull, hg'⟩ := hg.pull
    rw [hpull]
    unfold Feed.Offers at hf
    by_cases hexhausted : f.exhausted
    · -- Either feed goes on giving NULs.
      rw [if_pos hexhausted] at hf
      subst hf
      rw [Feed.pull, if_pos hexhausted]
      exact .agree ⟨[], by rw [Feed.Offers, if_pos hexhausted], hg'⟩
    · rw [if_neg hexhausted] at hf
      rw [Feed.pull, if_neg hexhausted]
      cases hf with
      | finish hp =>
        rw [hp]
        exact .agree ⟨[], rfl, hg'⟩
      | failure hp =>
        rw [hp]
        exact .cut fun _ _ _ _ => trivial
      | @byte _ s' b bytes hp hbytes =>
        rw [hp]
        exact .agree ⟨bytes, by rwa [Feed.Offers, if_neg hexhausted], hg'⟩
  report := by
    intro d r q _
    cases Receiver.report d r with
    | ok _ _ => exact .agree trivial
    | error _ _ => exact .cut trivial
  broken_report := fun _ _ _ _ _ => trivial

variable {σ δ}

/-- There is such a scanner for every state, also for one that a failure has left. -/
theorem Imitation.exists_relates_of_offers {s : Scanner σ δ} {text : List UInt8}
    (h : s.view.Offers text) :
    ∃ t : Scanner SourceText Recorder, t.view.Shows text ∧ (foreseen σ δ).Relates s t := by
  obtain ⟨bytes, hbytes, rfl⟩ := h
  have hholds : Feed.Holds ({ stream := ⟨bytes⟩ } : Feed SourceText) bytes :=
    SourceText.delivers bytes
  let view : Lookahead SourceText :=
    ⟨{ stream := ⟨bytes⟩ }, s.view.current, s.view.next, s.view.afterNext, s.view.position⟩
  exact ⟨⟨view, {}, s.symbols, s.sourceName, s.finished⟩, ⟨bytes, hholds, rfl⟩,
    ⟨⟨bytes, hbytes, hholds⟩, rfl, rfl, rfl, rfl⟩, trivial, rfl, rfl, rfl⟩

/-- A token that is yielded stands first in the text that was offered, whatever stream and receiver
the scanner has and whatever has come of them before. -/
theorem Scan.firstToken_of_nextToken {s s' : Scanner σ δ} {token : Token} {text : List UInt8}
    (h : nextToken s = .ok token s') (htext : s.view.Offers text) :
    FirstToken s.symbols s.sourceName s.position text token s'.symbols s'.position := by
  obtain ⟨t, hshows, hrelates⟩ := Imitation.exists_relates_of_offers htext
  obtain ⟨items, fs, hlexes⟩ := exists_lexes t.view.position text
  -- The call has not failed, so the other scanner has made the same token of the same text.
  have hfollows := uniform_nextToken.follows (Imitation.foreseen σ δ) hrelates
  rw [h] at hfollows
  generalize ht : nextToken t = r at hfollows
  cases hfollows with
  | @agree _ _ t' hrelates' =>
    have hfirst := firstToken_of_lexes hlexes hshows rfl ht
    have hposition : s'.position = t'.position := hrelates'.view.position_eq
    have hstart : s.position = t.view.position := hrelates.view.position_eq
    rw [hrelates.symbols_eq, hrelates.sourceName_eq, hrelates'.symbols_eq, hposition, hstart]
    exact hfirst

end

end CinderFront
