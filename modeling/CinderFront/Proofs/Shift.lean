import CinderFront.Proofs.Run

/-!
# The same text some lines further down

What the rules say of a text does not depend on the line where the text begins. If it begins `k`
lines further down in the same column, it is taken apart alike, and everything found in it is `k`
lines further down.

* `Position.below` — the position in the same column, so many lines further down;
* `Transition.run_below` — a transition that keeps positions but does not look at them;
* `quotation_below`, `Reads.map_below` — literals, and with them all rules;
* `Lexes.map_below` — whole texts.
-/

namespace CinderFront

/-! ### Positions, and what holds them -/

namespace Position

/-- The position in the same column, `k` lines further down. -/
def below (k : Nat) (p : Position) : Position := ⟨p.line + k, p.column⟩

theorem below_past (k : Nat) (p : Position) (b : UInt8) :
    (p.past b).below k = (p.below k).past b := by
  unfold past
  split
  · simp only [nextLine, below, Nat.add_right_comm]
  · rfl

theorem below_after (k : Nat) (p : Position) (x : List UInt8) :
    (p.after x).below k = (p.below k).after x := by
  induction x generalizing p with
  | nil => rfl
  | cons b x ih => rw [after_cons, after_cons, ih, below_past]

end Position

section

variable (k : Nat)

/-- The finding, `k` lines further down. -/
def Finding.below (f : Finding) : Finding := { f with position := f.position.below k }

/-- The item, `k` lines further down. -/
def Item.below (item : Item) : Item := { item with position := item.position.below k }

/-- The passage with all that is found in it `k` lines further down. -/
def Passage.below {α : Type} (o : Passage α) : Passage α :=
  { o with findings := o.findings.map (Finding.below k) }

/-- The raw literal with its escapes `k` lines further down. -/
def LiteralText.below (raw : LiteralText) : LiteralText :=
  { raw with escapes := raw.escapes.map fun entry => (entry.1, entry.2.below k) }

/-- The literal with its escapes `k` lines further down. -/
def Literal.below (lit : Literal) : Literal := { lit with raw := lit.raw.below k }

/-! ### Transitions -/

/-- A transition that keeps positions, but does not look at them, does the same further down. -/
theorem Transition.run_below {β : Type} {t : Transition β} {move : β → β}
    (hstops : ∀ taken b, t.stops (move taken) b = t.stops taken b)
    (htake : ∀ taken b next p,
      t.take (move taken) b next (p.below k) = move (t.take taken b next p))
    (hcomplaint : ∀ taken b, t.complaint (move taken) b = t.complaint taken b)
    (taken : β) (p : Position) (text : List UInt8) :
    t.run (move taken) (p.below k) text = ((t.run taken p text).map move).below k := by
  induction text generalizing taken p with
  | nil => rfl
  | cons b r ih =>
    cases hstop : t.stops taken b with
    | true =>
      rw [run_cons_of_stops t taken p r hstop,
        run_cons_of_stops t _ _ r ((hstops taken b).trans hstop)]
      rfl
    | false =>
      have hnoted : t.noted (move taken) b (p.below k) =
          (t.noted taken b p).map (Finding.below k) := by
        unfold noted
        rw [hcomplaint]
        cases t.complaint taken b <;> rfl
      rw [run_cons t taken p r hstop, run_cons t _ _ r ((hstops taken b).trans hstop), htake,
        ← Position.below_past, ih, hnoted]
      simp [Passage.append, Passage.below, Passage.map]

namespace Literal

variable (raw : LiteralText) (phase : LiteralPhase) (b next : UInt8) (p : Position)

theorem below_pushBackslash :
    (raw.pushBackslash p).below k = (raw.below k).pushBackslash (p.below k) := by
  simp [LiteralText.below, LiteralText.pushBackslash]

theorem below_content (quote : UInt8) :
    (content quote raw b p).below k = content quote (raw.below k) b (p.below k) := by
  unfold content
  split
  · rfl
  · split
    · rw [← below_pushBackslash]
      rfl
    · rfl

theorem below_lineContent :
    (lineContent raw b next p).below k = lineContent (raw.below k) b next (p.below k) := by
  unfold lineContent
  split
  · rfl
  · split
    · rw [← below_pushBackslash]
      rfl
    · exact below_content k raw b p _

theorem below_take_quoted (quote : UInt8) (lit : Literal) :
    (quoted quote).take (lit.below k) b next (p.below k) =
      ((quoted quote).take lit b next p).below k := by
  obtain ⟨raw, phase⟩ := lit
  cases phase with
  | escaped => rfl
  | content | margin | closed => exact (below_content k raw b p quote).symm

theorem below_take_multiLine (lit : Literal) :
    multiLine.take (lit.below k) b next (p.below k) = (multiLine.take lit b next p).below k := by
  obtain ⟨raw, phase⟩ := lit
  cases phase with
  | escaped => rfl
  | content | closed => exact (below_lineContent k raw b next p).symm
  | margin =>
    show (if Ascii.isIndent b then (⟨raw.below k, .margin⟩ : Literal)
      else if b = Ascii.bar then ⟨raw.below k, .content⟩
      else lineContent (raw.below k) b next (p.below k)) =
        below k (if Ascii.isIndent b then ⟨raw, .margin⟩
          else if b = Ascii.bar then ⟨raw, .content⟩ else lineContent raw b next p)
    split
    · rfl
    · split
      · rfl
      · exact (below_lineContent k raw b next p).symm

/-- Both forms of literals keep positions and do not look at them. -/
structure Movable (t : Transition Literal) : Prop where
  stops_eq : ∀ lit b, t.stops (below k lit) b = t.stops lit b
  take_eq : ∀ lit b next p, t.take (below k lit) b next (p.below k) = below k (t.take lit b next p)
  complaint_eq : ∀ lit b, t.complaint (below k lit) b = t.complaint lit b

theorem movable_quoted (quote : UInt8) : Movable k (quoted quote) :=
  ⟨fun _ _ => rfl, fun lit b next p => below_take_quoted k b next p quote lit, fun _ _ => rfl⟩

theorem movable_multiLine : Movable k multiLine :=
  ⟨fun _ _ => rfl, fun lit b next p => below_take_multiLine k b next p lit, fun _ _ => rfl⟩

end Literal

/-! ### Literals -/

namespace LiteralText

theorem bisect_below (escapes : Array (Nat × Position)) (offset low high : Nat) :
    bisect (escapes.map fun entry => (entry.1, entry.2.below k)) offset low high =
      (bisect escapes offset low high).map (Position.below k) := by
  fun_induction bisect escapes offset low high with
  | case1 low high hlt middle hnone =>
    rw [bisect, dif_pos hlt]
    simp only [middle] at hnone
    simp [hnone]
  | case2 low high hlt middle position hhere =>
    rw [bisect, dif_pos hlt]
    simp only [middle] at hhere
    simp [hhere]
  | case3 low high hlt middle found position hhere hne hless ih =>
    rw [← ih, bisect.eq_def _ _ low high, dif_pos hlt]
    simp only [middle] at hhere ⊢
    simp [hhere, hne, hless]
  | case4 low high hlt middle found position hhere hne hless ih =>
    rw [← ih, bisect.eq_def _ _ low high, dif_pos hlt]
    simp only [middle] at hhere ⊢
    simp [hhere, hne, hless]
  | case5 low high hlt => rw [bisect, dif_neg hlt, Option.map_none]

theorem escapePosition?_below (raw : LiteralText) (offset : Nat) :
    (raw.below k).escapePosition? offset = (raw.escapePosition? offset).map (Position.below k) := by
  rw [escapePosition?, escapePosition?, ← bisect_below, below, Array.size_map]

theorem faults_below (raw : LiteralText) (p : Position) :
    (raw.below k).faults (p.below k) = (raw.faults p).map (Finding.below k) := by
  simp only [faults, List.map_map, escapePosition?_below]
  refine List.map_congr_left fun e _ => ?_
  cases hfound : raw.escapePosition? e.offset <;> simp [hfound, Finding.below]

end LiteralText

/-- A literal is read alike further down. -/
theorem quotation_below {form : Transition Literal} (hform : Literal.Movable k form)
    (unterminated : LexicalError) (opening : List UInt8) (p : Position) (r : List UInt8) :
    quotation form unterminated opening (p.below k) r =
      (quotation form unterminated opening p r).below k := by
  have hrun := Transition.run_below k hform.stops_eq hform.take_eq hform.complaint_eq {}
    (p.after opening) r
  have hempty : Literal.below k {} = {} := by simp [Literal.below, LiteralText.below]
  rw [hempty] at hrun
  have hcontents : ∀ raw : LiteralText, (raw.below k).contents = raw.contents := fun _ => rfl
  have hclosed : ∀ lit : Literal, (lit.below k).isClosed = lit.isClosed := fun _ => rfl
  have hraw : ∀ lit : Literal, (lit.below k).raw = lit.raw.below k := fun _ => rfl
  simp only [quotation, hrun, Passage.below, Passage.map, hraw, hclosed, hcontents,
    LiteralText.faults_below, List.map_append, ← Position.below_after]
  split <;> rfl

/-! ### Rules and texts -/

/-- What stands at the beginning of a text stands there further down. -/
theorem Reads.map_below {p : Position} {text : List UInt8} {o : Passage (Option Lexeme)}
    (h : Reads p text o) : Reads (p.below k) text (o.below k) := by
  have hdouble := Literal.movable_quoted k Ascii.doubleQuote
  have hsingle := Literal.movable_quoted k Ascii.singleQuote
  have hmultiLine := Literal.movable_multiLine k
  cases h with
  | @string r hbar =>
    have h := Reads.string (p := p.below k) hbar
    rwa [quotation_below k hdouble] at h
  | @multiLine r =>
    have h := Reads.multiLine (p := p.below k) (r := r)
    rwa [quotation_below k hmultiLine] at h
  | emptyCharacter ho =>
    have h := Reads.emptyCharacter ((quotation_below k hsingle _ _ p _).trans (by rw [ho]; rfl))
    simpa [Passage.below, Finding.below] using h
  | character ho =>
    exact .character ((quotation_below k hsingle _ _ p _).trans (by rw [ho]; rfl))
  | overlongCharacter ho =>
    have h := Reads.overlongCharacter ((quotation_below k hsingle _ _ p _).trans (by rw [ho]; rfl))
    simpa [Passage.below, Finding.below] using h
  | lineComment => exact .lineComment
  | blockComment hbody => exact .blockComment hbody
  | openComment hbody =>
    have h := Reads.openComment (p := p.below k) hbody
    rwa [← Position.below_after] at h
  | word hb => exact .word hb
  | integer hb hfraction => exact .integer hb hfraction
  | float hb hr hhead => exact .float hb hr hhead
  | mark hm hslash => exact .mark hm hslash
  | unknown hnone hdouble hsingle hword hblank =>
    exact .unknown hnone hdouble hsingle hword hblank

/-- A text is taken apart alike further down. -/
theorem Lexes.map_below {p : Position} {text : List UInt8} {items : List Item} {fs : List Finding}
    (h : Lexes p text items fs) :
    Lexes (p.below k) text (items.map (Item.below k)) (fs.map (Finding.below k)) := by
  induction h with
  | finish hgap => exact .finish hgap
  | token hgap ho _ ih =>
    have ho := ho.map_below k
    rw [Position.below_after] at ho ih
    rw [List.map_append, List.map_cons, Item.below, Position.below_after]
    exact .token hgap ho ih
  | skip hgap ho _ ih =>
    have ho := ho.map_below k
    rw [Position.below_after] at ho ih
    rw [List.map_append]
    exact .skip hgap ho ih

end

end CinderFront
