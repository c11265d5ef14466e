import CinderFront.Proofs.Passage
import CinderFront.Scanner.Transition

/-!
# What each transition passes

A transition is run over a text by recursion on the text; what it passes can mostly be said without
that recursion.

* `Transition.exists_of_mem_findings`, `Transition.pairwise_findings` — every finding of a run is at
  a byte that the run passes, and no two are at the same;
* `run_collect` — a run of one class of bytes is as long as possible;
* `Comment.run_closed`, `Comment.run_open` — a block comment ends with the first end mark, and with
  the text if there is none;
* `Comment.exists_first_endMark` — one of the two is the case.
-/

namespace CinderFront

namespace Transition

variable {β : Type} (t : Transition β)

/-- Every finding of a run is at a byte that the run passes. -/
theorem exists_of_mem_findings {f : Finding} (text : List UInt8) :
    ∀ (taken : β) (p : Position), f ∈ (t.run taken p text).findings →
      ∃ u b v, (t.run taken p text).passed = u ++ b :: v ∧ f.position = p.after u := by
  induction text with
  | nil => intro taken p hf; simp at hf
  | cons b r ih =>
    intro taken p hf
    cases h : t.stops taken b with
    | true => simp [run_cons_of_stops t taken p r h] at hf
    | false =>
      rw [run_cons t taken p r h] at hf ⊢
      rcases List.mem_append.1 hf with hf | hf
      · obtain ⟨e, _, rfl⟩ : ∃ e, t.complaint taken b = some e ∧ ⟨e, p⟩ = f := by
          simpa [noted] using hf
        exact ⟨[], b, _, rfl, rfl⟩
      · obtain ⟨u, c, v, hpassed, hposition⟩ := ih _ _ hf
        refine ⟨b :: u, c, v, ?_, hposition⟩
        exact congrArg (b :: ·) hpassed

/-- The findings of a run are in the order of their places, and no two are at one place. -/
theorem pairwise_findings (text : List UInt8) (taken : β) (p : Position) :
    (t.run taken p text).findings.Pairwise (·.position < ·.position) := by
  induction text generalizing taken p with
  | nil => exact .nil
  | cons b r ih =>
    cases h : t.stops taken b with
    | true => simp [run_cons_of_stops t taken p r h]
    | false =>
      rw [run_cons t taken p r h]
      refine List.pairwise_append.2 ⟨?_, ih _ _, ?_⟩
      · unfold noted
        cases t.complaint taken b <;> simp
      · intro f hf g hg
        obtain ⟨e, _, rfl⟩ : ∃ e, t.complaint taken b = some e ∧ ⟨e, p⟩ = f := by
          simpa [noted] using hf
        obtain ⟨u, _, _, _, hposition⟩ := t.exists_of_mem_findings r _ _ hg
        rw [hposition]
        exact Position.lt_of_lt_of_le (Position.lt_past p b) (Position.le_after _ u)

/-- A transition that complains of nothing finds nothing. -/
theorem findings_eq_nil (h : ∀ taken b, t.complaint taken b = none) (text : List UInt8)
    (taken : β) (p : Position) : (t.run taken p text).findings = [] := by
  induction text generalizing taken p with
  | nil => rfl
  | cons b r ih =>
    cases hs : t.stops taken b with
    | true => simp [run_cons_of_stops t taken p r hs]
    | false =>
      rw [run_cons t taken p r hs]
      simp [Passage.append, noted, h, ih]

end Transition

/-! ### Runs of one class of bytes -/

section

variable {c : UInt8 → Bool} {run rest : List UInt8} (hrun : ∀ b ∈ run, c b = true)
  (hrest : ∀ b ∈ rest.head?, c b = false)

include hrun hrest

theorem takeWhile_run_append : (run ++ rest).takeWhile c = run := by
  rw [List.takeWhile_append_of_pos hrun]
  cases rest with
  | nil => simp
  | cons b r => simp [hrest b rfl]

theorem dropWhile_run_append : (run ++ rest).dropWhile c = rest := by
  rw [List.dropWhile_append_of_pos hrun]
  cases rest with
  | nil => rfl
  | cons b r => simp [hrest b rfl]

end

theorem run_collect (c : UInt8 → Bool) (run : Array UInt8) (p : Position) (text : List UInt8) :
    (collect c).run run p text =
      ⟨run ++ (text.takeWhile c).toArray, text.takeWhile c, text.dropWhile c, []⟩ := by
  induction text generalizing run p with
  | nil => simp
  | cons b r ih =>
    cases hb : c b with
    | true =>
      rw [Transition.run_cons _ _ _ r (by simp [collect, hb]), ih]
      simp [Passage.append, Transition.noted, collect, hb]
    | false =>
      rw [Transition.run_cons_of_stops _ _ _ r (by simp [collect, hb])]
      simp [hb]

/-! ### Block comments -/

namespace Comment

/-- What ends a block comment. -/
abbrev endMark : List UInt8 := [Ascii.asterisk, Ascii.slash]

theorem not_endMark_infix_cons {b : UInt8} {r : List UInt8} (h : ¬ endMark <:+: b :: r) :
    ¬ (b = Ascii.asterisk ∧ r.headD Ascii.nul = Ascii.slash) ∧ ¬ endMark <:+: r := by
  refine ⟨?_, fun hr => h (List.infix_cons hr)⟩
  intro hb
  obtain ⟨rfl, hr⟩ := hb
  cases r with
  | nil => exact absurd hr (by decide)
  | cons c r =>
    obtain rfl : c = Ascii.slash := hr
    exact h (List.prefix_append endMark r).isInfix

/-- Inside a comment, a byte that does not begin the end mark is passed. -/
theorem run_inside_cons {b : UInt8} {r : List UInt8} (p : Position)
    (h : ¬ (b = Ascii.asterisk ∧ r.headD Ascii.nul = Ascii.slash)) :
    transition.run .inside p (b :: r) =
      (⟨(), [b], r, []⟩ : Passage Unit).append (transition.run .inside (p.past b) r) := by
  rw [Transition.run_cons _ _ _ r rfl]
  simp only [transition, take, if_neg h]
  rfl

/-- A text without an end mark is a comment as a whole. -/
theorem run_open {text : List UInt8} (h : ¬ endMark <:+: text) (p : Position) :
    transition.run .inside p text = ⟨.inside, text, [], []⟩ := by
  induction text generalizing p with
  | nil => rfl
  | cons b r ih =>
    obtain ⟨hb, hr⟩ := not_endMark_infix_cons h
    rw [run_inside_cons p hb, ih hr]
    rfl

/-- A comment ends with its first end mark. -/
theorem run_closed {body : List UInt8} (h : ¬ endMark <:+: body) (rest : List UInt8)
    (p : Position) :
    transition.run .inside p (body ++ endMark ++ rest) =
      ⟨.closed, body ++ endMark, rest, []⟩ := by
  induction body generalizing p with
  | nil =>
    have hclosed : ∀ q, transition.run .closed q rest = ⟨.closed, [], rest, []⟩ := by
      intro q
      cases rest with
      | nil => rfl
      | cons b r => exact Transition.run_cons_of_stops _ _ _ r rfl
    rw [List.nil_append, List.cons_append, List.singleton_append,
      Transition.run_cons _ _ _ _ rfl, Transition.run_cons _ _ _ _ rfl]
    simp only [transition, take, List.headD_cons, and_self, if_true] at hclosed ⊢
    rw [hclosed]
    rfl
  | cons b body ih =>
    obtain ⟨hb, hbody⟩ := not_endMark_infix_cons h
    have hb' : ¬ (b = Ascii.asterisk ∧
        (body ++ endMark ++ rest).headD Ascii.nul = Ascii.slash) := by
      cases body with
      | nil =>
        intro hb
        have hslash : Ascii.asterisk = Ascii.slash := hb.2
        exact absurd hslash (by decide)
      | cons c body => exact hb
    rw [List.cons_append, List.cons_append, run_inside_cons p hb', ih hbody]
    rfl

theorem exists_first_endMark (text : List UInt8) :
    (¬ endMark <:+: text) ∨
      ∃ body rest, text = body ++ endMark ++ rest ∧ ¬ endMark <:+: body := by
  induction text with
  | nil => exact .inl (by decide)
  | cons b r ih =>
    by_cases hp : endMark <+: b :: r
    · obtain ⟨rest, hrest⟩ := hp
      exact .inr ⟨[], rest, hrest.symm, by decide⟩
    · rcases ih with h | ⟨body, rest, rfl, h⟩
      · exact .inl fun hi => (List.infix_cons_iff.1 hi).elim hp h
      · refine .inr ⟨b :: body, rest, rfl, fun hi => ?_⟩
        rcases List.infix_cons_iff.1 hi with hi | hi
        · exact hp (by rw [List.append_assoc]; exact hi.trans (List.prefix_append _ _))
        · exact h hi

end Comment

end CinderFront
