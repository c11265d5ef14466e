import CinderFront.Proofs.Lookahead
import CinderFront.Scanner.Basic

/-!
# What scanner actions do to the text

An action of a scanner passes some bytes of the text that is left and reports some findings. A
`Passage` says which, without any scanner: it is a statement about texts and positions alone. Here
the actions of `Scanner/Basic` get their passages, over every stream that delivers its bytes and
every receiver that refuses nothing.

* `Transition.run` — the passage of a transition over a text, by recursion on the text;
* `Scanner.Passes` — how a scanner stands after it has passed a text;
* `Scan.Yields` — an action succeeds with a given passage;
* `Scan.yields_advance`, `Scan.yields_skipWhile`, `Scan.yields_reportHere`, `Scan.yields_absorb` —
  the passages of the actions.
-/

namespace CinderFront

/-! ### Findings and passages -/

/-- An error in the text, and where it is. -/
structure Finding where
  error : LexicalError
  position : Position
  deriving DecidableEq, Repr

/-- The diagnostic that reports the finding. -/
def Finding.toDiagnostic (sourceName : String) (f : Finding) : Diagnostic :=
  f.error.toDiagnostic sourceName f.position

/-- What comes of reading a text: a value, the bytes passed, those left, and what was found. -/
structure Passage (α : Type) where
  value : α
  passed : List UInt8
  rest : List UInt8
  findings : List Finding

/-- One passage after another; what the first has left is what the second begins with. -/
def Passage.append {α β : Type} (o : Passage α) (o' : Passage β) : Passage β :=
  ⟨o'.value, o.passed ++ o'.passed, o'.rest, o.findings ++ o'.findings⟩

/-- The passage with another value. -/
def Passage.map {α β : Type} (f : α → β) (o : Passage α) : Passage β :=
  ⟨f o.value, o.passed, o.rest, o.findings⟩

section

variable {α β : Type} (o : Passage α) (o' : Passage β)

@[simp] theorem Passage.value_append : (o.append o').value = o'.value := rfl

@[simp] theorem Passage.passed_append : (o.append o').passed = o.passed ++ o'.passed := rfl

@[simp] theorem Passage.rest_append : (o.append o').rest = o'.rest := rfl

@[simp] theorem Passage.findings_append :
    (o.append o').findings = o.findings ++ o'.findings := rfl

variable (f : α → β)

@[simp] theorem Passage.value_map : (o.map f).value = f o.value := rfl

@[simp] theorem Passage.passed_map : (o.map f).passed = o.passed := rfl

@[simp] theorem Passage.rest_map : (o.map f).rest = o.rest := rfl

@[simp] theorem Passage.findings_map : (o.map f).findings = o.findings := rfl

end

/-! ### Transitions over a text -/

namespace Transition

variable {β : Type}

/-- What the transition finds at the byte `b`. -/
def noted (t : Transition β) (taken : β) (b : UInt8) (p : Position) : List Finding :=
  ((t.complaint taken b).map fun e => ⟨e, p⟩).toList

/-- The passage of a transition over a text that begins at `p`. -/
def run (t : Transition β) (taken : β) (p : Position) : List UInt8 → Passage β
  | [] => ⟨taken, [], [], []⟩
  | b :: r =>
    if t.stops taken b then ⟨taken, [], b :: r, []⟩
    else
      let o := t.run (t.take taken b (r.headD Ascii.nul) p) (p.past b) r
      ⟨o.value, b :: o.passed, o.rest, t.noted taken b p ++ o.findings⟩

variable (t : Transition β) (taken : β) (p : Position)

@[simp] theorem run_nil : t.run taken p [] = ⟨taken, [], [], []⟩ := rfl

theorem run_cons_of_stops {b : UInt8} (r : List UInt8) (h : t.stops taken b = true) :
    t.run taken p (b :: r) = ⟨taken, [], b :: r, []⟩ := by
  simp [run, h]

theorem run_cons {b : UInt8} (r : List UInt8) (h : t.stops taken b = false) :
    t.run taken p (b :: r) =
      (⟨(), [b], r, t.noted taken b p⟩ : Passage Unit).append
        (t.run (t.take taken b (r.headD Ascii.nul) p) (p.past b) r) := by
  simp [run, h, Passage.append]

theorem passed_append_rest (text : List UInt8) :
    (t.run taken p text).passed ++ (t.run taken p text).rest = text := by
  induction text generalizing taken p with
  | nil => rfl
  | cons b r ih =>
    cases h : t.stops taken b with
    | true => rw [run_cons_of_stops t taken p r h, List.nil_append]
    | false =>
      rw [run_cons t taken p r h]
      exact congrArg (b :: ·) (ih _ _)

/-- A transition passes the whole text, or it stops before the byte that is left. -/
theorem rest_eq_nil_or_stops (text : List UInt8) :
    (t.run taken p text).rest = [] ∨
      ∃ b, t.stops (t.run taken p text).value b = true := by
  induction text generalizing taken p with
  | nil => exact .inl rfl
  | cons b r ih =>
    cases h : t.stops taken b with
    | true =>
      rw [run_cons_of_stops t taken p r h]
      exact .inr ⟨b, h⟩
    | false =>
      rw [run_cons t taken p r h]
      exact ih _ _

end Transition

/-! ### Scanners on their way through a text -/

/-- A receiver that refuses nothing. -/
class Receptive (δ : Type) [Receiver δ] where
  /-- What the receiver makes of a report. -/
  accept : Diagnostic → δ → δ
  report_eq : ∀ (d : Diagnostic) (r : δ), Receiver.report d r = .ok () (accept d r)

instance : Receptive Recorder where
  accept d r := ⟨r.diagnostics.push d⟩
  report_eq _ _ := rfl

/-- What a receiver makes of some findings, reported one after the other. -/
def Receptive.acceptAll {δ : Type} [Receiver δ] [Receptive δ] (sourceName : String)
    (fs : List Finding) (r : δ) : δ :=
  fs.foldl (fun r f => Receptive.accept (f.toDiagnostic sourceName) r) r

theorem Receptive.acceptAll_append {δ : Type} [Receiver δ] [Receptive δ] (sourceName : String)
    (fs gs : List Finding) (r : δ) :
    acceptAll sourceName (fs ++ gs) r = acceptAll sourceName gs (acceptAll sourceName fs r) :=
  List.foldl_append

theorem Receptive.diagnostics_acceptAll (sourceName : String) (fs : List Finding) (r : Recorder) :
    (Receptive.acceptAll sourceName fs r).diagnostics.toList =
      r.diagnostics.toList ++ fs.map (Finding.toDiagnostic sourceName) := by
  induction fs generalizing r with
  | nil => simp [acceptAll]
  | cons f fs ih =>
    rw [acceptAll, List.foldl_cons]
    refine (ih _).trans ?_
    simp [accept]

section Actions

variable {σ δ α β : Type} [ByteStream σ] [Receiver δ] [Receptive δ]

/-- The scanner `s'` is what becomes of `s` when it passes `x`, with `rest` left, and reports `fs`.
Its symbols stay what they were. -/
structure Scanner.Passes (s : Scanner σ δ) (x rest : List UInt8) (fs : List Finding)
    (s' : Scanner σ δ) : Prop where
  shows : s'.view.Shows rest
  position_eq : s'.view.position = s.view.position.after x
  receiver_eq : s'.receiver = Receptive.acceptAll s.sourceName fs s.receiver
  symbols_eq : s'.symbols = s.symbols
  sourceName_eq : s'.sourceName = s.sourceName
  finished_eq : s'.finished = s.finished

theorem Scanner.Passes.trans {s₀ s₁ s₂ : Scanner σ δ} {x y r₁ r₂ : List UInt8}
    {fs gs : List Finding} (h₁ : s₀.Passes x r₁ fs s₁) (h₂ : s₁.Passes y r₂ gs s₂) :
    s₀.Passes (x ++ y) r₂ (fs ++ gs) s₂ where
  shows := h₂.shows
  position_eq := by rw [h₂.position_eq, h₁.position_eq, Position.after_append]
  receiver_eq := by
    rw [h₂.receiver_eq, h₁.receiver_eq, h₁.sourceName_eq, Receptive.acceptAll_append]
  symbols_eq := h₂.symbols_eq.trans h₁.symbols_eq
  sourceName_eq := h₂.sourceName_eq.trans h₁.sourceName_eq
  finished_eq := h₂.finished_eq.trans h₁.finished_eq

namespace Scan

/-- The action succeeds on `s` with the passage `o`. -/
def Yields (act : Scan σ δ α) (s : Scanner σ δ) (o : Passage α) : Prop :=
  ∃ s', act s = .ok o.value s' ∧ s.Passes o.passed o.rest o.findings s'

variable {s : Scanner σ δ} {x r : List UInt8}

theorem yields_pure (a : α) (h : s.view.Shows r) : Yields (pure a) s ⟨a, [], r, []⟩ :=
  ⟨s, rfl, h, rfl, rfl, rfl, rfl, rfl⟩

/-- A last pure step changes the value of a passage and nothing else. -/
theorem Yields.map {act : Scan σ δ α} {o : Passage α} (hact : Yields act s o) (f : α → β) :
    Yields (f <$> act) s (o.map f) := by
  obtain ⟨s', hs', h⟩ := hact
  exact ⟨s', by simp [Functor.map, EStateM.map, hs'], h⟩

theorem yields_onView {act : EStateM IoError (Lookahead σ) α} {a : α} {v : Lookahead σ}
    (hv : act s.view = .ok a v) (h : v.Shows r) (hp : v.position = s.view.position.after x) :
    Yields (onView act) s ⟨a, x, r, []⟩ :=
  ⟨{ s with view := v }, by simp [onView, hv], h, hp, rfl, rfl, rfl, rfl⟩

theorem yields_advance (h : s.view.Shows (x ++ r)) :
    Yields (advance x.length) s ⟨(), x, r, []⟩ := by
  obtain ⟨v, hv, hr, hp⟩ := h.advance
  exact yields_onView hv hr hp

theorem yields_skipWhile (p : UInt8 → Bool) (h : s.view.Shows r) :
    Yields (skipWhile p) s ⟨(), r.takeWhile p, r.dropWhile p, []⟩ := by
  obtain ⟨v, hv, hr, hp⟩ := h.skipWhile p
  exact yields_onView hv hr hp

theorem yields_report (e : LexicalError) (p : Position) (h : s.view.Shows r) :
    Yields (report e p) s ⟨(), [], r, [⟨e, p⟩]⟩ :=
  ⟨{ s with receiver := Receptive.accept (e.toDiagnostic s.sourceName p) s.receiver },
    by simp [report, Receptive.report_eq], h, rfl, rfl, rfl, rfl, rfl⟩

theorem yields_reportHere (e : LexicalError) (h : s.view.Shows r) :
    Yields (reportHere e) s ⟨(), [], r, [⟨e, s.view.position⟩]⟩ :=
  yields_report e s.view.position h

theorem yields_forM_report {γ : Type} (error : γ → LexicalError) (place : γ → Position)
    (l : List γ) (h : s.view.Shows r) :
    Yields (l.forM fun c => report (error c) (place c)) s
      ⟨⟨⟩, [], r, l.map fun c => ⟨error c, place c⟩⟩ := by
  induction l generalizing s with
  | nil => exact yields_pure _ h
  | cons c l ih =>
    obtain ⟨s₁, hs₁, h₁⟩ := yields_report (error c) (place c) h
    obtain ⟨s₂, hs₂, h₂⟩ := ih h₁.shows
    exact ⟨s₂, (EStateM.bind_of_ok hs₁).trans hs₂, h₁.trans h₂⟩

theorem yields_pass {b : UInt8} (complaint : Option LexicalError) (h : s.view.Shows (b :: r)) :
    Yields (pass complaint) s
      ⟨(), [b], r, (complaint.map fun e => ⟨e, s.view.position⟩).toList⟩ := by
  cases complaint with
  | none => exact yields_advance (x := [b]) h
  | some e =>
    obtain ⟨s₁, hs₁, h₁⟩ := yields_reportHere e h
    obtain ⟨s₂, hs₂, h₂⟩ := yields_advance (x := [b]) h₁.shows
    exact ⟨s₂, (EStateM.bind_of_ok hs₁).trans hs₂, h₁.trans h₂⟩

/-- Taking bytes by a transition passes what the transition passes of the text. -/
theorem yields_absorb (t : Transition β) (taken : β) {text : List UInt8}
    (h : s.view.Shows text) : Yields (absorb t taken) s (t.run taken s.view.position text) := by
  induction text generalizing s taken with
  | nil =>
    have hc : s.view.current = Ascii.nul := h.current_eq
    refine ⟨s, ?_, h, rfl, rfl, rfl, rfl, rfl⟩
    rw [absorb]
    simp [hc]
  | cons b r ih =>
    have hc := h.current_ne_nul (List.cons_ne_nil b r)
    have hn : s.view.next = r.headD Ascii.nul := h.next_eq
    obtain rfl : s.view.current = b := h.current_eq
    cases hstop : t.stops taken s.view.current with
    | true =>
      rw [Transition.run_cons_of_stops t taken _ r hstop]
      refine ⟨s, ?_, h, rfl, rfl, rfl, rfl, rfl⟩
      rw [absorb]
      simp [hstop]
    | false =>
      rw [Transition.run_cons t taken _ r hstop]
      obtain ⟨s₁, hs₁, h₁⟩ := yields_pass (t.complaint taken s.view.current) h
      have hp : s₁.view.position = s.view.position.past s.view.current := h₁.position_eq
      obtain ⟨s₂, hs₂, h₂⟩ :=
        ih (t.take taken s.view.current (r.headD Ascii.nul) s.view.position) h₁.shows
      rw [hp] at hs₂ h₂
      refine ⟨s₂, ?_, h₁.trans h₂⟩
      rw [absorb]
      simp only [hc, hstop, hn, dite_false, Bool.false_eq_true, if_false]
      split
      · next u s' hs' =>
        cases hs₁.symm.trans hs'
        exact hs₂
      · next e s' hs' => cases hs₁.symm.trans hs'

end Scan

end Actions

end CinderFront
