import Mathlib.Logic.Relation
import CinderFront.Proofs.SymbolTable
import CinderFront.Scanner.Stream

/-!
# The steps of a scanner

A scanner does three things: it moves, it reports, it interns. Whatever it reads, it goes from one
state to another by such steps, and it fails only if its stream fails, its receiver refuses or its
table has no number left. What no step changes no reading changes, whether it succeeds or not.

* `Lookahead.exists_pull_of_ofStream`, `Lookahead.ofStream_of_pull` — a view of the beginning of a
  stream is three pulls;
* `Scanner.Step`, `Scanner.Reaches` — one step, and any number of them;
* `Scanner.Reaches.sourceName_eq`, `Scanner.Reaches.lookup?_symbols`,
  `Scanner.Reaches.consistent_symbols` — what steps keep;
* `ScanFailure.ArisesIn` — the failures for which a scanner gives cause;
* `Scanner.StepsTo`, `Scan.Stepwise` — an action that goes by steps and fails only for such causes,
  and how such actions are put together.
-/

namespace CinderFront

/-! ### Moves -/

namespace Lookahead

variable {σ : Type} [ByteStream σ]

/-- The lookahead `w` is what any number of moves make of `v`, failed ones included. -/
abbrev Shifts : Lookahead σ → Lookahead σ → Prop :=
  Relation.ReflTransGen fun v w => w = (shift v).after

theorem shifts_shift (v : Lookahead σ) : Shifts v (shift v).after := .single rfl

theorem shifts_advance (n : Nat) (v : Lookahead σ) : Shifts v (advance n v).after := by
  induction n generalizing v with
  | zero => exact .refl
  | succ n ih =>
    have hv := shifts_shift v
    cases h : shift v with
    | ok _ w =>
      rw [advance, EStateM.bind_of_ok h]
      rw [h] at hv
      exact hv.trans (ih w)
    | error e w =>
      rw [advance, EStateM.bind_of_error h]
      rwa [h] at hv

theorem shifts_skipWhile (p : UInt8 → Bool) (v : Lookahead σ) :
    Shifts v (skipWhile p v).after := by
  fun_induction skipWhile p v with
  | case1 v h => exact .refl
  | case2 v h hp u w hw ih =>
    have hv := shifts_shift v
    rw [hw] at hv
    exact hv.trans ih
  | case3 v h hp e w hw =>
    have hv := shifts_shift v
    rwa [hw] at hv
  | case4 v h hp => exact .refl

end Lookahead

/-! ### The beginning of a stream -/

namespace Lookahead

variable {σ : Type} [ByteStream σ]

/-- The first three bytes come of three calls. -/
theorem exists_pull_of_ofStream {stream : σ} {v : Lookahead σ} (h : ofStream stream = .ok v) :
    ∃ f₁ f₂, Feed.pull ⟨stream, false⟩ = .ok v.current f₁ ∧ f₁.pull = .ok v.next f₂ ∧
      f₂.pull = .ok v.afterNext v.feed ∧ v.position = .start := by
  simp only [ofStream] at h
  cases h₁ : Feed.pull ⟨stream, false⟩ with
  | error e f₁ =>
    rw [EStateM.bind_of_error h₁] at h
    cases h
  | ok b₁ f₁ =>
    rw [EStateM.bind_of_ok h₁] at h
    cases h₂ : f₁.pull with
    | error e f₂ =>
      rw [EStateM.bind_of_error h₂] at h
      cases h
    | ok b₂ f₂ =>
      rw [EStateM.bind_of_ok h₂] at h
      cases h₃ : f₂.pull with
      | error e f₃ =>
        rw [EStateM.bind_of_error h₃] at h
        cases h
      | ok b₃ f₃ =>
        rw [EStateM.bind_of_ok h₃] at h
        cases h
        exact ⟨f₁, f₂, rfl, h₂, h₃, rfl⟩

theorem ofStream_of_pull {stream : σ} {f₁ f₂ f₃ : Feed σ} {b₁ b₂ b₃ : UInt8}
    (h₁ : Feed.pull ⟨stream, false⟩ = .ok b₁ f₁) (h₂ : f₁.pull = .ok b₂ f₂)
    (h₃ : f₂.pull = .ok b₃ f₃) : ofStream stream = .ok ⟨f₃, b₁, b₂, b₃, .start⟩ := by
  simp only [ofStream]
  rw [EStateM.bind_of_ok h₁, EStateM.bind_of_ok h₂, EStateM.bind_of_ok h₃]
  rfl

end Lookahead

theorem Scanner.exists_of_ofStream {σ δ : Type} [ByteStream σ] {stream : σ} {sourceName : String}
    {symbols : SymbolTable} {receiver : δ} {s : Scanner σ δ}
    (h : ofStream stream sourceName symbols receiver = .ok s) :
    ∃ view, Lookahead.ofStream stream = .ok view ∧
      s = { view, receiver, symbols, sourceName } := by
  unfold ofStream at h
  split at h
  · next view hv => exact ⟨view, hv, (Except.ok.inj h).symm⟩
  · cases h

/-! ### Steps -/

section

variable {σ δ : Type} [ByteStream σ] [Receiver δ]

/-- One step of a scanner. A move may fail and a report may be refused; what they leave behind is a
step all the same. -/
inductive Scanner.Step : Scanner σ δ → Scanner σ δ → Prop
  | move (s : Scanner σ δ) : Step s { s with view := (Lookahead.shift s.view).after }
  | report (s : Scanner σ δ) (e : LexicalError) (p : Position) :
      Step s { s with
        receiver := (Receiver.report (e.toDiagnostic s.sourceName p) s.receiver).after }
  | intern (s : Scanner σ δ) (bytes : List UInt8) :
      Step s { s with symbols := (s.symbols.intern bytes).2 }

/-- The scanner `t` is what any number of steps make of `s`. -/
abbrev Scanner.Reaches : Scanner σ δ → Scanner σ δ → Prop := Relation.ReflTransGen Scanner.Step

namespace Scanner.Reaches

variable {s t : Scanner σ δ}

theorem sourceName_eq (h : s.Reaches t) : t.sourceName = s.sourceName := by
  induction h with
  | refl => rfl
  | tail _ hstep ih => cases hstep <;> exact ih

theorem finished_eq (h : s.Reaches t) : t.finished = s.finished := by
  induction h with
  | refl => rfl
  | tail _ hstep ih => cases hstep <;> exact ih

/-- A symbol stands for the same string ever after. -/
theorem lookup?_symbols (h : s.Reaches t) {symbol : Symbol} {bytes : List UInt8}
    (hs : s.symbols.lookup? symbol = some bytes) : t.symbols.lookup? symbol = some bytes := by
  induction h with
  | refl => exact hs
  | tail _ hstep ih =>
    cases hstep with
    | move | report _ _ => exact ih
    | intern bytes' => exact SymbolTable.lookup?_intern_of_lookup? ih bytes'

theorem consistent_symbols (h : s.Reaches t) (hs : s.symbols.Consistent) :
    t.symbols.Consistent := by
  induction h with
  | refl => exact hs
  | tail _ hstep ih =>
    cases hstep with
    | move | report _ _ => exact ih
    | intern bytes => exact ih.intern bytes

theorem of_shifts {v : Lookahead σ} (h : Lookahead.Shifts s.view v) :
    s.Reaches { s with view := v } := by
  induction h with
  | refl => exact .refl
  | tail _ hshift ih =>
    subst hshift
    exact ih.tail (.move _)

end Scanner.Reaches

/-- The scanner gives cause for the failure: its source cannot be read, its receiver refuses a
report, or its table has no number left. -/
inductive ScanFailure.ArisesIn (s : Scanner σ δ) : ScanFailure → Prop
  | io (cause : IoError) : ArisesIn s (.io s.sourceName cause)
  | refused (cause : Refusal) : ArisesIn s (.refused cause)
  | capacity : SymbolTable.maxIndex < s.symbols.size → ArisesIn s (.capacity ⟨s.symbols.size⟩)

end

/-! ### Actions that go by steps -/

section

variable {σ δ α β : Type} [ByteStream σ] [Receiver δ]

/-- The result comes of `s` by steps, and if it is a failure, there is cause for it where the steps
have led. -/
inductive Scanner.StepsTo (s : Scanner σ δ) :
    EStateM.Result ScanFailure (Scanner σ δ) α → Prop
  | ok {a : α} {s' : Scanner σ δ} : s.Reaches s' → StepsTo s (.ok a s')
  | error {e : ScanFailure} {s' : Scanner σ δ} : s.Reaches s' → e.ArisesIn s' →
      StepsTo s (.error e s')

namespace Scanner.StepsTo

variable {s s' : Scanner σ δ}

theorem reaches {r : EStateM.Result ScanFailure (Scanner σ δ) α} (h : s.StepsTo r) :
    s.Reaches r.after := by
  cases h with
  | ok h => exact h
  | error h _ => exact h

theorem trans {r : EStateM.Result ScanFailure (Scanner σ δ) α} (hs : s.Reaches s')
    (h : s'.StepsTo r) : s.StepsTo r := by
  cases h with
  | ok h => exact .ok (hs.trans h)
  | error h he => exact .error (hs.trans h) he

theorem bind {act : Scan σ δ α} {f : α → Scan σ δ β} (hact : s.StepsTo (act s))
    (hf : ∀ {a s'}, act s = .ok a s' → s'.StepsTo (f a s')) : s.StepsTo ((act >>= f) s) := by
  generalize h : act s = r at hact
  cases hact with
  | ok hs =>
    rw [EStateM.bind_of_ok h]
    exact (hf h).trans hs
  | error hs he =>
    rw [EStateM.bind_of_error h]
    exact .error hs he

end Scanner.StepsTo

/-- The action goes by steps, and it fails only if there is cause for it. -/
def Scan.Stepwise (act : Scan σ δ α) : Prop := ∀ s : Scanner σ δ, s.StepsTo (act s)

namespace Scan.Stepwise

theorem pure (a : α) : Stepwise (Pure.pure a : Scan σ δ α) := fun _ => .ok .refl

theorem bind {act : Scan σ δ α} {f : α → Scan σ δ β} (hact : Stepwise act)
    (hf : ∀ a, Stepwise (f a)) : Stepwise (act >>= f) :=
  fun s => (hact s).bind fun _ => hf _ _

theorem onView {act : EStateM IoError (Lookahead σ) α}
    (h : ∀ v, Lookahead.Shifts v (act v).after) :
    Stepwise (Scan.onView act : Scan σ δ α) := by
  intro s
  have hs := Scanner.Reaches.of_shifts (h s.view)
  unfold Scan.onView
  cases hact : act s.view with
  | ok a v =>
    rw [hact] at hs
    exact .ok hs
  | error e v =>
    rw [hact] at hs
    exact .error hs (.io e)

theorem report (e : LexicalError) (p : Position) :
    Stepwise (Scan.report e p : Scan σ δ Unit) := by
  intro s
  have hs := Relation.ReflTransGen.single (Scanner.Step.report s e p)
  unfold Scan.report
  cases hreport : Receiver.report (e.toDiagnostic s.sourceName p) s.receiver with
  | ok u r =>
    rw [hreport] at hs
    exact .ok hs
  | error cause r =>
    rw [hreport] at hs
    exact .error hs (.refused cause)

theorem intern (bytes : List UInt8) : Stepwise (Scan.intern bytes : Scan σ δ Symbol) := by
  intro s
  unfold Scan.intern
  rcases s.symbols.tryIntern_cases bytes with h | ⟨hfull, h⟩
  · rw [h]
    exact .ok (.single (.intern s bytes))
  · rw [h]
    exact .error .refl (.capacity hfull)

end Scan.Stepwise

end

end CinderFront
