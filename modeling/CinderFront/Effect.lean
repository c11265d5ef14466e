/-!
# Actions that may fail

The reading and writing parts of the library are actions on a state that may fail, and that leave a
state behind in either case: what was consumed before a failure stays consumed.

* `IoError` — why a byte could not be read or a text not be written;
* `EStateM.Result.after` — the state that an action leaves;
* `EStateM.Keeps` — an action never raises a given measure of the state, whatever its outcome; this
  is what the termination of the reading loops rests on.
-/

namespace CinderFront

/-- Why a byte could not be read or a text not be written, in the words of the transport. -/
structure IoError where
  message : String
  deriving DecidableEq, Repr

end CinderFront

namespace EStateM

variable {ε σ α β : Type}

/-- The state that an action leaves, whether it succeeded or failed. -/
def Result.after : EStateM.Result ε σ α → σ
  | .ok _ s => s
  | .error _ s => s

@[simp] theorem Result.after_ok (a : α) (s : σ) :
    (EStateM.Result.ok a s : EStateM.Result ε σ α).after = s := rfl

@[simp] theorem Result.after_error (e : ε) (s : σ) :
    (EStateM.Result.error e s : EStateM.Result ε σ α).after = s := rfl

/-! ### Sequences of actions -/

theorem bind_of_ok {act : EStateM ε σ α} {f : α → EStateM ε σ β} {s s' : σ} {a : α}
    (h : act s = .ok a s') : (act >>= f) s = f a s' := by
  simp [bind, EStateM.bind, h]

theorem bind_of_error {act : EStateM ε σ α} {f : α → EStateM ε σ β} {s s' : σ} {e : ε}
    (h : act s = .error e s') : (act >>= f) s = .error e s' := by
  simp [bind, EStateM.bind, h]

theorem after_map (f : α → β) (act : EStateM ε σ α) (s : σ) :
    ((f <$> act) s).after = (act s).after := by
  cases h : act s <;> simp [Functor.map, EStateM.map, h]

/-! ### Measures of the state -/

/-- The action never raises the measure of the state. -/
def Keeps (measure : σ → Nat) (act : EStateM ε σ α) : Prop :=
  ∀ s, measure (act s).after ≤ measure s

theorem Keeps.pure (measure : σ → Nat) (a : α) :
    Keeps measure (Pure.pure a : EStateM ε σ α) :=
  fun _ => Nat.le_refl _

theorem Keeps.bind {measure : σ → Nat} {act : EStateM ε σ α} {f : α → EStateM ε σ β}
    (hact : Keeps measure act) (hf : ∀ a, Keeps measure (f a)) : Keeps measure (act >>= f) := by
  intro s
  have hs := hact s
  cases h : act s with
  | ok a s' =>
    rw [bind_of_ok h]
    exact Nat.le_trans (hf a s') (by simpa [h] using hs)
  | error e s' =>
    rw [bind_of_error h]
    simpa [h] using hs

theorem Keeps.map {measure : σ → Nat} {act : EStateM ε σ α} (f : α → β)
    (hact : Keeps measure act) : Keeps measure (f <$> act) := by
  intro s
  rw [after_map]
  exact hact s

theorem Keeps.forM {measure : σ → Nat} {f : α → EStateM ε σ PUnit}
    (hf : ∀ a, Keeps measure (f a)) (as : List α) : Keeps measure (as.forM f) := by
  induction as with
  | nil => exact Keeps.pure measure PUnit.unit
  | cons a as ih => exact Keeps.bind (hf a) fun _ => ih

/-- If the first action lowers the measure and the rest keeps it, the sequence lowers it. -/
theorem after_bind_lt {measure : σ → Nat} {act : EStateM ε σ α} {f : α → EStateM ε σ β} {s : σ}
    (hact : measure (act s).after < measure s) (hf : ∀ a, Keeps measure (f a)) :
    measure ((act >>= f) s).after < measure s := by
  cases h : act s with
  | ok a s' =>
    rw [bind_of_ok h]
    exact Nat.lt_of_le_of_lt (hf a s') (by simpa [h] using hact)
  | error e s' =>
    rw [bind_of_error h]
    simpa [h] using hact

end EStateM
