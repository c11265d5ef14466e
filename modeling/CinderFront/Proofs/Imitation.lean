import CinderFront.Proofs.Step

/-!
# Two scanners side by side

One scanner reads a stream or feeds a receiver that may break off, and another does the same work
with better ones. As long as nothing breaks, the two go through the same states, and if the tables
have no number left for a string, both fail for that. When the first breaks off, the second goes on,
and what holds between the two at that moment must be such that no later step of the second undoes
it.

* `EStateM.Result.Follows` — one result follows another: they succeed or fail alike, or the first is
  cut off;
* `Imitation` — two streams and two receivers that stand in such a relation, step by step;
* `Imitation.Relates`, `Imitation.Cut` — how the two scanners stand while they agree, and how they
  stand once the first has broken off, whatever the second does then.
-/

namespace EStateM

variable {ε σ τ α β : Type} {R : σ → τ → Prop} {C : ε → σ → τ → Prop}

/-- The first result follows the second: both succeed or fail alike, or the first fails and its
state stands in the relation `C` to what the second leaves. -/
inductive Result.Follows (R : σ → τ → Prop) (C : ε → σ → τ → Prop) :
    Result ε σ α → Result ε τ α → Prop
  | agree {a : α} {s : σ} {t : τ} : R s t → Follows R C (.ok a s) (.ok a t)
  | fail {e : ε} {s : σ} {t : τ} : R s t → Follows R C (.error e s) (.error e t)
  | cut {e : ε} {s : σ} {r : Result ε τ α} : C e s r.after → Follows R C (.error e s) r

/-- One action after another. The second of them must not undo what holds when the first is cut
off. -/
theorem Result.Follows.bind {act : EStateM ε σ α} {act' : EStateM ε τ α} {f : α → EStateM ε σ β}
    {f' : α → EStateM ε τ β} {s : σ} {t : τ} (h : (act s).Follows R C (act' t))
    (hf : ∀ {a s' t'}, act s = .ok a s' → R s' t' → (f a s').Follows R C (f' a t'))
    (hC : ∀ {a e s' t'}, C e s' t' → C e s' (f' a t').after) :
    ((act >>= f) s).Follows R C ((act' >>= f') t) := by
  generalize hact : act s = r, hact' : act' t = r' at h
  cases h with
  | agree hR =>
    rw [bind_of_ok hact, bind_of_ok hact']
    exact hf hact hR
  | fail hR =>
    rw [bind_of_error hact, bind_of_error hact']
    exact .fail hR
  | cut h =>
    rw [bind_of_error hact]
    refine .cut ?_
    cases r' with
    | ok a t' =>
      rw [bind_of_ok hact']
      exact hC h
    | error e' t' =>
      rw [bind_of_error hact']
      exact h

end EStateM

namespace CinderFront

open EStateM.Result (Follows)

/-! ### Streams and receivers side by side -/

/-- Streams and receivers of two scanners, of which the first imitates the second. While the streams
and the receivers are related, the first do what the second do, unless they break off. That the
first has broken off with a failure is a relation between the receivers, and no later report to the
second receiver changes it. -/
structure Imitation (σ τ δ ρ : Type) [ByteStream σ] [ByteStream τ] [Receiver δ]
    [Receiver ρ] where
  streams : Feed σ → Feed τ → Prop
  receivers : δ → ρ → Prop
  broken : ScanFailure → δ → ρ → Prop
  pull : ∀ {f : Feed σ} {g : Feed τ}, streams f g →
    f.pull.Follows streams
      (fun e _ _ => ∀ name r q, receivers r q → broken (.io name e) r q) g.pull
  report : ∀ (d : Diagnostic) {r : δ} {q : ρ}, receivers r q →
    (Receiver.report d r).Follows receivers (fun e r q => broken (.refused e) r q)
      (Receiver.report d q)
  broken_report : ∀ (d : Diagnostic) {e : ScanFailure} {r : δ} {q : ρ}, broken e r q →
    broken e r (Receiver.report d q).after

namespace Lookahead

variable {σ : Type} [ByteStream σ] {p : UInt8 → Bool} {v v' : Lookahead σ}

theorem skipWhile_of_shift (hc : v.current ≠ Ascii.nul) (hp : p v.current = true)
    (hv : shift v = .ok () v') : skipWhile p v = skipWhile p v' := by
  rw [skipWhile, dif_neg hc, if_pos hp]
  split
  · next w hw => cases hv.symm.trans hw; rfl
  · next e w hw => cases hv.symm.trans hw

theorem skipWhile_of_shift_error {e : IoError} (hc : v.current ≠ Ascii.nul)
    (hp : p v.current = true) (hv : shift v = .error e v') : skipWhile p v = .error e v' := by
  rw [skipWhile, dif_neg hc, if_pos hp]
  split
  · next w hw => cases hv.symm.trans hw
  · next e w hw => cases hv.symm.trans hw; rfl

end Lookahead

namespace Imitation

variable {σ τ δ ρ : Type} [ByteStream σ] [ByteStream τ] [Receiver δ] [Receiver ρ]
  (I : Imitation σ τ δ ρ)

/-! ### Lookaheads side by side -/

/-- The two lookaheads have the same bytes in view at the same position, and related streams. -/
structure Views (v : Lookahead σ) (w : Lookahead τ) : Prop where
  feed : I.streams v.feed w.feed
  current_eq : v.current = w.current
  next_eq : v.next = w.next
  afterNext_eq : v.afterNext = w.afterNext
  position_eq : v.position = w.position

/-- The failure of a stream breaks off whatever is related. -/
def Severs (e : IoError) : Prop := ∀ name r q, I.receivers r q → I.broken (.io name e) r q

variable {I} {v : Lookahead σ} {w : Lookahead τ}

theorem Views.shift (h : I.Views v w) :
    (Lookahead.shift v).Follows I.Views (fun e _ _ => I.Severs e) (Lookahead.shift w) := by
  unfold Lookahead.shift
  rw [h.current_eq]
  by_cases hc : w.current = Ascii.nul
  · rw [if_pos hc, if_pos hc]
    exact .agree h
  · rw [if_neg hc, if_neg hc]
    have hpull := I.pull h.feed
    generalize v.feed.pull = x, w.feed.pull = y at hpull
    cases hpull with
    | agree hfeed =>
      exact .agree ⟨hfeed, h.next_eq, h.afterNext_eq, rfl, by rw [h.position_eq]⟩
    | fail hfeed =>
      exact .fail ⟨hfeed, h.next_eq, h.afterNext_eq, h.afterNext_eq, h.position_eq⟩
    | cut hcut => exact .cut hcut

theorem Views.advance (n : Nat) (h : I.Views v w) :
    (Lookahead.advance n v).Follows I.Views (fun e _ _ => I.Severs e)
      (Lookahead.advance n w) := by
  induction n generalizing v w with
  | zero => exact .agree h
  | succ n ih => exact h.shift.bind (fun _ h' => ih h') fun hcut => hcut

theorem Views.skipWhile (p : UInt8 → Bool) (h : I.Views v w) :
    (Lookahead.skipWhile p v).Follows I.Views (fun e _ _ => I.Severs e)
      (Lookahead.skipWhile p w) := by
  fun_induction Lookahead.skipWhile p v generalizing w with
  | case1 v hc =>
    rw [h.current_eq] at hc
    rw [Lookahead.skipWhile, dif_pos hc]
    exact .agree h
  | case2 v hc hp u v' hv ih =>
    rw [h.current_eq] at hc hp
    have hshift := h.shift
    rw [hv] at hshift
    generalize hw : Lookahead.shift w = y at hshift
    cases hshift with
    | agree h' =>
      rw [Lookahead.skipWhile_of_shift hc hp hw]
      exact ih h'
  | case3 v hc hp e v' hv =>
    rw [h.current_eq] at hc hp
    have hshift := h.shift
    rw [hv] at hshift
    generalize hw : Lookahead.shift w = y at hshift
    cases hshift with
    | fail h' =>
      rw [Lookahead.skipWhile_of_shift_error hc hp hw]
      exact .fail h'
    | cut hcut => exact .cut hcut
  | case4 v hc hp =>
    rw [h.current_eq] at hc hp
    rw [Lookahead.skipWhile, dif_neg hc, if_neg hp]
    exact .agree h

/-- If the first three bytes come of the first stream, the same come of the second. -/
theorem exists_views_ofStream {stream : σ} {stream' : τ}
    (h : I.streams ⟨stream, false⟩ ⟨stream', false⟩) (hv : Lookahead.ofStream stream = .ok v) :
    ∃ w, Lookahead.ofStream stream' = .ok w ∧ I.Views v w := by
  obtain ⟨f₁, f₂, h₁, h₂, h₃, hposition⟩ := Lookahead.exists_pull_of_ofStream hv
  have agrees : ∀ {f f' : Feed σ} {g : Feed τ} {b : UInt8}, I.streams f g → f.pull = .ok b f' →
      ∃ g', g.pull = .ok b g' ∧ I.streams f' g' := by
    intro f f' g b hstreams hf
    have hpull := I.pull hstreams
    rw [hf] at hpull
    generalize hg : g.pull = r at hpull
    cases hpull with
    | agree h' => exact ⟨_, rfl, h'⟩
  obtain ⟨g₁, hg₁, hstreams₁⟩ := agrees h h₁
  obtain ⟨g₂, hg₂, hstreams₂⟩ := agrees hstreams₁ h₂
  obtain ⟨g₃, hg₃, hstreams₃⟩ := agrees hstreams₂ h₃
  exact ⟨_, Lookahead.ofStream_of_pull hg₁ hg₂ hg₃, hstreams₃, rfl, rfl, rfl, hposition⟩

/-! ### Scanners side by side -/

variable (I)

/-- The two scanners are in the same state, as far as can be told from what they do. -/
structure Relates (s : Scanner σ δ) (t : Scanner τ ρ) : Prop where
  view : I.Views s.view t.view
  receiver : I.receivers s.receiver t.receiver
  symbols_eq : s.symbols = t.symbols
  sourceName_eq : s.sourceName = t.sourceName
  finished_eq : s.finished = t.finished

/-- The first scanner has broken off with the failure `e`; its symbols stand for the same strings in
the second. -/
structure Cut (e : ScanFailure) (s : Scanner σ δ) (t : Scanner τ ρ) : Prop where
  broken : I.broken e s.receiver t.receiver
  lookup?_eq : ∀ {symbol : Symbol} {bytes : List UInt8},
    s.symbols.lookup? symbol = some bytes → t.symbols.lookup? symbol = some bytes

variable {I} {e : ScanFailure} {s : Scanner σ δ} {t t' : Scanner τ ρ}

/-- Scanners at the beginning of related streams, with related receivers, are related. -/
theorem exists_relates_ofStream {stream : σ} {stream' : τ} {sourceName : String}
    {symbols : SymbolTable} {r : δ} {q : ρ} (hstreams : I.streams ⟨stream, false⟩ ⟨stream', false⟩)
    (hreceivers : I.receivers r q)
    (hs : Scanner.ofStream stream sourceName symbols r = .ok s) :
    ∃ t, Scanner.ofStream stream' sourceName symbols q = .ok t ∧ I.Relates s t := by
  obtain ⟨v, hv, rfl⟩ := Scanner.exists_of_ofStream hs
  obtain ⟨w, hw, hviews⟩ := exists_views_ofStream hstreams hv
  exact ⟨_, by rw [Scanner.ofStream, hw], hviews, hreceivers, rfl, rfl, rfl⟩

/-- Whatever the second scanner does after the first has broken off changes nothing between them. -/
theorem Cut.trans_reaches (h : I.Cut e s t) (ht : t.Reaches t') : I.Cut e s t' := by
  refine ⟨?_, fun hs => ht.lookup?_symbols (h.lookup?_eq hs)⟩
  induction ht with
  | refl => exact h.broken
  | tail _ hstep ih =>
    cases hstep with
    | move | intern _ => exact ih
    | report e' p => exact I.broken_report _ ih

end Imitation

end CinderFront
