import Mathlib.Data.List.TakeWhile
import CinderFront.Lookahead
import CinderFront.Proofs.Position

/-!
# What a lookahead shows

A scanner never holds the text that is left to it: it holds three bytes and a stream. This module
says which text that is, for every stream that delivers its bytes without a failure, and what moving
on does to it.

* `Ascii.beforeNul` — a text up to its first NUL, which is all of it that is ever read;
* `ByteStream.Delivers` — a stream that delivers certain bytes and then its end;
* `Lookahead.Shows` — the text that is left to a lookahead, its current byte first;
* `Lookahead.Shows.shift`, `Lookahead.Shows.advance`, `Lookahead.Shows.skipWhile` — a move takes the
  bytes it passes off the front of the text, and it never fails;
* `Lookahead.Shows.isPrefix_bytes_iff` — a spelling of at most three bytes begins the text exactly
  if it begins the bytes in view.
-/

namespace CinderFront

namespace Ascii

/-- A text up to its first NUL. -/
def beforeNul (text : List UInt8) : List UInt8 := text.takeWhile (· != nul)

@[simp] theorem beforeNul_nul (text : List UInt8) : beforeNul (nul :: text) = [] := rfl

theorem beforeNul_cons {b : UInt8} (hb : b ≠ nul) (text : List UInt8) :
    beforeNul (b :: text) = b :: beforeNul text := by
  simp [beforeNul, hb]

/-- What follows a NUL does not count. -/
theorem beforeNul_append_nul (text more : List UInt8) :
    beforeNul (text ++ nul :: more) = beforeNul text := by
  induction text with
  | nil => rfl
  | cons b text ih =>
    by_cases hb : b = nul
    · rw [hb]
      rfl
    · rw [List.cons_append, beforeNul_cons hb, beforeNul_cons hb, ih]

theorem ne_nul_of_mem_beforeNul {b : UInt8} {text : List UInt8} (h : b ∈ beforeNul text) :
    b ≠ nul := by
  simpa using List.mem_takeWhile_imp h

theorem beforeNul_eq_self {text : List UInt8} (h : nul ∉ text) : beforeNul text = text := by
  rw [beforeNul, List.takeWhile_eq_self_iff]
  intro b hb
  have : b ≠ nul := fun he => h (he ▸ hb)
  simpa using this

end Ascii

/-! ### Streams that do not fail -/

section Streams

variable {σ : Type} [ByteStream σ]

/-- The stream delivers these bytes, one on each call, and then its end. -/
inductive ByteStream.Delivers : σ → List UInt8 → Prop
  | finish {s s' : σ} : ByteStream.pull s = .ok none s' → ByteStream.Delivers s []
  | byte {s s' : σ} {b : UInt8} {bytes : List UInt8} :
      ByteStream.pull s = .ok (some b) s' → ByteStream.Delivers s' bytes →
      ByteStream.Delivers s (b :: bytes)

/-- Bytes in memory are delivered as they are. -/
theorem SourceText.delivers (bytes : List UInt8) :
    ByteStream.Delivers (⟨bytes⟩ : SourceText) bytes := by
  induction bytes with
  | nil => exact .finish rfl
  | cons b bytes ih => exact .byte rfl ih

/-- The feed has these bytes still to come, and NULs ever after. -/
def Feed.Holds (f : Feed σ) (bytes : List UInt8) : Prop :=
  if f.exhausted then bytes = [] else ByteStream.Delivers f.stream bytes

theorem Feed.Holds.pull {f : Feed σ} {bytes : List UInt8} (h : f.Holds bytes) :
    ∃ f', Feed.pull f = .ok (bytes.headD Ascii.nul) f' ∧ Feed.Holds f' bytes.tail := by
  unfold Feed.Holds at h
  by_cases he : f.exhausted
  · rw [if_pos he] at h
    subst h
    refine ⟨f, ?_, ?_⟩
    · simp [Feed.pull, he]
    · simp [Feed.Holds, he]
  · rw [if_neg he] at h
    cases h with
    | @finish _ s' hp =>
      refine ⟨⟨s', true⟩, ?_, ?_⟩
      · simp [Feed.pull, he, hp]
      · simp [Feed.Holds]
    | @byte _ s' b bytes hp hrest =>
      refine ⟨{ f with stream := s' }, ?_, ?_⟩
      · simp [Feed.pull, he, hp]
      · simpa [Feed.Holds, he] using hrest

end Streams

/-! ### The text that is left -/

namespace Lookahead

variable {σ : Type} [ByteStream σ]

/-- The text that is left: the bytes in view and those to come, up to the first NUL. -/
def Shows (v : Lookahead σ) (text : List UInt8) : Prop :=
  ∃ bytes, v.feed.Holds bytes ∧ Ascii.beforeNul (v.bytes ++ bytes) = text

/-- The lookahead at the beginning of a stream shows what the stream delivers. -/
theorem exists_ofStream {stream : σ} {bytes : List UInt8} (h : ByteStream.Delivers stream bytes) :
    ∃ v, ofStream stream = .ok v ∧ v.Shows (Ascii.beforeNul bytes) ∧ v.position = .start := by
  have h₀ : Feed.Holds { stream := stream } bytes := by simpa [Feed.Holds] using h
  obtain ⟨f₁, hp₁, h₁⟩ := h₀.pull
  obtain ⟨f₂, hp₂, h₂⟩ := h₁.pull
  obtain ⟨f₃, hp₃, h₃⟩ := h₂.pull
  refine ⟨⟨f₃, bytes.headD Ascii.nul, bytes.tail.headD Ascii.nul,
    bytes.tail.tail.headD Ascii.nul, .start⟩, ?_, ⟨_, h₃, ?_⟩, rfl⟩
  · simp only [ofStream]
    rw [EStateM.bind_of_ok hp₁, EStateM.bind_of_ok hp₂, EStateM.bind_of_ok hp₃]
    rfl
  · -- The NULs that stand for the end do not change the text before the first of them.
    show Ascii.beforeNul (bytes.headD Ascii.nul :: bytes.tail.headD Ascii.nul ::
      bytes.tail.tail.headD Ascii.nul :: bytes.tail.tail.tail) = Ascii.beforeNul bytes
    rcases bytes with _ | ⟨a, _ | ⟨b, _ | ⟨c, rest⟩⟩⟩
    · rfl
    · by_cases ha : a = Ascii.nul <;> simp [Ascii.beforeNul, ha]
    · by_cases ha : a = Ascii.nul <;> by_cases hb : b = Ascii.nul <;>
        simp [Ascii.beforeNul, ha, hb]
    · rfl

namespace Shows

variable {v : Lookahead σ} {text : List UInt8}

theorem ne_nul (h : v.Shows text) {b : UInt8} (hb : b ∈ text) : b ≠ Ascii.nul := by
  obtain ⟨bytes, _, rfl⟩ := h
  exact Ascii.ne_nul_of_mem_beforeNul hb

theorem current_eq (h : v.Shows text) : v.current = text.headD Ascii.nul := by
  obtain ⟨bytes, _, rfl⟩ := h
  by_cases hc : v.current = Ascii.nul
  · simp [Lookahead.bytes, hc]
  · simp [Lookahead.bytes, Ascii.beforeNul_cons hc]

theorem current_ne_nul (h : v.Shows text) (hne : text ≠ []) : v.current ≠ Ascii.nul := by
  cases text with
  | nil => exact absurd rfl hne
  | cons b r =>
    rw [h.current_eq]
    exact h.ne_nul List.mem_cons_self

theorem next_eq {b : UInt8} {r : List UInt8} (h : v.Shows (b :: r)) :
    v.next = r.headD Ascii.nul := by
  have hc := h.current_ne_nul (List.cons_ne_nil b r)
  obtain ⟨bytes, _, ht⟩ := h
  simp only [Lookahead.bytes, List.cons_append, Ascii.beforeNul_cons hc, List.cons.injEq] at ht
  rw [← ht.2]
  by_cases hn : v.next = Ascii.nul
  · simp [hn]
  · simp [Ascii.beforeNul_cons hn]

/-- The byte after the current one, if it is not the end of the text. -/
theorem next_eq_iff {b c : UInt8} {r : List UInt8} (h : v.Shows (b :: r))
    (hc : c ≠ Ascii.nul := by decide) : v.next = c ↔ r.head? = some c := by
  rw [h.next_eq]
  cases r with
  | nil => simp [Ne.symm hc]
  | cons d r => simp

/-- A spelling without NULs, of at most three bytes, begins the text exactly if it begins the bytes
in view. What stands in view behind a NUL does not matter for that. -/
theorem isPrefix_bytes_iff (h : v.Shows text) {w : List UInt8} (hw : ∀ b ∈ w, b ≠ Ascii.nul)
    (hlen : w.length ≤ 3) : w <+: v.bytes ↔ w <+: text := by
  obtain ⟨bytes, _, rfl⟩ := h
  constructor
  · intro hp
    obtain ⟨u, hu⟩ := hp
    refine ⟨Ascii.beforeNul (u ++ bytes), ?_⟩
    have hsplit : Ascii.beforeNul (w ++ (u ++ bytes)) = w ++ Ascii.beforeNul (u ++ bytes) :=
      List.takeWhile_append_of_pos (by simpa using hw)
    rw [← hu, List.append_assoc, hsplit]
  · intro hp
    have hp' : w <+: v.bytes ++ bytes := hp.trans (List.takeWhile_prefix _)
    exact List.prefix_of_prefix_length_le hp' (List.prefix_append _ _) hlen

/-! ### Moving on -/

/-- A move passes the current byte. -/
theorem shift {b : UInt8} {r : List UInt8} (h : v.Shows (b :: r)) :
    ∃ v', Lookahead.shift v = .ok () v' ∧ Shows v' r ∧ v'.position = v.position.past b := by
  have hc := h.current_ne_nul (List.cons_ne_nil b r)
  have hb : v.current = b := h.current_eq
  obtain ⟨bytes, hbytes, ht⟩ := h
  obtain ⟨f, hp, hf⟩ := hbytes.pull
  refine ⟨⟨f, v.next, v.afterNext, bytes.headD Ascii.nul, v.position.past v.current⟩, ?_,
    ⟨bytes.tail, hf, ?_⟩, by rw [hb]⟩
  · simp [Lookahead.shift, hc, hp]
  · simp only [Lookahead.bytes, List.cons_append, Ascii.beforeNul_cons hc, List.cons.injEq] at ht
    rw [← ht.2]
    cases bytes with
    | cons c bytes => rfl
    | nil =>
      show Ascii.beforeNul [v.next, v.afterNext, Ascii.nul] = Ascii.beforeNul [v.next, v.afterNext]
      by_cases hn : v.next = Ascii.nul <;> by_cases ha : v.afterNext = Ascii.nul <;>
        simp [Ascii.beforeNul, hn, ha]

/-- Moving on by the length of a text passes that text. -/
theorem advance {x r : List UInt8} (h : v.Shows (x ++ r)) :
    ∃ v', Lookahead.advance x.length v = .ok () v' ∧ Shows v' r ∧
      v'.position = v.position.after x := by
  induction x generalizing v with
  | nil => exact ⟨v, rfl, h, rfl⟩
  | cons b x ih =>
    obtain ⟨v₁, hv₁, h₁, hp₁⟩ := h.shift
    obtain ⟨v₂, hv₂, h₂, hp₂⟩ := ih h₁
    refine ⟨v₂, ?_, h₂, ?_⟩
    · rw [List.length_cons, Lookahead.advance, EStateM.bind_of_ok hv₁, hv₂]
    · rw [hp₂, hp₁, Position.after_cons]

/-- Moving on by class passes the longest run of bytes of the class. -/
theorem skipWhile (p : UInt8 → Bool) (h : v.Shows text) :
    ∃ v', Lookahead.skipWhile p v = .ok () v' ∧ Shows v' (text.dropWhile p) ∧
      v'.position = v.position.after (text.takeWhile p) := by
  induction text generalizing v with
  | nil =>
    have hc : v.current = Ascii.nul := h.current_eq
    refine ⟨v, ?_, h, rfl⟩
    rw [Lookahead.skipWhile, dif_pos hc]
  | cons b r ih =>
    have hc := h.current_ne_nul (List.cons_ne_nil b r)
    have hb : v.current = b := h.current_eq
    rw [Lookahead.skipWhile, dif_neg hc, hb]
    by_cases hp : p b
    · obtain ⟨v₁, hv₁, h₁, hp₁⟩ := h.shift
      obtain ⟨v₂, hv₂, h₂, hp₂⟩ := ih h₁
      refine ⟨v₂, ?_, ?_, ?_⟩
      · rw [if_pos hp]
        split
        · next v' hv' => rw [hv₁] at hv'; cases hv'; exact hv₂
        · next hv' => rw [hv₁] at hv'; cases hv'
      · rwa [List.dropWhile_cons_of_pos hp]
      · rw [hp₂, hp₁, List.takeWhile_cons_of_pos hp, Position.after_cons]
    · refine ⟨v, if_neg hp, ?_, ?_⟩
      · rwa [List.dropWhile_cons_of_neg hp]
      · rw [List.takeWhile_cons_of_neg hp, Position.after_nil]

end Shows

end Lookahead

end CinderFront
