import Mathlib.Data.List.GetD
import CinderFront.Proofs.Lookahead
import CinderFront.Proofs.Progress

/-!
# A lookahead is a cursor

A lookahead holds three bytes, a position and a stream that may be at its end. Over a stream that
does not fail all of this is determined by one number: how many bytes have been passed. So is how
often the stream has been asked.

* `ByteStream.afterCalls` — the stream after so many calls, whatever it answered;
* `ByteStream.Counts` — a count of the calls of a stream;
* `Position.ofOffset` — line and column of a place in a text, counted in the text itself;
* `Lookahead.StandsAt` — the lookahead that has passed so many bytes of a stream;
* `Lookahead.Move`, `Lookahead.Move.offset` — the moves, and where they take the cursor;
* `Lookahead.StandsAt.shift`, `Lookahead.StandsAt.act`, `Lookahead.StandsAt.perform` — one byte, one
  move, and any sequence of moves;
* `Scanner.FollowsCursor`, `Scanner.exists_followsCursor` — a new lookahead with whatever moves are
  made of it, and a scanner that is asked for tokens, which makes such moves.
-/

namespace CinderFront

/-! ### Calls of a stream -/

section

variable {σ : Type} [ByteStream σ]

/-- The stream after so many calls, whatever it answered. -/
def ByteStream.afterCalls : Nat → σ → σ
  | 0, stream => stream
  | n + 1, stream => afterCalls n (ByteStream.pull stream).after

/-- The number counts the calls of a stream: it is one more after each, whatever the answer. -/
def ByteStream.Counts (calls : σ → Nat) : Prop :=
  ∀ stream, calls (ByteStream.pull stream).after = calls stream + 1

theorem ByteStream.Counts.afterCalls_eq {calls : σ → Nat} (h : Counts calls) (n : Nat)
    (stream : σ) : calls (afterCalls n stream) = calls stream + n := by
  induction n generalizing stream with
  | zero => rfl
  | succ n ih =>
    rw [afterCalls, ih, h stream]
    omega

/-- A script counts its calls. -/
theorem Script.counts_calls : ByteStream.Counts Script.calls := by
  rintro ⟨_ | ⟨answer, answers⟩, calls⟩
  · rfl
  · cases answer <;> rfl

/-- A stream that delivers its bytes answers the calls through the first report of its end. -/
theorem ByteStream.Delivers.pull_afterCalls {stream : σ} {bytes : List UInt8}
    (h : Delivers stream bytes) {n : Nat} (hn : n ≤ bytes.length) :
    ByteStream.pull (afterCalls n stream) = .ok bytes[n]? (afterCalls (n + 1) stream) := by
  induction h generalizing n with
  | @finish s s' hpull =>
    obtain rfl : n = 0 := Nat.le_zero.1 hn
    simp [afterCalls, hpull]
  | @byte s s' b bytes hpull _ ih =>
    cases n with
    | zero => simp [afterCalls, hpull]
    | succ n =>
      have hs' : (ByteStream.pull s).after = s' := by
        rw [hpull]
        rfl
      rw [afterCalls, hs', ih (Nat.le_of_succ_le_succ hn), List.getElem?_cons_succ, afterCalls,
        afterCalls, hs']
      rfl

/-- The feed has been asked for `n` bytes of a stream that delivers `bytes`: it has passed the calls
on to the stream through the first report of the end, and knows whether that was among them. -/
structure Feed.Asked (stream : σ) (bytes : List UInt8) (n : Nat) (f : Feed σ) : Prop where
  stream_eq : f.stream = ByteStream.afterCalls (min n (bytes.length + 1)) stream
  exhausted_eq : f.exhausted = decide (bytes.length < n)

theorem Feed.asked_zero (stream : σ) (bytes : List UInt8) :
    Asked stream bytes 0 ⟨stream, false⟩ where
  stream_eq := by rw [Nat.zero_min]; rfl
  exhausted_eq := by simp

theorem Feed.Asked.pull {stream : σ} {bytes : List UInt8}
    (hstream : ByteStream.Delivers stream bytes) {n : Nat} {f : Feed σ}
    (h : Asked stream bytes n f) :
    ∃ f', Feed.pull f = .ok (bytes.getD n Ascii.nul) f' ∧ Asked stream bytes (n + 1) f' := by
  obtain ⟨s, exhausted⟩ := f
  obtain ⟨rfl, rfl⟩ := h
  by_cases hn : bytes.length < n
  · -- The end has been reported: the stream is not asked again.
    have hmin : min n (bytes.length + 1) = min (n + 1) (bytes.length + 1) := by omega
    have hget : bytes.getD n Ascii.nul = Ascii.nul :=
      List.getD_eq_default _ _ (Nat.le_of_lt hn)
    refine ⟨⟨ByteStream.afterCalls (min n (bytes.length + 1)) stream, true⟩, ?_, ⟨by rw [hmin], ?_⟩⟩
    · simp only [Feed.pull, hn, hget, decide_true, if_true]
    · exact (decide_eq_true (Nat.lt_succ_of_lt hn)).symm
  · have hle : n ≤ bytes.length := Nat.le_of_not_lt hn
    have hmin : min n (bytes.length + 1) = n := by omega
    have hmin' : min (n + 1) (bytes.length + 1) = n + 1 := by omega
    have hpull := hstream.pull_afterCalls hle
    cases hb : bytes[n]? with
    | none =>
      rw [hb] at hpull
      have hlen : bytes.length ≤ n := List.getElem?_eq_none_iff.1 hb
      refine ⟨⟨ByteStream.afterCalls (n + 1) stream, true⟩, ?_, ⟨by rw [hmin'], ?_⟩⟩
      · simp [Feed.pull, hn, hmin, hpull, List.getD_eq_getElem?_getD, hb]
      · exact (decide_eq_true (Nat.lt_succ_of_le hlen)).symm
    | some b =>
      rw [hb] at hpull
      obtain ⟨hlt, -⟩ := List.getElem?_eq_some_iff.1 hb
      refine ⟨⟨ByteStream.afterCalls (n + 1) stream, false⟩, ?_, ⟨by rw [hmin'], ?_⟩⟩
      · simp [Feed.pull, hn, hmin, hpull, List.getD_eq_getElem?_getD, hb]
      · exact (decide_eq_false (Nat.not_lt.2 hlt)).symm

end

/-! ### Places in a text -/

namespace Position

/-- Line and column of the byte with this offset: the line breaks before it, and the bytes between
it and the last of them. -/
def ofOffset (bytes : List UInt8) (k : Nat) : Position where
  line := (bytes.take k).count Ascii.lineFeed + 1
  column := ((bytes.take k).reverse.takeWhile (· != Ascii.lineFeed)).length + 1

/-- The next byte is at the next place. -/
theorem ofOffset_succ {bytes : List UInt8} {k : Nat} (hk : k < bytes.length) :
    ofOffset bytes (k + 1) = (ofOffset bytes k).past (bytes.getD k Ascii.nul) := by
  rw [List.getD_eq_getElem _ _ hk, ofOffset, List.take_succ_eq_append_getElem hk, past]
  generalize bytes[k] = b
  split
  · next hb =>
    subst hb
    simp [ofOffset, nextLine]
  · next hb =>
    simp [ofOffset, nextColumn, hb]

end Position

namespace Ascii

/-- The NUL that ends a text stands at its length, or the text is over there. -/
theorem getD_eq_nul_iff {bytes : List UInt8} {k : Nat} (hk : k ≤ (beforeNul bytes).length) :
    bytes.getD k nul = nul ↔ k = (beforeNul bytes).length := by
  induction bytes generalizing k with
  | nil =>
    obtain rfl : k = 0 := Nat.le_zero.1 hk
    simp [beforeNul]
  | cons b bytes ih =>
    by_cases hb : b = nul
    · subst hb
      obtain rfl : k = 0 := Nat.le_zero.1 hk
      simp
    · rw [beforeNul_cons hb] at hk ⊢
      cases k with
      | zero => simp [hb]
      | succ k =>
        rw [List.length_cons] at hk
        rw [List.getD_cons_succ, ih (Nat.le_of_succ_le_succ hk), List.length_cons,
          Nat.succ_inj]

/-- Up to its end, a text is what its stream delivers. -/
theorem drop_beforeNul {bytes : List UInt8} {k : Nat} (hk : k < (beforeNul bytes).length) :
    (beforeNul bytes).drop k = bytes.getD k nul :: (beforeNul bytes).drop (k + 1) := by
  have hbegin : beforeNul bytes <+: bytes := List.takeWhile_prefix _
  rw [List.drop_eq_getElem_cons hk, hbegin.getElem hk,
    List.getD_eq_getElem _ _ (Nat.lt_of_lt_of_le hk hbegin.length_le)]

theorem length_beforeNul_le (bytes : List UInt8) : (beforeNul bytes).length ≤ bytes.length :=
  (List.takeWhile_prefix _).length_le

end Ascii

/-! ### The cursor -/

namespace Lookahead

variable {σ : Type} [ByteStream σ]

/-- The lookahead has passed the first `k` bytes of a stream that delivers `bytes`. In view are the
three bytes from there, NULs behind the last, and the stream has been asked for these three, but
never behind its end. -/
structure StandsAt (stream : σ) (bytes : List UInt8) (k : Nat) (v : Lookahead σ) : Prop where
  le_length : k ≤ (Ascii.beforeNul bytes).length
  current_eq : v.current = bytes.getD k Ascii.nul
  next_eq : v.next = bytes.getD (k + 1) Ascii.nul
  afterNext_eq : v.afterNext = bytes.getD (k + 2) Ascii.nul
  position_eq : v.position = .ofOffset bytes k
  stream_eq : v.feed.stream = ByteStream.afterCalls (min (k + 3) (bytes.length + 1)) stream
  exhausted_eq : v.feed.exhausted = decide (bytes.length < k + 3)

/-- The ways to move on. Blanks and margins are passed by class. -/
inductive Move
  | advance (n : Nat)
  | skipWhile (p : UInt8 → Bool)

namespace Move

/-- Makes the move. -/
def act : Move → EStateM IoError (Lookahead σ) Unit
  | advance n => Lookahead.advance n
  | skipWhile p => Lookahead.skipWhile p

/-- Where the move takes a cursor at `k`: no further than to the first NUL. -/
def offset (bytes : List UInt8) (k : Nat) : Move → Nat
  | advance n => min (k + n) (Ascii.beforeNul bytes).length
  | skipWhile p => k + (((Ascii.beforeNul bytes).drop k).takeWhile p).length

end Move

/-- Makes the moves one after the other. -/
def perform : List Move → EStateM IoError (Lookahead σ) Unit
  | [] => pure ()
  | move :: moves => do
    move.act
    perform moves

/-- The lookahead at the beginning of a stream has passed nothing. -/
theorem exists_standsAt_zero {stream : σ} {bytes : List UInt8}
    (hstream : ByteStream.Delivers stream bytes) :
    ∃ v, ofStream stream = .ok v ∧ StandsAt stream bytes 0 v := by
  obtain ⟨f₁, hp₁, h₁⟩ := (Feed.asked_zero stream bytes).pull hstream
  obtain ⟨f₂, hp₂, h₂⟩ := h₁.pull hstream
  obtain ⟨f₃, hp₃, h₃⟩ := h₂.pull hstream
  exact ⟨_, ofStream_of_pull hp₁ hp₂ hp₃,
    { le_length := Nat.zero_le _
      current_eq := rfl
      next_eq := rfl
      afterNext_eq := rfl
      position_eq := rfl
      stream_eq := h₃.stream_eq
      exhausted_eq := h₃.exhausted_eq }⟩

namespace StandsAt

variable {stream : σ} {bytes : List UInt8} {k : Nat} {v : Lookahead σ}

theorem asked (h : StandsAt stream bytes k v) : v.feed.Asked stream bytes (k + 3) :=
  ⟨h.stream_eq, h.exhausted_eq⟩

/-- The stream has been asked for what is passed and what is in view, and once for its end. -/
theorem calls_eq (h : StandsAt stream bytes k v) {calls : σ → Nat}
    (hcalls : ByteStream.Counts calls) :
    calls v.feed.stream = calls stream + min (k + 3) (bytes.length + 1) := by
  rw [h.stream_eq, hcalls.afterCalls_eq]

theorem current_eq_nul_iff (h : StandsAt stream bytes k v) :
    v.current = Ascii.nul ↔ k = (Ascii.beforeNul bytes).length := by
  rw [h.current_eq]
  exact Ascii.getD_eq_nul_iff h.le_length

/-! ### One byte -/

theorem shift_of_lt (hstream : ByteStream.Delivers stream bytes) (h : StandsAt stream bytes k v)
    (hk : k < (Ascii.beforeNul bytes).length) :
    ∃ v', Lookahead.shift v = .ok () v' ∧ StandsAt stream bytes (k + 1) v' := by
  have hcurrent : v.current ≠ Ascii.nul := fun hc => Nat.ne_of_lt hk (h.current_eq_nul_iff.1 hc)
  obtain ⟨f, hpull, hf⟩ := h.asked.pull hstream
  refine ⟨⟨f, v.next, v.afterNext, bytes.getD (k + 3) Ascii.nul, v.position.past v.current⟩, ?_,
    { le_length := hk
      current_eq := h.next_eq
      next_eq := h.afterNext_eq
      afterNext_eq := rfl
      position_eq := ?_
      stream_eq := hf.stream_eq
      exhausted_eq := hf.exhausted_eq }⟩
  · simp [Lookahead.shift, hcurrent, hpull]
  · have hlt := Nat.lt_of_lt_of_le hk (Ascii.length_beforeNul_le bytes)
    rw [Position.ofOffset_succ hlt, h.position_eq, h.current_eq]

/-- One move by a byte goes to the next place, or stays at the first NUL. -/
theorem shift (hstream : ByteStream.Delivers stream bytes) (h : StandsAt stream bytes k v) :
    ∃ v', Lookahead.shift v = .ok () v' ∧
      StandsAt stream bytes (min (k + 1) (Ascii.beforeNul bytes).length) v' := by
  by_cases hk : k = (Ascii.beforeNul bytes).length
  · refine ⟨v, ?_, ?_⟩
    · simp [Lookahead.shift, h.current_eq_nul_iff.2 hk]
    · have hmin : min (k + 1) (Ascii.beforeNul bytes).length = k := by omega
      rwa [hmin]
  · have hlt : k < (Ascii.beforeNul bytes).length := Nat.lt_of_le_of_ne h.le_length hk
    have hmin : min (k + 1) (Ascii.beforeNul bytes).length = k + 1 := by omega
    rw [hmin]
    exact h.shift_of_lt hstream hlt

/-! ### Moves -/

theorem advance (hstream : ByteStream.Delivers stream bytes) (h : StandsAt stream bytes k v)
    (n : Nat) :
    ∃ v', Lookahead.advance n v = .ok () v' ∧
      StandsAt stream bytes (min (k + n) (Ascii.beforeNul bytes).length) v' := by
  induction n generalizing k v with
  | zero =>
    refine ⟨v, rfl, ?_⟩
    rwa [Nat.add_zero, Nat.min_eq_left h.le_length]
  | succ n ih =>
    obtain ⟨v₁, hv₁, h₁⟩ := h.shift hstream
    obtain ⟨v₂, hv₂, h₂⟩ := ih h₁
    refine ⟨v₂, ?_, ?_⟩
    · rw [Lookahead.advance, EStateM.bind_of_ok hv₁, hv₂]
    · have hmin : min (min (k + 1) (Ascii.beforeNul bytes).length + n)
          (Ascii.beforeNul bytes).length = min (k + (n + 1)) (Ascii.beforeNul bytes).length := by
        omega
      rwa [hmin] at h₂

theorem skipWhile (hstream : ByteStream.Delivers stream bytes) (h : StandsAt stream bytes k v)
    (p : UInt8 → Bool) :
    ∃ v', Lookahead.skipWhile p v = .ok () v' ∧
      StandsAt stream bytes (k + (((Ascii.beforeNul bytes).drop k).takeWhile p).length) v' := by
  -- The induction is on how far the cursor is from the end of the text.
  induction hd : (Ascii.beforeNul bytes).length - k generalizing k v with
  | zero =>
    have hk : k = (Ascii.beforeNul bytes).length := by
      have hle := h.le_length
      omega
    refine ⟨v, ?_, ?_⟩
    · rw [Lookahead.skipWhile, dif_pos (h.current_eq_nul_iff.2 hk)]
    · rw [List.drop_of_length_le (Nat.le_of_eq hk.symm)]
      exact h
  | succ d ih =>
    have hlt : k < (Ascii.beforeNul bytes).length := by omega
    have hcurrent : v.current ≠ Ascii.nul :=
      fun hc => Nat.ne_of_lt hlt (h.current_eq_nul_iff.1 hc)
    rw [Lookahead.skipWhile, dif_neg hcurrent, Ascii.drop_beforeNul hlt, ← h.current_eq]
    by_cases hp : p v.current
    · obtain ⟨v₁, hv₁, h₁⟩ := h.shift_of_lt hstream hlt
      obtain ⟨v₂, hv₂, h₂⟩ := ih h₁ (by omega)
      refine ⟨v₂, ?_, ?_⟩
      · rw [if_pos hp]
        split
        · next u w hw =>
          rw [hv₁] at hw
          cases hw
          exact hv₂
        · next e w hw =>
          rw [hv₁] at hw
          cases hw
      · rw [List.takeWhile_cons_of_pos hp, List.length_cons]
        rwa [Nat.add_assoc, Nat.add_comm 1] at h₂
    · refine ⟨v, if_neg hp, ?_⟩
      rw [List.takeWhile_cons_of_neg hp]
      exact h

/-- One move takes the cursor where it says. -/
theorem act (hstream : ByteStream.Delivers stream bytes) (h : StandsAt stream bytes k v)
    (move : Move) :
    ∃ v', move.act v = .ok () v' ∧ StandsAt stream bytes (move.offset bytes k) v' := by
  cases move with
  | advance n => exact h.advance hstream n
  | skipWhile p => exact h.skipWhile hstream p

/-- So do any number of moves, one after the other. -/
theorem perform (hstream : ByteStream.Delivers stream bytes) (h : StandsAt stream bytes k v)
    (moves : List Move) :
    ∃ v', Lookahead.perform moves v = .ok () v' ∧
      StandsAt stream bytes (moves.foldl (Move.offset bytes) k) v' := by
  induction moves generalizing k v with
  | nil => exact ⟨v, rfl, h⟩
  | cons move moves ih =>
    obtain ⟨v₁, hv₁, h₁⟩ := h.act hstream move
    obtain ⟨v₂, hv₂, h₂⟩ := ih h₁
    refine ⟨v₂, ?_, h₂⟩
    rw [Lookahead.perform, EStateM.bind_of_ok hv₁, hv₂]

/-- Over such a stream every number of shifts is a sequence of moves, none of which fails. -/
theorem exists_moves_of_shifts (hstream : ByteStream.Delivers stream bytes)
    (h : StandsAt stream bytes k v) {w : Lookahead σ} (hw : Shifts v w) :
    ∃ moves, Lookahead.perform moves v = .ok () w := by
  induction hw using Relation.ReflTransGen.head_induction_on generalizing k with
  | refl => exact ⟨[], rfl⟩
  | @head v v₁ hstep _ ih =>
    obtain ⟨w₁, hw₁, h₁⟩ := h.shift hstream
    obtain rfl : v₁ = w₁ := by rw [hstep, hw₁]; rfl
    obtain ⟨moves, hmoves⟩ := ih h₁
    refine ⟨.advance 1 :: moves, ?_⟩
    have hact : Move.act (.advance 1) v = .ok () v₁ := by
      rw [Move.act, Lookahead.advance, EStateM.bind_of_ok hw₁]
      rfl
    rw [Lookahead.perform, EStateM.bind_of_ok hact, hmoves]

end StandsAt

end Lookahead

/-! ### Scanners -/

section

variable {σ δ : Type} [ByteStream σ] [Receiver δ]

/-- Of the view of a scanner, its steps make no more than shifts. -/
theorem Scanner.Reaches.shifts_view {s t : Scanner σ δ} (h : s.Reaches t) :
    Lookahead.Shifts s.view t.view := by
  induction h with
  | refl => exact .refl
  | tail _ hstep ih =>
    cases hstep with
    | move => exact ih.tail rfl
    | report _ _ | intern _ => exact ih

/-- The scanner begins where the stream of these bytes does. After any sequence of moves its
lookahead stands where they take a cursor, and however often it is asked for the next token, its
lookahead is what such a sequence makes of it. -/
structure Scanner.FollowsCursor (stream : σ) (bytes : List UInt8) (s : Scanner σ δ) : Prop where
  ofStream_eq : Lookahead.ofStream stream = .ok s.view
  moves : ∀ moves, ∃ v, Lookahead.perform moves s.view = .ok () v ∧
    Lookahead.StandsAt stream bytes (moves.foldl (Lookahead.Move.offset bytes) 0) v
  calls : ∀ n, ∃ moves, Lookahead.perform moves s.view = .ok () (Scan.afterCalls n s).view ∧
    Lookahead.StandsAt stream bytes (moves.foldl (Lookahead.Move.offset bytes) 0)
      (Scan.afterCalls n s).view

/-- Over a stream that delivers its bytes a scanner can be made, and all that it ever sees of them
is what a cursor sees. -/
theorem Scanner.exists_followsCursor {stream : σ} {bytes : List UInt8}
    (hstream : ByteStream.Delivers stream bytes) (sourceName : String) (symbols : SymbolTable)
    (receiver : δ) :
    ∃ s : Scanner σ δ, Scanner.ofStream stream sourceName symbols receiver = .ok s ∧
      s.FollowsCursor stream bytes := by
  obtain ⟨v, hv, h⟩ := Lookahead.exists_standsAt_zero hstream
  refine ⟨{ view := v, receiver, symbols, sourceName }, ?_, hv, h.perform hstream, fun n => ?_⟩
  · rw [Scanner.ofStream, hv]
  · generalize hs : ({ view := v, receiver, symbols, sourceName } : Scanner σ δ) = s
    have hview : v = s.view := by rw [← hs]
    rw [hview] at h
    obtain ⟨moves, hmoves⟩ :=
      h.exists_moves_of_shifts hstream (Scan.reaches_afterCalls n s).shifts_view
    obtain ⟨w, hw, hstands⟩ := h.perform hstream moves
    rw [hmoves] at hw
    cases hw
    exact ⟨moves, hmoves, hstands⟩

end

/-- A NUL stands before the end, and the end before another byte. However the lookahead is moved,
the stream has been asked three times, and never for that byte. -/
theorem Scanner.exists_followsCursor_nul :
    ByteStream.Delivers
      (⟨[.byte 'a'.toUInt8, .byte Ascii.nul, .finished, .byte 'b'.toUInt8], 0⟩ : Script)
      ['a'.toUInt8, Ascii.nul] ∧
    ∃ s : Scanner Script Recorder,
      Scanner.ofStream
        (⟨[.byte 'a'.toUInt8, .byte Ascii.nul, .finished, .byte 'b'.toUInt8], 0⟩ : Script) "cursor"
        .new ({} : Recorder) = .ok s ∧
      s.FollowsCursor
        (⟨[.byte 'a'.toUInt8, .byte Ascii.nul, .finished, .byte 'b'.toUInt8], 0⟩ : Script)
        ['a'.toUInt8, Ascii.nul] ∧
      ∀ moves, ∃ v, Lookahead.perform moves s.view = .ok () v ∧ v.feed.stream.calls = 3 := by
  have hstream : ByteStream.Delivers
      (⟨[.byte 'a'.toUInt8, .byte Ascii.nul, .finished, .byte 'b'.toUInt8], 0⟩ : Script)
      ['a'.toUInt8, Ascii.nul] := .byte rfl (.byte rfl (.finish rfl))
  obtain ⟨s, hs, h⟩ := Scanner.exists_followsCursor hstream "cursor" .new ({} : Recorder)
  refine ⟨hstream, s, hs, h, fun moves => ?_⟩
  obtain ⟨v, hv, hstands⟩ := h.moves moves
  refine ⟨v, hv, ?_⟩
  rw [hstands.calls_eq Script.counts_calls]
  simp

end CinderFront
