import CinderFront.ByteStream
import CinderFront.Position

/-!
# Looking ahead in the input

The scanner sees three bytes of the input: the current one and the two after it. Moving on asks the
stream for one more byte. A NUL stands for the end of the input, whether the stream ended or
delivered a NUL; after its end a stream is not asked again.

* `Feed` — a stream that stays at its end;
* `Lookahead.ofStream` — the first three bytes of a stream;
* `Lookahead.shift`, `Lookahead.advance`, `Lookahead.skipWhile` — moving on;
* `Lookahead.ahead` — a bound on how many moves there still are, which every move lowers.
-/

namespace CinderFront

/-! ### Streams that stay at their end -/

/-- A stream, and whether it has reported its end. -/
structure Feed (σ : Type) where
  stream : σ
  exhausted : Bool := false

namespace Feed

variable {σ : Type} [ByteStream σ]

/-- The next byte, or NUL at the end and ever after. -/
def pull : EStateM IoError (Feed σ) UInt8 := fun f =>
  if f.exhausted then .ok Ascii.nul f
  else match ByteStream.pull f.stream with
    | .ok (some b) stream => .ok b { f with stream := stream }
    | .ok none stream => .ok Ascii.nul ⟨stream, true⟩
    | .error e stream => .error e { f with stream := stream }

/-- How many bytes and failures may still come. -/
def pending (f : Feed σ) : Nat := if f.exhausted then 0 else ByteStream.pending f.stream

theorem pending_pull_byte {f f' : Feed σ} {b : UInt8} (hb : b ≠ Ascii.nul)
    (h : pull f = .ok b f') : f'.pending < f.pending := by
  unfold pull at h
  split at h
  · simp_all
  · next hf =>
    split at h
    · next stream hs =>
      simp only [EStateM.Result.ok.injEq] at h
      have := ByteStream.pending_byte hs
      simpa [pending, hf, ← h.2] using this
    · simp_all
    · simp at h

theorem pending_pull_failure {f f' : Feed σ} {e : IoError} (h : pull f = .error e f') :
    f'.pending < f.pending := by
  unfold pull at h
  split at h
  · simp at h
  · next hf =>
    split at h
    · simp at h
    · simp at h
    · next stream hs =>
      simp only [EStateM.Result.error.injEq] at h
      have := ByteStream.pending_failure hs
      simpa [pending, hf, ← h.2] using this

end Feed

/-! ### The three bytes -/

/-- The current byte with its position, and the two bytes after it. -/
structure Lookahead (σ : Type) where
  feed : Feed σ
  current : UInt8
  next : UInt8
  afterNext : UInt8
  position : Position

namespace Lookahead

variable {σ : Type} [ByteStream σ]

/-- The first three bytes of a stream, which is asked for all of them. -/
def ofStream (stream : σ) : Except IoError (Lookahead σ) :=
  let fill : EStateM IoError (Feed σ) (UInt8 × UInt8 × UInt8) := do
    let current ← Feed.pull
    let next ← Feed.pull
    let afterNext ← Feed.pull
    return (current, next, afterNext)
  match fill { stream := stream } with
  | .ok (current, next, afterNext) feed => .ok ⟨feed, current, next, afterNext, .start⟩
  | .error e _ => .error e

/-- The three bytes in view. -/
def bytes (v : Lookahead σ) : List UInt8 := [v.current, v.next, v.afterNext]

/-- Moves on by one byte, and does nothing at the end of the input. The bytes move up before the
stream is asked; if it fails, the last byte stays in both places and the position is the old one. -/
def shift : EStateM IoError (Lookahead σ) Unit := fun v =>
  if v.current = Ascii.nul then .ok () v
  else match v.feed.pull with
    | .ok b feed => .ok () ⟨feed, v.next, v.afterNext, b, v.position.past v.current⟩
    | .error e feed => .error e ⟨feed, v.next, v.afterNext, v.afterNext, v.position⟩

/-- Moves on by `n` bytes, or to the end of the input. -/
def advance : Nat → EStateM IoError (Lookahead σ) Unit
  | 0 => pure ()
  | n + 1 => do
    shift
    advance n

/-! ### The bound on moves -/

/-- A bound on how many moves there still are. -/
def ahead (v : Lookahead σ) : Nat :=
  if v.current = Ascii.nul then 0
  else if v.next = Ascii.nul then 1
  else if v.afterNext = Ascii.nul then 2
  else 3 + v.feed.pending

theorem ahead_eq_zero {v : Lookahead σ} : v.ahead = 0 ↔ v.current = Ascii.nul := by
  unfold ahead
  split
  · simp [*]
  · split
    · simp [*]
    · split <;> simp [*]

/-- A move lowers the bound, also one that fails. -/
theorem ahead_shift_lt {v : Lookahead σ} (h : v.current ≠ Ascii.nul) :
    (shift v).after.ahead < v.ahead := by
  unfold shift
  rw [if_neg h]
  by_cases hn : v.next = Ascii.nul
  · split <;> simp [ahead, h, hn]
  · by_cases ha : v.afterNext = Ascii.nul
    · split <;> simp [ahead, h, hn, ha]
    · split
      · next b feed hp =>
        by_cases hb : b = Ascii.nul
        · simp only [EStateM.Result.after_ok, ahead, h, hn, ha, hb, if_false, if_true]
          omega
        · have := Feed.pending_pull_byte hb hp
          simp only [EStateM.Result.after_ok, ahead, h, hn, ha, hb, if_false]
          omega
      · next e feed hp =>
        have := Feed.pending_pull_failure hp
        simp only [EStateM.Result.after_error, ahead, h, hn, ha, if_false]
        omega

theorem keeps_shift : EStateM.Keeps ahead (shift : EStateM IoError (Lookahead σ) Unit) := by
  intro v
  by_cases h : v.current = Ascii.nul
  · simp [shift, h]
  · exact Nat.le_of_lt (ahead_shift_lt h)

theorem keeps_advance (n : Nat) :
    EStateM.Keeps ahead (advance n : EStateM IoError (Lookahead σ) Unit) := by
  induction n with
  | zero => exact EStateM.Keeps.pure ahead ()
  | succ n ih => exact EStateM.Keeps.bind keeps_shift fun _ => ih

theorem ahead_advance_lt {n : Nat} {v : Lookahead σ} (hn : 0 < n) (h : v.current ≠ Ascii.nul) :
    (advance n v).after.ahead < v.ahead := by
  cases n with
  | zero => exact absurd hn (Nat.lt_irrefl 0)
  | succ n => exact EStateM.after_bind_lt (ahead_shift_lt h) fun _ => keeps_advance n

/-! ### Moving on by class -/

/-- Moves on while the current byte is in the class `p`, but not past the end of the input. -/
def skipWhile (p : UInt8 → Bool) (v : Lookahead σ) : EStateM.Result IoError (Lookahead σ) Unit :=
  if _h : v.current = Ascii.nul then .ok () v
  else if p v.current then
    match _hv : shift v with
    | .ok _ v' => skipWhile p v'
    | .error e v' => .error e v'
  else .ok () v
termination_by v.ahead
decreasing_by
  have := ahead_shift_lt _h
  simpa [_hv] using this

theorem keeps_skipWhile (p : UInt8 → Bool) :
    EStateM.Keeps ahead (skipWhile p : EStateM IoError (Lookahead σ) Unit) := by
  intro v
  fun_induction skipWhile p v with
  | case1 v h => simp
  | case2 v h hp u v' hw ih => exact Nat.le_trans ih (by simpa [hw] using keeps_shift v)
  | case3 v h hp e v' hw => simpa [hw] using keeps_shift v
  | case4 v h hp => simp

end Lookahead

end CinderFront
