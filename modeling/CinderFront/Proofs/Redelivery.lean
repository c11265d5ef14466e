import CinderFront.Proofs.Cursor

/-!
# What a failed read leaves in view

A lookahead moves its bytes up before it asks its stream, so a read that fails leaves the last byte
in two places, and the position where it was. Whoever goes on after such a failure sees what he
would see if the stream had not failed but had delivered its last byte once more. This is so for any
number of failures at any places.

* `ByteStream.Answers` — a stream that answers with certain bytes and failures before its end;
* `redelivered` — the same bytes with one more copy of the last for every failure;
* `Lookahead.Attempts` — attempts to move on by a byte, each with the byte that it shifts out and
  whether it succeeds;
* `Lookahead.attempts_afterMoves` — whatever moves are made, such attempts are made;
* `Lookahead.Mirrors` — a lookahead over a stream that fails, and one over the redelivered bytes;
* `Lookahead.Attempts.seen_eq`, `Lookahead.Attempts.position_eq` — what was shifted out and what is
  in view, and where that is;
* `Lookahead.redelivers_of_attempts` — all of it, from the beginning of a stream.
-/

namespace CinderFront

section

variable {σ : Type} [ByteStream σ]

/-! ### Streams that fail and go on -/

/-- The stream answers its calls with these bytes and failures, one after the other, and then with
its end. -/
inductive ByteStream.Answers : σ → List (Except IoError UInt8) → Prop
  | finish {s s' : σ} : ByteStream.pull s = .ok none s' → ByteStream.Answers s []
  | byte {s s' : σ} {b : UInt8} {outcomes : List (Except IoError UInt8)} :
      ByteStream.pull s = .ok (some b) s' → ByteStream.Answers s' outcomes →
      ByteStream.Answers s (.ok b :: outcomes)
  | failure {s s' : σ} {e : IoError} {outcomes : List (Except IoError UInt8)} :
      ByteStream.pull s = .error e s' → ByteStream.Answers s' outcomes →
      ByteStream.Answers s (.error e :: outcomes)

/-- The feed has these outcomes still to come, and NULs ever after. -/
def Feed.Answers (f : Feed σ) (outcomes : List (Except IoError UInt8)) : Prop :=
  if f.exhausted then outcomes = [] else ByteStream.Answers f.stream outcomes

/-- What a call comes to, with these outcomes still to come: the first of them, or else a NUL. -/
def upcoming (outcomes : List (Except IoError UInt8)) : Except IoError UInt8 :=
  outcomes.headD (.ok Ascii.nul)

/-- A call takes the first outcome. -/
theorem Feed.Answers.pull {f : Feed σ} {outcomes : List (Except IoError UInt8)}
    (h : f.Answers outcomes) :
    ∃ f' : Feed σ, f'.Answers outcomes.tail ∧
      f.pull = match upcoming outcomes with
        | .ok b => .ok b f'
        | .error e => .error e f' := by
  unfold Feed.Answers at h
  by_cases hf : f.exhausted
  · rw [if_pos hf] at h
    subst h
    refine ⟨f, ?_, ?_⟩
    · simp [Feed.Answers, hf]
    · simp [Feed.pull, hf, upcoming]
  · rw [if_neg hf] at h
    cases h with
    | @finish _ s' hp =>
      refine ⟨⟨s', true⟩, ?_, ?_⟩
      · simp [Feed.Answers]
      · simp [Feed.pull, hf, hp, upcoming]
    | @byte _ s' b outcomes hp hrest | @failure _ s' e outcomes hp hrest =>
      refine ⟨{ f with stream := s' }, ?_, ?_⟩
      · simpa [Feed.Answers, hf] using hrest
      · simp [Feed.pull, hf, hp, upcoming]

/-- A call that delivers a byte has taken it from the outcomes. -/
theorem Feed.Answers.of_pull_ok {f f' : Feed σ} {b : UInt8}
    {outcomes : List (Except IoError UInt8)} (h : f.Answers outcomes) (hp : f.pull = .ok b f') :
    f'.Answers outcomes.tail ∧ upcoming outcomes = .ok b := by
  obtain ⟨g, hg, hpull⟩ := h.pull
  rw [hp] at hpull
  cases ho : upcoming outcomes with
  | ok c =>
    rw [ho] at hpull
    cases hpull
    exact ⟨hg, rfl⟩
  | error e =>
    rw [ho] at hpull
    cases hpull

/-! ### Bytes delivered once more -/

/-- The byte that takes the last place in view: the one delivered, or else `last` once more. -/
def arriving (last : UInt8) : Except IoError UInt8 → UInt8
  | .ok b => b
  | .error _ => last

/-- The bytes of some outcomes, and for every failure one more copy of the byte before it. Before
the first of them stands `last`. -/
def redeliveredAfter (last : UInt8) : List (Except IoError UInt8) → List UInt8
  | [] => []
  | o :: outcomes => arriving last o :: redeliveredAfter (arriving last o) outcomes

/-- The bytes of some outcomes, and for every failure one more copy of the byte before it. -/
def redelivered (outcomes : List (Except IoError UInt8)) : List UInt8 :=
  redeliveredAfter Ascii.nul outcomes

/-- The bytes of some outcomes alone. -/
def delivered (outcomes : List (Except IoError UInt8)) : List UInt8 :=
  outcomes.filterMap Except.toOption

/-- What the first `n` calls come to, with these outcomes still to come. -/
def asked (outcomes : List (Except IoError UInt8)) : Nat → List (Except IoError UInt8)
  | 0 => []
  | n + 1 => upcoming outcomes :: asked outcomes.tail n

theorem headD_redeliveredAfter (last : UInt8) (outcomes : List (Except IoError UInt8)) :
    (redeliveredAfter last outcomes).headD Ascii.nul = arriving last (upcoming outcomes) := by
  cases outcomes <;> rfl

theorem tail_redeliveredAfter (last : UInt8) (outcomes : List (Except IoError UInt8)) :
    (redeliveredAfter last outcomes).tail =
      redeliveredAfter (arriving last (upcoming outcomes)) outcomes.tail := by
  cases outcomes <;> rfl

/-- No byte is lost, and none changes its place with another. -/
theorem delivered_sublist (last : UInt8) (outcomes : List (Except IoError UInt8)) :
    (delivered outcomes).Sublist (redeliveredAfter last outcomes) := by
  induction outcomes generalizing last with
  | nil => exact List.Sublist.slnil
  | cons o outcomes ih =>
    cases o with
    | ok b => exact (ih b).cons_cons b
    | error e => exact (ih last).cons last

/-- One byte more for each failure. -/
theorem length_redeliveredAfter (last : UInt8) (outcomes : List (Except IoError UInt8)) :
    (redeliveredAfter last outcomes).length =
      (delivered outcomes).length + outcomes.countP (!·.isOk) := by
  induction outcomes generalizing last with
  | nil => rfl
  | cons o outcomes ih =>
    rw [redeliveredAfter, List.length_cons, ih]
    cases o with
    | ok b =>
      show (delivered outcomes).length + outcomes.countP (!·.isOk) + 1 =
        (b :: delivered outcomes).length + (Except.ok b :: outcomes).countP (!·.isOk)
      rw [List.length_cons, List.countP_cons_of_neg (by simp [Except.isOk, Except.toBool])]
      omega
    | error e =>
      show (delivered outcomes).length + outcomes.countP (!·.isOk) + 1 =
        (delivered outcomes).length + (Except.error e :: outcomes).countP (!·.isOk)
      rw [List.countP_cons_of_pos (by simp [Except.isOk, Except.toBool])]
      omega

/-! ### Attempts to move on -/

/-- An attempt to move on by a byte: the byte that is shifted out of view, and whether the stream
did not fail. -/
structure Attempt where
  byte : UInt8
  succeeded : Bool
  deriving DecidableEq, Repr

/-- Where the attempt leads from `p`. Only one that succeeds leads anywhere. -/
def Attempt.moved (p : Position) (a : Attempt) : Position :=
  if a.succeeded then p.past a.byte else p

namespace Lookahead

/-- The attempt that a move by one byte is. -/
def attempt (v : Lookahead σ) : Attempt where
  byte := v.current
  succeeded := match shift v with
    | .ok _ _ => true
    | .error _ _ => false

/-- `Attempts v log w`: the attempts in `log`, one after the other and whatever comes of them, make
`w` of `v`. At the end of the input none is made. -/
inductive Attempts : Lookahead σ → List Attempt → Lookahead σ → Prop
  | refl (v : Lookahead σ) : Attempts v [] v
  | step {v w : Lookahead σ} {log : List Attempt} : v.current ≠ Ascii.nul →
      Attempts (shift v).after log w → Attempts v (v.attempt :: log) w

theorem Attempts.trans {v w x : Lookahead σ} {log log' : List Attempt} (h : Attempts v log w)
    (h' : Attempts w log' x) : Attempts v (log ++ log') x := by
  induction h with
  | refl v => exact h'
  | step hc _ ih => exact .step hc (ih h')

/-- A move by one byte is one attempt, or none at the end of the input. -/
theorem attempts_shift (v : Lookahead σ) : ∃ log, Attempts v log (shift v).after := by
  by_cases hc : v.current = Ascii.nul
  · refine ⟨[], ?_⟩
    rw [shift, if_pos hc]
    exact .refl v
  · exact ⟨[v.attempt], .step hc (.refl _)⟩

/-- Any number of shifts are attempts. -/
theorem Shifts.exists_attempts {v w : Lookahead σ} (h : Shifts v w) : ∃ log, Attempts v log w := by
  induction h with
  | refl => exact ⟨[], .refl v⟩
  | @tail w x _ hstep ih =>
    obtain ⟨log, hlog⟩ := ih
    obtain ⟨log', hlog'⟩ := attempts_shift w
    subst hstep
    exact ⟨log ++ log', hlog.trans hlog'⟩

/-- Makes the moves one after the other, also after one that fails. -/
def afterMoves (moves : List Move) (v : Lookahead σ) : Lookahead σ :=
  moves.foldl (fun v move => (move.act v).after) v

/-- Whatever moves are made, attempts are made. -/
theorem attempts_afterMoves (moves : List Move) (v : Lookahead σ) :
    ∃ log, Attempts v log (afterMoves moves v) := by
  induction moves generalizing v with
  | nil => exact ⟨[], .refl v⟩
  | cons move moves ih =>
    have hshifts : Shifts v (move.act v).after := by
      cases move with
      | advance n => exact shifts_advance n v
      | skipWhile p => exact shifts_skipWhile p v
    obtain ⟨log, hlog⟩ := hshifts.exists_attempts
    obtain ⟨log', hlog'⟩ := ih (move.act v).after
    exact ⟨log ++ log', hlog.trans hlog'⟩

/-! ### One attempt -/

variable {outcomes : List (Except IoError UInt8)}

/-- An attempt shifts the bytes, whatever the stream answers. It succeeds if the stream delivers,
and only then does it count the byte that it shifts out. -/
theorem exists_after_shift {v : Lookahead σ} (hc : v.current ≠ Ascii.nul)
    (h : v.feed.Answers outcomes) :
    v.attempt = ⟨v.current, (upcoming outcomes).isOk⟩ ∧
      ∃ f : Feed σ, f.Answers outcomes.tail ∧
        (shift v).after = ⟨f, v.next, v.afterNext, arriving v.afterNext (upcoming outcomes),
          v.attempt.moved v.position⟩ := by
  obtain ⟨f, hf, hpull⟩ := h.pull
  cases ho : upcoming outcomes with
  | ok b =>
    rw [ho] at hpull
    have hshift : shift v = .ok () ⟨f, v.next, v.afterNext, b, v.position.past v.current⟩ := by
      simp only [shift, if_neg hc, hpull]
    have hattempt : v.attempt = ⟨v.current, true⟩ := by simp only [attempt, hshift]
    refine ⟨hattempt, f, hf, ?_⟩
    rw [hshift, hattempt]
    rfl
  | error e =>
    rw [ho] at hpull
    have hshift : shift v = .error e ⟨f, v.next, v.afterNext, v.afterNext, v.position⟩ := by
      simp only [shift, if_neg hc, hpull]
    have hattempt : v.attempt = ⟨v.current, false⟩ := by simp only [attempt, hshift]
    refine ⟨hattempt, f, hf, ?_⟩
    rw [hshift, hattempt]
    rfl

/-! ### Two lookaheads side by side -/

/-- The lookahead `v` has these outcomes to come. The lookahead `u` has the same bytes in view, and
what it has to come are the bytes of these outcomes, redelivered. -/
structure Mirrors (outcomes : List (Except IoError UInt8)) (v : Lookahead σ)
    (u : Lookahead SourceText) : Prop where
  answers : v.feed.Answers outcomes
  holds : u.feed.Holds (redeliveredAfter v.afterNext outcomes)
  bytes_eq : u.bytes = v.bytes

/-- Where the one attempts a move, the other makes it. -/
theorem Mirrors.shift {v : Lookahead σ} {u : Lookahead SourceText} (h : Mirrors outcomes v u)
    (hc : v.current ≠ Ascii.nul) :
    ∃ u', Lookahead.shift u = .ok () u' ∧
      Mirrors outcomes.tail (Lookahead.shift v).after u' := by
  obtain ⟨-, f, hf, hafter⟩ := exists_after_shift hc h.answers
  obtain ⟨g, hpull, hg⟩ := h.holds.pull
  rw [headD_redeliveredAfter] at hpull
  rw [tail_redeliveredAfter] at hg
  obtain ⟨hcurrent, hrest⟩ := List.cons.inj h.bytes_eq
  obtain ⟨hnext, hrest⟩ := List.cons.inj hrest
  obtain ⟨hafterNext, -⟩ := List.cons.inj hrest
  refine ⟨⟨g, u.next, u.afterNext, arriving v.afterNext (upcoming outcomes),
    u.position.past u.current⟩, ?_, ?_⟩
  · have hc' : u.current ≠ Ascii.nul := by rwa [hcurrent]
    simp only [Lookahead.shift, if_neg hc', hpull]
  · rw [hafter]
    refine ⟨hf, hg, ?_⟩
    show [u.next, u.afterNext, _] = [v.next, v.afterNext, _]
    rw [hnext, hafterNext]

/-- As many moves as attempts lead the other to the same bytes. -/
theorem Mirrors.exists_advance {v w : Lookahead σ} {log : List Attempt} (hlog : Attempts v log w)
    {u : Lookahead SourceText} (h : Mirrors outcomes v u) :
    ∃ u', Lookahead.advance log.length u = .ok () u' ∧ u'.bytes = w.bytes := by
  induction hlog generalizing outcomes u with
  | refl v => exact ⟨u, rfl, h.bytes_eq⟩
  | step hc _ ih =>
    obtain ⟨u₁, hu₁, h₁⟩ := h.shift hc
    obtain ⟨u₂, hu₂, hbytes⟩ := ih h₁
    refine ⟨u₂, ?_, hbytes⟩
    rw [List.length_cons, Lookahead.advance, EStateM.bind_of_ok hu₁, hu₂]

/-! ### What is seen -/

namespace Attempts

variable {v w : Lookahead σ} {log : List Attempt}

/-- What was shifted out and what is in view now are what was in view at first and what has arrived
since. -/
theorem seen_eq (hlog : Attempts v log w) (h : v.feed.Answers outcomes) :
    log.map Attempt.byte ++ w.bytes =
      v.bytes ++ redeliveredAfter v.afterNext (asked outcomes log.length) := by
  induction hlog generalizing outcomes with
  | refl v => exact (List.append_nil _).symm
  | @step v w log hc _ ih =>
    obtain ⟨hattempt, f, hf, hafter⟩ := exists_after_shift hc h
    rw [hafter] at ih
    rw [List.map_cons, List.cons_append, ih hf, hattempt]
    rfl

/-- The attempts that fail are those whose calls fail. -/
theorem succeeded_eq (hlog : Attempts v log w) (h : v.feed.Answers outcomes) :
    log.map Attempt.succeeded = (asked outcomes log.length).map Except.isOk := by
  induction hlog generalizing outcomes with
  | refl v => rfl
  | @step v w log hc _ ih =>
    obtain ⟨hattempt, f, hf, hafter⟩ := exists_after_shift hc h
    rw [hafter] at ih
    rw [List.map_cons, ih hf, hattempt]
    rfl

/-- The position counts the bytes that attempts shifted out which succeeded, and no others. -/
theorem position_eq (hlog : Attempts v log w) (h : v.feed.Answers outcomes) :
    w.position = log.foldl Attempt.moved v.position := by
  induction hlog generalizing outcomes with
  | refl v => rfl
  | @step v w log hc _ ih =>
    obtain ⟨-, f, hf, hafter⟩ := exists_after_shift hc h
    rw [hafter] at ih
    exact ih hf

end Attempts

/-! ### From the beginning of a stream -/

/-- The stream of the lookahead `v`, which is at its beginning, answers with these outcomes. The
attempts in `log` lead from `v` to `w`. -/
structure Redelivers (outcomes : List (Except IoError UInt8)) (v : Lookahead σ)
    (log : List Attempt) (w : Lookahead σ) : Prop where
  /-- In view is what is in view after as many moves over the redelivered bytes, none of which
  fails. -/
  mirrored : ∃ u u', Lookahead.ofStream (⟨redelivered outcomes⟩ : SourceText) = .ok u ∧
    Lookahead.advance log.length u = .ok () u' ∧ u'.bytes = w.bytes
  /-- The byte that an attempt shifts out is counted if the attempt succeeds. -/
  position_eq : w.position = log.foldl Attempt.moved .start
  /-- What has come into view is what the calls so far have come to, redelivered. -/
  seen_eq : log.map Attempt.byte ++ w.bytes = redelivered (asked outcomes (log.length + 3))
  succeeded_eq : log.map Attempt.succeeded =
    ((asked outcomes (log.length + 3)).drop 3).map Except.isOk
  /-- No byte that was delivered is lost, and none changes its place with another. -/
  delivered_sublist : (delivered (asked outcomes (log.length + 3))).Sublist
    (log.map Attempt.byte ++ w.bytes)
  /-- There is one byte too many for each attempt that failed. -/
  length_seen : (log.map Attempt.byte ++ w.bytes).length =
    (delivered (asked outcomes (log.length + 3))).length + log.countP (!·.succeeded)

variable {stream : σ} {v w : Lookahead σ} {log : List Attempt}

/-- The first three calls come to the bytes in view. -/
theorem asked_of_ofStream (hstream : ByteStream.Answers stream outcomes)
    (hv : ofStream stream = .ok v) :
    v.feed.Answers outcomes.tail.tail.tail ∧
      ∀ n, asked outcomes (n + 3) =
        v.bytes.map Except.ok ++ asked outcomes.tail.tail.tail n := by
  obtain ⟨f₁, f₂, h₁, h₂, h₃, -⟩ := exists_pull_of_ofStream hv
  have hstart : Feed.Answers (⟨stream, false⟩ : Feed σ) outcomes := by
    simpa [Feed.Answers] using hstream
  obtain ⟨ha₁, ho₁⟩ := hstart.of_pull_ok h₁
  obtain ⟨ha₂, ho₂⟩ := ha₁.of_pull_ok h₂
  obtain ⟨ha₃, ho₃⟩ := ha₂.of_pull_ok h₃
  refine ⟨ha₃, fun n => ?_⟩
  rw [asked, asked, asked, ho₁, ho₂, ho₃]
  rfl

/-- A lookahead over the redelivered bytes begins with the same bytes in view. -/
theorem exists_mirrors (hstream : ByteStream.Answers stream outcomes)
    (hv : ofStream stream = .ok v) :
    ∃ u, Lookahead.ofStream (⟨redelivered outcomes⟩ : SourceText) = .ok u ∧
      Mirrors outcomes.tail.tail.tail v u := by
  obtain ⟨hanswers, hasked⟩ := asked_of_ofStream hstream hv
  obtain ⟨ho₁, hrest⟩ := List.cons.inj (hasked 0)
  obtain ⟨ho₂, hrest⟩ := List.cons.inj hrest
  obtain ⟨ho₃, -⟩ := List.cons.inj hrest
  have hstart : Feed.Holds (⟨⟨redelivered outcomes⟩, false⟩ : Feed SourceText)
      (redelivered outcomes) := SourceText.delivers _
  obtain ⟨g₁, hg₁, hholds₁⟩ := hstart.pull
  rw [redelivered, headD_redeliveredAfter, ho₁] at hg₁
  rw [redelivered, tail_redeliveredAfter, ho₁] at hholds₁
  obtain ⟨g₂, hg₂, hholds₂⟩ := hholds₁.pull
  rw [headD_redeliveredAfter, ho₂] at hg₂
  rw [tail_redeliveredAfter, ho₂] at hholds₂
  obtain ⟨g₃, hg₃, hholds₃⟩ := hholds₂.pull
  rw [headD_redeliveredAfter, ho₃] at hg₃
  rw [tail_redeliveredAfter, ho₃] at hholds₃
  exact ⟨_, ofStream_of_pull hg₁ hg₂ hg₃, hanswers, hholds₃, rfl⟩

/-- Over a stream that answers with any bytes and failures before its end, whatever moves are made
come to attempts, and whatever attempts are made come to what they would come to if every failure
had been one more copy of the byte before it. -/
theorem redelivers_of_attempts (hstream : ByteStream.Answers stream outcomes)
    (hv : ofStream stream = .ok v) :
    (∀ moves, ∃ log, Attempts v log (afterMoves moves v)) ∧
      ∀ log w, Attempts v log w → Redelivers outcomes v log w := by
  refine ⟨fun moves => attempts_afterMoves moves v, fun log w hlog => ?_⟩
  obtain ⟨hanswers, hasked⟩ := asked_of_ofStream hstream hv
  obtain ⟨-, -, -, -, -, hposition⟩ := exists_pull_of_ofStream hv
  obtain ⟨u, hu, hmirrors⟩ := exists_mirrors hstream hv
  obtain ⟨u', hu', hbytes⟩ := hmirrors.exists_advance hlog
  have hseen : log.map Attempt.byte ++ w.bytes = redelivered (asked outcomes (log.length + 3)) := by
    rw [hlog.seen_eq hanswers, hasked]
    rfl
  have hsucceeded : log.map Attempt.succeeded =
      ((asked outcomes (log.length + 3)).drop 3).map Except.isOk := by
    rw [hlog.succeeded_eq hanswers, hasked]
    rfl
  refine ⟨⟨u, u', hu, hu', hbytes⟩, ?_, hseen, hsucceeded, ?_, ?_⟩
  · rw [hlog.position_eq hanswers, hposition]
  · rw [hseen]
    exact delivered_sublist _ _
  · have hfailed : log.countP (!·.succeeded) =
        (asked outcomes (log.length + 3)).countP (!·.isOk) := by
      -- The calls for the bytes that were in view at first did not fail.
      rw [hasked] at hsucceeded ⊢
      have hmap : (log.map Attempt.succeeded).countP (!·) = _ := congrArg _ hsucceeded
      rw [List.countP_map, List.countP_map] at hmap
      exact hmap
    rw [hseen, redelivered, length_redeliveredAfter, hfailed]

end Lookahead

end

/-- The stream fails twice in a row, with a line break in view each time. The break is passed by the
second attempt, which fails, so the next line is never counted. -/
theorem Lookahead.redelivers_of_attempts_lineBreak :
    ∃ v, ByteStream.Answers
        (⟨[.byte 'a'.toUInt8, .byte Ascii.lineFeed, .byte 'b'.toUInt8, .failure "lost",
          .interruption "again", .byte 'c'.toUInt8, .finished], 0⟩ : Script)
        [.ok 'a'.toUInt8, .ok Ascii.lineFeed, .ok 'b'.toUInt8, .error ⟨"lost"⟩, .error ⟨"again"⟩,
          .ok 'c'.toUInt8] ∧
      ofStream (⟨[.byte 'a'.toUInt8, .byte Ascii.lineFeed, .byte 'b'.toUInt8, .failure "lost",
        .interruption "again", .byte 'c'.toUInt8, .finished], 0⟩ : Script) = .ok v ∧
      (∀ moves, ∃ log, Attempts v log (afterMoves moves v)) ∧
      ∃ w, w = afterMoves [.advance 2, .advance 2, .advance 1] v ∧
        w.bytes = ['b'.toUInt8, 'b'.toUInt8, 'c'.toUInt8] ∧ w.position = ⟨1, 2⟩ ∧
        Redelivers [.ok 'a'.toUInt8, .ok Ascii.lineFeed, .ok 'b'.toUInt8, .error ⟨"lost"⟩,
          .error ⟨"again"⟩, .ok 'c'.toUInt8] v
          [⟨'a'.toUInt8, false⟩, ⟨Ascii.lineFeed, false⟩, ⟨'b'.toUInt8, true⟩] w := by
  have hstream : ByteStream.Answers
      (⟨[.byte 'a'.toUInt8, .byte Ascii.lineFeed, .byte 'b'.toUInt8, .failure "lost",
        .interruption "again", .byte 'c'.toUInt8, .finished], 0⟩ : Script)
      [.ok 'a'.toUInt8, .ok Ascii.lineFeed, .ok 'b'.toUInt8, .error ⟨"lost"⟩, .error ⟨"again"⟩,
        .ok 'c'.toUInt8] :=
    .byte rfl (.byte rfl (.byte rfl (.failure rfl (.failure rfl (.byte rfl (.finish rfl))))))
  obtain ⟨hmoves, hattempts⟩ := Lookahead.redelivers_of_attempts hstream rfl
  refine ⟨_, hstream, rfl, hmoves, _, rfl, rfl, rfl, hattempts _ _ ?_⟩
  exact .step (by decide) (.step (by decide) (.step (by decide) (.refl _)))

end CinderFront
