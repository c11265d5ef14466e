import CinderFront.Proofs.Foresight
import CinderFront.Proofs.Progress

/-!
# The end is for ever

A scanner has two ways to be over. Its view may stand at a NUL, so that every token it is asked for
is the end of the input; and the sequence of its tokens may have come to its end or broken off. Both
are states that no request leaves, in whatever order tokens and the sequence are asked for, and
neither asks anything of the stream or the receiver any more.

* `Scan.Request`, `Scan.afterRequests` — what a scanner may be asked for, and the state that any
  number of requests leaves;
* `Scan.end_of_nextToken` — the end of the input is yielded before a NUL, and only there;
* `Scan.exists_afterRequests_of_nul` — before a NUL, requests change nothing but whether the
  sequence is over;
* `Scan.finished_afterRequests` — once it is over, it stays over;
* `Scan.end_absorbs` — what this comes to for any requests.
-/

namespace CinderFront

/-! ### The end is yielded before a NUL -/

theorem Lookahead.current_of_skipWhile {σ : Type} [ByteStream σ] {p : UInt8 → Bool}
    {v v' : Lookahead σ} {u : Unit} (h : skipWhile p v = .ok u v') :
    v'.current = Ascii.nul ∨ p v'.current = false := by
  fun_induction skipWhile p v with
  | case1 v hc =>
    cases h
    exact .inl hc
  | case2 v hc hp u' w hw ih => exact ih h
  | case3 v hc hp e w hw => cases h
  | case4 v hc hp =>
    cases h
    exact .inr (by simpa using hp)

namespace Scan

variable {σ δ : Type} [ByteStream σ] [Receiver δ] {s s' : Scanner σ δ}

omit [Receiver δ] in
theorem current_of_skipWhile {p : UInt8 → Bool} {u : Unit} (h : skipWhile p s = .ok u s') :
    s'.view.current = Ascii.nul ∨ p s'.view.current = false := by
  unfold skipWhile onView at h
  split at h
  · next v hv =>
    cases h
    exact Lookahead.current_of_skipWhile hv
  · cases h

/-- What is read where no blank stands is made by a rule, so it is not the end of the input. -/
theorem kind_ne_endOfFile_of_lexeme? {kind : Token.Kind} (hc : s.view.current ≠ Ascii.nul)
    (hblank : Ascii.isBlank s.view.current = false) (h : lexeme? s = .ok (some kind) s') :
    kind ≠ .endOfFile := by
  obtain ⟨text, htext⟩ := s.view.exists_offers
  obtain ⟨t, hshows, hrelates⟩ := Imitation.exists_relates_of_offers (δ := δ) htext
  have hcurrent := hrelates.view.current_eq
  cases text with
  | nil => exact absurd (hcurrent.trans hshows.current_eq) hc
  | cons b r =>
    rw [show s.view.current = b from hcurrent.trans hshows.current_eq] at hblank
    obtain ⟨o, ho⟩ := exists_reads r t.view.position hblank
    obtain ⟨t', ht', -⟩ := makes_lexeme? hshows ho
    have hfollows := uniform_lexeme?.follows (Imitation.foreseen σ δ) hrelates
    rw [h, ht'] at hfollows
    generalize hconclude : t'.conclude o.value = r at hfollows
    cases hfollows with
    | agree _ =>
      obtain ⟨l, -, -, rfl, -⟩ := Scanner.exists_of_conclude_eq_ok hconclude
      exact l.kind_ne_endOfFile t'.symbols

/-- Before a NUL the next token is the end, which is at the NUL, and nothing is touched. -/
theorem nextToken_of_nul (hc : s.view.current = Ascii.nul) :
    nextToken s = .ok ⟨.endOfFile, s.sourceName, s.position⟩ s := by
  have hskip : skipWhile Ascii.isBlank s = .ok () s := by
    unfold skipWhile onView
    rw [Lookahead.skipWhile, dif_pos hc]
  rw [nextToken]
  split
  · next e s₁ hb => cases hskip.symm.trans hb
  · next u s₁ hb =>
    cases hskip.symm.trans hb
    rw [dif_pos hc]
    rfl

/-- A call that yields the end leaves the scanner before a NUL, where the end is. -/
theorem end_of_nextToken {token : Token} (h : nextToken s = .ok token s')
    (hend : token.isEnd = true) :
    s'.view.current = Ascii.nul ∧ token = ⟨.endOfFile, s'.sourceName, s'.position⟩ := by
  fun_induction nextToken s with
  | case1 s e s₁ hb => cases h
  | case2 s u s₁ hb token' hc =>
    cases h
    exact ⟨hc, rfl⟩
  | case3 s u s₁ hb hc e s₂ hl => cases h
  | case4 s u s₁ hb token' hc kind s₂ hl =>
    cases h
    have hblank := (current_of_skipWhile hb).resolve_left hc
    exact absurd (eq_of_beq hend) (kind_ne_endOfFile_of_lexeme? hc hblank hl)
  | case5 s u s₁ hb hc s₂ hl ih => exact ih h

/-! ### Requests one after the other -/

/-- What a scanner may be asked for: a token, or the next one of its sequence. -/
inductive Request
  | token
  | next
  deriving DecidableEq, Repr

/-- The scanner that a request leaves, whatever comes of it. -/
def Request.after (s : Scanner σ δ) : Request → Scanner σ δ
  | token => (nextToken s).after
  | next => (next? s).after

/-- The scanner that some requests leave, one after the other. -/
def afterRequests (requests : List Request) (s : Scanner σ δ) : Scanner σ δ :=
  requests.foldl Request.after s

theorem next?_of_finished (h : s.finished = true) : next? s = .ok none s := by
  rw [next?, if_pos h]

/-! ### Before a NUL -/

theorem afterCalls_of_nul (hc : s.view.current = Ascii.nul) (n : Nat) : afterCalls n s = s := by
  induction n with
  | zero => rfl
  | succ n ih => rw [afterCalls, nextToken_of_nul hc, EStateM.Result.after_ok, ih]

/-- Before a NUL, the sequence yields the end, unless it is over. -/
theorem next?_of_nul (hc : s.view.current = Ascii.nul) (hfinished : s.finished = false) :
    next? s = .ok (some ⟨.endOfFile, s.sourceName, s.position⟩) { s with finished := true } := by
  rw [next?, if_neg (by simp [hfinished]), nextToken_of_nul hc]
  rfl

/-- Before a NUL, a request changes nothing but whether the sequence is over. -/
theorem exists_after_of_nul (hc : s.view.current = Ascii.nul) (request : Request) :
    ∃ finished, request.after s = { s with finished } := by
  cases request with
  | token =>
    refine ⟨s.finished, ?_⟩
    rw [Request.after, nextToken_of_nul hc]
    rfl
  | next =>
    cases hfinished : s.finished with
    | true =>
      refine ⟨s.finished, ?_⟩
      rw [Request.after, next?_of_finished hfinished]
      rfl
    | false =>
      refine ⟨true, ?_⟩
      rw [Request.after, next?_of_nul hc hfinished]
      rfl

theorem exists_afterRequests_of_nul (hc : s.view.current = Ascii.nul) (requests : List Request) :
    ∃ finished, afterRequests requests s = { s with finished } := by
  induction requests generalizing s with
  | nil => exact ⟨s.finished, rfl⟩
  | cons request requests ih =>
    obtain ⟨finished, hafter⟩ := exists_after_of_nul hc request
    obtain ⟨finished', hrest⟩ := ih (s := { s with finished }) hc
    refine ⟨finished', ?_⟩
    rw [afterRequests, List.foldl_cons, hafter]
    exact hrest

/-! ### Once the sequence is over -/

theorem tokenize_of_finished (h : s.finished = true) : tokenize s = .ok [] s := by
  have hafter : tokenizeAfter #[] s = .ok #[] s := by
    rw [tokenizeAfter_eq, next?_of_finished h]
  simp [tokenize, Functor.map, EStateM.map, hafter]

/-- No request takes the sequence up again. -/
theorem finished_after (h : s.finished = true) (request : Request) :
    (request.after s).finished = true := by
  cases request with
  | token => exact (stepwise_nextToken σ δ s).reaches.finished_eq.trans h
  | next => rwa [Request.after, next?_of_finished h]

theorem finished_afterRequests (h : s.finished = true) (requests : List Request) :
    (afterRequests requests s).finished = true := by
  induction requests generalizing s with
  | nil => exact h
  | cons request requests ih => exact ih (finished_after h request)

/-- The sequence is over once it has yielded the end or broken off. -/
theorem finished_of_next? (h : (∃ token, next? s = .ok (some token) s' ∧ token.isEnd = true) ∨
    ∃ e, next? s = .error e s') : s'.finished = true := by
  unfold next? at h
  split at h
  · rcases h with ⟨token, h, -⟩ | ⟨e, h⟩ <;> cases h
  · split at h
    · rcases h with ⟨token, h, hend⟩ | ⟨e, h⟩
      · cases h
        exact hend
      · cases h
    · rcases h with ⟨token, h, -⟩ | ⟨e, h⟩
      · cases h
      · cases h
        rfl

/-! ### What the end comes to -/

/-- The end is for ever, whatever stream and receiver a scanner has and whatever has come of them
before. First, once a call has yielded the end of the input, every further call yields the same end
at the same position and leaves the scanner as it is: its stream, whatever that still holds, its
receiver, its symbols and its position; and requests of either kind change nothing of it but whether
the sequence is over. Second, once the sequence has yielded the end or broken off, then after any
requests of either kind there is nothing left of it, and to be told so leaves the scanner as it
is. -/
theorem end_absorbs (s s' : Scanner σ δ) :
    (∀ token, nextToken s = .ok token s' → token.isEnd = true →
      token = ⟨.endOfFile, s'.sourceName, s'.position⟩ ∧
      (∀ n, afterCalls n s' = s' ∧ nextToken (afterCalls n s') = .ok token s') ∧
      ∀ requests, ∃ finished, afterRequests requests s' = { s' with finished } ∧
        nextToken (afterRequests requests s') = .ok token { s' with finished }) ∧
    ((∃ token, next? s = .ok (some token) s' ∧ token.isEnd = true) ∨
        (∃ e, next? s = .error e s') →
      ∀ requests, next? (afterRequests requests s') = .ok none (afterRequests requests s') ∧
        tokenize (afterRequests requests s') = .ok [] (afterRequests requests s')) := by
  refine ⟨fun token h hend => ?_, fun h requests => ?_⟩
  · obtain ⟨hc, rfl⟩ := end_of_nextToken h hend
    refine ⟨rfl, fun n => ?_, fun requests => ?_⟩
    · rw [afterCalls_of_nul hc n]
      exact ⟨rfl, nextToken_of_nul hc⟩
    · obtain ⟨finished, hafter⟩ := exists_afterRequests_of_nul hc requests
      rw [hafter]
      exact ⟨finished, rfl, nextToken_of_nul (s := { s' with finished }) hc⟩
  · have hfinished := finished_afterRequests (finished_of_next? h) requests
    exact ⟨next?_of_finished hfinished, tokenize_of_finished hfinished⟩

/-- A NUL stands before bytes and a failure that the stream still holds, and the receiver refuses
every report. The stream has been asked three times when the end is yielded, and is not asked again;
nor is it when the sequence is over. -/
theorem end_absorbs_nul :
    ∃ s : Scanner Script FaultyRecorder,
      Scanner.ofStream (⟨[.byte Ascii.nul, .byte 'a'.toUInt8, .byte 'b'.toUInt8,
        .failure "lost"], 0⟩ : Script) "end" .new { refuses := fun _ => true } = .ok s ∧
      s.view.feed.stream = ⟨[.failure "lost"], 3⟩ ∧
      (∀ n, afterCalls n s = s) ∧
      ∀ requests, next? (afterRequests requests { s with finished := true }) =
        .ok none (afterRequests requests { s with finished := true }) := by
  obtain ⟨s, hs⟩ : ∃ s : Scanner Script FaultyRecorder,
      Scanner.ofStream (⟨[.byte Ascii.nul, .byte 'a'.toUInt8, .byte 'b'.toUInt8,
        .failure "lost"], 0⟩ : Script) "end" .new { refuses := fun _ => true } = .ok s := ⟨_, rfl⟩
  have hc : s.view.current = Ascii.nul := by
    cases hs
    rfl
  have hfinished : s.finished = false := by
    cases hs
    rfl
  refine ⟨s, hs, ?_, fun n => ?_, fun requests => ?_⟩
  · cases hs
    rfl
  · exact (((end_absorbs s s).1 _ (nextToken_of_nul hc) rfl).2.1 n).1
  · exact ((end_absorbs s _).2 (.inl ⟨_, next?_of_nul hc hfinished, rfl⟩) requests).1

end Scan

end CinderFront
