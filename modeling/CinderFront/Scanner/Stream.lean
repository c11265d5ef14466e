import CinderFront.Scanner.Lexeme

/-!
# The tokens of a source in sequence

A scanner can be asked for its tokens one after the other. The sequence has the end of the input as
its last token, or breaks off with the first failure; after that it is empty.

* `Scan.next?` — the next token of the sequence;
* `Scan.tokenize` — all tokens that are left of it;
* `scan` — the tokens of a source, with everything that was reported and the contents of its string
  literals.
-/

namespace CinderFront

namespace Scan

variable {σ δ : Type} [ByteStream σ] [Receiver δ]

/-! ### One token after the other -/

/-- The next token of the sequence, and nothing once it is over. -/
def next? : Scan σ δ (Option Token) := fun s =>
  if s.finished then .ok none s
  else match nextToken s with
    | .ok token s => .ok (some token) { s with finished := token.isEnd }
    | .error e s => .error e { s with finished := true }

/-- A token that is not the end of the input has moved the scanner on. -/
theorem ahead_nextToken_lt {s s' : Scanner σ δ} {token : Token} (h : nextToken s = .ok token s')
    (hend : token.isEnd = false) : s'.ahead < s.ahead := by
  fun_induction nextToken s with
  | case1 s e s₁ hb => simp at h
  | case2 s u s₁ hb token' hn =>
    simp only [EStateM.Result.ok.injEq] at h
    simp [← h.1, token', Token.isEnd] at hend
  | case3 s u s₁ hb hn e s₂ hl => simp at h
  | case4 s u s₁ hb token' hn kind s₂ hl =>
    have hskip := keeps_skipWhile (σ := σ) (δ := δ) Ascii.isBlank s
    have hlexeme := ahead_lexeme?_lt hn
    simp only [EStateM.Result.ok.injEq] at h
    simp only [hb, hl, EStateM.Result.after_ok] at hskip hlexeme
    rw [← h.2]
    omega
  | case5 s u s₁ hb hn s₂ hl ih =>
    have hskip := keeps_skipWhile (σ := σ) (δ := δ) Ascii.isBlank s
    have hlexeme := ahead_lexeme?_lt hn
    simp only [hb, hl, EStateM.Result.after_ok] at hskip hlexeme
    have := ih h
    omega

/-- A bound on how many tokens are left of the sequence. -/
def left (s : Scanner σ δ) : Nat := if s.finished then 0 else s.ahead + 1

theorem left_next?_lt {s s' : Scanner σ δ} {token : Token} (h : next? s = .ok (some token) s') :
    left s' < left s := by
  unfold next? at h
  split at h
  · simp at h
  · next hf =>
    split at h
    · next t s₁ ht =>
      simp only [EStateM.Result.ok.injEq, Option.some.injEq] at h
      obtain ⟨rfl, rfl⟩ := h
      cases hend : t.isEnd with
      | true => simp [left, hf]
      | false =>
        have := ahead_nextToken_lt ht hend
        simp only [Scanner.ahead] at this
        simp [left, hf, Scanner.ahead]
        omega
    · simp at h

/-! ### All tokens -/

/-- The tokens that are left of the sequence, after those in `tokens`. -/
def tokenizeAfter (tokens : Array Token) (s : Scanner σ δ) :
    EStateM.Result ScanFailure (Scanner σ δ) (Array Token) :=
  match _h : next? s with
  | .ok none s' => .ok tokens s'
  | .ok (some token) s' => tokenizeAfter (tokens.push token) s'
  | .error e s' => .error e s'
termination_by left s
decreasing_by exact left_next?_lt _h

/-- All tokens that are left of the sequence. A failure leaves none of them. -/
def tokenize : Scan σ δ (List Token) := Array.toList <$> tokenizeAfter #[]

end Scan

/-! ### Whole sources -/

/-- What a scan of a whole source yields: the tokens through the end of the input, the findings in
the order of the reports, and the contents of the string literals. -/
structure ScanResult where
  tokens : List Token
  diagnostics : List Diagnostic
  symbols : SymbolTable

/-- Scans a whole source into a new symbol table. -/
def scan {σ : Type} [ByteStream σ] (stream : σ) (sourceName : String) :
    Except ScanFailure ScanResult := do
  let scanner ← Scanner.ofStream stream sourceName .new ({} : Recorder)
  match Scan.tokenize scanner with
  | .ok tokens s => return ⟨tokens, s.receiver.diagnostics.toList, s.symbols⟩
  | .error e _ => throw e

end CinderFront
