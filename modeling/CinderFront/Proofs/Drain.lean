import CinderFront.Proofs.Foresight

/-!
# Tokens until a scanner breaks off

A sequence of tokens ends with the end of the input or with the first failure. What was yielded
before a failure is lost to `Scan.tokenize`; here it is kept.

* `Scan.drain` — the tokens that are left of the sequence, and the failure that ends it, if any;
* `Scan.finished_drain` — nothing is yielded after them;
* `Scan.tokenizeAfter_eq_drain` — without a failure, these are all tokens there are;
* `Scan.arisesIn_of_drain` — there is cause for that failure;
* `Scan.drain_follows` — if one scanner imitates another, it yields the same tokens, or breaks off
  after the first of them;
* `Scan.resolves_of_mem_drain` — the symbol of every string that was yielded stands for its
  contents in the table that the scanner leaves.
-/

namespace CinderFront

/-- What a scanner yields before it comes to an end or breaks off, why it breaks off, and the
scanner that is left. -/
structure Drained (σ δ : Type) where
  tokens : List Token
  failure : Option ScanFailure
  scanner : Scanner σ δ

/-- One more token before all others. -/
def Drained.cons {σ δ : Type} (token : Token) (d : Drained σ δ) : Drained σ δ :=
  { d with tokens := token :: d.tokens }

namespace Scan

variable {σ τ δ ρ : Type} [ByteStream σ] [ByteStream τ] [Receiver δ] [Receiver ρ]

/-- The tokens that are left of the sequence, until it is over or breaks off. -/
def drain (s : Scanner σ δ) : Drained σ δ :=
  match _h : next? s with
  | .ok none s' => ⟨[], none, s'⟩
  | .ok (some token) s' => (drain s').cons token
  | .error e s' => ⟨[], some e, s'⟩
termination_by left s
decreasing_by exact left_next?_lt _h

section

variable {s s' : Scanner σ δ}

theorem drain_of_none (h : next? s = .ok none s') : drain s = ⟨[], none, s'⟩ := by
  rw [drain]
  split <;> simp_all

theorem drain_of_some {token : Token} (h : next? s = .ok (some token) s') :
    drain s = (drain s').cons token := by
  rw [drain.eq_def]
  split <;> simp_all

theorem drain_of_error {e : ScanFailure} (h : next? s = .error e s') :
    drain s = ⟨[], some e, s'⟩ := by
  rw [drain]
  split <;> simp_all

/-- Without a failure, all tokens are yielded. -/
theorem tokenizeAfter_eq_drain (tokens : Array Token) (s : Scanner σ δ) :
    tokenizeAfter tokens s =
      match (drain s).failure with
      | none => .ok (tokens ++ (drain s).tokens.toArray) (drain s).scanner
      | some e => .error e (drain s).scanner := by
  fun_induction tokenizeAfter tokens s with
  | case1 tokens s s' h => simp [drain_of_none h]
  | case2 tokens s token s' h ih => simp [drain_of_some h, ih, Drained.cons]
  | case3 tokens s e s' h => simp [drain_of_error h]

theorem tokenize_eq_drain (s : Scanner σ δ) :
    tokenize s =
      match (drain s).failure with
      | none => .ok (drain s).tokens (drain s).scanner
      | some e => .error e (drain s).scanner := by
  simp only [tokenize, Functor.map, EStateM.map, tokenizeAfter_eq_drain]
  cases (drain s).failure with
  | none => simp
  | some e => rfl

/-- Asking for the next token of the sequence takes steps, and notes whether it is over. -/
theorem exists_reaches_next? (s : Scanner σ δ) :
    ∃ s' finished, s.Reaches s' ∧ (next? s).after = { s' with finished } := by
  unfold next?
  split
  · exact ⟨s, s.finished, .refl, rfl⟩
  · have hnext := (stepwise_nextToken σ δ s).reaches
    generalize nextToken s = r at hnext
    cases r with
    | ok token s' => exact ⟨s', token.isEnd, hnext, rfl⟩
    | error e s' => exact ⟨s', true, hnext, rfl⟩

/-- Once the tokens have been yielded, the sequence is over. -/
theorem finished_drain (s : Scanner σ δ) : (drain s).scanner.finished = true := by
  fun_induction drain s with
  | case1 s s' h =>
    unfold next? at h
    split at h
    · next hf =>
      cases h
      exact hf
    · split at h <;> cases h
  | case2 s token s' h ih => exact ih
  | case3 s e s' h =>
    unfold next? at h
    split at h
    · cases h
    · split at h
      · cases h
      · cases h
        rfl

end

/-- A failed call for the next token of the sequence is a failed call for the next token. -/
theorem exists_of_next?_eq_error {s s' : Scanner σ δ} {e : ScanFailure}
    (h : next? s = .error e s') :
    ∃ s₁, nextToken s = .error e s₁ ∧ s' = { s₁ with finished := true } := by
  unfold next? at h
  split at h
  · cases h
  · split at h
    · cases h
    · next hs₁ =>
      cases h
      exact ⟨_, hs₁, rfl⟩

/-- There is cause for the failure that ends a sequence. -/
theorem arisesIn_of_drain {s : Scanner σ δ} {e : ScanFailure} (h : (drain s).failure = some e) :
    e.ArisesIn (drain s).scanner := by
  fun_induction drain s with
  | case1 s s' hs => cases h
  | case2 s token s' hs ih => exact ih h
  | case3 s e' s' hs =>
    obtain rfl := Option.some.inj h
    obtain ⟨s₁, hs₁, rfl⟩ := exists_of_next?_eq_error hs
    have hnext := stepwise_nextToken σ δ s
    rw [hs₁] at hnext
    cases hnext with
    | error _ harises =>
      -- Whether the sequence is over has no part in the cause.
      cases harises with
      | io cause => exact .io cause
      | refused cause => exact .refused cause
      | capacity hfull => exact .capacity hfull

theorem sourceName_drain (s : Scanner σ δ) : (drain s).scanner.sourceName = s.sourceName := by
  have hnext : ∀ s : Scanner σ δ, (next? s).after.sourceName = s.sourceName := by
    intro s
    obtain ⟨s₁, finished, hreaches, hafter⟩ := exists_reaches_next? s
    rw [hafter]
    exact hreaches.sourceName_eq
  fun_induction drain s with
  | case1 s s' hs | case3 s e s' hs =>
    have h := hnext s
    rwa [hs] at h
  | case2 s token s' hs ih =>
    have h := hnext s
    rw [hs] at h
    exact ih.trans h

/-! ### Two sequences side by side -/

section

variable {I : Imitation σ τ δ ρ} {s : Scanner σ δ} {t : Scanner τ ρ}

/-- Asking for the next token changes nothing between two scanners of which one has broken off. -/
theorem cut_next? {e : ScanFailure} (h : I.Cut e s t) : I.Cut e s (next? t).after := by
  obtain ⟨t', finished, ht, hafter⟩ := exists_reaches_next? t
  have hcut := h.trans_reaches ht
  rw [hafter]
  exact ⟨hcut.broken, hcut.lookup?_eq⟩

theorem cut_drain {e : ScanFailure} (h : I.Cut e s t) : I.Cut e s (drain t).scanner := by
  fun_induction drain t with
  | case1 t t' ht =>
    have hnext := cut_next? h
    rwa [ht] at hnext
  | case2 t token t' ht ih =>
    have hnext := cut_next? h
    rw [ht] at hnext
    exact ih hnext
  | case3 t e' t' ht =>
    have hnext := cut_next? h
    rwa [ht] at hnext

/-- What is left of the sequence begins where the next token has been yielded. -/
theorem cut_drain_of_cut_next? {e : ScanFailure} (h : I.Cut e s (next? t).after) :
    I.Cut e s (drain t).scanner := by
  cases ht : next? t with
  | ok token? t' =>
    rw [ht] at h
    cases token? with
    | none =>
      rw [drain_of_none ht]
      exact h
    | some token =>
      rw [drain_of_some ht]
      exact cut_drain h
  | error e' t' =>
    rw [ht] at h
    rw [drain_of_error ht]
    exact h

theorem next?_follows (h : I.Relates s t) : (next? s).Follows I.Relates I.Cut (next? t) := by
  have hnext := uniform_nextToken.follows I h
  unfold next?
  rw [h.finished_eq]
  split
  · exact .agree h
  · generalize nextToken s = r, nextToken t = r' at hnext
    cases hnext with
    | agree h' => exact .agree { h' with finished_eq := rfl }
    | fail h' => exact .fail { h' with finished_eq := rfl }
    | cut hcut =>
      refine .cut ?_
      cases r' with
      | ok _ _ | error _ _ => exact ⟨hcut.broken, hcut.lookup?_eq⟩

/-- If one scanner imitates another, it yields the same tokens and comes to an end or fails as the
other does, or it breaks off after the first of them. -/
theorem drain_follows (h : I.Relates s t) :
    ((drain s).failure = (drain t).failure ∧ (drain s).tokens = (drain t).tokens ∧
        I.Relates (drain s).scanner (drain t).scanner) ∨
      ∃ e, (drain s).failure = some e ∧ (drain s).tokens <+: (drain t).tokens ∧
        I.Cut e (drain s).scanner (drain t).scanner := by
  fun_induction drain s generalizing t with
  | case1 s s' hs =>
    have hnext := next?_follows h
    rw [hs] at hnext
    generalize ht : next? t = r at hnext
    cases hnext with
    | agree h' =>
      rw [drain_of_none ht]
      exact .inl ⟨rfl, rfl, h'⟩
  | case2 s token s' hs ih =>
    have hnext := next?_follows h
    rw [hs] at hnext
    generalize ht : next? t = r at hnext
    cases hnext with
    | agree h' =>
      rw [drain_of_some ht]
      rcases ih h' with ⟨hfailure, htokens, hrelates⟩ | ⟨e, hs', htokens, hcut⟩
      · exact .inl ⟨hfailure, congrArg (token :: ·) htokens, hrelates⟩
      · exact .inr ⟨e, hs', List.cons_prefix_cons.2 ⟨rfl, htokens⟩, hcut⟩
  | case3 s e s' hs =>
    have hnext := next?_follows h
    rw [hs] at hnext
    generalize ht : next? t = r at hnext
    cases hnext with
    | fail h' =>
      rw [drain_of_error ht]
      exact .inl ⟨rfl, rfl, h'⟩
    | cut hcut =>
      subst ht
      exact .inr ⟨e, rfl, List.nil_prefix, cut_drain_of_cut_next? hcut⟩

end

/-! ### The symbols of strings -/

section

variable {s s' : Scanner σ δ}

/-- If the token is a string, its contents are in the table. -/
def Resolves (symbols : SymbolTable) (token : Token) : Prop :=
  ∀ symbol, token.kind = .string symbol → ∃ contents, symbols.lookup? symbol = some contents

/-- A string that is yielded has been entered. -/
theorem resolves_of_nextToken {token : Token} (hs : s.symbols.Consistent)
    (h : nextToken s = .ok token s') : Resolves s'.symbols token := by
  intro symbol hkind
  obtain ⟨text, htext⟩ := s.view.exists_offers
  obtain ⟨-, -, -, contents, -, -, -, -, -, hintern⟩ :=
    (firstToken_of_nextToken h htext).exists_contents hkind
  exact ⟨contents, hs.lookup?_of_tryIntern hintern⟩

/-- Asking for the next token keeps the table consistent and what its symbols stand for. -/
theorem consistent_next? (hs : s.symbols.Consistent) : (next? s).after.symbols.Consistent := by
  obtain ⟨s', finished, hreaches, hafter⟩ := exists_reaches_next? s
  rw [hafter]
  exact hreaches.consistent_symbols hs

theorem Resolves.next? {token : Token} (h : Resolves s.symbols token) :
    Resolves (next? s).after.symbols token := by
  obtain ⟨s', finished, hreaches, hafter⟩ := exists_reaches_next? s
  intro symbol hkind
  obtain ⟨contents, hlookup⟩ := h symbol hkind
  rw [hafter]
  exact ⟨contents, hreaches.lookup?_symbols hlookup⟩

theorem Resolves.drain {token : Token} (h : Resolves s.symbols token) :
    Resolves (drain s).scanner.symbols token := by
  fun_induction Scan.drain s with
  | case1 s s' hs | case3 s e s' hs =>
    have hnext := h.next?
    rwa [hs] at hnext
  | case2 s token' s' hs ih =>
    have hnext := h.next?
    rw [hs] at hnext
    exact ih hnext

theorem resolves_of_next? {token : Token} (hs : s.symbols.Consistent)
    (h : Scan.next? s = .ok (some token) s') : Resolves s'.symbols token := by
  unfold Scan.next? at h
  split at h
  · cases h
  · split at h
    · next token' s₁ hnext =>
      have hresolves := resolves_of_nextToken hs hnext
      cases h
      exact hresolves
    · cases h

/-- The contents of every string that was yielded are in the table that the scanner leaves. -/
theorem resolves_of_mem_drain (hs : s.symbols.Consistent) {token : Token}
    (h : token ∈ (drain s).tokens) : Resolves (drain s).scanner.symbols token := by
  fun_induction drain s with
  | case1 s s' hnext | case3 s e s' hnext => cases h
  | case2 s token' s' hnext ih =>
    have hconsistent := consistent_next? hs
    rw [hnext] at hconsistent
    rcases List.mem_cons.1 h with rfl | h
    · exact (resolves_of_next? hs hnext).drain
    · exact ih hconsistent h

end

end Scan

/-- What a scan of a whole source yields is what its scanner yields one after the other. -/
theorem exists_drain_of_scan {σ : Type} [ByteStream σ] {stream : σ} {sourceName : String}
    {result : ScanResult} (h : scan stream sourceName = .ok result) :
    ∃ s : Scanner σ Recorder, Scanner.ofStream stream sourceName .new {} = .ok s ∧
      (Scan.drain s).failure = none ∧ (Scan.drain s).tokens = result.tokens ∧
      (Scan.drain s).scanner.receiver.diagnostics.toList = result.diagnostics ∧
      (Scan.drain s).scanner.symbols = result.symbols := by
  cases hs : Scanner.ofStream stream sourceName .new ({} : Recorder) with
  | error e =>
    simp only [scan, hs] at h
    cases h
  | ok s =>
    refine ⟨s, rfl, ?_⟩
    simp only [scan, hs, bind, Except.bind, Scan.tokenize_eq_drain] at h
    cases hfailure : (Scan.drain s).failure with
    | none =>
      rw [hfailure] at h
      cases h
      exact ⟨rfl, rfl, rfl, rfl⟩
    | some e =>
      rw [hfailure] at h
      cases h

end CinderFront
