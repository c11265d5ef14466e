import Mathlib.Tactic.SplitIfs
import CinderFront.Proofs.Imitation
import CinderFront.Scanner.Lexeme

/-!
# What holds of every action of a scanner

No reader looks at its stream or its receiver otherwise than by moving and reporting. So every
reader goes by steps, and it carries along whatever relation between two scanners their moves and
reports carry along.

* `Scan.Uniform` — an action that does both, over every stream and every receiver;
* `Scan.uniform_absorb`, …, `Scan.uniform_lexeme?` — the readers, one after the other;
* `Scan.uniform_nextToken` — the next token is read so, however much is skipped before it.
-/

namespace CinderFront.Scan

variable {α β : Type}

/-- The action, taken on any stream and any receiver, goes by steps; and if one scanner imitates
another, it does so still when both have taken the action. -/
structure Uniform (act : (σ δ : Type) → [ByteStream σ] → [Receiver δ] → Scan σ δ α) : Prop where
  stepwise : ∀ (σ δ : Type) [ByteStream σ] [Receiver δ], Stepwise (act σ δ)
  follows : ∀ {σ τ δ ρ : Type} [ByteStream σ] [ByteStream τ] [Receiver δ] [Receiver ρ]
    (I : Imitation σ τ δ ρ) {s : Scanner σ δ} {t : Scanner τ ρ}, I.Relates s t →
    (act σ δ s).Follows I.Relates I.Cut (act τ ρ t)

namespace Uniform

theorem pure (a : α) : Uniform fun _ _ _ _ => Pure.pure a :=
  ⟨fun _ _ _ _ => .pure a, fun _ _ _ h => .agree h⟩

theorem bind {act : (σ δ : Type) → [ByteStream σ] → [Receiver δ] → Scan σ δ α}
    {f : (σ δ : Type) → [ByteStream σ] → [Receiver δ] → α → Scan σ δ β} (hact : Uniform act)
    (hf : ∀ a, Uniform fun σ δ _ _ => f σ δ a) : Uniform fun σ δ _ _ => act σ δ >>= f σ δ where
  stepwise σ δ _ _ := (hact.stepwise σ δ).bind fun a => (hf a).stepwise σ δ
  follows I _ _ h :=
    (hact.follows I h).bind (fun _ h' => (hf _).follows I h')
      fun hcut => hcut.trans_reaches ((hf _).stepwise _ _ _).reaches

theorem map {act : (σ δ : Type) → [ByteStream σ] → [Receiver δ] → Scan σ δ α} (f : α → β)
    (hact : Uniform act) : Uniform fun σ δ _ _ => f <$> act σ δ :=
  hact.bind fun a => .pure (f a)

theorem forM {f : (σ δ : Type) → [ByteStream σ] → [Receiver δ] → α → Scan σ δ PUnit}
    (hf : ∀ a, Uniform fun σ δ _ _ => f σ δ a) (as : List α) :
    Uniform fun σ δ _ _ => as.forM (f σ δ) := by
  induction as with
  | nil => exact .pure PUnit.unit
  | cons a as ih => exact .bind (hf a) fun _ => ih

/-- An action that depends on the scanner only by what is the same of two related scanners. -/
theorem reading {γ : Type} {g : (σ δ : Type) → Scanner σ δ → γ}
    {f : (σ δ : Type) → [ByteStream σ] → [Receiver δ] → γ → Scan σ δ α}
    (hg : ∀ {σ τ δ ρ : Type} [ByteStream σ] [ByteStream τ] [Receiver δ] [Receiver ρ]
      (I : Imitation σ τ δ ρ) {s : Scanner σ δ} {t : Scanner τ ρ}, I.Relates s t →
      g σ δ s = g τ ρ t)
    (hf : ∀ c, Uniform fun σ δ _ _ => f σ δ c) :
    Uniform fun σ δ _ _ => (fun s => f σ δ (g σ δ s) s : Scan σ δ α) where
  stepwise σ δ _ _ s := (hf _).stepwise σ δ s
  follows I s t h := by
    rw [hg I h]
    exact (hf _).follows I h

end Uniform

/-! ### Moving, reporting, interning -/

theorem uniform_onView {act : (σ : Type) → [ByteStream σ] → EStateM IoError (Lookahead σ) α}
    (hshifts : ∀ {σ : Type} [ByteStream σ] (v : Lookahead σ), Lookahead.Shifts v (act σ v).after)
    (hfollows : ∀ {σ τ δ ρ : Type} [ByteStream σ] [ByteStream τ] [Receiver δ] [Receiver ρ]
      {I : Imitation σ τ δ ρ} {v : Lookahead σ} {w : Lookahead τ}, I.Views v w →
      (act σ v).Follows I.Views (fun e _ _ => I.Severs e) (act τ w)) :
    Uniform fun σ δ _ _ => (onView (act σ) : Scan σ δ α) where
  stepwise _ _ _ _ := .onView hshifts
  follows {σ τ δ ρ} _ _ _ _ I s t h := by
    have hreaches := (Stepwise.onView hshifts t).reaches
    have hact := hfollows h.view
    unfold onView at hreaches ⊢
    generalize act σ s.view = r, act τ t.view = r' at hact hreaches ⊢
    cases hact with
    | agree hviews => exact .agree { h with view := hviews }
    | fail hviews =>
      rw [h.sourceName_eq]
      exact .fail { h with view := hviews, sourceName_eq := rfl }
    | @cut e v _ hsevers =>
      have hcut : I.Cut (.io s.sourceName e) { s with view := v } t :=
        ⟨hsevers _ _ _ h.receiver, fun hs => h.symbols_eq ▸ hs⟩
      exact .cut (hcut.trans_reaches hreaches)

theorem uniform_advance (n : Nat) : Uniform fun σ δ _ _ => (advance n : Scan σ δ Unit) :=
  uniform_onView (Lookahead.shifts_advance n) fun h => h.advance n

theorem uniform_skipWhile (p : UInt8 → Bool) :
    Uniform fun σ δ _ _ => (skipWhile p : Scan σ δ Unit) :=
  @uniform_onView _ (fun _ _ => Lookahead.skipWhile p) (Lookahead.shifts_skipWhile p)
    fun h => h.skipWhile p

theorem uniform_report (e : LexicalError) (p : Position) :
    Uniform fun σ δ _ _ => (report e p : Scan σ δ Unit) where
  stepwise _ _ _ _ := .report e p
  follows I s t h := by
    have hreport := I.report (e.toDiagnostic t.sourceName p) h.receiver
    unfold report
    rw [h.sourceName_eq]
    generalize Receiver.report _ s.receiver = r, Receiver.report _ t.receiver = r' at hreport
    cases hreport with
    | agree hreceivers => exact .agree { h with receiver := hreceivers, sourceName_eq := rfl }
    | fail hreceivers => exact .fail { h with receiver := hreceivers, sourceName_eq := rfl }
    | cut hbroken =>
      refine .cut ⟨?_, fun hs => ?_⟩
      · cases r' <;> exact hbroken
      · rw [h.symbols_eq] at hs
        cases r' <;> exact hs

theorem uniform_reportHere (e : LexicalError) :
    Uniform fun σ δ _ _ => (reportHere e : Scan σ δ Unit) :=
  .reading (g := fun _ _ s => s.view.position) (fun _ _ _ h => h.view.position_eq)
    (uniform_report e)

theorem uniform_intern (bytes : List UInt8) :
    Uniform fun σ δ _ _ => (intern bytes : Scan σ δ Symbol) where
  stepwise _ _ _ _ := .intern bytes
  follows I s t h := by
    unfold intern
    rw [h.symbols_eq]
    cases t.symbols.tryIntern bytes with
    | ok entered => exact .agree { h with symbols_eq := rfl }
    | error cause => exact .fail h

theorem uniform_pass (complaint : Option LexicalError) :
    Uniform fun σ δ _ _ => (pass complaint : Scan σ δ Unit) := by
  cases complaint with
  | none => exact uniform_advance 1
  | some e => exact .bind (uniform_reportHere e) fun _ => uniform_advance 1

/-! ### Reading the bytes of a token -/

section

variable {σ δ : Type} [ByteStream σ] [Receiver δ] {t : Transition β} {taken : β}
  {s s' : Scanner σ δ}

theorem absorb_of_pass (hc : s.view.current ≠ Ascii.nul)
    (hstop : t.stops taken s.view.current = false)
    (hp : pass (t.complaint taken s.view.current) s = .ok () s') :
    absorb t taken s =
      absorb t (t.take taken s.view.current s.view.next s.view.position) s' := by
  rw [absorb]
  simp only [hc, hstop, dite_false, Bool.false_eq_true, if_false]
  split
  · next s₁ hs₁ => cases hp.symm.trans hs₁; rfl
  · next e s₁ hs₁ => cases hp.symm.trans hs₁

theorem absorb_of_pass_error {e : ScanFailure} (hc : s.view.current ≠ Ascii.nul)
    (hstop : t.stops taken s.view.current = false)
    (hp : pass (t.complaint taken s.view.current) s = .error e s') :
    absorb t taken s = .error e s' := by
  rw [absorb]
  simp only [hc, hstop, dite_false, Bool.false_eq_true, if_false]
  split
  · next s₁ hs₁ => cases hp.symm.trans hs₁
  · next e s₁ hs₁ => cases hp.symm.trans hs₁; rfl

theorem stepsTo_absorb (t : Transition β) (taken : β) (s : Scanner σ δ) :
    s.StepsTo (absorb t taken s) := by
  fun_induction absorb t taken s with
  | case1 taken s b hc => exact .ok .refl
  | case2 taken s b hc hstop => exact .ok .refl
  | case3 taken s b hc hstop next position u s' hp ih =>
    have hpass := (uniform_pass (t.complaint taken b)).stepwise σ δ s
    rw [hp] at hpass
    exact ih.trans hpass.reaches
  | case4 taken s b hc hstop e s' hp =>
    have hpass := (uniform_pass (t.complaint taken b)).stepwise σ δ s
    rw [hp] at hpass
    cases hpass with
    | error hs he => exact .error hs he

/-- What is left of a run begins where its first byte has been passed. -/
theorem reaches_absorb_of_pass (hc : s.view.current ≠ Ascii.nul)
    (hstop : t.stops taken s.view.current = false) :
    (pass (t.complaint taken s.view.current) s).after.Reaches (absorb t taken s).after := by
  cases hp : pass (t.complaint taken s.view.current) s with
  | ok u s' =>
    rw [absorb_of_pass hc hstop hp]
    exact (stepsTo_absorb t _ s').reaches
  | error e s' =>
    rw [absorb_of_pass_error hc hstop hp]
    exact .refl

end

theorem uniform_absorb (t : Transition β) (taken : β) :
    Uniform fun σ δ _ _ => (absorb t taken : Scan σ δ β) where
  stepwise _ _ _ _ := stepsTo_absorb t taken
  follows {σ τ δ ρ} _ _ _ _ I s s₂ h := by
    fun_induction absorb t taken s generalizing s₂ with
    | case1 taken s b hc =>
      have hc₂ : s₂.view.current = Ascii.nul := h.view.current_eq ▸ hc
      rw [absorb]
      simp only [hc₂, dite_true]
      exact .agree h
    | case2 taken s b hc hstop =>
      simp only [b, h.view.current_eq] at hc hstop
      rw [absorb]
      simp only [hc, hstop, dite_false, if_true]
      exact .agree h
    | case3 taken s b hc hstop next position u s' hp ih =>
      simp only [b, h.view.current_eq, Bool.not_eq_true] at hc hstop hp
      have hpass := (uniform_pass (t.complaint taken s₂.view.current)).follows I h
      rw [hp] at hpass
      generalize hp₂ : pass _ s₂ = r at hpass
      cases hpass with
      | agree h' =>
        rw [absorb_of_pass hc hstop hp₂, ← h.view.current_eq, ← h.view.next_eq,
          ← h.view.position_eq]
        exact ih _ h'
    | case4 taken s b hc hstop e s' hp =>
      simp only [b, h.view.current_eq, Bool.not_eq_true] at hc hstop hp
      have hpass := (uniform_pass (t.complaint taken s₂.view.current)).follows I h
      rw [hp] at hpass
      generalize hp₂ : pass _ s₂ = r at hpass
      cases hpass with
      | fail h' =>
        rw [absorb_of_pass_error hc hstop hp₂]
        exact .fail h'
      | cut hcut =>
        subst hp₂
        exact .cut (hcut.trans_reaches (reaches_absorb_of_pass hc hstop))

/-! ### The readers -/

theorem uniform_decode (raw : LiteralText) (start : Position) :
    Uniform fun σ δ _ _ => (decode raw start : Scan σ δ (List UInt8)) :=
  .bind (.forM (fun _ => uniform_report _ _) _) fun _ => .pure _

theorem uniform_literal (opening : Nat) (form : Transition Literal) (unterminated : LexicalError) :
    Uniform fun σ δ _ _ => (literal opening form unterminated : Scan σ δ LiteralText) := by
  refine .bind (uniform_advance opening) fun _ => .bind (uniform_absorb form {}) fun lit => ?_
  cases hclosed : lit.isClosed with
  | true => exact .pure _
  | false => exact .bind (uniform_reportHere unterminated) fun _ => .pure _

theorem uniform_string (opening : Nat) (form : Transition Literal) (start : Position) :
    Uniform fun σ δ _ _ => (string opening form start : Scan σ δ Token.Kind) :=
  .bind (uniform_literal opening form _) fun raw =>
    .bind (uniform_decode raw start) fun contents =>
      .bind (uniform_intern contents) fun _ => .pure _

theorem uniform_character (start : Position) :
    Uniform fun σ δ _ _ => (character start : Scan σ δ (Option Token.Kind)) := by
  refine .bind (uniform_literal _ _ _) fun raw => ?_
  refine .bind (uniform_decode raw start) fun contents => ?_
  rcases contents with _ | ⟨b, _ | ⟨c, bs⟩⟩
  · exact .bind (uniform_report _ _) fun _ => .pure _
  · exact .pure _
  · exact .bind (uniform_report _ _) fun _ => .pure _

theorem uniform_lineComment : Uniform fun σ δ _ _ => (lineComment : Scan σ δ Unit) :=
  .bind (uniform_advance 2) fun _ => uniform_skipWhile _

theorem uniform_blockComment : Uniform fun σ δ _ _ => (blockComment : Scan σ δ Unit) := by
  refine .bind (uniform_advance 2) fun _ => .bind (uniform_absorb _ _) fun comment => ?_
  cases comment with
  | closed => exact .pure _
  | inside | ending => exact uniform_reportHere _

theorem uniform_word : Uniform fun σ δ _ _ => (word : Scan σ δ Token.Kind) :=
  .bind (uniform_absorb _ _) fun _ => .pure _

theorem uniform_number : Uniform fun σ δ _ _ => (number : Scan σ δ Token.Kind) := by
  refine .bind (uniform_absorb _ _) fun integral => ?_
  -- What follows depends on whether a fraction follows, which is seen from two bytes in view.
  refine .reading (g := fun _ _ s => atFraction s)
    (f := fun σ δ _ _ goesOn => if goesOn then _ else _)
    (fun _ _ _ h => by rw [atFraction, atFraction, h.view.current_eq, h.view.next_eq])
    fun goesOn => ?_
  cases goesOn with
  | true => exact .bind (uniform_advance 1) fun _ => .bind (uniform_absorb _ _) fun _ => .pure _
  | false => exact .pure _

theorem uniform_mark : Uniform fun σ δ _ _ => (mark : Scan σ δ Token.Kind) := by
  -- What is read depends on the bytes in view only.
  refine .reading (g := fun _ _ s => markAt s.view.current s.view.bytes)
    (f := fun σ δ _ _ found => advance found.2 >>= fun _ => Pure.pure found.1) (fun _ _ _ h => ?_)
    fun found => .bind (uniform_advance found.2) fun _ => .pure found.1
  rw [Lookahead.bytes, Lookahead.bytes, h.view.current_eq, h.view.next_eq, h.view.afterNext_eq]

/-! ### One token -/

theorem uniform_slash (next : UInt8) :
    Uniform fun σ δ _ _ => (slash next : Scan σ δ (Option Token.Kind)) := by
  unfold slash
  split_ifs
  · exact .bind uniform_lineComment fun _ => .pure none
  · exact .bind uniform_blockComment fun _ => .pure none
  · exact .bind (uniform_advance 1) fun _ => .pure _

theorem uniform_dispatch (start : Position) (b next : UInt8) :
    Uniform fun σ δ _ _ => (dispatch start b next : Scan σ δ (Option Token.Kind)) := by
  unfold dispatch
  split_ifs
  · exact .map some (uniform_string _ _ start)
  · exact .map some (uniform_string _ _ start)
  · exact uniform_character start
  · exact uniform_slash next
  · exact .map some uniform_word
  · exact .map some uniform_number
  · exact .map some uniform_mark

theorem uniform_lexeme? : Uniform fun σ δ _ _ => (lexeme? : Scan σ δ (Option Token.Kind)) :=
  .reading (g := fun _ _ s => (s.view.position, s.view.current, s.view.next))
    (f := fun σ δ _ _ seen => dispatch seen.1 seen.2.1 seen.2.2)
    (fun _ _ _ h => by rw [h.view.position_eq, h.view.current_eq, h.view.next_eq])
    fun seen => uniform_dispatch seen.1 seen.2.1 seen.2.2

/-! ### The next token -/

section

variable {σ δ : Type} [ByteStream σ] [Receiver δ] {s s' : Scanner σ δ}

/-- An attempt to read a token that begins at `start` with the byte `b`; it may come to nothing. -/
def attemptAt (b : UInt8) (sourceName : String) (start : Position) : Scan σ δ (Option Token) :=
  if b = Ascii.nul then pure (some ⟨.endOfFile, sourceName, start⟩)
  else Option.map (fun kind => ⟨kind, sourceName, start⟩) <$> lexeme?

/-- An attempt to read a token at the current byte. -/
def attempt? : Scan σ δ (Option Token) := fun s =>
  attemptAt s.view.current s.sourceName s.view.position s

/-- What is done with the outcome of an attempt: if it came to nothing, the next one is made. -/
def orNext : Option Token → Scan σ δ Token
  | some token => pure token
  | none => nextToken

theorem attempt?_of_nul (hc : s.view.current = Ascii.nul) :
    attempt? s = .ok (some ⟨.endOfFile, s.sourceName, s.view.position⟩) s := by
  rw [attempt?, attemptAt, if_pos hc]
  rfl

theorem attempt?_of_lexeme? {o : Option Token.Kind} (hc : s.view.current ≠ Ascii.nul)
    (hl : lexeme? s = .ok o s') :
    attempt? s = .ok (o.map fun kind => ⟨kind, s.sourceName, s.view.position⟩) s' := by
  rw [attempt?, attemptAt, if_neg hc]
  simp [Functor.map, EStateM.map, hl]

theorem attempt?_of_error {e : ScanFailure} (hc : s.view.current ≠ Ascii.nul)
    (hl : lexeme? s = .error e s') : attempt? s = .error e s' := by
  rw [attempt?, attemptAt, if_neg hc]
  simp [Functor.map, EStateM.map, hl]

/-- An attempt lowers the bound on moves, unless the end of the input is its token. -/
theorem ahead_attempt?_lt (hc : s.view.current ≠ Ascii.nul) :
    (attempt? s).after.ahead < s.ahead := by
  have hlt := ahead_lexeme?_lt hc
  cases hl : lexeme? s with
  | ok o s' =>
    rw [attempt?_of_lexeme? hc hl]
    rwa [hl] at hlt
  | error e s' =>
    rw [attempt?_of_error hc hl]
    rwa [hl] at hlt

/-- The next token is read attempt by attempt. -/
theorem nextToken_eq (s : Scanner σ δ) :
    nextToken s = (skipWhile Ascii.isBlank >>= fun _ => attempt? >>= orNext) s := by
  rw [nextToken]
  split
  · next e s₁ hb => exact (EStateM.bind_of_error hb).symm
  · next u s₁ hb =>
    rw [EStateM.bind_of_ok hb]
    by_cases hc : s₁.view.current = Ascii.nul
    · rw [dif_pos hc, EStateM.bind_of_ok (attempt?_of_nul hc)]
      rfl
    · rw [dif_neg hc]
      split
      · next e s₂ hl => exact (EStateM.bind_of_error (attempt?_of_error hc hl)).symm
      · next kind s₂ hl =>
        rw [EStateM.bind_of_ok (attempt?_of_lexeme? hc hl)]
        rfl
      · next s₂ hl =>
        rw [EStateM.bind_of_ok (attempt?_of_lexeme? hc hl)]
        rfl

/-- An attempt that came to nothing has moved on, and so have the blanks before it. -/
theorem ahead_lt_of_attempt?_eq_none {s₁ : Scanner σ δ} {u : Unit}
    (hs₁ : skipWhile Ascii.isBlank s = .ok u s₁) (ho : attempt? s₁ = .ok none s') :
    s'.ahead < s.ahead := by
  have hskip := keeps_skipWhile (σ := σ) (δ := δ) Ascii.isBlank s
  rw [hs₁] at hskip
  by_cases hc : s₁.view.current = Ascii.nul
  · cases (attempt?_of_nul hc).symm.trans ho
  · have hlt := ahead_attempt?_lt hc
    rw [ho] at hlt
    exact Nat.lt_of_lt_of_le hlt hskip

end

theorem uniform_attempt? : Uniform fun σ δ _ _ => (attempt? : Scan σ δ (Option Token)) := by
  refine .reading (g := fun _ _ s => (s.view.current, s.sourceName, s.view.position))
    (f := fun σ δ _ _ seen => attemptAt seen.1 seen.2.1 seen.2.2)
    (fun _ _ _ h => by rw [h.view.current_eq, h.sourceName_eq, h.view.position_eq]) fun seen => ?_
  unfold attemptAt
  split_ifs
  · exact .pure _
  · exact .map _ uniform_lexeme?

theorem stepwise_nextToken (σ δ : Type) [ByteStream σ] [Receiver δ] :
    Stepwise (nextToken : Scan σ δ Token) := by
  intro s
  induction hn : s.ahead using Nat.strongRecOn generalizing s with
  | ind n ih =>
    subst hn
    rw [nextToken_eq]
    refine ((uniform_skipWhile _).stepwise σ δ s).bind fun {_ s₁} hs₁ => ?_
    refine (uniform_attempt?.stepwise σ δ s₁).bind fun {o s₂} ho => ?_
    cases o with
    | some token => exact .ok .refl
    | none => exact ih _ (ahead_lt_of_attempt?_eq_none hs₁ ho) s₂ rfl

theorem stepwise_orNext (σ δ : Type) [ByteStream σ] [Receiver δ] (o : Option Token) :
    Stepwise (orNext o : Scan σ δ Token) := by
  cases o with
  | some token => exact .pure token
  | none => exact stepwise_nextToken σ δ

theorem uniform_nextToken : Uniform fun σ δ _ _ => (nextToken : Scan σ δ Token) where
  stepwise σ δ _ _ := stepwise_nextToken σ δ
  follows {σ τ δ ρ} _ _ _ _ I s t h := by
    induction hn : s.ahead using Nat.strongRecOn generalizing s t with
    | ind n ih =>
      subst hn
      rw [nextToken_eq s, nextToken_eq t]
      have hrest := (uniform_attempt?.stepwise τ ρ).bind (stepwise_orNext τ ρ)
      refine ((uniform_skipWhile _).follows I h).bind (fun {_ s₁ t₁} hs₁ h₁ => ?_)
        fun hcut => hcut.trans_reaches (hrest _).reaches
      refine (uniform_attempt?.follows I h₁).bind (fun {o s₂ t₂} ho h₂ => ?_)
        fun hcut => hcut.trans_reaches (stepwise_orNext τ ρ _ _).reaches
      cases o with
      | some token => exact .agree h₂
      | none => exact ih _ (ahead_lt_of_attempt?_eq_none hs₁ ho) s₂ t₂ h₂ rfl

end CinderFront.Scan
