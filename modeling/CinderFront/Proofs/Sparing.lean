import Mathlib.Tactic.SplitIfs
import CinderFront.Proofs.Step
import CinderFront.Scanner.Lexeme

/-!
# What a call enters into the table

A call may skip much, report much and read far ahead before it fails or yields a token. It touches
the table of symbols once at most, as its very last act, and only if it yields a string.

* `Scan.Spares` — an action that leaves the table alone, whether it fails or not, and how such
  actions are put together;
* `Scan.EntersFor` — an action that enters one string at most, and none unless it yields what is
  fit for it;
* `Scan.entersFor_nextToken` — the next token is got in this way, so a call that fails leaves the
  table alone;
* `Scan.afterCalls`, `Scan.size_afterCalls_le` — so many calls enter so many strings at most.
-/

namespace CinderFront.Scan

variable {σ δ α β : Type}

/-! ### Actions that leave the table alone -/

/-- The action leaves the table alone, whether it fails or not. -/
def Spares (act : Scan σ δ α) : Prop := ∀ s : Scanner σ δ, (act s).after.symbols = s.symbols

namespace Spares

theorem symbols_of_ok {act : Scan σ δ α} {s s' : Scanner σ δ} {a : α} (hact : Spares act)
    (h : act s = .ok a s') : s'.symbols = s.symbols := by
  have hs := hact s
  rwa [h] at hs

theorem symbols_of_error {act : Scan σ δ α} {s s' : Scanner σ δ} {e : ScanFailure}
    (hact : Spares act) (h : act s = .error e s') : s'.symbols = s.symbols := by
  have hs := hact s
  rwa [h] at hs

theorem pure (a : α) : Spares (Pure.pure a : Scan σ δ α) := fun _ => rfl

theorem bind {act : Scan σ δ α} {f : α → Scan σ δ β} (hact : Spares act)
    (hf : ∀ a, Spares (f a)) : Spares (act >>= f) := by
  intro s
  cases h : act s with
  | ok a s' =>
    rw [EStateM.bind_of_ok h]
    exact (hf a s').trans (hact.symbols_of_ok h)
  | error e s' =>
    rw [EStateM.bind_of_error h]
    exact hact.symbols_of_error h

theorem map (f : α → β) {act : Scan σ δ α} (hact : Spares act) : Spares (f <$> act) :=
  hact.bind fun a => .pure (f a)

theorem forM {f : α → Scan σ δ PUnit} (hf : ∀ a, Spares (f a)) (as : List α) :
    Spares (as.forM f) := by
  induction as with
  | nil => exact .pure PUnit.unit
  | cons a as ih => exact .bind (hf a) fun _ => ih

theorem onView (act : EStateM IoError (Lookahead σ) α) :
    Spares (Scan.onView act : Scan σ δ α) := by
  intro s
  unfold Scan.onView
  split <;> rfl

end Spares

section

variable [Receiver δ]

theorem spares_report (e : LexicalError) (p : Position) : Spares (report e p : Scan σ δ Unit) := by
  intro s
  unfold report
  split <;> rfl

theorem spares_reportHere (e : LexicalError) : Spares (reportHere e : Scan σ δ Unit) :=
  fun s => spares_report e s.view.position s

variable [ByteStream σ]

theorem spares_pass (complaint : Option LexicalError) :
    Spares (pass complaint : Scan σ δ Unit) := by
  cases complaint with
  | none => exact .onView _
  | some e => exact .bind (spares_reportHere e) fun _ => .onView _

theorem spares_absorb (t : Transition β) (taken : β) : Spares (absorb t taken : Scan σ δ β) := by
  intro s
  fun_induction absorb t taken s with
  | case1 taken s b h | case2 taken s b h hstop => rfl
  | case3 taken s b h hstop next position u s' hp ih =>
    exact ih.trans ((spares_pass _).symbols_of_ok hp)
  | case4 taken s b h hstop e s' hp => exact (spares_pass _).symbols_of_error hp

/-! ### The readers -/

omit [ByteStream σ] in
theorem spares_decode (raw : LiteralText) (start : Position) :
    Spares (decode raw start : Scan σ δ (List UInt8)) :=
  .bind (.forM (fun _ => spares_report _ _) _) fun _ => .pure _

theorem spares_literal (opening : Nat) (form : Transition Literal) (unterminated : LexicalError) :
    Spares (literal opening form unterminated : Scan σ δ LiteralText) := by
  refine .bind (.onView _) fun _ => .bind (spares_absorb form {}) fun lit => ?_
  cases hclosed : lit.isClosed with
  | true => exact .pure _
  | false => exact .bind (spares_reportHere unterminated) fun _ => .pure _

theorem spares_character (start : Position) :
    Spares (character start : Scan σ δ (Option Token.Kind)) := by
  refine .bind (spares_literal _ _ _) fun raw => .bind (spares_decode raw start) fun contents => ?_
  rcases contents with _ | ⟨b, _ | ⟨c, bs⟩⟩
  · exact .bind (spares_report _ _) fun _ => .pure _
  · exact .pure _
  · exact .bind (spares_report _ _) fun _ => .pure _

omit [Receiver δ] in
theorem spares_lineComment : Spares (lineComment : Scan σ δ Unit) :=
  .bind (.onView _) fun _ => .onView _

theorem spares_blockComment : Spares (blockComment : Scan σ δ Unit) := by
  refine .bind (.onView _) fun _ => .bind (spares_absorb _ _) fun comment => ?_
  cases comment with
  | closed => exact .pure _
  | inside | ending => exact spares_reportHere _

theorem spares_slash (next : UInt8) : Spares (slash next : Scan σ δ (Option Token.Kind)) := by
  unfold slash
  split_ifs
  · exact .bind spares_lineComment fun _ => .pure _
  · exact .bind spares_blockComment fun _ => .pure _
  · exact .bind (.onView _) fun _ => .pure _

theorem spares_word : Spares (word : Scan σ δ Token.Kind) :=
  .bind (spares_absorb _ _) fun _ => .pure _

theorem spares_number : Spares (number : Scan σ δ Token.Kind) := by
  refine .bind (spares_absorb _ _) fun integral => .bind (fun _ => rfl) fun s => ?_
  split
  · exact .bind (.onView _) fun _ => .bind (spares_absorb _ _) fun _ => .pure _
  · exact .pure _

omit [Receiver δ] in
theorem spares_mark : Spares (mark : Scan σ δ Token.Kind) :=
  .bind (fun _ => rfl) fun _ => .bind (.onView _) fun _ => .pure _

end

/-! ### Actions that enter a string -/

/-- The action leaves the table alone unless it yields something with the property `P`, and then it
enters one string at most. -/
def EntersFor (P : α → Prop) (act : Scan σ δ α) : Prop :=
  ∀ s : Scanner σ δ, (act s).after.symbols = s.symbols ∨
    ∃ a s' bytes, act s = .ok a s' ∧ P a ∧ s'.symbols = (s.symbols.intern bytes).2

section

variable {P : α → Prop} {Q : β → Prop} {act : Scan σ δ α} {s s' : Scanner σ δ}

theorem Spares.entersFor (P : α → Prop) (hact : Spares act) : EntersFor P act :=
  fun s => .inl (hact s)

namespace EntersFor

/-- Only what comes last may touch the table. -/
theorem bind {f : α → Scan σ δ β} (hact : Spares act) (hf : ∀ a, EntersFor Q (f a)) :
    EntersFor Q (act >>= f) := by
  intro s
  cases h : act s with
  | ok a s₁ =>
    rw [EStateM.bind_of_ok h, ← hact.symbols_of_ok h]
    exact hf a s₁
  | error e s₁ =>
    rw [EStateM.bind_of_error h]
    exact .inl (hact.symbols_of_error h)

theorem map {f : α → β} (hact : EntersFor (fun a => Q (f a)) act) : EntersFor Q (f <$> act) := by
  intro s
  rw [EStateM.after_map]
  rcases hact s with hs | ⟨a, s₁, bytes, h, ha, hs⟩
  · exact .inl hs
  · refine .inr ⟨f a, s₁, bytes, ?_, ha, hs⟩
    rw [← bind_pure_comp, EStateM.bind_of_ok h]
    rfl

theorem symbols_of_error (hact : EntersFor P act) {e : ScanFailure} (h : act s = .error e s') :
    s'.symbols = s.symbols := by
  rcases hact s with hs | ⟨a, s₁, bytes, h', -, -⟩
  · rwa [h] at hs
  · cases h.symm.trans h'

theorem symbols_of_ok (hact : EntersFor P act) {a : α} (h : act s = .ok a s') (ha : ¬ P a) :
    s'.symbols = s.symbols := by
  rcases hact s with hs | ⟨a', s₁, bytes, h', ha', -⟩
  · rwa [h] at hs
  · cases h.symm.trans h'
    exact absurd ha' ha

theorem size_le (hact : EntersFor P act) (s : Scanner σ δ) :
    (act s).after.symbols.size ≤ s.symbols.size + 1 := by
  rcases hact s with hs | ⟨a, s₁, bytes, h, -, hs⟩
  · exact hs ▸ Nat.le_succ _
  · rw [h, EStateM.Result.after_ok, hs]
    exact SymbolTable.size_intern_le _ bytes

end EntersFor

end

section

variable [ByteStream σ] [Receiver δ]

/-- There is a kind, and it is that of a string. -/
def YieldsString (kind? : Option Token.Kind) : Prop := ∃ symbol, kind? = some (.string symbol)

omit [ByteStream σ] [Receiver δ] in
theorem entersFor_intern {P : Symbol → Prop} (hP : ∀ symbol, P symbol) (bytes : List UInt8) :
    EntersFor P (intern bytes : Scan σ δ Symbol) := by
  intro s
  unfold intern
  rcases s.symbols.tryIntern_cases bytes with h | ⟨-, h⟩
  · rw [h]
    exact .inr ⟨_, _, bytes, rfl, hP _, rfl⟩
  · rw [h]
    exact .inl rfl

/-- The contents of a string are entered last of all. -/
theorem entersFor_string (opening : Nat) (form : Transition Literal) (start : Position) :
    EntersFor (fun kind => YieldsString (some kind))
      (string opening form start : Scan σ δ Token.Kind) := by
  refine .bind (spares_literal _ _ _) fun raw => .bind (spares_decode raw start) fun contents => ?_
  exact .map (entersFor_intern (fun symbol => ⟨symbol, rfl⟩) contents)

theorem entersFor_lexeme? :
    EntersFor YieldsString (lexeme? : Scan σ δ (Option Token.Kind)) := by
  intro s
  unfold lexeme? dispatch
  split_ifs
  · exact (entersFor_string _ _ _).map s
  · exact (entersFor_string _ _ _).map s
  · exact (spares_character _).entersFor _ s
  · exact (spares_slash _).entersFor _ s
  · exact (spares_word.map some).entersFor _ s
  · exact (spares_number.map some).entersFor _ s
  · exact (spares_mark.map some).entersFor _ s

theorem not_yieldsString_none : ¬ YieldsString none := by
  intro h
  obtain ⟨symbol, hsymbol⟩ := h
  cases hsymbol

/-- The token is a string. -/
def IsString (token : Token) : Prop := ∃ symbol, token.kind = .string symbol

/-- However much is skipped and reported, only a call that yields a string touches the table. -/
theorem entersFor_nextToken : EntersFor IsString (nextToken : Scan σ δ Token) := by
  intro s
  have hskip : Spares (skipWhile Ascii.isBlank : Scan σ δ Unit) := .onView _
  fun_induction nextToken s with
  | case1 s e s₁ hb => exact .inl (hskip.symbols_of_error hb)
  | case2 s u s₁ hb token hc => exact .inl (hskip.symbols_of_ok hb)
  | case3 s u s₁ hb hc e s₂ hl =>
    exact .inl ((entersFor_lexeme?.symbols_of_error hl).trans (hskip.symbols_of_ok hb))
  | case4 s u s₁ hb token hc kind s₂ hl =>
    rw [← hskip.symbols_of_ok hb]
    rcases entersFor_lexeme? s₁ with hs | ⟨kind?, s₃, bytes, h, ⟨symbol, rfl⟩, hs⟩
    · rw [hl] at hs
      exact .inl hs
    · cases hl.symm.trans h
      exact .inr ⟨_, _, bytes, rfl, ⟨symbol, rfl⟩, hs⟩
  | case5 s u s₁ hb hc s₂ hl ih =>
    rw [← hskip.symbols_of_ok hb, ← entersFor_lexeme?.symbols_of_ok hl not_yieldsString_none]
    exact ih

/-! ### Calls one after the other -/

/-- The scanner after so many calls for the next token, whatever came of them. -/
def afterCalls : Nat → Scanner σ δ → Scanner σ δ
  | 0, s => s
  | n + 1, s => afterCalls n (nextToken s).after

theorem size_afterCalls_le (n : Nat) (s : Scanner σ δ) :
    (afterCalls n s).symbols.size ≤ s.symbols.size + n := by
  induction n generalizing s with
  | zero => exact Nat.le_refl _
  | succ n ih =>
    have hfirst := entersFor_nextToken.size_le s
    have hrest := ih (nextToken s).after
    show (afterCalls n (nextToken s).after).symbols.size ≤ _
    omega

end

end CinderFront.Scan
