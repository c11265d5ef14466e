import CinderFront.Proofs.LineBreak

/-!
# Texts with carriage returns

A text with a carriage return before every line break. No byte that matters to the rules is moved or
lost by that, so whatever they ask of a text that does not begin with a line break is answered alike
with the carriage returns and without them.

* `Ascii.crlf` — the text with its carriage returns;
* `Ascii.prefix_crlf_iff`, `Ascii.takeWhile_crlf`, `Ascii.dropWhile_crlf` — what begins it, and runs
  of one class;
* `Position.after_crlf` — no position changes;
* `Comment.not_endMark_infix_crlf`, `Punctuation.longestAt?_crlf` — nor where a block comment ends,
  nor which mark begins a text.
-/

namespace CinderFront

/-! ### Texts -/

namespace Ascii

/-- The text with a carriage return before every line break. -/
def crlf (text : List UInt8) : List UInt8 :=
  text.flatMap fun b => if b = lineFeed then [carriageReturn, lineFeed] else [b]

@[simp] theorem crlf_nil : crlf [] = [] := rfl

@[simp] theorem crlf_lineFeed (r : List UInt8) :
    crlf (lineFeed :: r) = carriageReturn :: lineFeed :: crlf r := rfl

theorem crlf_cons {b : UInt8} (hb : b ≠ lineFeed) (r : List UInt8) :
    crlf (b :: r) = b :: crlf r := by
  simp [crlf, hb]

@[simp] theorem crlf_append (x y : List UInt8) : crlf (x ++ y) = crlf x ++ crlf y :=
  List.flatMap_append

/-- A text without line breaks stays as it is. -/
theorem crlf_eq_self {x : List UInt8} (h : lineFeed ∉ x) : crlf x = x := by
  induction x with
  | nil => rfl
  | cons b x ih =>
    obtain ⟨hb, hx⟩ := not_or.1 (mt List.mem_cons.2 h)
    rw [crlf_cons (Ne.symm hb), ih hx]

theorem crlf_eq_nil_iff {x : List UInt8} : crlf x = [] ↔ x = [] := by
  cases x with
  | nil => simp
  | cons b x =>
    by_cases hb : b = lineFeed
    · simp [hb]
    · simp [crlf_cons hb]

theorem head?_crlf_eq_some_iff {x : List UInt8} {c : UInt8} (hc : c ≠ carriageReturn)
    (hc' : c ≠ lineFeed) : (crlf x).head? = some c ↔ x.head? = some c := by
  cases x with
  | nil => simp
  | cons b x =>
    by_cases hb : b = lineFeed
    · simp [hb, Ne.symm hc, Ne.symm hc']
    · simp [crlf_cons hb]

/-- What begins the text with carriage returns, and has none in it, begins the text. -/
theorem prefix_crlf_iff {w : List UInt8} (hcr : carriageReturn ∉ w) (hlf : lineFeed ∉ w)
    {x : List UInt8} : w <+: crlf x ↔ w <+: x := by
  induction w generalizing x with
  | nil => simp
  | cons c w ih =>
    obtain ⟨hc, hcr⟩ := not_or.1 (mt List.mem_cons.2 hcr)
    obtain ⟨hc', hlf⟩ := not_or.1 (mt List.mem_cons.2 hlf)
    cases x with
    | nil => simp
    | cons b x =>
      by_cases hb : b = lineFeed
      · simp [hb, List.cons_prefix_cons, Ne.symm hc, Ne.symm hc']
      · rw [crlf_cons hb, List.cons_prefix_cons, List.cons_prefix_cons, ih hcr hlf]

/-- The carriage returns are put into what is read of a source, and nothing else is read. -/
theorem beforeNul_crlf (text : List UInt8) : beforeNul (crlf text) = crlf (beforeNul text) := by
  induction text with
  | nil => rfl
  | cons b text ih =>
    by_cases hb : b = lineFeed
    · subst hb
      rw [crlf_lineFeed, beforeNul_cons (by decide), beforeNul_cons (by decide),
        beforeNul_cons (by decide), crlf_lineFeed, ih]
    · by_cases hnul : b = nul
      · subst hnul
        rw [crlf_cons hb]
        rfl
      · rw [crlf_cons hb, beforeNul_cons hnul, beforeNul_cons hnul, crlf_cons hb, ih]

section

variable {c : UInt8 → Bool} (hcr : c carriageReturn = false) (hlf : c lineFeed = false)

include hcr hlf

theorem takeWhile_crlf (x : List UInt8) : (crlf x).takeWhile c = x.takeWhile c := by
  induction x with
  | nil => rfl
  | cons b x ih =>
    by_cases hb : b = lineFeed
    · simp [hb, hcr, hlf]
    · rw [crlf_cons hb, List.takeWhile_cons, List.takeWhile_cons, ih]

theorem dropWhile_crlf (x : List UInt8) : (crlf x).dropWhile c = crlf (x.dropWhile c) := by
  induction x with
  | nil => rfl
  | cons b x ih =>
    by_cases hb : b = lineFeed
    · simp [hb, hcr, hlf]
    · rw [crlf_cons hb, List.dropWhile_cons, List.dropWhile_cons, ih]
      split
      · rfl
      · rw [crlf_cons hb]

omit hcr in
theorem crlf_takeWhile (x : List UInt8) : crlf (x.takeWhile c) = x.takeWhile c := by
  refine crlf_eq_self fun hmem => ?_
  have hc := List.mem_takeWhile_imp hmem
  rw [hlf] at hc
  cases hc

end

end Ascii

/-- A carriage return is on the line that its line break ends, so no position changes. -/
theorem Position.after_crlf (p : Position) (x : List UInt8) :
    p.after (Ascii.crlf x) = p.after x := by
  induction x generalizing p with
  | nil => rfl
  | cons b x ih =>
    by_cases hb : b = Ascii.lineFeed
    · subst hb
      rw [Ascii.crlf_lineFeed, after_cons, after_cons, after_cons, ih]
      rfl
    · rw [Ascii.crlf_cons hb, after_cons, after_cons, ih]

theorem Comment.not_endMark_infix_crlf {x : List UInt8} (h : ¬ endMark <:+: x) :
    ¬ endMark <:+: Ascii.crlf x := by
  induction x with
  | nil => exact h
  | cons b x ih =>
    have hx : ¬ endMark <:+: x := fun hi => h (List.infix_cons hi)
    by_cases hb : b = Ascii.lineFeed
    · subst hb
      rw [Ascii.crlf_lineFeed, List.infix_cons_iff, List.infix_cons_iff]
      rintro (hp | hp | hi)
      · exact absurd (List.cons_prefix_cons.1 hp).1 (by decide)
      · exact absurd (List.cons_prefix_cons.1 hp).1 (by decide)
      · exact ih hx hi
    · rw [Ascii.crlf_cons hb, List.infix_cons_iff]
      rintro (hp | hi)
      · rw [← Ascii.crlf_cons hb, Ascii.prefix_crlf_iff (by decide) (by decide)] at hp
        exact h hp.isInfix
      · exact ih hx hi

theorem Punctuation.crlf_bytes {m : Punctuation} (hm : m ≠ newline) :
    Ascii.crlf m.bytes = m.bytes :=
  Ascii.crlf_eq_self fun h => hm (eq_newline_of_mem h)

/-- The carriage returns change nothing about which mark begins a text, unless it begins with a line
break. -/
theorem Punctuation.longestAt?_crlf {b : UInt8} (hb : b ≠ Ascii.lineFeed) (r : List UInt8) :
    longestAt? (Ascii.crlf (b :: r)) = longestAt? (b :: r) := by
  rw [longestAt?_eq_find?, longestAt?_eq_find?]
  congr 1
  funext m
  rw [Bool.eq_iff_iff, List.isPrefixOf_iff_prefix, List.isPrefixOf_iff_prefix]
  by_cases hm : m = newline
  · subst hm
    rw [Ascii.crlf_cons hb]
    have hne : ∀ t, ¬ newline.bytes <+: b :: t := fun t hp =>
      hb (List.cons_prefix_cons.1 hp).1.symm
    exact iff_of_false (hne _) (hne _)
  · have hcr : Ascii.carriageReturn ∉ m.bytes := fun h =>
      absurd (m.mem_bytes _ h).2.1 (by decide)
    exact Ascii.prefix_crlf_iff hcr fun h => hm (eq_newline_of_mem h)

end CinderFront
