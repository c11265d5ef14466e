import CinderFront.Proofs.Escape
import CinderFront.Proofs.Passage
import CinderFront.Scanner.Transition

/-!
# Raw literals and where their escapes are

A raw literal is decoded only after it was read, when the text it was read from is gone. What leads
a malformed escape back to its place is the list of escapes that was kept beside the raw bytes. This
module shows that the list leads every malformed escape to its own backslash.

* `LiteralText.bisect_eq_some` — the search by halves finds every entry of a sorted list;
* `LiteralText.Collects` — a raw literal that was read off a text, and the escapes kept beside it;
* `LiteralText.Collects.exists_located` — what decoding finds malformed has a place in that text;
* `LiteralText.exists_located_of_faults` — and is reported there, never at the beginning of the
  literal.
-/

namespace CinderFront

/-- The malformed escape `e`, with its backslash at `q`, is an escape of the text `x`, which begins
at `p`. -/
def MalformedEscape.LiesAt (e : MalformedEscape) (q p : Position) (x : List UInt8) : Prop :=
  ∃ u, q = p.after u ∧
    match e with
    | unrecognized b _ => Escape.byteOf? b = none ∧ ∃ v, x = u ++ Ascii.backslash :: b :: v
    | unterminated _ => x = u ++ [Ascii.backslash]

namespace MalformedEscape

variable {e : MalformedEscape} {q p : Position} {x : List UInt8}

theorem LiesAt.le (h : e.LiesAt q p x) : p ≤ q := by
  obtain ⟨u, rfl, -⟩ := h
  exact Position.le_after p u

theorem LiesAt.cons {b : UInt8} (h : e.LiesAt q (p.past b) x) : e.LiesAt q p (b :: x) := by
  obtain ⟨u, rfl, hshape⟩ := h
  refine ⟨b :: u, rfl, ?_⟩
  cases e with
  | unrecognized c offset =>
    obtain ⟨hc, v, rfl⟩ := hshape
    exact ⟨hc, v, rfl⟩
  | unterminated offset => exact congrArg (b :: ·) hshape

end MalformedEscape

namespace LiteralText

/-! ### Searching by halves -/

/-- The search finds every entry between its bounds, if the entries are sorted by offset. -/
theorem bisect_eq_some {escapes : Array (Nat × Position)} {offset : Nat} {position : Position}
    (hs : escapes.toList.Pairwise (·.1 < ·.1)) {low high i : Nat} (hhigh : high ≤ escapes.size)
    (hlow : low ≤ i) (hi : i < high) (hfound : escapes[i]? = some (offset, position)) :
    bisect escapes offset low high = some position := by
  have hlt : ∀ {j k : Nat} {a b : Nat × Position}, j < k → escapes[j]? = some a →
      escapes[k]? = some b → a.1 < b.1 := by
    intro j k a b hjk ha hb
    obtain ⟨hj, rfl⟩ := Array.getElem?_eq_some_iff.1 ha
    obtain ⟨hk, rfl⟩ := Array.getElem?_eq_some_iff.1 hb
    exact List.pairwise_iff_getElem.1 hs j k (by simpa using hj) (by simpa using hk) hjk
  fun_induction bisect escapes offset low high with
  | case1 low high hlh middle hnone =>
    have hm : middle = low + (high - low) / 2 := rfl
    rw [Array.getElem?_eq_none_iff] at hnone
    omega
  | case2 low high hlh middle here hhere =>
    have him : i = middle := by
      rcases Nat.lt_trichotomy i middle with h | h | h
      · exact absurd (hlt h hfound hhere) (Nat.lt_irrefl _)
      · exact h
      · exact absurd (hlt h hhere hfound) (Nat.lt_irrefl _)
    rw [him, hhere] at hfound
    simpa using hfound
  | case3 low high hlh middle found here hhere hne hless ih =>
    -- The entry in the middle is too small, so the one looked for stands behind it.
    refine ih hhigh (Nat.lt_of_not_le fun him => ?_) hi
    rcases Nat.lt_or_eq_of_le him with h | h
    · have := hlt h hfound hhere
      simp only at this
      omega
    · rw [h, hhere] at hfound
      simp_all
  | case4 low high hlh middle found here hhere hne hless ih =>
    have hm : middle = low + (high - low) / 2 := rfl
    refine ih (by omega) hlow (Nat.lt_of_not_le fun him => ?_)
    rcases Nat.lt_or_eq_of_le him with h | h
    · have := hlt h hhere hfound
      simp only at this
      omega
    · rw [← h, hhere] at hfound
      simp_all
  | case5 low high hlh => omega

theorem escapePosition?_eq_some {raw : LiteralText} {offset : Nat} {position : Position}
    (hs : raw.escapes.toList.Pairwise (·.1 < ·.1))
    (h : (offset, position) ∈ raw.escapes.toList) :
    raw.escapePosition? offset = some position := by
  obtain ⟨i, hi, hfound⟩ := List.getElem_of_mem h
  refine bisect_eq_some hs (Nat.le_refl _) (Nat.zero_le i) (by simpa using hi) ?_
  rw [Array.getElem?_eq_some_iff]
  exact ⟨by simpa using hi, by simpa using hfound⟩

/-! ### Raw literals read off a text -/

/-- `Collects p o x bytes escapes`: from the text `x`, which begins at `p`, the raw bytes `bytes`
are taken, the first of them with offset `o`, and every escape among them is kept with its offset
and its position. Bytes of the text may be skipped, but not inside an escape. -/
inductive Collects : Position → Nat → List UInt8 → List UInt8 → List (Nat × Position) → Prop
  | nil {p : Position} {o : Nat} : Collects p o [] [] []
  | byte {p : Position} {o : Nat} {b : UInt8} {x bytes : List UInt8}
      {escapes : List (Nat × Position)} : b ≠ Ascii.backslash →
      Collects (p.past b) (o + 1) x bytes escapes → Collects p o (b :: x) (b :: bytes) escapes
  | skip {p : Position} {o : Nat} {b : UInt8} {x bytes : List UInt8}
      {escapes : List (Nat × Position)} :
      Collects (p.past b) o x bytes escapes → Collects p o (b :: x) bytes escapes
  | pair {p : Position} {o : Nat} {c : UInt8} {x bytes : List UInt8}
      {escapes : List (Nat × Position)} :
      Collects ((p.past Ascii.backslash).past c) (o + 2) x bytes escapes →
      Collects p o (Ascii.backslash :: c :: x) (Ascii.backslash :: c :: bytes)
        ((o, p) :: escapes)
  | lone {p : Position} {o : Nat} :
      Collects p o [Ascii.backslash] [Ascii.backslash] [(o, p)]

namespace Collects

variable {p : Position} {o : Nat} {x bytes : List UInt8} {escapes : List (Nat × Position)}

theorem le_of_mem (h : Collects p o x bytes escapes) : ∀ entry ∈ escapes, o ≤ entry.1 := by
  induction h with
  | nil => simp
  | byte _ _ ih => exact fun entry he => Nat.le_trans (Nat.le_succ _) (ih entry he)
  | skip _ ih => exact ih
  | pair _ ih =>
    intro entry he
    rcases List.mem_cons.1 he with rfl | he
    · exact Nat.le_refl _
    · exact Nat.le_trans (Nat.le_add_right _ 2) (ih entry he)
  | lone => simp

/-- The escapes are kept in the order of their offsets. -/
theorem pairwise_escapes (h : Collects p o x bytes escapes) : escapes.Pairwise (·.1 < ·.1) := by
  induction h with
  | nil => exact .nil
  | byte _ _ ih => exact ih
  | skip _ ih => exact ih
  | pair hrest ih =>
    refine List.pairwise_cons.2 ⟨fun entry he => ?_, ih⟩
    exact Nat.lt_of_lt_of_le (Nat.lt_add_of_pos_right Nat.two_pos) (hrest.le_of_mem entry he)
  | lone => simp

/-- Whatever decoding finds malformed is a kept escape, and its position is the place of its
backslash in the text. Decoding finds such escapes in the order of their places. -/
theorem exists_located (h : Collects p o x bytes escapes) (d : Escape.Decoded) :
    ∃ located : List (MalformedEscape × Position),
      (Escape.decodeFrom o d bytes).errors.toList =
        d.errors.toList ++ located.map (·.1) ∧
      located.Pairwise (·.2 < ·.2) ∧
      ∀ l ∈ located, (l.1.offset, l.2) ∈ escapes ∧ l.1.LiesAt l.2 p x := by
  induction h generalizing d with
  | nil => exact ⟨[], by simp, .nil, by simp⟩
  | @byte p o b x bytes escapes hb _ ih =>
    obtain ⟨located, herrors, hpairwise, hmem⟩ := ih (d.push b)
    refine ⟨located, ?_, hpairwise, fun l hl => ⟨(hmem l hl).1, (hmem l hl).2.cons⟩⟩
    rw [Escape.decodeFrom_byte o d hb, herrors]
    rfl
  | skip _ ih =>
    obtain ⟨located, herrors, hpairwise, hmem⟩ := ih d
    exact ⟨located, herrors, hpairwise, fun l hl => ⟨(hmem l hl).1, (hmem l hl).2.cons⟩⟩
  | @pair p o c x bytes escapes _ ih =>
    cases hc : Escape.byteOf? c with
    | some byte =>
      obtain ⟨located, herrors, hpairwise, hmem⟩ := ih (d.push byte)
      refine ⟨located, ?_, hpairwise, fun l hl =>
        ⟨List.mem_cons_of_mem _ (hmem l hl).1, (hmem l hl).2.cons.cons⟩⟩
      rw [Escape.decodeFrom_escape o d hc, herrors]
      rfl
    | none =>
      obtain ⟨located, herrors, hpairwise, hmem⟩ :=
        ih ((d.keep (.unrecognized c o)).push c)
      refine ⟨(.unrecognized c o, p) :: located, ?_, ?_, ?_⟩
      · rw [Escape.decodeFrom_unrecognized o d hc, herrors]
        simp [Escape.Decoded.push, Escape.Decoded.keep]
      · -- All that is found later lies behind the two bytes of this escape.
        refine List.pairwise_cons.2 ⟨fun l hl => ?_, hpairwise⟩
        exact Position.lt_of_lt_of_le (Position.lt_past p _)
          (Position.le_trans (Position.le_of_lt (Position.lt_past _ c)) (hmem l hl).2.le)
      · intro l hl
        rcases List.mem_cons.1 hl with rfl | hl
        · exact ⟨List.mem_cons_self, [], rfl, hc, x, rfl⟩
        · exact ⟨List.mem_cons_of_mem _ (hmem l hl).1, (hmem l hl).2.cons.cons⟩
  | @lone p o =>
    refine ⟨[(.unterminated o, p)], ?_, by simp, ?_⟩
    · rw [Escape.decodeFrom_lone]
      simp [Escape.Decoded.keep]
    · intro l hl
      obtain rfl := List.mem_singleton.1 hl
      exact ⟨List.mem_singleton.2 rfl, [], rfl, rfl⟩

end Collects

/-! ### What is reported of a raw literal -/

/-- The bytes that a raw literal stands for. -/
def contents (raw : LiteralText) : List UInt8 :=
  (Escape.decode raw.bytes.toList).bytes.toList

/-- The findings for the malformed escapes of a raw literal, as the scanner reports them. -/
def faults (raw : LiteralText) (start : Position) : List Finding :=
  (Escape.decode raw.bytes.toList).errors.toList.map fun e =>
    ⟨.ofEscape e, (raw.escapePosition? e.offset).getD start⟩

/-- Each malformed escape of a collected literal is reported at its backslash, whatever position
stands by to be used instead. -/
theorem exists_located_of_faults {raw : LiteralText} {p : Position} {x : List UInt8}
    (h : Collects p 0 x raw.bytes.toList raw.escapes.toList) (start : Position) :
    ∃ located : List (MalformedEscape × Position),
      raw.faults start = located.map (fun l => ⟨.ofEscape l.1, l.2⟩) ∧
      located.Pairwise (·.2 < ·.2) ∧ ∀ l ∈ located, l.1.LiesAt l.2 p x := by
  obtain ⟨located, herrors, hpairwise, hmem⟩ := h.exists_located {}
  refine ⟨located, ?_, hpairwise, fun l hl => (hmem l hl).2⟩
  have herrors' : (Escape.decode raw.bytes.toList).errors.toList = located.map (·.1) := by
    simpa [Escape.decode, Escape.decodeAfter] using herrors
  rw [faults, herrors', List.map_map]
  refine List.map_congr_left fun l hl => ?_
  have hfound := escapePosition?_eq_some h.pairwise_escapes (hmem l hl).1
  simp [hfound]

end LiteralText

end CinderFront
