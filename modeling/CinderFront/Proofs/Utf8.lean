import Mathlib.Algebra.Group.Nat.Defs
import Mathlib.Tactic.SplitIfs
import CinderFront.Ascii
import CinderFront.Text.Utf8

/-!
# ASCII in texts

Bytes are read as text with replacement, and much can be lost by that. Nothing is lost of ASCII: a
byte below 0x80 is read as the character of its number, wherever it stands. Nor does such a
character ever come of anything else, since a sequence of several bytes is never longer than it must
be.

* `Ascii.codes_append`, `Ascii.toUInt8_char` — the bytes of spellings and of characters;
* `Utf8.codes_text` — the bytes of an ASCII text can be read back;
* `Utf8.Sequence.IsLong` — a sequence that has begun ends in no ASCII character;
* `Utf8.mem_of_mem_text` — every ASCII character of a text was a byte.
-/

namespace CinderFront

/-! ### Bytes as characters -/

namespace Ascii

theorem codes_append (s t : String) : codes (s ++ t) = codes s ++ codes t := by
  unfold codes
  rw [String.toList_append, List.map_append]

theorem codes_push (s : String) (c : Char) : codes (s.push c) = codes s ++ [c.toUInt8] := by
  unfold codes
  rw [String.toList_push, List.map_append]
  rfl

/-- The character of a number that is one has that number. -/
theorem toNat_ofNat {n : Nat} (h : n.isValidChar) : (Char.ofNat n).toNat = n := by
  unfold Char.ofNat
  rw [dif_pos h]
  rfl

theorem toNat_char (b : UInt8) : (char b).toNat = b.toNat := by
  have hb := b.toNat_lt
  have hvalid : b.toNat.isValidChar := Or.inl (by omega)
  exact toNat_ofNat hvalid

@[simp] theorem toUInt8_char (b : UInt8) : (char b).toUInt8 = b := by
  have hb := b.toNat_lt
  apply UInt8.toNat_inj.1
  show (char b).toNat % 256 = b.toNat
  rw [toNat_char]
  omega

end Ascii

namespace Utf8

/-! ### ASCII bytes -/

/-- From between two sequences, an ASCII byte leads there again. -/
theorem Sequence.step_of_lt {b : UInt8} (hb : b < 0x80) (text : String) :
    step (empty, text) b = (empty, text.push (Ascii.char b)) := by
  show start text b = _
  unfold start
  rw [if_pos hb]
  rfl

theorem Sequence.foldl_step_of_lt {bytes : List UInt8} (h : ∀ b ∈ bytes, b < 0x80)
    (text : String) :
    ∃ text', bytes.foldl step (empty, text) = (empty, text') ∧
      Ascii.codes text' = Ascii.codes text ++ bytes := by
  induction bytes generalizing text with
  | nil => exact ⟨text, rfl, (List.append_nil _).symm⟩
  | cons b bytes ih =>
    obtain ⟨hb, hbytes⟩ := List.forall_mem_cons.1 h
    obtain ⟨text', hfoldl, hcodes⟩ := ih hbytes (text.push (Ascii.char b))
    refine ⟨text', ?_, ?_⟩
    · rw [List.foldl_cons, step_of_lt hb, hfoldl]
    · rw [hcodes, Ascii.codes_push, Ascii.toUInt8_char, List.append_assoc]
      rfl

/-- ASCII bytes can be read back from their text. -/
theorem codes_text {bytes : List UInt8} (h : ∀ b ∈ bytes, b < 0x80) :
    Ascii.codes (text bytes) = bytes := by
  obtain ⟨text', hfoldl, hcodes⟩ := Sequence.foldl_step_of_lt h ""
  unfold text
  rw [hfoldl]
  exact hcodes

/-! ### ASCII characters -/

namespace Sequence

/-- Whatever bytes still come, the sequence ends in no ASCII character: the least number that it can
end in is too large. -/
def IsLong : Sequence → Prop
  | empty => True
  | started bits missing low _ =>
    1 ≤ missing ∧ 0x80 ≤ low.toNat ∧
      0x80 ≤ bits * 64 ^ missing + (low.toNat - 0x80) * 64 ^ (missing - 1)

/-- The second text has no ASCII characters that the first one has not, but for the given bytes. -/
def Adds (bytes : List UInt8) (text text' : String) : Prop :=
  ∀ c ∈ text'.toList, 0 < c.toNat → c.toNat < 0x80 → c ∈ text.toList ∨ c.toUInt8 ∈ bytes

variable {c : Char} {b : UInt8} {bytes : List UInt8} {text : String}

theorem Adds.refl (bytes : List UInt8) (text : String) : Adds bytes text text := by
  intro c hc _ _
  exact .inl hc

theorem Adds.trans {bytes' : List UInt8} {text' text'' : String} (h : Adds bytes text text')
    (h' : Adds bytes' text' text'') : Adds (bytes ++ bytes') text text'' := by
  intro c hc hpos hlt
  rcases h' c hc hpos hlt with hc | hc
  · rcases h c hc hpos hlt with hc | hc
    · exact .inl hc
    · exact .inr (List.mem_append_left bytes' hc)
  · exact .inr (List.mem_append_right bytes hc)

theorem adds_push (h : 0 < c.toNat → c.toNat < 0x80 → c.toUInt8 ∈ bytes) :
    Adds bytes text (text.push c) := by
  intro d hd hpos hlt
  rw [String.toList_push] at hd
  rcases List.mem_append.1 hd with hd | hd
  · exact .inl hd
  · obtain rfl := List.mem_singleton.1 hd
    exact .inr (h hpos hlt)

theorem adds_push_replacement : Adds bytes text (text.push replacement) := by
  apply adds_push
  intro _ hlt
  exact absurd hlt (by decide)

theorem adds_push_ofNat {n : Nat} (h : 0x80 ≤ n) :
    Adds bytes text (text.push (Char.ofNat n)) := by
  apply adds_push
  intro hpos hlt
  -- The number of a character is not made smaller, unless there is no character of that number.
  by_cases hvalid : n.isValidChar
  · rw [Ascii.toNat_ofNat hvalid] at hlt
    omega
  · unfold Char.ofNat at hpos
    rw [dif_neg hvalid] at hpos
    cases hpos

/-- A byte that is not below another, and not that other one, is above it. -/
theorem toNat_lt_of_ne {m : UInt8} (hle : ¬ b < m) (hne : b ≠ m) : m.toNat < b.toNat := by
  have hle' : m.toNat ≤ b.toNat := Nat.le_of_not_lt hle
  have hne' : m.toNat ≠ b.toNat := fun h => hne (UInt8.toNat_inj.1 h).symm
  omega

/-- The first byte of a sequence is an ASCII character, or what it begins is long. -/
theorem start_spec (text : String) (b : UInt8) :
    (start text b).1.IsLong ∧ Adds [b] text (start text b).2 := by
  unfold start
  split_ifs with hone hnone htwo heE0 heED hthree heF0 hfour heF4
  · refine ⟨trivial, adds_push ?_⟩
    intro _ _
    exact List.mem_singleton.2 (Ascii.toUInt8_char b)
  · exact ⟨trivial, adds_push_replacement⟩
  · have hb : 0xC2 ≤ b.toNat := Nat.le_of_not_lt hnone
    refine ⟨⟨by decide, by decide, ?_⟩, .refl [b] text⟩
    omega
  · exact ⟨⟨by decide, by decide, by decide⟩, .refl [b] text⟩
  · exact ⟨⟨by decide, by decide, by decide⟩, .refl [b] text⟩
  · have hb : 0xE0 < b.toNat := toNat_lt_of_ne htwo heE0
    refine ⟨⟨by decide, by decide, ?_⟩, .refl [b] text⟩
    omega
  · exact ⟨⟨by decide, by decide, by decide⟩, .refl [b] text⟩
  · have hb : 0xF0 < b.toNat := toNat_lt_of_ne hthree heF0
    refine ⟨⟨by decide, by decide, ?_⟩, .refl [b] text⟩
    omega
  · exact ⟨⟨by decide, by decide, by decide⟩, .refl [b] text⟩
  · exact ⟨trivial, adds_push_replacement⟩

/-- One more byte that goes on with a sequence leaves the least number that it can end in at least
what it was. -/
theorem least_le_of_le (bits n : Nat) {low b : UInt8} (h : low ≤ b) :
    bits * 64 ^ (n + 1) + (low.toNat - 0x80) * 64 ^ n ≤
      (bits * 64 + (b.toNat - 0x80)) * 64 ^ n := by
  have hle : low.toNat ≤ b.toNat := h
  calc bits * 64 ^ (n + 1) + (low.toNat - 0x80) * 64 ^ n
      = (bits * 64 + (low.toNat - 0x80)) * 64 ^ n := by
        rw [Nat.pow_succ', ← Nat.mul_assoc, ← Nat.add_mul]
    _ ≤ (bits * 64 + (b.toNat - 0x80)) * 64 ^ n := by
        apply Nat.mul_le_mul_right
        omega

/-- One step leaves a long sequence long, and ends none in an ASCII character. -/
theorem step_spec {s : Sequence} (hs : s.IsLong) (text : String) (b : UInt8) :
    (step (s, text) b).1.IsLong ∧ Adds [b] text (step (s, text) b).2 := by
  cases s with
  | empty => exact start_spec text b
  | started bits missing low high =>
    obtain ⟨hmissing, hlow, hbits⟩ := hs
    obtain ⟨n, rfl⟩ : ∃ n, missing = n + 1 := ⟨missing - 1, by omega⟩
    simp only [step]
    split_ifs with hb hlast
    · obtain rfl : n = 0 := by omega
      have hleast := least_le_of_le bits 0 hb.1
      refine ⟨trivial, adds_push_ofNat ?_⟩
      omega
    · have hleast := least_le_of_le bits n hb.1
      refine ⟨⟨by omega, by decide, ?_⟩, .refl [b] text⟩
      exact Nat.le_add_right_of_le (Nat.le_trans hbits hleast)
    · -- What was begun is replaced, and the byte begins anew.
      have hreplaced : Adds [] text (text.push replacement) := adds_push_replacement
      obtain ⟨hlong, hadds⟩ := start_spec (text.push replacement) b
      exact ⟨hlong, hreplaced.trans hadds⟩

/-- All steps together add no ASCII character that is not one of the bytes. -/
theorem adds_foldl (bytes : List UInt8) {s : Sequence} (hs : s.IsLong) (text : String) :
    Adds bytes text (finish (bytes.foldl step (s, text))) := by
  induction bytes generalizing s text with
  | nil =>
    cases s with
    | empty => exact .refl [] text
    | started bits missing low high => exact adds_push_replacement
  | cons b bytes ih =>
    obtain ⟨hlong, hadds⟩ := step_spec hs text b
    exact hadds.trans (ih hlong _)

end Sequence

/-- Every ASCII character of a text, other than NUL, was a byte. -/
theorem mem_of_mem_text {c : Char} {bytes : List UInt8} (hc : c ∈ (text bytes).toList)
    (hpos : 0 < c.toNat) (hlt : c.toNat < 0x80) : c.toUInt8 ∈ bytes := by
  have hadds : Sequence.Adds bytes "" (text bytes) :=
    Sequence.adds_foldl bytes (s := .empty) trivial ""
  rcases hadds c hc hpos hlt with h | h
  · cases h
  · exact h

end Utf8

end CinderFront
