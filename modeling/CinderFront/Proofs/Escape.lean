import CinderFront.Text.Escape

/-!
# Decoding escapes, one at a time

Decoding takes a raw literal apart into single bytes and pairs. Each kind of piece has its equation
here, whatever was decoded before it, so that nothing else needs to unfold the decoder.

* `Escape.decodeFrom_byte`, `Escape.decodeFrom_escape`, `Escape.decodeFrom_unrecognized`,
  `Escape.decodeFrom_lone` — the four kinds of pieces;
* `Escape.decode_encode` — decoding takes encoding back and finds nothing malformed;
* `Escape.decode_bytes_ne_nil` — a raw literal that is not empty stands for at least one byte.
-/

namespace CinderFront.Escape

/-! ### The table -/

theorem byteOf?_of_letterOf? {b letter : UInt8} (h : letterOf? b = some letter) :
    byteOf? letter = some b := by
  have hall : (table.all fun entry => byteOf? entry.1 == some entry.2) = true := by decide
  have htable : ∀ entry ∈ table, byteOf? entry.1 = some entry.2 := by simpa using hall
  obtain ⟨entry, hfind, rfl⟩ := Option.map_eq_some_iff.1 h
  have hb : entry.2 = b := by simpa using List.find?_some hfind
  rw [htable entry (List.mem_of_find?_eq_some hfind), hb]

/-- A byte without an escape of its own is none of those that end or begin something in a
literal. -/
theorem ne_of_letterOf?_eq_none {b c : UInt8} (h : letterOf? b = none)
    (hc : (letterOf? c).isSome := by decide) : b ≠ c := by
  rintro rfl
  simp [h] at hc

theorem byteOf?_eq_none_iff {letter : UInt8} :
    byteOf? letter = none ↔ letter ∉ Ascii.codes "nrt\\|'\"0" := by
  have hletters : table.map (·.1) = Ascii.codes "nrt\\|'\"0" := by decide
  rw [← hletters, byteOf?, Option.map_eq_none_iff, List.find?_eq_none]
  simp only [beq_iff_eq, List.mem_map, not_exists, not_and]

theorem ne_backslash_of_byteOf?_eq_none {letter : UInt8} (h : byteOf? letter = none) :
    letter ≠ Ascii.backslash := by
  rintro rfl
  revert h
  decide

/-! ### The pieces of a raw literal -/

variable (offset : Nat) (d : Decoded)

@[simp] theorem decodeFrom_nil : decodeFrom offset d [] = d := rfl

theorem decodeFrom_byte {b : UInt8} (hb : b ≠ Ascii.backslash) (raw : List UInt8) :
    decodeFrom offset d (b :: raw) = decodeFrom (offset + 1) (d.push b) raw := by
  cases raw with
  | nil => simp [decodeFrom, hb]
  | cons c raw => simp [decodeFrom, hb]

theorem decodeFrom_escape {letter b : UInt8} (h : byteOf? letter = some b) (raw : List UInt8) :
    decodeFrom offset d (Ascii.backslash :: letter :: raw) =
      decodeFrom (offset + 2) (d.push b) raw := by
  simp [decodeFrom, h]

/-- The byte after a malformed backslash is decoded as any other; it is no backslash itself. -/
theorem decodeFrom_unrecognized {letter : UInt8} (h : byteOf? letter = none)
    (raw : List UInt8) :
    decodeFrom offset d (Ascii.backslash :: letter :: raw) =
      decodeFrom (offset + 2) ((d.keep (.unrecognized letter offset)).push letter) raw := by
  rw [← decodeFrom_byte (offset + 1) _ (ne_backslash_of_byteOf?_eq_none h)]
  simp [decodeFrom, h]

theorem decodeFrom_lone :
    decodeFrom offset d [Ascii.backslash] = d.keep (.unterminated offset) := by
  simp [decodeFrom]

/-! ### Decoding what was encoded -/

theorem decodeFrom_encode (bytes : List UInt8) :
    ∀ (offset : Nat) (d : Decoded) (raw : List UInt8),
      decodeFrom offset d (encode bytes ++ raw) =
        decodeFrom (offset + (encode bytes).length)
          { d with bytes := d.bytes ++ bytes.toArray } raw := by
  induction bytes with
  | nil =>
    intro offset d raw
    simp [encode]
  | cons b bytes ih =>
    intro offset d raw
    have hsplit : encode (b :: bytes) = encodeByte b ++ encode bytes := rfl
    rw [hsplit, List.append_assoc, List.length_append]
    cases h : letterOf? b with
    | some letter =>
      have hbyte : encodeByte b = [Ascii.backslash, letter] := by simp [encodeByte, h]
      rw [hbyte, List.cons_append, List.singleton_append,
        decodeFrom_escape offset d (byteOf?_of_letterOf? h), ih]
      simp [Decoded.push, Nat.add_assoc]
    | none =>
      have hbyte : encodeByte b = [b] := by simp [encodeByte, h]
      rw [hbyte, List.singleton_append,
        decodeFrom_byte offset d (ne_of_letterOf?_eq_none h), ih]
      simp [Decoded.push, Nat.add_assoc]

theorem decode_encode (bytes : List UInt8) : decode (encode bytes) = ⟨bytes.toArray, #[]⟩ := by
  have h := decodeFrom_encode bytes 0 {} []
  simpa [decode, decodeAfter] using h

/-- No encoded text begins with a bar, whatever closes it. -/
theorem head?_encode_ne_bar (bytes : List UInt8) {quote : UInt8} (hquote : quote ≠ Ascii.bar)
    (rest : List UInt8) : (encode bytes ++ quote :: rest).head? ≠ some Ascii.bar := by
  cases bytes with
  | nil => simpa [encode] using hquote
  | cons b bytes =>
    have hsplit : encode (b :: bytes) = encodeByte b ++ encode bytes := rfl
    rw [hsplit, encodeByte]
    cases h : letterOf? b with
    | some letter =>
      have hbackslash : Ascii.backslash ≠ Ascii.bar := by decide
      simpa using hbackslash
    | none => simpa using ne_of_letterOf?_eq_none h

/-- A byte that has an escape, and is no letter of one, is nowhere in an encoded text. -/
theorem not_mem_encode {c : UInt8} (bytes : List UInt8)
    (hletter : (letterOf? c).isSome := by decide) (hbyte : byteOf? c = none := by decide) :
    c ∉ encode bytes := by
  intro hmem
  obtain ⟨b, -, hb⟩ := List.mem_flatMap.1 hmem
  rw [encodeByte] at hb
  cases h : letterOf? b with
  | some letter =>
    have hc : c = Ascii.backslash ∨ c = letter := by simpa [h] using hb
    rcases hc with hc | rfl
    · exact ne_backslash_of_byteOf?_eq_none hbyte hc
    · rw [byteOf?_of_letterOf? h] at hbyte
      cases hbyte
  | none =>
    have hc : c = b := by simpa [h] using hb
    exact ne_of_letterOf?_eq_none h hletter hc.symm

theorem nul_not_mem_encode (bytes : List UInt8) : Ascii.nul ∉ encode bytes :=
  not_mem_encode bytes

/-! ### Nothing decodes to nothing -/

theorem size_le_decodeFrom (raw : List UInt8) (offset : Nat) (d : Decoded) :
    d.bytes.size ≤ (decodeFrom offset d raw).bytes.size := by
  fun_induction decodeFrom offset d raw with
  | case1 => exact Nat.le_refl _
  | case2 => simp [Decoded.keep]
  | case3 => simp [Decoded.push]
  | case4 offset d letter rest byte hbyte ih =>
    exact Nat.le_trans (by simp [Decoded.push]) ih
  | case5 offset d letter rest hbyte ih =>
    exact Nat.le_trans (by simp [Decoded.keep]) ih
  | case6 offset d b letter rest hb ih =>
    exact Nat.le_trans (by simp [Decoded.push]) ih

theorem size_lt_decodeFrom {raw : List UInt8} (h : raw ≠ []) (offset : Nat) (d : Decoded) :
    d.bytes.size < (decodeFrom offset d raw).bytes.size := by
  have hpush : ∀ e : Decoded, d.bytes.size < e.bytes.size → ∀ (o : Nat) (r : List UInt8),
      d.bytes.size < (decodeFrom o e r).bytes.size :=
    fun e he o r => Nat.lt_of_lt_of_le he (size_le_decodeFrom r o e)
  match raw with
  | [b] =>
    by_cases hb : b = Ascii.backslash
    · simp [decodeFrom, hb, Decoded.keep]
    · simp [decodeFrom, hb, Decoded.push]
  | b :: letter :: rest =>
    rw [decodeFrom]
    split
    · split
      · exact hpush _ (by simp [Decoded.push]) _ _
      · exact hpush _ (by simp [Decoded.keep]) _ _
    · exact hpush _ (by simp [Decoded.push]) _ _

theorem decode_bytes_ne_nil {raw : List UInt8} (h : raw ≠ []) :
    (decode raw).bytes.toList ≠ [] := by
  have hlt : 0 < (decode raw).bytes.size := size_lt_decodeFrom h 0 {}
  exact List.ne_nil_of_length_pos (by simpa using hlt)

end CinderFront.Escape
