import CinderFront.Proofs.Escape

/-!
# Decoding, piece by piece

A raw literal falls apart, from left to right, into pairs of a backslash with the byte after it and
into single bytes. The decoder does not make pairs of everything: after a backslash that begins no
escape it goes on with the very next byte. That byte is no backslash, so the pieces come out the
same, and all of decoding can be said of the pieces: what each stands for, and what is wrong with
it.

* `Escape.pieces` — a raw literal taken apart;
* `Escape.raw_induction` — induction on a raw literal by its pieces;
* `Escape.decodeFrom_eq` — the decoder in closed form;
* `Escape.pieces_append`, `Escape.faults_append` — texts one after the other;
* `Escape.encode_contents`, `Escape.pieces_encode` — the pieces that encoding makes;
* `Escape.mem_range_encode_iff` — which raw literals encoding makes, and that it makes them again of
  what they decode to;
* `Escape.decodeOrTake_eq` — the decoder with a short cut for texts without backslashes;
* `Escape.AccountsFor`, `Escape.decodeAfter_local` — what decoding makes of any text, and of two of
  which the first is complete.
-/

namespace CinderFront

/-- The same malformed escape with `n` more bytes before it. -/
def MalformedEscape.behind (n : Nat) : MalformedEscape → MalformedEscape
  | unrecognized b offset => unrecognized b (n + offset)
  | unterminated offset => unterminated (n + offset)

namespace Escape

/-! ### Pieces -/

/-- A piece of a raw literal. -/
inductive Piece
  /-- A byte by itself. A backslash is by itself only at the end of the literal. -/
  | single (b : UInt8)
  /-- A backslash and the byte after it, whatever that is. -/
  | pair (letter : UInt8)
  deriving DecidableEq, Repr

namespace Piece

/-- The bytes of the piece. -/
def bytes : Piece → List UInt8
  | single b => [b]
  | pair letter => [Ascii.backslash, letter]

/-- Whether the piece is an escape that the table has. -/
def isEscape : Piece → Bool
  | single _ => false
  | pair letter => (byteOf? letter).isSome

/-- Whether the piece has a backslash that begins no escape. -/
def isMalformed : Piece → Bool
  | single b => b == Ascii.backslash
  | pair letter => (byteOf? letter).isNone

/-- The bytes that the piece stands for. A pair that is no escape stands for itself. -/
def contents : Piece → List UInt8
  | single b => [b]
  | pair letter =>
    match byteOf? letter with
    | some b => [b]
    | none => [Ascii.backslash, letter]

/-- What is wrong with the piece, if it is malformed and begins at `offset`. -/
def fault (offset : Nat) : Piece → MalformedEscape
  | single _ => .unterminated offset
  | pair letter => .unrecognized letter offset

theorem length_bytes_pos (p : Piece) : 0 < p.bytes.length := by
  cases p <;> simp [bytes]

/-- An escape stands for one byte less than it has. -/
theorem length_bytes (p : Piece) : p.bytes.length = p.contents.length + p.isEscape.toNat := by
  cases p with
  | single b => rfl
  | pair letter => cases h : byteOf? letter <;> simp [bytes, contents, isEscape, h]

end Piece

/-- A raw literal taken apart, from left to right. -/
def pieces : List UInt8 → List Piece
  | [] => []
  | [b] => [.single b]
  | b :: letter :: raw =>
    if b = Ascii.backslash then .pair letter :: pieces raw
    else .single b :: pieces (letter :: raw)

theorem pieces_lone : pieces [Ascii.backslash] = [.single Ascii.backslash] := rfl

theorem pieces_byte {b : UInt8} (hb : b ≠ Ascii.backslash) (raw : List UInt8) :
    pieces (b :: raw) = .single b :: pieces raw := by
  cases raw with
  | nil => rfl
  | cons c raw => rw [pieces, if_neg hb]

theorem pieces_pair (letter : UInt8) (raw : List UInt8) :
    pieces (Ascii.backslash :: letter :: raw) = .pair letter :: pieces raw := by
  rw [pieces, if_pos rfl]

/-- Induction on a raw literal, one piece at a time. -/
theorem raw_induction {motive : List UInt8 → Prop} (nil : motive [])
    (lone : motive [Ascii.backslash])
    (byte : ∀ b raw, b ≠ Ascii.backslash → motive raw → motive (b :: raw))
    (pair : ∀ letter raw, motive raw → motive (Ascii.backslash :: letter :: raw))
    (raw : List UInt8) : motive raw := by
  fun_induction pieces raw with
  | case1 => exact nil
  | case2 b =>
    by_cases hb : b = Ascii.backslash
    · rw [hb]
      exact lone
    · exact byte b [] hb nil
  | case3 letter raw ih => exact pair letter raw ih
  | case4 b letter raw hb ih => exact byte b (letter :: raw) hb ih

/-- The pieces make up the literal. -/
theorem flatMap_bytes_pieces (raw : List UInt8) : (pieces raw).flatMap Piece.bytes = raw := by
  induction raw using raw_induction with
  | nil => rfl
  | lone => rfl
  | byte b raw hb ih =>
    rw [pieces_byte hb, List.flatMap_cons, ih]
    rfl
  | pair letter raw ih =>
    rw [pieces_pair, List.flatMap_cons, ih]
    rfl

/-- A text whose last backslash is not by itself is taken apart as it is, whatever follows it. -/
theorem pieces_append {a : List UInt8} (h : .single Ascii.backslash ∉ pieces a) (b : List UInt8) :
    pieces (a ++ b) = pieces a ++ pieces b := by
  induction a using raw_induction with
  | nil => rfl
  | lone => exact absurd List.mem_cons_self h
  | byte c a hc ih =>
    rw [pieces_byte hc] at h ⊢
    rw [List.cons_append, pieces_byte hc, ih (List.not_mem_of_not_mem_cons h)]
    rfl
  | pair letter a ih =>
    rw [pieces_pair] at h ⊢
    rw [List.cons_append, List.cons_append, pieces_pair, ih (List.not_mem_of_not_mem_cons h)]
    rfl

/-! ### What is wrong with them -/

/-- What is wrong with some pieces, the first of which begins at `offset`. -/
def faults (offset : Nat) : List Piece → List MalformedEscape
  | [] => []
  | p :: ps =>
    if p.isMalformed then p.fault offset :: faults (offset + p.bytes.length) ps
    else faults (offset + p.bytes.length) ps

theorem faults_cons_of_eq_true {p : Piece} (h : p.isMalformed = true) (offset : Nat)
    (ps : List Piece) :
    faults offset (p :: ps) = p.fault offset :: faults (offset + p.bytes.length) ps := by
  rw [faults, if_pos h]

theorem faults_cons_of_eq_false {p : Piece} (h : p.isMalformed = false) (offset : Nat)
    (ps : List Piece) : faults offset (p :: ps) = faults (offset + p.bytes.length) ps := by
  rw [faults, if_neg (by simp [h])]

theorem faults_add (n offset : Nat) (ps : List Piece) :
    faults (n + offset) ps = (faults offset ps).map (MalformedEscape.behind n) := by
  induction ps generalizing offset with
  | nil => rfl
  | cons p ps ih =>
    cases h : p.isMalformed with
    | true =>
      rw [faults_cons_of_eq_true h, faults_cons_of_eq_true h, Nat.add_assoc, ih, List.map_cons]
      cases p <;> rfl
    | false => rw [faults_cons_of_eq_false h, faults_cons_of_eq_false h, Nat.add_assoc, ih]

theorem faults_append (offset : Nat) (ps qs : List Piece) :
    faults offset (ps ++ qs) =
      faults offset ps ++ faults (offset + (ps.flatMap Piece.bytes).length) qs := by
  induction ps generalizing offset with
  | nil => rfl
  | cons p ps ih =>
    rw [List.flatMap_cons, List.length_append, ← Nat.add_assoc]
    cases h : p.isMalformed with
    | true =>
      rw [List.cons_append, faults_cons_of_eq_true h, faults_cons_of_eq_true h, ih]
      rfl
    | false => rw [List.cons_append, faults_cons_of_eq_false h, faults_cons_of_eq_false h, ih]

theorem faults_eq_nil_iff {offset : Nat} {ps : List Piece} :
    faults offset ps = [] ↔ ∀ p ∈ ps, p.isMalformed = false := by
  induction ps generalizing offset with
  | nil => simp [faults]
  | cons p ps ih =>
    cases h : p.isMalformed with
    | true => simp [faults_cons_of_eq_true h, h]
    | false => simp [faults_cons_of_eq_false h, h, ih]

theorem length_faults (offset : Nat) (ps : List Piece) :
    (faults offset ps).length = ps.countP Piece.isMalformed := by
  induction ps generalizing offset with
  | nil => rfl
  | cons p ps ih =>
    cases h : p.isMalformed with
    | true => rw [faults_cons_of_eq_true h, List.countP_cons_of_pos h, List.length_cons, ih]
    | false =>
      rw [faults_cons_of_eq_false h, List.countP_cons_of_neg (by simp [h]), ih]

/-! ### The decoder in closed form -/

/-- What is decoded is what the pieces stand for, and what is wrong with them is found. -/
theorem decodeFrom_eq (raw : List UInt8) (offset : Nat) (d : Decoded) :
    decodeFrom offset d raw =
      ⟨d.bytes ++ ((pieces raw).flatMap Piece.contents).toArray,
        d.errors ++ (faults offset (pieces raw)).toArray⟩ := by
  induction raw using raw_induction generalizing offset d with
  | nil => simp [pieces, faults]
  | lone => simp [decodeFrom_lone, pieces_lone, faults, Piece.isMalformed, Piece.fault,
      Piece.contents, Decoded.keep]
  | byte b raw hb ih =>
    have hfaults := faults_cons_of_eq_false (p := .single b) (by simpa [Piece.isMalformed] using hb)
      offset (pieces raw)
    rw [decodeFrom_byte offset d hb, ih, pieces_byte hb, hfaults]
    simp [Decoded.push, Piece.contents, Piece.bytes]
  | pair letter raw ih =>
    rw [pieces_pair]
    cases h : byteOf? letter with
    | some b =>
      have hfaults := faults_cons_of_eq_false (p := .pair letter) (by simp [Piece.isMalformed, h])
        offset (pieces raw)
      rw [decodeFrom_escape offset d h, ih, hfaults]
      simp [Decoded.push, Piece.contents, Piece.bytes, h]
    | none =>
      have hfaults := faults_cons_of_eq_true (p := .pair letter) (by simp [Piece.isMalformed, h])
        offset (pieces raw)
      rw [decodeFrom_unrecognized offset d h, ih, hfaults]
      simp [Decoded.push, Decoded.keep, Piece.contents, Piece.bytes, Piece.fault, h]

theorem decodeAfter_eq (errors : Array MalformedEscape) (raw : List UInt8) :
    decodeAfter errors raw =
      ⟨((pieces raw).flatMap Piece.contents).toArray,
        errors ++ (faults 0 (pieces raw)).toArray⟩ := by
  rw [decodeAfter, decodeFrom_eq]
  simp

theorem decode_eq_pieces (raw : List UInt8) :
    decode raw = ⟨((pieces raw).flatMap Piece.contents).toArray,
      (faults 0 (pieces raw)).toArray⟩ := by
  rw [decode, decodeAfter_eq]
  simp

/-! ### What encoding makes -/

theorem letterOf?_of_byteOf? {letter b : UInt8} (h : byteOf? letter = some b) :
    letterOf? b = some letter := by
  have hall : (table.all fun entry => letterOf? entry.2 == some entry.1) = true := by decide
  have htable : ∀ entry ∈ table, letterOf? entry.2 = some entry.1 := by simpa using hall
  obtain ⟨entry, hfind, rfl⟩ := Option.map_eq_some_iff.1 h
  have hletter : entry.1 = letter := by simpa using List.find?_some hfind
  rw [htable entry (List.mem_of_find?_eq_some hfind), hletter]

theorem letterOf?_eq_none_iff {b : UInt8} :
    letterOf? b = none ↔
      b ∉ [Ascii.lineFeed, Ascii.carriageReturn, Ascii.tab, Ascii.backslash, Ascii.bar,
        Ascii.singleQuote, Ascii.doubleQuote, Ascii.nul] := by
  show letterOf? b = none ↔ b ∉ table.map (·.2)
  rw [letterOf?, Option.map_eq_none_iff, List.find?_eq_none]
  simp only [beq_iff_eq, List.mem_map, not_exists, not_and]

/-- The piece that a byte is written as. -/
def Piece.ofByte (b : UInt8) : Piece :=
  match letterOf? b with
  | some letter => .pair letter
  | none => .single b

theorem Piece.bytes_ofByte (b : UInt8) : (ofByte b).bytes = encodeByte b := by
  unfold ofByte encodeByte
  cases letterOf? b <;> rfl

theorem Piece.isMalformed_ofByte (b : UInt8) : (ofByte b).isMalformed = false := by
  unfold ofByte
  cases h : letterOf? b with
  | some letter => simp [isMalformed, byteOf?_of_letterOf? h]
  | none => simpa [isMalformed] using ne_of_letterOf?_eq_none h

/-- A piece is the written form of a byte exactly if it is an escape, or a byte by itself that has
no escape of its own. -/
theorem Piece.exists_eq_ofByte_iff {p : Piece} :
    (∃ b, p = ofByte b) ↔
      p.isMalformed = false ∧ ∀ b, p = .single b → letterOf? b = none := by
  constructor
  · rintro ⟨b, rfl⟩
    refine ⟨isMalformed_ofByte b, fun c hc => ?_⟩
    unfold ofByte at hc
    cases h : letterOf? b with
    | some letter =>
      rw [h] at hc
      cases hc
    | none =>
      rw [h] at hc
      cases hc
      exact h
  · rintro ⟨hwell, hsingle⟩
    cases p with
    | single b => exact ⟨b, by rw [ofByte, hsingle b rfl]⟩
    | pair letter =>
      obtain ⟨b, hb⟩ : ∃ b, byteOf? letter = some b := by
        cases h : byteOf? letter with
        | some b => exact ⟨b, rfl⟩
        | none => simp [isMalformed, h] at hwell
      exact ⟨b, by rw [ofByte, letterOf?_of_byteOf? hb]⟩

theorem Piece.contents_ofByte (b : UInt8) : (ofByte b).contents = [b] := by
  unfold ofByte
  cases h : letterOf? b with
  | some letter => simp [contents, byteOf?_of_letterOf? h]
  | none => rfl

/-- What was encoded falls apart into the bytes as they were written. -/
theorem pieces_encode (bytes : List UInt8) : pieces (encode bytes) = bytes.map Piece.ofByte := by
  induction bytes with
  | nil => rfl
  | cons b bytes ih =>
    have hsplit : encode (b :: bytes) = encodeByte b ++ encode bytes := rfl
    rw [hsplit, List.map_cons, ← ih, Piece.ofByte, encodeByte]
    cases h : letterOf? b with
    | some letter => exact pieces_pair letter _
    | none => exact pieces_byte (ne_of_letterOf?_eq_none h) _

theorem exists_eq_ofByte_of_mem {bytes : List UInt8} {p : Piece} (h : p ∈ pieces (encode bytes)) :
    ∃ b, p = Piece.ofByte b := by
  rw [pieces_encode] at h
  obtain ⟨b, -, rfl⟩ := List.mem_map.1 h
  exact ⟨b, rfl⟩

/-- Pieces of which each is the written form of a byte are encoded as they stand. -/
theorem encode_contents {ps : List Piece} (h : ∀ p ∈ ps, ∃ b, p = Piece.ofByte b) :
    encode (ps.flatMap Piece.contents) = ps.flatMap Piece.bytes := by
  induction ps with
  | nil => rfl
  | cons p ps ih =>
    obtain ⟨⟨b, rfl⟩, hps⟩ := List.forall_mem_cons.1 h
    rw [List.flatMap_cons, List.flatMap_cons, Piece.contents_ofByte, Piece.bytes_ofByte, ← ih hps]
    rfl

theorem encode_decodeAfter (errors : Array MalformedEscape) {raw : List UInt8}
    (h : ∀ p ∈ pieces raw, ∃ b, p = Piece.ofByte b) :
    encode (decodeAfter errors raw).bytes.toList = raw := by
  rw [decodeAfter_eq]
  show encode ((pieces raw).flatMap Piece.contents) = raw
  rw [encode_contents h, flatMap_bytes_pieces]

/-- Every piece of a raw literal is the written form of a byte exactly if decoding finds nothing
malformed and no byte stands by itself that has an escape of its own. -/
theorem forall_exists_eq_ofByte_iff (errors : Array MalformedEscape) (raw : List UInt8) :
    (∀ p ∈ pieces raw, ∃ b, p = Piece.ofByte b) ↔
      (decodeAfter errors raw).errors = errors ∧
        ∀ b, .single b ∈ pieces raw → letterOf? b = none := by
  have herrors : (decodeAfter errors raw).errors = errors ↔
      ∀ p ∈ pieces raw, p.isMalformed = false := by
    have hfaults : faults 0 (pieces raw) = [] ↔ _ := faults_eq_nil_iff
    rw [decodeAfter_eq, ← hfaults]
    simp
  rw [herrors]
  simp only [Piece.exists_eq_ofByte_iff]
  constructor
  · intro h
    exact ⟨fun p hp => (h p hp).1, fun b hb => (h _ hb).2 b rfl⟩
  · rintro ⟨hwell, hsingle⟩ p hp
    exact ⟨hwell p hp, fun b hb => hsingle b (hb ▸ hp)⟩

/-- The decoder takes encoding back, and encoding makes exactly those raw literals in which nothing
is malformed and no byte that has an escape stands by itself. These it makes again of what they
decode to. -/
theorem mem_range_encode_iff (errors : Array MalformedEscape) :
    (∀ bytes, decodeAfter errors (encode bytes) = ⟨bytes.toArray, errors⟩) ∧
      ∀ raw, ((∃ bytes, encode bytes = raw) ↔
          (decodeAfter errors raw).errors = errors ∧
            ∀ b, .single b ∈ pieces raw →
              b ∉ [Ascii.lineFeed, Ascii.carriageReturn, Ascii.tab, Ascii.backslash, Ascii.bar,
                Ascii.singleQuote, Ascii.doubleQuote, Ascii.nul]) ∧
        ((∃ bytes, encode bytes = raw) ↔ encode (decodeAfter errors raw).bytes.toList = raw) := by
  refine ⟨fun bytes => ?_, fun raw => ?_⟩
  · have h := decodeFrom_encode bytes 0 { errors } []
    simpa [decodeAfter] using h
  · have hpieces : (∃ bytes, encode bytes = raw) →
        ∀ p ∈ pieces raw, ∃ b, p = Piece.ofByte b := by
      rintro ⟨bytes, rfl⟩ p hp
      exact exists_eq_ofByte_of_mem hp
    simp only [← letterOf?_eq_none_iff]
    rw [← forall_exists_eq_ofByte_iff errors raw]
    constructor
    · exact ⟨hpieces, fun h => ⟨_, encode_decodeAfter errors h⟩⟩
    · exact ⟨fun h => encode_decodeAfter errors (hpieces h), fun h => ⟨_, h⟩⟩

/-! ### What decoding makes of any text -/

/-- The malformed escape is one of the raw literal: its offset is that of a backslash, with the byte
after it if there is one, and that byte is no escape letter. -/
def Marks (raw : List UInt8) : MalformedEscape → Prop
  | .unrecognized b offset => raw[offset]? = some Ascii.backslash ∧ raw[offset + 1]? = some b ∧
      b ∉ table.map (·.1)
  | .unterminated offset => raw[offset]? = some Ascii.backslash ∧ offset + 1 = raw.length

theorem Marks.behind {raw : List UInt8} {e : MalformedEscape} (h : Marks raw e)
    (more : List UInt8) : Marks (more ++ raw) (e.behind more.length) := by
  cases e with
  | unrecognized b offset =>
    obtain ⟨hbackslash, hb, htable⟩ := h
    refine ⟨?_, ?_, htable⟩
    · rw [List.getElem?_append_right (Nat.le_add_right _ _), Nat.add_sub_cancel_left]
      exact hbackslash
    · rw [Nat.add_assoc, List.getElem?_append_right (Nat.le_add_right _ _),
        Nat.add_sub_cancel_left]
      exact hb
  | unterminated offset =>
    obtain ⟨hbackslash, hlength⟩ := h
    refine ⟨?_, ?_⟩
    · rw [List.getElem?_append_right (Nat.le_add_right _ _), Nat.add_sub_cancel_left]
      exact hbackslash
    · rw [List.length_append]
      omega

theorem Marks.offset_lt {raw : List UInt8} {e : MalformedEscape} (h : Marks raw e) :
    e.offset < raw.length := by
  cases e with
  | unrecognized b offset => exact (List.getElem?_eq_some_iff.1 h.1).1
  | unterminated offset => exact (List.getElem?_eq_some_iff.1 h.1).1

/-- What is found wrong with the pieces of a raw literal is wrong with the literal. -/
theorem marks_of_mem_faults {raw : List UInt8} {e : MalformedEscape}
    (h : e ∈ faults 0 (pieces raw)) : Marks raw e := by
  induction raw using raw_induction generalizing e with
  | nil => cases h
  | lone =>
    obtain rfl : e = .unterminated 0 := by
      simpa [pieces_lone, faults, Piece.isMalformed, Piece.fault] using h
    exact ⟨rfl, rfl⟩
  | byte b raw hb ih =>
    have hwell : (Piece.single b).isMalformed = false := by simpa [Piece.isMalformed] using hb
    rw [pieces_byte hb, faults_cons_of_eq_false hwell, Nat.add_comm, faults_add] at h
    obtain ⟨e', he', rfl⟩ := List.mem_map.1 h
    exact (ih he').behind [b]
  | pair letter raw ih =>
    have hlater : ∀ e ∈ faults (0 + (Piece.pair letter).bytes.length) (pieces raw),
        Marks (Ascii.backslash :: letter :: raw) e := by
      intro e he
      rw [Nat.add_comm, faults_add] at he
      obtain ⟨e', he', rfl⟩ := List.mem_map.1 he
      exact (ih he').behind [Ascii.backslash, letter]
    rw [pieces_pair] at h
    cases hletter : byteOf? letter with
    | some b =>
      rw [faults_cons_of_eq_false (by simp [Piece.isMalformed, hletter])] at h
      exact hlater e h
    | none =>
      rw [faults_cons_of_eq_true (by simp [Piece.isMalformed, hletter])] at h
      rcases List.mem_cons.1 h with rfl | h
      · refine ⟨rfl, rfl, ?_⟩
        rw [byteOf?_eq_none_iff] at hletter
        exact hletter
      · exact hlater e h

/-- The pieces of a text begin one behind the other. -/
theorem pairwise_faults (offset : Nat) (ps : List Piece) :
    (∀ e ∈ faults offset ps, offset ≤ e.offset) ∧
      (faults offset ps).Pairwise (·.offset < ·.offset) := by
  induction ps generalizing offset with
  | nil => exact ⟨by simp [faults], .nil⟩
  | cons p ps ih =>
    obtain ⟨hle, hpairwise⟩ := ih (offset + p.bytes.length)
    have hpos := p.length_bytes_pos
    have hlater : ∀ e ∈ faults (offset + p.bytes.length) ps, offset < e.offset := by
      intro e he
      have := hle e he
      omega
    cases h : p.isMalformed with
    | true =>
      rw [faults_cons_of_eq_true h]
      have hfault : (p.fault offset).offset = offset := by cases p <;> rfl
      refine ⟨List.forall_mem_cons.2 ⟨?_, fun e he => Nat.le_of_lt (hlater e he)⟩,
        List.pairwise_cons.2 ⟨fun e he => ?_, hpairwise⟩⟩
      · exact Nat.le_of_eq hfault.symm
      · rw [hfault]
        exact hlater e he
    | false =>
      rw [faults_cons_of_eq_false h]
      exact ⟨fun e he => Nat.le_of_lt (hlater e he), hpairwise⟩

/-- Each escape makes one byte of two, and nothing else changes the length. -/
theorem length_flatMap_bytes (ps : List Piece) :
    (ps.flatMap Piece.bytes).length =
      (ps.flatMap Piece.contents).length + ps.countP Piece.isEscape := by
  induction ps with
  | nil => rfl
  | cons p ps ih =>
    rw [List.flatMap_cons, List.flatMap_cons, List.length_append, List.length_append, ih,
      p.length_bytes, List.countP_cons]
    cases p.isEscape
    · show _ + 0 + _ = _ + (_ + 0)
      omega
    · show _ + 1 + _ = _ + (_ + 1)
      omega

/-- A list of malformed escapes and a list of bytes account for the raw literal. -/
structure AccountsFor (raw : List UInt8) (found : List MalformedEscape) (bytes : List UInt8) :
    Prop where
  pairwise_offset : found.Pairwise (·.offset < ·.offset)
  marks : ∀ e ∈ found, Marks raw e
  /-- Only the last of them can be a backslash at the end. -/
  unterminated_last : ∀ i offset, found[i]? = some (.unterminated offset) → i + 1 = found.length
  length_found : found.length = (pieces raw).countP Piece.isMalformed
  length_raw : raw.length = bytes.length + (pieces raw).countP Piece.isEscape

theorem accountsFor_decode (raw : List UInt8) :
    AccountsFor raw (decode raw).errors.toList (decode raw).bytes.toList := by
  rw [decode_eq_pieces]
  show AccountsFor raw (faults 0 (pieces raw)) ((pieces raw).flatMap Piece.contents)
  obtain ⟨-, hpairwise⟩ := pairwise_faults 0 (pieces raw)
  have hmarks : ∀ e ∈ faults 0 (pieces raw), Marks raw e := fun e he => marks_of_mem_faults he
  refine ⟨hpairwise, hmarks, fun i offset hi => ?_, length_faults 0 _, ?_⟩
  · obtain ⟨hlt, hget⟩ := List.getElem?_eq_some_iff.1 hi
    -- Whatever comes after it would be at a later offset, and there is none.
    refine Nat.le_antisymm hlt (Nat.le_of_not_lt fun hlt' => ?_)
    have hlater := List.pairwise_iff_getElem.1 hpairwise i (i + 1) hlt hlt' (Nat.lt_succ_self i)
    have hinside := (hmarks _ (List.getElem_mem hlt')).offset_lt
    have hend := (hmarks _ (List.mem_of_getElem? hi)).2
    rw [hget] at hlater
    simp only [MalformedEscape.offset] at hlater hinside
    omega
  · rw [← length_flatMap_bytes, flatMap_bytes_pieces]

/-! ### Texts one after the other -/

/-- A text without a backslash stands for itself. -/
theorem pieces_of_not_mem {raw : List UInt8} (h : Ascii.backslash ∉ raw) :
    pieces raw = raw.map Piece.single := by
  induction raw with
  | nil => rfl
  | cons b raw ih =>
    rw [pieces_byte (fun hb => h (hb ▸ List.mem_cons_self)), List.map_cons,
      ih (List.not_mem_of_not_mem_cons h)]

/-- The decoder with a short cut: a text without a backslash is taken as it is. -/
def decodeOrTake (errors : Array MalformedEscape) (raw : List UInt8) : Decoded :=
  if raw.contains Ascii.backslash then decodeFrom 0 { errors } raw else ⟨raw.toArray, errors⟩

/-- The short cut leads to the same end. -/
theorem decodeOrTake_eq (errors : Array MalformedEscape) (raw : List UInt8) :
    decodeOrTake errors raw = decodeAfter errors raw := by
  unfold decodeOrTake
  split
  · rfl
  · next h =>
    have hnot : Ascii.backslash ∉ raw := by simpa using h
    have hfaults : faults 0 (raw.map Piece.single) = [] := by
      rw [faults_eq_nil_iff]
      intro p hp
      obtain ⟨b, hb, rfl⟩ := List.mem_map.1 hp
      have hne : b ≠ Ascii.backslash := fun heq => hnot (heq ▸ hb)
      simpa [Piece.isMalformed] using hne
    have hcontents : (raw.map Piece.single).flatMap Piece.contents = raw := by
      rw [List.flatMap_map]
      exact List.flatMap_singleton' raw
    rw [decodeAfter_eq, pieces_of_not_mem hnot, hfaults, hcontents]
    simp

/-- A text that decoding does not find unterminated has no last backslash by itself. -/
theorem single_backslash_not_mem {a : List UInt8}
    (h : ∀ offset, .unterminated offset ∉ (decode a).errors.toList) :
    .single Ascii.backslash ∉ pieces a := by
  intro hmem
  obtain ⟨ps, qs, hsplit⟩ := List.append_of_mem hmem
  refine h (0 + (ps.flatMap Piece.bytes).length) ?_
  rw [decode_eq_pieces, hsplit]
  show _ ∈ faults 0 (ps ++ .single Ascii.backslash :: qs)
  rw [faults_append, faults_cons_of_eq_true rfl]
  exact List.mem_append_right _ List.mem_cons_self

/-- Decoding, with the short cut or without it, adds what it finds in a text to what was found
before, and that accounts for the text. A text in which no last backslash is left over is decoded by
itself, and what follows it is decoded by itself. -/
theorem decodeAfter_local (errors : Array MalformedEscape) :
    (∀ raw, decodeOrTake errors raw = decodeAfter errors raw ∧
      decodeAfter errors raw = ⟨(decode raw).bytes, errors ++ (decode raw).errors⟩ ∧
      AccountsFor raw (decode raw).errors.toList (decode raw).bytes.toList) ∧
    ∀ a b, (∀ offset, .unterminated offset ∉ (decode a).errors.toList) →
      decodeAfter errors (a ++ b) = ⟨(decode a).bytes ++ (decode b).bytes,
        errors ++ (decode a).errors ++
          (decode b).errors.map (MalformedEscape.behind a.length)⟩ := by
  refine ⟨fun raw => ⟨decodeOrTake_eq errors raw, ?_, accountsFor_decode raw⟩, fun a b h => ?_⟩
  · rw [decodeAfter_eq, decode_eq_pieces]
  · have hfaults : faults 0 (pieces a ++ pieces b) =
        faults 0 (pieces a) ++ (faults 0 (pieces b)).map (MalformedEscape.behind a.length) := by
      rw [faults_append, flatMap_bytes_pieces, Nat.zero_add]
      exact congrArg _ (faults_add a.length 0 (pieces b))
    rw [decodeAfter_eq, pieces_append (single_backslash_not_mem h), List.flatMap_append, hfaults,
      decode_eq_pieces a, decode_eq_pieces b]
    simp

/-- An unknown escape at the end of the first text does not reach into the second, whose own last
backslash is left over. -/
theorem decodeAfter_local_unrecognized :
    (∀ offset, .unterminated offset ∉ (decode (Ascii.codes "\\\\\\q")).errors.toList) ∧
      decodeAfter #[.unterminated 7] (Ascii.codes "\\\\\\q" ++ Ascii.codes "n\\") =
        ⟨(decode (Ascii.codes "\\\\\\q")).bytes ++ (decode (Ascii.codes "n\\")).bytes,
          #[.unterminated 7] ++ (decode (Ascii.codes "\\\\\\q")).errors ++
            (decode (Ascii.codes "n\\")).errors.map
              (MalformedEscape.behind (Ascii.codes "\\\\\\q").length)⟩ := by
  have h : ∀ offset, .unterminated offset ∉ (decode (Ascii.codes "\\\\\\q")).errors.toList := by
    have herrors : (decode (Ascii.codes "\\\\\\q")).errors.toList =
        [.unrecognized 'q'.toUInt8 2] := by decide
    rw [herrors]
    simp
  exact ⟨h, (decodeAfter_local #[.unterminated 7]).2 _ _ h⟩

end Escape

end CinderFront
