import CinderFront.Proofs.Foresight

/-!
# Collecting and decoding agree on escapes

Escapes are told apart twice. While a literal is read, a backslash takes the next byte along with it
and is entered into a list; when the literal is decoded, the raw bytes are searched for backslashes
once more, by a loop that pairs them differently. The list is of use only if both find the same
backslashes. So either loop is run here with a second output, which it does not look at: the decoder
notes where it begins an escape, and the reader notes where every raw byte comes from.

* `Escape.decodeNoting`, `Escape.starts` — the decoder, and the offsets at which it begins an
  escape;
* `Literal.noting` — the reader of a literal, and the position of every raw byte;
* `LiteralText.escapePosition?_eq_find?` — searching by halves against searching from the front;
* `LiteralText.Agrees` — the list of escapes is that of the decoder, at the positions that the
  reader has noted;
* `LiteralReader`, `LiteralReader.lexeme?_eq_collect` — the three readers of literals;
* `LiteralReader.collect_agrees` — whatever they collect, from any stream, agrees.
-/

namespace CinderFront

/-! ### Where decoding begins an escape -/

namespace Escape

/-- Decodes the rest of a raw literal, which begins at `offset`, and notes the offset of every
backslash that is looked at as the beginning of an escape, whatever comes of it. -/
def decodeNoting (offset : Nat) (d : Decoded) : List UInt8 → Decoded × List Nat
  | [] => (d, [])
  | [b] =>
    if b = Ascii.backslash then (d.keep (.unterminated offset), [offset]) else (d.push b, [])
  | b :: letter :: rest =>
    if b = Ascii.backslash then
      match byteOf? letter with
      | some byte =>
        let (decoded, starts) := decodeNoting (offset + 2) (d.push byte) rest
        (decoded, offset :: starts)
      | none =>
        let (decoded, starts) :=
          decodeNoting (offset + 1) (d.keep (.unrecognized letter offset)) (letter :: rest)
        (decoded, offset :: starts)
    else
      decodeNoting (offset + 1) (d.push b) (letter :: rest)

/-- Noting changes nothing of what is decoded. -/
theorem fst_decodeNoting (offset : Nat) (d : Decoded) (raw : List UInt8) :
    (decodeNoting offset d raw).1 = decodeFrom offset d raw := by
  fun_induction decodeFrom offset d raw with
  | case1 => rfl
  | case2 offset d => rfl
  | case3 offset d b hb => simp [decodeNoting, hb]
  | case4 offset d letter rest byte hbyte ih => simpa [decodeNoting, hbyte] using ih
  | case5 offset d letter rest hbyte ih => simpa [decodeNoting, hbyte] using ih
  | case6 offset d b letter rest hb ih => simpa [decodeNoting, hb] using ih

variable (offset : Nat) (d : Decoded)

theorem snd_decodeNoting_byte {b : UInt8} (hb : b ≠ Ascii.backslash) (raw : List UInt8) :
    (decodeNoting offset d (b :: raw)).2 = (decodeNoting (offset + 1) (d.push b) raw).2 := by
  cases raw with
  | nil => simp [decodeNoting, hb]
  | cons c raw => simp [decodeNoting, hb]

/-- Whatever stands behind a backslash, it is passed before the next escape is begun. -/
theorem exists_snd_decodeNoting_pair (letter : UInt8) (raw : List UInt8) :
    ∃ d', (decodeNoting offset d (Ascii.backslash :: letter :: raw)).2 =
      offset :: (decodeNoting (offset + 2) d' raw).2 := by
  cases hbyte : byteOf? letter with
  | some byte => exact ⟨d.push byte, by simp [decodeNoting, hbyte]⟩
  | none =>
    refine ⟨(d.keep (.unrecognized letter offset)).push letter, ?_⟩
    rw [← snd_decodeNoting_byte (offset + 1) _ (ne_backslash_of_byteOf?_eq_none hbyte)]
    simp [decodeNoting, hbyte]

/-- The offsets at which decoding a raw literal begins an escape. -/
def starts (raw : List UInt8) : List Nat := (decodeNoting 0 {} raw).2

end Escape

/-- The escapes that were entered are those that decoding begins. -/
theorem LiteralText.Collects.map_fst_eq {p : Position} {o : Nat} {x bytes : List UInt8}
    {escapes : List (Nat × Position)} (h : Collects p o x bytes escapes) (d : Escape.Decoded) :
    escapes.map (·.1) = (Escape.decodeNoting o d bytes).2 := by
  induction h generalizing d with
  | nil => rfl
  | @byte p o b x bytes escapes hb _ ih => rw [ih, Escape.snd_decodeNoting_byte o d hb]
  | skip _ ih => exact ih d
  | @pair p o c x bytes escapes _ ih =>
    obtain ⟨d', hd'⟩ := Escape.exists_snd_decodeNoting_pair o d c bytes
    rw [List.map_cons, hd', ih]
  | lone => rfl

/-! ### Searching from the front -/

namespace LiteralText

/-- What the search by halves finds is an entry of the list, also if that is not sorted. -/
theorem mem_of_bisect_eq_some {escapes : Array (Nat × Position)} {offset low high : Nat}
    {position : Position} (h : bisect escapes offset low high = some position) :
    (offset, position) ∈ escapes.toList := by
  fun_induction bisect escapes offset low high with
  | case1 => cases h
  | case2 low high hlt middle here hhere =>
    cases h
    exact List.mem_of_getElem? (by simpa using hhere)
  | case3 low high hlt middle found here hhere hne hless ih => exact ih h
  | case4 low high hlt middle found here hhere hne hless ih => exact ih h
  | case5 => cases h

theorem escapePosition?_eq_some_iff {raw : LiteralText} {offset : Nat} {position : Position}
    (hs : raw.escapes.toList.Pairwise (·.1 < ·.1)) :
    raw.escapePosition? offset = some position ↔ (offset, position) ∈ raw.escapes.toList :=
  ⟨mem_of_bisect_eq_some, escapePosition?_eq_some hs⟩

/-- In a sorted list, an offset has one entry at most, so the first that is met is the one. -/
theorem find?_eq_some_iff {escapes : List (Nat × Position)} {offset : Nat} {position : Position}
    (hs : escapes.Pairwise (·.1 < ·.1)) :
    (escapes.find? (·.1 == offset)).map (·.2) = some position ↔ (offset, position) ∈ escapes := by
  induction hs with
  | nil => simp
  | @cons entry escapes hlt _ ih =>
    obtain ⟨o, q⟩ := entry
    by_cases ho : o = offset
    · subst ho
      have hnot : (o, position) ∉ escapes := fun hmem => Nat.lt_irrefl o (hlt _ hmem)
      simp [hnot, eq_comm]
    · rw [List.find?_cons_of_neg (by simpa using ho), ih]
      simp [Ne.symm ho]

/-- Searching by halves finds what searching from the front finds. -/
theorem escapePosition?_eq_find? {raw : LiteralText}
    (hs : raw.escapes.toList.Pairwise (·.1 < ·.1)) (offset : Nat) :
    raw.escapePosition? offset = (raw.escapes.toList.find? (·.1 == offset)).map (·.2) :=
  Option.ext fun _ => (escapePosition?_eq_some_iff hs).trans (find?_eq_some_iff hs).symm

end LiteralText

/-! ### Where raw bytes come from -/

/-- The bytes of a text that begins at `p`, each with its position. -/
def Position.along (p : Position) : List UInt8 → List (UInt8 × Position)
  | [] => []
  | b :: x => (b, p) :: along (p.past b) x

/-- Every escape that was entered has the position of a backslash. -/
theorem LiteralText.Collects.mem_along {p : Position} {o : Nat} {x bytes : List UInt8}
    {escapes : List (Nat × Position)} (h : Collects p o x bytes escapes) :
    ∀ entry ∈ escapes, (Ascii.backslash, entry.2) ∈ p.along x := by
  induction h with
  | nil => simp
  | byte _ _ ih | skip _ ih => exact fun entry he => List.mem_cons_of_mem _ (ih entry he)
  | pair _ ih =>
    intro entry he
    rcases List.mem_cons.1 he with rfl | he
    · exact List.mem_cons_self
    · exact List.mem_cons_of_mem _ (List.mem_cons_of_mem _ (ih entry he))
  | lone =>
    intro entry he
    rw [List.mem_singleton.1 he]
    exact List.mem_cons_self

namespace Literal

/-- Reads a literal and notes the position of every byte that is taken into the raw literal. -/
def noting (t : Transition Literal) : Transition (Literal × Array Position) where
  stops read b := t.stops read.1 b
  take read b next p :=
    let lit := t.take read.1 b next p
    (lit, if read.1.raw.bytes.size < lit.raw.bytes.size then read.2.push p else read.2)
  complaint read b := t.complaint read.1 b

/-- Noting changes nothing of what is read. -/
theorem run_noting (t : Transition Literal) (text : List UInt8) :
    ∀ (read : Literal × Array Position) (p : Position),
      ((noting t).run read p text).map (·.1) = t.run read.1 p text := by
  induction text with
  | nil => exact fun _ _ => rfl
  | cons b r ih =>
    intro read p
    cases hstop : t.stops read.1 b with
    | true =>
      rw [t.run_cons_of_stops _ p r hstop, (noting t).run_cons_of_stops _ p r hstop]
      rfl
    | false =>
      have hrest := ih ((noting t).take read b (r.headD Ascii.nul) p) (p.past b)
      rw [t.run_cons _ p r hstop, (noting t).run_cons _ p r hstop]
      exact congrArg ((⟨(), [b], r, t.noted read.1 b p⟩ : Passage Unit).append ·) hrest

/-- What becomes of a raw literal when the byte `b` at `p` is taken: nothing, or it is longer by
that byte, and if the byte begins an escape, that is entered. -/
inductive Grows (raw : LiteralText) (b : UInt8) (p : Position) : LiteralText → Prop
  | skip : Grows raw b p raw
  | byte : Grows raw b p (raw.push b)
  | escape : b = Ascii.backslash → Grows raw b p (raw.pushBackslash p)

theorem Form.grows {t : Transition Literal} {quote : UInt8} (ht : Form t quote) {lit : Literal}
    (hopen : lit.isClosed = false) (b next : UInt8) (p : Position) :
    Grows lit.raw b p (t.take lit b next p).raw := by
  obtain ⟨raw, phase⟩ := lit
  by_cases hescaped : phase = .escaped
  · subst hescaped
    rw [ht.take_escaped]
    exact .byte
  · have hphase : phase.IsOpen := by
      cases phase <;> simp_all [LiteralPhase.IsOpen, isClosed]
    have htaken := ht.take_open raw phase b next p hphase
    generalize t.take ⟨raw, phase⟩ b next p = lit at htaken ⊢
    cases htaken with
    | byte _ _ => exact .byte
    | skip _ | close _ => exact .skip
    | escape hb | lineEscape hb _ => exact .escape hb

/-- Every raw byte has its place, and every escape was entered with the place of its backslash. -/
structure Traced (raw : LiteralText) (places : Array Position) : Prop where
  size_eq : places.size = raw.bytes.size
  place_eq : ∀ entry ∈ raw.escapes.toList, places[entry.1]? = some entry.2

/-- The raw bytes, each with its place. -/
def traced (raw : LiteralText) (places : Array Position) : List (UInt8 × Position) :=
  raw.bytes.toList.zip places.toList

/-- A byte is taken into the raw literal, and only if it begins an escape, one is entered. -/
theorem Traced.push {raw raw' : LiteralText} {places : Array Position} {b : UInt8} {p : Position}
    (h : Traced raw places) (hbytes : raw'.bytes = raw.bytes.push b)
    (hescapes : ∀ entry ∈ raw'.escapes.toList,
      entry ∈ raw.escapes.toList ∨ entry = (raw.bytes.size, p)) :
    Traced raw' (places.push p) ∧ traced raw' (places.push p) = traced raw places ++ [(b, p)] := by
  refine ⟨⟨?_, fun entry he => ?_⟩, ?_⟩
  · simp [hbytes, h.size_eq]
  · rcases hescapes entry he with he | rfl
    · have hplace := h.place_eq entry he
      obtain ⟨hlt, -⟩ := Array.getElem?_eq_some_iff.1 hplace
      rw [Array.getElem?_push, if_neg (Nat.ne_of_lt hlt), hplace]
    · rw [Array.getElem?_push, if_pos h.size_eq.symm]
  · simp only [traced, hbytes, Array.toList_push]
    rw [List.zip_append (by simp [h.size_eq])]
    rfl

/-- One step takes one byte of the text with its position, or none. -/
theorem Traced.take {t : Transition Literal} {quote : UInt8} (ht : Form t quote) {lit : Literal}
    {places : Array Position} (h : Traced lit.raw places) (hopen : lit.isClosed = false)
    (b next : UInt8) (p : Position) :
    let read := (noting t).take (lit, places) b next p
    Traced read.1.raw read.2 ∧ ∃ taken, taken.Sublist [(b, p)] ∧
      traced read.1.raw read.2 = traced lit.raw places ++ taken := by
  have hgrows := ht.grows hopen b next p
  simp only [noting]
  generalize (t.take lit b next p).raw = raw at hgrows ⊢
  cases hgrows with
  | skip =>
    rw [if_neg (Nat.lt_irrefl _)]
    exact ⟨h, [], List.nil_sublist _, (List.append_nil _).symm⟩
  | byte =>
    have hbytes : (lit.raw.push b).bytes = lit.raw.bytes.push b := rfl
    rw [if_pos (by simp [hbytes])]
    obtain ⟨htraced, hlast⟩ := h.push hbytes fun _ he => .inl he
    exact ⟨htraced, _, List.Sublist.refl _, hlast⟩
  | escape hb =>
    have hbytes : (lit.raw.pushBackslash p).bytes = lit.raw.bytes.push b := by
      rw [hb]
      rfl
    rw [if_pos (by simp [hbytes])]
    obtain ⟨htraced, hlast⟩ := h.push hbytes fun entry he => by
      simpa [LiteralText.pushBackslash] using he
    exact ⟨htraced, _, List.Sublist.refl _, hlast⟩

/-- All raw bytes come from the text that is passed, in order. -/
theorem Traced.run {t : Transition Literal} {quote : UInt8} (ht : Form t quote)
    (text : List UInt8) :
    ∀ (lit : Literal) (places : Array Position) (p : Position), Traced lit.raw places →
      let o := (noting t).run (lit, places) p text
      Traced o.value.1.raw o.value.2 ∧
        ∃ taken, taken.Sublist (p.along o.passed) ∧
          traced o.value.1.raw o.value.2 = traced lit.raw places ++ taken := by
  induction text with
  | nil => exact fun lit places p h => ⟨h, [], List.nil_sublist _, (List.append_nil _).symm⟩
  | cons b r ih =>
    intro lit places p h
    cases hstop : t.stops lit b with
    | true =>
      rw [(noting t).run_cons_of_stops (lit, places) p r hstop]
      exact ⟨h, [], List.nil_sublist _, (List.append_nil _).symm⟩
    | false =>
      have hopen : lit.isClosed = false := by rw [← ht.stops_eq _ b, hstop]
      rw [(noting t).run_cons (lit, places) p r hstop]
      obtain ⟨htraced, taken, htaken, hstep⟩ := h.take ht hopen b (r.headD Ascii.nul) p
      obtain ⟨hrun, taken', htaken', hrest⟩ := ih _ _ (p.past b) htraced
      refine ⟨hrun, taken ++ taken', htaken.append htaken', ?_⟩
      rw [← List.append_assoc, ← hstep]
      exact hrest

end Literal

/-! ### Agreement -/

/-- The list of escapes of a raw literal, whose bytes have these places, is the one that decoding
needs: its offsets are those at which decoding begins an escape, in ascending order, and each is
there with the place of its backslash. So a search by halves finds what a search from the front
finds, and it finds every malformed escape. -/
structure LiteralText.Agrees (raw : LiteralText) (places : Array Position) : Prop where
  increasing : raw.escapes.toList.Pairwise (·.1 < ·.1)
  starts_eq : raw.escapes.toList.map (·.1) = Escape.starts raw.bytes.toList
  place_eq : ∀ entry ∈ raw.escapes.toList, places[entry.1]? = some entry.2
  search_eq : ∀ offset,
    raw.escapePosition? offset = (raw.escapes.toList.find? (·.1 == offset)).map (·.2)
  found : ∀ e ∈ (Escape.decode raw.bytes.toList).errors.toList,
    ∃ position, raw.escapePosition? e.offset = some position

namespace Literal.Form

variable {t : Transition Literal} {quote : UInt8} (ht : Form t quote)

include ht

/-- Whatever is read as a literal agrees with its decoding, if its places are noted. -/
theorem agrees (p : Position) (text : List UInt8) :
    let read := ((noting t).run ({}, #[]) p text).value
    read.1.raw.Agrees read.2 := by
  intro read
  have hcollects := ht.collects p text
  have herase : read.1 = (t.run {} p text).value := congrArg Passage.value (run_noting t text _ p)
  rw [← herase] at hcollects
  have hincreasing := hcollects.pairwise_escapes
  obtain ⟨htraced, -⟩ := Traced.run ht text {} #[] p ⟨rfl, by simp⟩
  refine ⟨hincreasing, hcollects.map_fst_eq {}, htraced.place_eq,
    LiteralText.escapePosition?_eq_find? hincreasing, fun e he => ?_⟩
  obtain ⟨located, herrors, -, hmem⟩ := hcollects.exists_located {}
  have herrors' : (Escape.decode read.1.raw.bytes.toList).errors.toList = located.map (·.1) := by
    simpa [Escape.decode, Escape.decodeAfter] using herrors
  rw [herrors'] at he
  obtain ⟨l, hl, rfl⟩ := List.mem_map.1 he
  exact ⟨l.2, LiteralText.escapePosition?_eq_some hincreasing (hmem l hl).1⟩

end Literal.Form

/-- Reports at places that do not depend on the choice do not depend on it either. -/
theorem Scan.forM_report_congr {σ δ γ : Type} [ByteStream σ] [Receiver δ] (error : γ → LexicalError)
    {place place' : γ → Position} {l : List γ} (h : ∀ c ∈ l, place c = place' c) :
    (l.forM fun c => report (error c) (place c) : Scan σ δ Unit) =
      l.forM fun c => report (error c) (place' c) := by
  induction l with
  | nil => rfl
  | cons c l ih =>
    have hrest := ih fun c hc => h c (List.mem_cons_of_mem _ hc)
    show (report _ (place c) >>= fun _ => l.forM _) = (report _ (place' c) >>= fun _ => l.forM _)
    rw [h c List.mem_cons_self, hrest]

/-- If every malformed escape is found, the position that stands by is not used. -/
theorem LiteralText.Agrees.decode_eq {σ δ : Type} [ByteStream σ] [Receiver δ] {raw : LiteralText}
    {places : Array Position} (h : raw.Agrees places) (start start' : Position) :
    (Scan.decode raw start : Scan σ δ (List UInt8)) = Scan.decode raw start' := by
  simp only [Scan.decode]
  rw [Scan.forM_report_congr LexicalError.ofEscape fun e he => ?_]
  obtain ⟨position, hposition⟩ := h.found e he
  rw [hposition, Option.getD_some, Option.getD_some]

/-! ### The three readers of literals -/

/-- A form of literals. -/
inductive LiteralReader
  | string
  | multiLine
  | character
  deriving DecidableEq, Repr

namespace LiteralReader

/-- The mark that a literal of the form begins with. -/
def opening : LiteralReader → List UInt8
  | string => [Ascii.doubleQuote]
  | multiLine => [Ascii.doubleQuote, Ascii.bar]
  | character => [Ascii.singleQuote]

/-- How the bytes behind the mark are taken. -/
def form : LiteralReader → Transition Literal
  | string => Literal.quoted Ascii.doubleQuote
  | multiLine => Literal.multiLine
  | character => Literal.quoted Ascii.singleQuote

/-- What is reported of a literal of the form that does not end. -/
def unterminated : LiteralReader → LexicalError
  | string | multiLine => .unterminatedString
  | character => .unterminatedCharacter

theorem exists_form (reader : LiteralReader) : ∃ quote, Literal.Form reader.form quote := by
  cases reader with
  | string => exact ⟨_, Literal.form_quoted (by decide)⟩
  | multiLine => exact ⟨_, Literal.form_multiLine⟩
  | character => exact ⟨_, Literal.form_quoted (by decide)⟩

variable {σ δ : Type} [ByteStream σ] [Receiver δ]

/-- Reads a literal of the form, up to its decoding. -/
def collect (reader : LiteralReader) : Scan σ δ LiteralText :=
  Scan.literal reader.opening.length reader.form reader.unterminated

/-- Whether a literal of the form begins at the current byte. -/
def IsAt (reader : LiteralReader) (s : Scanner σ δ) : Prop :=
  match reader with
  | string => s.view.current = Ascii.doubleQuote ∧ s.view.next ≠ Ascii.bar
  | multiLine => s.view.current = Ascii.doubleQuote ∧ s.view.next = Ascii.bar
  | character => s.view.current = Ascii.singleQuote

/-- What is made of the contents of a literal of the form, which begins at `start`. -/
def conclude (reader : LiteralReader) (start : Position) (contents : List UInt8) :
    Scan σ δ (Option Token.Kind) :=
  match reader with
  | string | multiLine => do
    let symbol ← Scan.intern contents
    return some (.string symbol)
  | character =>
    match contents with
    | [] => do
      Scan.report .emptyCharacter start
      return none
    | [byte] => return some (.character byte)
    | byte :: _ => do
      Scan.report .overlongCharacter start
      return some (.character byte)

/-- A string is collected, decoded and entered into the table. -/
theorem map_string_eq (opening : Nat) (form : Transition Literal) (start : Position) :
    (some <$> Scan.string opening form start : Scan σ δ (Option Token.Kind)) =
      Scan.literal opening form .unterminatedString >>= fun raw =>
        Scan.decode raw start >>= string.conclude start := by
  simp only [Scan.string, map_bind]
  rfl

/-- Where a literal begins, reading a token is to collect its raw bytes, to decode them, and to make
a token of what they stand for. -/
theorem lexeme?_eq_collect {reader : LiteralReader} {s : Scanner σ δ} (h : reader.IsAt s) :
    Scan.lexeme? s =
      (reader.collect >>= fun raw => Scan.decode raw s.view.position >>=
        reader.conclude s.view.position) s := by
  unfold Scan.lexeme? Scan.dispatch
  cases reader with
  | string =>
    rw [h.1, if_pos rfl, if_neg h.2]
    exact congrFun (map_string_eq _ _ _) s
  | multiLine =>
    rw [h.1, if_pos rfl, if_pos h.2]
    exact congrFun (map_string_eq _ _ _) s
  | character =>
    rw [show s.view.current = Ascii.singleQuote from h, if_neg (by decide), if_pos rfl]
    rfl

omit [Receiver δ] in
/-- A literal of the form begins where its mark stands in the text. -/
theorem IsAt.exists_text {reader : LiteralReader} {s : Scanner σ δ} (h : reader.IsAt s)
    {ahead : List UInt8} (hshows : s.view.Shows ahead) :
    ∃ text, ahead = reader.opening ++ text := by
  have hfirst : ∀ {b : UInt8}, b ≠ Ascii.nul → s.view.current = b → ∃ r, ahead = b :: r := by
    intro b hb hcurrent
    rw [hshows.current_eq] at hcurrent
    cases ahead with
    | nil => exact absurd hcurrent.symm hb
    | cons c r => exact ⟨r, congrArg (· :: r) hcurrent⟩
  cases reader with
  | string => exact hfirst (by decide) h.1
  | character => exact hfirst (by decide) h
  | multiLine =>
    obtain ⟨r, rfl⟩ := hfirst (by decide) h.1
    obtain ⟨text, rfl⟩ := List.head?_eq_some_iff.1 ((hshows.next_eq_iff (by decide)).1 h.2)
    exact ⟨text, rfl⟩

/-- Collecting and decoding agree on what an escape is. Whatever stream a literal of any form is
read from, and whatever has come of the stream and the receiver before: if its raw bytes are
collected, they come, in order and each from its place, from the text that the stream offers behind
the mark. The offsets in the list of escapes ascend strictly, they are exactly those at which
decoding begins an escape, and each has the place of its backslash with it. So the search by halves
finds what a search from the front finds, it finds every malformed escape, and the position that
stands by is never used. -/
theorem collect_agrees (reader : LiteralReader) {s s' : Scanner σ δ} {raw : LiteralText}
    (hat : reader.IsAt s) (h : reader.collect s = .ok raw s') :
    ∃ text, s.view.Offers (reader.opening ++ text) ∧
      let start := s.position.after reader.opening
      let o := (Literal.noting reader.form).run ({}, #[]) start text
      let places := o.value.2
      raw = o.value.1.raw ∧ places.size = raw.bytes.size ∧
        (raw.bytes.toList.zip places.toList).Sublist (start.along o.passed) ∧
        (∀ entry ∈ raw.escapes.toList, (Ascii.backslash, entry.2) ∈ start.along o.passed) ∧
        raw.Agrees places ∧
        ∀ fallback, (Scan.decode raw s.position : Scan σ δ (List UInt8)) =
          Scan.decode raw fallback := by
  obtain ⟨ahead, hahead⟩ := s.view.exists_offers
  obtain ⟨t, hshows, hrelates⟩ := Imitation.exists_relates_of_offers (δ := δ) hahead
  have hat' : reader.IsAt t := by
    cases reader with
    | string | multiLine =>
      exact ⟨hrelates.view.current_eq ▸ hat.1, hrelates.view.next_eq ▸ hat.2⟩
    | character => exact hrelates.view.current_eq.symm.trans hat
  obtain ⟨text, rfl⟩ := hat'.exists_text hshows
  refine ⟨text, hahead, ?_⟩
  intro start o places
  obtain ⟨quote, hform⟩ := reader.exists_form
  have herase : o.map (·.1) = reader.form.run {} start text :=
    Literal.run_noting reader.form text ({}, #[]) start
  have hvalue : o.value.1 = (reader.form.run {} start text).value :=
    congrArg Passage.value herase
  have hpassed : o.passed = (reader.form.run {} start text).passed :=
    congrArg Passage.passed herase
  -- The scanner has collected what one over the text alone collects.
  have hraw : raw = o.value.1.raw := by
    obtain ⟨t', ht', -⟩ := Scan.yields_literal reader.form reader.unterminated hshows
    have hfollows := (Scan.uniform_literal reader.opening.length reader.form
      reader.unterminated).follows (Imitation.foreseen σ δ) hrelates
    rw [show Scan.literal _ _ _ s = .ok raw s' from h, ht'] at hfollows
    rw [hvalue]
    cases hfollows with
    | agree _ =>
      rw [← hrelates.view.position_eq]
      rfl
  have hagrees : raw.Agrees places := hraw ▸ hform.agrees start text
  obtain ⟨htraced, taken, htaken, heq⟩ :=
    Literal.Traced.run hform text {} #[] start ⟨rfl, by simp⟩
  refine ⟨hraw, ?_, ?_, ?_, hagrees, hagrees.decode_eq _⟩
  · rw [hraw]
    exact htraced.size_eq
  · rw [hraw]
    have hall : o.value.1.raw.bytes.toList.zip places.toList = taken := heq
    rwa [hall]
  · rw [hraw, hvalue, hpassed]
    exact (hform.collects start text).mem_along

/-- Before a line break, the reader takes a backslash alone, and in front of an unknown letter, the
decoder does; both begin the same two escapes. -/
theorem collect_agrees_lineBreak :
    ∃ (s s' : Scanner SourceText Recorder) (raw : LiteralText),
      Scanner.ofStream (⟨Ascii.codes "\"|a\\\n|b\\q\""⟩ : SourceText) "agreement" .new {} = .ok s ∧
      multiLine.IsAt s ∧ multiLine.collect s = .ok raw s' ∧
      raw.escapes.toList = [(1, ⟨1, 4⟩), (4, ⟨2, 3⟩)] ∧
      Escape.starts raw.bytes.toList = [1, 4] ∧
      ∀ fallback, (Scan.decode raw s.position : Scan SourceText Recorder (List UInt8)) =
        Scan.decode raw fallback := by
  obtain ⟨v, hv, hshows, hposition⟩ := Lookahead.exists_ofStream
    (SourceText.delivers (Ascii.codes "\"|a\\\n|b\\q\""))
  have htext : Ascii.beforeNul (Ascii.codes "\"|a\\\n|b\\q\"") =
      multiLine.opening ++ Ascii.codes "a\\\n|b\\q\"" := by decide +kernel
  rw [htext] at hshows
  let s : Scanner SourceText Recorder := ⟨v, {}, .new, "agreement", false⟩
  have hat : multiLine.IsAt s := ⟨hshows.current_eq, (hshows.next_eq_iff (by decide)).2 rfl⟩
  obtain ⟨s', hs', -⟩ := Scan.yields_literal multiLine.form multiLine.unterminated (s := s) hshows
  rw [show s.view.position = .start from hposition] at hs'
  have hescapes : (multiLine.form.run {} (Position.start.after multiLine.opening)
      (Ascii.codes "a\\\n|b\\q\"")).value.raw.escapes.toList = [(1, ⟨1, 4⟩), (4, ⟨2, 3⟩)] := by
    decide +kernel
  obtain ⟨_, -, -, -, -, -, hagrees, hfallback⟩ := collect_agrees multiLine hat hs'
  have hstarts := hagrees.starts_eq
  rw [hescapes] at hstarts
  exact ⟨s, s', _, by rw [Scanner.ofStream, hv], hat, hs', hescapes, hstarts.symm, hfallback⟩

end LiteralReader

end CinderFront
