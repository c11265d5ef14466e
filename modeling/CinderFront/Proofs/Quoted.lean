import CinderFront.Proofs.Run

/-!
# Where a quoted literal ends, and what it stands for

A literal in one pair of quotes ends at the first quote that no pair hides, where pairs are counted
from the beginning. The reader finds that end byte by byte, and the decoder takes the raw literal
apart once more, long after. Both count the same pairs: whatever the text behind the opening quote
is, the end, the contents and the places of malformed escapes can be said from the pairs alone.

* `Paired`, `IsRaw` — whole pairs and other bytes, and the longest beginning of a text that is made
  of them;
* `Paired.exists_split`, `Paired.length_le_of_prefix` — what stands behind that beginning, and that
  nothing longer will do;
* `MalformedEscape.IsIn`, `Paired.exists_errors` — the malformed escapes of a raw literal are those
  pairs that the table does not have;
* `LiteralText.Marked`, `Literal.run_paired` — the reader passes pairs as a whole, and notes where
  they stand;
* `quotation_quoted` — a quoted literal as a whole;
* `Scan.exists_isRaw_readsQuoted` — what the scanner makes of one.
-/

namespace CinderFront

/-! ### Pairs -/

/-- The text is made of pairs of a backslash and the byte after it, and of bytes that are neither
the quote nor a backslash. -/
inductive Paired (quote : UInt8) : List UInt8 → Prop
  | nil : Paired quote []
  | byte {b : UInt8} {x : List UInt8} : b ≠ quote → b ≠ Ascii.backslash → Paired quote x →
      Paired quote (b :: x)
  | pair {c : UInt8} {x : List UInt8} : Paired quote x →
      Paired quote (Ascii.backslash :: c :: x)

/-- What may stand behind the longest beginning that is so made: the end of the text, a last
backslash, or the quote. -/
inductive Ends (quote : UInt8) : List UInt8 → Prop
  | nil : Ends quote []
  | lone : Ends quote [Ascii.backslash]
  | quote {rest : List UInt8} : Ends quote (quote :: rest)

/-- The raw literal at the beginning of the text `r`: the longest beginning that is made of pairs
and other bytes, with the last backslash of the text if only that is left. -/
def IsRaw (quote : UInt8) (r raw : List UInt8) : Prop :=
  ∃ x, Paired quote x ∧ x <+: r ∧ (∀ y, Paired quote y → y <+: r → y.length ≤ x.length) ∧
    raw = if r = x ++ [Ascii.backslash] then r else x

namespace Paired

variable {quote : UInt8} {x y tail : List UInt8}

theorem of_byte {b : UInt8} (h : Paired quote (b :: x)) (hb : b ≠ Ascii.backslash) :
    Paired quote x := by
  cases h with
  | byte _ _ h => exact h
  | pair _ => exact absurd rfl hb

theorem of_pair {c : UInt8} (h : Paired quote (Ascii.backslash :: c :: x)) : Paired quote x := by
  cases h with
  | byte _ hb _ => exact absurd rfl hb
  | pair h => exact h

theorem not_lone : ¬ Paired quote [Ascii.backslash] := by
  intro h
  cases h with
  | byte _ hb _ => exact hb rfl

theorem not_quote (hq : quote ≠ Ascii.backslash) : ¬ Paired quote (quote :: x) := by
  intro h
  cases h with
  | byte hb _ _ => exact hb rfl
  | pair _ => exact hq rfl

/-- Every text begins so, as far as it goes. -/
theorem exists_split (quote : UInt8) (r : List UInt8) :
    ∃ x tail, Paired quote x ∧ Ends quote tail ∧ r = x ++ tail := by
  -- A pair takes two bytes, so the induction is on the length of the text.
  induction hn : r.length using Nat.strong_induction_on generalizing r with
  | _ n ih =>
    subst hn
    cases r with
    | nil => exact ⟨[], [], .nil, .nil, rfl⟩
    | cons b r =>
      by_cases hquote : b = quote
      · subst hquote
        exact ⟨[], _, .nil, .quote, rfl⟩
      by_cases hbackslash : b = Ascii.backslash
      · subst hbackslash
        cases r with
        | nil => exact ⟨[], _, .nil, .lone, rfl⟩
        | cons c r =>
          have hlt : r.length < (Ascii.backslash :: c :: r).length := by
            rw [List.length_cons, List.length_cons]
            omega
          obtain ⟨x, tail, hx, htail, rfl⟩ := ih r.length hlt r rfl
          exact ⟨_, tail, .pair (c := c) hx, htail, rfl⟩
      · obtain ⟨x, tail, hx, htail, rfl⟩ := ih r.length (Nat.lt_succ_self _) r rfl
        exact ⟨_, tail, .byte hquote hbackslash hx, htail, rfl⟩

/-- Nothing longer will do. -/
theorem length_le_of_prefix (hq : quote ≠ Ascii.backslash) (hx : Paired quote x)
    (htail : Ends quote tail) (hy : Paired quote y) (h : y <+: x ++ tail) :
    y.length ≤ x.length := by
  induction hx generalizing y with
  | nil =>
    rw [List.nil_append] at h
    cases y with
    | nil => exact Nat.le_refl _
    | cons b y =>
      cases htail with
      | nil => exact absurd (List.prefix_nil.1 h) (List.cons_ne_nil b y)
      | lone =>
        obtain ⟨rfl, hrest⟩ := List.cons_prefix_cons.1 h
        rw [List.prefix_nil.1 hrest] at hy
        exact absurd hy not_lone
      | quote =>
        obtain ⟨rfl, -⟩ := List.cons_prefix_cons.1 h
        exact absurd hy (not_quote hq)
  | byte hb hb' _ ih =>
    cases y with
    | nil => exact Nat.zero_le _
    | cons c y =>
      obtain ⟨rfl, hrest⟩ := List.cons_prefix_cons.1 h
      exact Nat.succ_le_succ (ih (hy.of_byte hb') hrest)
  | pair _ ih =>
    match y with
    | [] => exact Nat.zero_le _
    | [c] => exact Nat.succ_le_succ (Nat.zero_le _)
    | b :: c :: y =>
      obtain ⟨rfl, hpair⟩ := List.cons_prefix_cons.1 h
      obtain ⟨-, hrest⟩ := List.cons_prefix_cons.1 hpair
      exact Nat.succ_le_succ (Nat.succ_le_succ (ih hy.of_pair hrest))

end Paired

/-- There is one raw literal at the beginning of a text, and no other. -/
theorem IsRaw.eq {quote : UInt8} {r raw raw' : List UInt8} (h : IsRaw quote r raw)
    (h' : IsRaw quote r raw') : raw = raw' := by
  obtain ⟨x, hx, hprefix, hlongest, rfl⟩ := h
  obtain ⟨y, hy, hprefix', hlongest', rfl⟩ := h'
  have hlength : x.length = y.length :=
    Nat.le_antisymm (hlongest' x hx hprefix) (hlongest y hy hprefix')
  have heq : x = y :=
    (List.prefix_of_prefix_length_le hprefix hprefix' (Nat.le_of_eq hlength)).eq_of_length hlength
  rw [heq]

theorem isRaw_of_split {quote : UInt8} (hq : quote ≠ Ascii.backslash) {x tail : List UInt8}
    (hx : Paired quote x) (htail : Ends quote tail) :
    IsRaw quote (x ++ tail) (if tail = [Ascii.backslash] then x ++ tail else x) := by
  refine ⟨x, hx, List.prefix_append x tail, fun y hy h => hx.length_le_of_prefix hq htail hy h, ?_⟩
  simp only [List.append_cancel_left_eq]

/-! ### Malformed escapes -/

/-- The malformed escape `e` is one of the raw literal, whose first byte has the offset `o`: counted
from the beginning, it is a pair that the table does not have, or a last backslash. -/
def MalformedEscape.IsIn (quote : UInt8) (o : Nat) (raw : List UInt8) : MalformedEscape → Prop
  | unrecognized c offset => ∃ u v, raw = u ++ Ascii.backslash :: c :: v ∧ Paired quote u ∧
      Escape.byteOf? c = none ∧ offset = o + u.length
  | unterminated offset => ∃ u, raw = u ++ [Ascii.backslash] ∧ Paired quote u ∧
      offset = o + u.length

namespace MalformedEscape

variable {quote : UInt8} {o : Nat} {x : List UInt8} {e : MalformedEscape}

theorem IsIn.le_offset (h : e.IsIn quote o x) : o ≤ e.offset := by
  cases e with
  | unrecognized c offset =>
    obtain ⟨u, v, -, -, -, rfl⟩ := h
    exact Nat.le_add_right _ _
  | unterminated offset =>
    obtain ⟨u, -, -, rfl⟩ := h
    exact Nat.le_add_right _ _

theorem not_isIn_nil : ¬ e.IsIn quote o [] := by
  intro h
  cases e with
  | unrecognized c offset =>
    obtain ⟨u, v, hraw, -⟩ := h
    simp at hraw
  | unterminated offset =>
    obtain ⟨u, hraw, -⟩ := h
    simp at hraw

theorem isIn_lone_iff : e.IsIn quote o [Ascii.backslash] ↔ e = .unterminated o := by
  constructor
  · intro h
    cases e with
    | unrecognized c offset =>
      obtain ⟨u, v, hraw, -⟩ := h
      have hlength := congrArg List.length hraw
      simp at hlength
      omega
    | unterminated offset =>
      obtain ⟨u, hraw, -, rfl⟩ := h
      obtain rfl : u = [] := by simpa using hraw.symm
      rfl
  · rintro rfl
    exact ⟨[], rfl, .nil, rfl⟩

theorem isIn_byte_iff {b : UInt8} (hb : b ≠ quote) (hb' : b ≠ Ascii.backslash) :
    e.IsIn quote o (b :: x) ↔ e.IsIn quote (o + 1) x := by
  have hlength : ∀ u : List UInt8, o + 1 + u.length = o + (b :: u).length := by
    intro u
    rw [List.length_cons]
    omega
  cases e with
  | unrecognized c offset =>
    constructor
    · rintro ⟨_ | ⟨b', u⟩, v, hraw, hu, hc, hoffset⟩
      · exact absurd (List.cons.inj hraw).1 hb'
      · obtain ⟨rfl, rfl⟩ := List.cons.inj hraw
        exact ⟨u, v, rfl, hu.of_byte hb', hc, hoffset.trans (hlength u).symm⟩
    · rintro ⟨u, v, rfl, hu, hc, hoffset⟩
      exact ⟨b :: u, v, rfl, .byte hb hb' hu, hc, hoffset.trans (hlength u)⟩
  | unterminated offset =>
    constructor
    · rintro ⟨_ | ⟨b', u⟩, hraw, hu, hoffset⟩
      · exact absurd (List.cons.inj hraw).1 hb'
      · obtain ⟨rfl, rfl⟩ := List.cons.inj hraw
        exact ⟨u, rfl, hu.of_byte hb', hoffset.trans (hlength u).symm⟩
    · rintro ⟨u, rfl, hu, hoffset⟩
      exact ⟨b :: u, rfl, .byte hb hb' hu, hoffset.trans (hlength u)⟩

theorem isIn_pair_iff {c : UInt8} :
    e.IsIn quote o (Ascii.backslash :: c :: x) ↔
      (Escape.byteOf? c = none ∧ e = .unrecognized c o) ∨ e.IsIn quote (o + 2) x := by
  have hlength : ∀ u : List UInt8, o + 2 + u.length = o + (Ascii.backslash :: c :: u).length := by
    intro u
    rw [List.length_cons, List.length_cons]
    omega
  cases e with
  | unrecognized d offset =>
    constructor
    · rintro ⟨_ | ⟨b, _ | ⟨c', u⟩⟩, v, hraw, hu, hd, hoffset⟩
      · obtain ⟨-, hrest⟩ := List.cons.inj hraw
        obtain ⟨rfl, -⟩ := List.cons.inj hrest
        exact .inl ⟨hd, congrArg _ hoffset⟩
      · obtain ⟨rfl, -⟩ := List.cons.inj hraw
        exact absurd hu Paired.not_lone
      · obtain ⟨rfl, hrest⟩ := List.cons.inj hraw
        obtain ⟨rfl, rfl⟩ := List.cons.inj hrest
        exact .inr ⟨u, v, rfl, hu.of_pair, hd, hoffset.trans (hlength u).symm⟩
    · rintro (⟨hc, he⟩ | ⟨u, v, rfl, hu, hd, hoffset⟩)
      · obtain ⟨rfl, rfl⟩ := MalformedEscape.unrecognized.inj he
        exact ⟨[], x, rfl, .nil, hc, rfl⟩
      · exact ⟨Ascii.backslash :: c :: u, v, rfl, .pair hu, hd, hoffset.trans (hlength u)⟩
  | unterminated offset =>
    constructor
    · rintro ⟨_ | ⟨b, _ | ⟨c', u⟩⟩, hraw, hu, hoffset⟩
      · cases hraw
      · obtain ⟨rfl, -⟩ := List.cons.inj hraw
        exact absurd hu Paired.not_lone
      · obtain ⟨rfl, hrest⟩ := List.cons.inj hraw
        obtain ⟨rfl, rfl⟩ := List.cons.inj hrest
        exact .inr ⟨u, rfl, hu.of_pair, hoffset.trans (hlength u).symm⟩
    · rintro (⟨-, he⟩ | ⟨u, rfl, hu, hoffset⟩)
      · cases he
      · exact ⟨Ascii.backslash :: c :: u, rfl, .pair hu, hoffset.trans (hlength u)⟩

end MalformedEscape

/-- Decoding finds the malformed escapes of a raw literal, each of them once and in the order of
their offsets, and nothing else. -/
theorem Paired.exists_errors {quote : UInt8} {x tail : List UInt8} (hx : Paired quote x)
    (htail : tail = [] ∨ tail = [Ascii.backslash]) (o : Nat) (d : Escape.Decoded) :
    ∃ es, (Escape.decodeFrom o d (x ++ tail)).errors.toList = d.errors.toList ++ es ∧
      es.Pairwise (·.offset < ·.offset) ∧ ∀ e, e ∈ es ↔ e.IsIn quote o (x ++ tail) := by
  induction hx generalizing o d with
  | nil =>
    rw [List.nil_append]
    rcases htail with rfl | rfl
    · exact ⟨[], by simp, .nil, fun e => by simp [MalformedEscape.not_isIn_nil]⟩
    · refine ⟨[.unterminated o], ?_, by simp, fun e => ?_⟩
      · rw [Escape.decodeFrom_lone]
        simp [Escape.Decoded.keep]
      · rw [List.mem_singleton, MalformedEscape.isIn_lone_iff]
  | @byte b x hb hb' _ ih =>
    obtain ⟨es, herrors, hpairwise, hmem⟩ := ih (o + 1) (d.push b)
    refine ⟨es, ?_, hpairwise, fun e => ?_⟩
    · rw [List.cons_append, Escape.decodeFrom_byte o d hb', herrors]
      rfl
    · rw [List.cons_append, hmem, MalformedEscape.isIn_byte_iff hb hb']
  | @pair c x _ ih =>
    rw [List.cons_append, List.cons_append]
    cases hc : Escape.byteOf? c with
    | some b =>
      obtain ⟨es, herrors, hpairwise, hmem⟩ := ih (o + 2) (d.push b)
      refine ⟨es, ?_, hpairwise, fun e => ?_⟩
      · rw [Escape.decodeFrom_escape o d hc, herrors]
        rfl
      · rw [hmem, MalformedEscape.isIn_pair_iff, hc]
        simp
    | none =>
      obtain ⟨es, herrors, hpairwise, hmem⟩ := ih (o + 2) ((d.keep (.unrecognized c o)).push c)
      refine ⟨.unrecognized c o :: es, ?_, ?_, fun e => ?_⟩
      · rw [Escape.decodeFrom_unrecognized o d hc, herrors]
        simp [Escape.Decoded.push, Escape.Decoded.keep]
      · refine List.pairwise_cons.2 ⟨fun e he => ?_, hpairwise⟩
        exact Nat.lt_of_lt_of_le (Nat.lt_add_of_pos_right Nat.two_pos) ((hmem e).1 he).le_offset
      · rw [List.mem_cons, hmem, MalformedEscape.isIn_pair_iff, hc]
        simp

theorem IsRaw.errors {quote : UInt8} {r raw : List UInt8} (h : IsRaw quote r raw) :
    (Escape.decode raw).errors.toList.Pairwise (·.offset < ·.offset) ∧
      ∀ e, e ∈ (Escape.decode raw).errors.toList ↔ e.IsIn quote 0 raw := by
  obtain ⟨x, hx, -, -, hraw⟩ := h
  obtain ⟨tail, htail, rfl⟩ : ∃ tail, (tail = [] ∨ tail = [Ascii.backslash]) ∧ raw = x ++ tail := by
    by_cases hlone : r = x ++ [Ascii.backslash]
    · exact ⟨_, .inr rfl, by rw [hraw, if_pos hlone, hlone]⟩
    · exact ⟨_, .inl rfl, by rw [hraw, if_neg hlone, List.append_nil]⟩
  obtain ⟨es, herrors, hpairwise, hmem⟩ := hx.exists_errors htail 0 {}
  have herrors' : (Escape.decode (x ++ tail)).errors.toList = es := by
    simpa [Escape.decode, Escape.decodeAfter] using herrors
  rw [herrors']
  exact ⟨hpairwise, hmem⟩

/-! ### Passing pairs -/

/-- The escapes that are kept beside the raw literal, which begins at `p`, stand where they are said
to stand. -/
def LiteralText.Marked (raw : LiteralText) (p : Position) : Prop :=
  ∀ entry ∈ raw.escapes.toList, entry.1 ≤ raw.bytes.size ∧
    entry.2 = p.after (raw.bytes.toList.take entry.1)

namespace LiteralText.Marked

variable {raw : LiteralText} {p : Position}

theorem push (h : raw.Marked p) (b : UInt8) : (raw.push b).Marked p := by
  intro entry hentry
  obtain ⟨hle, hposition⟩ := h entry hentry
  refine ⟨?_, ?_⟩
  · rw [LiteralText.push, Array.size_push]
    exact Nat.le_succ_of_le hle
  · rw [LiteralText.push, Array.toList_push,
      List.take_append_of_le_length (by rwa [Array.length_toList])]
    exact hposition

theorem pushBackslash (h : raw.Marked p) :
    (raw.pushBackslash (p.after raw.bytes.toList)).Marked p := by
  intro entry hentry
  have hold := h.push Ascii.backslash
  rw [LiteralText.pushBackslash, Array.toList_push, List.mem_append, List.mem_singleton] at hentry
  rcases hentry with hentry | rfl
  · exact hold entry hentry
  · refine ⟨?_, ?_⟩
    · rw [LiteralText.pushBackslash, Array.size_push]
      exact Nat.le_succ _
    · rw [LiteralText.pushBackslash, Array.toList_push,
        List.take_append_of_le_length (Nat.le_of_eq (Array.length_toList).symm),
        ← Array.length_toList, List.take_length]

end LiteralText.Marked

namespace Literal

variable {quote : UInt8}

/-- The reader passes pairs as a whole, and comes to what stands behind them. -/
theorem run_paired (hq : quote ≠ Ascii.backslash) {x : List UInt8} (hx : Paired quote x)
    (tail : List UInt8) {p : Position} {raw : LiteralText} (hraw : raw.Marked p) :
    ∃ raw' : LiteralText, raw'.Marked p ∧ raw'.bytes.toList = raw.bytes.toList ++ x ∧
      (quoted quote).run ⟨raw, .content⟩ (p.after raw.bytes.toList) (x ++ tail) =
        (⟨(), x, tail, []⟩ : Passage Unit).append
          ((quoted quote).run ⟨raw', .content⟩ (p.after raw'.bytes.toList) tail) := by
  induction hx generalizing raw with
  | nil => exact ⟨raw, hraw, by simp, rfl⟩
  | @byte b x hb hb' _ ih =>
    obtain ⟨raw', hmarked, hbytes, hrun⟩ := ih (hraw.push b)
    have htake : ∀ next q, (quoted quote).take ⟨raw, .content⟩ b next q =
        ⟨raw.push b, .content⟩ := fun next q => by simp [quoted, content, hb, hb']
    have hposition : (p.after raw.bytes.toList).past b = p.after (raw.push b).bytes.toList := by
      simp [LiteralText.push, Position.after_append]
    refine ⟨raw', hmarked, ?_, ?_⟩
    · simpa [LiteralText.push] using hbytes
    · rw [List.cons_append, Transition.run_cons _ _ _ _ rfl, htake, hposition, hrun]
      rfl
  | @pair c x _ ih =>
    obtain ⟨raw', hmarked, hbytes, hrun⟩ := ih (hraw.pushBackslash.push c)
    have htake : ∀ next, (quoted quote).take ⟨raw, .content⟩ Ascii.backslash next
        (p.after raw.bytes.toList) =
        ⟨raw.pushBackslash (p.after raw.bytes.toList), .escaped⟩ :=
      fun next => by simp [quoted, content, Ne.symm hq]
    have hposition : ((p.after raw.bytes.toList).past Ascii.backslash).past c =
        p.after ((raw.pushBackslash (p.after raw.bytes.toList)).push c).bytes.toList := by
      simp [LiteralText.push, LiteralText.pushBackslash, Position.after_append]
    refine ⟨raw', hmarked, ?_, ?_⟩
    · simpa [LiteralText.push, LiteralText.pushBackslash] using hbytes
    · rw [List.cons_append, List.cons_append, Transition.run_cons _ _ _ _ rfl, htake,
        Transition.run_cons _ _ _ _ rfl]
      rw [show (quoted quote).take ⟨raw.pushBackslash (p.after raw.bytes.toList), .escaped⟩ c _ _ =
        ⟨(raw.pushBackslash (p.after raw.bytes.toList)).push c, .content⟩ from rfl, hposition, hrun]
      rfl

/-- The reader passes the raw literal and the quote behind it, if there is one. -/
theorem exists_run_quoted (hq : quote ≠ Ascii.backslash) (hq' : quote ≠ Ascii.lineFeed)
    {r raw : List UInt8} (h : IsRaw quote r raw) (p : Position) :
    ∃ closing rest lit, r = raw ++ (closing ++ rest) ∧
      (closing = [quote] ∨ closing = [] ∧ rest = []) ∧
      (quoted quote).run {} p r = ⟨lit, raw ++ closing, rest, []⟩ ∧
      (lit.isClosed = true ↔ closing ≠ []) ∧ lit.raw.bytes.toList = raw ∧ lit.raw.Marked p := by
  obtain ⟨x, tail, hx, htail, rfl⟩ := Paired.exists_split quote r
  obtain rfl := h.eq (isRaw_of_split hq hx htail)
  have hempty : LiteralText.Marked {} p := by
    intro entry hentry
    simp at hentry
  obtain ⟨raw, hmarked, hbytes, hrun⟩ := run_paired hq hx tail hempty
  have hstart : (quoted quote).run {} p (x ++ tail) = _ := hrun
  rw [hstart]
  have hbytes' : raw.bytes.toList = x := by simpa using hbytes
  -- What stands behind the pairs is taken in one step, or not at all.
  cases htail with
  | nil =>
    exact ⟨[], [], ⟨raw, .content⟩, rfl, .inr ⟨rfl, rfl⟩, rfl, by simp [isClosed], hbytes',
      hmarked⟩
  | lone =>
    refine ⟨[], [], ⟨raw.pushBackslash (p.after raw.bytes.toList), .escaped⟩, ?_, .inr ⟨rfl, rfl⟩,
      ?_, by simp [isClosed], ?_, hmarked.pushBackslash⟩
    · simp
    · rw [Transition.run_cons _ _ _ _ rfl]
      simp [quoted, content, Ne.symm hq, Passage.append, Transition.noted]
    · simp [LiteralText.pushBackslash, hbytes']
  | @quote rest =>
    have hnot : quote :: rest ≠ [Ascii.backslash] := fun heq => hq (List.cons.inj heq).1
    rw [if_neg hnot]
    refine ⟨[quote], rest, ⟨raw, .closed⟩, rfl, .inl rfl, ?_, by simp [isClosed], hbytes', hmarked⟩
    have htake : ∀ next q, (quoted quote).take ⟨raw, .content⟩ quote next q = ⟨raw, .closed⟩ :=
      fun next q => by simp [quoted, content]
    rw [Transition.run_cons _ _ _ _ rfl, htake, (form_quoted hq').run_closed]
    simp [Passage.append, Transition.noted, quoted]

end Literal

/-- If the escapes of a collected literal are marked where they stand, each malformed one is
reported at its own offset. -/
theorem LiteralText.Marked.faults_eq {raw : LiteralText} {p : Position} (h : raw.Marked p)
    {x : List UInt8} (hcollects : Collects p 0 x raw.bytes.toList raw.escapes.toList)
    (start : Position) :
    raw.faults start = (Escape.decode raw.bytes.toList).errors.toList.map fun e =>
      ⟨.ofEscape e, p.after (raw.bytes.toList.take e.offset)⟩ := by
  obtain ⟨located, herrors, -, hmem⟩ := hcollects.exists_located {}
  have herrors' : (Escape.decode raw.bytes.toList).errors.toList = located.map (·.1) := by
    simpa [Escape.decode, Escape.decodeAfter] using herrors
  refine List.map_congr_left fun e he => ?_
  rw [herrors'] at he
  obtain ⟨l, hl, rfl⟩ := List.mem_map.1 he
  have hentry := (hmem l hl).1
  rw [escapePosition?_eq_some hcollects.pairwise_escapes hentry, ← (h _ hentry).2]
  rfl

/-! ### Quoted literals -/

/-- What is reported of a literal that does not end. -/
def Literal.unterminated (quote : UInt8) : LexicalError :=
  if quote = Ascii.singleQuote then .unterminatedCharacter else .unterminatedString

/-- The findings for the malformed escapes of a raw literal behind its quote at `p`. -/
def Literal.malformed (quote : UInt8) (p : Position) (raw : List UInt8) : List Finding :=
  (Escape.decode raw).errors.toList.map fun e =>
    ⟨.ofEscape e, p.after (quote :: raw.take e.offset)⟩

/-- The finding for a character literal at `p` that stands for no byte or for more than one. -/
def Literal.miscounted (p : Position) : List UInt8 → List Finding
  | [] => [⟨.emptyCharacter, p⟩]
  | [_] => []
  | _ :: _ :: _ => [⟨.overlongCharacter, p⟩]

theorem quotation_quoted {quote : UInt8} (hq : quote ≠ Ascii.backslash)
    (hq' : quote ≠ Ascii.lineFeed) {r raw : List UInt8} (h : IsRaw quote r raw)
    (unterminated : LexicalError) (p : Position) :
    ∃ closing rest, r = raw ++ (closing ++ rest) ∧
      (closing = [quote] ∨ closing = [] ∧ rest = []) ∧
      quotation (Literal.quoted quote) unterminated [quote] p r =
        ⟨(Escape.decode raw).bytes.toList, quote :: (raw ++ closing), rest,
          (if closing = [] then [⟨unterminated, p.after (quote :: raw)⟩] else []) ++
            Literal.malformed quote p raw⟩ := by
  obtain ⟨closing, rest, lit, hsplit, hclosing, hrun, hclosed, hbytes, hmarked⟩ :=
    Literal.exists_run_quoted hq hq' h (p.after [quote])
  refine ⟨closing, rest, hsplit, hclosing, ?_⟩
  have hcollects := (Literal.form_quoted hq').collects (p.after [quote]) r
  rw [hrun] at hcollects
  have hfaults := hmarked.faults_eq hcollects p
  rw [hbytes] at hfaults
  have hend : (if lit.isClosed then []
        else [⟨unterminated, p.after ([quote] ++ (raw ++ closing))⟩]) =
      (if closing = [] then [⟨unterminated, p.after (quote :: raw)⟩] else [] : List Finding) := by
    by_cases hempty : closing = []
    · have hopen : ¬ lit.isClosed = true := fun hc => hclosed.1 hc hempty
      rw [if_neg hopen, if_pos hempty, hempty, List.append_nil]
      rfl
    · rw [if_pos (hclosed.2 hempty), if_neg hempty]
  simp only [quotation, hrun, LiteralText.contents, hbytes, hfaults, hend]
  rfl

/-- The three rules for character literals as one. -/
theorem Reads.of_quotation {p : Position} {r contents x rest : List UInt8} {fs : List Finding}
    (h : quotation (Literal.quoted Ascii.singleQuote) .unterminatedCharacter [Ascii.singleQuote]
      p r = ⟨contents, x, rest, fs⟩) :
    Reads p (Ascii.singleQuote :: r)
      ⟨contents.head?.map Lexeme.character, x, rest, fs ++ Literal.miscounted p contents⟩ := by
  match contents with
  | [] => exact .emptyCharacter h
  | [b] =>
    rw [Literal.miscounted, List.append_nil]
    exact .character h
  | b :: c :: bs => exact .overlongCharacter h

/-! ### What the scanner makes of them -/

section

variable {σ δ : Type} [ByteStream σ] [Receiver δ] [Receptive δ]

/-- The scanner `s` has the opening quote of a literal before it, and `raw` is the raw literal
behind it. The scanner passes that and the quote behind it, if there is one, and becomes `s'`. It
reports what is wrong in this order: that the literal does not end, the malformed escapes, and that
a character literal stands for no byte or for too many. What it makes of the literal is what the raw
literal decodes to. Only a string for which there is no room among the symbols makes it fail. -/
structure Scan.ReadsQuoted (quote : UInt8) (s s' : Scanner σ δ) (r raw closing rest : List UInt8) :
    Prop where
  split : r = raw ++ (closing ++ rest)
  closing_eq : closing = [quote] ∨ closing = [] ∧ rest = []
  passes : s.Passes (quote :: (raw ++ closing)) rest
    ((if closing = [] then [⟨Literal.unterminated quote, s.position.after (quote :: raw)⟩]
        else []) ++
      Literal.malformed quote s.position raw ++
      (if quote = Ascii.singleQuote then
        Literal.miscounted s.position (Escape.decode raw).bytes.toList else [])) s'
  malformed_pairwise : (Escape.decode raw).errors.toList.Pairwise (·.offset < ·.offset)
  mem_malformed_iff : ∀ e, e ∈ (Escape.decode raw).errors.toList ↔ e.IsIn quote 0 raw
  string : quote = Ascii.doubleQuote → ∀ contents, (Escape.decode raw).bytes.toList = contents →
    s.symbols.Admits contents →
      nextToken s = .ok ⟨.string (s.symbols.intern contents).1, s.sourceName, s.position⟩
        { s' with symbols := (s.symbols.intern contents).2 }
  full : quote = Ascii.doubleQuote → ∀ contents, (Escape.decode raw).bytes.toList = contents →
    ¬ s.symbols.Admits contents → nextToken s = .error (.capacity ⟨s.symbols.size⟩) s'
  empty : quote = Ascii.singleQuote → (Escape.decode raw).bytes.toList = [] →
    nextToken s = nextToken s'
  character : quote = Ascii.singleQuote → ∀ b bs, (Escape.decode raw).bytes.toList = b :: bs →
    nextToken s = .ok ⟨.character b, s.sourceName, s.position⟩ s'

theorem Scan.exists_readsQuoted_string {r raw : List UInt8} {s : Scanner σ δ}
    (hbar : r.head? ≠ some Ascii.bar) (h : s.view.Shows (Ascii.doubleQuote :: r))
    (hraw : IsRaw Ascii.doubleQuote r raw) :
    ∃ s' closing rest, ReadsQuoted Ascii.doubleQuote s s' r raw closing rest := by
  obtain ⟨closing, rest, hsplit, hclosing, hquotation⟩ :=
    quotation_quoted (by decide) (by decide) hraw .unterminatedString s.view.position
  have ho := Reads.string (p := s.view.position) hbar
  have htext : Ascii.doubleQuote :: r = (Ascii.doubleQuote :: (raw ++ closing)) ++ rest := by
    rw [hsplit, List.cons_append, List.append_assoc]
  rw [hquotation, Passage.map, htext] at ho
  have hbegin : s.view.Shows ([] ++ ((Ascii.doubleQuote :: (raw ++ closing)) ++ rest)) := htext ▸ h
  have hdouble : ¬ Ascii.doubleQuote = Ascii.singleQuote := by decide
  have hfindings (fs : List Finding) : fs = fs ++ (if Ascii.doubleQuote = Ascii.singleQuote then
      Literal.miscounted s.position (Escape.decode raw).bytes.toList else []) := by
    rw [if_neg hdouble, List.append_nil]
  by_cases hfits : (Lexeme.string (Escape.decode raw).bytes.toList).Fits s.symbols
  · obtain ⟨s', hs', hpasses⟩ := nextToken_of_reads_some hbegin (by simp) ho hfits
    rw [hfindings (_ ++ _)] at hpasses
    refine ⟨s', closing, rest, hsplit, hclosing, hpasses, hraw.errors.1, hraw.errors.2, ?_, ?_,
      fun hsingle => absurd hsingle hdouble, fun hsingle => absurd hsingle hdouble⟩
    · rintro - contents rfl -
      rw [hs', Scanner.enter, hpasses.symbols_eq]
      rfl
    · rintro - contents rfl hfull
      exact absurd (Lexeme.fits_string_iff.1 hfits) hfull
  · obtain ⟨s', hs', hpasses⟩ := nextToken_of_reads_some_of_not_fits hbegin (by simp) ho hfits
    rw [hfindings (_ ++ _)] at hpasses
    refine ⟨s', closing, rest, hsplit, hclosing, hpasses, hraw.errors.1, hraw.errors.2, ?_, ?_,
      fun hsingle => absurd hsingle hdouble, fun hsingle => absurd hsingle hdouble⟩
    · rintro - contents rfl hadmits
      exact absurd (Lexeme.fits_string_iff.2 hadmits) hfits
    · rintro - contents rfl -
      exact hs'

theorem Scan.exists_readsQuoted_character {r raw : List UInt8} {s : Scanner σ δ}
    (h : s.view.Shows (Ascii.singleQuote :: r)) (hraw : IsRaw Ascii.singleQuote r raw) :
    ∃ s' closing rest, ReadsQuoted Ascii.singleQuote s s' r raw closing rest := by
  obtain ⟨closing, rest, hsplit, hclosing, hquotation⟩ :=
    quotation_quoted (by decide) (by decide) hraw .unterminatedCharacter s.view.position
  have ho := Reads.of_quotation hquotation
  have htext : Ascii.singleQuote :: r = (Ascii.singleQuote :: (raw ++ closing)) ++ rest := by
    rw [hsplit, List.cons_append, List.append_assoc]
  rw [htext] at ho
  have hsingle : ¬ Ascii.singleQuote = Ascii.doubleQuote := by decide
  have hbegin : s.view.Shows ([] ++ ((Ascii.singleQuote :: (raw ++ closing)) ++ rest)) := htext ▸ h
  cases hcontents : (Escape.decode raw).bytes.toList with
  | nil =>
    rw [hcontents] at ho
    obtain ⟨s', hs', hpasses⟩ := nextToken_of_reads_none hbegin (by simp) ho
    refine ⟨s', closing, rest, hsplit, hclosing, ?_, hraw.errors.1, hraw.errors.2,
      fun hdouble => absurd hdouble hsingle, fun hdouble => absurd hdouble hsingle,
      fun _ _ => hs', fun _ b bs hbs => ?_⟩
    · rw [Literal.unterminated, if_pos rfl, if_pos rfl, hcontents]
      exact hpasses
    · cases hcontents.symm.trans hbs
  | cons b bs =>
    rw [hcontents] at ho
    obtain ⟨s', hs', hpasses⟩ := nextToken_of_reads_some hbegin (by simp) ho
      (Lexeme.fits_of_contents?_eq_none s.symbols rfl)
    refine ⟨s', closing, rest, hsplit, hclosing, ?_, hraw.errors.1, hraw.errors.2,
      fun hdouble => absurd hdouble hsingle, fun hdouble => absurd hdouble hsingle,
      fun _ hempty => ?_, fun _ c cs hcs => ?_⟩
    · rw [Literal.unterminated, if_pos rfl, if_pos rfl, hcontents]
      exact hpasses
    · cases hcontents.symm.trans hempty
    · cases hcontents.symm.trans hcs
      exact hs'

/-- A scanner before a quote, which no bar follows if it is a double one, reads the literal by its
pairs: there is one raw literal behind the quote, and it is read and decoded as a whole. -/
theorem Scan.exists_isRaw_readsQuoted {quote : UInt8} {r : List UInt8} {s : Scanner σ δ}
    (hquote : quote = Ascii.singleQuote ∨ quote = Ascii.doubleQuote ∧ r.head? ≠ some Ascii.bar)
    (h : s.view.Shows (quote :: r)) :
    ∃ raw, IsRaw quote r raw ∧ (∀ raw', IsRaw quote r raw' → raw' = raw) ∧
      ∃ s' closing rest, ReadsQuoted quote s s' r raw closing rest := by
  have hq : quote ≠ Ascii.backslash := by
    rcases hquote with rfl | ⟨rfl, -⟩ <;> decide
  obtain ⟨x, tail, hx, htail, hr⟩ := Paired.exists_split quote r
  have hraw := isRaw_of_split hq hx htail
  rw [← hr] at hraw
  refine ⟨_, hraw, fun raw' hraw' => hraw'.eq hraw, ?_⟩
  rcases hquote with rfl | ⟨rfl, hbar⟩
  · exact exists_readsQuoted_character h hraw
  · exact exists_readsQuoted_string hbar h hraw

end

/-- A backslash hides the quote behind it, whatever it is worth to the decoder, and the literal ends
with the text. -/
theorem Scan.exists_isRaw_readsQuoted_hidden :
    ∃ s : Scanner SourceText Recorder,
      Scanner.ofStream (⟨Ascii.codes "'\\q\\\\\\'"⟩ : SourceText) "hidden" .new {} = .ok s ∧
      s.view.Shows (Ascii.singleQuote :: Ascii.codes "\\q\\\\\\'") ∧
      ∃ raw, IsRaw Ascii.singleQuote (Ascii.codes "\\q\\\\\\'") raw ∧
        (∀ raw', IsRaw Ascii.singleQuote (Ascii.codes "\\q\\\\\\'") raw' → raw' = raw) ∧
        ∃ s' closing rest,
          ReadsQuoted Ascii.singleQuote s s' (Ascii.codes "\\q\\\\\\'") raw closing rest := by
  obtain ⟨v, hv, hshows, -⟩ := Lookahead.exists_ofStream
    (SourceText.delivers (Ascii.codes "'\\q\\\\\\'"))
  exact ⟨⟨v, {}, .new, "hidden", false⟩, by rw [Scanner.ofStream, hv], hshows,
    Scan.exists_isRaw_readsQuoted (.inl rfl) hshows⟩

end CinderFront
