import CinderFront.OperatorTable
import CinderFront.Proofs.Punctuation

/-!
# The tables find the longest mark

Searching the table for the first byte of a text comes to the same as searching all marks from long
spellings to short ones.

* `OperatorTable.resolve_of_at?` — what the table for the first byte of a text finds is the longest
  mark there, and takes as many bytes as that has;
* `Punctuation.longestAt?_of_at?_eq_none` — where there is no table, the longest mark is the single
  byte, if that is a mark at all.
-/

namespace CinderFront

namespace Punctuation

/-- The marks that begin with a byte, those with the longer spellings first. -/
def beginningWith (b : UInt8) : List Punctuation :=
  longestFirst.filter fun m => m.bytes.head? == some b

/-- The longest mark at a text is one of those that begin with the first byte of the text. -/
theorem longestAt?_eq_find?_beginningWith (b : UInt8) (r : List UInt8) :
    longestAt? (b :: r) = (beginningWith b).find? fun m => m.bytes.isPrefixOf (b :: r) := by
  rw [longestAt?_eq_find?, beginningWith, List.find?_filter]
  congr 1
  funext m
  obtain ⟨c, cs, hbytes⟩ := List.exists_cons_of_ne_nil m.bytes_ne_nil
  rw [hbytes, Bool.eq_iff_iff]
  simp [List.isPrefixOf]

end Punctuation

/-! ### Tables -/

namespace OperatorTable

/-- The operators of the table that are longer than the single byte. -/
def marks (table : OperatorTable) : List Punctuation := table.candidates.map (·.2)

theorem beginningWith_trigger {table : OperatorTable} (h : table ∈ all) :
    Punctuation.beginningWith table.trigger = table.marks ++ [table.single] ∧
      table.single.bytes = [table.trigger] := by
  revert table
  decide

theorem codes_candidates {table : OperatorTable} (h : table ∈ all) :
    ∀ entry ∈ table.candidates, Ascii.codes entry.1 = entry.2.bytes := by
  revert table
  decide

theorem find?_marks {table : OperatorTable} (h : table ∈ all) (view : List UInt8) :
    table.marks.find? (fun m => m.bytes.isPrefixOf view) =
      (table.candidates.find? fun entry => (Ascii.codes entry.1).isPrefixOf view).map (·.2) := by
  have hcodes := codes_candidates h
  unfold marks
  generalize table.candidates = entries at hcodes
  induction entries with
  | nil => rfl
  | cons entry entries ih =>
    obtain ⟨hentry, hentries⟩ := List.forall_mem_cons.1 hcodes
    rw [List.map_cons, List.find?_cons, List.find?_cons, ih hentries, hentry]
    cases entry.2.bytes.isPrefixOf view <;> rfl

/-- A table finds the first of its operators that fits, or the single byte. -/
theorem resolve_eq {table : OperatorTable} (h : table ∈ all) (view : List UInt8) :
    table.resolve view =
      let m := (table.marks.find? fun m => m.bytes.isPrefixOf view).getD table.single
      (m, m.bytes.length) := by
  rw [resolve, find?_marks h]
  cases hfound : table.candidates.find? fun entry => (Ascii.codes entry.1).isPrefixOf view with
  | some entry =>
    have hentry := codes_candidates h entry (List.mem_of_find?_eq_some hfound)
    show (entry.2, (Ascii.codes entry.1).length) = (entry.2, entry.2.bytes.length)
    rw [hentry]
  | none => simp [(beginningWith_trigger h).2]

/-- What the table for the first byte of a text finds is the longest mark there. -/
theorem resolve_of_at? {table : OperatorTable} {b : UInt8} (h : at? b = some table)
    (r : List UInt8) :
    ∃ m, table.resolve (b :: r) = (m, m.bytes.length) ∧
      Punctuation.longestAt? (b :: r) = some m := by
  obtain rfl := trigger_eq_of_at? h
  have hmem := List.mem_of_find?_eq_some h
  obtain ⟨hmarks, hsingle⟩ := beginningWith_trigger hmem
  have hfits : table.single.bytes.isPrefixOf (table.trigger :: r) = true := by
    rw [hsingle]
    simp [List.isPrefixOf]
  refine ⟨_, resolve_eq hmem _, ?_⟩
  rw [Punctuation.longestAt?_eq_find?_beginningWith, hmarks, List.find?_append,
    List.find?_singleton, if_pos hfits]
  cases table.marks.find? _ <;> rfl

end OperatorTable

/-! ### Marks that stand by themselves -/

namespace Punctuation

theorem bytes_of_ofByte? {b : UInt8} {m : Punctuation} (h : ofByte? b = some m) :
    m.bytes = [b] := by
  have hall : ∀ entry ∈ delimiters, entry.2.bytes = [entry.1.toUInt8] := by decide
  obtain ⟨entry, hentry, rfl⟩ := Option.map_eq_some_iff.1 h
  rw [hall entry (List.mem_of_find?_eq_some hentry)]
  simpa using List.find?_some hentry

/-- A mark that begins a text whose first byte has no table is that byte alone. -/
theorem ofByte?_of_at?_eq_none {b : UInt8} {r : List UInt8} {m : Punctuation}
    (h : OperatorTable.at? b = none) (hb : b ≠ Ascii.slash) (hm : m.bytes <+: b :: r) :
    ofByte? b = some m := by
  have hall : ∀ m ∈ longestFirst, ∃ c ∈ m.bytes.head?,
      ofByte? c = some m ∨ (OperatorTable.at? c).isSome ∨ c = Ascii.slash := by decide
  obtain ⟨c, hc, hcases⟩ := hall m (mem_longestFirst m)
  obtain ⟨cs, hbytes⟩ := List.head?_eq_some_iff.1 hc
  rw [hbytes] at hm
  obtain rfl : c = b := (List.cons_prefix_cons.1 hm).1
  rcases hcases with hsingle | htable | hslash
  · exact hsingle
  · simp [h] at htable
  · exact absurd hslash hb

/-- Where there is no table, the longest mark is the first byte, if that is a mark at all. -/
theorem longestAt?_of_at?_eq_none {b : UInt8} (h : OperatorTable.at? b = none)
    (hb : b ≠ Ascii.slash) (r : List UInt8) : longestAt? (b :: r) = ofByte? b := by
  cases hfind : ofByte? b with
  | some m =>
    refine longestAt?_eq_some_iff.2 ⟨by simp [bytes_of_ofByte? hfind], fun n hn => ?_⟩
    rw [ofByte?_of_at?_eq_none h hb hn] at hfind
    rw [Option.some.inj hfind]
  | none =>
    refine longestAt?_eq_none_iff.2 fun m hm => ?_
    rw [ofByte?_of_at?_eq_none h hb hm] at hfind
    cases hfind

end Punctuation

end CinderFront
