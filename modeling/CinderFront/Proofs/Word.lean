import CinderFront.Word

/-!
# Words and their spellings

The tables of reserved words are searched for the bytes of a word. A word is found exactly if it is
the spelling of what is found; that no word is both a keyword and a mode is part of the tables.

* `Keyword.ofBytes?_eq_some_iff`, `Mode.ofBytes?_eq_some_iff` — what a word is found as;
* `Keyword.codes_ne_mode` — no keyword is spelled as a mode.
-/

namespace CinderFront

theorem Keyword.ofBytes?_eq_some_iff {word : List UInt8} {k : Keyword} :
    Keyword.ofBytes? word = some k ↔ word = Ascii.codes k.spelling := by
  constructor
  · intro h
    obtain ⟨entry, hfind, rfl⟩ := Option.map_eq_some_iff.1 h
    have hword : Ascii.codes entry.1 = word := by simpa using List.find?_some hfind
    rw [← Keyword.eq_spelling_of_mem (List.mem_of_find?_eq_some hfind), hword]
  · intro h
    rw [h]
    exact Keyword.ofBytes?_spelling k

theorem Mode.ofBytes?_eq_some_iff {word : List UInt8} {m : Mode} :
    Mode.ofBytes? word = some m ↔ word = Ascii.codes m.spelling := by
  constructor
  · intro h
    obtain ⟨entry, hfind, rfl⟩ := Option.map_eq_some_iff.1 h
    have hword : Ascii.codes entry.1 = word := by simpa using List.find?_some hfind
    rw [← Mode.eq_spelling_of_mem (List.mem_of_find?_eq_some hfind), hword]
  · intro h
    rw [h]
    exact Mode.ofBytes?_spelling m

/-- No keyword is spelled as a mode. -/
theorem Keyword.codes_ne_mode (k : Keyword) (m : Mode) :
    Ascii.codes k.spelling ≠ Ascii.codes m.spelling := by
  intro h
  have hk := Keyword.ofBytes?_spelling k
  rw [h, Keyword.ofBytes?_mode_spelling m] at hk
  cases hk

theorem Mode.ofBytes?_keyword_spelling (k : Keyword) :
    Mode.ofBytes? (Ascii.codes k.spelling) = none := by
  rw [Option.eq_none_iff_forall_ne_some]
  intro m hm
  exact Keyword.codes_ne_mode k m (Mode.ofBytes?_eq_some_iff.1 hm)

/-! ### The bytes of reserved words -/

theorem Keyword.isWordStart_head? (k : Keyword) :
    (Ascii.codes k.spelling).head?.any Ascii.isWordStart = Bool.true := by
  cases k <;> decide

theorem Keyword.isWordByte_of_mem (k : Keyword) :
    ∀ b ∈ Ascii.codes k.spelling, Ascii.isWordByte b = Bool.true := by
  have hall : (Ascii.codes k.spelling).all Ascii.isWordByte = Bool.true := by
    cases k <;> decide
  exact List.all_eq_true.1 hall

theorem Mode.isWordStart_head? (m : Mode) :
    (Ascii.codes m.spelling).head?.any Ascii.isWordStart = true := by
  cases m <;> decide

theorem Mode.isWordByte_of_mem (m : Mode) :
    ∀ b ∈ Ascii.codes m.spelling, Ascii.isWordByte b = true := by
  have hall : (Ascii.codes m.spelling).all Ascii.isWordByte = true := by
    cases m <;> decide
  exact List.all_eq_true.1 hall

end CinderFront
