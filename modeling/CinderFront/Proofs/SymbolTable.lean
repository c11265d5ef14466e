import CinderFront.SymbolTable

/-!
# Symbols stand for their strings

A symbol table keeps its strings twice: in a sequence, by which symbols are looked up, and in an
index, by which strings are found. The two agree, whatever is interned.

* `SymbolTable.Consistent` — the index holds exactly the strings of the sequence;
* `SymbolTable.Consistent.intern` — interning keeps that;
* `SymbolTable.Consistent.lookup?_intern` — the symbol of a string stands for it;
* `SymbolTable.lookup?_intern_of_lookup?` — a symbol stands for the same string ever after;
* `SymbolTable.Consistent.intern_of_lookup?` — a string that the table holds is found again;
* `SymbolTable.Consistent.strings_internAll` — which strings a table holds once several have been
  interned;
* `SymbolTable.Admits`, `SymbolTable.tryIntern_of_admits`, `SymbolTable.tryIntern_of_not_admits` —
  whether a table has a number for a string, and what comes of asking for one.
-/

namespace CinderFront.SymbolTable

/-- The index holds exactly the strings of the sequence, and the empty string is the first. -/
structure Consistent (t : SymbolTable) : Prop where
  index_eq_some_iff : ∀ (bytes : List UInt8) (n : Nat),
    t.index[bytes]? = some n ↔ t.strings[n]? = some bytes
  empty : t.strings[0]? = some []

theorem consistent_new : new.Consistent := by
  refine ⟨fun bytes n => ?_, rfl⟩
  have hindex : new.index[bytes]? = if [] = bytes then some 0 else none := by
    show ((∅ : Std.TreeMap (List UInt8) Nat).insert [] 0)[bytes]? = _
    rw [Std.TreeMap.getElem?_insert, Std.TreeMap.getElem?_emptyc]
    simp
  have hstrings : new.strings[n]? = if n = 0 then some [] else none := by
    cases n <;> rfl
  rw [hindex, hstrings]
  cases bytes <;> cases n <;> simp

/-- A string that the table does not hold may be added. -/
theorem Consistent.push {t : SymbolTable} (h : t.Consistent) {bytes : List UInt8}
    (hnew : t.index[bytes]? = none) : (t.push bytes).Consistent := by
  have hsize : ∀ n : Nat, t.strings[n]? ≠ some bytes := by
    intro n hn
    rw [← h.index_eq_some_iff, hnew] at hn
    cases hn
  refine ⟨fun bytes' n => ?_, ?_⟩
  · have hindex : (t.push bytes).index[bytes']? =
        if bytes = bytes' then some t.strings.size else t.index[bytes']? := by
      show (t.index.insert bytes t.strings.size)[bytes']? = _
      rw [Std.TreeMap.getElem?_insert]
      simp
    have hstrings : (t.push bytes).strings[n]? =
        if n = t.strings.size then some bytes else t.strings[n]? := Array.getElem?_push
    rw [hindex, hstrings]
    by_cases hbytes : bytes = bytes'
    · subst hbytes
      by_cases hn : n = t.strings.size
      · simp [hn]
      · simp [hn, hsize n, Ne.symm hn]
    · by_cases hn : n = t.strings.size
      · have hnone : t.index[bytes']? ≠ some t.strings.size := by
          rw [ne_eq, h.index_eq_some_iff]
          simp
        simp [hbytes, hn, hnone]
      · simp [hbytes, hn, h.index_eq_some_iff]
  · obtain ⟨hlt, -⟩ := Array.getElem?_eq_some_iff.1 h.empty
    show (t.strings.push bytes)[0]? = some []
    rw [Array.getElem?_push, if_neg (by omega), h.empty]

theorem find?_eq_none_iff {t : SymbolTable} {bytes : List UInt8} :
    t.find? bytes = none ↔ t.index[bytes]? = none := by
  simp [find?]

theorem Consistent.intern {t : SymbolTable} (h : t.Consistent) (bytes : List UInt8) :
    (t.intern bytes).2.Consistent := by
  unfold SymbolTable.intern
  cases hfind : t.find? bytes with
  | some symbol => exact h
  | none => exact h.push (find?_eq_none_iff.1 hfind)

/-- The symbol of a string stands for it. -/
theorem Consistent.lookup?_intern {t : SymbolTable} (h : t.Consistent) (bytes : List UInt8) :
    (t.intern bytes).2.lookup? (t.intern bytes).1 = some bytes := by
  unfold SymbolTable.intern
  cases hfind : t.find? bytes with
  | some symbol =>
    obtain ⟨n, hn, rfl⟩ := Option.map_eq_some_iff.1 hfind
    exact (h.index_eq_some_iff bytes n).1 hn
  | none =>
    show (t.strings.push bytes)[t.strings.size]? = some bytes
    rw [Array.getElem?_push, if_pos rfl]

/-- A symbol stands for the same string, whatever is interned later. -/
theorem lookup?_intern_of_lookup? {t : SymbolTable} {symbol : Symbol} {bytes : List UInt8}
    (h : t.lookup? symbol = some bytes) (bytes' : List UInt8) :
    (t.intern bytes').2.lookup? symbol = some bytes := by
  unfold SymbolTable.intern
  cases t.find? bytes' with
  | some symbol => exact h
  | none =>
    obtain ⟨hlt, -⟩ := Array.getElem?_eq_some_iff.1 h
    show (t.strings.push bytes')[symbol.index]? = some bytes
    rw [Array.getElem?_push, if_neg (Nat.ne_of_lt hlt)]
    exact h

/-! ### Strings that the table holds -/

theorem Consistent.find?_eq_some_iff {t : SymbolTable} (h : t.Consistent) {bytes : List UInt8}
    {symbol : Symbol} : t.find? bytes = some symbol ↔ t.lookup? symbol = some bytes := by
  rw [lookup?, ← h.index_eq_some_iff, find?, Option.map_eq_some_iff]
  constructor
  · intro hfound
    obtain ⟨n, hn, rfl⟩ := hfound
    exact hn
  · intro hfound
    exact ⟨symbol.index, hfound, rfl⟩

/-- A string that the table holds keeps its symbol, and the table stays as it is. -/
theorem Consistent.intern_of_lookup? {t : SymbolTable} (h : t.Consistent) {bytes : List UInt8}
    {symbol : Symbol} (hlookup : t.lookup? symbol = some bytes) :
    t.intern bytes = (symbol, t) := by
  rw [SymbolTable.intern, h.find?_eq_some_iff.2 hlookup]

theorem Consistent.mem_strings_iff {t : SymbolTable} (h : t.Consistent) {bytes : List UInt8} :
    bytes ∈ t.strings.toList ↔ ∃ symbol, t.find? bytes = some symbol := by
  rw [List.mem_iff_getElem?]
  constructor
  · intro hmem
    obtain ⟨n, hn⟩ := hmem
    rw [Array.getElem?_toList] at hn
    exact ⟨⟨n⟩, h.find?_eq_some_iff.2 hn⟩
  · intro hfound
    obtain ⟨symbol, hsymbol⟩ := hfound
    refine ⟨symbol.index, ?_⟩
    rw [Array.getElem?_toList]
    exact h.find?_eq_some_iff.1 hsymbol

/-- The sequence is longer by the string that was interned, if the table did not hold it. -/
theorem Consistent.strings_intern {t : SymbolTable} (h : t.Consistent) (bytes : List UInt8) :
    (t.intern bytes).2.strings.toList =
      if bytes ∈ t.strings.toList then t.strings.toList else t.strings.toList ++ [bytes] := by
  unfold SymbolTable.intern
  cases hfind : t.find? bytes with
  | some symbol => rw [if_pos (h.mem_strings_iff.2 ⟨symbol, hfind⟩)]
  | none =>
    have hnot : bytes ∉ t.strings.toList := by
      intro hmem
      obtain ⟨symbol, hsymbol⟩ := h.mem_strings_iff.1 hmem
      rw [hfind] at hsymbol
      cases hsymbol
    rw [if_neg hnot]
    exact Array.toList_push

/-! ### Several strings -/

/-- The table once several strings have been interned, one after the other. -/
def internAll (t : SymbolTable) (strings : List (List UInt8)) : SymbolTable :=
  strings.foldl (fun t bytes => (t.intern bytes).2) t

/-- The strings that are interned come behind those that the table holds already, each of them once,
in the order in which they first occur. -/
theorem Consistent.strings_internAll {t : SymbolTable} (h : t.Consistent)
    (strings : List (List UInt8)) :
    (t.internAll strings).strings.toList =
      t.strings.toList ++ (strings.filter (· ∉ t.strings.toList)).eraseDups := by
  induction strings generalizing t with
  | nil => simp [internAll]
  | cons bytes strings ih =>
    show ((t.intern bytes).2.internAll strings).strings.toList = _
    rw [ih (h.intern bytes), h.strings_intern]
    by_cases hmem : bytes ∈ t.strings.toList
    · rw [if_pos hmem, List.filter_cons_of_neg (by simpa using hmem)]
    · -- A new string is the first of those that are added, and it is not added again.
      have hagain : strings.filter (· ∉ t.strings.toList ++ [bytes]) =
          (strings.filter (· ∉ t.strings.toList)).filter fun b => !b == bytes := by
        rw [List.filter_filter]
        congr 1
        funext b
        by_cases hb : b = bytes <;> simp [hb]
      rw [if_neg hmem, List.filter_cons_of_pos (by simpa using hmem), List.eraseDups_cons, hagain,
        List.append_assoc]
      rfl

/-! ### How many strings a table holds -/

theorem size_le_intern (t : SymbolTable) (bytes : List UInt8) :
    t.size ≤ (t.intern bytes).2.size := by
  unfold intern
  cases t.find? bytes with
  | some symbol => exact Nat.le_refl _
  | none =>
    show t.strings.size ≤ (t.strings.push bytes).size
    rw [Array.size_push]
    exact Nat.le_succ _

theorem size_intern_le (t : SymbolTable) (bytes : List UInt8) :
    (t.intern bytes).2.size ≤ t.size + 1 := by
  unfold intern
  cases t.find? bytes with
  | some symbol => exact Nat.le_succ _
  | none => exact Nat.le_of_eq (Array.size_push _)

/-! ### Numbers for strings -/

/-- The table has a number for the string: the one it has already, or one that is left. -/
def Admits (t : SymbolTable) (bytes : List UInt8) : Prop :=
  t.size ≤ maxIndex ∨ (t.find? bytes).isSome = true

instance (t : SymbolTable) (bytes : List UInt8) : Decidable (t.Admits bytes) :=
  inferInstanceAs (Decidable (_ ∨ _))

/-- What is entered with success is what interning enters. -/
theorem intern_eq_of_tryIntern {t t' : SymbolTable} {bytes : List UInt8} {symbol : Symbol}
    (h : t.tryIntern bytes = .ok (symbol, t')) : t.intern bytes = (symbol, t') := by
  rcases t.tryIntern_cases bytes with hok | ⟨-, herror⟩
  · exact Except.ok.inj (hok.symm.trans h)
  · cases herror.symm.trans h

/-- A symbol that is made stands for its string. -/
theorem Consistent.lookup?_of_tryIntern {t t' : SymbolTable} {bytes : List UInt8} {symbol : Symbol}
    (ht : t.Consistent) (h : t.tryIntern bytes = .ok (symbol, t')) :
    t'.lookup? symbol = some bytes := by
  have hlookup := ht.lookup?_intern bytes
  rwa [intern_eq_of_tryIntern h] at hlookup

theorem tryIntern_of_admits {t : SymbolTable} {bytes : List UInt8} (h : t.Admits bytes) :
    t.tryIntern bytes = .ok (t.intern bytes) := by
  rw [tryIntern_eq_insert]
  rcases h with hsize | hfound
  · exact insert_eq_intern hsize bytes
  · obtain ⟨symbol, hsymbol⟩ := Option.isSome_iff_exists.1 hfound
    simp only [insert, intern, hsymbol]

theorem tryIntern_of_not_admits {t : SymbolTable} {bytes : List UInt8} (h : ¬ t.Admits bytes) :
    t.tryIntern bytes = .error ⟨t.size⟩ := by
  obtain ⟨hsize, hfound⟩ := not_or.1 h
  have hnone : t.find? bytes = none := by simpa using hfound
  rw [tryIntern_eq_insert]
  simp only [insert, hnone, if_neg hsize]

/-- A string for which there is a number is entered only if that makes no more strings than there
are numbers. -/
theorem admits_iff {t : SymbolTable} (h : t.size ≤ UInt32.size) {bytes : List UInt8} :
    t.Admits bytes ↔ (t.intern bytes).2.size ≤ UInt32.size := by
  have hmax : UInt32.size = maxIndex + 1 := rfl
  unfold Admits intern
  cases hfind : t.find? bytes with
  | some symbol => simpa using h
  | none =>
    have hpush : (t.push bytes).size = t.size + 1 := Array.size_push _
    simp only [Option.isSome_none, Bool.false_eq_true, or_false, hpush]
    omega

end CinderFront.SymbolTable
