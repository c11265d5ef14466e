import CinderFront.Proofs.Run

/-!
# Sources with few strings

Symbols have 32 bits, so a source may have more strings than there are numbers for them. A scan of a
source succeeds exactly if that is not so. Then it yields what comes of taking its text apart;
otherwise it fails for want of room.

* `Lexes.contents`, `Lexes.symbols_eq_internAll` — the contents of the string literals, which are
  what is entered into a table;
* `FewStrings` — there are enough symbols for the strings of a source;
* `fewStrings_of_length_lt` — there are for every source of less than 2^32 bytes;
* `scan_of_lexes`, `exists_scan`, `scan_of_not_fewStrings` — what a scan yields, or how it fails;
* `fewStrings_of_scan` — no other source is scanned with success;
* `scan_append_nul` — what stands behind a NUL changes nothing of that.
-/

namespace CinderFront

/-! ### The strings of a text -/

namespace Lexes

/-- The contents of the string literals among some items. -/
def contents (items : List Item) : List (List UInt8) :=
  items.filterMap fun item => item.lexeme.contents?

/-- Entering some items into a table is interning their contents. -/
theorem symbols_eq_internAll (t : SymbolTable) (items : List Item) :
    symbols t items = t.internAll (contents items) := by
  induction items generalizing t with
  | nil => rfl
  | cons item items ih =>
    show symbols (item.lexeme.enter t) items = _
    rw [ih]
    cases hlexeme : item.lexeme <;>
      simp [contents, hlexeme, Lexeme.contents?, Lexeme.enter, SymbolTable.internAll]

/-- The strings of a new table into which some items have been entered: the empty one, and then the
different contents in the order in which they first occur. -/
theorem strings_symbols_new (items : List Item) :
    (symbols .new items).strings.toList =
      [] :: ((contents items).filter (· ≠ [])).eraseDups := by
  rw [symbols_eq_internAll, SymbolTable.consistent_new.strings_internAll]
  show [[]] ++ ((contents items).filter (· ∉ [[]])).eraseDups = _
  simp only [List.mem_singleton, List.singleton_append]

/-! ### Room for them -/

theorem size_le_symbols (t : SymbolTable) (items : List Item) :
    t.size ≤ (symbols t items).size := by
  induction items generalizing t with
  | nil => exact Nat.le_refl _
  | cons item items ih => exact Nat.le_trans (item.lexeme.size_le_enter t) (ih _)

theorem size_symbols_le (t : SymbolTable) (items : List Item) :
    (symbols t items).size ≤ t.size + items.length := by
  induction items generalizing t with
  | nil => exact Nat.le_refl _
  | cons item items ih =>
    have hitem := item.lexeme.size_enter_le t
    have hitems : (symbols t (item :: items)).size ≤ (item.lexeme.enter t).size + items.length :=
      ih (item.lexeme.enter t)
    rw [List.length_cons]
    omega

theorem fit_append {t : SymbolTable} {items items' : List Item} :
    Fit t (items ++ items') ↔ Fit t items ∧ Fit (symbols t items) items' := by
  induction items generalizing t with
  | nil => exact (and_iff_right trivial).symm
  | cons item items ih => exact (and_congr_right fun _ => ih).trans and_assoc.symm

/-- There is room for some items if entering them makes no more strings than there are numbers. -/
theorem fit_iff {t : SymbolTable} (h : t.size ≤ UInt32.size) {items : List Item} :
    Fit t items ↔ (symbols t items).size ≤ UInt32.size := by
  induction items generalizing t with
  | nil => exact iff_of_true trivial h
  | cons item items ih =>
    constructor
    · intro hfit
      exact (ih ((Lexeme.fits_iff h).1 hfit.1)).1 hfit.2
    · intro hsize
      have hitem : (item.lexeme.enter t).size ≤ UInt32.size :=
        Nat.le_trans (size_le_symbols _ items) hsize
      exact ⟨(Lexeme.fits_iff h).2 hitem, (ih hitem).2 hsize⟩

theorem fit_new_iff {items : List Item} :
    Fit .new items ↔
      ((contents items).filter (· ≠ [])).eraseDups.length < UInt32.size := by
  have hsize : (symbols .new items).size = (symbols .new items).strings.toList.length :=
    Array.length_toList.symm
  rw [fit_iff (by decide), hsize, strings_symbols_new, List.length_cons]
  exact Nat.succ_le_iff

/-- Every item takes up at least one byte of the text. -/
theorem length_le {p : Position} {text : List UInt8} {items : List Item} {fs : List Finding}
    (h : Lexes p text items fs) : items.length ≤ text.length := by
  induction h with
  | finish _ => exact Nat.zero_le _
  | @token p gap x rest l items fs gs _ ho _ ih =>
    have hx : 0 < x.length := List.length_pos_iff.2 ho.passed_ne_nil
    simp only [List.length_cons, List.length_append]
    omega
  | skip _ _ _ ih =>
    simp only [List.length_append]
    omega

end Lexes

/-- There are enough symbols for the strings of the source: however its text is taken apart, its
string literals have fewer than 2^32 different contents, leaving aside the empty one, which has a
symbol from the start. -/
def FewStrings (source : List UInt8) : Prop :=
  ∀ items fs, Lexes .start (Ascii.beforeNul source) items fs →
    ((Lexes.contents items).filter (· ≠ [])).eraseDups.length < UInt32.size

theorem FewStrings.fit {source : List UInt8} (h : FewStrings source) {items : List Item}
    {fs : List Finding} (hlexes : Lexes .start (Ascii.beforeNul source) items fs) :
    Lexes.Fit .new items :=
  Lexes.fit_new_iff.2 (h items fs hlexes)

theorem exists_not_fit {source : List UInt8} (h : ¬ FewStrings source) :
    ∃ items fs, Lexes .start (Ascii.beforeNul source) items fs ∧ ¬ Lexes.Fit .new items := by
  simpa only [FewStrings, not_forall, exists_prop, ← Lexes.fit_new_iff] using h

/-- A source of less than 2^32 bytes has no more strings than that. -/
theorem fewStrings_of_length_lt {source : List UInt8} (h : source.length < UInt32.size) :
    FewStrings source := by
  intro items fs hlexes
  have hprefix : (Ascii.beforeNul source).length ≤ source.length :=
    (List.takeWhile_prefix _).length_le
  have hitems := hlexes.length_le
  have hsize : (Lexes.symbols .new items).size ≤ 1 + items.length :=
    Lexes.size_symbols_le .new items
  exact Lexes.fit_new_iff.1 ((Lexes.fit_iff (by decide)).2 (by omega))

/-! ### Scans -/

section

variable {σ : Type} [ByteStream σ] {stream : σ} {bytes : List UInt8} {items : List Item}
  {fs : List Finding} (hstream : ByteStream.Delivers stream bytes)
  (h : Lexes .start (Ascii.beforeNul bytes) items fs) (sourceName : String)

include hstream h

/-- Whatever stream the source comes from, a scan of it succeeds if there is room for its strings,
and yields what comes of taking its text apart. -/
theorem scan_of_lexes (hfit : Lexes.Fit .new items) :
    ∃ result, scan stream sourceName = .ok result ∧
      result.tokens = Lexes.tokens sourceName .new items ++
        [⟨.endOfFile, sourceName, Position.start.after (Ascii.beforeNul bytes)⟩] ∧
      result.diagnostics = fs.map (Finding.toDiagnostic sourceName) ∧
      result.symbols = Lexes.symbols .new items := by
  obtain ⟨s, s', hs, htokenize, hreceiver, hsymbols⟩ :=
    exists_tokenize_of_lexes hstream h sourceName hfit ({} : Recorder)
  refine ⟨⟨_, s'.receiver.diagnostics.toList, s'.symbols⟩, ?_, rfl, ?_, hsymbols⟩
  · rw [scan, hs]
    simp only [bind, Except.bind, htokenize]
    rfl
  · rw [hreceiver, Receptive.diagnostics_acceptAll]
    rfl

/-- It fails if there is none. -/
theorem scan_of_not_fit (hfit : ¬ Lexes.Fit .new items) :
    scan stream sourceName = .error (.capacity ⟨UInt32.size⟩) := by
  obtain ⟨s, s', hs, htokenize⟩ :=
    exists_tokenize_of_not_fit hstream h sourceName hfit (by decide) ({} : Recorder)
  rw [scan, hs]
  simp only [bind, Except.bind, htokenize]
  rfl

end

/-- A scan of a source in memory that has few strings succeeds, and yields what comes of taking it
apart. -/
theorem exists_scan {source : List UInt8} (hfew : FewStrings source) (sourceName : String) :
    ∃ items fs result, Lexes .start (Ascii.beforeNul source) items fs ∧
      scan (⟨source⟩ : SourceText) sourceName = .ok result ∧
      result.tokens = Lexes.tokens sourceName .new items ++
        [⟨.endOfFile, sourceName, Position.start.after (Ascii.beforeNul source)⟩] ∧
      result.diagnostics = fs.map (Finding.toDiagnostic sourceName) ∧
      result.symbols = Lexes.symbols .new items := by
  obtain ⟨items, fs, hlexes⟩ := exists_lexes .start (Ascii.beforeNul source)
  obtain ⟨result, hresult⟩ :=
    scan_of_lexes (SourceText.delivers source) hlexes sourceName (hfew.fit hlexes)
  exact ⟨items, fs, result, hlexes, hresult⟩

/-- A scan of any other source fails for want of room, and for no other reason. -/
theorem scan_of_not_fewStrings {source : List UInt8} (h : ¬ FewStrings source)
    (sourceName : String) :
    scan (⟨source⟩ : SourceText) sourceName = .error (.capacity ⟨UInt32.size⟩) := by
  obtain ⟨items, fs, hlexes, hfit⟩ := exists_not_fit h
  exact scan_of_not_fit (SourceText.delivers source) hlexes sourceName hfit

/-- A scan that succeeds shows that there are enough symbols. -/
theorem fewStrings_of_scan {source : List UInt8} {sourceName : String} {result : ScanResult}
    (h : scan (⟨source⟩ : SourceText) sourceName = .ok result) : FewStrings source := by
  by_contra hmany
  rw [scan_of_not_fewStrings hmany] at h
  cases h

/-- Two streams of which each delivers its own bytes are scanned alike, if the bytes are the same up
to the first NUL. -/
theorem scan_eq_of_beforeNul_eq {σ τ : Type} [ByteStream σ] [ByteStream τ] {stream : σ}
    {stream' : τ} {bytes bytes' : List UInt8} (hstream : ByteStream.Delivers stream bytes)
    (hstream' : ByteStream.Delivers stream' bytes')
    (h : Ascii.beforeNul bytes = Ascii.beforeNul bytes') (sourceName : String) :
    scan stream sourceName = scan stream' sourceName := by
  obtain ⟨items, fs, hlexes⟩ := exists_lexes .start (Ascii.beforeNul bytes)
  have hlexes' := hlexes
  rw [h] at hlexes'
  by_cases hfit : Lexes.Fit .new items
  · obtain ⟨result, hscan, htokens, hdiagnostics, hsymbols⟩ :=
      scan_of_lexes hstream hlexes sourceName hfit
    obtain ⟨result', hscan', htokens', hdiagnostics', hsymbols'⟩ :=
      scan_of_lexes hstream' hlexes' sourceName hfit
    rw [← h] at htokens'
    have heq : result = result' := by
      cases result
      cases result'
      rw [ScanResult.mk.injEq]
      exact ⟨htokens.trans htokens'.symm, hdiagnostics.trans hdiagnostics'.symm,
        hsymbols.trans hsymbols'.symm⟩
    rw [hscan, hscan', heq]
  · rw [scan_of_not_fit hstream hlexes sourceName hfit,
      scan_of_not_fit hstream' hlexes' sourceName hfit]

/-- Nothing behind a NUL has any influence: with it or without it, a scan yields the same tokens
with the same symbols, the same diagnostics in the same order, and the same table of symbols; and it
does yield them if there are enough symbols. -/
theorem scan_append_nul (source more : List UInt8) (sourceName : String) :
    scan (⟨source ++ Ascii.nul :: more⟩ : SourceText) sourceName =
        scan (⟨source⟩ : SourceText) sourceName ∧
      (FewStrings source → ∃ result, scan (⟨source⟩ : SourceText) sourceName = .ok result) := by
  constructor
  · exact scan_eq_of_beforeNul_eq (SourceText.delivers _) (SourceText.delivers source)
      (Ascii.beforeNul_append_nul source more) sourceName
  · intro hfew
    obtain ⟨-, -, result, -, hscan, -⟩ := exists_scan hfew sourceName
    exact ⟨result, hscan⟩

/-- A string literal before the NUL, and one behind it that does not end. -/
theorem scan_append_nul_strings :
    ∃ result,
      scan (⟨Ascii.codes "\"a\"" ++ Ascii.nul :: Ascii.codes "\"b"⟩ : SourceText) "strings" =
        .ok result ∧
      scan (⟨Ascii.codes "\"a\""⟩ : SourceText) "strings" = .ok result := by
  obtain ⟨heq, hsucceeds⟩ := scan_append_nul (Ascii.codes "\"a\"") (Ascii.codes "\"b") "strings"
  obtain ⟨result, hresult⟩ := hsucceeds (fewStrings_of_length_lt (by decide))
  exact ⟨result, heq.trans hresult, hresult⟩

end CinderFront
