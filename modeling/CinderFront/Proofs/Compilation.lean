import CinderFront.Compilation
import CinderFront.Proofs.Backlog
import CinderFront.Proofs.Findings

/-!
# A compilation is a scan with a limit

A compilation scans its source with a backlog for a receiver. What it yields is what a plain scan of
the source yields, except that findings beyond the limit are counted only, and that those which are
kept come in the order of their positions. No two findings of a scan are alike, so dropping
repetitions drops nothing.

* `Lexes.pairwise_key` — no two findings of a text are alike;
* `Compilation.run_of_lexes` — what a run yields, and what it leaves for the next one;
* `Compilation.exists_run_of_not_fit` — a run for whose strings there is no room;
* `Compilation.run_ofSource` — the first run of a compilation against a scan of its source.
-/

namespace CinderFront

/-- No two findings of a text are alike. -/
theorem Lexes.pairwise_key {p : Position} {text : List UInt8} {items : List Item}
    {fs : List Finding} (h : Lexes p text items fs) (sourceName : String) :
    (fs.map (Finding.toDiagnostic sourceName)).Pairwise fun d e => d.key ≠ e.key := by
  refine List.pairwise_map.2 (h.sound.apart.imp fun hapart hkey => hapart.1 ?_)
  obtain ⟨hposition, hcode, -⟩ := ErrorKey.mk.inj hkey
  exact ⟨hcode, hposition⟩

theorem Finding.isError_toDiagnostic (sourceName : String) (f : Finding) :
    (f.toDiagnostic sourceName).isError = true := rfl

namespace Compilation

/-- A run of a compilation whose backlog is empty, and whose symbols have room for the strings of
the source, yields what comes of taking the source apart, as far as the backlog keeps it, and leaves
the backlog empty. -/
theorem run_of_lexes {c : Compilation} {items : List Item} {fs : List Finding}
    (h : Lexes .start (Ascii.beforeNul c.contents) items fs)
    (hfit : Lexes.Fit c.symbols items) {retention : Retention}
    (hbacklog : c.backlog = .new retention) :
    let ds := fs.map (Finding.toDiagnostic c.sourceName)
    let backlog := Backlog.holding retention ds
    c.run = .ok
      ⟨Lexes.tokens c.sourceName c.symbols items ++
          [⟨.endOfFile, c.sourceName, Position.start.after (Ascii.beforeNul c.contents)⟩],
        backlog.sorted, backlog.errorCount, backlog.suppressed⟩
      { c with symbols := Lexes.symbols c.symbols items, backlog := .new retention } := by
  intro ds backlog
  obtain ⟨s, s', hs, htokenize, hreceiver, hsymbols⟩ := exists_tokenize_of_lexes
    (SourceText.delivers c.contents) h c.sourceName hfit (Backlog.new retention)
  have herror : ∀ d ∈ ds, d.isError = true := by
    intro d hd
    obtain ⟨f, -, rfl⟩ := List.mem_map.1 hd
    exact f.isError_toDiagnostic c.sourceName
  have hheld : s'.receiver = backlog := by
    rw [hreceiver, Receptive.acceptAll_backlog]
    exact Backlog.offerAll_new retention ds herror (h.pairwise_key c.sourceName)
  rw [run, hbacklog, hs]
  simp only [htokenize, hheld, hsymbols]
  rfl

/-- A run fails if there is no room for the strings of the source. -/
theorem exists_run_of_not_fit {c : Compilation} {items : List Item} {fs : List Finding}
    (h : Lexes .start (Ascii.beforeNul c.contents) items fs)
    (hfit : ¬ Lexes.Fit c.symbols items) (hsize : c.symbols.size ≤ UInt32.size) :
    ∃ c', c.run = .error (.scan (.capacity ⟨UInt32.size⟩)) c' := by
  obtain ⟨s, s', hs, htokenize⟩ := exists_tokenize_of_not_fit
    (SourceText.delivers c.contents) h c.sourceName hfit hsize c.backlog
  refine ⟨{ c with symbols := s'.symbols, backlog := s'.receiver }, ?_⟩
  rw [run, hs]
  simp only [htokenize]

/-- The first run of a compilation for whose strings there are symbols yields the tokens of a plain
scan of its source and, in the order of their positions, the findings of that scan up to the limit;
the others are counted. The tokens' symbols stand for the same strings as in the scan. Dropping
repeated errors changes nothing. -/
theorem run_ofSource (sourceName : String) {contents : List UInt8} (hfew : FewStrings contents)
    (errorLimit : Nat) :
    ∃ result diagnostics, scan (⟨contents⟩ : SourceText) sourceName = .ok result ∧
      let found := result.diagnostics.length
      let kept := if errorLimit = 0 then found else min errorLimit found
      Diagnostic.StablySorted (result.diagnostics.take kept) diagnostics ∧
        ∀ (deduplicate : Bool) (color : ColorChoice), ∃ after,
          (ofSource sourceName contents ⟨⟨errorLimit, deduplicate⟩, color⟩).run =
            .ok ⟨result.tokens, diagnostics, kept, found - kept⟩ after ∧
          after.symbols = result.symbols := by
  obtain ⟨items, fs, result, hlexes, hscan, htokens, hdiagnostics, hsymbols⟩ :=
    exists_scan hfew sourceName
  let backlog (deduplicate : Bool) :=
    Backlog.holding ⟨errorLimit, deduplicate⟩ result.diagnostics
  have hsorted : Diagnostic.StablySorted (backlog true).kept.toList (backlog true).sorted :=
    (backlog true).stablySorted_sorted
  refine ⟨result, (backlog true).sorted, hscan, hsorted, fun deduplicate color => ?_⟩
  have hrun := run_of_lexes (c := ofSource sourceName contents ⟨⟨errorLimit, deduplicate⟩, color⟩)
    hlexes (hfew.fit hlexes) rfl
  simp only [ofSource, ← htokens, ← hdiagnostics, ← hsymbols] at hrun
  exact ⟨_, hrun, rfl⟩

/-- A source with two defects, of which only the first is kept. -/
theorem run_ofSource_limited :
    FewStrings (Ascii.codes "'' \"\\s") ∧
      ∃ result diagnostics,
        scan (⟨Ascii.codes "'' \"\\s"⟩ : SourceText) "file" = .ok result ∧
        let found := result.diagnostics.length
        let kept := if 1 = 0 then found else min 1 found
        Diagnostic.StablySorted (result.diagnostics.take kept) diagnostics ∧
          ∀ (deduplicate : Bool) (color : ColorChoice), ∃ after,
            (ofSource "file" (Ascii.codes "'' \"\\s") ⟨⟨1, deduplicate⟩, color⟩).run =
              .ok ⟨result.tokens, diagnostics, kept, found - kept⟩ after ∧
            after.symbols = result.symbols :=
  have hfew : FewStrings (Ascii.codes "'' \"\\s") := fewStrings_of_length_lt (by decide)
  ⟨hfew, run_ofSource "file" hfew 1⟩

end Compilation

end CinderFront
