import CinderFront.Proofs.Capacity
import CinderFront.Proofs.Drain

/-!
# A fault only truncates a scan

A stream may break off after some bytes, and a receiver may refuse a report. Either ends the scan,
and either leaves a beginning of what the whole scan would have been: nothing is yielded or reported
that a byte yet to come could still change.

* `ByteStream.BreaksOff` — a stream that delivers certain bytes and then fails;
* `Imitation.brokenOff` — a scanner of such a stream imitates one whose stream goes on;
* `Imitation.refusedAt` — a scanner whose receiver refuses a report imitates one whose receiver
  takes them all;
* `scan_truncated` — what comes of a scan that breaks off, for either reason.
-/

namespace CinderFront

open EStateM.Result (Follows)

/-! ### Streams that break off -/

section

variable {σ τ : Type} [ByteStream σ] [ByteStream τ]

/-- The stream delivers these bytes, one on each call, and then it fails. -/
inductive ByteStream.BreaksOff : σ → List UInt8 → Prop
  | failure {s s' : σ} {e : IoError} : ByteStream.pull s = .error e s' → ByteStream.BreaksOff s []
  | byte {s s' : σ} {b : UInt8} {bytes : List UInt8} :
      ByteStream.pull s = .ok (some b) s' → ByteStream.BreaksOff s' bytes →
      ByteStream.BreaksOff s (b :: bytes)

/-- The first stream breaks off in the middle of what the second has still to come. -/
def Feed.StopsShort (f : Feed σ) (g : Feed τ) : Prop :=
  ∃ bytes rest, f.exhausted = false ∧ ByteStream.BreaksOff f.stream bytes ∧
    g.Holds (bytes ++ rest)

/-- The failure is one of the stream, and what has been recorded is a beginning of what the other
records. -/
def Recorder.BrokenOff (e : ScanFailure) (r q : Recorder) : Prop :=
  (∃ sourceName cause, e = .io sourceName cause) ∧
    r.diagnostics.toList <+: q.diagnostics.toList

/-- A scanner whose stream breaks off imitates one whose stream goes on. -/
def Imitation.brokenOff (σ τ : Type) [ByteStream σ] [ByteStream τ] :
    Imitation σ τ Recorder Recorder where
  streams := Feed.StopsShort
  receivers r q := r = q
  broken := Recorder.BrokenOff
  pull := by
    rintro f g ⟨bytes, rest, hexhausted, hbreaks, hholds⟩
    obtain ⟨g', hg, hg'⟩ := hholds.pull
    cases hbreaks with
    | @failure _ s' e hp =>
      have hf : f.pull = .error e { f with stream := s' } := by simp [Feed.pull, hexhausted, hp]
      rw [hf]
      refine .cut fun name r q hrq => ⟨⟨name, e, rfl⟩, ?_⟩
      exact hrq ▸ List.prefix_rfl
    | @byte _ s' b bytes hp hbreaks =>
      have hf : f.pull = .ok b { f with stream := s' } := by simp [Feed.pull, hexhausted, hp]
      rw [hf, hg]
      exact .agree ⟨bytes, rest, hexhausted, hbreaks, hg'⟩
  report := by
    rintro d r q rfl
    exact .agree rfl
  broken_report := by
    rintro d e r q ⟨he, hprefix⟩
    refine ⟨he, hprefix.trans ?_⟩
    show _ <+: (q.diagnostics.push d).toList
    rw [Array.toList_push]
    exact List.prefix_append _ _

end

/-! ### Receivers that refuse a report -/

/-- The first receiver has recorded what the second has, and has not yet been called often enough to
refuse the call `k`. -/
structure FaultyRecorder.Before (refuses : Nat → Bool) (k : Nat) (r : FaultyRecorder)
    (q : Recorder) : Prop where
  refuses_eq : r.refuses = refuses
  diagnostics_eq : r.diagnostics = q.diagnostics
  calls_eq : r.calls = q.diagnostics.size
  calls_le : r.calls ≤ k

/-- The first receiver has refused the call `k` and has recorded what the second was told before. -/
structure FaultyRecorder.Refused (k : Nat) (e : ScanFailure) (r : FaultyRecorder) (q : Recorder) :
    Prop where
  failure_eq : e = .refused FaultyRecorder.closed
  diagnostics_eq : r.diagnostics.toList = q.diagnostics.toList.take k
  lt_size : k < q.diagnostics.size

/-- A scanner whose receiver refuses the call `k`, and none before, imitates one whose receiver
takes all reports. -/
def Imitation.refusedAt {k : Nat} {refuses : Nat → Bool} (hk : refuses k = true)
    (hbefore : ∀ j < k, refuses j = false) :
    Imitation SourceText SourceText FaultyRecorder Recorder where
  streams f g := f = g
  receivers := FaultyRecorder.Before refuses k
  broken := FaultyRecorder.Refused k
  pull := by
    rintro ⟨⟨bytes⟩, exhausted⟩ g rfl
    cases exhausted with
    | true => exact .agree rfl
    | false =>
      cases bytes with
      | nil => exact .agree rfl
      | cons b bytes => exact .agree rfl
  report := by
    intro d r q h
    show (FaultyRecorder.report d r).Follows _ _ (.ok () (⟨q.diagnostics.push d⟩ : Recorder))
    unfold FaultyRecorder.report
    split
    · next hrefuses =>
      rw [h.refuses_eq] at hrefuses
      -- No earlier call is refused, so this is the call `k`.
      have hcalls : r.calls = k := by
        by_contra hne
        have := hbefore r.calls (Nat.lt_of_le_of_ne h.calls_le hne)
        simp [hrefuses] at this
      have hsize : q.diagnostics.toList.length = k := by
        rw [Array.length_toList, ← h.calls_eq, hcalls]
      refine .cut ⟨rfl, ?_, ?_⟩
      · simp [h.diagnostics_eq, ← hsize]
      · simp only [EStateM.Result.after_ok, Array.size_push, ← hsize, Array.length_toList]
        exact Nat.lt_succ_self _
    · next hrefuses =>
      rw [h.refuses_eq] at hrefuses
      have hcalls : r.calls ≠ k := by
        rintro rfl
        exact hrefuses hk
      refine .agree ⟨h.refuses_eq, ?_, ?_, ?_⟩
      · simp [h.diagnostics_eq]
      · simp [h.calls_eq]
      · exact Nat.lt_of_le_of_ne h.calls_le hcalls
  broken_report := by
    intro d e r q h
    show FaultyRecorder.Refused k e r ⟨q.diagnostics.push d⟩
    have hle : k ≤ q.diagnostics.toList.length := Nat.le_of_lt h.lt_size
    refine ⟨h.failure_eq, ?_, ?_⟩
    · rw [h.diagnostics_eq, Array.toList_push, List.take_append_of_le_length hle]
    · rw [Array.size_push]
      exact Nat.lt_succ_of_lt h.lt_size

/-! ### What comes of a scan that breaks off -/

/-- What was yielded and recorded is a beginning of the result of a whole scan, with the same
contents for every string, and it is the whole unless the stream has failed. -/
structure Drained.Begins {σ : Type} (d : Drained σ Recorder) (sourceName : String)
    (result : ScanResult) : Prop where
  tokens : d.tokens <+: result.tokens
  diagnostics : d.scanner.receiver.diagnostics.toList <+: result.diagnostics
  contents : ∀ token ∈ d.tokens, ∀ symbol, token.kind = .string symbol →
    ∃ contents, d.scanner.symbols.lookup? symbol = some contents ∧
      result.symbols.lookup? symbol = some contents
  ending : d.failure = none ∧ d.tokens = result.tokens ∨
    ∃ cause, d.failure = some (.io sourceName cause)

/-- What was yielded and recorded breaks off at the report `k` of a whole scan, if that has so many
reports, and is the whole otherwise. -/
structure Drained.BreaksOffAt {σ : Type} (d : Drained σ FaultyRecorder) (k : Nat)
    (result : ScanResult) : Prop where
  refused : k < result.diagnostics.length →
    d.failure = some (.refused FaultyRecorder.closed) ∧
    d.scanner.receiver.diagnostics.toList = result.diagnostics.take k ∧
    d.tokens <+: result.tokens
  complete : result.diagnostics.length ≤ k →
    d.failure = none ∧ d.tokens = result.tokens ∧
    d.scanner.receiver.diagnostics.toList = result.diagnostics ∧
    d.scanner.symbols = result.symbols

namespace Scan

theorem begins_of_breaksOff {σ τ : Type} [ByteStream σ] [ByteStream τ] {broken : σ} {whole : τ}
    {bytes rest : List UInt8} (hbroken : ByteStream.BreaksOff broken bytes)
    (hwhole : ByteStream.Delivers whole (bytes ++ rest)) (hfew : FewStrings (bytes ++ rest))
    {sourceName : String}
    {s : Scanner σ Recorder} (hs : Scanner.ofStream broken sourceName .new {} = .ok s) :
    ∃ result, scan whole sourceName = .ok result ∧ (drain s).Begins sourceName result := by
  obtain ⟨items, fs, hlexes⟩ := exists_lexes .start (Ascii.beforeNul (bytes ++ rest))
  obtain ⟨result, hresult, -⟩ := scan_of_lexes hwhole hlexes sourceName (hfew.fit hlexes)
  have hstreams : (Imitation.brokenOff σ τ).streams ⟨broken, false⟩ ⟨whole, false⟩ :=
    ⟨bytes, rest, rfl, hbroken, by simpa [Feed.Holds] using hwhole⟩
  obtain ⟨t, ht, hrelates⟩ := Imitation.exists_relates_ofStream hstreams rfl hs
  obtain ⟨t', ht', hwhole', htokens, hdiagnostics, hsymbols⟩ := exists_drain_of_scan hresult
  cases ht.symm.trans ht'
  obtain ⟨v, -, hbegin⟩ := Scanner.exists_of_ofStream hs
  have hconsistent : s.symbols.Consistent := by
    rw [hbegin]
    exact SymbolTable.consistent_new
  refine ⟨result, hresult, ?_⟩
  rcases drain_follows hrelates with ⟨hfailure, heq, hend⟩ | ⟨e, hfailure, hprefix, hcut⟩
  · -- Nothing has broken off before the end, so both scanners have done the same.
    rw [hwhole'] at hfailure
    have hreceiver : (drain s).scanner.receiver = (drain t).scanner.receiver := hend.receiver
    refine ⟨?_, ?_, fun token hmem symbol hkind => ?_, .inl ⟨hfailure, heq.trans htokens⟩⟩
    · exact heq.trans htokens ▸ List.prefix_rfl
    · exact hdiagnostics ▸ hreceiver ▸ List.prefix_rfl
    · obtain ⟨contents, hlookup⟩ := resolves_of_mem_drain hconsistent hmem symbol hkind
      rw [← hsymbols, ← hend.symbols_eq]
      exact ⟨contents, hlookup, hlookup⟩
  · obtain ⟨⟨⟨name, cause, rfl⟩, hrecorded⟩, hlookups⟩ := hcut
    refine ⟨htokens ▸ hprefix, hdiagnostics ▸ hrecorded, fun token hmem symbol hkind => ?_, .inr ?_⟩
    · obtain ⟨contents, hlookup⟩ := resolves_of_mem_drain hconsistent hmem symbol hkind
      exact ⟨contents, hlookup, hsymbols ▸ hlookups hlookup⟩
    · have hname : (drain s).scanner.sourceName = sourceName := by rw [sourceName_drain, hbegin]
      cases arisesIn_of_drain hfailure
      exact ⟨cause, hname ▸ hfailure⟩

theorem breaksOffAt_of_refuses {source : List UInt8} (hfew : FewStrings source)
    (sourceName : String) {k : Nat}
    {refuses : Nat → Bool} (hk : refuses k = true) (hbefore : ∀ j < k, refuses j = false) :
    ∃ result s, scan (⟨source⟩ : SourceText) sourceName = .ok result ∧
      Scanner.ofStream (⟨source⟩ : SourceText) sourceName .new
        ({ refuses } : FaultyRecorder) = .ok s ∧
      (drain s).BreaksOffAt k result := by
  obtain ⟨items, fs, result, -, hresult, -⟩ := exists_scan hfew sourceName
  obtain ⟨t, ht, hwhole, htokens, hdiagnostics, hsymbols⟩ := exists_drain_of_scan hresult
  obtain ⟨v, hv, rfl⟩ := Scanner.exists_of_ofStream ht
  have hs : Scanner.ofStream (⟨source⟩ : SourceText) sourceName .new
      ({ refuses } : FaultyRecorder) =
      .ok { view := v, receiver := { refuses }, symbols := .new, sourceName } := by
    rw [Scanner.ofStream, hv]
  obtain ⟨t', ht', hrelates⟩ := Imitation.exists_relates_ofStream (I := .refusedAt hk hbefore)
    rfl ⟨rfl, rfl, rfl, Nat.zero_le k⟩ hs
  cases ht.symm.trans ht'
  refine ⟨result, _, hresult, hs, ?_⟩
  rcases drain_follows hrelates with ⟨hfailure, heq, hend⟩ | ⟨e, hfailure, hprefix, hcut⟩
  · rw [hwhole] at hfailure
    have hreceiver : FaultyRecorder.Before refuses k _ _ := hend.receiver
    have hrecorded := congrArg Array.toList hreceiver.diagnostics_eq
    refine ⟨fun hlt => ?_, fun _ => ⟨hfailure, heq.trans htokens, hrecorded.trans hdiagnostics,
      hend.symbols_eq.trans hsymbols⟩⟩
    have hle := hreceiver.calls_le
    rw [hreceiver.calls_eq, ← Array.length_toList, hdiagnostics] at hle
    exact absurd hle (Nat.not_le_of_lt hlt)
  · have hrefused : FaultyRecorder.Refused k e _ _ := hcut.broken
    have hlt := hrefused.lt_size
    rw [← Array.length_toList, hdiagnostics] at hlt
    refine ⟨fun _ => ⟨?_, ?_, htokens ▸ hprefix⟩, fun hle => absurd hle (Nat.not_le_of_lt hlt)⟩
    · rw [hfailure, hrefused.failure_eq]
    · rw [hrefused.diagnostics_eq, hdiagnostics]

end Scan

/-- A fault only truncates a scan. First, if a stream breaks off after some bytes, but not before a
scanner of it could be made, then what that scanner yields and records is a beginning of what any
stream yields that delivers those bytes and whatever follows. Second, if a receiver refuses the
report `k` and none before, the scanner breaks off there, if the scan of the source has so many
reports, and otherwise nothing is changed by the refusal. In both cases the whole source has to have
few enough strings for a scan. -/
theorem scan_truncated :
    (∀ (σ τ : Type) [ByteStream σ] [ByteStream τ] (broken : σ) (whole : τ)
      (bytes rest : List UInt8) (sourceName : String) (s : Scanner σ Recorder),
      ByteStream.BreaksOff broken bytes → ByteStream.Delivers whole (bytes ++ rest) →
      FewStrings (bytes ++ rest) → Scanner.ofStream broken sourceName .new {} = .ok s →
      ∃ result, scan whole sourceName = .ok result ∧
        (Scan.drain s).Begins sourceName result) ∧
    ∀ (source : List UInt8) (sourceName : String) (k : Nat) (refuses : Nat → Bool),
      FewStrings source → refuses k = true → (∀ j < k, refuses j = false) →
      ∃ result s, scan (⟨source⟩ : SourceText) sourceName = .ok result ∧
        Scanner.ofStream (⟨source⟩ : SourceText) sourceName .new
          ({ refuses } : FaultyRecorder) = .ok s ∧
        (Scan.drain s).BreaksOffAt k result :=
  ⟨fun _ _ _ _ _ _ _ _ _ _ hbroken hwhole hfew hs =>
      Scan.begins_of_breaksOff hbroken hwhole hfew hs,
    fun _ sourceName _ _ hfew hk hbefore =>
      Scan.breaksOffAt_of_refuses hfew sourceName hk hbefore⟩

/-- A string literal that breaks off behind its malformed escape, and one with two of them of which
the second cannot be reported. -/
theorem scan_truncated_escape :
    (∃ (s : Scanner Script Recorder) (result : ScanResult),
      Scanner.ofStream (⟨[.byte Ascii.doubleQuote, .byte Ascii.backslash, .byte 'q'.toUInt8,
        .failure "lost"], 0⟩ : Script) "broken" .new {} = .ok s ∧
      scan (⟨Ascii.codes "\"\\q\" x"⟩ : SourceText) "broken" = .ok result ∧
      (Scan.drain s).Begins "broken" result) ∧
    ∃ result s, scan (⟨Ascii.codes "\"\\q\\w\""⟩ : SourceText) "refused" = .ok result ∧
      Scanner.ofStream (⟨Ascii.codes "\"\\q\\w\""⟩ : SourceText) "refused" .new
        ({ refuses := fun call => call == 1 } : FaultyRecorder) = .ok s ∧
      (Scan.drain s).BreaksOffAt 1 result := by
  constructor
  · obtain ⟨result, hresult, hbegins⟩ := scan_truncated.1 Script SourceText
      ⟨[.byte Ascii.doubleQuote, .byte Ascii.backslash, .byte 'q'.toUInt8, .failure "lost"], 0⟩
      ⟨Ascii.codes "\"\\q\" x"⟩ (Ascii.codes "\"\\q") (Ascii.codes "\" x") "broken" _
      (.byte rfl (.byte rfl (.byte rfl (.failure rfl)))) (SourceText.delivers _)
      (fewStrings_of_length_lt (by decide)) rfl
    exact ⟨_, result, rfl, hresult, hbegins⟩
  · exact scan_truncated.2 _ "refused" 1 (fun call => call == 1)
      (fewStrings_of_length_lt (by decide)) rfl (by decide)

end CinderFront
