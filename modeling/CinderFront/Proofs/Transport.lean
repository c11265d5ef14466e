import CinderFront.Proofs.Capacity
import CinderFront.Proofs.Drain

/-!
# One text by different streams

The same bytes may come from memory, from a reader that is interrupted now and then, or by a script.
A scan does not tell the streams apart, neither before their end nor before a failure, and it never
sees what a stream would give after its end.

* `ByteStream.Carries` — a stream that gives certain bytes and then its end or a certain failure;
* `BufferedReader.carries`, `Script.carries` — what a list of answers comes to, read with its
  interruptions or without them;
* `Imitation.carrying` — scanners of two streams that carry the same imitate each other;
* `observe` — what can be seen of a scan, also of one that breaks off;
* `observe_eq_of_carries` — it depends on nothing but the bytes and the failure behind them;
* `failure_observe` — a scan breaks off with that failure, or because its source has too many
  strings;
* `BufferedReader.scan_eq` — a reader with interruptions against bytes in memory and against a
  script without them.
-/

namespace CinderFront

open EStateM.Result (Follows)

/-! ### What streams carry -/

section

variable {σ : Type} [ByteStream σ]

/-- The stream gives these bytes, one on each call, and then a failure if there is one in `ending`,
and its end otherwise. -/
inductive ByteStream.Carries : σ → List UInt8 → Option IoError → Prop
  | finish {s s' : σ} : ByteStream.pull s = .ok none s' → ByteStream.Carries s [] none
  | failure {s s' : σ} {e : IoError} : ByteStream.pull s = .error e s' →
      ByteStream.Carries s [] (some e)
  | byte {s s' : σ} {b : UInt8} {bytes : List UInt8} {ending : Option IoError} :
      ByteStream.pull s = .ok (some b) s' → ByteStream.Carries s' bytes ending →
      ByteStream.Carries s (b :: bytes) ending

namespace ByteStream.Carries

variable {s s' : σ} {bytes : List UInt8} {ending : Option IoError}

/-- What a stream carries is told by its next answer. -/
theorem of_pull_eq (hs : Carries s bytes ending) (h : pull s' = pull s) :
    Carries s' bytes ending := by
  cases hs with
  | finish hp => exact .finish (h.trans hp)
  | failure hp => exact .failure (h.trans hp)
  | byte hp hrest => exact .byte (h.trans hp) hrest

/-- A stream without a failure delivers what it carries. -/
theorem delivers (h : Carries s bytes none) : Delivers s bytes := by
  generalize hending : (none : Option IoError) = ending at h
  induction h with
  | finish hp => exact .finish hp
  | failure hp => cases hending
  | byte hp _ ih => exact .byte hp (ih hending)

end ByteStream.Carries

theorem ByteStream.Delivers.carries {s : σ} {bytes : List UInt8} (h : Delivers s bytes) :
    Carries s bytes none := by
  induction h with
  | finish hp => exact .finish hp
  | byte hp _ ih => exact .byte hp ih

/-- The feed has reported its end, or its stream carries some bytes with the ending behind them. -/
def Feed.Carries (f : Feed σ) (ending : Option IoError) : Prop :=
  f.exhausted = true ∨ f.exhausted = false ∧ ∃ bytes, ByteStream.Carries f.stream bytes ending

theorem Feed.Carries.pull {f : Feed σ} {ending : Option IoError} (h : f.Carries ending) :
    (∃ b f', f.pull = .ok b f' ∧ f'.Carries ending) ∨
      ∃ e f', f.pull = .error e f' ∧ ending = some e := by
  obtain ⟨stream, exhausted⟩ := f
  rcases h with rfl | ⟨rfl, bytes, h⟩
  · exact .inl ⟨_, _, rfl, .inl rfl⟩
  · cases h with
    | @finish _ s' hp =>
      refine .inl ⟨Ascii.nul, ⟨s', true⟩, ?_, .inl rfl⟩
      simp [Feed.pull, hp]
    | @failure _ s' e hp =>
      refine .inr ⟨e, ⟨s', false⟩, ?_, rfl⟩
      simp [Feed.pull, hp]
    | @byte _ s' b bytes _ hp hrest =>
      refine .inl ⟨b, ⟨s', false⟩, ?_, .inr ⟨rfl, bytes, hrest⟩⟩
      simp [Feed.pull, hp]

/-- What keeps the first three bytes from coming is the failure that the stream carries. -/
theorem Lookahead.ending_of_ofStream {stream : σ} {bytes : List UInt8} {ending : Option IoError}
    {e : IoError} (h : ByteStream.Carries stream bytes ending)
    (he : ofStream stream = .error e) : ending = some e := by
  have hstart : Feed.Carries ⟨stream, false⟩ ending := .inr ⟨rfl, bytes, h⟩
  simp only [ofStream] at he
  rcases hstart.pull with ⟨b₁, f₁, h₁, hf₁⟩ | ⟨e₁, f₁, h₁, rfl⟩
  · rw [EStateM.bind_of_ok h₁] at he
    rcases hf₁.pull with ⟨b₂, f₂, h₂, hf₂⟩ | ⟨e₂, f₂, h₂, rfl⟩
    · rw [EStateM.bind_of_ok h₂] at he
      rcases hf₂.pull with ⟨b₃, f₃, h₃, -⟩ | ⟨e₃, f₃, h₃, rfl⟩
      · rw [EStateM.bind_of_ok h₃] at he
        cases he
      · rw [EStateM.bind_of_error h₃] at he
        exact congrArg some (Except.error.inj he)
    · rw [EStateM.bind_of_error h₂] at he
      exact congrArg some (Except.error.inj he)
  · rw [EStateM.bind_of_error h₁] at he
    exact congrArg some (Except.error.inj he)

end

/-! ### Lists of answers -/

namespace Answer

/-- Whether the answer invites to ask again. -/
def isInterruption : Answer → Bool
  | interruption _ => true
  | _ => false

/-- The bytes before the first end or failure; interruptions do not count. -/
def bytesAhead : List Answer → List UInt8
  | byte b :: rest => b :: bytesAhead rest
  | interruption _ :: rest => bytesAhead rest
  | [] | finished :: _ | failure _ :: _ => []

/-- The failure behind those bytes, if it is no end that stands there. -/
def breakdown? : List Answer → Option IoError
  | byte _ :: rest => breakdown? rest
  | interruption _ :: rest => breakdown? rest
  | failure message :: _ => some ⟨message⟩
  | [] | finished :: _ => none

end Answer

open Answer (bytesAhead breakdown?)

/-- A reader asks again until there is no interruption, so it carries what the other answers are. -/
theorem BufferedReader.carries (answers : List Answer) :
    ByteStream.Carries (⟨answers⟩ : BufferedReader) (bytesAhead answers) (breakdown? answers) := by
  induction answers with
  | nil => exact .finish rfl
  | cons answer rest ih =>
    cases answer with
    | byte b => exact .byte rfl ih
    | failure message => exact .failure rfl
    | interruption message => exact ih.of_pull_eq rfl
    | finished => exact .finish rfl

/-- A script hands out every answer, so it carries the same once the interruptions are removed. -/
theorem Script.carries (answers : List Answer) (calls : Nat) :
    ByteStream.Carries (⟨answers.filter (!·.isInterruption), calls⟩ : Script)
      (bytesAhead answers) (breakdown? answers) := by
  induction answers generalizing calls with
  | nil => exact .finish rfl
  | cons answer rest ih =>
    cases answer with
    | byte b => exact .byte rfl (ih (calls + 1))
    | failure message => exact .failure rfl
    | interruption message => exact ih calls
    | finished => exact .finish rfl

/-! ### Scanners of such streams -/

section

variable {σ τ : Type} [ByteStream σ] [ByteStream τ] {ending : Option IoError}

/-- Both streams have reported their end, or both have the same bytes still to come, and if the
first ends behind them, so does the second. -/
def Feed.Alike (ending : Option IoError) (f : Feed σ) (g : Feed τ) : Prop :=
  f.exhausted = true ∧ g.exhausted = true ∨
    f.exhausted = false ∧ g.exhausted = false ∧
      ∃ bytes ending', (ending = none → ending' = none) ∧
        ByteStream.Carries f.stream bytes ending ∧ ByteStream.Carries g.stream bytes ending'

/-- The scan has broken off with the failure of the stream, and what has been recorded is a
beginning of what the other scan records. -/
def Recorder.BrokenOffWith (ending : Option IoError) (e : ScanFailure) (r q : Recorder) : Prop :=
  (∃ sourceName, ending.map (.io sourceName) = some e) ∧
    r.diagnostics.toList <+: q.diagnostics.toList

/-- A scanner of a stream imitates one of a stream that carries the same bytes, and no failure
behind them if there is none behind the first. -/
def Imitation.carrying (σ τ : Type) [ByteStream σ] [ByteStream τ] (ending : Option IoError) :
    Imitation σ τ Recorder Recorder where
  streams := Feed.Alike ending
  receivers r q := r = q
  broken := Recorder.BrokenOffWith ending
  pull := by
    rintro ⟨s, _⟩ ⟨t, _⟩ (⟨rfl, rfl⟩ | ⟨rfl, rfl, bytes, ending', hending, hs, ht⟩)
    · exact .agree (.inl ⟨rfl, rfl⟩)
    · cases hs with
      | @finish _ s' hs =>
        obtain rfl := hending rfl
        cases ht with
        | @finish _ t' ht =>
          simp only [Feed.pull, hs, ht, Bool.false_eq_true, if_false]
          exact .agree (.inl ⟨rfl, rfl⟩)
      | @failure _ s' e hs =>
        simp only [Feed.pull, hs, Bool.false_eq_true, if_false]
        refine .cut fun name r q hrq => ⟨⟨name, rfl⟩, ?_⟩
        exact hrq ▸ List.prefix_rfl
      | @byte _ s' b bytes _ hs hs' =>
        cases ht with
        | @byte _ t' _ _ _ ht ht' =>
          simp only [Feed.pull, hs, ht, Bool.false_eq_true, if_false]
          exact .agree (.inr ⟨rfl, rfl, bytes, ending', hending, hs', ht'⟩)
  report := by
    rintro d r q rfl
    exact .agree rfl
  broken_report := by
    rintro d e r q ⟨he, hprefix⟩
    refine ⟨he, hprefix.trans ?_⟩
    show _ <+: (q.diagnostics.push d).toList
    rw [Array.toList_push]
    exact List.prefix_append _ _

/-! ### What can be seen of a scan -/

/-- What can be seen of a scan, whether it comes to its end or breaks off: the tokens it yields, the
failure that ends it, what has been reported by then, and the strings that symbols stand for. -/
structure Observed where
  tokens : List Token
  failure : Option ScanFailure
  diagnostics : List Diagnostic
  strings : List (List UInt8)
  deriving DecidableEq, Repr

/-- What can be seen once a scanner has yielded all it yields. -/
def Drained.observed (d : Drained σ Recorder) : Observed where
  tokens := d.tokens
  failure := d.failure
  diagnostics := d.scanner.receiver.diagnostics.toList
  strings := d.scanner.symbols.strings.toList

/-- What can be seen of the scan of a source. If there is no scanner of the source, its failure is
all there is to be seen. -/
def observe (stream : σ) (sourceName : String) : Observed :=
  match Scanner.ofStream stream sourceName .new ({} : Recorder) with
  | .ok scanner => (Scan.drain scanner).observed
  | .error e => ⟨[], some e, [], SymbolTable.new.strings.toList⟩

/-- Tables of which each knows the strings of the other hold the same. -/
theorem SymbolTable.strings_eq_of_lookup? {t u : SymbolTable}
    (h : ∀ {symbol : Symbol} {bytes : List UInt8},
      t.lookup? symbol = some bytes → u.lookup? symbol = some bytes)
    (h' : ∀ {symbol : Symbol} {bytes : List UInt8},
      u.lookup? symbol = some bytes → t.lookup? symbol = some bytes) :
    t.strings = u.strings := by
  refine Array.ext_getElem? fun n => ?_
  have hiff : ∀ bytes, t.lookup? ⟨n⟩ = some bytes ↔ u.lookup? ⟨n⟩ = some bytes :=
    fun _ => ⟨h, h'⟩
  exact Option.ext hiff

namespace Scan

variable {s : Scanner σ Recorder} {t : Scanner τ Recorder}

/-- What breaks off the sequence is the failure of the stream. -/
theorem failure_drain_eq {e : ScanFailure} {r q : Recorder} (hs : (drain s).failure = some e)
    (h : Recorder.BrokenOffWith ending e r q) :
    (drain s).failure = ending.map (.io s.sourceName) := by
  obtain ⟨⟨name, hname⟩, -⟩ := h
  obtain ⟨cause, rfl, rfl⟩ := Option.map_eq_some_iff.1 hname
  have harises := arisesIn_of_drain hs
  rw [hs, ← sourceName_drain s]
  cases harises
  rfl

/-- Scanners that imitate each other are seen to do the same. -/
theorem observed_drain_eq (hname : s.sourceName = t.sourceName)
    (h : (Imitation.carrying σ τ ending).Relates s t)
    (h' : (Imitation.carrying τ σ ending).Relates t s) :
    (drain s).observed = (drain t).observed := by
  rcases drain_follows h with ⟨hfailure, htokens, hend⟩ | ⟨e, hs, htokens, hcut⟩
  · have hreceiver : (drain s).scanner.receiver = (drain t).scanner.receiver := hend.receiver
    simp only [Drained.observed, hfailure, htokens, hreceiver, hend.symbols_eq]
  · -- One has broken off with the failure of its stream.
    rcases drain_follows h' with ⟨hfailure, htokens, hend⟩ | ⟨e', ht, htokens', hcut'⟩
    · have hreceiver : (drain t).scanner.receiver = (drain s).scanner.receiver := hend.receiver
      simp only [Drained.observed, hfailure, htokens, hreceiver, hend.symbols_eq]
    · have hfailure : (drain s).failure = (drain t).failure := by
        rw [failure_drain_eq hs hcut.broken, failure_drain_eq ht hcut'.broken, hname]
      have hdiagnostics := hcut.broken.2.eq_of_length_le hcut'.broken.2.length_le
      have hstrings := SymbolTable.strings_eq_of_lookup? hcut.lookup?_eq hcut'.lookup?_eq
      simp only [Drained.observed, hfailure, htokens.eq_of_length_le htokens'.length_le,
        hdiagnostics, hstrings]

/-- How the sequence of tokens ends is how the whole scan ends. -/
theorem failure_drain_of_ofStream {stream : σ} {sourceName : String}
    (hs : Scanner.ofStream stream sourceName .new {} = .ok s) :
    (drain s).failure = match scan stream sourceName with
      | .ok _ => none
      | .error e => some e := by
  simp only [scan, hs, bind, Except.bind, tokenize_eq_drain]
  cases (drain s).failure <;> rfl

end Scan

/-- If there is no scanner of a stream, that is for the failure that the stream carries. -/
theorem Scanner.failure_of_ofStream {stream : σ} {bytes : List UInt8} {sourceName : String}
    {symbols : SymbolTable} {r : Recorder} {e : ScanFailure}
    (h : ByteStream.Carries stream bytes ending)
    (he : ofStream stream sourceName symbols r = .error e) :
    ending.map (.io sourceName) = some e := by
  unfold ofStream at he
  split at he
  · cases he
  · next cause hcause =>
    cases he
    rw [Lookahead.ending_of_ofStream h hcause]
    rfl

/-- What can be seen of a scan depends on nothing but the bytes of its stream and the failure behind
them, if there is one. -/
theorem observe_eq_of_carries {stream : σ} {stream' : τ} {bytes : List UInt8}
    (h : ByteStream.Carries stream bytes ending) (h' : ByteStream.Carries stream' bytes ending)
    (sourceName : String) : observe stream sourceName = observe stream' sourceName := by
  have hstreams : (Imitation.carrying σ τ ending).streams ⟨stream, false⟩ ⟨stream', false⟩ :=
    .inr ⟨rfl, rfl, bytes, ending, id, h, h'⟩
  have hstreams' : (Imitation.carrying τ σ ending).streams ⟨stream', false⟩ ⟨stream, false⟩ :=
    .inr ⟨rfl, rfl, bytes, ending, id, h', h⟩
  unfold observe
  cases hs : Scanner.ofStream stream sourceName .new ({} : Recorder) with
  | ok s =>
    obtain ⟨t, ht, hrelates⟩ := Imitation.exists_relates_ofStream hstreams rfl hs
    obtain ⟨s', hs', hrelates'⟩ := Imitation.exists_relates_ofStream hstreams' rfl ht
    cases hs.symm.trans hs'
    rw [ht]
    exact Scan.observed_drain_eq hrelates.sourceName_eq hrelates hrelates'
  | error e =>
    cases ht : Scanner.ofStream stream' sourceName .new ({} : Recorder) with
    | ok t =>
      obtain ⟨s, hs', -⟩ := Imitation.exists_relates_ofStream hstreams' rfl ht
      cases hs.symm.trans hs'
    | error e' =>
      have he := Scanner.failure_of_ofStream h hs
      have he' := Scanner.failure_of_ofStream h' ht
      cases he.symm.trans he'
      rfl

/-- A scan that is seen to break off breaks off with the failure that the stream carries, or for
want of room for the strings among its bytes. -/
theorem failure_observe {stream : σ} {bytes : List UInt8}
    (h : ByteStream.Carries stream bytes ending) (sourceName : String) {e : ScanFailure}
    (he : (observe stream sourceName).failure = some e) :
    ending.map (.io sourceName) = some e ∨
      ¬ FewStrings bytes ∧ e = .capacity ⟨UInt32.size⟩ := by
  have hstreams : (Imitation.carrying σ SourceText ending).streams ⟨stream, false⟩
      ⟨⟨bytes⟩, false⟩ :=
    .inr ⟨rfl, rfl, bytes, none, fun _ => rfl, h, (SourceText.delivers bytes).carries⟩
  unfold observe at he
  cases hs : Scanner.ofStream stream sourceName .new ({} : Recorder) with
  | error e' =>
    rw [hs] at he
    cases he
    exact .inl (Scanner.failure_of_ofStream h hs)
  | ok s =>
    rw [hs] at he
    change (Scan.drain s).failure = some e at he
    obtain ⟨t, ht, hrelates⟩ := Imitation.exists_relates_ofStream hstreams rfl hs
    obtain ⟨view, -, rfl⟩ := Scanner.exists_of_ofStream hs
    rcases Scan.drain_follows hrelates with ⟨hfailure, -⟩ | ⟨e', he', -, hcut⟩
    · -- Both have failed alike, and bytes in memory can fail for one reason only.
      right
      rw [he, Scan.failure_drain_of_ofStream ht] at hfailure
      by_cases hfew : FewStrings bytes
      · obtain ⟨-, -, result, -, hscan, -⟩ := exists_scan hfew sourceName
        rw [hscan] at hfailure
        cases hfailure
      · rw [scan_of_not_fewStrings hfew] at hfailure
        exact ⟨hfew, Option.some.inj hfailure⟩
    · exact .inl ((Scan.failure_drain_eq he' hcut.broken).symm.trans he)

/-- What a whole scan yields is what can be seen of it, and it fails if it is seen to break off. -/
theorem observe_of_scan (stream : σ) (sourceName : String) :
    match scan stream sourceName with
    | .ok result => observe stream sourceName =
        ⟨result.tokens, none, result.diagnostics, result.symbols.strings.toList⟩
    | .error e => (observe stream sourceName).failure = some e := by
  unfold observe scan
  cases Scanner.ofStream stream sourceName .new ({} : Recorder) with
  | error e => rfl
  | ok s =>
    simp only [bind, Except.bind, Scan.tokenize_eq_drain]
    cases hfailure : (Scan.drain s).failure with
    | none => simp [Drained.observed, hfailure, pure, Except.pure]
    | some e => exact hfailure

end

/-! ### A reader with interruptions -/

/-- It does not matter by what way the bytes of a source come. If a reader comes to its end without
a failure, then whatever interrupts it and whatever it holds behind its end, the scan of it is that
of its bytes in memory: it yields the same tokens, diagnostics and symbols, and it does succeed if
these bytes have few enough strings. And whether a failure stands first or not, what can be seen of
the scan is what can be seen when a script gives the same answers without the interruptions: the
same tokens, the same diagnostics and the same failure, which is that of the reader, unless there
are too many strings before it. -/
theorem BufferedReader.scan_eq (answers : List Answer) (sourceName : String) :
    (breakdown? answers = none →
      scan (⟨answers⟩ : BufferedReader) sourceName =
          scan (⟨bytesAhead answers⟩ : SourceText) sourceName ∧
        (FewStrings (bytesAhead answers) →
          ∃ result, scan (⟨answers⟩ : BufferedReader) sourceName = .ok result)) ∧
    observe (⟨answers⟩ : BufferedReader) sourceName =
      observe (⟨answers.filter (!·.isInterruption), 0⟩ : Script) sourceName ∧
    ∀ e, (observe (⟨answers⟩ : BufferedReader) sourceName).failure = some e →
      (∃ cause, breakdown? answers = some cause ∧ e = .io sourceName cause) ∨
        ¬ FewStrings (bytesAhead answers) ∧ e = .capacity ⟨UInt32.size⟩ := by
  have hreader := carries answers
  refine ⟨fun hend => ?_, ?_, fun e he => ?_⟩
  · rw [hend] at hreader
    have heq := scan_eq_of_beforeNul_eq hreader.delivers
      (SourceText.delivers (bytesAhead answers)) rfl sourceName
    refine ⟨heq, fun hfew => ?_⟩
    obtain ⟨-, -, result, -, hscan, -⟩ := exists_scan hfew sourceName
    exact ⟨result, heq.trans hscan⟩
  · exact observe_eq_of_carries hreader (Script.carries answers 0) sourceName
  · refine (failure_observe hreader sourceName he).imp_left fun hfailure => ?_
    obtain ⟨cause, hcause, rfl⟩ := Option.map_eq_some_iff.1 hfailure
    exact ⟨cause, hcause, rfl⟩

/-- A reader that is interrupted within its first three bytes and holds more behind its end, and one
that is interrupted there and then fails. -/
theorem BufferedReader.scan_eq_interrupted :
    (∃ result,
      scan (⟨[.byte 'a'.toUInt8, .interruption "again", .interruption "again",
        .byte Ascii.asterisk, .byte 'b'.toUInt8, .finished, .byte 'c'.toUInt8,
        .failure "lost"]⟩ : BufferedReader) "reader" = .ok result ∧
      scan (⟨Ascii.codes "a*b"⟩ : SourceText) "reader" = .ok result) ∧
    ∃ cause, breakdown? [.byte 'a'.toUInt8, .interruption "again", .failure "lost"] = some cause ∧
      ScanFailure.io "reader" ⟨"lost"⟩ = .io "reader" cause := by
  constructor
  · obtain ⟨heq, hsucceeds⟩ := (BufferedReader.scan_eq [.byte 'a'.toUInt8, .interruption "again",
      .interruption "again", .byte Ascii.asterisk, .byte 'b'.toUInt8, .finished,
      .byte 'c'.toUInt8, .failure "lost"] "reader").1 rfl
    obtain ⟨result, hresult⟩ := hsucceeds (fewStrings_of_length_lt (by decide))
    exact ⟨result, hresult, heq.symm.trans hresult⟩
  · refine ((BufferedReader.scan_eq [.byte 'a'.toUInt8, .interruption "again", .failure "lost"]
      "reader").2.2 (.io "reader" ⟨"lost"⟩) rfl).resolve_right ?_
    exact fun hmany => hmany.1 (fewStrings_of_length_lt (by decide))

end CinderFront
