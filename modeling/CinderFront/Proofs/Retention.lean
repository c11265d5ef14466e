import CinderFront.Proofs.Backlog

/-!
# Backlogs over many calls

A backlog is offered findings of all severities, by its owner or by whoever reports to it, and it is
released now and then. Whatever the calls are, it stands as if it were new and had been offered what
came since the last release; and so its lists and its counts always agree.

* `Backlog.Call`, `Backlog.afterCalls` — the calls, and the backlog after some of them;
* `Backlog.afterCalls_new` — what came before the last release does not matter;
* `Backlog.AccountsFor` — how the lists and the counts of a backlog agree with what it was offered;
* `Backlog.AccountsFor.offer`, `Backlog.accountsFor_offerAll` — one offer keeps that, and so do
  many;
* `Backlog.accountsFor_afterCalls` — the state of a backlog after any calls, and what it does next.
-/

namespace CinderFront.Backlog

/-! ### Calls -/

/-- A call on a backlog. -/
inductive Call
  | offer (d : Diagnostic)
  /-- An offer by way of a report, which is not told whether the finding was kept. -/
  | report (d : Diagnostic)
  | release
  deriving DecidableEq, Repr

/-- The backlog after a call. -/
def Call.apply (backlog : Backlog) : Call → Backlog
  | offer d => (backlog.offer d).2
  | report d => (Receiver.report d backlog).after
  | release => backlog.release.2

/-- The findings offered since the last release, once there is one more call. -/
def Call.track (ds : List Diagnostic) : Call → List Diagnostic
  | offer d | report d => ds ++ [d]
  | release => []

/-- The findings offered since the last release among some calls. -/
def Call.offered (calls : List Call) : List Diagnostic := calls.foldl Call.track []

/-- The backlog after some calls. -/
def afterCalls (calls : List Call) (backlog : Backlog) : Backlog := calls.foldl Call.apply backlog

theorem offerAll_concat (ds : List Diagnostic) (d : Diagnostic) (backlog : Backlog) :
    offerAll (ds ++ [d]) backlog = ((offerAll ds backlog).offer d).2 :=
  List.foldl_append

theorem retention_offer (d : Diagnostic) (backlog : Backlog) :
    (backlog.offer d).2.retention = backlog.retention := by
  unfold offer
  split <;> rfl

theorem retention_offerAll (ds : List Diagnostic) (backlog : Backlog) :
    (offerAll ds backlog).retention = backlog.retention := by
  induction ds generalizing backlog with
  | nil => rfl
  | cons d ds ih => exact (ih _).trans (retention_offer d backlog)

/-- After any calls a backlog stands as if it were new and had been offered only what came since the
last release. -/
theorem afterCalls_new (retention : Retention) (calls : List Call) :
    afterCalls calls (new retention) = offerAll (Call.offered calls) (new retention) := by
  induction calls using List.reverseRec with
  | nil => rfl
  | append_singleton calls call ih =>
    have hcalls : afterCalls (calls ++ [call]) (new retention) =
        call.apply (afterCalls calls (new retention)) := List.foldl_append
    have hoffered : Call.offered (calls ++ [call]) = call.track (Call.offered calls) :=
      List.foldl_append
    rw [hcalls, hoffered, ih]
    cases call with
    | offer d | report d => exact (offerAll_concat _ d _).symm
    | release =>
      show new (offerAll (Call.offered calls) (new retention)).retention = new retention
      rw [retention_offerAll]
      rfl

/-! ### The limit -/

theorem limitReached_iff {backlog : Backlog} :
    backlog.limitReached = true ↔ 0 < backlog.retention.errorLimit ∧
      backlog.retention.errorLimit ≤ backlog.errorCount := by
  simp [limitReached]

theorem offer_of_limitReached {backlog : Backlog} (h : backlog.limitReached = true)
    (d : Diagnostic) : backlog.offer d = (false, backlog.suppress) := by
  simp [offer, accepts, h]

/-- Once the limit is reached, nothing more is kept. -/
theorem kept_offerAll_of_limitReached {backlog : Backlog} (h : backlog.limitReached = true)
    (ds : List Diagnostic) : (offerAll ds backlog).kept = backlog.kept := by
  induction ds generalizing backlog with
  | nil => rfl
  | cons d ds ih =>
    show (offerAll ds (backlog.offer d).2).kept = backlog.kept
    rw [offer_of_limitReached h]
    exact ih h

/-- Calls that do not release the backlog do nothing but offer it findings. -/
theorem exists_offerAll_of_afterCalls {calls : List Call} (h : Call.release ∉ calls)
    (backlog : Backlog) : ∃ ds, afterCalls calls backlog = offerAll ds backlog := by
  induction calls generalizing backlog with
  | nil => exact ⟨[], rfl⟩
  | cons call calls ih =>
    obtain ⟨hcall, hcalls⟩ := not_or.1 (List.mem_cons.not.1 h)
    obtain ⟨ds, hds⟩ := ih hcalls (call.apply backlog)
    cases call with
    | offer d | report d => exact ⟨d :: ds, hds⟩
    | release => exact absurd rfl hcall

/-! ### Lists and counts -/

/-- The errors among the findings that were kept. -/
def keptErrors (backlog : Backlog) : List Diagnostic :=
  backlog.kept.toList.filter Diagnostic.isError

theorem keptErrors_keep (backlog : Backlog) (d : Diagnostic) :
    (backlog.keep d).keptErrors =
      if d.isError then backlog.keptErrors ++ [d] else backlog.keptErrors := by
  simp only [keptErrors, keep, Array.toList_push, List.filter_append]
  cases herror : d.isError <;> simp [herror]

/-- The backlog has been offered the findings `ds` since it was new: it has kept some of them in
their order and counted the others, its counts of errors and of warnings are those of what it has
kept, and no error that it has kept repeats the error kept before it. -/
structure AccountsFor (retention : Retention) (ds : List Diagnostic) (backlog : Backlog) :
    Prop where
  retention_eq : backlog.retention = retention
  sublist : backlog.kept.toList.Sublist ds
  length_eq : backlog.kept.size + backlog.suppressed = ds.length
  errorCount_eq : backlog.errorCount = backlog.keptErrors.length
  warningCount_eq : backlog.warningCount = (backlog.kept.toList.filter Diagnostic.isWarning).length
  errorCount_le : 0 < retention.errorLimit → backlog.errorCount ≤ retention.errorLimit
  lastError_eq : backlog.lastError = backlog.keptErrors.getLast?.map Diagnostic.key
  distinct : retention.deduplicate = true →
    backlog.keptErrors.IsChain fun d e => d.key ≠ e.key

theorem accountsFor_new (retention : Retention) : AccountsFor retention [] (new retention) where
  retention_eq := rfl
  sublist := .slnil
  length_eq := rfl
  errorCount_eq := rfl
  warningCount_eq := rfl
  errorCount_le := fun _ => Nat.zero_le _
  lastError_eq := rfl
  distinct := fun _ => .nil

namespace AccountsFor

variable {retention : Retention} {ds : List Diagnostic} {backlog : Backlog}

/-- A finding is an error that repeats the last one kept exactly if it is like it in its position,
its code and its message. -/
theorem repeats_iff (h : AccountsFor retention ds backlog) (d : Diagnostic) :
    backlog.repeats d = true ↔ retention.deduplicate = true ∧ d.isError = true ∧
      ∃ e, backlog.keptErrors.getLast? = some e ∧ e.key = d.key := by
  rw [repeats, h.retention_eq, h.lastError_eq]
  simp only [Bool.and_eq_true, beq_iff_eq, Option.map_eq_some_iff]
  tauto

/-- A finding is dropped for one of two reasons only. -/
theorem offer_eq_false_iff (h : AccountsFor retention ds backlog) (d : Diagnostic) :
    (backlog.offer d).1 = false ↔
      (0 < retention.errorLimit ∧ retention.errorLimit ≤ backlog.errorCount) ∨
      retention.deduplicate = true ∧ d.isError = true ∧
        ∃ e, backlog.keptErrors.getLast? = some e ∧ e.key = d.key := by
  rw [← h.repeats_iff, ← h.retention_eq, ← limitReached_iff]
  unfold offer accepts
  cases backlog.limitReached <;> cases backlog.repeats d <;> simp

theorem suppress (h : AccountsFor retention ds backlog) (d : Diagnostic) :
    AccountsFor retention (ds ++ [d]) backlog.suppress where
  retention_eq := h.retention_eq
  sublist := h.sublist.trans (List.sublist_append_left _ _)
  length_eq := by
    have hlength := h.length_eq
    simp only [Backlog.suppress, List.length_append, List.length_singleton]
    omega
  errorCount_eq := h.errorCount_eq
  warningCount_eq := h.warningCount_eq
  errorCount_le := h.errorCount_le
  lastError_eq := h.lastError_eq
  distinct := h.distinct

theorem keep (h : AccountsFor retention ds backlog) {d : Diagnostic}
    (hlimit : backlog.limitReached = false) (hrepeats : backlog.repeats d = false) :
    AccountsFor retention (ds ++ [d]) (backlog.keep d) where
  retention_eq := h.retention_eq
  sublist := by
    show (backlog.kept.push d).toList.Sublist (ds ++ [d])
    rw [Array.toList_push]
    exact h.sublist.append (.refl _)
  length_eq := by
    have hlength := h.length_eq
    simp only [Backlog.keep, Array.size_push, List.length_append, List.length_singleton]
    omega
  errorCount_eq := by
    rw [keptErrors_keep]
    simp only [Backlog.keep, h.errorCount_eq]
    split <;> simp
  warningCount_eq := by
    simp only [Backlog.keep, Array.toList_push, List.filter_append, List.length_append,
      ← h.warningCount_eq]
    cases hwarning : d.isWarning <;> simp [hwarning]
  errorCount_le := by
    intro hpos
    have hopen : ¬ (0 < backlog.retention.errorLimit ∧
        backlog.retention.errorLimit ≤ backlog.errorCount) := by
      rw [← limitReached_iff, hlimit]
      exact Bool.false_ne_true
    rw [h.retention_eq] at hopen
    simp only [Backlog.keep]
    split <;> omega
  lastError_eq := by
    rw [keptErrors_keep]
    simp only [Backlog.keep, h.lastError_eq]
    split <;> simp
  distinct := by
    intro hdeduplicate
    rw [keptErrors_keep]
    split
    · next herror =>
      -- The new error was compared with the last one kept, which stands right before it.
      rw [List.isChain_append]
      refine ⟨h.distinct hdeduplicate, .singleton d, ?_⟩
      intro e he d' hd' hkey
      obtain rfl : d = d' := Option.some.inj hd'
      have hrepeated := (h.repeats_iff d).2 ⟨hdeduplicate, herror, e, he, hkey⟩
      rw [hrepeats] at hrepeated
      cases hrepeated
    · exact h.distinct hdeduplicate

/-- One offer more is accounted for, whether the finding is kept or not. -/
theorem offer (h : AccountsFor retention ds backlog) (d : Diagnostic) :
    AccountsFor retention (ds ++ [d]) (backlog.offer d).2 := by
  unfold Backlog.offer
  cases haccepts : backlog.accepts d with
  | true =>
    obtain ⟨hlimit, hrepeats⟩ : backlog.limitReached = false ∧ backlog.repeats d = false := by
      simpa [accepts] using haccepts
    exact h.keep hlimit hrepeats
  | false => exact h.suppress d

end AccountsFor

theorem accountsFor_offerAll (retention : Retention) (ds : List Diagnostic) :
    AccountsFor retention ds (offerAll ds (new retention)) := by
  induction ds using List.reverseRec with
  | nil => exact accountsFor_new retention
  | append_singleton ds d ih =>
    rw [offerAll_concat]
    exact ih.offer d

/-! ### Digests -/

/-- A backlog may compare digests in place of messages. It drops the same findings, as long as no
message that it was offered has the digest of another one that comes. -/
theorem AccountsFor.offer_eq_false_iff_digest {retention : Retention} {ds : List Diagnostic}
    {backlog : Backlog} (h : AccountsFor retention ds backlog) (d : Diagnostic)
    {digest : String → UInt64}
    (hdigest : ∀ e ∈ ds, digest e.message = digest d.message → e.message = d.message) :
    (backlog.offer d).1 = false ↔
      (0 < retention.errorLimit ∧ retention.errorLimit ≤ backlog.errorCount) ∨
      retention.deduplicate = true ∧ d.isError = true ∧
        ∃ e, backlog.keptErrors.getLast? = some e ∧ e.position = d.position ∧ e.code = d.code ∧
          digest e.message = digest d.message := by
  have hkey : ∀ e, backlog.keptErrors.getLast? = some e →
      (e.key = d.key ↔ e.position = d.position ∧ e.code = d.code ∧
        digest e.message = digest d.message) := by
    intro e he
    have hmem : e ∈ ds := h.sublist.subset (List.mem_filter.1 (List.mem_of_getLast? he)).1
    rw [Diagnostic.key, Diagnostic.key, ErrorKey.mk.injEq]
    constructor
    · intro hsame
      exact ⟨hsame.1, hsame.2.1, congrArg digest hsame.2.2⟩
    · intro hsame
      exact ⟨hsame.1, hsame.2.1, hdigest e hmem hsame.2.2⟩
  rw [h.offer_eq_false_iff]
  refine or_congr_right (and_congr_right fun _ => and_congr_right fun _ => ?_)
  exact exists_congr fun e => and_congr_right (hkey e)

/-! ### Release -/

/-- What is in order already is released as it is. Neighbours are enough to see that. -/
theorem sorted_eq_kept {backlog : Backlog}
    (h : backlog.kept.toList.IsChain fun d e => d.position ≤ e.position) :
    backlog.sorted = backlog.kept.toList := by
  rw [sorted, if_pos (isSorted_iff.2 h)]

/-! ### Any calls -/

theorem offer_of_eq_true {backlog : Backlog} {d : Diagnostic} (h : (backlog.offer d).1 = true) :
    (backlog.offer d).2 = backlog.keep d := by
  unfold offer at h ⊢
  split at h
  · next haccepts => rw [if_pos haccepts]
  · cases h

theorem offer_of_eq_false {backlog : Backlog} {d : Diagnostic} (h : (backlog.offer d).1 = false) :
    (backlog.offer d).2 = backlog.suppress := by
  unfold offer at h ⊢
  split at h
  · cases h
  · next haccepts => rw [if_neg haccepts]

/-- What becomes of one more finding that is offered to a backlog, after the findings `ds`. It is
dropped at the limit, or if it is an error like the last one kept, and then it is counted and
nothing else changes. -/
structure Disposes (retention : Retention) (ds : List Diagnostic) (backlog : Backlog)
    (d : Diagnostic) : Prop where
  report_eq : Receiver.report d backlog = .ok () (backlog.offer d).2
  kept_eq : (backlog.offer d).1 = true → (backlog.offer d).2.kept = backlog.kept.push d
  dropped_eq : (backlog.offer d).1 = false →
    (backlog.offer d).2 = { backlog with suppressed := backlog.suppressed + 1 }
  dropped_iff : (backlog.offer d).1 = false ↔
    (0 < retention.errorLimit ∧ retention.errorLimit ≤ backlog.errorCount) ∨
      retention.deduplicate = true ∧ d.isError = true ∧
        ∃ e, backlog.keptErrors.getLast? = some e ∧ e.key = d.key
  dropped_iff_digest : ∀ digest : String → UInt64,
    (∀ e ∈ ds, digest e.message = digest d.message → e.message = d.message) →
    ((backlog.offer d).1 = false ↔
      (0 < retention.errorLimit ∧ retention.errorLimit ≤ backlog.errorCount) ∨
        retention.deduplicate = true ∧ d.isError = true ∧
          ∃ e, backlog.keptErrors.getLast? = some e ∧ e.position = d.position ∧
            e.code = d.code ∧ digest e.message = digest d.message)

theorem AccountsFor.disposes {retention : Retention} {ds : List Diagnostic} {backlog : Backlog}
    (h : AccountsFor retention ds backlog) (d : Diagnostic) :
    Disposes retention ds backlog d where
  report_eq := rfl
  kept_eq hkept := by
    rw [offer_of_eq_true hkept]
    rfl
  dropped_eq hdropped := offer_of_eq_false hdropped
  dropped_iff := h.offer_eq_false_iff d
  dropped_iff_digest _ hdigest := h.offer_eq_false_iff_digest d hdigest

/-- After any calls the lists and the counts of a backlog account for the findings offered since the
last release, and the next finding is dropped for one of two reasons only. Once the limit is reached
nothing more is kept before the next release. A release yields what was kept in the order of the
positions, which is as it is if it is in order already, and leaves the backlog as new. -/
theorem accountsFor_afterCalls (retention : Retention) (calls : List Call) :
    let backlog := afterCalls calls (new retention)
    AccountsFor retention (Call.offered calls) backlog ∧
    (∀ d, Disposes retention (Call.offered calls) backlog d) ∧
    (0 < retention.errorLimit → retention.errorLimit ≤ backlog.errorCount →
      ∀ more, Call.release ∉ more → (afterCalls more backlog).kept = backlog.kept) ∧
    Diagnostic.StablySorted backlog.kept.toList backlog.release.1 ∧
    ((backlog.kept.toList.IsChain fun d e => d.position ≤ e.position) →
      backlog.release.1 = backlog.kept.toList) ∧
    backlog.release.2 = new retention := by
  intro backlog
  have haccounts : AccountsFor retention (Call.offered calls) backlog := by
    show AccountsFor retention (Call.offered calls) (afterCalls calls (new retention))
    rw [afterCalls_new]
    exact accountsFor_offerAll retention (Call.offered calls)
  refine ⟨haccounts, haccounts.disposes, ?_, backlog.stablySorted_sorted, sorted_eq_kept, ?_⟩
  · intro hpos hfull more hmore
    obtain ⟨ds, hds⟩ := exists_offerAll_of_afterCalls hmore backlog
    have hlimit : backlog.limitReached = true := by
      rw [limitReached_iff, haccounts.retention_eq]
      exact ⟨hpos, hfull⟩
    rw [hds]
    exact kept_offerAll_of_limitReached hlimit ds
  · show new backlog.retention = new retention
    rw [haccounts.retention_eq]

end CinderFront.Backlog
