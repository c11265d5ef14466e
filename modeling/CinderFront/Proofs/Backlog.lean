import Mathlib.Data.List.Chain
import Mathlib.Data.List.Induction
import CinderFront.Diagnostic.Backlog
import CinderFront.Proofs.Passage

/-!
# What a backlog keeps

A backlog is offered errors one after the other. If no two of them are alike, it keeps the first of
them, up to its limit, and counts the rest; whether it looks out for repetitions makes no
difference. What it keeps is released in the order of the positions.

* `Retention.admitted` — how many errors are kept of so many;
* `Backlog.offerAll_new` — the backlog once it has been offered errors that are all different;
* `Diagnostic.StablySorted` — findings in the order of their positions, those of one position in the
  order in which they came;
* `Backlog.sorted_eq_mergeSort`, `Backlog.stablySorted_sorted` — what a backlog releases is sorted
  in this sense.
-/

namespace CinderFront

/-! ### Sorting by position -/

/-- The list `sorted` has the findings of `ds` in the order of their positions; those of one
position stay in the order in which they are in `ds`. -/
structure Diagnostic.StablySorted (ds sorted : List Diagnostic) : Prop where
  perm : sorted.Perm ds
  ordered : sorted.Pairwise fun d e => d.position ≤ e.position
  stable : ∀ p : Position,
    sorted.filter (fun d => d.position = p) = ds.filter fun d => d.position = p

theorem Backlog.isSorted_iff {backlog : Backlog} :
    backlog.isSorted = true ↔
      backlog.kept.toList.IsChain fun a b => a.position ≤ b.position := by
  unfold isSorted
  induction backlog.kept.toList with
  | nil => simp
  | cons a as ih =>
    cases as with
    | nil => simp
    | cons b as => simpa using fun _ => ih

/-- What is in order already need not be sorted. -/
theorem Backlog.sorted_eq_mergeSort (backlog : Backlog) :
    backlog.sorted = backlog.kept.toList.mergeSort fun a b => a.position ≤ b.position := by
  unfold sorted
  split
  · next h =>
    -- Neighbours in order make all of the list so, because the order is transitive.
    have : Trans (fun a b : Diagnostic => a.position ≤ b.position)
        (fun a b : Diagnostic => a.position ≤ b.position)
        (fun a b : Diagnostic => a.position ≤ b.position) := ⟨Position.le_trans⟩
    refine (List.mergeSort_of_pairwise ?_).symm
    exact (List.isChain_iff_pairwise.1 (isSorted_iff.1 h)).imp fun hle => decide_eq_true hle
  · rfl

theorem Backlog.stablySorted_sorted (backlog : Backlog) :
    Diagnostic.StablySorted backlog.kept.toList backlog.sorted := by
  let le : Diagnostic → Diagnostic → Bool := fun d e => d.position ≤ e.position
  have htrans : ∀ a b c, le a b = true → le b c = true → le a c = true := by
    intro a b c hab hbc
    simp only [le, decide_eq_true_eq] at hab hbc ⊢
    exact Position.le_trans hab hbc
  have htotal : ∀ a b, (le a b || le b a) = true := by
    intro a b
    simp only [le, Bool.or_eq_true, decide_eq_true_eq]
    exact Position.le_total _ _
  rw [backlog.sorted_eq_mergeSort]
  let sorted := backlog.kept.toList.mergeSort le
  have hperm : sorted.Perm backlog.kept.toList := List.mergeSort_perm _ le
  refine ⟨hperm, ?_, fun p => ?_⟩
  · refine (List.pairwise_mergeSort htrans htotal _).imp fun hle => ?_
    exact of_decide_eq_true hle
  · -- The findings of one position are sorted already, so sorting leaves them where they are.
    let here : Diagnostic → Bool := fun d => d.position = p
    have hpairwise : (backlog.kept.toList.filter here).Pairwise fun d e => le d e = true := by
      refine List.pairwise_of_forall_mem_list fun d hd e he => ?_
      have hd' : d.position = p := of_decide_eq_true (List.mem_filter.1 hd).2
      have he' : e.position = p := of_decide_eq_true (List.mem_filter.1 he).2
      simp only [le, hd', he', decide_eq_true_eq]
      exact Position.le_refl p
    have hsub : (backlog.kept.toList.filter here).Sublist sorted :=
      List.sublist_mergeSort htrans htotal hpairwise List.filter_sublist
    have hfilter := hsub.filter here
    rw [List.filter_filter] at hfilter
    simp only [Bool.and_self] at hfilter
    exact (hfilter.eq_of_length (hperm.filter here).length_eq.symm).symm

/-! ### Offering one after the other -/

/-- How many errors are kept of `n` that are all different. -/
def Retention.admitted (retention : Retention) (n : Nat) : Nat :=
  if retention.errorLimit = 0 then n else min retention.errorLimit n

theorem Retention.admitted_le (retention : Retention) (n : Nat) : retention.admitted n ≤ n := by
  unfold admitted
  split <;> omega

/-- The first error is always kept. -/
theorem Retention.admitted_eq_zero_iff {retention : Retention} {n : Nat} :
    retention.admitted n = 0 ↔ n = 0 := by
  unfold admitted
  split <;> omega

/-- An error more is one more of those that are kept, or it changes nothing. -/
theorem Retention.admitted_succ (retention : Retention) (n : Nat) :
    retention.admitted (n + 1) = retention.admitted n ∨
      retention.admitted n = n ∧ retention.admitted (n + 1) = n + 1 := by
  unfold admitted
  split <;> omega

namespace Backlog

/-- The backlog that has been offered the errors `ds`, of which no two are alike. -/
def holding (retention : Retention) (ds : List Diagnostic) : Backlog where
  retention := retention
  kept := (ds.take (retention.admitted ds.length)).toArray
  errorCount := retention.admitted ds.length
  suppressed := ds.length - retention.admitted ds.length
  lastError := (ds.take (retention.admitted ds.length)).getLast?.map Diagnostic.key

theorem holding_nil (retention : Retention) : holding retention [] = new retention := by
  simp [holding, new, Retention.admitted]

section

variable {retention : Retention} {ds : List Diagnostic} {d : Diagnostic}

/-- The limit is reached when an error more would not be kept. -/
theorem limitReached_holding :
    (holding retention ds).limitReached = true ↔
      retention.admitted (ds.length + 1) = retention.admitted ds.length := by
  unfold limitReached holding Retention.admitted
  simp only [Bool.and_eq_true, decide_eq_true_eq]
  split <;> omega

theorem repeats_holding (hnew : ∀ e ∈ ds, e.key ≠ d.key) :
    (holding retention ds).repeats d = false := by
  have hlast : (holding retention ds).lastError ≠ some d.key := by
    intro h
    obtain ⟨e, he, hkey⟩ := Option.map_eq_some_iff.1 h
    exact hnew e (List.mem_of_mem_take (List.mem_of_getLast? he)) hkey
  simp [repeats, hlast]

/-- An error that is new to the backlog is kept, unless the limit is reached. -/
theorem offer_holding (herror : d.isError = true) (hnew : ∀ e ∈ ds, e.key ≠ d.key) :
    ((holding retention ds).offer d).2 = holding retention (ds ++ [d]) := by
  have hwarning := Diagnostic.isWarning_eq_false herror
  have haccepts : (holding retention ds).accepts d = !(holding retention ds).limitReached := by
    simp [accepts, repeats_holding hnew]
  have hle := retention.admitted_le ds.length
  rw [offer, haccepts]
  rcases retention.admitted_succ ds.length with hfull | ⟨hall, hmore⟩
  · rw [limitReached_holding.2 hfull]
    simp only [Bool.not_true, Bool.false_eq_true, if_false, suppress, holding, List.length_append,
      List.length_singleton, hfull, List.take_append_of_le_length hle]
    congr 1
    omega
  · have hopen : (holding retention ds).limitReached = false := by
      rw [← Bool.not_eq_true, limitReached_holding]
      omega
    have htake : (ds ++ [d]).take (ds.length + 1) = ds ++ [d] := List.take_of_length_le (by simp)
    rw [hopen]
    simp [keep, holding, herror, hwarning, hall, hmore, htake]

end

/-- The backlog once it has been offered all of some findings. -/
def offerAll (ds : List Diagnostic) (backlog : Backlog) : Backlog :=
  ds.foldl (fun backlog d => (backlog.offer d).2) backlog

/-- Of errors that are all different, a new backlog keeps the first of them, as many as it admits,
and it counts the rest. -/
theorem offerAll_new (retention : Retention) (ds : List Diagnostic)
    (herror : ∀ d ∈ ds, d.isError = true) (hdistinct : ds.Pairwise fun d e => d.key ≠ e.key) :
    offerAll ds (new retention) = holding retention ds := by
  induction ds using List.reverseRec with
  | nil => exact (holding_nil retention).symm
  | append_singleton ds d ih =>
    obtain ⟨hds, -, hnew⟩ := List.pairwise_append.1 hdistinct
    have hrest := ih (fun e he => herror e (List.mem_append_left _ he)) hds
    have hsplit : offerAll (ds ++ [d]) (new retention) =
        ((offerAll ds (new retention)).offer d).2 := List.foldl_append
    rw [hsplit, hrest]
    exact offer_holding (herror d (by simp)) fun e he => hnew e he d (List.mem_singleton.2 rfl)

end Backlog

/-- A backlog refuses nothing: what it does not keep it counts. -/
instance : Receptive Backlog where
  accept d backlog := (backlog.offer d).2
  report_eq _ _ := rfl

theorem Receptive.acceptAll_backlog (sourceName : String) (fs : List Finding) (backlog : Backlog) :
    acceptAll sourceName fs backlog =
      backlog.offerAll (fs.map (Finding.toDiagnostic sourceName)) := by
  rw [acceptAll, Backlog.offerAll, List.foldl_map]
  rfl

end CinderFront
