import CinderFront.Proofs.SymbolTable
import Mathlib.Data.List.Nodup

/-!
# Symbol tables over many calls

Strings come into a table by several ways: as they are or owned, with room taken for granted or with
a check, and in two halves when somebody else may intern in between. Whatever the calls are, the
table holds what was interned, each string once and in the order of first calls, and its symbols
stand for their strings.

* `SymbolTable.Entry`, `SymbolTable.Call`, `SymbolTable.afterCalls` — the calls, and the table after
  some of them;
* `SymbolTable.Entry.apply_eq` — while there is room, all ways of interning are one;
* `SymbolTable.Call.perform_cases` — a call leaves the table alone or interns one string, so it
  keeps what interning keeps;
* `SymbolTable.consistent_afterCalls`, `SymbolTable.lookup?_afterCalls` — and so do many calls;
* `SymbolTable.strings_afterCalls`, `SymbolTable.Consistent.exists_apply_eq` — what the table holds
  after some calls, and what the next one makes of it;
* `SymbolTable.Accounts` — what a table says about the calls that were made on it;
* `SymbolTable.accounts_afterCalls` — every table that starts as new and keeps within 32 bits does.
-/

namespace CinderFront.SymbolTable

/-! ### Calls -/

/-- A way to intern a byte string. -/
inductive Entry
  | intern
  /-- For bytes that need not be copied. -/
  | internOwned
  | tryIntern
  | tryInternOwned
  /-- The second half of a call whose first search came to nothing, whatever has been interned by
  others since. -/
  | insert
  deriving DecidableEq, Repr

/-- What interning by this way answers, and the table it leaves. -/
def Entry.apply (entry : Entry) (t : SymbolTable) (bytes : List UInt8) :
    Except CapacityError (Symbol × SymbolTable) :=
  match entry with
  | intern | internOwned => .ok (t.intern bytes)
  | tryIntern | tryInternOwned => t.tryIntern bytes
  | insert => t.insert bytes

/-- A call on a table. -/
inductive Call
  | intern (entry : Entry) (bytes : List UInt8)
  | lookup (symbol : Symbol)
  deriving DecidableEq, Repr

/-- The table after a call. One that fails leaves it alone. -/
def Call.perform (t : SymbolTable) : Call → SymbolTable
  | intern entry bytes =>
    match entry.apply t bytes with
    | .ok (_, t') => t'
    | .error _ => t
  | lookup _ => t

/-- The symbol that a call makes, with the string for which it makes it. -/
def Call.answer? (t : SymbolTable) : Call → Option (List UInt8 × Symbol)
  | intern entry bytes =>
    match entry.apply t bytes with
    | .ok (symbol, _) => some (bytes, symbol)
    | .error _ => none
  | lookup _ => none

/-- The string that a call interns. -/
def Call.interned? : Call → Option (List UInt8)
  | intern _ bytes => some bytes
  | lookup _ => none

/-- The table after some calls. -/
def afterCalls (t : SymbolTable) (calls : List Call) : SymbolTable := calls.foldl Call.perform t

/-- The symbols that some calls make, one after the other. -/
def answers (t : SymbolTable) : List Call → List (List UInt8 × Symbol)
  | [] => []
  | call :: calls => (call.answer? t).toList ++ (call.perform t).answers calls

/-- The strings that some calls intern. -/
def Call.interned (calls : List Call) : List (List UInt8) := calls.filterMap interned?

/-! ### One call -/

/-- While there is room, all ways of interning are one. -/
theorem Entry.apply_eq (entry : Entry) {t : SymbolTable} (h : t.size ≤ maxIndex)
    (bytes : List UInt8) : entry.apply t bytes = .ok (t.intern bytes) := by
  cases entry with
  | intern | internOwned => rfl
  | tryIntern | tryInternOwned =>
    exact (t.tryIntern_eq_insert bytes).trans (insert_eq_intern h bytes)
  | insert => exact insert_eq_intern h bytes

theorem insert_cases (t : SymbolTable) (bytes : List UInt8) :
    t.insert bytes = .ok (t.intern bytes) ∨ t.insert bytes = .error ⟨t.size⟩ := by
  unfold insert intern
  cases t.find? bytes with
  | some symbol => exact .inl rfl
  | none =>
    by_cases h : t.size ≤ maxIndex
    · exact .inl (if_pos h)
    · exact .inr (if_neg h)

theorem Entry.apply_cases (entry : Entry) (t : SymbolTable) (bytes : List UInt8) :
    entry.apply t bytes = .ok (t.intern bytes) ∨ entry.apply t bytes = .error ⟨t.size⟩ := by
  cases entry with
  | intern | internOwned => exact .inl rfl
  | tryIntern | tryInternOwned =>
    show t.tryIntern bytes = _ ∨ t.tryIntern bytes = _
    rw [tryIntern_eq_insert]
    exact t.insert_cases bytes
  | insert => exact t.insert_cases bytes

/-- A call leaves the table alone or interns one string, with or without room. -/
theorem Call.perform_cases (call : Call) (t : SymbolTable) :
    call.perform t = t ∨ ∃ bytes, call.perform t = (t.intern bytes).2 := by
  cases call with
  | intern entry bytes =>
    rcases entry.apply_cases t bytes with h | h
    · exact .inr ⟨bytes, by rw [perform, h]⟩
    · exact .inl (by rw [perform, h])
  | lookup symbol => exact .inl rfl

theorem size_le_perform (t : SymbolTable) (call : Call) : t.size ≤ (call.perform t).size := by
  rcases call.perform_cases t with h | ⟨bytes, h⟩
  · exact Nat.le_of_eq (congrArg size h.symm)
  · rw [h]
    exact t.size_le_intern bytes

theorem size_perform_le (t : SymbolTable) (call : Call) : (call.perform t).size ≤ t.size + 1 := by
  rcases call.perform_cases t with h | ⟨bytes, h⟩
  · rw [h]
    exact Nat.le_succ _
  · rw [h]
    exact t.size_intern_le bytes

/-! ### Many calls -/

theorem consistent_afterCalls {t : SymbolTable} (h : t.Consistent) (calls : List Call) :
    (t.afterCalls calls).Consistent := by
  induction calls generalizing t with
  | nil => exact h
  | cons call calls ih =>
    refine ih (t := call.perform t) ?_
    rcases call.perform_cases t with hcall | ⟨bytes, hcall⟩
    · rwa [hcall]
    · rw [hcall]
      exact h.intern bytes

/-- A symbol stands for the same string, whatever is called later. -/
theorem lookup?_afterCalls {t : SymbolTable} {symbol : Symbol} {bytes : List UInt8}
    (h : t.lookup? symbol = some bytes) (calls : List Call) :
    (t.afterCalls calls).lookup? symbol = some bytes := by
  induction calls generalizing t with
  | nil => exact h
  | cons call calls ih =>
    refine ih (t := call.perform t) ?_
    rcases call.perform_cases t with hcall | ⟨bytes', hcall⟩
    · rwa [hcall]
    · rw [hcall]
      exact lookup?_intern_of_lookup? h bytes'

theorem size_le_afterCalls (t : SymbolTable) (calls : List Call) :
    t.size ≤ (t.afterCalls calls).size := by
  induction calls generalizing t with
  | nil => exact Nat.le_refl _
  | cons call calls ih => exact Nat.le_trans (t.size_le_perform call) (ih (call.perform t))

/-- A call adds one string at most. -/
theorem size_afterCalls_le (t : SymbolTable) (calls : List Call) :
    (t.afterCalls calls).size ≤ t.size + calls.length := by
  induction calls generalizing t with
  | nil => exact Nat.le_refl _
  | cons call calls ih =>
    have hcall := t.size_perform_le call
    have hcalls : ((call.perform t).afterCalls calls).size ≤ (call.perform t).size + calls.length :=
      ih (call.perform t)
    show ((call.perform t).afterCalls calls).size ≤ t.size + (calls.length + 1)
    omega

/-- Calls that keep within 32 bits intern their strings. -/
theorem afterCalls_eq_internAll {t : SymbolTable} {calls : List Call}
    (h : (t.afterCalls calls).size ≤ maxIndex) :
    t.afterCalls calls = t.internAll (Call.interned calls) := by
  induction calls generalizing t with
  | nil => rfl
  | cons call calls ih =>
    have hrest : t.afterCalls (call :: calls) = (call.perform t).internAll (Call.interned calls) :=
      ih (t := call.perform t) h
    rw [hrest]
    cases call with
    | lookup symbol => rfl
    | intern entry bytes =>
      have hroom : t.size ≤ maxIndex := Nat.le_trans (t.size_le_afterCalls _) h
      rw [Call.perform, entry.apply_eq hroom]
      rfl

/-- Calls that keep within 32 bits are all answered. -/
theorem map_fst_answers {t : SymbolTable} {calls : List Call}
    (h : (t.afterCalls calls).size ≤ maxIndex) :
    (t.answers calls).map Prod.fst = Call.interned calls := by
  induction calls generalizing t with
  | nil => rfl
  | cons call calls ih =>
    have hrest : ((call.perform t).answers calls).map Prod.fst = Call.interned calls :=
      ih (t := call.perform t) h
    rw [answers, List.map_append, hrest]
    cases call with
    | lookup symbol => rfl
    | intern entry bytes =>
      have hroom : t.size ≤ maxIndex := Nat.le_trans (t.size_le_afterCalls _) h
      rw [Call.answer?, entry.apply_eq hroom]
      rfl

/-- A symbol that a call makes stands for its string when all calls have been made. -/
theorem lookup?_of_mem_answers {t : SymbolTable} (h : t.Consistent) {calls : List Call}
    {bytes : List UInt8} {symbol : Symbol} (hmem : (bytes, symbol) ∈ t.answers calls) :
    (t.afterCalls calls).lookup? symbol = some bytes := by
  induction calls generalizing t with
  | nil => cases hmem
  | cons call calls ih =>
    rcases List.mem_append.1 hmem with hcall | hcalls
    · -- What the first call has made, the later ones keep.
      refine lookup?_afterCalls (t := call.perform t) ?_ calls
      cases call with
      | lookup symbol => cases hcall
      | intern entry bytes' =>
        rw [Call.answer?] at hcall
        rw [Call.perform]
        rcases entry.apply_cases t bytes' with happly | happly
        · rw [happly, Option.mem_toList] at hcall
          obtain ⟨rfl, rfl⟩ := Prod.mk.inj (Option.some.inj hcall)
          rw [happly]
          exact h.lookup?_intern bytes'
        · rw [happly] at hcall
          cases hcall
    · exact ih (consistent_afterCalls h [call]) hcalls

/-! ### What a table says about its calls -/

theorem Consistent.nodup_strings {t : SymbolTable} (h : t.Consistent) : t.strings.toList.Nodup := by
  refine List.nodup_iff_getElem?_ne_getElem?.2 fun i j hij hj heq => ?_
  rw [Array.getElem?_toList, Array.getElem?_toList] at heq
  have hbytes : t.strings[j]? = some t.strings[j] := Array.getElem?_eq_getElem hj
  -- The index has one number for the string, and it would have to be both.
  have hi := (h.index_eq_some_iff _ i).2 (heq.trans hbytes)
  have hj' := (h.index_eq_some_iff _ j).2 hbytes
  rw [hi] at hj'
  exact Nat.ne_of_lt hij (Option.some.inj hj')

/-- What a table says about the calls that were made on it. It holds the strings that were interned
behind the empty one, each of them once. The symbols that the calls made stand for their strings,
and different strings have different symbols. Whatever is interned next, and by which way, gets the
symbol it has or the next number. -/
structure Accounts (t : SymbolTable) (calls : List Call) : Prop where
  nodup : t.strings.toList.Nodup
  empty : t.strings[0]? = some []
  index_eq_some_iff : ∀ (bytes : List UInt8) (n : Nat),
    t.index[bytes]? = some n ↔ t.strings[n]? = some bytes
  strings_eq : t.strings.toList = ([] :: Call.interned calls).eraseDups
  answered : (new.answers calls).map Prod.fst = Call.interned calls
  lookup?_eq : ∀ a ∈ new.answers calls, t.lookup? a.2 = some a.1
  symbol_eq_iff : ∀ a ∈ new.answers calls, ∀ b ∈ new.answers calls, a.2 = b.2 ↔ a.1 = b.1
  next : ∀ (entry : Entry) (bytes : List UInt8), ∃ symbol t',
    entry.apply t bytes = .ok (symbol, t') ∧
    (∀ later, (t'.afterCalls later).lookup? symbol = some bytes) ∧
    (bytes ∈ [] :: Call.interned calls → t' = t) ∧
    (bytes ∉ [] :: Call.interned calls → symbol = ⟨t.size⟩ ∧ t'.size = t.size + 1)

theorem Consistent.lookup?_inj {t : SymbolTable} (h : t.Consistent) {a b : Symbol}
    {bytes : List UInt8} (ha : t.lookup? a = some bytes) (hb : t.lookup? b = some bytes) :
    a = b := by
  rw [← h.find?_eq_some_iff] at ha hb
  rw [ha] at hb
  exact Option.some.inj hb

/-- A string that the table does not hold gets the next number. -/
theorem Consistent.intern_of_not_mem {t : SymbolTable} (h : t.Consistent) {bytes : List UInt8}
    (hnew : bytes ∉ t.strings.toList) : t.intern bytes = (⟨t.size⟩, t.push bytes) := by
  unfold SymbolTable.intern
  cases hfind : t.find? bytes with
  | none => rfl
  | some symbol => exact absurd (h.mem_strings_iff.2 ⟨symbol, hfind⟩) hnew

theorem strings_afterCalls {calls : List Call} (h : (new.afterCalls calls).size ≤ maxIndex) :
    (new.afterCalls calls).strings.toList = ([] :: Call.interned calls).eraseDups := by
  have hfilter : (Call.interned calls).filter (· ∉ new.strings.toList) =
      (Call.interned calls).filter fun bytes => !bytes == [] := by
    refine List.filter_congr fun bytes _ => ?_
    show decide (bytes ∉ [[]]) = _
    cases bytes <;> rfl
  rw [afterCalls_eq_internAll h, consistent_new.strings_internAll, hfilter, List.eraseDups_cons]
  rfl

/-- While there is room, the next string gets the symbol it has or the next number, and keeps it. -/
theorem Consistent.exists_apply_eq {t : SymbolTable} (h : t.Consistent) (hroom : t.size ≤ maxIndex)
    (entry : Entry) (bytes : List UInt8) :
    ∃ symbol t', entry.apply t bytes = .ok (symbol, t') ∧
      (∀ later, (t'.afterCalls later).lookup? symbol = some bytes) ∧
      (bytes ∈ t.strings.toList → t' = t) ∧
      (bytes ∉ t.strings.toList → symbol = ⟨t.size⟩ ∧ t'.size = t.size + 1) := by
  let after := t.intern bytes
  refine ⟨after.1, after.2, entry.apply_eq hroom bytes, fun later =>
    lookup?_afterCalls (h.lookup?_intern bytes) later, fun hold => ?_, fun hnew => ?_⟩
  · obtain ⟨symbol, hsymbol⟩ := h.mem_strings_iff.1 hold
    exact congrArg Prod.snd (h.intern_of_lookup? (h.find?_eq_some_iff.1 hsymbol))
  · have hafter : after = (⟨t.size⟩, t.push bytes) := h.intern_of_not_mem hnew
    rw [hafter]
    exact ⟨rfl, Array.size_push _⟩

/-- After any calls on a new table that keep within 32 bits, the table accounts for them. -/
theorem accounts_afterCalls (calls : List Call)
    (h : (new.afterCalls calls).size < UInt32.size) :
    Accounts (new.afterCalls calls) calls := by
  have hroom : (new.afterCalls calls).size ≤ maxIndex := Nat.le_sub_one_of_lt h
  have hc : (new.afterCalls calls).Consistent := consistent_afterCalls consistent_new calls
  have hlookup : ∀ a ∈ new.answers calls, (new.afterCalls calls).lookup? a.2 = some a.1 :=
    fun a ha => lookup?_of_mem_answers consistent_new ha
  have hmem : ∀ bytes, bytes ∈ (new.afterCalls calls).strings.toList ↔
      bytes ∈ [] :: Call.interned calls := by
    intro bytes
    rw [strings_afterCalls hroom, List.mem_eraseDups]
  refine ⟨hc.nodup_strings, hc.empty, hc.index_eq_some_iff, strings_afterCalls hroom,
    map_fst_answers hroom, hlookup, fun a ha b hb => ?_, fun entry bytes => ?_⟩
  · constructor
    · intro hsymbol
      have hstring : some a.1 = some b.1 := by rw [← hlookup a ha, ← hlookup b hb, hsymbol]
      exact Option.some.inj hstring
    · intro hstring
      exact hc.lookup?_inj (hlookup a ha) (hstring ▸ hlookup b hb)
  · simp only [← hmem]
    exact hc.exists_apply_eq hroom entry bytes

/-- A string that is interned by two ways, and the empty one. -/
theorem accounts_afterCalls_twice :
    let calls : List Call :=
      [.intern .intern [97], .intern .tryInternOwned [], .lookup ⟨1⟩, .intern .insert [97],
        .intern .tryIntern [98]]
    (new.afterCalls calls).size < UInt32.size ∧ Accounts (new.afterCalls calls) calls ∧
      (new.afterCalls calls).strings.toList = [[], [97], [98]] := by
  intro calls
  have hsize : (new.afterCalls calls).size < UInt32.size :=
    Nat.lt_of_le_of_lt (new.size_afterCalls_le calls) (by decide)
  have haccounts := accounts_afterCalls calls hsize
  exact ⟨hsize, haccounts, haccounts.strings_eq⟩

end CinderFront.SymbolTable
