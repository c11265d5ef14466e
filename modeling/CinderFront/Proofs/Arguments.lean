import Mathlib.Data.Nat.Digits.Defs
import Mathlib.Tactic.Ring
import CinderFront.Arguments

/-!
# The grammar of the command line

Which arguments there are is said here without saying how they are read: a flag by what follows its
name, a numeral by its digits. Reading accepts exactly that, and of several faults it reports the
first.

* `Numeral.Denotes`, `Numeral.value?_eq_some_iff` — the numerals and their values, however long;
* `Argument.Means`, `Argument.ofText_eq_ok_iff` — what a single argument says;
* `Argument.FaultOf`, `Argument.ofText_eq_error_iff` — what is wrong with a single argument;
* `LastOr`, `Arguments.Reads` — what a list of arguments without faults says;
* `Arguments.parse_eq` — flags and positional arguments do not take notice of each other;
* `Arguments.parse_grammar` — what comes of every list of arguments.
-/

namespace CinderFront

/-! ### Beginnings of texts -/

namespace Text

theorem after?_eq_some_iff {head text value : String} :
    after? head text = some value ↔ text = head ++ value := by
  unfold after?
  constructor
  · intro h
    split at h
    · next hprefix =>
      cases h
      obtain ⟨rest, hrest⟩ := List.isPrefixOf_iff_prefix.1 hprefix
      rw [← String.toList_inj, String.toList_append, String.toList_ofList, ← hrest,
        List.drop_left]
    · cases h
  · rintro rfl
    rw [if_pos (by simp), String.toList_append, List.drop_left, String.ofList_toList]

theorem after?_eq_none_iff {head text : String} :
    after? head text = none ↔ ∀ value, text ≠ head ++ value := by
  simp only [Option.eq_none_iff_forall_ne_some, ne_eq, after?_eq_some_iff]

end Text

/-! ### Numerals -/

namespace Numeral

/-- The text is a numeral of the value `n`: at least one digit, behind one plus sign at most. The
value fits into 64 bits. -/
def Denotes (text : String) (n : Nat) : Prop :=
  ∃ sign digits, text.toList = sign ++ digits ∧ (sign = [] ∨ sign = ['+']) ∧ digits ≠ [] ∧
    (∀ c ∈ digits, c.isDigit = true) ∧
    Nat.ofDigits 10 (digits.reverse.map fun c => c.toNat - '0'.toNat) = n ∧ n ≤ 2 ^ 64 - 1

/-- Digits are read from the left, so what has been read before counts for as many places more. -/
theorem digits?_eq_some_iff {run : List Char} {n m : Nat} :
    digits? n run = some m ↔ (∀ c ∈ run, c.isDigit = true) ∧
      n * 10 ^ run.length + Nat.ofDigits 10 (run.reverse.map fun c => c.toNat - '0'.toNat) = m := by
  induction run generalizing n with
  | nil => simp [digits?]
  | cons c run ih =>
    have hvalue : n * 10 ^ (c :: run).length +
        Nat.ofDigits 10 ((c :: run).reverse.map fun c => c.toNat - '0'.toNat) =
        (n * 10 + (c.toNat - '0'.toNat)) * 10 ^ run.length +
          Nat.ofDigits 10 (run.reverse.map fun c => c.toNat - '0'.toNat) := by
      rw [List.reverse_cons, List.map_append, Nat.ofDigits_append]
      simp only [List.length_map, List.length_reverse, List.map_cons, List.map_nil,
        Nat.ofDigits_singleton, List.length_cons]
      ring
    rw [hvalue, digits?]
    by_cases hc : c.isDigit
    · rw [if_pos hc, show c.toNat - 48 = c.toNat - '0'.toNat from rfl, ih]
      simp [hc]
    · simp [hc]

/-- A digit is no sign. -/
theorem unsigned_of_isDigit {run : List Char} (h : ∀ c ∈ run, c.isDigit = true) :
    unsigned run = run := by
  unfold unsigned
  split
  · next rest =>
    have hplus : ('+').isDigit = true := h '+' List.mem_cons_self
    exact absurd hplus (by decide)
  · rfl

/-- What is left without the sign is all but the sign. -/
theorem exists_sign (text : List Char) :
    ∃ sign, text = sign ++ unsigned text ∧ (sign = [] ∨ sign = ['+']) := by
  unfold unsigned
  split
  · exact ⟨['+'], rfl, .inr rfl⟩
  · exact ⟨[], rfl, .inl rfl⟩

/-- A numeral is read exactly if it is one, and its value is the one that its digits have. -/
theorem value?_eq_some_iff {text : String} {n : Nat} :
    value? text = some n ↔ Denotes text n := by
  have hread : value? text = some n ↔ unsigned text.toList ≠ [] ∧
      digits? 0 (unsigned text.toList) = some n ∧ n ≤ 2 ^ 64 - 1 := by
    unfold value?
    cases hrun : unsigned text.toList with
    | nil => simp
    | cons c run =>
      cases hdigits : digits? 0 (c :: run) with
      | none => simp [hdigits]
      | some m =>
        simp only [hdigits, show maxValue = 2 ^ 64 - 1 from rfl]
        grind
  rw [hread, digits?_eq_some_iff]
  constructor
  · rintro ⟨hne, ⟨hdigits, hvalue⟩, hle⟩
    obtain ⟨sign, htext, hsign⟩ := exists_sign text.toList
    exact ⟨sign, _, htext, hsign, hne, hdigits, by simpa using hvalue, hle⟩
  · rintro ⟨sign, digits, htext, hsign, hne, hdigits, hvalue, hle⟩
    have hrun : unsigned text.toList = digits := by
      rw [htext]
      rcases hsign with rfl | rfl
      · exact unsigned_of_isDigit hdigits
      · rfl
    rw [hrun]
    exact ⟨hne, ⟨hdigits, by simpa using hvalue⟩, hle⟩

end Numeral

theorem ColorChoice.ofText?_eq_some_iff {text : String} {choice : ColorChoice} :
    ofText? text = some choice ↔ text = choice.text := by
  constructor
  · intro h
    have hfound : (choice.text == text) = true :=
      List.find?_some (p := (ColorChoice.text · == text)) h
    exact (eq_of_beq hfound).symm
  · rintro rfl
    exact ofText?_text choice

/-! ### One argument -/

namespace Argument

/-- Whether the argument is a flag, right or wrong. -/
def isFlag (text : String) : Bool := "--".toList.isPrefixOf text.toList

/-- What an argument without fault says. -/
inductive Means (text : String) : Argument → Prop
  | errorLimit {value : String} {limit : Nat} : text = "--error-limit=" ++ value →
      Numeral.Denotes value limit → Means text (.errorLimit limit)
  | color {choice : ColorChoice} : text = "--color=" ++ choice.text → Means text (.color choice)
  | keepRepeated : text = "--no-dedup" → Means text .keepRepeated
  | positional : isFlag text = false → Means text (.positional text)

/-- What is wrong with an argument that has a fault. The error carries the value of the flag, or the
whole argument if there is no such flag. -/
inductive FaultOf (text : String) : ArgumentError → Prop
  | errorLimit {value : String} : text = "--error-limit=" ++ value →
      (∀ limit, ¬ Numeral.Denotes value limit) → FaultOf text (.invalidErrorLimit value)
  | color {value : String} : text = "--color=" ++ value →
      (∀ choice, value ≠ ColorChoice.text choice) → FaultOf text (.invalidColor value)
  | unknown : isFlag text = true → (∀ value, text ≠ "--error-limit=" ++ value) →
      (∀ value, text ≠ "--color=" ++ value) → text ≠ "--no-dedup" →
      FaultOf text (.unknownFlag text)

/-- The argument is a flag, but none of those there are. -/
def IsBad (text : String) : Prop :=
  isFlag text = true ∧ text ≠ "--no-dedup" ∧
    (∀ choice, text ≠ "--color=" ++ ColorChoice.text choice) ∧
    ∀ value limit, Numeral.Denotes value limit → text ≠ "--error-limit=" ++ value

theorem isFlag_eq_isSome (text : String) : isFlag text = (Text.after? "--" text).isSome := by
  unfold isFlag Text.after?
  cases "--".toList.isPrefixOf text.toList <;> rfl

/-- What stands behind two dashes does not matter for an argument to be a flag. -/
theorem isFlag_append {head : String} (h : isFlag head = true) (value : String) :
    isFlag (head ++ value) = true := by
  rw [isFlag, List.isPrefixOf_iff_prefix] at h ⊢
  rw [String.toList_append]
  exact h.trans (List.prefix_append _ _)

theorem ofText_of_errorLimit (value : String) :
    ofText ("--error-limit=" ++ value) =
      match Numeral.value? value with
      | some limit => .ok (.errorLimit limit)
      | none => .error (.invalidErrorLimit value) := by
  have hvalue : Text.after? "--error-limit=" ("--error-limit=" ++ value) = some value :=
    Text.after?_eq_some_iff.2 rfl
  cases hread : Numeral.value? value <;> simp [ofText, hvalue, hread]

theorem ofText_of_color (value : String) :
    ofText ("--color=" ++ value) =
      match ColorChoice.ofText? value with
      | some choice => .ok (.color choice)
      | none => .error (.invalidColor value) := by
  have hlimit : Text.after? "--error-limit=" ("--color=" ++ value) = none := by
    refine Text.after?_eq_none_iff.2 fun value' h => ?_
    have hlist := congrArg String.toList h
    simp at hlist
  have hvalue : Text.after? "--color=" ("--color=" ++ value) = some value :=
    Text.after?_eq_some_iff.2 rfl
  cases hread : ColorChoice.ofText? value <;> simp [ofText, hlimit, hvalue, hread]

theorem ofText_of_forall_ne {text : String} (hlimit : ∀ value, text ≠ "--error-limit=" ++ value)
    (hcolor : ∀ value, text ≠ "--color=" ++ value) :
    ofText text =
      if text = "--no-dedup" then .ok .keepRepeated
      else if isFlag text then .error (.unknownFlag text)
      else .ok (.positional text) := by
  rw [ofText, Text.after?_eq_none_iff.2 hlimit, Text.after?_eq_none_iff.2 hcolor, isFlag_eq_isSome]

/-- What an argument means is what is read. -/
theorem ofText_of_means {text : String} {a : Argument} (h : Means text a) :
    ofText text = .ok a := by
  cases h with
  | @errorLimit value limit htext hdenotes =>
    rw [htext, ofText_of_errorLimit, Numeral.value?_eq_some_iff.2 hdenotes]
  | @color choice htext => rw [htext, ofText_of_color, ColorChoice.ofText?_text]
  | keepRepeated htext =>
    rw [htext]
    rfl
  | positional hflag =>
    have hne (head : String) (hhead : isFlag head = true) (value : String) :
        text ≠ head ++ value := by
      rintro rfl
      rw [isFlag_append hhead] at hflag
      cases hflag
    have hdedup : text ≠ "--no-dedup" := by
      rintro rfl
      exact absurd hflag (by decide)
    rw [ofText_of_forall_ne (hne _ (by decide)) (hne _ (by decide)), if_neg hdedup, hflag]
    rfl

/-- Just the arguments that are no flags are positional. -/
theorem Means.positional?_eq {text : String} {a : Argument} (h : Means text a) :
    a.positional? = if isFlag text then none else some text := by
  cases h with
  | errorLimit htext | color htext =>
    rw [htext, if_pos (isFlag_append (by decide) _)]
    rfl
  | keepRepeated htext =>
    rw [htext, if_pos (by decide)]
    rfl
  | positional hflag =>
    rw [if_neg (by simp [hflag])]
    rfl

/-- A fault is what is reported. -/
theorem ofText_of_faultOf {text : String} {e : ArgumentError} (h : FaultOf text e) :
    ofText text = .error e := by
  cases h with
  | @errorLimit value htext hdenotes =>
    have hnone : Numeral.value? value = none :=
      Option.eq_none_iff_forall_ne_some.2 fun limit hvalue =>
        hdenotes limit (Numeral.value?_eq_some_iff.1 hvalue)
    rw [htext, ofText_of_errorLimit, hnone]
  | @color value htext hchoice =>
    have hnone : ColorChoice.ofText? value = none :=
      Option.eq_none_iff_forall_ne_some.2 fun choice hvalue =>
        hchoice choice (ColorChoice.ofText?_eq_some_iff.1 hvalue)
    rw [htext, ofText_of_color, hnone]
  | unknown hflag hlimit hcolor hdedup =>
    rw [ofText_of_forall_ne hlimit hcolor, if_neg hdedup, if_pos hflag]

/-- Every argument means something or has a fault. -/
theorem means_or_faultOf (text : String) : (∃ a, Means text a) ∨ ∃ e, FaultOf text e := by
  by_cases hlimit : ∃ value, text = "--error-limit=" ++ value
  · obtain ⟨value, hvalue⟩ := hlimit
    by_cases hdenotes : ∃ limit, Numeral.Denotes value limit
    · obtain ⟨limit, hdenotes⟩ := hdenotes
      exact .inl ⟨_, .errorLimit hvalue hdenotes⟩
    · exact .inr ⟨_, .errorLimit hvalue (not_exists.1 hdenotes)⟩
  by_cases hcolor : ∃ value, text = "--color=" ++ value
  · obtain ⟨value, hvalue⟩ := hcolor
    by_cases hchoice : ∃ choice, value = ColorChoice.text choice
    · obtain ⟨choice, rfl⟩ := hchoice
      exact .inl ⟨_, .color hvalue⟩
    · exact .inr ⟨_, .color hvalue (not_exists.1 hchoice)⟩
  by_cases hdedup : text = "--no-dedup"
  · exact .inl ⟨_, .keepRepeated hdedup⟩
  cases hflag : isFlag text with
  | false => exact .inl ⟨_, .positional hflag⟩
  | true => exact .inr ⟨_, .unknown hflag (not_exists.1 hlimit) (not_exists.1 hcolor) hdedup⟩

theorem ofText_eq_ok_iff {text : String} {a : Argument} :
    ofText text = .ok a ↔ Means text a := by
  refine ⟨fun h => ?_, ofText_of_means⟩
  rcases means_or_faultOf text with ⟨b, hb⟩ | ⟨e, he⟩
  · cases h.symm.trans (ofText_of_means hb)
    exact hb
  · cases h.symm.trans (ofText_of_faultOf he)

theorem ofText_eq_error_iff {text : String} {e : ArgumentError} :
    ofText text = .error e ↔ FaultOf text e := by
  refine ⟨fun h => ?_, ofText_of_faultOf⟩
  rcases means_or_faultOf text with ⟨a, ha⟩ | ⟨e', he'⟩
  · cases h.symm.trans (ofText_of_means ha)
  · cases h.symm.trans (ofText_of_faultOf he')
    exact he'

/-- The bad arguments are those that mean nothing. -/
theorem isBad_iff_forall_not_means {text : String} : IsBad text ↔ ∀ a, ¬ Means text a := by
  constructor
  · rintro ⟨hflag, hdedup, hcolor, hlimit⟩ a h
    cases h with
    | errorLimit htext hdenotes => exact hlimit _ _ hdenotes htext
    | color htext => exact hcolor _ htext
    | keepRepeated htext => exact hdedup htext
    | positional hnot => cases hflag.symm.trans hnot
  · intro h
    refine ⟨?_, fun htext => h _ (.keepRepeated htext), fun choice htext => h _ (.color htext),
      fun value limit hdenotes htext => h _ (.errorLimit htext hdenotes)⟩
    by_contra hflag
    exact h _ (.positional (by simpa using hflag))

/-- The bad arguments are those that have a fault. -/
theorem isBad_iff_exists_faultOf {text : String} : IsBad text ↔ ∃ e, FaultOf text e := by
  rw [isBad_iff_forall_not_means]
  constructor
  · intro h
    exact (means_or_faultOf text).resolve_left (not_exists.2 h)
  · rintro ⟨e, he⟩ a ha
    cases (ofText_of_means ha).symm.trans (ofText_of_faultOf he)

end Argument

/-! ### The last of several flags -/

/-- Of several texts that set a value, the last one counts; if there is none, the default does. -/
inductive LastOr {α : Type} (sets : String → α → Prop) (default : α) (texts : List String) :
    α → Prop
  | last {before after : List String} {text : String} {a : α} : texts = before ++ text :: after →
      sets text a → (∀ t ∈ after, ∀ b, ¬ sets t b) → LastOr sets default texts a
  | none : (∀ t ∈ texts, ∀ b, ¬ sets t b) → LastOr sets default texts default

namespace LastOr

variable {α : Type} {sets : String → α → Prop} {default a b : α} {text : String}
  {texts : List String}

/-- A first text that sets a value is the default of the others. -/
theorem cons_of_sets (h : sets text a) (hrest : LastOr sets a texts b) :
    LastOr sets default (text :: texts) b := by
  cases hrest with
  | @last before after text' _ htexts hset hafter =>
    have hcons : text :: texts = (text :: before) ++ text' :: after := congrArg (text :: ·) htexts
    exact .last hcons hset hafter
  | none hnone =>
    have hcons : text :: texts = [] ++ text :: texts := rfl
    exact .last hcons h hnone

/-- A first text that sets nothing changes nothing. -/
theorem cons_of_not (h : ∀ a, ¬ sets text a) (hrest : LastOr sets default texts b) :
    LastOr sets default (text :: texts) b := by
  cases hrest with
  | @last before after text' _ htexts hset hafter =>
    have hcons : text :: texts = (text :: before) ++ text' :: after := congrArg (text :: ·) htexts
    exact .last hcons hset hafter
  | none hnone =>
    refine .none fun t ht => ?_
    rcases List.mem_cons.1 ht with rfl | ht
    · exact h
    · exact hnone t ht

end LastOr

/-! ### All arguments -/

namespace Arguments

open Argument (Means FaultOf IsBad isFlag)

/-- What a list of arguments says, of which none has a fault. -/
structure Reads (parsed : Arguments) (arguments : List String) : Prop where
  positional_eq : parsed.positional = arguments.filter (!isFlag ·)
  errorLimit : LastOr (fun text limit => Means text (.errorLimit limit)) 10 arguments
    parsed.options.retention.errorLimit
  color : LastOr (fun text choice => Means text (.color choice)) .auto arguments
    parsed.options.color
  deduplicate_eq_false_iff :
    parsed.options.retention.deduplicate = false ↔ "--no-dedup" ∈ arguments

theorem exists_forall₂_means {arguments : List String} (h : ∀ text ∈ arguments, ¬ IsBad text) :
    ∃ parsed, List.Forall₂ Means arguments parsed := by
  induction arguments with
  | nil => exact ⟨[], .nil⟩
  | cons text arguments ih =>
    obtain ⟨parsed, hparsed⟩ := ih fun t ht => h t (List.mem_cons_of_mem _ ht)
    have hgood : ∃ a, Means text a := by
      by_contra hnone
      exact h text List.mem_cons_self (Argument.isBad_iff_forall_not_means.2 (not_exists.1 hnone))
    obtain ⟨a, ha⟩ := hgood
    exact ⟨a :: parsed, .cons ha hparsed⟩

theorem mapM_ofText_of_forall₂ {arguments : List String} {parsed : List Argument}
    (h : List.Forall₂ Means arguments parsed) :
    arguments.mapM Argument.ofText = .ok parsed := by
  induction h with
  | nil => rfl
  | cons ha _ ih =>
    rw [List.mapM_cons, Argument.ofText_of_means ha, ih]
    rfl

/-- The first fault is reported, and what comes after it is not looked at. -/
theorem mapM_ofText_of_faultOf {before : List String} {text : String} {e : ArgumentError}
    (hbefore : ∀ t ∈ before, ¬ IsBad t) (h : FaultOf text e) (after : List String) :
    (before ++ text :: after).mapM Argument.ofText = .error e := by
  obtain ⟨parsed, hparsed⟩ := exists_forall₂_means hbefore
  induction hparsed with
  | nil =>
    rw [List.nil_append, List.mapM_cons, Argument.ofText_of_faultOf h]
    rfl
  | cons ha _ ih =>
    rw [List.cons_append, List.mapM_cons, Argument.ofText_of_means ha,
      ih fun t ht => hbefore t (List.mem_cons_of_mem _ ht)]
    rfl

/-- Among arguments of which some are bad, there is a first one. -/
theorem exists_first_isBad {arguments : List String} (h : ∃ text ∈ arguments, IsBad text) :
    ∃ before text after, arguments = before ++ text :: after ∧ (∀ t ∈ before, ¬ IsBad t) ∧
      IsBad text := by
  classical
  obtain ⟨text, htext⟩ : ∃ text, arguments.find? (IsBad ·) = some text := by
    rw [← Option.isSome_iff_exists, List.find?_isSome]
    simpa using h
  obtain ⟨hbad, before, after, harguments, hbefore⟩ := List.find?_eq_some_iff_append.1 htext
  exact ⟨before, text, after, harguments, by simpa using hbefore, by simpa using hbad⟩

/-! ### What arguments without faults say -/

/-- What the arguments that were read set on top of the options, and the positional ones. -/
def collected (options : Options) (parsed : List Argument) : Arguments :=
  ⟨parsed.foldl Argument.set options, parsed.filterMap (·.positional?)⟩

section

variable {arguments : List String} {parsed : List Argument}

/-- The positional arguments are those that are no flags. -/
theorem filterMap_positional? (h : List.Forall₂ Means arguments parsed) :
    parsed.filterMap (·.positional?) = arguments.filter (!isFlag ·) := by
  induction h with
  | nil => rfl
  | @cons text a _ _ ha _ ih =>
    rw [List.filterMap_cons, ha.positional?_eq, List.filter_cons, ih]
    cases isFlag text <;> rfl

/-- A setting that some arguments change is what the last of them makes it. -/
theorem lastOr_foldl {α : Type} (get : Options → α) (make : α → Argument)
    (hmake : ∀ options value, get ((make value).set options) = value)
    (hother : ∀ options a, (∀ value, a ≠ make value) → get (a.set options) = get options)
    (h : List.Forall₂ Means arguments parsed) (options : Options) :
    LastOr (fun text value => Means text (make value)) (get options) arguments
      (get (parsed.foldl Argument.set options)) := by
  induction h generalizing options with
  | nil => exact .none (by simp)
  | @cons text a _ _ ha _ ih =>
    have hrest := ih (Argument.set options a)
    by_cases hvalue : ∃ value, a = make value
    · obtain ⟨value, rfl⟩ := hvalue
      rw [hmake] at hrest
      exact .cons_of_sets ha hrest
    · rw [hother options a (not_exists.1 hvalue)] at hrest
      refine .cons_of_not (fun value hmeans => hvalue ⟨value, ?_⟩) hrest
      exact Except.ok.inj ((Argument.ofText_of_means ha).symm.trans
        (Argument.ofText_of_means hmeans))

/-- Repetitions are kept exactly if some argument says so. -/
theorem deduplicate_foldl (h : List.Forall₂ Means arguments parsed) (options : Options) :
    (parsed.foldl Argument.set options).retention.deduplicate = false ↔
      options.retention.deduplicate = false ∨ "--no-dedup" ∈ arguments := by
  induction h generalizing options with
  | nil => simp
  | @cons text a _ _ ha _ ih =>
    rw [List.foldl_cons, ih, List.mem_cons]
    by_cases htext : "--no-dedup" = text
    · subst htext
      cases (Argument.ofText_of_means ha).symm.trans
        (Argument.ofText_of_means (.keepRepeated rfl))
      simp [Argument.set]
    · have hset : (a.set options).retention.deduplicate = options.retention.deduplicate := by
        cases ha with
        | keepRepeated hkeep => exact absurd hkeep.symm htext
        | _ => rfl
      rw [hset]
      simp [htext]

theorem exists_reads (h : List.Forall₂ Means arguments parsed) :
    ∃ result, parse arguments = .ok result ∧ result.Reads arguments := by
  refine ⟨collected {} parsed, ?_, ?_, ?_, ?_, ?_⟩
  · rw [parse, mapM_ofText_of_forall₂ h]
    rfl
  · exact filterMap_positional? h
  · refine lastOr_foldl (·.retention.errorLimit) .errorLimit (fun _ _ => rfl)
      (fun options a ha => ?_) h {}
    cases a with
    | errorLimit limit => exact absurd rfl (ha limit)
    | _ => rfl
  · refine lastOr_foldl (·.color) .color (fun _ _ => rfl) (fun options a ha => ?_) h {}
    cases a with
    | color choice => exact absurd rfl (ha choice)
    | _ => rfl
  · refine (deduplicate_foldl h {}).trans ?_
    simp

end

/-! ### Flags and positional arguments in any order -/

/-- Reading goes argument by argument. -/
theorem map_mapM_cons {α β γ : Type} {read : α → Except ArgumentError β} {a : α} {b : β}
    (h : read a = .ok b) (as : List α) (f : List β → γ) :
    f <$> (a :: as).mapM read = (fun bs => f (b :: bs)) <$> as.mapM read := by
  rw [List.mapM_cons, h]
  cases as.mapM read <;> rfl

theorem map_mapM_ofText (arguments : List String) (options : Options) :
    collected options <$> arguments.mapM Argument.ofText =
      (fun flags => ⟨flags.foldl Argument.set options, arguments.filter (!isFlag ·)⟩) <$>
        (arguments.filter isFlag).mapM Argument.ofText := by
  induction arguments generalizing options with
  | nil => rfl
  | cons text arguments ih =>
    cases hread : Argument.ofText text with
    | error e =>
      -- Only a flag has a fault, and the list of flags begins with it as well.
      have hflag : isFlag text = true :=
        (Argument.isBad_iff_exists_faultOf.2 ⟨e, Argument.ofText_eq_error_iff.1 hread⟩).1
      rw [List.filter_cons_of_pos hflag, List.mapM_cons, List.mapM_cons, hread]
      rfl
    | ok a =>
      have hpositional := (Argument.ofText_eq_ok_iff.1 hread).positional?_eq
      rw [map_mapM_cons hread]
      cases hflag : isFlag text with
      | true =>
        rw [hflag, if_pos rfl] at hpositional
        have hcollected : ∀ parsed, collected options (a :: parsed) =
            collected (a.set options) parsed := by
          intro parsed
          rw [collected, List.filterMap_cons_none hpositional]
          rfl
        have hothers : (text :: arguments).filter (!isFlag ·) = arguments.filter (!isFlag ·) :=
          List.filter_cons_of_neg (by simp [hflag])
        rw [funext hcollected, hothers, List.filter_cons_of_pos hflag, map_mapM_cons hread]
        exact ih (a.set options)
      | false =>
        rw [hflag, if_neg (by simp)] at hpositional
        obtain rfl : a = .positional text := by
          cases a <;> simp_all [Argument.positional?]
        have hflags : (text :: arguments).filter isFlag = arguments.filter isFlag :=
          List.filter_cons_of_neg (by simp [hflag])
        have hothers : (text :: arguments).filter (!isFlag ·) =
            text :: arguments.filter (!isFlag ·) :=
          List.filter_cons_of_pos (by simp [hflag])
        rw [hflags, hothers]
        have hrest := congrArg ((fun parsed : Arguments =>
          { parsed with positional := text :: parsed.positional }) <$> ·) (ih options)
        rwa [Functor.map_map, Functor.map_map] at hrest

/-- The flags are read by themselves, and the positional arguments are taken as they are. -/
theorem parse_eq (arguments : List String) :
    parse arguments =
      (fun flags => ⟨flags.foldl Argument.set {}, arguments.filter (!isFlag ·)⟩) <$>
        (arguments.filter isFlag).mapM Argument.ofText := by
  rw [← map_mapM_ofText]
  rfl

/-! ### Every list of arguments -/

/-- A list of arguments is accepted exactly if none of them is bad. Then the positional arguments
are those that are no flags, in order; the limit and the choice of colours are those of the last
flag of the kind, or the defaults; and repetitions are kept exactly if the flag for it occurs.
Otherwise the first bad argument makes the error, whatever comes after it: the error carries the
value of the flag, or the whole argument if there is no such flag. How flags and positional
arguments are mixed does not matter, as long as the order of either is kept. -/
theorem parse_grammar (arguments : List String) :
    ((∀ text ∈ arguments, ¬ IsBad text) →
      ∃ result, parse arguments = .ok result ∧ result.Reads arguments) ∧
    ((∃ text ∈ arguments, IsBad text) →
      ∃ before text after e, arguments = before ++ text :: after ∧
        (∀ t ∈ before, ¬ IsBad t) ∧ IsBad text ∧ FaultOf text e ∧
        ∀ after', parse (before ++ text :: after') = .error e) ∧
    ∀ arguments', arguments'.filter isFlag = arguments.filter isFlag →
      arguments'.filter (!isFlag ·) = arguments.filter (!isFlag ·) →
      parse arguments' = parse arguments := by
  refine ⟨fun h => ?_, fun h => ?_, fun arguments' hflags hothers => ?_⟩
  · obtain ⟨parsed, hparsed⟩ := exists_forall₂_means h
    exact exists_reads hparsed
  · obtain ⟨before, text, after, harguments, hbefore, hbad⟩ := exists_first_isBad h
    obtain ⟨e, he⟩ := Argument.isBad_iff_exists_faultOf.1 hbad
    refine ⟨before, text, after, e, harguments, hbefore, hbad, he, fun after' => ?_⟩
    rw [parse, mapM_ofText_of_faultOf hbefore he after']
    rfl
  · rw [parse_eq, parse_eq, hflags, hothers]

/-- Two limits, of which the second counts, among positional arguments; a limit that does not fit,
before an argument that is wrong as well; and the same flags behind the positional arguments. -/
theorem parse_grammar_limits :
    (∃ result, parse ["--error-limit=+007", "a.cin", "--no-dedup", "--error-limit=3"] = .ok result ∧
      result.Reads ["--error-limit=+007", "a.cin", "--no-dedup", "--error-limit=3"]) ∧
    (∃ before text after e,
      ["b.cin", "--error-limit=18446744073709551616", "--x"] = before ++ text :: after ∧
      (∀ t ∈ before, ¬ IsBad t) ∧ IsBad text ∧ FaultOf text e ∧
      ∀ after', parse (before ++ text :: after') = .error e) ∧
    parse ["a.cin", "--error-limit=+007", "--no-dedup", "--error-limit=3"] =
      parse ["--error-limit=+007", "a.cin", "--no-dedup", "--error-limit=3"] := by
  have hread : ∀ text ∈ ["--error-limit=+007", "a.cin", "--no-dedup", "--error-limit=3"],
      (Argument.ofText text).toOption.isSome = true := by decide
  refine ⟨(parse_grammar _).1 fun text htext hbad => ?_, (parse_grammar _).2.1 ?_,
    (parse_grammar _).2.2 _ (by decide) (by decide)⟩
  · obtain ⟨e, he⟩ := Argument.isBad_iff_exists_faultOf.1 hbad
    simpa [Argument.ofText_of_faultOf he, Except.toOption] using hread text htext
  · refine ⟨"--error-limit=18446744073709551616", by decide, ?_⟩
    exact Argument.isBad_iff_exists_faultOf.2 ⟨.invalidErrorLimit "18446744073709551616",
      Argument.ofText_eq_error_iff.1 (by decide)⟩

end Arguments

end CinderFront
