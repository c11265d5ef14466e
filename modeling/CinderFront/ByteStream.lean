import CinderFront.Effect

/-!
# Streams of bytes

A scanner does not see its whole input: it asks a stream for one byte at a time. A stream answers
with a byte, with the end, or with a failure, and it may be asked again after each of them.

* `ByteStream` — what a scanner needs of a stream, with the measure that makes scanning end;
* `SourceText` — bytes that are all there;
* `Script` — a fixed list of answers, which counts how often it is asked;
* `BufferedReader` — a reader over such answers that asks again after an interruption.
-/

namespace CinderFront

/-- A stream of bytes. Every byte and every failure uses up some of what is pending, so that no
stream delivers for ever; an end need not. -/
class ByteStream (σ : Type) where
  /-- The next byte, or none at the end. -/
  pull : EStateM IoError σ (Option UInt8)
  /-- How many bytes and failures may still come. -/
  pending : σ → Nat
  pending_byte : ∀ {s s' : σ} {b : UInt8}, pull s = .ok (some b) s' → pending s' < pending s
  pending_failure : ∀ {s s' : σ} {e : IoError}, pull s = .error e s' → pending s' < pending s

/-! ### Bytes in memory -/

/-- Bytes in memory, of which the first have been handed out already. -/
structure SourceText where
  remaining : List UInt8
  deriving DecidableEq, Repr

namespace SourceText

/-- Hands out the first of the remaining bytes. -/
def pull : EStateM IoError SourceText (Option UInt8)
  | ⟨[]⟩ => .ok none ⟨[]⟩
  | ⟨b :: rest⟩ => .ok (some b) ⟨rest⟩

instance : ByteStream SourceText where
  pull := pull
  pending s := s.remaining.length
  pending_byte := by
    rintro ⟨_ | ⟨b, rest⟩⟩ s' b' h <;> simp_all [pull]
    simp [← h.2]
  pending_failure := by
    rintro ⟨_ | ⟨b, rest⟩⟩ s' e h <;> simp [pull] at h

end SourceText

/-! ### Answers by script -/

/-- One answer of a scripted stream. -/
inductive Answer
  | byte (b : UInt8)
  /-- A failure that stands. -/
  | failure (message : String)
  /-- A failure that invites to ask again. -/
  | interruption (message : String)
  /-- The end, though more answers may follow. -/
  | finished
  deriving DecidableEq, Repr

namespace Answer

/-- Whether the answer is a byte or a failure of either kind. -/
def isEvent : Answer → Bool
  | finished => false
  | _ => true

end Answer

/-- A stream that gives a fixed list of answers and the end ever after. Interruptions are failures
like others to it. -/
structure Script where
  answers : List Answer
  /-- How often the stream has been asked. -/
  calls : Nat := 0
  deriving DecidableEq, Repr

namespace Script

/-- Gives the next answer of the list. -/
def pull : EStateM IoError Script (Option UInt8)
  | ⟨[], calls⟩ => .ok none ⟨[], calls + 1⟩
  | ⟨.byte b :: rest, calls⟩ => .ok (some b) ⟨rest, calls + 1⟩
  | ⟨.failure message :: rest, calls⟩ => .error ⟨message⟩ ⟨rest, calls + 1⟩
  | ⟨.interruption message :: rest, calls⟩ => .error ⟨message⟩ ⟨rest, calls + 1⟩
  | ⟨.finished :: rest, calls⟩ => .ok none ⟨rest, calls + 1⟩

/-- How many bytes and failures the list still holds. -/
def pending (s : Script) : Nat := s.answers.countP Answer.isEvent

instance : ByteStream Script where
  pull := pull
  pending := pending
  pending_byte := by
    rintro ⟨_ | ⟨a, rest⟩, calls⟩ s' b h
    · simp [pull] at h
    · cases a <;> simp_all [pull, pending]
      simp [← h.2, List.countP_cons, Answer.isEvent]
  pending_failure := by
    rintro ⟨_ | ⟨a, rest⟩, calls⟩ s' e h
    · simp [pull] at h
    · cases a <;> simp_all [pull, pending] <;>
        simp [← h.2, List.countP_cons, Answer.isEvent]

end Script

/-! ### Buffered readers -/

/-- A reader over a list of answers. An interruption is met by asking again, so it is never seen. -/
structure BufferedReader where
  answers : List Answer
  deriving DecidableEq, Repr

namespace BufferedReader

/-- The first answer that is no interruption. -/
def pullFrom : List Answer → EStateM.Result IoError BufferedReader (Option UInt8)
  | [] => .ok none ⟨[]⟩
  | .byte b :: rest => .ok (some b) ⟨rest⟩
  | .failure message :: rest => .error ⟨message⟩ ⟨rest⟩
  | .interruption _ :: rest => pullFrom rest
  | .finished :: rest => .ok none ⟨rest⟩

/-- Gives the next answer that is no interruption. -/
def pull : EStateM IoError BufferedReader (Option UInt8) := fun r => pullFrom r.answers

/-- How many bytes and failures the list still holds. -/
def pending (r : BufferedReader) : Nat := r.answers.countP Answer.isEvent

theorem pending_pullFrom_byte {answers : List Answer} {b : UInt8} {r : BufferedReader}
    (h : pullFrom answers = .ok (some b) r) : r.pending < answers.countP Answer.isEvent := by
  fun_induction pullFrom answers with
  | case1 => simp at h
  | case2 b' rest =>
    simp only [EStateM.Result.ok.injEq] at h
    simp [← h.2, pending, List.countP_cons, Answer.isEvent]
  | case3 message rest => simp at h
  | case4 message rest ih =>
    have := ih h
    simp only [List.countP_cons]
    omega
  | case5 rest => simp at h

theorem pending_pullFrom_failure {answers : List Answer} {e : IoError} {r : BufferedReader}
    (h : pullFrom answers = .error e r) : r.pending < answers.countP Answer.isEvent := by
  fun_induction pullFrom answers with
  | case1 => simp at h
  | case2 b' rest => simp at h
  | case3 message rest =>
    simp only [EStateM.Result.error.injEq] at h
    simp [← h.2, pending, List.countP_cons, Answer.isEvent]
  | case4 message rest ih =>
    have := ih h
    simp only [List.countP_cons]
    omega
  | case5 rest => simp at h

instance : ByteStream BufferedReader where
  pull := pull
  pending := pending
  pending_byte h := pending_pullFrom_byte h
  pending_failure h := pending_pullFrom_failure h

end BufferedReader

end CinderFront
