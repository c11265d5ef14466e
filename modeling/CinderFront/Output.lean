import CinderFront.Effect
import CinderFront.Text.Utf8

/-!
# Output channels

Listings and reports are written to channels. A channel may have room for so many bytes only: it
takes what fits, even a part of a text, and refuses the rest.

* `Channel.write` — writes one text.
-/

namespace CinderFront

/-- The bytes that were written, and how many more there is room for. Without a bound there is room
for all. -/
structure Channel where
  accepted : Array UInt8 := #[]
  room : Option Nat := none
  deriving DecidableEq, Repr

namespace Channel

/-- The reason that a full channel gives. -/
def full : IoError := ⟨"closed"⟩

/-- Writes a text as far as there is room for it, and fails if some of it was left over. -/
def write (text : String) : EStateM IoError Channel Unit := fun channel =>
  let bytes := Utf8.bytes text
  match channel.room with
  | none => .ok () { channel with accepted := channel.accepted ++ bytes }
  | some room =>
    let accepted := channel.accepted ++ bytes.take room
    if bytes.size ≤ room then .ok () { accepted, room := some (room - bytes.size) }
    else .error full { accepted, room := some 0 }

/-- Makes sure that what was written has arrived. Nothing is held back, so nothing is to be done. -/
def flush : EStateM IoError Channel Unit := pure ()

end Channel

end CinderFront
