/-!
# Beginnings of texts

* `Text.after?` — what follows a given beginning.
-/

namespace CinderFront.Text

/-- What follows `head` in a text that begins with it. -/
def after? (head text : String) : Option String :=
  if head.toList.isPrefixOf text.toList then
    some (String.ofList (text.toList.drop head.toList.length))
  else none

end CinderFront.Text
