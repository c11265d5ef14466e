/-!
# Paths of files

A path is a text whose components are set apart by slashes. Empty components and single dots say
nothing; two dots lead to the parent.

* `FilePath.join` — a path relative to a directory;
* `FilePath.extension?` — the extension of the file that a path names.
-/

namespace CinderFront.FilePath

/-- Splits a text at every occurrence of a character. -/
def splitAt (separator : Char) : List Char → List (List Char)
  | [] => [[]]
  | c :: rest =>
    if c = separator then [] :: splitAt separator rest
    else match splitAt separator rest with
      | [] => [[c]]
      | piece :: pieces => (c :: piece) :: pieces

/-- The component that stays where it is. -/
def here : List Char := ['.']

/-- The component that leads to the parent. -/
def parent : List Char := ['.', '.']

/-- The components of a path that say something. -/
def components (path : String) : List (List Char) :=
  (splitAt '/' path.toList).filter fun piece => piece ≠ [] && piece ≠ here

/-- Whether a path does not depend on the working directory. -/
def isAbsolute (path : String) : Bool := path.toList.head? == some '/'

/-- The path, taken relative to a directory. -/
def join (directory path : String) : String :=
  if isAbsolute path then path
  else if directory.toList.getLast? = some '/' then directory ++ path
  else directory ++ "/" ++ path

/-- The name of the file that a path names. A path that ends at a parent names none. -/
def fileName? (path : String) : Option (List Char) :=
  match (components path).getLast? with
  | some name => if name = parent then none else some name
  | none => none

/-- What follows the last dot of a name. A dot at the very beginning does not count. -/
def nameExtension? (name : List Char) : Option (List Char) :=
  match splitAt '.' name with
  | [] | [_] => none
  | [[], _] => none
  | _ :: pieces => pieces.getLast?

/-- The extension of the file that a path names. -/
def extension? (path : String) : Option String :=
  (fileName? path).bind fun name => (nameExtension? name).map String.ofList

/-- Whether a path can only name a directory: it ends with a slash or with a single dot. -/
def namesDirectory (path : String) : Bool :=
  match (splitAt '/' path.toList).getLast? with
  | some piece => piece.isEmpty || piece == here
  | none => false

end CinderFront.FilePath
