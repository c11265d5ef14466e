import CinderFront.Effect
import CinderFront.FilePath
import CinderFront.Text.Affix

/-!
# Trees of files

The files and directories around a working directory. Paths are followed one component after the
other: what is not the last must be a directory, also where the next component leads back to the
parent. So every directory that the path of a new file or directory passes is made on the way.

* `FileTree.addFile`, `FileTree.addDirectory` — the tree with a file or a directory at a path;
* `FileTree.read` — the contents of the file at a path, or why it cannot be read.
-/

namespace CinderFront

/-- Why a file cannot be read. -/
inductive FileError
  | notFound
  /-- Something on the way to the file is a file itself. -/
  | notDirectory
  /-- What the path names is a directory. -/
  | isDirectory
  /-- A component or the whole path is longer than the system allows. -/
  | nameTooLong
  /-- The path contains a NUL, which no path can. -/
  | nulInPath
  deriving DecidableEq, Repr

/-- What the system says of a file that cannot be read. -/
def FileError.message : FileError → String
  | notFound => "No such file or directory (os error 2)"
  | notDirectory => "Not a directory (os error 20)"
  | isDirectory => "Is a directory (os error 21)"
  | nameTooLong => "File name too long (os error 36)"
  | nulInPath => "file name contained an unexpected NUL byte"

namespace FileTree

/-! ### Locations -/

/-- Where the names of a location begin. -/
inductive Anchor
  /-- So many directories above the working directory, which is zero above itself. -/
  | above (levels : Nat)
  /-- The root of the system. -/
  | root
  deriving DecidableEq, Repr

/-- The names that lead down from an anchor to a file or a directory. -/
structure Location where
  anchor : Anchor := .above 0
  names : List (List Char) := []
  deriving DecidableEq, Repr

namespace Location

/-- The location at which a path begins. -/
def start (path : String) : Location :=
  if FilePath.isAbsolute path then { anchor := .root } else {}

/-- The location of the parent directory. The root of the system is its own parent. -/
def up : Location → Location
  | ⟨.above levels, []⟩ => ⟨.above (levels + 1), []⟩
  | ⟨.root, []⟩ => ⟨.root, []⟩
  | ⟨anchor, names⟩ => ⟨anchor, names.dropLast⟩

/-- The location that a component of a path leads to. -/
def enter (location : Location) (component : List Char) : Location :=
  if component = FilePath.parent then location.up
  else { location with names := location.names ++ [component] }

end Location

end FileTree

/-! ### Making files and directories -/

/-- The files and the directories around a working directory. Anchors are directories without being
named. -/
structure FileTree where
  files : List (FileTree.Location × List UInt8) := []
  directories : List FileTree.Location := []
  deriving DecidableEq, Repr

namespace FileTree

/-- What stands at a location. -/
inductive Node
  | file (contents : List UInt8)
  | directory
  deriving DecidableEq, Repr

/-- The tree with every directory that some components pass, and the location that they lead to. -/
def makeWay (tree : FileTree) (location : Location) : List (List Char) → FileTree × Location
  | [] => (tree, location)
  | component :: rest =>
    let next := location.enter component
    makeWay { tree with directories := next :: tree.directories } next rest

/-- The tree with a directory at a path. -/
def addDirectory (tree : FileTree) (path : String) : FileTree :=
  (tree.makeWay (.start path) (FilePath.components path)).1

/-- The tree with a file at a path, which takes the place of a file that was there. -/
def addFile (tree : FileTree) (path : String) (contents : List UInt8) : FileTree :=
  let components := FilePath.components path
  let (tree, directory) := tree.makeWay (.start path) components.dropLast
  match components.getLast? with
  | some name => { tree with files := (directory.enter name, contents) :: tree.files }
  | none => tree

/-- What stands at a location of the tree. -/
def node? (tree : FileTree) (location : Location) : Option Node :=
  match tree.files.find? fun file => file.1 == location with
  | some (_, contents) => some (.file contents)
  | none =>
    if location.names.isEmpty || tree.directories.contains location then some .directory else none

/-! ### Following a path -/

/-- The largest number of bytes in a component. -/
def maxNameLength : Nat := 255

/-- The largest number of bytes in a path. -/
def maxPathLength : Nat := 4095

/-- Follows the components of a path. -/
def walk (tree : FileTree) (location : Location) :
    List (List Char) → Except FileError Location
  | [] => .ok location
  | component :: rest =>
    if tree.node? location ≠ some .directory then .error .notDirectory
    else if maxNameLength < (String.ofList component).utf8ByteSize then .error .nameTooLong
    else
      let next := location.enter component
      if (tree.node? next).isSome then walk tree next rest else .error .notFound

/-- The contents of the file at a path. A path that begins with the working directory is followed
from there. -/
def read (tree : FileTree) (workingDirectory path : String) :
    Except FileError (List UInt8) := do
  if path.toList.contains (Char.ofNat 0) then throw .nulInPath
  if maxPathLength < path.utf8ByteSize then throw .nameTooLong
  let (start, rest) : Location × String := match Text.after? (workingDirectory ++ "/") path with
    | some rest => ({}, rest)
    | none => (.start path, path)
  let location ← walk tree start (FilePath.components rest)
  match tree.node? location with
  | some (.file contents) =>
    if FilePath.namesDirectory path then throw .notDirectory else return contents
  | some .directory => throw .isDirectory
  | none => throw .notFound

end FileTree

end CinderFront
