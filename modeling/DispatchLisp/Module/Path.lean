import DispatchLisp.Text.Blank
import DispatchLisp.Text.Quoted
import DispatchLisp.Text.Split

/-!
# Module.Path — paths, and where modules are looked for

A path is kept in normal form: no empty and no `.` parts. A module name is a path under a search
root: its dots separate directories, and its last part names the file.
-/

namespace DispatchLisp

/-- A path: how many slashes it starts with (none for a relative path), and its parts. -/
structure Path where
  slashes : Nat
  parts : List String
deriving DecidableEq

namespace Path

/-- The path with no parts. -/
def empty : Path := ⟨0, []⟩

/-- Whether a path starts at the root of the file system. -/
def isAbsolute (p : Path) : Bool :=
  p.slashes != 0

/-- How many slashes a path keeps of those it is written with: exactly two stay two, any other
positive number is one. -/
def keptSlashes (written : Nat) : Nat :=
  if written = 2 then 2 else min written 1

/-- The path that a text names. -/
def ofText (text : List Char) : Path :=
  let pieces := (splitOnChar '/' text).filter fun piece => !(piece.isEmpty || piece == ['.'])
  ⟨keptSlashes (text.takeWhile (· == '/')).length, pieces.map String.ofList⟩

/-- A path taken from another one; an absolute path stands for itself. -/
def join (p q : Path) : Path :=
  if q.isAbsolute then q else ⟨p.slashes, p.parts ++ q.parts⟩

/-- The text of a path. -/
def render (p : Path) : String :=
  let text := String.ofList (List.replicate p.slashes '/') ++ String.intercalate "/" p.parts
  if text.isEmpty then "." else text

end Path

/-- The ending of module files. -/
def moduleSuffix : String := ".glisp"

/-- A path that names no file cannot be given an ending. -/
structure UnnamedFile where
  path : Path

/-- The message about a path that names no file. -/
def UnnamedFile.message (e : UnnamedFile) : String :=
  "PosixPath(" ++ quoted e.path.render.toList ++ ") has an empty name"

/-- The path of a module's file below a search root. -/
def modulePath (name : String) : Except UnnamedFile Path :=
  let path := ((splitOnChar '.' name.toList).map Path.ofText).foldl Path.join .empty
  match path.parts.getLast? with
  | none => .error ⟨path⟩
  | some file => .ok { path with parts := path.parts.dropLast ++ [file ++ moduleSuffix] }

/-- The search roots that a setting names, separated by colons; without a setting the default
ones. -/
def searchRoots (setting : Option String) (defaults : List Path) : List Path :=
  match setting with
  | none => defaults
  | some text =>
    if text.isEmpty then defaults
    else
      ((splitOnChar ':' text.toList).map trimBlanks).filterMap fun entry =>
        if entry.isEmpty then none else some (.ofText entry)

end DispatchLisp
