import DispatchLisp.Module.Path

/-!
# Module.Disk — the files that modules are read from

Files and directories have places, and a path leads to a place step by step. Every step has to be
taken from a directory that is there, also one that leads back.
-/

namespace DispatchLisp

/-- Where a file or directory is: the names of the directories around it and its own. The root
has none. -/
abbrev Place := List String

/-- Directories and files by place, and the roots below which modules are looked for, in order. -/
structure Disk where
  /-- the directories below the root -/
  directories : List Place
  files : List (Place × String)
  roots : List Path

/-- Line ends of either kind as line feeds. -/
def normalLineEnds : List Char → List Char
  | [] => []
  | '\r' :: '\n' :: rest => '\n' :: normalLineEnds rest
  | '\r' :: rest => '\n' :: normalLineEnds rest
  | c :: rest => c :: normalLineEnds rest

/-- The place one part of a path further on; `..` leads back, from the root to itself. -/
def Place.next (here : Place) (part : String) : Place :=
  if part = ".." then here.dropLast else here ++ [part]

namespace Disk

/-- The disk with nothing on it. -/
def empty : Disk := ⟨[], [], []⟩

/-! ## Reading -/

/-- Whether there is a directory at a place. -/
def isDirectory (d : Disk) (place : Place) : Bool :=
  place.isEmpty || d.directories.contains place

/-- The place that parts of a path lead to from another one. -/
def walk? (d : Disk) : Place → List String → Option Place
  | here, [] => some here
  | here, part :: rest =>
    if d.isDirectory here then d.walk? (here.next part) rest else none

/-- The place that a path leads to; a relative path leads nowhere. -/
def place? (d : Disk) (p : Path) : Option Place :=
  if p.isAbsolute then d.walk? [] p.parts else none

/-- The text of the file at the end of a path, with line feeds as line ends. -/
def read? (d : Disk) (p : Path) : Option String := do
  let place ← d.place? p
  let (_, text) ← d.files.find? fun file => file.1 == place
  some (String.ofList (normalLineEnds text.toList))

/-- Whether there is a file at the end of a path. -/
def hasFile (d : Disk) (p : Path) : Bool :=
  (d.read? p).isSome

/-! ## Writing -/

/-- Makes a directory at a place unless there is one. -/
def makeDirectory (d : Disk) (place : Place) : Disk :=
  if d.isDirectory place then d else { d with directories := place :: d.directories }

/-- Makes every directory that parts of a path lead through, and answers the last place. -/
def makeDirectories (d : Disk) : Place → List String → Place × Disk
  | here, [] => (here, d)
  | here, part :: rest =>
    let next := here.next part
    (d.makeDirectory next).makeDirectories next rest

/-- Writes a file, and makes the directories on the way to it. -/
def write (d : Disk) (p : Path) (text : String) : Disk :=
  let (directory, d) := d.makeDirectories [] p.parts.dropLast
  let place := directory ++ p.parts.getLast?.toList
  { d with files := (place, text) :: d.files.filter fun file => !(file.1 == place) }

/-! ## Modules -/

/-- The file of a module: the first one that exists below a root. -/
def resolve? (d : Disk) (name : String) : Except UnnamedFile (Option Path) := do
  let path ← modulePath name
  .ok ((d.roots.map (·.join path)).find? d.hasFile)

end Disk

end DispatchLisp
