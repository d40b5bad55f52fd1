import DispatchLisp.Module.Disk

/-!
# Module.Geometry — the module that comes with the language
-/

namespace DispatchLisp

/-- Where the modules that come with the language are. No module name spells this place, because
no part of one holds a dot. -/
def bundledRoot : Path := ⟨1, ["dispatch.lisp", "modules"]⟩

/-- Areas of shapes that are told apart by a keyword. -/
def geometrySource : String :=
  "; Shapes and their areas, dispatched on keyword tags.\n" ++
  "(def pi 3.14159)\n" ++
  "\n" ++
  "(defn area [:square side] (* side side))\n" ++
  "(defn area [:circle r] (* pi (* r r)))\n" ++
  "(defn area [:rect w h] (* w h))\n"

/-- The disk with nothing on it but the modules that come with the language. -/
def Disk.bundled : Disk :=
  let path := bundledRoot.join (.ofText ("geometry" ++ moduleSuffix).toList)
  { Disk.empty.write path geometrySource with roots := [bundledRoot] }

end DispatchLisp
