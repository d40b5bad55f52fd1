import DispatchLisp.Number.Shortest
import DispatchLisp.Text.Literal

/-!
# Form — source text as a tree

A form is what the reader makes of a piece of source text, before any evaluation: an atom or a
list of forms. Brackets other than round ones are spelled as calls, so a list is always a call.
-/

namespace DispatchLisp

/-- A form of the source language. -/
inductive Form where
  | int (n : Int)
  | float (x : Binary64)
  | string (text : String)
  | keyword (name : String)
  | symbol (name : String)
  | list (items : List Form)

namespace Form

/-- The symbol that calls the list constructor. -/
def listMarker : Form := .symbol "list"

/-- The symbol that calls the dict constructor. -/
def dictMarker : Form := .symbol "dict"

mutual

/-- The text of a form. -/
def render : Form → String
  | .int n => toString n
  | .float x => x.render
  | .string text => StringLiteral.render text
  | .keyword name => ":" ++ name
  | .symbol name => name
  | .list items => "(" ++ String.intercalate " " (renderAll items) ++ ")"

/-- The texts of several forms. -/
def renderAll : List Form → List String
  | [] => []
  | item :: items => item.render :: renderAll items

end

mutual

/-- How many brackets are open around the innermost atom, counting the atom. -/
def depth : Form → Nat
  | .list items => depthAll items + 1
  | _ => 1

/-- The greatest depth among several forms. -/
def depthAll : List Form → Nat
  | [] => 0
  | item :: items => max item.depth (depthAll items)

end

end Form

end DispatchLisp
