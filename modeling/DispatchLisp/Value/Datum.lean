import DispatchLisp.Value.Basic

/-!
# Value.Datum — values unfolded into trees

A datum is a value with the contents of its collections in place of references to them. A
collection that contains itself has no such tree: the datum then holds `cycle` where the
collection would be met again, and it has no text.
-/

namespace DispatchLisp

/-- A value as a tree. -/
inductive Datum where
  | atom (a : Atom)
  | list (evaluated : Bool) (items : List Datum)
  /-- keys with the values at the same positions -/
  | dict (keys : List Atom) (values : List Datum)
  /-- a collection that is already open further out -/
  | cycle

namespace Datum

/-- The text of a dict's entries: keys and values in turn. -/
def entryTexts : List Atom → List String → List String
  | key :: keys, text :: texts => (key.render ++ " " ++ text) :: entryTexts keys texts
  | _, _ => []

mutual

/-- The text of a datum; there is none if it holds a cycle. -/
def render? : Datum → Option String
  | .atom a => some a.render
  | .list evaluated items => do
    let texts ← renderAll? items
    let body := String.intercalate " " texts
    if evaluated then some ("[" ++ body ++ "]") else some ("(" ++ body ++ ")")
  | .dict keys values => do
    let texts ← renderAll? values
    some ("\x7b" ++ String.intercalate " " (entryTexts keys texts) ++ "\x7d")
  | .cycle => none

/-- The texts of several data; there are none if one of them holds a cycle. -/
def renderAll? : List Datum → Option (List String)
  | [] => some []
  | item :: items => do
    let text ← item.render?
    let texts ← renderAll? items
    some (text :: texts)

end

end Datum

end DispatchLisp
