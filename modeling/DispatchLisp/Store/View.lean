import DispatchLisp.Store.Basic
import DispatchLisp.Value.Datum

/-!
# Store.View — the tree and the text of a value

The view of a value follows every reference in the store. Collections that are open further out
are not entered again, so the view is always finite; a value that contains itself has a view
and no text.
-/

namespace DispatchLisp

namespace Store

/-- How many collections there are; no path without repetition is longer. -/
def collections (s : Store) : Nat :=
  s.lists.size + s.dicts.size

/-- The tree of a value inside some open collections, at most `depth` collections deep. -/
def viewWithin (s : Store) : Nat → List Value → Value → Datum
  | _, _, .atom a => .atom a
  | 0, _, _ => .cycle
  | depth + 1, outer, v@(.list id) =>
    if outer.contains v then .cycle
    else
      let cell := s.list id
      .list cell.evaluated (cell.items.map (s.viewWithin depth (v :: outer)))
  | depth + 1, outer, v@(.dict id) =>
    if outer.contains v then .cycle
    else
      let cell := s.dict id
      .dict (cell.entries.map (·.1))
        (cell.entries.map fun entry => s.viewWithin depth (v :: outer) entry.2)

/-- The tree of a value. -/
def view (s : Store) (v : Value) : Datum :=
  s.viewWithin (s.collections + 1) [] v

/-- The text of a value; a value that contains itself has none. -/
def render? (s : Store) (v : Value) : Option String :=
  (s.view v).render?

/-- The text of a value; rendering one that contains itself does not end. -/
def render (s : Store) (v : Value) : Except Fault String :=
  match s.render? v with
  | some text => .ok text
  | none => .error .tooDeep

/-- The text of an unevaluated or evaluated list of values. -/
def renderItems (s : Store) (evaluated : Bool) (items : List Value) : Except Fault String :=
  match (Datum.list evaluated (items.map s.view)).render? with
  | some text => .ok text
  | none => .error .tooDeep

/-- The text of a pattern: its parameter list and its body. -/
def renderPattern (s : Store) (p : Pattern) : Except Fault String := do
  let body ← s.render p.body
  .ok (p.parameters.render ++ " " ++ body)

/-- The text that names the class of a value and shows its contents. -/
def renderTagged (s : Store) (tag : String) (v : Value) : Except Fault String := do
  let text ← s.render v
  .ok (tag ++ "(" ++ text ++ ")")

end Store

end DispatchLisp
