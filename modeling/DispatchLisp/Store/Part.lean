import DispatchLisp.Store.Basic

/-!
# Store.Part — places that are looked at when their turn comes

A part is what stands at some place at the time when it is looked at. The parts of a call are
fixed when the call starts; those of a list that others share are not.
-/

namespace DispatchLisp

/-- What stands at a place, given the store at the time of looking. -/
abbrev Part := Store → Value

/-- A part that does not change any more. -/
def Part.fixed (v : Value) : Part := fun _ => v

/-- Parts that do not change any more. -/
def fixedParts (items : List Value) : List Part :=
  items.map Part.fixed

/-- The places of a list. -/
def Store.parts (s : Store) (id : ListId) : List Part :=
  (List.range (s.list id).items.length).map fun n later =>
    ((later.list id).items[n]?).getD .nothing

end DispatchLisp
