import DispatchLisp.Builtin.Collection

/-!
# Collection.Editing — lists as a host edits them

Positions outside a list and values that are not found are host errors. A search takes the first
element that is the value itself or equals it. Cuts of a list are new lists of the same kind.
-/

namespace DispatchLisp

namespace Store

/-- Whether a value counts as true to a host: an empty collection does not. -/
def hostTruth (s : Store) : Value → Bool
  | .list id => !(s.list id).items.isEmpty
  | .dict id => !(s.dict id).entries.isEmpty
  | v => v.truthy

/-! ## Reading -/

/-- The position that an index names in a list. -/
def positionIn (s : Store) (id : ListId) (index : Int) : Except HostError Nat :=
  match position? (s.list id).items.length index with
  | some n => .ok n
  | none => .error .outOfRange

/-- The element at an index. -/
def itemAt (s : Store) (id : ListId) (index : Int) : Except HostError Value := do
  let n ← s.positionIn id index
  match (s.list id).items[n]? with
  | some v => .ok v
  | none => .error .outOfRange

/-- A new list of other elements and of the same kind. -/
def newLike (s : Store) (id : ListId) (items : List Value) : ListId × Store :=
  s.newList items (s.list id).evaluated

/-- The elements on a walk over a list. -/
def itemsOnWalk (s : Store) (id : ListId) (first last step : Option Int) :
    Except HostError (List Value) :=
  let step := step.getD 1
  if step = 0 then .error .zeroStep else .ok (walkItems (s.list id).items first last step)

/-! ## Searching -/

/-- The positions, from one on, of the elements that are a value or equal it. -/
def occurrences (s : Store) (v : Value) : Nat → List Value → Except Fault (List Nat)
  | _, [] => .ok []
  | position, item :: items => do
    let found ← s.sameOrEqual item v
    let others ← s.occurrences v (position + 1) items
    .ok (if found then position :: others else others)

/-- The first position, from one on, of an element that is a value or equals it. -/
def firstOccurrence? (s : Store) (v : Value) : Nat → List Value → Except Fault (Option Nat)
  | _, [] => .ok none
  | position, item :: items => do
    if ← s.sameOrEqual item v then .ok (some position)
    else s.firstOccurrence? v (position + 1) items

/-- Whether a value occurs in a list. -/
def occurs (s : Store) (id : ListId) (v : Value) : Except Fault Bool := do
  let position ← s.firstOccurrence? v 0 (s.list id).items
  .ok position.isSome

/-- How often a value occurs in a list. -/
def countOf (s : Store) (id : ListId) (v : Value) : Except Fault Nat := do
  let positions ← s.occurrences v 0 (s.list id).items
  .ok positions.length

/-- The first position of a value in a list. -/
def indexOf (s : Store) (id : ListId) (v : Value) : Except Raised Nat :=
  match s.firstOccurrence? v 0 (s.list id).items with
  | .ok (some position) => .ok position
  | .ok none => .error (.host .absent)
  | .error e => .error (.fault e)

/-! ## Changing -/

/-- The store after the element at an index has been replaced. -/
def assignAt (s : Store) (id : ListId) (index : Int) (v : Value) : Except HostError Store := do
  let n ← s.positionIn id index
  .ok (s.setItems id ((s.list id).items.set n v))

/-- The store after the element at an index has been taken out. -/
def deleteAt (s : Store) (id : ListId) (index : Int) : Except HostError Store := do
  let n ← s.positionIn id index
  .ok (s.setItems id ((s.list id).items.eraseIdx n))

/-- The store after a value has been put in before an index. -/
def insertBefore (s : Store) (id : ListId) (index : Int) (v : Value) : Store :=
  s.setItems id (insertAt (s.list id).items index v)

/-- The store after values have been added to the end of a list. -/
def append (s : Store) (id : ListId) (items : List Value) : Store :=
  s.setItems id ((s.list id).items ++ items)

/-- The store after the order of a list has been turned round. -/
def reverse (s : Store) (id : ListId) : Store :=
  s.setItems id (s.list id).items.reverse

/-- The last element of a list, and the store after it has been taken out. -/
def pop (s : Store) (id : ListId) : Except HostError (Value × Store) := do
  let v ← s.itemAt id (-1)
  let s ← s.deleteAt id (-1)
  .ok (v, s)

/-- The store after the first occurrence of a value has been taken out. -/
def removeFirst (s : Store) (id : ListId) (v : Value) : Except Raised Store := do
  let n ← s.indexOf id v
  .ok (s.setItems id ((s.list id).items.eraseIdx n))

/-- The elements of a list followed by those of a value, which has to be a list. -/
def joined (s : Store) (id : ListId) (v : Value) : Except Fault (List Value) :=
  match v with
  | .list other => .ok ((s.list id).items ++ (s.list other).items)
  | _ => do
    let text ← s.render v
    .error (.badConcat text)

end Store

end DispatchLisp
