import DispatchLisp.Store.View

/-!
# Store.Equality — equality of values

Lists are equal when their elements are, in order, whether or not they are evaluated. A dict
equals another when the other binds each of its keys to an equal value; further keys of the
other do not matter. A native function cannot be compared. Comparing values that contain
themselves may not end, which is a fault.
-/

namespace DispatchLisp

/-- Whether an atom equals a value. -/
def Atom.equals (a : Atom) (v : Value) : Except Fault Bool :=
  match a, v with
  | .native f, _ => .error (.nativeCompared f.name)
  | a, .atom b => .ok (a.same b)
  | _, _ => .ok false

/-- Compares two lists place by place up to the first difference. -/
def equalItems (equal : Value → Value → Except Fault Bool) :
    List Value → List Value → Except Fault Bool
  | a :: as, b :: bs => do
    if ← equal a b then equalItems equal as bs else .ok false
  | _, _ => .ok true

/-- Looks up each entry of a dict in another, up to the first that is missing or differs. -/
def coveredBy (equal : Value → Value → Except Fault Bool) (other : Association Atom Value) :
    Association Atom Value → Except Fault Bool
  | [] => .ok true
  | (key, value) :: rest =>
    match other.get? Atom.alike key with
    | none => .ok false
    | some value' => do
      if ← equal value value' then coveredBy equal other rest else .ok false

namespace Store

/-- Compares two values at most `depth` collections deep. -/
def equalWithin (s : Store) : Nat → Value → Value → Except Fault Bool
  | _, .atom a, v => a.equals v
  | _, _, .atom _ => .ok false
  | _, .list _, .dict _ => .ok false
  | _, .dict _, .list _ => .ok false
  | 0, _, _ => .error .tooDeep
  | depth + 1, .list i, .list j =>
    let left := (s.list i).items
    let right := (s.list j).items
    if left.length = right.length then equalItems (s.equalWithin depth) left right
    else .ok false
  | depth + 1, .dict i, .dict j =>
    coveredBy (s.equalWithin depth) (s.dict j).entries (s.dict i).entries

/-- How many collections deep values that contain themselves are compared. -/
def equalityDepth : Nat := 3000

/-- Whether one value equals another. Values that do not contain themselves are no deeper than
there are collections, so only a comparison that does not end is cut off. -/
def equal (s : Store) (a b : Value) : Except Fault Bool :=
  s.equalWithin (s.collections + equalityDepth) a b

end Store

/-! ## Equality for a host -/

namespace Store

/-- Whether a host takes one value for equal to another: natives are equal to themselves only. -/
def hostEqual (s : Store) (a b : Value) : Except Fault Bool :=
  match a with
  | .native _ => .ok (decide (a = b))
  | _ => s.equal a b

/-- Whether two values are one object or equal. -/
def sameOrEqual (s : Store) (a b : Value) : Except Fault Bool :=
  if a = b then .ok true else s.hostEqual a b

end Store

end DispatchLisp
