import DispatchLisp.Number.Magnitude

/-!
# Number.Binary64 — double precision numbers

A double precision number is a sign and a size, an infinity, or not a number. Operations are
exact on units and round once, to the nearest size and to even on a tie. Order and equality are
those of the exact values, also against whole numbers of any size.
-/

namespace DispatchLisp

/-- A double precision number. -/
inductive Binary64 where
  /-- a sign and a size; zero has both signs -/
  | finite (negative : Bool) (size : Magnitude)
  /-- an infinity -/
  | infinite (negative : Bool)
  /-- the result of an operation without a value; marks tell several of them apart -/
  | nan (mark : Nat)
deriving DecidableEq

namespace Binary64

/-- The number with a sign that is nearest to a quotient of units. -/
def ofUnits (negative : Bool) (num den : Nat) : Binary64 :=
  match Magnitude.nearest? num den with
  | some size => .finite negative size
  | none => .infinite negative

/-- Zero with a sign. -/
def zero (negative : Bool) : Binary64 := .finite negative .zero

/-- The number nearest to a whole number, unless that is too large for the format. -/
def ofInt? (n : Int) : Option Binary64 :=
  (Magnitude.nearest? (n.natAbs * unitsPerOne) 1).map (.finite (decide (n < 0)))

/-- The exact value of a sign and a number of units, in units. -/
def signedUnits (negative : Bool) (size : Magnitude) : Int :=
  if negative then -(size.units : Int) else size.units

/-- The number nearest to a whole number of units; an exact zero is positive. -/
def ofSignedUnits (n : Int) : Binary64 :=
  ofUnits (decide (n < 0)) n.natAbs 1

/-! ## Arithmetic -/

/-- The result of an operation without a value, before it gets a mark of its own. -/
def undefined : Binary64 := .nan 0

/-- The number with its sign changed. -/
def neg : Binary64 → Binary64
  | .finite negative size => .finite (!negative) size
  | .infinite negative => .infinite (!negative)
  | .nan mark => .nan mark

/-- The sum; two zeros of one sign keep it. -/
def add : Binary64 → Binary64 → Binary64
  | .nan _, _ | _, .nan _ => undefined
  | .infinite s, .infinite t => if s = t then .infinite s else undefined
  | .infinite s, .finite _ _ => .infinite s
  | .finite _ _, .infinite t => .infinite t
  | .finite s a, .finite t b =>
    if a.units = 0 && b.units = 0 then zero (s && t)
    else ofSignedUnits (signedUnits s a + signedUnits t b)

/-- The difference. -/
def sub (x y : Binary64) : Binary64 := add x y.neg

/-- The product. -/
def mul : Binary64 → Binary64 → Binary64
  | .nan _, _ | _, .nan _ => undefined
  | .infinite s, .infinite t => .infinite (s != t)
  | .infinite s, .finite t b => if b.units = 0 then undefined else .infinite (s != t)
  | .finite s a, .infinite t => if a.units = 0 then undefined else .infinite (s != t)
  | .finite s a, .finite t b => ofUnits (s != t) (a.units * b.units) unitsPerOne

/-- The quotient; a number divided by zero is infinite. -/
def div : Binary64 → Binary64 → Binary64
  | .nan _, _ | _, .nan _ => undefined
  | .infinite _, .infinite _ => undefined
  | .infinite s, .finite t _ => .infinite (s != t)
  | .finite s _, .infinite t => zero (s != t)
  | .finite s a, .finite t b =>
    if b.units = 0 then (if a.units = 0 then undefined else .infinite (s != t))
    else ofUnits (s != t) (a.units * unitsPerOne) b.units

/-! ## Order -/

/-- Whether the value is zero, of either sign. -/
def isZero : Binary64 → Bool
  | .finite _ size => size.units == 0
  | _ => false

/-- Whether the number is an infinity. -/
def isInfinite : Binary64 → Bool
  | .infinite _ => true
  | _ => false

/-- The order of two numbers by value; there is none with a number that is not one. -/
def compare? : Binary64 → Binary64 → Option Ordering
  | .nan _, _ | _, .nan _ => none
  | .infinite s, .infinite t =>
    some (if s = t then .eq else if s then .lt else .gt)
  | .infinite s, .finite _ _ => some (if s then .lt else .gt)
  | .finite _ _, .infinite t => some (if t then .gt else .lt)
  | .finite s a, .finite t b => some (compare (signedUnits s a) (signedUnits t b))

/-- The order of a whole number and a double precision number, both by their exact values. -/
def compareInt? (n : Int) : Binary64 → Option Ordering
  | .nan _ => none
  | .infinite t => some (if t then .gt else .lt)
  | .finite t b => some (compare (n * (unitsPerOne : Int)) (signedUnits t b))

end Binary64

end DispatchLisp
