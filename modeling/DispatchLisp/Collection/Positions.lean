/-!
# Collection.Positions — positions in lists

Positions count from zero, negative ones from the end. A checked position has to lie in the
list; the ends of a slice are moved to the nearest end of the list instead.
-/

namespace DispatchLisp

/-- The position that an index names in a list of some length, if it lies in the list. -/
def position? (length : Nat) (index : Int) : Option Nat :=
  let n := if index < 0 then index + length else index
  if 0 ≤ n ∧ n < length then some n.toNat else none

/-- The position that the end of a slice names in a list of some length. -/
def clampPosition (length : Nat) (index : Int) : Nat :=
  if index < 0 then (index + length).toNat else min index.toNat length

/-- The elements from one position up to another; without a second one up to the end. -/
def slice {α : Type} (items : List α) (first : Int) (last : Option Int) : List α :=
  let start := clampPosition items.length first
  let stop := (last.map (clampPosition items.length)).getD items.length
  (items.take stop).drop start

/-! ## Steps -/

/-- Where a walk with a step starts or stops: a given index, moved into the bounds that the
direction of the walk allows, or a bound. -/
def walkEnd (length : Nat) (forward : Bool) (index : Option Int) (default : Int) : Int :=
  let least : Int := if forward then 0 else -1
  let most : Int := if forward then length else length - 1
  match index with
  | none => default
  | some n =>
    let n := if n < 0 then n + length else n
    if n < least then least else if most < n then most else n

/-- The positions of a walk with a step other than zero. -/
def walk (length : Nat) (first last : Option Int) (step : Int) : List Nat :=
  let forward := decide (0 < step)
  let start := walkEnd length forward first (if forward then 0 else length - 1)
  let stop := walkEnd length forward last (if forward then length else -1)
  let count :=
    if forward then (stop - start + step - 1) / step else (start - stop - step - 1) / -step
  (List.range count.toNat).map fun (i : Nat) => (start + i * step).toNat

/-- The elements on a walk. -/
def walkItems {α : Type} (items : List α) (first last : Option Int) (step : Int) : List α :=
  (walk items.length first last step).filterMap fun n => items[n]?

/-! ## Updates -/

/-- A list with an element put in before a position. -/
def insertAt {α : Type} (items : List α) (index : Int) (a : α) : List α :=
  let n := clampPosition items.length index
  items.take n ++ a :: items.drop n

end DispatchLisp
