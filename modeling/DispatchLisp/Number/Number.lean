import DispatchLisp.Number.Shortest

/-!
# Number.Number — whole numbers and double precision numbers together

A number of the language is a whole number of any size or a double precision number. Both are
compared by their exact values.
-/

namespace DispatchLisp

/-- A number of the language. -/
inductive Number where
  | int (n : Int)
  | float (x : Binary64)
deriving DecidableEq

namespace Number

/-- The order of two numbers by value; there is none with a number that is not one. -/
def compare? : Number → Number → Option Ordering
  | .int m, .int n => some (compare m n)
  | .int m, .float y => Binary64.compareInt? m y
  | .float x, .int n => (Binary64.compareInt? n x).map Ordering.swap
  | .float x, .float y => x.compare? y

/-- Whether two numbers have the same value. -/
def sameValue (a b : Number) : Bool :=
  a.compare? b == some .eq

/-- Whether a number is zero, of either kind and sign. -/
def isZero : Number → Bool
  | .int n => n == 0
  | .float x => x.isZero

/-- The double precision number nearest to a number, unless it is too large. -/
def toBinary64? : Number → Option Binary64
  | .int n => Binary64.ofInt? n
  | .float x => some x

/-- The text of a number. -/
def render : Number → String
  | .int n => toString n
  | .float x => x.render

end Number

end DispatchLisp
