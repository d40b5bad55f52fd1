/-!
# Text.Range — sets of characters given by code point ranges

The character classes of the reader and of error messages are properties of the Unicode
standard. Each is a table of inclusive ranges of code points, in ascending order.
-/

namespace DispatchLisp

/-- A set of characters: inclusive ranges of code points. -/
abbrev CharRanges := List (Nat × Nat)

/-- Whether a character lies in one of the ranges. -/
def CharRanges.contains (ranges : CharRanges) (c : Char) : Bool :=
  ranges.any fun (first, last) => decide (first ≤ c.toNat) && decide (c.toNat ≤ last)

end DispatchLisp
