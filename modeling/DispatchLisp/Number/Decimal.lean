import DispatchLisp.Number.Binary64
import DispatchLisp.Text.Digit

/-!
# Number.Decimal — numbers in decimal notation

A decimal is a sign, a whole number of digits and a power of ten. It stands for the nearest
double precision number.
-/

namespace DispatchLisp

/-- A decimal number: `digits` times ten to the `exponent`. -/
structure Decimal where
  negative : Bool
  digits : Nat
  exponent : Int
deriving DecidableEq

namespace Decimal

/-- Powers of ten beyond this size only overflow or vanish. -/
def exponentBound : Nat := 400

/-- The double precision number nearest to a decimal. Far outside the format's range the power
of ten is not computed: at least `10 ^ 400` overflows and less than `10 ^ -400` is zero. -/
def toBinary64 (d : Decimal) : Binary64 :=
  if d.digits = 0 then .zero d.negative
  else if (exponentBound : Int) < d.exponent then .infinite d.negative
  else if d.exponent + (d.digits.log2 + 1 : Nat) < -(exponentBound : Int) then .zero d.negative
  else if 0 ≤ d.exponent then
    .ofUnits d.negative (d.digits * Nat.pow 10 d.exponent.toNat * unitsPerOne) 1
  else
    .ofUnits d.negative (d.digits * unitsPerOne) (Nat.pow 10 (-d.exponent).toNat)

/-! ## Reading -/

/-- Whether a character marks the exponent. -/
def isExponentMark (c : Char) : Bool :=
  c == 'e' || c == 'E'

/-- A sign at the front of a text, and the rest. -/
def takeSign : List Char → Bool × List Char
  | '-' :: rest => (true, rest)
  | '+' :: rest => (false, rest)
  | rest => (false, rest)

/-- The value of an exponent part such as `e-5`; a text without one has exponent zero. -/
def exponentValue? : List Char → Option Int
  | [] => some 0
  | c :: rest =>
    if isExponentMark c then
      let (negative, digits) := takeSign rest
      if digits.isEmpty || !digits.all isDecimal then none
      else
        let n : Int := decimalNumber digits
        some (if negative then -n else n)
    else none

/-- The decimal that a text spells: a sign, digits with at most one point, at least one digit,
and perhaps an exponent. -/
def ofText? (text : List Char) : Option Decimal :=
  let (negative, body) := takeSign text
  let whole := body.takeWhile isDecimal
  let (fraction, tail) :=
    match body.dropWhile isDecimal with
    | '.' :: rest => (rest.takeWhile isDecimal, rest.dropWhile isDecimal)
    | rest => ([], rest)
  if whole.isEmpty && fraction.isEmpty then none
  else
    (exponentValue? tail).map fun exponent =>
      ⟨negative, decimalNumber (whole ++ fraction), exponent - fraction.length⟩

end Decimal

/-- A minus sign at the front of a text, and the rest. -/
def takeMinus : List Char → Bool × List Char
  | '-' :: rest => (true, rest)
  | rest => (false, rest)

/-- The whole number that a text spells: perhaps a minus sign, then at least one digit. -/
def wholeNumber? (text : List Char) : Option Int :=
  let (negative, digits) := takeMinus text
  if digits.isEmpty || !digits.all isDecimal then none
  else
    let n : Int := decimalNumber digits
    some (if negative then -n else n)

end DispatchLisp
