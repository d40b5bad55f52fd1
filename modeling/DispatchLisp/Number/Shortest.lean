import DispatchLisp.Number.Decimal

/-!
# Number.Shortest — the text of a double precision number

A double precision number is written with the fewest decimal digits that read back as it; of
several such decimals the nearest is taken, and of two equally near ones the one with the even
last digit.
-/

namespace DispatchLisp

/-! ## Which digits -/

/-- The power of ten of a size's first digit. -/
def Magnitude.decimalOrder (size : Magnitude) : Int :=
  let scaled := size.units * Nat.pow 10 Decimal.exponentBound / unitsPerOne
  ((Nat.toDigits 10 scaled).length : Int) - 1 - (Decimal.exponentBound : Int)

/-- A size divided by a power of ten, as a quotient of whole numbers. -/
def Magnitude.quotientAt (size : Magnitude) (power : Int) : Nat × Nat :=
  if 0 ≤ power then (size.units, unitsPerOne * Nat.pow 10 power.toNat)
  else (size.units * Nat.pow 10 (-power).toNat, unitsPerOne)

/-- Whether a decimal reads back as a size. -/
def Magnitude.readsBack (size : Magnitude) (d : Decimal) : Bool :=
  decide (d.toBinary64 = .finite false size)

/-- Which of the two neighbours of a quotient, on the grid of one power of ten, reads back as a
size: the nearer one if both do. -/
def Magnitude.neighbour? (size : Magnitude) (num den : Nat) (power : Int) : Option Decimal :=
  let below : Decimal := ⟨false, num / den, power⟩
  let above : Decimal := ⟨false, num / den + 1, power⟩
  if size.readsBack below then
    if size.readsBack above && decide (roundHalfEven num den ≠ num / den) then some above
    else some below
  else if size.readsBack above then some above
  else none

/-- The decimal with `count` digits that reads back as a size. -/
def Magnitude.withDigits? (size : Magnitude) (count : Nat) : Option Decimal :=
  let power := size.decimalOrder + 1 - count
  let quotient := size.quotientAt power
  size.neighbour? quotient.1 quotient.2 power

/-- The exact decimal value of a size. -/
def Magnitude.exactDecimal (size : Magnitude) : Decimal :=
  ⟨false, size.units * Nat.pow 5 1074, -1074⟩

/-- The fewest digits that read back as a size; never more than seventeen are needed. -/
def Magnitude.shortest (size : Magnitude) : Decimal :=
  ((List.range 17).findSome? fun n => size.withDigits? (n + 1)).getD size.exactDecimal

/-! ## Their layout -/

/-- How digits and their power of ten are laid out. -/
structure NumberLayout where
  /-- the least power of ten of a first digit that is written positionally -/
  positionalFrom : Int
  /-- the least power of ten that is too large for it -/
  positionalBelow : Int
  /-- the least number of exponent digits -/
  exponentWidth : Nat

/-- Numbers from `0.0001` and below `10 ^ 16` are written positionally, others with a signed
exponent of at least two digits. -/
def numberLayout : NumberLayout := ⟨-4, 16, 2⟩

/-- Digits without the zeros at their end. -/
def dropTrailingZeros (digits : List Char) : List Char :=
  (digits.reverse.dropWhile (· == '0')).reverse

/-- An exponent with its mark and sign. -/
def NumberLayout.exponent (layout : NumberLayout) (n : Int) : List Char :=
  let digits := Nat.toDigits 10 n.natAbs
  'e' :: (if n < 0 then '-' else '+') ::
    (List.replicate (layout.exponentWidth - digits.length) '0' ++ digits)

/-- The layout of digits whose first one stands for a power of ten. -/
def NumberLayout.render (layout : NumberLayout) (digits : List Char) (order : Int) : List Char :=
  if layout.positionalFrom ≤ order && order < layout.positionalBelow then
    if order < 0 then
      '0' :: '.' :: (List.replicate (-order - 1).toNat '0' ++ digits)
    else
      let whole := (order + 1).toNat
      if digits.length ≤ whole then
        digits ++ List.replicate (whole - digits.length) '0' ++ ['.', '0']
      else digits.take whole ++ '.' :: digits.drop whole
  else
    match digits with
    | first :: rest@(_ :: _) => first :: '.' :: rest ++ layout.exponent order
    | _ => digits ++ layout.exponent order

/-- The text of a size. -/
def Magnitude.render (size : Magnitude) : List Char :=
  if size.units = 0 then ['0', '.', '0']
  else
    let d := size.shortest
    let digits := Nat.toDigits 10 d.digits
    numberLayout.render (dropTrailingZeros digits) (d.exponent + digits.length - 1)

/-- The text of a double precision number. -/
def Binary64.render : Binary64 → String
  | .finite false size => String.ofList size.render
  | .finite true size => String.ofList ('-' :: size.render)
  | .infinite false => "inf"
  | .infinite true => "-inf"
  | .nan _ => "nan"

/-- The number that a text names: a decimal, or one of the words for the numbers that have no
decimal. -/
def Binary64.ofText? (text : String) : Option Binary64 :=
  if text = "inf" then some (.infinite false)
  else if text = "-inf" then some (.infinite true)
  else if text = "nan" then some .undefined
  else (Decimal.ofText? text.toList).map Decimal.toBinary64

end DispatchLisp
