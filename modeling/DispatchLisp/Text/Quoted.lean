import DispatchLisp.Text.Printable

/-!
# Text.Quoted — the quoted form of a text in a message

A message that cites a piece of source text puts it between single quotes, or between double
quotes when it holds a single quote and no double quote. Unprintable characters are spelled by
their code points.
-/

namespace DispatchLisp

/-- Lower case hexadecimal digits, padded with zeros to a width. -/
def hexDigits (width n : Nat) : List Char :=
  let digits := Nat.toDigits 16 n
  List.replicate (width - digits.length) '0' ++ digits

/-- The spelling of one character between quotes of the given kind. -/
def quotedChar (quote c : Char) : List Char :=
  if c = quote then ['\x5c', c]
  else if c = '\x5c' then ['\x5c', '\x5c']
  else if c = '\n' then ['\x5c', 'n']
  else if c = '\t' then ['\x5c', 't']
  else if c = '\r' then ['\x5c', 'r']
  else if isPrintable c then [c]
  else if c.toNat < 0x100 then '\x5c' :: 'x' :: hexDigits 2 c.toNat
  else if c.toNat < 0x10000 then '\x5c' :: 'u' :: hexDigits 4 c.toNat
  else '\x5c' :: 'U' :: hexDigits 8 c.toNat

/-- The quote that a text is put between. -/
def quoteFor (text : List Char) : Char :=
  if text.contains '\x27' && !text.contains '\x22' then '\x22' else '\x27'

/-- A text as a message cites it. -/
def quoted (text : List Char) : String :=
  let quote := quoteFor text
  String.ofList (quote :: text.flatMap (quotedChar quote) ++ [quote])

end DispatchLisp
