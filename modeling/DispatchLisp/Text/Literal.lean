/-!
# Text.Literal — string literals

A string literal is written between double quotes; a backslash in it makes `n`, `t` and `r` a
line feed, a tab and a carriage return, and any other character itself.
-/

namespace DispatchLisp

namespace StringLiteral

/-- What a backslash and a character stand for. -/
def named (c : Char) : Char :=
  if c = 'n' then '\n' else if c = 't' then '\t' else if c = 'r' then '\r' else c

/-- The text that the inside of a literal stands for. -/
def decode : List Char → List Char
  | [] => []
  | '\x5c' :: c :: rest => named c :: decode rest
  | c :: rest => c :: decode rest

/-- The spelling of one character inside a literal. -/
def encodeChar (c : Char) : List Char :=
  if c = '\x5c' then ['\x5c', '\x5c']
  else if c = '\x22' then ['\x5c', '\x22']
  else if c = '\n' then ['\x5c', 'n']
  else if c = '\t' then ['\x5c', 't']
  else if c = '\r' then ['\x5c', 'r']
  else [c]

/-- The inside of a literal for a text. -/
def encode (text : List Char) : List Char :=
  text.flatMap encodeChar

/-- The literal for a text, with its quotes. -/
def render (text : String) : String :=
  String.ofList ('\x22' :: encode text.toList ++ ['\x22'])

/-- How many characters of a text stand before the quote that closes a literal; a character
after a backslash does not close it. -/
def bodyLength (quote : Char) : List Char → Option Nat
  | [] => none
  | [c] => if c = quote then some 0 else none
  | c :: d :: rest =>
    if c = quote then some 0
    else if c = '\x5c' then (bodyLength quote rest).map (· + 2)
    else (bodyLength quote (d :: rest)).map (· + 1)

end StringLiteral

end DispatchLisp
