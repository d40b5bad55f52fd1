import DispatchLisp.Text.Quoted

/-!
# Reader.Error — why a text cannot be read

A read error is a cause and the offset at which it was found, in characters from the start of
the text.
-/

namespace DispatchLisp

/-- What is wrong with a text. -/
inductive ReadFault where
  | endOfInput
  | strayCloser (closer : Char)
  | unterminatedList (closer : Char)
  | oddDict
  | unterminatedString
  | badNumber (text : List Char)
  | badKeyword
  | badSymbol (text : List Char)
  | trailingInput
  | nestedTooDeep
deriving DecidableEq

/-- The wording of a cause. -/
def ReadFault.message : ReadFault → String
  | .endOfInput => "Unexpected end of input"
  | .strayCloser closer => "Unexpected '" ++ closer.toString ++ "'"
  | .unterminatedList closer => "Unterminated list, expected '" ++ closer.toString ++ "'"
  | .oddDict => "Dict literal needs an even number of entries"
  | .unterminatedString => "Unterminated string"
  | .badNumber text => "Invalid number format " ++ quoted text
  | .badKeyword => "Failed to parse keyword"
  | .badSymbol text => "Failed to parse symbol at " ++ quoted text
  | .trailingInput => "Unexpected input after expression"
  | .nestedTooDeep => "Failed to parse string: maximum recursion depth exceeded"

/-- A cause and where it was found; nesting that is too deep has no place of its own. -/
structure ReadError where
  fault : ReadFault
  offset : Option Nat
deriving DecidableEq

/-- A message with the offset it is about. -/
def withOffset (message : String) : Option Nat → String
  | some offset => message ++ " (at offset " ++ toString offset ++ ")"
  | none => message

/-- The wording of a read error. -/
def ReadError.message (e : ReadError) : String :=
  withOffset e.fault.message e.offset

end DispatchLisp
