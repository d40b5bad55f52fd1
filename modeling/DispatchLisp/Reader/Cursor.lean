import DispatchLisp.Form
import DispatchLisp.Reader.Error
import DispatchLisp.Reader.Token

/-!
# Reader.Cursor — a place in a text, and reading one token there
-/

namespace DispatchLisp

/-- A place in a text: how many characters stand before it, and those that follow. -/
structure Cursor where
  offset : Nat
  rest : List Char

namespace Cursor

/-- The place at an offset of a text; past the end nothing follows. -/
def ofText (text : List Char) (offset : Nat) : Cursor :=
  ⟨offset, text.drop offset⟩

/-- The place some characters further on. -/
def advance (c : Cursor) (count : Nat) : Cursor :=
  ⟨c.offset + count, c.rest.drop count⟩

/-- The place after the blanks and comments that follow. -/
def skipBlanks (c : Cursor) : Cursor :=
  c.advance (blankLength false c.rest)

/-- A read error at this place. -/
def fail {α : Type} (c : Cursor) (fault : ReadFault) : Except ReadError α :=
  .error ⟨fault, some c.offset⟩

/-- How much of the text a message about a bad token cites. -/
def excerpt (c : Cursor) : List Char :=
  c.rest.take 20

end Cursor

/-- What a reading function answers: a form and the place after it. -/
abbrev Reading := Except ReadError (Form × Cursor)

/-- Reads a quoted string. -/
def readString (c : Cursor) : Reading :=
  match stringBody? c.rest with
  | some body =>
    .ok (.string (String.ofList (StringLiteral.decode body)), c.advance (body.length + 2))
  | none => c.fail .unterminatedString

/-- The form that a number token stands for; a decimal that overflows stands for none. -/
def numberForm? (fractional : Bool) (lexeme : List Char) : Option Form :=
  let digits := lexeme.filter (· != ',')
  if fractional then
    (Decimal.ofText? digits).bind fun d =>
      let x := d.toBinary64
      if x.isInfinite then none else some (.float x)
  else (wholeNumber? digits).map .int

/-- Reads a number: a double if it has a fraction or an exponent, a whole number otherwise. -/
def readNumber (c : Cursor) : Reading :=
  match numberLexeme? c.rest with
  | none => c.fail (.badNumber c.excerpt)
  | some (fractional, lexeme) =>
    let next := c.advance lexeme.length
    if endsNumber next.rest then
      match numberForm? fractional lexeme with
      | some form => .ok (form, next)
      | none => c.fail (.badNumber lexeme)
    else c.fail (.badNumber c.excerpt)

/-- Reads a keyword; the colon is no part of its name. -/
def readKeyword (c : Cursor) : Reading :=
  match keywordLexeme? c.rest with
  | some lexeme => .ok (.keyword (String.ofList (lexeme.drop 1)), c.advance lexeme.length)
  | none => c.fail .badKeyword

/-- Reads a symbol. -/
def readSymbol (c : Cursor) : Reading :=
  match symbolLexeme? c.rest with
  | some lexeme => .ok (.symbol (String.ofList lexeme), c.advance lexeme.length)
  | none => c.fail (.badSymbol c.excerpt)

/-- Reads the token that the next characters announce. -/
def readToken (c : Cursor) : Reading :=
  match c.rest with
  | [] => c.fail .endOfInput
  | ch :: _ =>
    if isQuote ch then readString c
    else if startsNumber c.rest then readNumber c
    else if ch = ':' then readKeyword c
    else readSymbol c

end DispatchLisp
