import DispatchLisp.Number.Decimal
import DispatchLisp.Text.Blank
import DispatchLisp.Text.Literal

/-!
# Reader.Token — where tokens begin and end

Every scanner looks at the text that is left and answers the longest token of its kind that
stands at its front, as the characters of that token. Blanks and comments between tokens are
measured by `blankLength`.
-/

namespace DispatchLisp

/-- The kinds of brackets. -/
inductive Bracket where
  | round
  | square
  | curly
deriving DecidableEq

namespace Bracket

/-- The character that opens a bracket. -/
def opener : Bracket → Char
  | .round => '('
  | .square => '['
  | .curly => '\x7b'

/-- The character that closes a bracket. -/
def closer : Bracket → Char
  | .round => ')'
  | .square => ']'
  | .curly => '\x7d'

/-- The bracket that a character opens. -/
def ofOpener? (c : Char) : Option Bracket :=
  if c = '(' then some .round
  else if c = '[' then some .square
  else if c = '\x7b' then some .curly
  else none

end Bracket

/-- Whether a character closes a bracket. -/
def isCloser (c : Char) : Bool :=
  c == ')' || c == ']' || c == '\x7d'

/-- Whether a character is a bracket. -/
def isBracket (c : Char) : Bool :=
  (Bracket.ofOpener? c).isSome || isCloser c

/-- Whether a character is a quote around a string. -/
def isQuote (c : Char) : Bool :=
  c == '\x22' || c == '\x27'

/-- How many characters of blanks and comments stand at the front of a text. A comment starts
with a semicolon and ends with its line. -/
def blankLength (inComment : Bool) : List Char → Nat
  | [] => 0
  | c :: rest =>
    if inComment then blankLength (c != '\n') rest + 1
    else if isBlank c then blankLength false rest + 1
    else if c = ';' then blankLength true rest + 1
    else 0

/-! ## Names -/

/-- Whether a character may stand inside a symbol. -/
def isNameChar (c : Char) : Bool :=
  !(isBlank c || isBracket c || isQuote c || c == ';')

/-- Whether a character may start a symbol. -/
def isNameStart (c : Char) : Bool :=
  isNameChar c && !('0' ≤ c && c ≤ '9')

/-- The symbol at the front of a text. -/
def symbolLexeme? : List Char → Option (List Char)
  | c :: rest => if isNameStart c then some (c :: rest.takeWhile isNameChar) else none
  | [] => none

/-- The keyword at the front of a text, with its colon. -/
def keywordLexeme? : List Char → Option (List Char)
  | ':' :: c :: rest =>
    if isNameStart c && c != ':' then some (':' :: c :: rest.takeWhile isNameChar) else none
  | _ => none

/-! ## Numbers -/

/-- Whether a character may stand in the whole part of a number; commas are ignored there. -/
def isNumberChar (c : Char) : Bool :=
  isDecimal c || c == ','

/-- Whether a text starts like a number: with a digit of any kind, or a minus sign and one. -/
def startsNumber : List Char → Bool
  | '-' :: c :: _ => isDigit c
  | c :: _ => isDigit c
  | [] => false

/-- The exponent part at the front of a text, empty if there is none. -/
def exponentLexeme : List Char → List Char
  | mark :: rest =>
    if Decimal.isExponentMark mark then
      let sign := rest.take 1 |>.filter fun c => c == '-' || c == '+'
      let digits := (rest.drop sign.length).takeWhile isDecimal
      if digits.isEmpty then [] else mark :: sign ++ digits
    else []
  | [] => []

/-- The number at the front of a text, and whether it has a fraction or an exponent. -/
def numberLexeme? (text : List Char) : Option (Bool × List Char) :=
  let sign := text.take 1 |>.filter (· == '-')
  let whole := (text.drop sign.length).takeWhile isNumberChar
  if whole.isEmpty then none
  else
    let integer := sign ++ whole
    match text.drop integer.length with
    | '.' :: rest =>
      let fraction := rest.takeWhile isDecimal
      some (true, integer ++ '.' :: fraction ++ exponentLexeme (rest.drop fraction.length))
    | rest =>
      let exponent := exponentLexeme rest
      some (!exponent.isEmpty, integer ++ exponent)

/-- Whether a number may end before a text. -/
def endsNumber : List Char → Bool
  | [] => true
  | c :: _ => isBlank c || isBracket c || c == ';'

/-! ## Strings -/

/-- The inside of the string at the front of a text. -/
def stringBody? : List Char → Option (List Char)
  | quote :: rest =>
    if isQuote quote then (StringLiteral.bodyLength quote rest).map (rest.take ·) else none
  | [] => none

end DispatchLisp
