import DispatchLisp.Reader.Cursor

/-!
# Reader.Parse — forms in a text

`readForm` reads one form of limited nesting, `parse` a text that holds exactly one, and
`parseAll` every form of a text up to the first read error.
-/

namespace DispatchLisp

/-! ## Brackets -/

/-- Reads forms up to the character that closes the bracket opened at `start`. The last argument
but one bounds the number of forms; the number of characters left is enough. -/
def readItems (readOne : Cursor → Reading) (closer : Char) (start : Cursor) :
    Nat → Cursor → Except ReadError (List Form × Cursor)
  | 0, _ => start.fail (.unterminatedList closer)
  | bound + 1, c =>
    let c := c.skipBlanks
    match c.rest with
    | [] => start.fail (.unterminatedList closer)
    | ch :: _ =>
      if ch = closer then .ok ([], c.advance 1)
      else do
        let (item, next) ← readOne c
        let (items, last) ← readItems readOne closer start bound next
        .ok (item :: items, last)

/-- The form of a bracket with some forms inside; a dict needs its keys and values in pairs. -/
def Bracket.form? : Bracket → List Form → Option Form
  | .round, items => some (.list items)
  | .square, items => some (.list (Form.listMarker :: items))
  | .curly, items =>
    if items.length % 2 = 0 then some (.list (Form.dictMarker :: items)) else none

/-- Reads what follows the opening character of a bracket and makes it a form of kind `shape`. -/
def readBracket (readOne : Cursor → Reading) (bracket shape : Bracket) (c : Cursor) : Reading := do
  let (items, next) ← readItems readOne bracket.closer c (c.rest.length + 1) (c.advance 1)
  match shape.form? items with
  | some form => .ok (form, next)
  | none => c.fail .oddDict

/-! ## Forms -/

/-- Reads one form that is nested at most `limit` deep. -/
def readForm : Nat → Cursor → Reading
  | 0, _ => .error ⟨.nestedTooDeep, none⟩
  | limit + 1, c =>
    let c := c.skipBlanks
    match c.rest with
    | [] => c.fail .endOfInput
    | ch :: _ =>
      match Bracket.ofOpener? ch with
      | some bracket => readBracket (readForm limit) bracket bracket c
      | none => if isCloser ch then c.fail (.strayCloser ch) else readToken c

/-- How deep forms may be nested. -/
def nestingLimit : Nat := 1000

/-- Reads a text that holds exactly one form. -/
def parse (text : String) : Except ReadError Form := do
  let (form, next) ← readForm nestingLimit (.ofText text.toList 0)
  let next := next.skipBlanks
  match next.rest with
  | [] => .ok form
  | _ :: _ => next.fail .trailingInput

/-! ## Texts -/

/-- The forms of a text in order, and the error that ended the reading before the text did. -/
structure Transcript where
  forms : List Form
  error : Option ReadError

/-- Reads forms to the end of the text or the first error. The first argument but one bounds the
number of forms; the number of characters left is enough. -/
def readForms (limit : Nat) : Nat → Cursor → Transcript
  | 0, _ => ⟨[], none⟩
  | bound + 1, c =>
    let c := c.skipBlanks
    match c.rest with
    | [] => ⟨[], none⟩
    | _ :: _ =>
      match readForm limit c with
      | .error e => ⟨[], some ⟨e.fault, e.offset.or (some c.offset)⟩⟩
      | .ok (form, next) =>
        let others := readForms limit bound next
        ⟨form :: others.forms, others.error⟩

/-- Reads every form of a text. -/
def parseAll (text : String) : Transcript :=
  let chars := text.toList
  readForms nestingLimit (chars.length + 1) (.ofText chars 0)

/-! ## Reading at a place -/

/-- The reading functions that can be started at any place of a text. -/
inductive ReadKind where
  | any
  | list
  | dict
  | string
  | number
  | keyword
  | symbol

/-- Starts a reading function at a place. Lists and dicts need an opening bracket there; a dict
takes the contents of any bracket. -/
def ReadKind.read? (kind : ReadKind) (c : Cursor) : Option Reading :=
  match kind with
  | .any => some (readForm nestingLimit c)
  | .string => some (readString c)
  | .number => some (readNumber c)
  | .keyword => some (readKeyword c)
  | .symbol => some (readSymbol c)
  | .list => (c.rest.head?.bind Bracket.ofOpener?).map fun bracket =>
      readBracket (readForm (nestingLimit - 1)) bracket bracket c
  | .dict => (c.rest.head?.bind Bracket.ofOpener?).map fun bracket =>
      readBracket (readForm (nestingLimit - 1)) bracket .curly c

end DispatchLisp
