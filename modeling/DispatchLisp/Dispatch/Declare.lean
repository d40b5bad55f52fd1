import DispatchLisp.Context.Lookup

/-!
# Dispatch.Declare — parameters from their written form

A parameter list is written as a list of names, types, literals and pairs of a type and a name,
perhaps with a marked name for the rest at the end. A name that means a type in the context of
the definition declares that type.
-/

namespace DispatchLisp

/-- The written elements of a list in square or round brackets. -/
def withoutListMarker : List Value → List Value
  | .symbol "list" :: rest => rest
  | items => items

/-- The constants that are written as names but declare a literal. -/
def constantLiteral? (name : String) : Option Atom :=
  if name = "true" then some (.bool true)
  else if name = "false" then some (.bool false)
  else if name = "Nothing" then some .nothing
  else none

namespace Store

/-- The type that a name means. -/
def typeNamed? (s : Store) (context : ContextId) (name : String) : Option String :=
  match s.lookup? context name with
  | some (.type type) => some type
  | _ => none

/-- The declaration that a name makes. -/
def declareName (s : Store) (context : ContextId) (name : String) : Declaration :=
  match constantLiteral? name with
  | some a => .literal a
  | none =>
    match s.typeNamed? context name with
    | some type => .typed type none
    | none => .binder name

/-- The declaration that a written form makes. -/
def declare (s : Store) (context : ContextId) (form : Value) : Except Fault Declaration :=
  match form with
  | .symbol name => .ok (s.declareName context name)
  | .int n => .ok (.literal (.int n))
  | .float x => .ok (.literal (.float x))
  | .string text => .ok (.literal (.string text))
  | .keyword name => .ok (.literal (.keyword name))
  | .bool b => .ok (.literal (.bool b))
  | .list id =>
    match withoutListMarker (s.list id).items with
    | [.symbol first, .symbol second] =>
      match s.declareName context first with
      | .typed type _ => .ok (.typed type (some second))
      | _ => refuse
    | _ => refuse
  | _ => refuse
where
  refuse : Except Fault Declaration := do
    let text ← s.render form
    .error (.badParameter text)

/-- The parameters that written elements make. -/
def declareItems (s : Store) (context : ContextId) : List Value → Except Fault Parameters
  | [] => .ok ⟨[], none⟩
  | item :: items =>
    if item = .symbol restMarker then
      match items with
      | [.symbol name] => .ok ⟨[], some name⟩
      | _ => .error .badRest
    else do
      let declaration ← s.declare context item
      let others ← s.declareItems context items
      .ok { others with fixed := declaration :: others.fixed }

/-- The parameters that a written parameter list makes. -/
def declareParameters (s : Store) (context : ContextId) (form : Value) :
    Except Fault Parameters :=
  match form with
  | .list id => s.declareItems context (withoutListMarker (s.list id).items)
  | _ => do
    let text ← s.render form
    .error (.badParameterList text)

end Store

end DispatchLisp
