import DispatchLisp.Value.Basic

/-!
# Dispatch.Parameters — what a pattern asks of its arguments

A declaration asks something of one argument: nothing, a type, or a value. Parameters are
declarations for the first arguments and perhaps a name for the rest of them. Two parameters
have the same shape when they ask the same, whatever names they bind.
-/

namespace DispatchLisp

/-- A declaration for one argument. -/
inductive Declaration where
  /-- takes any value -/
  | binder (name : String)
  /-- takes values of a type -/
  | typed (type : String) (name : Option String)
  /-- takes values that are the same as a literal -/
  | literal (value : Atom)
deriving DecidableEq

namespace Declaration

/-- Whether a declaration takes a value. -/
def accepts : Declaration → Value → Bool
  | .binder _, _ => true
  | .typed type _, v => type == v.typeName
  | .literal a, .atom b => a.same b
  | .literal _, _ => false

/-- Whether two declarations ask the same. -/
def sameShape : Declaration → Declaration → Bool
  | .binder _, .binder _ => true
  | .typed type _, .typed type' _ => type == type'
  | .literal a, .literal b => a.alike b
  | _, _ => false

/-- The name that a declaration binds; an empty name binds nothing. -/
def name? : Declaration → Option String
  | .binder name => if name.isEmpty then none else some name
  | .typed _ name => name.filter fun name => !name.isEmpty
  | .literal _ => none

/-- The text of a declaration. -/
def render : Declaration → String
  | .binder name => if name.isEmpty then "_" else name
  | d@(.typed type _) =>
    match d.name? with
    | some name => "(" ++ type ++ " " ++ name ++ ")"
    | none => type
  | .literal value => value.render

end Declaration

/-- Declarations for the first arguments, and a name for a list of the others. -/
structure Parameters where
  fixed : List Declaration
  rest : Option String
deriving DecidableEq

/-- The marker before the name for the rest of the arguments. -/
def restMarker : String := "&rest"

namespace Parameters

/-- Whether two lists agree in length and, place by place, in a test. -/
def agree {α β : Type} (test : α → β → Bool) : List α → List β → Bool
  | [], [] => true
  | a :: as, b :: bs => test a b && agree test as bs
  | _, _ => false

/-- Whether parameters take a list of arguments: every fixed declaration accepts its argument,
and further arguments need a name for the rest. -/
def accept (p : Parameters) (args : List Value) : Bool :=
  decide (p.fixed.length ≤ args.length) &&
  (p.rest.isSome || decide (args.length ≤ p.fixed.length)) &&
  agree Declaration.accepts p.fixed (args.take p.fixed.length)

/-- Whether two parameters ask the same. -/
def sameShape (p q : Parameters) : Bool :=
  agree Declaration.sameShape p.fixed q.fixed && p.rest.isSome == q.rest.isSome

/-- The texts of the parameters in order. -/
def texts (p : Parameters) : List String :=
  p.fixed.map Declaration.render ++
    match p.rest with
    | some name => [restMarker ++ " " ++ name]
    | none => []

/-- The text of a parameter list. -/
def render (p : Parameters) : String :=
  "[" ++ String.intercalate " " p.texts ++ "]"

/-- The names that the fixed declarations bind, with their arguments, in order. -/
def bindings (p : Parameters) (args : List Value) : List (String × Value) :=
  (p.fixed.zip args).filterMap fun (d, arg) => d.name?.map (·, arg)

end Parameters

end DispatchLisp
