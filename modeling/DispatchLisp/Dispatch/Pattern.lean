import DispatchLisp.Dispatch.Parameters

/-!
# Dispatch.Pattern — the patterns of a function

A function is an ordered list of patterns. A call takes the first pattern whose parameters
accept its arguments. A pattern with the parameters of an earlier one takes its place.
-/

namespace DispatchLisp

/-- Parameters with a body, and the context in which the body was written. -/
structure Pattern where
  parameters : Parameters
  body : Value
  context : ContextId
deriving DecidableEq

namespace Pattern

/-- Whether a pattern accepts some arguments. -/
def accept (p : Pattern) (args : List Value) : Bool :=
  p.parameters.accept args

/-- Whether two patterns ask the same of their arguments. -/
def sameShape (p q : Pattern) : Bool :=
  p.parameters.sameShape q.parameters

end Pattern

/-- Adds a pattern: in the place of the first one that asks the same, else at the end. -/
def addPattern (p : Pattern) : List Pattern → List Pattern
  | [] => [p]
  | q :: rest => if q.sameShape p then p :: rest else q :: addPattern p rest

/-- The first pattern that accepts some arguments. -/
def selectPattern? (patterns : List Pattern) (args : List Value) : Option Pattern :=
  patterns.find? fun p => p.accept args

/-- The position of the first pattern that accepts some arguments. -/
def selectPosition? (patterns : List Pattern) (args : List Value) : Option Nat :=
  patterns.findIdx? fun p => p.accept args

end DispatchLisp
