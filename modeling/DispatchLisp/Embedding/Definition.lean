import DispatchLisp.Evaluation.Apply
import DispatchLisp.Reader.Parse

/-!
# Embedding.Definition — functions that a host defines from texts

A host can read expressions and parameter lists, add patterns to a function, and bind arguments
as a call would.
-/

namespace DispatchLisp

/-- Reads a text that holds exactly one form. -/
def readExpression (text : String) : Eval Value :=
  match parse text with
  | .ok form => allocate fun s => s.ofForm form
  | .error e => throw (.unreadable e)

/-- The parameters that a text declares in a context. -/
def readParameters (context : ContextId) (text : String) : Eval Parameters := do
  let form ← readExpression text
  queryStore fun s => s.declareParameters context form

/-- Adds a pattern to a function, with parameters and a body from texts. -/
def definePattern (context : ContextId) (id : FunctionId) (parameters body : String) :
    Eval Pattern := do
  let parameters ← readParameters context parameters
  let body ← readExpression body
  let p : Pattern := ⟨parameters, body, context⟩
  changeStore fun s => s.extend id p
  return p

/-- A new context inside another one in which the arguments of a call are bound. -/
def bindInside (context : ContextId) (p : Parameters) (args : List Value) : Eval ContextId := do
  let inner ← allocate fun s => s.newContext "" (some context)
  bindArguments inner p args
  return inner

end DispatchLisp
