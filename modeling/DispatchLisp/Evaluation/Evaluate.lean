import DispatchLisp.Evaluation.Apply

/-!
# Evaluation.Evaluate — evaluating expressions

A symbol evaluates to its binding, an unevaluated list to the value of a call, and everything
else to itself. Nested evaluations are limited in number; one more is a fault.
-/

namespace DispatchLisp

/-- The function that the head of a call names or is; a head is never evaluated. -/
def resolveHead (head : Value) (context : ContextId) : Eval Value := do
  match head with
  | .symbol name =>
    let f ← queryStore fun s => s.lookup context name
    if f.isCallable then return f else throw (.notFunction name)
  | f => if f.isCallable then return f else throw (.notFunction (← textOf f))

/-- One step of evaluation, given how to evaluate the parts of an expression. -/
def step (host : Host) (ev : Evaluator) (expr : Value) (context : ContextId) :
    NativeEval Value := do
  match expr with
  | .symbol name => queryStore fun s => s.lookup context name
  | .list id =>
    let cell ← askStore fun s => s.list id
    if cell.evaluated then return expr
    else
      match cell.items with
      | [] => throw (.fault .emptyCall)
      | head :: exprs =>
        let f ← resolveHead head context
        apply host ev f (fixedParts exprs) context
  | v => return v

/-- Evaluates an expression in a context with at most `depth` evaluations inside each other. -/
def evaluate (host : Host) : Nat → Evaluator
  | 0, _, _ => throw .tooDeep
  | depth + 1, expr, context => (step host (evaluate host depth) expr context).guarded

/-- How many evaluations may be inside each other. -/
def depthLimit : Nat := 1200

/-- Evaluates an expression in a context. -/
def evaluateIn (host : Host) : Evaluator :=
  evaluate host depthLimit

end DispatchLisp
