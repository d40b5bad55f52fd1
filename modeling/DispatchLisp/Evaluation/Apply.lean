import DispatchLisp.Builtin.Run
import DispatchLisp.Evaluation.SpecialForms
import DispatchLisp.Module.Registry

/-!
# Evaluation.Apply — calling functions

A lazy native receives the expressions of a call, every other function their values, evaluated
from left to right in the context of the call. A function of the language takes the first
pattern that accepts its arguments, binds them in a new context inside that of the pattern, and
evaluates the body there.
-/

namespace DispatchLisp

/-- The functions that a host provides, by the names under which it knows them. -/
structure Host where
  call : String → Evaluator → ContextId → List Value → NativeEval Value

/-! ## Functions of the language -/

/-- Binds the arguments of a call in a context. -/
def bindArguments (context : ContextId) (p : Parameters) (args : List Value) : Eval Unit := do
  changeStore fun s => s.defineAll context (p.bindings args)
  match p.rest with
  | none => return ()
  | some name =>
    let others ← makeList (args.drop p.fixed.length) true
    changeStore fun s => s.define context name others

/-- Calls a function of the language with values; `evaluated` only tells how a message shows
them. -/
def applyFunction (ev : Evaluator) (id : FunctionId) (args : List Value) (evaluated : Bool) :
    Eval Value := do
  let patterns ← askStore fun s => s.patterns id
  match selectPattern? patterns args with
  | none =>
    let text ← queryStore fun s => s.renderItems evaluated args
    throw (.noPattern id.name text)
  | some p =>
    record .debug fun s => do
      let argsText ← s.renderItems evaluated args
      let patternText ← s.renderPattern p
      .ok ("dispatch " ++ id.name ++ argsText ++ " -> " ++ patternText)
    let inner ← allocate fun s => s.newContext id.name (some p.context)
    bindArguments inner p.parameters args
    ev p.body inner

/-! ## Traversals -/

/-- The walk over a list cannot end early: a native that says it has no more elements fails. -/
def NativeEval.withoutStop {α : Type} (x : NativeEval α) : NativeEval α :=
  x.mapError fun
    | .host ⟨.stopIteration, _⟩ => .host ⟨.runtime, some "generator raised StopIteration"⟩
    | r => r

/-- Calls a function on the elements of a list from a position on and collects the values, or
the elements with a true value. Elements are read when their turn comes. -/
def Traversal.collect (t : Traversal) (f : Value → NativeEval Value) (id : ListId) :
    Nat → Nat → NativeEval (List Value)
  | 0, _ => return []
  | count + 1, position => do
    match ← askStore fun s => (s.list id).items[position]? with
    | none => return []
    | some item =>
      let v ← (f item).withoutStop
      let others ← t.collect f id count (position + 1)
      match t with
      | .map => return v :: others
      | .filter => return if v.truthy then item :: others else others

/-- Calls a function, the first argument, on every element of a list, the second. -/
def Traversal.run (t : Traversal) (applyOne : Value → Value → NativeEval Value)
    (args : List Value) : NativeEval Value := do
  check (requireArguments t.name args [[.any], [.list]])
  match args with
  | [f, .list id] =>
    if f.isCallable then
      let count ← askStore fun s => (s.list id).items.length
      let items ← t.collect (applyOne f) id count 0
      makeList items true
    else throw (.fault (.functionExpected t.name f.typeName))
  | _ => return .nothing

/-! ## Natives -/

/-- What a native does with its arguments. -/
def Native.run (host : Host) (ev : Evaluator) (applyOne : Value → Value → NativeEval Value)
    (f : Native) (args : List Part) (context : ContextId) : NativeEval Value :=
  match f.role with
  | .builtin b => do b.run (← lookAtAll args)
  | .traversal t => do t.run applyOne (← lookAtAll args)
  | .form form => form.run ev context args
  | .importModule => importForm ev context args
  | .host key => do host.call key ev context (← lookAtAll args)

/-- Calls something with values, given what to do with the elements of a list. -/
def applyWith (host : Host) (ev : Evaluator) (applyOne : Value → Value → NativeEval Value)
    (f : Value) (args : List Part) (evaluated : Bool) (context : ContextId) :
    NativeEval Value :=
  match f with
  | .native f => f.run host ev applyOne args context
  | .function id => do applyFunction ev id (← lookAtAll args) evaluated
  | f => do throw (.fault (.notCallable (← textOf f)))

/-- Calls something with one value. A traversal needs two arguments and so never comes to the
elements of a list here. -/
def applyOne (host : Host) (ev : Evaluator) (context : ContextId) (f v : Value) :
    NativeEval Value :=
  applyWith host ev (fun _ _ => return .nothing) f [.fixed v] true context

/-- Calls something with values. -/
def applyValues (host : Host) (ev : Evaluator) (f : Value) (args : List Part)
    (evaluated : Bool) (context : ContextId) : NativeEval Value :=
  applyWith host ev (applyOne host ev context) f args evaluated context

/-- Calls something with expressions. -/
def apply (host : Host) (ev : Evaluator) (f : Value) (exprs : List Part) (context : ContextId) :
    NativeEval Value := do
  match f with
  | .native ⟨_, _, true, _⟩ => applyValues host ev f exprs false context
  | .native _ | .function _ => do
    let args ← evaluateAll ev context exprs
    applyValues host ev f (fixedParts args) true context
  | f => throw (.fault (.notCallable (← textOf f)))

end DispatchLisp
