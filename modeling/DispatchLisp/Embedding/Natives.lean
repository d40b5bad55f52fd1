import DispatchLisp.Evaluation.Apply

/-!
# Embedding.Natives — functions for a host to hand to programs

They cover what a native can do: look at its arguments and at the context of its call, evaluate
expressions, raise errors, and act on an object of the host.
-/

namespace DispatchLisp

namespace HostNative

/-- The first two of the arguments, which both have to be there. -/
def twoArguments : List Value → NativeEval (Value × Value)
  | first :: second :: _ => return (first, second)
  | _ => throw (.host .outOfRange)

/-- Evaluates the second expression unless the first is true. -/
def runUnless (ev : Evaluator) (context : ContextId) (args : List Value) : NativeEval Value := do
  let (condition, expr) ← twoArguments args
  let v ← ev condition context
  if v.truthy then return .nothing else ev expr context

/-- Raises an error of a class with a message. -/
def runRaise (args : List Value) : NativeEval Value := do
  check (requireArguments "raise" args [[.string], [.string]])
  match args with
  | [.string kind, .string message] => throw (.ofName kind (some message))
  | _ => return .nothing

/-- Sends an object of the host a text and a value. -/
def runEmit (args : List Value) : NativeEval Value := do
  check (requireArguments "emit" args [[.object], [.string], [.any]])
  match args with
  | [.object o, .string text, v] =>
    let value ← textOf v
    changeStore fun s => s.addEvent o ⟨text, value⟩
    return .nothing
  | _ => return .nothing

/-- What the function with a key does. -/
def run (key : String) (ev : Evaluator) (context : ContextId) (args : List Value) :
    NativeEval Value :=
  match key with
  | "args" => makeList args true
  | "context" => return .context context
  | "unless" => runUnless ev context args
  | "raise" => runRaise args
  | "emit" => runEmit args
  | _ => return .int args.length

end HostNative

/-- A host with a few functions; any other key counts the arguments. -/
def Host.basic : Host := ⟨HostNative.run⟩

end DispatchLisp
