import DispatchLisp.Dispatch.Declare
import DispatchLisp.Evaluation.Machine

/-!
# Evaluation.SpecialForms — forms that decide themselves what to evaluate

A special form receives its parts unevaluated and looks at each when its turn comes. Names are
bound in the context of the form, in the case of `let` in a new context inside it.
-/

namespace DispatchLisp

/-! ## Sequences -/

/-- Evaluates expressions in order and answers the last value, or a given one if there are no
expressions. -/
def evaluateSequence (ev : Evaluator) (context : ContextId) (result : Value) :
    List Part → Eval Value
  | [] => return result
  | part :: rest => do
    let expr ← askStore part
    let v ← ev expr context
    evaluateSequence ev context v rest

/-- Evaluates expressions in order up to the first whose truth is `stop`, and answers the last
value. -/
def evaluateUntil (ev : Evaluator) (context : ContextId) (stop : Bool) (result : Value) :
    List Part → Eval Value
  | [] => return result
  | part :: rest => do
    let expr ← askStore part
    let v ← ev expr context
    if v.truthy = stop then return v else evaluateUntil ev context stop v rest

/-- `(if condition then else)`: only the branch taken is evaluated. -/
def evaluateIf (ev : Evaluator) (context : ContextId) : List Part → Eval Value
  | [condition, first] => choose condition first none
  | [condition, first, second] => choose condition first (some second)
  | _ => throw (.badShape .ifForm)
where
  choose (condition first : Part) (second : Option Part) : Eval Value := do
    let v ← ev (← askStore condition) context
    if v.truthy then ev (← askStore first) context
    else
      match second with
      | some second => ev (← askStore second) context
      | none => return .nothing

/-- `(quote form)`: the form itself. -/
def evaluateQuote : List Value → Eval Value
  | [form] => return form
  | _ => throw (.badShape .quoteForm)

/-! ## Bindings -/

/-- `(def name value)` binds the value of an expression in the context of the form. -/
def evaluateDef (ev : Evaluator) (context : ContextId) : List Value → Eval Value
  | [target, expr] =>
    match target.symbol? with
    | some name => do
      let v ← ev expr context
      changeStore fun s => s.define context name v
      return v
    | none => do throw (.undefinable (← textOf target))
  | _ => throw (.badShape .defForm)

/-- Binds names to the values of expressions in turn, in the context in which the expressions
are evaluated. -/
def bindPairs (ev : Evaluator) (context : ContextId) : List Part → Eval Unit
  | name :: value :: rest => do
    let target ← askStore name
    let expr ← askStore value
    match target.symbol? with
    | some name => do
      let v ← ev expr context
      changeStore fun s => s.define context name v
      bindPairs ev context rest
    | none => do throw (.unbindable (← textOf target))
  | _ => return ()

/-- The places of written bindings. Bindings in square brackets are written as a call of the list
constructor and are taken as they are when the form starts; those of a plain list are looked at
in place. -/
def bindingParts (s : Store) (id : ListId) : List Part :=
  match (s.list id).items with
  | .symbol "list" :: rest => fixedParts rest
  | _ => s.parts id

/-- `(let [name value ...] body ...)` evaluates its body in a new context with some bindings. -/
def evaluateLet (ev : Evaluator) (context : ContextId) : List Part → Eval Value
  | [] => throw (.badShape .letForm)
  | bindings :: body => do
    match ← askStore bindings with
    | .list id =>
      let pairs ← askStore fun s => bindingParts s id
      if pairs.length % 2 = 0 then
        let inner ← allocate fun s => s.newContext "let" (some context)
        bindPairs ev inner pairs
        let forms ← lookAtAll body
        evaluateSequence ev inner .nothing (fixedParts forms)
      else throw (.badShape .letPairs)
    | bindings => throw (.badBindings (← textOf bindings))

/-! ## Functions -/

/-- One expression for several body forms: nothing, the one form, or a sequence of them. -/
def makeBody : List Value → Eval Value
  | [] => return .nothing
  | [form] => return form
  | forms => makeList (.symbol SpecialForm.doForm.name :: forms) false

/-- The pattern that a parameter list and body forms make in a context. -/
def makePattern (context : ContextId) (parameters : Value) (forms : List Value) :
    Eval Pattern := do
  let parameters ← queryStore fun s => s.declareParameters context parameters
  let body ← makeBody forms
  return ⟨parameters, body, context⟩

/-- `(fn [parameters] body ...)`: a function with one pattern. -/
def evaluateFn (context : ContextId) : List Value → Eval Value
  | [] => throw (.badShape .fnForm)
  | parameters :: forms => do
    let p ← makePattern context parameters forms
    let id ← allocate fun s => s.newFunction "fn" [p]
    return .function id

/-- Binds a name in a context to a function with one more pattern: the function that the context
itself binds, a copy of one that a context further out binds, or a new one. -/
def extendBinding (context : ContextId) (name : String) (p : Pattern) : Eval FunctionId := do
  let owner ← askStore fun s => s.find? context name
  let existing ← askStore fun s => s.lookup? context name
  match existing with
  | some (.native _) => throw (.nativeRedefined name)
  | some (.function id) =>
    if owner = some context then
      changeStore fun s => s.extend id p
      return id
    else
      let patterns ← askStore fun s => s.patterns id
      bindNew id.name (addPattern p patterns)
  | _ => bindNew name [p]
where
  bindNew (label : String) (patterns : List Pattern) : Eval FunctionId := do
    let id ← allocate fun s => s.newFunction label patterns
    changeStore fun s => s.define context name (.function id)
    return id

/-- `(defn name [parameters] body ...)` adds a pattern to the function that a name means. -/
def evaluateDefn (context : ContextId) : List Value → Eval Value
  | target :: parameters :: forms =>
    match target.symbol? with
    | some name => do
      let p ← makePattern context parameters forms
      let id ← extendBinding context name p
      record .debug fun s =>
        .ok ("defn " ++ name ++ " now has " ++ toString (s.patterns id).length ++
          " dispatch pattern(s)")
      return .function id
    | none => do throw (.undefinableFunction (← textOf target))
  | _ => throw (.badShape .defnForm)

/-! ## All of them -/

/-- What a special form does with its parts. -/
def SpecialForm.run (f : SpecialForm) (ev : Evaluator) (context : ContextId)
    (parts : List Part) : Eval Value :=
  match f with
  | .ifForm => evaluateIf ev context parts
  | .doForm => evaluateSequence ev context .nothing parts
  | .quoteForm => do evaluateQuote (← lookAtAll parts)
  | .andForm => evaluateUntil ev context false (.bool true) parts
  | .orForm => evaluateUntil ev context true (.bool false) parts
  | .letForm => evaluateLet ev context parts
  | .fnForm => do evaluateFn context (← lookAtAll parts)
  | .defForm => do evaluateDef ev context (← lookAtAll parts)
  | .defnForm => do evaluateDefn context (← lookAtAll parts)

end DispatchLisp
