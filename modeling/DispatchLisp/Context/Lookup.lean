import DispatchLisp.Store.View

/-!
# Context.Lookup — names along a chain of contexts

A name means its nearest binding: contexts are searched outwards, from a context to its parent
and on to the root.
-/

namespace DispatchLisp

namespace Store

/-- The contexts from one outwards, at most `further` of them after the first. -/
def chainWithin (s : Store) : Nat → ContextId → List ContextId
  | 0, id => [id]
  | further + 1, id =>
    id ::
      match (s.context id).parent with
      | some outer => s.chainWithin further outer
      | none => []

/-- The contexts from one outwards. A context is made after its parent, so the chain has no more
contexts than were made before the first one. -/
def chain (s : Store) (id : ContextId) : List ContextId :=
  s.chainWithin id.index id

/-- The value that a context itself binds to a name. -/
def own? (s : Store) (id : ContextId) (name : String) : Option Value :=
  (s.context id).table.get? name

/-- The nearest context that binds a name. -/
def find? (s : Store) (id : ContextId) (name : String) : Option ContextId :=
  (s.chain id).find? fun c => (s.own? c name).isSome

/-- The nearest binding of a name. -/
def lookup? (s : Store) (id : ContextId) (name : String) : Option Value :=
  (s.chain id).findSome? fun c => s.own? c name

/-- The nearest binding of a name, which has to be there. -/
def lookup (s : Store) (id : ContextId) (name : String) : Except Fault Value :=
  match s.lookup? id name with
  | some v => .ok v
  | none => .error (.undefinedSymbol name)

/-- The outermost context of a chain. -/
def rootOf (s : Store) (id : ContextId) : ContextId :=
  (s.chain id).getLast?.getD id

/-- Binds a name in a context itself. -/
def define (s : Store) (id : ContextId) (name : String) (v : Value) : Store :=
  s.updateContext id fun c => { c with table := c.table.set name v }

/-- Binds several names in a context itself, one after another. -/
def defineAll (s : Store) (id : ContextId) (entries : List (String × Value)) : Store :=
  s.updateContext id fun c => { c with table := c.table.setAll entries }

/-- Replaces all bindings of a context. -/
def replaceTable (s : Store) (id : ContextId) (table : Table Value) : Store :=
  s.updateContext id fun c => { c with table }

/-- The text of a context's own bindings. -/
def renderFrame (s : Store) (id : ContextId) : Except Fault String := do
  let entries ← (s.context id).table.mapM fun (name, v) => do
    let text ← s.render v
    Except.ok (name ++ ": " ++ text)
  .ok ("\x7b" ++ String.intercalate ", " entries ++ "\x7d")

/-- The text of a chain of contexts with all their bindings. -/
def renderChain (s : Store) (id : ContextId) : Except Fault String := do
  let frames ← (s.chain id).mapM s.renderFrame
  .ok ("<Context chain: " ++ String.intercalate " -> " frames ++ ">")

end Store

end DispatchLisp
