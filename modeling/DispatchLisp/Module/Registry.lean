import DispatchLisp.Context.Import
import DispatchLisp.Evaluation.Text

/-!
# Module.Registry — loading, importing and reloading modules

A module is a context inside the root context, filled by a source. It is registered when all of
the source has been evaluated. Reloading it empties its context and evaluates a source anew; if
that fails the earlier bindings come back, and otherwise everyone who imports it is brought up
to date.
-/

namespace DispatchLisp

/-- The registered module with a name. -/
def moduleNamed? {ε : Type} (name : String) : Computation ε (Option Module) :=
  ask fun m => m.modules.get? name

/-- Registers a module in place of an earlier one with its name. -/
def register (module : Module) : Eval Unit :=
  change fun m => { m with modules := m.modules.set module.name module }

/-- Evaluates a source into a new context and registers it as a module. -/
def loadModule (ev : Evaluator) (name source : String) (path : Option Path) : Eval Module := do
  let root ← ask Machine.root
  let context ← allocate fun s => s.newContext name root
  let _ ← evaluateText ev source context
  let module : Module := ⟨name, context, source, path⟩
  register module
  record .debug fun s =>
    .ok ("loaded module " ++ name ++ " (" ++ toString (s.context context).table.length ++
      " bindings)")
  return module

/-- Loads a module from its file. -/
def loadModuleFile (ev : Evaluator) (name : String) : NativeEval Module := do
  let disk ← ask Machine.disk
  match disk.resolve? name with
  | .error e => throwHost .value e.message
  | .ok none => throw (.fault (.moduleNotFound name))
  | .ok (some path) => loadModule ev name ((disk.read? path).getD "") (some path)

/-- The registered module with a name; one that is not registered is loaded from its file. -/
def provideModule (ev : Evaluator) (name : String) : NativeEval Module := do
  match ← moduleNamed? name with
  | some module => return module
  | none => loadModuleFile ev name

/-- Imports a module into a context under a qualifier, its name and a dot unless one is given. -/
def importModule (ev : Evaluator) (context : ContextId) (name : String)
    (qualifier : Option String) : NativeEval Module := do
  let module ← provideModule ev name
  changeStore fun s => s.importFrom context module.context (qualifier.getD (name ++ "."))
  record .debug fun _ =>
    .ok ("imported module " ++ name ++ " into " ++ (Atom.context context).render)
  return module

/-- The texts of values that all have to be strings. -/
def stringArguments : List Value → Except Fault (List String)
  | [] => .ok []
  | .string text :: rest => do
    let texts ← stringArguments rest
    .ok (text :: texts)
  | _ => .error .badImport

/-- Evaluates expressions from left to right. -/
def evaluateAll (ev : Evaluator) (context : ContextId) : List Part → Eval (List Value)
  | [] => return []
  | part :: rest => do
    let expr ← askStore part
    let v ← ev expr context
    let vs ← evaluateAll ev context rest
    return v :: vs

/-- `(import "name" "qualifier")`: imports a module and answers its context. -/
def importForm (ev : Evaluator) (context : ContextId) (parts : List Part) : NativeEval Value := do
  if parts.length = 1 || parts.length = 2 then
    let args ← evaluateAll ev context parts
    match ← check (stringArguments args) with
    | name :: rest =>
      let module ← importModule ev context name rest.head?
      return .context module.context
    | [] => return .nothing
  else throw (.fault (.badShape .importForm))

/-! ## Reloading -/

/-- Evaluates a source as the new content of a context. If that fails, the bindings are those
from before. -/
def reloadContext (ev : Evaluator) (context : ContextId) (source : String) : Eval Unit := do
  let before ← askStore fun s => (s.context context).table
  changeStore fun s => s.replaceTable context []
  try
    let _ ← evaluateText ev source context
  catch e =>
    changeStore fun s => s.replaceTable context before
    throw e
  changeStore fun s => s.propagate context

/-- The source for a reload: the one given, or the present text of the module's file. -/
def reloadSource (module : Module) (source : Option String) : Eval String := do
  match source, module.path with
  | some text, _ => return text
  | none, some path => ask fun m => (m.disk.read? path).getD ""
  | none, none => throw (.moduleWithoutFile module.name)

/-- Reloads a module from a source, or from its file. -/
def reloadModule (ev : Evaluator) (name : String) (source : Option String) : Eval Module := do
  match ← moduleNamed? name with
  | none => throw (.moduleNotLoaded name)
  | some module =>
    let source ← reloadSource module source
    reloadContext ev module.context source
    let module := { module with source }
    register module
    record .debug fun _ => .ok ("reloaded module " ++ name)
    return module

end DispatchLisp
