import DispatchLisp.Evaluation.Evaluate

/-!
# Interpreter — a language instance for a host

An interpreter has a root context with the builtins, in which code runs, and a registry of
modules inside it. The host can add natives, types and objects of its own. Running code answers
an outcome instead of failing, and so does reloading a module.
-/

namespace DispatchLisp

/-! ## Root contexts -/

/-- The name of root contexts. -/
def rootName : String := "main"

/-- The constants that a root context binds. -/
def rootConstants : List (String × Value) :=
  [("true", .bool true), ("false", .bool false), ("Nothing", .nothing)]

namespace Store

/-- Binds a new native function in a context. -/
def defineNative (s : Store) (context : ContextId) (name : String) (lazy : Bool)
    (role : NativeRole) : Native × Store :=
  let (f, s) := s.newNative name lazy role
  (f, s.define context name (.native f))

/-- Makes a context with the special forms, the builtins, the intrinsic types and the
constants. -/
def newRoot (s : Store) : ContextId × Store :=
  let (context, s) := s.newContext rootName none
  let s := rootNatives.foldl
    (fun s (name, lazy, role) => (s.defineNative context name lazy role).2) s
  let s := s.defineAll context (intrinsicTypes.map fun name => (name, .type name))
  (context, s.defineAll context rootConstants)

end Store

namespace Interpreter

/-- Makes a root context in which modules can be imported. -/
def makeRoot {ε : Type} : Computation ε ContextId := do
  let main ← allocate Store.newRoot
  change fun m => { m with root := some main }
  let _ ← allocate fun s => s.defineNative main "import" true .importModule
  return main

/-- Evaluates code in a context. -/
def eval (host : Host) (context : ContextId) (code : String) : Eval Value :=
  evaluateText (evaluateIn host) code context

/-- Makes an interpreter and evaluates a prelude in its root context. -/
def start (host : Host) (prelude : Option String) : Eval ContextId := do
  let main ← makeRoot
  match prelude with
  | some code =>
    let _ ← eval host main code
    return main
  | none => return main

/-! ## Outcomes -/

/-- What running code comes to. -/
abbrev Outcome (α : Type) := Except Fault α

/-- Goes through a computation that may fail and answers what it came to. -/
def attempt {ε α : Type} (x : Eval α) : Computation ε (Outcome α) := fun m =>
  let (outcome, m) := x m
  (.ok outcome, m)

/-- Adds a warning to the log. -/
def warn {ε : Type} (message : String) : Computation ε Unit :=
  change fun m =>
    if m.logThreshold ≤ LogLevel.warning.number then
      { m with log := m.log ++ [⟨.warning, message⟩] }
    else m

/-- Evaluates code; a fault is logged. -/
def run {ε : Type} (host : Host) (context : ContextId) (code : String) :
    Computation ε (Outcome Value) := do
  let outcome ← attempt (eval host context code)
  match outcome with
  | .ok _ => return outcome
  | .error e =>
    warn ("evaluation failed: " ++ e.message)
    return outcome

/-- What an outcome reports about a fault, nothing if there is none. -/
def report {α : Type} : Outcome α → String
  | .ok _ => ""
  | .error e => e.report

/-! ## Modules -/

/-- Loads a module from a source. -/
def load (host : Host) (name source : String) : Eval Module :=
  loadModule (evaluateIn host) name source none

/-- Loads a module from its file. -/
def loadFile (host : Host) (name : String) : NativeEval Module :=
  loadModuleFile (evaluateIn host) name

/-- Reloads a module from a source or its file; a fault is logged and leaves the earlier
bindings in place. -/
def reload {ε : Type} (host : Host) (name : String) (source : Option String) :
    Computation ε (Outcome Module) := do
  let outcome ← attempt (reloadModule (evaluateIn host) name source)
  match outcome with
  | .ok _ => return outcome
  | .error e =>
    warn ("reload of module " ++ name ++ " failed: " ++ e.message)
    return outcome

/-! ## Extensions by the host -/

/-- Binds a function of the host. -/
def defineNative {ε : Type} (main : ContextId) (name key : String) (lazy : Bool) :
    Computation ε Native :=
  allocate fun s => s.defineNative main name lazy (.host key)

/-- Binds a type of the host. -/
def defineType {ε : Type} (main : ContextId) (name : String) : Computation ε String := do
  changeStore fun s => s.define main name (.type name)
  return name

/-- The type of the host that a name stands for: the one it is bound to, or else a new one. -/
def typeFor {ε : Type} (main : ContextId) (name : String) : Computation ε String := do
  match ← askStore fun s => s.own? main name with
  | some (.type bound) => return bound
  | _ => defineType main name

/-- The type of an object of the host: the one that is asked for, or that of all such objects. -/
def objectTypeFor {ε : Type} (main : ContextId) : Option String → Computation ε String
  | some type => typeFor main type
  | none => return defaultObjectType

/-- Makes an object of the host known under a name, with a type if one is given. -/
def exposeObject {ε : Type} (main : ContextId) (name className : String) (handle : Nat)
    (type : Option String) : Computation ε HostObject := do
  let typeName ← objectTypeFor main type
  let object : HostObject := ⟨typeName, className, handle⟩
  change fun m => { m with objects := m.objects.set name object }
  changeStore fun s => s.define main name (.object object)
  return object

/-- Makes a new object of the host known under a name, with a type if one is given. -/
def registerObject {ε : Type} (main : ContextId) (name className : String)
    (type : Option String) : Computation ε HostObject := do
  let new ← allocate fun s => s.newObject (type.getD defaultObjectType) className
  exposeObject main name className new.handle type

end Interpreter

end DispatchLisp
