import DispatchLisp.Interpreter
import DispatchLisp.Module.Geometry

/-!
# Embedding.Overview — contexts, functions and values as a host lists them

Lists of names are sorted. A value that contains itself has no text.
-/

namespace DispatchLisp

/-- Names with the texts of their values, if they have one. -/
abbrev BindingTexts := List (String × Option String)

/-- Entries in the order of their names. -/
def sortByName {α : Type} (entries : List (String × α)) : List (String × α) :=
  entries.mergeSort fun a b => decide (a.1 ≤ b.1)

/-- Names in order. -/
def sortNames (names : List String) : List String :=
  names.mergeSort fun a b => decide (a ≤ b)

namespace Store

/-- The texts of bindings in the order of their names. -/
def bindingTexts (s : Store) (table : Table Value) : BindingTexts :=
  sortByName (table.map fun (name, v) => (name, s.render? v))

/-- The texts of a context's own bindings. -/
def contextTexts (s : Store) (id : ContextId) : BindingTexts :=
  s.bindingTexts (s.context id).table

/-- The texts of a function's patterns. -/
def patternTexts (s : Store) (id : FunctionId) : List (Option String) :=
  (s.patterns id).map fun p => (s.renderPattern p).toOption

/-- The text of a value with the kind that it is of: a symbol is cited, and a context is shown
with all its bindings and those around it. -/
def describe (s : Store) (v : Value) : Except Fault String :=
  match v with
  | .symbol name => .ok ("Symbol(" ++ quoted name.toList ++ ")")
  | .context id => s.renderChain id
  | _ => s.renderTagged (Kind.ofValue v).name v

end Store

/-! ## Objects -/

/-- The objects that programs can name, as values. -/
def Machine.objectTable (m : Machine) : Table Value :=
  m.objects.map fun (name, o) => (name, .object o)

/-- The events of the object with a name. -/
def Machine.eventsOf (m : Machine) (name : String) : List Event :=
  match m.objects.get? name with
  | some o => m.store.events o
  | none => []

/-! ## What a root context starts with -/

/-- Whether two atoms look the same to a host: natives by name and laziness, all others by what
they are. -/
def Atom.looksLike : Atom → Atom → Bool
  | .native f, .native g => f.name == g.name && f.lazy == g.lazy
  | a, b => a == b

/-- What the root context of a new interpreter binds. -/
def startingBindings : Table Value :=
  let (_, m) := (Interpreter.makeRoot : Computation Fault ContextId) (.initial .bundled 0)
  match m.root with
  | some root => (m.store.context root).table
  | none => []

/-- The bindings that differ in looks from those of a new interpreter. -/
def changedBindings (table : Table Value) : Table Value :=
  table.filter fun (name, v) =>
    match v, startingBindings.get? name with
    | .atom a, some (.atom b) => !a.looksLike b
    | _, _ => true

end DispatchLisp
