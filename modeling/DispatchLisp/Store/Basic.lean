import DispatchLisp.Association
import DispatchLisp.Dispatch.Pattern
import DispatchLisp.Form

/-!
# Store.Basic — everything that can change

Lists, dicts, functions and contexts are shared: values refer to their places in a store.
Allocation gives a new place and leaves every other place as it was; an update changes one place.
-/

namespace DispatchLisp

/-- A list: its elements, and whether it is a finished collection rather than code. -/
structure ListCell where
  items : List Value
  evaluated : Bool

/-- A dict: its entries, whose keys are atoms. -/
structure DictCell where
  entries : Association Atom Value

/-- The names that an import brought into a context from a source, under a qualifier. -/
structure ImportRecord where
  source : ContextId
  qualifier : String
  names : List String

/-- The qualifiers under which a context imports another. -/
structure Usage where
  importer : ContextId
  qualifiers : List String

/-- An import: who made it, from where, and under which qualifier. -/
structure Import where
  importer : ContextId
  source : ContextId
  qualifier : String
deriving DecidableEq

/-- A context: its own bindings, the context around it, what it imports, and who imports it. -/
structure ContextCell where
  parent : Option ContextId
  table : Table Value
  imports : List ImportRecord
  usages : List Usage

/-- An event that a host object has received: a text and the rendering of a value. -/
structure Event where
  text : String
  value : String

/-- The places of everything that can change. -/
structure Store where
  lists : Array ListCell
  dicts : Array DictCell
  functions : Array (List Pattern)
  contexts : Array ContextCell
  /-- the events of each host object -/
  objects : Array (List Event)
  /-- how many natives have been made -/
  natives : Nat
  /-- how many doubles that are not numbers have been made -/
  nans : Nat
  /-- the imports that have been made, oldest first; a record for statements about runs, which no
  computation reads -/
  history : List Import

namespace Store

/-- The store in which nothing has been made. -/
def empty : Store := ⟨#[], #[], #[], #[], #[], 0, 0, []⟩

/-! ## Lists -/

/-- The list at a place. -/
def list (s : Store) (id : ListId) : ListCell :=
  s.lists[id.index]?.getD ⟨[], true⟩

/-- Makes a list. -/
def newList (s : Store) (items : List Value) (evaluated : Bool) : ListId × Store :=
  (⟨s.lists.size⟩, { s with lists := s.lists.push ⟨items, evaluated⟩ })

/-- Replaces the elements of a list. -/
def setItems (s : Store) (id : ListId) (items : List Value) : Store :=
  { s with lists := s.lists.modify id.index fun cell => { cell with items } }

/-! ## Dicts -/

/-- The dict at a place. -/
def dict (s : Store) (id : DictId) : DictCell :=
  s.dicts[id.index]?.getD ⟨[]⟩

/-- Makes a dict. -/
def newDict (s : Store) (entries : Association Atom Value) : DictId × Store :=
  (⟨s.dicts.size⟩, { s with dicts := s.dicts.push ⟨entries⟩ })

/-- Binds a key in a dict. -/
def putEntry (s : Store) (id : DictId) (key : Atom) (value : Value) : Store :=
  { s with dicts := s.dicts.modify id.index fun cell =>
      { cell with entries := cell.entries.put Atom.alike key value } }

/-! ## Functions -/

/-- The patterns of a function. -/
def patterns (s : Store) (id : FunctionId) : List Pattern :=
  s.functions[id.index]?.getD []

/-- Makes a function. -/
def newFunction (s : Store) (name : String) (patterns : List Pattern) : FunctionId × Store :=
  (⟨s.functions.size, name⟩, { s with functions := s.functions.push patterns })

/-- Adds a pattern to a function. -/
def extend (s : Store) (id : FunctionId) (p : Pattern) : Store :=
  { s with functions := s.functions.modify id.index (addPattern p) }

/-! ## Contexts -/

/-- The context at a place. -/
def context (s : Store) (id : ContextId) : ContextCell :=
  s.contexts[id.index]?.getD ⟨none, [], [], []⟩

/-- Makes a context without bindings. -/
def newContext (s : Store) (name : String) (parent : Option ContextId) : ContextId × Store :=
  (⟨s.contexts.size, name⟩, { s with contexts := s.contexts.push ⟨parent, [], [], []⟩ })

/-- Changes a context. -/
def updateContext (s : Store) (id : ContextId) (f : ContextCell → ContextCell) : Store :=
  { s with contexts := s.contexts.modify id.index f }

/-! ## Doubles, natives and host objects -/

/-- Makes a value of a double; each one that is not a number gets a mark of its own. -/
def newFloat (s : Store) : Binary64 → Value × Store
  | .nan _ => (.float (.nan (s.nans + 1)), { s with nans := s.nans + 1 })
  | x => (.float x, s)

/-- Makes a native function. -/
def newNative (s : Store) (name : String) (lazy : Bool) (role : NativeRole) : Native × Store :=
  (⟨s.natives, name, lazy, role⟩, { s with natives := s.natives + 1 })

/-- Makes a host object without events. -/
def newObject (s : Store) (typeName className : String) : HostObject × Store :=
  (⟨typeName, className, s.objects.size⟩, { s with objects := s.objects.push [] })

/-- The events of a host object. -/
def events (s : Store) (o : HostObject) : List Event :=
  s.objects[o.handle]?.getD []

/-- Adds an event to a host object. -/
def addEvent (s : Store) (o : HostObject) (e : Event) : Store :=
  { s with objects := s.objects.modify o.handle (· ++ [e]) }

/-! ## Code -/

mutual

/-- Makes the value of a form: an atom, or an unevaluated list of the values of its parts. -/
def ofForm (s : Store) : Form → Value × Store
  | .int n => (.int n, s)
  | .float x => (.float x, s)
  | .string text => (.string text, s)
  | .keyword name => (.keyword name, s)
  | .symbol name => (.symbol name, s)
  | .list items =>
    let (values, s) := ofForms s items
    let (id, s) := s.newList values false
    (.list id, s)

/-- Makes the values of several forms, in order. -/
def ofForms (s : Store) : List Form → List Value × Store
  | [] => ([], s)
  | item :: items =>
    let (value, s) := ofForm s item
    let (values, s) := ofForms s items
    (value :: values, s)

end

end Store

end DispatchLisp
