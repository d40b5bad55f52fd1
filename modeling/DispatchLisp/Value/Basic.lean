import DispatchLisp.Fault
import DispatchLisp.Number.Number
import DispatchLisp.Text.Literal
import DispatchLisp.Value.Native

/-!
# Value.Basic — values

A value is an atom, which never changes, or a reference to a list or dict in the store. Two
atoms are the same when they have the same value, functions, contexts and host objects when they
are the same object.
-/

namespace DispatchLisp

/-- The place of a list in the store. -/
structure ListId where
  index : Nat
deriving DecidableEq

/-- The place of a dict in the store. -/
structure DictId where
  index : Nat
deriving DecidableEq

/-- The place of a function in the store, and the name that it was made with. -/
structure FunctionId where
  index : Nat
  name : String
deriving DecidableEq

/-- The place of a context in the store, and the name that it was made with. -/
structure ContextId where
  index : Nat
  name : String
deriving DecidableEq

/-- An object of the host, with the type that it was registered under. -/
structure HostObject where
  typeName : String
  /-- what the host calls objects like it -/
  className : String
  /-- the object itself -/
  handle : Nat
deriving DecidableEq

/-- A value without parts that can change. -/
inductive Atom where
  | int (n : Int)
  | float (x : Binary64)
  | bool (b : Bool)
  | string (text : String)
  | symbol (name : String)
  | keyword (name : String)
  | nothing
  | type (name : String)
  | native (f : Native)
  | function (id : FunctionId)
  | object (o : HostObject)
  | context (id : ContextId)
deriving DecidableEq

/-- A value: an atom or a shared collection. -/
inductive Value where
  | atom (a : Atom)
  | list (id : ListId)
  | dict (id : DictId)
deriving DecidableEq

/-! ## Shorthands for atoms as values -/

namespace Value

@[match_pattern] abbrev int (n : Int) : Value := .atom (.int n)
@[match_pattern] abbrev float (x : Binary64) : Value := .atom (.float x)
@[match_pattern] abbrev bool (b : Bool) : Value := .atom (.bool b)
@[match_pattern] abbrev string (text : String) : Value := .atom (.string text)
@[match_pattern] abbrev symbol (name : String) : Value := .atom (.symbol name)
@[match_pattern] abbrev keyword (name : String) : Value := .atom (.keyword name)
@[match_pattern] abbrev nothing : Value := .atom .nothing
@[match_pattern] abbrev type (name : String) : Value := .atom (.type name)
@[match_pattern] abbrev native (f : Native) : Value := .atom (.native f)
@[match_pattern] abbrev function (id : FunctionId) : Value := .atom (.function id)
@[match_pattern] abbrev object (o : HostObject) : Value := .atom (.object o)
@[match_pattern] abbrev context (id : ContextId) : Value := .atom (.context id)

end Value

/-! ## Types -/

/-- The name of an atom's type. -/
def Atom.typeName : Atom → String
  | .int _ => "Int"
  | .float _ => "Float"
  | .bool _ => "Bool"
  | .string _ => "String"
  | .symbol _ => "Symbol"
  | .keyword _ => "Keyword"
  | .nothing => "NothingType"
  | .type _ => "DataType"
  | .native f => if f.lazy then "NativeFunctionB" else "NativeFunction"
  | .function _ => "Function"
  | .object o => o.typeName
  | .context _ => "Context"

/-- The name of a value's type. -/
def Value.typeName : Value → String
  | .atom a => a.typeName
  | .list _ => "List"
  | .dict _ => "Dict"

/-- The types that every root context binds. -/
def intrinsicTypes : List String :=
  ["Int", "Float", "Bool", "String", "Symbol", "Keyword", "NothingType", "List", "Dict",
   "DataType", "NativeFunction", "NativeFunctionB", "Function", "NativeObject", "Context"]

/-- The type of host objects that are registered without one. -/
def defaultObjectType : String := "NativeObject"

/-! ## Views -/

/-- The number that an atom is. -/
def Atom.number? : Atom → Option Number
  | .int n => some (.int n)
  | .float x => some (.float x)
  | _ => none

/-- The number that a value is. -/
def Value.number? : Value → Option Number
  | .atom a => a.number?
  | _ => none

/-- The name of the symbol that a value is. -/
def Value.symbol? : Value → Option String
  | .symbol name => some name
  | _ => none

/-- Only `false` and `Nothing` count as false. -/
def Value.truthy : Value → Bool
  | .bool b => b
  | .nothing => false
  | _ => true

/-- Whether a value can be called. -/
def Value.isCallable : Value → Bool
  | .native _ | .function _ => true
  | _ => false

/-! ## Text -/

/-- The name that a context without a name is shown under. -/
def ContextId.label (id : ContextId) : String :=
  if id.name.isEmpty then "anonymous" else id.name

/-- The text of an atom. -/
def Atom.render : Atom → String
  | .int n => toString n
  | .float x => x.render
  | .bool b => if b then "true" else "false"
  | .string text => StringLiteral.render text
  | .symbol name => name
  | .keyword name => ":" ++ name
  | .nothing => "Nothing"
  | .type name => name
  | .native _ => "native function"
  | .function id => "Function<" ++ id.name ++ ">"
  | .object o => o.typeName ++ "<" ++ o.className ++ ">"
  | .context id => "Context<" ++ id.label ++ ">"

/-! ## Sameness of atoms -/

/-- Whether two atoms are the same: numbers, texts, names and truth values by value, functions,
contexts and host objects by identity. -/
def Atom.same : Atom → Atom → Bool
  | .int m, .int n => m == n
  | .int m, .float y => (Number.int m).sameValue (.float y)
  | .float x, .int n => (Number.float x).sameValue (.int n)
  | .float x, .float y => (Number.float x).sameValue (.float y)
  | .bool a, .bool b => a == b
  | .string a, .string b => a == b
  | .symbol a, .symbol b => a == b
  | .keyword a, .keyword b => a == b
  | .nothing, .nothing => true
  | .type a, .type b => a == b
  | .native f, .native g => f.id == g.id
  | .function f, .function g => f.index == g.index
  | .object o, .object p => o.handle == p.handle
  | .context c, .context d => c.index == d.index
  | _, _ => false

/-- Whether two atoms are alike: one object, or the same. Unlike sameness this holds between
any atom and itself, also for one that is not a number. -/
def Atom.alike (a b : Atom) : Bool :=
  decide (a = b) || a.same b

end DispatchLisp
