import DispatchLisp.Builtin.Collection

/-!
# Embedding.Blueprint — values that a host hands in

A blueprint says how to make a value: new functions, objects, contexts and collections are made
each time, and a reference stands for a value that is there already.
-/

namespace DispatchLisp

/-- How to make a value. -/
inductive Blueprint where
  /-- an atom that is known by its value -/
  | atom (a : Atom)
  /-- a keyword, whose name may be written with its colon -/
  | keyword (name : String)
  | list (evaluated : Bool) (items : List Blueprint)
  /-- keys and values in turn -/
  | dict (pairs : List Blueprint)
  /-- a native that counts its arguments -/
  | native (name : String) (lazy : Bool)
  /-- a function without patterns -/
  | function (name : String)
  | object (type : Option String)
  /-- a context without bindings and without a parent -/
  | context (name : String)
  /-- one of the values that are there already -/
  | ref (index : Nat)
deriving Inhabited

namespace Blueprint

/-- What the host calls the objects that it makes. -/
def objectClass : String := "Handle"

/-- The key of the host function that counts its arguments. -/
def countKey : String := "count"

/-- The name of a keyword without its colon. -/
def keywordName (name : String) : String :=
  match name.toList with
  | ':' :: rest => String.ofList rest
  | _ => name

mutual

/-- Makes a value, given the values that are there already. -/
def build (known : List Value) : Blueprint → Eval Value
  | .atom (.float x) => allocate fun s => s.newFloat x
  | .atom a => return .atom a
  | .keyword name => return .keyword (keywordName name)
  | .list evaluated items => do
    let values ← buildAll known items
    makeList values evaluated
  | .dict pairs => do
    let values ← buildAll known pairs
    let entries ← queryStore fun s => s.pairEntries [] values
    let id ← allocate fun s => s.newDict entries
    return .dict id
  | .native name lazy => do
    let f ← allocate fun s => s.newNative name lazy (.host countKey)
    return .native f
  | .function name => do
    let id ← allocate fun s => s.newFunction name []
    return .function id
  | .object type => do
    let o ← allocate fun s => s.newObject (type.getD defaultObjectType) objectClass
    return .object o
  | .context name => do
    let id ← allocate fun s => s.newContext name none
    return .context id
  | .ref index => return (known[index]?).getD .nothing

/-- Makes several values in order. -/
def buildAll (known : List Value) : List Blueprint → Eval (List Value)
  | [] => return []
  | item :: items => do
    let v ← build known item
    let vs ← buildAll known items
    return v :: vs

end

end Blueprint

end DispatchLisp
