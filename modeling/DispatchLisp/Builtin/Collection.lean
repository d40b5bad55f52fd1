import DispatchLisp.Collection.Positions
import DispatchLisp.Evaluation.Machine
import DispatchLisp.Signature

/-!
# Builtin.Collection — lists and dicts as values

Reading a collection by position or key fails outside it. Lists and dicts are shared: `set` and
`put` change them in place; everything else that answers a collection makes a new one.
-/

namespace DispatchLisp

namespace Store

/-- The element of a list at an index. -/
def getItem (s : Store) (id : ListId) (index : Int) : Except Fault Value :=
  let items := (s.list id).items
  match (position? items.length index).bind (items[·]?) with
  | some v => .ok v
  | none => .error (.outOfRange index items.length)

/-- The store after an element of a list has been replaced. -/
def setItem (s : Store) (id : ListId) (index : Int) (v : Value) : Except Fault Store :=
  let items := (s.list id).items
  match position? items.length index with
  | some n => .ok (s.setItems id (items.set n v))
  | none => .error (.outOfRange index items.length)

/-- The fault of a key that can change. -/
def mutableKey {α : Type} (s : Store) (key : Value) : Except Fault α := do
  let text ← s.render key
  .error (.mutableKey text)

/-- The value that a dict binds to a key. -/
def getKey (s : Store) (id : DictId) (key : Value) : Except Fault Value :=
  match key with
  | .atom a =>
    match (s.dict id).entries.get? Atom.alike a with
    | some v => .ok v
    | none => .error (.missingKey a.render)
  | _ => s.mutableKey key

/-- The store after a key of a dict has been bound. -/
def setKey (s : Store) (id : DictId) (key v : Value) : Except Fault Store :=
  match key with
  | .atom a => .ok (s.putEntry id a v)
  | _ => s.mutableKey key

/-- Whether a dict binds a key; it never binds one that can change. -/
def hasKey (s : Store) (id : DictId) (key : Value) : Bool :=
  match key with
  | .atom a => (s.dict id).entries.contains Atom.alike a
  | _ => false

/-- The entries that keys and values in turn make, put one after another. -/
def pairEntries (s : Store) (entries : Association Atom Value) :
    List Value → Except Fault (Association Atom Value)
  | .atom key :: v :: rest => s.pairEntries (entries.put Atom.alike key v) rest
  | key :: _ :: _ => s.mutableKey key
  | _ => .ok entries

/-- The joined elements of several values, all of which have to be lists. -/
def concatItems (s : Store) (name : String) : Nat → List Value → Except Fault (List Value)
  | _, [] => .ok []
  | position, v :: rest => do
    requireKind name v [.list] position
    let items ← s.concatItems name (position + 1) rest
    match v with
    | .list id => .ok ((s.list id).items ++ items)
    | _ => .ok items

end Store

/-- Makes a dict of keys and values in turn. -/
def makeDict (pairs : List Value) : Eval Value := do
  if pairs.length % 2 = 0 then
    let entries ← queryStore fun s => s.pairEntries [] pairs
    let id ← allocate fun s => s.newDict entries
    return .dict id
  else throw (.badShape .dictPairs)

/-- The element or value of a collection under an index or key. -/
def getBuiltin (args : List Value) : Eval Value := do
  check (requireArguments "get" args [[.list, .dict], [.any]])
  match args with
  | [.list id, key] =>
    check (requireKind "get" key [.int] 1)
    match key with
    | .int n => queryStore fun s => s.getItem id n
    | _ => return .nothing
  | [.dict id, key] => queryStore fun s => s.getKey id key
  | _ => return .nothing

/-- Replaces an element of a list in place and answers the list. -/
def setBuiltin (args : List Value) : Eval Value := do
  check (requireArguments "set" args [[.list], [.int], [.any]])
  match args with
  | [.list id, .int n, v] =>
    tryChange fun s => s.setItem id n v
    return .list id
  | _ => return .nothing

/-- Binds a key of a dict in place and answers the dict. -/
def putBuiltin (args : List Value) : Eval Value := do
  check (requireArguments "put" args [[.dict], [.any], [.any]])
  match args with
  | [.dict id, key, v] =>
    tryChange fun s => s.setKey id key v
    return .dict id
  | _ => return .nothing

/-- An element at a fixed index of the one list among the arguments. -/
def elementBuiltin (name : String) (index : Int) (args : List Value) : Eval Value := do
  check (requireArguments name args [[.list]])
  match args with
  | [.list id] => queryStore fun s => s.getItem id index
  | _ => return .nothing

/-- The number of elements, entries or characters. -/
def lengthBuiltin (args : List Value) : Eval Value := do
  check (requireArguments "len" args [[.list, .dict, .string]])
  match args with
  | [.list id] => return .int (← askStore fun s => (s.list id).items.length)
  | [.dict id] => return .int (← askStore fun s => (s.dict id).entries.length)
  | [.string text] => return .int text.length
  | _ => return .nothing

/-- The elements of a list between two positions, as a new list of the same kind. -/
def sliceBuiltin (args : List Value) : Eval Value := do
  check (requireArity "slice" args.length 2 (some 3))
  check (requireKinds "slice" 0 args [[.list], [.int], [.int]])
  match args with
  | [.list id, .int first] => cut id first none
  | [.list id, .int first, .int last] => cut id first (some last)
  | _ => return .nothing
where
  cut (id : ListId) (first : Int) (last : Option Int) : Eval Value := do
    let cell ← askStore fun s => s.list id
    makeList (slice cell.items first last) cell.evaluated

/-- The elements of several lists in one new list. -/
def concatBuiltin (args : List Value) : Eval Value := do
  let items ← queryStore fun s => s.concatItems "concat" 0 args
  makeList items true

/-- The keys of a dict in a new list. -/
def keysBuiltin (args : List Value) : Eval Value := do
  check (requireArguments "keys" args [[.dict]])
  match args with
  | [.dict id] =>
    let keys ← askStore fun s => (s.dict id).entries.keys
    makeList (keys.map .atom) true
  | _ => return .nothing

end DispatchLisp
