/-!
# Value.Native — functions that are not written in the language

A native function has an identity of its own, a name, and a role that says what it computes. A
lazy one receives its arguments as they are written.
-/

namespace DispatchLisp

/-- Natives that work on finished values. -/
inductive Builtin where
  | add | sub | mul | div | mod
  | eq | ne | lt | le | gt | ge
  | not
  | list | dict | get | set | put | first | last | len | slice | concat | keys
  | type | symbol | str
deriving DecidableEq

/-- Natives that call a function on every element of a list. -/
inductive Traversal where
  | map
  | filter
deriving DecidableEq

/-- Natives that decide themselves what to evaluate. -/
inductive SpecialForm where
  | ifForm | doForm | quoteForm | andForm | orForm | letForm | fnForm | defForm | defnForm
deriving DecidableEq

/-- The name that a native on finished values goes by, also in its messages. -/
def Builtin.name : Builtin → String
  | .add => "+"
  | .sub => "-"
  | .mul => "*"
  | .div => "/"
  | .mod => "mod"
  | .eq => "="
  | .ne => "!="
  | .lt => "<"
  | .le => "<="
  | .gt => ">"
  | .ge => ">="
  | .not => "not"
  | .list => "list"
  | .dict => "dict"
  | .get => "get"
  | .set => "set"
  | .put => "put"
  | .first => "first"
  | .last => "last"
  | .len => "len"
  | .slice => "slice"
  | .concat => "concat"
  | .keys => "keys"
  | .type => "type"
  | .symbol => "symbol"
  | .str => "str"

/-- The name of a traversal. -/
def Traversal.name : Traversal → String
  | .map => "map"
  | .filter => "filter"

/-- The name of a special form. -/
def SpecialForm.name : SpecialForm → String
  | .ifForm => "if"
  | .doForm => "do"
  | .quoteForm => "quote"
  | .andForm => "and"
  | .orForm => "or"
  | .letForm => "let"
  | .fnForm => "fn"
  | .defForm => "def"
  | .defnForm => "defn"

/-- What a native function computes. -/
inductive NativeRole where
  | builtin (b : Builtin)
  | traversal (t : Traversal)
  | form (f : SpecialForm)
  /-- brings the bindings of a module into a context -/
  | importModule
  /-- a function of the host, under the name by which the host knows it -/
  | host (key : String)
deriving DecidableEq

/-- A native function. -/
structure Native where
  /-- tells natives apart that agree in all else -/
  id : Nat
  name : String
  lazy : Bool
  role : NativeRole
deriving DecidableEq

/-- The special forms in the order in which a root context binds them. -/
def SpecialForm.all : List SpecialForm :=
  [.ifForm, .doForm, .quoteForm, .andForm, .orForm, .letForm, .fnForm, .defForm, .defnForm]

/-- The natives that a root context binds: name, whether lazy, and role, in order. -/
def rootNatives : List (String × Bool × NativeRole) :=
  SpecialForm.all.map (fun f => (f.name, true, .form f)) ++
  [.add, .sub, .mul, .div, .mod, .eq, .ne, .lt, .le, .gt, .ge, .not, .list, .dict, .get, .set,
    .put, .first, .last, .len, .slice, .concat].map eager ++
  [.map, .filter].map (fun t : Traversal => (t.name, false, .traversal t)) ++
  [.keys, .type, .symbol, .str].map eager
where
  eager (b : Builtin) : String × Bool × NativeRole := (b.name, false, .builtin b)

end DispatchLisp
