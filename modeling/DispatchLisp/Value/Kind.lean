import DispatchLisp.Value.Basic

/-!
# Value.Kind — the kinds of values that a native may ask for

A kind is a variant of values or a family of variants. Unlike a type it cannot be extended by
the host, and every host object is of the kind `NativeObject`.
-/

namespace DispatchLisp

/-- A kind of values. -/
inductive Kind where
  | int | float | number | bool | string | symbol | keyword | nothing | list | dict | type
  | native | lazyNative | function | object | context | any
deriving DecidableEq

namespace Kind

/-- The name of a kind. -/
def name : Kind → String
  | .int => "Int"
  | .float => "Float"
  | .number => "Number"
  | .bool => "Bool"
  | .string => "String"
  | .symbol => "Symbol"
  | .keyword => "Keyword"
  | .nothing => "NothingType"
  | .list => "List"
  | .dict => "Dict"
  | .type => "DataType"
  | .native => "NativeFunction"
  | .lazyNative => "NativeFunctionB"
  | .function => "Function"
  | .object => "NativeObject"
  | .context => "Context"
  | .any => "Value"

/-- Every kind. -/
def all : List Kind :=
  [.int, .float, .number, .bool, .string, .symbol, .keyword, .nothing, .list, .dict, .type,
   .native, .lazyNative, .function, .object, .context, .any]

/-- The kind with a name. -/
def ofName? (name : String) : Option Kind :=
  all.find? fun kind => kind.name == name

/-- The narrowest kind of a value. -/
def ofValue : Value → Kind
  | .int _ => .int
  | .float _ => .float
  | .bool _ => .bool
  | .string _ => .string
  | .symbol _ => .symbol
  | .keyword _ => .keyword
  | .nothing => .nothing
  | .type _ => .type
  | .native f => if f.lazy then .lazyNative else .native
  | .function _ => .function
  | .object _ => .object
  | .context _ => .context
  | .list _ => .list
  | .dict _ => .dict

/-- Whether one kind includes another. -/
def includes : Kind → Kind → Bool
  | .any, _ => true
  | .number, .int | .number, .float => true
  | .native, .lazyNative => true
  | wide, narrow => wide == narrow

/-- Whether a value is of a kind. -/
def accepts (kind : Kind) (v : Value) : Bool :=
  kind.includes (ofValue v)

end Kind

end DispatchLisp
