import DispatchLisp.Reader.Error

/-!
# Fault — why evaluation fails

A fault is a cause; its kind and its wording are functions of the cause. A host error is what a
host function or a host operation inside a builtin raises; evaluation turns it into a fault.
Values that a message cites are rendered when the fault arises, because they may change later.
-/

namespace DispatchLisp

/-! ## Kinds -/

/-- The kinds of faults that a program or a host can tell apart. -/
inductive FaultKind where
  | parse
  | lookup
  | dispatch
  | type
  | arithmetic
  | arity
  | redefinition
  | runtime
  | other
deriving DecidableEq

/-- The name of a kind. -/
def FaultKind.name : FaultKind → String
  | .parse => "GlispParseError"
  | .lookup => "GlispLookupError"
  | .dispatch => "GlispDispatchError"
  | .type => "GlispTypeError"
  | .arithmetic => "GlispArithmeticError"
  | .arity => "GlispArityError"
  | .redefinition => "GlispRedefinitionError"
  | .runtime => "GlispRuntimeError"
  | .other => "GlispError"

/-- Every kind. -/
def FaultKind.all : List FaultKind :=
  [.parse, .lookup, .dispatch, .type, .arithmetic, .arity, .redefinition, .runtime, .other]

/-- The kind with a name. -/
def FaultKind.ofName? (name : String) : Option FaultKind :=
  FaultKind.all.find? fun kind => kind.name == name

/-! ## Causes -/

/-- The special forms and constructors whose argument count is fixed by their shape. -/
inductive Shape where
  | ifForm
  | quoteForm
  | defForm
  | defnForm
  | fnForm
  | letForm
  | letPairs
  | importForm
  | dictPairs
deriving DecidableEq

/-- What a form of that shape needs. -/
def Shape.requirement : Shape → String
  | .ifForm => "if requires a condition, a then-expression and an optional else-expression"
  | .quoteForm => "quote requires exactly 1 argument"
  | .defForm => "def requires exactly 2 arguments"
  | .defnForm => "defn requires a name and a parameter list"
  | .fnForm => "fn requires at least a parameter list"
  | .letForm => "let requires a binding list"
  | .letPairs => "let bindings must come in name/value pairs"
  | .importForm => "import requires a module name and an optional prefix"
  | .dictPairs => "dict requires key/value pairs"

/-- Why an evaluation fails. -/
inductive Fault where
  /-- the text cannot be read -/
  | unreadable (e : ReadError)
  /-- no context on the chain binds the name -/
  | undefinedSymbol (name : String)
  /-- the head of a call is no function -/
  | notFunction (head : String)
  /-- a call without a head -/
  | emptyCall
  /-- a position outside a list -/
  | outOfRange (index : Int) (length : Nat)
  /-- a key that a dict does not bind -/
  | missingKey (key : String)
  /-- a module without a file -/
  | moduleNotFound (name : String)
  /-- a module that is not loaded -/
  | moduleNotLoaded (name : String)
  /-- a module that has no file to be read again -/
  | moduleWithoutFile (name : String)
  /-- no pattern of a function fits the arguments -/
  | noPattern (function arguments : String)
  /-- `def` of something other than a symbol -/
  | undefinable (name : String)
  /-- `defn` of something other than a symbol -/
  | undefinableFunction (name : String)
  /-- a `let` name that is no symbol -/
  | unbindable (name : String)
  /-- a context key that is no symbol -/
  | badContextKey (key : String)
  /-- `let` with something other than a list of bindings -/
  | badBindings (bindings : String)
  /-- an argument of the wrong type -/
  | wrongArgument (name expected : String) (position : Nat) (got : String)
  /-- an argument that should be a function -/
  | functionExpected (name got : String)
  /-- operands that are not numbers -/
  | badOperands (operation left right : String)
  /-- operands that have no order -/
  | incomparable (operator left right : String)
  /-- a value that cannot be called -/
  | notCallable (value : String)
  /-- a key that could change -/
  | mutableKey (key : String)
  /-- a native function compared with something -/
  | nativeCompared (name : String)
  /-- a list joined with something other than a list -/
  | badConcat (value : String)
  /-- an import whose arguments are not strings -/
  | badImport
  /-- a divisor of zero -/
  | divisionByZero
  /-- a modulus of zero -/
  | moduloByZero
  /-- a form without the parts that it needs -/
  | badShape (shape : Shape)
  /-- a call with too few arguments -/
  | tooFewArguments (name : String) (least got : Nat)
  /-- a call with too many arguments -/
  | tooManyArguments (name : String) (most got : Nat)
  /-- a form that declares no parameter -/
  | badParameter (form : String)
  /-- something other than a parameter list -/
  | badParameterList (form : String)
  /-- a rest marker without its one name -/
  | badRest
  /-- a definition over a native function -/
  | nativeRedefined (name : String)
  /-- evaluation, rendering or comparison that does not end -/
  | tooDeep
  /-- a fault that a host raised, with wording of its own -/
  | raised (kind : FaultKind) (message : String) (offset : Option Nat)
deriving DecidableEq

namespace Fault

/-- The kind of a cause. -/
def kind : Fault → FaultKind
  | .unreadable _ => .parse
  | .undefinedSymbol _ | .notFunction _ | .emptyCall | .outOfRange _ _ | .missingKey _
  | .moduleNotFound _ | .moduleNotLoaded _ | .moduleWithoutFile _ => .lookup
  | .noPattern _ _ => .dispatch
  | .undefinable _ | .undefinableFunction _ | .unbindable _ | .badContextKey _ | .badBindings _
  | .wrongArgument _ _ _ _ | .functionExpected _ _ | .badOperands _ _ _ | .incomparable _ _ _
  | .notCallable _ | .mutableKey _ | .nativeCompared _ | .badConcat _ | .badImport => .type
  | .divisionByZero | .moduloByZero => .arithmetic
  | .badShape _ | .tooFewArguments _ _ _ | .tooManyArguments _ _ _ | .badParameter _
  | .badParameterList _ | .badRest => .arity
  | .nativeRedefined _ => .redefinition
  | .tooDeep => .runtime
  | .raised kind _ _ => kind

/-- The wording of a cause. -/
def message : Fault → String
  | .unreadable e => e.message
  | .undefinedSymbol name => "Undefined symbol " ++ name
  | .notFunction head => "Not a function: " ++ head
  | .emptyCall => "Cannot call an empty list"
  | .outOfRange index length =>
    "Index " ++ toString index ++ " out of range for list of length " ++ toString length
  | .missingKey key => "Key " ++ key ++ " not found in dict"
  | .moduleNotFound name => "Cannot find module '" ++ name ++ "' in GLISP_MODULES_PATH"
  | .moduleNotLoaded name => "Module '" ++ name ++ "' is not loaded"
  | .moduleWithoutFile name => "Module '" ++ name ++ "' was not loaded from a file"
  | .noPattern function arguments =>
    "No dispatch pattern of " ++ function ++ " matches the arguments " ++ arguments
  | .undefinable name => "Cannot define " ++ name ++ ", a symbol is required"
  | .undefinableFunction name => "Cannot define function " ++ name ++ ", a symbol is required"
  | .unbindable name => "Cannot bind " ++ name ++ " in let, a symbol is required"
  | .badContextKey key => "Cannot define " ++ key ++ " as a symbol"
  | .badBindings bindings => "let bindings must be a list, not " ++ bindings
  | .wrongArgument name expected position got =>
    name ++ " expects " ++ expected ++ " as argument " ++ toString position ++ ", got " ++ got
  | .functionExpected name got => name ++ " expects a function as argument 1, got " ++ got
  | .badOperands operation left right =>
    operation ++ " only works with Ints and Floats, not " ++ left ++ " and " ++ right
  | .incomparable operator left right =>
    operator ++ " cannot compare " ++ left ++ " with " ++ right
  | .notCallable value => "Cannot apply non-function " ++ value
  | .mutableKey key => "Mutable value " ++ key ++ " cannot be used as a dict key"
  | .nativeCompared name => "Native function " ++ name ++ " cannot be compared"
  | .badConcat value => "Cannot concatenate a list with " ++ value
  | .badImport => "import expects string arguments"
  | .divisionByZero => "Division by zero"
  | .moduloByZero => "Modulo by zero"
  | .badShape shape => shape.requirement
  | .tooFewArguments name least got =>
    name ++ " requires at least " ++ toString least ++ " argument(s), got " ++ toString got
  | .tooManyArguments name most got =>
    name ++ " accepts at most " ++ toString most ++ " argument(s), got " ++ toString got
  | .badParameter form => "Couldn't create parameter from " ++ form
  | .badParameterList form => "Parameter list expected, got " ++ form
  | .badRest => "Malformed parameter list: &rest must be followed by exactly one name"
  | .nativeRedefined name => "Cannot redefine native function " ++ name
  | .tooDeep => "Maximum evaluation depth exceeded"
  | .raised _ message offset => withOffset message offset

/-- The offset that a fault of kind `parse` carries. -/
def offset? : Fault → Option Nat
  | .unreadable e => e.offset
  | .raised _ _ offset => offset
  | _ => none

/-- The kind and the wording in one line. -/
def report (f : Fault) : String :=
  f.kind.name ++ ": " ++ f.message

end Fault

/-! ## Host errors -/

/-- The classes of host errors. -/
inductive HostErrorKind where
  | zeroDivision
  | overflow
  | floatingPoint
  | arithmetic
  | type
  | value
  | unicode
  | index
  | key
  | recursion
  | stopIteration
  | runtime
  | other (name : String)
deriving DecidableEq

/-- The name of a class of host errors. -/
def HostErrorKind.name : HostErrorKind → String
  | .zeroDivision => "ZeroDivisionError"
  | .overflow => "OverflowError"
  | .floatingPoint => "FloatingPointError"
  | .arithmetic => "ArithmeticError"
  | .type => "TypeError"
  | .value => "ValueError"
  | .unicode => "UnicodeError"
  | .index => "IndexError"
  | .key => "KeyError"
  | .recursion => "RecursionError"
  | .stopIteration => "StopIteration"
  | .runtime => "RuntimeError"
  | .other name => name

/-- The class of host errors with a name; operating system errors have three names. -/
def HostErrorKind.ofName (name : String) : HostErrorKind :=
  let name := if name = "IOError" || name = "EnvironmentError" then "OSError" else name
  ([.zeroDivision, .overflow, .floatingPoint, .arithmetic, .type, .value, .unicode, .index, .key,
    .recursion, .stopIteration, .runtime].find? fun kind => kind.name == name).getD (.other name)

/-- An error of the host: its class and its one argument, if it has one. -/
structure HostError where
  kind : HostErrorKind
  argument : Option String
deriving DecidableEq

namespace HostError

/-- A position outside a sequence. -/
def outOfRange : HostError := ⟨.index, some "list index out of range"⟩

/-- A value that a search does not find. -/
def absent : HostError := ⟨.value, none⟩

/-- A walk that would never move on. -/
def zeroStep : HostError := ⟨.value, some "slice step cannot be zero"⟩

/-- The text of a host error: its argument, which a missing key is cited as. -/
def text (e : HostError) : String :=
  match e.argument with
  | none => ""
  | some argument => if e.kind = .key then quoted argument.toList else argument

/-- The fault that a host error becomes at the border of an evaluation. -/
def toFault (e : HostError) : Fault :=
  match e.kind with
  | .zeroDivision => .divisionByZero
  | .overflow | .floatingPoint | .arithmetic => .raised .arithmetic e.text none
  | .type | .value | .unicode => .raised .type e.text none
  | .index | .key => .raised .lookup e.text none
  | .recursion => .tooDeep
  | .stopIteration | .runtime | .other _ =>
    .raised .runtime (e.kind.name ++ ": " ++ e.text) none

end HostError

/-- What can end a host function early: a fault of the language or a host error. -/
inductive Raised where
  | fault (f : Fault)
  | host (e : HostError)
deriving DecidableEq

/-- Everything raised leaves an evaluation as a fault; a fault leaves it unchanged. -/
def Raised.toFault : Raised → Fault
  | .fault f => f
  | .host e => e.toFault

/-- What a host raises under the name of a class and with an argument or none: a fault if the
name is that of a kind of faults, a host error otherwise. -/
def Raised.ofName (name : String) (argument : Option String) : Raised :=
  match FaultKind.ofName? name with
  | some kind => .fault (.raised kind (argument.getD "") none)
  | none => .host ⟨.ofName name, argument⟩

end DispatchLisp
