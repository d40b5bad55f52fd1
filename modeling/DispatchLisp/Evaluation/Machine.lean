import DispatchLisp.LogLevel
import DispatchLisp.Module.Disk
import DispatchLisp.Store.Equality
import DispatchLisp.Store.Part

/-!
# Evaluation.Machine — the state of a running program, and computations on it

A machine is a store, the modules that are loaded, the host objects that are known by name, a
disk to load modules from, and a log.
Computations keep what they have changed when they fail. Inside a native function host errors
can arise; outside only faults can.
-/

namespace DispatchLisp

/-- A loaded module: its context, the source that is in force, and the file it came from. -/
structure Module where
  name : String
  context : ContextId
  source : String
  path : Option Path

/-- The state of a running program. -/
structure Machine where
  store : Store
  /-- the context around every module -/
  root : Option ContextId
  modules : Table Module
  /-- the host objects that programs can name -/
  objects : Table HostObject
  disk : Disk
  /-- the least number of a log record that is kept -/
  logThreshold : Nat
  /-- the log, oldest record first -/
  log : List LogRecord

/-- The state before anything has been made. -/
def Machine.initial (disk : Disk) (logThreshold : Nat) : Machine :=
  ⟨.empty, none, [], [], disk, logThreshold, []⟩

/-! ## Computations -/

/-- A computation on a machine, which may end early. -/
def Computation (ε α : Type) : Type := Machine → Except ε α × Machine

namespace Computation

variable {ε ε' α β : Type}

/-- Answers a value and changes nothing. -/
@[inline] protected def pure (a : α) : Computation ε α := fun m => (.ok a, m)

/-- One computation after another, unless the first ends early. -/
@[inline] protected def bind (x : Computation ε α) (f : α → Computation ε β) : Computation ε β :=
  fun m =>
    match x m with
    | (.ok a, m) => f a m
    | (.error e, m) => (.error e, m)

instance : Monad (Computation ε) where
  pure := Computation.pure
  bind := Computation.bind

/-- Ends early. -/
@[inline] def fail (e : ε) : Computation ε α := fun m => (.error e, m)

/-- Goes on with a handler when a computation ends early; what it has changed stays. -/
@[inline] def handle (x : Computation ε α) (handler : ε → Computation ε α) : Computation ε α :=
  fun m =>
    match x m with
    | (.ok a, m) => (.ok a, m)
    | (.error e, m) => handler e m

instance : MonadExceptOf ε (Computation ε) where
  throw := fail
  tryCatch := handle

/-- The same computation with another reason for ending early. -/
@[inline] def mapError (f : ε → ε') (x : Computation ε α) : Computation ε' α := fun m =>
  match x m with
  | (.ok a, m) => (.ok a, m)
  | (.error e, m) => (.error (f e), m)

end Computation

/-- A computation that may end in a fault. -/
abbrev Eval := Computation Fault

/-- A computation inside a native function: it may end in a fault or a host error. -/
abbrev NativeEval := Computation Raised

/-- What ends an evaluation leaves every native around it as the same fault. -/
instance : MonadLift Eval NativeEval where
  monadLift x := x.mapError Raised.fault

/-- The border of an evaluation: whatever was raised leaves it as a fault. -/
def NativeEval.guarded {α : Type} (x : NativeEval α) : Eval α :=
  x.mapError Raised.toFault

/-- What evaluates an expression in a context. -/
abbrev Evaluator := Value → ContextId → Eval Value

/-! ## Steps -/

section Steps

variable {ε α : Type}

/-- Asks something of the machine. -/
def ask (f : Machine → α) : Computation ε α := fun m => (.ok (f m), m)

/-- Changes the machine. -/
def change (f : Machine → Machine) : Computation ε Unit := fun m => (.ok (), f m)

/-- Asks something of the store. -/
def askStore (f : Store → α) : Computation ε α := fun m => (.ok (f m.store), m)

/-- Asks something of the store that may be a fault. -/
def queryStore (f : Store → Except Fault α) : Eval α := fun m => (f m.store, m)

/-- Asks something of the store that may be a fault or a host error. -/
def queryNative (f : Store → Except Raised α) : NativeEval α := fun m => (f m.store, m)

/-- Ends with a fault unless a check succeeds. -/
def check (x : Except Fault α) : Eval α := fun m => (x, m)

/-- Changes the store. -/
def changeStore (f : Store → Store) : Computation ε Unit := fun m =>
  (.ok (), { m with store := f m.store })

/-- Changes the store unless that is a fault. -/
def tryChange (f : Store → Except Fault Store) : Eval Unit := fun m =>
  match f m.store with
  | .ok store => (.ok (), { m with store })
  | .error e => (.error e, m)

/-- Makes something in the store. -/
def allocate (f : Store → α × Store) : Computation ε α := fun m =>
  let (a, store) := f m.store
  (.ok a, { m with store })

/-- Makes a list value. -/
def makeList (items : List Value) (evaluated : Bool) : Computation ε Value := do
  let id ← allocate fun s => s.newList items evaluated
  return .list id

end Steps

/-- Looks at some parts now. -/
def lookAtAll {ε : Type} (parts : List Part) : Computation ε (List Value) :=
  askStore fun s => parts.map fun part => part s

/-- Ends with a host error. -/
def throwHost {α : Type} (kind : HostErrorKind) (text : String) : NativeEval α :=
  throw (.host ⟨kind, some text⟩)

/-- The text of a value. -/
def textOf (v : Value) : Eval String :=
  queryStore fun s => s.render v

/-! ## The log -/

/-- Adds a record to the log if records of its level are kept; only then its message is made. -/
def record (level : LogLevel) (message : Store → Except Fault String) : Eval Unit := do
  if (← ask Machine.logThreshold) ≤ level.number then
    let message ← queryStore message
    change fun m => { m with log := m.log ++ [⟨level, message⟩] }

end DispatchLisp
