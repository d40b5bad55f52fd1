import DispatchLisp.Proofs.Context.Root

/-!
# Proofs.Session — the states that an interpreter can reach

A host makes an interpreter and then asks things of it, one after another and in any order. A
request that fails leaves a state behind too, and the session goes on from there.
-/

namespace DispatchLisp

/-- What a host can ask of an interpreter, or do to the disk that modules are loaded from. -/
inductive Request where
  | eval (context : ContextId) (code : String)
  | run (context : ContextId) (code : String)
  | load (name source : String)
  | loadFile (name : String)
  | reload (name : String) (source : Option String)
  | importModule (context : ContextId) (name : String) (qualifier : Option String)
  | defineNative (name key : String) (lazy : Bool)
  | defineType (name : String)
  | registerObject (name className : String) (type : Option String)
  | changeDisk (disk : Disk)

namespace Request

/-- Whether the context that a request names is there. -/
def Allowed (s : Store) : Request → Prop
  | eval context _ => s.HasContext context
  | run context _ => s.HasContext context
  | importModule context _ _ => s.HasContext context
  | _ => True

/-- The state that a request leaves behind. -/
def perform (host : Host) (main : ContextId) (m : Machine) : Request → Machine
  | eval context code => (Interpreter.eval host context code m).2
  | run context code => ((Interpreter.run host context code : Eval _) m).2
  | load name source => (Interpreter.load host name source m).2
  | loadFile name => (Interpreter.loadFile host name m).2
  | reload name source => ((Interpreter.reload host name source : Eval _) m).2
  | importModule context name qualifier =>
    (DispatchLisp.importModule (evaluateIn host) context name qualifier m).2
  | defineNative name key lazy => ((Interpreter.defineNative main name key lazy : Eval _) m).2
  | defineType name => ((Interpreter.defineType main name : Eval _) m).2
  | registerObject name className type =>
    ((Interpreter.registerObject main name className type : Eval _) m).2
  | changeDisk disk => { m with disk }

end Request

/-- Where the root context of a new interpreter stands. -/
def firstRoot : ContextId := ⟨0, rootName⟩

/-! ## The store of a new interpreter -/

/-- The store of a new interpreter. -/
def Store.first : Store :=
  (Store.empty.newRoot.2.defineNative firstRoot "import" true .importModule).2

theorem Store.size_first : Store.first.contexts.size = 1 := by
  decide +kernel

/-- The root context is the only one in it. -/
theorem Store.hasContext_first_iff {d : ContextId} :
    Store.first.HasContext d ↔ d.index = firstRoot.index := by
  rw [HasContext, size_first]
  exact Nat.lt_one_iff

theorem Store.hasContext_first : Store.first.HasContext firstRoot :=
  hasContext_first_iff.mpr rfl

theorem Store.hasContext_firstRoot : Store.empty.newRoot.2.HasContext firstRoot := by
  unfold HasContext
  decide +kernel

theorem Store.own?_first :
    ∃ id, ∀ name, Store.first.own? firstRoot name =
      if "import" = name then some (.native ⟨id, "import", true, .importModule⟩)
      else Store.empty.newRoot.2.own? firstRoot name :=
  own?_defineNative hasContext_firstRoot "import" true .importModule

/-- A new interpreter has an empty table of objects, and nothing but a root context in its store. -/
theorem start_eq (host : Host) (disk : Disk) (logThreshold : Nat) :
    Interpreter.start host none (.initial disk logThreshold) = (.ok firstRoot,
      { Machine.initial disk logThreshold with store := .first, root := some firstRoot }) :=
  rfl

/-! ## States that are reached -/

/-- The states that an interpreter with a root context can reach. -/
inductive Session (host : Host) (main : ContextId) : Machine → Prop where
  | start {disk : Disk} {logThreshold : Nat} {prelude : Option String} {m : Machine} :
      Interpreter.start host prelude (.initial disk logThreshold) = (.ok main, m) →
      Session host main m
  | step {m : Machine} (request : Request) :
      Session host main m → request.Allowed m.store →
      Session host main (request.perform host main m)

/-- The state of an interpreter that has just been made without a prelude, with no modules on its
disk. -/
def newSession (host : Host) : Machine :=
  (Interpreter.start host none (.initial .empty 30)).2

/-- A new interpreter without a prelude. -/
theorem Session.new (host : Host) (disk : Disk) (logThreshold : Nat) :
    Session host firstRoot (Interpreter.start host none (.initial disk logThreshold)).2 :=
  @Session.start host firstRoot disk logThreshold none _ rfl

end DispatchLisp
