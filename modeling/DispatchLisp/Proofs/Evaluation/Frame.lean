import DispatchLisp.Embedding.Natives
import DispatchLisp.Evaluation.Evaluate
import DispatchLisp.Proofs.Association
import DispatchLisp.Proofs.Context.Lookup
import DispatchLisp.Proofs.Evaluation.Keeps

/-!
# Proofs.Evaluation.Frame — one induction through the evaluator

What an evaluation does to the machine depends on the context that it runs in. A relation between
states, given such a context, is a *frame* when it holds of the few steps that evaluation is made
of: changing values, making or extending a function, binding names in the context, working in a new
context, registering a module that was loaded, and importing a registered one. Every evaluation
keeps every frame (`Frame.evaluate`), so a property of evaluation is proved by checking those steps.
-/

namespace DispatchLisp

/-- The machine with a new context, as an evaluation finds it that runs there. -/
def Machine.inNewContext (m : Machine) (name : String) (parent : Option ContextId) : Machine :=
  { m with store := (m.store.newContext name parent).2 }

/-- The context that is made next. -/
def Machine.nextContext (m : Machine) (name : String) : ContextId :=
  ⟨m.store.contexts.size, name⟩

/-- Whether a pattern is made in a context from a written parameter list. -/
structure Pattern.MadeIn (p : Pattern) (c : ContextId) : Prop where
  context : p.context = c
  declared : ∃ (s : Store) (form : Value), s.declareParameters c form = .ok p.parameters

/-- What an evaluation in a context does to functions: it makes one with a single pattern or one
with a pattern more than another has, or it adds a pattern to one that the context itself binds. -/
inductive FunctionStep (c : ContextId) (s : Store) : Store → Prop where
  | make (label : String) {p : Pattern} : p.MadeIn c → FunctionStep c s (s.newFunction label [p]).2
  | copy (label : String) (id : FunctionId) {p : Pattern} : p.MadeIn c →
      FunctionStep c s (s.newFunction label (addPattern p (s.patterns id))).2
  | extend (name : String) {id : FunctionId} {p : Pattern} : p.MadeIn c →
      s.own? c name = some (.function id) → FunctionStep c s (s.extend id p)

theorem FunctionStep.contexts {c : ContextId} {s s' : Store} (h : FunctionStep c s s') :
    s'.contexts = s.contexts := by
  cases h <;> rfl

theorem FunctionStep.history {c : ContextId} {s s' : Store} (h : FunctionStep c s s') :
    s'.history = s.history := by
  cases h <;> rfl

/-- Relations between the states before and after an evaluation in a context that hold of the
steps evaluation is made of. -/
structure Frame (F : ContextId → Machine → Machine → Prop) : Prop where
  accumulates : ∀ c, Accumulates (F c)
  ofQuiet : ∀ c m m', Quiet m m' → F c m m'
  functions : ∀ c m store, FunctionStep c m.store store → F c m { m with store }
  defineAll : ∀ c m entries, F c m { m with store := m.store.defineAll c entries }
  inside : ∀ c m name parent m',
    F (m.nextContext name) (m.inNewContext name parent) m' → F c m m'
  loaded : ∀ c m name source path m', m.modules.get? name = none →
    F (m.nextContext name) (m.inNewContext name m.root) m' →
    F c m { m' with modules := m'.modules.set name ⟨name, m.nextContext name, source, path⟩ }
  imported : ∀ c m name module qualifier, m.modules.get? name = some module →
    F c m { m with store := m.store.importFrom c module.context qualifier }

/-- Whether every evaluation by an evaluator keeps a frame. -/
def Confines (F : ContextId → Machine → Machine → Prop) (ev : Evaluator) : Prop :=
  ∀ expr context, Keeps (F context) (ev expr context)

/-- Whether the functions of a host keep a frame when the evaluator they are given does. -/
def Host.Respects (host : Host) (F : ContextId → Machine → Machine → Prop) : Prop :=
  ∀ key ev context args, Confines F ev → Keeps (F context) (host.call key ev context args)

theorem moduleNamed_eq {ε : Type} (name : String) (m : Machine) :
    (moduleNamed? name : Computation ε (Option Module)) m = (.ok (m.modules.get? name), m) :=
  rfl

/-- Making a pattern leaves contexts and functions alone, also when it fails. -/
theorem quiet_makePattern {c : ContextId} (parameters : Value) (forms : List Value) :
    Keeps Quiet (makePattern c parameters forms) := by
  refine quiet.bind (quiet.queryStore _) fun declared => quiet.bind ?_ fun body => quiet.pure _
  unfold makeBody
  split
  · exact quiet.pure _
  · exact quiet.pure _
  · exact quiet_makeList _ _

namespace Frame

variable {ε α : Type} {F : ContextId → Machine → Machine → Prop} {ev : Evaluator} {c : ContextId}

theorem quietly (hF : Frame F) {x : Computation ε α} (hx : Keeps Quiet x) : Keeps (F c) x :=
  hx.mono (hF.ofQuiet c)

theorem define (hF : Frame F) (name : String) (v : Value) :
    Keeps (F c) (changeStore fun s => s.define c name v : Computation ε Unit) :=
  fun m => hF.defineAll c m [(name, v)]

/-! ## Special forms -/

theorem evaluateSequence (hF : Frame F) (hev : Confines F ev) (result : Value)
    (parts : List Part) : Keeps (F c) (evaluateSequence ev c result parts) := by
  have h := hF.accumulates c
  induction parts generalizing result with
  | nil => exact h.pure _
  | cons part rest ih =>
      exact h.bind (h.askStore _) fun expr => h.bind (hev expr c) fun v => ih v

theorem evaluateUntil (hF : Frame F) (hev : Confines F ev) (stop : Bool) (result : Value)
    (parts : List Part) : Keeps (F c) (evaluateUntil ev c stop result parts) := by
  have h := hF.accumulates c
  induction parts generalizing result with
  | nil => exact h.pure _
  | cons part rest ih =>
      refine h.bind (h.askStore _) fun expr => h.bind (hev expr c) fun v => ?_
      split
      · exact h.pure _
      · exact ih v

theorem evaluatePart (hF : Frame F) (hev : Confines F ev) (part : Part) :
    Keeps (F c) (askStore part >>= fun expr => ev expr c) :=
  (hF.accumulates c).bind ((hF.accumulates c).askStore _) fun expr => hev expr c

theorem choose (hF : Frame F) (hev : Confines F ev) (condition first : Part)
    (second : Option Part) : Keeps (F c) (evaluateIf.choose ev c condition first second) := by
  have h := hF.accumulates c
  refine h.bind (h.askStore _) fun expr => h.bind (hev expr c) fun v => ?_
  split
  · exact hF.evaluatePart hev first
  · split
    · exact hF.evaluatePart hev _
    · exact h.pure _

theorem evaluateIf (hF : Frame F) (hev : Confines F ev) (parts : List Part) :
    Keeps (F c) (evaluateIf ev c parts) := by
  unfold DispatchLisp.evaluateIf
  split
  · exact hF.choose hev _ _ _
  · exact hF.choose hev _ _ _
  · exact (hF.accumulates c).throw _

theorem evaluateQuote (hF : Frame F) (args : List Value) : Keeps (F c) (evaluateQuote args) := by
  unfold DispatchLisp.evaluateQuote
  split
  · exact (hF.accumulates c).pure _
  · exact (hF.accumulates c).throw _

theorem throwText (hF : Frame F) (v : Value) (f : String → Fault) :
    Keeps (F c) (textOf v >>= fun text => throw (f text) : Eval α) :=
  (hF.accumulates c).bind (hF.quietly (quiet_textOf v)) fun _ => (hF.accumulates c).throw _

theorem evaluateDef (hF : Frame F) (hev : Confines F ev) (args : List Value) :
    Keeps (F c) (evaluateDef ev c args) := by
  have h := hF.accumulates c
  unfold DispatchLisp.evaluateDef
  split
  · split
    · exact h.bind (hev _ c) fun v => h.bind (hF.define _ v) fun _ => h.pure _
    · exact hF.throwText _ _
  · exact h.throw _

theorem bindPairs (hF : Frame F) (hev : Confines F ev) :
    (parts : List Part) → Keeps (F c) (bindPairs ev c parts)
  | [] => (hF.accumulates c).pure _
  | [_] => (hF.accumulates c).pure _
  | name :: value :: rest => by
      have h := hF.accumulates c
      refine h.bind (h.askStore _) fun target => h.bind (h.askStore _) fun expr => ?_
      split
      · refine h.bind (hev expr c) fun v => h.bind (hF.define _ v) fun _ => ?_
        exact bindPairs hF hev rest
      · exact hF.throwText _ _

/-- A form that works in a new context keeps whatever the work there makes of the states. -/
theorem keeps_inside {R : Machine → Machine → Prop} {name : String} {parent : Option ContextId}
    (hin : ∀ m m', F (m.nextContext name) (m.inNewContext name parent) m' → R m m')
    {x : ContextId → Computation ε α} (hx : ∀ d, Keeps (F d) (x d)) :
    Keeps R (allocate (fun s => s.newContext name parent) >>= x) :=
  fun m => hin m _ (hx (m.nextContext name) (m.inNewContext name parent))

/-- A `let` form only ever works in a new context. -/
theorem keeps_evaluateLet (hF : Frame F) (hev : Confines F ev) {R : Machine → Machine → Prop}
    (h : Accumulates R)
    (hin : ∀ m m' name parent, F (m.nextContext name) (m.inNewContext name parent) m' → R m m')
    (parts : List Part) : Keeps R (evaluateLet ev c parts) := by
  unfold DispatchLisp.evaluateLet
  split
  · exact h.throw _
  · refine h.bind (h.askStore _) fun bindings => ?_
    split
    · refine h.bind (h.askStore _) fun pairs => ?_
      split
      · refine keeps_inside (fun m m' => hin m m' _ _) fun d => ?_
        have hd := hF.accumulates d
        refine hd.bind (hF.bindPairs hev pairs) fun _ => ?_
        exact hd.bind (hd.lookAtAll _) fun forms => hF.evaluateSequence hev _ _
      · exact h.throw _
    · exact h.bind (h.queryStore _) fun _ => h.throw _

theorem evaluateLet (hF : Frame F) (hev : Confines F ev) (parts : List Part) :
    Keeps (F c) (evaluateLet ev c parts) :=
  hF.keeps_evaluateLet hev (hF.accumulates c)
    (fun m m' name parent => hF.inside c m name parent m') parts

theorem makePattern (hF : Frame F) (parameters : Value) (forms : List Value) :
    Keeps (F c) (makePattern c parameters forms) :=
  hF.quietly (quiet_makePattern parameters forms)

theorem madeIn_of_makePattern {parameters : Value} {forms : List Value} {p : Pattern}
    {m m' : Machine} (h : DispatchLisp.makePattern c parameters forms m = (.ok p, m')) :
    p.MadeIn c := by
  rcases Computation.bind_eq_ok h with ⟨declared, m1, hdeclared, h⟩
  rcases Computation.bind_eq_ok h with ⟨body, m2, _, h⟩
  cases h
  exact ⟨rfl, m.store, parameters, congrArg Prod.fst hdeclared⟩

/-- After a pattern has been made there is work with it that may depend on how it was made. -/
theorem withPattern (hF : Frame F) (parameters : Value) (forms : List Value)
    {f : Pattern → Eval α} (hf : ∀ p, p.MadeIn c → Keeps (F c) (f p)) :
    Keeps (F c) (DispatchLisp.makePattern c parameters forms >>= f) := by
  intro m
  refine (hF.accumulates c).bind_at (hF.makePattern _ _ m) fun p m' hp => ?_
  exact hf p (madeIn_of_makePattern hp) m'

theorem evaluateFn (hF : Frame F) (args : List Value) : Keeps (F c) (evaluateFn c args) := by
  have h := hF.accumulates c
  unfold DispatchLisp.evaluateFn
  split
  · exact h.throw _
  · refine hF.withPattern _ _ fun p hp => h.bind ?_ fun id => h.pure _
    exact fun m => hF.functions c m _ (.make "fn" hp)

/-- A function is made and bound to a name at once. -/
theorem bindNew (hF : Frame F) {m : Machine} {label : String} {patterns : List Pattern}
    (hmade : FunctionStep c m.store (m.store.newFunction label patterns).2) (name : String) :
    F c m (extendBinding.bindNew c name label patterns m).2 := by
  have h := hF.accumulates c
  refine h.bind_at (hF.functions c m _ hmade) fun id m' _ => ?_
  exact h.bind (hF.define _ _) (fun _ => h.pure _) m'

/-- A function is extended in place only if the context itself binds it, and copied otherwise. -/
theorem extendBinding (hF : Frame F) (name : String) {p : Pattern} (hp : p.MadeIn c) :
    Keeps (F c) (extendBinding c name p) := by
  intro m
  have h := hF.accumulates c
  refine h.bind_at (h.refl m) fun owner m1 howner => h.bind_at (h.refl m1) fun existing m2 hfound => ?_
  simp only [DispatchLisp.askStore, Prod.mk.injEq, Except.ok.injEq] at howner hfound
  rcases howner with ⟨howner, rfl⟩
  rcases hfound with ⟨hexisting, rfl⟩
  split
  case h_1 => exact h.throw _ _
  case h_2 id =>
    split
    case isTrue hown =>
      -- the nearest context that binds the name is the one of the form
      rw [Store.lookup?_eq, howner, hown] at hexisting
      refine h.bind_at (hF.functions c m _ (.extend name hp hexisting)) fun _ m' _ => ?_
      exact h.pure _ m'
    case isFalse =>
      refine h.bind_at (h.refl m) fun patterns m' hpatterns => ?_
      cases hpatterns
      exact hF.bindNew (.copy id.name id hp) name
  case h_3 => exact hF.bindNew (.make name hp) name

theorem evaluateDefn (hF : Frame F) (args : List Value) : Keeps (F c) (evaluateDefn c args) := by
  have h := hF.accumulates c
  unfold DispatchLisp.evaluateDefn
  split
  · split
    · refine hF.withPattern _ _ fun p hp => h.bind (hF.extendBinding _ hp) fun id => ?_
      exact h.bind (hF.quietly (quiet_record _ _)) fun _ => h.pure _
    · exact hF.throwText _ _
  · exact h.throw _

theorem specialForm (hF : Frame F) (hev : Confines F ev) (f : SpecialForm) (parts : List Part) :
    Keeps (F c) (f.run ev c parts) := by
  have h := hF.accumulates c
  cases f with
  | ifForm => exact hF.evaluateIf hev parts
  | doForm => exact hF.evaluateSequence hev _ parts
  | quoteForm => exact h.bind (h.lookAtAll parts) fun args => hF.evaluateQuote args
  | andForm => exact hF.evaluateUntil hev _ _ parts
  | orForm => exact hF.evaluateUntil hev _ _ parts
  | letForm => exact hF.evaluateLet hev parts
  | fnForm => exact h.bind (h.lookAtAll parts) fun args => hF.evaluateFn args
  | defForm => exact h.bind (h.lookAtAll parts) fun args => hF.evaluateDef hev args
  | defnForm => exact h.bind (h.lookAtAll parts) fun args => hF.evaluateDefn args

/-! ## Texts and modules -/

theorem evaluateForms (hF : Frame F) (hev : Confines F ev) (result : Value) (forms : List Form) :
    Keeps (F c) (evaluateForms ev c result forms) := by
  have h := hF.accumulates c
  induction forms generalizing result with
  | nil => exact h.pure _
  | cons form rest ih =>
      refine h.bind (hF.quietly (quiet_ofForm form)) fun expr => ?_
      exact h.bind (hev expr c) fun v => ih v

theorem evaluateText (hF : Frame F) (hev : Confines F ev) (text : String) :
    Keeps (F c) (evaluateText ev text c) := by
  have h := hF.accumulates c
  refine h.bind (hF.evaluateForms hev _ _) fun v => ?_
  split
  · exact h.pure _
  · exact h.throw _

theorem evaluateAll (hF : Frame F) (hev : Confines F ev) (parts : List Part) :
    Keeps (F c) (evaluateAll ev c parts) := by
  have h := hF.accumulates c
  induction parts with
  | nil => exact h.pure _
  | cons part rest ih =>
      refine h.bind (h.askStore _) fun expr => h.bind (hev expr c) fun v => ?_
      exact h.bind ih fun vs => h.pure _

theorem loadModule_of_error {m after : Machine} {name source : String} {e : Fault}
    (h : DispatchLisp.evaluateText ev source (m.nextContext name) (m.inNewContext name m.root) =
      (.error e, after)) (path : Option Path) :
    loadModule ev name source path m = (.error e, after) := by
  show (DispatchLisp.evaluateText ev source (m.nextContext name) >>= fun _ => _)
    (m.inNewContext name m.root) = _
  exact Computation.bind_of_error h

/-- A source that was evaluated becomes a module, under its name. -/
theorem loadModule_of_ok {m after : Machine} {name source : String} {v : Value}
    (h : DispatchLisp.evaluateText ev source (m.nextContext name) (m.inNewContext name m.root) =
      (.ok v, after)) (path : Option Path) :
    ∃ m', loadModule ev name source path m = (.ok ⟨name, m.nextContext name, source, path⟩, m') ∧
      Quiet { after with
        modules := after.modules.set name ⟨name, m.nextContext name, source, path⟩ } m' := by
  rcases record_of_ok .debug (fun s => ⟨"loaded module " ++ name ++ " (" ++
      toString (s.context (m.nextContext name)).table.length ++ " bindings)", rfl⟩)
    { after with modules := after.modules.set name ⟨name, m.nextContext name, source, path⟩ } with
    ⟨m', hrecord, hquiet⟩
  refine ⟨m', ?_, hquiet⟩
  show (DispatchLisp.evaluateText ev source (m.nextContext name) >>= fun _ => _)
    (m.inNewContext name m.root) = _
  rw [Computation.bind_of_ok h]
  exact Computation.bind_of_ok hrecord

/-- Loading a module that is not registered. -/
theorem loadModule_at (hF : Frame F) (hev : Confines F ev) {m : Machine} {name : String}
    (hnew : m.modules.get? name = none) (source : String) (path : Option Path) :
    F c m (loadModule ev name source path m).2 := by
  have hwork := hF.evaluateText hev source (c := m.nextContext name) (m.inNewContext name m.root)
  rcases hrun : DispatchLisp.evaluateText ev source (m.nextContext name)
    (m.inNewContext name m.root) with ⟨e | v, after⟩
  · rw [hrun] at hwork
    rw [loadModule_of_error hrun]
    exact hF.inside c m name m.root after hwork
  · rw [hrun] at hwork
    rcases loadModule_of_ok hrun path with ⟨m', hload, hquiet⟩
    rw [hload]
    exact (hF.accumulates c).trans (hF.loaded c m name source path after hnew hwork)
      (hF.ofQuiet c _ _ hquiet)

/-- A module that was loaded is registered. -/
theorem loadModule_registers {name source : String} {path : Option Path} {module : Module}
    {m m' : Machine} (h : loadModule ev name source path m = (.ok module, m')) :
    m'.modules.get? name = some module := by
  rcases hrun : DispatchLisp.evaluateText ev source (m.nextContext name)
    (m.inNewContext name m.root) with ⟨e | v, after⟩
  · rw [loadModule_of_error hrun] at h
    cases h
  · rcases loadModule_of_ok hrun path with ⟨m'', hload, hquiet⟩
    rw [hload] at h
    cases h
    rw [hquiet.modules]
    exact Table.get?_set_self _ _ _

/-- Loading a module from its file does what loading its source does, if there is one. -/
theorem loadModuleFile_of_loadModule {R : Machine → Machine → Prop} (h : Accumulates R)
    {m : Machine} {name : String}
    (hload : ∀ source path, R m (loadModule ev name source path m).2) :
    R m (loadModuleFile ev name m).2 := by
  refine h.bind_at (h.refl m) fun disk m' hask => ?_
  cases hask
  cases m.disk.resolve? name with
  | error e => exact h.refl m
  | ok found =>
      cases found with
      | none => exact h.refl m
      | some path =>
          rw [liftM_snd]
          exact hload _ _

theorem loadModuleFile_at (hF : Frame F) (hev : Confines F ev) {m : Machine} {name : String}
    (hnew : m.modules.get? name = none) : F c m (loadModuleFile ev name m).2 :=
  loadModuleFile_of_loadModule (hF.accumulates c) fun source path =>
    hF.loadModule_at hev hnew source path

theorem loadModuleFile_registers {name : String} {module : Module} {m m' : Machine}
    (h : loadModuleFile ev name m = (.ok module, m')) : m'.modules.get? name = some module := by
  rcases Computation.bind_eq_ok h with ⟨disk, m1, hask, h⟩
  cases hask
  cases hfound : m.disk.resolve? name with
  | error e =>
      rw [hfound] at h
      cases h
  | ok found =>
      rw [hfound] at h
      cases found with
      | none => cases h
      | some path => exact loadModule_registers (liftM_eq_ok h)

theorem provideModule_of_new {name : String} {m : Machine} (h : m.modules.get? name = none) :
    DispatchLisp.provideModule ev name m = loadModuleFile ev name m := by
  rw [DispatchLisp.provideModule, Computation.bind_of_ok (moduleNamed_eq name m), h]

theorem provideModule_of_registered {name : String} {m : Machine} {module : Module}
    (h : m.modules.get? name = some module) :
    DispatchLisp.provideModule ev name m = (.ok module, m) := by
  rw [DispatchLisp.provideModule, Computation.bind_of_ok (moduleNamed_eq name m), h]
  rfl

theorem provideModule (hF : Frame F) (hev : Confines F ev) (name : String) :
    Keeps (F c) (provideModule ev name) := by
  intro m
  cases hfound : m.modules.get? name with
  | none =>
      rw [provideModule_of_new hfound]
      exact hF.loadModuleFile_at hev hfound
  | some module =>
      rw [provideModule_of_registered hfound]
      exact (hF.accumulates c).refl m

/-- A module that is provided for an import is registered. -/
theorem provideModule_registers {name : String} {module : Module} {m m' : Machine}
    (h : DispatchLisp.provideModule ev name m = (.ok module, m')) :
    m'.modules.get? name = some module := by
  cases hfound : m.modules.get? name with
  | none =>
      rw [provideModule_of_new hfound] at h
      exact loadModuleFile_registers h
  | some registered =>
      rw [provideModule_of_registered hfound] at h
      cases h
      exact hfound

theorem importModule (hF : Frame F) (hev : Confines F ev) (name : String)
    (qualifier : Option String) : Keeps (F c) (importModule ev c name qualifier) := by
  intro m
  have h := hF.accumulates c
  refine h.bind_at (hF.provideModule hev name m) fun module m' hprovided => ?_
  -- the frame knows imports of registered modules only, and this one is registered by now
  have hregistered := provideModule_registers hprovided
  refine h.bind_at (hF.imported c m' name module _ hregistered) fun _ m'' _ => ?_
  exact h.bind (hF.quietly (quiet_record _ _)).lift (fun _ => h.pure _) m''

theorem importForm (hF : Frame F) (hev : Confines F ev) (parts : List Part) :
    Keeps (F c) (importForm ev c parts) := by
  have h := hF.accumulates c
  unfold DispatchLisp.importForm
  split
  · refine h.bind (hF.evaluateAll hev parts).lift fun args => h.bind (h.check _).lift fun texts => ?_
    split
    · exact h.bind (hF.importModule hev _ _) fun _ => h.pure _
    · exact h.pure _
  · exact h.throw _

/-! ## Calls -/

theorem bindArguments (hF : Frame F) (p : Parameters) (args : List Value) :
    Keeps (F c) (bindArguments c p args) := by
  have h := hF.accumulates c
  refine h.bind (fun m => hF.defineAll c m _) fun _ => ?_
  split
  · exact h.pure _
  · refine h.bind (hF.quietly (quiet_makeList _ _)) fun others => ?_
    exact hF.define _ _

theorem applyFunction (hF : Frame F) (hev : Confines F ev) (id : FunctionId) (args : List Value)
    (evaluated : Bool) : Keeps (F c) (applyFunction ev id args evaluated) := by
  have h := hF.accumulates c
  refine h.bind (h.askStore _) fun patterns => ?_
  split
  · exact h.bind (h.queryStore _) fun _ => h.throw _
  · refine h.bind (hF.quietly (quiet_record _ _)) fun _ => ?_
    -- arguments are bound and the body is evaluated in the context of the call
    refine keeps_inside (fun m m' => hF.inside c m _ _ m') fun d => ?_
    exact (hF.accumulates d).bind (hF.bindArguments _ _) fun _ => hev _ d

theorem collect (hF : Frame F) (t : Traversal) {f : Value → NativeEval Value}
    (hf : ∀ v, Keeps (F c) (f v)) (id : ListId) (count position : Nat) :
    Keeps (F c) (t.collect f id count position) := by
  have h := hF.accumulates c
  -- the list may change while it is gone through, so each element is looked up anew
  induction count generalizing position with
  | zero => exact h.pure _
  | succ count ih =>
      refine h.bind (h.askStore _) fun item => ?_
      split
      · exact h.pure _
      · refine h.bind ((hf _).mapError _) fun v => h.bind (ih _) fun others => ?_
        cases t with
        | map => exact h.pure _
        | filter => exact h.pure _

theorem traversal (hF : Frame F) (t : Traversal) {applyOne : Value → Value → NativeEval Value}
    (hone : ∀ f v, Keeps (F c) (applyOne f v)) (args : List Value) :
    Keeps (F c) (t.run applyOne args) := by
  have h := hF.accumulates c
  refine h.bind (h.check _).lift fun _ => ?_
  split
  · split
    · refine h.bind (h.askStore _) fun count => ?_
      refine h.bind (hF.collect t (hone _) _ _ _) fun items => ?_
      exact hF.quietly (quiet_makeList _ _)
    · exact h.throw _
  · exact h.pure _

theorem native (hF : Frame F) (hev : Confines F ev) {host : Host} (hhost : host.Respects F)
    {applyOne : Value → Value → NativeEval Value} (hone : ∀ f v, Keeps (F c) (applyOne f v))
    (f : Native) (args : List Part) : Keeps (F c) (f.run host ev applyOne args c) := by
  have h := hF.accumulates c
  unfold Native.run
  split
  · exact h.bind (h.lookAtAll args) fun values => hF.quietly (quiet_run _ values)
  · exact h.bind (h.lookAtAll args) fun values => hF.traversal _ hone values
  · exact (hF.specialForm hev _ args).lift
  · exact hF.importForm hev args
  · exact h.bind (h.lookAtAll args) fun values => hhost _ ev c values hev

theorem applyWith (hF : Frame F) (hev : Confines F ev) {host : Host} (hhost : host.Respects F)
    {applyOne : Value → Value → NativeEval Value} (hone : ∀ f v, Keeps (F c) (applyOne f v))
    (f : Value) (args : List Part) (evaluated : Bool) :
    Keeps (F c) (applyWith host ev applyOne f args evaluated c) := by
  have h := hF.accumulates c
  unfold DispatchLisp.applyWith
  split
  · exact hF.native hev hhost hone _ args
  · exact h.bind (h.lookAtAll args) fun values => (hF.applyFunction hev _ values _).lift
  · exact h.bind (h.queryStore _).lift fun _ => h.throw _

theorem applyValues (hF : Frame F) (hev : Confines F ev) {host : Host} (hhost : host.Respects F)
    (f : Value) (args : List Part) (evaluated : Bool) :
    Keeps (F c) (applyValues host ev f args evaluated c) :=
  -- the elements of a list are applied one by one, and no traversal comes to elements there
  hF.applyWith hev hhost
    (fun f _ => hF.applyWith hev hhost (fun _ _ => (hF.accumulates c).pure _) f _ _) f args evaluated

theorem apply (hF : Frame F) (hev : Confines F ev) {host : Host} (hhost : host.Respects F)
    (f : Value) (exprs : List Part) : Keeps (F c) (apply host ev f exprs c) := by
  have h := hF.accumulates c
  unfold DispatchLisp.apply
  split
  · exact hF.applyValues hev hhost _ _ _
  · exact h.bind (hF.evaluateAll hev exprs).lift fun args => hF.applyValues hev hhost _ _ _
  · exact h.bind (hF.evaluateAll hev exprs).lift fun args => hF.applyValues hev hhost _ _ _
  · exact h.bind (h.queryStore _).lift fun _ => h.throw _

/-! ## Evaluation -/

theorem resolveHead (hF : Frame F) (head : Value) : Keeps (F c) (resolveHead head c) := by
  have h := hF.accumulates c
  unfold DispatchLisp.resolveHead
  split
  · refine h.bind (h.queryStore _) fun f => ?_
    split
    · exact h.pure _
    · exact h.throw _
  · split
    · exact h.pure _
    · exact hF.throwText _ _

theorem step (hF : Frame F) (hev : Confines F ev) {host : Host} (hhost : host.Respects F)
    (expr : Value) : Keeps (F c) (step host ev expr c) := by
  have h := hF.accumulates c
  unfold DispatchLisp.step
  split
  · exact (h.queryStore _).lift
  · refine h.bind (h.askStore _) fun cell => ?_
    split
    · exact h.pure _
    · split
      · exact h.throw _
      · exact h.bind (hF.resolveHead _).lift fun f => hF.apply hev hhost f _
  · exact h.pure _

/-- Every evaluation keeps every frame, if the host does. -/
theorem evaluate (hF : Frame F) {host : Host} (hhost : host.Respects F) (depth : Nat) :
    Confines F (evaluate host depth) := by
  -- the evaluator of one more call is a step of the evaluator before
  induction depth with
  | zero => exact fun expr context => (hF.accumulates context).throw _
  | succ depth ih => exact fun expr context => (hF.step ih hhost expr).guarded

end Frame

/-! ## A host -/

/-- The functions of the basic host evaluate only where they are called, and change only values
themselves. -/
theorem Host.basic_respects {F : ContextId → Machine → Machine → Prop} (hF : Frame F) :
    Host.basic.Respects F := by
  intro key ev c args hev
  have h := hF.accumulates c
  show Keeps (F c) (HostNative.run key ev c args)
  unfold HostNative.run
  split
  · exact hF.quietly (quiet_makeList _ _)
  · exact h.pure _
  · refine h.bind ?_ fun pair => h.bind (hev _ c).lift fun v => ?_
    · unfold HostNative.twoArguments
      split
      · exact h.pure _
      · exact h.throw _
    · split
      · exact h.pure _
      · exact (hev _ c).lift
  · refine h.bind (h.check _).lift fun _ => ?_
    split
    · exact h.throw _
    · exact h.pure _
  · refine h.bind (h.check _).lift fun _ => ?_
    split
    · refine h.bind (h.queryStore _).lift fun text => h.bind ?_ fun _ => h.pure _
      exact hF.quietly (quiet_changeStore fun _ => ⟨rfl, rfl, rfl, Nat.le_refl _, Nat.le_refl _⟩)
    · exact h.pure _
  · exact h.pure _

end DispatchLisp
