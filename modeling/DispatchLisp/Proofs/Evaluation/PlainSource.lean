import DispatchLisp.Proofs.Context.Refill
import DispatchLisp.Proofs.Evaluation.Literal
import DispatchLisp.Proofs.Module.ImportCall

/-!
# Proofs.Evaluation.PlainSource — sources that only define literals and import modules

The forms of a plain source define names as literals and import registered modules. Whatever such
a source binds, the words that its forms are written with mean what they mean in a root context, or
something that cannot be called. So evaluating the source carries out one move for each form until
one fails, and changes nothing else but values and the log (`evaluateForms_plain`).
-/

namespace DispatchLisp

/-! ## Plain sources -/

/-- Whether a form is a literal: a number, a string, a keyword, a constant, or a list or dict of
literals. -/
inductive Form.IsLiteral : Form → Prop where
  | int (n : Int) : IsLiteral (.int n)
  | float (x : Binary64) : IsLiteral (.float x)
  | string (text : String) : IsLiteral (.string text)
  | keyword (name : String) : IsLiteral (.keyword name)
  | constant {name : String} {v : Value} : (name, v) ∈ rootConstants → IsLiteral (.symbol name)
  | list {items : List Form} : (∀ item ∈ items, IsLiteral item) →
      IsLiteral (.list (.symbol "list" :: items))
  | dict {items : List Form} : (∀ item ∈ items, IsLiteral item) →
      IsLiteral (.list (.symbol "dict" :: items))

/-- A form of a plain source. -/
inductive Clause where
  | define (name : String) (literal : Form)
  | importing (name : String)

/-- How a clause is written. -/
def Clause.form : Clause → Form
  | define name literal => .list [.symbol "def", .symbol name, literal]
  | importing name => .list [.symbol "import", .string name]

/-- Whether a clause carries out a move, when some modules are registered. -/
inductive Clause.Does (modules : Table Module) : Clause → Move → Prop where
  | define {name : String} {literal : Form} {v : Value} : v.isCallable = false →
      Does modules (.define name literal) (.bind name v)
  | importing {name : String} {module : Module} : modules.get? name = some module →
      Does modules (.importing name) (.take module.context)

/-- Whether a clause defines a literal or imports a registered module. -/
def Clause.Fits (modules : Table Module) : Clause → Prop
  | define _ literal => literal.IsLiteral
  | importing name => modules.contains name = true

/-- Whether a text is a plain source with some clauses, when some modules are registered. -/
structure PlainSource (modules : Table Module) (text : String) (clauses : List Clause) : Prop where
  forms : (parseAll text).forms = clauses.map Clause.form
  complete : (parseAll text).error = none
  fits : ∀ clause ∈ clauses, clause.Fits modules

/-! ## Words -/

namespace Store

/-- Whether a name means in a context a native of its own, or something that cannot be called. -/
def MeansAtMost (s : Store) (c : ContextId) (name : String) (lazy : Bool) (role : NativeRole) :
    Prop :=
  ∀ v, s.lookup? c name = some v → v.isCallable = true → ∃ id, v = .native ⟨id, name, lazy, role⟩

/-- Whether the words of plain sources mean in a context what they mean in a root context, or
something that cannot be called. -/
structure PlainWords (s : Store) (c : ContextId) : Prop where
  list : s.MeansAtMost c "list" false (.builtin .list)
  dict : s.MeansAtMost c "dict" false (.builtin .dict)
  define : s.MeansAtMost c "def" true (.form .defForm)
  importing : s.MeansAtMost c "import" true .importModule
  constants : ∀ name v w, (name, v) ∈ rootConstants → s.lookup? c name = some w →
    w.isCallable = false

theorem PlainWords.congr {s s' : Store} {c : ContextId} (h : s.PlainWords c)
    (hcontexts : s'.contexts = s.contexts) : s'.PlainWords c := by
  have hlookup := lookup?_congr hcontexts c
  constructor
  · simpa only [MeansAtMost, hlookup] using h.list
  · simpa only [MeansAtMost, hlookup] using h.dict
  · simpa only [MeansAtMost, hlookup] using h.define
  · simpa only [MeansAtMost, hlookup] using h.importing
  · simpa only [hlookup] using h.constants

end Store

/-- Whether nothing has happened to a machine but that values were made. -/
structure Machine.Adds (m m' : Machine) : Prop where
  quiet : Quiet m m'
  collections : Store.Grows m.store m'.store

theorem Machine.Adds.refl (m : Machine) : m.Adds m :=
  ⟨DispatchLisp.quiet.refl m, .refl _⟩

theorem Machine.Adds.trans {m m' m'' : Machine} (h : m.Adds m') (h' : m'.Adds m'') : m.Adds m'' :=
  ⟨DispatchLisp.quiet.trans h.quiet h'.quiet, h.collections.trans h'.collections⟩

section

variable {host : Host} {depth : Nat} {c : ContextId} {m : Machine} {expr : Value}

/-! ## Literals -/

/-- A call of a word fails at once, or it is a call of the native that the word means. -/
theorem evaluate_wordCall (host : Host) (depth : Nat) {id : ListId} {word : String}
    {exprs : List Value} {lazy : Bool} {role : NativeRole}
    (hcell : m.store.list id = ⟨.symbol word :: exprs, false⟩)
    (hword : m.store.MeansAtMost c word lazy role) :
    (∃ e, evaluate host depth (.list id) c m = (.error e, m)) ∨
      ∃ further i, depth = further + 1 ∧
        m.store.IsNativeCall c ⟨i, word, lazy, role⟩ exprs (.list id) := by
  cases depth with
  | zero => exact .inl ⟨_, rfl⟩
  | succ further =>
      -- the word has a meaning that can be called, or the call fails at its head
      by_cases hcallable : ∃ f, m.store.lookup? c word = some f ∧ f.isCallable = true
      · obtain ⟨f, hf, hcallable⟩ := hcallable
        obtain ⟨i, rfl⟩ := hword f hf hcallable
        exact .inr ⟨further, i, rfl, id, _, rfl, hcell, hf⟩
      · left
        have hfails : ∃ e, resolveHead (.symbol word) c m = (.error e, m) := by
          cases hf : m.store.lookup? c word with
          | none =>
              have hask : (queryStore fun s => s.lookup c word) m =
                  (.error (.undefinedSymbol word), m) := by
                rw [queryStore, Store.lookup, hf]
              exact ⟨_, Computation.bind_of_error hask⟩
          | some f =>
              have hask : (queryStore fun s => s.lookup c word) m = (.ok f, m) := by
                rw [queryStore, Store.lookup, hf]
              have hnot : f.isCallable = false :=
                Bool.eq_false_iff.mpr fun hf' => hcallable ⟨f, hf, hf'⟩
              refine ⟨.notFunction word, ?_⟩
              rw [resolveHead, Computation.bind_of_ok hask, hnot]
              rfl
        obtain ⟨e, he⟩ := hfails
        have hask : (askStore fun s => s.list id : NativeEval ListCell) m =
            (.ok ⟨.symbol word :: exprs, false⟩, m) := by
          rw [askStore, hcell]
        have hlift : (liftM (resolveHead (.symbol word) c) : NativeEval Value) m =
            (.error (.fault e), m) := liftM_of_error he
        refine ⟨e, ?_⟩
        rw [evaluate, step, guarded_bind_of_ok hask]
        simp only [Bool.false_eq_true, if_false]
        exact guarded_of_error (Computation.bind_of_error hlift)

/-- Whether evaluating an expression only makes values, and comes to none that can be called. -/
def EvaluatesPlainly (host : Host) (c : ContextId) (depth : Nat) (expr : Value) (m : Machine) :
    Prop :=
  m.Adds (evaluate host depth expr c m).2 ∧
    ∀ v, (evaluate host depth expr c m).1 = .ok v → v.isCallable = false

theorem EvaluatesPlainly.of_error {e : Fault} (h : evaluate host depth expr c m = (.error e, m)) :
    EvaluatesPlainly host c depth expr m := by
  rw [EvaluatesPlainly, h]
  exact ⟨.refl m, fun v hv => by cases hv⟩

theorem EvaluatesPlainly.of_ok {v : Value} (h : evaluate host depth expr c m = (.ok v, m))
    (hv : v.isCallable = false) : EvaluatesPlainly host c depth expr m := by
  rw [EvaluatesPlainly, h]
  refine ⟨.refl m, fun w hw => ?_⟩
  cases hw
  exact hv

theorem evaluatesPlainly_self (host : Host) (depth : Nat) {v : Value} (hv : v.isCallable = false)
    (hself : ∀ further, evaluate host (further + 1) v c m = (.ok v, m)) :
    EvaluatesPlainly host c depth v m := by
  cases depth with
  | zero =>
      have hdeep : evaluate host 0 v c m = (.error .tooDeep, m) := rfl
      exact .of_error hdeep
  | succ further => exact .of_ok (hself further) hv

theorem evaluatesPlainly_constant (host : Host) (depth : Nat) {name : String} {v : Value}
    (hwords : m.store.PlainWords c) (hname : (name, v) ∈ rootConstants) :
    EvaluatesPlainly host c depth (.symbol name) m := by
  cases depth with
  | zero =>
      have hdeep : evaluate host 0 (.symbol name) c m = (.error .tooDeep, m) := rfl
      exact .of_error hdeep
  | succ depth =>
      cases hfound : m.store.lookup? c name with
      | some w =>
          exact .of_ok (Datum.evaluate_symbol hfound) (hwords.constants name v w hname hfound)
      | none =>
          have hask : (queryStore fun s => s.lookup c name : Eval Value) m =
              (.error (.undefinedSymbol name), m) := by
            rw [queryStore, Store.lookup, hfound]
          refine .of_error (e := .undefinedSymbol name) ?_
          rw [← hask]
          exact congrFun (guarded_liftM _) m

/-- The parts of a call make values one after another. -/
theorem adds_evaluateAll (host : Host) (depth : Nat) {items : List Form} {exprs : List Value}
    (hitems : ∀ item ∈ items, ∀ m expr, m.store.PlainWords c → m.store.IsCode expr item →
      EvaluatesPlainly host c depth expr m)
    (hwords : m.store.PlainWords c) (hcode : List.Forall₂ m.store.IsCode exprs items) :
    m.Adds (evaluateAll (evaluate host depth) c (fixedParts exprs) m).2 := by
  induction items generalizing m exprs with
  | nil =>
      cases hcode
      exact .refl m
  | cons item items ih =>
      cases hcode with
      | @cons expr _ exprs _ hexpr hrest =>
      obtain ⟨hfirst, hlater⟩ := List.forall_mem_cons.mp hitems
      have hadds := (hfirst m expr hwords hexpr).1
      have hlook : (askStore (Part.fixed expr) : Eval Value) m = (.ok expr, m) := rfl
      show m.Adds (evaluateAll _ c (Part.fixed expr :: fixedParts exprs) m).2
      rw [evaluateAll, Computation.bind_of_ok hlook]
      rcases hrun : evaluate host depth expr c m with ⟨e | v, m'⟩
      · rw [Computation.bind_of_error hrun]
        rwa [hrun] at hadds
      · rw [Computation.bind_of_ok hrun]
        rw [hrun] at hadds
        -- the value of a part binds nothing, so words mean the same in the later parts
        have hothers := ih hlater (hwords.congr hadds.quiet.contexts)
          (hrest.imp fun _ _ hcode => hcode.later hadds.collections)
        rcases hall : evaluateAll (evaluate host depth) c (fixedParts exprs) m' with ⟨e | vs, m''⟩
        · rw [Computation.bind_of_error hall]
          rw [hall] at hothers
          exact hadds.trans hothers
        · rw [Computation.bind_of_ok hall]
          rw [hall] at hothers
          exact hadds.trans hothers

/-- What makes a collection of finished values only makes values, and answers the collection. -/
theorem evaluatesPlainly_builtinCall {id : ListId} {word : String} {b : Builtin}
    {items : List Form} {exprs : List Value}
    (hb : ∀ values m, m.Adds (b.run values m).2 ∧ ∀ v, (b.run values m).1 = .ok v →
      v.isCallable = false)
    (hcell : m.store.list id = ⟨.symbol word :: exprs, false⟩)
    (hword : m.store.MeansAtMost c word false (.builtin b))
    (hitems : ∀ item ∈ items, ∀ depth m expr, m.store.PlainWords c → m.store.IsCode expr item →
      EvaluatesPlainly host c depth expr m)
    (hwords : m.store.PlainWords c) (hcode : List.Forall₂ m.store.IsCode exprs items) :
    EvaluatesPlainly host c depth (.list id) m := by
  rcases evaluate_wordCall host depth hcell hword with ⟨e, he⟩ | ⟨further, i, rfl, hcall⟩
  · exact .of_error he
  · have hadds := adds_evaluateAll host further (fun item hitem => hitems item hitem further)
      hwords hcode
    -- the call fails with one of its parts, or the native runs on their values
    rcases hall : evaluateAll (evaluate host further) c (fixedParts exprs) m with ⟨e | vs, m'⟩
    · rw [hall] at hadds
      have hlift : (liftM (evaluateAll (evaluate host further) c (fixedParts exprs)) :
          NativeEval (List Value)) m = (.error (.fault e), m') := liftM_of_error hall
      have hfails : evaluate host (further + 1) (.list id) c m = (.error e, m') := by
        rw [evaluate_nativeCall host further hcall]
        exact guarded_of_error (Computation.bind_of_error hlift)
      rw [EvaluatesPlainly, hfails]
      exact ⟨hadds, fun v hv => by cases hv⟩
    · rw [hall] at hadds
      obtain ⟨hrun, hanswer⟩ := hb vs m'
      rw [EvaluatesPlainly, evaluate_builtinCall host further hcall hall]
      refine ⟨hadds.trans ?_, fun v hv => hanswer v ?_⟩
      · rwa [NativeEval.guarded, mapError_snd]
      · rcases hres : b.run vs m' with ⟨r | w, m''⟩
        · rw [guarded_of_error hres] at hv
          cases hv
        · rw [guarded_of_ok hres] at hv
          cases hv
          rfl

theorem adds_makeDict (values : List Value) (m : Machine) :
    m.Adds (makeDict values m).2 ∧ ∀ v, (makeDict values m).1 = .ok v → v.isCallable = false := by
  unfold makeDict
  split
  · rcases hentries : (queryStore fun s => s.pairEntries [] values : Eval _) m with ⟨e | es, m'⟩
    · have hsame : m' = m := congrArg Prod.snd hentries.symm
      rw [Computation.bind_of_error hentries, hsame]
      exact ⟨.refl m, fun v hv => by cases hv⟩
    · have hsame : m' = m := congrArg Prod.snd hentries.symm
      rw [Computation.bind_of_ok hentries, hsame]
      refine ⟨⟨(m.store.onlyValues_newDict es).quiet, Store.grows_newDict _ _⟩, fun v hv => ?_⟩
      cases hv
      rfl
  · exact ⟨.refl m, fun v hv => by cases hv⟩

/-- Evaluating a literal only makes values. -/
theorem Form.IsLiteral.evaluatesPlainly {t : Form} (h : t.IsLiteral) (host : Host) (depth : Nat)
    (hwords : m.store.PlainWords c) (hcode : m.store.IsCode expr t) :
    EvaluatesPlainly host c depth expr m := by
  -- depth and state vary from element to element, so they are generalised
  induction h generalizing depth m expr with
  | int | float | string | keyword =>
      rw [hcode.atom rfl]
      exact evaluatesPlainly_self host depth rfl fun _ => rfl
  | constant hname =>
      rw [hcode.atom rfl]
      exact evaluatesPlainly_constant host depth hwords hname
  | @list items _ ih =>
      obtain ⟨id, codes, rfl, hcell, hcodes⟩ := hcode.list
      cases hcodes with
      | cons hhead hrest =>
      rw [hhead.atom rfl] at hcell
      refine evaluatesPlainly_builtinCall (fun values m => ?_) hcell hwords.list
        (fun item hitem depth m expr => ih item hitem depth) hwords hrest
      refine ⟨⟨quiet_makeList _ _ m, Store.grows_newList _ _ _⟩, fun v hv => ?_⟩
      cases hv
      rfl
  | @dict items _ ih =>
      obtain ⟨id, codes, rfl, hcell, hcodes⟩ := hcode.list
      cases hcodes with
      | cons hhead hrest =>
      rw [hhead.atom rfl] at hcell
      refine evaluatesPlainly_builtinCall (fun values m => ?_) hcell hwords.dict
        (fun item hitem depth m expr => ih item hitem depth) hwords hrest
      obtain ⟨hadds, hanswer⟩ := adds_makeDict values m
      show m.Adds ((liftM (makeDict values) : NativeEval Value) m).2 ∧ _
      rw [liftM_snd]
      refine ⟨hadds, fun v hv => hanswer v ?_⟩
      have hboth : (liftM (makeDict values) : NativeEval Value) m =
          (.ok v, ((liftM (makeDict values) : NativeEval Value) m).2) := Prod.ext hv rfl
      exact congrArg Prod.fst (liftM_eq_ok hboth)

/-! ## Clauses -/

end

namespace Store

variable {s s' : Store} {c : ContextId} {moves : List Move}

theorem contexts_define_congr (h : s'.contexts = s.contexts) (name : String) (v : Value) :
    (s'.define c name v).contexts = (s.define c name v).contexts := by
  rw [define, updateContext, h, define, updateContext]

theorem contexts_reimport_congr (h : s'.contexts = s.contexts) (user source : ContextId)
    (qualifier : String) :
    (s'.reimport user source qualifier).contexts = (s.reimport user source qualifier).contexts := by
  rw [reimport, context_congr h, updateContext, h, reimport, updateContext]

theorem contexts_carryOut_congr (h : s'.contexts = s.contexts) (move : Move) :
    (s'.carryOut c move).contexts = (s.carryOut c move).contexts := by
  cases move with
  | bind name v => exact contexts_define_congr h name v
  | take source =>
      have himport : ∀ s : Store, (s.carryOut c (.take source)).contexts =
          ((s.reimport c source source.qualifier).updateContext source fun cell =>
            { cell with usages := recordUsage c source.qualifier cell.usages }).contexts :=
        fun _ => rfl
      rw [himport, himport, updateContext, contexts_reimport_congr h, updateContext]

theorem contexts_fill_congr (h : s'.contexts = s.contexts) :
    (s'.fill c moves).contexts = (s.fill c moves).contexts := by
  induction moves generalizing s s' with
  | nil => exact h
  | cons move rest ih => exact ih (contexts_carryOut_congr h move)

end Store

/-- The machine after a move in a context. -/
def Machine.carriedOut (m : Machine) (c : ContextId) (move : Move) : Machine :=
  { m with store := m.store.carryOut c move }

/-- The machine after some moves in a context, but for the imports that are made. -/
structure Machine.Filled (m : Machine) (c : ContextId) (moves : List Move) (m' : Machine) :
    Prop where
  contexts : m'.store.contexts = (m.store.fill c moves).contexts
  modules : m'.modules = m.modules
  root : m'.root = m.root
  disk : m'.disk = m.disk

section

variable {host : Host} {depth : Nat} {c : ContextId} {m : Machine} {expr : Value}

/-- Defining a literal fails without a trace, or it binds the name. -/
theorem evaluate_define (host : Host) (depth : Nat) {name : String} {literal : Form}
    (hliteral : literal.IsLiteral) (hwords : m.store.PlainWords c)
    (hcode : m.store.IsCode expr (Clause.define name literal).form) :
    (∃ e m', evaluate host depth expr c m = (.error e, m') ∧ Quiet m m') ∨
      ∃ v m', evaluate host depth expr c m = (.ok v, m') ∧ v.isCallable = false ∧
        Quiet (m.carriedOut c (.bind name v)) m' := by
  obtain ⟨id, codes, rfl, hcell, hcodes⟩ := hcode.list
  rcases hcodes with _ | ⟨hhead, _ | ⟨htarget, _ | ⟨hvalue, hnil⟩⟩⟩
  cases hnil
  rw [hhead.atom rfl, htarget.atom rfl] at hcell
  rcases evaluate_wordCall host depth hcell hwords.define with ⟨e, he⟩ | ⟨further, i, rfl, hcall⟩
  · exact .inl ⟨e, m, he, quiet.refl m⟩
  have hform := evaluate_formCall host further ⟨i, _, hcall⟩
  rw [SpecialForm.run, Computation.bind_of_ok (lookAtAll_fixedParts _ m)] at hform
  obtain ⟨hadds, hanswer⟩ := hliteral.evaluatesPlainly host further hwords hvalue
  simp only [evaluateDef, Value.symbol?] at hform
  rcases hrun : evaluate host further _ c m with ⟨e | v, m'⟩
  · rw [Computation.bind_of_error hrun] at hform
    rw [hrun] at hadds
    exact .inl ⟨e, m', hform, hadds.quiet⟩
  · rw [Computation.bind_of_ok hrun] at hform
    rw [hrun] at hadds hanswer
    refine .inr ⟨v, _, hform, hanswer v rfl, ?_⟩
    have hquiet := hadds.quiet
    exact ⟨Store.contexts_define_congr hquiet.contexts name v, hquiet.functions, hquiet.history,
      hquiet.modules, hquiet.root, hquiet.objects, hquiet.disk, hquiet.logThreshold,
      hquiet.lists, hquiet.dicts⟩

/-- Importing a registered module fails without a trace, or it takes the bindings of the module
over. -/
theorem evaluate_importing (host : Host) (depth : Nat) {name : String} {module : Module}
    (hmodule : m.modules.get? name = some module) (hname : module.context.name = name)
    (hwords : m.store.PlainWords c)
    (hcode : m.store.IsCode expr (Clause.importing name).form) :
    (∃ e m', evaluate host depth expr c m = (.error e, m') ∧ Quiet m m') ∨
      ∃ v m', evaluate host depth expr c m = (.ok v, m') ∧
        Quiet (m.carriedOut c (.take module.context)) m' := by
  obtain ⟨id, codes, rfl, hcell, hcodes⟩ := hcode.list
  rcases hcodes with _ | ⟨hhead, _ | ⟨htarget, hnil⟩⟩
  cases hnil
  rw [hhead.atom rfl, htarget.atom rfl] at hcell
  rcases evaluate_wordCall host depth hcell hwords.importing with
    ⟨e, he⟩ | ⟨further, i, rfl, hcall⟩
  · exact .inl ⟨e, m, he, quiet.refl m⟩
  have himport : m.store.IsImportCall c name none (.list id) := ⟨i, "import", _, .plain, hcall⟩
  cases further with
  | zero => exact .inl ⟨_, m, himport.evaluate_one, quiet.refl m⟩
  | succ further =>
      have hprovide : provideModule (evaluate host (further + 1)) name m = (.ok module, m) :=
        Frame.provideModule_of_registered hmodule
      obtain ⟨m', hrun, hquiet⟩ := himport.evaluate_of_ok hprovide
      refine .inr ⟨_, m', hrun, ?_⟩
      rw [Machine.carriedOut, Store.carryOut, ContextId.qualifier, hname]
      exact hquiet

end

/-! ## Contexts with plain bindings -/

/-- The natives whose names plain sources are written with: name, whether lazy, and role. -/
def plainNatives : List (String × Bool × NativeRole) :=
  [("list", false, .builtin .list), ("dict", false, .builtin .dict),
    ("def", true, .form .defForm), ("import", true, .importModule)]

namespace Store

/-- Whether a root context binds the words of plain sources as it was made, and every other context
is inside it and binds nothing that can be called. -/
structure PlainIn (main : ContextId) (s : Store) : Prop where
  there : s.HasContext main
  outermost : (s.context main).parent = none
  natives : ∀ name lazy role, (name, lazy, role) ∈ plainNatives →
    ∃ id, s.own? main name = some (.native ⟨id, name, lazy, role⟩)
  constants : ∀ name v, (name, v) ∈ rootConstants → s.own? main name = some v
  parents : ∀ d, s.HasContext d → d.index ≠ main.index → (s.context d).parent = some main
  values : ∀ d, d.index ≠ main.index → ∀ entry ∈ (s.context d).table, entry.2.isCallable = false

variable {main : ContextId} {s s' : Store} {c : ContextId}

namespace PlainIn

/-- Nothing is lost when the root keeps its bindings and the others get values that cannot be
called. -/
theorem of_tables (h : s.PlainIn main) (hsize : s'.contexts.size = s.contexts.size)
    (hparents : ∀ d, (s'.context d).parent = (s.context d).parent)
    (hmain : (s'.context main).table = (s.context main).table)
    (hvalues : ∀ d, d.index ≠ main.index → ∀ entry ∈ (s'.context d).table,
      entry.2.isCallable = false) : s'.PlainIn main where
  there := Nat.lt_of_lt_of_eq h.there hsize.symm
  outermost := (hparents main).trans h.outermost
  natives := by
    simp only [own?, hmain]
    exact h.natives
  constants := by
    simp only [own?, hmain]
    exact h.constants
  parents d hd hother := (hparents d).trans (h.parents d (Nat.lt_of_lt_of_eq hd hsize) hother)
  values := hvalues

theorem congr (h : s.PlainIn main) (hcontexts : s'.contexts = s.contexts) : s'.PlainIn main := by
  refine h.of_tables (congrArg Array.size hcontexts) ?_ ?_ ?_
  all_goals simp only [context_congr hcontexts, implies_true]
  exact h.values

theorem define (h : s.PlainIn main) (hc : c.index ≠ main.index) (name : String) {v : Value}
    (hv : v.isCallable = false) : (s.define c name v).PlainIn main := by
  refine h.of_tables (size_updateContext ..) (fun d => ?_) ?_ fun d hd => ?_
  · exact context_updateContext_part ContextCell.parent (fun cell =>
      (rfl : ({ cell with table := cell.table.set name v } : ContextCell).parent = _)) s c d
  · exact congrArg ContextCell.table (context_updateContext_ne (Ne.symm hc) _)
  · have hcells : ∀ cell : ContextCell, (∀ entry ∈ cell.table, entry.2.isCallable = false) →
        ∀ entry ∈ cell.table.set name v, entry.2.isCallable = false :=
      fun cell hcell => Table.forall_set (P := fun v : Value => v.isCallable = false) hcell name hv
    exact context_updateContext_of (P := fun cell => ∀ entry ∈ cell.table,
      entry.2.isCallable = false) hcells (h.values d hd) c

theorem replaceTable (h : s.PlainIn main) (hc : c.index ≠ main.index) {table : Table Value}
    (htable : ∀ entry ∈ table, entry.2.isCallable = false) :
    (s.replaceTable c table).PlainIn main := by
  refine h.of_tables (size_updateContext ..) (fun d => ?_) ?_ fun d hd => ?_
  · exact context_updateContext_part ContextCell.parent (fun cell =>
      (rfl : ({ cell with table } : ContextCell).parent = _)) s c d
  · exact congrArg ContextCell.table (context_updateContext_ne (Ne.symm hc) _)
  · exact context_updateContext_of (P := fun cell => ∀ entry ∈ cell.table,
      entry.2.isCallable = false) (fun _ _ => htable) (h.values d hd) c

theorem reimport (h : s.PlainIn main) (hc : c.index ≠ main.index) {source : ContextId}
    (hsource : source.index ≠ main.index) (qualifier : String) :
    (s.reimport c source qualifier).PlainIn main := by
  refine h.of_tables (size_updateContext ..) (fun d => ?_) ?_ fun d hd => ?_
  · exact context_updateContext_part ContextCell.parent (fun cell =>
      (rfl : (cell.takeOver ..).parent = _)) s c d
  · exact congrArg ContextCell.table (context_updateContext_ne (Ne.symm hc) _)
  · have hfresh : ∀ entry ∈ (s.context source).table.map
          fun bound => (qualifier ++ bound.1, bound.2),
        entry.2.isCallable = false := by
      intro entry hentry
      obtain ⟨before, hbefore, rfl⟩ := List.mem_map.mp hentry
      exact h.values source hsource before hbefore
    exact context_updateContext_of (P := fun cell => ∀ entry ∈ cell.table,
      entry.2.isCallable = false)
      (fun cell hcell => cell.forall_takeOver (P := fun v : Value => v.isCallable = false) hcell
        hfresh source qualifier) (h.values d hd) c

theorem importFrom (h : s.PlainIn main) (hc : c.index ≠ main.index) {source : ContextId}
    (hsource : source.index ≠ main.index) (qualifier : String) :
    (s.importFrom c source qualifier).PlainIn main := by
  refine (h.reimport hc hsource qualifier).of_tables ?_ (fun d => ?_) ?_ fun d hd => ?_
  · rw [size_importFrom, size_reimport]
  · exact context_importFrom_part ContextCell.parent (fun _ _ => rfl) s c source d qualifier
  · exact context_importFrom_part ContextCell.table (fun _ _ => rfl) s c source main qualifier
  · rw [context_importFrom_part ContextCell.table fun _ _ => rfl]
    exact (h.reimport hc hsource qualifier).values d hd

/-- The chain from a context inside the root has these two at most. -/
theorem mem_chain (h : s.PlainIn main) (hc : s.HasContext c) (hother : c.index ≠ main.index)
    {d : ContextId} (hd : d ∈ s.chain c) : d = c ∨ d = main := by
  have hmain : ∀ further, s.chainWithin further main = [main] := by
    intro further
    cases further with
    | zero => rfl
    | succ further => rw [chainWithin, h.outermost]
  unfold chain at hd
  cases hindex : c.index with
  | zero =>
      rw [hindex, chainWithin] at hd
      exact .inl (List.mem_singleton.mp hd)
  | succ further =>
      rw [hindex, chainWithin, h.parents c hc hother] at hd
      simp only [hmain, List.mem_cons, List.not_mem_nil, or_false] at hd
      exact hd

/-- A name means what a context inside the root binds it to, or what the root does. -/
theorem own?_of_lookup? (h : s.PlainIn main) (hc : s.HasContext c) (hother : c.index ≠ main.index)
    {name : String} {v : Value} (hv : s.lookup? c name = some v) :
    v.isCallable = false ∨ s.own? main name = some v := by
  obtain ⟨d, hd, hown⟩ := List.exists_of_findSome?_eq_some hv
  rcases h.mem_chain hc hother hd with rfl | rfl
  · obtain ⟨key, hmem⟩ := Association.mem_of_get? hown
    exact .inl (h.values d hother _ hmem)
  · exact .inr hown

theorem plainWords (h : s.PlainIn main) (hc : s.HasContext c) (hother : c.index ≠ main.index) :
    s.PlainWords c := by
  have hnative : ∀ name lazy role, (name, lazy, role) ∈ plainNatives →
      s.MeansAtMost c name lazy role := by
    intro name lazy role hname v hv hcallable
    rcases h.own?_of_lookup? hc hother hv with hnot | hroot
    · rw [hnot] at hcallable
      cases hcallable
    · obtain ⟨id, hid⟩ := h.natives name lazy role hname
      exact ⟨id, Option.some.inj (hroot.symm.trans hid)⟩
  refine ⟨hnative _ _ _ ?_, hnative _ _ _ ?_, hnative _ _ _ ?_, hnative _ _ _ ?_, ?_⟩
  · simp [plainNatives]
  · simp [plainNatives]
  · simp [plainNatives]
  · simp [plainNatives]
  · intro name v w hname hw
    rcases h.own?_of_lookup? hc hother hw with hnot | hroot
    · exact hnot
    · rw [h.constants name v hname] at hroot
      cases hroot
      simp only [rootConstants, List.mem_cons, Prod.mk.injEq, List.not_mem_nil, or_false] at hname
      rcases hname with ⟨_, rfl⟩ | ⟨_, rfl⟩ | ⟨_, rfl⟩ <;> rfl

/-- A move keeps bindings plain if what it binds cannot be called, or comes from a context inside
the root. -/
theorem carryOut (h : s.PlainIn main) (hc : c.index ≠ main.index) {modules : Table Module}
    (hmodules : ∀ name module, modules.get? name = some module →
      module.context.index ≠ main.index) {clause : Clause} {move : Move}
    (hmove : clause.Does modules move) : (s.carryOut c move).PlainIn main := by
  cases hmove with
  | define hv => exact h.define hc _ hv
  | importing hmodule => exact h.importFrom hc (hmodules _ _ hmodule) _

end PlainIn

end Store

/-! ## Plain sources -/

section

variable {host : Host} {main c : ContextId} {m : Machine}

theorem Machine.Filled.of_quiet {m' : Machine} (h : Quiet m m') : m.Filled c [] m' :=
  ⟨h.contexts, h.modules, h.root, h.disk⟩

/-- A clause fails without a trace, or it carries out a move. -/
theorem evaluate_clause (host : Host) (depth : Nat) {clause : Clause} {expr : Value}
    (hfits : clause.Fits m.modules)
    (hnames : ∀ name module, m.modules.get? name = some module → module.context.name = name)
    (hwords : m.store.PlainWords c) (hcode : m.store.IsCode expr clause.form) :
    (∃ e m', evaluate host depth expr c m = (.error e, m') ∧ Quiet m m') ∨
      ∃ v move m', evaluate host depth expr c m = (.ok v, m') ∧ clause.Does m.modules move ∧
        Quiet (m.carriedOut c move) m' := by
  cases clause with
  | define name literal =>
      rcases evaluate_define host depth hfits hwords hcode with hfails | ⟨v, m', hrun, hv, hquiet⟩
      · exact .inl hfails
      · exact .inr ⟨v, _, m', hrun, .define hv, hquiet⟩
  | importing name =>
      obtain ⟨module, hmodule⟩ := Table.contains_iff.mp hfits
      rcases evaluate_importing host depth hmodule (hnames name module hmodule) hwords hcode with
        hfails | ⟨v, m', hrun, hquiet⟩
      · exact .inl hfails
      · exact .inr ⟨v, _, m', hrun, .importing hmodule, hquiet⟩

/-- Evaluating the forms of a plain source carries out one move for each form, up to one that
fails. -/
theorem evaluateForms_plain (host : Host) (depth : Nat) {clauses : List Clause}
    (hplain : m.store.PlainIn main) (hc : m.store.HasContext c) (hother : c.index ≠ main.index)
    (hfits : ∀ clause ∈ clauses, clause.Fits m.modules)
    (hmodules : ∀ name module, m.modules.get? name = some module →
      module.context.name = name ∧ module.context.index ≠ main.index) (result : Value) :
    ∃ done moves, done <+: clauses ∧ List.Forall₂ (Clause.Does m.modules) done moves ∧
      m.Filled c moves
        (evaluateForms (evaluate host depth) c result (clauses.map Clause.form) m).2 ∧
      ∀ v, (evaluateForms (evaluate host depth) c result (clauses.map Clause.form) m).1 = .ok v →
        done = clauses := by
  induction clauses generalizing m result with
  | nil => exact ⟨[], [], List.nil_prefix, .nil, .of_quiet (quiet.refl m), fun _ _ => rfl⟩
  | cons clause rest ih =>
      obtain ⟨hfirst, hrest⟩ := List.forall_mem_cons.mp hfits
      let expr := (m.store.ofForm clause.form).1
      let made := { m with store := (m.store.ofForm clause.form).2 }
      have hmade : Quiet m made := quiet_ofForm (ε := Fault) clause.form m
      have halloc : (allocate fun s => s.ofForm clause.form : Eval Value) m = (.ok expr, made) := rfl
      have hwords : made.store.PlainWords c :=
        (hplain.plainWords hc hother).congr hmade.contexts
      have hclause := evaluate_clause (m := made) host depth hfirst
        (fun name module hmodule => (hmodules name module hmodule).1) hwords
        (m.store.isCode_ofForm clause.form)
      rw [List.map_cons, evaluateForms, Computation.bind_of_ok halloc]
      rcases hclause with ⟨e, m', hrun, hquiet⟩ | ⟨v, move, m', hrun, hdoes, hquiet⟩
      · rw [Computation.bind_of_error hrun]
        exact ⟨[], [], List.nil_prefix, .nil, .of_quiet (quiet.trans hmade hquiet),
          fun v hv => by cases hv⟩
      · rw [Computation.bind_of_ok hrun]
        -- the state after the first form is, but for values, that after its move
        have hcontexts : m'.store.contexts = (m.store.carryOut c move).contexts :=
          hquiet.contexts.trans (Store.contexts_carryOut_congr hmade.contexts move)
        have hsame : m'.modules = m.modules := hquiet.modules
        have hplain' : m'.store.PlainIn main :=
          (hplain.carryOut hother (fun name module hmodule => (hmodules name module hmodule).2)
            hdoes).congr hcontexts
        have hc' : m'.store.HasContext c :=
          Nat.lt_of_lt_of_eq (hc.carryOut move) (congrArg Array.size hcontexts).symm
        rw [← hsame] at hrest hmodules
        obtain ⟨done, moves, hprefix, hdone, hfilled, hcomplete⟩ := ih hplain' hc' hrest hmodules v
        rw [hsame] at hdone
        refine ⟨clause :: done, move :: moves, List.cons_prefix_cons.mpr ⟨rfl, hprefix⟩,
          .cons hdoes hdone, ?_, fun w hw => congrArg (clause :: ·) (hcomplete w hw)⟩
        exact ⟨hfilled.contexts.trans (Store.contexts_fill_congr hcontexts),
          hfilled.modules.trans hsame, hfilled.root.trans hquiet.root,
          hfilled.disk.trans hquiet.disk⟩

/-- Evaluating a plain source carries out one move for each clause, up to one that fails. -/
theorem evaluateText_plain (host : Host) (depth : Nat) {text : String} {clauses : List Clause}
    (htext : PlainSource m.modules text clauses)
    (hplain : m.store.PlainIn main) (hc : m.store.HasContext c) (hother : c.index ≠ main.index)
    (hmodules : ∀ name module, m.modules.get? name = some module →
      module.context.name = name ∧ module.context.index ≠ main.index) :
    ∃ done moves, done <+: clauses ∧ List.Forall₂ (Clause.Does m.modules) done moves ∧
      m.Filled c moves (evaluateText (evaluate host depth) text c m).2 ∧
      ∀ v, (evaluateText (evaluate host depth) text c m).1 = .ok v → done = clauses := by
  have hforms := evaluateForms_plain host depth hplain hc hother htext.fits hmodules .nothing
  rw [← htext.forms] at hforms
  have htexteq : evaluateText (evaluate host depth) text c m =
      evaluateForms (evaluate host depth) c .nothing (parseAll text).forms m := by
    rcases hrun : evaluateForms (evaluate host depth) c .nothing (parseAll text).forms m with
      ⟨e | v, m'⟩
    · exact Computation.bind_of_error hrun
    · rw [evaluateText, Computation.bind_of_ok hrun, htext.complete]
      rfl
  rwa [htexteq]

end

end DispatchLisp
