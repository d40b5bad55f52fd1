import DispatchLisp.Proofs.Context.RefillTwice
import DispatchLisp.Proofs.Evaluation.PlainSource
import DispatchLisp.Proofs.Module.Reload
import DispatchLisp.Proofs.Session

/-!
# Proofs.Module.PlainRun — sessions that load and reload plain sources

A session in which modules are only loaded and reloaded, from plain sources, with any imports among
them. In each of its states contexts bind plain values, and imports are on record as plain sources
make them (`PlainRun.plain`). So a reload fills the context of its module anew and hands it on, or
it changes no bindings (`Machine.Plain.reload`).
-/

namespace DispatchLisp

/-- A move that takes bindings over is that of an import. -/
theorem importing_of_take {modules : Table Module} {clauses : List Clause} {moves : List Move}
    (h : List.Forall₂ (Clause.Does modules) clauses moves) {source : ContextId}
    (hsource : .take source ∈ moves) :
    ∃ name module, .importing name ∈ clauses ∧ modules.get? name = some module ∧
      source = module.context := by
  obtain ⟨clause, hclause, hdoes⟩ := exists_left_of_forall₂ h hsource
  cases hdoes with
  | importing hmodule => exact ⟨_, _, hclause, hmodule, rfl⟩

namespace Store

/-! ## Links that plain sources make -/

/-- Whether a context is there, goes by its name, and is not the root context. -/
structure Inner (main : ContextId) (named : Nat → String) (s : Store) (c : ContextId) : Prop where
  there : s.HasContext c
  named : c.name = named c.index
  other : c.index ≠ main.index

/-- Whether imports are on record as plain sources make them: none into the root context, each one
under the name of its source, and with names that begin so. -/
structure PlainLinks (main : ContextId) (named : Nat → String) (s : Store) : Prop where
  users : ∀ d, s.Inner main named d → UsersInOrder named s d
  importers : ∀ d, s.Inner main named d → ∀ user ∈ s.users d, user.index ≠ main.index
  records : ∀ d source qualifier, s.onRecord d source qualifier ⊆ behind qualifier Set.univ

variable {main c : ContextId} {named : Nat → String} {s s' : Store} {moves : List Move}

theorem Inner.of_size {d : ContextId} (h : s.Inner main named d)
    (hsize : s'.contexts.size = s.contexts.size) : s'.Inner main named d :=
  ⟨Nat.lt_of_lt_of_eq h.there hsize.symm, h.named, h.other⟩

namespace PlainLinks

/-- Links stay plain when the same contexts have the same users. -/
theorem of_usages (h : s.PlainLinks main named) (hsize : s'.contexts.size = s.contexts.size)
    (husages : ∀ d, (s'.context d).usages = (s.context d).usages)
    (hrecords : ∀ d source qualifier, s'.onRecord d source qualifier ⊆ behind qualifier Set.univ) :
    s'.PlainLinks main named where
  users d hd := (h.users d (hd.of_size hsize.symm)).congr hsize (husages d)
  importers d hd := by
    rw [Store.users, husages]
    exact h.importers d (hd.of_size hsize.symm)
  records := hrecords

theorem congr (h : s.PlainLinks main named) (hcontexts : s'.contexts = s.contexts) :
    s'.PlainLinks main named := by
  refine h.of_usages (congrArg Array.size hcontexts) (fun d => ?_) fun d source qualifier => ?_
  · rw [context_congr hcontexts]
  · rw [onRecord, context_congr hcontexts]
    exact h.records d source qualifier

theorem replaceTable (h : s.PlainLinks main named) (table : Table Value) :
    (s.replaceTable c table).PlainLinks main named := by
  refine h.of_usages (size_replaceTable ..) (usages_replaceTable table) fun d source qualifier => ?_
  rw [onRecord_replaceTable]
  exact h.records d source qualifier

theorem carryOut (h : s.PlainLinks main named) (hc : s.Inner main named c) {move : Move}
    (hmove : ∀ source, move = .take source → source.name = named source.index) :
    (s.carryOut c move).PlainLinks main named := by
  have hbefore : ∀ d, (s.carryOut c move).Inner main named d → s.Inner main named d :=
    fun d hd => hd.of_size (size_carryOut move).symm
  constructor
  · intro d hd
    have hd := hbefore d hd
    exact (h.users d hd).carryOut hd.there hd.named hc.there hc.named hmove
  · intro d hd user huser
    have hd := hbefore d hd
    rcases usages_carryOut (c := c) (h.users d hd) hd.there hd.named hmove with
      ⟨_, _, husages⟩ | ⟨_, husages⟩
    · rw [Store.users, husages, List.map_append] at huser
      rcases List.mem_append.mp huser with hold | hadded
      · exact h.importers d hd user hold
      · rw [List.mem_singleton.mp hadded]
        exact hc.other
    · rw [Store.users, husages] at huser
      exact h.importers d hd user huser
  · intro d source qualifier
    cases move with
    | bind name v =>
        rw [onRecord_bind]
        exact h.records d source qualifier
    | take taken =>
        rw [onRecord_take hc.there]
        split
        case isTrue hsame =>
          rw [← hsame.2.2]
          exact behind_subset_univ
        case isFalse => exact h.records d source qualifier

theorem fill (h : s.PlainLinks main named) (hc : s.Inner main named c)
    (hmoves : ∀ source, .take source ∈ moves → source.name = named source.index) :
    (s.fill c moves).PlainLinks main named := by
  induction moves generalizing s with
  | nil => exact h
  | cons move rest ih =>
      have hmove : ∀ source, move = .take source → source.name = named source.index :=
        fun source heq => hmoves source (heq ▸ List.mem_cons_self)
      exact ih (h.carryOut hc hmove) (hc.of_size (size_carryOut move))
        fun source hsource => hmoves source (List.mem_cons_of_mem _ hsource)

theorem propagate (h : s.PlainLinks main named) (hc : s.Inner main named c) :
    (s.propagate c).PlainLinks main named := by
  have husers := h.users c hc
  rw [propagate_eq_handOn husers]
  exact h.of_usages (size_handOn ..) (fun d => usages_handOn _ _ _ d) fun d source qualifier =>
    onRecord_handOn_subset husers.distinct (h.records d source qualifier)

end PlainLinks

/-! ## Values that plain sources bind -/

theorem PlainIn.fill (h : s.PlainIn main) (hc : c.index ≠ main.index) {modules : Table Module}
    (hmodules : ∀ name module, modules.get? name = some module →
      module.context.index ≠ main.index) {clauses : List Clause}
    (hdoes : List.Forall₂ (Clause.Does modules) clauses moves) : (s.fill c moves).PlainIn main := by
  induction hdoes generalizing s with
  | nil => exact h
  | cons hmove _ ih => exact ih (h.carryOut hc hmodules hmove)

theorem PlainIn.handOn (h : s.PlainIn main) (hc : c.index ≠ main.index) (qualifier : String)
    {users : List ContextId} (husers : ∀ user ∈ users, user.index ≠ main.index) :
    (s.handOn c qualifier users).PlainIn main :=
  List.foldlRecOn (motive := fun s : Store => s.PlainIn main) users
    (fun s user => s.reimport user c qualifier) h
    fun _ hs' user huser => hs'.reimport (husers user huser) hc qualifier

/-! ## What a reload does to the store -/

theorem size_fill (moves : List Move) :
    (s.fill c moves).contexts.size = s.contexts.size :=
  List.foldlRecOn (motive := fun s' : Store => s'.contexts.size = s.contexts.size) moves
    (Store.carryOut c) rfl fun _ hs' move _ => (size_carryOut move).trans hs'

theorem size_propagate (source : ContextId) :
    (s.propagate source).contexts.size = s.contexts.size := by
  rw [propagate_eq]
  exact List.foldlRecOn (motive := fun s' : Store => s'.contexts.size = s.contexts.size) _ _ rfl
    fun _ hs' _ _ => (size_reimport ..).trans hs'

theorem contexts_propagate_congr (h : s'.contexts = s.contexts) (source : ContextId) :
    (s'.propagate source).contexts = (s.propagate source).contexts := by
  rw [propagate_eq, propagate_eq, context_congr h]
  exact List.foldl_rel (r := fun s' s : Store => s'.contexts = s.contexts) h
    fun user _ _ _ hsame => contexts_reimport_congr hsame user.1 source user.2

/-- No names have changed when the bindings from before are put back. -/
theorem names_restored (hc : s.HasContext c)
    (hcontexts : s'.contexts = (s.refilled c moves).contexts) (d : ContextId) :
    (s'.replaceTable c (s.context c).table).names d = s.names d := by
  by_cases hd : d.index = c.index
  · have hthere : s'.HasContext d := by
      refine Nat.lt_of_lt_of_eq (hc.of_index hd) ?_
      rw [hcontexts, refilled, size_fill, size_replaceTable]
    rw [names, Store.replaceTable, context_updateContext_self hd hthere, names_of_index s hd, names]
  · rw [names, Store.replaceTable, context_updateContext_ne hd, ← names, names_congr hcontexts,
      names_refilled_ne hc hd]

/-! ## A new context -/

/-- The names that contexts go by once a new one is made. -/
def namedNext (s : Store) (named : Nat → String) (name : String) : Nat → String :=
  fun i => if i = s.contexts.size then name else named i

theorem namedNext_of_lt {i : Nat} (h : i < s.contexts.size) (name : String) :
    s.namedNext named name i = named i :=
  if_neg (Nat.ne_of_lt h)

theorem Inner.newContext {d : ContextId} (h : s.Inner main named d) (name : String)
    (parent : Option ContextId) :
    (s.newContext name parent).2.Inner main (s.namedNext named name) d where
  there := h.there.newContext name parent
  named := by
    rw [namedNext_of_lt h.there]
    exact h.named
  other := h.other

/-- A context without users has them in order. -/
theorem UsersInOrder.of_unused {d : ContextId} (h : (s.context d).usages = []) :
    UsersInOrder named s d := by
  have hempty : s.users d = [] := by
    rw [Store.users, h, List.map_nil]
  constructor
  · rw [hempty]
    exact ⟨fun user huser => (List.not_mem_nil huser).elim, .nil⟩
  · rw [h]
    exact fun u hu => (List.not_mem_nil hu).elim
  · rw [hempty]
    exact fun user huser => (List.not_mem_nil huser).elim

theorem UsersInOrder.newContext {d : ContextId} (h : UsersInOrder named s d) (name : String)
    (parent : Option ContextId) :
    UsersInOrder (s.namedNext named name) (s.newContext name parent).2 d := by
  have husages : ((s.newContext name parent).2.context d).usages = (s.context d).usages :=
    context_newContext_part ContextCell.usages (fun _ => rfl) s name parent d
  have husers : (s.newContext name parent).2.users d = s.users d := by
    rw [Store.users, husages, Store.users]
  have hthere := h.distinct.there
  constructor
  · rw [husers]
    exact ⟨fun user huser => (hthere user huser).newContext name parent, h.distinct.apart⟩
  · rw [husages]
    exact h.qualifiers
  · rw [husers]
    intro user huser
    rw [namedNext_of_lt (hthere user huser)]
    exact h.names user huser

theorem PlainLinks.newContext (h : s.PlainLinks main named) (name : String)
    (parent : Option ContextId) :
    (s.newContext name parent).2.PlainLinks main (s.namedNext named name) := by
  have husages : ∀ d, ((s.newContext name parent).2.context d).usages = (s.context d).usages :=
    context_newContext_part ContextCell.usages (fun _ => rfl) s name parent
  -- a context that was there before has its users, and the new one has none
  have hcases : ∀ d, (s.newContext name parent).2.Inner main (s.namedNext named name) d →
      s.Inner main named d ∨ (s.context d).usages = [] := by
    intro d hd
    by_cases hthere : s.HasContext d
    · refine .inl ⟨hthere, ?_, hd.other⟩
      rw [hd.named, namedNext_of_lt hthere]
    · right
      rw [context_of_not_hasContext hthere]
  constructor
  · intro d hd
    rcases hcases d hd with hbefore | hnone
    · exact (h.users d hbefore).newContext name parent
    · exact .of_unused ((husages d).trans hnone)
  · intro d hd user huser
    rw [Store.users, husages] at huser
    rcases hcases d hd with hbefore | hnone
    · exact h.importers d hbefore user huser
    · rw [hnone] at huser
      cases huser
  · intro d source qualifier
    have himports : ((s.newContext name parent).2.context d).imports = (s.context d).imports :=
      context_newContext_part ContextCell.imports (fun _ => rfl) s name parent d
    rw [onRecord, himports]
    exact h.records d source qualifier

theorem PlainIn.newContext (h : s.PlainIn main) (name : String) :
    (s.newContext name (some main)).2.PlainIn main := by
  have htables : ∀ d, ((s.newContext name (some main)).2.context d).table = (s.context d).table :=
    context_newContext_part ContextCell.table (fun _ => rfl) s name (some main)
  constructor
  · exact h.there.newContext name _
  · rw [context_newContext h.there]
    exact h.outermost
  · simp only [own?, htables]
    exact h.natives
  · simp only [own?, htables]
    exact h.constants
  · intro d hd hother
    by_cases hthere : s.HasContext d
    · rw [context_newContext hthere]
      exact h.parents d hthere hother
    · have hnew := ((hasContext_newContext_iff name _).mp hd).resolve_left hthere
      rw [context_newContext_new hnew]
  · intro d hother
    rw [htables]
    exact h.values d hother

end Store

/-! ## Plain states -/

theorem Machine.Filled.inner {main c d : ContextId} {named : Nat → String} {m m' : Machine}
    {moves : List Move} (h : m.Filled c moves m') (hd : m.store.Inner main named d) :
    m'.store.Inner main named d := by
  refine hd.of_size ?_
  rw [h.contexts, Store.size_fill]

/-- Whether a machine is in a state that loading and reloading plain sources leads to, when contexts
go by certain names. -/
structure Machine.Plain (main : ContextId) (named : Nat → String) (m : Machine) : Prop where
  bindings : m.store.PlainIn main
  links : m.store.PlainLinks main named
  root : m.root = some main
  names : ∀ name module, m.modules.get? name = some module →
    module.name = name ∧ module.context.name = name
  modules : ∀ name module, m.modules.get? name = some module →
    m.store.Inner main named module.context

namespace Machine.Plain

variable {host : Host} {main c : ContextId} {named : Nat → String} {m m' : Machine}
  {clauses : List Clause} {moves : List Move} {name text : String}

theorem of_modules (h : m.Plain main named) (hbindings : m'.store.PlainIn main)
    (hlinks : m'.store.PlainLinks main named)
    (hsize : m'.store.contexts.size = m.store.contexts.size) (hroot : m'.root = m.root)
    (hmodules : m'.modules = m.modules) : m'.Plain main named where
  bindings := hbindings
  links := hlinks
  root := hroot.trans h.root
  names := by
    rw [hmodules]
    exact h.names
  modules := by
    rw [hmodules]
    exact fun name module hmodule => (h.modules name module hmodule).of_size hsize

theorem of_contexts (h : m.Plain main named) (hcontexts : m'.store.contexts = m.store.contexts)
    (hroot : m'.root = m.root) (hmodules : m'.modules = m.modules) : m'.Plain main named :=
  h.of_modules (h.bindings.congr hcontexts) (h.links.congr hcontexts)
    (congrArg Array.size hcontexts) hroot hmodules

theorem of_quiet (h : m.Plain main named) (hquiet : Quiet m m') : m'.Plain main named :=
  h.of_contexts hquiet.contexts hquiet.root hquiet.modules

theorem withTable (h : m.Plain main named) (hc : m.store.Inner main named c)
    {table : Table Value} (htable : ∀ entry ∈ table, entry.2.isCallable = false) :
    (m.withTable c table).Plain main named :=
  h.of_modules (h.bindings.replaceTable hc.other htable) (h.links.replaceTable table)
    (Store.size_replaceTable ..) rfl rfl

/-- What an import takes over from is a context of a module. -/
theorem source_inner (h : m.Plain main named)
    (hdoes : List.Forall₂ (Clause.Does m.modules) clauses moves) {source : ContextId}
    (hsource : .take source ∈ moves) : m.store.Inner main named source := by
  obtain ⟨name, module, _, hmodule, rfl⟩ := importing_of_take hdoes hsource
  exact h.modules name module hmodule

theorem filled (h : m.Plain main named) (hc : m.store.Inner main named c)
    (hdoes : List.Forall₂ (Clause.Does m.modules) clauses moves) (hfilled : m.Filled c moves m') :
    m'.Plain main named := by
  have hbindings := h.bindings.fill hc.other
    (fun name module hmodule => (h.modules name module hmodule).other) hdoes
  have hlinks := h.links.fill hc fun source hsource => (h.source_inner hdoes hsource).named
  refine h.of_modules (hbindings.congr hfilled.contexts) (hlinks.congr hfilled.contexts) ?_
    hfilled.root hfilled.modules
  rw [hfilled.contexts, Store.size_fill]

theorem propagated (h : m.Plain main named) (hc : m.store.Inner main named c) :
    (m.propagated c).Plain main named := by
  have husers := h.links.users c hc
  have hsame : (m.propagated c).store = m.store.handOn c c.qualifier (m.store.users c) :=
    Store.propagate_eq_handOn husers
  refine h.of_modules ?_ (h.links.propagate hc) ?_ rfl rfl
  · rw [hsame]
    exact h.bindings.handOn hc.other _ (h.links.importers c hc)
  · rw [hsame, Store.size_handOn]

theorem register (h : m.Plain main named) (module : Module)
    (hc : m.store.Inner main named module.context) (hname : module.context.name = module.name) :
    Plain main named { m with modules := m.modules.set module.name module } := by
  refine ⟨h.bindings, h.links, h.root, fun other registered hregistered => ?_,
    fun other registered hregistered => ?_⟩
  all_goals rw [Table.get?_set] at hregistered
  all_goals split at hregistered
  case isTrue heq =>
    cases hregistered
    exact ⟨heq, hname.trans heq⟩
  case isFalse => exact h.names other registered hregistered
  case isTrue heq =>
    cases hregistered
    exact hc
  case isFalse => exact h.modules other registered hregistered

theorem inNewContext (h : m.Plain main named) (name : String) :
    (m.inNewContext name m.root).Plain main (m.store.namedNext named name) ∧
      (m.inNewContext name m.root).store.Inner main (m.store.namedNext named name)
        (m.nextContext name) := by
  have hroot := h.root
  constructor
  · constructor
    · rw [Machine.inNewContext, hroot]
      exact h.bindings.newContext name
    · exact h.links.newContext name _
    · exact hroot
    · exact h.names
    · exact fun other module hmodule => (h.modules other module hmodule).newContext name _
  · constructor
    · exact m.store.hasContext_newContext name _
    · exact (if_pos rfl).symm
    · exact Nat.ne_of_gt h.bindings.there

/-! ## Loading and reloading -/

/-- Evaluating a plain source in the context of a module fills it. -/
theorem evaluateText (h : m.Plain main named) (hc : m.store.Inner main named c) (host : Host)
    (htext : PlainSource m.modules text clauses) :
    ∃ done moves, done <+: clauses ∧ List.Forall₂ (Clause.Does m.modules) done moves ∧
      m.Filled c moves (evaluateText (evaluateIn host) text c m).2 ∧
      ∀ v, (DispatchLisp.evaluateText (evaluateIn host) text c m).1 = .ok v → done = clauses :=
  evaluateText_plain host depthLimit htext h.bindings hc.there hc.other fun name module hmodule =>
    ⟨(h.names name module hmodule).2, (h.modules name module hmodule).other⟩

/-- Loading a plain source leads to a plain state, also when it fails. -/
theorem load (h : m.Plain main named) (host : Host) (htext : PlainSource m.modules text clauses)
    (name : String) (path : Option Path) :
    ∃ named, (loadModule (evaluateIn host) name text path m).2.Plain main named := by
  obtain ⟨hnew, hinner⟩ := h.inNewContext name
  obtain ⟨done, moves, _, hdoes, hfilled, _⟩ := hnew.evaluateText hinner host htext
  have hafter := hnew.filled hinner hdoes hfilled
  refine ⟨m.store.namedNext named name, ?_⟩
  rcases hrun : DispatchLisp.evaluateText (evaluateIn host) text (m.nextContext name)
    (m.inNewContext name m.root) with ⟨e | v, after⟩
  · rw [hrun] at hafter
    rw [Frame.loadModule_of_error hrun]
    exact hafter
  · rw [hrun] at hafter hfilled
    obtain ⟨m', hload, hquiet⟩ := Frame.loadModule_of_ok hrun path
    rw [hload]
    have hregistered := hafter.register ⟨name, m.nextContext name, text, path⟩
      (hfilled.inner hinner) rfl
    exact hregistered.of_quiet hquiet

/-- A reload from a plain source changes no names, or it fills the context of the module anew. -/
theorem reload (ε : Type) (h : m.Plain main named) (host : Host) {module : Module}
    {given : Option String} (hmodule : m.modules.get? name = some module)
    (hsource : reloadSource module given m = (.ok text, m))
    (htext : PlainSource m.modules text clauses) :
    (∃ e m', (Interpreter.reload host name given : Computation ε _) m = (.ok (.error e), m') ∧
      m'.Plain main named ∧ ∀ d, m'.store.names d = m.store.names d) ∨
    ∃ moves m', (Interpreter.reload host name given : Computation ε _) m =
        (.ok (.ok { module with source := text }), m') ∧
      m'.Plain main named ∧ List.Forall₂ (Clause.Does m.modules) clauses moves ∧
      m'.store.contexts = (m.store.refill module.context moves).contexts ∧
      m'.modules = m.modules.set name { module with source := text } := by
  have hc := h.modules name module hmodule
  have hemptied : (m.emptied module.context).Plain main named :=
    h.withTable hc fun _ hentry => (List.not_mem_nil hentry).elim
  have hthere : (m.emptied module.context).store.Inner main named module.context :=
    hc.of_size (Store.size_replaceTable ..)
  rcases @reload_cases ε host name given m with
    ⟨e, m', hresult, hquiet⟩ | ⟨module', text', after, hmodule', hsource', hcases⟩
  · exact .inl ⟨e, m', hresult, h.of_quiet hquiet, Store.names_congr hquiet.contexts⟩
  cases hmodule.symm.trans hmodule'
  cases hsource.symm.trans hsource'
  obtain ⟨done, moves, _, hdoes, hfilled, hcomplete⟩ := hemptied.evaluateText hthere host htext
  have hplain := hemptied.filled hthere hdoes hfilled
  rcases hcases with ⟨e, m', hrun, hresult, hquiet⟩ | ⟨v, m', hrun, hresult, hquiet⟩
  all_goals rw [hrun] at hfilled hplain hcomplete
  all_goals have hafter := hfilled.inner hthere
  · -- the bindings from before are put back
    have hback := hplain.withTable hafter (h.bindings.values module.context hc.other)
    refine .inl ⟨e, m', hresult, hback.of_quiet hquiet, fun d => ?_⟩
    rw [Store.names_congr hquiet.contexts]
    exact Store.names_restored hc.there hfilled.contexts d
  · cases hcomplete v rfl
    have hnames := h.names name module hmodule
    have hhanded := (hplain.propagated hafter).register { module with source := text }
      (hafter.of_size (Store.size_propagate ..)) (hnames.2.trans hnames.1.symm)
    refine .inr ⟨moves, m', hresult, hhanded.of_quiet hquiet, hdoes, ?_, ?_⟩
    · rw [hquiet.contexts]
      exact Store.contexts_propagate_congr hfilled.contexts module.context
    · have hmodules : after.modules = m.modules := hfilled.modules
      rw [hquiet.modules, ← hmodules, ← hnames.1]
      rfl

end Machine.Plain

/-! ## Sessions -/

/-- Whether a request loads or reloads a plain source, or changes the disk. -/
def Request.Plain (m : Machine) : Request → Prop
  | .load _ source => ∃ clauses, PlainSource m.modules source clauses
  | .loadFile name => ∀ path, m.disk.resolve? name = .ok (some path) →
    ∃ clauses, PlainSource m.modules ((m.disk.read? path).getD "") clauses
  | .reload name given => ∀ module text, m.modules.get? name = some module →
    reloadSource module given m = (.ok text, m) → ∃ clauses, PlainSource m.modules text clauses
  | .changeDisk _ => True
  | _ => False

/-- The states that a new interpreter reaches when modules are loaded and reloaded from plain
sources. -/
inductive PlainRun (host : Host) (main : ContextId) : Machine → Prop where
  | start {disk : Disk} {logThreshold : Nat} {m : Machine} :
      Interpreter.start host none (.initial disk logThreshold) = (.ok main, m) →
      PlainRun host main m
  | step {m : Machine} (request : Request) :
      PlainRun host main m → request.Plain m → PlainRun host main (request.perform host main m)

section

variable {host : Host} {main : ContextId} {m : Machine}

theorem Store.plainIn_first : Store.first.PlainIn firstRoot where
  there := hasContext_first
  outermost := by decide +kernel
  natives := by
    intro name lazy role hname
    obtain ⟨id, hown⟩ := own?_first
    rw [hown]
    simp only [plainNatives, List.mem_cons, Prod.mk.injEq, List.not_mem_nil, or_false] at hname
    rcases hname with ⟨rfl, rfl, rfl⟩ | ⟨rfl, rfl, rfl⟩ | ⟨rfl, rfl, rfl⟩ | ⟨rfl, rfl, rfl⟩
    case inr.inr.inr => exact ⟨id, rfl⟩
    all_goals rw [if_neg (by decide)]
    all_goals exact empty.own?_newRoot_native (by decide)
  constants := by
    intro name v hname
    obtain ⟨_, hown⟩ := own?_first
    rw [hown, if_neg]
    · exact empty.own?_newRoot_constant hname
    · rintro rfl
      simp [rootConstants] at hname
  parents := by
    intro d hd hother
    exact absurd (hasContext_first_iff.mp hd) hother
  values := by
    intro d hother entry hentry
    have hnot : ¬ Store.first.HasContext d := mt hasContext_first_iff.mp hother
    rw [context_of_not_hasContext hnot] at hentry
    cases hentry

theorem Store.plainLinks_first (named : Nat → String) :
    Store.first.PlainLinks firstRoot named := by
  have hnone : ∀ d, ¬ Store.first.Inner firstRoot named d := fun d hd =>
    hd.other (hasContext_first_iff.mp hd.there)
  refine ⟨fun d hd => absurd hd (hnone d), fun d hd => absurd hd (hnone d), ?_⟩
  intro d source qualifier
  have himports : (Store.first.context d).imports = [] := by
    by_cases hd : d.index = firstRoot.index
    · rw [context_of_index _ hd]
      decide +kernel
    · rw [context_of_not_hasContext (mt hasContext_first_iff.mp hd)]
  rw [onRecord, himports]
  exact fun name hname => (List.not_mem_nil hname).elim

/-- A new interpreter is in a plain state. -/
theorem plain_start {disk : Disk} {logThreshold : Nat}
    (h : Interpreter.start host none (.initial disk logThreshold) = (.ok main, m)) :
    m.Plain main fun _ => rootName := by
  rw [start_eq] at h
  cases h
  exact ⟨Store.plainIn_first, Store.plainLinks_first _, rfl, nofun, nofun⟩

theorem plain_perform {named : Nat → String} (h : m.Plain main named) (request : Request)
    (hplain : request.Plain m) : ∃ named, (request.perform host main m).Plain main named := by
  cases request with
  | load name source =>
      obtain ⟨clauses, htext⟩ := hplain
      exact h.load host htext name none
  | loadFile name =>
      have hask : (ask Machine.disk : NativeEval Disk) m = (.ok m.disk, m) := rfl
      show ∃ named, (loadModuleFile (evaluateIn host) name m).2.Plain main named
      -- without a file nothing is done; with one it is loading the source that is read from it
      rw [loadModuleFile, Computation.bind_of_ok hask]
      rcases hfound : m.disk.resolve? name with e | _ | path
      · exact ⟨named, h⟩
      · exact ⟨named, h⟩
      · obtain ⟨clauses, htext⟩ := hplain path hfound
        simp only [liftM_snd]
        exact h.load host htext name (some path)
  | reload name given =>
      rcases @reload_cases Fault host name given m with
        ⟨e, m', hresult, hquiet⟩ | ⟨module, text, _, hmodule, hsource, _⟩
      · refine ⟨named, ?_⟩
        rw [Request.perform, hresult]
        exact h.of_quiet hquiet
      · obtain ⟨clauses, htext⟩ := hplain module text hmodule hsource
        refine ⟨named, ?_⟩
        rcases h.reload Fault host hmodule hsource htext with
          ⟨e, m', hresult, hafter, _⟩ | ⟨moves, m', hresult, hafter, _⟩
        all_goals rw [Request.perform, hresult]
        all_goals exact hafter
  | changeDisk disk => exact ⟨named, h.of_contexts rfl rfl rfl⟩
  | eval | run | importModule | defineNative | defineType | registerObject => exact hplain.elim

/-- Loading and reloading plain sources leads to plain states. -/
theorem PlainRun.plain (h : PlainRun host main m) : ∃ named, m.Plain main named := by
  induction h with
  | start h => exact ⟨_, plain_start h⟩
  | step request _ hplain ih =>
      obtain ⟨named, hm⟩ := ih
      exact plain_perform hm request hplain

end

end DispatchLisp
