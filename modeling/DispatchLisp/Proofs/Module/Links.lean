import DispatchLisp.Proofs.Context.Links
import DispatchLisp.Proofs.Module.Reload
import DispatchLisp.Proofs.Session

/-!
# Proofs.Module.Links — which imports a context is linked to

Every import that an evaluation makes adds a link to its importer, and nothing else adds or
removes one. A reload is no exception: it puts back bindings, never links, so a module keeps the
links of all its earlier sources, also of those that failed.

Main statements: `linkStep_perform`, what one request does to links; `Session.linked`, links are
in order in every state of a session; `reload_links`, what a reload makes of the links of a
module.
-/

namespace DispatchLisp

/-- Whether a list of imports has one with an importer, a source and a qualifier. -/
def MadeImport (made : List Import) (importer source : ContextId) (qualifier : String) : Prop :=
  ∃ i ∈ made, i.importer.index = importer.index ∧ i.source.index = source.index ∧
    i.qualifier = qualifier

theorem madeImport_append {made made' : List Import} {importer source : ContextId}
    {qualifier : String} : MadeImport (made ++ made') importer source qualifier ↔
      MadeImport made importer source qualifier ∨ MadeImport made' importer source qualifier := by
  simp only [MadeImport, List.mem_append, or_and_right, exists_or]

/-! ## The links of a machine -/

/-- Whether links are in order: importers and sources agree on them, they are those of the imports
that have been made, and the registered modules have contexts. -/
structure Machine.Linked (m : Machine) : Prop where
  agree : m.store.LinksAgree
  made : ∀ importer source qualifier, m.store.Imports importer source qualifier ↔
    MadeImport m.store.history importer source qualifier
  modules : ∀ name module, m.modules.get? name = some module → m.store.HasContext module.context

/-- Registering a module that has a context. -/
theorem hasContext_of_registered {modules : Table Module} {s : Store} {added : Module}
    (h : ∀ name module, modules.get? name = some module → s.HasContext module.context)
    (hadded : s.HasContext added.context) (key : String) :
    ∀ name module, (modules.set key added).get? name = some module →
      s.HasContext module.context := by
  intro name module hmodule
  by_cases hsame : key = name
  · subst hsame
    rw [Table.get?_set_self] at hmodule
    cases hmodule
    exact hadded
  · rw [Table.get?_set_ne _ hsame] at hmodule
    exact h name module hmodule

/-- What a step in a context does to links: they stay in order, and the imports that it makes are
made by the context itself and by contexts that are new. -/
structure LinkStep (c : ContextId) (m m' : Machine) : Prop where
  linked : m'.Linked
  size : m.store.contexts.size ≤ m'.store.contexts.size
  made : ∃ made, m'.store.history = m.store.history ++ made ∧
    ∀ i ∈ made, i.importer.index = c.index ∨ m.store.contexts.size ≤ i.importer.index

namespace LinkStep

variable {c : ContextId} {m m' m'' : Machine}

theorem hasContext (h : LinkStep c m m') {d : ContextId} (hd : m.store.HasContext d) :
    m'.store.HasContext d :=
  Nat.lt_of_lt_of_le hd h.size

/-- Links are never removed: those after a step are the earlier ones and the ones it made. -/
theorem imports (h : LinkStep c m m') (hm : m.Linked) {made : List Import}
    (hhistory : m'.store.history = m.store.history ++ made) (importer source : ContextId)
    (qualifier : String) : m'.store.Imports importer source qualifier ↔
      m.store.Imports importer source qualifier ∨ MadeImport made importer source qualifier := by
  -- on both sides the links are the imports that have been made
  rw [h.linked.made, hm.made, hhistory, madeImport_append]

/-- Steps that keep all links. -/
theorem of_sameLinks (hm : m.Linked) (h : Store.SameLinks m.store m'.store)
    (hmodules : ∀ name module, m'.modules.get? name = some module →
      m.store.HasContext module.context) : LinkStep c m m' := by
  have hlinked : m'.Linked := by
    constructor
    · exact h.agree hm.agree
    · intro importer source qualifier
      rw [h.imports, h.history]
      exact hm.made importer source qualifier
    · intro name module hmodule
      have hthere := hmodules name module hmodule
      unfold Store.HasContext at hthere ⊢
      rwa [h.size]
  refine ⟨hlinked, Nat.le_of_eq h.size.symm, [], ?_, ?_⟩
  · rw [h.history, List.append_nil]
  · intro i hi
    cases hi

theorem of_quiet (hm : m.Linked) (h : Quiet m m') : LinkStep c m m' := by
  refine .of_sameLinks hm (Store.sameLinks_of_contexts h.contexts h.history) ?_
  rw [h.modules]
  exact hm.modules

theorem trans (h : LinkStep c m m') (h' : LinkStep c m' m'') : LinkStep c m m'' := by
  rcases h.made with ⟨made, hhistory, himporters⟩
  rcases h'.made with ⟨made', hhistory', himporters'⟩
  refine ⟨h'.linked, Nat.le_trans h.size h'.size, made ++ made', ?_, ?_⟩
  · rw [hhistory', hhistory, List.append_assoc]
  · intro i hi
    rcases List.mem_append.mp hi with hi | hi
    · exact himporters i hi
    · exact (himporters' i hi).imp id (Nat.le_trans h.size)

end LinkStep

/-- A step in a context that there is, from a machine whose links agree. -/
def Linking (c : ContextId) (m m' : Machine) : Prop :=
  m.store.HasContext c → m.Linked → LinkStep c m m'

theorem linked_inNewContext {m : Machine} (hm : m.Linked) (name : String)
    (parent : Option ContextId) : (m.inNewContext name parent).Linked := by
  constructor
  · exact Store.agree_newContext hm.agree name parent
  · intro importer source qualifier
    exact (Store.imports_newContext m.store name parent importer source qualifier).trans
      (hm.made importer source qualifier)
  · intro name' module hmodule
    exact (hm.modules name' module hmodule).newContext name parent

/-- Work in a new context makes no imports into the contexts there were. -/
theorem Linking.leave {c : ContextId} {m m' : Machine} {name : String} {parent : Option ContextId}
    (h : Linking (m.nextContext name) (m.inNewContext name parent) m') (hm : m.Linked) :
    LinkStep c m m' ∧ m'.store.HasContext (m.nextContext name) := by
  have hsize : (m.inNewContext name parent).store.contexts.size = m.store.contexts.size + 1 :=
    Store.size_newContext m.store name parent
  have hplace : (m.nextContext name).index = m.store.contexts.size := rfl
  have hnew : (m.inNewContext name parent).store.HasContext (m.nextContext name) :=
    m.store.hasContext_newContext name parent
  have hstep := h hnew (linked_inNewContext hm name parent)
  -- the new context is itself new to the state before, and so is everything made after it
  rcases hstep.made with ⟨made, hhistory, himporters⟩
  refine ⟨⟨hstep.linked, ?_, made, hhistory, ?_⟩, hstep.hasContext hnew⟩
  · have := hstep.size
    omega
  · intro i hi
    rcases himporters i hi with h | h
    · exact .inr (by omega)
    · exact .inr (by omega)

/-- A source that was evaluated in a new context becomes a module, also in place of another. -/
theorem Linking.register {c : ContextId} {m m' : Machine} {name : String}
    {parent : Option ContextId}
    (h : Linking (m.nextContext name) (m.inNewContext name parent) m') (hm : m.Linked)
    (source : String) (path : Option Path) :
    LinkStep c m { m' with
      modules := m'.modules.set name ⟨name, m.nextContext name, source, path⟩ } := by
  rcases h.leave (c := c) hm with ⟨hstep, hnew⟩
  exact hstep.trans (.of_sameLinks hstep.linked (.refl _)
    (hasContext_of_registered hstep.linked.modules hnew name))

/-- Importing a module makes one import. -/
theorem linking_import {c : ContextId} {m : Machine} {name : String} {module : Module}
    (hmodule : m.modules.get? name = some module) (qualifier : String) :
    Linking c m { m with store := m.store.importFrom c module.context qualifier } := by
  intro hc hm
  have hsource := hm.modules name module hmodule
  have hhistory : (m.store.importFrom c module.context qualifier).history =
      m.store.history ++ [⟨c, module.context, qualifier⟩] := rfl
  have hlinked : Machine.Linked
      { m with store := m.store.importFrom c module.context qualifier } := by
    constructor
    · exact Store.agree_importFrom hm.agree hc hsource qualifier
    · intro importer source added
      rw [Store.imports_importFrom hc, hhistory, madeImport_append, hm.made]
      simp only [MadeImport, List.mem_singleton, exists_eq_left]
      rw [eq_comm (a := importer.index)]
    · intro other registered hregistered
      have hthere := hm.modules other registered hregistered
      unfold Store.HasContext at hthere ⊢
      rwa [Store.size_importFrom]
  refine ⟨hlinked, Nat.le_of_eq (Store.size_importFrom ..).symm, _, hhistory, ?_⟩
  intro i hi
  rw [List.mem_singleton.mp hi]
  exact .inl rfl

/-- Linking is a frame. -/
theorem frame_linking : Frame Linking where
  accumulates _ :=
    { refl := fun _ _ hm => .of_sameLinks hm (.refl _) hm.modules
      trans := fun h h' hc hm =>
        (h hc hm).trans (h' ((h hc hm).hasContext hc) (h hc hm).linked) }
  ofQuiet _ _ _ h _ hm := .of_quiet hm h
  functions _ _ _ h _ hm :=
    .of_sameLinks hm (Store.sameLinks_of_contexts h.contexts h.history) hm.modules
  defineAll c m entries _ hm :=
    .of_sameLinks hm (Store.sameLinks_defineAll m.store c entries) hm.modules
  inside _ _ _ _ _ h _ hm := (h.leave hm).1
  loaded _ _ _ source path _ _ h _ hm := h.register hm source path
  imported _ _ _ _ qualifier hmodule := linking_import hmodule qualifier

/-! ## Requests of a host -/

section Requests

variable {host : Host} {main c : ContextId} {m : Machine}

theorem linking_evaluateText (hhost : host.Respects Linking) (code : String) :
    Keeps (Linking c) (evaluateText (evaluateIn host) code c) :=
  frame_linking.evaluateText (frame_linking.evaluate hhost depthLimit) code

theorem linking_loadModule (hhost : host.Respects Linking) (name source : String)
    (path : Option Path) :
    Keeps (Linking c) (loadModule (evaluateIn host) name source path) := by
  intro m hc hm
  have hwork := linking_evaluateText (c := m.nextContext name) hhost source
    (m.inNewContext name m.root)
  rcases hrun : evaluateText (evaluateIn host) source (m.nextContext name)
    (m.inNewContext name m.root) with ⟨e | v, after⟩
  · rw [hrun] at hwork
    rw [Frame.loadModule_of_error hrun]
    exact (hwork.leave hm).1
  · rw [hrun] at hwork
    rcases Frame.loadModule_of_ok hrun path with ⟨m', hload, hquiet⟩
    rw [hload]
    have hstep := hwork.register (c := c) hm source path
    exact hstep.trans (.of_quiet hstep.linked hquiet)

theorem linking_defineType (name : String) :
    Keeps (Linking c) (Interpreter.defineType c name : Eval String) := by
  have h := frame_linking.accumulates c
  exact h.bind (frame_linking.define name _) fun _ => h.pure _

theorem linking_typeFor (name : String) :
    Keeps (Linking c) (Interpreter.typeFor c name : Eval String) := by
  have h := frame_linking.accumulates c
  refine h.bind (h.askStore _) fun bound => ?_
  split
  · exact h.pure _
  · exact linking_defineType name

theorem linking_exposeObject (name className : String) (handle : Nat) (type : Option String) :
    Keeps (Linking c)
      (Interpreter.exposeObject c name className handle type : Eval HostObject) := by
  have h := frame_linking.accumulates c
  have hexpose : ∀ typeName, Keeps (Linking c) (do
      let object : HostObject := ⟨typeName, className, handle⟩
      change fun m => { m with objects := m.objects.set name object }
      changeStore fun s => s.define c name (.object object)
      return object : Eval HostObject) := by
    intro typeName
    refine h.bind ?_ fun _ => h.bind (frame_linking.define name _) fun _ => h.pure _
    exact fun m _ hm => .of_sameLinks hm (.refl _) hm.modules
  cases type with
  | none => exact h.bind (h.pure _) hexpose
  | some type => exact h.bind (linking_typeFor type) hexpose

theorem linking_registerObject (name className : String) (type : Option String) :
    Keeps (Linking c) (Interpreter.registerObject c name className type : Eval HostObject) :=
  (frame_linking.accumulates c).bind (frame_linking.quietly (quiet_newObject _ _)) fun _ =>
    linking_exposeObject name className _ type

theorem linkStep_withTable (hm : m.Linked) (d : ContextId) (table : Table Value) :
    LinkStep c m (m.withTable d table) :=
  .of_sameLinks hm (Store.sameLinks_replaceTable _ _ _) hm.modules

/-- What a reload evaluates starts without bindings, but with the links from before. -/
theorem linkStep_evaluateText_emptied (hhost : host.Respects Linking) (hm : m.Linked)
    (hc : m.store.HasContext c) (text : String) :
    LinkStep c m (evaluateText (evaluateIn host) text c (m.emptied c)).2 := by
  have hemptied : LinkStep c m (m.emptied c) := linkStep_withTable hm c []
  exact hemptied.trans
    (linking_evaluateText hhost text (m.emptied c) (hemptied.hasContext hc) hemptied.linked)

/-- A reload keeps the links of the module, whatever it comes to. -/
theorem linkStep_reload {ε : Type} (hhost : host.Respects Linking) (hm : m.Linked)
    (hc : m.store.HasContext c) {name : String}
    (hown : ∀ module, m.modules.get? name = some module → module.context = c)
    (given : Option String) :
    LinkStep c m ((Interpreter.reload host name given : Computation ε _) m).2 := by
  rcases @reload_cases ε host name given m with
    ⟨e, m', hresult, hquiet⟩ | ⟨module, text, after, hmodule, _, hcases⟩
  · rw [hresult]
    exact .of_quiet hm hquiet
  cases hown module hmodule
  have hwork := linkStep_evaluateText_emptied hhost hm hc text
  rcases hcases with ⟨e, m', hrun, hresult, hquiet⟩ | ⟨v, m', hrun, hresult, hquiet⟩
  · -- the bindings come back, and the links stay what the evaluation has made of them
    rw [hresult]
    rw [hrun] at hwork
    have hstep := hwork.trans (linkStep_withTable hwork.linked module.context
      (m.store.context module.context).table)
    exact hstep.trans (.of_quiet hstep.linked hquiet)
  · -- importing the module again into its importers follows links that there are
    rw [hresult]
    rw [hrun] at hwork
    have hmodules := @hasContext_of_registered _ _ { module with source := text }
      hwork.linked.modules (hwork.hasContext hc) module.name
    have hreloaded : LinkStep module.context after (after.reloaded module text) :=
      .of_sameLinks hwork.linked (Store.sameLinks_propagate hwork.linked.agree _) hmodules
    have hstep := hwork.trans hreloaded
    exact hstep.trans (.of_quiet hstep.linked hquiet)

/-- A request keeps links in order, and makes imports into at most one context that there was. -/
theorem linkStep_perform (hhost : host.Respects Linking) (hm : m.Linked)
    (hmain : m.store.HasContext main) (request : Request) (hallowed : request.Allowed m.store) :
    ∃ c, LinkStep c m (request.perform host main m) := by
  -- evaluation and imports work in the context they are given, all else in the root or in a module
  cases request with
  | eval c code => exact ⟨c, linking_evaluateText hhost code m hallowed hm⟩
  | run c code =>
      have hstep := linking_evaluateText hhost code m hallowed hm
      exact ⟨c, hstep.trans (.of_quiet hstep.linked (@quiet_after_run Fault host c code m))⟩
  | load name source => exact ⟨main, linking_loadModule hhost name source none m hmain hm⟩
  | loadFile name =>
      exact ⟨main, Frame.loadModuleFile_of_loadModule (frame_linking.accumulates main)
        (fun source path => linking_loadModule hhost name source path m) hmain hm⟩
  | reload name given =>
      cases hmodule : m.modules.get? name with
      | none =>
          refine ⟨main, linkStep_reload hhost hm hmain (fun module h => ?_) given⟩
          rw [hmodule] at h
          cases h
      | some module =>
          refine ⟨module.context, linkStep_reload hhost hm (hm.modules _ _ hmodule) ?_ given⟩
          intro other h
          rw [hmodule] at h
          cases h
          rfl
  | importModule c name qualifier =>
      have hev := frame_linking.evaluate hhost depthLimit
      exact ⟨c, frame_linking.importModule hev name qualifier m hallowed hm⟩
  | defineNative name key lazy =>
      exact ⟨main, .of_sameLinks hm (Store.sameLinks_defineNative _ _ _ _ _) hm.modules⟩
  | defineType name =>
      exact ⟨main, linking_defineType name m hmain hm⟩
  | registerObject name className type =>
      exact ⟨main, linking_registerObject name className type m hmain hm⟩
  | changeDisk disk => exact ⟨main, .of_sameLinks hm (.refl _) hm.modules⟩

theorem linked_initial (disk : Disk) (logThreshold : Nat) :
    (Machine.initial disk logThreshold).Linked := by
  have hnone : ∀ c, ¬ (Machine.initial disk logThreshold).store.HasContext c :=
    fun c => Nat.not_lt_zero _
  constructor
  · intro importer source qualifier
    constructor
    · intro h
      exact absurd h.hasContext (hnone importer)
    · intro h
      exact absurd h.hasContext (hnone source)
  · intro importer source qualifier
    constructor
    · intro h
      exact absurd h.hasContext (hnone importer)
    · rintro ⟨i, hi, _⟩
      cases hi
  · intro name module h
    cases h

theorem linked_makeRoot (disk : Disk) (logThreshold : Nat) :
    ∃ m, (Interpreter.makeRoot : Eval ContextId) (.initial disk logThreshold) =
      (.ok firstRoot, m) ∧ m.Linked ∧ m.store.HasContext firstRoot := by
  let empty := Machine.initial disk logThreshold
  let store := (empty.store.newRoot.2.defineNative firstRoot "import" true .importModule).2
  have hfirst : (empty.inNewContext rootName none).Linked :=
    linked_inNewContext (linked_initial disk logThreshold) rootName none
  have hthere : (empty.inNewContext rootName none).store.HasContext firstRoot :=
    empty.store.hasContext_newContext rootName none
  have hsame : Store.SameLinks (empty.inNewContext rootName none).store store :=
    (Store.sameLinks_newRoot empty.store).trans (Store.sameLinks_defineNative _ _ _ _ _)
  have hstep : LinkStep firstRoot (empty.inNewContext rootName none)
      { empty with store, root := some firstRoot } :=
    .of_sameLinks hfirst hsame hfirst.modules
  exact ⟨_, rfl, hstep.linked, hstep.hasContext hthere⟩

/-- A new interpreter has a root context, and its links are in order. -/
theorem linked_start (hhost : host.Respects Linking) {prelude : Option String} {disk : Disk}
    {logThreshold : Nat}
    (h : Interpreter.start host prelude (.initial disk logThreshold) = (.ok main, m)) :
    m.Linked ∧ m.store.HasContext main := by
  rcases linked_makeRoot disk logThreshold with ⟨m1, hroot, hm1⟩
  rw [Interpreter.start, Computation.bind_of_ok hroot] at h
  cases prelude with
  | none =>
      cases h
      exact hm1
  | some code =>
      rcases Computation.bind_eq_ok h with ⟨v, m2, hcode, hreturn⟩
      cases hreturn
      have hstep := linking_evaluateText hhost code m1 hm1.2 hm1.1
      rw [← Interpreter.eval, hcode] at hstep
      exact ⟨hstep.linked, hstep.hasContext hm1.2⟩

/-- Links are in order in every state of a session. -/
theorem Session.linked (hhost : host.Respects Linking) (h : Session host main m) :
    m.Linked ∧ m.store.HasContext main := by
  -- the invariant of the run: links in order, and the root context there
  induction h with
  | start h => exact linked_start hhost h
  | step request _ hallowed ih =>
      rcases linkStep_perform hhost ih.1 ih.2 request hallowed with ⟨c, hstep⟩
      exact ⟨hstep.linked, hstep.hasContext ih.2⟩

/-! ## Reloading -/

/-- A reload changes the bindings of another context only when it succeeds and that context
imports the module. -/
theorem imports_of_reload_changes {ε : Type} (hlinks : host.Respects Linking)
    (hconfined : host.Respects Confined) (hm : m.Linked) {name : String} {module : Module}
    (hmodule : m.modules.get? name = some module) (given : Option String) {d : ContextId}
    (hd : m.store.HasContext d) (hother : d.index ≠ module.context.index) :
    let result := (Interpreter.reload host name given : Computation ε _) m
    (result.2.store.context d).table ≠ (m.store.context d).table →
      (∃ reloaded, result.1 = .ok (.ok reloaded)) ∧
        ∃ qualifier, m.store.Imports d module.context qualifier := by
  intro result hchanged
  have hc := hm.modules name module hmodule
  rcases @reload_cases ε host name given m with
    ⟨e, m', hresult, hquiet⟩ | ⟨module', text, after, hmodule', _, hcases⟩
  · refine absurd ?_ hchanged
    rw [show result = _ from hresult, Store.context_congr hquiet.contexts]
  rw [hmodule] at hmodule'
  cases hmodule'
  have hwork := linkStep_evaluateText_emptied hlinks hm hc text
  have hconfine : Confined module.context (m.emptied module.context)
      (evaluateText (evaluateIn host) text module.context (m.emptied module.context)).2 :=
    frame_confined.evaluateText (frame_confined.evaluate hconfined depthLimit) text _
  -- what is evaluated leaves the bindings of the other contexts alone
  have htable : ((evaluateText (evaluateIn host) text module.context
      (m.emptied module.context)).2.store.context d).table = (m.store.context d).table := by
    have hthere : (m.emptied module.context).store.HasContext d :=
      (linkStep_withTable (c := module.context) hm _ _).hasContext hd
    rw [hconfine.tables d hthere hother]
    exact congrArg ContextCell.table (Store.context_updateContext_ne hother _)
  rcases hcases with ⟨e, m', hrun, hresult, hquiet⟩ | ⟨v, m', hrun, hresult, hquiet⟩
  · rw [hrun] at htable
    refine absurd ?_ hchanged
    rw [show result = _ from hresult, Store.context_congr hquiet.contexts, ← htable]
    exact congrArg ContextCell.table (Store.context_updateContext_ne hother _)
  · rw [hrun] at htable hwork
    refine ⟨⟨_, congrArg Prod.fst hresult⟩, ?_⟩
    by_cases himports : ∃ qualifier, m.store.Imports d module.context qualifier
    · exact himports
    · refine absurd ?_ hchanged
      rcases hwork.made with ⟨made, hhistory, himporters⟩
      -- the context is not new, so that nothing evaluated made an import into it
      have hnone : ∀ qualifier, ¬ after.store.ImportedBy module.context d qualifier := by
        intro qualifier hlink
        rw [← hwork.linked.agree, hwork.imports hm hhistory] at hlink
        rcases hlink with hbefore | ⟨i, hi, hplace, _⟩
        · exact himports ⟨qualifier, hbefore⟩
        · rcases himporters i hi with hown | hnew
          · exact hother (hplace.symm.trans hown)
          · exact Nat.not_le_of_lt hd (hplace ▸ hnew)
      rw [show result = _ from hresult, Store.context_congr hquiet.contexts, ← htable]
      exact congrArg ContextCell.table (Store.context_propagate_of_not_importer hnone)

/-- Links that are those of two lists are those of the second one alone when it has them all. -/
theorem links_eq_iff {links first second : ContextId → String → Prop}
    (h : ∀ source qualifier, links source qualifier ↔
      first source qualifier ∨ second source qualifier) :
    (∀ source qualifier, links source qualifier ↔ second source qualifier) ↔
      ∀ source qualifier, first source qualifier → second source qualifier := by
  constructor
  · intro heq source qualifier hfirst
    exact (heq source qualifier).mp ((h source qualifier).mpr (.inl hfirst))
  · intro hall source qualifier
    rw [h source qualifier]
    exact ⟨fun hlink => hlink.elim (hall source qualifier) id, .inr⟩

end Requests

/-! ## An import that is dropped -/

/-- A session with a module that imports another one. -/
def importingModule : Machine :=
  let m := (Interpreter.start Host.basic none (.initial .empty 30)).2
  let m := Request.perform Host.basic firstRoot m (.load "n" "(def x 1)")
  Request.perform Host.basic firstRoot m (.load "m" "(import \"n\")")

theorem session_importingModule : Session Host.basic firstRoot importingModule :=
  .step (.load "m" _) (.step (.load "n" _) (.new Host.basic .empty 30) trivial) trivial

/-- The session after the module got a source that imports nothing. -/
def importDropped : Machine :=
  Request.perform Host.basic firstRoot importingModule (.reload "m" (some "(def y 2)"))

/-- The session after the other module got a new source too. -/
def importPushed : Machine :=
  Request.perform Host.basic firstRoot importDropped (.reload "n" (some "(def x 5)"))

end DispatchLisp
