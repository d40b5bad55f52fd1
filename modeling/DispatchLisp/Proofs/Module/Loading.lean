import DispatchLisp.Proofs.Evaluation.Confined
import DispatchLisp.Proofs.Evaluation.InsertedNames
import DispatchLisp.Proofs.Evaluation.PlainSource
import DispatchLisp.Proofs.Module.SearchRoots
import Mathlib.Logic.Relation

/-!
# Proofs.Module.Loading — modules that are loaded from their files on import

An import of a module that is not registered evaluates the source in its file, which imports further
modules, and so on. Where sources import nothing but by forms of their own, with literal names, the
sources that are evaluated can be listed (`loadings`): one source after another is begun, and a
module is registered when its source has been evaluated.
-/

namespace DispatchLisp

/-! ## Files and what they import -/

/-- The name that a form imports if it is an import with a literal name. -/
def Form.imported? : Form → Option String
  | .list [.symbol "import", .string name] => some name
  | .list [.symbol "import", .string name, .string _] => some name
  | _ => none

namespace Disk

/-- The source in the file of a module. -/
def sourceOf? (d : Disk) (name : String) : Option String :=
  match d.resolve? name with
  | .ok (some path) => d.read? path
  | _ => none

/-- Whether the file of a module imports another module. -/
def Imports (d : Disk) (importer name : String) : Prop :=
  ∃ text t, d.sourceOf? importer = some text ∧ t ∈ (parseAll text).forms ∧ t.imported? = some name

end Disk

/-- Whether a module is registered. -/
def Machine.Registered (m : Machine) (name : String) : Prop :=
  m.modules.contains name = true

/-- Whether the import of a module leads to another one through files, with no registered module on
the way, the two included. -/
inductive Machine.Needs (m : Machine) : String → String → Prop where
  | self {name : String} : ¬ m.Registered name → Needs m name name
  | through {name next other : String} : ¬ m.Registered name → m.disk.Imports name next →
      Needs m next other → Needs m name other

/-! ## Sources that are evaluated -/

/-- A source that is evaluated as a module: the name of the module, and what the evaluation comes
to. -/
structure Loading where
  name : String
  outcome : Except Fault Value

/-- Whether the evaluation of a source comes to a value. -/
def Loading.Completed (l : Loading) : Prop :=
  l.outcome.isOk = true

/-- The machine in which a form is evaluated that has been read. -/
def Machine.havingRead (m : Machine) (t : Form) : Machine :=
  { m with store := (m.store.ofForm t).2 }

/-- The sources that are evaluated while forms are, given those for an import of a module. -/
def loadingsOfForms (ev : Evaluator) (imported : String → Machine → List Loading) (c : ContextId) :
    List Form → Machine → List Loading
  | [], _ => []
  | t :: rest, m =>
    let here := match t.imported? with
      | some name => imported name (m.havingRead t)
      | none => []
    match ev (m.store.ofForm t).1 c (m.havingRead t) with
    | (.ok _, m') => here ++ loadingsOfForms ev imported c rest m'
    | (.error _, _) => here

/-- The sources that are evaluated to provide a module, in the order in which they are begun. -/
def loadings (host : Host) : Nat → String → Machine → List Loading
  | 0, _, _ => []
  | depth + 1, name, m =>
    match m.modules.get? name, m.disk.sourceOf? name with
    | none, some text =>
      let ev := evaluate host (depth + 1)
      let c := m.nextContext name
      let start := m.inNewContext name m.root
      ⟨name, (evaluateText ev text c start).1⟩ ::
        loadingsOfForms ev (loadings host depth) c (parseAll text).forms start
    | _, _ => []

/-! ## Imports at the top of sources -/

deriving instance DecidableEq for Module

/-- Whether `import` means the native of that name in a context. -/
def Store.meansImport (s : Store) (c : ContextId) : Bool :=
  match s.lookup? c "import" with
  | some (.native f) => f.lazy && decide (f.role = .importModule)
  | _ => false

/-- Whether forms import modules at their top only: an import with a literal name means what it
says, and any other form leaves the registry as it is. -/
def formsImportAtTop (ev : Evaluator) (imported : String → Machine → Bool) (c : ContextId) :
    List Form → Machine → Bool
  | [], _ => true
  | t :: rest, m =>
    let result := ev (m.store.ofForm t).1 c (m.havingRead t)
    let here := match t.imported? with
      | some name => (m.havingRead t).store.meansImport c && imported name (m.havingRead t)
      | none => decide (result.2.modules = m.modules)
    match result with
    | (.ok _, m') => here && formsImportAtTop ev imported c rest m'
    | (.error _, _) => here

/-- Whether all sources that are evaluated to provide a module import modules at their top only. -/
def importsAtTop (host : Host) : Nat → String → Machine → Bool
  | 0, _, _ => true
  | depth + 1, name, m =>
    match m.modules.get? name, m.disk.sourceOf? name with
    | none, some text =>
      formsImportAtTop (evaluate host (depth + 1)) (importsAtTop host depth) (m.nextContext name)
        (parseAll text).forms (m.inNewContext name m.root)
    | _, _ => true

/-! ## What loading does to the registry -/

/-- What the evaluation of some sources does to the registry: it registers the modules whose
sources have been evaluated, once each, and goes no further after a source that fails. -/
structure Loads (trace : List Loading) (failure : Option Fault) (m m' : Machine) : Prop where
  disk : m'.disk = m.disk
  fresh : ∀ l ∈ trace, ¬ m.Registered l.name
  once : (trace.map Loading.name).Nodup
  kept : ∀ k module, m.modules.get? k = some module → m'.modules.get? k = some module
  registered : ∀ k, m'.Registered k ↔ m.Registered k ∨ ∃ l ∈ trace, l.name = k ∧ l.Completed
  outcomes : ∀ l ∈ trace, l.Completed ∨ ∃ e, failure = some e ∧ l.outcome = .error e
  sources : ∀ l ∈ trace, ∃ text, m.disk.sourceOf? l.name = some text ∧
    (l.Completed → ∃ module, m'.modules.get? l.name = some module ∧ module.source = text)
  closed : ∀ l ∈ trace, l.Completed → ∀ k, m.disk.Imports l.name k → m'.Registered k

theorem Machine.registered_iff {m : Machine} {name : String} :
    m.Registered name ↔ ∃ module, m.modules.get? name = some module :=
  Table.contains_iff

namespace Loads

variable {trace trace' : List Loading} {failure : Option Fault} {m m' m'' : Machine}

theorem keeps (h : Loads trace failure m m') {k : String} (hk : m.Registered k) :
    m'.Registered k :=
  (h.registered k).mpr (.inl hk)

/-- Nothing is loaded where the registry stays as it is. -/
theorem nil (failure : Option Fault) (hdisk : m'.disk = m.disk)
    (hmodules : m'.modules = m.modules) : Loads [] failure m m' where
  disk := hdisk
  fresh _ hl := (List.not_mem_nil hl).elim
  once := List.nodup_nil
  kept := by
    rw [hmodules]
    exact fun _ _ h => h
  registered k := by
    rw [Machine.Registered, hmodules]
    exact ⟨.inl, fun h => h.resolve_right fun ⟨_, hl, _⟩ => List.not_mem_nil hl⟩
  outcomes _ hl := (List.not_mem_nil hl).elim
  sources _ hl := (List.not_mem_nil hl).elim
  closed _ hl := (List.not_mem_nil hl).elim

/-- What happens to anything but the registry and the disk does not matter. -/
theorem after (h : Loads trace failure m m') (hdisk : m''.disk = m'.disk)
    (hmodules : m''.modules = m'.modules) : Loads trace failure m m'' where
  disk := hdisk.trans h.disk
  fresh := h.fresh
  once := h.once
  kept := by
    rw [hmodules]
    exact h.kept
  registered k := by
    rw [Machine.Registered, hmodules]
    exact h.registered k
  outcomes := h.outcomes
  sources := by
    rw [hmodules]
    exact h.sources
  closed l hl hdone k hk := by
    rw [Machine.Registered, hmodules]
    exact h.closed l hl hdone k hk

theorem before (h : Loads trace failure m' m'') (hdisk : m'.disk = m.disk)
    (hmodules : m'.modules = m.modules) : Loads trace failure m m'' where
  disk := h.disk.trans hdisk
  fresh := by
    simpa only [Machine.Registered, hmodules] using h.fresh
  once := h.once
  kept := by
    rw [← hmodules]
    exact h.kept
  registered := by
    simpa only [Machine.Registered, hmodules] using h.registered
  outcomes := h.outcomes
  sources := by
    rw [← hdisk]
    exact h.sources
  closed := by
    rw [← hdisk]
    exact h.closed

/-- Sources that are evaluated one after another. -/
theorem append (h : Loads trace none m m') (h' : Loads trace' failure m' m'') :
    Loads (trace ++ trace') failure m m'' where
  disk := h'.disk.trans h.disk
  fresh l hl := by
    rcases List.mem_append.mp hl with hl | hl
    · exact h.fresh l hl
    · exact fun hregistered => h'.fresh l hl (h.keeps hregistered)
  once := by
    rw [List.map_append, List.nodup_append]
    refine ⟨h.once, h'.once, ?_⟩
    -- what has been evaluated is registered, and is not evaluated again
    intro name hname other hother heq
    obtain ⟨l, hl, rfl⟩ := List.mem_map.mp hname
    obtain ⟨l', hl', rfl⟩ := List.mem_map.mp hother
    have hdone : l.Completed := (h.outcomes l hl).resolve_right fun ⟨_, hnone, _⟩ => by cases hnone
    exact h'.fresh l' hl' ((h.registered _).mpr (.inr ⟨l, hl, heq, hdone⟩))
  kept k module hk := h'.kept k module (h.kept k module hk)
  registered k := by
    rw [h'.registered, h.registered, or_assoc]
    refine or_congr .rfl ?_
    constructor
    · rintro (⟨l, hl, hname⟩ | ⟨l, hl, hname⟩)
      · exact ⟨l, List.mem_append_left _ hl, hname⟩
      · exact ⟨l, List.mem_append_right _ hl, hname⟩
    · rintro ⟨l, hl, hname⟩
      exact (List.mem_append.mp hl).imp (fun hl => ⟨l, hl, hname⟩) fun hl => ⟨l, hl, hname⟩
  outcomes l hl := by
    rcases List.mem_append.mp hl with hl | hl
    · exact (h.outcomes l hl).imp_right fun ⟨_, hnone, _⟩ => by cases hnone
    · exact h'.outcomes l hl
  sources l hl := by
    rcases List.mem_append.mp hl with hl | hl
    · obtain ⟨text, htext, hmodule⟩ := h.sources l hl
      refine ⟨text, htext, fun hdone => ?_⟩
      obtain ⟨module, hregistered, hsource⟩ := hmodule hdone
      exact ⟨module, h'.kept _ _ hregistered, hsource⟩
    · rw [← h.disk]
      exact h'.sources l hl
  closed l hl hdone k hk := by
    rcases List.mem_append.mp hl with hl | hl
    · exact h'.keeps (h.closed l hl hdone k hk)
    · rw [← h.disk] at hk
      exact h'.closed l hl hdone k hk

/-- A source is evaluated once when none that it leads to has its name. -/
theorem nodup_cons {name : String} {outcome : Except Fault Value} (h : Loads trace failure m m')
    (hother : ∀ l ∈ trace, l.name ≠ name) :
    (((⟨name, outcome⟩ : Loading) :: trace).map Loading.name).Nodup := by
  rw [List.map_cons, List.nodup_cons]
  refine ⟨fun hmem => ?_, h.once⟩
  obtain ⟨l, hl, hname⟩ := List.mem_map.mp hmem
  exact hother l hl hname

/-- A source that fails after the sources that it imports have been evaluated, or with one of
them. -/
theorem fail {name text : String} {e : Fault} (h : Loads trace failure m m')
    (hfailure : ∀ e', failure = some e' → e' = e) (hnew : ¬ m.Registered name)
    (htext : m.disk.sourceOf? name = some text) (hother : ∀ l ∈ trace, l.name ≠ name) :
    Loads (⟨name, .error e⟩ :: trace) (some e) m m' where
  disk := h.disk
  fresh := List.forall_mem_cons.mpr ⟨hnew, h.fresh⟩
  once := h.nodup_cons hother
  kept := h.kept
  registered k := by
    rw [h.registered]
    refine or_congr .rfl ⟨fun ⟨l, hl, hdone⟩ => ⟨l, List.mem_cons_of_mem _ hl, hdone⟩, ?_⟩
    rintro ⟨l, hl, hname, hdone⟩
    rcases List.mem_cons.mp hl with rfl | hl
    · cases hdone
    · exact ⟨l, hl, hname, hdone⟩
  outcomes := by
    refine List.forall_mem_cons.mpr ⟨.inr ⟨e, rfl, rfl⟩, fun l hl => ?_⟩
    refine (h.outcomes l hl).imp_right fun ⟨e', he', hl'⟩ => ⟨e, rfl, ?_⟩
    rw [hl', hfailure e' he']
  sources := List.forall_mem_cons.mpr ⟨⟨text, htext, fun hdone => (by cases hdone)⟩, h.sources⟩
  closed := List.forall_mem_cons.mpr ⟨fun hdone => (by cases hdone), h.closed⟩

/-- A source that is evaluated, after which its module is registered. -/
theorem complete {module : Module} {v : Value} (h : Loads trace none m m')
    (hnew : ¬ m.Registered module.name) (htext : m.disk.sourceOf? module.name = some module.source)
    (hother : ∀ l ∈ trace, l.name ≠ module.name)
    (himports : ∀ k, m.disk.Imports module.name k → m'.Registered k) :
    Loads (⟨module.name, .ok v⟩ :: trace) none m
      { m' with modules := m'.modules.set module.name module } := by
  -- the registry afterwards has the module itself and what there was before
  have hset : ∀ k, Machine.Registered { m' with modules := m'.modules.set module.name module } k ↔
      k = module.name ∨ m'.Registered k := fun k => Table.contains_set _ _ k _
  constructor
  case disk => exact h.disk
  case fresh => exact List.forall_mem_cons.mpr ⟨hnew, h.fresh⟩
  case once => exact h.nodup_cons hother
  case kept =>
    intro k registered hk
    have hne : module.name ≠ k := by
      rintro rfl
      exact hnew (Machine.registered_iff.mpr ⟨registered, hk⟩)
    rw [Table.get?_set_ne _ hne]
    exact h.kept k registered hk
  case registered =>
    intro k
    rw [hset, h.registered, or_left_comm]
    refine or_congr .rfl ?_
    constructor
    · rintro (rfl | ⟨l, hl, hdone⟩)
      · exact ⟨_, List.mem_cons_self, rfl, rfl⟩
      · exact ⟨l, List.mem_cons_of_mem _ hl, hdone⟩
    · rintro ⟨l, hl, hname, hdone⟩
      rcases List.mem_cons.mp hl with rfl | hl
      · exact .inl hname.symm
      · exact .inr ⟨l, hl, hname, hdone⟩
  case outcomes => exact List.forall_mem_cons.mpr ⟨.inl rfl, h.outcomes⟩
  case sources =>
    refine List.forall_mem_cons.mpr ⟨⟨module.source, htext, fun _ => ?_⟩, fun l hl => ?_⟩
    · exact ⟨module, Table.get?_set_self _ _ _, rfl⟩
    · rw [Table.get?_set_ne _ (Ne.symm (hother l hl))]
      exact h.sources l hl
  case closed =>
    refine List.forall_mem_cons.mpr ⟨fun _ k hk => ?_, fun l hl hdone k hk => ?_⟩
    · exact (hset k).mpr (.inr (himports k hk))
    · exact (hset k).mpr (.inr (h.closed l hl hdone k hk))

end Loads

/-! ## What is needed -/

/-- Whether none of the modules that a module leads to imports itself, through however many
files. -/
def Disk.AcyclicFrom (d : Disk) (name : String) : Prop :=
  ∀ k, Relation.ReflTransGen d.Imports name k → ¬ Relation.TransGen d.Imports k k

theorem Disk.AcyclicFrom.next {d : Disk} {name next : String} (h : d.AcyclicFrom name)
    (himports : d.Imports name next) : d.AcyclicFrom next :=
  fun k hk => h k (hk.head himports)

namespace Machine.Needs

variable {m m' : Machine} {name next other : String}

/-- A way on which nothing is registered now was there before too. -/
theorem earlier (h : m'.Needs name other) (hkept : ∀ k, m.Registered k → m'.Registered k)
    (hdisk : m'.disk = m.disk) : m.Needs name other := by
  induction h with
  | self hnew => exact .self (mt (hkept _) hnew)
  | through hnew himports _ ih =>
      rw [hdisk] at himports
      exact .through (mt (hkept _) hnew) himports ih

theorem reaches (h : m.Needs name other) : Relation.ReflTransGen m.disk.Imports name other := by
  induction h with
  | self => exact .refl
  | through _ himports _ ih => exact ih.head himports

/-- What a module needs through an import of its own is another module. -/
theorem ne (h : m.Needs next other) (himports : m.disk.Imports name next)
    (hacyclic : m.disk.AcyclicFrom name) : other ≠ name := by
  rintro rfl
  exact hacyclic other .refl (.head' himports h.reaches)

end Machine.Needs

/-! ## Evaluating sources -/

/-- Whether two states have the same disk. -/
def SameDisk (m m' : Machine) : Prop :=
  m'.disk = m.disk

/-- Evaluation does not change the disk. -/
theorem frame_sameDisk : Frame fun _ => SameDisk where
  accumulates _ := { refl := fun _ => rfl, trans := fun h h' => h'.trans h }
  ofQuiet _ _ _ h := h.disk
  functions _ _ _ _ := rfl
  defineAll _ _ _ := rfl
  inside _ _ _ _ _ h := h
  loaded _ _ _ _ _ _ _ h := h
  imported _ _ _ _ _ _ := rfl

/-- The fault that an outcome is, if it is one. -/
def failureOf {α : Type} : Except Fault α → Option Fault
  | .ok _ => none
  | .error e => some e

/-- What an import of a module does: it loads what the module needs, up to a source that fails,
which makes the source of the module fail too. -/
structure LoadsFor (name : String) (trace : List Loading) (failure : Option Fault)
    (m m' : Machine) : Prop extends Loads trace failure m m' where
  needed : ∀ l ∈ trace, m.Needs name l.name
  provided : failure = none → m'.Registered name
  failed : ∀ e, failure = some e → trace = [] ∨ ⟨name, .error e⟩ ∈ trace

/-- What forms do: they load what the modules need that they import. -/
structure FormsLoad (forms : List Form) (trace : List Loading) (failure : Option Fault)
    (m m' : Machine) : Prop extends Loads trace failure m m' where
  needed : ∀ l ∈ trace, ∃ t ∈ forms, ∃ next, t.imported? = some next ∧ m.Needs next l.name
  provided : failure = none → ∀ t ∈ forms, ∀ next, t.imported? = some next → m'.Registered next

section

variable {trace trace' : List Loading} {failure : Option Fault} {m m' m'' : Machine} {t : Form}
  {rest : List Form}

/-- The forms after one that fails are not evaluated. -/
theorem FormsLoad.stop {e : Fault} (h : FormsLoad [t] trace (some e) m m') :
    FormsLoad (t :: rest) trace (some e) m m' where
  toLoads := h.toLoads
  needed l hl := by
    obtain ⟨t', ht', hneeds⟩ := h.needed l hl
    cases List.mem_singleton.mp ht'
    exact ⟨t, List.mem_cons_self, hneeds⟩
  provided hnone := by cases hnone

theorem FormsLoad.go (h : FormsLoad [t] trace none m m')
    (h' : FormsLoad rest trace' failure m' m'') :
    FormsLoad (t :: rest) (trace ++ trace') failure m m'' where
  toLoads := h.toLoads.append h'.toLoads
  needed l hl := by
    rcases List.mem_append.mp hl with hl | hl
    · obtain ⟨t', ht', hneeds⟩ := h.needed l hl
      cases List.mem_singleton.mp ht'
      exact ⟨t, List.mem_cons_self, hneeds⟩
    · obtain ⟨t', ht', next, hnext, hneeds⟩ := h'.needed l hl
      refine ⟨t', List.mem_cons_of_mem _ ht', next, hnext, ?_⟩
      exact hneeds.earlier (fun _ => h.toLoads.keeps) h.disk
  provided hnone := by
    refine List.forall_mem_cons.mpr ⟨fun next hnext => ?_, h'.provided hnone⟩
    exact h'.toLoads.keeps (h.provided rfl t (List.mem_singleton_self t) next hnext)

theorem FormsLoad.before (h : FormsLoad rest trace failure m' m'') (hdisk : m'.disk = m.disk)
    (hmodules : m'.modules = m.modules) : FormsLoad rest trace failure m m'' where
  toLoads := h.toLoads.before hdisk hmodules
  needed l hl := by
    obtain ⟨t, ht, next, hnext, hneeds⟩ := h.needed l hl
    refine ⟨t, ht, next, hnext, hneeds.earlier (fun k hk => ?_) hdisk⟩
    rw [Machine.Registered, hmodules]
    exact hk
  provided := h.provided

end

section

variable {trace : List Loading} {failure : Option Fault} {m m' : Machine} {name text : String}

/-- Nothing is loaded for a module that is registered, or that has no source. -/
theorem LoadsFor.nil (hprovided : failure = none → m.Registered name) :
    LoadsFor name [] failure m m where
  toLoads := .nil failure rfl rfl
  needed _ hl := (List.not_mem_nil hl).elim
  provided := hprovided
  failed _ _ := .inl rfl

theorem Disk.imports_of_form {d : Disk} (htext : d.sourceOf? name = some text) {t : Form}
    (ht : t ∈ (parseAll text).forms) {next : String} (hnext : t.imported? = some next) :
    d.Imports name next :=
  ⟨text, t, htext, ht, hnext⟩

/-- What the forms of a source load, the module needs through an import of its own. -/
theorem FormsLoad.through (h : FormsLoad (parseAll text).forms trace failure m m')
    (htext : m.disk.sourceOf? name = some text) {l : Loading} (hl : l ∈ trace) :
    ∃ next, m.disk.Imports name next ∧ m.Needs next l.name := by
  obtain ⟨t, ht, next, hnext, hneeds⟩ := h.needed l hl
  exact ⟨next, Disk.imports_of_form htext ht hnext, hneeds⟩

/-- The source of a module fails, with one of those that it imports or by itself. -/
theorem FormsLoad.fails {e : Fault} (h : FormsLoad (parseAll text).forms trace failure m m')
    (hfailure : ∀ e', failure = some e' → e' = e) (hnew : ¬ m.Registered name)
    (htext : m.disk.sourceOf? name = some text) (hacyclic : m.disk.AcyclicFrom name) :
    LoadsFor name (⟨name, .error e⟩ :: trace) (some e) m m' where
  toLoads := by
    refine h.toLoads.fail hfailure hnew htext fun l hl => ?_
    obtain ⟨next, himports, hneeds⟩ := h.through htext hl
    exact hneeds.ne himports hacyclic
  needed := by
    refine List.forall_mem_cons.mpr ⟨.self hnew, fun l hl => ?_⟩
    obtain ⟨next, himports, hneeds⟩ := h.through htext hl
    exact .through hnew himports hneeds
  provided hnone := by cases hnone
  failed e' he' := by
    cases he'
    exact .inr List.mem_cons_self

/-- The source of a module has been evaluated, and the module is registered. -/
theorem FormsLoad.completes (module : Module) (v : Value)
    (h : FormsLoad (parseAll module.source).forms trace none m m')
    (hnew : ¬ m.Registered module.name) (htext : m.disk.sourceOf? module.name = some module.source)
    (hacyclic : m.disk.AcyclicFrom module.name) :
    LoadsFor module.name (⟨module.name, .ok v⟩ :: trace) none m
      { m' with modules := m'.modules.set module.name module } where
  toLoads := by
    refine h.toLoads.complete hnew htext (fun l hl => ?_) ?_
    · obtain ⟨next, himports, hneeds⟩ := h.through htext hl
      exact hneeds.ne himports hacyclic
    · rintro next ⟨text, t, htext', ht, hnext⟩
      cases htext.symm.trans htext'
      exact h.provided rfl t ht next hnext
  needed := by
    refine List.forall_mem_cons.mpr ⟨.self hnew, fun l hl => ?_⟩
    obtain ⟨next, himports, hneeds⟩ := h.through htext hl
    exact .through hnew himports hneeds
  provided _ := Machine.registered_iff.mpr ⟨module, Table.get?_set_self _ _ _⟩
  failed e he := by cases he

/-- What happens to anything but the registry and the disk does not matter. -/
theorem LoadsFor.after {m'' : Machine} (h : LoadsFor name trace failure m m')
    (hdisk : m''.disk = m'.disk) (hmodules : m''.modules = m'.modules) :
    LoadsFor name trace failure m m'' where
  toLoads := h.toLoads.after hdisk hmodules
  needed := h.needed
  provided hnone := by
    rw [Machine.Registered, hmodules]
    exact h.provided hnone
  failed := h.failed

end

section

variable {host : Host} {depth : Nat} {c : ContextId} {m : Machine}

/-- Whether imports load what they should at a depth. -/
def ImportsLoad (host : Host) (depth : Nat) : Prop :=
  ∀ name qualifier expr c m, m.store.IsImportCall c name qualifier expr →
    m.disk.AcyclicFrom name → importsAtTop host depth name m = true →
    LoadsFor name (loadings host depth name m)
      (failureOf (evaluate host (depth + 1) expr c m).1) m (evaluate host (depth + 1) expr c m).2

/-- A form with a literal name is read as a call of `import`. -/
theorem isImportCall_ofForm {name : String} {t : Form} (ht : t.imported? = some name)
    (hmeans : (m.havingRead t).store.meansImport c = true) :
    ∃ qualifier, (m.havingRead t).store.IsImportCall c name qualifier (m.store.ofForm t).1 := by
  -- the word means the native, so the call that is made of the form is a call of it
  obtain ⟨f, hlookup, hlazy, hrole⟩ : ∃ f, (m.havingRead t).store.lookup? c "import" =
      some (.native f) ∧ f.lazy = true ∧ f.role = .importModule := by
    unfold Store.meansImport at hmeans
    split at hmeans
    · rename_i f hlookup
      rw [Bool.and_eq_true, decide_eq_true_eq] at hmeans
      exact ⟨f, hlookup, hmeans⟩
    · cases hmeans
  obtain ⟨id, word, _, _⟩ := f
  cases hlazy
  cases hrole
  unfold Form.imported? at ht
  split at ht
  case h_1 =>
    cases ht
    obtain ⟨exprs, hcall, hcode⟩ := m.store.isCallOf_ofForm "import" [.string name]
    rcases hcode with _ | ⟨hname, hnil⟩
    cases hnil
    cases hname.atom rfl
    exact ⟨none, id, word, _, .plain, hcall.isNativeCall hlookup⟩
  case h_2 qualifier =>
    cases ht
    obtain ⟨exprs, hcall, hcode⟩ :=
      m.store.isCallOf_ofForm "import" [.string name, .string qualifier]
    rcases hcode with _ | ⟨hname, _ | ⟨hqualifier, hnil⟩⟩
    cases hnil
    cases hname.atom rfl
    cases hqualifier.atom rfl
    exact ⟨some qualifier, id, word, _, .qualified qualifier, hcall.isNativeCall hlookup⟩
  case h_3 => cases ht

/-- One form loads what the module needs that it imports, if it imports one. -/
theorem form_loads (hhost : host.Respects fun _ => SameDisk) (himports : ImportsLoad host depth)
    {t : Form} {here : List Loading}
    (hhere : here = match t.imported? with
      | some name => loadings host depth name (m.havingRead t)
      | none => [])
    (hacyclic : ∀ next, t.imported? = some next → m.disk.AcyclicFrom next)
    (htop : (match t.imported? with
      | some name =>
          (m.havingRead t).store.meansImport c && importsAtTop host depth name (m.havingRead t)
      | none =>
          decide ((evaluate host (depth + 1) (m.store.ofForm t).1 c (m.havingRead t)).2.modules =
            m.modules)) = true) :
    FormsLoad [t] here
      (failureOf (evaluate host (depth + 1) (m.store.ofForm t).1 c (m.havingRead t)).1) m
      (evaluate host (depth + 1) (m.store.ofForm t).1 c (m.havingRead t)).2 := by
  cases ht : t.imported? with
  | none =>
      rw [ht] at hhere htop
      have hdisk : SameDisk (m.havingRead t) _ :=
        frame_sameDisk.evaluate hhost (depth + 1) (m.store.ofForm t).1 c (m.havingRead t)
      rw [hhere]
      -- any other form loads nothing, as the registry stays as it is
      refine ⟨.nil _ hdisk (of_decide_eq_true htop), fun l hl => (List.not_mem_nil hl).elim, ?_⟩
      intro _ t' ht' next hnext
      cases List.mem_singleton.mp ht'
      rw [ht] at hnext
      cases hnext
  | some name =>
      rw [ht] at hhere htop
      obtain ⟨hmeans, hinner⟩ := Bool.and_eq_true_iff.mp htop
      obtain ⟨qualifier, hcall⟩ := isImportCall_ofForm ht hmeans
      have hloads := himports name qualifier _ c (m.havingRead t) hcall (hacyclic name ht) hinner
      rw [hhere]
      refine ⟨hloads.toLoads.before rfl rfl, fun l hl => ?_, fun hnone t' ht' next hnext => ?_⟩
      · refine ⟨t, List.mem_singleton_self t, name, ht, ?_⟩
        exact (hloads.needed l hl).earlier (fun _ => id) rfl
      · cases List.mem_singleton.mp ht'
        rw [ht] at hnext
        cases hnext
        exact hloads.provided hnone

/-- Forms load what the modules need that they import. -/
theorem forms_load (hhost : host.Respects fun _ => SameDisk) (himports : ImportsLoad host depth)
    {forms : List Form} (result : Value)
    (hacyclic : ∀ t ∈ forms, ∀ next, t.imported? = some next → m.disk.AcyclicFrom next)
    (htop : formsImportAtTop (evaluate host (depth + 1)) (importsAtTop host depth) c forms m =
      true) :
    FormsLoad forms (loadingsOfForms (evaluate host (depth + 1)) (loadings host depth) c forms m)
      (failureOf (evaluateForms (evaluate host (depth + 1)) c result forms m).1) m
      (evaluateForms (evaluate host (depth + 1)) c result forms m).2 := by
  -- each form starts where the one before it has left the registry
  induction forms generalizing m result with
  | nil =>
      refine ⟨.nil _ rfl rfl, fun l hl => (List.not_mem_nil hl).elim, fun _ t ht => ?_⟩
      exact (List.not_mem_nil ht).elim
  | cons t rest ih =>
      obtain ⟨hfirst, hrest⟩ := List.forall_mem_cons.mp hacyclic
      have halloc : (allocate fun s => s.ofForm t : Eval Value) m =
          (.ok (m.store.ofForm t).1, m.havingRead t) := rfl
      rw [formsImportAtTop] at htop
      rw [evaluateForms, Computation.bind_of_ok halloc, loadingsOfForms]
      have hform := fun htop => form_loads (c := c) hhost himports rfl hfirst htop
      rcases hrun : evaluate host (depth + 1) (m.store.ofForm t).1 c (m.havingRead t) with
        ⟨e | v, m'⟩
      · rw [hrun] at hform htop
        rw [Computation.bind_of_error hrun]
        exact (hform htop).stop
      · rw [hrun] at hform htop
        obtain ⟨hhere, hlater⟩ := Bool.and_eq_true_iff.mp htop
        rw [Computation.bind_of_ok hrun]
        have hload := hform hhere
        rw [← hload.disk] at hrest
        exact hload.go (ih v hrest hlater)

/-- A text loads what the module needs that its forms import, and may fail for another reason. -/
theorem text_loads (hhost : host.Respects fun _ => SameDisk) (himports : ImportsLoad host depth)
    {text : String} {outcome : Except Fault Value} {after : Machine}
    (hacyclic : ∀ t ∈ (parseAll text).forms, ∀ next, t.imported? = some next →
      m.disk.AcyclicFrom next)
    (htop : formsImportAtTop (evaluate host (depth + 1)) (importsAtTop host depth) c
      (parseAll text).forms m = true)
    (hrun : evaluateText (evaluate host (depth + 1)) text c m = (outcome, after)) :
    ∃ failure, FormsLoad (parseAll text).forms (loadingsOfForms (evaluate host (depth + 1))
        (loadings host depth) c (parseAll text).forms m) failure m after ∧
      ∀ e, failure = some e → outcome = .error e := by
  have hforms := forms_load hhost himports .nothing hacyclic htop
  rcases hvalue : evaluateForms (evaluate host (depth + 1)) c .nothing (parseAll text).forms m with
    ⟨e | v, m'⟩
  · rw [hvalue] at hforms
    rw [evaluateText, Computation.bind_of_error hvalue] at hrun
    cases hrun
    refine ⟨some e, hforms, fun e' he' => ?_⟩
    cases he'
    rfl
  · rw [hvalue] at hforms
    have hafter : after = m' := by
      rw [evaluateText, Computation.bind_of_ok hvalue] at hrun
      cases hend : (parseAll text).error <;> rw [hend] at hrun <;> cases hrun <;> rfl
    rw [hafter]
    exact ⟨none, hforms, fun e he => (by cases he)⟩

/-! ## Providing modules -/

theorem loadModuleFile_of_sourceless (ev : Evaluator) {name : String}
    (h : m.disk.sourceOf? name = none) : ∃ r, loadModuleFile ev name m = (.error r, m) := by
  have hask : (ask Machine.disk : NativeEval Disk) m = (.ok m.disk, m) := rfl
  rw [Disk.sourceOf?] at h
  cases hfound : m.disk.resolve? name with
  | error e =>
      rw [loadModuleFile, Computation.bind_of_ok hask, hfound]
      exact ⟨_, rfl⟩
  | ok found =>
      cases found with
      | none => exact ⟨_, loadModuleFile_of_missing hfound⟩
      | some path =>
          obtain ⟨text, htext⟩ := Disk.read?_of_resolve? hfound
          rw [hfound] at h
          cases htext.symm.trans h

theorem loadModuleFile_of_source (ev : Evaluator) {name text : String}
    (h : m.disk.sourceOf? name = some text) : ∃ path, loadModuleFile ev name m =
      (liftM (loadModule ev name text (some path)) : NativeEval Module) m := by
  rw [Disk.sourceOf?] at h
  split at h
  · rename_i path hfound
    exact ⟨path, loadModuleFile_of_found hfound h⟩
  · cases h

theorem loadings_of_registered {name : String} {module : Module}
    (h : m.modules.get? name = some module) : loadings host depth name m = [] := by
  cases depth with
  | zero => rfl
  | succ depth => rw [loadings, h]

theorem loadings_of_sourceless {name : String} (h : m.disk.sourceOf? name = none) :
    loadings host depth name m = [] := by
  cases depth with
  | zero => rfl
  | succ depth =>
      rw [loadings, h]
      cases m.modules.get? name <;> rfl

theorem loadings_of_source {name text : String} (hnew : m.modules.get? name = none)
    (htext : m.disk.sourceOf? name = some text) :
    loadings host (depth + 1) name m =
      ⟨name, (evaluateText (evaluate host (depth + 1)) text (m.nextContext name)
        (m.inNewContext name m.root)).1⟩ ::
      loadingsOfForms (evaluate host (depth + 1)) (loadings host depth) (m.nextContext name)
        (parseAll text).forms (m.inNewContext name m.root) := by
  rw [loadings, hnew, htext]

/-- The source of a module that is not registered is evaluated, and the module is registered after
that. -/
theorem source_loads (hhost : host.Respects fun _ => SameDisk) (himports : ImportsLoad host depth)
    {name text : String} {outcome : Except Raised Module} {m' : Machine}
    (hacyclic : m.disk.AcyclicFrom name) (htop : importsAtTop host (depth + 1) name m = true)
    (hfound : m.modules.get? name = none) (hsource : m.disk.sourceOf? name = some text)
    (hprovide : provideModule (evaluate host (depth + 1)) name m = (outcome, m')) :
    LoadsFor name (loadings host (depth + 1) name m)
      (failureOf (outcome.mapError Raised.toFault)) m m' := by
  have hnew : ¬ m.Registered name := fun hregistered => by
    obtain ⟨module, hmodule⟩ := Machine.registered_iff.mp hregistered
    rw [hfound] at hmodule
    cases hmodule
  obtain ⟨path, hload⟩ := loadModuleFile_of_source (evaluate host (depth + 1)) hsource
  rw [Frame.provideModule_of_new hfound, hload] at hprovide
  rw [importsAtTop, hfound, hsource] at htop
  rw [loadings_of_source hfound hsource]
  rcases hrun : evaluateText (evaluate host (depth + 1)) text (m.nextContext name)
    (m.inNewContext name m.root) with ⟨result, after⟩
  obtain ⟨failure, hforms, hfailure⟩ := text_loads (m := m.inNewContext name m.root) hhost
    himports (fun t ht next hnext => hacyclic.next
      (Disk.imports_of_form hsource ht hnext)) htop hrun
  have hloads := hforms.before (m := m) rfl rfl
  cases result with
  | error e =>
      -- the source has failed by itself or with one that it imports, so its module is not
      -- registered
      rw [liftM_of_error (Frame.loadModule_of_error hrun (some path))] at hprovide
      cases hprovide
      refine hloads.fails (fun e' he' => ?_) hnew hsource hacyclic
      cases hfailure e' he'
      rfl
  | ok v =>
      obtain ⟨m'', hloaded, hquiet⟩ := Frame.loadModule_of_ok hrun (some path)
      rw [liftM_of_ok hloaded] at hprovide
      cases hprovide
      -- when the source has come to a value, so has every source that it imports
      obtain rfl : failure = none := by
        cases failure with
        | none => rfl
        | some e => cases hfailure e rfl
      have hcompletes := FormsLoad.completes ⟨name, m.nextContext name, text, some path⟩ v
        hloads hnew hsource hacyclic
      exact hcompletes.after hquiet.disk hquiet.modules

/-- The module for an import is registered, or has no file, or its source is evaluated first. -/
theorem provide_loads (hhost : host.Respects fun _ => SameDisk) (himports : ImportsLoad host depth)
    {name : String} {outcome : Except Raised Module} {m' : Machine}
    (hacyclic : m.disk.AcyclicFrom name) (htop : importsAtTop host (depth + 1) name m = true)
    (hprovide : provideModule (evaluate host (depth + 1)) name m = (outcome, m')) :
    LoadsFor name (loadings host (depth + 1) name m)
      (failureOf (outcome.mapError Raised.toFault)) m m' := by
  cases hfound : m.modules.get? name with
  | some module =>
      rw [Frame.provideModule_of_registered hfound] at hprovide
      cases hprovide
      rw [loadings_of_registered hfound]
      exact .nil fun _ => Machine.registered_iff.mpr ⟨module, hfound⟩
  | none =>
      cases hsource : m.disk.sourceOf? name with
      | none =>
          obtain ⟨r, hfail⟩ := loadModuleFile_of_sourceless (evaluate host (depth + 1)) hsource
          rw [Frame.provideModule_of_new hfound, hfail] at hprovide
          cases hprovide
          rw [loadings_of_sourceless hsource]
          exact .nil fun hnone => (by cases hnone)
      | some text => exact source_loads hhost himports hacyclic htop hfound hsource hprovide

/-- An import loads what the module needs, at every depth. -/
theorem imports_load (hhost : host.Respects fun _ => SameDisk) (depth : Nat) :
    ImportsLoad host depth := by
  -- the files of a module are read one level deeper than the import of it
  induction depth with
  | zero =>
      intro name qualifier expr c m hcall _ _
      rw [hcall.evaluate_one]
      exact .nil fun hnone => (by cases hnone)
  | succ depth ih =>
      intro name qualifier expr c m hcall hacyclic htop
      rcases hprovide : provideModule (evaluate host (depth + 1)) name m with ⟨r | module, m'⟩
      · rw [hcall.evaluate_of_error hprovide]
        exact provide_loads hhost ih hacyclic htop hprovide
      · have hloads := provide_loads hhost ih hacyclic htop hprovide
        obtain ⟨m'', hrun, hquiet⟩ := hcall.evaluate_of_ok hprovide
        rw [hrun]
        exact hloads.after hquiet.disk hquiet.modules

end

end DispatchLisp
