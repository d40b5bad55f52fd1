import DispatchLisp.Proofs.Module.PlainRun

/-!
# Proofs.Module.ReloadTwice — reloading a plain source twice in a row

A reload takes bindings over from the modules that its source imports, and hands the outcome on to
everyone who imports the module. When such an importer is imported itself, the next reload takes
over more than this one, so tables grow without end. When it is not, reloading twice is reloading
once, but for names that an import takes away because an older one had brought them.

Main statement: `reload_twice`.
-/

namespace DispatchLisp

/-- Whether every context binds the same names in two states. -/
def Machine.SameNames (m m' : Machine) : Prop :=
  ∀ c, m'.store.names c = m.store.names c

/-! ## What clauses are about -/

/-- Whether a module is the one that some clauses are for, or one that they import. -/
def Involves (name : String) (clauses : List Clause) (other : String) : Prop :=
  other = name ∨ .importing other ∈ clauses

/-- Whether the qualifiers of the modules that clauses involve tell names apart: no defined name
and no other qualifier begins with one. -/
structure TellsApart (name : String) (clauses : List Clause) : Prop where
  defined : ∀ k, Involves name clauses k → ∀ defined literal,
    .define defined literal ∈ clauses → defined ∉ behind (k ++ ".") Set.univ
  qualifiers : ∀ k k', Involves name clauses k → Involves name clauses k' → k ≠ k' →
    k' ++ "." ∉ behind (k ++ ".") Set.univ

/-- The names that a registered module binds. -/
def Machine.boundIn (m : Machine) (name : String) : Set String :=
  {bound | ∃ module, m.modules.get? name = some module ∧ bound ∈ m.store.names module.context}

/-- The names that a clause gives to the context that it is evaluated in. -/
def Clause.gives (m : Machine) : Clause → Set String
  | define name _ => {name}
  | importing name => behind (name ++ ".") (m.boundIn name)

/-- Whether a module has recorded that another one imports it. -/
def Machine.ImportedBy (m : Machine) (name importer : String) : Prop :=
  ∃ module module', m.modules.get? name = some module ∧ m.modules.get? importer = some module' ∧
    ∃ qualifier, m.store.ImportedBy module.context module'.context qualifier

section

variable {modules modules' : Table Module} {clauses : List Clause} {moves moves' : List Move}

theorem take_of_importing (h : List.Forall₂ (Clause.Does modules) clauses moves) {name : String}
    {module : Module} (hclause : .importing name ∈ clauses)
    (hmodule : modules.get? name = some module) : .take module.context ∈ moves := by
  obtain ⟨move, hmove, hdoes⟩ := exists_right_of_forall₂ h hclause
  cases hdoes with
  | importing hmodule' =>
      cases hmodule.symm.trans hmodule'
      exact hmove

/-- What clauses do is determined but for the values of literals. -/
theorem outline_of_does (h : List.Forall₂ (Clause.Does modules) clauses moves)
    (h' : List.Forall₂ (Clause.Does modules) clauses moves') :
    moves'.map Move.outline = moves.map Move.outline := by
  induction h generalizing moves' with
  | nil =>
      cases h'
      rfl
  | cons hdoes _ ih =>
      cases h' with
      | cons hdoes' hrest' =>
      rw [List.map_cons, List.map_cons, ih hrest']
      congr 1
      cases hdoes with
      | define _ =>
          cases hdoes'
          rfl
      | importing hmodule =>
          cases hdoes' with
          | importing hmodule' =>
          cases hmodule.symm.trans hmodule'
          rfl

/-! ## Modules that have the same contexts -/

/-- Whether the same modules are registered, with the same contexts. -/
def SameContexts (modules modules' : Table Module) : Prop :=
  ∀ name, (modules'.get? name).map Module.context = (modules.get? name).map Module.context

theorem sameContexts_set {name : String} {module : Module}
    (hmodule : modules.get? name = some module) (source : String) :
    SameContexts modules (modules.set name { module with source }) := by
  intro other
  rw [Table.get?_set]
  split
  case isTrue heq =>
    rw [← heq, hmodule]
    rfl
  case isFalse => rfl

theorem SameContexts.does (hsame : SameContexts modules modules')
    (h : List.Forall₂ (Clause.Does modules) clauses moves) :
    List.Forall₂ (Clause.Does modules') clauses moves := by
  refine h.imp fun clause move hdoes => ?_
  cases hdoes with
  | define hv => exact .define hv
  | @importing name module hmodule =>
      have heq := hsame name
      rw [hmodule] at heq
      obtain ⟨module', hmodule', hcontext⟩ := Option.map_eq_some_iff.mp heq
      rw [← hcontext]
      exact .importing hmodule'

theorem SameContexts.plainSource (hsame : SameContexts modules modules') {text : String}
    (h : PlainSource modules text clauses) : PlainSource modules' text clauses := by
  refine ⟨h.forms, h.complete, fun clause hclause => ?_⟩
  have hfits := h.fits clause hclause
  cases clause with
  | define name literal => exact hfits
  | importing name =>
      have hcontains : (modules'.get? name).isSome = (modules.get? name).isSome := by
        have heq := congrArg Option.isSome (hsame name)
        rwa [Option.isSome_map, Option.isSome_map] at heq
      exact hcontains.trans hfits

end

namespace Store

variable {named : Nat → String} {s s' : Store} {c : ContextId} {moves : List Move}

theorem contexts_refill_congr (h : s'.contexts = s.contexts) :
    (s'.refill c moves).contexts = (s.refill c moves).contexts := by
  have hemptied : (s'.replaceTable c []).contexts = (s.replaceTable c []).contexts := by
    rw [replaceTable, updateContext, h, replaceTable, updateContext]
  exact contexts_propagate_congr (contexts_fill_congr hemptied) c

/-- The importers that a context has on record are its users. -/
theorem UsersInOrder.importedBy_iff (h : UsersInOrder named s c) (d : ContextId) :
    (∃ qualifier, s.ImportedBy c d qualifier) ↔ ∃ user ∈ s.users c, user.index = d.index := by
  constructor
  · rintro ⟨_, u, hu, hindex, _⟩
    exact ⟨u.importer, List.mem_map_of_mem hu, hindex⟩
  · rintro ⟨user, huser, hindex⟩
    obtain ⟨u, hu, rfl⟩ := List.mem_map.mp huser
    refine ⟨c.qualifier, u, hu, hindex, ?_⟩
    rw [h.qualifiers u hu]
    exact List.mem_singleton_self _

end Store

/-! ## Reloading twice -/

section

variable {host : Host} {main c : ContextId} {named : Nat → String} {m m₁ : Machine}
  {clauses : List Clause} {moves moves' : List Move} {name text : String} {module : Module}

theorem Machine.Plain.ready (h : m.Plain main named) (hmodule : m.modules.get? name = some module)
    (hdoes : List.Forall₂ (Clause.Does m.modules) clauses moves) :
    Store.Ready named m.store module.context moves where
  there := (h.modules name module hmodule).there
  own := (h.modules name module hmodule).named
  sources := fun _ hsource => (h.source_inner hdoes hsource).named
  users := h.links.users _ (h.modules name module hmodule)

/-- Modules with different names have different contexts. -/
theorem Machine.Plain.name_of_index (h : m.Plain main named)
    (hmodule : m.modules.get? name = some module) {other : String} {module' : Module}
    (hmodule' : m.modules.get? other = some module')
    (hindex : module'.context.index = module.context.index) : other = name := by
  have hsame := Store.eq_of_index (h.modules other module' hmodule').named
    (h.modules name module hmodule).named hindex
  rw [← (h.names other module' hmodule').2, hsame, (h.names name module hmodule).2]

theorem Machine.Plain.importedBy_iff (h : m.Plain main named)
    (hmodule : m.modules.get? name = some module) {importer : String} {module' : Module}
    (hmodule' : m.modules.get? importer = some module') :
    m.ImportedBy name importer ↔
      ∃ user ∈ m.store.users module.context, user.index = module'.context.index := by
  rw [← (h.links.users _ (h.modules name module hmodule)).importedBy_iff]
  constructor
  · rintro ⟨_, _, hfirst, hsecond, hlink⟩
    cases hmodule.symm.trans hfirst
    cases hmodule'.symm.trans hsecond
    exact hlink
  · exact fun hlink => ⟨module, module', hmodule, hmodule', hlink⟩

theorem Machine.boundIn_of_registered (hmodule : m.modules.get? name = some module) :
    m.boundIn name = m.store.names module.context := by
  ext bound
  constructor
  · rintro ⟨_, hother, hbound⟩
    cases hmodule.symm.trans hother
    exact hbound
  · exact fun hbound => ⟨module, hmodule, hbound⟩

/-- The qualifiers of contexts tell names apart when those of modules do. -/
theorem TellsApart.apart (h : m.Plain main named) (hmodule : m.modules.get? name = some module)
    (hdoes : List.Forall₂ (Clause.Does m.modules) clauses moves)
    (hapart : TellsApart name clauses) :
    Store.ToldApart (fun k => ∃ other module', Involves name clauses other ∧
      m.modules.get? other = some module' ∧ k = module'.context) module.context moves := by
  have hqualifier : ∀ other module', m.modules.get? other = some module' →
      module'.context.qualifier = other ++ "." := fun other module' hother => by
    rw [ContextId.qualifier, (h.names other module' hother).2]
  constructor
  · exact ⟨name, module, .inl rfl, hmodule, rfl⟩
  · intro source hsource
    obtain ⟨other, module', hclause, hother, rfl⟩ := importing_of_take hdoes hsource
    exact ⟨other, module', .inr hclause, hother, rfl⟩
  · rintro _ defined v ⟨other, module', hinvolved, hother, rfl⟩ hbind
    obtain ⟨clause, hclause, hdoes⟩ := exists_left_of_forall₂ hdoes hbind
    cases hdoes with
    | define _ =>
        rw [hqualifier other module' hother]
        exact hapart.defined other hinvolved defined _ hclause
  · rintro _ _ ⟨k, _, hk, hmk, rfl⟩ ⟨k', _, hk', hmk', rfl⟩ hne
    rw [hqualifier k _ hmk, hqualifier k' _ hmk']
    refine hapart.qualifiers k k' hk hk' fun heq => hne ?_
    subst heq
    cases hmk.symm.trans hmk'
    rfl

/-- What moves give is what their clauses give. -/
theorem Store.gather_subset_iff (h : m.Plain main named)
    (hdoes : List.Forall₂ (Clause.Does m.modules) clauses moves)
    {bound : ContextId → Set String} (hbound : ∀ d, bound d = m.store.names d)
    (hother : ∀ source, .take source ∈ moves → source.index ≠ c.index) {names : Set String} :
    Store.gather bound c moves ∅ ⊆ names ↔ ∀ clause ∈ clauses, clause.gives m ⊆ names := by
  -- the names of a module and of its context begin alike
  have hgives : ∀ k module, m.modules.get? k = some module →
      (Clause.importing k).gives m = behind module.context.qualifier (bound module.context) := by
    intro k module hmodule
    rw [Clause.gives, Machine.boundIn_of_registered hmodule, hbound, ContextId.qualifier,
      (h.names k module hmodule).2]
  constructor
  · intro hall clause hclause given hgiven
    obtain ⟨move, hmove, hclauseDoes⟩ := exists_right_of_forall₂ hdoes hclause
    refine hall ((Store.mem_gather hother).mpr (.inr ?_))
    cases hclauseDoes with
    | @define name literal v _ =>
        cases hgiven
        exact .inl ⟨v, hmove⟩
    | @importing name module hmodule =>
        rw [hgives name module hmodule] at hgiven
        exact .inr ⟨module.context, hmove, hgiven⟩
  · intro hall given hgiven
    rcases (Store.mem_gather hother).mp hgiven with hnone | ⟨v, hbind⟩ | ⟨source, htake, hbehind⟩
    · exact hnone.elim
    · obtain ⟨clause, hclause, hclauseDoes⟩ := exists_left_of_forall₂ hdoes hbind
      cases hclauseDoes
      exact hall _ hclause rfl
    · obtain ⟨k, module, hclause, hmodule, rfl⟩ := importing_of_take hdoes htake
      refine hall _ hclause ?_
      rwa [hgives k module hmodule]

section Twice

variable (h₁ : m₁.Plain main named)
  (hmodule : m₁.modules.get? name = some module)
  (hready : Store.Ready named m.store module.context moves)
  (hdoes : List.Forall₂ (Clause.Does m₁.modules) clauses moves)
  (hcontexts : m₁.store.contexts = (m.store.refill module.context moves).contexts)
  (hdoes' : List.Forall₂ (Clause.Does m₁.modules) clauses moves')

include h₁ hmodule hready hdoes hcontexts hdoes'

theorem names_refill_twice_of_tellsApart (h : m.Plain main named) (hapart : TellsApart name clauses) :
    (∀ d, ((m.store.refill module.context moves).refill module.context moves').names d =
        (m.store.refill module.context moves).names d) ↔
      ∀ k, .importing k ∈ clauses → k ≠ name → m₁.ImportedBy name k → m₁.boundIn k = ∅ := by
  have husers : (m.store.refill module.context moves).users module.context =
      m₁.store.users module.context := by
    rw [Store.users, ← Store.context_congr hcontexts, Store.users]
  rw [Store.names_refill_twice_of_apart hready (outline_of_does hdoes hdoes')
    (hapart.apart h₁ hmodule hdoes) fun k _ => h.links.records _ _ _, husers]
  constructor
  · intro hall k hclause hother hlink
    obtain ⟨_, module', _, hmodule', _⟩ := id hlink
    have hne : module'.context.index ≠ module.context.index :=
      fun hindex => hother (h₁.name_of_index hmodule hmodule' hindex)
    rw [Machine.boundIn_of_registered hmodule', Store.names_congr hcontexts]
    exact hall _ (take_of_importing hdoes hclause hmodule') hne
      ((h₁.importedBy_iff hmodule hmodule').mp hlink)
  · intro hall source hsource hother huser
    obtain ⟨k, module', hclause, hmodule', rfl⟩ := importing_of_take hdoes hsource
    have hne : k ≠ name := by
      rintro rfl
      cases hmodule.symm.trans hmodule'
      exact hother rfl
    have hnone := hall k hclause hne ((h₁.importedBy_iff hmodule hmodule').mpr huser)
    rwa [Machine.boundIn_of_registered hmodule', Store.names_congr hcontexts] at hnone

theorem names_refill_twice_of_free
    (hfree : ∀ k, Involves name clauses k → ¬ m₁.ImportedBy name k) :
    (∀ d, ((m.store.refill module.context moves).refill module.context moves').names d =
        (m.store.refill module.context moves).names d) ↔
      ∀ clause ∈ clauses, clause.gives m₁ ⊆ m₁.boundIn name := by
  have husers : (m.store.refill module.context moves).users module.context =
      m₁.store.users module.context := by
    rw [Store.users, ← Store.context_congr hcontexts, Store.users]
  have hsame : ∀ d, (m.store.refill module.context moves).names d = m₁.store.names d := by
    intro d
    rw [Store.names_congr hcontexts]
  have hother : ∀ user ∈ (m.store.refill module.context moves).users module.context,
      user.index ≠ module.context.index := by
    intro user huser hindex
    rw [husers] at huser
    exact hfree name (.inl rfl) ((h₁.importedBy_iff hmodule hmodule).mpr ⟨user, huser, hindex⟩)
  rw [Store.names_refill_twice hready (outline_of_does hdoes hdoes') fun user huser =>
    ⟨hother user huser, fun source hsource hindex => ?_⟩]
  · rw [Machine.boundIn_of_registered hmodule, ← hsame]
    exact Store.gather_subset_iff h₁ hdoes hsame (hready.source_ne hother)
  · obtain ⟨k, module', hclause, hmodule', rfl⟩ := importing_of_take hdoes hsource
    rw [husers] at huser
    exact hfree k (.inr hclause) ((h₁.importedBy_iff hmodule hmodule').mpr ⟨user, huser, hindex⟩)

end Twice

theorem reloadSource_given (module : Module) (text : String) (m : Machine) :
    reloadSource module (some text) m = (.ok text, m) := by
  rcases module with ⟨_, _, _, _ | path⟩ <;> rfl

/-- Reloading a module from a plain source, and then once more from the same one. If the second
reload fails, it changes no names. If it succeeds, then:

* when the qualifiers of the module and of the modules that it imports tell names apart, names
  stay the same exactly when no imported module that imports this one binds anything;
* when neither the module nor one that it imports imports this one, names stay the same exactly
  when the first reload bound all that its source gives. -/
theorem reload_twice {ε : Type} (hm : PlainRun host main m)
    (htext : PlainSource m.modules text clauses) {reloaded : Module}
    (hfirst : (Interpreter.reload host name (some text) : Computation ε _) m =
      (.ok (.ok reloaded), m₁)) :
    let second := (Interpreter.reload host name (some text) : Computation ε _) m₁
    (∀ e, second.1 = .ok (.error e) → m₁.SameNames second.2) ∧
      ∀ again, second.1 = .ok (.ok again) →
        (TellsApart name clauses →
          (m₁.SameNames second.2 ↔ ∀ k, .importing k ∈ clauses → k ≠ name →
            m₁.ImportedBy name k → m₁.boundIn k = ∅)) ∧
        ((∀ k, Involves name clauses k → ¬ m₁.ImportedBy name k) →
          (m₁.SameNames second.2 ↔ ∀ clause ∈ clauses, clause.gives m₁ ⊆ m₁.boundIn name)) := by
  intro second
  obtain ⟨named, h⟩ := hm.plain
  obtain ⟨module, hmodule⟩ : ∃ module, m.modules.get? name = some module := by
    rcases @reload_cases ε host name (some text) m with
      ⟨e, m', hresult, _⟩ | ⟨module, _, _, hmodule, _⟩
    · cases hfirst.symm.trans hresult
    · exact ⟨module, hmodule⟩
  rcases h.reload ε host hmodule (reloadSource_given module text m) htext with
    ⟨e, m', hresult, _⟩ | ⟨moves, m', hresult, h₁, hdoes, hcontexts, hmodules⟩
  · cases hfirst.symm.trans hresult
  cases hfirst.symm.trans hresult
  have hsame := sameContexts_set hmodule text
  rw [← hmodules] at hsame
  have hmodule₁ : m₁.modules.get? name = some { module with source := text } := by
    rw [hmodules, Table.get?_set_self]
  have hdoes₁ := hsame.does hdoes
  have hready := h.ready hmodule hdoes
  rcases h₁.reload ε host hmodule₁ (reloadSource_given _ text m₁)
    (hsame.plainSource htext) with
    ⟨e, m₂, hresult₂, _, hnames⟩ | ⟨moves', m₂, hresult₂, _, hdoes', hcontexts', _⟩
  · have hsecond : second = (.ok (.error e), m₂) := hresult₂
    rw [hsecond]
    exact ⟨fun _ _ => hnames, fun again hagain => by cases hagain⟩
  · have hsecond : second = (.ok (.ok { module with source := text }), m₂) := hresult₂
    rw [hsecond]
    refine ⟨fun e he => (by cases he), fun _ _ => ?_⟩
    have hiff : m₁.SameNames m₂ ↔
        ∀ d, ((m.store.refill module.context moves).refill module.context moves').names d =
          (m.store.refill module.context moves).names d := by
      refine forall_congr' fun d => ?_
      rw [Store.names_congr (hcontexts'.trans (Store.contexts_refill_congr hcontexts)),
        Store.names_congr hcontexts]
    rw [hiff]
    have hapart := names_refill_twice_of_tellsApart h₁ hmodule₁ hready hdoes₁ hcontexts hdoes' h
    have hfree := names_refill_twice_of_free h₁ hmodule₁ hready hdoes₁ hcontexts hdoes'
    exact ⟨hapart, hfree⟩

end

/-! ## Two modules -/

/-- A session with two modules, of which the second imports the first. -/
def twoModules : Machine :=
  let m := Request.perform Host.basic firstRoot (newSession Host.basic) (.load "a" "(def x 1)")
  Request.perform Host.basic firstRoot m (.load "b" "(import \"a\") (def y 2)")

/-- A reload of a module from a source. -/
def reloadFrom (name text : String) (m : Machine) :
    Except Fault (Interpreter.Outcome Module) × Machine :=
  Interpreter.reload Host.basic name (some text) m

/-- Whether a reload has succeeded. -/
def succeeded : Except Fault (Interpreter.Outcome Module) → Bool
  | .ok (.ok _) => true
  | _ => false

theorem exists_of_succeeded {outcome : Except Fault (Interpreter.Outcome Module)}
    (h : succeeded outcome = true) : ∃ reloaded, outcome = .ok (.ok reloaded) := by
  rcases outcome with e | e | reloaded
  · cases h
  · cases h
  · exact ⟨reloaded, rfl⟩

theorem plainSource_of_import {modules : Table Module} (h : modules.contains "a" = true) :
    PlainSource modules "(import \"a\") (def y 2)" [.importing "a", .define "y" (.int 2)] := by
  refine ⟨rfl, rfl, fun clause hclause => ?_⟩
  rcases List.mem_cons.mp hclause with rfl | hclause
  · exact h
  · cases List.mem_singleton.mp hclause
    exact .int 2

theorem plainRun_twoModules : PlainRun Host.basic firstRoot twoModules := by
  refine .step (.load "b" _) (.step (.load "a" _) (.start rfl) ?_) ?_
  · refine ⟨[.define "x" (.int 1)], rfl, rfl, fun clause hclause => ?_⟩
    cases List.mem_singleton.mp hclause
    exact .int 1
  · refine ⟨_, plainSource_of_import ?_⟩
    decide +kernel

theorem tellsApart_of_import : TellsApart "b" [.importing "a", .define "y" (.int 2)] := by
  have hinvolved : ∀ k, Involves "b" [.importing "a", .define "y" (.int 2)] k →
      k = "b" ∨ k = "a" := by
    simp [Involves]
  constructor
  · intro k hk defined literal hclause
    simp only [List.mem_cons, reduceCtorEq, Clause.define.injEq, List.not_mem_nil, or_false,
      false_or] at hclause
    rw [mem_behind_univ, hclause.1]
    rcases hinvolved k hk with rfl | rfl
    · decide
    · decide
  · intro k k' hk hk' hne
    rw [mem_behind_univ]
    rcases hinvolved k hk with rfl | rfl
    all_goals rcases hinvolved k' hk' with rfl | rfl
    · exact absurd rfl hne
    · decide
    · decide
    · exact absurd rfl hne

/-- The second module can be reloaded twice, and names are as after the first time. -/
theorem reload_twice_of_importing_module :
    ∃ reloaded m₁, reloadFrom "b" "(import \"a\") (def y 2)" twoModules =
        (.ok (.ok reloaded), m₁) ∧
      m₁.SameNames (reloadFrom "b" "(import \"a\") (def y 2)" m₁).2 := by
  have hfirst : succeeded (reloadFrom "b" "(import \"a\") (def y 2)" twoModules).1 = true := by
    decide +kernel
  have hsecond : succeeded (reloadFrom "b" "(import \"a\") (def y 2)"
      (reloadFrom "b" "(import \"a\") (def y 2)" twoModules).2).1 = true := by
    decide +kernel
  have hplace : ((reloadFrom "b" "(import \"a\") (def y 2)" twoModules).2.modules.get? "b").map
      Module.context = some ⟨2, "b"⟩ := by
    decide +kernel
  have hunused : ((reloadFrom "b" "(import \"a\") (def y 2)" twoModules).2.store.context
      ⟨2, "b"⟩).usages = [] := by
    decide +kernel
  obtain ⟨reloaded, hreloaded⟩ := exists_of_succeeded hfirst
  obtain ⟨again, hagain⟩ := exists_of_succeeded hsecond
  rcases hrun : reloadFrom "b" "(import \"a\") (def y 2)" twoModules with ⟨outcome, m₁⟩
  rw [hrun] at hreloaded hagain hplace hunused
  cases hreloaded
  have hsource : PlainSource twoModules.modules "(import \"a\") (def y 2)" _ :=
    plainSource_of_import (by decide +kernel)
  have hsame := (reload_twice plainRun_twoModules hsource hrun).2 again hagain
  refine ⟨reloaded, m₁, rfl, (hsame.1 tellsApart_of_import).mpr ?_⟩
  -- nothing imports the second module
  rintro k _ _ ⟨module, _, hmodule, _, _, u, hu, _⟩
  rw [hmodule] at hplace
  rw [Option.some.inj hplace, hunused] at hu
  cases hu

/-- Reloading the first module so that it imports the second one, twice. The second time both bind
more names than the first time. -/
theorem mutual_imports_grow :
    PlainRun Host.basic firstRoot twoModules ∧
      PlainSource twoModules.modules "(import \"b\") (def x 1)"
        [.importing "b", .define "x" (.int 1)] ∧
      ∃ reloaded m₁, reloadFrom "a" "(import \"b\") (def x 1)" twoModules =
          (.ok (.ok reloaded), m₁) ∧
        ¬ m₁.SameNames (reloadFrom "a" "(import \"b\") (def x 1)" m₁).2 := by
  have hfirst : succeeded (reloadFrom "a" "(import \"b\") (def x 1)" twoModules).1 = true := by
    decide +kernel
  have hbefore : ((reloadFrom "a" "(import \"b\") (def x 1)" twoModules).2.store.context
      ⟨1, "a"⟩).table.contains "b.a.b.y" = false := by
    decide +kernel
  have hafter : ((reloadFrom "a" "(import \"b\") (def x 1)"
      (reloadFrom "a" "(import \"b\") (def x 1)" twoModules).2).2.store.context
      ⟨1, "a"⟩).table.contains "b.a.b.y" = true := by
    decide +kernel
  obtain ⟨reloaded, hreloaded⟩ := exists_of_succeeded hfirst
  rcases hrun : reloadFrom "a" "(import \"b\") (def x 1)" twoModules with ⟨outcome, m₁⟩
  rw [hrun] at hreloaded hbefore hafter
  cases hreloaded
  refine ⟨plainRun_twoModules, ⟨rfl, rfl, fun clause hclause => ?_⟩, reloaded, m₁, rfl,
    fun hsame => ?_⟩
  · rcases List.mem_cons.mp hclause with rfl | hclause
    · show twoModules.modules.contains "b" = true
      decide +kernel
    · cases List.mem_singleton.mp hclause
      exact .int 1
  · have hnames := Set.ext_iff.mp (hsame ⟨1, "a"⟩) "b.a.b.y"
    exact Bool.false_ne_true (hbefore.symm.trans (hnames.mp hafter))

end DispatchLisp
