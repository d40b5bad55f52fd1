import DispatchLisp.Proofs.Context.Links
import DispatchLisp.Proofs.Context.TakeOver

/-!
# Proofs.Context.Chronicle — contexts that change, and what was done to them

Contexts are made, bound, imported, imported again and emptied, in any order. A chronicle is the
store that comes of it together with the deeds that led there, the last one first: what was
bound, which bindings were taken over from where, and whose bindings were replaced. Taking over
is recorded with the bindings that the source had at that moment.

Throughout a run (`Run.faithful`) the deeds alone say what every import has recorded, and, for a
context whose bindings were never replaced, the value of every name (`binding?`).
-/

namespace DispatchLisp

/-! ## Deeds -/

/-- What is done to the bindings of a context. -/
inductive Deed where
  | defined (context : ContextId) (name : String) (value : Value)
  | tookOver (importer source : ContextId) (qualifier : String) (bindings : Table Value)
  | replaced (context : ContextId)
deriving DecidableEq

namespace Deed

/-- The value that a deed directly defines a name of a context with. -/
def definition? (c : ContextId) (name : String) : Deed → Option Value
  | defined d n v => if d.index = c.index ∧ n = name then some v else none
  | _ => none

/-- The bindings that a deed takes over into a context from a source under a qualifier. -/
def taken? (c source : ContextId) (qualifier : String) : Deed → Option (Table Value)
  | tookOver d s q bindings =>
    if d.index = c.index ∧ s = source ∧ q = qualifier then some bindings else none
  | _ => none

/-- The value that a deed gives a name of a context, directly or by taking it over. -/
def given? (c : ContextId) (name : String) : Deed → Option Value
  | defined d n v => if d.index = c.index ∧ n = name then some v else none
  | tookOver d _ q bindings =>
    if d.index = c.index then (bindings.qualified q).get? name else none
  | replaced _ => none

/-- Whether a deed replaces the bindings of a context. -/
def replaces (c : ContextId) : Deed → Bool
  | replaced d => d.index = c.index
  | _ => false

/-- Whether in a deed a context takes over from itself. -/
def fromItself : Deed → Bool
  | tookOver d s _ _ => d.index = s.index
  | _ => false

end Deed

/-! ## What deeds amount to -/

section Past

variable (past : List Deed)

/-- The value that a name of a context was last directly defined with. -/
def lastDefined? (c : ContextId) (name : String) : Option Value :=
  past.findSome? (Deed.definition? c name)

/-- The bindings that were last taken over into a context from a source under a qualifier. -/
def lastTaken? (c source : ContextId) (qualifier : String) : Option (Table Value) :=
  past.findSome? (Deed.taken? c source qualifier)

/-- The bindings last taken over from a source, behind the qualifier. -/
def lastShown (c source : ContextId) (qualifier : String) : Table Value :=
  ((lastTaken? past c source qualifier).getD []).qualified qualifier

/-- Whether the bindings of a context were never replaced. -/
def NeverReplaced (c : ContextId) : Prop :=
  ∀ deed ∈ past, deed.replaces c = false

/-- Whether no context took over bindings from itself. -/
def NeverFromItself : Prop :=
  ∀ deed ∈ past, deed.fromItself = false

/-- Whether a context ever took over a name from a source under a qualifier. -/
def BroughtIn (c source : ContextId) (qualifier name : String) : Prop :=
  ∃ deed ∈ past, ∃ bindings, deed.taken? c source qualifier = some bindings ∧
    (bindings.qualified qualifier).contains name = true

/-- Whether a name was ever directly defined in a context. -/
def DefinedIn (c : ContextId) (name : String) : Prop :=
  ∃ deed ∈ past, ∃ v, deed.definition? c name = some v

instance (c : ContextId) : Decidable (NeverReplaced past c) :=
  inferInstanceAs (Decidable (∀ deed ∈ past, _))

instance : Decidable (NeverFromItself past) :=
  inferInstanceAs (Decidable (∀ deed ∈ past, _))

end Past

/-- Whether a deed drops a name from a context: it takes over anew from a source that brought the
name in the last time. -/
def Deed.drops (c : ContextId) (name : String) (older : List Deed) : Deed → Bool
  | tookOver d s q _ => d.index = c.index && (lastShown older c s q).contains name
  | _ => false

/-- The value of a name in a context after some deeds. A deed that gives the name no value can
still drop the one it had. -/
def binding? (c : ContextId) (name : String) : List Deed → Option Value
  | [] => none
  | deed :: older =>
    (deed.given? c name).or (if deed.drops c name older then none else binding? c name older)

section Past

variable {past : List Deed} {deed : Deed} {c source : ContextId} {qualifier name : String}

theorem NeverReplaced.older (h : NeverReplaced (deed :: past) c) : NeverReplaced past c :=
  fun d hd => h d (List.mem_cons_of_mem _ hd)

theorem BroughtIn.cons (h : BroughtIn past c source qualifier name) (deed : Deed) :
    BroughtIn (deed :: past) c source qualifier name := by
  obtain ⟨d, hmem, hd⟩ := h
  exact ⟨d, List.mem_cons_of_mem _ hmem, hd⟩

theorem DefinedIn.cons (h : DefinedIn past c name) (deed : Deed) :
    DefinedIn (deed :: past) c name := by
  obtain ⟨d, hmem, hd⟩ := h
  exact ⟨d, List.mem_cons_of_mem _ hmem, hd⟩

theorem lastTaken?_cons (deed : Deed) (past : List Deed) (c source : ContextId)
    (qualifier : String) : lastTaken? (deed :: past) c source qualifier =
      (deed.taken? c source qualifier).or (lastTaken? past c source qualifier) := by
  rw [lastTaken?, List.findSome?_cons, lastTaken?]
  cases deed.taken? c source qualifier <;> rfl

theorem lastShown_cons_of_none (h : deed.taken? c source qualifier = none) (past : List Deed) :
    lastShown (deed :: past) c source qualifier = lastShown past c source qualifier := by
  rw [lastShown, lastTaken?_cons, h, Option.none_or, lastShown]

theorem lastTaken?_tookOver (d s c source : ContextId) (q qualifier : String)
    (bindings : Table Value) (past : List Deed) :
    lastTaken? (.tookOver d s q bindings :: past) c source qualifier =
      if d.index = c.index ∧ s = source ∧ q = qualifier then some bindings
      else lastTaken? past c source qualifier := by
  rw [lastTaken?_cons, Deed.taken?]
  split <;> rfl

theorem lastShown_tookOver (d s c source : ContextId) (q qualifier : String)
    (bindings : Table Value) (past : List Deed) :
    lastShown (.tookOver d s q bindings :: past) c source qualifier =
      if d.index = c.index ∧ s = source ∧ q = qualifier then bindings.qualified qualifier
      else lastShown past c source qualifier := by
  rw [lastShown, lastTaken?_tookOver]
  split <;> rfl

end Past

/-! ## Changes -/

/-- What can be done to contexts. -/
inductive Change where
  | new (name : String) (parent : Option ContextId)
  | define (context : ContextId) (name : String) (value : Value)
  | importFrom (importer source : ContextId) (qualifier : String)
  | reimport (importer source : ContextId) (qualifier : String)
  | propagate (source : ContextId)
  | replace (context : ContextId) (entries : List (String × Value))

/-- Whether the contexts that a change names are there. -/
def Change.Allowed (s : Store) : Change → Prop
  | new _ parent => ∀ outer ∈ parent, s.HasContext outer
  | define context _ _ => s.HasContext context
  | importFrom importer source _ => s.HasContext importer ∧ s.HasContext source
  | reimport importer source _ => s.HasContext importer ∧ s.HasContext source
  | propagate source => s.HasContext source
  | replace context _ => s.HasContext context

instance (s : Store) : (change : Change) → Decidable (change.Allowed s)
  | .new _ parent => inferInstanceAs (Decidable (∀ outer ∈ parent, s.HasContext outer))
  | .define context _ _ => inferInstanceAs (Decidable (s.HasContext context))
  | .importFrom importer source _ =>
    inferInstanceAs (Decidable (s.HasContext importer ∧ s.HasContext source))
  | .reimport importer source _ =>
    inferInstanceAs (Decidable (s.HasContext importer ∧ s.HasContext source))
  | .propagate source => inferInstanceAs (Decidable (s.HasContext source))
  | .replace context _ => inferInstanceAs (Decidable (s.HasContext context))

/-- A store and the deeds that led to it, the last one first. -/
structure Chronicle where
  store : Store
  past : List Deed

namespace Chronicle

/-- Takes over the present bindings of a source under a qualifier. -/
def reimport (w : Chronicle) (importer source : ContextId) (qualifier : String) : Chronicle where
  store := w.store.reimport importer source qualifier
  past := .tookOver importer source qualifier (w.store.context source).table :: w.past

/-- Takes over the bindings of a context for everyone who imports it. -/
def propagate (w : Chronicle) (source : ContextId) : Chronicle :=
  (Store.usersOf (w.store.context source).usages).foldl
    (fun w user => w.reimport user.1 source user.2) w

/-- The chronicle after a change. -/
def perform (w : Chronicle) : Change → Chronicle
  | .new name parent => { w with store := (w.store.newContext name parent).2 }
  | .define context name value =>
    ⟨w.store.define context name value, .defined context name value :: w.past⟩
  | .importFrom importer source qualifier =>
    { w.reimport importer source qualifier with
      store := w.store.importFrom importer source qualifier }
  | .reimport importer source qualifier => w.reimport importer source qualifier
  | .propagate source => { w.propagate source with store := w.store.propagate source }
  | .replace context entries =>
    ⟨w.store.replaceTable context (Table.setAll [] entries), .replaced context :: w.past⟩

/-- Recording what is taken over does not change how a context is propagated. -/
theorem store_propagate (w : Chronicle) (source : ContextId) :
    (w.propagate source).store = w.store.propagate source := by
  rw [propagate, Store.propagate_eq]
  symm
  exact List.foldl_hom Chronicle.store fun w user => rfl

theorem perform_propagate (w : Chronicle) (source : ContextId) :
    w.perform (.propagate source) = w.propagate source := by
  rw [perform, ← store_propagate]

/-- The chronicles of changes to contexts that were made along the way. -/
inductive Run : Chronicle → Prop where
  | start {s : Store} : s.contexts = #[] → Run ⟨s, []⟩
  | step {w : Chronicle} (change : Change) :
      Run w → change.Allowed w.store → Run (w.perform change)

/-- The chronicle after several changes. -/
def performAll (w : Chronicle) (changes : List Change) : Chronicle :=
  changes.foldl perform w

/-- Whether the contexts that several changes name are there when their turn comes. -/
def Allows (w : Chronicle) : List Change → Prop
  | [] => True
  | change :: rest => change.Allowed w.store ∧ (w.perform change).Allows rest

instance decidableAllows (w : Chronicle) : (changes : List Change) → Decidable (w.Allows changes)
  | [] => inferInstanceAs (Decidable True)
  | change :: rest =>
    have := decidableAllows (w.perform change) rest
    inferInstanceAs (Decidable (_ ∧ _))

theorem Run.performAll {w : Chronicle} (h : Run w) {changes : List Change}
    (hallowed : w.Allows changes) : Run (w.performAll changes) := by
  induction changes generalizing w with
  | nil => exact h
  | cons change rest ih => exact ih (h.step change hallowed.1) hallowed.2

/-! ## What the deeds say about the store -/

/-- Whether the store is as its deeds say. -/
structure Faithful (w : Chronicle) : Prop where
  unique : ∀ c, (w.store.context c).table.Unique
  importers : ∀ importer source qualifier bindings,
    Deed.tookOver importer source qualifier bindings ∈ w.past → w.store.HasContext importer
  users : ∀ source importer qualifier, w.store.ImportedBy source importer qualifier →
    ∃ d s bindings, Deed.tookOver d s qualifier bindings ∈ w.past ∧
      d.index = importer.index ∧ s.index = source.index
  records : ∀ c, ∀ r ∈ (w.store.context c).imports,
    (lastTaken? w.past c r.source r.qualifier).isSome = true
  names : ∀ c source qualifier,
    importedNames source qualifier (w.store.context c).imports =
      Association.keys (lastShown w.past c source qualifier)
  bindings : ∀ c, NeverReplaced w.past c → ∀ name, w.store.own? c name = binding? c name w.past

namespace Faithful

variable {w : Chronicle}

theorem start {s : Store} (h : s.contexts = #[]) : Faithful ⟨s, []⟩ := by
  have hempty : ∀ c, s.context c = ⟨none, [], [], []⟩ := by
    intro c
    apply Store.context_of_not_hasContext
    unfold Store.HasContext
    rw [h]
    exact Nat.not_lt_zero _
  constructor
  · intro c
    rw [hempty]
    exact Table.unique_nil
  · intro _ _ _ _ hmem
    cases hmem
  · intro source importer qualifier h
    rw [Store.ImportedBy, hempty] at h
    obtain ⟨u, hu, _⟩ := h
    cases hu
  · intro c r hr
    rw [hempty] at hr
    cases hr
  · intro c source qualifier
    rw [hempty]
    rfl
  · intro c _ name
    rw [Store.own?, hempty]
    rfl

/-- Whatever keeps bindings and records keeps what the deeds say. -/
theorem of_sameContents (h : Faithful w) {s : Store}
    (hsize : w.store.contexts.size ≤ s.contexts.size)
    (htable : ∀ c, (s.context c).table = (w.store.context c).table)
    (himports : ∀ c, (s.context c).imports = (w.store.context c).imports)
    (husers : ∀ source importer qualifier, s.ImportedBy source importer qualifier →
      ∃ d s' bindings, Deed.tookOver d s' qualifier bindings ∈ w.past ∧
        d.index = importer.index ∧ s'.index = source.index) :
    Faithful { w with store := s } := by
  constructor
  · intro c
    rw [htable]
    exact h.unique c
  · intro importer source qualifier bindings hmem
    exact Nat.lt_of_lt_of_le (h.importers _ _ _ _ hmem) hsize
  · exact husers
  · intro c r hr
    rw [himports] at hr
    exact h.records c r hr
  · intro c source qualifier
    rw [himports]
    exact h.names c source qualifier
  · intro c hc name
    rw [Store.own?, htable]
    exact h.bindings c hc name

/-- A new context has no bindings, records or users. -/
theorem new (h : Faithful w) (name : String) (parent : Option ContextId) :
    Faithful { w with store := (w.store.newContext name parent).2 } := by
  apply h.of_sameContents
  · rw [Store.size_newContext]
    exact Nat.le_succ _
  · exact Store.context_newContext_part ContextCell.table (fun _ => rfl) w.store name parent
  · exact Store.context_newContext_part ContextCell.imports (fun _ => rfl) w.store name parent
  · intro source importer qualifier huser
    rw [Store.importedBy_newContext] at huser
    exact h.users source importer qualifier huser

/-- A change of the table of one context, which is not recorded as taking over, leaves the
records as they are. -/
theorem changeTable (h : Faithful w) {id : ContextId} {f : Table Value → Table Value} {deed : Deed}
    (hf : ∀ table : Table Value, table.Unique → (f table).Unique)
    (hdeed : ∀ c source qualifier, deed.taken? c source qualifier = none)
    (hbindings : ∀ c, NeverReplaced (deed :: w.past) c → ∀ name,
      (w.store.updateContext id fun cell => { cell with table := f cell.table }).own? c name =
        binding? c name (deed :: w.past)) :
    Faithful ⟨w.store.updateContext id fun cell => { cell with table := f cell.table },
      deed :: w.past⟩ := by
  let g : ContextCell → ContextCell := fun cell => { cell with table := f cell.table }
  have himports : ∀ c, ((w.store.updateContext id g).context c).imports =
      (w.store.context c).imports :=
    Store.context_updateContext_part ContextCell.imports (f := g) (fun _ => rfl) w.store id
  have hlinks := w.store.sameLinks_updateContext id (f := g) (fun _ => rfl) (fun _ => rfl)
  have hmem : ∀ {importer source qualifier bindings},
      Deed.tookOver importer source qualifier bindings ∈ deed :: w.past →
        Deed.tookOver importer source qualifier bindings ∈ w.past := by
    intro importer source qualifier bindings hmem
    rcases List.mem_cons.mp hmem with rfl | hmem
    · -- the deed would have taken over
      have htaken : Deed.taken? importer source qualifier
          (.tookOver importer source qualifier bindings) = some bindings := if_pos ⟨rfl, rfl, rfl⟩
      rw [hdeed] at htaken
      cases htaken
    · exact hmem
  constructor
  · intro c
    let HasUnique : ContextCell → Prop := fun cell => cell.table.Unique
    have hkept : ∀ cell, HasUnique cell → HasUnique (g cell) := fun cell h => hf cell.table h
    exact Store.context_updateContext_of hkept (h.unique c) id
  · intro importer source qualifier bindings hpast
    have hthere := h.importers _ _ _ _ (hmem hpast)
    rwa [Store.HasContext, Store.size_updateContext]
  · intro source importer qualifier huser
    obtain ⟨d, s, bindings, hpast, hrest⟩ := h.users _ _ _ ((hlinks.importedBy _ _ _).mp huser)
    exact ⟨d, s, bindings, List.mem_cons_of_mem _ hpast, hrest⟩
  · intro c r hr
    rw [himports] at hr
    rw [lastTaken?_cons, hdeed, Option.none_or]
    exact h.records c r hr
  · intro c source qualifier
    rw [himports, lastShown_cons_of_none (hdeed _ _ _)]
    exact h.names c source qualifier
  · exact hbindings

theorem define (h : Faithful w) {id : ContextId} (hid : w.store.HasContext id) (name : String)
    (v : Value) :
    Faithful ⟨w.store.define id name v, .defined id name v :: w.past⟩ := by
  refine h.changeTable (f := fun table => table.set name v) ?_ ?_ ?_
  · intro table htable
    exact htable.set name v
  · intro c source qualifier
    rfl
  · intro c hc other
    have hbefore := h.bindings c hc.older other
    unfold Store.own? at hbefore ⊢
    rw [binding?]
    by_cases hown : c.index = id.index
    · have hthere : w.store.HasContext c := by
        unfold Store.HasContext at hid ⊢
        rwa [hown]
      rw [Store.context_updateContext_self hown hthere, Table.get?_set, hbefore]
      by_cases hname : name = other
      · simp [Deed.given?, hown, hname]
      · simp [Deed.given?, Deed.drops, hname]
    · rw [Store.context_updateContext_ne hown, hbefore]
      simp [Deed.given?, Deed.drops, Ne.symm hown]

theorem replace (h : Faithful w) (id : ContextId) (entries : List (String × Value)) :
    Faithful ⟨w.store.replaceTable id (Table.setAll [] entries), .replaced id :: w.past⟩ := by
  refine h.changeTable (f := fun _ => Table.setAll [] entries) ?_ ?_ ?_
  · intro table _
    exact Table.unique_nil.setAll entries
  · intro c source qualifier
    rfl
  · intro c hc name
    -- the context that is looked at is another one
    have hne : c.index ≠ id.index :=
      Ne.symm (of_decide_eq_false (hc (.replaced id) List.mem_cons_self))
    rw [Store.own?, Store.context_updateContext_ne hne]
    exact h.bindings c hc.older name

/-- After taking over, the record of the import lists what was taken over. -/
theorem names_reimport (h : Faithful w) {importer : ContextId}
    (hthere : w.store.HasContext importer) (source : ContextId) (qualifier : String)
    (c s : ContextId) (q : String) :
    importedNames s q ((w.store.reimport importer source qualifier).context c).imports =
      Association.keys (lastShown (w.reimport importer source qualifier).past c s q) := by
  rw [Store.context_reimport hthere]
  by_cases hsame : importer.index = c.index ∧ source = s ∧ qualifier = q
  · obtain ⟨hc, rfl, rfl⟩ := hsame
    rw [if_pos hc.symm, ContextCell.takeOver, importedNames_recordImport, if_pos ⟨rfl, rfl⟩,
      Chronicle.reimport, lastShown_tookOver, if_pos ⟨hc, rfl, rfl⟩]
  · -- the record that is asked for is another one
    rw [Chronicle.reimport, lastShown_tookOver, if_neg hsame, ← h.names c s q]
    split
    case isTrue hc =>
      rw [ContextCell.takeOver, importedNames_recordImport]
      exact if_neg fun hrecord => hsame ⟨hc.symm, hrecord⟩
    case isFalse => rfl

/-- After taking over, the importer binds what was taken over and has lost what is stale. -/
theorem bindings_reimport (h : Faithful w) {importer : ContextId}
    (hthere : w.store.HasContext importer) (source : ContextId) (qualifier : String)
    {c : ContextId} (hc : NeverReplaced w.past c) (name : String) :
    (w.store.reimport importer source qualifier).own? c name =
      binding? c name (w.reimport importer source qualifier).past := by
  have hbefore := h.bindings c hc name
  have hview := (h.unique source).qualified qualifier
  rw [Chronicle.reimport, binding?, ← hbefore, Store.own?, Store.context_reimport hthere]
  by_cases hown : c.index = importer.index
  · rw [if_pos hown, ContextCell.get?_table_takeOver hview, h.names c source qualifier]
    simp only [Table.mem_keys, Deed.given?, Deed.drops, hown, if_true, decide_true, Bool.true_and]
    rfl
  · rw [if_neg hown]
    simp only [Deed.given?, Deed.drops, Ne.symm hown, if_false, decide_false, Bool.false_and,
      Bool.false_eq_true, Option.none_or]
    rfl

theorem reimport (h : Faithful w) {importer : ContextId} (hthere : w.store.HasContext importer)
    (source : ContextId) (qualifier : String) :
    Faithful (w.reimport importer source qualifier) := by
  have hcontext := Store.context_reimport hthere source qualifier
  constructor
  · intro c
    rw [Chronicle.reimport, hcontext]
    split
    · exact ContextCell.unique_takeOver (h.unique c) _ _ _
    · exact h.unique c
  · intro d s q bindings hmem
    rw [Chronicle.reimport, Store.HasContext, Store.size_reimport]
    rcases List.mem_cons.mp hmem with heq | hmem
    · cases heq
      exact hthere
    · exact h.importers d s q bindings hmem
  · intro s user q huser
    rw [Chronicle.reimport, Store.importedBy_reimport] at huser
    obtain ⟨d, s', bindings, hmem, hrest⟩ := h.users s user q huser
    exact ⟨d, s', bindings, List.mem_cons_of_mem _ hmem, hrest⟩
  · intro c r hr
    rw [Chronicle.reimport, hcontext] at hr
    rw [Chronicle.reimport, lastTaken?_cons, Option.isSome_or, Bool.or_eq_true]
    split at hr
    case isTrue hc =>
      -- the record that was written is that of this deed
      rcases mem_recordImport hr with rfl | hr
      · simp [Deed.taken?, hc]
      · exact .inr (h.records c r hr)
    case isFalse => exact .inr (h.records c r hr)
  · exact h.names_reimport hthere source qualifier
  · intro c hc
    exact h.bindings_reimport hthere source qualifier hc.older

/-- An import takes over, and then the source is told of the importer. -/
theorem importFrom (h : Faithful w) {importer source : ContextId}
    (hthere : w.store.HasContext importer) (hsource : w.store.HasContext source)
    (qualifier : String) : Faithful (w.perform (.importFrom importer source qualifier)) := by
  have hafter := h.reimport hthere source qualifier
  apply hafter.of_sameContents
  · apply Nat.le_of_eq
    rw [Store.size_importFrom, Chronicle.reimport, Store.size_reimport]
  · intro c
    exact Store.context_importFrom_part ContextCell.table (fun _ _ => rfl) ..
  · intro c
    exact Store.context_importFrom_part ContextCell.imports (fun _ _ => rfl) ..
  · intro s user q huser
    rcases (Store.importedBy_importFrom hsource ..).mp huser with huser | ⟨hs, himporter, rfl⟩
    · obtain ⟨d, s', bindings, hmem, hrest⟩ := h.users s user q huser
      exact ⟨d, s', bindings, List.mem_cons_of_mem _ hmem, hrest⟩
    · exact ⟨importer, source, _, List.mem_cons_self, himporter, hs.symm⟩

/-- Propagating takes over for one user after another, each of which once imported. -/
theorem propagate (h : Faithful w) (source : ContextId) : Faithful (w.propagate source) := by
  have hsteps : Faithful (w.propagate source) ∧
      (w.propagate source).store.contexts.size = w.store.contexts.size := by
    let Kept : Chronicle → Prop := fun w' =>
      Faithful w' ∧ w'.store.contexts.size = w.store.contexts.size
    refine List.foldlRecOn (motive := Kept) _ _ ⟨h, rfl⟩ fun w' hw' user huser => ?_
    obtain ⟨d, s, bindings, hmem, hd, _⟩ :=
      h.users source user.1 user.2 (Store.importedBy_of_mem_usersOf huser)
    have hthere : w'.store.HasContext user.1 := by
      have himporter := h.importers d s user.2 bindings hmem
      unfold Store.HasContext at himporter ⊢
      rw [hw'.2, ← hd]
      exact himporter
    refine ⟨hw'.1.reimport hthere source user.2, ?_⟩
    rw [Chronicle.reimport, Store.size_reimport]
    exact hw'.2
  exact hsteps.1

theorem perform (h : Faithful w) {change : Change} (hallowed : change.Allowed w.store) :
    Faithful (w.perform change) := by
  cases change with
  | new name parent => exact h.new name parent
  | define context name value => exact h.define hallowed name value
  | importFrom importer source qualifier => exact h.importFrom hallowed.1 hallowed.2 qualifier
  | reimport importer source qualifier => exact h.reimport hallowed.1 source qualifier
  | propagate source =>
      rw [perform_propagate]
      exact h.propagate source
  | replace context entries => exact h.replace context entries

end Faithful

/-- Throughout a run the store is as its deeds say. -/
theorem Run.faithful {w : Chronicle} (h : Run w) : Faithful w := by
  induction h with
  | start hstart => exact .start hstart
  | step change _ hallowed ih => exact ih.perform hallowed

end Chronicle

end DispatchLisp
