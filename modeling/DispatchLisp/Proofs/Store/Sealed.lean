import DispatchLisp.Builtin.Collection
import DispatchLisp.Proofs.Context.TakeOver
import DispatchLisp.Proofs.Dispatch.Shape
import DispatchLisp.Proofs.Store.Functions
import DispatchLisp.Proofs.Store.Keys
import DispatchLisp.Proofs.Store.Trees

/-!
# Proofs.Store.Sealed — code that no value leads to

Code and values are made of the same lists. A value *holds* the lists that are found by going from
it into elements and entries. Given which lists of code are free to be handed out, a value is *loose*
when all code that it holds is free, and a store is *sealed* when every value that a program can come
by is loose: what contexts bind, and what finished lists and dicts are made of. Code that is not free
is then out of reach for whatever changes lists.

A change is *harmless* when the new store is made of what was there and of loose values
(`Store.Harmless`). A harmless change keeps a store sealed, loose values loose, and code that is not
free as it is; every operation of a store is harmless when it is given loose values. It also keeps
an invariant of collections, whichever one is chosen (`Store.CollectionInvariant`). That is where the
operations differ that change collections in place: they are harmless if they keep the invariant.
-/

namespace DispatchLisp

/-- Whether a native belongs to the language: forms take their arguments as they are written, and
all other natives take values. -/
def Native.IsStandard (f : Native) : Prop :=
  match f.role with
  | .builtin _ | .traversal _ => f.lazy = false
  | .form _ | .importModule => f.lazy = true
  | .host _ => False

namespace Store

/-- Whether a value is there: a collection has been made, and a native belongs to the language. -/
def Has (s : Store) : Value → Prop
  | .native f => f.IsStandard
  | .atom _ => True
  | .list id => id.index < s.lists.size
  | .dict id => id.index < s.dicts.size

variable {free : ListId → Prop}

/-- Whether a value is there and all code that it holds is free. -/
structure Loose (free : ListId → Prop) (s : Store) (v : Value) : Prop where
  has : s.Has v
  held : ∀ id, s.Holds v id → (s.list id).evaluated = true ∨ free id

/-- Whether everything that is stored is there, and the values that programs can come by are
loose. -/
structure Apart (free : ListId → Prop) (s : Store) : Prop where
  items : ∀ id, ∀ v ∈ (s.list id).items, s.Has v
  finished : ∀ id, (s.list id).evaluated = true → ∀ v ∈ (s.list id).items, s.Loose free v
  entries : ∀ id, ∀ e ∈ (s.dict id).entries, s.Has (.atom e.1) ∧ s.Loose free e.2
  bodies : ∀ id, ∀ p ∈ s.patterns id, s.Has p.body
  bound : ∀ c, ∀ b ∈ (s.context c).table, s.Loose free b.2

/-- Whether a store is apart from code that is not free, and with any list that is free all those are
that have not been made yet: a part of a free list is a new list. -/
structure Sealed (free : ListId → Prop) (s : Store) : Prop extends s.Apart free where
  fresh : ∀ id, free id → ∀ new : ListId, s.lists.size ≤ new.index → free new

/-! ## Loose values -/

section

variable {s : Store} {v : Value}

theorem Has.of_size {s' : Store} (h : s.Has v) (hlists : s.lists.size ≤ s'.lists.size)
    (hdicts : s.dicts.size ≤ s'.dicts.size) : s'.Has v := by
  rcases v with a | id | id
  · cases a <;> exact h
  · exact Nat.lt_of_lt_of_le h hlists
  · exact Nat.lt_of_lt_of_le h hdicts

/-- An atom holds nothing. -/
theorem loose_atom {a : Atom} (h : s.Has (.atom a)) : s.Loose free (.atom a) := by
  refine ⟨h, fun id hholds => ?_⟩
  cases hholds

theorem loose_list {id : ListId} (hid : id.index < s.lists.size)
    (hself : (s.list id).evaluated = true ∨ free id)
    (hitems : ∀ v ∈ (s.list id).items, s.Loose free v) : s.Loose free (.list id) := by
  refine ⟨hid, fun other hholds => ?_⟩
  cases hholds with
  | self => exact hself
  | item hv hheld => exact (hitems _ hv).held other hheld

namespace Apart

theorem loose_item (h : s.Apart free) {id : ListId} (hid : s.Loose free (.list id))
    (hv : v ∈ (s.list id).items) : s.Loose free v :=
  ⟨h.items id v hv, fun other hheld => hid.held other (.item hv hheld)⟩

/-- A finished list is loose. -/
theorem loose_finished (h : s.Apart free) {id : ListId} (hid : id.index < s.lists.size)
    (hfinished : (s.list id).evaluated = true) : s.Loose free (.list id) :=
  loose_list hid (.inl hfinished) (h.finished id hfinished)

/-- Every dict is loose. -/
theorem loose_dict (h : s.Apart free) {id : DictId} (hid : id.index < s.dicts.size) :
    s.Loose free (.dict id) := by
  refine ⟨hid, fun other hholds => ?_⟩
  cases hholds with
  | entry he hheld => exact (h.entries id _ he).2.held other hheld

/-- What a name means is loose. -/
theorem loose_lookup (h : s.Apart free) {c : ContextId} {name : String}
    (hv : s.lookup? c name = some v) : s.Loose free v := by
  obtain ⟨d, _, hd⟩ := List.exists_of_findSome?_eq_some hv
  obtain ⟨k, hmem⟩ := Association.mem_of_get? hd
  exact h.bound d _ hmem

/-- More lists may be free than have to be. -/
theorem mono {free' : ListId → Prop} (h : s.Apart free) (hfree : ∀ id, free id → free' id) :
    s.Apart free' := by
  have hloose : ∀ v, s.Loose free v → s.Loose free' v :=
    fun v hv => ⟨hv.has, fun id hid => (hv.held id hid).imp_right (hfree id)⟩
  exact ⟨h.items, fun id hid v hv => hloose v (h.finished id hid v hv),
    fun id e he => ⟨(h.entries id e he).1, hloose _ (h.entries id e he).2⟩, h.bodies,
    fun c b hb => hloose _ (h.bound c b hb)⟩

/-- A list that something holds has been made. -/
theorem size_of_holds (h : s.Apart free) {id : ListId} (hholds : s.Holds v id) (hv : s.Has v) :
    id.index < s.lists.size := by
  induction hholds with
  | self id => exact hv
  | item hitem _ ih => exact ih (h.items _ _ hitem)
  | entry he _ ih => exact ih (h.entries _ _ he).2.has

/-- Where every list that has been made is free, everything that is there is loose. -/
theorem of_size {free' : ListId → Prop} (h : s.Apart free)
    (hfree : ∀ id : ListId, id.index < s.lists.size → free' id) : s.Apart free' := by
  have hloose : ∀ v, s.Has v → s.Loose free' v :=
    fun v hv => ⟨hv, fun id hid => .inr (hfree id (h.size_of_holds hid hv))⟩
  exact ⟨h.items, fun id _ v hv => hloose v (h.items id v hv),
    fun id e he => ⟨(h.entries id e he).1, hloose _ (h.entries id e he).2.has⟩, h.bodies,
    fun c b hb => hloose _ (h.bound c b hb).has⟩

end Apart

end

/-! ## What holds of collections -/

/-- Something that holds of the collections of a store, whatever else there is in it, and that goes on
to hold when a new collection is made of values that are there. -/
structure CollectionInvariant where
  At : Store → Prop
  same {s s' : Store} : s'.lists = s.lists → s'.dicts = s.dicts → At s → At s'
  newList {s : Store} {items : List Value} (evaluated : Bool) : (s.Apart fun _ => True) →
    (∀ v ∈ items, s.Has v) → At s → At (s.newList items evaluated).2
  newDict {s : Store} {entries : Association Atom Value} : (s.Apart fun _ => True) →
    DistinctKeys entries.keys → (∀ e ∈ entries, s.Has e.2) → At s → At (s.newDict entries).2

/-- The invariant that says nothing. -/
def CollectionInvariant.nothing : CollectionInvariant where
  At _ := True
  same _ _ _ := trivial
  newList _ _ _ _ := trivial
  newDict _ _ _ _ := trivial

variable {inv : CollectionInvariant}

/-! ## Harmless changes -/

/-- Whether a store is made of what was there and of values that were loose, code that is not free is
as it was, and an invariant is kept. -/
structure Harmless (free : ListId → Prop) (inv : CollectionInvariant) (s s' : Store) : Prop where
  lists : s.lists.size ≤ s'.lists.size
  dicts : s.dicts.size ≤ s'.dicts.size
  same : ∀ id, (s.list id).evaluated = false → ¬ free id → s'.list id = s.list id
  flags : ∀ id : ListId, id.index < s.lists.size → (s'.list id).evaluated = (s.list id).evaluated
  items : ∀ id, ∀ v ∈ (s'.list id).items, s.Has v
  finished : ∀ id, (s'.list id).evaluated = true → ∀ v ∈ (s'.list id).items, s.Loose free v
  inside : ∀ id, s.Loose free (.list id) → ∀ v ∈ (s'.list id).items, s.Loose free v
  entries : ∀ id, ∀ e ∈ (s'.dict id).entries, s.Has (.atom e.1) ∧ s.Loose free e.2
  bodies : ∀ id, ∀ p ∈ s'.patterns id, s.Has p.body
  bound : ∀ c, ∀ b ∈ (s'.context c).table, s.Loose free b.2
  keeps : inv.At s → inv.At s'

/-- What of one store can be relied on in a later one. -/
structure Since (free : ListId → Prop) (inv : CollectionInvariant) (s s' : Store) : Prop where
  lists : s.lists.size ≤ s'.lists.size
  has : ∀ v, s.Has v → s'.Has v
  loose : ∀ v, s.Loose free v → s'.Loose free v
  same : ∀ id, (s.list id).evaluated = false → ¬ free id → s'.list id = s.list id
  keeps : inv.At s → inv.At s'

theorem Since.refl (s : Store) : Since free inv s s :=
  ⟨Nat.le_refl _, fun _ hv => hv, fun _ hv => hv, fun _ _ _ => rfl, fun h => h⟩

theorem Since.trans {s s' s'' : Store} (h : Since free inv s s') (h' : Since free inv s' s'') :
    Since free inv s s'' := by
  refine ⟨Nat.le_trans h.lists h'.lists, fun v hv => h'.has v (h.has v hv),
    fun v hv => h'.loose v (h.loose v hv), fun id hcode hfree => ?_,
    fun hkept => h'.keeps (h.keeps hkept)⟩
  have hfirst := h.same id hcode hfree
  rw [h'.same id (hfirst ▸ hcode) hfree, hfirst]

namespace Harmless

variable {s s' : Store}

theorem has (h : Harmless free inv s s') {v : Value} (hv : s.Has v) : s'.Has v :=
  hv.of_size h.lists h.dicts

/-- A loose value stays loose: a way into it after the change leads through values that were loose. -/
theorem loose (h : Harmless free inv s s') {v : Value} (hv : s.Loose free v) : s'.Loose free v := by
  refine ⟨h.has hv.has, fun id hholds => ?_⟩
  induction hholds with
  | self id =>
      rw [h.flags id hv.has]
      exact hv.held id (.self id)
  | item hitem _ ih => exact ih (h.inside _ hv _ hitem)
  | entry he _ ih => exact ih (h.entries _ _ he).2

theorem since (h : Harmless free inv s s') : Since free inv s s' :=
  ⟨h.lists, fun _ hv => h.has hv, fun _ hv => h.loose hv, h.same, h.keeps⟩

theorem apart (h : Harmless free inv s s') : s'.Apart free :=
  ⟨fun id v hv => h.has (h.items id v hv),
    fun id hid v hv => h.loose (h.finished id hid v hv),
    fun id e he => ⟨h.has (h.entries id e he).1, h.loose (h.entries id e he).2⟩,
    fun id p hp => h.has (h.bodies id p hp),
    fun c b hb => h.loose (h.bound c b hb)⟩

end Harmless

theorem Sealed.later {s s' : Store} (h : s.Sealed free) (hlists : s.lists.size ≤ s'.lists.size)
    (hapart : s'.Apart free) : s'.Sealed free :=
  ⟨hapart, fun id hid new hnew => h.fresh id hid new (Nat.le_trans hlists hnew)⟩

theorem Sealed.harmless {s s' : Store} (h : s.Sealed free) (hchange : Harmless free inv s s') :
    s'.Sealed free :=
  h.later hchange.lists hchange.apart

/-! ## The operations of a store -/

section

variable {s s' : Store}

namespace Apart

/-- Lists, dicts and functions stay, and loose values are bound. -/
theorem harmless_contexts (h : s.Apart free) (hlists : s'.lists = s.lists)
    (hdicts : s'.dicts = s.dicts) (hfunctions : s'.functions = s.functions)
    (hbound : ∀ c, ∀ b ∈ (s'.context c).table, s.Loose free b.2) : Harmless free inv s s' := by
  have hlist : ∀ id, s'.list id = s.list id := fun id => by rw [list, list, hlists]
  have hdict : ∀ id, s'.dict id = s.dict id := fun id => by rw [dict, dict, hdicts]
  constructor
  case lists => exact Nat.le_of_eq (congrArg Array.size hlists).symm
  case dicts => exact Nat.le_of_eq (congrArg Array.size hdicts).symm
  case same => exact fun id _ _ => hlist id
  case flags => exact fun id _ => congrArg ListCell.evaluated (hlist id)
  case items => exact fun id v hv => h.items id v (hlist id ▸ hv)
  case finished => exact fun id hid v hv => h.finished id (hlist id ▸ hid) v (hlist id ▸ hv)
  case inside => exact fun id hid v hv => h.loose_item hid (hlist id ▸ hv)
  case entries => exact fun id e he => h.entries id e (hdict id ▸ he)
  case bodies => exact fun id p hp => h.bodies id p (patterns_congr hfunctions id ▸ hp)
  case bound => exact hbound
  case keeps => exact inv.same hlists hdicts

/-- Lists, dicts and bindings stay, and functions get bodies that are there. -/
theorem harmless_functions (h : s.Apart free) (hlists : s'.lists = s.lists)
    (hdicts : s'.dicts = s.dicts) (hcontexts : s'.contexts = s.contexts)
    (hbodies : ∀ id, ∀ p ∈ s'.patterns id, s.Has p.body) : Harmless free inv s s' := by
  have hsame : Harmless free inv s { s with lists := s'.lists, dicts := s'.dicts } :=
    h.harmless_contexts hlists hdicts rfl h.bound
  exact ⟨hsame.lists, hsame.dicts, hsame.same, hsame.flags, hsame.items, hsame.finished,
    hsame.inside, hsame.entries, hbodies, fun c b hb => h.bound c b (context_congr hcontexts c ▸ hb),
    inv.same hlists hdicts⟩

/-- A change of nothing that values are made of or bound in. -/
theorem harmless_same (h : s.Apart free) (hlists : s'.lists = s.lists)
    (hdicts : s'.dicts = s.dicts) (hfunctions : s'.functions = s.functions)
    (hcontexts : s'.contexts = s.contexts) : Harmless free inv s s' :=
  h.harmless_contexts hlists hdicts hfunctions
    fun c b hb => h.bound c b (context_congr hcontexts c ▸ hb)

/-! ### Contexts -/

theorem harmless_updateContext (h : s.Apart free) (c : ContextId) {f : ContextCell → ContextCell}
    (hf : ∀ cell : ContextCell, (∀ b ∈ cell.table, s.Loose free b.2) →
      ∀ b ∈ (f cell).table, s.Loose free b.2) : Harmless free inv s (s.updateContext c f) :=
  h.harmless_contexts rfl rfl rfl fun d =>
    context_updateContext_of (P := fun cell => ∀ b ∈ cell.table, s.Loose free b.2) hf (h.bound d) c

theorem harmless_newContext (h : s.Apart free) (name : String) (parent : Option ContextId) :
    Harmless free inv s (s.newContext name parent).2 :=
  h.harmless_contexts rfl rfl rfl fun d b hb =>
    h.bound d b (context_newContext_part ContextCell.table (fun _ => rfl) s name parent d ▸ hb)

theorem harmless_defineAll (h : s.Apart free) (c : ContextId) {entries : List (String × Value)}
    (hentries : ∀ b ∈ entries, s.Loose free b.2) : Harmless free inv s (s.defineAll c entries) :=
  h.harmless_updateContext c fun _ hcell => Table.forall_setAll hcell hentries

theorem harmless_define (h : s.Apart free) (c : ContextId) (name : String) {v : Value}
    (hv : s.Loose free v) : Harmless free inv s (s.define c name v) :=
  h.harmless_updateContext c fun _ hcell => Table.forall_set hcell name hv

theorem harmless_replaceTable (h : s.Apart free) (c : ContextId) {table : Table Value}
    (htable : ∀ b ∈ table, s.Loose free b.2) : Harmless free inv s (s.replaceTable c table) :=
  h.harmless_updateContext c fun _ _ => htable

theorem harmless_reimport (h : s.Apart free) (importer source : ContextId) (qualifier : String) :
    Harmless free inv s (s.reimport importer source qualifier) := by
  refine h.harmless_updateContext importer fun cell hcell => ?_
  refine ContextCell.forall_takeOver hcell (fun b hb => ?_) source qualifier
  obtain ⟨entry, hentry, rfl⟩ := List.mem_map.mp hb
  exact h.bound source entry hentry

theorem harmless_importFrom (h : s.Apart free) (importer source : ContextId) (qualifier : String) :
    Harmless free inv s (s.importFrom importer source qualifier) := by
  -- apart from usages and the history of imports, an import is taking over
  have hreimport : Harmless free inv s _ := h.harmless_reimport importer source qualifier
  refine h.harmless_contexts rfl rfl rfl fun c b hb => hreimport.bound c b ?_
  rwa [context_importFrom_part ContextCell.table fun _ _ => rfl] at hb

/-- Importing a context again into everyone who imports it is one harmless change after another. -/
theorem apart_propagate (h : s.Apart free) (source : ContextId) :
    (s.propagate source).Apart free ∧ Since free inv s (s.propagate source) := by
  refine List.foldlRecOn (motive := fun s' : Store => s'.Apart free ∧ Since free inv s s') _ _
    ⟨h, .refl s⟩ fun between hbetween usage _ => ?_
  refine List.foldlRecOn (motive := fun s' : Store => s'.Apart free ∧ Since free inv s s') _ _
    hbetween fun s' hs' qualifier _ => ?_
  have hchange : Harmless free inv s' _ :=
    hs'.1.harmless_reimport usage.importer source qualifier
  exact ⟨hchange.apart, hs'.2.trans hchange.since⟩

/-! ### Functions -/

theorem harmless_newFunction (h : s.Apart free) (label : String) {patterns : List Pattern}
    (hbodies : ∀ p ∈ patterns, s.Has p.body) :
    Harmless free inv s (s.newFunction label patterns).2 := by
  refine h.harmless_functions rfl rfl rfl fun id p hp => ?_
  by_cases hid : id.index = s.functions.size
  · rw [patterns_newFunction_self hid] at hp
    exact hbodies p hp
  · rw [patterns_newFunction_ne hid] at hp
    exact h.bodies id p hp

theorem harmless_extend (h : s.Apart free) (id : FunctionId) {p : Pattern} (hp : s.Has p.body) :
    Harmless free inv s (s.extend id p) := by
  refine h.harmless_functions rfl rfl rfl fun other q hq => ?_
  by_cases hother : other.index = id.index
  · by_cases hthere : other.index < s.functions.size
    · rw [patterns_extend_self hother hthere] at hq
      rcases mem_addPattern hq with rfl | hq
      · exact hp
      · exact h.bodies other q hq
    · have hafter : (s.extend id p).functions.size ≤ other.index := by
        rw [extend, Array.size_modify]
        exact Nat.not_lt.mp hthere
      rw [patterns_of_size_le hafter] at hq
      cases hq
  · rw [patterns_extend_ne hother] at hq
    exact h.bodies other q hq

end Apart

/-! ### Lists and dicts -/

theorem list_newList_ne {id : ListId} (h : id.index ≠ s.lists.size) (items : List Value)
    (evaluated : Bool) : (s.newList items evaluated).2.list id = s.list id := by
  simp [newList, list, Array.getElem?_push, h]

theorem list_newList_self {id : ListId} (h : id.index = s.lists.size) (items : List Value)
    (evaluated : Bool) : (s.newList items evaluated).2.list id = ⟨items, evaluated⟩ := by
  simp [newList, list, h]

theorem list_setItems_ne {id other : ListId} (h : other ≠ id) (items : List Value) :
    (s.setItems id items).list other = s.list other := by
  have hne : id.index ≠ other.index := fun heq => h (by cases id; cases other; cases heq; rfl)
  simp [setItems, list, Array.getElem?_modify, hne]

theorem list_setItems_self {id : ListId} (h : id.index < s.lists.size) (items : List Value) :
    (s.setItems id items).list id = ⟨items, (s.list id).evaluated⟩ := by
  have hcell : s.lists[id.index]? = some s.lists[id.index] := Array.getElem?_eq_getElem h
  simp only [setItems, list, Array.getElem?_modify, if_true, hcell]
  rfl

theorem dict_putEntry_ne {id other : DictId} (h : other ≠ id) (key : Atom) (v : Value) :
    (s.putEntry id key v).dict other = s.dict other := by
  have hne : id.index ≠ other.index := fun heq => h (by cases id; cases other; cases heq; rfl)
  simp [putEntry, dict, Array.getElem?_modify, hne]

theorem dict_putEntry_self {id : DictId} (h : id.index < s.dicts.size) (key : Atom) (v : Value) :
    (s.putEntry id key v).dict id = ⟨(s.dict id).entries.put Atom.alike key v⟩ := by
  simp [putEntry, dict, Array.getElem?_modify, Array.getElem?_eq_getElem h]

/-- An entry after one has been put in was there, or it is in the dict that has been changed. -/
theorem mem_putEntry {id other : DictId} {key : Atom} {v : Value} {e : Atom × Value}
    (he : e ∈ ((s.putEntry id key v).dict other).entries) :
    e ∈ (s.dict other).entries ∨ other = id ∧ e ∈ (s.dict id).entries.put Atom.alike key v := by
  by_cases hother : other = id
  · subst hother
    by_cases hthere : other.index < s.dicts.size
    · rw [dict_putEntry_self hthere] at he
      exact .inr ⟨rfl, he⟩
    · simp [putEntry, dict, hthere] at he
  · rw [dict_putEntry_ne hother] at he
    exact .inl he

namespace Apart

/-- A new list of code is not among the values, so it may be made of anything. -/
theorem harmless_newList (h : s.Apart free) {items : List Value} (hitems : ∀ v ∈ items, s.Has v)
    {evaluated : Bool} (hloose : evaluated = true → ∀ v ∈ items, s.Loose free v) :
    Harmless free inv s (s.newList items evaluated).2 := by
  -- only the place behind all lists changes, and no list is there yet
  have hsize : (s.newList items evaluated).2.lists.size = s.lists.size + 1 := by simp [newList]
  constructor
  case lists => omega
  case dicts => exact Nat.le_refl _
  case same =>
    intro id hcode _
    exact list_newList_ne (Nat.ne_of_lt (index_lt_of_code hcode)) items evaluated
  case flags =>
    intro id hid
    rw [list_newList_ne (Nat.ne_of_lt hid)]
  case items =>
    intro id v hv
    by_cases hid : id.index = s.lists.size
    · rw [list_newList_self hid] at hv
      exact hitems v hv
    · rw [list_newList_ne hid] at hv
      exact h.items id v hv
  case finished =>
    intro id hfinished v hv
    by_cases hid : id.index = s.lists.size
    · rw [list_newList_self hid] at hfinished hv
      exact hloose hfinished v hv
    · rw [list_newList_ne hid] at hfinished hv
      exact h.finished id hfinished v hv
  case inside =>
    intro id hid v hv
    rw [list_newList_ne (Nat.ne_of_lt hid.has)] at hv
    exact h.loose_item hid hv
  case entries => exact h.entries
  case bodies => exact h.bodies
  case bound => exact h.bound
  case keeps => exact inv.newList evaluated (h.mono fun _ _ => trivial) hitems

/-- A new list of loose values is loose if it is finished, or free. -/
theorem loose_newList (h : s.Apart free) {items : List Value} (hitems : ∀ v ∈ items, s.Loose free v)
    {evaluated : Bool} (hself : evaluated = true ∨ free (s.newList items evaluated).1) :
    (s.newList items evaluated).2.Loose free (.list (s.newList items evaluated).1) := by
  have hchange : Harmless free .nothing s (s.newList items evaluated).2 :=
    h.harmless_newList (fun v hv => (hitems v hv).has) fun _ => hitems
  refine loose_list (by simp [newList]) ?_ ?_
  · rwa [list_newList]
  · rw [list_newList]
    exact fun v hv => hchange.loose (hitems v hv)

theorem harmless_setItems (h : s.Apart free) {id : ListId} (hid : s.Loose free (.list id))
    {items : List Value} (hitems : ∀ v ∈ items, s.Loose free v)
    (hkeeps : inv.At s → inv.At (s.setItems id items)) :
    Harmless free inv s (s.setItems id items) := by
  have hcell := list_setItems_self (s := s) hid.has items
  -- the list that is changed is loose, all others are as they were
  have hkept : ∀ other, (s.setItems id items).list other = s.list other ∨ other = id := by
    intro other
    by_cases hother : other = id
    · exact .inr hother
    · exact .inl (list_setItems_ne hother items)
  have hchanged : ∀ other, s.Loose free (.list other) →
      ∀ v ∈ ((s.setItems id items).list other).items, s.Loose free v := by
    intro other hother v hv
    rcases hkept other with hsame | rfl
    · exact h.loose_item hother (hsame ▸ hv)
    · rw [hcell] at hv
      exact hitems v hv
  constructor
  case lists => exact Nat.le_of_eq Array.size_modify.symm
  case dicts => exact Nat.le_refl _
  case same =>
    intro other hcode hfree
    rcases hkept other with hsame | rfl
    · exact hsame
    · rcases hid.held _ (.self _) with hfinished | hfree'
      · rw [hcode] at hfinished
        cases hfinished
      · exact absurd hfree' hfree
  case flags =>
    intro other _
    rcases hkept other with hsame | rfl
    · rw [hsame]
    · rw [hcell]
  case items =>
    intro other v hv
    rcases hkept other with hsame | rfl
    · exact h.items other v (hsame ▸ hv)
    · exact (hchanged _ hid v hv).has
  case finished =>
    intro other hfinished v hv
    rcases hkept other with hsame | rfl
    · exact h.finished other (hsame ▸ hfinished) v (hsame ▸ hv)
    · exact hchanged _ hid v hv
  case inside => exact hchanged
  case entries => exact h.entries
  case bodies => exact h.bodies
  case bound => exact h.bound
  case keeps => exact hkeeps

/-- Lists, functions and bindings stay, and dicts are made of loose values. -/
theorem harmless_dicts (h : s.Apart free) (hlists : s'.lists = s.lists)
    (hdicts : s.dicts.size ≤ s'.dicts.size) (hfunctions : s'.functions = s.functions)
    (hcontexts : s'.contexts = s.contexts)
    (hentries : ∀ id, ∀ e ∈ (s'.dict id).entries, s.Has (.atom e.1) ∧ s.Loose free e.2)
    (hkeeps : inv.At s → inv.At s') : Harmless free inv s s' := by
  have hsame : Harmless free inv s { s' with dicts := s.dicts } :=
    h.harmless_same hlists rfl hfunctions hcontexts
  exact ⟨hsame.lists, hdicts, hsame.same, hsame.flags, hsame.items, hsame.finished, hsame.inside,
    hentries, hsame.bodies, hsame.bound, hkeeps⟩

theorem harmless_newDict (h : s.Apart free) {entries : Association Atom Value}
    (hkeys : DistinctKeys entries.keys)
    (hentries : ∀ e ∈ entries, s.Has (.atom e.1) ∧ s.Loose free e.2) :
    Harmless free inv s (s.newDict entries).2 := by
  have hkeeps : inv.At s → inv.At (s.newDict entries).2 :=
    inv.newDict (h.mono fun _ _ => trivial) hkeys fun e he => (hentries e he).2.has
  refine h.harmless_dicts rfl (by simp [newDict]) rfl rfl (fun id e he => ?_) hkeeps
  by_cases hid : id.index = s.dicts.size
  · have hcell : (s.newDict entries).2.dict id = ⟨entries⟩ := by simp [newDict, dict, hid]
    rw [hcell] at he
    exact hentries e he
  · have hcell : (s.newDict entries).2.dict id = s.dict id := by
      simp [newDict, dict, Array.getElem?_push, hid]
    rw [hcell] at he
    exact h.entries id e he

/-- The entries after one has been put in. -/
theorem entries_put {entries : Association Atom Value}
    (h : ∀ e ∈ entries, s.Has (.atom e.1) ∧ s.Loose free e.2) {key : Atom} (hkey : s.Has (.atom key))
    {v : Value} (hv : s.Loose free v) :
    ∀ e ∈ entries.put Atom.alike key v, s.Has (.atom e.1) ∧ s.Loose free e.2 := by
  intro e he
  rcases Association.mem_put he with hold | ⟨hvalue, hname | ⟨w, hw⟩⟩
  · exact h e hold
  · rw [hvalue, hname]
    exact ⟨hkey, hv⟩
  · rw [hvalue]
    exact ⟨(h _ hw).1, hv⟩

theorem harmless_putEntry (h : s.Apart free) (id : DictId) {key : Atom} (hkey : s.Has (.atom key))
    {v : Value} (hv : s.Loose free v) (hkeeps : inv.At s → inv.At (s.putEntry id key v)) :
    Harmless free inv s (s.putEntry id key v) := by
  refine h.harmless_dicts rfl (Nat.le_of_eq Array.size_modify.symm) rfl rfl (fun other e he => ?_)
    hkeeps
  rcases mem_putEntry he with hold | ⟨_, hput⟩
  · exact h.entries other e hold
  · exact entries_put (h.entries id) hkey hv e hput

end Apart

end

/-! ## Code -/

mutual

/-- Code that is made from a form is there, and no value leads to it. -/
theorem since_ofForm {s : Store} (h : s.Apart free) : (t : Form) →
    (s.ofForm t).2.Apart free ∧ Since free inv s (s.ofForm t).2 ∧
      (s.ofForm t).2.Has (s.ofForm t).1
  | .int _ | .float _ | .string _ | .keyword _ | .symbol _ => ⟨h, .refl s, trivial⟩
  | .list items => by
      obtain ⟨hitems, hsince, hthere⟩ := since_ofForms h items
      have hchange : Harmless free inv (s.ofForms items).2 (s.ofForm (.list items)).2 :=
        hitems.harmless_newList hthere nofun
      exact ⟨hchange.apart, hsince.trans hchange.since, by simp [ofForm, newList, Has]⟩

theorem since_ofForms {s : Store} (h : s.Apart free) : (items : List Form) →
    (s.ofForms items).2.Apart free ∧ Since free inv s (s.ofForms items).2 ∧
      ∀ v ∈ (s.ofForms items).1, (s.ofForms items).2.Has v
  | [] => ⟨h, .refl s, fun _ hv => absurd hv List.not_mem_nil⟩
  | item :: items => by
      obtain ⟨hfirst, hsince, hv⟩ := since_ofForm h item
      obtain ⟨hrest, hlater, hvs⟩ := since_ofForms hfirst items
      exact ⟨hrest, hsince.trans hlater, List.forall_mem_cons.mpr ⟨hlater.has _ hv, hvs⟩⟩

end

theorem apart_ofForm {s : Store} (h : s.Apart free) (t : Form) :
    (s.ofForm t).2.Apart free ∧ Since free .nothing s (s.ofForm t).2 ∧
      (s.ofForm t).2.Has (s.ofForm t).1 :=
  since_ofForm h t

end Store

end DispatchLisp
