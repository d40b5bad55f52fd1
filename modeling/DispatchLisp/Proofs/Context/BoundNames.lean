import DispatchLisp.Interpreter
import DispatchLisp.Proofs.Context.Links
import DispatchLisp.Proofs.Context.TakeOver
import Mathlib.Data.Finset.Max
import Mathlib.Data.Set.Basic

/-!
# Proofs.Context.BoundNames — the names that contexts bind

Which names a context binds after an operation depends on names alone: on those that contexts
bound before and on those that importers have on record, never on values. One equation for each
operation says so.
-/

namespace DispatchLisp

/-! ## The names of a table -/

namespace Table

variable {α : Type}

theorem contains_set (table : Table α) (name other : String) (v : α) :
    (table.set name v).contains other = true ↔ other = name ∨ table.contains other = true := by
  unfold contains
  rw [get?_set]
  split
  case isTrue h => simp [h]
  case isFalse h => simp [Ne.symm h]

theorem contains_setAll (table : Table α) (entries : Table α) (name : String) :
    (table.setAll entries).contains name = true ↔
      entries.contains name = true ∨ table.contains name = true := by
  induction entries generalizing table with
  | nil => exact (or_iff_right (by simp [contains, get?, Association.get?])).symm
  | cons entry rest ih =>
      rcases entry with ⟨k, v⟩
      have hfirst : (table.setAll ((k, v) :: rest)).contains name = true ↔ _ :=
        ih (table.set k v)
      have hcons : contains ((k, v) :: rest) name = true ↔ name = k ∨ contains rest name = true := by
        rw [← mem_keys, ← mem_keys, Association.keys, Association.keys, List.map_cons, List.mem_cons]
      rw [hfirst, contains_set, hcons, or_left_comm, or_assoc]

theorem contains_eraseAll (names : List String) (table : Table α) (name : String) :
    (names.foldl erase table).contains name = true ↔
      name ∉ names ∧ table.contains name = true := by
  unfold contains
  rw [get?_eraseAll]
  split
  case isTrue h => simp [h]
  case isFalse h => simp [h]

end Table

/-! ## Names behind a qualifier -/

/-- Some names with a qualifier in front of each. -/
def behind (qualifier : String) (names : Set String) : Set String :=
  {name | ∃ n ∈ names, name = qualifier ++ n}

theorem behind_mono {qualifier : String} {names names' : Set String} (h : names ⊆ names') :
    behind qualifier names ⊆ behind qualifier names' := by
  rintro name ⟨n, hn, rfl⟩
  exact ⟨n, h hn, rfl⟩

theorem mem_behind_append {qualifier name : String} {names : Set String} :
    qualifier ++ name ∈ behind qualifier names ↔ name ∈ names := by
  constructor
  · rintro ⟨n, hn, heq⟩
    rwa [(String.append_right_inj qualifier).mp heq]
  · exact fun h => ⟨name, h, rfl⟩

/-- The names behind a qualifier are those that begin with it. -/
theorem mem_behind_univ {qualifier name : String} :
    name ∈ behind qualifier Set.univ ↔ qualifier.toList <+: name.toList := by
  constructor
  · rintro ⟨n, _, rfl⟩
    rw [String.toList_append]
    exact List.prefix_append _ _
  · rintro ⟨more, hmore⟩
    refine ⟨String.ofList more, trivial, ?_⟩
    rw [← String.toList_inj, String.toList_append, String.toList_ofList, hmore]

/-- What is taken over is bound, and so is the rest except for the names on record. -/
theorem ContextCell.contains_takeOver (cell : ContextCell) (source : ContextId)
    (qualifier : String) (fresh : Table Value) (name : String) :
    (cell.takeOver source qualifier fresh).table.contains name = true ↔
      fresh.contains name = true ∨
        (cell.table.contains name = true ∧
          name ∉ importedNames source qualifier cell.imports) := by
  unfold takeOver
  rw [Table.contains_setAll, Table.contains_eraseAll]
  simp only [List.mem_filter, List.contains_iff_mem, Bool.not_eq_true', ← Bool.not_eq_true,
    Table.mem_keys]
  tauto

namespace Store

/-- The names that a context itself binds. -/
def names (s : Store) (c : ContextId) : Set String :=
  {name | (s.context c).table.contains name = true}

/-- The names that an importer has on record for an import. -/
def onRecord (s : Store) (importer source : ContextId) (qualifier : String) : Set String :=
  {name | name ∈ importedNames source qualifier (s.context importer).imports}

theorem HasContext.of_index {s : Store} {c d : ContextId} (h : s.HasContext c)
    (hd : d.index = c.index) : s.HasContext d := by
  unfold HasContext at h ⊢
  rwa [hd]

theorem names_of_index (s : Store) {c d : ContextId} (h : c.index = d.index) :
    s.names c = s.names d := by
  rw [names, context_of_index s h, names]

theorem onRecord_of_index (s : Store) {c d : ContextId} (h : c.index = d.index)
    (source : ContextId) (qualifier : String) :
    s.onRecord c source qualifier = s.onRecord d source qualifier := by
  rw [onRecord, context_of_index s h, onRecord]

theorem names_congr {s s' : Store} (h : s'.contexts = s.contexts) (c : ContextId) :
    s'.names c = s.names c := by
  rw [names, context_congr h, names]

section

variable {s : Store} {c : ContextId}

/-- A context binds finitely many names, so there is a longest one if there is one at all. -/
theorem exists_longest_name (h : (s.names c).Nonempty) :
    ∃ name ∈ s.names c, ∀ other ∈ s.names c, other.length ≤ name.length := by
  obtain ⟨some, hsome⟩ := h
  have hnonempty : (Association.keys (s.context c).table).toFinset.Nonempty :=
    ⟨some, List.mem_toFinset.mpr (Table.mem_keys.mpr hsome)⟩
  obtain ⟨name, hname, hmax⟩ := Finset.exists_max_image _ String.length hnonempty
  refine ⟨name, Table.mem_keys.mp (List.mem_toFinset.mp hname), fun other hother => ?_⟩
  exact hmax other (List.mem_toFinset.mpr (Table.mem_keys.mpr hother))

/-! ## Operations -/

theorem names_define (hc : s.HasContext c) (name : String) (v : Value) (d : ContextId) :
    (s.define c name v).names d =
      if d.index = c.index then insert name (s.names d) else s.names d := by
  split
  case isTrue hd =>
    have hthere : s.HasContext d := hc.of_index hd
    ext other
    show ((s.define c name v).context d).table.contains other = true ↔ _
    rw [define, context_updateContext_self hd hthere]
    exact Table.contains_set _ _ _ _
  case isFalse hd => rw [names, define, context_updateContext_ne hd, names]

theorem names_replaceTable_nil (hc : s.HasContext c) (d : ContextId) :
    (s.replaceTable c []).names d = if d.index = c.index then ∅ else s.names d := by
  split
  case isTrue hd =>
    have hthere : s.HasContext d := hc.of_index hd
    rw [names, replaceTable, context_updateContext_self hd hthere, Set.eq_empty_iff_forall_notMem]
    intro name hname
    cases hname
  case isFalse hd => rw [names, replaceTable, context_updateContext_ne hd, names]

/-- Taking over binds what the source binds, behind the qualifier, and drops what is on record. -/
theorem names_reimport (hc : s.HasContext c) (source : ContextId) (qualifier : String)
    (d : ContextId) :
    (s.reimport c source qualifier).names d =
      if d.index = c.index then
        behind qualifier (s.names source) ∪ (s.names d \ s.onRecord d source qualifier)
      else s.names d := by
  rw [names, context_reimport hc]
  split
  case isTrue hd =>
    ext name
    show (ContextCell.takeOver ..).table.contains name = true ↔ _
    rw [ContextCell.contains_takeOver, Table.contains_qualified]
    refine or_congr ?_ .rfl
    exact exists_congr fun _ => and_comm
  case isFalse => rfl

/-- Taking over puts what is taken over on record. -/
theorem onRecord_reimport (hc : s.HasContext c) (source : ContextId) (qualifier : String)
    (d source' : ContextId) (qualifier' : String) :
    (s.reimport c source qualifier).onRecord d source' qualifier' =
      if d.index = c.index ∧ source = source' ∧ qualifier = qualifier' then
        behind qualifier (s.names source)
      else s.onRecord d source' qualifier' := by
  rw [onRecord, context_reimport hc]
  by_cases hd : d.index = c.index
  · rw [if_pos hd]
    simp only [ContextCell.takeOver, importedNames_recordImport, hd, true_and]
    by_cases hsame : source = source' ∧ qualifier = qualifier'
    · rw [if_pos hsame]
      ext name
      simp only [if_pos hsame, Set.mem_ofPred_eq, Table.mem_keys, Table.contains_qualified]
      exact exists_congr fun _ => and_comm
    · rw [if_neg hsame]
      simp only [if_neg hsame, onRecord]
  · rw [if_neg hd, if_neg fun h => hd h.1, onRecord]

theorem names_importFrom (source : ContextId) (qualifier : String) (d : ContextId) :
    (s.importFrom c source qualifier).names d = (s.reimport c source qualifier).names d := by
  rw [names, context_importFrom_part ContextCell.table fun _ _ => rfl, names]

theorem onRecord_importFrom (source : ContextId) (qualifier : String) (d source' : ContextId)
    (qualifier' : String) :
    (s.importFrom c source qualifier).onRecord d source' qualifier' =
      (s.reimport c source qualifier).onRecord d source' qualifier' := by
  rw [onRecord, context_importFrom_part ContextCell.imports fun _ _ => rfl, onRecord]

end

end Store

end DispatchLisp
