import DispatchLisp.Proofs.Association
import DispatchLisp.Proofs.Store.Contexts

/-!
# Proofs.Context.TakeOver — a context after it has taken over bindings

What is taken over shadows what the importer had. Of the rest, the names go that the record of
the same source and qualifier held before; all other names keep their values
(`get?_table_takeOver`).
-/

namespace DispatchLisp

/-! ## The record of an import -/

theorem importedNames_recordImport (record : ImportRecord) (records : List ImportRecord)
    (source : ContextId) (qualifier : String) :
    importedNames source qualifier (recordImport record records) =
      if record.source = source ∧ record.qualifier = qualifier then record.names
      else importedNames source qualifier records := by
  induction records with
  | nil => simp [recordImport, importedNames]
  | cons r rest ih =>
      rw [recordImport]
      split
      case isTrue hsame =>
        -- the record that is replaced was found under the same source and qualifier
        simp only [Bool.and_eq_true, decide_eq_true_eq, beq_iff_eq] at hsame
        simp only [importedNames, hsame.1, hsame.2, Bool.and_eq_true, decide_eq_true_eq, beq_iff_eq]
        split <;> rfl
      case isFalse hother =>
        simp only [Bool.and_eq_true, decide_eq_true_eq, beq_iff_eq] at hother
        simp only [importedNames, Bool.and_eq_true, decide_eq_true_eq, beq_iff_eq, ih]
        grind

theorem mem_recordImport {record r : ImportRecord} {records : List ImportRecord}
    (h : r ∈ recordImport record records) : r = record ∨ r ∈ records := by
  induction records with
  | nil => exact .inl (List.mem_singleton.mp h)
  | cons first rest ih =>
      rw [recordImport] at h
      split at h
      · exact (List.mem_cons.mp h).imp id (List.mem_cons_of_mem _)
      · rcases List.mem_cons.mp h with rfl | h
        · exact .inr List.mem_cons_self
        · exact (ih h).imp id (List.mem_cons_of_mem _)

/-! ## One context -/

namespace ContextCell

variable {cell : ContextCell} {fresh : Table Value}

/-- What is taken over shadows the rest, and of the rest the names of the earlier record go. -/
theorem get?_table_takeOver (hfresh : fresh.Unique) (source : ContextId)
    (qualifier name : String) :
    (cell.takeOver source qualifier fresh).table.get? name =
      (fresh.get? name).or
        (if name ∈ importedNames source qualifier cell.imports then none
          else cell.table.get? name) := by
  unfold takeOver
  rw [Table.get?_setAll hfresh, Table.get?_eraseAll]
  cases hget : fresh.get? name with
  | some v => rfl
  | none =>
      -- a name that does not come again is stale when the earlier record has it
      have hnew := Table.get?_eq_none_iff.mp hget
      simp [hnew]

theorem unique_takeOver (h : cell.table.Unique) (source : ContextId) (qualifier : String)
    (fresh : Table Value) : (cell.takeOver source qualifier fresh).table.Unique :=
  (h.eraseAll _).setAll fresh

/-- Every binding after taking over was there before or is taken over. -/
theorem forall_takeOver {P : Value → Prop} (h : ∀ entry ∈ cell.table, P entry.2)
    (hfresh : ∀ entry ∈ fresh, P entry.2) (source : ContextId) (qualifier : String) :
    ∀ entry ∈ (cell.takeOver source qualifier fresh).table, P entry.2 :=
  Table.forall_setAll (Table.forall_eraseAll h _) hfresh

end ContextCell

/-! ## The importer in a store -/

namespace Store

/-- Taking over changes the importer alone. -/
theorem context_reimport {s : Store} {importer : ContextId} (h : s.HasContext importer)
    (source : ContextId) (qualifier : String) (c : ContextId) :
    (s.reimport importer source qualifier).context c =
      if c.index = importer.index then
        (s.context c).takeOver source qualifier ((s.context source).table.qualified qualifier)
      else s.context c := by
  split
  case isTrue hc =>
    have hthere : s.HasContext c := by
      unfold HasContext at h ⊢
      rwa [hc]
    exact context_updateContext_self hc hthere _
  case isFalse hc => exact context_updateContext_ne hc _

end Store

end DispatchLisp
