import DispatchLisp.Context.Import

/-!
# Proofs.Store.Contexts — what the operations of a store do to each context

One lemma for each operation says which contexts it leaves alone, and one what it does to the
others.
-/

namespace DispatchLisp

namespace Store

/-- Whether there is a context at a place. -/
def HasContext (s : Store) (id : ContextId) : Prop :=
  id.index < s.contexts.size

instance (s : Store) (id : ContextId) : Decidable (s.HasContext id) :=
  inferInstanceAs (Decidable (_ < _))

theorem context_congr {s s' : Store} (h : s'.contexts = s.contexts) (d : ContextId) :
    s'.context d = s.context d := by
  unfold context
  rw [h]

/-- A context is found by its place alone. -/
theorem context_of_index (s : Store) {d id : ContextId} (h : d.index = id.index) :
    s.context d = s.context id := by
  unfold context
  rw [h]

theorem context_of_not_hasContext {s : Store} {d : ContextId} (h : ¬ s.HasContext d) :
    s.context d = ⟨none, [], [], []⟩ := by
  rw [context, Array.getElem?_eq_none (Nat.not_lt.mp h)]
  rfl

/-! ## Changing one context -/

@[simp]
theorem size_updateContext (s : Store) (id : ContextId) (f : ContextCell → ContextCell) :
    (s.updateContext id f).contexts.size = s.contexts.size :=
  Array.size_modify

theorem context_updateContext_ne {s : Store} {id d : ContextId} (h : d.index ≠ id.index)
    (f : ContextCell → ContextCell) : (s.updateContext id f).context d = s.context d := by
  simp only [context, updateContext, Array.getElem?_modify, h.symm, if_false]

theorem context_updateContext_self {s : Store} {id d : ContextId} (h : d.index = id.index)
    (hd : s.HasContext d) (f : ContextCell → ContextCell) :
    (s.updateContext id f).context d = f (s.context d) := by
  have hcell : s.contexts[d.index]? = some s.contexts[d.index] := Array.getElem?_eq_getElem hd
  simp only [context, updateContext, Array.getElem?_modify, h, if_true]
  rw [← h, hcell]
  rfl

/-- A property of a context that a change keeps is kept wherever the change is made. -/
theorem context_updateContext_of {P : ContextCell → Prop} {f : ContextCell → ContextCell}
    (hf : ∀ cell, P cell → P (f cell)) {s : Store} {d : ContextId} (hd : P (s.context d))
    (id : ContextId) : P ((s.updateContext id f).context d) := by
  by_cases h : d.index = id.index
  · by_cases hthere : s.HasContext d
    · rw [context_updateContext_self h hthere]
      exact hf _ hd
    · -- a context that is not there looks the same before and after
      have hafter : ¬ (s.updateContext id f).HasContext d := by
        rwa [HasContext, size_updateContext]
      rwa [context_of_not_hasContext hafter, ← context_of_not_hasContext hthere]
  · rwa [context_updateContext_ne h]

/-- A part of every context that a change keeps is kept wherever the change is made. -/
theorem context_updateContext_part {α : Type} (part : ContextCell → α) {f : ContextCell → ContextCell}
    (hf : ∀ cell, part (f cell) = part cell) (s : Store) (id d : ContextId) :
    part ((s.updateContext id f).context d) = part (s.context d) := by
  let Same : ContextCell → Prop := fun cell => part cell = part (s.context d)
  have hkept : ∀ cell, Same cell → Same (f cell) := fun cell h => (hf cell).trans h
  exact context_updateContext_of hkept rfl id

/-! ## A new context -/

@[simp]
theorem size_newContext (s : Store) (name : String) (parent : Option ContextId) :
    (s.newContext name parent).2.contexts.size = s.contexts.size + 1 :=
  Array.size_push _

/-- A new context takes the place behind all others. -/
theorem hasContext_newContext_iff {s : Store} {d : ContextId} (name : String)
    (parent : Option ContextId) :
    (s.newContext name parent).2.HasContext d ↔ s.HasContext d ∨ d.index = s.contexts.size := by
  rw [HasContext, HasContext, size_newContext, Nat.lt_succ_iff_lt_or_eq]

theorem HasContext.newContext {s : Store} {d : ContextId} (hd : s.HasContext d) (name : String)
    (parent : Option ContextId) : (s.newContext name parent).2.HasContext d :=
  (hasContext_newContext_iff name parent).mpr (.inl hd)

theorem hasContext_newContext (s : Store) (name : String) (parent : Option ContextId) :
    (s.newContext name parent).2.HasContext (s.newContext name parent).1 :=
  (hasContext_newContext_iff name parent).mpr (.inr rfl)

/-- A new context has a parent and nothing else. -/
theorem context_newContext_new {s : Store} {d : ContextId} (hd : d.index = s.contexts.size)
    (name : String) (parent : Option ContextId) :
    (s.newContext name parent).2.context d = ⟨parent, [], [], []⟩ := by
  simp [context, Store.newContext, hd]

theorem context_newContext {s : Store} {d : ContextId} (hd : s.HasContext d) (name : String)
    (parent : Option ContextId) : (s.newContext name parent).2.context d = s.context d := by
  have hne : d.index ≠ s.contexts.size := Nat.ne_of_lt hd
  simp only [context, newContext, Array.getElem?_push, hne, if_false]

/-- A new context differs from one that is not there in its parent only. -/
theorem context_newContext_part {α : Type} (part : ContextCell → α)
    (hpart : ∀ parent, part ⟨parent, [], [], []⟩ = part ⟨none, [], [], []⟩) (s : Store)
    (name : String) (parent : Option ContextId) (d : ContextId) :
    part ((s.newContext name parent).2.context d) = part (s.context d) := by
  by_cases hd : s.HasContext d
  · rw [context_newContext hd]
  · rw [context_of_not_hasContext hd]
    -- before, the new place was read as an empty context without a parent
    by_cases hnew : d.index = s.contexts.size
    · rw [context_newContext_new hnew, hpart]
    · have hafter : ¬ (s.newContext name parent).2.HasContext d := by
        rw [hasContext_newContext_iff]
        exact not_or.mpr ⟨hd, hnew⟩
      rw [context_of_not_hasContext hafter]

/-! ## Binding and importing -/

@[simp]
theorem size_defineAll (s : Store) (id : ContextId) (entries : List (String × Value)) :
    (s.defineAll id entries).contexts.size = s.contexts.size :=
  size_updateContext _ _ _

@[simp]
theorem size_replaceTable (s : Store) (id : ContextId) (table : Table Value) :
    (s.replaceTable id table).contexts.size = s.contexts.size :=
  size_updateContext _ _ _

@[simp]
theorem size_reimport (s : Store) (importer source : ContextId) (qualifier : String) :
    (s.reimport importer source qualifier).contexts.size = s.contexts.size :=
  size_updateContext _ _ _

@[simp]
theorem size_importFrom (s : Store) (importer source : ContextId) (qualifier : String) :
    (s.importFrom importer source qualifier).contexts.size = s.contexts.size := by
  simp [importFrom]

namespace HasContext

variable {s : Store} {d : ContextId}

theorem define (h : s.HasContext d) (id : ContextId) (name : String) (v : Value) :
    (s.define id name v).HasContext d :=
  Nat.lt_of_lt_of_eq h (size_updateContext _ _ _).symm

theorem defineAll (h : s.HasContext d) (id : ContextId) (entries : List (String × Value)) :
    (s.defineAll id entries).HasContext d :=
  Nat.lt_of_lt_of_eq h (size_defineAll _ _ _).symm

theorem replaceTable (h : s.HasContext d) (id : ContextId) (table : Table Value) :
    (s.replaceTable id table).HasContext d :=
  Nat.lt_of_lt_of_eq h (size_replaceTable _ _ _).symm

theorem reimport (h : s.HasContext d) (importer source : ContextId) (qualifier : String) :
    (s.reimport importer source qualifier).HasContext d :=
  Nat.lt_of_lt_of_eq h (size_reimport _ _ _ _).symm

end HasContext

/-- A source that is imported gets a usage; apart from that only the importer changes. -/
theorem context_importFrom (s : Store) (importer source d : ContextId) (qualifier : String) :
    (s.importFrom importer source qualifier).context d =
      ((s.reimport importer source qualifier).updateContext source fun c =>
        { c with usages := recordUsage importer qualifier c.usages }).context d :=
  rfl

/-- Apart from usages an import leaves every context as taking over does. -/
theorem context_importFrom_part {α : Type} (part : ContextCell → α)
    (hpart : ∀ cell usages, part { cell with usages := usages } = part cell) (s : Store)
    (importer source d : ContextId) (qualifier : String) :
    part ((s.importFrom importer source qualifier).context d) =
      part ((s.reimport importer source qualifier).context d) := by
  rw [context_importFrom]
  exact context_updateContext_part part (fun cell => hpart cell _) _ source d

/-- An import changes no bindings but the importer's. -/
theorem table_importFrom_ne {s : Store} {importer source d : ContextId} (qualifier : String)
    (h : d.index ≠ importer.index) :
    ((s.importFrom importer source qualifier).context d).table = (s.context d).table := by
  rw [context_importFrom_part ContextCell.table fun _ _ => rfl, reimport,
    context_updateContext_ne h]

end Store

end DispatchLisp
