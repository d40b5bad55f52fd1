import DispatchLisp.Context.Lookup

/-!
# Proofs.Context.Lookup — where a name is bound, and to what

The nearest context that binds a name and the nearest binding of the name are searched for one by
one along the same chain, so the binding found is that of the context found (`lookup?_eq`).
-/

namespace DispatchLisp

theorem findSome?_eq_bind {α β : Type} (f : α → Option β) (items : List α) :
    items.findSome? f = (items.find? fun a => (f a).isSome).bind f := by
  induction items with
  | nil => rfl
  | cons a rest ih =>
      rw [List.findSome?_cons, List.find?_cons]
      cases h : f a with
      | none => exact ih
      | some b => exact h.symm

namespace Store

/-- The nearest binding of a name is the one in the nearest context that binds it. -/
theorem lookup?_eq (s : Store) (c : ContextId) (name : String) :
    s.lookup? c name = (s.find? c name).bind fun d => s.own? d name :=
  findSome?_eq_bind _ _

/-- The nearest context is the one that the search starts from exactly when that binds the name
itself. -/
theorem find?_eq_self_iff {s : Store} {c : ContextId} {name : String} :
    s.find? c name = some c ↔ ∃ v, s.own? c name = some v := by
  rw [← Option.isSome_iff_exists]
  constructor
  · intro h
    exact List.find?_some (p := fun d => (s.own? d name).isSome) h
  · intro h
    have hchain : ∃ rest, s.chain c = c :: rest := by
      unfold chain
      cases c.index with
      | zero => exact ⟨[], rfl⟩
      | succ further => exact ⟨_, rfl⟩
    obtain ⟨rest, hrest⟩ := hchain
    rw [find?, hrest, List.find?_cons, h]

theorem chainWithin_congr {s s' : Store} (h : s'.contexts = s.contexts) (further : Nat)
    (c : ContextId) : s'.chainWithin further c = s.chainWithin further c := by
  induction further generalizing c with
  | zero => rfl
  | succ further ih =>
      have hcell : s'.context c = s.context c := by
        unfold context
        rw [h]
      unfold chainWithin
      rw [hcell]
      cases (s.context c).parent with
      | none => rfl
      | some outer => exact congrArg (c :: ·) (ih outer)

/-- What a name means depends on the contexts alone. -/
theorem lookup?_congr {s s' : Store} (h : s'.contexts = s.contexts) (c : ContextId)
    (name : String) : s'.lookup? c name = s.lookup? c name := by
  have hown : ∀ d, s'.own? d name = s.own? d name := fun d => by
    unfold own? context
    rw [h]
  unfold lookup? chain
  rw [chainWithin_congr h, funext hown]

/-- What a context itself binds is the nearest binding. -/
theorem lookup?_of_own {s : Store} {c : ContextId} {name : String} {v : Value}
    (h : s.own? c name = some v) : s.lookup? c name = some v := by
  rw [lookup?_eq, find?_eq_self_iff.mpr ⟨v, h⟩]
  exact h

end Store

end DispatchLisp
