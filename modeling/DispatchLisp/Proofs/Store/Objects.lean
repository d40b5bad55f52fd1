import DispatchLisp.Proofs.Store.Containment

/-!
# Proofs.Store.Objects — collections as objects of their own

Lists and dicts are shared, so what matters of a change is which objects it touches. A store *makes* a
collection when that has not been there and all that was there is as it was (`Makes`); it changes only
one collection when every other value is what it was (`ChangesOnly`). Allocation makes a collection and
an update changes only the one that it is given.
-/

namespace DispatchLisp.Store

variable {s s' s'' : Store} {v w : Value}

/-- Whether a value is in another store what it is in this one: a list has the same elements and is of
the same kind, a dict has the same entries. -/
def SameAt (s s' : Store) : Value → Prop
  | .atom _ => True
  | .list l => s'.list l = s.list l
  | .dict d => s'.dict d = s.dict d

theorem SameAt.refl (s : Store) (v : Value) : s.SameAt s v := by
  cases v <;> trivial

theorem SameAt.trans (h : s.SameAt s' v) (h' : s'.SameAt s'' v) : s.SameAt s'' v := by
  cases v with
  | atom a => trivial
  | list l => exact Eq.trans h' h
  | dict d => exact Eq.trans h' h

/-- Whether a store has one collection more than another: it has not been there, and all that was there
is as it was. -/
structure Makes (s : Store) (v : Value) (s' : Store) : Prop where
  absent : ¬ s.Has v
  made : s'.IsCollection v
  has : ∀ w, s.Has w → s'.Has w
  same : ∀ w, s.Has w → s.SameAt s' w

/-- Whether at most one collection differs between stores that have the same values. -/
structure ChangesOnly (s : Store) (v : Value) (s' : Store) : Prop where
  has : ∀ w, s'.Has w ↔ s.Has w
  same : ∀ w, w ≠ v → s.SameAt s' w

/-- A store that has grown has all that was there, as it was. -/
theorem Makes.of_grows (hgrows : s.Grows s') (habsent : ¬ s.Has v) (hmade : s'.IsCollection v) :
    s.Makes v s' := by
  refine ⟨habsent, hmade, fun w hw => hw.of_size hgrows.size_lists hgrows.size_dicts, fun w hw => ?_⟩
  cases w with
  | atom a => trivial
  | list l => exact hgrows.list_eq hw
  | dict d => exact hgrows.dict_eq hw

theorem makes_newList (s : Store) (items : List Value) (evaluated : Bool) :
    s.Makes (.list (s.newList items evaluated).1) (s.newList items evaluated).2 :=
  .of_grows (s.grows_newList items evaluated) (Nat.lt_irrefl _)
    ⟨by simp [Has, newList], fun _ heq => by cases heq⟩

theorem makes_newDict (s : Store) (entries : Association Atom Value) :
    s.Makes (.dict (s.newDict entries).1) (s.newDict entries).2 :=
  .of_grows (s.grows_newDict entries) (Nat.lt_irrefl _)
    ⟨by simp [Has, newDict], fun _ heq => by cases heq⟩

theorem has_iff_of_size (hlists : s'.lists.size = s.lists.size) (hdicts : s'.dicts.size = s.dicts.size)
    (w : Value) : s'.Has w ↔ s.Has w :=
  ⟨fun h => h.of_size (Nat.le_of_eq hlists) (Nat.le_of_eq hdicts),
    fun h => h.of_size (Nat.le_of_eq hlists.symm) (Nat.le_of_eq hdicts.symm)⟩

theorem changesOnly_setItems (s : Store) (l : ListId) (items : List Value) :
    s.ChangesOnly (.list l) (s.setItems l items) := by
  refine ⟨has_iff_of_size Array.size_modify rfl, fun w hw => ?_⟩
  cases w with
  | atom a => trivial
  | list other => exact list_setItems_ne (fun heq => hw (congrArg Value.list heq)) items
  | dict d => rfl

theorem changesOnly_putEntry (s : Store) (d : DictId) (key : Atom) (v : Value) :
    s.ChangesOnly (.dict d) (s.putEntry d key v) := by
  refine ⟨has_iff_of_size rfl Array.size_modify, fun w hw => ?_⟩
  cases w with
  | atom a => trivial
  | list l => rfl
  | dict other => exact dict_putEntry_ne (fun heq => hw (congrArg Value.dict heq)) key v

end DispatchLisp.Store
