import DispatchLisp.Proofs.Builtin.Slices

/-!
# Proofs.Builtin.Updates — changes in place

`set` and `put` change a collection in place. An update that succeeds changes one element
(`run_set_in_range`) or one entry (`run_put_binds`) of the collection that it is given, and no other
collection; one that fails changes nothing (`update_cases`). So a collection that a store does not have
is independent of all that the store has: however the one or the others are updated, the other side stays
as it is (`Updates.sameAt`).
-/

namespace DispatchLisp

/-! ## One element, one entry -/

/-- Entries before and after a key has been bound to a value: what the first entry with a key like it
binds is replaced, or an entry is added at the end if there is none. -/
def BindsKey (key : Atom) (v : Value) (entries bound : Association Atom Value) : Prop :=
  (∃ before first old after, entries = before ++ (first, old) :: after ∧
    bound = before ++ (first, v) :: after ∧
    first.alike key = true ∧ ∀ e ∈ before, e.1.alike key = false) ∨
  bound = entries ++ [(key, v)] ∧ ∀ e ∈ entries, e.1.alike key = false

theorem bindsKey_put (key : Atom) (v : Value) (entries : Association Atom Value) :
    BindsKey key v entries (entries.put Atom.alike key v) := by
  induction entries with
  | nil => exact .inr ⟨rfl, fun e he => by cases he⟩
  | cons entry rest ih =>
      obtain ⟨first, old⟩ := entry
      rw [Association.put]
      cases hfirst : first.alike key with
      | true => exact .inl ⟨[], first, old, rest, rfl, rfl, hfirst, fun e he => by cases he⟩
      | false =>
          rw [if_neg Bool.false_ne_true]
          rcases ih with ⟨before, found, other, after, hrest, hput, hlike, hbefore⟩ | ⟨hput, hnew⟩
          · refine .inl ⟨(first, old) :: before, found, other, after, ?_, ?_, hlike, ?_⟩
            · rw [hrest, List.cons_append]
            · rw [hput, List.cons_append]
            · exact List.forall_mem_cons.mpr ⟨hfirst, hbefore⟩
          · refine .inr ⟨?_, List.forall_mem_cons.mpr ⟨hfirst, hnew⟩⟩
            rw [hput, List.cons_append]

section

variable {m : Machine}

/-- Setting an element in range replaces this element and nothing else. -/
theorem run_set_in_range {l : ListId} {i : Int} (v : Value)
    (hi : -(m.store.list l).items.length ≤ i ∧ i < (m.store.list l).items.length) :
    ∃ n m', n < (m.store.list l).items.length ∧
      (n : Int) = (if i < 0 then i + (m.store.list l).items.length else i) ∧
      Builtin.set.run [.list l, .int i, v] m = (.ok (.list l), m') ∧
      m'.store.list l = ⟨(m.store.list l).items.set n v, (m.store.list l).evaluated⟩ ∧
      m.store.ChangesOnly (.list l) m'.store := by
  let n : Nat := clampPosition (m.store.list l).items.length i
  have hn : n < (m.store.list l).items.length := clampPosition_lt hi
  have hl : m.store.IsCollection (.list l) :=
    Store.isCollection_of_contains (.item (List.getElem_mem hn))
  refine ⟨n, { m with store := m.store.setItems l ((m.store.list l).items.set n v) }, hn, ?_, ?_,
    Store.list_setItems_self hl.1 _, m.store.changesOnly_setItems l _⟩
  · show (clampPosition (m.store.list l).items.length i : Int) = _
    unfold clampPosition
    split <;> omega
  · rw [run_set, Store.setItem, position?_eq_some hi]

/-- Putting a value under a key binds this key and nothing else. -/
theorem run_put_binds {d : DictId} (hd : m.store.Has (.dict d)) (key : Atom) (v : Value) :
    ∃ m', Builtin.put.run [.dict d, .atom key, v] m = (.ok (.dict d), m') ∧
      BindsKey key v (m.store.dict d).entries (m'.store.dict d).entries ∧
      m.store.ChangesOnly (.dict d) m'.store := by
  refine ⟨_, run_put_atom m d key v, ?_, m.store.changesOnly_putEntry d key v⟩
  rw [Store.dict_putEntry_self hd]
  exact bindsKey_put key v _

end

/-! ## Updates -/

/-- Whether a native changes a collection that it is called with. -/
def Builtin.updates : Builtin → Bool
  | .set | .put => true
  | _ => false

section

variable {m m' : Machine} {b : Builtin}

/-- An update fails and changes nothing, or it changes only the collection that it answers, which comes
first among its arguments. -/
theorem update_cases (hb : b.updates = true) (args : List Value) (m : Machine) :
    (∃ e, b.run args m = (.error (.fault e), m)) ∨
    ∃ v others store, args = v :: others ∧ b.run args m = (.ok v, { m with store }) ∧
      m.store.ChangesOnly v store := by
  unfold Builtin.updates at hb
  split at hb
  case h_1 =>
    rcases set_cases m args with hfailed | ⟨l, _, _, _, hargs, _, hrun⟩
    · exact .inl hfailed
    · exact .inr ⟨.list l, _, _, hargs, hrun, m.store.changesOnly_setItems l _⟩
  case h_2 =>
    rcases put_cases m args with hfailed | ⟨d, key, v, hargs, hrun⟩
    · exact .inl hfailed
    · exact .inr ⟨.dict d, _, _, hargs, hrun, m.store.changesOnly_putEntry d key v⟩
  case h_3 => cases hb

theorem eq_of_update_error (hb : b.updates = true) {args : List Value} {e : Raised}
    (h : b.run args m = (.error e, m')) : m' = m := by
  rcases update_cases hb args m with ⟨_, hrun⟩ | ⟨_, _, _, _, hrun, _⟩
  · rw [hrun] at h
    exact (congrArg Prod.snd h).symm
  · rw [hrun] at h
    cases h

/-- An update touches no value but the first argument. -/
theorem update_sameAt (hb : b.updates = true) {v w : Value} (hne : w ≠ v) (args : List Value) :
    m.store.SameAt (b.run (v :: args) m).2.store w := by
  rcases update_cases hb (v :: args) m with ⟨_, hrun⟩ | ⟨_, _, store, heq, hrun, honly⟩
  · rw [hrun]
    exact .refl m.store w
  · cases heq
    rw [hrun]
    exact honly.same w hne

/-- Any number of updates of some collections, one after another, each of which may fail. -/
inductive Updates (on : Value → Prop) : Machine → Machine → Prop where
  | refl (m : Machine) : Updates on m m
  | step {m m' : Machine} {b : Builtin} {v : Value} (args : List Value) : Updates on m m' →
      b.updates = true → on v → Updates on m (b.run (v :: args) m').2

/-- However some collections are updated, all others stay as they are. -/
theorem Updates.sameAt {on : Value → Prop} (h : Updates on m m') {w : Value} (hw : ¬ on w) :
    m.store.SameAt m'.store w := by
  induction h with
  | refl => exact .refl _ w
  | @step m' b v args _ hb hv ih =>
      have hne : w ≠ v := fun heq => hw (heq ▸ hv)
      exact ih.trans (update_sameAt hb hne args)

end

/-- Whether a collection and all that a store has are independent: the store does not have it, and
however programs update one of them at any time, the other stays as it is. -/
structure Store.Independent (s : Store) (v : Value) : Prop where
  new : ¬ s.Has v
  sources : ∀ m m' : Machine, Updates (· = v) m m' → ∀ w, s.Has w → m.store.SameAt m'.store w
  result : ∀ m m' : Machine, Updates s.Has m m' → m.store.SameAt m'.store v

theorem Store.independent_of_absent {s : Store} {v : Value} (h : ¬ s.Has v) : s.Independent v where
  new := h
  sources _ _ hupdates _ hw := hupdates.sameAt fun heq => h (heq ▸ hw)
  result _ _ hupdates := hupdates.sameAt h

end DispatchLisp
