import DispatchLisp.Store.View
import Mathlib.Data.List.Forall2

/-!
# Proofs.Store.Trees — values that stay the trees that they are

A collection is made after the values that it holds. As long as no collection is changed in place,
a value is therefore seen as one tree from then on, whatever is made later (`SeenAs`), and a new
list or dict of values that are seen as trees is seen as the list or dict of these trees.
-/

namespace DispatchLisp

theorem exists_right_of_forall₂ {α β : Type} {R : α → β → Prop} {as : List α} {bs : List β}
    (h : List.Forall₂ R as bs) {a : α} (ha : a ∈ as) : ∃ b ∈ bs, R a b := by
  induction h with
  | nil => cases ha
  | cons hfirst _ ih =>
      rcases List.mem_cons.mp ha with rfl | hrest
      · exact ⟨_, List.mem_cons_self, hfirst⟩
      · obtain ⟨b, hb, hab⟩ := ih hrest
        exact ⟨b, List.mem_cons_of_mem _ hb, hab⟩

theorem exists_left_of_forall₂ {α β : Type} {R : α → β → Prop} {as : List α} {bs : List β}
    (h : List.Forall₂ R as bs) {b : β} (hb : b ∈ bs) : ∃ a ∈ as, R a b :=
  exists_right_of_forall₂ h.flip hb

namespace Store

/-! ## Growing -/

/-- Whether a later store has every list and dict of a store as they are, and maybe more. -/
structure Grows (s later : Store) : Prop where
  lists : s.lists.toList <+: later.lists.toList
  dicts : s.dicts.toList <+: later.dicts.toList

theorem Grows.refl (s : Store) : Grows s s :=
  ⟨List.prefix_refl _, List.prefix_refl _⟩

theorem Grows.trans {s s' s'' : Store} (h : Grows s s') (h' : Grows s' s'') : Grows s s'' :=
  ⟨h.lists.trans h'.lists, h.dicts.trans h'.dicts⟩

section

variable {s later : Store}

theorem Grows.size_lists (h : Grows s later) : s.lists.size ≤ later.lists.size := by
  simpa using h.lists.length_le

theorem Grows.size_dicts (h : Grows s later) : s.dicts.size ≤ later.dicts.size := by
  simpa using h.dicts.length_le

theorem Grows.collections (h : Grows s later) : s.collections ≤ later.collections :=
  Nat.add_le_add h.size_lists h.size_dicts

theorem getElem?_of_prefix {α : Type} {xs ys : Array α} (h : xs.toList <+: ys.toList) {i : Nat}
    (hi : i < xs.size) : ys[i]? = xs[i]? := by
  obtain ⟨rest, hrest⟩ := h
  rw [← Array.getElem?_toList, ← Array.getElem?_toList, ← hrest]
  exact List.getElem?_append_left hi

theorem Grows.list_eq (h : Grows s later) {id : ListId} (hid : id.index < s.lists.size) :
    later.list id = s.list id := by
  rw [list, list, getElem?_of_prefix h.lists hid]

theorem Grows.dict_eq (h : Grows s later) {id : DictId} (hid : id.index < s.dicts.size) :
    later.dict id = s.dict id := by
  rw [dict, dict, getElem?_of_prefix h.dicts hid]

end

theorem grows_newList (s : Store) (items : List Value) (evaluated : Bool) :
    Grows s (s.newList items evaluated).2 := by
  constructor
  · simp [newList]
  · exact List.prefix_refl _

theorem grows_newDict (s : Store) (entries : Association Atom Value) :
    Grows s (s.newDict entries).2 := by
  constructor
  · exact List.prefix_refl _
  · simp [newDict]

theorem list_newList (s : Store) (items : List Value) (evaluated : Bool) :
    (s.newList items evaluated).2.list (s.newList items evaluated).1 = ⟨items, evaluated⟩ := by
  simp [newList, list]

theorem dict_newDict (s : Store) (entries : Association Atom Value) :
    (s.newDict entries).2.dict (s.newDict entries).1 = ⟨entries⟩ := by
  simp [newDict, dict]

/-- Where no list has been made a finished one is read, so a list of code has been made. -/
theorem index_lt_of_code {s : Store} {id : ListId} (h : (s.list id).evaluated = false) :
    id.index < s.lists.size := by
  by_contra hoff
  rw [list, Array.getElem?_eq_none (Nat.not_lt.mp hoff)] at h
  cases h

/-- Whether a value holds a list: it is the list, or an element or entry of it holds the list. -/
inductive Holds (s : Store) : Value → ListId → Prop where
  | self (id : ListId) : Holds s (.list id) id
  | item {id other : ListId} {v : Value} :
      v ∈ (s.list id).items → Holds s v other → Holds s (.list id) other
  | entry {id : DictId} {other : ListId} {e : Atom × Value} :
      e ∈ (s.dict id).entries → Holds s e.2 other → Holds s (.dict id) other

/-! ## Trees -/

/-- Whether all of some open collections have been made after a store. -/
structure OnlyLater (s : Store) (outer : List Value) : Prop where
  lists : ∀ id, Value.list id ∈ outer → s.lists.size ≤ id.index
  dicts : ∀ id, Value.dict id ∈ outer → s.dicts.size ≤ id.index

theorem onlyLater_nil (s : Store) : s.OnlyLater [] :=
  ⟨fun _ hid => absurd hid List.not_mem_nil, fun _ hid => absurd hid List.not_mem_nil⟩

theorem OnlyLater.earlier {s s' : Store} {outer : List Value} (h : s'.OnlyLater outer)
    (hgrow : Grows s s') : s.OnlyLater outer :=
  ⟨fun id hid => Nat.le_trans hgrow.size_lists (h.lists id hid),
    fun id hid => Nat.le_trans hgrow.size_dicts (h.dicts id hid)⟩

theorem OnlyLater.cons_list {s : Store} {outer : List Value} {id : ListId} (h : s.OnlyLater outer)
    (hid : s.lists.size ≤ id.index) : s.OnlyLater (.list id :: outer) := by
  constructor
  · intro other hother
    rcases List.mem_cons.mp hother with heq | hother
    · cases heq
      exact hid
    · exact h.lists other hother
  · intro other hother
    rcases List.mem_cons.mp hother with heq | hother
    · cases heq
    · exact h.dicts other hother

theorem OnlyLater.cons_dict {s : Store} {outer : List Value} {id : DictId} (h : s.OnlyLater outer)
    (hid : s.dicts.size ≤ id.index) : s.OnlyLater (.dict id :: outer) := by
  constructor
  · intro other hother
    rcases List.mem_cons.mp hother with heq | hother
    · cases heq
    · exact h.lists other hother
  · intro other hother
    rcases List.mem_cons.mp hother with heq | hother
    · cases heq
      exact hid
    · exact h.dicts other hother

/-- Whether a value is seen as a tree, now and later, by whoever has only later collections
open. -/
def SeenAs (s : Store) (v : Value) (d : Datum) : Prop :=
  ∀ later depth outer, Grows s later → s.collections ≤ depth → s.OnlyLater outer →
    later.viewWithin depth outer v = d

namespace SeenAs

theorem view_eq {s : Store} {v : Value} {d : Datum} (h : s.SeenAs v d) : s.view v = d :=
  h s _ [] (.refl s) (Nat.le_succ _) (onlyLater_nil s)

theorem later {s s' : Store} {v : Value} {d : Datum} (h : s.SeenAs v d) (hgrow : Grows s s') :
    s'.SeenAs v d := by
  intro later depth outer hlater hdepth houter
  have hcollections := hgrow.collections
  exact h later depth outer (hgrow.trans hlater) (by omega) (houter.earlier hgrow)

theorem map_viewWithin {s later : Store} {values : List Value} {data : List Datum} {depth : Nat}
    {outer : List Value} (h : List.Forall₂ s.SeenAs values data) (hgrow : Grows s later)
    (hdepth : s.collections ≤ depth) (houter : s.OnlyLater outer) :
    values.map (later.viewWithin depth outer) = data := by
  have hviews : List.Forall₂ (fun v d => later.viewWithin depth outer v = d) values data :=
    h.imp fun _ _ hv => hv later depth outer hgrow hdepth houter
  have hmap := List.forall₂_map_left_iff.mpr hviews
  rwa [List.forall₂_eq_eq_eq] at hmap

end SeenAs

theorem seenAs_atom (s : Store) (a : Atom) : s.SeenAs (.atom a) (.atom a) := by
  intro later depth outer _ _ _
  cases depth <;> rfl

/-- Nothing but an atom is seen as an atom. -/
theorem viewWithin_eq_atom {s : Store} {depth : Nat} {outer : List Value} {v : Value} {a : Atom}
    (h : s.viewWithin depth outer v = .atom a) : v = .atom a := by
  unfold viewWithin at h
  split at h
  case h_1 =>
    cases h
    rfl
  case h_2 => cases h
  all_goals
    split at h
    all_goals cases h

/-- Nothing but an unevaluated list is seen as one, and its elements are seen as the elements. -/
theorem viewWithin_eq_code {s : Store} {depth : Nat} {outer : List Value} {v : Value}
    {data : List Datum} (h : s.viewWithin depth outer v = .list false data) :
    ∃ id values further, v = .list id ∧ depth = further + 1 ∧ id.index < s.lists.size ∧
      outer.contains v = false ∧ s.list id = ⟨values, false⟩ ∧
      values.map (s.viewWithin further (v :: outer)) = data := by
  unfold viewWithin at h
  split at h
  case h_3 further id =>
    split at h
    case isTrue => cases h
    case isFalse hopen =>
      rw [Bool.not_eq_true] at hopen
      simp only [Datum.list.injEq] at h
      obtain ⟨hevaluated, hdata⟩ := h
      have hcell : s.list id = ⟨(s.list id).items, false⟩ := by
        rw [← hevaluated]
      exact ⟨id, _, further, rfl, rfl, index_lt_of_code hevaluated, hopen, hcell, hdata⟩
  case h_4 =>
    split at h
    all_goals cases h
  all_goals cases h

/-- A new list of values that are seen as trees is seen as the list of the trees. -/
theorem seenAs_newList {s : Store} {values : List Value} {data : List Datum}
    (h : List.Forall₂ s.SeenAs values data) (evaluated : Bool) :
    (s.newList values evaluated).2.SeenAs (.list (s.newList values evaluated).1)
      (.list evaluated data) := by
  intro later depth outer hlater hdepth houter
  have hgrow := grows_newList s values evaluated
  have hsize : (s.newList values evaluated).2.lists.size = s.lists.size + 1 := by
    simp [newList]
  have hcollections : (s.newList values evaluated).2.collections = s.collections + 1 := by
    rw [collections, hsize, collections]
    exact Nat.add_right_comm _ _ _
  have hindex : (s.newList values evaluated).1.index = s.lists.size := rfl
  have hcell : later.list (s.newList values evaluated).1 = ⟨values, evaluated⟩ := by
    rw [hlater.list_eq (by omega), list_newList]
  -- whoever looks has only later collections open, so this one is no cycle
  have hopen : outer.contains (.list (s.newList values evaluated).1) = false := by
    rw [Bool.eq_false_iff]
    intro hmem
    have := houter.lists _ (List.contains_iff_mem.mp hmem)
    omega
  rcases depth with _ | depth
  · omega
  · -- the items were seen as trees before the list was made, which alone is opened here
    have hinside : s.OnlyLater (.list (s.newList values evaluated).1 :: outer) :=
      (houter.earlier hgrow).cons_list (Nat.le_of_eq hindex.symm)
    have hbelow : s.collections ≤ depth := by omega
    have hitems := SeenAs.map_viewWithin h (hgrow.trans hlater) hbelow hinside
    rw [viewWithin, hopen, if_neg Bool.false_ne_true, hcell]
    simp only [hitems]

/-- A new dict of values that are seen as trees is seen as the dict of the trees. -/
theorem seenAs_newDict {s : Store} {entries : Association Atom Value} {data : List Datum}
    (h : List.Forall₂ s.SeenAs (entries.map (·.2)) data) :
    (s.newDict entries).2.SeenAs (.dict (s.newDict entries).1) (.dict (entries.map (·.1)) data) := by
  intro later depth outer hlater hdepth houter
  have hgrow := grows_newDict s entries
  have hsize : (s.newDict entries).2.dicts.size = s.dicts.size + 1 := by
    simp [newDict]
  have hcollections : (s.newDict entries).2.collections = s.collections + 1 := by
    rw [collections, hsize, collections]
    exact (Nat.add_assoc _ _ _).symm
  have hindex : (s.newDict entries).1.index = s.dicts.size := rfl
  have hcell : later.dict (s.newDict entries).1 = ⟨entries⟩ := by
    rw [hlater.dict_eq (by omega), dict_newDict]
  -- the dict is new, so none of the collections around it is the dict itself
  have hopen : outer.contains (.dict (s.newDict entries).1) = false := by
    rw [Bool.eq_false_iff]
    intro hmem
    have := houter.dicts _ (List.contains_iff_mem.mp hmem)
    omega
  rcases depth with _ | depth
  · omega
  · have hinside : s.OnlyLater (.dict (s.newDict entries).1 :: outer) :=
      (houter.earlier hgrow).cons_dict (Nat.le_of_eq hindex.symm)
    have hbelow : s.collections ≤ depth := by omega
    have hvalues := SeenAs.map_viewWithin h (hgrow.trans hlater) hbelow hinside
    rw [List.map_map] at hvalues
    rw [viewWithin, hopen, if_neg Bool.false_ne_true, hcell]
    simp only [← hvalues]
    rfl

end Store

end DispatchLisp
