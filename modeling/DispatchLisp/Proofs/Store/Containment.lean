import DispatchLisp.Proofs.Except
import DispatchLisp.Proofs.Store.Sealed
import DispatchLisp.Store.Equality
import Mathlib.Data.List.Perm.Subperm
import Mathlib.Logic.Relation

/-!
# Proofs.Store.Containment — collections that do not contain themselves

A list contains its elements and a dict its keys and values. Where no value is found again by going on
into what it contains, containment is acyclic. A new collection keeps it so, as nothing contains the
collection yet (`acyclicity`), and a change in place keeps it so exactly if the collection is not found
in the value that is put into it (`acyclic_setItem_iff`, `acyclic_setKey_iff`). On the way from a value
inwards the collections are then different ones, of which there are finitely many. So a value has a text
exactly if nothing that it leads to is found in itself (`render?_isSome_iff`), and then the comparisons
of the value end (`equal_ne_tooDeep`).
-/

namespace DispatchLisp

/-! ## Relations with more edges -/

/-- A way along more edges, which all leave one place, is a way along the old ones or leads through that
place. -/
theorem transGen_of_edges {α : Type} {R R' : α → α → Prop} {a : α} {New : α → Prop}
    (h : ∀ x y, R' x y → R x y ∨ x = a ∧ New y) {x y : α} (hway : Relation.TransGen R' x y) :
    Relation.TransGen R x y ∨
      Relation.ReflTransGen R x a ∧ ∃ b, New b ∧ Relation.ReflTransGen R b y := by
  induction hway with
  | single hstep =>
      rcases h _ _ hstep with hold | ⟨rfl, hnew⟩
      · exact .inl (.single hold)
      · exact .inr ⟨.refl, _, hnew, .refl⟩
  | tail _ hstep ih =>
      rcases h _ _ hstep with hold | ⟨rfl, hnew⟩
      · refine ih.imp (fun hway => hway.tail hold) fun ⟨hto, b, hb, hfrom⟩ => ?_
        exact ⟨hto, b, hb, hfrom.tail hold⟩
      · have hto := ih.elim Relation.TransGen.to_reflTransGen And.left
        exact .inr ⟨hto, _, hnew, .refl⟩

/-- A way to a place goes along edges that leave other places. -/
theorem reflTransGen_of_leaving_others {α : Type} {R R' : α → α → Prop} {a : α}
    (h : ∀ x y, x ≠ a → R x y → R' x y) {x : α} (hway : Relation.ReflTransGen R x a) :
    Relation.ReflTransGen R' x a := by
  induction hway using Relation.ReflTransGen.head_induction_on with
  | refl => exact .refl
  | @head x y hstep _ ih =>
      by_cases hx : x = a
      · rw [hx]
      · exact ih.head (h x y hx hstep)

namespace Store

/-! ## Containment -/

/-- Whether a collection contains a value: as an element of a list, or as a key or value of a dict. -/
inductive Contains (s : Store) : Value → Value → Prop where
  | item {id : ListId} {v : Value} : v ∈ (s.list id).items → Contains s (.list id) v
  | key {id : DictId} {e : Atom × Value} :
      e ∈ (s.dict id).entries → Contains s (.dict id) (.atom e.1)
  | value {id : DictId} {e : Atom × Value} : e ∈ (s.dict id).entries → Contains s (.dict id) e.2

/-- Whether a value is found by going from another one into what it contains, or is that one. -/
def Reaches (s : Store) : Value → Value → Prop :=
  Relation.ReflTransGen s.Contains

/-- Whether no value is found again by going from it into what it contains. -/
def Acyclic (s : Store) : Prop :=
  ∀ v, ¬ Relation.TransGen s.Contains v v

section

variable {s s' : Store} {free : ListId → Prop}

theorem not_contains_atom (a : Atom) (v : Value) : ¬ s.Contains (.atom a) v :=
  fun h => by cases h

/-- What a collection contains is there. -/
theorem Apart.has_contained (h : s.Apart free) {v w : Value} (hvw : s.Contains v w) : s.Has w := by
  cases hvw with
  | item hw => exact h.items _ _ hw
  | key he => exact (h.entries _ _ he).1
  | value he => exact (h.entries _ _ he).2.has

/-- What is not there is not found in what is. -/
theorem Apart.not_reaches (h : s.Apart free) {v new : Value} (hv : s.Has v) (hnew : ¬ s.Has new) :
    ¬ s.Reaches v new := by
  intro hway
  rcases hway.cases_tail with rfl | ⟨w, _, hlast⟩
  · exact hnew hv
  · exact hnew (h.has_contained hlast)

/-- An atom leads nowhere but to itself. -/
theorem not_reaches_of_atom {a : Atom} {v : Value} (hv : v ≠ .atom a) : ¬ s.Reaches (.atom a) v := by
  intro hway
  rcases hway.cases_head with rfl | ⟨w, hfirst, _⟩
  · exact hv rfl
  · exact not_contains_atom a w hfirst

/-- A collection may come to contain what does not lead to it. -/
theorem Acyclic.of_edges (h : s.Acyclic) (collection : Value) (New : Value → Prop)
    (hstep : ∀ v w, s'.Contains v w → s.Contains v w ∨ v = collection ∧ New w)
    (hnew : ∀ w, New w → ¬ s.Reaches w collection) : s'.Acyclic := by
  intro v hway
  rcases transGen_of_edges hstep hway with hold | ⟨hto, w, hw, hfrom⟩
  · exact h v hold
  · exact hnew w hw (hfrom.trans hto)

end

/-! ### New collections -/

section

variable {s : Store}

theorem contains_newList {items : List Value} {evaluated : Bool} {v w : Value}
    (h : (s.newList items evaluated).2.Contains v w) :
    s.Contains v w ∨ v = .list (s.newList items evaluated).1 ∧ w ∈ items := by
  cases h with
  | key he => exact .inl (.key he)
  | value he => exact .inl (.value he)
  | @item id _ hw =>
      by_cases hid : id.index = s.lists.size
      · rw [list_newList_self hid] at hw
        refine .inr ⟨?_, hw⟩
        obtain ⟨index⟩ := id
        cases hid
        rfl
      · rw [list_newList_ne hid] at hw
        exact .inl (.item hw)

theorem contains_newDict {entries : Association Atom Value} {v w : Value}
    (h : (s.newDict entries).2.Contains v w) :
    s.Contains v w ∨
      v = .dict (s.newDict entries).1 ∧ ∃ e ∈ entries, w = .atom e.1 ∨ w = e.2 := by
  -- the place behind all dicts is the only one that is filled
  have hcell : ∀ id : DictId, (s.newDict entries).2.dict id = s.dict id ∨
      id = (s.newDict entries).1 ∧ (s.newDict entries).2.dict id = ⟨entries⟩ := by
    intro id
    by_cases hid : id.index = s.dicts.size
    · obtain ⟨index⟩ := id
      cases hid
      exact .inr ⟨rfl, dict_newDict s entries⟩
    · exact .inl (by simp [newDict, dict, Array.getElem?_push, hid])
  cases h with
  | item hw => exact .inl (.item hw)
  | @key id e he =>
      rcases hcell id with hsame | ⟨rfl, hnew⟩
      · rw [hsame] at he
        exact .inl (.key he)
      · rw [hnew] at he
        exact .inr ⟨rfl, e, he, .inl rfl⟩
  | @value id e he =>
      rcases hcell id with hsame | ⟨rfl, hnew⟩
      · rw [hsame] at he
        exact .inl (.value he)
      · rw [hnew] at he
        exact .inr ⟨rfl, e, he, .inr rfl⟩

end

/-- That containment is acyclic goes on to hold when new collections are made. -/
def acyclicity : CollectionInvariant where
  At := Acyclic
  same {s s'} hlists hdicts h := by
    have hlist : ∀ id, s'.list id = s.list id := fun id => by rw [list, list, hlists]
    have hdict : ∀ id, s'.dict id = s.dict id := fun id => by rw [dict, dict, hdicts]
    refine h.of_edges .nothing (fun _ => False) (fun x y hxy => .inl ?_) fun _ hw => hw.elim
    cases hxy with
    | item hw => exact .item (hlist _ ▸ hw)
    | key he => exact .key (hdict _ ▸ he)
    | value he => exact .value (hdict _ ▸ he)
  newList {s items} evaluated hs hitems h := by
    refine h.of_edges _ _ (fun _ _ => contains_newList) fun w hw => hs.not_reaches (hitems w hw) ?_
    exact Nat.lt_irrefl _
  newDict {s entries} hs _ hentries h := by
    refine h.of_edges _ _ (fun _ _ => contains_newDict) fun w ⟨e, he, hw⟩ => ?_
    rcases hw with rfl | rfl
    · exact not_reaches_of_atom nofun
    · exact hs.not_reaches (hentries e he) (Nat.lt_irrefl _)

/-! ### Changes in place -/

section

variable {s s' : Store}

/-- What `set` does to a list that is there. -/
theorem setItem_eq {id : ListId} {index : Int} {v : Value} (h : s.setItem id index v = .ok s') :
    ∃ n, n < (s.list id).items.length ∧ s' = s.setItems id ((s.list id).items.set n v) := by
  unfold setItem at h
  dsimp only at h
  split at h
  case h_1 n hn =>
    cases h
    refine ⟨n, ?_, rfl⟩
    simp only [position?, Option.ite_none_right_eq_some, Option.some.injEq] at hn
    omega
  case h_2 => cases h

/-- A list with an element has been made. -/
theorem index_lt_of_item {id : ListId} {n : Nat} (h : n < (s.list id).items.length) :
    id.index < s.lists.size := by
  by_contra hoff
  rw [list, Array.getElem?_eq_none (Nat.not_lt.mp hoff)] at h
  cases h

/-- A dict with an entry has been made. -/
theorem index_lt_of_entry {id : DictId} {e : Atom × Value} (h : e ∈ (s.dict id).entries) :
    id.index < s.dicts.size := by
  by_contra hoff
  rw [dict, Array.getElem?_eq_none (Nat.not_lt.mp hoff)] at h
  cases h

/-- A change of a list keeps containment acyclic exactly if the list is not found in the new
element. -/
theorem acyclic_setItem_iff {id : ListId} {index : Int} {v : Value}
    (h : s.setItem id index v = .ok s') (hs : s.Acyclic) :
    s'.Acyclic ↔ ¬ s.Reaches v (.list id) := by
  obtain ⟨n, hn, rfl⟩ := setItem_eq h
  have hcell := list_setItems_self (index_lt_of_item hn) ((s.list id).items.set n v)
  constructor
  · intro hacyclic hway
    -- the way to the list may as well end where it first gets there, and so it is still there
    have hback : (s.setItems id ((s.list id).items.set n v)).Reaches v (.list id) := by
      refine reflTransGen_of_leaving_others (fun x y hx hxy => ?_) hway
      cases hxy with
      | key he => exact .key he
      | value he => exact .value he
      | @item other _ hw =>
          have hother : other ≠ id := fun heq => hx (congrArg Value.list heq)
          refine .item ?_
          rwa [list_setItems_ne hother]
    refine hacyclic (.list id) (.head' (.item ?_) hback)
    rw [hcell]
    exact List.mem_set hn v
  · intro hway
    refine hs.of_edges (.list id) (· = v) (fun x y hxy => ?_) ?_
    · cases hxy with
      | key he => exact .inl (.key he)
      | value he => exact .inl (.value he)
      | @item other _ hw =>
          by_cases hother : other = id
          · subst hother
            rw [hcell] at hw
            rcases List.mem_or_eq_of_mem_set hw with hold | hnew
            · exact .inl (.item hold)
            · exact .inr ⟨rfl, hnew⟩
          · rw [list_setItems_ne hother] at hw
            exact .inl (.item hw)
    · rintro w rfl
      exact hway

/-- A dict has an entry with the value that has been put into it. -/
theorem exists_mem_put (entries : Association Atom Value) (key : Atom) (v : Value) :
    ∃ e ∈ entries.put Atom.alike key v, e.2 = v := by
  induction entries with
  | nil => exact ⟨(key, v), List.mem_singleton_self _, rfl⟩
  | cons entry rest ih =>
      obtain ⟨k, w⟩ := entry
      rw [Association.put]
      split
      · exact ⟨(k, v), List.mem_cons_self, rfl⟩
      · obtain ⟨e, he, hv⟩ := ih
        exact ⟨e, List.mem_cons_of_mem _ he, hv⟩

/-- After a change a dict contains the new value and the key, and what it contained. -/
theorem contains_putEntry {id : DictId} {key : Atom} {v x y : Value}
    (h : (s.putEntry id key v).Contains x y) :
    s.Contains x y ∨ x = .dict id ∧ (y = .atom key ∨ y = v) := by
  cases h with
  | item hw => exact .inl (.item hw)
  | @key other e he =>
      rcases mem_putEntry he with hold | ⟨rfl, hput⟩
      · exact .inl (.key hold)
      · rcases Association.mem_put hput with hold | ⟨_, hkey | ⟨w, hw⟩⟩
        · exact .inl (.key hold)
        · exact .inr ⟨rfl, .inl (congrArg Value.atom hkey)⟩
        · exact .inl (.key (e := (e.1, w)) hw)
  | @value other e he =>
      rcases mem_putEntry he with hold | ⟨rfl, hput⟩
      · exact .inl (.value hold)
      · rcases Association.mem_put hput with hold | ⟨hv, _⟩
        · exact .inl (.value hold)
        · exact .inr ⟨rfl, .inr hv⟩

theorem setKey_eq {id : DictId} {key v : Value} (h : s.setKey id key v = .ok s') :
    ∃ a, key = .atom a ∧ s' = s.putEntry id a v := by
  unfold setKey at h
  split at h
  case h_1 a =>
    cases h
    exact ⟨a, rfl, rfl⟩
  case h_2 =>
    obtain ⟨text, _, h⟩ := bind_eq_ok.mp h
    cases h

/-- A dict may be changed that is not found in the new value. -/
theorem Acyclic.setKey (hs : s.Acyclic) {id : DictId} {key v : Value}
    (h : s.setKey id key v = .ok s') (hv : ¬ s.Reaches v (.dict id)) : s'.Acyclic := by
  obtain ⟨a, rfl, rfl⟩ := setKey_eq h
  refine hs.of_edges _ _ (fun _ _ => contains_putEntry) fun w hw => ?_
  rcases hw with rfl | rfl
  · exact not_reaches_of_atom nofun
  · exact hv

/-- A change of a dict keeps containment acyclic exactly if the dict is not found in the new value. -/
theorem acyclic_setKey_iff {id : DictId} {key v : Value} (h : s.setKey id key v = .ok s')
    (hid : s.Has (.dict id)) (hs : s.Acyclic) : s'.Acyclic ↔ ¬ s.Reaches v (.dict id) := by
  refine ⟨fun hacyclic hway => ?_, hs.setKey h⟩
  obtain ⟨a, rfl, rfl⟩ := setKey_eq h
  have hback : (s.putEntry id a v).Reaches v (.dict id) := by
    refine reflTransGen_of_leaving_others (fun x y hx hxy => ?_) hway
    have hdict : ∀ other, Value.dict other ≠ .dict id →
        (s.putEntry id a v).dict other = s.dict other :=
      fun other hother => dict_putEntry_ne (fun heq => hother (congrArg Value.dict heq)) a v
    cases hxy with
    | item hw => exact .item hw
    | key he => exact .key (by rwa [hdict _ hx])
    | value he => exact .value (by rwa [hdict _ hx])
  obtain ⟨e, he, rfl⟩ := exists_mem_put (s.dict id).entries a v
  refine hacyclic (.dict id) (.head' (.value ?_) hback)
  rw [dict_putEntry_self hid]
  exact he

end

/-! ## Ways inwards -/

/-- Whether nothing is found again by going from it into what it contains, among all that is found by
going from a value inwards. -/
def AcyclicFrom (s : Store) (v : Value) : Prop :=
  ∀ w, s.Reaches v w → ¬ Relation.TransGen s.Contains w w

/-- Whether a value is a list or dict that has been made. -/
def IsCollection (s : Store) (v : Value) : Prop :=
  s.Has v ∧ ∀ a, v ≠ .atom a

/-- Whether some collections are different and all lead to a value. -/
structure LeadTo (s : Store) (outer : List Value) (v : Value) : Prop where
  different : outer.Nodup
  made : ∀ o ∈ outer, s.IsCollection o
  lead : ∀ o ∈ outer, Relation.TransGen s.Contains o v

section

variable {s : Store} {outer : List Value} {v w : Value}

theorem Acyclic.from (h : s.Acyclic) (v : Value) : s.AcyclicFrom v :=
  fun w _ => h w

theorem AcyclicFrom.self (h : s.AcyclicFrom v) : ¬ Relation.TransGen s.Contains v v :=
  h v .refl

theorem AcyclicFrom.contained (h : s.AcyclicFrom v) (hw : s.Contains v w) : s.AcyclicFrom w :=
  fun x hx => h x (.head hw hx)

/-- A value is found in none of its parts unless it is found in itself. -/
theorem acyclicFrom_of_contained (h : ∀ w, s.Contains v w → s.AcyclicFrom w) : s.AcyclicFrom v := by
  intro x hx
  rcases hx.cases_head with rfl | ⟨w, hw, hwx⟩
  · intro hback
    obtain ⟨w, hw, hwv⟩ := Relation.TransGen.head'_iff.mp hback
    exact h w hw v hwv hback
  · exact h w hw x hwx

/-- What contains something has been made. -/
theorem isCollection_of_contains (h : s.Contains v w) : s.IsCollection v := by
  have hlist : ∀ (id : ListId) (a : Atom), Value.list id ≠ .atom a := fun _ _ heq => by cases heq
  have hdict : ∀ (id : DictId) (a : Atom), Value.dict id ≠ .atom a := fun _ _ heq => by cases heq
  cases h with
  | item hw => exact ⟨index_lt_of_item (List.length_pos_of_mem hw), hlist _⟩
  | key he => exact ⟨index_lt_of_entry he, hdict _⟩
  | value he => exact ⟨index_lt_of_entry he, hdict _⟩

theorem leadTo_nil (v : Value) : s.LeadTo [] v :=
  ⟨List.nodup_nil, fun _ ho => absurd ho List.not_mem_nil, fun _ ho => absurd ho List.not_mem_nil⟩

/-- There are no more different collections than have been made. -/
theorem length_le_collections (hdifferent : outer.Nodup) (hmade : ∀ o ∈ outer, s.IsCollection o) :
    outer.length ≤ s.collections := by
  let all : List Value := (List.range s.lists.size).map (fun n => .list ⟨n⟩) ++
    (List.range s.dicts.size).map (fun n => .dict ⟨n⟩)
  have hall : outer ⊆ all := by
    intro o ho
    obtain ⟨hhas, hcollection⟩ := hmade o ho
    rcases o with a | ⟨n⟩ | ⟨n⟩
    · exact absurd rfl (hcollection a)
    · exact List.mem_append_left _ (List.mem_map_of_mem (List.mem_range.mpr hhas))
    · exact List.mem_append_right _ (List.mem_map_of_mem (List.mem_range.mpr hhas))
  have hlength := (hdifferent.subperm hall).length_le
  simpa [all, collections] using hlength

theorem LeadTo.length_le (h : s.LeadTo outer v) : outer.length ≤ s.collections :=
  length_le_collections h.different h.made

/-- A value that is not found in itself is none of those that lead to it. -/
theorem LeadTo.not_mem (h : s.LeadTo outer v) (hv : ¬ Relation.TransGen s.Contains v v) :
    v ∉ outer :=
  fun hmem => hv (h.lead v hmem)

/-- The way goes on into what a collection contains. -/
theorem LeadTo.inwards (h : s.LeadTo outer v) (hv : ¬ Relation.TransGen s.Contains v v)
    (hw : s.Contains v w) : s.LeadTo (v :: outer) w where
  different := List.nodup_cons.mpr ⟨h.not_mem hv, h.different⟩
  made := List.forall_mem_cons.mpr ⟨isCollection_of_contains hw, h.made⟩
  lead := List.forall_mem_cons.mpr ⟨.single hw, fun o ho => (h.lead o ho).tail hw⟩

end

/-! ## Texts -/

theorem renderAll?_isSome_iff {data : List Datum} :
    (Datum.renderAll? data).isSome = true ↔ ∀ d ∈ data, d.render?.isSome = true := by
  induction data with
  | nil => simp [Datum.renderAll?]
  | cons d rest ih =>
      rw [List.forall_mem_cons, ← ih, Datum.renderAll?]
      cases d.render? with
      | none => simp
      | some text => cases Datum.renderAll? rest <;> simp

theorem render?_list_isSome_iff {evaluated : Bool} {data : List Datum} :
    (Datum.list evaluated data).render?.isSome = true ↔ ∀ d ∈ data, d.render?.isSome = true := by
  rw [← renderAll?_isSome_iff, Datum.render?]
  cases Datum.renderAll? data with
  | none => simp
  | some texts => cases evaluated <;> simp

theorem render?_dict_isSome_iff {keys : List Atom} {data : List Datum} :
    (Datum.dict keys data).render?.isSome = true ↔ ∀ d ∈ data, d.render?.isSome = true := by
  rw [← renderAll?_isSome_iff, Datum.render?]
  cases Datum.renderAll? data <;> simp

section

variable {s : Store}

/-- What is seen of a value inside some collections has a text. -/
theorem render?_viewWithin {depth : Nat} {outer : List Value} {v : Value} (hv : s.AcyclicFrom v)
    (houter : s.LeadTo outer v) (hdepth : s.collections < depth + outer.length) :
    (s.viewWithin depth outer v).render?.isSome = true := by
  -- every level inwards adds a collection to the outer ones, of which there are only so many
  induction depth generalizing outer v with
  | zero =>
      have hlength := houter.length_le
      omega
  | succ depth ih =>
      have hfurther : ∀ w, s.Contains v w →
          (s.viewWithin depth (v :: outer) w).render?.isSome = true := by
        intro w hw
        refine ih (hv.contained hw) (houter.inwards hv.self hw) ?_
        rw [List.length_cons]
        omega
      have hclosed : outer.contains v = false :=
        Bool.eq_false_iff.mpr fun hmem => houter.not_mem hv.self (List.contains_iff_mem.mp hmem)
      rcases v with a | id | id
      · rfl
      · rw [viewWithin, hclosed, if_neg Bool.false_ne_true]
        exact render?_list_isSome_iff.mpr
          (List.forall_mem_map.mpr fun w hw => hfurther w (.item hw))
      · rw [viewWithin, hclosed, if_neg Bool.false_ne_true]
        exact render?_dict_isSome_iff.mpr
          (List.forall_mem_map.mpr fun e he => hfurther e.2 (.value he))

/-- A value of which something with a text is seen does not lead to anything that is found in
itself. -/
theorem acyclicFrom_of_viewWithin {depth : Nat} {outer : List Value} {v : Value}
    (h : (s.viewWithin depth outer v).render?.isSome = true) : s.AcyclicFrom v := by
  have hatom : ∀ a : Atom, s.AcyclicFrom (.atom a) := fun a =>
    acyclicFrom_of_contained fun w hw => absurd hw (not_contains_atom a w)
  induction depth generalizing outer v with
  | zero =>
      rcases v with a | id | id
      · exact hatom a
      · cases h
      · cases h
  | succ depth ih =>
      rcases v with a | id | id
      · exact hatom a
      · rw [viewWithin] at h
        split at h
        · cases h
        · refine acyclicFrom_of_contained fun w hw => ?_
          cases hw with
          | item hw =>
              -- a list has a text only if its elements have texts one level further in
              exact ih (List.forall_mem_map.mp (render?_list_isSome_iff.mp h) w hw)
      · rw [viewWithin] at h
        split at h
        · cases h
        · refine acyclicFrom_of_contained fun w hw => ?_
          cases hw with
          | @key _ e he => exact hatom e.1
          | @value _ e he =>
              exact ih (List.forall_mem_map.mp (render?_dict_isSome_iff.mp h) e he)

/-- A value has a text exactly if no value that it leads to is found in itself. -/
theorem render?_isSome_iff {v : Value} : (s.render? v).isSome = true ↔ s.AcyclicFrom v := by
  refine ⟨acyclicFrom_of_viewWithin, fun hv => ?_⟩
  exact render?_viewWithin hv (leadTo_nil v) (Nat.lt_succ_self _)

theorem render_cases (v : Value) :
    s.AcyclicFrom v ∧ (∃ text, s.render v = .ok text) ∨
      ¬ s.AcyclicFrom v ∧ s.render v = .error .tooDeep := by
  rw [← render?_isSome_iff, render]
  cases s.render? v <;> simp

/-- Several values have a text together exactly if each of them has one. -/
theorem renderItems_cases (evaluated : Bool) (items : List Value) :
    (∀ v ∈ items, s.AcyclicFrom v) ∧ (∃ text, s.renderItems evaluated items = .ok text) ∨
      ¬ (∀ v ∈ items, s.AcyclicFrom v) ∧ s.renderItems evaluated items = .error .tooDeep := by
  have hsome : (Datum.list evaluated (items.map s.view)).render?.isSome = true ↔
      ∀ v ∈ items, s.AcyclicFrom v := by
    rw [render?_list_isSome_iff, List.forall_mem_map]
    exact forall₂_congr fun v _ => render?_isSome_iff
  rw [← hsome, renderItems]
  cases (Datum.list evaluated (items.map s.view)).render? <;> simp

/-- A pattern has a text exactly if its body has one. -/
theorem renderPattern_cases (p : Pattern) :
    s.AcyclicFrom p.body ∧ (∃ text, s.renderPattern p = .ok text) ∨
      ¬ s.AcyclicFrom p.body ∧ s.renderPattern p = .error .tooDeep := by
  rcases s.render_cases p.body with ⟨hbody, text, htext⟩ | ⟨hbody, hfail⟩
  · exact .inl ⟨hbody, _, by rw [renderPattern, htext, ok_bind]⟩
  · exact .inr ⟨hbody, by rw [renderPattern, hfail, error_bind]⟩

/-- A value that leads to nothing that is found in itself has a text. -/
theorem render_of_acyclicFrom {v : Value} (hv : s.AcyclicFrom v) : ∃ text, s.render v = .ok text := by
  rcases s.render_cases v with ⟨_, htext⟩ | ⟨hcyclic, _⟩
  · exact htext
  · exact absurd hv hcyclic

end

/-- A list that is put into itself has no text any more. -/
example : let (id, s) := Store.empty.newList [.int 1] true
    (s.setItem id 0 (.list id)).map (fun s' => s'.render? (.list id)) = .ok none := by
  rfl

/-! ## Comparisons -/

theorem equalItems_ne {equal : Value → Value → Except Fault Bool} {f : Fault} {as bs : List Value}
    (h : ∀ a ∈ as, ∀ b, equal a b ≠ .error f) : equalItems equal as bs ≠ .error f := by
  induction as generalizing bs with
  | nil => exact fun hfault => by cases hfault
  | cons a as ih =>
      obtain ⟨ha, has⟩ := List.forall_mem_cons.mp h
      cases bs with
      | nil => exact fun hfault => by cases hfault
      | cons b bs =>
          rw [equalItems]
          rcases hfirst : equal a b with e | _ | _
          · intro hfault
            cases hfault
            exact ha b hfirst
          · exact fun hfault => by cases hfault
          · exact ih has

theorem coveredBy_ne {equal : Value → Value → Except Fault Bool} {f : Fault}
    {other entries : Association Atom Value}
    (h : ∀ e ∈ entries, ∀ b, equal e.2 b ≠ .error f) : coveredBy equal other entries ≠ .error f := by
  induction entries with
  | nil => exact fun hfault => by cases hfault
  | cons entry rest ih =>
      obtain ⟨key, value⟩ := entry
      obtain ⟨hentry, hrest⟩ := List.forall_mem_cons.mp h
      rw [coveredBy]
      split
      · exact fun hfault => by cases hfault
      case h_2 value' _ =>
        rcases hfirst : equal value value' with e | _ | _
        · intro hfault
          cases hfault
          exact hentry value' hfirst
        · exact fun hfault => by cases hfault
        · exact ih hrest

theorem equals_ne_tooDeep (a : Atom) (v : Value) : a.equals v ≠ .error .tooDeep := by
  unfold Atom.equals
  split <;> exact fun hfault => by cases hfault

section

variable {s : Store}

/-- A comparison of a value inside some collections ends. -/
theorem equalWithin_ne_tooDeep {depth : Nat} {outer : List Value} {a : Value} (b : Value)
    (ha : s.AcyclicFrom a) (houter : s.LeadTo outer a)
    (hdepth : s.collections < depth + outer.length) :
    s.equalWithin depth a b ≠ .error .tooDeep := by
  -- only the left value counts: the right one is followed no further than it
  induction depth generalizing outer a b with
  | zero =>
      have hlength := houter.length_le
      omega
  | succ depth ih =>
      have hfurther : ∀ w b, s.Contains a w → s.equalWithin depth w b ≠ .error .tooDeep := by
        intro w b hw
        refine ih b (ha.contained hw) (houter.inwards ha.self hw) ?_
        rw [List.length_cons]
        omega
      rcases a with a | i | i
      · exact equals_ne_tooDeep a b
      · rcases b with b | j | j
        · exact fun hfault => by cases hfault
        · rw [equalWithin]
          split
          · exact equalItems_ne fun w hw b => hfurther w b (.item hw)
          · exact fun hfault => by cases hfault
        · exact fun hfault => by cases hfault
      · rcases b with b | j | j
        · exact fun hfault => by cases hfault
        · exact fun hfault => by cases hfault
        · rw [equalWithin]
          exact coveredBy_ne fun e he b => hfurther e.2 b (.value he)

/-- A comparison ends if nothing that the left value leads to is found in itself. -/
theorem equal_ne_tooDeep {a : Value} (ha : s.AcyclicFrom a) (b : Value) :
    s.equal a b ≠ .error .tooDeep := by
  refine equalWithin_ne_tooDeep b ha (leadTo_nil a) ?_
  exact Nat.lt_add_of_pos_right (by decide)

end

end Store

end DispatchLisp
