import DispatchLisp.Association
import Mathlib.Data.List.Nodup

/-!
# Proofs.Association — reading a table after it has been changed

A table is `Unique` when it binds no name twice. Every change keeps that, and several values that
are put into a table, each under its own name, shadow what was there (`get?_setAll`).
-/

namespace DispatchLisp

/-- A value under a key that is like no other goes to the end. -/
theorem Association.put_of_absent {κ α : Type} {same : κ → κ → Bool} {key : κ}
    {entries : Association κ α} (h : ∀ k ∈ entries.keys, same k key = false) (v : α) :
    entries.put same key v = entries ++ [(key, v)] := by
  induction entries with
  | nil => rfl
  | cons entry rest ih =>
      rcases entry with ⟨k, w⟩
      have hk : same k key = false := h k List.mem_cons_self
      have hrest : put same key v rest = rest ++ [(key, v)] :=
        ih fun other hother => h other (List.mem_cons_of_mem _ hother)
      rw [put, hk, hrest]
      rfl

theorem Association.contains_eq_false_iff {κ α : Type} {same : κ → κ → Bool} {key : κ}
    {entries : Association κ α} :
    entries.contains same key = false ↔ ∀ k ∈ entries.keys, same k key = false := by
  induction entries with
  | nil => simp [contains, get?, keys]
  | cons entry rest ih =>
      rcases entry with ⟨k, w⟩
      unfold contains keys at ih ⊢
      rw [List.map_cons, List.forall_mem_cons, ← ih, get?]
      cases same k key <;> simp

/-- Putting a value under a key adds the key at most. -/
theorem Association.keys_put {κ α : Type} (same : κ → κ → Bool) (key : κ) (v : α)
    (entries : Association κ α) :
    Association.keys (entries.put same key v) =
      if entries.contains same key then entries.keys else entries.keys ++ [key] := by
  induction entries with
  | nil => rfl
  | cons entry rest ih =>
      rcases entry with ⟨k, w⟩
      unfold contains keys at ih ⊢
      rw [put, get?]
      cases same k key with
      | true => simp
      | false =>
          simp only [Bool.false_eq_true, if_false, List.map_cons, ih]
          split <;> rfl

/-- A value that is found under a key stands in an entry whose key is the same. -/
theorem Association.exists_of_get? {κ α : Type} {same : κ → κ → Bool} {key : κ}
    {entries : Association κ α} {v : α} (h : entries.get? same key = some v) :
    ∃ k, (k, v) ∈ entries ∧ same k key = true := by
  induction entries with
  | nil => cases h
  | cons entry rest ih =>
      rcases entry with ⟨k, w⟩
      rw [get?] at h
      split at h
      case isTrue hk =>
        cases h
        exact ⟨k, List.mem_cons_self, hk⟩
      case isFalse =>
        obtain ⟨other, hother, hsame⟩ := ih h
        exact ⟨other, List.mem_cons_of_mem _ hother, hsame⟩

theorem Association.mem_of_get? {κ α : Type} {same : κ → κ → Bool} {key : κ}
    {entries : Association κ α} {v : α} (h : entries.get? same key = some v) :
    ∃ k, (k, v) ∈ entries := by
  obtain ⟨k, hmem, _⟩ := exists_of_get? h
  exact ⟨k, hmem⟩

/-- Putting a value under a key changes at most the value of one entry or adds one. -/
theorem Association.mem_put {κ α : Type} {same : κ → κ → Bool} {key : κ} {v : α}
    {entries : Association κ α} {entry : κ × α} (h : entry ∈ entries.put same key v) :
    entry ∈ entries ∨ entry.2 = v ∧ (entry.1 = key ∨ ∃ w, (entry.1, w) ∈ entries) := by
  induction entries with
  | nil =>
      rw [put, List.mem_singleton] at h
      exact .inr (by simp [h])
  | cons first rest ih =>
      rcases first with ⟨k, old⟩
      rw [put] at h
      split at h
      · rcases List.mem_cons.mp h with rfl | h
        · exact .inr ⟨rfl, .inr ⟨old, List.mem_cons_self⟩⟩
        · exact .inl (List.mem_cons_of_mem _ h)
      · rcases List.mem_cons.mp h with rfl | h
        · exact .inl List.mem_cons_self
        · rcases ih h with hold | ⟨hv, hkey | ⟨w, hw⟩⟩
          · exact .inl (List.mem_cons_of_mem _ hold)
          · exact .inr ⟨hv, .inl hkey⟩
          · exact .inr ⟨hv, .inr ⟨w, List.mem_cons_of_mem _ hw⟩⟩

namespace Table

variable {α : Type}

theorem get?_cons_self (name : String) (v : α) (rest : Table α) :
    get? ((name, v) :: rest) name = some v := by
  simp [get?, Association.get?]

theorem get?_cons_ne {k name : String} (h : k ≠ name) (v : α) (rest : Table α) :
    get? ((k, v) :: rest) name = get? rest name := by
  simp [get?, Association.get?, h]

theorem set_cons_self (name : String) (old v : α) (rest : Table α) :
    set ((name, old) :: rest) name v = (name, v) :: rest := by
  simp [set, Association.put]

theorem set_cons_ne {k name : String} (h : k ≠ name) (old v : α) (rest : Table α) :
    set ((k, old) :: rest) name v = (k, old) :: set rest name v := by
  simp [set, Association.put, h]

theorem get?_set_self (table : Table α) (name : String) (v : α) :
    (table.set name v).get? name = some v := by
  induction table with
  | nil => exact get?_cons_self name v []
  | cons entry rest ih =>
      rcases entry with ⟨k, old⟩
      by_cases hk : k = name
      · subst hk
        rw [set_cons_self, get?_cons_self]
      · rw [set_cons_ne hk, get?_cons_ne hk, ih]

theorem get?_set_ne (table : Table α) {name other : String} (h : name ≠ other) (v : α) :
    (table.set name v).get? other = table.get? other := by
  induction table with
  | nil => exact get?_cons_ne h v []
  | cons entry rest ih =>
      rcases entry with ⟨k, old⟩
      by_cases hk : k = name
      · subst hk
        rw [set_cons_self, get?_cons_ne h, get?_cons_ne h]
      · rw [set_cons_ne hk]
        by_cases hother : k = other
        · subst hother
          rw [get?_cons_self, get?_cons_self]
        · rw [get?_cons_ne hother, get?_cons_ne hother, ih]

theorem get?_set (table : Table α) (name other : String) (v : α) :
    (table.set name v).get? other = if name = other then some v else table.get? other := by
  split
  case isTrue h => rw [← h, get?_set_self]
  case isFalse h => exact get?_set_ne table h v

/-! ## The names of a table -/

theorem mem_keys {table : Table α} {name : String} :
    name ∈ Association.keys table ↔ table.contains name = true := by
  induction table with
  | nil => simp [Association.keys, contains, get?, Association.get?]
  | cons entry rest ih =>
      rcases entry with ⟨k, v⟩
      unfold Association.keys contains at ih ⊢
      by_cases hk : k = name
      · simp [hk, get?_cons_self]
      · rw [get?_cons_ne hk, ← ih, List.map_cons, List.mem_cons]
        exact or_iff_right (Ne.symm hk)

theorem contains_iff {table : Table α} {name : String} :
    table.contains name = true ↔ ∃ v, table.get? name = some v :=
  Option.isSome_iff_exists

theorem get?_eq_none_iff {table : Table α} {name : String} :
    table.get? name = none ↔ name ∉ Association.keys table := by
  rw [mem_keys, contains, Bool.not_eq_true, Option.isSome_eq_false_iff, Option.isNone_iff_eq_none]

/-- Whether no name is bound twice. -/
def Unique (table : Table α) : Prop :=
  (Association.keys table).Nodup

theorem get?_of_mem {table : Table α} (h : table.Unique) {name : String} {v : α}
    (hmem : (name, v) ∈ table) : table.get? name = some v := by
  induction table with
  | nil => cases hmem
  | cons entry rest ih =>
      rcases entry with ⟨k, w⟩
      obtain ⟨hk, hrest⟩ := List.nodup_cons.mp h
      rcases List.mem_cons.mp hmem with heq | hmem
      · cases heq
        exact get?_cons_self _ _ _
      · -- the name comes later, so it is not the first one
        have hname : name ∈ Association.keys rest := List.mem_map_of_mem hmem
        have hne : k ≠ name := fun heq => hk (heq ▸ hname)
        rw [get?_cons_ne hne]
        exact ih hrest hmem

theorem unique_nil : Unique ([] : Table α) :=
  List.nodup_nil

theorem keys_set (table : Table α) (name : String) (v : α) :
    Association.keys (table.set name v) =
      if name ∈ Association.keys table then Association.keys table
      else Association.keys table ++ [name] := by
  simp only [mem_keys]
  exact Association.keys_put _ _ _ _

theorem Unique.set {table : Table α} (h : table.Unique) (name : String) (v : α) :
    (table.set name v).Unique := by
  unfold Unique at h ⊢
  rw [keys_set]
  split
  · exact h
  case isFalse hnew =>
    rw [← List.concat_eq_append]
    exact h.concat hnew

/-! ## Dropping names -/

theorem get?_erase (table : Table α) (name other : String) :
    (table.erase name).get? other = if other = name then none else table.get? other := by
  induction table with
  | nil => simp [erase, get?, Association.get?]
  | cons entry rest ih =>
      rcases entry with ⟨k, v⟩
      unfold erase at ih ⊢
      rw [List.filter_cons]
      by_cases hk : k = name
      · -- the entry is dropped, and so a search for another name never stopped at it
        simp only [hk, beq_self_eq_true, Bool.not_true, Bool.false_eq_true, if_false, ih]
        split
        · rfl
        case isFalse hother => rw [get?_cons_ne (Ne.symm hother)]
      · simp only [beq_eq_false_iff_ne.mpr hk, Bool.not_false, if_true]
        by_cases hother : k = other
        · simp [← hother, hk, get?_cons_self]
        · rw [get?_cons_ne hother, get?_cons_ne hother, ih]

theorem get?_eraseAll (names : List String) (table : Table α) (other : String) :
    (names.foldl erase table).get? other = if other ∈ names then none else table.get? other := by
  induction names generalizing table with
  | nil => simp
  | cons name rest ih =>
      rw [List.foldl_cons, ih, get?_erase]
      by_cases hrest : other ∈ rest
      · simp [hrest]
      · simp [hrest, List.mem_cons]

theorem Unique.erase {table : Table α} (h : table.Unique) (name : String) :
    (table.erase name).Unique :=
  h.sublist (List.filter_sublist.map _)

theorem Unique.eraseAll {table : Table α} (h : table.Unique) (names : List String) :
    (names.foldl Table.erase table).Unique :=
  List.foldlRecOn (motive := Unique) names _ h fun _ htable name _ => htable.erase name

/-! ## Several values at once -/

/-- Values that are put under names of their own shadow what was there. -/
theorem get?_setAll {entries : Table α} (h : entries.Unique) (table : Table α) (name : String) :
    (table.setAll entries).get? name = (entries.get? name).or (table.get? name) := by
  induction entries generalizing table with
  | nil => rfl
  | cons entry rest ih =>
      rcases entry with ⟨k, v⟩
      obtain ⟨hk, hrest⟩ := List.nodup_cons.mp h
      have hfirst : (table.setAll ((k, v) :: rest)).get? name =
          (get? rest name).or ((table.set k v).get? name) := ih hrest (table.set k v)
      rw [hfirst]
      by_cases hname : k = name
      · -- the name does not come again, so its first value stays
        have hnone : get? rest name = none := by
          rw [get?_eq_none_iff, ← hname]
          exact hk
        rw [hnone, ← hname, get?_set_self, get?_cons_self]
        rfl
      · rw [get?_set_ne table hname, get?_cons_ne hname]

/-- Values that are put under other names leave a name as it was. -/
theorem get?_setAll_of_absent {entries : List (String × α)} {name : String}
    (h : ∀ entry ∈ entries, entry.1 ≠ name) (table : Table α) :
    (table.setAll entries).get? name = table.get? name := by
  induction entries generalizing table with
  | nil => rfl
  | cons entry rest ih =>
      obtain ⟨hentry, hrest⟩ := List.forall_mem_cons.mp h
      exact (ih hrest (table.set entry.1 entry.2)).trans (get?_set_ne table hentry entry.2)

/-- Of several values that are put under one name the last one stays. -/
theorem get?_setAll_of_last {later : List (String × α)} {name : String}
    (h : ∀ entry ∈ later, entry.1 ≠ name) (earlier : List (String × α)) (v : α) (table : Table α) :
    (table.setAll (earlier ++ (name, v) :: later)).get? name = some v := by
  have hsplit : table.setAll (earlier ++ (name, v) :: later) =
      ((table.setAll earlier).set name v).setAll later := by
    rw [setAll, List.foldl_append, List.foldl_cons]
    rfl
  rw [hsplit, get?_setAll_of_absent h, get?_set_self]

theorem Unique.setAll {table : Table α} (h : table.Unique) (entries : List (String × α)) :
    (table.setAll entries).Unique :=
  List.foldlRecOn (motive := Unique) entries _ h fun _ htable entry _ => htable.set entry.1 entry.2

/-! ## The values of a table -/

section

variable {P : α → Prop} {table : Table α}

theorem forall_set (h : ∀ entry ∈ table, P entry.2) (name : String) {v : α} (hv : P v) :
    ∀ entry ∈ table.set name v, P entry.2 := by
  intro entry hentry
  rcases Association.mem_put hentry with hold | ⟨hnew, _⟩
  · exact h entry hold
  · rwa [hnew]

theorem forall_setAll (h : ∀ entry ∈ table, P entry.2) {entries : List (String × α)}
    (hentries : ∀ entry ∈ entries, P entry.2) : ∀ entry ∈ table.setAll entries, P entry.2 :=
  List.foldlRecOn (motive := fun table : Table α => ∀ entry ∈ table, P entry.2) entries _ h
    fun _ htable entry hentry => forall_set htable entry.1 (hentries entry hentry)

theorem forall_eraseAll (h : ∀ entry ∈ table, P entry.2) (names : List String) :
    ∀ entry ∈ names.foldl erase table, P entry.2 :=
  List.foldlRecOn (motive := fun table : Table α => ∀ entry ∈ table, P entry.2) names _ h
    fun _ htable _ _ entry hentry => htable entry (List.mem_of_mem_filter hentry)

end

/-! ## Names behind a qualifier -/

/-- A table with a qualifier in front of every name. -/
def qualified (qualifier : String) (table : Table α) : Table α :=
  table.map fun (name, v) => (qualifier ++ name, v)

theorem get?_qualified {table : Table α} {qualifier name : String} {v : α} :
    (table.qualified qualifier).get? name = some v ↔
      ∃ n, name = qualifier ++ n ∧ table.get? n = some v := by
  induction table with
  | nil => simp [qualified, get?, Association.get?]
  | cons entry rest ih =>
      rcases entry with ⟨k, w⟩
      have hcons : qualified qualifier ((k, w) :: rest) =
          (qualifier ++ k, w) :: qualified qualifier rest := rfl
      rw [hcons]
      by_cases hk : qualifier ++ k = name
      · -- one name behind the qualifier comes from one name only
        rw [hk, get?_cons_self]
        constructor
        · intro hw
          exact ⟨k, hk.symm, by rw [get?_cons_self, hw]⟩
        · rintro ⟨n, hn, hget⟩
          rw [← hk, String.append_right_inj] at hn
          rwa [← hn, get?_cons_self] at hget
      · rw [get?_cons_ne hk, ih]
        constructor
        all_goals
          rintro ⟨n, rfl, hget⟩
          have hn : k ≠ n := fun hkn => hk (by rw [hkn])
          refine ⟨n, rfl, ?_⟩
          first
            | rw [get?_cons_ne hn, hget]
            | rwa [get?_cons_ne hn] at hget

theorem Unique.qualified {table : Table α} (h : table.Unique) (qualifier : String) :
    (table.qualified qualifier).Unique := by
  unfold Unique Table.qualified
  have hkeys : Association.keys (table.map fun (name, v) => (qualifier ++ name, v)) =
      (Association.keys table).map (qualifier ++ ·) := by
    simp [Association.keys]
  rw [hkeys]
  exact List.Nodup.map (fun _ _ heq => (String.append_right_inj qualifier).mp heq) h

theorem contains_qualified {table : Table α} {qualifier name : String} :
    (table.qualified qualifier).contains name = true ↔
      ∃ n, name = qualifier ++ n ∧ table.contains n = true := by
  simp only [contains_iff, get?_qualified]
  grind

end Table

end DispatchLisp
