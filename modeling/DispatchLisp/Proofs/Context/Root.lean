import DispatchLisp.Interpreter
import DispatchLisp.Proofs.Association
import DispatchLisp.Proofs.Context.Lookup
import DispatchLisp.Proofs.Store.Contexts
import Mathlib.Data.List.Induction

/-!
# Proofs.Context.Root — what the names of a root context mean

A root context binds each special form and builtin to a native of its own, each intrinsic type to
itself, and the constants to their values, in whichever store it is made. No name is bound twice,
so nothing shadows anything (`nodup_rootNames`).
-/

namespace DispatchLisp

/-- The entries that a root context has for the intrinsic types. -/
def rootTypes : List (String × Value) :=
  intrinsicTypes.map fun name => (name, .type name)

/-- The names that a root context binds, in order. -/
def rootNames : List String :=
  rootNatives.map (·.1) ++ Association.keys rootTypes ++ Association.keys rootConstants

theorem nodup_rootNames : rootNames.Nodup := by
  decide

namespace Store

theorem own?_defineAll {s : Store} {c : ContextId} (hc : s.HasContext c) {entries : Table Value}
    (h : entries.Unique) (name : String) :
    (s.defineAll c entries).own? c name = (entries.get? name).or (s.own? c name) := by
  rw [own?, defineAll, context_updateContext_self rfl hc]
  exact Table.get?_setAll h _ name

theorem own?_define {s : Store} {c : ContextId} (hc : s.HasContext c) (name other : String)
    (v : Value) :
    (s.define c name v).own? c other = if name = other then some v else s.own? c other := by
  rw [own?, define, context_updateContext_self rfl hc]
  exact Table.get?_set _ _ _ _

/-- A new native is bound to its name, and the other names mean what they meant. -/
theorem own?_defineNative {s : Store} {c : ContextId} (hc : s.HasContext c) (name : String)
    (lazy : Bool) (role : NativeRole) :
    ∃ id, ∀ other, (s.defineNative c name lazy role).2.own? c other =
      if name = other then some (.native ⟨id, name, lazy, role⟩) else s.own? c other := by
  have hthere : (s.newNative name lazy role).2.HasContext c := hc
  exact ⟨s.natives, fun other => own?_define hthere name other _⟩

/-- Binds new natives in a context, one after another. -/
def defineNatives (s : Store) (c : ContextId) (natives : List (String × Bool × NativeRole)) :
    Store :=
  natives.foldl (fun s native => (s.defineNative c native.1 native.2.1 native.2.2).2) s

theorem hasContext_defineNatives {s : Store} {c : ContextId} (hc : s.HasContext c)
    (natives : List (String × Bool × NativeRole)) : (s.defineNatives c natives).HasContext c := by
  refine List.foldlRecOn (motive := fun s : Store => s.HasContext c) natives _ hc ?_
  intro s' hs' native _
  exact HasContext.define hs' _ _ _

/-- New natives whose names differ are each bound to their names. -/
theorem own?_defineNatives {s : Store} {c : ContextId} (hc : s.HasContext c)
    {natives : List (String × Bool × NativeRole)} (h : (natives.map (·.1)).Nodup)
    {name : String} {lazy : Bool} {role : NativeRole} (hnative : (name, lazy, role) ∈ natives) :
    ∃ id, (s.defineNatives c natives).own? c name = some (.native ⟨id, name, lazy, role⟩) := by
  induction natives using List.reverseRecOn with
  | nil => cases hnative
  | append_singleton front last ih =>
      have hthere : (s.defineNatives c front).HasContext c := hasContext_defineNatives hc front
      have hlast : ∃ id, ∀ other, (s.defineNatives c (front ++ [last])).own? c other =
          if last.1 = other then some (.native ⟨id, last.1, last.2.1, last.2.2⟩)
          else (s.defineNatives c front).own? c other := by
        unfold defineNatives
        rw [List.foldl_append]
        exact own?_defineNative hthere _ _ _
      obtain ⟨id, hlast⟩ := hlast
      rw [List.map_append, List.nodup_append] at h
      obtain ⟨hfront, _, hapart⟩ := h
      rw [hlast]
      rcases List.mem_append.mp hnative with hnative | hnative
      · -- the last native goes by another name
        have hne : last.1 ≠ name :=
          (hapart name (List.mem_map_of_mem hnative) last.1 (by simp)).symm
        rw [if_neg hne]
        exact ih hfront hnative
      · rw [← List.mem_singleton.mp hnative, if_pos rfl]
        exact ⟨id, rfl⟩

/-- The store with a root context that binds natives only. -/
def withNatives (s : Store) : Store :=
  (s.newContext rootName none).2.defineNatives s.newRoot.1 rootNatives

theorem newRoot_eq (s : Store) : s.newRoot.2 =
    (s.withNatives.defineAll s.newRoot.1 rootTypes).defineAll s.newRoot.1 rootConstants :=
  rfl

theorem hasContext_root_made (s : Store) : (s.newContext rootName none).2.HasContext s.newRoot.1 :=
  hasContext_newContext s rootName none

theorem own?_newRoot (s : Store) (name : String) :
    s.newRoot.2.own? s.newRoot.1 name = (Table.get? rootConstants name).or
      ((Table.get? rootTypes name).or (s.withNatives.own? s.newRoot.1 name)) := by
  obtain ⟨hbefore, hconstants, _⟩ := List.nodup_append.mp nodup_rootNames
  obtain ⟨_, htypes, _⟩ := List.nodup_append.mp hbefore
  have hthere : s.withNatives.HasContext s.newRoot.1 :=
    hasContext_defineNatives s.hasContext_root_made rootNatives
  have hnext : (s.withNatives.defineAll s.newRoot.1 rootTypes).HasContext s.newRoot.1 :=
    hthere.defineAll _ _
  rw [newRoot_eq, own?_defineAll hnext hconstants, own?_defineAll hthere htypes]

variable (s : Store) {name : String}

/-- A root context binds a constant to its value. -/
theorem own?_newRoot_constant {v : Value} (h : (name, v) ∈ rootConstants) :
    s.newRoot.2.own? s.newRoot.1 name = some v := by
  obtain ⟨_, hconstants, _⟩ := List.nodup_append.mp nodup_rootNames
  rw [own?_newRoot, Table.get?_of_mem hconstants h]
  rfl

/-- A constant means its value in a root context. -/
theorem lookup?_newRoot_constant {v : Value} (h : (name, v) ∈ rootConstants) :
    s.newRoot.2.lookup? s.newRoot.1 name = some v :=
  lookup?_of_own (s.own?_newRoot_constant h)

/-- An intrinsic type means itself in a root context. -/
theorem lookup?_newRoot_type (h : name ∈ intrinsicTypes) :
    s.newRoot.2.lookup? s.newRoot.1 name = some (.type name) := by
  obtain ⟨hbefore, _, hapart⟩ := List.nodup_append.mp nodup_rootNames
  obtain ⟨_, htypes, _⟩ := List.nodup_append.mp hbefore
  have hmem : (name, Value.type name) ∈ rootTypes := List.mem_map_of_mem h
  have hkey : name ∈ rootNatives.map (·.1) ++ Association.keys rootTypes :=
    List.mem_append_right _ (List.mem_map_of_mem hmem)
  have hnone : Table.get? rootConstants name = none := by
    rw [Table.get?_eq_none_iff]
    exact fun hother => hapart name hkey name hother rfl
  apply lookup?_of_own
  rw [own?_newRoot, hnone, Table.get?_of_mem htypes hmem]
  rfl

/-- A root context binds the name of a native to such a native. -/
theorem own?_newRoot_native {lazy : Bool} {role : NativeRole}
    (h : (name, lazy, role) ∈ rootNatives) :
    ∃ id, s.newRoot.2.own? s.newRoot.1 name = some (.native ⟨id, name, lazy, role⟩) := by
  obtain ⟨hbefore, _, hapart⟩ := List.nodup_append.mp nodup_rootNames
  obtain ⟨hnatives, _, hapart'⟩ := List.nodup_append.mp hbefore
  have hname : name ∈ rootNatives.map (·.1) := List.mem_map_of_mem h
  have hconstants : Table.get? rootConstants name = none := by
    rw [Table.get?_eq_none_iff]
    exact fun hother => hapart name (List.mem_append_left _ hname) name hother rfl
  have htypes : Table.get? rootTypes name = none := by
    rw [Table.get?_eq_none_iff]
    exact fun hother => hapart' name hname name hother rfl
  obtain ⟨id, hown⟩ : ∃ id, s.withNatives.own? s.newRoot.1 name =
      some (.native ⟨id, name, lazy, role⟩) := own?_defineNatives s.hasContext_root_made hnatives h
  have hroot := own?_newRoot s name
  rw [hconstants, htypes, Option.none_or, Option.none_or, hown] at hroot
  exact ⟨id, hroot⟩

/-- The name of a native means such a native in a root context. -/
theorem lookup?_newRoot_native {lazy : Bool} {role : NativeRole}
    (h : (name, lazy, role) ∈ rootNatives) :
    ∃ id, s.newRoot.2.lookup? s.newRoot.1 name = some (.native ⟨id, name, lazy, role⟩) := by
  obtain ⟨id, hown⟩ := s.own?_newRoot_native h
  exact ⟨id, lookup?_of_own hown⟩

end Store

end DispatchLisp
