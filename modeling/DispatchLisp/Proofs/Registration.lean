import DispatchLisp.Embedding.Natives
import DispatchLisp.Proofs.Evaluation.Keeps
import DispatchLisp.Proofs.Session

/-!
# Proofs.Registration — the names that objects of the host go by

An object that a host registers is bound to its name in the root context. If a type is asked for and its
name is not bound to a type, it is bound to a new one before. Objects and types share the names of the
context, so a type that is made for one object takes the name of another that was registered before it,
though the table of objects still has that one under its name. Nothing else takes a name away, and
nothing is ever lost from the table.

Main statement: `registered_objects_go_by_their_names`.
-/

namespace DispatchLisp

/-! ## Types and their names -/

/-- Whether all types that a context binds are bound to their own names. -/
def Store.TypesOwnNames (s : Store) (c : ContextId) : Prop :=
  ∀ name type, s.own? c name = some (.type type) → type = name

namespace Store

section

variable {s : Store} {c : ContextId}

theorem typesOwnNames_define (hc : s.HasContext c) (h : s.TypesOwnNames c) {name : String} {v : Value}
    (hv : ∀ type, v = .type type → type = name) : (s.define c name v).TypesOwnNames c := by
  intro other type hother
  rw [own?_define hc] at hother
  split at hother
  case isTrue heq => exact heq ▸ hv type (Option.some.inj hother)
  case isFalse => exact h other type hother

theorem typesOwnNames_defineNative (hc : s.HasContext c) (h : s.TypesOwnNames c) (name : String)
    (lazy : Bool) (role : NativeRole) : (s.defineNative c name lazy role).2.TypesOwnNames c := by
  have hthere : (s.newNative name lazy role).2.HasContext c := hc
  exact typesOwnNames_define hthere h fun _ hv => by cases hv

theorem typesOwnNames_defineNatives (hc : s.HasContext c) (h : s.TypesOwnNames c)
    (natives : List (String × Bool × NativeRole)) : (s.defineNatives c natives).TypesOwnNames c := by
  induction natives generalizing s with
  | nil => exact h
  | cons native rest ih =>
      have hthere : (s.defineNative c native.1 native.2.1 native.2.2).2.HasContext c :=
        HasContext.define hc _ _ _
      exact ih hthere (typesOwnNames_defineNative hc h _ _ _)

/-- A root context binds types to their own names only. -/
theorem typesOwnNames_newRoot (s : Store) : s.newRoot.2.TypesOwnNames s.newRoot.1 := by
  intro name type hown
  have hempty : (s.newContext rootName none).2.TypesOwnNames s.newRoot.1 := by
    intro name type hnone
    simp [own?, context, newContext, newRoot, Table.get?, Association.get?] at hnone
  rw [own?_newRoot, Option.or_eq_some_iff, Option.or_eq_some_iff] at hown
  rcases hown with hconstant | ⟨-, htype | ⟨-, hnative⟩⟩
  · obtain ⟨k, hk⟩ := Association.mem_of_get? hconstant
    simp [rootConstants] at hk
  · obtain ⟨k, hk, hsame⟩ := Association.exists_of_get? htype
    obtain ⟨_, _, hentry⟩ := List.mem_map.mp hk
    cases hentry
    exact beq_iff_eq.mp hsame
  · exact typesOwnNames_defineNatives s.hasContext_root_made hempty rootNatives name type hnative

theorem typesOwnNames_first : Store.first.TypesOwnNames firstRoot :=
  typesOwnNames_defineNative hasContext_firstRoot (typesOwnNames_newRoot .empty) _ _ _

end

end Store

/-! ## One object -/

/-- An object of the host that is to go by a name, with the type that is asked for. -/
structure Registration where
  name : String
  className : String
  handle : Nat
  type : Option String

namespace Registration

/-- The object as a value: with the type that is asked for, or that of all objects of the host. -/
def object (r : Registration) : HostObject :=
  ⟨r.type.getD defaultObjectType, r.className, r.handle⟩

/-- Makes the object known. -/
def perform {ε : Type} (main : ContextId) (r : Registration) : Computation ε HostObject :=
  Interpreter.exposeObject main r.name r.className r.handle r.type

/-- Makes several objects known, one after another. -/
def performAll {ε : Type} (main : ContextId) : List Registration → Computation ε (List HostObject)
  | [] => return []
  | r :: rest => do
    let object ← r.perform main
    let objects ← performAll main rest
    return object :: objects

/-- Whether a root context is there and binds types to their own names only. -/
structure Ready (main : ContextId) (m : Machine) : Prop where
  root : m.store.HasContext main
  types : m.store.TypesOwnNames main

section

variable {ε : Type} {main : ContextId} {m : Machine}

theorem typeFor_eq (type : String) :
    (Interpreter.typeFor main type : Computation ε String) m =
      (match m.store.own? main type with
        | some (.type bound) => pure bound
        | _ => Interpreter.defineType main type : Computation ε String) m :=
  rfl

theorem typeFor_of_type {type bound : String} (h : m.store.own? main type = some (.type bound)) :
    (Interpreter.typeFor main type : Computation ε String) m = (.ok bound, m) := by
  rw [typeFor_eq, h]
  rfl

theorem typeFor_of_no_type {type : String}
    (h : ∀ bound, m.store.own? main type ≠ some (.type bound)) :
    (Interpreter.typeFor main type : Computation ε String) m =
      (.ok type, { m with store := m.store.define main type (.type type) }) := by
  rw [typeFor_eq]
  refine congrFun (g := Interpreter.defineType main type) ?_ m
  split
  case h_1 bound hown => exact absurd hown (h bound)
  case h_2 => rfl

/-- The type that a name stands for is the type of that name, which is bound to it from then on. -/
theorem typeFor_spec (h : Ready main m) (type : String) :
    ∃ m', (Interpreter.typeFor main type : Computation ε String) m = (.ok type, m') ∧
      Ready main m' ∧ m'.objects = m.objects ∧
      ∀ name, m'.store.own? main name =
        if type = name then some (.type name) else m.store.own? main name := by
  by_cases hbound : ∃ bound, m.store.own? main type = some (.type bound)
  · obtain ⟨bound, hown⟩ := hbound
    obtain rfl := h.types type bound hown
    refine ⟨m, typeFor_of_type hown, h, rfl, fun name => ?_⟩
    split
    case isTrue heq => rw [← heq, hown]
    case isFalse => rfl
  · refine ⟨_, typeFor_of_no_type (not_exists.mp hbound),
      ⟨h.root.define _ _ _, ?_⟩, rfl, fun name => ?_⟩
    · exact Store.typesOwnNames_define h.root h.types fun _ hv => by cases hv; rfl
    · rw [Store.own?_define h.root]
      split
      case isTrue heq => rw [heq]
      case isFalse => rfl

theorem objectTypeFor_spec (h : Ready main m) (type : Option String) :
    ∃ m', (Interpreter.objectTypeFor main type : Computation ε String) m =
        (.ok (type.getD defaultObjectType), m') ∧
      Ready main m' ∧ m'.objects = m.objects ∧
      ∀ name, m'.store.own? main name =
        if type = some name then some (.type name) else m.store.own? main name := by
  cases type with
  | none => exact ⟨m, rfl, h, rfl, fun name => rfl⟩
  | some type =>
      obtain ⟨m', hrun, hready, hobjects, hown⟩ := typeFor_spec (ε := ε) h type
      refine ⟨m', hrun, hready, hobjects, fun name => ?_⟩
      rw [hown]
      simp only [Option.some.injEq]

/-- Making one object known binds its name to it, and the name of the type that is asked for to the
type. -/
theorem perform_spec (h : Ready main m) (r : Registration) :
    ∃ m', (r.perform main : Computation ε HostObject) m = (.ok r.object, m') ∧
      Ready main m' ∧ m'.objects = m.objects.set r.name r.object ∧
      ∀ name, m'.store.own? main name =
        if r.name = name then some (.object r.object)
        else if r.type = some name then some (.type name)
        else m.store.own? main name := by
  obtain ⟨m1, htype, hready, hobjects, hown⟩ := objectTypeFor_spec (ε := ε) h r.type
  refine ⟨{ m1 with
      objects := m1.objects.set r.name r.object
      store := m1.store.define main r.name (.object r.object) }, ?_, ?_, ?_, fun name => ?_⟩
  · rw [perform, Interpreter.exposeObject, Computation.bind_of_ok htype]
    rfl
  · refine ⟨hready.root.define _ _ _, ?_⟩
    exact Store.typesOwnNames_define hready.root hready.types fun _ hv => by cases hv
  · rw [hobjects]
  · rw [← hown]
    exact Store.own?_define hready.root _ _ _

/-! ## Several objects -/

/-- The name of an object that is not made known again stays in the table. It means what it meant before,
unless an object is registered with a type of that name. -/
theorem performAll_spec (h : Ready main m) (rs : List Registration) :
    ∃ m', (performAll main rs : Computation ε (List HostObject)) m = (.ok (rs.map object), m') ∧
      Ready main m' ∧
      ∀ name, (∀ r ∈ rs, r.name ≠ name) →
        m'.objects.get? name = m.objects.get? name ∧
        ((∃ r ∈ rs, r.type = some name) → m'.store.own? main name = some (.type name)) ∧
        ((∀ r ∈ rs, r.type ≠ some name) → m'.store.own? main name = m.store.own? main name) := by
  -- the state changes from one object to the next, but stays ready
  induction rs generalizing m with
  | nil =>
      refine ⟨m, rfl, h, fun name _ => ⟨rfl, ?_, fun _ => rfl⟩⟩
      rintro ⟨r, hr, -⟩
      cases hr
  | cons r rest ih =>
      obtain ⟨m1, hrun, hready, hobjects, hown⟩ := perform_spec (ε := ε) h r
      obtain ⟨m', hrest, hready', hspec⟩ := ih hready
      refine ⟨m', ?_, hready', fun name hname => ?_⟩
      · rw [performAll, Computation.bind_of_ok hrun, Computation.bind_of_ok hrest]
        rfl
      obtain ⟨hne, hothers⟩ := List.forall_mem_cons.mp hname
      obtain ⟨hobject, htyped, huntyped⟩ := hspec name hothers
      have hown1 := hown name
      rw [if_neg hne] at hown1
      refine ⟨?_, ?_, ?_⟩
      · rw [hobject, hobjects, Table.get?_set_ne _ hne]
      · intro htype
        by_cases hlater : ∃ r' ∈ rest, r'.type = some name
        · exact htyped hlater
        · -- then it is the first object that has the type
          have hfirst : r.type = some name := by
            obtain ⟨r', hr', heq⟩ := htype
            rcases List.mem_cons.mp hr' with rfl | hr'
            · exact heq
            · exact absurd ⟨r', hr', heq⟩ hlater
          rw [huntyped fun r' hr' heq => hlater ⟨r', hr', heq⟩, hown1, if_pos hfirst]
      · intro htype
        obtain ⟨hfirst, hlater⟩ := List.forall_mem_cons.mp htype
        rw [huntyped hlater, hown1, if_neg hfirst]

/-- Objects that are made known after others are made known in the state that is reached with those. -/
theorem performAll_append {first second : List Registration} {objects objects' : List HostObject}
    {m1 m2 : Machine}
    (hfirst : (performAll main first : Computation ε (List HostObject)) m = (.ok objects, m1))
    (hsecond : (performAll main second : Computation ε (List HostObject)) m1 = (.ok objects', m2)) :
    (performAll main (first ++ second) : Computation ε (List HostObject)) m =
      (.ok (objects ++ objects'), m2) := by
  induction first generalizing m objects with
  | nil =>
      cases hfirst
      exact hsecond
  | cons r first ih =>
      obtain ⟨object, m0, hobject, hrest⟩ := Computation.bind_eq_ok hfirst
      obtain ⟨others, m0', hothers, hreturn⟩ := Computation.bind_eq_ok hrest
      cases hreturn
      rw [List.cons_append, performAll, Computation.bind_of_ok hobject,
        Computation.bind_of_ok (ih hothers)]
      rfl

/-- What comes of one object among others whose names differ from its own. -/
theorem performAll_of_mid (h : Ready main m) {before after : List Registration} {r : Registration}
    (hname : ∀ r' ∈ after, r'.name ≠ r.name) {objects : List HostObject} {m' : Machine}
    (hrun : (performAll main (before ++ r :: after) : Computation ε (List HostObject)) m =
      (.ok objects, m')) :
    m'.objects.get? r.name = some r.object ∧
      ((∀ r' ∈ after, r'.type ≠ some r.name) →
        m'.store.own? main r.name = some (.object r.object)) ∧
      ((∃ r' ∈ after, r'.type = some r.name) →
        m'.store.own? main r.name = some (.type r.name)) := by
  -- the state before the object, behind it, and at the end
  obtain ⟨m1, hbefore, hready, -⟩ := performAll_spec (ε := ε) h before
  obtain ⟨m2, hobject, hready, hobjects, hown⟩ := perform_spec (ε := ε) hready r
  obtain ⟨m3, hafter, -, hspec⟩ := performAll_spec (ε := ε) hready after
  have hrest : (performAll main (r :: after) : Computation ε (List HostObject)) m1 =
      (.ok (r.object :: after.map object), m3) := by
    rw [performAll, Computation.bind_of_ok hobject, Computation.bind_of_ok hafter]
    rfl
  obtain ⟨-, rfl⟩ := Prod.mk.inj (hrun.symm.trans (performAll_append hbefore hrest))
  obtain ⟨htable, htyped, huntyped⟩ := hspec r.name hname
  refine ⟨?_, fun htypes => ?_, htyped⟩
  · rw [htable, hobjects, Table.get?_set_self]
  · rw [huntyped htypes, hown, if_pos rfl]

end

end Registration

theorem ready_start (host : Host) (disk : Disk) (logThreshold : Nat) :
    Registration.Ready firstRoot (Interpreter.start host none (.initial disk logThreshold)).2 := by
  rw [start_eq]
  exact ⟨Store.hasContext_first, Store.typesOwnNames_first⟩

/-- Where a host makes objects known to a new interpreter under names that differ, each stays in the
table of objects under its name, with the type that it was registered with; objects that are registered
with one type have equal types. A name means its object in the root context exactly if no later object
is registered with a type of that name; otherwise it means the type. -/
theorem registered_objects_go_by_their_names (host : Host) (disk : Disk) (logThreshold : Nat)
    {rs : List Registration} (hnames : (rs.map Registration.name).Nodup) :
    ∃ m', (Registration.performAll firstRoot rs : Eval (List HostObject))
        (Interpreter.start host none (.initial disk logThreshold)).2 =
          (.ok (rs.map Registration.object), m') ∧
      (∀ before r after, rs = before ++ r :: after →
        m'.objects.get? r.name = some r.object ∧
        (m'.store.lookup? firstRoot r.name = some (.object r.object) ↔
          ∀ r' ∈ after, r'.type ≠ some r.name) ∧
        ((∃ r' ∈ after, r'.type = some r.name) →
          m'.store.lookup? firstRoot r.name = some (.type r.name))) ∧
      ∀ r ∈ rs, ∀ r' ∈ rs, r.type = r'.type → ∃ o o', m'.objects.get? r.name = some o ∧
        m'.objects.get? r'.name = some o' ∧ o.typeName = o'.typeName := by
  have hready := ready_start host disk logThreshold
  obtain ⟨m', hrun, -⟩ := Registration.performAll_spec (ε := Fault) hready rs
  have hmid : ∀ before r after, rs = before ++ r :: after →
      m'.objects.get? r.name = some r.object ∧
        ((∀ r' ∈ after, r'.type ≠ some r.name) →
          m'.store.own? firstRoot r.name = some (.object r.object)) ∧
        ((∃ r' ∈ after, r'.type = some r.name) →
          m'.store.own? firstRoot r.name = some (.type r.name)) := by
    rintro before r after rfl
    rw [List.map_append, List.map_cons, List.nodup_append, List.nodup_cons] at hnames
    obtain ⟨-, ⟨hlater, -⟩, -⟩ := hnames
    refine Registration.performAll_of_mid hready (fun r' hr' heq => hlater ?_) hrun
    exact heq ▸ List.mem_map_of_mem hr'
  refine ⟨m', hrun, fun before r after hsplit => ?_, fun r hr r' hr' htype => ?_⟩
  · obtain ⟨htable, huntyped, htyped⟩ := hmid before r after hsplit
    refine ⟨htable, ⟨fun hlookup r' hr' heq => ?_, fun h => Store.lookup?_of_own (huntyped h)⟩,
      fun h => Store.lookup?_of_own (htyped h)⟩
    rw [Store.lookup?_of_own (htyped ⟨r', hr', heq⟩)] at hlookup
    cases hlookup
  · obtain ⟨before, after, hsplit⟩ := List.append_of_mem hr
    obtain ⟨before', after', hsplit'⟩ := List.append_of_mem hr'
    refine ⟨_, _, (hmid _ _ _ hsplit).1, (hmid _ _ _ hsplit').1, ?_⟩
    rw [Registration.object, Registration.object, htype]

/-- Two objects have the name of a third for their type, which takes it away from that one. -/
theorem registered_objects_go_by_their_names_of_shared_name :
    let a : Registration := ⟨"a", "Handle", 0, none⟩
    let b : Registration := ⟨"b", "Handle", 1, some "a"⟩
    let c : Registration := ⟨"c", "Handle", 2, some "a"⟩
    ([a, b, c].map Registration.name).Nodup ∧
    ∃ m', (Registration.performAll firstRoot [a, b, c] : Eval (List HostObject))
        (newSession Host.basic) = (.ok [a.object, b.object, c.object], m') ∧
      m'.objects.get? "a" = some a.object ∧
      m'.store.lookup? firstRoot "a" = some (.type "a") ∧
      m'.store.lookup? firstRoot "b" = some (.object b.object) ∧
      m'.store.lookup? firstRoot "c" = some (.object c.object) := by
  intro a b c
  have hnames : ([a, b, c].map Registration.name).Nodup := by decide
  obtain ⟨m', hrun, hobjects, -⟩ :=
    registered_objects_go_by_their_names Host.basic .empty 30 hnames
  obtain ⟨htable, -, htype⟩ := hobjects [] a [b, c] rfl
  obtain ⟨-, hb, -⟩ := hobjects [a] b [c] rfl
  obtain ⟨-, hc, -⟩ := hobjects [a, b] c [] rfl
  exact ⟨hnames, m', hrun, htable, htype ⟨b, by simp, rfl⟩, hb.mpr (by decide), hc.mpr (by decide)⟩

/-- An object that is made with the name of another for its type leaves that one in the table of objects
only. -/
theorem registered_name_is_lost :
    let m := Request.perform Host.basic firstRoot (newSession Host.basic)
      (.registerObject "a" "Handle" none)
    let m' := Request.perform Host.basic firstRoot m (.registerObject "b" "Handle" (some "a"))
    let object : HostObject := ⟨defaultObjectType, "Handle", 0⟩
    m.store.lookup? firstRoot "a" = some (.object object) ∧
    m'.objects.get? "a" = some object ∧
    m'.store.lookup? firstRoot "a" = some (.type "a") := by
  decide +kernel

end DispatchLisp
