import DispatchLisp.Proofs.Context.Chronicle

/-!
# Proofs.Context.ImportedBindings — what an importer sees of its sources

When no two imports of a context ever bring in the same name, and no such name is defined in it,
the context shows each source exactly as it was when it was taken over last
(`Run.imported_view`).

Imports that bring in the same name share one binding. Taking over anew drops the names that the
source has lost, even where another import has recorded them. A recorded name is unbound when
another import took it away and nothing has given it a value since, and at no other time
(`Run.recorded_name_unbound_iff`).
-/

namespace DispatchLisp

/-! ## Which deeds bring a name in -/

section Past

variable {past older : List Deed} {c d s source : ContextId} {q qualifier name : String}
variable {bindings : Table Value}

/-- What was taken over last was brought in. -/
theorem broughtIn_of_lastTaken? (h : lastTaken? past c source qualifier = some bindings)
    (hname : (bindings.qualified qualifier).contains name = true) :
    BroughtIn past c source qualifier name := by
  obtain ⟨deed, hmem, htaken⟩ := List.exists_of_findSome?_eq_some h
  exact ⟨deed, hmem, bindings, htaken, hname⟩

theorem broughtIn_of_lastShown (h : (lastShown past c source qualifier).contains name = true) :
    BroughtIn past c source qualifier name := by
  rw [lastShown] at h
  cases htaken : lastTaken? past c source qualifier with
  | none =>
      rw [htaken] at h
      cases h
  | some bindings =>
      rw [htaken] at h
      exact broughtIn_of_lastTaken? htaken h

/-- Taking over gives a name a value in the importer when it brings the name in. -/
theorem given?_tookOver (hd : d.index = c.index) :
    (Deed.tookOver d s q bindings).given? c name = (bindings.qualified q).get? name :=
  if_pos hd

theorem broughtIn_of_given? {v : Value} (hd : d.index = c.index)
    (h : (Deed.tookOver d s q bindings).given? c name = some v) (older : List Deed) :
    BroughtIn (.tookOver d s q bindings :: older) c s q name := by
  rw [given?_tookOver hd] at h
  exact ⟨_, List.mem_cons_self, bindings, if_pos ⟨hd, rfl, rfl⟩, Table.contains_iff.mpr ⟨v, h⟩⟩

theorem broughtIn_of_drops (h : (Deed.tookOver d s q bindings).drops c name older = true) :
    BroughtIn older c s q name := by
  rw [Deed.drops, Bool.and_eq_true] at h
  exact broughtIn_of_lastShown h.2

theorem definedIn_of_lastDefined? {v : Value} (h : lastDefined? past c name = some v) :
    DefinedIn past c name := by
  obtain ⟨deed, hmem, hdefinition⟩ := List.exists_of_findSome?_eq_some h
  exact ⟨deed, hmem, v, hdefinition⟩

/-- A deed that neither gives a name a value nor drops it leaves its value. -/
theorem binding?_cons_of_idle {deed : Deed} (hgiven : deed.given? c name = none)
    (hdrops : deed.drops c name older = false) :
    binding? c name (deed :: older) = binding? c name older := by
  rw [binding?, hgiven, hdrops]
  rfl

/-- Taking over a name that an import never brings in leaves its value. -/
theorem binding?_cons_of_not_broughtIn
    (h : d.index = c.index → ¬ BroughtIn (.tookOver d s q bindings :: older) c s q name) :
    binding? c name (.tookOver d s q bindings :: older) = binding? c name older := by
  by_cases hd : d.index = c.index
  · apply binding?_cons_of_idle
    · cases hgiven : (Deed.tookOver d s q bindings).given? c name with
      | none => rfl
      | some v => exact absurd (broughtIn_of_given? hd hgiven older) (h hd)
    · rw [Bool.eq_false_iff]
      intro hdrops
      exact h hd ((broughtIn_of_drops hdrops).cons _)
  · -- what another context takes over does not matter
    exact binding?_cons_of_idle (if_neg hd) (by simp [Deed.drops, hd])

/-! ## Names that come from one place -/

/-- A name that one import alone brings in has the value that the import shows. -/
theorem binding?_of_one_import
    (hone : ∀ s q, BroughtIn past c s q name → s = source ∧ q = qualifier)
    (hdefined : ¬ DefinedIn past c name) :
    binding? c name past = (lastShown past c source qualifier).get? name := by
  induction past with
  | nil => rfl
  | cons deed older ih =>
      have ih := ih (fun s q h => hone s q (h.cons deed)) (fun h => hdefined (h.cons deed))
      cases deed with
      | defined d n v =>
          have hgiven : (Deed.defined d n v).given? c name = none := by
            rw [Option.eq_none_iff_forall_ne_some]
            intro w hw
            exact hdefined ⟨_, List.mem_cons_self, w, hw⟩
          rw [binding?_cons_of_idle hgiven rfl, lastShown_cons_of_none rfl, ih]
      | replaced d =>
          rw [binding?_cons_of_idle rfl rfl, lastShown_cons_of_none rfl, ih]
      | tookOver d s q bindings =>
          by_cases hsame : d.index = c.index ∧ s = source ∧ q = qualifier
          · -- what the source has lost is dropped with the bindings taken over before
            obtain ⟨hd, rfl, rfl⟩ := hsame
            rw [lastShown_tookOver, if_pos ⟨hd, rfl, rfl⟩, binding?, given?_tookOver hd, ih]
            cases hnew : (bindings.qualified q).get? name with
            | some v => rfl
            | none =>
                rw [Option.none_or, Deed.drops, hd, Table.contains]
                cases (lastShown older c s q).get? name <;> simp
          · rw [lastShown_tookOver, if_neg hsame, ← ih]
            exact binding?_cons_of_not_broughtIn fun hd h => hsame ⟨hd, hone s q h⟩

/-- A name that no import brings in has the value that it was last defined with. -/
theorem binding?_of_no_import (hnone : ∀ s q, ¬ BroughtIn past c s q name) :
    binding? c name past = lastDefined? past c name := by
  induction past with
  | nil => rfl
  | cons deed older ih =>
      have ih := ih fun s q h => hnone s q (h.cons deed)
      rw [lastDefined?, List.findSome?_cons]
      cases deed with
      | defined d n v =>
          have hgiven : (Deed.defined d n v).given? c name =
              (Deed.defined d n v).definition? c name := rfl
          rw [binding?, hgiven, ih]
          cases (Deed.defined d n v).definition? c name <;> rfl
      | replaced d => exact ih
      | tookOver d s q bindings =>
          rw [binding?_cons_of_not_broughtIn fun _ => hnone s q]
          exact ih

end Past

/-! ## Exact views -/

/-- Whether different imports of a context never bring in the same name, nor one that is defined
in it. -/
structure ImportsApart (past : List Deed) (c : ContextId) : Prop where
  apart : ∀ s q s' q' name, BroughtIn past c s q name → BroughtIn past c s' q' name →
    s' = s ∧ q' = q
  undefined : ∀ s q name, BroughtIn past c s q name → ¬ DefinedIn past c name

namespace Chronicle

variable {w : Chronicle} {c source : ContextId} {qualifier : String}

/-- Whether a context shows some bindings of a source behind a qualifier and no others: they are
bound, no other name that was ever brought in from there is, and the import has recorded them. -/
structure Shows (w : Chronicle) (c source : ContextId) (qualifier : String)
    (bindings : Table Value) : Prop where
  bound : ∀ n v, bindings.get? n = some v → w.store.own? c (qualifier ++ n) = some v
  noOther : ∀ name v, BroughtIn w.past c source qualifier name → w.store.own? c name = some v →
    ∃ n, name = qualifier ++ n ∧ bindings.get? n = some v
  recorded : ∀ name, name ∈ importedNames source qualifier (w.store.context c).imports ↔
    ∃ n, name = qualifier ++ n ∧ bindings.contains n = true

/-- Whether everyone who imports a context has taken over its present bindings last. -/
def UsersUpToDate (w : Chronicle) (source : ContextId) : Prop :=
  ∀ u ∈ (w.store.context source).usages, ∀ qualifier ∈ u.qualifiers,
    lastTaken? w.past u.importer source qualifier = some (w.store.context source).table

/-- An import whose names come from nowhere else shows what was taken over last. -/
theorem Faithful.shows (h : Faithful w) (hc : NeverReplaced w.past c)
    (hapart : ImportsApart w.past c) {bindings : Table Value}
    (htaken : lastTaken? w.past c source qualifier = some bindings) :
    w.Shows c source qualifier bindings := by
  have hshown : lastShown w.past c source qualifier = bindings.qualified qualifier := by
    rw [lastShown, htaken, Option.getD_some]
  have hown : ∀ name, BroughtIn w.past c source qualifier name →
      w.store.own? c name = (bindings.qualified qualifier).get? name := by
    intro name hname
    have hone : ∀ s q, BroughtIn w.past c s q name → s = source ∧ q = qualifier :=
      fun s q hother => hapart.apart _ _ _ _ _ hname hother
    rw [h.bindings c hc, binding?_of_one_import hone (hapart.undefined _ _ _ hname), hshown]
  constructor
  · intro n v hn
    have hqualified : (bindings.qualified qualifier).get? (qualifier ++ n) = some v :=
      Table.get?_qualified.mpr ⟨n, rfl, hn⟩
    have hname := broughtIn_of_lastTaken? htaken (Table.contains_iff.mpr ⟨v, hqualified⟩)
    rw [hown _ hname, hqualified]
  · intro name v hname hbound
    rw [hown name hname] at hbound
    exact Table.get?_qualified.mp hbound
  · intro name
    rw [h.names, hshown, Table.mem_keys, Table.contains_qualified]

section Users

variable {users : List (ContextId × String)}

/-- Taking over from a source does not change the source, unless it is done for itself. -/
theorem context_foldl_reimport (hothers : ∀ user ∈ users, user.1.index ≠ source.index)
    (w : Chronicle) :
    (users.foldl (fun w user => w.reimport user.1 source user.2) w).store.context source =
      w.store.context source := by
  let Kept : Chronicle → Prop := fun w' => w'.store.context source = w.store.context source
  refine List.foldlRecOn (motive := Kept) _ _ rfl fun w' hw' user hmem => ?_
  exact (Store.context_updateContext_ne (hothers user hmem).symm _).trans hw'

/-- After taking over from a source for some users, each has taken over its bindings last; so has
who had them before. -/
theorem lastTaken?_foldl_reimport (hothers : ∀ user ∈ users, user.1.index ≠ source.index)
    (w : Chronicle) (h : (c, qualifier) ∈ users ∨
      lastTaken? w.past c source qualifier = some (w.store.context source).table) :
    lastTaken? (users.foldl (fun w user => w.reimport user.1 source user.2) w).past c source
      qualifier = some (w.store.context source).table := by
  induction users generalizing w with
  | nil => exact h.resolve_left List.not_mem_nil
  | cons first rest ih =>
      let next := w.reimport first.1 source first.2
      have hsource : next.store.context source = w.store.context source :=
        Store.context_updateContext_ne (hothers first List.mem_cons_self).symm _
      have hrest := ih (fun user hmem => hothers user (List.mem_cons_of_mem _ hmem)) next
      rw [hsource] at hrest
      apply hrest
      -- the first user has the bindings now, and whoever is not the first keeps its state
      have hnext : lastTaken? next.past c source qualifier =
          if first.1.index = c.index ∧ source = source ∧ first.2 = qualifier then
            some (w.store.context source).table
          else lastTaken? w.past c source qualifier := lastTaken?_tookOver ..
      rw [hnext]
      split
      · exact .inr rfl
      case isFalse hfirst =>
        refine h.imp (fun hmem => ?_) id
        rcases List.mem_cons.mp hmem with rfl | hmem
        · exact absurd ⟨rfl, rfl, rfl⟩ hfirst
        · exact hmem

end Users

/-- When a context that imports nothing from itself is propagated, its users are up to date. -/
theorem Faithful.usersUpToDate (h : Faithful w) (hnever : NeverFromItself w.past)
    (source : ContextId) : (w.perform (.propagate source)).UsersUpToDate source := by
  rw [perform_propagate]
  have hothers : ∀ user ∈ Store.usersOf (w.store.context source).usages,
      user.1.index ≠ source.index := by
    intro user hmem
    obtain ⟨d, s, bindings, hpast, hd, hs⟩ :=
      h.users source user.1 user.2 (Store.importedBy_of_mem_usersOf hmem)
    rw [← hd, ← hs]
    exact of_decide_eq_false (hnever _ hpast)
  have hsource : (w.propagate source).store.context source = w.store.context source :=
    context_foldl_reimport hothers w
  intro u hu qualifier hqualifier
  rw [hsource] at hu ⊢
  have huser : (u.importer, qualifier) ∈ Store.usersOf (w.store.context source).usages :=
    Store.mem_usersOf.mpr ⟨u, hu, rfl, hqualifier⟩
  exact lastTaken?_foldl_reimport hothers w (.inl huser)

/-- Imported bindings are an exact view of their sources. Take any run in which no context imports
itself, and in it a context whose bindings are never replaced and whose imports stay apart. Each
of its records shows exactly the bindings that were taken over last, and the names that are
defined in it keep their values. When a source is propagated, everyone who imports it has
taken over its present bindings last. -/
theorem Run.imported_view (h : Run w) (hnever : NeverFromItself w.past) :
    (∀ c, NeverReplaced w.past c → ImportsApart w.past c →
      (∀ r ∈ (w.store.context c).imports, ∃ bindings,
        lastTaken? w.past c r.source r.qualifier = some bindings ∧
          w.Shows c r.source r.qualifier bindings) ∧
      ∀ name v, lastDefined? w.past c name = some v → w.store.own? c name = some v) ∧
    ∀ source, (w.perform (.propagate source)).UsersUpToDate source := by
  have hfaithful := h.faithful
  refine ⟨fun c hc hapart => ⟨fun r hr => ?_, fun name v hv => ?_⟩,
    hfaithful.usersUpToDate hnever⟩
  · obtain ⟨bindings, htaken⟩ := Option.isSome_iff_exists.mp (hfaithful.records c r hr)
    exact ⟨bindings, htaken, hfaithful.shows hc hapart htaken⟩
  · have hnone : ∀ s q, ¬ BroughtIn w.past c s q name :=
      fun s q hname => hapart.undefined s q name hname (definedIn_of_lastDefined? hv)
    rw [hfaithful.bindings c hc, binding?_of_no_import hnone, hv]

/-- A context takes over from a source, whose bindings are then replaced and propagated. -/
def changedSource : Chronicle :=
  performAll ⟨.empty, []⟩
    [.new "s" none, .new "c" none, .define ⟨0, "s"⟩ "a" (.int 1), .define ⟨1, "c"⟩ "b" (.int 2),
      .importFrom ⟨1, "c"⟩ ⟨0, "s"⟩ "m.", .replace ⟨0, "s"⟩ [("d", .int 3)],
      .propagate ⟨0, "s"⟩]

theorem importsApart_changedSource : ImportsApart changedSource.past ⟨1, "c"⟩ := by
  have hpast : changedSource.past =
      [.tookOver ⟨1, "c"⟩ ⟨0, "s"⟩ "m." [("d", .int 3)], .replaced ⟨0, "s"⟩,
        .tookOver ⟨1, "c"⟩ ⟨0, "s"⟩ "m." [("a", .int 1)], .defined ⟨1, "c"⟩ "b" (.int 2),
        .defined ⟨0, "s"⟩ "a" (.int 1)] := by
    decide +kernel
  -- there is one import, and what is defined in the importer does not have its qualifier
  have htaken : ∀ deed ∈ changedSource.past, ∀ s q T, deed.taken? ⟨1, "c"⟩ s q = some T →
      s = ⟨0, "s"⟩ ∧ q = "m." := by
    rw [hpast]
    simp [Deed.taken?]
  have hdefined : ∀ deed ∈ changedSource.past, ∀ name v,
      deed.definition? ⟨1, "c"⟩ name = some v → name = "b" := by
    rw [hpast]
    simp [Deed.definition?]
  constructor
  · rintro s q s' q' name ⟨deed, hmem, T, h, _⟩ ⟨deed', hmem', T', h', _⟩
    obtain ⟨rfl, rfl⟩ := htaken deed hmem s q T h
    exact htaken deed' hmem' s' q' T' h'
  · rintro s q name ⟨deed, hmem, T, h, hname⟩ ⟨deed', hmem', v, h'⟩
    obtain ⟨rfl, rfl⟩ := htaken deed hmem s q T h
    obtain ⟨n, hn, _⟩ := Table.contains_qualified.mp hname
    rw [hdefined deed' hmem' name v h'] at hn
    have hfirst := congrArg (fun name : String => name.toList.head?) hn
    simp at hfirst

/-- The importer has the new binding and its own, and not the one that was replaced. -/
theorem imported_view_of_changed_source :
    changedSource.store.own? ⟨1, "c"⟩ "m.d" = some (.int 3) ∧
      changedSource.store.own? ⟨1, "c"⟩ "b" = some (.int 2) ∧
      changedSource.store.own? ⟨1, "c"⟩ "m.a" = none ∧
      (changedSource.perform (.propagate ⟨0, "s"⟩)).UsersUpToDate ⟨0, "s"⟩ := by
  have hrun : Run changedSource := Run.performAll (.start rfl) (by decide +kernel)
  obtain ⟨hview, hpropagated⟩ := hrun.imported_view (by decide +kernel)
  obtain ⟨hshows, hown⟩ := hview ⟨1, "c"⟩ (by decide +kernel) importsApart_changedSource
  have himports : (changedSource.store.context ⟨1, "c"⟩).imports =
      [⟨⟨0, "s"⟩, "m.", ["m.d"]⟩] := rfl
  rw [himports] at hshows
  obtain ⟨bindings, htaken, hshown⟩ := hshows _ List.mem_cons_self
  have hbindings : bindings = [("d", .int 3)] := by
    have hlast : lastTaken? changedSource.past ⟨1, "c"⟩ ⟨0, "s"⟩ "m." =
        some [("d", .int 3)] := by decide +kernel
    exact Option.some.inj (htaken.symm.trans hlast)
  refine ⟨?_, hown "b" (.int 2) (by decide +kernel), by decide +kernel, hpropagated ⟨0, "s"⟩⟩
  apply hshown.bound "d"
  rw [hbindings]
  decide +kernel

end Chronicle

/-! ## Names that several imports share -/

/-- Whether taking over from a source dropped a name of a context that nothing has given a value
since. -/
inductive TookAway (c source : ContextId) (qualifier name : String) : List Deed → Prop where
  | now {importer : ContextId} {bindings : Table Value} {older : List Deed} :
      importer.index = c.index → (lastShown older c source qualifier).contains name = true →
      (bindings.qualified qualifier).contains name = false →
      TookAway c source qualifier name (.tookOver importer source qualifier bindings :: older)
  | since {deed : Deed} {older : List Deed} :
      deed.given? c name = none → TookAway c source qualifier name older →
      TookAway c source qualifier name (deed :: older)

section Past

variable {past older : List Deed} {c source : ContextId} {qualifier name : String}

theorem TookAway.broughtIn (h : TookAway c source qualifier name past) :
    BroughtIn past c source qualifier name := by
  induction h with
  | now _ hshown _ => exact (broughtIn_of_lastShown hshown).cons _
  | since _ _ ih => exact ih.cons _

/-- What was taken away is not bound. -/
theorem TookAway.unbound (h : TookAway c source qualifier name past) :
    binding? c name past = none := by
  induction h with
  | now hc hshown hnot =>
      have hgone := Option.not_isSome_iff_eq_none.mp (Bool.eq_false_iff.mp hnot)
      rw [binding?, given?_tookOver hc, hgone, Deed.drops, hc, hshown]
      simp
  | since hgiven _ ih =>
      rw [binding?, hgiven, ih]
      simp

/-- A name that an import shows is unbound only where another import took it away. -/
theorem tookAway_of_unbound (hshown : (lastShown past c source qualifier).contains name = true)
    (hunbound : binding? c name past = none) :
    ∃ s q, (s ≠ source ∨ q ≠ qualifier) ∧ TookAway c s q name past := by
  induction past with
  | nil => cases hshown
  | cons deed older ih =>
      rw [binding?, Option.or_eq_none_iff] at hunbound
      obtain ⟨hgiven, hrest⟩ := hunbound
      -- before a deed that does not drop the name it was unbound already
      have hbefore : deed.drops c name older = false →
          (lastShown older c source qualifier).contains name = true →
          ∃ s q, (s ≠ source ∨ q ≠ qualifier) ∧ TookAway c s q name (deed :: older) := by
        intro hdrops hshown
        rw [hdrops] at hrest
        obtain ⟨s, q, hother, htook⟩ := ih hshown hrest
        exact ⟨s, q, hother, .since hgiven htook⟩
      cases deed with
      | defined d n v => exact hbefore rfl (by rwa [lastShown_cons_of_none rfl] at hshown)
      | replaced d => exact hbefore rfl (by rwa [lastShown_cons_of_none rfl] at hshown)
      | tookOver d s q bindings =>
          rw [lastShown_tookOver] at hshown
          split at hshown
          case isTrue hsame =>
            -- the import itself would give the name a value
            obtain ⟨hd, rfl, rfl⟩ := hsame
            rw [given?_tookOver hd] at hgiven
            rw [Table.contains, hgiven] at hshown
            cases hshown
          case isFalse hother =>
            cases hdrops : (Deed.tookOver d s q bindings).drops c name older with
            | false => exact hbefore hdrops hshown
            | true =>
                rw [Deed.drops, Bool.and_eq_true, decide_eq_true_eq] at hdrops
                obtain ⟨hd, hold⟩ := hdrops
                rw [given?_tookOver hd] at hgiven
                refine ⟨s, q, ?_, .now hd hold (by rw [Table.contains, hgiven]; rfl)⟩
                by_cases hs : s = source
                · exact .inr fun hq => hother ⟨hd, hs, hq⟩
                · exact .inl hs

end Past

namespace Chronicle

variable {w : Chronicle} {c source : ContextId} {qualifier name : String}

/-- A recorded name is lost to other imports only. Take any run, and in it a context whose bindings
are never replaced. A name that an import has recorded is unbound exactly when another import of
the context took it away and nothing has given it a value since; in particular it is bound when
no other import ever brought it in. -/
theorem Run.recorded_name_unbound_iff (h : Run w) (hc : NeverReplaced w.past c)
    (hname : name ∈ importedNames source qualifier (w.store.context c).imports) :
    (w.store.own? c name = none ↔
      ∃ s q, (s ≠ source ∨ q ≠ qualifier) ∧ TookAway c s q name w.past) ∧
    ((∀ s q, BroughtIn w.past c s q name → s = source ∧ q = qualifier) →
      ∃ v, w.store.own? c name = some v) := by
  have hfaithful := h.faithful
  have hshown : (lastShown w.past c source qualifier).contains name = true := by
    rwa [hfaithful.names, Table.mem_keys] at hname
  have hiff : w.store.own? c name = none ↔
      ∃ s q, (s ≠ source ∨ q ≠ qualifier) ∧ TookAway c s q name w.past := by
    rw [hfaithful.bindings c hc]
    constructor
    · exact tookAway_of_unbound hshown
    · rintro ⟨s, q, _, htook⟩
      exact htook.unbound
  refine ⟨hiff, fun hone => ?_⟩
  rw [← Option.ne_none_iff_exists']
  intro hunbound
  obtain ⟨s, q, hother, htook⟩ := hiff.mp hunbound
  obtain ⟨rfl, rfl⟩ := hone s q htook.broughtIn
  rcases hother with hs | hq
  · exact hs rfl
  · exact hq rfl

/-- A context takes over one name from two sources, and then anew from the one that has lost it. -/
def sharedName : Chronicle :=
  performAll ⟨.empty, []⟩
    [.new "s" none, .new "t" none, .new "c" none, .define ⟨0, "s"⟩ "a" (.int 1),
      .define ⟨1, "t"⟩ "a" (.int 2), .importFrom ⟨2, "c"⟩ ⟨0, "s"⟩ "m.",
      .importFrom ⟨2, "c"⟩ ⟨1, "t"⟩ "m.", .replace ⟨0, "s"⟩ [],
      .reimport ⟨2, "c"⟩ ⟨0, "s"⟩ "m."]

theorem run_sharedName : Run sharedName :=
  Run.performAll (.start rfl) (by decide +kernel)

theorem neverReplaced_sharedName : NeverReplaced sharedName.past ⟨2, "c"⟩ := by
  decide +kernel

/-- The name that the second source still has was taken away by an import of the first. -/
theorem recorded_name_unbound_of_shared_name :
    ∃ s q, (s ≠ ⟨1, "t"⟩ ∨ q ≠ "m.") ∧ TookAway ⟨2, "c"⟩ s q "m.a" sharedName.past := by
  have hname : "m.a" ∈ importedNames ⟨1, "t"⟩ "m." (sharedName.store.context ⟨2, "c"⟩).imports := by
    decide +kernel
  exact (run_sharedName.recorded_name_unbound_iff neverReplaced_sharedName hname).1.mp
    (by decide +kernel)

/-- A name can be recorded by an import and be unbound. -/
theorem recorded_name_is_lost :
    Run sharedName ∧ NeverReplaced sharedName.past ⟨2, "c"⟩ ∧
      "m.a" ∈ importedNames ⟨1, "t"⟩ "m." (sharedName.store.context ⟨2, "c"⟩).imports ∧
      sharedName.store.own? ⟨2, "c"⟩ "m.a" = none :=
  ⟨run_sharedName, neverReplaced_sharedName, by decide +kernel, by decide +kernel⟩

end Chronicle

end DispatchLisp
