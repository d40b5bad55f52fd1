import DispatchLisp.Proofs.Context.BoundNames
import DispatchLisp.Proofs.Context.Root

/-!
# Proofs.Context.Shadowing — the nearest binding of a name hides those further out

A forest of contexts comes of new contexts, each inside one that is there already, and of changes
to their bindings in any order. A parent is therefore older than what is inside it
(`Forest.parentsOlder`), the links to parents end at a root, and the chain that names are searched
along is the way that these links lead (`ParentsOlder.outwards_chain`).

Main statement: `Forest.lookup_shadows`. Looking for a context and looking for a value stop at the
same frame, the first one on the way outwards that binds the name. A new binding is seen from
everywhere inside its frame where no frame in between binds the name, and from nowhere else.
-/

namespace DispatchLisp

/-- Two searches of a list agree when they differ only in places behind the first hit. -/
theorem findSome?_override {α β : Type} {p : α → Prop} {f g : α → Option β}
    (hsame : ∀ a, ¬ p a → g a = f a) {items : List α}
    (h : ∀ front a back, items = front ++ a :: back → p a → ∃ b ∈ front, f b ≠ none) :
    items.findSome? g = items.findSome? f := by
  induction items with
  | nil => rfl
  | cons a rest ih =>
      have ha : ¬ p a := by
        intro hpa
        obtain ⟨b, hb, _⟩ := h [] a rest rfl hpa
        cases hb
      rw [List.findSome?_cons, List.findSome?_cons, hsame a ha]
      cases hfound : f a with
      | some b => rfl
      | none =>
          -- a hit in front of a place in the rest is not here
          apply ih
          intro front b back hrest hpb
          obtain ⟨e, he, hhit⟩ := h (a :: front) b back (by rw [hrest, List.cons_append]) hpb
          rcases List.mem_cons.mp he with rfl | he
          · exact absurd hfound hhit
          · exact ⟨e, he, hhit⟩

namespace Store

/-! ## The way outwards -/

/-- The contexts on the way from one outwards, as the links to parents lead, up to a root. -/
inductive Outwards (s : Store) : ContextId → List ContextId → Prop where
  | root {d : ContextId} : (s.context d).parent = none → Outwards s d [d]
  | inside {d outer : ContextId} {way : List ContextId} :
      (s.context d).parent = some outer → Outwards s outer way → Outwards s d (d :: way)

/-- Whether a context is the first one on the way outwards from another that binds a name. -/
def BindsFirst (s : Store) (d f : ContextId) (name : String) : Prop :=
  ∃ inner outer, s.Outwards d (inner ++ f :: outer) ∧ (s.own? f name).isSome = true ∧
    ∀ e ∈ inner, s.own? e name = none

/-- Whether a context lies on the way outwards from another, and no frame before it binds a
name. -/
def Uncovered (s : Store) (d c : ContextId) (name : String) : Prop :=
  ∃ inner frame outer, s.Outwards d (inner ++ frame :: outer) ∧ frame.index = c.index ∧
    ∀ e ∈ inner, s.own? e name = none

/-- Whether every context is younger than its parent. -/
def ParentsOlder (s : Store) : Prop :=
  ∀ d outer, (s.context d).parent = some outer → outer.index < d.index

section

variable {s s' : Store} {d : ContextId} {way : List ContextId}

theorem Outwards.unique (h : s.Outwards d way) {way' : List ContextId}
    (h' : s.Outwards d way') : way = way' := by
  induction h generalizing way' with
  | root hroot =>
      cases h' with
      | root => rfl
      | inside hparent => rw [hroot] at hparent; cases hparent
  | @inside d outer way hparent _ ih =>
      cases h' with
      | root hroot => rw [hroot] at hparent; cases hparent
      | inside hparent' hrest =>
          rw [hparent] at hparent'
          cases hparent'
          rw [ih hrest]

/-- A bound on the steps is no bound on the chain when it is at least the age of the context. -/
theorem ParentsOlder.outwards_chainWithin (h : s.ParentsOlder) {further : Nat}
    (hfurther : d.index ≤ further) : s.Outwards d (s.chainWithin further d) := by
  induction further generalizing d with
  | zero =>
      rw [chainWithin]
      apply Outwards.root
      cases hparent : (s.context d).parent with
      | none => rfl
      | some outer =>
          have := h d outer hparent
          omega
  | succ further ih =>
      rw [chainWithin]
      cases hparent : (s.context d).parent with
      | none => exact .root hparent
      | some outer =>
          have holder := h d outer hparent
          exact .inside hparent (ih (by omega))

/-- The chain that names are searched along is the whole way outwards. -/
theorem ParentsOlder.outwards_chain (h : s.ParentsOlder) (d : ContextId) :
    s.Outwards d (s.chain d) :=
  h.outwards_chainWithin (Nat.le_refl d.index)

theorem ParentsOlder.chain_eq_iff (h : s.ParentsOlder) : s.Outwards d way ↔ s.chain d = way := by
  constructor
  · exact (h.outwards_chain d).unique
  · rintro rfl
    exact h.outwards_chain d

theorem chainWithin_of_parents (h : ∀ e, (s'.context e).parent = (s.context e).parent)
    (further : Nat) (d : ContextId) : s'.chainWithin further d = s.chainWithin further d := by
  induction further generalizing d with
  | zero => rfl
  | succ further ih =>
      rw [chainWithin, chainWithin, h]
      cases (s.context d).parent with
      | none => rfl
      | some outer => exact congrArg (d :: ·) (ih outer)

/-! ## Searching -/

/-- The search for a context finds the first one on the way that binds the name. -/
theorem ParentsOlder.find?_eq_some_iff (h : s.ParentsOlder) {f : ContextId} {name : String} :
    s.find? d name = some f ↔ s.BindsFirst d f name := by
  rw [find?, List.find?_eq_some_iff_append]
  constructor
  · rintro ⟨hbinds, inner, outer, hchain, hinner⟩
    refine ⟨inner, outer, h.chain_eq_iff.mpr hchain, hbinds, ?_⟩
    intro e he
    simpa using hinner e he
  · rintro ⟨inner, outer, hway, hbinds, hinner⟩
    refine ⟨hbinds, inner, outer, h.chain_eq_iff.mp hway, ?_⟩
    intro e he
    rw [hinner e he]
    rfl

theorem lookup_eq_ok_iff {name : String} {v : Value} :
    s.lookup d name = .ok v ↔ s.lookup? d name = some v := by
  rw [lookup]
  cases s.lookup? d name with
  | none => simp
  | some found => simp

/-- A name has a value where a context is found that binds it, and the value is the one there. -/
theorem lookup_of_find? {f : ContextId} {name : String} (h : s.find? d name = some f) :
    ∃ v, s.own? f name = some v ∧ s.lookup d name = .ok v := by
  have hbinds : (s.own? f name).isSome = true :=
    List.find?_some (p := fun e => (s.own? e name).isSome) h
  obtain ⟨v, hv⟩ := Option.isSome_iff_exists.mp hbinds
  refine ⟨v, hv, ?_⟩
  rw [lookup_eq_ok_iff, lookup?_eq, h]
  exact hv

theorem exists_lookup_iff {name : String} :
    (∃ v, s.lookup d name = .ok v) ↔ ∃ f, s.find? d name = some f := by
  constructor
  · rintro ⟨v, hv⟩
    rw [lookup_eq_ok_iff, lookup?_eq] at hv
    obtain ⟨f, hf, _⟩ := Option.bind_eq_some_iff.mp hv
    exact ⟨f, hf⟩
  · rintro ⟨f, hf⟩
    obtain ⟨v, _, hv⟩ := lookup_of_find? hf
    exact ⟨v, hv⟩

/-! ## One more binding -/

theorem own?_define_cases {c : ContextId} (hc : s.HasContext c) (name : String) (v : Value)
    (e : ContextId) (other : String) :
    (s.define c name v).own? e other =
      if e.index = c.index ∧ name = other then some v else s.own? e other := by
  by_cases he : e.index = c.index
  · have hsame : (s.define c name v).own? e other = (s.define c name v).own? c other := by
      rw [own?, own?, context_of_index _ he]
    have hbefore : s.own? e other = s.own? c other := by
      rw [own?, own?, context_of_index _ he]
    rw [hsame, hbefore, own?_define hc]
    simp only [he, true_and]
  · rw [own?, define, context_updateContext_ne he, if_neg fun h => he h.1]
    rfl

theorem chain_define (c : ContextId) (name : String) (v : Value) (d : ContextId) :
    (s.define c name v).chain d = s.chain d := by
  apply chainWithin_of_parents
  intro e
  apply context_updateContext_part ContextCell.parent
  intro cell
  rfl

/-- A new binding is what the name means wherever the frame is uncovered. -/
theorem ParentsOlder.lookup?_define_of_uncovered (h : s.ParentsOlder) {c : ContextId}
    (hc : s.HasContext c) {name : String} (v : Value) (hd : s.Uncovered d c name) :
    (s.define c name v).lookup? d name = some v := by
  obtain ⟨inner, frame, outer, hway, hframe, hinner⟩ := hd
  rw [lookup?, chain_define, h.chain_eq_iff.mp hway, List.findSome?_append]
  have hnew : (s.define c name v).own? frame name = some v := by
    rw [own?_define_cases hc, if_pos ⟨hframe, rfl⟩]
  have hfront : ∀ e ∈ inner, (s.define c name v).own? e name = none ∨
      (s.define c name v).own? e name = some v := by
    intro e he
    rw [own?_define_cases hc, hinner e he]
    split
    · exact .inr rfl
    · exact .inl rfl
  cases hfound : inner.findSome? fun e => (s.define c name v).own? e name with
  | none =>
      rw [List.findSome?_cons, hnew]
      rfl
  | some w =>
      -- nothing before the frame bound the name, so what is found there is the new binding too
      obtain ⟨e, he, hw⟩ := List.exists_of_findSome?_eq_some hfound
      rcases hfront e he with hnone | hsome
      · rw [hnone] at hw
        cases hw
      · rw [← hw, hsome]
        rfl

/-- Every other name, and the name wherever the frame is covered, means what it meant. -/
theorem ParentsOlder.lookup?_define_of_covered (h : s.ParentsOlder) {c : ContextId}
    (hc : s.HasContext c) {name other : String} (v : Value)
    (hd : ¬ (other = name ∧ s.Uncovered d c name)) :
    (s.define c name v).lookup? d other = s.lookup? d other := by
  rw [lookup?, lookup?, chain_define]
  apply findSome?_override (p := fun e => e.index = c.index ∧ name = other)
  · intro e he
    rw [own?_define_cases hc, if_neg he]
  · rintro inner frame outer hchain ⟨hframe, rfl⟩
    by_contra hnone
    push Not at hnone
    exact hd ⟨rfl, inner, frame, outer, h.chain_eq_iff.mpr hchain, hframe, hnone⟩

end

/-! ## Forests -/

/-- The stores whose contexts were made one after another, each as a root or inside one that was
there, and whose bindings were changed on the way: one name, several, all, or those that come from
another context. What else the store holds may change too. -/
inductive Forest : Store → Prop where
  | start {s : Store} : s.contexts = #[] → Forest s
  | new {s : Store} (name : String) (parent : Option ContextId) :
      Forest s → (∀ outer ∈ parent, s.HasContext outer) → Forest (s.newContext name parent).2
  | define {s : Store} (c : ContextId) (name : String) (v : Value) :
      Forest s → Forest (s.define c name v)
  | update {s : Store} (c : ContextId) (entries : List (String × Value)) :
      Forest s → Forest (s.defineAll c entries)
  | replace {s : Store} (c : ContextId) (table : Table Value) :
      Forest s → Forest (s.replaceTable c table)
  | importFrom {s : Store} (importer source : ContextId) (qualifier : String) :
      Forest s → Forest (s.importFrom importer source qualifier)
  | reimport {s : Store} (importer source : ContextId) (qualifier : String) :
      Forest s → Forest (s.reimport importer source qualifier)
  | elsewhere {s s' : Store} : Forest s → s'.contexts = s.contexts → Forest s'

namespace ParentsOlder

variable {s : Store}

/-- A change that leaves the parent alone keeps every parent older. -/
theorem updateContext (h : s.ParentsOlder) {id : ContextId} {f : ContextCell → ContextCell}
    (hf : ∀ cell, (f cell).parent = cell.parent) : (s.updateContext id f).ParentsOlder := by
  intro d outer hparent
  rw [context_updateContext_part ContextCell.parent hf] at hparent
  exact h d outer hparent

theorem newContext (h : s.ParentsOlder) (name : String) {parent : Option ContextId}
    (hparent : ∀ outer ∈ parent, s.HasContext outer) :
    (s.newContext name parent).2.ParentsOlder := by
  intro d outer hd
  by_cases hold : s.HasContext d
  · rw [context_newContext hold] at hd
    exact h d outer hd
  · by_cases hnew : d.index = s.contexts.size
    · -- the new context is younger than all that were there
      rw [context_newContext_new hnew] at hd
      have hthere := hparent outer hd
      unfold HasContext at hthere
      omega
    · have hnone : ¬ (s.newContext name parent).2.HasContext d := by
        rw [hasContext_newContext_iff]
        exact not_or.mpr ⟨hold, hnew⟩
      rw [context_of_not_hasContext hnone] at hd
      cases hd

theorem reimport (h : s.ParentsOlder) (importer source : ContextId) (qualifier : String) :
    (s.reimport importer source qualifier).ParentsOlder := by
  apply h.updateContext
  intro cell
  rfl

/-- The importer takes over, and then the source is told of it. -/
theorem importFrom (h : s.ParentsOlder) (importer source : ContextId) (qualifier : String) :
    (s.importFrom importer source qualifier).ParentsOlder := by
  intro d outer hparent
  rw [context_importFrom_part ContextCell.parent fun _ _ => rfl] at hparent
  exact h.reimport importer source qualifier d outer hparent

end ParentsOlder

namespace Forest

variable {s : Store}

/-- In a forest every context is younger than its parent. -/
theorem parentsOlder (h : s.Forest) : s.ParentsOlder := by
  induction h with
  | @start s hempty =>
      intro d outer hparent
      have hnone : ¬ s.HasContext d := by
        unfold HasContext
        rw [hempty]
        exact Nat.not_lt_zero _
      rw [context_of_not_hasContext hnone] at hparent
      cases hparent
  | new name parent _ hparent ih => exact ih.newContext name hparent
  -- bindings and records change, and parents do not
  | define c name v _ ih =>
      apply ih.updateContext
      intro cell
      rfl
  | update c entries _ ih =>
      apply ih.updateContext
      intro cell
      rfl
  | replace c table _ ih =>
      apply ih.updateContext
      intro cell
      rfl
  | importFrom importer source qualifier _ ih => exact ih.importFrom importer source qualifier
  | reimport importer source qualifier _ ih => exact ih.reimport importer source qualifier
  | elsewhere _ hcontexts ih =>
      intro d outer hparent
      rw [context_congr hcontexts] at hparent
      exact ih d outer hparent

/-- Look-up obeys shadowing in every forest. A name has a value exactly where a context is found
that binds it; that context is the first one on the way outwards whose own table has the name, and
the value is the one in that table. After a name is bound in a context it means the new value
wherever the context lies on the way outwards and no frame before it binds the name. Everywhere
else, and for all other names, a look-up comes to what it came to before. -/
theorem lookup_shadows (h : s.Forest) :
    (∀ d name,
      ((∃ v, s.lookup d name = .ok v) ↔ ∃ f, s.find? d name = some f) ∧
      (∀ f, s.find? d name = some f ↔ s.BindsFirst d f name) ∧
      ∀ f, s.find? d name = some f → ∃ v, s.own? f name = some v ∧ s.lookup d name = .ok v) ∧
    ∀ c name v, s.HasContext c → ∀ d other,
      (other = name → s.Uncovered d c name → (s.define c name v).lookup d other = .ok v) ∧
      (¬ (other = name ∧ s.Uncovered d c name) →
        (s.define c name v).lookup d other = s.lookup d other) := by
  have holder := h.parentsOlder
  constructor
  · intro d name
    exact ⟨exists_lookup_iff, fun f => holder.find?_eq_some_iff, fun f => lookup_of_find?⟩
  · intro c name v hc d other
    constructor
    · rintro rfl hd
      exact lookup_eq_ok_iff.mpr (holder.lookup?_define_of_uncovered hc v hd)
    · intro hd
      rw [lookup, lookup, holder.lookup?_define_of_covered hc v hd]

end Forest

/-- Three contexts inside each other; the outermost one binds a name, and the innermost one
another. -/
def nestedContexts : Store :=
  let s := (Store.empty.newContext "a" none).2
  let s := (s.newContext "b" (some ⟨0, "a"⟩)).2
  let s := (s.newContext "c" (some ⟨1, "b"⟩)).2
  (s.define ⟨0, "a"⟩ "x" (.int 1)).define ⟨2, "c"⟩ "y" (.int 2)

theorem forest_nestedContexts : nestedContexts.Forest := by
  have ha : (Store.empty.newContext "a" none).2.Forest := .new _ _ (.start rfl) (by simp)
  have hb := Forest.new "b" (some ⟨0, "a"⟩) ha (by decide)
  have hc := Forest.new "c" (some ⟨1, "b"⟩) hb (by decide)
  exact .define _ _ _ (.define _ _ _ hc)

/-- A binding in the middle hides the outer one from the innermost context, and is itself hidden
by the innermost one. -/
theorem lookup_shadows_of_nested_contexts :
    nestedContexts.find? ⟨2, "c"⟩ "x" = some ⟨0, "a"⟩ ∧
    nestedContexts.lookup ⟨2, "c"⟩ "x" = .ok (.int 1) ∧
    (nestedContexts.define ⟨1, "b"⟩ "x" (.int 3)).lookup ⟨2, "c"⟩ "x" = .ok (.int 3) ∧
    (nestedContexts.define ⟨1, "b"⟩ "y" (.int 3)).lookup ⟨2, "c"⟩ "y" = .ok (.int 2) := by
  obtain ⟨hsearch, hdefine⟩ := forest_nestedContexts.lookup_shadows
  have hway : nestedContexts.Outwards ⟨2, "c"⟩ [⟨2, "c"⟩, ⟨1, "b"⟩, ⟨0, "a"⟩] :=
    .inside rfl (.inside rfl (.root rfl))
  have hfind : nestedContexts.find? ⟨2, "c"⟩ "x" = some ⟨0, "a"⟩ :=
    ((hsearch _ _).2.1 _).mpr ⟨[⟨2, "c"⟩, ⟨1, "b"⟩], [], hway, rfl, by decide⟩
  refine ⟨hfind, ?_, ?_, ?_⟩
  · obtain ⟨v, hv, hlookup⟩ := (hsearch _ _).2.2 _ hfind
    cases hv
    exact hlookup
  · exact (hdefine ⟨1, "b"⟩ "x" (.int 3) (by decide) _ _).1 rfl
      ⟨[⟨2, "c"⟩], ⟨1, "b"⟩, [⟨0, "a"⟩], hway, rfl, by decide⟩
  · rw [(hdefine ⟨1, "b"⟩ "y" (.int 3) (by decide) _ _).2]
    · rfl
    · -- the middle context is the second on the way, and the first one binds the name
      rintro ⟨_, inner, frame, outer, hother, hframe, hinner⟩
      have hsplit := hway.unique hother
      rcases inner with _ | ⟨first, inner⟩
      · cases hsplit
        exact absurd hframe (by decide)
      · rw [List.cons_append, List.cons.injEq] at hsplit
        have hfirst := hinner first List.mem_cons_self
        rw [← hsplit.1] at hfirst
        exact absurd hfirst (by decide)

end Store

end DispatchLisp
