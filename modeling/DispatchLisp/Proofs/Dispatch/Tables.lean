import DispatchLisp.Proofs.Context.Links
import DispatchLisp.Proofs.Dispatch.Shape
import DispatchLisp.Proofs.Except
import DispatchLisp.Proofs.Invariant
import DispatchLisp.Proofs.Store.Functions
import Mathlib.Data.List.Induction

/-!
# Proofs.Dispatch.Tables — the tables of functions

The table of a function is what adding patterns one after another makes of no patterns. Such a
table has each shape once, in the order in which the shapes came first, and for each shape the
pattern that came last (`summarizes_tableOf`).

Functions are made with one pattern, copied with one more, and extended in place; in all of these
ways a table that patterns were added to stays one, so every table in a session is one
(`Session.tables_in_order`). Its patterns come from written parameter lists, in which the marker
for the rest of the arguments stands only in front of the last name.
-/

namespace DispatchLisp

/-! ## Sequences of patterns -/

/-- The table that adding patterns one after another makes. -/
def tableOf (ps : List Pattern) : List Pattern :=
  ps.foldl (fun table p => addPattern p table) []

theorem tableOf_append (ps : List Pattern) (p : Pattern) :
    tableOf (ps ++ [p]) = addPattern p (tableOf ps) := by
  rw [tableOf, List.foldl_append]
  rfl

/-- When a shape came first in a sequence of patterns. -/
def firstAdded (ps : List Pattern) (q : Pattern) : Nat :=
  ps.findIdx fun p => p.sameShape q

/-- The pattern of a shape that came last in a sequence of patterns. -/
def lastAdded? (ps : List Pattern) (q : Pattern) : Option Pattern :=
  ps.reverse.find? fun p => p.sameShape q

/-- Whether a table has the shapes of a sequence of patterns, each once and in the order in which
they came first, and for each shape the pattern that came last. -/
structure Summarizes (ps table : List Pattern) : Prop where
  order : (table.map (firstAdded ps)).Pairwise (· < ·)
  covers : ∀ p ∈ ps, ∃ q ∈ table, q.sameShape p = true
  latest : ∀ q ∈ table, lastAdded? ps q = some q

section Sequences

variable {ps table : List Pattern} {p q : Pattern}

theorem mem_of_lastAdded? {r : Pattern} (h : lastAdded? ps q = some r) :
    r ∈ ps ∧ r.sameShape q = true := by
  constructor
  · exact List.mem_reverse.mp (List.mem_of_find?_eq_some h)
  · exact List.find?_some (p := fun p : Pattern => p.sameShape q) h

theorem lastAdded?_append (ps : List Pattern) (p q : Pattern) :
    lastAdded? (ps ++ [p]) q = if p.sameShape q then some p else lastAdded? ps q := by
  rw [lastAdded?, List.reverse_append, List.reverse_singleton, List.singleton_append,
    List.find?_cons]
  cases p.sameShape q <;> rfl

/-- One shape came first at one time, by whatever pattern it is given. -/
theorem firstAdded_congr (h : p.sameShape q = true) (ps : List Pattern) :
    firstAdded ps p = firstAdded ps q := by
  have hsame : ∀ r : Pattern, r.sameShape p = r.sameShape q := by
    intro r
    rw [Pattern.sameShape_comm r p, Pattern.sameShape_congr h, Pattern.sameShape_comm q r]
  simp only [firstAdded, hsame]

theorem firstAdded_lt (hp : p ∈ ps) (h : p.sameShape q = true) : firstAdded ps q < ps.length :=
  List.findIdx_lt_length_of_exists ⟨p, hp, h⟩

theorem firstAdded_append (hp : p ∈ ps) (h : p.sameShape q = true) (added : Pattern) :
    firstAdded (ps ++ [added]) q = firstAdded ps q := by
  have hlt := firstAdded_lt hp h
  rw [firstAdded, List.findIdx_append]
  exact if_pos hlt

namespace Summarizes

theorem mem (h : Summarizes ps table) (hq : q ∈ table) : q ∈ ps :=
  (mem_of_lastAdded? (h.latest q hq)).1

/-- A pattern that is added later leaves the times at which the shapes in the table came first. -/
theorem map_firstAdded_append (h : Summarizes ps table) (added : Pattern) {part : List Pattern}
    (hpart : ∀ q ∈ part, q ∈ table) :
    part.map (firstAdded (ps ++ [added])) = part.map (firstAdded ps) := by
  apply List.map_congr_left
  intro q hq
  exact firstAdded_append (h.mem (hpart q hq)) (Pattern.sameShape_refl q) added

/-- No two patterns in the table have one shape. -/
theorem distinct (h : Summarizes ps table) :
    table.Pairwise fun q r => q.sameShape r = false := by
  have horder := List.pairwise_map.mp h.order
  apply horder.imp
  intro q r hlt
  rw [Bool.eq_false_iff]
  intro hsame
  have := firstAdded_congr hsame ps
  omega

/-- A pattern of a shape that is there takes the place of the one with that shape. -/
theorem replace {earlier later : List Pattern} (h : Summarizes ps (earlier ++ q :: later))
    (hq : q.sameShape p = true) (hearlier : ∀ r ∈ earlier, r.sameShape p = false) :
    Summarizes (ps ++ [p]) (earlier ++ p :: later) := by
  have hold : q ∈ earlier ++ q :: later := List.mem_append_right _ List.mem_cons_self
  have hmem : q ∈ ps := h.mem hold
  constructor
  · -- the new pattern came first when the old one did
    have htime : firstAdded (ps ++ [p]) p = firstAdded ps q := by
      rw [firstAdded_append hmem hq, firstAdded_congr hq]
    have htimes : (earlier ++ p :: later).map (firstAdded (ps ++ [p])) =
        (earlier ++ q :: later).map (firstAdded ps) := by
      rw [List.map_append, List.map_append, List.map_cons, List.map_cons, htime,
        h.map_firstAdded_append p fun r hr => List.mem_append_left _ hr,
        h.map_firstAdded_append p fun r hr => List.mem_append_right _ (List.mem_cons_of_mem _ hr)]
    rw [htimes]
    exact h.order
  · intro r hr
    rcases List.mem_append.mp hr with hr | hr
    · obtain ⟨t, ht, htr⟩ := h.covers r hr
      rcases List.mem_append.mp ht with ht | ht
      · exact ⟨t, List.mem_append_left _ ht, htr⟩
      · rcases List.mem_cons.mp ht with rfl | ht
        · refine ⟨p, List.mem_append_right _ List.mem_cons_self, ?_⟩
          rwa [← Pattern.sameShape_congr hq]
        · exact ⟨t, List.mem_append_right _ (List.mem_cons_of_mem _ ht), htr⟩
    · rw [List.mem_singleton.mp hr]
      exact ⟨p, List.mem_append_right _ List.mem_cons_self, Pattern.sameShape_refl p⟩
  · -- all other patterns in the table have other shapes
    have hlater : ∀ r ∈ later, q.sameShape r = false := by
      have hdistinct := (List.pairwise_append.mp h.distinct).2.1
      exact (List.pairwise_cons.mp hdistinct).1
    intro r hr
    rw [lastAdded?_append]
    rcases List.mem_append.mp hr with hr | hr
    · rw [Pattern.sameShape_comm, hearlier r hr]
      exact h.latest r (List.mem_append_left _ hr)
    · rcases List.mem_cons.mp hr with rfl | hr
      · rw [Pattern.sameShape_refl]
        rfl
      · rw [← Pattern.sameShape_congr hq, hlater r hr]
        exact h.latest r (List.mem_append_right _ (List.mem_cons_of_mem _ hr))

/-- A pattern of a new shape comes last. -/
theorem append (h : Summarizes ps table) (hnew : ∀ q ∈ table, q.sameShape p = false) :
    Summarizes (ps ++ [p]) (table ++ [p]) := by
  constructor
  · rw [List.map_append, h.map_firstAdded_append p fun q hq => hq, List.pairwise_append]
    refine ⟨h.order, List.pairwise_singleton _ _, ?_⟩
    intro time htime last hlast
    obtain ⟨q, hq, rfl⟩ := List.mem_map.mp htime
    rw [List.map_singleton, List.mem_singleton] at hlast
    subst hlast
    have hlt : firstAdded ps q < ps.length := firstAdded_lt (h.mem hq) (Pattern.sameShape_refl q)
    -- nothing in the sequence has the new shape, for the table would have it too
    have hle : ps.length ≤ firstAdded (ps ++ [p]) p := by
      have hnone : ps.findIdx (fun r => r.sameShape p) = ps.length := by
        rw [List.findIdx_eq_length]
        intro r hr
        obtain ⟨t, ht, htr⟩ := h.covers r hr
        rw [← Pattern.sameShape_congr htr]
        exact hnew t ht
      rw [firstAdded, List.findIdx_append, hnone]
      simp
    omega
  · intro r hr
    rcases List.mem_append.mp hr with hr | hr
    · obtain ⟨t, ht, htr⟩ := h.covers r hr
      exact ⟨t, List.mem_append_left _ ht, htr⟩
    · rw [List.mem_singleton.mp hr]
      exact ⟨p, List.mem_append_right _ (List.mem_singleton_self p), Pattern.sameShape_refl p⟩
  · intro r hr
    rw [lastAdded?_append]
    rcases List.mem_append.mp hr with hr | hr
    · rw [Pattern.sameShape_comm, hnew r hr]
      exact h.latest r hr
    · rw [List.mem_singleton.mp hr, Pattern.sameShape_refl]
      rfl

/-- One more pattern is added to the sequence and to the table. -/
theorem addPattern (h : Summarizes ps table) (p : Pattern) :
    Summarizes (ps ++ [p]) (addPattern p table) := by
  rcases addPattern_cases p table with
    ⟨hnew, hadd⟩ | ⟨earlier, q, later, rfl, hq, hearlier, hadd⟩
  · rw [hadd]
    exact h.append hnew
  · rw [hadd]
    exact h.replace hq hearlier

end Summarizes

/-- A table to which patterns were added has each of their shapes once, in the order in which they
came first, and for each shape the pattern that came last. -/
theorem summarizes_tableOf (ps : List Pattern) : Summarizes ps (tableOf ps) := by
  -- on the sequence from its end: the last pattern is added to the table of those before
  induction ps using List.reverseRecOn with
  | nil => exact ⟨.nil, fun p hp => absurd hp List.not_mem_nil, fun q hq => absurd hq List.not_mem_nil⟩
  | append_singleton ps p ih =>
      rw [tableOf_append]
      exact ih.addPattern p

end Sequences

/-! ## Written parameter lists -/

/-- How a parameter list ends that has a name for the rest of the arguments. -/
def writtenRest : Option String → List Value
  | none => []
  | some name => [.symbol restMarker, .symbol name]

/-- Whether parameters are written as some elements: each declaration for one argument as one
element, and the name for the rest, if there is one, last of all and behind the only marker. -/
def Parameters.WrittenAs (p : Parameters) (items : List Value) : Prop :=
  ∃ front, items = front ++ writtenRest p.rest ∧ front.length = p.fixed.length ∧
    ∀ item ∈ front, item ≠ .symbol restMarker

/-- Elements that make parameters start with the marker and end with the name behind it, or they
start with a declaration. -/
theorem declareItems_cons_cases {s : Store} {c : ContextId} {item : Value} {items : List Value}
    {p : Parameters} (h : s.declareItems c (item :: items) = .ok p) :
    (∃ name, item = .symbol restMarker ∧ items = [.symbol name] ∧ p = ⟨[], some name⟩) ∨
      ∃ d others, item ≠ .symbol restMarker ∧ s.declare c item = .ok d ∧
        s.declareItems c items = .ok others ∧ p = { others with fixed := d :: others.fixed } := by
  unfold Store.declareItems at h
  split at h
  case isTrue hmarker =>
    split at h
    case h_1 name =>
      cases h
      exact .inl ⟨name, hmarker, rfl, rfl⟩
    case h_2 => cases h
  case isFalse hother =>
    rcases bind_eq_ok.mp h with ⟨d, hdeclared, h⟩
    rcases bind_eq_ok.mp h with ⟨others, hothers, h⟩
    cases h
    exact .inr ⟨d, others, hother, hdeclared, hothers, rfl⟩

/-- Parameters are made of a list, of what it holds behind its own marker. -/
theorem exists_items_of_declareParameters {s : Store} {c : ContextId} {v : Value} {p : Parameters}
    (h : s.declareParameters c v = .ok p) :
    ∃ id, v = .list id ∧ s.declareItems c (withoutListMarker (s.list id).items) = .ok p := by
  unfold Store.declareParameters at h
  split at h
  case h_1 id => exact ⟨id, rfl, h⟩
  case h_2 =>
    rcases bind_eq_ok.mp h with ⟨text, _, hrefused⟩
    cases hrefused

theorem writtenAs_of_declareItems {s : Store} {c : ContextId} {items : List Value}
    {p : Parameters} (h : s.declareItems c items = .ok p) : p.WrittenAs items := by
  induction items generalizing p with
  | nil =>
      cases h
      exact ⟨[], rfl, rfl, fun item hitem => absurd hitem List.not_mem_nil⟩
  | cons item items ih =>
      rcases declareItems_cons_cases h with
        ⟨name, rfl, rfl, rfl⟩ | ⟨d, others, hother, _, hothers, rfl⟩
      · exact ⟨[], rfl, rfl, fun item hitem => absurd hitem List.not_mem_nil⟩
      · obtain ⟨front, hitems, hlength, hfront⟩ := ih hothers
        refine ⟨item :: front, ?_, ?_, List.forall_mem_cons.mpr ⟨hother, hfront⟩⟩
        · rw [hitems, List.cons_append]
        · rw [List.length_cons, List.length_cons, hlength]

/-- A pattern that is made in a context is declared by some written elements. -/
theorem Pattern.MadeIn.written {p : Pattern} {c : ContextId} (h : p.MadeIn c) :
    ∃ (s : Store) (items : List Value), s.declareItems p.context items = .ok p.parameters := by
  rcases h with ⟨rfl, s, form, hdeclared⟩
  obtain ⟨id, _, hitems⟩ := exists_items_of_declareParameters hdeclared
  exact ⟨s, _, hitems⟩

/-! ## Tables in a session -/

/-- Whether a table is one that patterns were added to, each made in some context. -/
def BuiltTable (table : List Pattern) : Prop :=
  ∃ ps : List Pattern, (∀ p ∈ ps, ∃ c, p.MadeIn c) ∧ table = tableOf ps

theorem builtTable_nil : BuiltTable [] :=
  ⟨[], fun _ hp => absurd hp List.not_mem_nil, rfl⟩

theorem BuiltTable.addPattern {table : List Pattern} (h : BuiltTable table) {p : Pattern}
    {c : ContextId} (hp : p.MadeIn c) : BuiltTable (addPattern p table) := by
  obtain ⟨ps, hps, rfl⟩ := h
  refine ⟨ps ++ [p], ?_, (tableOf_append ps p).symm⟩
  intro q hq
  rcases List.mem_append.mp hq with hq | hq
  · exact hps q hq
  · rw [List.mem_singleton.mp hq]
    exact ⟨c, hp⟩

/-- Whether the table of every function is one that patterns were added to. -/
def Store.TablesBuilt (s : Store) : Prop :=
  ∀ id, BuiltTable (s.patterns id)

namespace Store

variable {s : Store}

theorem TablesBuilt.of_functions {s' : Store} (h : s.TablesBuilt)
    (hfunctions : s'.functions = s.functions) : s'.TablesBuilt := by
  intro id
  rw [patterns_congr hfunctions]
  exact h id

theorem TablesBuilt.newFunction (h : s.TablesBuilt) {patterns : List Pattern}
    (hpatterns : BuiltTable patterns) (label : String) :
    (s.newFunction label patterns).2.TablesBuilt := by
  intro id
  by_cases hnew : id.index = s.functions.size
  · rw [patterns_newFunction_self hnew]
    exact hpatterns
  · rw [patterns_newFunction_ne hnew]
    exact h id

theorem TablesBuilt.extend (h : s.TablesBuilt) {p : Pattern} {c : ContextId} (hp : p.MadeIn c)
    (id : FunctionId) : (s.extend id p).TablesBuilt := by
  intro other
  by_cases hsame : other.index = id.index
  · by_cases hthere : other.index < s.functions.size
    · rw [patterns_extend_self hsame hthere]
      exact (h other).addPattern hp
    · -- where no function stands nothing is added
      have hsize : (s.extend id p).functions.size = s.functions.size := Array.size_modify
      rw [patterns_of_size_le (by omega)]
      exact builtTable_nil
  · rw [patterns_extend_ne hsame]
    exact h other

/-- The ways in which functions are made and extended keep tables that patterns were added to. -/
theorem TablesBuilt.functionStep (h : s.TablesBuilt) {c : ContextId} {s' : Store}
    (hstep : FunctionStep c s s') : s'.TablesBuilt := by
  cases hstep with
  | make label hp => exact h.newFunction (builtTable_nil.addPattern hp) label
  | copy label id hp => exact h.newFunction ((h id).addPattern hp) label
  | extend name hp _ => exact h.extend hp _

end Store

/-- Having tables that patterns were added to is lasting. -/
theorem lasting_tablesBuilt : Lasting Store.TablesBuilt where
  empty id := by
    rw [Store.patterns_of_size_le (Nat.zero_le _)]
    exact builtTable_nil
  frame :=
    { accumulates := fun _ => ⟨fun _ h => h, fun h h' hm => h' (h hm)⟩
      ofQuiet := fun _ _ _ hquiet hm => hm.of_functions hquiet.functions
      functions := fun _ _ _ hstep hm => hm.functionStep hstep
      defineAll := fun _ _ _ hm => hm.of_functions rfl
      inside := fun _ _ _ _ _ h hm => h (hm.of_functions rfl)
      loaded := fun _ _ _ _ _ _ _ h hm => h (hm.of_functions rfl)
      imported := fun _ _ _ _ _ _ hm => hm.of_functions rfl }
  replaceTable s c table hs := hs.of_functions rfl
  propagate s c hs := by
    rw [Store.propagate_eq]
    exact List.foldlRecOn (motive := Store.TablesBuilt) _ _ hs fun s' hs' _ _ =>
      hs'.of_functions rfl

/-- Tables are in order. In every state of a session the patterns of a function have different
shapes, and each is declared by written elements among which the name for the rest of the
arguments stands last. Adding any patterns one after another makes a table that has each shape
once, in the order in which the shapes came first, and for each shape the pattern that came last. -/
theorem Session.tables_in_order {host : Host} {main : ContextId} {m : Machine}
    (hhost : host.Respects (Preserves Store.TablesBuilt)) (h : Session host main m) :
    (∀ id, (m.store.patterns id).Pairwise (fun p q => p.sameShape q = false) ∧
      ∀ p ∈ m.store.patterns id, ∃ (s : Store) (items : List Value),
        s.declareItems p.context items = .ok p.parameters ∧ p.parameters.WrittenAs items) ∧
    ∀ ps : List Pattern, Summarizes ps (tableOf ps) := by
  refine ⟨fun id => ?_, summarizes_tableOf⟩
  obtain ⟨ps, hps, htable⟩ := lasting_tablesBuilt.session hhost h id
  have hsummary := summarizes_tableOf ps
  rw [htable]
  refine ⟨hsummary.distinct, fun p hp => ?_⟩
  obtain ⟨c, hmade⟩ := hps p (hsummary.mem hp)
  obtain ⟨s, items, hdeclared⟩ := hmade.written
  exact ⟨s, items, hdeclared, writtenAs_of_declareItems hdeclared⟩

/-- A session in which a function gets a pattern for zero, one for whole numbers with more
arguments behind them, and one for zero again. -/
def threeDefinitions : Machine :=
  Request.perform Host.basic firstRoot (Interpreter.start Host.basic none (.initial .empty 30)).2
    (.eval firstRoot "(defn f [0] :zero) (defn f [Int &rest xs] xs) (defn f [0.0] :none)")

/-- The last pattern takes the place of the first, and the second stays behind it. -/
theorem tables_in_order_of_three_definitions :
    (threeDefinitions.store.patterns ⟨0, "f"⟩).Pairwise (fun p q => p.sameShape q = false) ∧
      (threeDefinitions.store.patterns ⟨0, "f"⟩).map (fun p => (p.body, p.parameters.rest)) =
        [(.keyword "none", none), (.symbol "xs", some "xs")] := by
  constructor
  · have hsession : Session Host.basic firstRoot threeDefinitions := by
      refine .step (.eval firstRoot _) (.new Host.basic .empty 30) ?_
      show 0 < _
      decide +kernel
    have hhost := Host.basic_respects lasting_tablesBuilt.frame
    exact ((Session.tables_in_order hhost hsession).1 ⟨0, "f"⟩).1
  · decide +kernel

end DispatchLisp
