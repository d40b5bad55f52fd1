import DispatchLisp.Proofs.Context.Root
import DispatchLisp.Proofs.Dispatch.Shape
import DispatchLisp.Proofs.Evaluation.InsertedNames
import DispatchLisp.Proofs.Store.Containment

/-!
# Proofs.Dispatch.Selection — which pattern a call takes, and what it binds

A call takes the first pattern that its arguments fit (`Fits`). It evaluates the body in a new frame
inside the context of the pattern, in which the declarations and the name for the rest are bound
(`CallFrame`); binding never fails, as both go through the same positions. The only thing besides the
body that can fail is a text: that of the arguments when no pattern fits, and those of the arguments and
the body when records for debugging are kept. `applyFunction_selects` says for every call which of this
happens.
-/

namespace DispatchLisp

/-! ## Fitting -/

namespace Parameters

/-- Whether arguments fit some parameters: there are as many as fixed declarations, or at least as many
where the rest has a name, and each fixed declaration accepts the argument at its position. -/
def Fits (p : Parameters) (args : List Value) : Prop :=
  (match p.rest with
    | none => args.length = p.fixed.length
    | some _ => p.fixed.length ≤ args.length) ∧
  ∀ pair ∈ p.fixed.zip args, pair.1.accepts pair.2 = true

theorem agree_take_iff {α β : Type} {test : α → β → Bool} {as : List α} {bs : List β}
    (h : as.length ≤ bs.length) :
    agree test as (bs.take as.length) = true ↔ ∀ pair ∈ as.zip bs, test pair.1 pair.2 = true := by
  induction as generalizing bs with
  | nil => simp [agree]
  | cons a as ih =>
      cases bs with
      | nil => exact absurd h (by simp)
      | cons b bs =>
          rw [List.length_cons, List.take_succ_cons, agree, Bool.and_eq_true, List.zip_cons_cons,
            List.forall_mem_cons, ih (Nat.le_of_succ_le_succ h)]

theorem Fits.length_le {p : Parameters} {args : List Value} (h : p.Fits args) :
    p.fixed.length ≤ args.length := by
  have hlength := h.1
  split at hlength
  · exact Nat.le_of_eq hlength.symm
  · exact hlength

theorem accept_iff_fits {p : Parameters} {args : List Value} :
    p.accept args = true ↔ p.Fits args := by
  unfold accept
  simp only [Bool.and_eq_true, Bool.or_eq_true, decide_eq_true_eq]
  constructor
  · rintro ⟨⟨hmany, hfew⟩, hagree⟩
    refine ⟨?_, (agree_take_iff hmany).mp hagree⟩
    cases hrest : p.rest with
    | none =>
        rw [hrest] at hfew
        exact Nat.le_antisymm (hfew.resolve_left Bool.false_ne_true) hmany
    | some name => exact hmany
  · intro h
    refine ⟨⟨h.length_le, ?_⟩, (agree_take_iff h.length_le).mpr h.2⟩
    have hlength := h.1
    split at hlength
    case h_1 => exact .inr (Nat.le_of_eq hlength)
    case h_2 name hrest => exact .inl (by rw [hrest]; rfl)

instance (p : Parameters) (args : List Value) : Decidable (p.Fits args) :=
  decidable_of_iff _ accept_iff_fits

end Parameters

theorem selectPattern?_eq_none_iff {patterns : List Pattern} {args : List Value} :
    selectPattern? patterns args = none ↔ ∀ p ∈ patterns, ¬ p.parameters.Fits args := by
  simp only [selectPattern?, List.find?_eq_none, Pattern.accept, Parameters.accept_iff_fits]

/-- The first pattern that the arguments fit is selected. -/
theorem selectPattern?_of_first {earlier later : List Pattern} {p : Pattern} {args : List Value}
    (hearlier : ∀ q ∈ earlier, ¬ q.parameters.Fits args) (hp : p.parameters.Fits args) :
    selectPattern? (earlier ++ p :: later) args = some p := by
  have hnone : selectPattern? earlier args = none := selectPattern?_eq_none_iff.mpr hearlier
  have haccept : p.accept args = true := Parameters.accept_iff_fits.mpr hp
  rw [selectPattern?] at hnone ⊢
  rw [List.find?_append, hnone, List.find?_cons, haccept]
  rfl

/-! ## The frame of a call -/

/-- The frame that a call makes: it is new, lies inside the context of the pattern, imports nothing and
binds just the names of the parameters. Among fixed declarations with one name the last one counts, and
the name for the rest counts before them. Nothing but the frame, the list of the other arguments and
perhaps a record in the log has been made, and nothing has been changed. -/
structure CallFrame (p : Pattern) (args : List Value) (m : Machine) (inner : ContextId)
    (m' : Machine) : Prop where
  new : ¬ m.store.HasContext inner
  made : m'.store.HasContext inner
  parent : (m'.store.context inner).parent = some p.context
  imports : (m'.store.context inner).imports = []
  usages : (m'.store.context inner).usages = []
  unique : (m'.store.context inner).table.Unique
  /-- a fixed declaration that binds a name -/
  fixed : ∀ earlier d v later name, p.parameters.fixed.zip args = earlier ++ (d, v) :: later →
    d.name? = some name → (∀ pair ∈ later, pair.1.name? ≠ some name) →
    p.parameters.rest ≠ some name → m'.store.own? inner name = some v
  /-- the name for the rest: after the fixed arguments come those in its list -/
  rest : ∀ name, p.parameters.rest = some name → ∃ id others,
    m'.store.own? inner name = some (.list id) ∧ ¬ m.store.Has (.list id) ∧
    m'.store.list id = ⟨others, true⟩ ∧ (p.parameters.fixed.zip args).map (·.2) ++ others = args
  /-- without a name for the rest the fixed arguments are all -/
  norest : p.parameters.rest = none → (p.parameters.fixed.zip args).map (·.2) = args
  /-- no other name is bound -/
  only : ∀ name v, m'.store.own? inner name = some v →
    p.parameters.rest = some name ∨ ∃ d ∈ p.parameters.fixed, d.name? = some name
  contexts : ∀ d, m.store.HasContext d → m'.store.context d = m.store.context d
  functions : m'.store.functions = m.store.functions
  lists : ∀ id, m.store.Has (.list id) → m'.store.list id = m.store.list id
  dicts : m'.store.dicts = m.store.dicts
  log : m'.log = m.log ∨
    m.logThreshold ≤ LogLevel.debug.number ∧ ∃ text, m'.log = m.log ++ [⟨.debug, text⟩]
  others : m' = { m with store := m'.store, log := m'.log }

/-! ### Binding -/

/-- The arguments beside the fixed declarations are the first of all. -/
theorem map_snd_zip_take {α β : Type} (as : List α) (bs : List β) :
    (as.zip bs).map (·.2) = bs.take as.length := by
  induction as generalizing bs with
  | nil => rfl
  | cons a as ih =>
      cases bs with
      | nil => rfl
      | cons b bs =>
          rw [List.zip_cons_cons, List.map_cons, ih, List.length_cons, List.take_succ_cons]

namespace Parameters

variable {p : Parameters} {args : List Value} {name : String}

/-- The names that are bound are those of the declarations. -/
theorem name_of_mem_bindings {entry : String × Value} (h : entry ∈ p.bindings args) :
    ∃ d, (d, entry.2) ∈ p.fixed.zip args ∧ d.name? = some entry.1 := by
  obtain ⟨⟨d, v⟩, hpair, hentry⟩ := List.mem_filterMap.mp h
  obtain ⟨bound, hname, hbound⟩ := Option.map_eq_some_iff.mp hentry
  cases hbound
  exact ⟨d, hpair, hname⟩

/-- The last declaration of a name gives the binding that stays. -/
theorem get?_bindings_of_last {earlier later : List (Declaration × Value)} {d : Declaration}
    {v : Value} (hzip : p.fixed.zip args = earlier ++ (d, v) :: later) (hname : d.name? = some name)
    (hlater : ∀ pair ∈ later, pair.1.name? ≠ some name) (table : Table Value) :
    (table.setAll (p.bindings args)).get? name = some v := by
  rw [bindings, hzip, List.filterMap_append, List.filterMap_cons_some (b := (name, v)) (by simp [hname])]
  refine Table.get?_setAll_of_last (fun entry hentry => ?_) _ v table
  obtain ⟨⟨d', v'⟩, hpair, hentry⟩ := List.mem_filterMap.mp hentry
  obtain ⟨bound, hbound, rfl⟩ := Option.map_eq_some_iff.mp hentry
  exact fun heq => hlater _ hpair (heq ▸ hbound)

/-- A name that no fixed declaration binds is left alone. -/
theorem get?_bindings_of_absent (h : ∀ d ∈ p.fixed, d.name? ≠ some name) (table : Table Value) :
    (table.setAll (p.bindings args)).get? name = table.get? name := by
  refine Table.get?_setAll_of_absent (fun entry hentry heq => ?_) table
  obtain ⟨d, hpair, hname⟩ := name_of_mem_bindings hentry
  exact h d (List.of_mem_zip hpair).1 (heq ▸ hname)

/-- The arguments of the fixed declarations and those that are left are all arguments. -/
theorem fixed_append_others (p : Parameters) (args : List Value) :
    (p.fixed.zip args).map (·.2) ++ args.drop p.fixed.length = args := by
  rw [map_snd_zip_take, List.take_append_drop]

/-- Where arguments fit parameters without a name for the rest, no argument is left. -/
theorem Fits.fixed_args (h : p.Fits args) (hrest : p.rest = none) :
    (p.fixed.zip args).map (·.2) = args := by
  have hlength := h.1
  rw [hrest] at hlength
  rw [map_snd_zip_take, List.take_of_length_le (Nat.le_of_eq hlength)]

end Parameters

namespace Store

/-- A store in which the arguments of a call have been bound in a context. -/
def bindAll (s : Store) (c : ContextId) (p : Parameters) (args : List Value) : Store :=
  let s := s.defineAll c (p.bindings args)
  match p.rest with
  | none => s
  | some name =>
    let (id, s) := s.newList (args.drop p.fixed.length) true
    s.define c name (.list id)

/-- The table of a context in which the arguments of a call have been bound. -/
def boundTable (s : Store) (p : Parameters) (args : List Value) (table : Table Value) :
    Table Value :=
  match p.rest with
  | none => table.setAll (p.bindings args)
  | some name => (table.setAll (p.bindings args)).set name (.list ⟨s.lists.size⟩)

section

variable (s : Store) {c : ContextId} (p : Parameters) (args : List Value)

theorem unique_boundTable {table : Table Value} (h : table.Unique) :
    (s.boundTable p args table).Unique := by
  have hall := h.setAll (p.bindings args)
  unfold boundTable
  cases p.rest with
  | none => exact hall
  | some name => exact hall.set name _

/-- All names but that for the rest are bound by the fixed declarations. -/
theorem get?_boundTable_of_ne {name : String} (h : p.rest ≠ some name) (table : Table Value) :
    (s.boundTable p args table).get? name = (table.setAll (p.bindings args)).get? name := by
  unfold boundTable
  split
  case h_1 => rfl
  case h_2 rest hrest =>
    have hne : rest ≠ name := fun heq => h (heq ▸ hrest)
    exact Table.get?_set_ne _ hne _

/-- The name for the rest is bound to the next list. -/
theorem get?_boundTable_rest {name : String} (h : p.rest = some name) (table : Table Value) :
    (s.boundTable p args table).get? name = some (.list ⟨s.lists.size⟩) := by
  rw [boundTable, h]
  exact Table.get?_set_self _ _ _

/-- In an empty table nothing else is bound. -/
theorem declared_of_boundTable {name : String} {v : Value}
    (h : (s.boundTable p args []).get? name = some v) :
    p.rest = some name ∨ ∃ d ∈ p.fixed, d.name? = some name := by
  by_contra hnot
  obtain ⟨hother, hfixed⟩ := not_or.mp hnot
  have habsent : (Table.setAll [] (p.bindings args)).get? name = none :=
    Parameters.get?_bindings_of_absent (fun d hd hname => hfixed ⟨d, hd, hname⟩) []
  rw [get?_boundTable_of_ne s p args hother, habsent] at h
  cases h

theorem context_bindAll_self (hc : s.HasContext c) :
    (s.bindAll c p args).context c =
      { s.context c with table := s.boundTable p args (s.context c).table } := by
  have hall : (s.defineAll c (p.bindings args)).context c =
      { s.context c with table := (s.context c).table.setAll (p.bindings args) } :=
    context_updateContext_self rfl hc _
  unfold bindAll boundTable
  cases p.rest with
  | none => exact hall
  | some name =>
      have hthere : ((s.defineAll c (p.bindings args)).newList
          (args.drop p.fixed.length) true).2.HasContext c :=
        hc.defineAll c (p.bindings args)
      have hafter := context_updateContext_self rfl hthere
        (fun cell => { cell with table := cell.table.set name (.list ⟨s.lists.size⟩) })
      have hsame : ((s.defineAll c (p.bindings args)).newList
          (args.drop p.fixed.length) true).2.context c = _ := hall
      rw [hsame] at hafter
      exact hafter

/-- A context that has been made for it binds the arguments and nothing else. -/
theorem context_bindAll_newContext (label : String) (parent : Option ContextId) :
    ((s.newContext label parent).2.bindAll (s.newContext label parent).1 p args).context
        (s.newContext label parent).1 =
      ⟨parent, (s.newContext label parent).2.boundTable p args [], [], []⟩ := by
  rw [context_bindAll_self _ p args (hasContext_newContext s label parent),
    context_newContext_new rfl]

theorem context_bindAll_ne {d : ContextId} (hd : d.index ≠ c.index) :
    (s.bindAll c p args).context d = s.context d := by
  have hall : (s.defineAll c (p.bindings args)).context d = s.context d :=
    context_updateContext_ne hd _
  unfold bindAll
  cases p.rest with
  | none => exact hall
  | some name => exact (context_updateContext_ne hd _).trans hall

theorem size_bindAll : (s.bindAll c p args).contexts.size = s.contexts.size := by
  unfold bindAll
  cases p.rest with
  | none => exact size_defineAll _ _ _
  | some name =>
      exact (size_updateContext _ _ _).trans (size_defineAll s c (p.bindings args))

theorem list_bindAll {id : ListId} (hid : id.index < s.lists.size) :
    (s.bindAll c p args).list id = s.list id := by
  unfold bindAll
  cases p.rest with
  | none => rfl
  | some name => exact list_newList_ne (s := s.defineAll c (p.bindings args)) (Nat.ne_of_lt hid) _ _

/-- The arguments that no fixed declaration takes are in a new list. -/
theorem list_bindAll_new {name : String} (h : p.rest = some name) :
    (s.bindAll c p args).list ⟨s.lists.size⟩ = ⟨args.drop p.fixed.length, true⟩ := by
  unfold bindAll
  rw [h]
  exact list_newList (s.defineAll c (p.bindings args)) _ _

theorem functions_bindAll : (s.bindAll c p args).functions = s.functions := by
  unfold bindAll
  cases p.rest <;> rfl

theorem dicts_bindAll : (s.bindAll c p args).dicts = s.dicts := by
  unfold bindAll
  cases p.rest <;> rfl

end

end Store

theorem bindArguments_eq (c : ContextId) (p : Parameters) (args : List Value) (m : Machine) :
    bindArguments c p args m = (.ok (), { m with store := m.store.bindAll c p args }) := by
  unfold bindArguments Store.bindAll
  cases p.rest <;> rfl

/-- Where the arguments fit a pattern, a new context inside that of the pattern becomes the frame of the
call. -/
theorem callFrame_bindAll {p : Pattern} {args : List Value} {m : Machine} {log : List LogRecord}
    (hfits : p.parameters.Fits args) (label : String)
    (hlog : log = m.log ∨
      m.logThreshold ≤ LogLevel.debug.number ∧ ∃ text, log = m.log ++ [⟨.debug, text⟩]) :
    CallFrame p args m (m.store.newContext label (some p.context)).1
      { m with
        store := (m.store.newContext label (some p.context)).2.bindAll
          (m.store.newContext label (some p.context)).1 p.parameters args
        log } := by
  let inner : ContextId := (m.store.newContext label (some p.context)).1
  let s : Store := (m.store.newContext label (some p.context)).2
  have hcell : (s.bindAll inner p.parameters args).context inner =
      ⟨some p.context, s.boundTable p.parameters args [], [], []⟩ :=
    m.store.context_bindAll_newContext p.parameters args label (some p.context)
  have hown : ∀ name, (s.bindAll inner p.parameters args).own? inner name =
      (s.boundTable p.parameters args []).get? name := fun name => by rw [Store.own?, hcell]
  exact {
    new := Nat.lt_irrefl _
    made := by
      show _ < (s.bindAll inner p.parameters args).contexts.size
      rw [Store.size_bindAll]
      exact Store.hasContext_newContext m.store label (some p.context)
    parent := by rw [hcell]
    imports := by rw [hcell]
    usages := by rw [hcell]
    unique := by
      rw [hcell]
      exact s.unique_boundTable p.parameters args Table.unique_nil
    fixed := by
      intro earlier d v later name hzip hname hlater hother
      have hlast := Parameters.get?_bindings_of_last hzip hname hlater []
      exact (hown name).trans ((s.get?_boundTable_of_ne p.parameters args hother []).trans hlast)
    rest := by
      intro name hrest
      refine ⟨⟨s.lists.size⟩, args.drop p.parameters.fixed.length, ?_, Nat.lt_irrefl _,
        s.list_bindAll_new p.parameters args hrest, p.parameters.fixed_append_others args⟩
      exact (hown name).trans (s.get?_boundTable_rest p.parameters args hrest [])
    norest := hfits.fixed_args
    only := fun name _ hbound =>
      s.declared_of_boundTable p.parameters args ((hown name).symm.trans hbound)
    contexts := by
      intro d hd
      have hne : d.index ≠ inner.index := Nat.ne_of_lt hd
      exact (Store.context_bindAll_ne s p.parameters args hne).trans
        (Store.context_newContext hd label (some p.context))
    functions := s.functions_bindAll p.parameters args
    lists := fun _ hid => s.list_bindAll p.parameters args hid
    dicts := s.dicts_bindAll p.parameters args
    log := hlog
    others := rfl }

/-! ## Calls -/

section

variable {id : FunctionId} {p : Pattern} {args : List Value} {evaluated : Bool} {m : Machine}

/-- The text for the record of a call. -/
def dispatchText (id : FunctionId) (p : Pattern) (args : List Value) (evaluated : Bool) (s : Store) :
    Except Fault String := do
  let argsText ← s.renderItems evaluated args
  let patternText ← s.renderPattern p
  .ok ("dispatch " ++ id.name ++ argsText ++ " -> " ++ patternText)

/-- The record of a call has a text exactly if the arguments and the body have texts. -/
theorem dispatchText_cases (id : FunctionId) (p : Pattern) (args : List Value) (evaluated : Bool)
    (s : Store) :
    ((∀ v ∈ args, s.AcyclicFrom v) ∧ s.AcyclicFrom p.body) ∧
        (∃ text, dispatchText id p args evaluated s = .ok text) ∨
      ¬ ((∀ v ∈ args, s.AcyclicFrom v) ∧ s.AcyclicFrom p.body) ∧
        dispatchText id p args evaluated s = .error .tooDeep := by
  rcases s.renderItems_cases evaluated args with ⟨hargs, text, htext⟩ | ⟨hargs, hfail⟩
  · rw [dispatchText, htext, ok_bind]
    rcases s.renderPattern_cases p with ⟨hbody, shown, hshown⟩ | ⟨hbody, hfail⟩
    · exact .inl ⟨⟨hargs, hbody⟩, _, by rw [hshown, ok_bind]⟩
    · exact .inr ⟨fun h => hbody h.2, by rw [hfail, error_bind]⟩
  · exact .inr ⟨fun h => hargs h.1, by rw [dispatchText, hfail, error_bind]⟩

/-- Once the record is made, a call that the arguments fit enters its frame. -/
theorem enterCall_of_record (hfits : p.parameters.Fits args) {log : List LogRecord}
    (hrecord : record .debug (dispatchText id p args evaluated) m = (.ok (), { m with log }))
    (hlog : log = m.log ∨
      m.logThreshold ≤ LogLevel.debug.number ∧ ∃ text, log = m.log ++ [⟨.debug, text⟩]) :
    ∃ inner m₁, CallFrame p args m inner m₁ ∧
      enterCall id p args evaluated m = (.ok inner, m₁) := by
  refine ⟨_, _, callFrame_bindAll hfits id.name hlog, (Computation.bind_of_ok hrecord).trans ?_⟩
  exact Computation.bind_of_ok (bindArguments_eq _ p.parameters args _)

/-- A call that gets no record does not get into its frame. -/
theorem applyFunction_of_no_record {ev : Evaluator} {e : Fault}
    (hp : selectPattern? (m.store.patterns id) args = some p)
    (hrecord : record .debug (dispatchText id p args evaluated) m = (.error e, m)) :
    applyFunction ev id args evaluated m = (.error e, m) := by
  have hlook : (askStore fun s => s.patterns id : Eval (List Pattern)) m =
      (.ok (m.store.patterns id), m) := rfl
  rw [applyFunction, Computation.bind_of_ok hlook, hp]
  exact Computation.bind_of_error hrecord

/-- A call that the arguments fit evaluates the body in its frame, unless a record is kept for which
there is no text. -/
theorem applyFunction_of_pattern (ev : Evaluator) (evaluated : Bool)
    (hp : selectPattern? (m.store.patterns id) args = some p) (hfits : p.parameters.Fits args) :
    (m.logThreshold ≤ LogLevel.debug.number →
        (∀ v ∈ args, m.store.AcyclicFrom v) ∧ m.store.AcyclicFrom p.body) ∧
      (∃ inner m₁, CallFrame p args m inner m₁ ∧
        applyFunction ev id args evaluated m = ev p.body inner m₁) ∨
    (m.logThreshold ≤ LogLevel.debug.number ∧
        ¬ ((∀ v ∈ args, m.store.AcyclicFrom v) ∧ m.store.AcyclicFrom p.body)) ∧
      applyFunction ev id args evaluated m = (.error .tooDeep, m) := by
  have hentered : ∀ log, record .debug (dispatchText id p args evaluated) m = (.ok (), { m with log }) →
      (log = m.log ∨
        m.logThreshold ≤ LogLevel.debug.number ∧ ∃ text, log = m.log ++ [⟨.debug, text⟩]) →
      ∃ inner m₁, CallFrame p args m inner m₁ ∧
        applyFunction ev id args evaluated m = ev p.body inner m₁ := by
    intro log hrecord hlog
    obtain ⟨inner, m₁, hframe, hentered⟩ := enterCall_of_record hfits hrecord hlog
    exact ⟨inner, m₁, hframe, applyFunction_of_entered hp hentered⟩
  rcases Nat.lt_or_ge LogLevel.debug.number m.logThreshold with hlow | hkept
  · exact .inl ⟨fun h => absurd h (Nat.not_le.mpr hlow), hentered m.log (record_of_lt hlow _) (.inl rfl)⟩
  · have hrecord := record_of_le hkept (dispatchText id p args evaluated)
    rcases dispatchText_cases id p args evaluated m.store with ⟨hall, text, htext⟩ | ⟨hnot, hfail⟩
    · rw [htext] at hrecord
      exact .inl ⟨fun _ => hall, hentered _ hrecord (.inr ⟨hkept, text, rfl⟩)⟩
    · rw [hfail] at hrecord
      exact .inr ⟨⟨hkept, hnot⟩, applyFunction_of_no_record hp hrecord⟩

/-- A call that no pattern fits shows its arguments, if they have a text. -/
theorem applyFunction_of_no_pattern (ev : Evaluator) (evaluated : Bool)
    (hnone : ∀ p ∈ m.store.patterns id, ¬ p.parameters.Fits args) :
    (∀ v ∈ args, m.store.AcyclicFrom v) ∧
      (∃ text, m.store.renderItems evaluated args = .ok text ∧
        applyFunction ev id args evaluated m = (.error (.noPattern id.name text), m)) ∨
    ¬ (∀ v ∈ args, m.store.AcyclicFrom v) ∧
      applyFunction ev id args evaluated m = (.error .tooDeep, m) := by
  have hlook : (askStore fun s => s.patterns id : Eval (List Pattern)) m =
      (.ok (m.store.patterns id), m) := rfl
  rw [applyFunction, Computation.bind_of_ok hlook, selectPattern?_eq_none_iff.mpr hnone]
  rcases m.store.renderItems_cases evaluated args with ⟨hall, text, htext⟩ | ⟨hnot, hfail⟩
  · have hquery : (queryStore fun s => s.renderItems evaluated args) m = (.ok text, m) := by
      rw [queryStore, htext]
    exact .inl ⟨hall, text, htext, Computation.bind_of_ok hquery⟩
  · have hquery : (queryStore fun s => s.renderItems evaluated args) m = (.error .tooDeep, m) := by
      rw [queryStore, hfail]
    exact .inr ⟨hnot, Computation.bind_of_error hquery⟩

end

/-- A pattern for texts, and one for two values or more, whose two declarations have one name. -/
def overlappingPatterns : List Pattern :=
  [⟨⟨[.typed "String" none], some "r"⟩, .int 1, firstRoot⟩,
    ⟨⟨[.binder "x", .binder "x"], some "r"⟩, .symbol "x", firstRoot⟩,
    ⟨⟨[.typed "Int" none], some "r"⟩, .int 3, firstRoot⟩]

/-- A machine whose only function has these patterns. -/
def withOverlapping : Machine :=
  { Machine.initial .empty LogLevel.warning.number with
    store := (Store.empty.newFunction "f" overlappingPatterns).2 }

/-- A session with a function for whole numbers and a list that contains itself. -/
def withCyclicList : Machine :=
  (Interpreter.eval Host.basic firstRoot "(defn f [Int] 1) (def l [1]) (set l 0 l)"
    (newSession Host.basic)).2

end DispatchLisp
