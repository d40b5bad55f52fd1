import DispatchLisp.Proofs.Evaluation.Calls
import DispatchLisp.Proofs.Evaluation.Frame
import DispatchLisp.Proofs.Session
import DispatchLisp.Proofs.Store.Functions

/-!
# Proofs.Dispatch.Isolation — which functions a definition changes

A `defn` form adds a pattern to the function that its context itself binds to the name. A function
that the name means further out is copied, and the copy gets the pattern. Contexts share functions
when one takes over bindings from another, so the function that a context itself binds can be bound
elsewhere too, and then it is changed for everyone. `evaluate_defn_isolated` says exactly which
functions are changed, and what the name means afterwards.
-/

namespace DispatchLisp

/-- The patterns of the function that a name means, none if it means no function. -/
def Store.meantPatterns (s : Store) (context : ContextId) (name : String) : List Pattern :=
  match s.lookup? context name with
  | some (.function id) => s.patterns id
  | _ => []

section

variable {c : ContextId} {name : String} {p : Pattern} {m m' : Machine}

/-! ## Extending a binding -/

/-- What a definition leaves behind that gives a name in a context a function with one more
pattern. -/
inductive Extended (c : ContextId) (name : String) (p : Pattern) (s : Store) :
    FunctionId → Store → Prop where
  | own {id : FunctionId} : s.own? c name = some (.function id) →
      Extended c name p s id (s.extend id p)
  | fresh (label : String) : (∀ id, s.own? c name ≠ some (.function id)) →
      Extended c name p s ⟨s.functions.size, label⟩
        ((s.newFunction label (addPattern p (s.meantPatterns c name))).2.define c name
          (.function ⟨s.functions.size, label⟩))

/-- A name is extended unless it means a native. -/
theorem extendBinding_cases (c : ContextId) (name : String) (p : Pattern) (m : Machine) :
    (∃ f, m.store.lookup? c name = some (.native f) ∧
      extendBinding c name p m = (.error (.nativeRedefined name), m)) ∨
    ∃ id store, Extended c name p m.store id store ∧
      extendBinding c name p m = (.ok id, { m with store }) := by
  have howner : (askStore fun s => s.find? c name : Eval (Option ContextId)) m =
      (.ok (m.store.find? c name), m) := rfl
  have hexisting : (askStore fun s => s.lookup? c name : Eval (Option Value)) m =
      (.ok (m.store.lookup? c name), m) := rfl
  generalize hrun : extendBinding c name p m = result
  rw [extendBinding, Computation.bind_of_ok howner, Computation.bind_of_ok hexisting] at hrun
  generalize hmeant : m.store.lookup? c name = existing at hrun
  split at hrun
  case h_1 f => exact .inl ⟨f, rfl, hrun.symm⟩
  case h_2 id =>
    right
    split at hrun
    case isTrue hself =>
      -- the nearest context that binds the name is the one of the form
      rw [Store.lookup?_eq, hself] at hmeant
      exact ⟨id, m.store.extend id p, .own hmeant, hrun.symm⟩
    case isFalse hself =>
      have hnot : ∀ other, m.store.own? c name ≠ some (.function other) := fun other hown =>
        hself (Store.find?_eq_self_iff.mpr ⟨_, hown⟩)
      have hcopy : m.store.patterns id = m.store.meantPatterns c name := by
        rw [Store.meantPatterns, hmeant]
      refine ⟨_, _, .fresh id.name hnot, ?_⟩
      rw [← hcopy, ← hrun]
      rfl
  case h_3 hnative hfunction =>
    right
    have hnot : ∀ other, m.store.own? c name ≠ some (.function other) := fun other hown =>
      hfunction other (hmeant.symm.trans (Store.lookup?_of_own hown))
    have hnone : m.store.meantPatterns c name = [] := by
      unfold Store.meantPatterns
      split
      case h_1 id hid => exact absurd (hmeant.symm.trans hid) (hfunction id)
      case h_2 => rfl
    refine ⟨_, _, .fresh name hnot, ?_⟩
    rw [hnone, ← hrun]
    rfl

namespace Extended

variable {s s' : Store} {id : FunctionId}

/-- Of the functions that there were, only the one that the context itself binds to the name is
changed. -/
theorem patterns_ne (h : Extended c name p s id s') {other : FunctionId}
    (hthere : s.HasFunction other) :
    s'.patterns other ≠ s.patterns other ↔
      s.own? c name = some (.function id) ∧ id.index = other.index ∧
        addPattern p (s.patterns other) ≠ s.patterns other := by
  cases h with
  | own hown =>
      by_cases hsame : other.index = id.index
      · rw [Store.patterns_extend_self hsame hthere]
        exact ⟨fun h => ⟨hown, hsame.symm, h⟩, fun h => h.2.2⟩
      · rw [Store.patterns_extend_ne hsame]
        exact ⟨fun h => absurd rfl h, fun h => absurd h.2.1.symm hsame⟩
  | fresh label hnot =>
      have hne : other.index ≠ s.functions.size := Nat.ne_of_lt hthere
      have hkept := Store.patterns_newFunction_ne hne label (addPattern p (s.meantPatterns c name))
      constructor
      · intro h
        exact absurd hkept h
      · intro h
        exact absurd h.1 (hnot _)

/-- The function has one pattern more than the one that the name meant before. -/
theorem patterns_self (h : Extended c name p s id s')
    (hthere : s.own? c name = some (.function id) → s.HasFunction id) :
    s'.patterns id = addPattern p (s.meantPatterns c name) := by
  cases h with
  | own hown =>
      rw [Store.patterns_extend_self rfl (hthere hown), Store.meantPatterns,
        Store.lookup?_of_own hown]
  | fresh label _ =>
      exact Store.patterns_newFunction_self rfl label (addPattern p (s.meantPatterns c name))

/-- The function is the one that the context itself binds to the name, or it is new. -/
theorem own_or_new (h : Extended c name p s id s') :
    s.own? c name = some (.function id) ∨ ¬ s.HasFunction id := by
  cases h with
  | own hown => exact .inl hown
  | fresh label _ => exact .inr (Nat.lt_irrefl _)

theorem eq_of_own (h : Extended c name p s id s') {own : FunctionId}
    (hown : s.own? c name = some (.function own)) : own = id := by
  cases h with
  | own hid =>
      rw [hid] at hown
      cases hown
      rfl
  | fresh label hnot => exact absurd hown (hnot own)

/-- Afterwards the context itself binds the name to the function. -/
theorem own_after (h : Extended c name p s id s') (hc : s.HasContext c) :
    s'.own? c name = some (.function id) := by
  cases h with
  | own hown => exact hown
  | fresh label _ =>
      have hcell := Store.context_updateContext_self
        (s := (s.newFunction label (addPattern p (s.meantPatterns c name))).2) rfl hc
        (fun cell => { cell with table := cell.table.set name (.function ⟨s.functions.size, label⟩) })
      show Table.get? _ name = _
      rw [Store.define, hcell]
      exact Table.get?_set_self _ _ _

end Extended

/-! ## The form -/

theorem Quiet.own? (h : Quiet m m') (c : ContextId) (name : String) :
    m'.store.own? c name = m.store.own? c name := by
  rw [Store.own?, Store.context_congr h.contexts]
  rfl

theorem Quiet.patterns (h : Quiet m m') (id : FunctionId) :
    m'.store.patterns id = m.store.patterns id :=
  Store.patterns_congr h.functions id

theorem Quiet.meantPatterns (h : Quiet m m') (c : ContextId) (name : String) :
    m'.store.meantPatterns c name = m.store.meantPatterns c name := by
  unfold Store.meantPatterns
  rw [Store.lookup?_congr h.contexts]
  cases m.store.lookup? c name with
  | none => rfl
  | some v =>
      split
      · exact h.patterns _
      · rfl

theorem Quiet.hasFunction (h : Quiet m m') {id : FunctionId} :
    m'.store.HasFunction id ↔ m.store.HasFunction id := by
  unfold Store.HasFunction
  rw [h.functions]

/-- A definition makes a pattern, extends what the name means, and logs that. It fails without
changing contexts and functions if there is no pattern or the name means a native. -/
theorem evaluateDefn_cases (c : ContextId) (name : String) (parameters : Value)
    (forms : List Value) (m : Machine) :
    (∃ e m', evaluateDefn c (.symbol name :: parameters :: forms) m = (.error e, m') ∧
      Quiet m m' ∧ ∀ p, (makePattern c parameters forms m).1 = .ok p →
        ∃ f, m.store.lookup? c name = some (.native f)) ∨
    ∃ p m1 id store m', makePattern c parameters forms m = (.ok p, m1) ∧ Quiet m m1 ∧
      Extended c name p m1.store id store ∧ Quiet { m1 with store } m' ∧
      evaluateDefn c (.symbol name :: parameters :: forms) m = (.ok (.function id), m') := by
  have hquiet : Quiet m (makePattern c parameters forms m).2 := quiet_makePattern parameters forms m
  show (∃ e m', (makePattern c parameters forms >>= _) m = _ ∧ _) ∨
    ∃ p m1 id store m', _ ∧ _ ∧ _ ∧ _ ∧ (makePattern c parameters forms >>= _) m = _
  rcases hmade : makePattern c parameters forms m with ⟨e | p, m1⟩
  · refine .inl ⟨e, m1, Computation.bind_of_error hmade, ?_, ?_⟩
    · rw [hmade] at hquiet
      exact hquiet
    · intro p hp
      cases hp
  rw [hmade] at hquiet
  rw [Computation.bind_of_ok hmade]
  rcases extendBinding_cases c name p m1 with ⟨f, hnative, hfail⟩ | ⟨id, store, hextended, hok⟩
  · refine .inl ⟨_, m1, Computation.bind_of_error hfail, hquiet, fun _ _ => ⟨f, ?_⟩⟩
    rw [← hnative, Store.lookup?_congr hquiet.contexts]
  · rcases record_of_ok .debug (fun s => ⟨"defn " ++ name ++ " now has " ++
        toString (s.patterns id).length ++ " dispatch pattern(s)", rfl⟩) { m1 with store } with
      ⟨m', hrecord, hafter⟩
    refine .inr ⟨p, m1, id, store, m', rfl, hquiet, hextended, hafter, ?_⟩
    rw [Computation.bind_of_ok hok]
    exact Computation.bind_of_ok hrecord

/-- Of the functions that there are, a definition changes only the one that the context itself binds
to the name. -/
theorem patterns_evaluateDefn_ne (c : ContextId) (name : String) (parameters : Value)
    (forms : List Value) {m : Machine} {id : FunctionId} (hthere : m.store.HasFunction id) :
    (evaluateDefn c (.symbol name :: parameters :: forms) m).2.store.patterns id ≠
        m.store.patterns id ↔
      ∃ own p, m.store.own? c name = some (.function own) ∧ own.index = id.index ∧
        (makePattern c parameters forms m).1 = .ok p ∧
        addPattern p (m.store.patterns id) ≠ m.store.patterns id := by
  rcases evaluateDefn_cases c name parameters forms m with
    ⟨e, m', hrun, hquiet, hfail⟩ | ⟨p, m1, new, store, m', hmade, hbefore, hextended, hafter, hrun⟩
  · -- a definition that fails changes no function
    rw [hrun]
    constructor
    · intro hne
      exact absurd (hquiet.patterns id) hne
    · rintro ⟨own, p, hown, _, hp, _⟩
      obtain ⟨f, hnative⟩ := hfail p hp
      rw [Store.lookup?_of_own hown] at hnative
      cases hnative
  · have hne := hextended.patterns_ne (hbefore.hasFunction.mpr hthere)
    rw [hbefore.own?, hbefore.patterns] at hne
    have hkept : m'.store.patterns id = store.patterns id := hafter.patterns id
    rw [hrun, hmade, hkept, hne]
    constructor
    · rintro ⟨hown, hsame, hchange⟩
      exact ⟨new, p, hown, hsame, rfl, hchange⟩
    · rintro ⟨own, q, hown, hsame, hq, hchange⟩
      have hnew : own = new := hextended.eq_of_own ((hbefore.own? c name).trans hown)
      cases hq
      subst hnew
      exact ⟨hown, hsame, hchange⟩

/-- A definition that answers gives the name a function with one pattern more. -/
theorem evaluateDefn_eq_ok {parameters v : Value} {forms : List Value}
    (h : (evaluateDefn c (.symbol name :: parameters :: forms) m).1 = .ok v) :
    ∃ id p, v = .function id ∧ (makePattern c parameters forms m).1 = .ok p ∧
      (m.store.own? c name = some v ∨ ¬ m.store.HasFunction id) ∧
      (m.store.HasContext c →
        (evaluateDefn c (.symbol name :: parameters :: forms) m).2.store.own? c name = some v) ∧
      ((m.store.own? c name = some v → m.store.HasFunction id) →
        (evaluateDefn c (.symbol name :: parameters :: forms) m).2.store.patterns id =
          addPattern p (m.store.meantPatterns c name)) := by
  rcases evaluateDefn_cases c name parameters forms m with
    ⟨e, m', hrun, _, _⟩ | ⟨p, m1, id, store, m', hmade, hbefore, hextended, hafter, hrun⟩
  · rw [hrun] at h
    cases h
  · rw [hrun] at h ⊢
    cases h
    refine ⟨id, p, rfl, congrArg Prod.fst hmade, ?_, ?_, ?_⟩
    · have hcases := hextended.own_or_new
      rwa [hbefore.own?, hbefore.hasFunction] at hcases
    · intro hc
      have hthere : m1.store.HasContext c := by
        unfold Store.HasContext
        rw [hbefore.contexts]
        exact hc
      exact (hafter.own? c name).trans (hextended.own_after hthere)
    · intro hown
      rw [← hbefore.own?, ← hbefore.hasFunction] at hown
      have hkept : m'.store.patterns id = store.patterns id := hafter.patterns id
      rw [hkept, hextended.patterns_self hown, hbefore.meantPatterns]

end

/-- A call of the form does what the form does with the parts of the call. -/
theorem evaluate_defnForm (host : Host) (depth : Nat) {m : Machine} {c : ContextId} {expr : Value}
    {exprs : List Value} (h : m.store.IsFormCall c .defnForm exprs expr) :
    evaluate host (depth + 1) expr c m = evaluateDefn c exprs m := by
  rw [evaluate_formCall host depth h]
  show (lookAtAll (fixedParts exprs) >>= _) m = _
  rw [Computation.bind_of_ok (lookAtAll_fixedParts _ m)]

/-- Which functions a definition changes. Of all functions that there are only the one that the
context of the form itself binds to the name gets other patterns, and it does so in place, whoever
else binds it. A definition that answers gives the name a function with the patterns that the name
meant before and one more: the very function that the context itself bound, or a new one. -/
theorem evaluate_defn_isolated (host : Host) (depth : Nat) {m : Machine} {c : ContextId}
    {expr parameters : Value} {name : String} {forms : List Value}
    (h : m.store.IsFormCall c .defnForm (.symbol name :: parameters :: forms) expr) :
    let result := evaluate host (depth + 1) expr c m
    let made := (makePattern c parameters forms m).1
    (∀ id, m.store.HasFunction id →
      (result.2.store.patterns id ≠ m.store.patterns id ↔
        ∃ own p, m.store.own? c name = some (.function own) ∧ own.index = id.index ∧
          made = .ok p ∧ addPattern p (m.store.patterns id) ≠ m.store.patterns id)) ∧
    ∀ v, result.1 = .ok v → ∃ id p, v = .function id ∧ made = .ok p ∧
      (m.store.own? c name = some v ∨ ¬ m.store.HasFunction id) ∧
      (m.store.HasContext c → result.2.store.own? c name = some v) ∧
      ((m.store.own? c name = some v → m.store.HasFunction id) →
        result.2.store.patterns id = addPattern p (m.store.meantPatterns c name)) := by
  intro result made
  have hresult : result = evaluateDefn c (.symbol name :: parameters :: forms) m :=
    evaluate_defnForm host depth h
  rw [hresult]
  constructor
  · intro id hthere
    exact patterns_evaluateDefn_ne c name parameters forms hthere
  · intro v hv
    exact evaluateDefn_eq_ok hv

/-! ## A function that was imported -/

/-- A session with a module whose function is imported into the root context. -/
def importedFunction : Machine :=
  let m := (Interpreter.start Host.basic none (.initial .empty 30)).2
  let m := Request.perform Host.basic firstRoot m (.load "n" "(defn f [Int] 1)")
  Request.perform Host.basic firstRoot m (.eval firstRoot "(import \"n\")")

theorem session_importedFunction : Session Host.basic firstRoot importedFunction := by
  refine .step (.eval firstRoot _) (.step (.load "n" _) (.new Host.basic .empty 30) trivial) ?_
  show 0 < _
  decide +kernel

/-- The session in which a definition for texts is about to be evaluated, under a name of the
root context. -/
def aboutToDefine (name : String) : Value × Machine :=
  let (expr, store) := importedFunction.store.ofForm
    (.list [.symbol "defn", .symbol name, .list [.symbol "list", .symbol "String"], .int 2])
  (expr, { importedFunction with store })

/-- The root context itself binds the imported name, so the definition changes the function of the
module. -/
theorem evaluate_defn_isolated_of_import :
    (evaluate Host.basic (9 + 1) (aboutToDefine "n.f").1 firstRoot
      (aboutToDefine "n.f").2).2.store.patterns ⟨0, "f"⟩ ≠
        (aboutToDefine "n.f").2.store.patterns ⟨0, "f"⟩ := by
  have hfacts : (aboutToDefine "n.f").1 = .list ⟨4⟩ ∧
      ((aboutToDefine "n.f").2.store.list ⟨4⟩).items =
        [.symbol "defn", .symbol "n.f", .list ⟨3⟩, .int 2] ∧
      ((aboutToDefine "n.f").2.store.list ⟨4⟩).evaluated = false ∧
      (aboutToDefine "n.f").2.store.headValue? firstRoot (.symbol "defn") =
        some (.native ⟨8, "defn", true, .form .defnForm⟩) ∧
      (aboutToDefine "n.f").2.store.HasFunction ⟨0, "f"⟩ ∧
      (aboutToDefine "n.f").2.store.own? firstRoot "n.f" = some (.function ⟨0, "f"⟩) ∧
      (makePattern firstRoot (.list ⟨3⟩) [.int 2] (aboutToDefine "n.f").2).1 =
        .ok ⟨⟨[.typed "String" none], none⟩, .int 2, firstRoot⟩ ∧
      addPattern ⟨⟨[.typed "String" none], none⟩, .int 2, firstRoot⟩
          ((aboutToDefine "n.f").2.store.patterns ⟨0, "f"⟩) ≠
        (aboutToDefine "n.f").2.store.patterns ⟨0, "f"⟩ := by
    decide +kernel
  obtain ⟨hexpr, hitems, hcode, hhead, hthere, hown, hmade, hchange⟩ := hfacts
  have hcell : (aboutToDefine "n.f").2.store.list ⟨4⟩ =
      ⟨[.symbol "defn", .symbol "n.f", .list ⟨3⟩, .int 2], false⟩ := by
    rw [← hitems, ← hcode]
  have hcall : (aboutToDefine "n.f").2.store.IsFormCall firstRoot .defnForm
      [.symbol "n.f", .list ⟨3⟩, .int 2] (aboutToDefine "n.f").1 :=
    ⟨8, "defn", ⟨4⟩, .symbol "defn", hexpr, hcell, hhead⟩
  have hisolated := (evaluate_defn_isolated Host.basic 9 hcall).1 ⟨0, "f"⟩ hthere
  exact hisolated.mpr ⟨⟨0, "f"⟩, _, hown, rfl, hmade, hchange⟩

/-- The function of a module gets another pattern by a definition in the root context. -/
theorem imported_function_is_extended :
    Session Host.basic firstRoot importedFunction ∧
      importedFunction.store.own? ⟨1, "n"⟩ "f" = some (.function ⟨0, "f"⟩) ∧
      (Interpreter.eval Host.basic firstRoot "(defn n.f [String] 2)"
          importedFunction).2.store.patterns ⟨0, "f"⟩ ≠
        importedFunction.store.patterns ⟨0, "f"⟩ := by
  refine ⟨session_importedFunction, ?_⟩
  decide +kernel

end DispatchLisp
