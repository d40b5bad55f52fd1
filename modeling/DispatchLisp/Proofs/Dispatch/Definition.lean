import DispatchLisp.Proofs.Context.Root
import DispatchLisp.Proofs.Dispatch.Isolation

/-!
# Proofs.Dispatch.Definition — a definition succeeds as a whole or changes nothing

A `defn` form checks everything before its first change. When it is refused (`RefusesDefinition`),
all contexts and functions are what they were. When it answers, its own context binds the name to a
function with the patterns that the name meant before and one more, whichever of the three ways it
took: a change in place, a copy, or a new function. `evaluate_defn_atomic` puts this together with
all that stays the same.
-/

namespace DispatchLisp

/-- The reasons for which a definition with some parts is refused. -/
inductive Store.RefusesDefinition (s : Store) (c : ContextId) : List Value → Prop where
  | short {exprs : List Value} : exprs.length < 2 → RefusesDefinition s c exprs
  | unnamed {target parameters : Value} {forms : List Value} : target.symbol? = none →
      RefusesDefinition s c (target :: parameters :: forms)
  | malformed {target parameters : Value} {forms : List Value} {e : Fault} :
      s.declareParameters c parameters = .error e →
      RefusesDefinition s c (target :: parameters :: forms)
  | native {name : String} {parameters : Value} {forms : List Value} {f : Native} :
      s.lookup? c name = some (.native f) →
      RefusesDefinition s c (.symbol name :: parameters :: forms)

section

variable {c : ContextId} {name : String} {p : Pattern} {m m' : Machine}

/-! ## The pattern that is made -/

/-- A pattern is made where the parameter list is well formed; it keeps the context of the form. -/
theorem makePattern_cases (c : ContextId) (parameters : Value) (forms : List Value) (m : Machine) :
    (∃ e, m.store.declareParameters c parameters = .error e ∧
      makePattern c parameters forms m = (.error e, m)) ∨
    ∃ p m', m.store.declareParameters c parameters = .ok p.parameters ∧ p.context = c ∧
      makePattern c parameters forms m = (.ok p, m') := by
  cases hdeclared : m.store.declareParameters c parameters with
  | error e =>
      have hquery : (queryStore fun s => s.declareParameters c parameters) m = (.error e, m) := by
        rw [queryStore, hdeclared]
      exact .inl ⟨e, rfl, Computation.bind_of_error hquery⟩
  | ok declared =>
      have hquery : (queryStore fun s => s.declareParameters c parameters) m = (.ok declared, m) := by
        rw [queryStore, hdeclared]
      have hbody : ∃ body m', makeBody forms m = (.ok body, m') := by
        rcases forms with _ | ⟨first, _ | ⟨second, others⟩⟩
        · exact ⟨_, _, rfl⟩
        · exact ⟨_, _, rfl⟩
        · exact ⟨_, _, rfl⟩
      obtain ⟨body, m', hbody⟩ := hbody
      refine .inr ⟨⟨declared, body, c⟩, m', rfl, rfl, ?_⟩
      rw [makePattern, Computation.bind_of_ok hquery, Computation.bind_of_ok hbody]
      rfl

/-! ## What stays the same -/

namespace Extended

variable {s s' : Store} {id : FunctionId}

/-- A definition changes the bindings of its own context at most. -/
theorem context_ne (h : Extended c name p s id s') {d : ContextId} (hd : d.index ≠ c.index) :
    s'.context d = s.context d := by
  cases h with
  | own _ => rfl
  | fresh label _ => exact Store.context_updateContext_ne hd _

/-- A definition binds its own name at most. -/
theorem own?_ne (h : Extended c name p s id s') (hc : s.HasContext c) {other : String}
    (hother : other ≠ name) : s'.own? c other = s.own? c other := by
  cases h with
  | own _ => rfl
  | fresh label _ =>
      have hthere : (s.newFunction label (addPattern p (s.meantPatterns c name))).2.HasContext c := hc
      rw [Store.own?_define hthere, if_neg (Ne.symm hother)]
      rfl

end Extended

theorem Quiet.hasContext (h : Quiet m m') {d : ContextId} :
    m'.store.HasContext d ↔ m.store.HasContext d := by
  unfold Store.HasContext
  rw [h.contexts]

theorem Quiet.context (h : Quiet m m') (d : ContextId) : m'.store.context d = m.store.context d :=
  Store.context_congr h.contexts d

/-! ## Refused or carried out -/

/-- A definition of a name that means a native ends with a fault, once its pattern is made. -/
theorem evaluateDefn_native {f : Native} {parameters : Value} {forms : List Value}
    (hnative : m.store.lookup? c name = some (.native f))
    (hmade : makePattern c parameters forms m = (.ok p, m')) (hquiet : Quiet m m') :
    evaluateDefn c (.symbol name :: parameters :: forms) m =
      (.error (.nativeRedefined name), m') := by
  have howner : (askStore fun s => s.find? c name : Eval (Option ContextId)) m' =
      (.ok (m'.store.find? c name), m') := rfl
  have hexisting : (askStore fun s => s.lookup? c name : Eval (Option Value)) m' =
      (.ok (some (.native f)), m') := by
    rw [askStore, Store.lookup?_congr hquiet.contexts, hnative]
  have hextend : extendBinding c name p m' = (.error (.nativeRedefined name), m') := by
    rw [extendBinding, Computation.bind_of_ok howner, Computation.bind_of_ok hexisting]
    rfl
  exact (Computation.bind_of_ok hmade).trans (Computation.bind_of_error hextend)

/-- What is named, well formed and no native is not refused. -/
theorem Store.RefusesDefinition.elim {s : Store} {parameters : Value} {forms : List Value}
    {declared : Parameters}
    (h : s.RefusesDefinition c (.symbol name :: parameters :: forms))
    (hdeclared : s.declareParameters c parameters = .ok declared) :
    ∃ f, s.lookup? c name = some (.native f) := by
  cases h with
  | short hshort => exact absurd hshort (by simp)
  | unnamed hname => cases hname
  | malformed hfail =>
      rw [hdeclared] at hfail
      cases hfail
  | native hnative => exact ⟨_, hnative⟩

/-- A definition is refused and quiet, or it extends what its name means. -/
theorem evaluateDefn_atomic (c : ContextId) (exprs : List Value) (m : Machine) :
    (m.store.RefusesDefinition c exprs ∧
      ∃ e m', evaluateDefn c exprs m = (.error e, m') ∧ Quiet m m') ∨
    ¬ m.store.RefusesDefinition c exprs ∧
      ∃ name parameters forms p m₁ id store m',
        exprs = .symbol name :: parameters :: forms ∧
        makePattern c parameters forms m = (.ok p, m₁) ∧
        m.store.declareParameters c parameters = .ok p.parameters ∧ p.context = c ∧
        Quiet m m₁ ∧ Extended c name p m₁.store id store ∧ Quiet { m₁ with store } m' ∧
        evaluateDefn c exprs m = (.ok (.function id), m') := by
  rcases exprs with _ | ⟨target, _ | ⟨parameters, forms⟩⟩
  · exact .inl ⟨.short (by simp), _, m, rfl, quiet.refl m⟩
  · exact .inl ⟨.short (by simp), _, m, rfl, quiet.refl m⟩
  cases htarget : target.symbol? with
  | none =>
      have hrun : ∃ e, evaluateDefn c (target :: parameters :: forms) m = (.error e, m) := by
        rw [evaluateDefn, htarget]
        cases htext : m.store.render target with
        | error e => exact ⟨e, Computation.bind_of_error (by rw [textOf, queryStore, htext])⟩
        | ok text => exact ⟨_, Computation.bind_of_ok (by rw [textOf, queryStore, htext])⟩
      obtain ⟨e, hrun⟩ := hrun
      exact .inl ⟨.unnamed htarget, e, m, hrun, quiet.refl m⟩
  | some name =>
      obtain rfl : target = .symbol name := by
        unfold Value.symbol? at htarget
        split at htarget
        · cases htarget
          rfl
        · cases htarget
      rcases evaluateDefn_cases c name parameters forms m with
        ⟨e, m', hrun, hquiet, hfail⟩ |
          ⟨p, m₁, id, store, m', hmade, hbefore, hextended, hafter, hrun⟩
      · -- the pattern is not made, or the name means a native
        refine .inl ⟨?_, e, m', hrun, hquiet⟩
        rcases makePattern_cases c parameters forms m with ⟨_, hbad, _⟩ | ⟨p, _, _, _, hmade⟩
        · exact .malformed hbad
        · obtain ⟨f, hnative⟩ := hfail p (congrArg Prod.fst hmade)
          exact .native hnative
      · obtain ⟨hdeclared, hcontext⟩ : m.store.declareParameters c parameters =
            .ok p.parameters ∧ p.context = c := by
          rcases makePattern_cases c parameters forms m with
            ⟨_, _, hfail⟩ | ⟨q, _, hdeclared, hcontext, hq⟩
          · rw [hmade] at hfail
            cases hfail
          · rw [hmade] at hq
            cases hq
            exact ⟨hdeclared, hcontext⟩
        refine .inr ⟨fun hrefused => ?_, name, parameters, forms, p, m₁, id, store, m', rfl, hmade,
          hdeclared, hcontext, hbefore, hextended, hafter, hrun⟩
        obtain ⟨f, hnative⟩ := hrefused.elim hdeclared
        rw [evaluateDefn_native hnative hmade hbefore] at hrun
        cases hrun

end

/-- A definition is atomic. It is refused exactly when it has fewer than two parts, its name is no
symbol, its parameter list is malformed, or its name means a native anywhere along the chain; then no
context and no function has changed. Otherwise its context itself binds the name to a function whose
patterns are those that the name meant before, none if it meant no function, and one more, whether the
function was its own or comes from further out. All its other bindings, all other contexts, and all
functions but the one that it bound itself are as they were, so an outer function keeps its patterns. -/
theorem evaluate_defn_atomic (host : Host) (depth : Nat) {m : Machine} {c : ContextId} {expr : Value}
    {exprs : List Value} (h : m.store.IsFormCall c .defnForm exprs expr)
    (hc : m.store.HasContext c)
    (hfunctions : ∀ name id, m.store.own? c name = some (.function id) → m.store.HasFunction id) :
    let result := evaluate host (depth + 1) expr c m
    let after := result.2.store
    ((∃ e, result.1 = .error e) ↔ m.store.RefusesDefinition c exprs) ∧
    (∀ e, result.1 = .error e →
      after.contexts = m.store.contexts ∧ after.functions = m.store.functions) ∧
    ∀ v, result.1 = .ok v → ∃ name parameters forms p id,
      exprs = .symbol name :: parameters :: forms ∧
      (makePattern c parameters forms m).1 = .ok p ∧ p.context = c ∧
      m.store.declareParameters c parameters = .ok p.parameters ∧
      (∀ f, m.store.lookup? c name ≠ some (.native f)) ∧
      v = .function id ∧ after.own? c name = some v ∧
      after.patterns id = addPattern p (m.store.meantPatterns c name) ∧
      (∀ other, other ≠ name → after.own? c other = m.store.own? c other) ∧
      (∀ d, d.index ≠ c.index → after.context d = m.store.context d) ∧
      ∀ g, m.store.HasFunction g →
        (∀ own, m.store.own? c name = some (.function own) → own.index ≠ g.index) →
        after.patterns g = m.store.patterns g := by
  intro result after
  have hresult : result = evaluateDefn c exprs m := evaluate_defnForm host depth h
  have hafter : after = (evaluateDefn c exprs m).2.store := congrArg (·.2.store) hresult
  rw [hresult, hafter]
  rcases evaluateDefn_atomic c exprs m with ⟨hrefused, e, m', hrun, hquiet⟩ |
    ⟨haccepted, name, parameters, forms, p, m₁, id, store, m', rfl, hmade, hdeclared, hcontext,
      hbefore, hextended, hquiet, hrun⟩
  · rw [hrun]
    refine ⟨⟨fun _ => hrefused, fun _ => ⟨e, rfl⟩⟩, fun _ _ => ⟨hquiet.contexts, hquiet.functions⟩, ?_⟩
    intro v hv
    cases hv
  · have hthere : m₁.store.HasContext c := hbefore.hasContext.mpr hc
    have hkept : ∀ d, m'.store.context d = store.context d := hquiet.context
    rw [hrun]
    refine ⟨⟨?_, fun hrefused => absurd hrefused haccepted⟩, ?_, ?_⟩
    · rintro ⟨e, he⟩
      cases he
    · intro e he
      cases he
    intro v hv
    cases hv
    refine ⟨name, parameters, forms, p, id, rfl, congrArg Prod.fst hmade, hcontext, hdeclared,
      fun f hnative => haccepted (.native hnative), rfl, ?_, ?_, ?_, ?_, ?_⟩
    · exact (hquiet.own? c name).trans (hextended.own_after hthere)
    · -- the patterns of the function that the name is bound to
      have hown : m₁.store.own? c name = some (.function id) → m₁.store.HasFunction id := by
        rw [hbefore.own?, hbefore.hasFunction]
        exact hfunctions name id
      rw [← hbefore.meantPatterns, ← hextended.patterns_self hown]
      exact hquiet.patterns id
    · -- other names, other contexts, and other functions
      intro other hother
      rw [← hbefore.own?, ← hextended.own?_ne hthere hother]
      exact hquiet.own? c other
    · intro d hd
      rw [hkept, hextended.context_ne hd, hbefore.context]
    · intro g hg hnot
      have hg₁ : m₁.store.HasFunction g := hbefore.hasFunction.mpr hg
      have hsame : store.patterns g = m₁.store.patterns g := by
        by_contra hne
        obtain ⟨hown, hindex, _⟩ := (hextended.patterns_ne hg₁).mp hne
        rw [hbefore.own?] at hown
        exact hnot id hown hindex
      rw [← hbefore.patterns, ← hsame]
      exact hquiet.patterns g

/-- A `let` frame inside a root whose function `f` takes whole numbers, with the code of a definition of
`f` for texts: the code, the frame, and the machine. -/
def definitionInLet : Value × ContextId × Machine :=
  let m := (Interpreter.eval Host.basic firstRoot "(defn f [Int] 1)" (newSession Host.basic)).2
  let (inner, s) := m.store.newContext "let" (some firstRoot)
  let (expr, s) := s.ofForm
    (.list [.symbol "defn", .symbol "f", .list [.symbol "list", .symbol "String"], .int 2])
  (expr, inner, { m with store := s })

/-- The frame binds a copy with one more pattern, and the function of the root keeps its own. -/
theorem evaluate_defn_atomic_of_copy :
    let result := evaluate Host.basic (0 + 1) definitionInLet.1 definitionInLet.2.1 definitionInLet.2.2
    result.2.store.patterns ⟨0, "f"⟩ = definitionInLet.2.2.store.patterns ⟨0, "f"⟩ ∧
      ∃ id p, result.2.store.own? definitionInLet.2.1 "f" = some (.function id) ∧
        result.2.store.patterns id =
          addPattern p (definitionInLet.2.2.store.patterns ⟨0, "f"⟩) := by
  have hfacts : definitionInLet.1 = .list ⟨3⟩ ∧
      (definitionInLet.2.2.store.list ⟨3⟩).items =
        [.symbol "defn", .symbol "f", .list ⟨2⟩, .int 2] ∧
      (definitionInLet.2.2.store.list ⟨3⟩).evaluated = false ∧
      definitionInLet.2.2.store.headValue? definitionInLet.2.1 (.symbol "defn") =
        some (.native ⟨8, "defn", true, .form .defnForm⟩) ∧
      definitionInLet.2.2.store.HasContext definitionInLet.2.1 ∧
      (definitionInLet.2.2.store.context definitionInLet.2.1).table = [] ∧
      definitionInLet.2.2.store.HasFunction ⟨0, "f"⟩ ∧
      definitionInLet.2.2.store.lookup? definitionInLet.2.1 "f" = some (.function ⟨0, "f"⟩) ∧
      (evaluate Host.basic (0 + 1) definitionInLet.1 definitionInLet.2.1 definitionInLet.2.2).1 =
        .ok (.function ⟨1, "f"⟩) := by
    decide +kernel
  obtain ⟨hexpr, hitems, hcode, hhead, hcontext, htable, hthere, hmeans, hresult⟩ := hfacts
  have hcell : definitionInLet.2.2.store.list ⟨3⟩ =
      ⟨[.symbol "defn", .symbol "f", .list ⟨2⟩, .int 2], false⟩ := by
    rw [← hitems, ← hcode]
  have hcall : definitionInLet.2.2.store.IsFormCall definitionInLet.2.1 .defnForm
      [.symbol "f", .list ⟨2⟩, .int 2] definitionInLet.1 :=
    ⟨8, "defn", ⟨3⟩, .symbol "defn", hexpr, hcell, hhead⟩
  have hnothing : ∀ name, definitionInLet.2.2.store.own? definitionInLet.2.1 name = none := by
    intro name
    rw [Store.own?, htable]
    rfl
  obtain ⟨_, _, hdone⟩ := evaluate_defn_atomic Host.basic 0 hcall hcontext
    fun name id hown => by
      rw [hnothing] at hown
      cases hown
  obtain ⟨name, _, _, p, id, hexprs, _, _, _, _, hid, hown, hpatterns, _, _, hkept⟩ :=
    hdone _ hresult
  cases hexprs
  rw [hid] at hown
  refine ⟨hkept ⟨0, "f"⟩ hthere ?_, id, p, hown, ?_⟩
  · intro own hown
    rw [hnothing] at hown
    cases hown
  · rw [hpatterns, Store.meantPatterns, hmeans]

end DispatchLisp
