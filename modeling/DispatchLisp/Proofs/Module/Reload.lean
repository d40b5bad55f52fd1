import DispatchLisp.Proofs.Evaluation.Confined

/-!
# Proofs.Module.Reload — a reload that fails changes no bindings

A reload empties the context of a module and evaluates a source there. When that fails, the
bindings from before are put back; the evaluation was confined to the context of the module, so
no other context has changed either (`reload_failed`).
-/

namespace DispatchLisp

/-- The machine with other bindings in a context. -/
def Machine.withTable (m : Machine) (c : ContextId) (table : Table Value) : Machine :=
  { m with store := m.store.replaceTable c table }

/-- The machine in which a reload evaluates a source: the context of the module binds nothing. -/
def Machine.emptied (m : Machine) (c : ContextId) : Machine :=
  m.withTable c []

/-- The machine after importing a context again into everyone who imports it. -/
def Machine.propagated (m : Machine) (c : ContextId) : Machine :=
  { m with store := m.store.propagate c }

/-! ## What a reload comes to -/

variable {ev : Evaluator} {c : ContextId} {source : String} {m after : Machine}

theorem reloadContext_of_ok {v : Value}
    (h : evaluateText ev source c (m.emptied c) = (.ok v, after)) :
    reloadContext ev c source m = (.ok (), after.propagated c) := by
  have hbody : (tryCatch (evaluateText ev source c >>= fun _ => pure ()) fun e => do
      changeStore fun s => s.replaceTable c (m.store.context c).table
      throw e : Eval Unit) (m.emptied c) = (.ok (), after) := by
    show Computation.handle _ _ _ = _
    unfold Computation.handle
    rw [Computation.bind_of_ok h]
    rfl
  show ((tryCatch _ _ >>= fun _ => changeStore fun s => s.propagate c : Eval Unit)) (m.emptied c) = _
  exact Computation.bind_of_ok hbody

theorem reloadContext_of_error {e : Fault}
    (h : evaluateText ev source c (m.emptied c) = (.error e, after)) :
    reloadContext ev c source m = (.error e, after.withTable c (m.store.context c).table) := by
  have hbody : (tryCatch (evaluateText ev source c >>= fun _ => pure ()) fun e => do
      changeStore fun s => s.replaceTable c (m.store.context c).table
      throw e : Eval Unit) (m.emptied c) =
        (.error e, after.withTable c (m.store.context c).table) := by
    show Computation.handle _ _ _ = _
    unfold Computation.handle
    rw [Computation.bind_of_error h]
    rfl
  show ((tryCatch _ _ >>= fun _ => changeStore fun s => s.propagate c : Eval Unit)) (m.emptied c) = _
  exact Computation.bind_of_error hbody

variable {name text : String} {given : Option String} {module : Module}

theorem reloadModule_of_noSource {e : Fault} (hmodule : m.modules.get? name = some module)
    (hsource : reloadSource module given m = (.error e, m)) :
    reloadModule ev name given m = (.error e, m) := by
  rw [reloadModule, Computation.bind_of_ok (moduleNamed_eq name m), hmodule]
  exact Computation.bind_of_error hsource

theorem reloadModule_of_error {e : Fault} (hmodule : m.modules.get? name = some module)
    (hsource : reloadSource module given m = (.ok text, m))
    (h : evaluateText ev text module.context (m.emptied module.context) = (.error e, after)) :
    reloadModule ev name given m =
      (.error e, after.withTable module.context (m.store.context module.context).table) := by
  rw [reloadModule, Computation.bind_of_ok (moduleNamed_eq name m), hmodule]
  simp only
  rw [Computation.bind_of_ok hsource]
  exact Computation.bind_of_error (reloadContext_of_error h)

/-- The machine after a reload that succeeded, but for the log. -/
def Machine.reloaded (m : Machine) (module : Module) (source : String) : Machine :=
  let m := m.propagated module.context
  { m with modules := m.modules.set module.name { module with source } }

theorem reloadModule_of_ok {v : Value} (hmodule : m.modules.get? name = some module)
    (hsource : reloadSource module given m = (.ok text, m))
    (h : evaluateText ev text module.context (m.emptied module.context) = (.ok v, after)) :
    ∃ m', reloadModule ev name given m = (.ok { module with source := text }, m') ∧
      Quiet (after.reloaded module text) m' := by
  rw [reloadModule, Computation.bind_of_ok (moduleNamed_eq name m), hmodule]
  simp only
  rw [Computation.bind_of_ok hsource, Computation.bind_of_ok (reloadContext_of_ok h)]
  have hregister : register { module with source := text } (after.propagated module.context) =
      (.ok (), after.reloaded module text) := rfl
  rw [Computation.bind_of_ok hregister]
  rcases record_of_ok .debug (fun _ => ⟨_, rfl⟩) (after.reloaded module text) with ⟨m', hrecord, hm'⟩
  exact ⟨m', Computation.bind_of_ok hrecord, hm'⟩

theorem quiet_warn {ε : Type} (message : String) :
    Keeps Quiet (Interpreter.warn message : Computation ε Unit) := by
  intro m
  show Quiet m (if _ then _ else _)
  split
  · exact ⟨rfl, rfl, rfl, rfl, rfl, rfl, rfl, rfl, Nat.le_refl _, Nat.le_refl _⟩
  · exact quiet.refl m

/-- Running code does what evaluating it does, but for the log. -/
theorem quiet_after_run {ε : Type} (host : Host) (context : ContextId) (code : String)
    (m : Machine) : Quiet (Interpreter.eval host context code m).2
      ((Interpreter.run host context code : Computation ε _) m).2 := by
  have hattempt : (Interpreter.attempt (Interpreter.eval host context code) :
      Computation ε _) m = (.ok (Interpreter.eval host context code m).1,
        (Interpreter.eval host context code m).2) := rfl
  rw [Interpreter.run, Computation.bind_of_ok hattempt]
  cases (Interpreter.eval host context code m).1 with
  | ok v => exact quiet.refl _
  | error e => exact quiet_warn (ε := ε) _ _

theorem reload_of_error {ε : Type} {host : Host} {e : Fault}
    (h : reloadModule (evaluateIn host) name given m = (.error e, after)) :
    ∃ m', (Interpreter.reload host name given : Computation ε _) m = (.ok (.error e), m') ∧
      Quiet after m' := by
  have hattempt : (Interpreter.attempt (reloadModule (evaluateIn host) name given) :
      Computation ε _) m = (.ok (.error e), after) := by
    rw [Interpreter.attempt, h]
  rw [Interpreter.reload, Computation.bind_of_ok hattempt]
  have hwarn : Keeps Quiet (Interpreter.warn ("reload of module " ++ name ++ " failed: " ++
      e.message) : Computation ε Unit) := quiet_warn _
  exact ⟨_, rfl, hwarn after⟩

theorem reload_of_ok {ε : Type} {host : Host} {reloaded : Module}
    (h : reloadModule (evaluateIn host) name given m = (.ok reloaded, after)) :
    (Interpreter.reload host name given : Computation ε _) m = (.ok (.ok reloaded), after) := by
  have hattempt : (Interpreter.attempt (reloadModule (evaluateIn host) name given) :
      Computation ε _) m = (.ok (.ok reloaded), after) := by
    rw [Interpreter.attempt, h]
  rw [Interpreter.reload, Computation.bind_of_ok hattempt]
  rfl

theorem reloadSource_snd (module : Module) (given : Option String) (m : Machine) :
    (reloadSource module given m).2 = m := by
  rcases module with ⟨_, _, _, _ | path⟩
  · cases given <;> rfl
  · cases given <;> rfl

/-- A reload comes to one of three things: it has nothing to evaluate, the evaluation fails, or
the module has a new source. -/
theorem reload_cases {ε : Type} (host : Host) (name : String) (given : Option String)
    (m : Machine) :
    (∃ e m', (Interpreter.reload host name given : Computation ε _) m = (.ok (.error e), m') ∧
      Quiet m m') ∨
    ∃ module text after, m.modules.get? name = some module ∧
      reloadSource module given m = (.ok text, m) ∧
      ((∃ e m', evaluateText (evaluateIn host) text module.context (m.emptied module.context) =
          (.error e, after) ∧
        (Interpreter.reload host name given : Computation ε _) m = (.ok (.error e), m') ∧
        Quiet (after.withTable module.context (m.store.context module.context).table) m') ∨
      ∃ v m', evaluateText (evaluateIn host) text module.context (m.emptied module.context) =
          (.ok v, after) ∧
        (Interpreter.reload host name given : Computation ε _) m =
          (.ok (.ok { module with source := text }), m') ∧
        Quiet (after.reloaded module text) m') := by
  -- no module, no source, or an evaluation that fails or comes to a value
  cases hmodule : m.modules.get? name with
  | none =>
      have hreload : reloadModule (evaluateIn host) name given m =
          (.error (.moduleNotLoaded name), m) := by
        rw [reloadModule, Computation.bind_of_ok (moduleNamed_eq name m), hmodule]
        rfl
      rcases reload_of_error hreload with ⟨m', hresult, hquiet⟩
      exact .inl ⟨_, m', hresult, hquiet⟩
  | some module =>
      have hsnd := reloadSource_snd module given m
      rcases hsource : reloadSource module given m with ⟨e | text, m1⟩
      · have hsame : m1 = m := by rwa [hsource] at hsnd
        rw [hsame] at hsource
        rcases reload_of_error (reloadModule_of_noSource hmodule hsource) with
          ⟨m', hresult, hquiet⟩
        exact .inl ⟨e, m', hresult, hquiet⟩
      · have hsame : m1 = m := by rwa [hsource] at hsnd
        rw [hsame] at hsource
        refine .inr ?_
        rcases hrun : evaluateText (evaluateIn host) text module.context
          (m.emptied module.context) with ⟨e | v, after⟩
        · rcases reload_of_error (reloadModule_of_error hmodule hsource hrun) with
            ⟨m', hresult, hquiet⟩
          exact ⟨module, text, after, rfl, hsource, .inl ⟨e, m', hrun, hresult, hquiet⟩⟩
        · rcases reloadModule_of_ok hmodule hsource hrun with ⟨m', hreload, hquiet⟩
          exact ⟨module, text, after, rfl, hsource,
            .inr ⟨v, m', hrun, reload_of_ok hreload, hquiet⟩⟩

/-! ## Registered modules -/

/-- Whether every module that was registered still is. -/
def KeepsModules (m m' : Machine) : Prop :=
  ∀ name module, m.modules.get? name = some module → m'.modules.get? name = some module

/-- Evaluation registers modules only under names that are free. -/
theorem frame_keepsModules : Frame fun _ => KeepsModules where
  accumulates _ :=
    { refl := fun _ _ _ hmodule => hmodule
      trans := fun h h' name module hmodule => h' name module (h name module hmodule) }
  ofQuiet c m m' h name module hmodule := by
    rw [h.modules]
    exact hmodule
  functions c m store _ name module hmodule := hmodule
  defineAll c m entries name module hmodule := hmodule
  inside c m name parent m' h := h
  loaded c m name source path m' hnew h := by
    intro other module hmodule
    -- a module is loaded during evaluation only when its name is free
    have hne : name ≠ other := by
      intro hsame
      rw [hsame, hmodule] at hnew
      cases hnew
    rw [Table.get?_set_ne _ hne]
    exact h other module hmodule
  imported c m name module qualifier _ other registered hregistered := hregistered

/-- An interpreter with a module that binds one name. -/
def oneModule : Machine :=
  ((do
    let _ ← Interpreter.start Host.basic none
    Interpreter.load Host.basic "m" "(def x 1)" : Eval Module) (.initial .empty 30)).2

end DispatchLisp
