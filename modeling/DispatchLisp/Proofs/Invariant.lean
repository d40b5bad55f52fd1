import DispatchLisp.Proofs.Module.Reload
import DispatchLisp.Proofs.Session

/-!
# Proofs.Invariant — properties that hold throughout a session

A property of stores is *lasting* when it holds of the store in which nothing has been made, every
evaluation keeps it, and so do the steps that only requests take: replacing the bindings of a
context and importing a context again into everyone who imports it. A lasting property holds in
every state of a session (`Lasting.session`).
-/

namespace DispatchLisp

/-- Whether a property that a store has is not lost. -/
def Preserves (P : Store → Prop) (_ : ContextId) (m m' : Machine) : Prop :=
  P m.store → P m'.store

/-- Properties of stores that hold at the start and that all steps keep. -/
structure Lasting (P : Store → Prop) : Prop where
  empty : P .empty
  frame : Frame (Preserves P)
  replaceTable : ∀ s c table, P s → P (s.replaceTable c table)
  propagate : ∀ s c, P s → P (s.propagate c)

namespace Lasting

variable {P : Store → Prop} {host : Host} {main : ContextId} {m : Machine}

theorem newContext (h : Lasting P) {s : Store} (hs : P s) (name : String)
    (parent : Option ContextId) : P (s.newContext name parent).2 :=
  -- a form that does no work in its new context
  h.frame.inside ⟨0, ""⟩ { Machine.initial .empty 0 with store := s } name parent
    { Machine.initial .empty 0 with store := (s.newContext name parent).2 } id hs

theorem define (h : Lasting P) {s : Store} (hs : P s) (c : ContextId)
    (entries : List (String × Value)) : P (s.defineAll c entries) :=
  h.frame.defineAll c { Machine.initial .empty 0 with store := s } entries hs

theorem onlyValues (h : Lasting P) {s s' : Store} (hs : P s) (hvalues : s.OnlyValues s') : P s' := by
  have hquiet : Quiet { Machine.initial .empty 0 with store := s }
      { Machine.initial .empty 0 with store := s' } := hvalues.quiet
  exact h.frame.ofQuiet ⟨0, ""⟩ _ _ hquiet hs

theorem defineNative (h : Lasting P) {s : Store} (hs : P s) (c : ContextId) (name : String)
    (lazy : Bool) (role : NativeRole) : P (s.defineNative c name lazy role).2 := by
  have hnative : P (s.newNative name lazy role).2 :=
    h.onlyValues hs ⟨rfl, rfl, rfl, Nat.le_refl _, Nat.le_refl _⟩
  exact h.define hnative c [(name, .native (s.newNative name lazy role).1)]

theorem newRoot (h : Lasting P) {s : Store} (hs : P s) : P s.newRoot.2 := by
  let main := (s.newContext rootName none).1
  have hnatives := List.foldlRecOn (motive := P) rootNatives
    (fun s (native : String × Bool × NativeRole) =>
      (s.defineNative main native.1 native.2.1 native.2.2).2) (h.newContext hs rootName none)
    fun s' hs' native _ => h.defineNative hs' main _ _ _
  exact h.define (h.define hnatives main _) main _

/-! ## Requests -/

theorem evaluateText (h : Lasting P) (hhost : host.Respects (Preserves P)) (code : String)
    (c : ContextId) (hm : P m.store) : P (DispatchLisp.evaluateText (evaluateIn host) code c m).2.store :=
  h.frame.evaluateText (h.frame.evaluate hhost depthLimit) code m hm

theorem ofQuiet (h : Lasting P) {m' : Machine} (hquiet : Quiet m m') (hm : P m.store) :
    P m'.store :=
  h.frame.ofQuiet ⟨0, ""⟩ m m' hquiet hm

theorem loadModule (h : Lasting P) (hhost : host.Respects (Preserves P)) (name source : String)
    (path : Option Path) (hm : P m.store) :
    P (DispatchLisp.loadModule (evaluateIn host) name source path m).2.store := by
  have hnew : P (m.inNewContext name m.root).store := h.newContext hm name m.root
  have hwork := h.evaluateText hhost source (m.nextContext name) hnew
  rcases hrun : DispatchLisp.evaluateText (evaluateIn host) source (m.nextContext name)
    (m.inNewContext name m.root) with ⟨e | v, after⟩
  · rw [hrun] at hwork
    rw [Frame.loadModule_of_error hrun]
    exact hwork
  · rw [hrun] at hwork
    rcases Frame.loadModule_of_ok hrun path with ⟨m', hload, hquiet⟩
    rw [hload]
    exact h.ofQuiet hquiet hwork

theorem reload (h : Lasting P) (hhost : host.Respects (Preserves P)) (name : String)
    (given : Option String) (hm : P m.store) :
    P ((Interpreter.reload host name given : Eval _) m).2.store := by
  rcases @reload_cases Fault host name given m with
    ⟨e, m', hresult, hquiet⟩ | ⟨module, text, after, _, _, hcases⟩
  · rw [hresult]
    exact h.ofQuiet hquiet hm
  have hemptied : P (m.emptied module.context).store := h.replaceTable _ _ _ hm
  have hwork := h.evaluateText hhost text module.context hemptied
  -- after a failure the bindings are put back, after a success they are handed on
  rcases hcases with ⟨e, m', hrun, hresult, hquiet⟩ | ⟨v, m', hrun, hresult, hquiet⟩
  · rw [hrun] at hwork
    rw [hresult]
    exact h.ofQuiet hquiet (h.replaceTable _ _ _ hwork)
  · rw [hrun] at hwork
    rw [hresult]
    exact h.ofQuiet hquiet (h.propagate _ _ hwork)

theorem defineType (h : Lasting P) (name : String) :
    Keeps (Preserves P main) (Interpreter.defineType main name : Eval String) :=
  (h.frame.accumulates main).bind (h.frame.define name _) fun _ => (h.frame.accumulates main).pure _

theorem exposeObject (h : Lasting P) (name className : String) (handle : Nat)
    (type : Option String) :
    Keeps (Preserves P main)
      (Interpreter.exposeObject main name className handle type : Eval HostObject) := by
  have hF := h.frame.accumulates main
  have hexpose : ∀ typeName, Keeps (Preserves P main) (do
      let object : HostObject := ⟨typeName, className, handle⟩
      change fun m => { m with objects := m.objects.set name object }
      changeStore fun s => s.define main name (.object object)
      return object : Eval HostObject) := by
    intro typeName
    refine hF.bind ?_ fun _ => hF.bind (h.frame.define name _) fun _ => hF.pure _
    intro m hm
    exact hm
  cases type with
  | none => exact hF.bind (hF.pure _) hexpose
  | some type =>
      refine hF.bind (hF.bind (hF.askStore _) fun bound => ?_) hexpose
      split
      · exact hF.pure _
      · exact h.defineType type

theorem registerObject (h : Lasting P) (name className : String) (type : Option String) :
    Keeps (Preserves P main)
      (Interpreter.registerObject main name className type : Eval HostObject) :=
  (h.frame.accumulates main).bind (h.frame.quietly (quiet_newObject _ _)) fun _ =>
    h.exposeObject name className _ type

/-- Every request keeps a lasting property. -/
theorem perform (h : Lasting P) (hhost : host.Respects (Preserves P)) (request : Request)
    (hm : P m.store) : P (request.perform host main m).store := by
  cases request with
  | eval c code => exact h.evaluateText hhost code c hm
  | run c code =>
      exact h.ofQuiet (@quiet_after_run Fault host c code m) (h.evaluateText hhost code c hm)
  | load name source => exact h.loadModule hhost name source none hm
  | loadFile name =>
      exact Frame.loadModuleFile_of_loadModule (h.frame.accumulates main)
        (fun source path hm => h.loadModule hhost name source path hm) hm
  | reload name given => exact h.reload hhost name given hm
  | importModule c name qualifier =>
      exact h.frame.importModule (h.frame.evaluate hhost depthLimit) name qualifier m hm
  | defineNative name key lazy => exact h.defineNative hm main name lazy (.host key)
  | defineType name => exact h.defineType name m hm
  | registerObject name className type => exact h.registerObject name className type m hm
  | changeDisk disk => exact hm

theorem start (h : Lasting P) (hhost : host.Respects (Preserves P)) {prelude : Option String}
    {disk : Disk} {logThreshold : Nat}
    (hstart : Interpreter.start host prelude (.initial disk logThreshold) = (.ok main, m)) :
    P m.store := by
  have hroot : P ((Interpreter.makeRoot : Eval ContextId) (.initial disk logThreshold)).2.store :=
    h.defineNative (h.newRoot h.empty) _ _ _ _
  rcases Computation.bind_eq_ok hstart with ⟨c, m1, hmade, hrest⟩
  rw [hmade] at hroot
  cases prelude with
  | none =>
      cases hrest
      exact hroot
  | some code =>
      rcases Computation.bind_eq_ok hrest with ⟨v, m2, hcode, hreturn⟩
      cases hreturn
      have hwork := h.evaluateText hhost code main hroot
      rw [← Interpreter.eval, hcode] at hwork
      exact hwork

/-- A lasting property holds in every state of a session. -/
theorem session (h : Lasting P) (hhost : host.Respects (Preserves P)) (hm : Session host main m) :
    P m.store := by
  induction hm with
  | start hstart => exact h.start hhost hstart
  | step request _ _ ih => exact h.perform hhost request ih

end Lasting

end DispatchLisp
