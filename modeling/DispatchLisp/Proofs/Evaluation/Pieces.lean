import DispatchLisp.Embedding.Natives
import DispatchLisp.Proofs.Evaluation.InOrder
import DispatchLisp.Proofs.Reader.Joining
import DispatchLisp.Proofs.Session

/-!
# Proofs.Evaluation.Pieces — evaluating a text in pieces

Evaluating a text takes a step for each form that can be read of it. The steps go through, or one
of them ends in a fault, or the reading fails behind the last of them (`RunsText`). As the forms of
two texts on lines of their own are those of the first and then those of the second, evaluating both
at once comes to what evaluating one after the other does (`evaluateText_in_pieces`).
-/

namespace DispatchLisp

/-! ## What evaluating a text comes to -/

/-- How the evaluation of a text ends: with the value of the last form, with a fault in one of the
forms, or at a place where no form can be read. -/
inductive TextResult where
  | value (v : Value)
  | fault (e : Fault)
  | unreadable (r : ReadError)

/-- What the evaluation of a text answers. -/
def TextResult.outcome : TextResult → Except Fault Value
  | value v => .ok v
  | fault e => .error e
  | unreadable r => .error (.unreadable r)

/-- The end of a text when another text stands on the lines before it: that text has a value to
answer if this one has no forms, and moves the places of this one on. -/
def TextResult.behind (before : String) (first : Value) (text : String) : TextResult → TextResult
  | value v => value (if (parseAll text).forms = [] then first else v)
  | fault e => fault e
  | unreadable r => unreadable (r.later (before.length + 1))

section

variable (ev : Evaluator) (c : ContextId)

/-- The steps that evaluating a text takes, one for each form that can be read of it. -/
def textSteps (text : String) : List (Eval Value) :=
  (parseAll text).forms.map (evaluateOne ev c)

/-- How a text is evaluated from a state on, and the state that is left. -/
inductive RunsText (text : String) (m : Machine) : TextResult → Machine → Prop where
  | value {values : List Value} {m' : Machine} :
      (parseAll text).error = none → InOrder (textSteps ev c text) m values m' →
      RunsText text m (.value (values.getLastD .nothing)) m'
  | fault {e : Fault} {m' : Machine} :
      StopsAt (textSteps ev c text) m e m' → RunsText text m (.fault e) m'
  | unreadable {r : ReadError} {values : List Value} {m' : Machine} :
      (parseAll text).error = some r → InOrder (textSteps ev c text) m values m' →
      RunsText text m (.unreadable r) m'

end

variable {ε α : Type} {ev : Evaluator} {c : ContextId} {m m' : Machine}

/-- Every text is evaluated in some way. -/
theorem exists_runsText (ev : Evaluator) (c : ContextId) (text : String) (m : Machine) :
    ∃ result m', RunsText ev c text m result m' := by
  rcases inOrder_or_stopsAt (textSteps ev c text) m with ⟨values, m', hall⟩ | ⟨e, m', hstop⟩
  · cases hread : (parseAll text).error with
    | none => exact ⟨_, m', .value hread hall⟩
    | some r => exact ⟨_, m', .unreadable hread hall⟩
  · exact ⟨_, m', .fault hstop⟩

theorem RunsText.evaluateText_eq {text : String} {result : TextResult}
    (h : RunsText ev c text m result m') : evaluateText ev text c m = (result.outcome, m') := by
  have hforms := evaluateForms_eq ev c .nothing (parseAll text).forms
  cases h with
  | value hread hall =>
      have hrun := (congrFun hforms m).trans (hall.lastOf_eq .nothing)
      rw [evaluateText, Computation.bind_of_ok hrun, hread]
      rfl
  | fault hstop =>
      have hrun := (congrFun hforms m).trans (hstop.lastOf_eq .nothing)
      rw [evaluateText, Computation.bind_of_error hrun]
      rfl
  | unreadable hread hall =>
      have hrun := (congrFun hforms m).trans (hall.lastOf_eq .nothing)
      rw [evaluateText, Computation.bind_of_ok hrun, hread]
      rfl

/-- A text whose evaluation answers a value was read to its end, and no form failed. -/
theorem runsText_of_ok {text : String} {v : Value} (h : evaluateText ev text c m = (.ok v, m')) :
    RunsText ev c text m (.value v) m' := by
  obtain ⟨result, after, hruns⟩ := exists_runsText ev c text m
  have hanswer := hruns.evaluateText_eq
  rw [h, Prod.mk.injEq] at hanswer
  obtain ⟨houtcome, rfl⟩ := hanswer
  cases result with
  | value w =>
      cases houtcome
      exact hruns
  | fault e => cases houtcome
  | unreadable r => cases houtcome

/-! ## Two texts -/

theorem textSteps_append (ev : Evaluator) (c : ContextId) {s₁ : String}
    (h : (parseAll s₁).error = none) (s₂ : String) :
    textSteps ev c (s₁ ++ "\n" ++ s₂) = textSteps ev c s₁ ++ textSteps ev c s₂ := by
  rw [textSteps, parseAll_append h, List.map_append]
  rfl

/-- The steps of a text are the first steps of the text with another one on the next line. -/
theorem exists_textSteps_append (ev : Evaluator) (c : ContextId) (s₁ s₂ : String) :
    ∃ others, textSteps ev c (s₁ ++ "\n" ++ s₂) = textSteps ev c s₁ ++ others := by
  obtain ⟨others, hforms⟩ := parseAll_forms_prefix s₁ s₂
  refine ⟨others.map (evaluateOne ev c), ?_⟩
  rw [textSteps, ← hforms, List.map_append]
  rfl

theorem getLastD_append {α : Type} (as bs : List α) (a : α) :
    (as ++ bs).getLastD a = if bs = [] then as.getLastD a else bs.getLastD a := by
  split
  case isTrue hnil => rw [hnil, List.append_nil]
  case isFalse hne =>
    obtain ⟨front, b, rfl⟩ := List.eq_nil_or_concat' bs |>.resolve_left hne
    rw [← List.append_assoc]
    simp only [List.getLastD_concat]

/-- A text on the next line goes on where the first text ended. -/
theorem RunsText.join {s₁ s₂ : String} {v₁ : Value} {m₁ : Machine} {result : TextResult}
    (h₁ : RunsText ev c s₁ m (.value v₁) m₁) (h₂ : RunsText ev c s₂ m₁ result m') :
    RunsText ev c (s₁ ++ "\n" ++ s₂) m (result.behind s₁ v₁ s₂) m' := by
  cases h₁ with
  | @value values _ hread₁ hall₁ =>
      have hread := congrArg Transcript.error (parseAll_append hread₁ s₂)
      have hsteps := textSteps_append ev c hread₁ s₂
      cases h₂ with
      | @value others _ hread₂ hall₂ =>
          have hall := hall₁.append hall₂
          rw [← hsteps] at hall
          -- a text without forms comes to no value, and leaves that of the text before it
          have hnone : others = [] ↔ (parseAll s₂).forms = [] := by
            rw [← List.length_eq_zero_iff, hall₂.length_eq, textSteps, List.length_map,
              List.length_eq_zero_iff]
          have hvalue := RunsText.value (by rw [hread, hread₂]; rfl) hall
          rw [getLastD_append] at hvalue
          simp only [hnone] at hvalue
          exact hvalue
      | fault hstop₂ =>
          refine .fault ?_
          rw [hsteps]
          exact hall₁.append_stopsAt hstop₂
      | unreadable hread₂ hall₂ =>
          have hall := hall₁.append hall₂
          rw [← hsteps] at hall
          exact .unreadable (by rw [hread, hread₂]; rfl) hall

/-- A fault in a text hides what is on the next lines. -/
theorem RunsText.fault_join {s₁ : String} {e : Fault} (h : RunsText ev c s₁ m (.fault e) m')
    (s₂ : String) : RunsText ev c (s₁ ++ "\n" ++ s₂) m (.fault e) m' := by
  cases h with
  | fault hstop =>
      obtain ⟨others, hsteps⟩ := exists_textSteps_append ev c s₁ s₂
      refine .fault ?_
      rw [hsteps]
      exact hstop.append others

/-- Evaluating a text in pieces comes to the same as evaluating it at once. Every text is evaluated
in one of three ways, and answers accordingly. Behind a text that answers a value, a text on the next
line ends as it does alone from the state that the first one left, in the same state and with the
same value or fault, or at a place that is further on by the first text; only if it has no form, the
first text answers for it. A fault in the first text is the answer for both, in the same state. And
where no form can be read, the state is the one that all forms before it left, in order. -/
theorem evaluateText_in_pieces (ev : Evaluator) (c : ContextId) (m : Machine) :
    (∀ text, ∃ result m', RunsText ev c text m result m') ∧
    (∀ text result m', RunsText ev c text m result m' →
      evaluateText ev text c m = (result.outcome, m')) ∧
    (∀ s₁ s₂ v₁ m₁ result m', evaluateText ev s₁ c m = (.ok v₁, m₁) →
      RunsText ev c s₂ m₁ result m' →
      evaluateText ev (s₁ ++ "\n" ++ s₂) c m = ((result.behind s₁ v₁ s₂).outcome, m')) ∧
    (∀ s₁ s₂ e m', RunsText ev c s₁ m (.fault e) m' →
      evaluateText ev (s₁ ++ "\n" ++ s₂) c m = (.error e, m')) ∧
    (∀ text r values m', (parseAll text).error = some r →
      InOrder (textSteps ev c text) m values m' →
      evaluateText ev text c m = (.error (.unreadable r), m')) := by
  refine ⟨fun text => exists_runsText ev c text m, fun _ _ _ h => h.evaluateText_eq, ?_, ?_, ?_⟩
  · intro s₁ s₂ v₁ m₁ result m' h₁ h₂
    exact ((runsText_of_ok h₁).join h₂).evaluateText_eq
  · intro s₁ s₂ e m' h
    exact (h.fault_join s₂).evaluateText_eq
  · intro text r values m' hread hall
    exact (RunsText.unreadable hread hall).evaluateText_eq

/-- The state after a first definition. -/
def afterDefinition : Machine :=
  (evaluateText (evaluateIn Host.basic) "(def x 1)" firstRoot (newSession Host.basic)).2

/-- A run is known from its answer, with the state that it leaves. -/
theorem eq_of_answer {x : Except ε α × Machine} {answer : Except ε α} (h : x.1 = answer) :
    x = (answer, x.2) := by
  rw [← h]

/-- A name that the first text defines has its value for the text on the next line, which then cannot
be read on. -/
theorem evaluateText_in_pieces_of_open_string :
    (evaluateText (evaluateIn Host.basic) ("(def x 1)" ++ "\n" ++ "x \x22") firstRoot
      (newSession Host.basic)).1 = .error (.unreadable ⟨.unterminatedString, some 12⟩) := by
  have hfirst : evaluateText (evaluateIn Host.basic) "(def x 1)" firstRoot
      (newSession Host.basic) = (.ok (.int 1), afterDefinition) := eq_of_answer (by decide +kernel)
  obtain ⟨m', hname⟩ : ∃ m', evaluateOne (evaluateIn Host.basic) firstRoot (.symbol "x")
      afterDefinition = (.ok (.int 1), m') := ⟨_, eq_of_answer (by decide +kernel)⟩
  have hread : parseAll "x \x22" = ⟨[.symbol "x"], some ⟨.unterminatedString, some 2⟩⟩ := rfl
  have hsteps : InOrder (textSteps (evaluateIn Host.basic) firstRoot "x \x22") afterDefinition
      [.int 1] m' := by
    rw [textSteps, hread, List.map_singleton]
    exact .cons hname (.nil _)
  have hsecond := RunsText.unreadable (congrArg Transcript.error hread) hsteps
  have hpieces := evaluateText_in_pieces (evaluateIn Host.basic) firstRoot (newSession Host.basic)
  rw [hpieces.2.2.1 _ _ _ _ _ _ hfirst hsecond]
  rfl

end DispatchLisp
