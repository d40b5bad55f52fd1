import DispatchLisp.Evaluation.Machine
import DispatchLisp.Reader.Parse

/-!
# Evaluation.Text — evaluating source text

The forms of a text are evaluated in order. Forms before a read error are evaluated too; the
read error then ends the evaluation.
-/

namespace DispatchLisp

/-- Evaluates forms in order and answers the last value, or a given one if there are none. -/
def evaluateForms (ev : Evaluator) (context : ContextId) (result : Value) :
    List Form → Eval Value
  | [] => return result
  | form :: rest => do
    let expr ← allocate fun s => s.ofForm form
    let v ← ev expr context
    evaluateForms ev context v rest

/-- Evaluates a text and answers the value of its last form. -/
def evaluateText (ev : Evaluator) (text : String) (context : ContextId) : Eval Value := do
  let transcript := parseAll text
  let v ← evaluateForms ev context .nothing transcript.forms
  match transcript.error with
  | none => return v
  | some e => throw (.unreadable e)

end DispatchLisp
