import DispatchLisp.Evaluation.Apply
import DispatchLisp.Proofs.Evaluation.Keeps
import Mathlib.Data.List.Forall2

/-!
# Proofs.Evaluation.InOrder — steps that are taken one after another

A list of computations either goes through, each in the state that the one before it left behind
(`InOrder`), or one of them ends early and those behind it are never begun (`StopsAt`). Whatever
evaluates several expressions does one or the other: the forms of a text, the body of a form, and
the arguments of a call. The first two answer the last value, the third all of them.
-/

namespace DispatchLisp

variable {ε α : Type}

/-! ## Runs of several steps -/

/-- All steps go through in order, each from the state that the one before it left behind, and
answer these values. -/
inductive InOrder : List (Computation ε α) → Machine → List α → Machine → Prop where
  | nil (m : Machine) : InOrder [] m [] m
  | cons {x : Computation ε α} {xs : List (Computation ε α)} {a : α} {as : List α}
      {m m' m'' : Machine} :
      x m = (.ok a, m') → InOrder xs m' as m'' → InOrder (x :: xs) m (a :: as) m''

/-- The steps go through in order up to one that ends early; those behind it are not begun. -/
inductive StopsAt : List (Computation ε α) → Machine → ε → Machine → Prop where
  | here {x : Computation ε α} {m m' : Machine} {e : ε} (xs : List (Computation ε α)) :
      x m = (.error e, m') → StopsAt (x :: xs) m e m'
  | later {x : Computation ε α} {xs : List (Computation ε α)} {a : α} {e : ε}
      {m m' m'' : Machine} :
      x m = (.ok a, m') → StopsAt xs m' e m'' → StopsAt (x :: xs) m e m''

/-- Steps go through or stop at one of them. -/
theorem inOrder_or_stopsAt (xs : List (Computation ε α)) (m : Machine) :
    (∃ as m', InOrder xs m as m') ∨ ∃ e m', StopsAt xs m e m' := by
  induction xs generalizing m with
  | nil => exact .inl ⟨[], m, .nil m⟩
  | cons x xs ih =>
      rcases hx : x m with ⟨e | a, m'⟩
      · exact .inr ⟨e, m', .here xs hx⟩
      · rcases ih m' with ⟨as, m'', hall⟩ | ⟨e, m'', hstop⟩
        · exact .inl ⟨a :: as, m'', .cons hx hall⟩
        · exact .inr ⟨e, m'', .later hx hstop⟩

theorem InOrder.append {xs ys : List (Computation ε α)} {as bs : List α} {m m' m'' : Machine}
    (h : InOrder xs m as m') (h' : InOrder ys m' bs m'') : InOrder (xs ++ ys) m (as ++ bs) m'' := by
  induction h with
  | nil => exact h'
  | cons hx _ ih => exact .cons hx (ih h')

/-- Steps that stop behind others that go through. -/
theorem InOrder.append_stopsAt {xs ys : List (Computation ε α)} {as : List α} {e : ε}
    {m m' m'' : Machine} (h : InOrder xs m as m') (h' : StopsAt ys m' e m'') :
    StopsAt (xs ++ ys) m e m'' := by
  induction h with
  | nil => exact h'
  | cons hx _ ih => exact .later hx (ih h')

/-- Steps that stop do so whatever would come behind them. -/
theorem StopsAt.append {xs : List (Computation ε α)} {e : ε} {m m' : Machine}
    (h : StopsAt xs m e m') (ys : List (Computation ε α)) : StopsAt (xs ++ ys) m e m' := by
  induction h with
  | here xs hx => exact .here (xs ++ ys) hx
  | later hx _ ih => exact .later hx ih

/-- The state before some steps, and every one in which the next few of them have gone through. -/
inductive Between : List (Computation ε α) → Machine → Machine → Prop where
  | start (xs : List (Computation ε α)) (m : Machine) : Between xs m m
  | later {x : Computation ε α} {xs : List (Computation ε α)} {a : α} {m m' m'' : Machine} :
      x m = (.ok a, m') → Between xs m' m'' → Between (x :: xs) m m''

theorem InOrder.length_eq {xs : List (Computation ε α)} {as : List α} {m m' : Machine}
    (h : InOrder xs m as m') : as.length = xs.length := by
  induction h with
  | nil => rfl
  | cons _ _ ih => rw [List.length_cons, List.length_cons, ih]

/-! ## The last answer, and all answers -/

/-- Takes steps in order and answers what the last one does, or a given answer if there are no
steps. -/
def Computation.lastOf (result : α) : List (Computation ε α) → Computation ε α
  | [] => return result
  | x :: xs => do
    let a ← x
    Computation.lastOf a xs

/-- Takes steps in order and answers what all of them do. -/
def Computation.allOf : List (Computation ε α) → Computation ε (List α)
  | [] => return []
  | x :: xs => do
    let a ← x
    let as ← Computation.allOf xs
    return a :: as

theorem InOrder.lastOf_eq {xs : List (Computation ε α)} {as : List α} {m m' : Machine}
    (h : InOrder xs m as m') (result : α) :
    Computation.lastOf result xs m = (.ok (as.getLastD result), m') := by
  induction h generalizing result with
  | nil => rfl
  | @cons x xs a as _ _ _ hx _ ih =>
      rw [Computation.lastOf, Computation.bind_of_ok hx, ih a, List.getLastD_cons]

theorem StopsAt.lastOf_eq {xs : List (Computation ε α)} {e : ε} {m m' : Machine}
    (h : StopsAt xs m e m') (result : α) : Computation.lastOf result xs m = (.error e, m') := by
  induction h generalizing result with
  | here _ hx => rw [Computation.lastOf, Computation.bind_of_error hx]
  | later hx _ ih => rw [Computation.lastOf, Computation.bind_of_ok hx, ih]

theorem InOrder.allOf_eq {xs : List (Computation ε α)} {as : List α} {m m' : Machine}
    (h : InOrder xs m as m') : Computation.allOf xs m = (.ok as, m') := by
  induction h with
  | nil => rfl
  | cons hx _ ih =>
      rw [Computation.allOf, Computation.bind_of_ok hx, Computation.bind_of_ok ih]
      rfl

theorem StopsAt.allOf_eq {xs : List (Computation ε α)} {e : ε} {m m' : Machine}
    (h : StopsAt xs m e m') : Computation.allOf xs m = (.error e, m') := by
  induction h with
  | here _ hx => rw [Computation.allOf, Computation.bind_of_error hx]
  | later hx _ ih =>
      rw [Computation.allOf, Computation.bind_of_ok hx, Computation.bind_of_error ih]

/-- Steps that do the same wherever the steps before them can lead do the same together. -/
theorem Computation.allOf_congr {xs ys : List (Computation ε α)} {m : Machine}
    (hsame : ∀ m', Between xs m m' → List.Forall₂ (fun x y => x m' = y m') xs ys) :
    Computation.allOf xs m = Computation.allOf ys m := by
  induction xs generalizing ys m with
  | nil =>
      cases hsame m (.start [] m)
      rfl
  | cons x xs ih =>
      cases hsame m (.start (x :: xs) m) with
      | @cons _ y _ ys hx _ =>
      rw [Computation.allOf, Computation.allOf, ← Computation.bind_congr hx]
      rcases hrun : x m with ⟨e | a, m₁⟩
      · rw [Computation.bind_of_error hrun, Computation.bind_of_error hrun]
      rw [Computation.bind_of_ok hrun, Computation.bind_of_ok hrun]
      refine Computation.bind_congr (ih fun m' hm' => ?_)
      cases hsame m' (.later hrun hm') with
      | cons _ hrest => exact hrest

/-! ## What the evaluator does in order -/

section

variable (ev : Evaluator) (c : ContextId)

/-- Evaluates one form of a text: its tree is made, and evaluated. -/
def evaluateOne (form : Form) : Eval Value := do
  let expr ← allocate fun s => s.ofForm form
  ev expr c

/-- Evaluates what stands at a place when its turn comes. -/
def evaluatePart (part : Part) : Eval Value := do
  let expr ← askStore part
  ev expr c

theorem evaluateForms_eq (result : Value) (forms : List Form) :
    evaluateForms ev c result forms =
      Computation.lastOf result (forms.map (evaluateOne ev c)) := by
  induction forms generalizing result with
  | nil => rfl
  | cons form forms ih =>
      rw [evaluateForms, List.map_cons, Computation.lastOf]
      simp only [ih]
      rfl

theorem evaluateSequence_eq (result : Value) (parts : List Part) :
    evaluateSequence ev c result parts =
      Computation.lastOf result (parts.map (evaluatePart ev c)) := by
  induction parts generalizing result with
  | nil => rfl
  | cons part parts ih =>
      rw [evaluateSequence, List.map_cons, Computation.lastOf]
      simp only [ih]
      rfl

theorem evaluateAll_eq (parts : List Part) :
    evaluateAll ev c parts = Computation.allOf (parts.map (evaluatePart ev c)) := by
  induction parts with
  | nil => rfl
  | cons part parts ih =>
      rw [evaluateAll, List.map_cons, Computation.allOf, ih]
      rfl

/-- Parts that do not change any more are evaluated as the values that they are. -/
theorem evaluatePart_fixedParts (exprs : List Value) :
    (fixedParts exprs).map (evaluatePart ev c) = exprs.map fun expr => ev expr c := by
  rw [fixedParts, List.map_map]
  rfl

end

end DispatchLisp
