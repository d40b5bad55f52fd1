import DispatchLisp.Evaluation.Apply
import DispatchLisp.Proofs.Evaluation.Keeps
import Mathlib.Tactic.Choose

/-!
# Proofs.Evaluation.Script — computations that handle no errors

A script answers, raises an error, acts on the machine, or has an expression evaluated and goes on
with the value. It has no way to go on after an error, whether it raised the error itself or an
evaluation that it asked for did. A computation that may evaluate expressions is *transparent* when
it does what some script does, whatever the evaluator: then an error that an evaluation ends in
always ends the computation too, and is not changed on the way. Transparent computations are closed
under sequences, so that a program is shown to handle no errors by going through its text.
-/

namespace DispatchLisp

/-- Whether what was raised tells a walk that there are no more elements. -/
def Raised.isStop : Raised → Bool
  | .fault _ => false
  | .host e => decide (e.kind = .stopIteration)

/-- A program that handles no errors. -/
inductive Script (α : Type) where
  | answer (a : α)
  | raise (r : Raised) (h : r.isStop = false)
  /-- changes the machine, and goes on with what it was before -/
  | act (change : Machine → Machine) (next : Machine → Script α)
  | evaluate (expr : Value) (context : ContextId) (next : Value → Script α)

variable {α β : Type}

namespace Script

/-- What a script does, given what evaluates expressions. -/
def run (ev : Evaluator) : Script α → NativeEval α
  | answer a => return a
  | raise r _ => throw r
  | act change next => fun m => (next m).run ev (change m)
  | evaluate expr c next => do
    let v ← ev expr c
    (next v).run ev

/-- One script after another. -/
def bind (f : α → Script β) : Script α → Script β
  | answer a => f a
  | raise r h => raise r h
  | act change next => act change fun m => (next m).bind f
  | evaluate expr c next => evaluate expr c fun v => (next v).bind f

theorem run_evaluate_of_ok {ev : Evaluator} {expr v : Value} {c : ContextId} {m m' : Machine}
    (h : ev expr c m = (.ok v, m')) (next : Value → Script α) :
    (evaluate expr c next).run ev m = (next v).run ev m' :=
  Computation.bind_of_ok (liftM_of_ok h)

theorem run_evaluate_of_error {ev : Evaluator} {expr : Value} {c : ContextId} {m m' : Machine}
    {e : Fault} (h : ev expr c m = (.error e, m')) (next : Value → Script α) :
    (evaluate expr c next).run ev m = (.error (.fault e), m') :=
  Computation.bind_of_error (liftM_of_error h)

theorem run_bind (ev : Evaluator) (s : Script α) (f : α → Script β) :
    (s.bind f).run ev = s.run ev >>= fun a => (f a).run ev := by
  funext m
  induction s generalizing m with
  | answer a => rfl
  | raise r h => rfl
  | act change next ih => exact ih m (change m)
  | evaluate expr c next ih =>
      rcases hev : ev expr c m with ⟨e | v, m'⟩
      · have hfirst := run_evaluate_of_error hev next
        rw [Computation.bind_of_error hfirst]
        exact run_evaluate_of_error hev _
      · have hfirst : (evaluate expr c next).run ev m = (next v).run ev m' :=
          run_evaluate_of_ok hev next
        have hboth := run_evaluate_of_ok hev fun v => (next v).bind f
        exact hboth.trans ((ih v m').trans (Computation.bind_congr hfirst.symm))

end Script

/-! ## Computations that never tell a walk to end -/

/-- Whether nothing that a computation raises tells a walk that there are no more elements. -/
def NativeEval.NeverStops (x : NativeEval α) : Prop :=
  ∀ m r, (x m).1 = .error r → r.isStop = false

namespace NativeEval.NeverStops

theorem answers {x : NativeEval α} (h : ∀ m, ∃ a, (x m).1 = .ok a) : NeverStops x := by
  intro m r hr
  obtain ⟨a, ha⟩ := h m
  rw [ha] at hr
  cases hr

theorem pure (a : α) : NeverStops (Pure.pure a) :=
  answers fun _ => ⟨a, rfl⟩

theorem allocate (f : Store → α × Store) : NeverStops (allocate f) :=
  answers fun m => ⟨(f m.store).1, rfl⟩

theorem throw {r : Raised} (h : r.isStop = false) : NeverStops (throw r : NativeEval α) := by
  intro m r' hr
  cases hr
  exact h

theorem lift (x : Eval α) : NeverStops (liftM x : NativeEval α) := by
  intro m r h
  rcases hx : x m with ⟨e | a, m'⟩
  · rw [liftM_of_error hx] at h
    cases h
    rfl
  · rw [liftM_of_ok hx] at h
    cases h

theorem queryNative {f : Store → Except Raised α} (h : ∀ s r, f s = .error r → r.isStop = false) :
    NeverStops (queryNative f) :=
  fun m r hr => h m.store r hr

theorem bind {x : NativeEval α} {f : α → NativeEval β} (hx : NeverStops x)
    (hf : ∀ a, NeverStops (f a)) : NeverStops (x >>= f) := by
  intro m r h
  rcases hfirst : x m with ⟨e | a, m'⟩
  · rw [Computation.bind_of_error hfirst] at h
    cases h
    exact hx m r (congrArg Prod.fst hfirst)
  · rw [Computation.bind_of_ok hfirst] at h
    exact hf a m' r h

/-- A walk over a list raises the errors of such computations as they are. -/
theorem withoutStop_eq {x : NativeEval α} (hx : NeverStops x) : x.withoutStop = x := by
  funext m
  unfold NativeEval.withoutStop Computation.mapError
  rcases hrun : x m with ⟨r | a, m'⟩
  · have hr := hx m r (congrArg Prod.fst hrun)
    dsimp only
    split
    case h_1 => cases hr
    case h_2 => rfl
  · rfl

end NativeEval.NeverStops

section

open NativeEval

theorem isStop_onNumbers {op : Operation} {a b : Number} {r : Raised}
    (h : op.onNumbers a b = .error r) : r.isStop = false := by
  -- only a number that becomes no double fails, and that is no stop
  have hdouble : ∀ {n : Number} {r : Raised}, n.toBinary64 = .error r → r.isStop = false := by
    intro n r hn
    unfold Number.toBinary64 at hn
    split at hn <;> cases hn
    rfl
  unfold Operation.onNumbers at h
  split at h
  · cases h
  · cases ha : a.toBinary64 with
    | error e =>
        rw [ha] at h
        cases h
        exact hdouble ha
    | ok x =>
        cases hb : b.toBinary64 with
        | error e =>
            rw [ha, hb] at h
            cases h
            exact hdouble hb
        | ok y =>
            rw [ha, hb] at h
            cases h

theorem isStop_onValues {op : Operation} {a b : Value} {r : Raised}
    (h : op.onValues a b = .error r) : r.isStop = false := by
  unfold Operation.onValues at h
  split at h
  · exact isStop_onNumbers h
  · cases h
    rfl

theorem isStop_repeatText {text : String} {count : Int} {r : Raised}
    (h : repeatText text count = .error r) : r.isStop = false := by
  unfold repeatText at h
  dsimp only at h
  split at h
  · cases h
    rfl
  · split at h
    · cases h
    · split at h
      · cases h
        rfl
      · split at h
        · cases h
          rfl
        · cases h

theorem isStop_apply {op : Operation} {s : Store} {a b : Value} {r : Raised}
    (h : op.apply s a b = .error r) : r.isStop = false := by
  unfold Operation.apply at h
  split at h
  · split at h <;> cases h
    rfl
  · exact isStop_repeatText h
  · exact isStop_repeatText h
  · split at h
    · cases h
      rfl
    · exact isStop_onValues h
  · exact isStop_onValues h

theorem isStop_fold {op : Operation} {s : Store} {start : Value} {args : List Value} {r : Raised}
    (h : op.fold s start args = .error r) : r.isStop = false := by
  induction args generalizing start with
  | nil => cases h
  | cons v rest ih =>
      rw [Operation.fold] at h
      cases hnext : op.apply s start v with
      | error e =>
          rw [hnext] at h
          cases h
          exact isStop_apply hnext
      | ok next =>
          rw [hnext] at h
          exact ih h

theorem neverStops_operation (op : Operation) (name : String) (args : List Value) :
    NeverStops (op.run name args) := by
  refine .bind (.lift _) fun _ => ?_
  cases args with
  | nil => exact .pure _
  | cons first rest =>
      refine .bind (.queryNative fun s r h => isStop_fold h) fun v => ?_
      split
      · exact .allocate _
      · exact .pure _

theorem neverStops_remainder (args : List Value) : NeverStops (remainder args) := by
  refine .bind (.lift _) fun _ => ?_
  split
  · split
    · exact .throw rfl
    · exact .pure _
  · exact .pure _

/-- No native on finished values tells a walk to end. -/
theorem neverStops_run (b : Builtin) (args : List Value) : NeverStops (b.run args) := by
  cases b with
  | add | sub | mul | div => exact neverStops_operation _ _ args
  | mod => exact neverStops_remainder args
  | eq | ne => exact .bind (.lift _) fun _ => .pure _
  | list => exact .bind (.allocate _) fun _ => .pure _
  | not | type =>
      refine .bind (.lift _) fun _ => ?_
      cases args <;> exact .pure _
  | symbol =>
      refine .bind (.lift _) fun _ => ?_
      split <;> exact .pure _
  | lt | le | gt | ge | dict | get | set | put | first | last | len | slice | concat | keys
    | str => exact .lift _

end

/-! ## Transparent computations -/

namespace Script

/-- A computation that evaluates nothing, as a script. -/
def ofComputation (x : NativeEval α) (h : x.NeverStops) : Script α :=
  act (fun m => (x m).2) fun m =>
    match hm : (x m).1 with
    | .ok a => answer a
    | .error r => raise r (h m r hm)

theorem run_ofComputation (ev : Evaluator) (x : NativeEval α) (h : x.NeverStops) :
    (ofComputation x h).run ev = x := by
  funext m
  unfold ofComputation run
  dsimp only
  split
  case h_1 a hm => exact Prod.ext hm.symm rfl
  case h_2 r hm => exact Prod.ext hm.symm rfl

theorem neverStops (ev : Evaluator) (s : Script α) : (s.run ev).NeverStops := by
  induction s with
  | answer a => exact .pure a
  | raise r h => exact .throw h
  | act change next ih => exact fun m r h => ih m (change m) r h
  | evaluate expr c next ih => exact .bind (.lift _) ih

end Script

/-- An evaluator that fails at some places. -/
def Evaluator.failing (ev : Evaluator) (place : Value → ContextId → Machine → Bool) (f : Fault) :
    Evaluator :=
  fun expr c m => if place expr c m then (.error f, m) else ev expr c m

theorem Evaluator.failing_of_place {ev : Evaluator} {place : Value → ContextId → Machine → Bool}
    {f : Fault} {expr : Value} {c : ContextId} {m : Machine} (h : place expr c m = true) :
    ev.failing place f expr c m = (.error f, m) := by
  rw [failing, h, if_pos rfl]

theorem Evaluator.failing_of_not_place {ev : Evaluator}
    {place : Value → ContextId → Machine → Bool} {f : Fault} {expr : Value} {c : ContextId}
    {m : Machine} (h : place expr c m = false) : ev.failing place f expr c m = ev expr c m := by
  rw [failing, h, if_neg Bool.false_ne_true]

/-- Whether a computation lets every error of the evaluations in it through: it does what a script
does, whatever the evaluator. -/
def Transparent (X : Evaluator → NativeEval α) : Prop :=
  ∃ s : Script α, ∀ ev, s.run ev = X ev

/-- Whether a computation outside of natives lets every error through. -/
def TransparentEval (X : Evaluator → Eval α) : Prop :=
  Transparent fun ev => (liftM (X ev) : NativeEval α)

namespace Transparent

/-- What evaluates nothing handles no errors of evaluations. -/
theorem constant {x : NativeEval α} (h : x.NeverStops) : Transparent fun _ => x :=
  ⟨.ofComputation x h, fun ev => Script.run_ofComputation ev x h⟩

theorem answers {x : NativeEval α} (h : ∀ m, ∃ a, (x m).1 = .ok a) : Transparent fun _ => x :=
  constant (.answers h)

theorem pure (a : α) : Transparent fun _ => Pure.pure a :=
  constant (.pure a)

theorem throw {r : Raised} (h : r.isStop = false) :
    Transparent fun _ => (MonadExcept.throw r : NativeEval α) :=
  constant (.throw h)

theorem bind {X : Evaluator → NativeEval α} {F : α → Evaluator → NativeEval β}
    (hX : Transparent X) (hF : ∀ a, Transparent (F a)) :
    Transparent fun ev => X ev >>= fun a => F a ev := by
  obtain ⟨s, hs⟩ := hX
  choose next hnext using hF
  refine ⟨s.bind next, fun ev => ?_⟩
  rw [Script.run_bind, hs]
  exact congrArg (X ev >>= ·) (funext fun a => hnext a ev)

theorem ite {p : Prop} [Decidable p] {X Y : Evaluator → NativeEval α} (hX : Transparent X)
    (hY : Transparent Y) : Transparent fun ev => if p then X ev else Y ev := by
  by_cases h : p
  · simpa only [h, if_true] using hX
  · simpa only [h, if_false] using hY

/-- No error that goes through tells a walk that there are no more elements. -/
theorem neverStops {X : Evaluator → NativeEval α} (hX : Transparent X) (ev : Evaluator) :
    (X ev).NeverStops := by
  obtain ⟨s, hs⟩ := hX
  rw [← hs]
  exact s.neverStops ev

/-- The walk over a list does not end early either. -/
theorem withoutStop {X : Evaluator → NativeEval α} (hX : Transparent X) :
    Transparent fun ev => (X ev).withoutStop := by
  have hsame : (fun ev => (X ev).withoutStop) = X :=
    funext fun ev => (hX.neverStops ev).withoutStop_eq
  rw [hsame]
  exact hX

/-- Given an evaluator that does what another does, or ends in a fault, a transparent computation
does what it did, or ends in the fault. -/
theorem agrees {X : Evaluator → NativeEval α} (hX : Transparent X) {ev ev' : Evaluator} {f : Fault}
    (h : ∀ expr c m, ev' expr c m = ev expr c m ∨ (ev' expr c m).1 = .error f) (m : Machine) :
    X ev' m = X ev m ∨ (X ev' m).1 = .error (.fault f) := by
  obtain ⟨s, hs⟩ := hX
  rw [← hs, ← hs]
  clear hs
  induction s generalizing m with
  | answer a => exact .inl rfl
  | raise r h => exact .inl rfl
  | act change next ih => exact ih m (change m)
  | evaluate expr c next ih =>
      -- up to the first evaluation that fails with the fault, both runs go the same way
      rcases h expr c m with hsame | hfault
      · rcases hresult : ev expr c m with ⟨e | v, m'⟩
        · rw [hresult] at hsame
          rw [Script.run_evaluate_of_error hsame, Script.run_evaluate_of_error hresult]
          exact .inl rfl
        · rw [hresult] at hsame
          rw [Script.run_evaluate_of_ok hsame, Script.run_evaluate_of_ok hresult]
          exact ih v m'
      · have hend : ev' expr c m = (.error f, (ev' expr c m).2) := Prod.ext hfault rfl
        rw [Script.run_evaluate_of_error hend]
        exact .inr rfl

/-- Where an evaluation is made to fail, a transparent computation that comes there ends in the same
fault; otherwise it does what it did. -/
theorem interrupted {X : Evaluator → NativeEval α} (hX : Transparent X) (ev : Evaluator)
    (place : Value → ContextId → Machine → Bool) (f : Fault) (m : Machine) :
    X (ev.failing place f) m = X ev m ∨ ∃ m', X (ev.failing place f) m = (.error (.fault f), m') := by
  refine (hX.agrees (fun expr c m => ?_) m).imp_right fun hfault => ⟨_, Prod.ext hfault rfl⟩
  cases hplace : place expr c m with
  | true => exact .inr (by rw [Evaluator.failing_of_place hplace])
  | false => exact .inl (Evaluator.failing_of_not_place hplace)

end Transparent

namespace TransparentEval

theorem constant (x : Eval α) : TransparentEval fun _ => x :=
  Transparent.constant (.lift x)

theorem evaluate (expr : Value) (c : ContextId) : TransparentEval fun ev => ev expr c :=
  ⟨.evaluate expr c .answer, fun ev => by
    show (liftM (ev expr c) >>= fun v => Pure.pure v : NativeEval Value) = liftM (ev expr c)
    funext m
    rcases hev : ev expr c m with ⟨e | v, m'⟩
    · exact (Computation.bind_of_error (liftM_of_error hev)).trans (liftM_of_error hev).symm
    · exact (Computation.bind_of_ok (liftM_of_ok hev)).trans (liftM_of_ok hev).symm⟩

theorem liftM_bind (x : Eval α) (f : α → Eval β) :
    (liftM (x >>= f) : NativeEval β) = (liftM x : NativeEval α) >>= fun a => liftM (f a) :=
  Computation.mapError_bind Raised.fault x f

theorem bind {X : Evaluator → Eval α} {F : α → Evaluator → Eval β} (hX : TransparentEval X)
    (hF : ∀ a, TransparentEval (F a)) : TransparentEval fun ev => X ev >>= fun a => F a ev := by
  unfold TransparentEval
  simp only [liftM_bind]
  exact Transparent.bind hX hF

theorem ite {p : Prop} [Decidable p] {X Y : Evaluator → Eval α} (hX : TransparentEval X)
    (hY : TransparentEval Y) : TransparentEval fun ev => if p then X ev else Y ev := by
  by_cases h : p
  · simpa only [h, if_true] using hX
  · simpa only [h, if_false] using hY

end TransparentEval

end DispatchLisp
