import DispatchLisp.Evaluation.Evaluate
import DispatchLisp.Proofs.Evaluation.Script

/-!
# Proofs.Evaluation.Transparency — the evaluator handles no errors

Special forms, function bodies, traversals and module loads let every error of the evaluations in
them through. So one step of evaluation is transparent (`Transparent.step`), as long as the
functions of the host are.
-/

namespace DispatchLisp

/-- Whether the functions of a host let every error of the evaluations in them through. -/
def Host.LetsThrough (host : Host) : Prop :=
  ∀ key c args, Transparent fun ev => host.call key ev c args

variable {c : ContextId}

namespace TransparentEval

/-! ## Special forms -/

theorem evaluateSequence (result : Value) (parts : List Part) :
    TransparentEval fun ev => evaluateSequence ev c result parts := by
  induction parts generalizing result with
  | nil => exact .constant _
  | cons part rest ih => exact .bind (.constant _) fun expr => .bind (.evaluate expr c) fun v => ih v

theorem evaluateUntil (stop : Bool) (result : Value) (parts : List Part) :
    TransparentEval fun ev => evaluateUntil ev c stop result parts := by
  induction parts generalizing result with
  | nil => exact .constant _
  | cons part rest ih =>
      exact .bind (.constant _) fun expr => .bind (.evaluate expr c) fun v =>
        .ite (.constant _) (ih v)

theorem evaluatePart (part : Part) : TransparentEval fun ev => askStore part >>= fun expr => ev expr c :=
  .bind (.constant _) fun expr => .evaluate expr c

theorem choose (condition first : Part) (second : Option Part) :
    TransparentEval fun ev => evaluateIf.choose ev c condition first second := by
  refine .bind (.constant _) fun expr => .bind (.evaluate expr c) fun v => ?_
  refine .ite (evaluatePart first) ?_
  cases second with
  | none => exact .constant _
  | some second => exact evaluatePart second

theorem evaluateIf (parts : List Part) : TransparentEval fun ev => evaluateIf ev c parts := by
  rcases parts with _ | ⟨condition, _ | ⟨first, _ | ⟨second, _ | ⟨_, _⟩⟩⟩⟩
  · exact .constant _
  · exact .constant _
  · exact choose condition first none
  · exact choose condition first (some second)
  · exact .constant _

theorem evaluateDef (args : List Value) : TransparentEval fun ev => evaluateDef ev c args := by
  rcases args with _ | ⟨target, _ | ⟨expr, _ | ⟨_, _⟩⟩⟩
  · exact .constant _
  · exact .constant _
  · unfold DispatchLisp.evaluateDef
    dsimp only
    cases target.symbol? with
    | none => exact .constant _
    | some name => exact .bind (.evaluate expr c) fun v => .constant _
  · exact .constant _

theorem bindPairs : (parts : List Part) → TransparentEval fun ev => bindPairs ev c parts
  | [] => .constant _
  | [_] => .constant _
  | name :: value :: rest => by
      refine .bind (.constant _) fun target => .bind (.constant _) fun expr => ?_
      cases target.symbol? with
      | none => exact .constant _
      | some name =>
          exact .bind (.evaluate expr c) fun v => .bind (.constant _) fun _ => bindPairs rest

theorem evaluateLet (parts : List Part) : TransparentEval fun ev => evaluateLet ev c parts := by
  cases parts with
  | nil => exact .constant _
  | cons bindings body =>
      refine .bind (.constant _) fun v => ?_
      cases v with
      | list id =>
          refine .bind (.constant _) fun pairs => .ite ?_ (.constant _)
          refine .bind (.constant _) fun inner => .bind (bindPairs pairs) fun _ => ?_
          exact .bind (.constant _) fun forms => evaluateSequence _ _
      | atom | dict => exact .constant _

theorem specialForm (f : SpecialForm) (parts : List Part) :
    TransparentEval fun ev => f.run ev c parts := by
  cases f with
  | ifForm => exact evaluateIf parts
  | doForm => exact evaluateSequence _ parts
  | andForm | orForm => exact evaluateUntil _ _ parts
  | letForm => exact evaluateLet parts
  | defForm => exact .bind (.constant _) fun args => evaluateDef args
  | quoteForm | fnForm | defnForm => exact .constant _

/-! ## Texts and modules -/

theorem evaluateForms (result : Value) (forms : List Form) :
    TransparentEval fun ev => evaluateForms ev c result forms := by
  induction forms generalizing result with
  | nil => exact .constant _
  | cons form rest ih => exact .bind (.constant _) fun expr => .bind (.evaluate expr c) fun v => ih v

theorem evaluateText (text : String) (c : ContextId) :
    TransparentEval fun ev => evaluateText ev text c :=
  .bind (evaluateForms _ _) fun _ => .constant _

theorem evaluateAll (parts : List Part) : TransparentEval fun ev => evaluateAll ev c parts := by
  induction parts with
  | nil => exact .constant _
  | cons part rest ih =>
      refine .bind (.constant _) fun expr => .bind (.evaluate expr c) fun v => ?_
      exact .bind ih fun vs => .constant _

theorem loadModule (name source : String) (path : Option Path) :
    TransparentEval fun ev => loadModule ev name source path :=
  .bind (.constant _) fun _ => .bind (.constant _) fun inner =>
    .bind (evaluateText source inner) fun _ => .constant _

/-! ## Functions of the language -/

theorem applyFunction (id : FunctionId) (args : List Value) (evaluated : Bool) :
    TransparentEval fun ev => applyFunction ev id args evaluated := by
  refine .bind (.constant _) fun patterns => ?_
  cases selectPattern? patterns args with
  | none => exact .constant _
  | some p =>
      refine .bind (.constant _) fun _ => .bind (.constant _) fun inner => ?_
      exact .bind (.constant _) fun _ => .evaluate p.body inner

end TransparentEval

namespace Transparent

variable {α : Type}

theorem lift {X : Evaluator → Eval α} (hX : TransparentEval X) :
    Transparent fun ev => (liftM (X ev) : NativeEval α) :=
  hX

/-! ## Modules -/

theorem loadModuleFile (name : String) : Transparent fun ev => loadModuleFile ev name := by
  refine .bind (.answers fun _ => ⟨_, rfl⟩) fun disk => ?_
  cases disk.resolve? name with
  | error e => exact .throw rfl
  | ok found =>
      cases found with
      | none => exact .throw rfl
      | some path => exact .lift (.loadModule _ _ _)

theorem provideModule (name : String) : Transparent fun ev => provideModule ev name := by
  refine .bind (.answers fun _ => ⟨_, rfl⟩) fun found => ?_
  cases found with
  | none => exact loadModuleFile name
  | some module => exact .pure _

theorem importModule (name : String) (qualifier : Option String) :
    Transparent fun ev => importModule ev c name qualifier := by
  refine .bind (provideModule name) fun module => ?_
  exact .bind (.answers fun _ => ⟨_, rfl⟩) fun _ =>
    .bind (.lift (.constant _)) fun _ => .pure _

theorem importForm (parts : List Part) : Transparent fun ev => importForm ev c parts := by
  refine .ite ?_ (.throw rfl)
  refine .bind (.lift (.evaluateAll parts)) fun args => .bind (.lift (.constant _)) fun texts => ?_
  cases texts with
  | nil => exact .pure _
  | cons name rest => exact .bind (importModule _ _) fun module => .pure _

/-! ## Traversals -/

theorem collect (t : Traversal) {F : Value → Evaluator → NativeEval Value}
    (hF : ∀ v, Transparent (F v)) (id : ListId) (count position : Nat) :
    Transparent fun ev => t.collect (fun v => F v ev) id count position := by
  induction count generalizing position with
  | zero => exact .pure _
  | succ count ih =>
      refine .bind (.answers fun _ => ⟨_, rfl⟩) fun found => ?_
      cases found with
      | none => exact .pure _
      | some item =>
          refine .bind (hF item).withoutStop fun v => .bind (ih _) fun others => ?_
          cases t with
          | map => exact .pure _
          | filter => exact .pure _

theorem traversal (t : Traversal) {F : Value → Value → Evaluator → NativeEval Value}
    (hF : ∀ f v, Transparent (F f v)) (args : List Value) :
    Transparent fun ev => t.run (fun f v => F f v ev) args := by
  refine .bind (.lift (.constant _)) fun _ => ?_
  rcases args with _ | ⟨f, _ | ⟨collection, _ | ⟨_, _⟩⟩⟩
  · exact .pure _
  · exact .pure _
  · cases collection with
    | list id =>
        refine .ite ?_ (.throw rfl)
        refine .bind (.answers fun _ => ⟨_, rfl⟩) fun count => ?_
        exact .bind (collect t (hF f) id count 0) fun items => .answers fun _ => ⟨_, rfl⟩
    | atom | dict => exact .pure _
  · cases collection <;> exact .pure _

/-! ## Calls -/

/-- What cannot be called is shown in the error. -/
theorem notCallable (v : Value) : Transparent fun _ =>
    (liftM (textOf v) >>= fun text => MonadExcept.throw (.fault (.notCallable text)) :
      NativeEval Value) :=
  .bind (.lift (.constant _)) fun _ => .throw rfl

theorem native {host : Host} (hhost : host.LetsThrough)
    {F : Value → Value → Evaluator → NativeEval Value} (hF : ∀ f v, Transparent (F f v)) (f : Native)
    (args : List Part) : Transparent fun ev => f.run host ev (fun f v => F f v ev) args c := by
  have hlook : Transparent fun _ => (lookAtAll args : NativeEval (List Value)) :=
    .answers fun _ => ⟨_, rfl⟩
  unfold Native.run
  cases f.role with
  | builtin b => exact .bind hlook fun values => .constant (neverStops_run b values)
  | traversal t => exact .bind hlook fun values => traversal t hF values
  | form form => exact .lift (.specialForm form args)
  | importModule => exact importForm args
  | host key => exact .bind hlook fun values => hhost key c values

theorem applyWith {host : Host} (hhost : host.LetsThrough)
    {F : Value → Value → Evaluator → NativeEval Value} (hF : ∀ f v, Transparent (F f v)) (f : Value)
    (args : List Part) (evaluated : Bool) :
    Transparent fun ev => applyWith host ev (fun f v => F f v ev) f args evaluated c := by
  cases f with
  | atom a =>
      cases a with
      | native f => exact native hhost hF f args
      | function id =>
          refine .bind (.answers fun _ => ⟨_, rfl⟩) fun values => ?_
          exact .lift (.applyFunction id values evaluated)
      | _ => exact notCallable _
  | list | dict => exact notCallable _

theorem applyValues {host : Host} (hhost : host.LetsThrough) (f : Value) (args : List Part)
    (evaluated : Bool) : Transparent fun ev => applyValues host ev f args evaluated c :=
  -- the elements of a list are applied one by one, and no traversal comes to elements there
  applyWith hhost (fun f _ => applyWith hhost (fun _ _ => .pure _) f _ _) f args evaluated

theorem apply {host : Host} (hhost : host.LetsThrough) (f : Value) (exprs : List Part) :
    Transparent fun ev => apply host ev f exprs c := by
  have heager : ∀ f, Transparent fun ev =>
      (liftM (evaluateAll ev c exprs) >>= fun args =>
        DispatchLisp.applyValues host ev f (fixedParts args) true c : NativeEval Value) :=
    fun f => .bind (.lift (.evaluateAll exprs)) fun args => applyValues hhost f _ _
  cases f with
  | atom a =>
      cases a with
      | native f =>
          rcases f with ⟨id, name, lazy, role⟩
          cases lazy with
          | true => exact applyValues hhost _ _ _
          | false => exact heager _
      | function id => exact heager _
      | _ => exact notCallable _
  | list | dict => exact notCallable _

/-- One step of evaluation lets every error of the evaluations in it through. -/
theorem step {host : Host} (hhost : host.LetsThrough) (expr : Value) (c : ContextId) :
    Transparent fun ev => step host ev expr c := by
  cases expr with
  | atom a =>
      cases a with
      | symbol name => exact .lift (.constant _)
      | _ => exact .pure _
  | dict id => exact .pure _
  | list id =>
      refine .bind (.answers fun _ => ⟨_, rfl⟩) fun cell => .ite (.pure _) ?_
      cases cell.items with
      | nil => exact .throw rfl
      | cons head exprs => exact .bind (.lift (.constant _)) fun f => apply hhost f _

end Transparent

end DispatchLisp
