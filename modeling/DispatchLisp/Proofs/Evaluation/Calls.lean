import DispatchLisp.Evaluation.Evaluate
import DispatchLisp.Proofs.Evaluation.Keeps

/-!
# Proofs.Evaluation.Calls — how a call is evaluated

The head of a call is looked up or taken as it is; what it stands for decides whether the parts
are evaluated first. The border of an evaluation lets faults through as they are, so a call of a
special form does just what the form does (`evaluate_formCall`), and a call of a native on
finished values does what the native does with the values of its parts (`evaluate_builtinCall`).
-/

namespace DispatchLisp

variable {α : Type}

/-! ## The border -/

/-- What comes to the border of an evaluation as a fault leaves it as the same fault. -/
theorem guarded_liftM (x : Eval α) : (liftM x : NativeEval α).guarded = x := by
  funext m
  show Computation.mapError Raised.toFault (Computation.mapError Raised.fault x) m = x m
  unfold Computation.mapError
  rcases x m with ⟨_ | _, m'⟩ <;> rfl

/-- The border of a sequence is a sequence of borders. -/
theorem guarded_bind {β : Type} (x : NativeEval α) (f : α → NativeEval β) :
    (x >>= f).guarded = x.guarded >>= fun a => (f a).guarded :=
  Computation.mapError_bind Raised.toFault x f

theorem guarded_congr {x y : NativeEval α} {m m' : Machine} (h : x m = y m') :
    x.guarded m = y.guarded m' := by
  show Computation.mapError Raised.toFault x m = Computation.mapError Raised.toFault y m'
  unfold Computation.mapError
  rw [h]

theorem guarded_of_ok {x : NativeEval α} {a : α} {m m' : Machine} (h : x m = (.ok a, m')) :
    x.guarded m = (.ok a, m') := by
  show Computation.mapError Raised.toFault x m = _
  unfold Computation.mapError
  rw [h]

theorem guarded_of_error {x : NativeEval α} {r : Raised} {m m' : Machine}
    (h : x m = (.error r, m')) : x.guarded m = (.error r.toFault, m') := by
  show Computation.mapError Raised.toFault x m = _
  unfold Computation.mapError
  rw [h]

/-- What happens before the border without ending early happens outside it too. -/
theorem guarded_bind_of_ok {β : Type} {x : NativeEval α} {f : α → NativeEval β} {m m' : Machine}
    {a : α} (h : x m = (.ok a, m')) : (x >>= f).guarded m = (f a).guarded m' :=
  guarded_congr (Computation.bind_of_ok h)

theorem map_fixedParts (values : List Value) (s : Store) :
    (fixedParts values).map (fun part => part s) = values := by
  unfold fixedParts
  rw [List.map_map]
  exact List.map_id values

/-- Parts that are values of their own are looked at without finding anything new. -/
theorem lookAtAll_fixedParts {ε : Type} (values : List Value) (m : Machine) :
    (lookAtAll (fixedParts values) : Computation ε (List Value)) m = (.ok values, m) := by
  rw [lookAtAll, askStore, map_fixedParts]

/-! ## What takes values -/

/-- Whether something is called with values: a function of the language, or a native that is not
lazy. -/
def Value.takesValues : Value → Bool
  | .function _ => true
  | .native f => !f.lazy
  | _ => false

theorem Value.isCallable_of_takesValues {f : Value} (h : f.takesValues = true) :
    f.isCallable = true := by
  unfold takesValues at h
  split at h
  · rfl
  · rfl
  · cases h

/-- What takes values is called with the values of the parts, from left to right. -/
theorem apply_of_takesValues {host : Host} {ev : Evaluator} {f : Value} {exprs : List Part}
    {c : ContextId} (h : f.takesValues = true) :
    apply host ev f exprs c = (do
      let args ← evaluateAll ev c exprs
      applyValues host ev f (fixedParts args) true c) := by
  unfold Value.takesValues at h
  split at h
  case h_1 => rfl
  case h_2 f =>
    rcases f with ⟨id, name, _ | _, role⟩
    · rfl
    · cases h
  case h_3 => cases h

/-! ## Calls -/

/-- What the head of a call stands for: the binding of a name, and anything else itself. -/
def Store.headValue? (s : Store) (context : ContextId) : Value → Option Value
  | .symbol name => s.lookup? context name
  | v => some v

/-- A head that stands for something that can be called is resolved to it. -/
theorem resolveHead_of_headValue? {m : Machine} {c : ContextId} {head f : Value}
    (h : m.store.headValue? c head = some f) (hf : f.isCallable = true) :
    resolveHead head c m = (.ok f, m) := by
  unfold Store.headValue? at h
  split at h
  case h_1 name =>
    have hlookup : (queryStore fun s => s.lookup c name) m = (.ok f, m) := by
      simp [queryStore, Store.lookup, h]
    rw [resolveHead, Computation.bind_of_ok hlookup, if_pos hf]
    rfl
  case h_2 v hv =>
    cases h
    unfold resolveHead
    split
    case h_1 name => exact absurd rfl (hv name)
    case h_2 =>
      rw [if_pos hf]
      rfl

/-- Resolving the head of a call changes nothing. -/
theorem resolveHead_snd (head : Value) (c : ContextId) (m : Machine) :
    (resolveHead head c m).2 = m := by
  have h : Accumulates fun m m' : Machine => m' = m := ⟨fun _ => rfl, fun h h' => h'.trans h⟩
  have hkept : Keeps (fun m m' => m' = m) (resolveHead head c) := by
    unfold resolveHead
    split
    · refine h.bind (h.queryStore _) fun f => ?_
      split
      · exact h.pure _
      · exact h.throw _
    · split
      · exact h.pure _
      · exact h.bind (h.queryStore _) fun _ => h.throw _
  exact hkept m

theorem Store.lookup?_of_lookup {s : Store} {c : ContextId} {name : String} {v : Value}
    (h : s.lookup c name = .ok v) : s.lookup? c name = some v := by
  unfold Store.lookup at h
  split at h
  case h_1 found hfound =>
    cases h
    exact hfound
  case h_2 => cases h

/-- The function that is answered is what the head stands for. -/
theorem headValue?_of_resolveHead {m m' : Machine} {c : ContextId} {head f : Value}
    (h : resolveHead head c m = (.ok f, m')) : m.store.headValue? c head = some f := by
  unfold resolveHead at h
  split at h
  case h_1 name =>
    obtain ⟨g, m1, hask, h⟩ := Computation.bind_eq_ok h
    split at h
    · cases h
      exact Store.lookup?_of_lookup (congrArg Prod.fst hask)
    · cases h
  case h_2 g hsymbol =>
    split at h
    · cases h
      unfold Store.headValue?
      split
      case h_1 => exact absurd rfl (hsymbol _)
      case h_2 => rfl
    · obtain ⟨text, m1, _, h⟩ := Computation.bind_eq_ok h
      cases h

/-- Whether an expression is a call of something with some parts. -/
def Store.IsCall (s : Store) (context : ContextId) (f : Value) (exprs : List Value)
    (expr : Value) : Prop :=
  ∃ id head, expr = .list id ∧ s.list id = ⟨head :: exprs, false⟩ ∧
    s.headValue? context head = some f

/-- Whether an expression is a call, with a native as its head and some parts. -/
def Store.IsNativeCall (s : Store) (context : ContextId) (f : Native) (exprs : List Value)
    (expr : Value) : Prop :=
  ∃ id head, expr = .list id ∧ s.list id = ⟨head :: exprs, false⟩ ∧
    s.headValue? context head = some (.native f)

/-- Whether an expression is a call of a special form with some parts. -/
def Store.IsFormCall (s : Store) (context : ContextId) (form : SpecialForm) (exprs : List Value)
    (expr : Value) : Prop :=
  ∃ id name, s.IsNativeCall context ⟨id, name, true, .form form⟩ exprs expr

section

variable (host : Host) (depth : Nat) {m : Machine} {c : ContextId} {expr : Value}
  {exprs : List Value}

/-- A call applies what its head stands for to the parts of the call. -/
theorem evaluate_call {f : Value} (h : m.store.IsCall c f exprs expr) (hf : f.isCallable = true) :
    evaluate host (depth + 1) expr c m =
      (apply host (evaluate host depth) f (fixedParts exprs) c).guarded m := by
  rcases h with ⟨id, head, rfl, hcell, hhead⟩
  have hask : (askStore fun s => s.list id : NativeEval ListCell) m =
      (.ok ⟨head :: exprs, false⟩, m) := by
    simp [askStore, hcell]
  have hresolve : (liftM (resolveHead head c) : NativeEval Value) m = (.ok f, m) :=
    liftM_of_ok (resolveHead_of_headValue? hhead hf)
  rw [evaluate, step, guarded_bind_of_ok hask]
  simp only [Bool.false_eq_true, if_false]
  exact guarded_bind_of_ok hresolve

/-- A call of a native applies it to the parts of the call. -/
theorem evaluate_nativeCall {f : Native} (h : m.store.IsNativeCall c f exprs expr) :
    evaluate host (depth + 1) expr c m =
      (apply host (evaluate host depth) (.native f) (fixedParts exprs) c).guarded m :=
  evaluate_call host depth h rfl

/-- A call of a special form does what the form does with the unevaluated parts. -/
theorem evaluate_formCall {form : SpecialForm} (h : m.store.IsFormCall c form exprs expr) :
    evaluate host (depth + 1) expr c m =
      form.run (evaluate host depth) c (fixedParts exprs) m := by
  rcases h with ⟨id, name, hcall⟩
  rw [evaluate_nativeCall host depth hcall]
  exact congrFun (guarded_liftM (form.run (evaluate host depth) c (fixedParts exprs))) m

/-- What takes values is called with the values of the parts. -/
theorem evaluate_valuesCall {f : Value} {values : List Value} {m' : Machine}
    (h : m.store.IsCall c f exprs expr) (hf : f.takesValues = true)
    (hvalues : evaluateAll (evaluate host depth) c (fixedParts exprs) m = (.ok values, m')) :
    evaluate host (depth + 1) expr c m =
      (applyValues host (evaluate host depth) f (fixedParts values) true c).guarded m' := by
  rw [evaluate_call host depth h (Value.isCallable_of_takesValues hf), apply_of_takesValues hf]
  exact guarded_bind_of_ok (liftM_of_ok hvalues)

/-- A call of a native on finished values does what the native does with the values of the
parts. -/
theorem evaluate_builtinCall {id : Nat} {name : String} {b : Builtin} {values : List Value}
    {m' : Machine} (h : m.store.IsNativeCall c ⟨id, name, false, .builtin b⟩ exprs expr)
    (hvalues : evaluateAll (evaluate host depth) c (fixedParts exprs) m = (.ok values, m')) :
    evaluate host (depth + 1) expr c m = (b.run values).guarded m' :=
  (evaluate_valuesCall host depth h rfl hvalues).trans
    (guarded_bind_of_ok (lookAtAll_fixedParts values m'))

end

end DispatchLisp
