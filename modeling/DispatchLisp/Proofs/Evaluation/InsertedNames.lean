import DispatchLisp.Proofs.Evaluation.InOrder
import DispatchLisp.Proofs.Evaluation.Literal
import DispatchLisp.Proofs.Session

/-!
# Proofs.Evaluation.InsertedNames — names that are inserted into code mean what is nearest

The reader writes square and curly brackets as calls of `list` and `dict`, and a function body of
several forms becomes a call of `do`. The names are looked up like any other when the call is
evaluated. Where the root of a chain binds them as it was made and no frame below binds them, a
bracket is the list or the dict of the values of its parts, and a body is evaluated like that of a
`let` form. A frame below the root that binds an inserted name hides the root, and its binding is
called instead (`evaluate_inserted_names`).
-/

namespace DispatchLisp

namespace Store

/-! ## Frames below the root -/

/-- The nearest binding of a name in a frame below the root of a chain; it hides what the root
binds. -/
def hiding? (s : Store) (c : ContextId) (name : String) : Option Value :=
  (s.chain c).dropLast.findSome? fun d => s.own? d name

theorem chain_ne_nil (s : Store) (c : ContextId) : s.chain c ≠ [] := by
  unfold chain
  cases c.index with
  | zero => exact List.cons_ne_nil _ _
  | succ further => exact List.cons_ne_nil _ _

theorem chain_eq (s : Store) (c : ContextId) :
    s.chain c = (s.chain c).dropLast ++ [s.rootOf c] := by
  have hlast := List.getLast?_eq_some_getLast (s.chain_ne_nil c)
  rw [rootOf, hlast, Option.getD_some]
  exact (List.dropLast_append_getLast (s.chain_ne_nil c)).symm

/-- A name means what the frames below the root bind it to, and what the root does if none of them
binds it. -/
theorem lookup?_eq_hiding (s : Store) (c : ContextId) (name : String) :
    s.lookup? c name = (s.hiding? c name).or (s.own? (s.rootOf c) name) := by
  rw [lookup?, chain_eq, List.findSome?_append, hiding?, List.findSome?_singleton]

/-- Whether the root of a chain binds the names that are inserted into code as it was made. -/
structure RootIntact (s : Store) (c : ContextId) : Prop where
  list : ∃ id, s.own? (s.rootOf c) "list" = some (.native ⟨id, "list", false, .builtin .list⟩)
  dict : ∃ id, s.own? (s.rootOf c) "dict" = some (.native ⟨id, "dict", false, .builtin .dict⟩)
  doForm : ∃ id, s.own? (s.rootOf c) "do" = some (.native ⟨id, "do", true, .form .doForm⟩)

theorem lookup?_of_not_hidden {s : Store} {c : ContextId} {name : String} {f : Native}
    (h : s.own? (s.rootOf c) name = some (.native f)) (hhiding : s.hiding? c name = none) :
    s.lookup? c name = some (.native f) := by
  rw [lookup?_eq_hiding, hhiding, h]
  rfl

theorem lookup?_of_hidden {s : Store} {c : ContextId} {name : String} {v : Value}
    (h : s.hiding? c name = some v) : s.lookup? c name = some v := by
  rw [lookup?_eq_hiding, h]
  rfl

theorem parent_define (s : Store) (c d : ContextId) (name : String) (v : Value) :
    ((s.define c name v).context d).parent = (s.context d).parent := by
  apply context_updateContext_part ContextCell.parent
  exact fun _ => rfl

theorem parent_defineAll (s : Store) (c d : ContextId) (entries : Table Value) :
    ((s.defineAll c entries).context d).parent = (s.context d).parent := by
  apply context_updateContext_part ContextCell.parent
  exact fun _ => rfl

theorem parent_defineNatives (s : Store) (c d : ContextId)
    (natives : List (String × Bool × NativeRole)) :
    ((s.defineNatives c natives).context d).parent = (s.context d).parent := by
  let Same : Store → Prop := fun s' => (s'.context d).parent = (s.context d).parent
  refine List.foldlRecOn (motive := Same) natives _ rfl ?_
  intro s' hs' native _
  exact (parent_define (s'.newNative native.1 native.2.1 native.2.2).2 c d _ _).trans hs'

theorem parent_newRoot (s : Store) : (s.newRoot.2.context s.newRoot.1).parent = none := by
  have hmade : ((s.newContext rootName none).2.context s.newRoot.1).parent = none :=
    congrArg (fun cell : Option ContextCell => (cell.getD ⟨none, [], [], []⟩).parent)
      Array.getElem?_push_size
  rw [newRoot_eq, parent_defineAll, parent_defineAll, withNatives, parent_defineNatives, hmade]

/-- The chain of a new root context has no frames below the root. -/
theorem chain_newRoot (s : Store) : s.newRoot.2.chain s.newRoot.1 = [s.newRoot.1] := by
  unfold chain
  cases s.newRoot.1.index with
  | zero => rfl
  | succ further => rw [chainWithin, parent_newRoot]

theorem own?_rootOf_of_chain {s : Store} {c : ContextId} (h : s.chain c = [c]) {name : String}
    {v : Value} (hname : s.lookup? c name = some v) : s.own? (s.rootOf c) name = some v := by
  rw [lookup?_eq_hiding, hiding?, h] at hname
  exact hname

/-- A new root context binds the inserted names as roots do. -/
theorem rootIntact_newRoot (s : Store) : s.newRoot.2.RootIntact s.newRoot.1 := by
  have hchain := chain_newRoot s
  have hbinds := bindsLiterals_newRoot s
  obtain ⟨list, hlist⟩ := hbinds.list
  obtain ⟨dict, hdict⟩ := hbinds.dict
  have hdo : ∃ id, s.newRoot.2.lookup? s.newRoot.1 "do" =
      some (.native ⟨id, "do", true, .form .doForm⟩) := s.lookup?_newRoot_native (by decide)
  obtain ⟨doForm, hdo⟩ := hdo
  exact ⟨⟨list, own?_rootOf_of_chain hchain hlist⟩, ⟨dict, own?_rootOf_of_chain hchain hdict⟩,
    ⟨doForm, own?_rootOf_of_chain hchain hdo⟩⟩

/-! ## Calls of a name -/

/-- Whether an expression is a call that is written with a name as its head and some parts. -/
def IsCallOf (s : Store) (name : String) (exprs : List Value) (expr : Value) : Prop :=
  ∃ id, expr = .list id ∧ s.list id = ⟨.symbol name :: exprs, false⟩

theorem IsCallOf.isNativeCall {s : Store} {c : ContextId} {name : String} {f : Native}
    {exprs : List Value} {expr : Value} (h : s.IsCallOf name exprs expr)
    (hname : s.lookup? c name = some (.native f)) : s.IsNativeCall c f exprs expr := by
  obtain ⟨id, rfl, hcell⟩ := h
  exact ⟨id, .symbol name, rfl, hcell, hname⟩

/-- A form with a name in front of its items is read as a call of the name. -/
theorem isCallOf_ofForm (s : Store) (name : String) (items : List Form) :
    ∃ exprs, (s.ofForm (.list (.symbol name :: items))).2.IsCallOf name exprs
        (s.ofForm (.list (.symbol name :: items))).1 ∧
      List.Forall₂ (s.ofForm (.list (.symbol name :: items))).2.IsCode exprs items := by
  obtain ⟨id, values, hid, hcell, hcode⟩ := (s.isCode_ofForm (.list (.symbol name :: items))).list
  cases hcode with
  | @cons head _ exprs _ hhead hexprs =>
      obtain ⟨depth, outer, hview⟩ := hhead
      refine ⟨exprs, ⟨id, hid, ?_⟩, hexprs⟩
      rw [hcell, viewWithin_eq_atom hview]

end Store

/-! ## Bodies -/

/-- Evaluates the forms of a body in order and answers the value of the last. -/
def runBody (ev : Evaluator) (c : ContextId) (forms : List Value) : Eval Value :=
  Computation.lastOf .nothing (forms.map fun form => ev form c)

theorem evaluateSequence_fixedParts (ev : Evaluator) (c : ContextId) (forms : List Value) :
    evaluateSequence ev c .nothing (fixedParts forms) = runBody ev c forms := by
  rw [evaluateSequence_eq, evaluatePart_fixedParts, runBody]

/-- Makes the local frame of a `let` form: a new context in which the names are bound. -/
def enterLet (ev : Evaluator) (c : ContextId) (bindings : Part) : Eval ContextId := do
  match ← askStore bindings with
  | .list id =>
    let pairs ← askStore fun s => bindingParts s id
    if pairs.length % 2 = 0 then
      let inner ← allocate fun s => s.newContext "let" (some c)
      bindPairs ev inner pairs
      return inner
    else throw (.badShape .letPairs)
  | bindings => throw (.badBindings (← textOf bindings))

/-- Makes the local frame of a call: a new context inside that of the pattern, in which the
arguments are bound. -/
def enterCall (id : FunctionId) (p : Pattern) (args : List Value) (evaluated : Bool) :
    Eval ContextId := do
  record .debug fun s => do
    let argsText ← s.renderItems evaluated args
    let patternText ← s.renderPattern p
    .ok ("dispatch " ++ id.name ++ argsText ++ " -> " ++ patternText)
  let inner ← allocate fun s => s.newContext id.name (some p.context)
  bindArguments inner p.parameters args
  return inner

/-- A `let` form runs its body in its local frame. -/
theorem evaluateLet_of_entered {ev : Evaluator} {c inner : ContextId} {bindings : Part}
    {m m₁ : Machine} (h : enterLet ev c bindings m = (.ok inner, m₁)) (body : List Part) :
    evaluateLet ev c (bindings :: body) m =
      runBody ev inner (body.map fun part => part m₁.store) m₁ := by
  have hlook : (askStore bindings : Eval Value) m = (.ok (bindings m.store), m) := rfl
  rw [enterLet, Computation.bind_of_ok hlook] at h
  rw [evaluateLet, Computation.bind_of_ok hlook]
  generalize bindings m.store = written at h ⊢
  cases written with
  -- only a list can hold the bindings of a frame that has been entered
  | atom a =>
    obtain ⟨_, _, _, hthrow⟩ := Computation.bind_eq_ok h
    cases hthrow
  | dict id =>
    obtain ⟨_, _, _, hthrow⟩ := Computation.bind_eq_ok h
    cases hthrow
  | list id =>
    have hpairs : (askStore fun s => bindingParts s id : Eval (List Part)) m =
        (.ok (bindingParts m.store id), m) := rfl
    simp only at h ⊢
    rw [Computation.bind_of_ok hpairs] at h ⊢
    split at h
    case isFalse => cases h
    case isTrue heven =>
      obtain ⟨made, m', hmade, hrest⟩ := Computation.bind_eq_ok h
      obtain ⟨_, m'', hbind, hanswer⟩ := Computation.bind_eq_ok hrest
      cases hanswer
      rw [if_pos heven, Computation.bind_of_ok hmade, Computation.bind_of_ok hbind]
      exact congrFun (evaluateSequence_fixedParts ev inner _) m₁

/-- A function of the language evaluates its body in the local frame of the call. -/
theorem applyFunction_of_entered {ev : Evaluator} {id : FunctionId} {p : Pattern}
    {args : List Value} {evaluated : Bool} {inner : ContextId} {m m₁ : Machine}
    (hp : selectPattern? (m.store.patterns id) args = some p)
    (h : enterCall id p args evaluated m = (.ok inner, m₁)) :
    applyFunction ev id args evaluated m = ev p.body inner m₁ := by
  have hlook : (askStore fun s => s.patterns id : Eval (List Pattern)) m =
      (.ok (m.store.patterns id), m) := rfl
  obtain ⟨_, m', hrecord, hrest⟩ := Computation.bind_eq_ok h
  obtain ⟨made, m'', hmade, hrest⟩ := Computation.bind_eq_ok hrest
  obtain ⟨_, after, hbind, hanswer⟩ := Computation.bind_eq_ok hrest
  cases hanswer
  rw [applyFunction, Computation.bind_of_ok hlook, hp]
  simp only
  rw [Computation.bind_of_ok hrecord, Computation.bind_of_ok hmade, Computation.bind_of_ok hbind]

/-- Several body forms become a call of the sequence form. -/
theorem isCallOf_makePattern {c : ContextId} {parameters : Value} {forms : List Value}
    {p : Pattern} {m m' : Machine} (hforms : 2 ≤ forms.length)
    (h : makePattern c parameters forms m = (.ok p, m')) :
    m'.store.IsCallOf "do" forms p.body := by
  obtain ⟨declared, m₁, _, hrest⟩ := Computation.bind_eq_ok h
  obtain ⟨body, m₂, hbody, hanswer⟩ := Computation.bind_eq_ok hrest
  cases hanswer
  rcases forms with _ | ⟨first, _ | ⟨second, others⟩⟩
  · exact absurd hforms (by simp)
  · exact absurd hforms (by simp)
  · have hmade : makeBody (first :: second :: others) =
        makeList (.symbol "do" :: first :: second :: others) false := rfl
    rw [hmade] at hbody
    cases hbody
    exact ⟨_, rfl, Store.list_newList _ _ _⟩

/-! ## Evaluating a call of an inserted name -/

/-- Whether a computation takes some steps in order and then goes on with their answers, or ends
early with the first of them that does. -/
def TakesInOrder {ε α β : Type} (x : Computation ε β) (m : Machine)
    (steps : List (Computation ε α)) (next : List α → Computation ε β) : Prop :=
  (∀ answers m', InOrder steps m answers m' → x m = next answers m') ∧
    ∀ e m', StopsAt steps m e m' → x m = (.error e, m')

section

variable (host : Host) (depth : Nat) {m : Machine} {c : ContextId} {name : String}
  {exprs : List Value} {expr : Value}

/-- A call of a name calls what the name means there, if that can be called. -/
theorem evaluate_callOf (h : m.store.IsCallOf name exprs expr) {v : Value}
    (hv : m.store.lookup? c name = some v) :
    evaluate host (depth + 1) expr c m =
      if v.isCallable then (apply host (evaluate host depth) v (fixedParts exprs) c).guarded m
      else (.error (.notFunction name), m) := by
  obtain ⟨id, rfl, hcell⟩ := h
  have hask : (askStore fun s => s.list id : NativeEval ListCell) m =
      (.ok ⟨.symbol name :: exprs, false⟩, m) := by
    rw [askStore, hcell]
  have hlookup : (queryStore fun s => s.lookup c name) m = (.ok v, m) := by
    rw [queryStore, Store.lookup, hv]
  rw [evaluate, step, guarded_bind_of_ok hask]
  simp only [Bool.false_eq_true, if_false]
  split
  case isTrue hcallable =>
    have hresolve : resolveHead (.symbol name) c m = (.ok v, m) := by
      rw [resolveHead, Computation.bind_of_ok hlookup, if_pos hcallable]
      rfl
    exact guarded_bind_of_ok (liftM_of_ok hresolve)
  case isFalse hcallable =>
    have hresolve : resolveHead (.symbol name) c m = (.error (.notFunction name), m) := by
      rw [resolveHead, Computation.bind_of_ok hlookup, if_neg hcallable]
      rfl
    exact guarded_congr (y := throw (.fault (.notFunction name)))
      (Computation.bind_of_error (liftM_of_error hresolve))

/-- A call of a native on finished values evaluates its parts in order. -/
theorem takesInOrder_builtinCall {b : Builtin} {id : Nat}
    (h : m.store.IsNativeCall c ⟨id, name, false, .builtin b⟩ exprs expr) :
    TakesInOrder (evaluate host (depth + 1) expr c) m
      (exprs.map fun part => evaluate host depth part c) (fun values => (b.run values).guarded) := by
  have hall : evaluateAll (evaluate host depth) c (fixedParts exprs) =
      Computation.allOf (exprs.map fun part => evaluate host depth part c) := by
    rw [evaluateAll_eq, evaluatePart_fixedParts]
  constructor
  · intro values m' hvalues
    exact evaluate_builtinCall host depth h ((congrFun hall m).trans hvalues.allOf_eq)
  · intro e m' hstop
    have hfail := liftM_of_error ((congrFun hall m).trans hstop.allOf_eq)
    rw [evaluate_nativeCall host depth h]
    exact guarded_congr (y := throw (.fault e)) (Computation.bind_of_error hfail)

/-- A call of the list constructor makes a list of the values of its parts. -/
theorem takesInOrder_listCall (hroot : m.store.RootIntact c)
    (hhiding : m.store.hiding? c "list" = none) (h : m.store.IsCallOf "list" exprs expr) :
    TakesInOrder (evaluate host (depth + 1) expr c) m
      (exprs.map fun part => evaluate host depth part c) fun values => makeList values true := by
  obtain ⟨id, hlist⟩ := hroot.list
  exact takesInOrder_builtinCall host depth
    (h.isNativeCall (Store.lookup?_of_not_hidden hlist hhiding))

/-- A call of the dict constructor makes a dict of the values of its parts. -/
theorem takesInOrder_dictCall (hroot : m.store.RootIntact c)
    (hhiding : m.store.hiding? c "dict" = none) (h : m.store.IsCallOf "dict" exprs expr) :
    TakesInOrder (evaluate host (depth + 1) expr c) m
      (exprs.map fun part => evaluate host depth part c) makeDict := by
  obtain ⟨id, hdict⟩ := hroot.dict
  have hcall := takesInOrder_builtinCall host depth
    (h.isNativeCall (Store.lookup?_of_not_hidden hdict hhiding))
  refine ⟨fun values m' hvalues => ?_, hcall.2⟩
  exact (hcall.1 values m' hvalues).trans (congrFun (guarded_liftM (makeDict values)) m')

/-- A call of the sequence form runs its parts as a body. -/
theorem evaluate_doCall (hroot : m.store.RootIntact c) (hhiding : m.store.hiding? c "do" = none)
    (h : m.store.IsCallOf "do" exprs expr) :
    evaluate host (depth + 1) expr c m = runBody (evaluate host depth) c exprs m := by
  obtain ⟨id, hdo⟩ := hroot.doForm
  have hcall : m.store.IsFormCall c .doForm exprs expr :=
    ⟨id, "do", h.isNativeCall (Store.lookup?_of_not_hidden hdo hhiding)⟩
  rw [evaluate_formCall host depth hcall]
  exact congrFun (evaluateSequence_fixedParts (evaluate host depth) c exprs) m

end

/-! ## Dicts of pairs -/

/-- Keys and values in turn. -/
def pairValues (pairs : List (Atom × Value)) : List Value :=
  pairs.flatMap fun pair => [.atom pair.1, pair.2]

/-- Entries with some pairs put in one after another. -/
def putPairs (entries : Association Atom Value) (pairs : List (Atom × Value)) :
    Association Atom Value :=
  pairs.foldl (fun entries pair => entries.put Atom.alike pair.1 pair.2) entries

theorem length_pairValues (pairs : List (Atom × Value)) :
    (pairValues pairs).length = 2 * pairs.length := by
  induction pairs with
  | nil => rfl
  | cons pair pairs ih =>
      rw [pairValues, List.flatMap_cons, List.length_append, ← pairValues, ih, List.length_cons]
      simp only [List.length_cons, List.length_nil]
      omega

theorem pairEntries_pairValues (s : Store) (entries : Association Atom Value)
    (pairs : List (Atom × Value)) (rest : List Value) :
    s.pairEntries entries (pairValues pairs ++ rest) =
      s.pairEntries (putPairs entries pairs) rest := by
  induction pairs generalizing entries with
  | nil => rfl
  | cons pair pairs ih => exact ih _

/-- Keys and values in turn make the dict of the pairs. -/
theorem makeDict_pairs (pairs : List (Atom × Value)) (m : Machine) :
    makeDict (pairValues pairs) m =
      (.ok (.dict (m.store.newDict (putPairs [] pairs)).1),
        { m with store := (m.store.newDict (putPairs [] pairs)).2 }) := by
  have hentries : (queryStore fun s => s.pairEntries [] (pairValues pairs)) m =
      (.ok (putPairs [] pairs), m) := by
    have hpairs := pairEntries_pairValues m.store [] pairs []
    rw [List.append_nil] at hpairs
    rw [queryStore, hpairs]
    rfl
  have heven : (pairValues pairs).length % 2 = 0 := by
    rw [length_pairValues]
    omega
  rw [makeDict, if_pos heven, Computation.bind_of_ok hentries]
  rfl

/-! ## What inserted names mean -/

/-- Names that are inserted into code mean what is nearest. The reader writes square and curly
brackets as calls of `list` and `dict` with the code of their items, and a definition writes a body
of several forms as a call of `do`. Where the root of the chain binds these names as a new root does and
no frame below the root binds them, whatever else is bound there, the first two make the list and
the dict of the values of their parts, evaluated in order, and a function evaluates the forms of its
body in order in the local frame of the call and answers the value of the last, just as a `let` form
does with its body in its own frame. Where a frame below the root binds such a name, its binding is
called with the parts instead, or the call fails if that cannot be called. -/
theorem evaluate_inserted_names (host : Host) (depth : Nat) :
    (∀ s : Store, s.newRoot.2.RootIntact s.newRoot.1) ∧
    (∀ (s : Store) (b : Bracket) (name : String) (items : List Form) (form : Form),
      (b, name) ∈ [(.square, "list"), (.curly, "dict")] → b.form? items = some form →
        ∃ exprs, (s.ofForm form).2.IsCallOf name exprs (s.ofForm form).1 ∧
          List.Forall₂ (s.ofForm form).2.IsCode exprs items) ∧
    (∀ (c : ContextId) (parameters : Value) (forms : List Value) (p : Pattern) (m m' : Machine),
      2 ≤ forms.length → makePattern c parameters forms m = (.ok p, m') →
        m'.store.IsCallOf "do" forms p.body) ∧
    (∀ (m : Machine) (c : ContextId) (exprs : List Value) (expr : Value), m.store.RootIntact c →
      (m.store.hiding? c "list" = none → m.store.IsCallOf "list" exprs expr →
        TakesInOrder (evaluate host (depth + 1) expr c) m
          (exprs.map fun part => evaluate host depth part c) fun values =>
            makeList values true) ∧
      (m.store.hiding? c "dict" = none → m.store.IsCallOf "dict" exprs expr →
        TakesInOrder (evaluate host (depth + 1) expr c) m
          (exprs.map fun part => evaluate host depth part c) makeDict)) ∧
    (∀ (pairs : List (Atom × Value)) (m : Machine), makeDict (pairValues pairs) m =
      (.ok (.dict (m.store.newDict (putPairs [] pairs)).1),
        { m with store := (m.store.newDict (putPairs [] pairs)).2 })) ∧
    (∀ (id : FunctionId) (p : Pattern) (args : List Value) (evaluated : Bool) (inner : ContextId)
      (forms : List Value) (m m₁ : Machine),
      selectPattern? (m.store.patterns id) args = some p →
      enterCall id p args evaluated m = (.ok inner, m₁) → m₁.store.IsCallOf "do" forms p.body →
      m₁.store.RootIntact inner → m₁.store.hiding? inner "do" = none →
        applyFunction (evaluate host (depth + 1)) id args evaluated m =
          runBody (evaluate host depth) inner forms m₁) ∧
    (∀ (ev : Evaluator) (c inner : ContextId) (bindings : Part) (body : List Part) (m m₁ : Machine),
      enterLet ev c bindings m = (.ok inner, m₁) →
        evaluateLet ev c (bindings :: body) m =
          runBody ev inner (body.map fun part => part m₁.store) m₁) ∧
    (∀ (ev : Evaluator) (c : ContextId) (forms : List Value) (m : Machine),
      TakesInOrder (runBody ev c forms) m (forms.map fun form => ev form c) fun values =>
        pure (values.getLastD .nothing)) ∧
    (∀ (m : Machine) (c : ContextId) (name : String) (v : Value) (exprs : List Value) (expr : Value),
      m.store.IsCallOf name exprs expr → m.store.hiding? c name = some v →
        evaluate host (depth + 1) expr c m =
          if v.isCallable then (apply host (evaluate host depth) v (fixedParts exprs) c).guarded m
          else (.error (.notFunction name), m)) := by
  refine ⟨Store.rootIntact_newRoot, ?_, ?_, ?_, makeDict_pairs, ?_, ?_, ?_, ?_⟩
  · intro s b name items form hb hform
    simp only [List.mem_cons, Prod.mk.injEq, List.not_mem_nil, or_false] at hb
    rcases hb with ⟨rfl, rfl⟩ | ⟨rfl, rfl⟩
    · cases hform
      exact s.isCallOf_ofForm "list" items
    · rw [Bracket.form?] at hform
      split at hform
      case isTrue =>
        cases hform
        exact s.isCallOf_ofForm "dict" items
      case isFalse => cases hform
  · intro c parameters forms p m m' hforms hmade
    exact isCallOf_makePattern hforms hmade
  · intro m c exprs expr hroot
    exact ⟨takesInOrder_listCall host depth hroot, takesInOrder_dictCall host depth hroot⟩
  · intro id p args evaluated inner forms m m₁ hp hentered hbody hroot hhiding
    rw [applyFunction_of_entered hp hentered]
    exact evaluate_doCall host depth hroot hhiding hbody
  · intro ev c inner bindings body m m₁ hentered
    exact evaluateLet_of_entered hentered body
  · intro ev c forms m
    exact ⟨fun values m' h => h.lastOf_eq .nothing, fun e m' h => h.lastOf_eq .nothing⟩
  · intro m c name v exprs expr h hhiding
    exact evaluate_callOf host depth h (Store.lookup?_of_hidden hhiding)

/-- A `let` frame around the code of `[x 2]`, in which `x` is one: the code, the frame, and the
machine. -/
def literalInLet : Value × ContextId × Machine :=
  let (main, s) := Store.newRoot .empty
  let (inner, s) := s.newContext "let" (some main)
  let (expr, s) := (s.define inner "x" (.int 1)).ofForm
    (.list [.symbol "list", .symbol "x", .int 2])
  (expr, inner, { Machine.initial .empty LogLevel.warning.number with store := s })

/-- A bracket is a list inside a frame that binds another name. -/
theorem evaluate_inserted_names_in_let :
    evaluate Host.basic 2 literalInLet.1 literalInLet.2.1 literalInLet.2.2 =
      makeList [.int 1, .int 2] true literalInLet.2.2 := by
  have hfacts : literalInLet.1 = .list ⟨0⟩ ∧
      (literalInLet.2.2.store.list ⟨0⟩).items = [.symbol "list", .symbol "x", .int 2] ∧
      (literalInLet.2.2.store.list ⟨0⟩).evaluated = false ∧
      literalInLet.2.2.store.lookup? literalInLet.2.1 "x" = some (.int 1) ∧
      literalInLet.2.2.store.hiding? literalInLet.2.1 "list" = none := by
    decide +kernel
  obtain ⟨hexpr, hitems, hcode, hx, hhiding⟩ := hfacts
  have hcell : literalInLet.2.2.store.list ⟨0⟩ =
      ⟨[.symbol "list", .symbol "x", .int 2], false⟩ := by
    rw [← hitems, ← hcode]
  have hcall : literalInLet.2.2.store.IsCallOf "list" [.symbol "x", .int 2] literalInLet.1 :=
    ⟨⟨0⟩, hexpr, hcell⟩
  have hroot : literalInLet.2.2.store.RootIntact literalInLet.2.1 := by
    refine ⟨⟨21, ?_⟩, ⟨22, ?_⟩, ⟨1, ?_⟩⟩ <;> decide +kernel
  have hint : ∀ c m, evaluate Host.basic 1 (.int 2) c m = (.ok (.int 2), m) := fun _ _ => rfl
  have hlist := ((evaluate_inserted_names Host.basic 1).2.2.2.1 _ _ _ _ hroot).1 hhiding hcall
  exact hlist.1 _ _ (.cons (Datum.evaluate_symbol hx) (.cons (hint _ _) (.nil _)))

/-- In a new session the root binds the inserted names as it was made. Brackets inside a `let` form
that binds `list` are no list, and a function with a parameter `do` does not evaluate its body,
though a `let` form that binds `do` does. -/
theorem inserted_names_are_hidden :
    (newSession Host.basic).store.RootIntact firstRoot ∧
    (Interpreter.eval Host.basic firstRoot "(let [list 5] [1 2])" (newSession Host.basic)).1 =
      .error (.notFunction "list") ∧
    (Interpreter.eval Host.basic firstRoot "(defn f [do] 1 2) (f 5)" (newSession Host.basic)).1 =
      .error (.notFunction "do") ∧
    (Interpreter.eval Host.basic firstRoot "(let [do 5] 1 2)" (newSession Host.basic)).1 =
      .ok (.int 2) := by
  refine ⟨⟨⟨21, ?_⟩, ⟨22, ?_⟩, ⟨1, ?_⟩⟩, ?_, ?_, ?_⟩ <;> decide +kernel

end DispatchLisp
