import DispatchLisp.Embedding.Natives
import DispatchLisp.Proofs.Evaluation.InOrder
import DispatchLisp.Proofs.Evaluation.Transparency
import DispatchLisp.Proofs.Evaluation.Calls

/-!
# Proofs.Evaluation.Traversals — calling a function on every element of a list

A traversal calls a function with values, without code for the calls and without the border that an
evaluation has. Still it does what evaluating the calls would do that are written with the elements
quoted, one after another (`traversal_follows_calls`). The walk over a list that stays as it is
follows by induction on the elements that are left (`collect_guarded`), and one call in the walk comes
to the same as one that is written (`evaluate_quotedCall`).
-/

namespace DispatchLisp

/-! ## Calls with one value -/

/-- Whether what a host provides as a function never says that there are no more elements. -/
def Host.NeverStops (host : Host) : Value → Prop
  | .native ⟨_, _, _, .host key⟩ => ∀ ev c args, (host.call key ev c args).NeverStops
  | _ => True

section

variable {host : Host} {ev : Evaluator} {c : ContextId} {f : Value}

/-- What is called with one value never comes to the elements of a list. -/
theorem applyWith_one (onElement : Value → Value → NativeEval Value) (f v : Value) :
    applyWith host ev onElement f [.fixed v] true c = applyOne host ev c f v := by
  unfold applyOne applyWith
  split
  case h_1 f => rcases f with ⟨id, name, lazy, _ | _ | _ | _ | _⟩ <;> rfl
  case h_2 => rfl
  case h_3 => rfl

/-- A call with one value does not end because there are no more elements. -/
theorem neverStops_applyOne (hf : f.takesValues = true) (hhost : host.NeverStops f) (v : Value) :
    (applyOne host ev c f v).NeverStops := by
  unfold Value.takesValues at hf
  split at hf
  case h_1 id => exact .lift (applyFunction ev id [v] true)
  case h_2 f =>
    rcases f with ⟨id, name, lazy, b | t | form | _ | key⟩
    · exact neverStops_run b [v]
    · -- there is no list among the arguments
      have hrun : (t.run (fun _ _ => return .nothing) [v]).NeverStops :=
        .bind (.lift _) fun _ => .pure _
      exact hrun
    · exact .lift (form.run ev c [.fixed v])
    · exact (Transparent.importForm [.fixed v]).neverStops ev
    · exact hhost ev c [v]
  case h_3 => cases hf

end

/-! ## Walks -/

theorem Value.truthy_iff (v : Value) : v.truthy = true ↔ v ≠ .bool false ∧ v ≠ .nothing := by
  unfold truthy
  split
  case h_1 b => cases b <;> simp [Value.bool, Value.nothing]
  case h_2 => simp
  case h_3 hbool hnothing =>
    simp only [true_iff]
    exact ⟨hbool false, hnothing⟩

/-- What a traversal keeps of the elements of a list and what the calls answer: the answers, or the
elements for which the answer is neither `false` nor `Nothing`. -/
def Traversal.select : Traversal → List Value → List Value → List Value
  | .map, _, answers => answers
  | .filter, values, answers =>
    ((values.zip answers).filter fun p => p.2 ≠ .bool false ∧ p.2 ≠ .nothing).map Prod.fst

theorem Traversal.select_cons (t : Traversal) (v a : Value) (values answers : List Value) :
    t.select (v :: values) (a :: answers) =
      match t with
      | .map => a :: t.select values answers
      | .filter => if a.truthy then v :: t.select values answers else t.select values answers := by
  cases t with
  | map => rfl
  | filter =>
      simp only [select, List.zip_cons_cons, List.filter_cons, ← Value.truthy_iff,
        Bool.decide_eq_true]
      split <;> rfl

section

variable {g : Value → NativeEval Value} {l : ListId}

/-- The walk over the elements that are left. The invariant is that the list has not changed so
far. -/
theorem collect_guarded (t : Traversal) (hstop : ∀ v, (g v).NeverStops) (before : List Value)
    {vs : List Value} {m : Machine} (hkept : ∀ m', Between (vs.map fun v => (g v).guarded) m m' →
      (m'.store.list l).items = before ++ vs) :
    (t.collect g l vs.length before.length).guarded m =
      (do let answers ← Computation.allOf (vs.map fun v => (g v).guarded)
          return t.select vs answers) m := by
  induction vs generalizing before m with
  | nil => cases t <;> rfl
  | cons v vs ih =>
      have hitem : (askStore fun s => (s.list l).items[before.length]? :
          NativeEval (Option Value)) m = (.ok (some v), m) := by
        simp [askStore, hkept m (.start _ m)]
      rw [List.length_cons, Traversal.collect, guarded_bind_of_ok hitem]
      dsimp only
      rw [(hstop v).withoutStop_eq, guarded_bind, List.map_cons, Computation.allOf, bind_assoc]
      -- an error in the call ends the walk, and the calls that are left are not begun
      rcases hrun : (g v).guarded m with ⟨e | a, m₁⟩
      · rw [Computation.bind_of_error hrun, Computation.bind_of_error hrun]
      have hrest := ih (before ++ [v]) fun m' hm' =>
        (hkept m' (.later hrun hm')).trans (List.append_cons before v vs)
      rw [List.length_append, List.length_singleton] at hrest
      rw [Computation.bind_of_ok hrun, Computation.bind_of_ok hrun, guarded_bind,
        Computation.bind_congr hrest, bind_assoc, bind_assoc]
      simp only [pure_bind, Traversal.select_cons]
      cases t
      · rfl
      · cases a.truthy <;> rfl

/-- A traversal of a list that does not change calls the function with the elements, in order, and
collects what the calls answer. -/
theorem traversal_guarded (t : Traversal) {applyElement : Value → Value → NativeEval Value}
    {f : Value} (hf : f.isCallable = true) (hstop : ∀ v, (applyElement f v).NeverStops)
    {values : List Value} {m : Machine}
    (hkept : ∀ m', Between (values.map fun v => (applyElement f v).guarded) m m' →
      (m'.store.list l).items = values) :
    (t.run applyElement [f, .list l]).guarded m =
      (do let answers ← Computation.allOf (values.map fun v => (applyElement f v).guarded)
          makeList (t.select values answers) true) m := by
  have hchecked : (liftM (check (requireArguments t.name [f, .list l] [[.any], [.list]])) :
      NativeEval Unit) m = (.ok (), m) := rfl
  have hcount : (askStore fun s => (s.list l).items.length : NativeEval Nat) m =
      (.ok values.length, m) := by
    simp [askStore, hkept m (.start _ m)]
  have hwalk := collect_guarded t hstop [] hkept
  rw [List.length_nil] at hwalk
  rw [Traversal.run, guarded_bind_of_ok hchecked, if_pos hf, guarded_bind_of_ok hcount,
    guarded_bind, Computation.bind_congr hwalk, bind_assoc]
  rfl

end

/-! ## Calls that are written -/

/-- Whether a call of something with a quoted value is written as an expression. -/
def Store.IsQuotedCall (s : Store) (context : ContextId) (f v call : Value) : Prop :=
  ∃ quoted, s.IsFormCall context .quoteForm [v] quoted ∧ s.IsCall context f [quoted] call

/-- Calls something with a value as it is, inside the border of an evaluation. -/
def callWith (host : Host) (depth : Nat) (context : ContextId) (f v : Value) : Eval Value :=
  (applyOne host (evaluate host depth) context f v).guarded

section

variable (host : Host) (depth : Nat) {c : ContextId} {f : Value} {m : Machine}

/-- Evaluating a written call with a quoted value calls the function with this very value. -/
theorem evaluate_quotedCall {v call : Value} (hf : f.takesValues = true)
    (h : m.store.IsQuotedCall c f v call) :
    evaluate host (depth + 2) call c m = callWith host (depth + 1) c f v m := by
  obtain ⟨quoted, hquoted, hcall⟩ := h
  have hvalue : evaluate host (depth + 1) quoted c m = (.ok v, m) :=
    evaluate_formCall host depth hquoted
  have hvalues : evaluateAll (evaluate host (depth + 1)) c (fixedParts [quoted]) m =
      (.ok [v], m) := by
    rw [evaluateAll_eq, evaluatePart_fixedParts]
    exact (InOrder.cons hvalue (.nil m)).allOf_eq
  rw [evaluate_valuesCall host (depth + 1) hcall hf hvalues]
  exact congrFun (congrArg NativeEval.guarded (applyWith_one _ f v)) m

/-- Written calls do what the calls with the values do, one by one. -/
theorem forall₂_evaluate_quotedCall (hf : f.takesValues = true) {values calls : List Value}
    (h : List.Forall₂ (m.store.IsQuotedCall c f) values calls) :
    List.Forall₂ (fun x y => x m = y m) (values.map (callWith host (depth + 1) c f))
      (calls.map fun call => evaluate host (depth + 2) call c) := by
  induction h with
  | nil => exact .nil
  | cons hcall _ ih => exact .cons (evaluate_quotedCall host depth hf hcall).symm ih

/-- A traversal of a list that the calls do not modify calls the function with the elements as they
are, from left to right up to the first error, and collects the answers, or keeps the elements with
true answers. The result, the error and the state after it are those of evaluating the calls with the
quoted elements instead, wherever such calls are written and stay so. -/
theorem traversal_follows_calls {t : Traversal} {l : ListId} {values exprs : List Value}
    {expr : Value} {id : Nat} {name : String} {m₀ : Machine}
    (hf : f.takesValues = true) (hhost : host.NeverStops f)
    (hexpr : m₀.store.IsNativeCall c ⟨id, name, false, .traversal t⟩ exprs expr)
    (hargs : evaluateAll (evaluate host (depth + 1)) c (fixedParts exprs) m₀ =
      (.ok [f, .list l], m))
    (hkept : ∀ m', Between (values.map (callWith host (depth + 1) c f)) m m' →
      (m'.store.list l).items = values) :
    evaluate host (depth + 2) expr c m₀ =
        (do let answers ← Computation.allOf (values.map (callWith host (depth + 1) c f))
            makeList (t.select values answers) true) m ∧
      ∀ calls, (∀ m', Between (values.map (callWith host (depth + 1) c f)) m m' →
          List.Forall₂ (m'.store.IsQuotedCall c f) values calls) →
        evaluate host (depth + 2) expr c m₀ =
          (do let answers ← Computation.allOf
                (calls.map fun call => evaluate host (depth + 2) call c)
              makeList (t.select values answers) true) m := by
  have hwalk : evaluate host (depth + 2) expr c m₀ =
      (do let answers ← Computation.allOf (values.map (callWith host (depth + 1) c f))
          makeList (t.select values answers) true) m := by
    rw [evaluate_valuesCall host (depth + 1) hexpr rfl hargs]
    refine (guarded_bind_of_ok (lookAtAll_fixedParts [f, .list l] m)).trans ?_
    exact traversal_guarded t (Value.isCallable_of_takesValues hf) (neverStops_applyOne hf hhost)
      hkept
  refine ⟨hwalk, fun calls hwritten => hwalk.trans (Computation.bind_congr ?_)⟩
  exact Computation.allOf_congr fun m' hm' =>
    forall₂_evaluate_quotedCall host depth hf (hwritten m' hm')

end

/-! ### Code in a list -/

/-- A function that answers its argument. -/
def sameFunction : Value :=
  .function ⟨0, "same"⟩

/-- The context of some code about it. -/
def sameContext : ContextId :=
  ⟨0, "code"⟩

/-- A name that nothing is bound to, and a call of it. -/
def codeElements : List Value :=
  [.symbol "ghost", .list ⟨0⟩]

/-- A machine with a list of this code, and with the calls of the function with the two elements
quoted. -/
def codeInList : Machine :=
  let quoting : Value := .native ⟨0, "quote", true, .form .quoteForm⟩
  let filtering : Value := .native ⟨1, "filter", false, .traversal .filter⟩
  { Machine.initial .empty LogLevel.warning.number with
    store :=
      { Store.empty with
        lists := #[⟨[.symbol "ghost"], false⟩, ⟨codeElements, true⟩,
          ⟨[quoting, .symbol "ghost"], false⟩, ⟨[sameFunction, .list ⟨2⟩], false⟩,
          ⟨[quoting, .list ⟨0⟩], false⟩, ⟨[sameFunction, .list ⟨4⟩], false⟩,
          ⟨[filtering, sameFunction, .list ⟨1⟩], false⟩]
        functions := #[[⟨⟨[.binder "x"], none⟩, .symbol "x", sameContext⟩]]
        contexts := #[⟨none, [], [], []⟩]
        natives := 2 } }

/-- Whatever has been called so far, no list has changed. -/
theorem lists_between_calls {m' : Machine}
    (h : Between (codeElements.map (callWith Host.basic 1 sameContext sameFunction)) codeInList m') :
    m'.store.lists = codeInList.store.lists := by
  rcases h with _ | ⟨hfirst, h⟩
  · rfl
  obtain rfl := congrArg Prod.snd hfirst
  rcases h with _ | ⟨hsecond, h⟩
  · rfl
  obtain rfl := congrArg Prod.snd hsecond
  cases h
  rfl

/-- Filtering the code with the function keeps all of it unevaluated. -/
theorem filter_keeps_code :
    ∃ kept m', evaluate Host.basic 2 (.list ⟨6⟩) sameContext codeInList =
        (.ok (.list kept), m') ∧
      m'.store.list kept = ⟨codeElements, true⟩ := by
  have hlist : ∀ {m'}, Between (codeElements.map
      (callWith Host.basic 1 sameContext sameFunction)) codeInList m' →
      ∀ id, m'.store.list id = codeInList.store.list id := by
    intro m' h id
    rw [Store.list, Store.list, lists_between_calls h]
  have hexpr : codeInList.store.IsNativeCall sameContext ⟨1, "filter", false, .traversal .filter⟩
      [sameFunction, .list ⟨1⟩] (.list ⟨6⟩) := ⟨⟨6⟩, _, rfl, rfl, rfl⟩
  have hargs : evaluateAll (evaluate Host.basic 1) sameContext
      (fixedParts [sameFunction, .list ⟨1⟩]) codeInList =
      (.ok [sameFunction, .list ⟨1⟩], codeInList) := rfl
  have hhost : Host.basic.NeverStops sameFunction := trivial
  have hfollows := traversal_follows_calls Host.basic 0 rfl hhost hexpr hargs fun m' hm' =>
    congrArg ListCell.items (hlist hm' ⟨1⟩)
  have hwritten : ∀ {m'}, Between (codeElements.map
      (callWith Host.basic 1 sameContext sameFunction)) codeInList m' →
      List.Forall₂ (m'.store.IsQuotedCall sameContext sameFunction) codeElements
        [.list ⟨3⟩, .list ⟨5⟩] := by
    intro m' h
    exact .cons ⟨.list ⟨2⟩, ⟨0, "quote", ⟨2⟩, _, rfl, hlist h ⟨2⟩, rfl⟩,
        ⟨3⟩, _, rfl, hlist h ⟨3⟩, rfl⟩
      (.cons ⟨.list ⟨4⟩, ⟨0, "quote", ⟨4⟩, _, rfl, hlist h ⟨4⟩, rfl⟩,
        ⟨5⟩, _, rfl, hlist h ⟨5⟩, rfl⟩ .nil)
  have hrun := hfollows.2 [.list ⟨3⟩, .list ⟨5⟩] fun m' hm' => hwritten hm'
  exact ⟨⟨7⟩, _, hrun, rfl⟩

end DispatchLisp
