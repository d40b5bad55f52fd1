import DispatchLisp.Proofs.Evaluation.Calls
import DispatchLisp.Proofs.Evaluation.Frame

/-!
# Proofs.Module.ImportCall — calls of `import` with literal names

A call of `import` whose parts are strings provides the module and takes its bindings over, or it
comes to what providing the module fails with.
-/

namespace DispatchLisp

/-- Whether the parts of a call of `import` are a literal name and at most a literal qualifier. -/
inductive LiteralImport (name : String) : List Value → Option String → Prop where
  | plain : LiteralImport name [.string name] none
  | qualified (qualifier : String) :
      LiteralImport name [.string name, .string qualifier] (some qualifier)

/-- Whether an expression is a call of `import` with literal parts. -/
def Store.IsImportCall (s : Store) (c : ContextId) (name : String) (qualifier : Option String)
    (expr : Value) : Prop :=
  ∃ id word exprs, LiteralImport name exprs qualifier ∧
    s.IsNativeCall c ⟨id, word, true, .importModule⟩ exprs expr

variable {host : Host} {c : ContextId} {m m' : Machine} {expr : Value} {name : String}
  {qualifier : Option String}

theorem importForm_of_literals (ev : Evaluator) {exprs : List Value}
    (hexprs : LiteralImport name exprs qualifier)
    (hself : ∀ text m, ev (.string text) c m = (.ok (.string text), m)) (m : Machine) :
    importForm ev c (fixedParts exprs) m =
      (importModule ev c name qualifier >>= fun module =>
        pure (.context module.context) : NativeEval Value) m := by
  have hall : (liftM (evaluateAll ev c (fixedParts exprs)) : NativeEval (List Value)) m =
      (.ok exprs, m) := by
    apply liftM_of_ok
    cases hexprs with
    | plain => exact Computation.bind_of_ok (hself name m)
    | qualified qualifier =>
        refine (Computation.bind_of_ok (hself name m)).trans ?_
        have hrest : evaluateAll ev c (fixedParts [.string qualifier]) m =
            (.ok [.string qualifier], m) := Computation.bind_of_ok (hself qualifier m)
        exact Computation.bind_of_ok hrest
  cases hexprs with
  | plain => exact Computation.bind_of_ok hall
  | qualified qualifier => exact Computation.bind_of_ok hall

namespace Store.IsImportCall

variable (h : m.store.IsImportCall c name qualifier expr)

include h

/-- Without depth for its parts a call of `import` comes to nothing. -/
theorem evaluate_one : evaluate host 1 expr c m = (.error .tooDeep, m) := by
  obtain ⟨id, word, exprs, hexprs, hcall⟩ := h
  cases hexprs with
  | plain => exact evaluate_nativeCall host 0 hcall
  | qualified => exact evaluate_nativeCall host 0 hcall

theorem evaluate_eq (depth : Nat) : evaluate host (depth + 2) expr c m =
    (importModule (evaluate host (depth + 1)) c name qualifier >>= fun module =>
      pure (.context module.context) : NativeEval Value).guarded m := by
  obtain ⟨id, word, exprs, hexprs, hcall⟩ := h
  have hform : evaluate host (depth + 2) expr c m =
      (importForm (evaluate host (depth + 1)) c (fixedParts exprs)).guarded m :=
    evaluate_nativeCall host (depth + 1) hcall
  exact hform.trans (guarded_congr (importForm_of_literals _ hexprs (fun _ _ => rfl) m))

/-- An import fails with what providing the module fails with. -/
theorem evaluate_of_error {depth : Nat} {r : Raised}
    (hprovide : provideModule (evaluate host (depth + 1)) name m = (.error r, m')) :
    evaluate host (depth + 2) expr c m = (.error r.toFault, m') := by
  have himport : importModule (evaluate host (depth + 1)) c name qualifier m = (.error r, m') :=
    Computation.bind_of_error hprovide
  rw [h.evaluate_eq]
  exact guarded_of_error (Computation.bind_of_error himport)

/-- An import takes over the bindings of the module that is provided. -/
theorem evaluate_of_ok {depth : Nat} {module : Module}
    (hprovide : provideModule (evaluate host (depth + 1)) name m = (.ok module, m')) :
    ∃ m'', evaluate host (depth + 2) expr c m = (.ok (.context module.context), m'') ∧
      Quiet { m' with
        store := m'.store.importFrom c module.context (qualifier.getD (name ++ ".")) } m'' := by
  let imported := { m' with
    store := m'.store.importFrom c module.context (qualifier.getD (name ++ ".")) }
  obtain ⟨m'', hrecord, hquiet⟩ := record_of_ok .debug
    (fun _ => ⟨"imported module " ++ name ++ " into " ++ (Atom.context c).render, rfl⟩) imported
  have hchange : (changeStore fun s => s.importFrom c module.context
      (qualifier.getD (name ++ ".")) : NativeEval Unit) m' = (.ok (), imported) := rfl
  have himport : importModule (evaluate host (depth + 1)) c name qualifier m =
      (.ok module, m'') := by
    rw [importModule, Computation.bind_of_ok hprovide, Computation.bind_of_ok hchange,
      Computation.bind_of_ok (liftM_of_ok hrecord)]
    rfl
  refine ⟨m'', ?_, hquiet⟩
  rw [h.evaluate_eq]
  exact guarded_of_ok (Computation.bind_of_ok himport)

end Store.IsImportCall

end DispatchLisp
