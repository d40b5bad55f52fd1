import DispatchLisp.Builtin.Run
import DispatchLisp.Proofs.Evaluation.Keeps

/-!
# Proofs.Builtin.Operators — an operator on its arguments

An operator asks for two arguments and combines its arguments from the left. So it ends as the
combination of its arguments ends: with the same error, or with the same value, where a double that
is not a number gets a mark of its own.
-/

namespace DispatchLisp

namespace Operation

section

variable {op : Operation} {name : String} {first : Value} {rest : List Value} {m : Machine}

theorem fold_append (op : Operation) (s : Store) (start : Value) (front after : List Value) :
    op.fold s start (front ++ after) = (op.fold s start front >>= fun v => op.fold s v after) := by
  induction front generalizing start with
  | nil => rfl
  | cons v front ih =>
      rw [List.cons_append, fold, fold]
      cases op.apply s start v with
      | error r => rfl
      | ok next => exact ih next

/-- With two arguments or more the number of them is right. -/
theorem run_eq (hrest : rest ≠ []) : op.run name (first :: rest) m =
    (do match ← queryNative fun s => op.fold s first rest with
        | .float x => allocate fun s => s.newFloat x
        | v => return v : NativeEval Value) m := by
  have htwo : 2 ≤ (first :: rest).length := Nat.succ_le_succ (List.length_pos_iff.mpr hrest)
  exact Computation.bind_of_ok (liftM_of_ok (check_requireArity htwo m))

theorem run_of_error (hrest : rest ≠ []) {r : Raised}
    (h : op.fold m.store first rest = .error r) : op.run name (first :: rest) m = (.error r, m) := by
  rw [run_eq hrest]
  apply Computation.bind_of_error
  rw [queryNative, h]

/-- A value that is no double is answered as it is. -/
theorem run_of_ok (hrest : rest ≠ []) {v : Value} (h : op.fold m.store first rest = .ok v)
    (hv : ∀ x, v ≠ .float x) : op.run name (first :: rest) m = (.ok v, m) := by
  have hquery : queryNative (fun s => op.fold s first rest) m = (.ok v, m) := by
    rw [queryNative, h]
  rw [run_eq hrest, Computation.bind_of_ok hquery]
  split
  case h_1 x => exact absurd rfl (hv x)
  case h_2 => rfl

/-- A double is answered as a double; nothing changes but the count of those that are not numbers. -/
theorem run_of_float (hrest : rest ≠ []) {x : Binary64}
    (h : op.fold m.store first rest = .ok (.float x)) :
    ∃ y nans, op.run name (first :: rest) m =
      (.ok (.float y), { m with store := { m.store with nans } }) := by
  have hquery : queryNative (fun s => op.fold s first rest) m = (.ok (.float x), m) := by
    rw [queryNative, h]
  rw [run_eq hrest, Computation.bind_of_ok hquery]
  cases x with
  | nan mark => exact ⟨_, _, rfl⟩
  | finite negative size => exact ⟨_, m.store.nans, rfl⟩
  | infinite negative => exact ⟨_, m.store.nans, rfl⟩

end

end Operation

end DispatchLisp
