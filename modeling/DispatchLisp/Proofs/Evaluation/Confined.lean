import DispatchLisp.Interpreter
import DispatchLisp.Proofs.Evaluation.Calls
import DispatchLisp.Proofs.Evaluation.Frame
import DispatchLisp.Proofs.Store.Contexts

/-!
# Proofs.Evaluation.Confined — evaluation is confined to its own frame

An evaluation binds names in the context that it runs in and in contexts that it makes, and nowhere
else (`evaluate_confined`). A `let` form binds its names in a context of its own, so it leaves even
the context that it stands in as it was.
-/

namespace DispatchLisp

/-- Whether every context that there was is still there, with the same names bound to the same
values in the same order. -/
structure Untouched (m m' : Machine) : Prop where
  size : m.store.contexts.size ≤ m'.store.contexts.size
  tables : ∀ d, m.store.HasContext d → (m'.store.context d).table = (m.store.context d).table

/-- Whether that holds of every context but one. -/
structure Confined (c : ContextId) (m m' : Machine) : Prop where
  size : m.store.contexts.size ≤ m'.store.contexts.size
  tables : ∀ d, m.store.HasContext d → d.index ≠ c.index →
    (m'.store.context d).table = (m.store.context d).table

theorem accumulates_untouched : Accumulates Untouched where
  refl _ := ⟨Nat.le_refl _, fun _ _ => rfl⟩
  trans {m m' _} h h' := by
    constructor
    · exact Nat.le_trans h.size h'.size
    · intro d hd
      have hthere : m'.store.HasContext d := Nat.lt_of_lt_of_le hd h.size
      rw [h'.tables d hthere, h.tables d hd]

theorem accumulates_confined (c : ContextId) : Accumulates (Confined c) where
  refl _ := ⟨Nat.le_refl _, fun _ _ _ => rfl⟩
  trans {m m' _} h h' := by
    constructor
    · exact Nat.le_trans h.size h'.size
    · intro d hd hne
      have hthere : m'.store.HasContext d := Nat.lt_of_lt_of_le hd h.size
      rw [h'.tables d hthere hne, h.tables d hd hne]

theorem Untouched.confined {c : ContextId} {m m' : Machine} (h : Untouched m m') : Confined c m m' :=
  ⟨h.size, fun d hd _ => h.tables d hd⟩

/-- Work that is confined to a new context leaves the earlier ones alone. -/
theorem Confined.untouched {m m' : Machine} {name : String} {parent : Option ContextId}
    (h : Confined (m.nextContext name) (m.inNewContext name parent) m') : Untouched m m' := by
  have hsize : (m.inNewContext name parent).store.contexts.size = m.store.contexts.size + 1 :=
    Store.size_newContext m.store name parent
  constructor
  · exact Nat.le_of_succ_le (Nat.le_trans (Nat.le_of_eq hsize.symm) h.size)
  · intro d hd
    have hold : (m.inNewContext name parent).store.HasContext d :=
      hd.newContext name parent
    rw [h.tables d hold (Nat.ne_of_lt hd)]
    exact congrArg ContextCell.table (Store.context_newContext hd name parent)

theorem confined_of_contexts {c : ContextId} {m m' : Machine}
    (h : m'.store.contexts = m.store.contexts) : Confined c m m' := by
  constructor
  · exact Nat.le_of_eq (congrArg Array.size h).symm
  · intro d _ _
    rw [Store.context_congr h]

/-- Being confined to the context of the evaluation is a frame. -/
theorem frame_confined : Frame Confined where
  accumulates := accumulates_confined
  ofQuiet _ _ _ h := confined_of_contexts h.contexts
  functions _ _ _ h := confined_of_contexts h.contexts
  defineAll c m entries := by
    constructor
    · exact Nat.le_of_eq (Store.size_defineAll _ _ _).symm
    · intro d _ hne
      exact congrArg ContextCell.table (Store.context_updateContext_ne hne _)
  inside c m name parent m' h := h.untouched.confined
  loaded c m name source path m' _ h := by
    have hm' := h.untouched
    exact ⟨hm'.size, fun d hd _ => hm'.tables d hd⟩
  imported c m name module qualifier _ := by
    constructor
    · exact Nat.le_of_eq (Store.size_importFrom _ _ _ _).symm
    · intro d _ hne
      exact Store.table_importFrom_ne qualifier hne

/-! ## Forms that bind nothing where they stand -/

/-- Whether an expression is a call of the special form `let`. -/
def Store.IsLetForm (s : Store) (context : ContextId) (expr : Value) : Prop :=
  ∃ id head exprs f name, expr = .list id ∧ s.list id = ⟨head :: exprs, false⟩ ∧
    s.headValue? context head = some (.native ⟨f, name, true, .form .letForm⟩)

/-- A `let` form is evaluated by what the special form does. -/
theorem evaluate_letForm (host : Host) (depth : Nat) {m : Machine} {c : ContextId} {expr : Value}
    (h : m.store.IsLetForm c expr) :
    ∃ exprs, (evaluate host (depth + 1) expr c m).2 =
      (evaluateLet (evaluate host depth) c (fixedParts exprs) m).2 := by
  rcases h with ⟨id, head, exprs, f, name, rfl, hcell, hhead⟩
  have hcall : m.store.IsFormCall c .letForm exprs (.list id) :=
    ⟨f, name, id, head, rfl, hcell, hhead⟩
  exact ⟨exprs, congrArg Prod.snd (evaluate_formCall host depth hcall)⟩

/-- Evaluation is confined to its own frame. Whether it returns or fails, the contexts that there
were keep their bindings, names, values and order, but for the one that it runs in; and that one
keeps them too when the expression is a `let` form. -/
theorem evaluate_confined (host : Host) (hhost : host.Respects Confined) (depth : Nat)
    (expr : Value) (c : ContextId) (m : Machine) :
    (∀ d, m.store.HasContext d → d.index ≠ c.index →
      ((evaluate host depth expr c m).2.store.context d).table = (m.store.context d).table) ∧
    (m.store.IsLetForm c expr → ∀ d, m.store.HasContext d →
      ((evaluate host depth expr c m).2.store.context d).table = (m.store.context d).table) := by
  constructor
  · exact (frame_confined.evaluate hhost depth expr c m).tables
  · intro hlet
    cases depth with
    | zero => exact fun _ _ => rfl
    | succ depth =>
        -- the form makes a context and does all of its work there
        rcases evaluate_letForm host depth hlet with ⟨exprs, hrun⟩
        have hev := frame_confined.evaluate hhost depth
        rw [hrun]
        exact (frame_confined.keeps_evaluateLet hev accumulates_untouched
          (fun _ _ _ _ => Confined.untouched) _ m).tables

/-- A machine with a new root context, in which a form is about to be evaluated. -/
def Machine.aboutToEvaluate (t : Form) : Value × Machine :=
  let (v, store) := (Store.newRoot .empty).2.ofForm t
  (v, { Machine.initial .empty LogLevel.warning.number with store })

/-- A definition in the body of a `let` form does not reach the root context. -/
theorem evaluate_confined_definition_in_let :
    ((evaluate Host.basic 10
        (Machine.aboutToEvaluate (.list [.symbol "let", .list [.symbol "list", .symbol "x", .int 1],
          .list [.symbol "def", .symbol "y", .symbol "x"]])).1 ⟨0, rootName⟩
        (Machine.aboutToEvaluate (.list [.symbol "let", .list [.symbol "list", .symbol "x", .int 1],
          .list [.symbol "def", .symbol "y", .symbol "x"]])).2).2.store.context ⟨0, rootName⟩).table =
      ((Machine.aboutToEvaluate (.list [.symbol "let", .list [.symbol "list", .symbol "x", .int 1],
        .list [.symbol "def", .symbol "y", .symbol "x"]])).2.store.context ⟨0, rootName⟩).table := by
  apply (evaluate_confined Host.basic (Host.basic_respects frame_confined) 10 _ ⟨0, rootName⟩ _).2
  · refine ⟨⟨2⟩, .symbol "let", [.list ⟨0⟩, .list ⟨1⟩], 5, "let", rfl, rfl, ?_⟩
    decide +kernel
  · show 0 < _
    decide +kernel

end DispatchLisp
