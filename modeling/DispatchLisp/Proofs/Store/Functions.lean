import DispatchLisp.Store.Basic

/-!
# Proofs.Store.Functions — what the operations of a store do to each function
-/

namespace DispatchLisp

namespace Store

/-- Whether there is a function at a place. -/
def HasFunction (s : Store) (id : FunctionId) : Prop :=
  id.index < s.functions.size

instance (s : Store) (id : FunctionId) : Decidable (s.HasFunction id) :=
  inferInstanceAs (Decidable (_ < _))

theorem patterns_congr {s s' : Store} (h : s'.functions = s.functions) (id : FunctionId) :
    s'.patterns id = s.patterns id := by
  unfold patterns
  rw [h]

/-- A place where no function stands is read as a function without patterns. -/
theorem patterns_of_size_le {s : Store} {id : FunctionId} (h : s.functions.size ≤ id.index) :
    s.patterns id = [] := by
  rw [patterns, Array.getElem?_eq_none h]
  rfl

theorem patterns_newFunction_self {s : Store} {id : FunctionId} (h : id.index = s.functions.size)
    (label : String) (patterns : List Pattern) :
    (s.newFunction label patterns).2.patterns id = patterns := by
  simp [Store.patterns, newFunction, h]

theorem patterns_newFunction_ne {s : Store} {id : FunctionId} (h : id.index ≠ s.functions.size)
    (label : String) (patterns : List Pattern) :
    (s.newFunction label patterns).2.patterns id = s.patterns id := by
  simp [Store.patterns, newFunction, Array.getElem?_push, h]

theorem patterns_extend_ne {s : Store} {id other : FunctionId} (h : other.index ≠ id.index)
    (p : Pattern) : (s.extend id p).patterns other = s.patterns other := by
  simp only [Store.patterns, extend, Array.getElem?_modify, h.symm, if_false]

theorem patterns_extend_self {s : Store} {id other : FunctionId} (h : other.index = id.index)
    (hthere : other.index < s.functions.size) (p : Pattern) :
    (s.extend id p).patterns other = addPattern p (s.patterns other) := by
  have hcell : s.functions[other.index]? = some s.functions[other.index] :=
    Array.getElem?_eq_getElem hthere
  simp only [Store.patterns, extend, Array.getElem?_modify, h, if_true]
  rw [← h, hcell]
  rfl

end Store

end DispatchLisp
