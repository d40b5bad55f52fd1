import DispatchLisp.Proofs.Number.DecimalValue
import DispatchLisp.Proofs.Reader.Acceptance

/-!
# Proofs.Reader.Readable — the trees of the readable language

A tree is readable when every atom in it has a text that the reader takes for that atom. The grammar
derives no other trees (`Grammar.Expr.readable`), so the reader makes no others
(`readable_of_parse`).
-/

namespace DispatchLisp

/-- The trees of the readable language: whole numbers, finite doubles, strings, keywords and
symbols with names that the reader accepts, and lists of readable trees. -/
inductive Form.Readable : Form → Prop where
  | int (n : Int) : Readable (.int n)
  | float (negative : Bool) (size : Magnitude) : Readable (.float (.finite negative size))
  | string (text : String) : Readable (.string text)
  | keyword {name : String} (h : IsKeywordName name.toList) : Readable (.keyword name)
  | symbol {name : String} (h : IsSymbolName name.toList) : Readable (.symbol name)
  | list {items : List Form} (h : ∀ item ∈ items, Readable item) : Readable (.list items)

namespace Form

theorem readable_listMarker : listMarker.Readable :=
  .symbol (by decide)

theorem readable_dictMarker : dictMarker.Readable :=
  .symbol (by decide)

end Form

/-! ## Atoms -/

theorem NumberSpelling.readable_form? {n : NumberSpelling} {form : Form} (h : n.form? = some form) :
    form.Readable := by
  unfold NumberSpelling.form? at h
  split at h
  case isTrue =>
    -- a number that is too large is no form, so the double is finite
    rcases n.decimal.toBinary64_finite_or_infinite with ⟨size, hx⟩ | hx
    · simp only [hx, Binary64.isInfinite, Bool.false_eq_true, if_false, Option.some.injEq] at h
      exact h ▸ .float _ size
    · simp [hx, Binary64.isInfinite] at h
  case isFalse =>
    split at h
    · cases h
      exact .int _
    · cases h
      exact .int _

namespace Grammar

/-- A token of the grammar is readable. -/
theorem Token.readable {text rest : List Char} {form : Form} (h : Token text form rest) :
    form.Readable := by
  cases h with
  | string => exact .string _
  | number _ _ _ _ hform => exact NumberSpelling.readable_form? hform
  | keyword hlongest =>
      refine .keyword ?_
      rw [String.toList_ofList]
      exact takesLongest_keyword.eq_self hlongest.isKind
  | symbol hnumber hcolon hlongest =>
      refine .symbol ?_
      rw [String.toList_ofList]
      -- what the text does not start with, its longest symbol does not either
      rw [← hlongest.split] at hnumber hcolon
      refine ⟨takesLongest_symbol.eq_self hlongest.isKind, startsNumber_of_append hnumber, ?_⟩
      obtain ⟨c, others, rfl, _⟩ := hlongest.isKind
      exact hcolon

end Grammar

/-! ## Brackets -/

theorem Bracket.readable_form? {shape : Bracket} {items : List Form} {form : Form}
    (hitems : ∀ item ∈ items, item.Readable) (h : shape.form? items = some form) :
    form.Readable := by
  have hcons : ∀ marker : Form, marker.Readable →
      ∀ item ∈ marker :: items, item.Readable := by
    intro marker hmarker item hitem
    rcases List.mem_cons.mp hitem with rfl | hitem
    · exact hmarker
    · exact hitems item hitem
  cases shape with
  | round =>
      cases h
      exact .list hitems
  | square =>
      cases h
      exact .list (hcons _ Form.readable_listMarker)
  | curly =>
      rw [Bracket.form?] at h
      -- an odd number of items between curly brackets is no form at all
      by_cases heven : items.length % 2 = 0
      · rw [if_pos heven] at h
        cases h
        exact .list (hcons _ Form.readable_dictMarker)
      · rw [if_neg heven] at h
        cases h

/-! ## Expressions -/

namespace Grammar

mutual

/-- Whatever the grammar derives is readable. -/
theorem Expr.readable : {depth : Nat} → {text rest : List Char} → {form : Form} →
    Expr depth text form rest → form.Readable
  | _, _, _, _, .token htoken => htoken.readable
  | _, _, _, _, .bracket _ hitems hform => Bracket.readable_form? (Items.readable hitems) hform

theorem Items.readable : {depth : Nat} → {b : Bracket} → {text rest : List Char} →
    {items : List Form} → Items depth b text items rest → ∀ item ∈ items, item.Readable
  | _, _, _, _, _, .close _ => fun _ hitem => absurd hitem List.not_mem_nil
  | _, _, _, _, _, .item _ hexpr hothers =>
    List.forall_mem_cons.mpr ⟨Expr.readable hexpr, Items.readable hothers⟩

end

end Grammar

/-- Whatever is read is readable. -/
theorem readable_of_parse {text : String} {t : Form} (h : parse text = .ok t) : t.Readable := by
  obtain ⟨_, _, _, _, _, hexpr, _⟩ := document_of_parse h
  exact hexpr.readable

end DispatchLisp
