import DispatchLisp.Proofs.Reader.RoundTrip
import DispatchLisp.Proofs.Store.Keys
import DispatchLisp.Value.Datum

/-!
# Proofs.Value.Literal — values that are written as expressions for them

Whole numbers, finite doubles, truth values, nothing, texts, keywords and the intrinsic types are
written as tokens, and finished lists and dicts of them in brackets. The text of such a value is an
expression of the grammar, for the form that evaluates to the value (`Datum.Literal.parse_eq`).
-/

namespace DispatchLisp

/-! ## Literals -/

/-- Atoms that are written as an expression for them. -/
inductive Atom.Literal : Atom → Prop where
  | int (n : Int) : Literal (.int n)
  | float (negative : Bool) (size : Magnitude) : Literal (.float (.finite negative size))
  | bool (b : Bool) : Literal (.bool b)
  | nothing : Literal .nothing
  | string (text : String) : Literal (.string text)
  | keyword {name : String} (h : IsKeywordName name.toList) : Literal (.keyword name)
  | type {name : String} (h : name ∈ intrinsicTypes) : Literal (.type name)

/-- Trees that are written as an expression for them: literal atoms, finished lists, and dicts whose
keys are literal atoms, each of them once. -/
inductive Datum.Literal : Datum → Prop where
  | atom {a : Atom} (h : a.Literal) : Literal (.atom a)
  | list {items : List Datum} (h : ∀ item ∈ items, Literal item) : Literal (.list true items)
  | dict {keys : List Atom} {values : List Datum} (hlength : keys.length = values.length)
      (hkeys : ∀ key ∈ keys, key.Literal)
      (hdistinct : DistinctKeys keys) (hvalues : ∀ v ∈ values, Literal v) : Literal (.dict keys values)

/-- The form that an atom is written as. Truth values, nothing and types are written as names. -/
def Atom.form : Atom → Form
  | .int n => .int n
  | .float x => .float x
  | .string text => .string text
  | .keyword name => .keyword name
  | a => .symbol a.render

namespace Datum

mutual

/-- The form that a tree is written as: a call of the constructor for each collection. -/
def form : Datum → Form
  | .atom a => a.form
  | .list _ items => .list (Form.listMarker :: formAll items)
  | .dict keys values => .list (Form.dictMarker :: formEntries keys values)
  | .cycle => .list []

/-- The forms that several trees are written as. -/
def formAll : List Datum → List Form
  | [] => []
  | item :: items => item.form :: formAll items

/-- The forms that the entries of a dict are written as, keys and values in turn. -/
def formEntries : List Atom → List Datum → List Form
  | key :: keys, v :: values => key.form :: v.form :: formEntries keys values
  | _, _ => []

end

mutual

/-- How many collections are open around the innermost atom, counting the atom. -/
def depth : Datum → Nat
  | .atom _ => 1
  | .list _ items => depthAll items + 1
  | .dict _ values => depthAll values + 1
  | .cycle => 1

/-- The greatest depth among several trees. -/
def depthAll : List Datum → Nat
  | [] => 0
  | item :: items => max item.depth (depthAll items)

end

theorem depth_pos (d : Datum) : 0 < d.depth := by
  cases d <;> simp [depth]

theorem length_formAll (items : List Datum) : (formAll items).length = items.length := by
  induction items with
  | nil => rfl
  | cons item items ih => rw [formAll, List.length_cons, ih, List.length_cons]

/-- The keys and values of a dict in turn. -/
def entryData : List Atom → List Datum → List Datum
  | key :: keys, v :: values => .atom key :: v :: entryData keys values
  | _, _ => []

theorem formEntries_eq (keys : List Atom) (values : List Datum) :
    formEntries keys values = formAll (entryData keys values) := by
  induction keys generalizing values with
  | nil => cases values <;> rfl
  | cons key keys ih =>
      cases values with
      | nil => rfl
      | cons v values => rw [formEntries, ih, entryData, formAll, formAll, form]

section

variable {keys : List Atom} {values : List Datum}

/-- A key is no deeper than its value. -/
theorem depthAll_entryData (h : keys.length = values.length) :
    depthAll (entryData keys values) = depthAll values := by
  induction keys generalizing values with
  | nil =>
      cases values with
      | nil => rfl
      | cons v values => cases h
  | cons key keys ih =>
      cases values with
      | nil => cases h
      | cons v values =>
          have hv := v.depth_pos
          rw [entryData, depthAll, depthAll, ih (Nat.succ.inj h), depth, depthAll]
          omega

theorem length_entryData (h : keys.length = values.length) :
    (entryData keys values).length = 2 * values.length := by
  induction keys generalizing values with
  | nil =>
      cases values with
      | nil => rfl
      | cons v values => cases h
  | cons key keys ih =>
      cases values with
      | nil => cases h
      | cons v values =>
          rw [entryData, List.length_cons, List.length_cons, ih (Nat.succ.inj h), List.length_cons]
          omega

theorem forall_entryData {P : Datum → Prop} (hkeys : ∀ key ∈ keys, P (.atom key))
    (hvalues : ∀ v ∈ values, P v) : ∀ item ∈ entryData keys values, P item := by
  induction keys generalizing values with
  | nil =>
      intro item hitem
      cases hitem
  | cons key keys ih =>
      cases values with
      | nil =>
          intro item hitem
          cases hitem
      | cons v values =>
          rw [entryData, List.forall_mem_cons, List.forall_mem_cons]
          rw [List.forall_mem_cons] at hkeys hvalues
          exact ⟨hkeys.1, hvalues.1, ih hkeys.2 hvalues.2⟩

end

end Datum

/-! ## Literals are spelled by their texts -/

namespace Atom

theorem isSymbolName_intrinsicTypes : ∀ name ∈ intrinsicTypes, IsSymbolName name.toList := by
  decide

/-- A literal atom is a readable tree with the same text. -/
theorem Literal.readable {a : Atom} (h : a.Literal) :
    a.form.Readable ∧ a.form.render = a.render ∧ a.form.depth = 1 := by
  cases h with
  | int n => exact ⟨.int n, rfl, rfl⟩
  | float negative size => exact ⟨.float negative size, rfl, rfl⟩
  | bool b =>
      cases b with
      | true => exact ⟨.symbol (by decide), rfl, rfl⟩
      | false => exact ⟨.symbol (by decide), rfl, rfl⟩
  | nothing => exact ⟨.symbol (by decide), rfl, rfl⟩
  | string text => exact ⟨.string text, rfl, rfl⟩
  | keyword hname => exact ⟨.keyword hname, rfl, rfl⟩
  | type hname => exact ⟨.symbol (isSymbolName_intrinsicTypes _ hname), rfl, rfl⟩

theorem Literal.spells {a : Atom} (h : a.Literal) : Spells 1 a.render.toList a.form := by
  obtain ⟨hreadable, hrender, hdepth⟩ := h.readable
  have hspells := hreadable.spells
  rwa [hrender, hdepth] at hspells

end Atom

namespace Datum

/-- Whether a tree has a text, which spells its form. -/
def Spelled (d : Datum) : Prop :=
  ∃ text, d.render? = some text ∧ Spells d.depth text.toList d.form

theorem spellsAll_items {items : List Datum} (h : ∀ item ∈ items, item.Spelled) :
    ∃ texts, renderAll? items = some texts ∧
      SpellsAll (depthAll items) (texts.map String.toList) (formAll items) := by
  induction items with
  | nil => exact ⟨[], rfl, .nil⟩
  | cons item items ih =>
      obtain ⟨text, htext, hspells⟩ := h item List.mem_cons_self
      obtain ⟨texts, htexts, hothers⟩ := ih fun other hother => h other (List.mem_cons_of_mem _ hother)
      refine ⟨text :: texts, ?_, .cons hspells hothers⟩
      rw [renderAll?, htext, htexts]
      rfl

/-- The texts of the keys and values of a dict in turn. -/
def interleave : List Atom → List String → List String
  | key :: keys, text :: texts => key.render :: text :: interleave keys texts
  | _, _ => []

theorem renderAll?_entryData (keys : List Atom) (values : List Datum)
    (h : keys.length = values.length) :
    renderAll? (entryData keys values) = (renderAll? values).map (interleave keys) := by
  induction keys generalizing values with
  | nil =>
      cases values with
      | nil => rfl
      | cons v values => cases h
  | cons key keys ih =>
      cases values with
      | nil => cases h
      | cons v values =>
          rw [entryData, renderAll?, renderAll?, ih values (Nat.succ.inj h), renderAll?, render?]
          cases v.render? with
          | none => rfl
          | some text =>
              cases renderAll? values with
              | none => rfl
              | some texts => rfl

theorem spread_entryTexts (keys : List Atom) (texts : List String) :
    spread ((entryTexts keys texts).map String.toList) =
      spread ((interleave keys texts).map String.toList) := by
  induction keys generalizing texts with
  | nil => rfl
  | cons key keys ih =>
      cases texts with
      | nil => rfl
      | cons text texts =>
          have hrest := ih texts
          unfold spread at hrest ⊢
          simp [entryTexts, interleave, hrest]

/-- The text of a literal spells its form. -/
theorem Literal.spelled {d : Datum} (h : d.Literal) : d.Spelled := by
  induction h with
  | atom ha => exact ⟨_, rfl, ha.spells⟩
  | @list items _ ih =>
      obtain ⟨texts, htexts, hspells⟩ := spellsAll_items ih
      refine ⟨"[" ++ String.intercalate " " texts ++ "]", ?_, ?_⟩
      · rw [render?, htexts]
        rfl
      · have hbracket := hspells.bracket (b := .square) rfl
        rw [String.toList_append, String.toList_append, toList_intercalate]
        exact hbracket
  | @dict keys values hlength hkeys _ _ ih =>
      -- a dict is spelled as the list of its keys and values in turn
      have hentries : ∀ item ∈ entryData keys values, item.Spelled :=
        forall_entryData (fun key hkey => ⟨_, rfl, (hkeys key hkey).spells⟩) ih
      obtain ⟨all, hall, hspells⟩ := spellsAll_items hentries
      rw [renderAll?_entryData keys values hlength, Option.map_eq_some_iff] at hall
      obtain ⟨texts, htexts, rfl⟩ := hall
      rw [depthAll_entryData hlength, ← formEntries_eq] at hspells
      refine ⟨"\x7b" ++ String.intercalate " " (entryTexts keys texts) ++ "\x7d", ?_, ?_⟩
      · rw [render?, htexts]
        rfl
      · -- keys and values come in pairs, so the bracket is closed with a whole number of entries
        have heven : (formEntries keys values).length % 2 = 0 := by
          rw [formEntries_eq, length_formAll, length_entryData hlength]
          exact Nat.mul_mod_right 2 _
        have hform : Bracket.curly.form? (formEntries keys values) =
            some (.list (Form.dictMarker :: formEntries keys values)) := if_pos heven
        have hbracket := hspells.bracket hform
        rw [String.toList_append, String.toList_append, toList_intercalate, joined,
          spread_entryTexts]
        exact hbracket

/-- The text of a literal is read as the form that it is written as, unless it is nested deeper
than the reader goes. -/
theorem Literal.parse_eq {d : Datum} (h : d.Literal) :
    ∃ text, d.render? = some text ∧ parse text =
      if d.depth ≤ nestingLimit then .ok d.form else .error ⟨.nestedTooDeep, none⟩ := by
  obtain ⟨text, htext, hspells⟩ := h.spelled
  exact ⟨text, htext, hspells.parse_eq⟩

end Datum

end DispatchLisp
