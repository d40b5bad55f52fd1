import DispatchLisp.Proofs.Context.Root
import DispatchLisp.Proofs.Dispatch.Tables
import DispatchLisp.Proofs.Evaluation.Literal

/-!
# Proofs.Dispatch.Rendering — parameter lists are read back from their texts

Each declaration is the text of one form. Where the name of a type means the type, the declarations
that readable code makes are made again by their forms (`Store.ReadsBack`): a name that binds is no
marker, no constant and no type, and is none when it is read again. A parameter list that is written
out and read is therefore the same parameter list (`parameters_read_back`), whichever brackets, list
markers and spellings of numbers it had at first.
-/

namespace DispatchLisp

/-! ## The forms of declarations -/

/-- The form that a declaration is the text of. -/
def Declaration.form : Declaration → Form
  | .binder name => .symbol name
  | .typed type none => .symbol type
  | .typed type (some name) => .list [.symbol type, .symbol name]
  | .literal value => value.form

namespace Parameters

/-- The forms of the marker and the name for the rest of the arguments, if there is one. -/
def restForms (p : Parameters) : List Form :=
  match p.rest with
  | none => []
  | some name => [.symbol restMarker, .symbol name]

/-- The forms that a parameter list is the text of. -/
def forms (p : Parameters) : List Form :=
  p.fixed.map Declaration.form ++ p.restForms

end Parameters

theorem Atom.depth_form (a : Atom) : a.form.depth = 1 := by
  cases a <;> rfl

theorem Declaration.depth_form_le (d : Declaration) : d.form.depth ≤ 2 := by
  cases d with
  | binder name => exact Nat.le_succ 1
  | typed type name =>
      cases name with
      | none => exact Nat.le_succ 1
      | some name => exact Nat.le_refl 2
  | literal a =>
      rw [form, a.depth_form]
      exact Nat.le_succ 1

theorem Parameters.depthAll_forms_le (p : Parameters) : Form.depthAll p.forms ≤ 2 := by
  apply Form.depthAll_le
  intro item hitem
  rcases List.mem_append.mp hitem with hitem | hitem
  · obtain ⟨d, _, rfl⟩ := List.mem_map.mp hitem
    exact d.depth_form_le
  · unfold restForms at hitem
    split at hitem
    · cases hitem
    · rcases List.mem_pair.mp hitem with rfl | rfl
      · exact Nat.le_succ 1
      · exact Nat.le_succ 1

/-! ## Readable code -/

namespace Store

/-- Whether a value is the code of a readable tree. -/
def IsReadable (s : Store) (v : Value) : Prop :=
  ∃ t : Form, t.Readable ∧ s.IsCode v t

section

variable {s : Store}

theorem isReadable_ofForm {t : Form} (h : t.Readable) :
    (s.ofForm t).2.IsReadable (s.ofForm t).1 :=
  ⟨t, h, s.isCode_ofForm t⟩

/-- An atom is readable when it is what a readable form stands for. -/
theorem IsReadable.atom {a : Atom} (h : s.IsReadable (.atom a)) :
    ∃ t : Form, t.Readable ∧ t.datum = .atom a := by
  obtain ⟨t, hreadable, depth, outer, hview⟩ := h
  refine ⟨t, hreadable, ?_⟩
  rw [← hview]
  cases depth <;> rfl

theorem IsReadable.symbol {name : String} (h : s.IsReadable (.symbol name)) :
    IsSymbolName name.toList := by
  obtain ⟨t, hreadable, hdatum⟩ := h.atom
  cases hreadable with
  | symbol hname =>
      cases hdatum
      exact hname
  | _ => cases hdatum

/-- The elements of readable code are readable. -/
theorem IsReadable.items {id : ListId} (h : s.IsReadable (.list id)) :
    ∀ item ∈ (s.list id).items, s.IsReadable item := by
  obtain ⟨t, hreadable, depth, outer, hview⟩ := h
  cases hreadable with
  | @list items hitems =>
      obtain ⟨id', values, hid, hcell, hcode⟩ := IsCode.list ⟨depth, outer, hview⟩
      cases hid
      rw [hcell]
      intro item hitem
      obtain ⟨t, ht, hitemcode⟩ := exists_right_of_forall₂ hcode hitem
      exact ⟨t, hitems t ht, hitemcode⟩
  | _ => cases viewWithin_eq_atom hview

end

end Store

theorem mem_of_mem_withoutListMarker {items : List Value} {item : Value}
    (h : item ∈ withoutListMarker items) : item ∈ items := by
  unfold withoutListMarker at h
  split at h
  · exact List.mem_cons_of_mem _ h
  · exact h

theorem withoutListMarker_of_ne {name : String} (h : name ≠ "list") (items : List Value) :
    withoutListMarker (.symbol name :: items) = .symbol name :: items := by
  unfold withoutListMarker
  split
  case h_1 hmarker =>
    cases hmarker
    exact absurd rfl h
  case h_2 => rfl

/-! ## Declarations that are read back -/

/-- A constant is written as its name. -/
theorem form_of_constantLiteral? {name : String} {a : Atom} (h : constantLiteral? name = some a) :
    a.Literal ∧ a.form = .symbol name := by
  unfold constantLiteral? at h
  split at h
  case isTrue hname =>
    cases h
    exact ⟨.bool true, congrArg Form.symbol hname.symm⟩
  case isFalse =>
    split at h
    case isTrue hname =>
      cases h
      exact ⟨.bool false, congrArg Form.symbol hname.symm⟩
    case isFalse =>
      split at h
      case isTrue hname =>
        cases h
        exact ⟨.nothing, congrArg Form.symbol hname.symm⟩
      case isFalse => cases h

namespace Store

/-- Whether a type has a name that is read as one symbol, that is neither a marker nor a constant,
and that means the type in a context. -/
structure NamesType (s : Store) (c : ContextId) (type : String) : Prop where
  symbol : parse type = .ok (.symbol type)
  notList : type ≠ "list"
  notRest : type ≠ restMarker
  notConstant : constantLiteral? type = none
  means : s.lookup? c type = some (.type type)

/-- Declarations that a context makes again of their texts: what a name declares that is also their
text, a type with a name, and literals that are their own code. -/
inductive ReadsBack (s : Store) (c : ContextId) : Declaration → Prop where
  | named {name : String} {d : Declaration} (hname : IsSymbolName name.toList)
      (hrest : name ≠ restMarker) (hdeclared : s.declareName c name = d)
      (hform : d.form = .symbol name) (hrender : d.render = name) : ReadsBack s c d
  | pair {type name : String} (htype : s.NamesType c type) (hname : IsSymbolName name.toList) :
      ReadsBack s c (.typed type (some name))
  | literal {a : Atom} (ha : a.Literal) (hform : a.form.datum = .atom a) :
      ReadsBack s c (.literal a)

section

variable {s s' : Store} {c : ContextId} {d : Declaration}

/-- What a name declares depends on the contexts alone. -/
theorem declareName_congr (h : s'.contexts = s.contexts) (c : ContextId) (name : String) :
    s'.declareName c name = s.declareName c name := by
  unfold declareName typeNamed?
  rw [lookup?_congr h]

theorem NamesType.congr {type : String} (h : s.NamesType c type)
    (hcontexts : s'.contexts = s.contexts) : s'.NamesType c type := by
  refine ⟨h.symbol, h.notList, h.notRest, h.notConstant, ?_⟩
  rw [lookup?_congr hcontexts, h.means]

theorem NamesType.isSymbolName {type : String} (h : s.NamesType c type) :
    IsSymbolName type.toList := by
  cases readable_of_parse h.symbol with
  | symbol hname => exact hname

theorem NamesType.declareName {type : String} (h : s.NamesType c type) :
    s.declareName c type = .typed type none := by
  unfold Store.declareName typeNamed?
  rw [h.notConstant, h.means]

/-- What a readable name declares is read back: a constant or a binder from the same name, a type
from its own. -/
theorem readsBack_declareName {name : String} (hname : IsSymbolName name.toList)
    (hrest : name ≠ restMarker)
    (htypes : ∀ type binder, s.declareName c name = .typed type binder → s.NamesType c type) :
    s.ReadsBack c (s.declareName c name) := by
  cases hconstant : constantLiteral? name with
  | some a =>
      have hdeclared : s.declareName c name = .literal a := by
        unfold declareName
        rw [hconstant]
      obtain ⟨ha, hform⟩ := form_of_constantLiteral? hconstant
      have hrender : a.render = name := by
        rw [← ha.readable.2.1, hform, Form.render]
      rw [hdeclared]
      exact .named hname hrest hdeclared hform hrender
  | none =>
      cases htype : s.typeNamed? c name with
      | some type =>
          have hdeclared : s.declareName c name = .typed type none := by
            unfold declareName
            rw [hconstant, htype]
          -- the type may go by this name here, but it is written by its own
          have hnames := htypes type none hdeclared
          rw [hdeclared]
          exact .named hnames.isSymbolName hnames.notRest hnames.declareName rfl rfl
      | none =>
          have hdeclared : s.declareName c name = .binder name := by
            unfold declareName
            rw [hconstant, htype]
          rw [hdeclared]
          refine .named hname hrest hdeclared rfl ?_
          rw [Declaration.render, hname.isEmpty_eq_false, if_neg Bool.false_ne_true]

theorem refuse_ne_ok (item : Value) (d : Declaration) : declare.refuse s item ≠ .ok d := by
  intro h
  rcases bind_eq_ok.mp h with ⟨text, _, hrefused⟩
  cases hrefused

/-- What readable code declares is read back, if the name of its type means the type. -/
theorem readsBack_of_declare {item : Value} (hitem : s.IsReadable item)
    (hrest : item ≠ .symbol restMarker) (h : s.declare c item = .ok d)
    (htypes : ∀ type name, d = .typed type name → s.NamesType c type) : s.ReadsBack c d := by
  unfold declare at h
  split at h
  case h_1 name =>
    cases h
    have hname : name ≠ restMarker := fun hmarker => hrest (congrArg Value.symbol hmarker)
    exact readsBack_declareName hitem.symbol hname htypes
  case h_2 n =>
    cases h
    exact .literal (.int n) rfl
  case h_3 x =>
    cases h
    -- the reader makes no infinite doubles and none that are not numbers
    obtain ⟨t, hreadable, hdatum⟩ := hitem.atom
    cases hreadable with
    | float negative size =>
        cases hdatum
        exact .literal (.float negative size) rfl
    | _ => cases hdatum
  case h_4 text =>
    cases h
    exact .literal (.string text) rfl
  case h_5 name =>
    cases h
    obtain ⟨t, hreadable, hdatum⟩ := hitem.atom
    cases hreadable with
    | keyword hname =>
        cases hdatum
        exact .literal (.keyword hname) rfl
    | _ => cases hdatum
  case h_6 b =>
    -- the reader makes symbols of the names of the truth values
    obtain ⟨t, hreadable, hdatum⟩ := hitem.atom
    cases hreadable <;> cases hdatum
  case h_7 id =>
    split at h
    case h_1 first second hpair =>
      split at h
      case h_1 type binder hdeclared =>
        cases h
        have hsecond : Value.symbol second ∈ withoutListMarker (s.list id).items := by
          rw [hpair]
          exact List.mem_cons_of_mem _ (List.mem_singleton_self _)
        have hname := hitem.items _ (mem_of_mem_withoutListMarker hsecond)
        exact .pair (htypes type (some second) rfl) hname.symbol
      case h_2 => exact absurd h (refuse_ne_ok _ d)
    case h_2 => exact absurd h (refuse_ne_ok _ d)
  case h_8 => exact absurd h (refuse_ne_ok _ d)

namespace ReadsBack

/-- The form of a declaration that is read back is readable and has the text of the declaration. -/
theorem readable (h : s.ReadsBack c d) : d.form.Readable ∧ d.form.render = d.render := by
  cases h with
  | named hname _ _ hform hrender =>
      rw [hform, hrender]
      exact ⟨.symbol hname, rfl⟩
  | @pair type name htype hname =>
      constructor
      · refine .list fun item hitem => ?_
        rcases List.mem_pair.mp hitem with rfl | rfl
        · exact .symbol htype.isSymbolName
        · exact .symbol hname
      · have hbinds : (Declaration.typed type (some name)).name? = some name := by
          rw [Declaration.name?, Option.filter_some, hname.isEmpty_eq_false]
          rfl
        rw [Declaration.render, hbinds, Declaration.form, Form.render, Form.renderAll_eq]
        simp only [List.map_cons, List.map_nil, Form.render, String.intercalate_cons_cons,
          String.intercalate_singleton, String.append_assoc]
  | literal ha =>
      obtain ⟨hreadable, hrender, _⟩ := ha.readable
      exact ⟨hreadable, hrender⟩

/-- The code of a declaration that is read back is not the marker for the rest of the arguments. -/
theorem ne_restMarker (h : s.ReadsBack c d) {item : Value} (hcode : s'.IsCode item d.form) :
    item ≠ .symbol restMarker := by
  cases h with
  | named _ hrest _ hform =>
      rw [hform] at hcode
      rw [hcode.atom rfl]
      intro hmarker
      cases hmarker
      exact hrest rfl
  | pair =>
      obtain ⟨id, values, rfl, _⟩ := IsCode.list hcode
      intro hmarker
      cases hmarker
  | literal ha hform =>
      rw [hcode.atom hform]
      -- no literal is a symbol
      intro hmarker
      cases hmarker
      cases ha

/-- The code of a declaration that is read back declares it. -/
theorem declare_eq (h : s.ReadsBack c d) (hcontexts : s'.contexts = s.contexts) {item : Value}
    (hcode : s'.IsCode item d.form) : s'.declare c item = .ok d := by
  cases h with
  | named _ _ hdeclared hform =>
      rw [hform] at hcode
      rw [hcode.atom rfl, declare, declareName_congr hcontexts, hdeclared]
  | @pair type name htype hname =>
      obtain ⟨id, values, rfl, hcell, hitems⟩ := IsCode.list hcode
      cases hitems with
      | cons hfirst hitems =>
          cases hitems with
          | cons hsecond hitems =>
              cases hitems with
              | nil =>
                  -- the name of the type is no list marker, so both elements count
                  rw [hfirst.atom rfl, hsecond.atom rfl] at hcell
                  rw [declare, hcell, withoutListMarker_of_ne htype.notList]
                  simp only [declareName_congr hcontexts, htype.declareName]
  | literal ha hform =>
      rw [hcode.atom hform]
      cases ha with
      | int | float | string | keyword => rfl
      | bool | nothing | type => cases hform

end ReadsBack

/-! ## Parameter lists that are read back -/

/-- Whether a context makes parameters again of their text: each declaration, and a name for the
rest that is read as a name. -/
structure ReadsBackAll (s : Store) (c : ContextId) (p : Parameters) : Prop where
  fixed : ∀ d ∈ p.fixed, s.ReadsBack c d
  rest : ∀ name, p.rest = some name → IsSymbolName name.toList

/-- The parameters that readable elements make are read back, if the names of their types mean the
types. -/
theorem readsBackAll_of_declareItems {items : List Value} {p : Parameters}
    (hreadable : ∀ item ∈ items, s.IsReadable item) (h : s.declareItems c items = .ok p)
    (htypes : ∀ type name, .typed type name ∈ p.fixed → s.NamesType c type) :
    s.ReadsBackAll c p := by
  -- on the elements: there is one name behind the marker, and a declaration anywhere before it
  induction items generalizing p with
  | nil =>
      cases h
      constructor
      · exact fun d hd => absurd hd List.not_mem_nil
      · intro name hname
        cases hname
  | cons item items ih =>
      obtain ⟨hitem, hitems⟩ := List.forall_mem_cons.mp hreadable
      rcases declareItems_cons_cases h with
        ⟨name, rfl, rfl, rfl⟩ | ⟨d, others, hrest, hdeclared, hothers, rfl⟩
      · constructor
        · exact fun d hd => absurd hd List.not_mem_nil
        · intro other hother
          cases hother
          exact (hitems _ (List.mem_singleton_self _)).symbol
      · have hfirst : s.ReadsBack c d := by
          apply readsBack_of_declare hitem hrest hdeclared
          intro type name htype
          exact htypes type name (htype ▸ List.mem_cons_self)
        have hlater : s.ReadsBackAll c others := by
          apply ih hitems hothers
          intro type name htype
          exact htypes type name (List.mem_cons_of_mem _ htype)
        exact ⟨List.forall_mem_cons.mpr ⟨hfirst, hlater.fixed⟩, hlater.rest⟩

/-- The parameters that readable code makes are read back, if the names of their types mean the
types. -/
theorem readsBackAll_of_declareParameters {v : Value} {p : Parameters} (hv : s.IsReadable v)
    (h : s.declareParameters c v = .ok p)
    (htypes : ∀ type name, .typed type name ∈ p.fixed → s.NamesType c type) :
    s.ReadsBackAll c p := by
  obtain ⟨id, rfl, hdeclared⟩ := exists_items_of_declareParameters h
  apply readsBackAll_of_declareItems _ hdeclared htypes
  intro item hitem
  exact hv.items item (mem_of_mem_withoutListMarker hitem)

namespace ReadsBackAll

variable {p : Parameters}

/-- The forms of parameters that are read back make them again. -/
theorem declareItems_eq (h : s.ReadsBackAll c p) (hcontexts : s'.contexts = s.contexts)
    {items : List Value} (hcode : List.Forall₂ s'.IsCode items p.forms) :
    s'.declareItems c items = .ok p := by
  obtain ⟨fixed, rest⟩ := p
  -- on the declarations, of which none is written as the marker that comes behind them
  induction fixed generalizing items with
  | nil =>
      cases rest with
      | none =>
          cases hcode
          rfl
      | some name =>
          cases hcode with
          | cons hmarker hcode =>
              cases hcode with
              | cons hname hcode =>
                  cases hcode
                  rw [hmarker.atom rfl, hname.atom rfl, declareItems, if_pos rfl]
  | cons d fixed ih =>
      obtain ⟨hd, hfixed⟩ := List.forall_mem_cons.mp h.fixed
      cases hcode with
      | cons hfirst hcode =>
          unfold declareItems
          rw [if_neg (hd.ne_restMarker hfirst), hd.declare_eq hcontexts hfirst,
            ih ⟨hfixed, h.rest⟩ hcode]
          rfl

/-- The forms of parameters that are read back are readable. -/
theorem readable (h : s.ReadsBackAll c p) : ∀ item ∈ p.forms, item.Readable := by
  intro item hitem
  rcases List.mem_append.mp hitem with hitem | hitem
  · obtain ⟨d, hd, rfl⟩ := List.mem_map.mp hitem
    exact (h.fixed d hd).readable.1
  · unfold Parameters.restForms at hitem
    split at hitem
    case h_1 => cases hitem
    case h_2 name hrest =>
      rcases List.mem_pair.mp hitem with rfl | rfl
      · exact .symbol (by decide)
      · exact .symbol (h.rest name hrest)

/-- The texts of parameters that are read back are those of their forms, with a space between the
marker and the name for the rest. -/
theorem spread_texts (h : s.ReadsBackAll c p) :
    spread (p.texts.map String.toList) = spread ((Form.renderAll p.forms).map String.toList) := by
  have hfixed : (p.fixed.map Declaration.form).map Form.render =
      p.fixed.map Declaration.render := by
    rw [List.map_map]
    exact List.map_congr_left fun d hd => (h.fixed d hd).readable.2
  rw [Form.renderAll_eq, Parameters.texts, Parameters.forms, List.map_append, List.map_append,
    hfixed, List.map_append, spread_append, spread_append]
  -- the fixed declarations agree one by one, and what is left is the name for the rest
  congr 1
  unfold Parameters.restForms
  cases p.rest with
  | none => rfl
  | some name => simp [spread, Form.render]

/-- The text of parameters that are read back spells the form that makes them again. -/
theorem spells (h : s.ReadsBackAll c p) :
    Spells (Form.depthAll p.forms + 1) p.render.toList (.list (Form.listMarker :: p.forms)) := by
  have hitems : SpellsAll (Form.depthAll p.forms) ((Form.renderAll p.forms).map String.toList)
      p.forms := Form.spellsAll_items fun item hitem => (h.readable item hitem).spells
  have hbracket := hitems.bracket (b := .square) rfl
  rw [DispatchLisp.joined, ← h.spread_texts] at hbracket
  rw [Parameters.render, String.toList_append, String.toList_append, toList_intercalate]
  exact hbracket

/-- What the text of parameters that are read back is read as makes them again. -/
theorem declareParameters_eq (h : s.ReadsBackAll c p) (hcontexts : s'.contexts = s.contexts) :
    (s'.ofForm (.list (Form.listMarker :: p.forms))).2.declareParameters c
      (s'.ofForm (.list (Form.listMarker :: p.forms))).1 = .ok p := by
  have hlater := (s'.contexts_ofForm (.list (Form.listMarker :: p.forms))).trans hcontexts
  obtain ⟨id, values, hid, hcell, hcode⟩ :=
    (s'.isCode_ofForm (.list (Form.listMarker :: p.forms))).list
  cases hcode with
  | cons hmarker hcode =>
      rw [hmarker.atom rfl] at hcell
      rw [hid, declareParameters, hcell]
      exact h.declareItems_eq hlater hcode

end ReadsBackAll

end

end Store

/-- Parameter lists are read back. If a text is read as a parameter list and makes parameters in a
context, and each type in them has a name that is read as one symbol, is neither a marker nor a
constant, and means the type in the context, then the text of the parameters is read too, and makes
the same parameters in the context: the same declarations with the same names in the same order. -/
theorem parameters_read_back {text : String} {form : Form} {s : Store} {c : ContextId}
    {p : Parameters} (hread : parse text = .ok form)
    (hdeclared : (s.ofForm form).2.declareParameters c (s.ofForm form).1 = .ok p)
    (htypes : ∀ type name, .typed type name ∈ p.fixed → s.NamesType c type) :
    ∃ again, parse p.render = .ok again ∧
      ∀ s' : Store, s'.contexts = s.contexts →
        (s'.ofForm again).2.declareParameters c (s'.ofForm again).1 = .ok p := by
  have hcontexts := s.contexts_ofForm form
  have hback : (s.ofForm form).2.ReadsBackAll c p := by
    apply Store.readsBackAll_of_declareParameters _ hdeclared
    · intro type name htype
      exact (htypes type name htype).congr hcontexts
    · exact Store.isReadable_ofForm (readable_of_parse hread)
  have hdepth : Form.depthAll p.forms + 1 ≤ nestingLimit :=
    Nat.le_trans (Nat.succ_le_succ p.depthAll_forms_le) (by decide)
  refine ⟨.list (Form.listMarker :: p.forms), ?_, ?_⟩
  · rw [hback.spells.parse_eq, if_pos hdepth]
  · intro s' hsame
    exact hback.declareParameters_eq (hsame.trans hcontexts.symm)

/-- Parameters for a whole number with a name, a negative zero, a constant, and any others. -/
def signedParameters : Parameters :=
  ⟨[.typed "Int" (some "x"), .literal (.float (.zero true)), .literal (.bool true)], some "xs"⟩

/-- A type and its name in square brackets and a double with a needless digit are written more
simply, and declare the same. -/
theorem parameters_read_back_of_square_pair :
    ∃ form again, parse "[[Int x] -0.00 true &rest xs]" = .ok form ∧
      parse "[(Int x) -0.0 true &rest xs]" = .ok again ∧
      ∀ s' : Store, s'.contexts = (Store.newRoot .empty).2.contexts →
        (s'.ofForm again).2.declareParameters (Store.newRoot .empty).1 (s'.ofForm again).1 =
          .ok signedParameters := by
  have hread : parse "[[Int x] -0.00 true &rest xs]" = .ok (.list [.symbol "list",
      .list [.symbol "list", .symbol "Int", .symbol "x"], .float (.zero true), .symbol "true",
      .symbol "&rest", .symbol "xs"]) := rfl
  have hrender : signedParameters.render = "[(Int x) -0.0 true &rest xs]" := by decide +kernel
  have htypes : ∀ type name, .typed type name ∈ signedParameters.fixed →
      (Store.newRoot .empty).2.NamesType (Store.newRoot .empty).1 type := by
    intro type name htype
    have hint : type = "Int" := by
      simp only [signedParameters, List.mem_cons, Declaration.typed.injEq, reduceCtorEq,
        List.not_mem_nil, or_false] at htype
      exact htype.1
    subst hint
    exact ⟨rfl, by decide, by decide, rfl, Store.lookup?_newRoot_type .empty (by decide)⟩
  obtain ⟨again, hagain, hsame⟩ := parameters_read_back hread (by decide +kernel) htypes
  rw [hrender] at hagain
  exact ⟨_, again, hread, hagain, hsame⟩

end DispatchLisp
