import DispatchLisp.Proofs.Number.Notation
import DispatchLisp.Proofs.Reader.Readable

/-!
# Proofs.Reader.RoundTrip — reading what was written

A text *spells* a form when it is an expression of the grammar for the form, whatever ends it. Texts
with spaces between them and a bracket around them spell what the bracket stands for. So the text of
a readable tree spells the tree, and is read back as the tree; a tree that is nested deeper than the
reader goes is refused for that and for nothing else (`parse_render`).
-/

namespace DispatchLisp

/-! ## Spelling -/

/-- Whether a text is an expression for a form, before whatever ends a token. -/
def Spells (depth : Nat) (text : List Char) (form : Form) : Prop :=
  ∀ rest, TokenEnd rest → Grammar.Expr depth (text ++ rest) form rest

/-- Whether texts are expressions for forms, one after another. -/
inductive SpellsAll : Nat → List (List Char) → List Form → Prop where
  | nil : SpellsAll 0 [] []
  | cons {depth others : Nat} {text : List Char} {form : Form} {texts : List (List Char)}
      {forms : List Form} : Spells depth text form → SpellsAll others texts forms →
      SpellsAll (max depth others) (text :: texts) (form :: forms)

/-- Texts with a space before each. -/
def spread (texts : List (List Char)) : List Char :=
  texts.flatMap (' ' :: ·)

theorem spread_append (texts others : List (List Char)) :
    spread (texts ++ others) = spread texts ++ spread others :=
  List.flatMap_append

/-- Texts with a space between each two. -/
def joined (texts : List (List Char)) : List Char :=
  (spread texts).drop 1

theorem toList_intercalate (texts : List String) :
    (String.intercalate " " texts).toList = joined (texts.map String.toList) := by
  cases texts with
  | nil => rfl
  | cons text texts =>
      induction texts generalizing text with
      | nil => simp [joined, spread]
      | cons second texts ih =>
          rw [String.intercalate_cons_cons, String.toList_append, String.toList_append, ih second]
          simp [joined, spread]

theorem tokenEnd_closer (b : Bracket) (rest : List Char) : TokenEnd (b.closer :: rest) := by
  show endsToken b.closer = true
  cases b <;> decide

theorem tokenEnd_spread (texts : List (List Char)) (b : Bracket) (rest : List Char) :
    TokenEnd (spread texts ++ b.closer :: rest) := by
  cases texts with
  | nil => exact tokenEnd_closer b rest
  | cons text texts => exact (by decide : endsToken ' ' = true)

namespace SpellsAll

variable {depth : Nat} {texts : List (List Char)} {forms : List Form}

/-- Texts with spaces before them are items. -/
theorem items_spread (h : SpellsAll depth texts forms) (b : Bracket) (rest : List Char) :
    Grammar.Items depth b (spread texts ++ b.closer :: rest) forms rest := by
  induction h with
  | nil => exact .close (.none _)
  | @cons depth others text form texts forms hspells hothers ih =>
      have hblank : Grammar.Blanks (spread (text :: texts) ++ b.closer :: rest)
          (text ++ (spread texts ++ b.closer :: rest)) := by
        simp only [spread, List.flatMap_cons, List.cons_append, List.append_assoc]
        exact .blank (by decide) (.none _)
      exact .item hblank (hspells _ (tokenEnd_spread texts b rest)) ih

/-- Texts with spaces between them are items. -/
theorem items_joined (h : SpellsAll depth texts forms) (b : Bracket) (rest : List Char) :
    Grammar.Items depth b (joined texts ++ b.closer :: rest) forms rest := by
  cases h with
  | nil => exact .close (.none _)
  | @cons depth others text form texts forms hspells hothers =>
      have hjoined : joined (text :: texts) ++ b.closer :: rest =
          text ++ (spread texts ++ b.closer :: rest) := by
        simp [joined, spread]
      rw [hjoined]
      exact .item (.none _) (hspells _ (tokenEnd_spread texts b rest)) (hothers.items_spread b rest)

/-- Texts with spaces between them and a bracket around them are an expression. -/
theorem bracket (h : SpellsAll depth texts forms) {b : Bracket} {form : Form}
    (hform : b.form? forms = some form) :
    Spells (depth + 1) (b.opener :: (joined texts ++ [b.closer])) form := by
  intro rest _
  have hsplit : b.opener :: (joined texts ++ [b.closer]) ++ rest =
      b.opener :: (joined texts ++ b.closer :: rest) := by simp
  rw [hsplit]
  exact .bracket b (h.items_joined b rest) hform

end SpellsAll

/-- What a text spells is read from it, unless it is nested deeper than the reader goes. -/
theorem Spells.parse_eq {depth : Nat} {text : String} {form : Form}
    (h : Spells depth text.toList form) :
    parse text = if depth ≤ nestingLimit then .ok form else .error ⟨.nestedTooDeep, none⟩ := by
  have hexpr := h [] trivial
  rw [List.append_nil] at hexpr
  have hdocument : Grammar.Document depth text form := ⟨text.toList, [], .none _, hexpr, .none _⟩
  exact hdocument.parse_eq

/-! ## Atoms -/

open Grammar

/-- A number that starts with a digit, or with a minus sign and a digit, spells its form. -/
theorem NumberSpelling.Valid.spells {n : NumberSpelling} (h : n.Valid) {c : Char}
    {others : List Char} (hwhole : n.whole = c :: others) (hdigit : isDecimal c = true)
    {form : Form} (hform : n.form? = some form) : Spells 1 n.text form := by
  intro rest hrest
  have hstarts : startsNumber (n.text ++ rest) = true := by
    rw [startsNumber_text h hwhole, isDigit, hdigit, Bool.true_or]
  have hstop : Stops (fun d => !endsToken d) rest := hrest.stops fun d hd => by rw [hd]; rfl
  have hlongest : Longest IsNumber (n.text ++ rest) n.text rest := by
    refine .of_stops (fun text htext d hd => ?_) ⟨n, h, rfl⟩ hstop
    rw [htext.not_endsToken d hd]
    rfl
  exact .token (.number hstarts hlongest h (endsNumber_of_tokenEnd hrest) hform)

/-- A written number spells the form of its spelling. -/
theorem WrittenNumber.WellFormed.spells {w : WrittenNumber} (h : w.WellFormed) {negative : Bool}
    {form : Form} (hform : (w.spelling negative).form? = some form) :
    Spells 1 (signText negative ++ w.text) form := by
  obtain ⟨c, others, hwhole, hdigit⟩ := h.exists_first
  rw [← w.text_spelling]
  exact (h.valid_spelling negative).spells hwhole hdigit hform

/-- The literal for a text spells the text. -/
theorem spells_string (text : String) :
    Spells 1 (StringLiteral.render text).toList (.string text) := by
  intro rest _
  have hrender : (StringLiteral.render text).toList =
      '\x22' :: (StringLiteral.encode text.toList ++ ['\x22']) := String.toList_ofList
  have hbody := stringBody_encode text.toList
  have htoken : Token _ (.string (String.ofList text.toList)) rest :=
    .string (takesLongest_string.longest (stringLexeme?_append (by decide) hbody rest))
      ⟨'\x22', _, by decide, rfl, hbody⟩
  rw [String.ofList_toList] at htoken
  rw [hrender]
  exact .token htoken

theorem spells_keyword {name : String} (h : IsKeywordName name.toList) :
    Spells 1 (':' :: name.toList) (.keyword name) := by
  intro rest hrest
  have hlongest : Longest IsKeyword (':' :: name.toList ++ rest) (':' :: name.toList) rest :=
    .of_stops (fun _ htext => htext.isNameChar) (isKeyword_of_name h)
      (hrest.stops fun _ => isNameChar_of_endsToken)
  have htoken := Token.keyword hlongest
  rw [String.ofList_toList] at htoken
  exact .token htoken

theorem IsSymbolName.isEmpty_eq_false {name : String} (h : IsSymbolName name.toList) :
    name.isEmpty = false := by
  rw [Bool.eq_false_iff]
  intro hempty
  obtain ⟨c, others, hname, _⟩ := isSymbol_of_name h
  rw [String.isEmpty_iff.mp hempty] at hname
  cases hname

theorem spells_symbol {name : String} (h : IsSymbolName name.toList) :
    Spells 1 name.toList (.symbol name) := by
  intro rest hrest
  have hsymbol := isSymbol_of_name h
  have hlongest : Longest IsSymbol (name.toList ++ rest) name.toList rest :=
    .of_stops (fun _ htext => htext.isNameChar) hsymbol
      (hrest.stops fun _ => isNameChar_of_endsToken)
  obtain ⟨c, others, hname, _⟩ := hsymbol
  have hne : name.toList ≠ [] := by
    rw [hname]
    exact List.cons_ne_nil _ _
  have hnumber : startsNumber (name.toList ++ rest) = false := by
    rw [startsNumber_append hne hrest]
    exact h.notNumber
  have hcolon : (name.toList ++ rest).head? ≠ some ':' := by
    have hfirst := h.notKeyword
    rw [hname] at hfirst ⊢
    exact hfirst
  have htoken := Token.symbol hnumber hcolon hlongest
  rw [String.ofList_toList] at htoken
  exact .token htoken

/-! ## Readable trees -/

namespace Form

theorem depthAll_le {items : List Form} {n : Nat} (h : ∀ item ∈ items, item.depth ≤ n) :
    depthAll items ≤ n := by
  induction items with
  | nil => exact Nat.zero_le n
  | cons item items ih =>
      obtain ⟨hitem, hitems⟩ := List.forall_mem_cons.mp h
      exact Nat.max_le.mpr ⟨hitem, ih hitems⟩

theorem renderAll_eq (items : List Form) : renderAll items = items.map render := by
  induction items with
  | nil => rfl
  | cons item items ih => rw [renderAll, ih, List.map_cons]

theorem spellsAll_items {items : List Form}
    (h : ∀ item ∈ items, Spells item.depth item.render.toList item) :
    SpellsAll (depthAll items) ((renderAll items).map String.toList) items := by
  induction items with
  | nil => exact .nil
  | cons item items ih =>
      exact .cons (h item List.mem_cons_self)
        (ih fun other hother => h other (List.mem_cons_of_mem _ hother))

/-- The text of a readable tree spells the tree. -/
theorem Readable.spells {t : Form} (h : t.Readable) : Spells t.depth t.render.toList t := by
  induction h with
  | int n =>
      rw [render, toList_toString_int]
      exact (wellFormed_writtenInt n).spells (form?_writtenInt n)
  | float negative size =>
      obtain ⟨w, hw, hfractional, htext, hread⟩ := Binary64.render_written negative size
      rw [render, htext]
      exact hw.spells (hw.form?_spelling hfractional hread)
  | string text => exact spells_string text
  | keyword hname =>
      rw [render, String.toList_append]
      exact spells_keyword hname
  | symbol hname => exact spells_symbol hname
  | @list items _ ih =>
      have hbracket := (spellsAll_items ih).bracket (b := .round) rfl
      rw [render, String.toList_append, String.toList_append, toList_intercalate]
      exact hbracket

end Form

/-- A text that was written for a readable tree is read as the tree, unless the tree is nested
deeper than the reader goes. -/
theorem parse_render {t : Form} (h : t.Readable) :
    parse t.render =
      if t.depth ≤ nestingLimit then .ok t else .error ⟨.nestedTooDeep, none⟩ :=
  h.spells.parse_eq

end DispatchLisp
