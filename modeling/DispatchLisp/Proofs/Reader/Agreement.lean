import DispatchLisp.Proofs.Reader.Joining
import DispatchLisp.Proofs.Reader.Progress

/-!
# Proofs.Reader.Agreement — a text read as one form and as many

Both ways of reading a text skip blanks, the one in front of its form and behind it, the other in front
of every form, where the reading of the form skips them again. What is skipped is all that can be
(`skipBlanks_spec`), so it makes no difference who does it, and both come to the same first form or the
same first error. What is left behind the form is for the one an error and for the other the next form.

Main statement: `parse_agrees_with_parseAll`.
-/

namespace DispatchLisp

/-! ## Places of errors -/

/-- Whether a read error has a place, unless the nesting is too deep. -/
def Placed {α : Type} (read : Except ReadError α) : Prop :=
  ∀ e, read = .error e → e.fault ≠ .nestedTooDeep → ∃ o, e.offset = some o

/-- An error that is found in a form has a place, unless the nesting is too deep. -/
theorem placed_readForm (limit : Nat) (c : Cursor) : Placed (readForm limit c) := by
  intro e h hfault
  obtain ⟨n, -, hoffset⟩ := (progresses_readForm limit c).place e h hfault
  exact ⟨_, hoffset⟩

/-! ## The two readings of a text -/

open Grammar

/-- Whether the first character behind the first form of a text, and behind the blanks and comments
that follow the form, stands at an offset. -/
def Grammar.BehindFirst (text : String) (form : Form) (o : Nat) : Prop :=
  ∃ depth front after rest, Blanks text.toList front ∧ Expr depth front form after ∧
    Blanks after rest ∧ NoBlank rest ∧ rest ≠ [] ∧ o + rest.length = text.length

/-- There is one such offset at most. -/
theorem Grammar.BehindFirst.unique {text : String} {form form' : Form} {o o' : Nat}
    (h : BehindFirst text form o) (h' : BehindFirst text form' o') : o = o' := by
  obtain ⟨depth, front, after, rest, hfront, hexpr, hafter, hend, -, ho⟩ := h
  obtain ⟨depth', front', after', rest', hfront', hexpr', hafter', hend', -, ho'⟩ := h'
  -- a reader that goes deep enough finds both forms
  have hread := hfront.readForm_eq (max depth depth') 0
  have hread' := hfront'.readForm_eq (max depth depth') 0
  rw [hexpr.readForm_eq, outcome, if_pos (Nat.le_max_left _ _)] at hread
  rw [hexpr'.readForm_eq, outcome, if_pos (Nat.le_max_right _ _)] at hread'
  obtain rfl : after = after' :=
    congrArg Cursor.rest (Prod.mk.inj (Except.ok.inj (hread.symm.trans hread'))).2
  have hskip := hafter.skipBlanks_of_noBlank hend 0
  have hskip' := hafter'.skipBlanks_of_noBlank hend' 0
  obtain rfl : rest = rest' := congrArg Cursor.rest (hskip.symm.trans hskip')
  omega

/-- What the two readings of a text come to. -/
inductive Readings (text : String) : Prop where
  | nothing :
      parse text = .error ⟨.endOfInput, some text.length⟩ → parseAll text = ⟨[], none⟩ →
      Readings text
  | refused {e e' : ReadError} :
      parse text = .error e → parseAll text = ⟨[], some e'⟩ → e.fault = e'.fault →
      (e'.fault ≠ .nestedTooDeep → e = e') → Readings text
  | one {form : Form} :
      parse text = .ok form → parseAll text = ⟨[form], none⟩ → Readings text
  | more {form : Form} {forms : List Form} {error : Option ReadError} {o : Nat} :
      parse text = .error ⟨.trailingInput, some o⟩ → parseAll text = ⟨form :: forms, error⟩ →
      forms ≠ [] ∨ error ≠ none → BehindFirst text form o → Readings text

section

variable {limit : Nat} {o : Nat} {text : List Char}

/-- What is read is an expression behind blanks, and the place behind it is as far on as there are
characters fewer. -/
theorem spec_of_readForm {form : Form} {next : Cursor}
    (h : readForm limit ⟨o, text⟩ = .ok (form, next)) :
    ∃ depth front, Blanks text front ∧ Expr depth front form next.rest ∧
      next.offset + next.rest.length = o + text.length := by
  obtain ⟨depth, front, hdepth, hblanks, hexpr⟩ := readsExpr_readForm limit o text form next h
  refine ⟨depth, front, hblanks, hexpr, ?_⟩
  have hfront := hblanks.length_le
  have hafter := hexpr.length_lt
  rw [hblanks.readForm_eq, hexpr.readForm_eq, outcome, if_pos hdepth] at h
  have hoffset := congrArg Cursor.offset (Prod.mk.inj (Except.ok.inj h)).2
  dsimp only at hoffset
  omega

theorem readForms_of_error (hno : NoBlank text) (hne : text ≠ []) {e : ReadError}
    (h : readForm limit ⟨o, text⟩ = .error e) (bound : Nat) :
    readForms limit (bound + 1) ⟨o, text⟩ = ⟨[], some ⟨e.fault, e.offset.or (some o)⟩⟩ := by
  obtain ⟨c, others, rfl⟩ := List.exists_cons_of_ne_nil hne
  simp only [readForms, hno.skipBlanks, h]

theorem readForms_of_ok (hno : NoBlank text) (hne : text ≠ []) {form : Form} {next : Cursor}
    (h : readForm limit ⟨o, text⟩ = .ok (form, next)) (bound : Nat) :
    readForms limit (bound + 1) ⟨o, text⟩ =
      ⟨form :: (readForms limit bound next).forms, (readForms limit bound next).error⟩ := by
  obtain ⟨c, others, rfl⟩ := List.exists_cons_of_ne_nil hne
  simp only [readForms, hno.skipBlanks, h]

/-- Where something is left but blanks, there is another form or an error. -/
theorem readForms_ne_nothing (hno : NoBlank text) (hne : text ≠ []) (bound : Nat) :
    (readForms limit (bound + 1) ⟨o, text⟩).forms ≠ [] ∨
      (readForms limit (bound + 1) ⟨o, text⟩).error ≠ none := by
  cases h : readForm limit ⟨o, text⟩ with
  | error e =>
      rw [readForms_of_error hno hne h]
      exact .inr (Option.some_ne_none _)
  | ok result =>
      rw [readForms_of_ok hno hne h]
      exact .inl (List.cons_ne_nil _ _)

end

section

variable {text : String} {form : Form} {next : Cursor}

theorem parse_of_error {e : ReadError} (h : readForm nestingLimit ⟨0, text.toList⟩ = .error e) :
    parse text = .error e := by
  have hstart : Cursor.ofText text.toList 0 = ⟨0, text.toList⟩ := rfl
  rw [parse, hstart, h, error_bind]

theorem parse_of_end (h : readForm nestingLimit ⟨0, text.toList⟩ = .ok (form, next)) {o : Nat}
    (hend : next.skipBlanks = ⟨o, []⟩) : parse text = .ok form := by
  have hstart : Cursor.ofText text.toList 0 = ⟨0, text.toList⟩ := rfl
  rw [parse, hstart, h, ok_bind]
  simp only [hend]

theorem parse_of_rest (h : readForm nestingLimit ⟨0, text.toList⟩ = .ok (form, next)) {o : Nat}
    {rest : List Char} (hrest : next.skipBlanks = ⟨o, rest⟩) (hne : rest ≠ []) :
    parse text = .error ⟨.trailingInput, some o⟩ := by
  have hstart : Cursor.ofText text.toList 0 = ⟨0, text.toList⟩ := rfl
  obtain ⟨c, others, rfl⟩ := List.exists_cons_of_ne_nil hne
  rw [parse, hstart, h, ok_bind]
  simp only [hrest]
  rfl

end

theorem readings (text : String) : Readings text := by
  obtain ⟨front, hfront, hno, -⟩ := skipBlanks_spec 0 text.toList
  have hlength := hfront.length_le
  -- the blanks in front of the first form are skipped by either
  have hread := hfront.readForm_eq nestingLimit 0
  have hall : parseAll text = readForms nestingLimit (text.toList.length + 1)
      ⟨0 + (text.toList.length - front.length), front⟩ := by
    rw [← readForms_of_blanks hfront]
    rfl
  by_cases hne : front = []
  · subst hne
    refine .nothing ?_ (hall.trans (readForms_nil _ _ _))
    rw [parse_of_error (hread.trans rfl), ← String.length_toList, List.length_nil, Nat.sub_zero,
      Nat.zero_add]
    rfl
  cases hfirst : readForm nestingLimit ⟨0 + (text.toList.length - front.length), front⟩ with
  | error e =>
      rw [readForms_of_error hno hne hfirst] at hall
      -- an error with a place keeps it, so both answers are the same
      refine .refused (parse_of_error (hread.trans hfirst)) hall rfl fun hfault => ?_
      obtain ⟨o, ho⟩ := placed_readForm _ _ e hfirst hfault
      rw [ho, Option.some_or, ← ho]
  | ok result =>
      obtain ⟨form, next⟩ := result
      obtain ⟨depth, start, hmore, hexpr, hoffset⟩ := spec_of_readForm hfirst
      obtain ⟨rest, hafter, hend, hskip⟩ := skipBlanks_spec next.offset next.rest
      rw [readForms_of_ok hno hne hfirst] at hall
      have hothers := readForms_of_blanks hafter nestingLimit text.toList.length next.offset
      by_cases hrest : rest = []
      · -- the form is the only one
        subst hrest
        rw [readForms_nil] at hothers
        exact .one (parse_of_end (hread.trans hfirst) hskip) (hall.trans (by rw [hothers]))
      · have hleft := hafter.length_le
        have htext := String.length_toList (s := text)
        -- there is a character, so the bound leaves room for one more form
        obtain ⟨bound, hbound⟩ : ∃ bound, text.toList.length = bound + 1 := by
          have hfirstLength := List.length_pos_iff.mpr hne
          exact ⟨text.toList.length - 1, by omega⟩
        refine .more (parse_of_rest (hread.trans hfirst) hskip hrest) hall ?_ ?_
        · rw [hothers, hbound]
          exact readForms_ne_nothing hend hrest bound
        · exact ⟨depth, start, next.rest, rest, hfront.trans hmore, hexpr, hafter, hend, hrest,
            by omega⟩

/-- The two ways of reading a text agree. It is read as one form exactly if it is read to its end as that
form alone. Where nothing can be read, not even the first form, both fail for the same reason, and at the
same place unless the reason is nesting; where nothing stands, the one fails at the end. And where more
than one form stands, or an error behind the first, the one fails at the first character behind that
form and the blanks and comments there. -/
theorem parse_agrees_with_parseAll (text : String) :
    (∀ form, parse text = .ok form ↔ parseAll text = ⟨[form], none⟩) ∧
    (∀ e, parseAll text = ⟨[], some e⟩ → ∃ e', parse text = .error e' ∧ e'.fault = e.fault ∧
      (e.fault ≠ .nestedTooDeep → e' = e)) ∧
    (parseAll text = ⟨[], none⟩ → parse text = .error ⟨.endOfInput, some text.length⟩) ∧
    (∀ form forms error, parseAll text = ⟨form :: forms, error⟩ → forms ≠ [] ∨ error ≠ none →
      ∃ o, parse text = .error ⟨.trailingInput, some o⟩ ∧
        ∀ o', BehindFirst text form o' ↔ o' = o) := by
  cases readings text with
  | nothing hparse hall =>
      rw [hparse, hall]
      simp
  | one hparse hall =>
      rw [hparse, hall]
      simp
  | refused hparse hall hfault hplace =>
      rw [hparse, hall]
      refine ⟨by simp, ?_, by simp, by simp⟩
      rintro e ⟨⟩
      exact ⟨_, rfl, hfault, hplace⟩
  | more hparse hall hmore hbehind =>
      rw [hparse, hall]
      refine ⟨fun form => ?_, by simp, by simp, ?_⟩
      · constructor
        · intro h
          cases h
        · rintro ⟨⟩
          simp at hmore
      · rintro form forms error ⟨⟩ -
        exact ⟨_, rfl, fun o' => ⟨fun h => h.unique hbehind, fun h => h ▸ hbehind⟩⟩

/-- A form alone, a bracket that is not closed, a comment alone, and such a bracket behind a form and a
comment. -/
theorem parse_agrees_with_parseAll_of_comment :
    parse "[a ; b\n]" = .ok (.list [.symbol "list", .symbol "a"]) ∧
    parse " (1" = .error ⟨.unterminatedList ')', some 1⟩ ∧
    parse " ; b" = .error ⟨.endOfInput, some 4⟩ ∧
    ∃ o, parse "1 ; b\n (" = .error ⟨.trailingInput, some o⟩ ∧
      ∀ o', BehindFirst "1 ; b\n (" (.int 1) o' ↔ o' = o := by
  refine ⟨?_, ?_, ?_, ?_⟩
  · exact ((parse_agrees_with_parseAll _).1 _).mpr rfl
  · obtain ⟨-, hfails, -, -⟩ := parse_agrees_with_parseAll " (1"
    obtain ⟨e, he, -, hplace⟩ := hfails ⟨.unterminatedList ')', some 1⟩ rfl
    rw [he, hplace (by decide)]
  · exact (parse_agrees_with_parseAll _).2.2.1 rfl
  · obtain ⟨-, -, -, hmore⟩ := parse_agrees_with_parseAll "1 ; b\n ("
    exact hmore (.int 1) [] (some ⟨.unterminatedList ')', some 7⟩) rfl (.inr (Option.some_ne_none _))

end DispatchLisp
