import DispatchLisp.Proofs.Reader.Acceptance
import DispatchLisp.Proofs.Reader.Places

/-!
# Proofs.Reader.Joining — two texts on lines of their own are read one after the other

What the grammar finds in a text it finds there too when a new line and more text follow: no token
reaches over the end of a line but a string, which ends at its quote, and comments end with their
line (`Grammar.Expr.append_line`). So a text that is read to its end gives its forms in front of
those of any text that follows it, whose errors are the same ones further on (`parseAll_join`).
-/

namespace DispatchLisp

namespace Grammar

/-! ## A new line behind what was found -/

/-- A text whose kind has no character that ends a token is no longer with a new line behind it. -/
theorem longest_append_line {kind : List Char → Prop}
    (hkind : ∀ lexeme, kind lexeme → ∀ c ∈ lexeme, endsToken c = false)
    {text lexeme rest : List Char} (h : Longest kind text lexeme rest) (more : List Char) :
    Longest kind (text ++ '\n' :: more) lexeme (rest ++ '\n' :: more) where
  split := by rw [← h.split, List.append_assoc]
  isKind := h.isKind
  longest := by
    intro other hother hfront
    by_cases hlength : other.length ≤ text.length
    · have hshort := List.prefix_of_prefix_length_le hfront (List.prefix_append _ _) hlength
      exact h.longest other hother hshort
    · -- one that reaches further has the new line inside, which ends a token
      have hline : text ++ ['\n'] <+: text ++ '\n' :: more := ⟨more, by simp⟩
      have hover : text ++ ['\n'] <+: other := by
        apply List.prefix_of_prefix_length_le hline hfront
        rw [List.length_append, List.length_singleton]
        omega
      have hmem : '\n' ∈ other := hover.subset (by simp)
      exact absurd (hkind other hother '\n' hmem) (by decide)

theorem longest_string_append {text lexeme rest : List Char}
    (h : Longest IsString text lexeme rest) (more : List Char) :
    Longest IsString (text ++ more) lexeme (rest ++ more) := by
  obtain ⟨value, quote, body, hquote, rfl, hbody⟩ := h.isKind
  have hscan := stringLexeme?_append hquote hbody (rest ++ more)
  have hlongest := takesLongest_string.longest hscan
  rwa [← List.append_assoc, h.split] at hlongest

theorem endsToken_of_isNameChar {c : Char} (h : isNameChar c = true) : endsToken c = false := by
  apply Bool.eq_false_iff.mpr
  intro hend
  rw [isNameChar_of_endsToken hend] at h
  cases h

theorem tokenEnd_line (more : List Char) : TokenEnd ('\n' :: more) :=
  (by decide : endsToken '\n' = true)

theorem endsNumber_append_line {rest : List Char} (h : endsNumber rest = true) (more : List Char) :
    endsNumber (rest ++ '\n' :: more) = true := by
  cases rest with
  | nil => exact endsNumber_of_tokenEnd (tokenEnd_line more)
  | cons c rest => exact h

theorem Token.append_line {text rest : List Char} {form : Form} (h : Token text form rest)
    (more : List Char) : Token (text ++ '\n' :: more) form (rest ++ '\n' :: more) := by
  obtain ⟨c, others, htext, _⟩ := h.exists_first
  have hne : text ≠ [] := htext ▸ List.cons_ne_nil _ _
  have hstart := startsNumber_append hne (tokenEnd_line more)
  cases h with
  | string hlongest hvalue => exact .string (longest_string_append hlongest _) hvalue
  | number hstarts hlongest hvalid hend hform =>
      refine .number (hstart.trans hstarts) ?_ hvalid (endsNumber_append_line hend more) hform
      exact longest_append_line (fun _ hnumber => hnumber.not_endsToken) hlongest more
  | keyword hlongest =>
      refine .keyword (longest_append_line ?_ hlongest more)
      intro lexeme hkeyword c hc
      exact endsToken_of_isNameChar (hkeyword.isNameChar c hc)
  | symbol hnumber hcolon hlongest =>
      refine .symbol (hstart.trans hnumber) ?_ (longest_append_line ?_ hlongest more)
      · rw [htext] at hcolon ⊢
        exact hcolon
      · intro lexeme hsymbol c hc
        exact endsToken_of_isNameChar (hsymbol.isNameChar c hc)

theorem EndsLine.append_line {text : List Char} (h : EndsLine text) (more : List Char) :
    EndsLine (text ++ '\n' :: more) := by
  cases text with
  | nil => rfl
  | cons c text => exact h

/-- Blanks in front of a rest stay those blanks; a comment that ended the text ends its line. -/
theorem Blanks.append_line {text rest : List Char} (h : Blanks text rest) (more : List Char) :
    Blanks (text ++ '\n' :: more) (rest ++ '\n' :: more) := by
  induction h with
  | none => exact .none _
  | blank hblank _ ih => exact .blank hblank ih
  | comment hbody hend _ ih =>
      rw [List.cons_append, List.append_assoc]
      exact .comment hbody (hend.append_line more) ih

mutual

/-- An expression is the same one with a new line and more text behind it. -/
theorem Expr.append_line : {depth : Nat} → {text rest : List Char} → {form : Form} →
    Expr depth text form rest → ∀ more,
      Expr depth (text ++ '\n' :: more) form (rest ++ '\n' :: more)
  | _, _, _, _, .token htoken, more => .token (htoken.append_line more)
  | _, _, _, _, .bracket b hitems hform, more => .bracket b (Items.append_line hitems more) hform

theorem Items.append_line : {depth : Nat} → {b : Bracket} → {text rest : List Char} →
    {items : List Form} → Items depth b text items rest → ∀ more,
      Items depth b (text ++ '\n' :: more) items (rest ++ '\n' :: more)
  | _, _, _, _, _, .close hblanks, more => .close (hblanks.append_line more)
  | _, _, _, _, _, .item hblanks hexpr hothers, more =>
    .item (hblanks.append_line more) (Expr.append_line hexpr more) (Items.append_line hothers more)

end

/-! ## Forms one after another -/

/-- Forms at the front of a text one after another, each nested at most `limit` deep, and the rest
behind the last of them. -/
inductive Forms (limit : Nat) : List Char → List Form → List Char → Prop where
  | done (text : List Char) : Forms limit text [] text
  | form {depth : Nat} {text front after rest : List Char} {form : Form} {forms : List Form} :
      Blanks text front → Expr depth front form after → depth ≤ limit →
      Forms limit after forms rest → Forms limit text (form :: forms) rest

theorem Forms.append_line {limit : Nat} {text rest : List Char} {forms : List Form}
    (h : Forms limit text forms rest) (more : List Char) :
    Forms limit (text ++ '\n' :: more) forms (rest ++ '\n' :: more) := by
  induction h with
  | done => exact .done _
  | form hblanks hexpr hdepth _ ih =>
      exact .form (hblanks.append_line more) (hexpr.append_line more) hdepth ih

theorem Forms.length_le {limit : Nat} {text rest : List Char} {forms : List Form}
    (h : Forms limit text forms rest) : rest.length ≤ text.length := by
  induction h with
  | done => exact Nat.le_refl _
  | form hblanks hexpr _ _ ih =>
      have hfront := hblanks.length_le
      have hafter := hexpr.length_lt
      omega

/-! ## Reading forms one after another -/

/-- Blanks in front of the next form make no difference. -/
theorem readForms_of_blanks {text rest : List Char} (h : Blanks text rest) (limit bound o : Nat) :
    readForms limit bound ⟨o, text⟩ =
      readForms limit bound ⟨o + (text.length - rest.length), rest⟩ := by
  cases bound with
  | zero => rfl
  | succ bound => rw [readForms, readForms, h.skipBlanks]

/-- A form at the front of a text is read first, and then the forms behind it. -/
theorem readForms_of_expr {depth limit : Nat} {text rest : List Char} {form : Form}
    (h : Expr depth text form rest) (hdepth : depth ≤ limit) (bound o : Nat) :
    readForms limit (bound + 1) ⟨o, text⟩ =
      let others := readForms limit bound ⟨o + (text.length - rest.length), rest⟩
      ⟨form :: others.forms, others.error⟩ := by
  have hskip := h.skipBlanks o
  have hread := h.readForm_eq limit o
  obtain ⟨c, others, rfl, _⟩ := h.exists_first
  rw [outcome, if_pos hdepth] at hread
  simp only [readForms, hskip, hread]

/-- How the reading of a text goes on at its front: nothing is left but blanks, a form stands
there, or no form can be read. -/
theorem readForms_cases (limit bound o : Nat) (text : List Char) :
    Blanks text [] ∨
      (∃ depth front form after, depth ≤ limit ∧ Blanks text front ∧
        Expr depth front form after) ∨
      ∃ e, readForms limit (bound + 1) ⟨o, text⟩ = ⟨[], some e⟩ := by
  have hblanks := blanks_skipBlanks ⟨o, text⟩
  cases hrest : (Cursor.mk o text).skipBlanks.rest with
  | nil =>
      rw [hrest] at hblanks
      exact .inl hblanks
  | cons c others =>
      right
      cases hread : readForm limit (Cursor.mk o text).skipBlanks with
      | error e =>
          refine .inr ⟨⟨e.fault, e.offset.or (some (Cursor.mk o text).skipBlanks.offset)⟩, ?_⟩
          simp only [readForms, hrest, hread]
      | ok result =>
          obtain ⟨depth, front, hdepth, hmore, hexpr⟩ := readsExpr_readForm limit _ _ _ _ hread
          exact .inl ⟨depth, front, result.1, result.2.rest, hdepth, hblanks.trans hmore, hexpr⟩

theorem readForms_nil (limit bound o : Nat) : readForms limit bound ⟨o, []⟩ = ⟨[], none⟩ := by
  cases bound with
  | zero => rfl
  | succ bound => rfl

/-- Any bound on the number of forms that is above the number of characters comes to the same. -/
theorem readForms_bound {limit bound bound' : Nat} {text : List Char} (h : text.length < bound)
    (h' : text.length < bound') (o : Nat) :
    readForms limit bound ⟨o, text⟩ = readForms limit bound' ⟨o, text⟩ := by
  induction bound generalizing bound' text o with
  | zero => exact absurd h (Nat.not_lt_zero _)
  | succ bound ih =>
      obtain ⟨bound', rfl⟩ := Nat.exists_eq_add_one_of_ne_zero (Nat.ne_zero_of_lt h')
      have hblanks : Blanks text (Cursor.mk o text).skipBlanks.rest := blanks_skipBlanks ⟨o, text⟩
      simp only [readForms]
      split
      · rfl
      · cases hread : readForm limit (Cursor.mk o text).skipBlanks with
        | error e => rfl
        | ok result =>
            obtain ⟨depth, front, _, hmore, hexpr⟩ := readsExpr_readForm limit _ _ _ _ hread
            -- what is left behind a form is shorter
            have hfront := (hblanks.trans hmore).length_le
            have hafter := hexpr.length_lt
            have hsame : readForms limit bound ⟨result.2.offset, result.2.rest⟩ =
                readForms limit bound' ⟨result.2.offset, result.2.rest⟩ :=
              ih (by omega) (by omega) result.2.offset
            simp only [hsame]

/-- Forms at the front of a text are read, and then those behind them. -/
theorem Forms.readForms_eq {limit : Nat} {text rest : List Char} {forms : List Form}
    (h : Forms limit text forms rest) {bound : Nat} (hbound : text.length < bound) (o : Nat) :
    readForms limit bound ⟨o, text⟩ =
      let others := readForms limit bound ⟨o + (text.length - rest.length), rest⟩
      ⟨forms ++ others.forms, others.error⟩ := by
  induction h generalizing bound o with
  | done text => simp
  | @form depth text front after rest form forms hblanks hexpr hdepth hforms ih =>
      have hfront := hblanks.length_le
      have hafter := hexpr.length_lt
      have hlast := hforms.length_le
      obtain ⟨bound, rfl⟩ := Nat.exists_eq_add_one_of_ne_zero (Nat.ne_zero_of_lt hbound)
      have hoffset : o + (text.length - front.length) + (front.length - after.length) +
          (after.length - rest.length) = o + (text.length - rest.length) := by omega
      have hagain : readForms limit bound ⟨o + (text.length - rest.length), rest⟩ =
          readForms limit (bound + 1) ⟨o + (text.length - rest.length), rest⟩ :=
        readForms_bound (by omega) (by omega) _
      rw [readForms_of_blanks hblanks, readForms_of_expr hexpr hdepth,
        ih (by omega) (o + (text.length - front.length) + (front.length - after.length)), hoffset,
        hagain]
      rfl

/-- The forms that are read stand at the front of the text, and when there is no error nothing is
left behind them. -/
theorem forms_of_readForms (limit : Nat) {bound : Nat} {text : List Char} (h : text.length < bound)
    (o : Nat) :
    ∃ rest, Forms limit text (readForms limit bound ⟨o, text⟩).forms rest ∧
      ((readForms limit bound ⟨o, text⟩).error = none → Blanks rest []) := by
  induction bound generalizing text o with
  | zero => exact absurd h (Nat.not_lt_zero _)
  | succ bound ih =>
      rcases readForms_cases limit bound o text with
        hend | ⟨depth, front, form, after, hdepth, hblanks, hexpr⟩ | ⟨e, hfail⟩
      · rw [readForms_of_blanks hend, readForms_nil]
        exact ⟨text, .done text, fun _ => hend⟩
      · have hfront := hblanks.length_le
        have hafter := hexpr.length_lt
        rw [readForms_of_blanks hblanks, readForms_of_expr hexpr hdepth]
        -- the form has taken a character, so what follows is shorter
        have hshorter : after.length < bound := by omega
        obtain ⟨rest, hforms, hend⟩ :=
          ih hshorter (o + (text.length - front.length) + (front.length - after.length))
        exact ⟨rest, .form hblanks hexpr hdepth hforms, hend⟩
      · rw [hfail]
        refine ⟨text, .done text, ?_⟩
        intro hnone
        cases hnone

/-- A text that has nothing but blanks behind its forms is read with its forms first, and the text
on the next line behind them. -/
theorem Forms.readForms_line {limit : Nat} {text rest more : List Char} {forms : List Form}
    (h : Forms limit text forms rest) (hend : Blanks rest []) {bound : Nat}
    (hbound : (text ++ '\n' :: more).length < bound) (o : Nat) :
    readForms limit bound ⟨o, text ++ '\n' :: more⟩ =
      let others := readForms limit (more.length + 1) ⟨o + (text.length + 1), more⟩
      ⟨forms ++ others.forms, others.error⟩ := by
  have hread := (h.append_line more).readForms_eq hbound o
  have hline : Blanks (rest ++ '\n' :: more) more :=
    (hend.append_line more).trans (.blank (by decide) (.none _))
  have hrest := h.length_le
  simp only [List.length_append, List.length_cons] at hbound
  have hoffset : o + ((text ++ '\n' :: more).length - (rest ++ '\n' :: more).length) +
      ((rest ++ '\n' :: more).length - more.length) = o + (text.length + 1) := by
    simp only [List.length_append, List.length_cons]
    omega
  have hagain : readForms limit bound ⟨o + (text.length + 1), more⟩ =
      readForms limit (more.length + 1) ⟨o + (text.length + 1), more⟩ :=
    readForms_bound (by omega) (Nat.lt_succ_self _) _
  rw [readForms_of_blanks hline, hoffset, hagain] at hread
  exact hread

end Grammar

/-! ## Texts on lines of their own -/

open Grammar

theorem toList_join (s₁ s₂ : String) :
    (s₁ ++ "\n" ++ s₂).toList = s₁.toList ++ '\n' :: s₂.toList := by
  rw [String.toList_append, String.toList_append, List.append_assoc]
  rfl

/-- The forms of a text stay the first forms when a new line and more text follow. -/
theorem parseAll_forms_prefix (s₁ s₂ : String) :
    (parseAll s₁).forms <+: (parseAll (s₁ ++ "\n" ++ s₂)).forms := by
  obtain ⟨rest, hforms, _⟩ :=
    forms_of_readForms nestingLimit (Nat.lt_succ_self s₁.toList.length) 0
  have hread := (hforms.append_line s₂.toList).readForms_eq (Nat.lt_succ_self _) 0
  rw [← toList_join] at hread
  refine ⟨_, (congrArg Transcript.forms hread).symm⟩

/-- The reading of a text with more characters before it. -/
theorem readForms_later (s : String) (k : Nat) :
    readForms nestingLimit (s.toList.length + 1) ⟨0 + k, s.toList⟩ = (parseAll s).later k :=
  readForms_anywhere nestingLimit _ k ⟨0, s.toList⟩

/-- What is read of a text that is read to its end, and then of the text on the next line. -/
theorem parseAll_append {s₁ : String} (h : (parseAll s₁).error = none) (s₂ : String) :
    parseAll (s₁ ++ "\n" ++ s₂) =
      ⟨(parseAll s₁).forms ++ (parseAll s₂).forms,
        (parseAll s₂).error.map (·.later (s₁.length + 1))⟩ := by
  obtain ⟨rest, hforms, hend⟩ :=
    forms_of_readForms nestingLimit (Nat.lt_succ_self s₁.toList.length) 0
  have hread := hforms.readForms_line (hend h)
    (Nat.lt_succ_self (s₁.toList ++ '\n' :: s₂.toList).length) 0
  rw [readForms_later, String.length_toList, ← toList_join] at hread
  exact hread

/-- Reading is compositional. A text that is read to its end gives its forms in front of those of
the text on the next line, and the reading fails there as it fails alone, with the same cause and
an offset larger by the first text and the new line. And what any reading function makes of a text
does not depend on the text before it, but for the offsets. -/
theorem parseAll_join :
    (∀ s₁ s₂ : String, (parseAll s₁).error = none →
      parseAll (s₁ ++ "\n" ++ s₂) =
        ⟨(parseAll s₁).forms ++ (parseAll s₂).forms,
          (parseAll s₂).error.map (·.later (s₁.length + 1))⟩) ∧
    (∀ (kind : ReadKind) (front text : List Char) (offset : Nat),
      kind.read? (.ofText (front ++ text) (front.length + offset)) =
        (kind.read? (.ofText text offset)).map (laterBy front.length)) :=
  ⟨fun _ s₂ h => parseAll_append h s₂, fun kind => kind.read?_behind⟩

/-- A minus sign and a comment at the end of a line stay what they are in front of a number, and
an unterminated string behind it is reported further on. -/
theorem parseAll_join_of_comment :
    (parseAll "a - ; b").error = none ∧
    parseAll ("a - ; b" ++ "\n" ++ "1 \x22c") =
      ⟨[.symbol "a", .symbol "-", .int 1], some ⟨.unterminatedString, some 10⟩⟩ := by
  have hread : (parseAll "a - ; b").error = none := rfl
  refine ⟨hread, ?_⟩
  rw [parseAll_join.1 _ _ hread]
  rfl

end DispatchLisp
