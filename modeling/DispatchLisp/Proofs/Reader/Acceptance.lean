import DispatchLisp.Proofs.Except
import DispatchLisp.Proofs.Reader.Lexemes

/-!
# Proofs.Reader.Acceptance — the reader accepts exactly its grammar

What the reader makes of a text is what the grammar derives from it, and what the grammar derives
is read, unless its brackets are deeper than the reader goes (`parse_grammar`). Both directions go
along the nesting: a bracket is read with the next lower limit, and its items one after another.
-/

namespace DispatchLisp

/-! ## Between tokens -/

theorem skipBlanks_of_not_blank {c : Char} (hblank : isBlank c = false) (hcomment : c ≠ ';')
    (o : Nat) (text : List Char) : (Cursor.mk o (c :: text)).skipBlanks = ⟨o, c :: text⟩ := by
  simp [Cursor.skipBlanks, Cursor.advance, blankLength, hblank, hcomment]

namespace Grammar

theorem Blanks.trans {text front rest : List Char} (h : Blanks text front)
    (h' : Blanks front rest) : Blanks text rest := by
  induction h with
  | none => exact h'
  | blank hblank _ ih => exact .blank hblank (ih h')
  | comment hbody hend _ ih => exact .comment hbody hend (ih h')

/-- A comment goes on to the end of its line, and there blanks go on. -/
theorem blankLength_comment {body text : List Char} (hbody : '\n' ∉ body) (hend : EndsLine text) :
    blankLength true (body ++ text) = body.length + blankLength false text := by
  induction body with
  | nil =>
      cases text with
      | nil => rfl
      | cons c text =>
          have hc : c = '\n' := hend
          subst hc
          have hblank : isBlank '\n' = true := by decide
          simp [blankLength, hblank]
  | cons c body ih =>
      simp only [List.mem_cons, not_or] at hbody
      have hc : (c != '\n') = true := by
        rw [bne_iff_ne]
        exact fun h => hbody.1 h.symm
      simp only [List.cons_append, blankLength, if_true, hc, ih hbody.2, List.length_cons]
      omega

theorem exists_comment (text : List Char) :
    ∃ body rest, text = body ++ rest ∧ '\n' ∉ body ∧ EndsLine rest := by
  induction text with
  | nil => exact ⟨[], [], rfl, List.not_mem_nil, trivial⟩
  | cons c text ih =>
      by_cases hc : c = '\n'
      · exact ⟨[], c :: text, rfl, List.not_mem_nil, hc⟩
      · obtain ⟨body, rest, rfl, hbody, hend⟩ := ih
        refine ⟨c :: body, rest, rfl, ?_, hend⟩
        simp only [List.mem_cons, not_or]
        exact ⟨fun h => hc h.symm, hbody⟩

/-- Blanks at the front of a text are measured with what follows them. -/
theorem Blanks.blankLength_eq {text rest : List Char} (h : Blanks text rest) :
    ∃ front, front ++ rest = text ∧
      blankLength false text = front.length + blankLength false rest := by
  induction h with
  | none => exact ⟨[], rfl, (Nat.zero_add _).symm⟩
  | @blank c text rest hblank _ ih =>
      obtain ⟨front, rfl, hlength⟩ := ih
      refine ⟨c :: front, rfl, ?_⟩
      simp only [blankLength, Bool.false_eq_true, if_false, hblank, if_true, hlength,
        List.length_cons]
      omega
  | @comment body text rest hbody hend _ ih =>
      obtain ⟨front, rfl, hlength⟩ := ih
      refine ⟨';' :: (body ++ front), by simp, ?_⟩
      have hblank : isBlank ';' = false := by decide
      simp only [blankLength, Bool.false_eq_true, if_false, hblank, if_true,
        blankLength_comment hbody hend, hlength, List.length_cons, List.length_append]
      omega

theorem Blanks.length_le {text rest : List Char} (h : Blanks text rest) :
    rest.length ≤ text.length := by
  obtain ⟨front, rfl, _⟩ := h.blankLength_eq
  rw [List.length_append]
  exact Nat.le_add_left _ _

/-- The reader skips the blanks that are there, and then all that follow. -/
theorem Blanks.skipBlanks {text rest : List Char} (h : Blanks text rest) (o : Nat) :
    (Cursor.mk o text).skipBlanks =
      (Cursor.mk (o + (text.length - rest.length)) rest).skipBlanks := by
  obtain ⟨front, rfl, hlength⟩ := h.blankLength_eq
  have hfront : (front ++ rest).length - rest.length = front.length := by
    rw [List.length_append]
    omega
  have hdrop : ∀ k, (front ++ rest).drop (front.length + k) = rest.drop k := by
    intro k
    rw [← List.drop_drop, List.drop_left]
  simp only [Cursor.skipBlanks, Cursor.advance, hlength, hfront, hdrop, Nat.add_assoc]

/-- What the reader skips is blanks and comments. -/
theorem blanks_drop (text : List Char) : Blanks text (text.drop (blankLength false text)) := by
  -- the induction is on the length, because a comment is skipped as a whole
  induction hlength : text.length using Nat.strongRecOn generalizing text with
  | ind length ih =>
      rcases text with _ | ⟨c, rest⟩
      · exact .none []
      · by_cases hblank : isBlank c = true
        · have hmeasure : blankLength false (c :: rest) = blankLength false rest + 1 := by
            simp [blankLength, hblank]
          rw [hmeasure, List.drop_succ_cons]
          exact .blank hblank (ih rest.length (by rw [← hlength]; exact Nat.lt_succ_self _) rest rfl)
        · by_cases hcomment : c = ';'
          · subst hcomment
            obtain ⟨body, after, rfl, hbody, hend⟩ := exists_comment rest
            have hmeasure : blankLength false (';' :: (body ++ after)) =
                body.length + blankLength false after + 1 := by
              rw [← blankLength_comment hbody hend]
              simp [blankLength, hblank]
            have hshorter : after.length < length := by
              rw [← hlength, List.length_cons, List.length_append]
              omega
            rw [hmeasure, List.drop_succ_cons, ← List.drop_drop, List.drop_left]
            exact .comment hbody hend (ih after.length hshorter after rfl)
          · have hmeasure : blankLength false (c :: rest) = 0 := by
              simp [blankLength, hblank, hcomment]
            rw [hmeasure, List.drop_zero]
            exact .none _

theorem blanks_skipBlanks (c : Cursor) : Blanks c.rest c.skipBlanks.rest :=
  blanks_drop c.rest

/-! ## First characters and lengths -/

/-- An expression starts with a character that is no blank and starts no comment, and closes no
bracket. -/
theorem Expr.exists_first {depth : Nat} {text rest : List Char} {form : Form}
    (h : Expr depth text form rest) :
    ∃ c others, text = c :: others ∧ isBlank c = false ∧ c ≠ ';' ∧ isCloser c = false := by
  cases h with
  | token htoken =>
      obtain ⟨c, others, htext, hend⟩ := htoken.exists_first
      simp only [endsToken, isBracket, Bool.or_eq_false_iff, beq_eq_false_iff_ne] at hend
      exact ⟨c, others, htext, hend.1.1, hend.2, hend.1.2.2⟩
  | bracket b _ _ => exact ⟨b.opener, _, rfl, by cases b <;> decide⟩

theorem Expr.skipBlanks {depth : Nat} {text rest : List Char} {form : Form}
    (h : Expr depth text form rest) (o : Nat) : (Cursor.mk o text).skipBlanks = ⟨o, text⟩ := by
  obtain ⟨c, others, rfl, hblank, hcomment, _⟩ := h.exists_first
  exact skipBlanks_of_not_blank hblank hcomment o others

mutual

theorem Expr.length_lt : {depth : Nat} → {text rest : List Char} → {form : Form} →
    Expr depth text form rest → rest.length < text.length
  | _, _, _, _, .token htoken => by
      obtain ⟨lexeme, hne, rfl, _⟩ := htoken.readToken
      have := List.length_pos_iff.mpr hne
      rw [List.length_append]
      omega
  | _, _, _, _, .bracket b hitems _ => by
      have := Items.length_lt hitems
      rw [List.length_cons]
      omega

theorem Items.length_lt : {depth : Nat} → {b : Bracket} → {text rest : List Char} →
    {items : List Form} → Items depth b text items rest → items.length + rest.length < text.length
  | _, _, _, _, _, .close hblanks => by
      have := hblanks.length_le
      rw [List.length_cons] at this
      rw [List.length_nil]
      omega
  | _, _, _, _, _, .item hblanks hexpr hothers => by
      have hfront := hblanks.length_le
      have hfirst := Expr.length_lt hexpr
      have hrest := Items.length_lt hothers
      rw [List.length_cons]
      omega

end

/-! ## What the grammar derives is read -/

/-- What reading a text up to a rest comes to, when that takes some depth of nesting and a limit is
put on it. -/
def outcome {α : Type} (depth limit : Nat) (value : α) (o : Nat) (text rest : List Char) :
    Except ReadError (α × Cursor) :=
  if depth ≤ limit then .ok (value, ⟨o + (text.length - rest.length), rest⟩)
  else .error ⟨.nestedTooDeep, none⟩

theorem ofOpener?_opener (b : Bracket) : Bracket.ofOpener? b.opener = some b := by
  cases b <;> rfl

theorem isCloser_closer (b : Bracket) : isCloser b.closer = true := by
  cases b <;> rfl

theorem closer_not_blank (b : Bracket) : isBlank b.closer = false ∧ b.closer ≠ ';' := by
  cases b <;> decide

theorem readForm_of_token {text rest : List Char} {form : Form} (h : Token text form rest)
    (limit o : Nat) : readForm limit ⟨o, text⟩ = outcome 1 limit form o text rest := by
  cases limit with
  | zero => rfl
  | succ limit =>
      obtain ⟨lexeme, _, hsplit, hread⟩ := h.readToken
      obtain ⟨c, others, rfl, hend⟩ := h.exists_first
      have hlength : (c :: others).length - rest.length = lexeme.length := by
        rw [← hsplit, List.length_append]
        omega
      have hskip := (Expr.token h).skipBlanks o
      simp only [endsToken, isBracket, Bool.or_eq_false_iff, Option.isSome_eq_false_iff,
        Option.isNone_iff_eq_none] at hend
      rw [outcome, if_pos (Nat.succ_le_succ (Nat.zero_le limit)), hlength, ← hread o]
      simp only [readForm, hskip, hend.1.2.1, hend.1.2.2, Bool.false_eq_true, if_false]

/-- A bracket is read when its items are, with the next lower limit. -/
theorem readForm_of_items {depth : Nat} {b : Bracket} {text rest : List Char} {items : List Form}
    {form : Form} (hitems : Items depth b text items rest) (hform : b.form? items = some form)
    (hread : ∀ limit start bound o, items.length < bound →
      readItems (readForm limit) b.closer start bound ⟨o, text⟩ =
        outcome depth limit items o text rest) (limit o : Nat) :
    readForm limit ⟨o, b.opener :: text⟩ =
      outcome (depth + 1) limit form o (b.opener :: text) rest := by
  cases limit with
  | zero => rfl
  | succ limit =>
      have hlength := hitems.length_lt
      have hskip := (Expr.bracket b hitems hform).skipBlanks o
      have hinside := hread limit ⟨o, b.opener :: text⟩ ((b.opener :: text).length + 1) (o + 1)
        (by rw [List.length_cons]; omega)
      have hadvance : (Cursor.mk o (b.opener :: text)).advance 1 = ⟨o + 1, text⟩ := rfl
      simp only [readForm, hskip, ofOpener?_opener, readBracket, hadvance, hinside]
      by_cases hdepth : depth ≤ limit
      · have hoffset : o + 1 + (text.length - rest.length) =
            o + ((b.opener :: text).length - rest.length) := by
          rw [List.length_cons]
          omega
        simp only [outcome, hdepth, Nat.succ_le_succ_iff, if_true, ok_bind, hform, hoffset]
      · simp only [outcome, hdepth, Nat.succ_le_succ_iff, if_false, error_bind]

/-- The end of a bracket is found behind blanks. -/
theorem readItems_of_close {b : Bracket} {text rest : List Char}
    (hblanks : Blanks text (b.closer :: rest)) (readOne : Cursor → Reading) (start : Cursor)
    (bound o : Nat) :
    readItems readOne b.closer start (bound + 1) ⟨o, text⟩ =
      .ok ([], ⟨o + (text.length - rest.length), rest⟩) := by
  have hlength := hblanks.length_le
  rw [List.length_cons] at hlength
  have hoffset : o + (text.length - (b.closer :: rest).length) + 1 =
      o + (text.length - rest.length) := by
    rw [List.length_cons]
    omega
  have hskip := hblanks.skipBlanks o
  rw [skipBlanks_of_not_blank (closer_not_blank b).1 (closer_not_blank b).2] at hskip
  simp only [readItems, hskip, if_true, ← hoffset]
  rfl

/-- An item is read behind blanks, and then the other items. -/
theorem readItems_of_item {depth others : Nat} {b : Bracket} {text front after rest : List Char}
    {form : Form} {items : List Form} (hblanks : Blanks text front)
    (hexpr : Expr depth front form after) (hothers : Items others b after items rest)
    {limit bound o : Nat} {start : Cursor}
    (hfirst : ∀ o, readForm limit ⟨o, front⟩ = outcome depth limit form o front after)
    (hrest : ∀ o, readItems (readForm limit) b.closer start bound ⟨o, after⟩ =
      outcome others limit items o after rest) :
    readItems (readForm limit) b.closer start (bound + 1) ⟨o, text⟩ =
      outcome (max depth others) limit (form :: items) o text rest := by
  have hskip := hblanks.skipBlanks o
  rw [hexpr.skipBlanks] at hskip
  have hfront := hblanks.length_le
  have hafter := hexpr.length_lt
  have hlast := hothers.length_lt
  obtain ⟨c, tail, rfl, _, _, hclose⟩ := hexpr.exists_first
  have hc : c ≠ b.closer := by
    rintro rfl
    rw [isCloser_closer] at hclose
    cases hclose
  simp only [readItems, hskip, hc, if_false, hfirst]
  -- an item that is nested too deep is refused before the ones behind it are looked at
  by_cases hdepth : depth ≤ limit
  · simp only [outcome, hdepth, if_true, ok_bind, hrest, Nat.max_le, true_and]
    by_cases hmore : others ≤ limit
    · simp only [hmore, if_true, ok_bind, Except.ok.injEq, Prod.mk.injEq, Cursor.mk.injEq, true_and,
        and_true]
      omega
    · simp only [hmore, if_false, error_bind]
  · simp only [outcome, hdepth, if_false, Nat.max_le, false_and, error_bind]

mutual

/-- An expression is read as its form, unless it is nested deeper than the limit. -/
theorem Expr.readForm_eq : {depth : Nat} → {text rest : List Char} → {form : Form} →
    Expr depth text form rest → ∀ limit o,
      readForm limit ⟨o, text⟩ = outcome depth limit form o text rest
  | _, _, _, _, .token htoken, limit, o => readForm_of_token htoken limit o
  | _, _, _, _, .bracket _ hitems hform, limit, o =>
    readForm_of_items hitems hform (Items.readItems_eq hitems) limit o

/-- The items of a bracket are read as their forms, unless one is nested deeper than the limit. -/
theorem Items.readItems_eq : {depth : Nat} → {b : Bracket} → {text rest : List Char} →
    {items : List Form} → Items depth b text items rest → ∀ limit start bound o,
      items.length < bound →
      readItems (readForm limit) b.closer start bound ⟨o, text⟩ =
        outcome depth limit items o text rest
  | _, _, _, _, _, .close hblanks, limit, start, bound + 1, o, _ => by
      rw [readItems_of_close hblanks, outcome, if_pos (Nat.zero_le limit)]
  | _, _, _, _, _, .item hblanks hexpr hothers, limit, start, bound + 1, o, hbound =>
    readItems_of_item hblanks hexpr hothers (Expr.readForm_eq hexpr limit)
      fun o => Items.readItems_eq hothers limit start bound o (Nat.lt_of_succ_lt_succ hbound)

end

/-! ## What is read is derived by the grammar -/

/-- Whether whatever a reading function makes of a text is derived from it, with brackets that are
not too deep. -/
def ReadsExpr (limit : Nat) (readOne : Cursor → Reading) : Prop :=
  ∀ o text form next, readOne ⟨o, text⟩ = .ok (form, next) →
    ∃ depth front, depth ≤ limit ∧ Blanks text front ∧ Expr depth front form next.rest

theorem items_of_readItems {limit : Nat} {readOne : Cursor → Reading}
    (hone : ReadsExpr limit readOne) {b : Bracket} {start : Cursor} {bound : Nat} {c next : Cursor}
    {items : List Form} (h : readItems readOne b.closer start bound c = .ok (items, next)) :
    ∃ depth ≤ limit, Items depth b c.rest items next.rest := by
  induction bound generalizing c items with
  | zero => cases h
  | succ bound ih =>
      have hblanks := blanks_skipBlanks c
      rw [readItems] at h
      simp only at h
      split at h
      case h_1 => cases h
      case h_2 ch tail htext =>
        split at h
        case isTrue hclose =>
          cases h
          refine ⟨0, Nat.zero_le _, .close ?_⟩
          rw [htext, hclose] at hblanks
          rw [Cursor.advance, htext]
          exact hblanks
        case isFalse =>
          obtain ⟨⟨item, after⟩, hfirst, hrest⟩ := bind_eq_ok.mp h
          obtain ⟨⟨others, last⟩, hothers, heq⟩ := bind_eq_ok.mp hrest
          cases heq
          -- the blanks in front of the item may be skipped once more when it is read
          obtain ⟨depth, front, hdepth, hmore, hexpr⟩ := hone _ _ _ _ hfirst
          obtain ⟨deeper, hdeeper, hitems⟩ := ih hothers
          exact ⟨max depth deeper, Nat.max_le.mpr ⟨hdepth, hdeeper⟩,
            .item (hblanks.trans hmore) hexpr hitems⟩

theorem opener_of_ofOpener? {ch : Char} {b : Bracket} (h : Bracket.ofOpener? ch = some b) :
    b.opener = ch := by
  unfold Bracket.ofOpener? at h
  split at h
  case isTrue hround =>
    cases h
    exact hround.symm
  case isFalse =>
    split at h
    case isTrue hsquare =>
      cases h
      exact hsquare.symm
    case isFalse =>
      split at h
      case isTrue hcurly =>
        cases h
        exact hcurly.symm
      case isFalse => cases h

/-- What is read is an expression behind blanks. -/
theorem readsExpr_readForm (limit : Nat) : ReadsExpr limit (readForm limit) := by
  induction limit with
  | zero => exact fun o text form next h => by cases h
  | succ limit ih =>
      intro o text form next h
      have hblanks := blanks_skipBlanks ⟨o, text⟩
      rw [readForm] at h
      split at h
      case h_1 => cases h
      case h_2 ch tail htext =>
        split at h
        case h_1 b hopener =>
          obtain ⟨⟨items, after⟩, hitems, hrest⟩ := bind_eq_ok.mp h
          simp only at hrest
          split at hrest
          case h_2 => cases hrest
          case h_1 found hform =>
            cases hrest
            -- what is inside the bracket is read one level further down
            obtain ⟨depth, hdepth, hderived⟩ := items_of_readItems ih hitems
            rw [Cursor.advance, htext] at hderived
            refine ⟨depth + 1, _, Nat.succ_le_succ hdepth, hblanks, ?_⟩
            rw [htext, ← opener_of_ofOpener? hopener]
            exact .bracket b hderived hform
        case h_2 =>
          split at h
          case isTrue => cases h
          case isFalse =>
            exact ⟨1, _, Nat.succ_le_succ (Nat.zero_le limit), hblanks, .token (token_of_readToken h)⟩

end Grammar

/-! ## Documents -/

open Grammar

theorem Grammar.Blanks.readForm_eq {text front : List Char} (h : Blanks text front) (limit o : Nat) :
    readForm limit ⟨o, text⟩ = readForm limit ⟨o + (text.length - front.length), front⟩ := by
  cases limit with
  | zero => rfl
  | succ limit => rw [readForm, readForm, h.skipBlanks]

/-- What the grammar derives from a text, and how deep, is what reading it comes to. -/
theorem Grammar.Document.readForm_eq {depth : Nat} {text : String} {form : Form}
    (h : Document depth text form) :
    ∃ next, Blanks next.rest [] ∧ ∀ limit, readForm limit (.ofText text.toList 0) =
      if depth ≤ limit then .ok (form, next) else .error ⟨.nestedTooDeep, none⟩ := by
  obtain ⟨front, rest, hbefore, hexpr, hafter⟩ := h
  refine ⟨⟨0 + (text.toList.length - front.length) + (front.length - rest.length), rest⟩, hafter, ?_⟩
  intro limit
  have hstart : Cursor.ofText text.toList 0 = ⟨0, text.toList⟩ := rfl
  rw [hstart, hbefore.readForm_eq, hexpr.readForm_eq]
  rfl

/-- A text that the grammar derives is read, unless its brackets are deeper than the reader goes. -/
theorem Grammar.Document.parse_eq {depth : Nat} {text : String} {form : Form}
    (h : Document depth text form) :
    parse text = if depth ≤ nestingLimit then .ok form else .error ⟨.nestedTooDeep, none⟩ := by
  obtain ⟨next, hafter, hread⟩ := h.readForm_eq
  rw [parse, hread]
  by_cases hdepth : depth ≤ nestingLimit
  · have hend : next.skipBlanks.rest = [] := by
      show (Cursor.mk next.offset next.rest).skipBlanks.rest = []
      rw [hafter.skipBlanks]
      rfl
    simp only [hdepth, if_true, ok_bind, hend]
  · simp only [hdepth, if_false, error_bind]

/-- The grammar derives one form from a text, in one depth. -/
theorem Grammar.Document.unique {depth depth' : Nat} {text : String} {form form' : Form}
    (h : Document depth text form) (h' : Document depth' text form') :
    depth = depth' ∧ form = form' := by
  obtain ⟨next, _, hread⟩ := h.readForm_eq
  obtain ⟨next', _, hread'⟩ := h'.readForm_eq
  have hagree : ∀ limit, (depth ≤ limit ↔ depth' ≤ limit) ∧ (depth ≤ limit → form = form') := by
    intro limit
    have hsame := (hread limit).symm.trans (hread' limit)
    by_cases hdepth : depth ≤ limit
    · rw [if_pos hdepth] at hsame
      split at hsame
      case isTrue hdepth' =>
        cases hsame
        exact ⟨iff_of_true hdepth hdepth', fun _ => rfl⟩
      case isFalse => cases hsame
    · rw [if_neg hdepth] at hsame
      split at hsame
      case isTrue => cases hsame
      case isFalse hdepth' => exact ⟨iff_of_false hdepth hdepth', fun hle => absurd hle hdepth⟩
  refine ⟨Nat.le_antisymm ?_ ?_, (hagree depth).2 (Nat.le_refl _)⟩
  · exact (hagree depth').1.mpr (Nat.le_refl _)
  · exact (hagree depth).1.mp (Nat.le_refl _)

/-- A text that is read is derived by the grammar. -/
theorem document_of_parse {text : String} {form : Form} (h : parse text = .ok form) :
    ∃ depth ≤ nestingLimit, Document depth text form := by
  obtain ⟨⟨found, next⟩, hread, hend⟩ := bind_eq_ok.mp h
  simp only at hend
  split at hend
  case h_2 => cases hend
  case h_1 hrest =>
    cases hend
    obtain ⟨depth, front, hdepth, hbefore, hexpr⟩ := readsExpr_readForm nestingLimit _ _ _ _ hread
    have hafter := blanks_skipBlanks next
    rw [hrest] at hafter
    exact ⟨depth, hdepth, front, next.rest, hbefore, hexpr, hafter⟩

end DispatchLisp
