import DispatchLisp.Proofs.Reader.Acceptance
import Mathlib.Order.Bounds.Defs

/-!
# Proofs.Reader.Progress — every read moves on, and stays inside the text

What is skipped between tokens goes up to the first place at which the text ends, or holds a
character that is no blank and belongs to no comment (`isLeast_skipBlanks`). A reading function
*progresses* when it ends behind its start and not behind the end of the text, and reports every
error in between; only nesting that is too deep is reported without a place. Tokens progress, since
no token is empty, and brackets progress when the reading of their items does
(`progresses_readForm`).
-/

namespace DispatchLisp

namespace Grammar

/-! ## Skipping blanks -/

/-- Whether no blank and no comment stands at the front of a text. -/
def NoBlank (text : List Char) : Prop :=
  ∀ c ∈ text.head?, isBlank c = false ∧ c ≠ ';'

theorem noBlank_drop (inComment : Bool) (text : List Char) :
    NoBlank (text.drop (blankLength inComment text)) := by
  -- a comment that begins changes how the rest is measured
  induction text generalizing inComment with
  | nil =>
      rw [List.drop_nil]
      exact fun c hc => by cases hc
  | cons c text ih =>
      rw [blankLength]
      split
      case isTrue => exact ih _
      case isFalse =>
        split
        case isTrue => exact ih false
        case isFalse hblank =>
          split
          case isTrue => exact ih true
          case isFalse hcomment =>
            intro d hd
            cases hd
            exact ⟨Bool.eq_false_iff.mpr hblank, hcomment⟩

theorem NoBlank.skipBlanks {text : List Char} (h : NoBlank text) (o : Nat) :
    (Cursor.mk o text).skipBlanks = ⟨o, text⟩ := by
  cases text with
  | nil => rfl
  | cons c text => exact skipBlanks_of_not_blank (h c rfl).1 (h c rfl).2 o text

theorem Blanks.skipBlanks_of_noBlank {text rest : List Char} (h : Blanks text rest)
    (hend : NoBlank rest) (o : Nat) :
    (Cursor.mk o text).skipBlanks = ⟨o + (text.length - rest.length), rest⟩ := by
  rw [h.skipBlanks, hend.skipBlanks]

/-- The reader skips all blanks and comments that there are and nothing else. -/
theorem skipBlanks_spec (o : Nat) (text : List Char) :
    ∃ rest, Blanks text rest ∧ NoBlank rest ∧
      (Cursor.mk o text).skipBlanks = ⟨o + (text.length - rest.length), rest⟩ := by
  have hblanks := blanks_drop text
  have hend := noBlank_drop false text
  exact ⟨_, hblanks, hend, hblanks.skipBlanks_of_noBlank hend o⟩

/-! ## Where blanks end -/

/-- Whether the character at an offset belongs to a comment, when comments are looked for from a
start on: it is a semicolon, or one stands before it on the same line. -/
def InComment (text : List Char) (start o : Nat) : Prop :=
  ∃ p, start ≤ p ∧ p ≤ o ∧ text[p]? = some ';' ∧ ∀ q, p ≤ q → q ≤ o → text[q]? ≠ some '\n'

/-- Whether a text ends at an offset, or holds a character there that is no blank and belongs to no
comment. -/
def BlanksEnd (text : List Char) (start o : Nat) : Prop :=
  ∀ c, text[o]? = some c → isBlank c = false ∧ ¬ InComment text start o

section

variable {text rest : List Char}

theorem getElem?_behind (front text : List Char) (q : Nat) :
    (front ++ text)[front.length + q]? = text[q]? := by
  rw [List.getElem?_append_right (Nat.le_add_right _ _), Nat.add_sub_cancel_left]

/-- Comments behind some text are the comments of what follows it. -/
theorem inComment_append (front text : List Char) (o : Nat) :
    InComment (front ++ text) front.length (front.length + o) ↔ InComment text 0 o := by
  constructor
  · rintro ⟨p, hstart, hle, hcomment, hline⟩
    obtain ⟨p, rfl⟩ := Nat.exists_eq_add_of_le hstart
    rw [getElem?_behind] at hcomment
    refine ⟨p, Nat.zero_le p, by omega, hcomment, ?_⟩
    intro q hq hqo
    rw [← getElem?_behind front]
    exact hline _ (by omega) (by omega)
  · rintro ⟨p, -, hle, hcomment, hline⟩
    refine ⟨front.length + p, by omega, by omega, by rw [getElem?_behind, hcomment], ?_⟩
    intro q hq hqo
    obtain ⟨q, rfl⟩ := Nat.exists_eq_add_of_le (show front.length ≤ q by omega)
    rw [getElem?_behind]
    exact hline q (by omega) (by omega)

theorem InComment.of_later {start start' o : Nat} (h : InComment text start o)
    (hstart : start' ≤ start) : InComment text start' o := by
  obtain ⟨p, hp, hrest⟩ := h
  exact ⟨p, Nat.le_trans hstart hp, hrest⟩

theorem inComment_of_comment {body : List Char} (hbody : '\n' ∉ body) {o : Nat}
    (ho : o ≤ body.length) (text : List Char) : InComment (';' :: (body ++ text)) 0 o := by
  refine ⟨0, Nat.le_refl 0, Nat.zero_le o, rfl, ?_⟩
  intro q _ hq hline
  cases q with
  | zero => cases hline
  | succ q =>
      rw [List.getElem?_cons_succ, List.getElem?_append_left (by omega)] at hline
      exact hbody (List.mem_of_getElem? hline)

/-- Where blanks end behind some text, they end without it too. -/
theorem BlanksEnd.of_append (front : List Char) {o : Nat}
    (h : BlanksEnd (front ++ text) 0 (front.length + o)) : BlanksEnd text 0 o := by
  intro d hd
  obtain ⟨hblank, hcomment⟩ := h d ((getElem?_behind front text o).trans hd)
  refine ⟨hblank, fun hinside => hcomment ?_⟩
  exact ((inComment_append front text o).mpr hinside).of_later (Nat.zero_le _)

/-- Where blanks end, they end behind some text too, unless a comment begins in it and goes on. -/
theorem BlanksEnd.append {o : Nat} (h : BlanksEnd text 0 o) (front : List Char)
    (hfront : ';' ∈ front → ∀ c ∈ text.head?, c = '\n') :
    BlanksEnd (front ++ text) 0 (front.length + o) := by
  intro d hd
  rw [getElem?_behind] at hd
  obtain ⟨hblank, hcomment⟩ := h d hd
  refine ⟨hblank, ?_⟩
  rintro ⟨p, -, hp, hsemicolon, hline⟩
  by_cases hinside : p < front.length
  · -- the line feed behind the comment stands between the semicolon and the character
    rw [List.getElem?_append_left hinside] at hsemicolon
    have hfeed : text[0]? = some '\n' := by
      cases text with
      | nil => cases hd
      | cons c text => exact congrArg some (hfront (List.mem_of_getElem? hsemicolon) c rfl)
    have hbetween := hline (front.length + 0) (Nat.le_of_lt hinside) (by omega)
    rw [getElem?_behind] at hbetween
    exact hbetween hfeed
  · apply hcomment
    rw [← inComment_append front]
    exact ⟨p, Nat.not_lt.mp hinside, hp, hsemicolon, hline⟩

/-- Blanks do not end at a character that is skipped. -/
theorem Blanks.not_blanksEnd (h : Blanks text rest) {o : Nat}
    (ho : o + rest.length < text.length) : ¬ BlanksEnd text 0 o := by
  intro hend
  induction h generalizing o with
  | none => omega
  | @blank c text rest hblank _ ih =>
      cases o with
      | zero =>
          have hno := (hend c rfl).1
          rw [hblank] at hno
          cases hno
      | succ o =>
          rw [List.length_cons] at ho
          rw [Nat.add_comm] at hend
          exact ih (o := o) (by omega) (.of_append [c] hend)
  | @comment body text rest hbody _ _ ih =>
      by_cases hinside : o ≤ body.length
      · have hthere : o < (';' :: (body ++ text)).length := by
          simp only [List.length_cons, List.length_append]
          omega
        exact (hend _ (List.getElem?_eq_getElem hthere)).2 (inComment_of_comment hbody hinside text)
      · -- the character stands behind the comment
        obtain ⟨o, rfl⟩ := Nat.exists_eq_add_of_le (Nat.succ_le_of_lt (Nat.not_le.mp hinside))
        simp only [List.length_cons, List.length_append] at ho
        exact ih (o := o) (by omega) (.of_append (';' :: body) hend)

/-- Blanks end where nothing more is skipped: a comment that reached there would have a line feed
inside. -/
theorem Blanks.blanksEnd (h : Blanks text rest) (hend : NoBlank rest) :
    BlanksEnd text 0 (text.length - rest.length) := by
  induction h with
  | none text =>
      rw [Nat.sub_self]
      intro c hc
      rw [← List.head?_eq_getElem?] at hc
      obtain ⟨hblank, hcomment⟩ := hend c hc
      refine ⟨hblank, ?_⟩
      rintro ⟨p, -, hp, hsemicolon, -⟩
      rw [Nat.le_zero.mp hp, ← List.head?_eq_getElem?, hc] at hsemicolon
      exact hcomment (Option.some.inj hsemicolon)
  | @blank c text rest hblank hblanks ih =>
      have hlength := hblanks.length_le
      have hoffset : (c :: text).length - rest.length = [c].length + (text.length - rest.length) := by
        rw [List.length_cons, List.length_singleton]
        omega
      rw [hoffset]
      refine (ih hend).append [c] fun hsemicolon => ?_
      rw [← List.mem_singleton.mp hsemicolon] at hblank
      exact absurd hblank (by decide)
  | @comment body text rest hbody hends hblanks ih =>
      have hlength := hblanks.length_le
      have hoffset : (';' :: (body ++ text)).length - rest.length =
          (';' :: body).length + (text.length - rest.length) := by
        simp only [List.length_cons, List.length_append]
        omega
      rw [hoffset]
      refine (ih hend).append (';' :: body) fun _ c hc => ?_
      cases text with
      | nil => cases hc
      | cons d text =>
          cases hc
          exact hends

end

/-- Where blanks end does not depend on the text before the start. -/
theorem blanksEnd_drop {text : List Char} {start : Nat} (hstart : start ≤ text.length) (o : Nat) :
    BlanksEnd text start (start + o) ↔ BlanksEnd (text.drop start) 0 o := by
  have hfront : (text.take start).length = start := List.length_take_of_le hstart
  have hcomments := inComment_append (text.take start) (text.drop start) o
  rw [List.take_append_drop, hfront] at hcomments
  unfold BlanksEnd
  rw [List.getElem?_drop, hcomments]

/-- What is skipped from a place on goes up to the least offset at which the text ends, or holds a
character that is no blank and belongs to no comment. -/
theorem isLeast_skipBlanks {text : List Char} {start : Nat} (hstart : start ≤ text.length) :
    ∃ o, (Cursor.ofText text start).skipBlanks = .ofText text o ∧ o ≤ text.length ∧
      IsLeast {o | start ≤ o ∧ BlanksEnd text start o} o := by
  obtain ⟨rest, hblanks, hend, hskip⟩ := skipBlanks_spec start (text.drop start)
  obtain ⟨front, hsplit, -⟩ := hblanks.blankLength_eq
  have hlength := congrArg List.length hsplit
  rw [List.length_append, List.length_drop] at hlength
  have hskipped : (text.drop start).length - rest.length = front.length := by
    rw [List.length_drop]
    omega
  have hrest : rest = text.drop (start + front.length) := by
    rw [← List.drop_drop, ← hsplit, List.drop_left]
  rw [hskipped] at hskip
  refine ⟨start + front.length, ?_, by omega, ⟨Nat.le_add_right _ _, ?_⟩, ?_⟩
  · rw [Cursor.ofText, hskip, hrest]
    rfl
  · rw [blanksEnd_drop hstart, ← hskipped]
    exact hblanks.blanksEnd hend
  · rintro o ⟨hle, ho⟩
    obtain ⟨o, rfl⟩ := Nat.exists_eq_add_of_le hle
    rw [blanksEnd_drop hstart] at ho
    by_contra hbefore
    refine hblanks.not_blanksEnd (o := o) ?_ ho
    rw [List.length_drop]
    omega

end Grammar

/-! ## Places further on -/

namespace Cursor

theorem advance_advance (c : Cursor) (m n : Nat) : (c.advance m).advance n = c.advance (m + n) := by
  simp only [advance, List.drop_drop, Nat.add_assoc]

theorem length_rest_advance (c : Cursor) (n : Nat) :
    (c.advance n).rest.length = c.rest.length - n :=
  List.length_drop

theorem advance_ofText (text : List Char) (start n : Nat) :
    (ofText text start).advance n = ofText text (start + n) := by
  simp only [advance, ofText, List.drop_drop]

/-- Blanks are skipped up to a place that is not behind the end. -/
theorem exists_skipBlanks (c : Cursor) :
    ∃ n ≤ c.rest.length, c.skipBlanks = c.advance n ∧ Grammar.NoBlank (c.advance n).rest := by
  obtain ⟨rest, hblanks, hend, hskip⟩ := Grammar.skipBlanks_spec c.offset c.rest
  obtain ⟨front, hsplit, -⟩ := hblanks.blankLength_eq
  have hskipped : c.rest.length - rest.length = front.length := by
    rw [← hsplit, List.length_append]
    omega
  have hrest : (c.advance front.length).rest = rest := by
    rw [advance, ← hsplit, List.drop_left]
  refine ⟨front.length, ?_, ?_, ?_⟩
  · rw [← hsplit, List.length_append]
    omega
  · rw [hskipped, ← hrest] at hskip
    exact hskip
  · rwa [hrest]

end Cursor

/-! ## Progress -/

/-- Whether what a reading function answers, started at a place, keeps to the text from there on:
it ends at least one character further on and not behind the end, and an error is found in between,
unless nesting is too deep. -/
structure Progresses {α : Type} (c : Cursor) (read : Except ReadError (α × Cursor)) : Prop where
  next : ∀ a next, read = .ok (a, next) → ∃ n, 0 < n ∧ n ≤ c.rest.length ∧ next = c.advance n
  place : ∀ e, read = .error e → e.fault ≠ .nestedTooDeep →
    ∃ n ≤ c.rest.length, e.offset = some (c.offset + n)

namespace Progresses

variable {α β : Type} {c : Cursor}

theorem ok (a : α) {n : Nat} (hpos : 0 < n) (hn : n ≤ c.rest.length) :
    Progresses c (.ok (a, c.advance n)) where
  next := by
    rintro _ _ ⟨⟩
    exact ⟨n, hpos, hn, rfl⟩
  place := by
    intro e h
    cases h

theorem fail (fault : ReadFault) : Progresses c (c.fail fault : Except ReadError (α × Cursor)) where
  next := by
    intro a next h
    cases h
  place := by
    rintro _ ⟨⟩ _
    exact ⟨0, Nat.zero_le _, rfl⟩

/-- What keeps to the text from a later place on does so from an earlier one. -/
theorem earlier {n : Nat} {read : Except ReadError (α × Cursor)} (h : Progresses (c.advance n) read)
    (hn : n ≤ c.rest.length) : Progresses c read where
  next := by
    intro a next hread
    obtain ⟨m, hpos, hm, rfl⟩ := h.next a next hread
    rw [c.length_rest_advance] at hm
    exact ⟨n + m, by omega, by omega, c.advance_advance n m⟩
  place := by
    intro e hread hfault
    obtain ⟨m, hm, hoffset⟩ := h.place e hread hfault
    rw [c.length_rest_advance] at hm
    refine ⟨n + m, by omega, ?_⟩
    rw [hoffset, Cursor.advance, Nat.add_assoc]

theorem bind {read : Except ReadError (α × Cursor)}
    {further : α × Cursor → Except ReadError (β × Cursor)} (h : Progresses c read)
    (hfurther : ∀ a n, 0 < n → n ≤ c.rest.length → Progresses c (further (a, c.advance n))) :
    Progresses c (read >>= further) := by
  cases read with
  | error e =>
      constructor
      · intro b next hread
        cases hread
      · rintro _ ⟨⟩ hfault
        exact h.place e rfl hfault
  | ok result =>
      obtain ⟨a, next⟩ := result
      obtain ⟨n, hpos, hn, rfl⟩ := h.next a next rfl
      exact hfurther a n hpos hn

end Progresses

/-! ## Tokens -/

/-- Whether a reading function that fails does so where it starts, and not for nesting. -/
def FailsHere (c : Cursor) (read : Reading) : Prop :=
  ∀ e, read = .error e → ∃ fault, fault ≠ .nestedTooDeep ∧ e = ⟨fault, some c.offset⟩

namespace FailsHere

variable (c : Cursor)

theorem ok (result : Form × Cursor) : FailsHere c (.ok result) := by
  intro e h
  cases h

theorem fail {fault : ReadFault} (h : fault ≠ .nestedTooDeep) : FailsHere c (c.fail fault) := by
  intro e he
  cases he
  exact ⟨fault, h, rfl⟩

theorem readString : FailsHere c (DispatchLisp.readString c) := by
  unfold DispatchLisp.readString
  split
  · exact ok c _
  · exact fail c (by decide)

theorem readNumber : FailsHere c (DispatchLisp.readNumber c) := by
  simp only [DispatchLisp.readNumber]
  split
  · exact fail c ReadFault.noConfusion
  · split
    · split
      · exact ok c _
      · exact fail c ReadFault.noConfusion
    · exact fail c ReadFault.noConfusion

theorem readKeyword : FailsHere c (DispatchLisp.readKeyword c) := by
  unfold DispatchLisp.readKeyword
  split
  · exact ok c _
  · exact fail c (by decide)

theorem readSymbol : FailsHere c (DispatchLisp.readSymbol c) := by
  unfold DispatchLisp.readSymbol
  split
  · exact ok c _
  · exact fail c ReadFault.noConfusion

/-- An error in a token is found where the token starts. -/
theorem readToken : FailsHere c (DispatchLisp.readToken c) := by
  unfold DispatchLisp.readToken
  split
  · exact fail c (by decide)
  · split
    · exact readString c
    · split
      · exact readNumber c
      · split
        · exact readKeyword c
        · exact readSymbol c

end FailsHere

/-- A token progresses, because none is empty. -/
theorem progresses_readToken (c : Cursor) : Progresses c (readToken c) where
  next := by
    intro form next h
    obtain ⟨lexeme, hne, hsplit, hread⟩ := (Grammar.token_of_readToken h).readToken
    have hnext : next = ⟨c.offset + lexeme.length, next.rest⟩ := by
      have hsame := h.symm.trans (hread c.offset)
      exact (Prod.mk.inj (Except.ok.inj hsame)).2
    refine ⟨lexeme.length, List.length_pos_iff.mpr hne, ?_, ?_⟩
    · rw [← hsplit, List.length_append]
      exact Nat.le_add_right _ _
    · rw [hnext, Cursor.advance, ← hsplit, List.drop_left]
  place := by
    intro e h _
    obtain ⟨fault, _, rfl⟩ := FailsHere.readToken c e h
    exact ⟨0, Nat.zero_le _, rfl⟩

/-! ## Brackets and forms -/

/-- The items of a bracket are read from a place inside it, and errors are found in the bracket. -/
theorem progresses_readItems {readOne : Cursor → Reading} (h : ∀ c, Progresses c (readOne c))
    (closer : Char) (start : Cursor) (bound : Nat) {k : Nat} (hk : k ≤ start.rest.length) :
    Progresses start (readItems readOne closer start bound (start.advance k)) := by
  induction bound generalizing k with
  | zero => exact .fail _
  | succ bound ih =>
      obtain ⟨n, hn, hskip, -⟩ := (start.advance k).exists_skipBlanks
      rw [start.length_rest_advance] at hn
      rw [start.advance_advance] at hskip
      simp only [readItems, hskip]
      split
      case h_1 => exact .fail _
      case h_2 ch tail htext =>
        have hleft : (start.advance (k + n)).rest.length ≠ 0 := by
          rw [htext]
          exact Nat.succ_ne_zero _
        rw [start.length_rest_advance] at hleft
        split
        case isTrue =>
          rw [start.advance_advance]
          exact .ok [] (by omega) (by omega)
        case isFalse =>
          -- an item is read here, and the others from a place behind it
          refine ((h _).earlier (by omega)).bind ?_
          intro item m _ hm
          refine (ih hm).bind ?_
          intro items last hpos hlast
          exact .ok _ hpos hlast

theorem progresses_readBracket {readOne : Cursor → Reading} (h : ∀ c, Progresses c (readOne c))
    (bracket shape : Bracket) {c : Cursor} (hc : c.rest ≠ []) :
    Progresses c (readBracket readOne bracket shape c) := by
  have hlength := List.length_pos_iff.mpr hc
  refine (progresses_readItems h bracket.closer c (c.rest.length + 1) hlength).bind ?_
  intro items n hpos hn
  dsimp only
  split
  · exact .ok _ hpos hn
  · exact .fail _

/-- Every read progresses, whatever stands there and however deep the brackets may be. -/
theorem progresses_readForm (limit : Nat) (c : Cursor) : Progresses c (readForm limit c) := by
  induction limit generalizing c with
  | zero =>
      constructor
      · intro form next h
        cases h
      · rintro _ ⟨⟩ hfault
        exact absurd rfl hfault
  | succ limit ih =>
      obtain ⟨n, hn, hskip, -⟩ := c.exists_skipBlanks
      -- blanks only bring the reader further on
      apply Progresses.earlier (n := n) _ hn
      rw [readForm, hskip]
      split
      case h_1 => exact .fail _
      case h_2 ch tail htext =>
        have hne : (c.advance n).rest ≠ [] := by
          rw [htext]
          exact List.cons_ne_nil _ _
        split
        · exact progresses_readBracket ih _ _ hne
        · split
          · exact .fail _
          · exact progresses_readToken _

end DispatchLisp
