import DispatchLisp.Proofs.Except
import DispatchLisp.Reader.Parse

/-!
# Proofs.Reader.Places — what is read does not depend on the text before it

A reading function sees the characters that are left and nothing else. With more characters before
them it makes the same of them, and every offset that it answers is larger by as many
(`ReadsAnywhere`). This holds for tokens, goes through brackets by the limit on nesting, and holds
for all the forms up to the end of a text.
-/

namespace DispatchLisp

/-! ## Places and errors further on -/

/-- The place with the same characters left and more characters before it. -/
def Cursor.shift (k : Nat) (c : Cursor) : Cursor :=
  ⟨c.offset + k, c.rest⟩

/-- The same read error, found further on. -/
def ReadError.later (k : Nat) (e : ReadError) : ReadError :=
  ⟨e.fault, e.offset.map (· + k)⟩

/-- The same answer of a reading function, given further on. -/
def laterBy {α : Type} (k : Nat) :
    Except ReadError (α × Cursor) → Except ReadError (α × Cursor)
  | .ok (a, next) => .ok (a, next.shift k)
  | .error e => .error (e.later k)

/-- The same forms, and the same read error further on. -/
def Transcript.later (k : Nat) (t : Transcript) : Transcript :=
  ⟨t.forms, t.error.map (·.later k)⟩

/-- Whether a reading function answers the same whatever the number of characters before the
place. -/
def ReadsAnywhere {α : Type} (read : Cursor → Except ReadError (α × Cursor)) : Prop :=
  ∀ k c, read (c.shift k) = laterBy k (read c)

theorem Cursor.rest_shift (k : Nat) (c : Cursor) : (c.shift k).rest = c.rest :=
  rfl

theorem Cursor.advance_shift (k count : Nat) (c : Cursor) :
    (c.shift k).advance count = (c.advance count).shift k := by
  simp only [Cursor.shift, Cursor.advance, Nat.add_right_comm]

theorem Cursor.skipBlanks_shift (k : Nat) (c : Cursor) :
    (c.shift k).skipBlanks = c.skipBlanks.shift k :=
  c.advance_shift k _

theorem Cursor.excerpt_shift (k : Nat) (c : Cursor) : (c.shift k).excerpt = c.excerpt :=
  rfl

/-- One reading after another is the same further on when both are. -/
theorem laterBy_bind {α β : Type} (k : Nat) {read : Except ReadError (α × Cursor)}
    {next next' : α × Cursor → Except ReadError (β × Cursor)}
    (h : ∀ a c, next' (a, c.shift k) = laterBy k (next (a, c))) :
    (laterBy k read >>= next') = laterBy k (read >>= next) := by
  cases read with
  | error e => rfl
  | ok result => exact h result.1 result.2

/-! ## Tokens -/

theorem readString_anywhere : ReadsAnywhere readString := by
  intro k c
  simp only [readString, Cursor.rest_shift]
  split
  · rw [Cursor.advance_shift]
    rfl
  · rfl

theorem readNumber_anywhere : ReadsAnywhere readNumber := by
  intro k c
  simp only [readNumber, Cursor.rest_shift, Cursor.advance_shift, Cursor.excerpt_shift]
  split
  · rfl
  · split
    · split
      · rfl
      · rfl
    · rfl

theorem readKeyword_anywhere : ReadsAnywhere readKeyword := by
  intro k c
  simp only [readKeyword, Cursor.rest_shift]
  split
  · rw [Cursor.advance_shift]
    rfl
  · rfl

theorem readSymbol_anywhere : ReadsAnywhere readSymbol := by
  intro k c
  simp only [readSymbol, Cursor.rest_shift]
  split
  · rw [Cursor.advance_shift]
    rfl
  · rfl

theorem readToken_anywhere : ReadsAnywhere readToken := by
  intro k c
  simp only [readToken, Cursor.rest_shift]
  split
  · rfl
  · split
    · exact readString_anywhere k c
    · by_cases hnumber : startsNumber c.rest = true
      · simp only [hnumber, if_true]
        exact readNumber_anywhere k c
      · simp only [hnumber, Bool.false_eq_true, if_false]
        split
        · exact readKeyword_anywhere k c
        · exact readSymbol_anywhere k c

/-! ## Forms -/

theorem readItems_anywhere {readOne : Cursor → Reading} (h : ReadsAnywhere readOne) (closer : Char)
    (start : Cursor) (bound k : Nat) (c : Cursor) :
    readItems readOne closer (start.shift k) bound (c.shift k) =
      laterBy k (readItems readOne closer start bound c) := by
  induction bound generalizing c with
  | zero => rfl
  | succ bound ih =>
      simp only [readItems, Cursor.skipBlanks_shift, Cursor.rest_shift]
      split
      · rfl
      · split
        · rw [Cursor.advance_shift]
          rfl
        · rw [h k]
          apply laterBy_bind
          intro item next
          simp only [ih]
          exact laterBy_bind k fun _ _ => rfl

theorem readBracket_anywhere {readOne : Cursor → Reading} (h : ReadsAnywhere readOne)
    (bracket shape : Bracket) : ReadsAnywhere (readBracket readOne bracket shape) := by
  intro k c
  simp only [readBracket, Cursor.rest_shift, Cursor.advance_shift, readItems_anywhere h]
  apply laterBy_bind
  intro items next
  simp only
  split
  · rfl
  · rfl

theorem readForm_anywhere (limit : Nat) : ReadsAnywhere (readForm limit) := by
  induction limit with
  | zero => exact fun _ _ => rfl
  | succ limit ih =>
      intro k c
      simp only [readForm, Cursor.skipBlanks_shift, Cursor.rest_shift]
      split
      · rfl
      · split
        · exact readBracket_anywhere ih _ _ k _
        · split
          · rfl
          · exact readToken_anywhere k _

theorem readForms_anywhere (limit bound k : Nat) (c : Cursor) :
    readForms limit bound (c.shift k) = (readForms limit bound c).later k := by
  induction bound generalizing c with
  | zero => rfl
  | succ bound ih =>
      simp only [readForms, Cursor.skipBlanks_shift, Cursor.rest_shift]
      split
      · rfl
      · rw [readForm_anywhere limit k]
        cases hread : readForm limit c.skipBlanks with
        | error e =>
            -- only an error without a place of its own is put at the place of the form
            rcases e with ⟨fault, _ | offset⟩
            · rfl
            · rfl
        | ok result =>
            simp only [laterBy, ih]
            rfl

/-! ## Reading at an offset -/

/-- The place at an offset behind some text is the place at the offset, further on. -/
theorem Cursor.ofText_append (front text : List Char) (offset : Nat) :
    Cursor.ofText (front ++ text) (front.length + offset) =
      (Cursor.ofText text offset).shift front.length := by
  rw [Cursor.ofText, List.drop_length_add_append, Nat.add_comm]
  rfl

/-- Every reading function makes the same of a text, whatever stands before it. -/
theorem ReadKind.read?_behind (kind : ReadKind) (front text : List Char) (offset : Nat) :
    kind.read? (.ofText (front ++ text) (front.length + offset)) =
      (kind.read? (.ofText text offset)).map (laterBy front.length) := by
  rw [Cursor.ofText_append]
  cases kind with
  | any => exact congrArg some (readForm_anywhere _ _ _)
  | string => exact congrArg some (readString_anywhere _ _)
  | number => exact congrArg some (readNumber_anywhere _ _)
  | keyword => exact congrArg some (readKeyword_anywhere _ _)
  | symbol => exact congrArg some (readSymbol_anywhere _ _)
  | list =>
      simp only [ReadKind.read?, Cursor.rest_shift, Option.map_map]
      congr 1
      funext bracket
      exact readBracket_anywhere (readForm_anywhere _) bracket bracket _ _
  | dict =>
      simp only [ReadKind.read?, Cursor.rest_shift, Option.map_map]
      congr 1
      funext bracket
      exact readBracket_anywhere (readForm_anywhere _) bracket .curly _ _

end DispatchLisp
