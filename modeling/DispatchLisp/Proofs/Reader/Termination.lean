import DispatchLisp.Proofs.Reader.Joining
import DispatchLisp.Proofs.Reader.Progress

/-!
# Proofs.Reader.Termination — reading ends on every text

A read that stops because of nesting has opened as many brackets inside each other as its limit
allows, and a text that is nested so deep stops it (`readForm_tooDeep_iff`). Everything else that is
read progresses. So a bracket and a text are read to their ends by loops that go on as long as there
are items: with fewer characters left after each item, there is a last one, and the loops come to
the answers that are computed with a bound on the items (`itemsLoop_readItems`,
`formsLoop_readForms`).

Main statement: `read_makes_progress`.
-/

namespace DispatchLisp

namespace Grammar

/-! ## Nesting -/

/-- Whether a text is nested some number of brackets deep where a form is expected: it opens that
many inside each other, each behind complete forms that are not too deep themselves, and in the
innermost one something stands that does not close it. -/
inductive Nested : Nat → List Char → Prop where
  | here (text : List Char) : Nested 0 text
  | inside {n : Nat} {b : Bracket} {text inner rest others : List Char} {forms : List Form}
      {c : Char} : Blanks text (b.opener :: inner) → Forms n inner forms rest →
      Blanks rest (c :: others) → NoBlank (c :: others) → c ≠ b.closer →
      Nested n (c :: others) → Nested (n + 1) text

/-- A text is not nested deeper than it has characters. -/
theorem Nested.le_length {n : Nat} {text : List Char} (h : Nested n text) : n ≤ text.length := by
  induction h with
  | here => exact Nat.zero_le _
  | inside hblanks hforms hrest _ _ _ ih =>
      have htext := hblanks.length_le
      have hinner := hforms.length_le
      have hfront := hrest.length_le
      rw [List.length_cons] at htext
      omega

theorem noBlank_opener (b : Bracket) (text : List Char) : NoBlank (b.opener :: text) := by
  rintro c ⟨⟩
  cases b <;> decide

end Grammar

open Grammar

theorem exists_skipped (c : Cursor) :
    ∃ o rest, Blanks c.rest rest ∧ NoBlank rest ∧ c.skipBlanks = ⟨o, rest⟩ := by
  obtain ⟨rest, hblanks, hno, hskip⟩ := skipBlanks_spec c.offset c.rest
  exact ⟨_, rest, hblanks, hno, hskip⟩

/-- Reading the items of a bracket stops because of nesting where an item is nested too deep, and
complete items are in front of that one. -/
theorem nested_of_readItems {limit : Nat}
    (hone : ∀ c e, readForm limit c = .error e → e.fault = .nestedTooDeep → Nested limit c.rest)
    {closer : Char} {start : Cursor} {bound : Nat} {c : Cursor} {e : ReadError}
    (h : readItems (readForm limit) closer start bound c = .error e)
    (hfault : e.fault = .nestedTooDeep) :
    ∃ forms rest ch others, Forms limit c.rest forms rest ∧ Blanks rest (ch :: others) ∧
      NoBlank (ch :: others) ∧ ch ≠ closer ∧ Nested limit (ch :: others) := by
  induction bound generalizing c with
  | zero =>
      cases h
      cases hfault
  | succ bound ih =>
      obtain ⟨o, front, hblanks, hno, hskip⟩ := exists_skipped c
      simp only [readItems, hskip] at h
      split at h
      case h_1 =>
        cases h
        cases hfault
      case h_2 ch others =>
        split at h
        case isTrue => cases h
        case isFalse hclose =>
          cases hread : readForm limit ⟨o, ch :: others⟩ with
          | error e' =>
              rw [hread, error_bind] at h
              cases h
              exact ⟨[], c.rest, ch, others, .done _, hblanks, hno, hclose, hone _ _ hread hfault⟩
          | ok result =>
              -- the item is complete, so the error is in one of the others
              obtain ⟨item, next⟩ := result
              obtain ⟨depth, start', hdepth, hmore, hexpr⟩ := readsExpr_readForm _ _ _ _ _ hread
              rw [hread, ok_bind] at h
              cases hothers : readItems (readForm limit) closer start bound next with
              | ok result =>
                  rw [hothers, ok_bind] at h
                  cases h
              | error e' =>
                  rw [hothers, error_bind] at h
                  cases h
                  obtain ⟨forms, rest, ch', others', hforms, hbehind⟩ := ih hothers
                  exact ⟨item :: forms, rest, ch', others',
                    .form (hblanks.trans hmore) hexpr hdepth hforms, hbehind⟩

/-- A read that stops because of nesting is of a text that is nested as deep as the limit. -/
theorem nested_of_readForm {limit : Nat} {c : Cursor} {e : ReadError}
    (h : readForm limit c = .error e) (hfault : e.fault = .nestedTooDeep) :
    Nested limit c.rest := by
  induction limit generalizing c e with
  | zero => exact .here _
  | succ limit ih =>
      obtain ⟨o, front, hblanks, hno, hskip⟩ := exists_skipped c
      simp only [readForm, hskip] at h
      split at h
      case h_1 =>
        cases h
        cases hfault
      case h_2 ch others =>
        split at h
        case h_1 b hopener =>
          rw [← opener_of_ofOpener? hopener] at hblanks
          have hadvance : (Cursor.mk o (ch :: others)).advance 1 = ⟨o + 1, others⟩ := rfl
          simp only [readBracket, hadvance] at h
          cases hitems : readItems (readForm limit) b.closer ⟨o, ch :: others⟩
              ((ch :: others).length + 1) ⟨o + 1, others⟩ with
          | ok result =>
              -- then the form is at fault, and not for its nesting
              rw [hitems, ok_bind] at h
              split at h
              · cases h
              · cases h
                cases hfault
          | error e' =>
              rw [hitems, error_bind] at h
              cases h
              obtain ⟨forms, rest, ch', others', hforms, hbehind, hno', hclose, hnested⟩ :=
                nested_of_readItems (fun c e => ih) hitems hfault
              exact .inside hblanks hforms hbehind hno' hclose hnested
        case h_2 =>
          split at h
          case isTrue =>
            cases h
            cases hfault
          case isFalse =>
            obtain ⟨fault, hne, rfl⟩ := FailsHere.readToken _ e h
            exact absurd hfault hne

namespace Grammar

/-- What is wrong behind complete items is found when they are read. -/
theorem Forms.readItems_error {limit : Nat} {b : Bracket} {start : Cursor} {e : ReadError}
    {text rest : List Char} {forms : List Form} (h : Forms limit text forms rest)
    (hrest : ∀ bound o, rest.length < bound →
      readItems (readForm limit) b.closer start bound ⟨o, rest⟩ = .error e) :
    ∀ bound o, text.length < bound →
      readItems (readForm limit) b.closer start bound ⟨o, text⟩ = .error e := by
  induction h with
  | done => exact hrest
  | @form depth text front after rest form forms hblanks hexpr hdepth _ ih =>
      intro bound o hbound
      obtain ⟨bound, rfl⟩ := Nat.exists_eq_add_one_of_ne_zero (Nat.ne_zero_of_lt hbound)
      have hfront := hblanks.length_le
      have hafter := hexpr.length_lt
      have hskip := hblanks.skipBlanks o
      rw [hexpr.skipBlanks] at hskip
      have hread := hexpr.readForm_eq limit (o + (text.length - front.length))
      rw [outcome, if_pos hdepth] at hread
      obtain ⟨c, others, rfl, -, -, hclose⟩ := hexpr.exists_first
      -- a form does not begin with a closing bracket, so the loop goes on to read it
      have hc : c ≠ b.closer := by
        rintro rfl
        rw [isCloser_closer] at hclose
        cases hclose
      have hothers := ih hrest bound
        (o + (text.length - (c :: others).length) + ((c :: others).length - after.length)) (by omega)
      simp only [readItems, hskip, hc, if_false, hread, ok_bind, hothers, error_bind]

/-- A text that is nested as deep as the limit is not read. -/
theorem Nested.readForm_eq {n : Nat} {text : List Char} (h : Nested n text) (o : Nat) :
    readForm n ⟨o, text⟩ = .error ⟨.nestedTooDeep, none⟩ := by
  induction h generalizing o with
  | here => rfl
  | @inside n b text inner rest others forms c hblanks hforms hbehind hno hclose _ ih =>
      have hskip := hblanks.skipBlanks_of_noBlank (noBlank_opener b inner) o
      -- the loop over the items comes to the one that is nested too deep, and fails with it
      have hitems : ∀ start bound o, inner.length < bound →
          readItems (readForm n) b.closer start bound ⟨o, inner⟩ =
            .error ⟨.nestedTooDeep, none⟩ := by
        intro start
        apply hforms.readItems_error
        intro bound o hbound
        obtain ⟨bound, rfl⟩ := Nat.exists_eq_add_one_of_ne_zero (Nat.ne_zero_of_lt hbound)
        have hfront := hbehind.skipBlanks_of_noBlank hno o
        simp only [readItems, hfront, hclose, if_false, ih, error_bind]
      have hinside := hitems ⟨o + (text.length - (b.opener :: inner).length), b.opener :: inner⟩
        ((b.opener :: inner).length + 1) (o + (text.length - (b.opener :: inner).length) + 1)
        (by rw [List.length_cons]; omega)
      have hadvance : ∀ o, (Cursor.mk o (b.opener :: inner)).advance 1 = ⟨o + 1, inner⟩ :=
        fun o => rfl
      simp only [readForm, hskip, ofOpener?_opener, readBracket, hadvance, hinside, error_bind]

end Grammar

/-- A read fails for nesting exactly where the text is nested as deep as the limit. -/
theorem readForm_tooDeep_iff {limit : Nat} {c : Cursor} :
    (∃ e, readForm limit c = .error e ∧ e.fault = .nestedTooDeep) ↔ Nested limit c.rest := by
  constructor
  · rintro ⟨e, h, hfault⟩
    exact nested_of_readForm h hfault
  · intro h
    exact ⟨_, h.readForm_eq c.offset, rfl⟩

/-! ## Loops -/

/-- The runs of the loop that reads the items of a bracket, from a place to what they come to. No
bound is put on the number of rounds. -/
inductive ItemsLoop (readOne : Cursor → Reading) (closer : Char) (start : Cursor) :
    Cursor → Except ReadError (List Form × Cursor) → Prop where
  | ended {c : Cursor} : c.skipBlanks.rest = [] →
      ItemsLoop readOne closer start c (start.fail (.unterminatedList closer))
  | closed {c : Cursor} {rest : List Char} : c.skipBlanks.rest = closer :: rest →
      ItemsLoop readOne closer start c (.ok ([], c.skipBlanks.advance 1))
  | failed {c : Cursor} {ch : Char} {rest : List Char} {e : ReadError} :
      c.skipBlanks.rest = ch :: rest → ch ≠ closer → readOne c.skipBlanks = .error e →
      ItemsLoop readOne closer start c (.error e)
  | item {c next : Cursor} {ch : Char} {rest : List Char} {item : Form}
      {others : Except ReadError (List Form × Cursor)} :
      c.skipBlanks.rest = ch :: rest → ch ≠ closer → readOne c.skipBlanks = .ok (item, next) →
      ItemsLoop readOne closer start next others →
      ItemsLoop readOne closer start c (others.map fun result => (item :: result.1, result.2))

/-- The runs of the loop that reads all forms of a text, from a place to what they come to. -/
inductive FormsLoop (limit : Nat) : Cursor → Transcript → Prop where
  | ended {c : Cursor} : c.skipBlanks.rest = [] → FormsLoop limit c ⟨[], none⟩
  | failed {c : Cursor} {e : ReadError} : c.skipBlanks.rest ≠ [] →
      readForm limit c.skipBlanks = .error e →
      FormsLoop limit c ⟨[], some ⟨e.fault, e.offset.or (some c.skipBlanks.offset)⟩⟩
  | form {c next : Cursor} {form : Form} {others : Transcript} : c.skipBlanks.rest ≠ [] →
      readForm limit c.skipBlanks = .ok (form, next) → FormsLoop limit next others →
      FormsLoop limit c ⟨form :: others.forms, others.error⟩

/-- Behind what is read, fewer characters are left. -/
theorem Progresses.length_lt {α : Type} {c next : Cursor} {a : α}
    {read : Except ReadError (α × Cursor)} (h : Progresses c read) (hread : read = .ok (a, next)) :
    next.rest.length < c.rest.length := by
  obtain ⟨n, hpos, hn, rfl⟩ := h.next a next hread
  rw [c.length_rest_advance]
  omega

theorem length_skipBlanks_le (c : Cursor) : c.skipBlanks.rest.length ≤ c.rest.length :=
  (blanks_skipBlanks c).length_le

/-- When every item leaves fewer characters, the loop over the items of a bracket ends, with the
answer that a bound above the number of characters gives. -/
theorem itemsLoop_readItems {readOne : Cursor → Reading} (h : ∀ c, Progresses c (readOne c))
    (closer : Char) (start : Cursor) {bound : Nat} {c : Cursor} (hbound : c.rest.length < bound) :
    ItemsLoop readOne closer start c (readItems readOne closer start bound c) := by
  induction bound generalizing c with
  | zero => exact absurd hbound (Nat.not_lt_zero _)
  | succ bound ih =>
      rw [readItems]
      dsimp only
      split
      case h_1 hrest => exact .ended hrest
      case h_2 ch rest hrest =>
        split
        case isTrue hclose =>
          rw [hclose] at hrest
          exact .closed hrest
        case isFalse hclose =>
          cases hread : readOne c.skipBlanks with
          | error e => exact .failed hrest hclose hread
          | ok result =>
              obtain ⟨item, next⟩ := result
              have hskipped := length_skipBlanks_le c
              have hshorter := (h c.skipBlanks).length_lt hread
              -- the item has taken at least one character, so the bound still suffices
              have hothers : ItemsLoop readOne closer start next
                  (readItems readOne closer start bound next) := ih (by omega)
              have hall := ItemsLoop.item hrest hclose hread hothers
              rw [ok_bind]
              cases hrun : readItems readOne closer start bound next with
              | error e =>
                  rw [hrun] at hall
                  exact hall
              | ok result =>
                  rw [hrun] at hall
                  exact hall

/-- The loop over the forms of a text ends, with the answer that a bound above the number of
characters gives. -/
theorem formsLoop_readForms {limit bound : Nat} {c : Cursor} (hbound : c.rest.length < bound) :
    FormsLoop limit c (readForms limit bound c) := by
  induction bound generalizing c with
  | zero => exact absurd hbound (Nat.not_lt_zero _)
  | succ bound ih =>
      rw [readForms]
      dsimp only
      split
      case h_1 hrest => exact .ended hrest
      case h_2 ch rest hrest =>
        have hne : c.skipBlanks.rest ≠ [] := by
          rw [hrest]
          exact List.cons_ne_nil _ _
        cases hread : readForm limit c.skipBlanks with
        | error e => exact .failed hne hread
        | ok result =>
            obtain ⟨form, next⟩ := result
            have hskipped := length_skipBlanks_le c
            -- the form has taken at least one character, so the bound still suffices
            have hshorter := (progresses_readForm limit c.skipBlanks).length_lt hread
            exact .form hne hread (ih (by omega))

/-! ## Reading at an offset -/

/-- Every read makes progress and stays inside the text. Started at an offset of a text, it fails for
nesting exactly if the text is nested as deep as the limit from there on. Otherwise it ends behind its
start and not behind the end, or it reports an error between its start and the end. What is skipped
before it goes up to the least offset at which the text ends or holds a character that is no blank and
belongs to no comment. Hence the loop over the items of a bracket ends wherever it is started, and so
does the loop over the forms of a text, and they come to what is computed with a bound on the items. -/
theorem read_makes_progress (text : String) {start : Nat} (hstart : start ≤ text.toList.length) :
    (∀ limit,
      (Nested limit (text.toList.drop start) →
        readForm limit (.ofText text.toList start) = .error ⟨.nestedTooDeep, none⟩) ∧
      (¬ Nested limit (text.toList.drop start) →
        (∃ form next, readForm limit (.ofText text.toList start) =
            .ok (form, .ofText text.toList next) ∧ start < next ∧ next ≤ text.toList.length) ∨
        ∃ fault o, readForm limit (.ofText text.toList start) = .error ⟨fault, some o⟩ ∧
          start ≤ o ∧ o ≤ text.toList.length)) ∧
    (∃ o, (Cursor.ofText text.toList start).skipBlanks = .ofText text.toList o ∧
      o ≤ text.toList.length ∧ IsLeast {o | start ≤ o ∧ BlanksEnd text.toList start o} o) ∧
    (∀ limit closer opening bound, text.toList.length < start + bound →
      ItemsLoop (readForm limit) closer opening (.ofText text.toList start)
        (readItems (readForm limit) closer opening bound (.ofText text.toList start))) ∧
    FormsLoop nestingLimit (.ofText text.toList 0) (parseAll text) := by
  have hlength : (Cursor.ofText text.toList start).rest.length = text.toList.length - start :=
    List.length_drop
  refine ⟨?_, isLeast_skipBlanks hstart, ?_, ?_⟩
  · intro limit
    refine ⟨fun h => h.readForm_eq start, fun h => ?_⟩
    have hprogress := progresses_readForm limit (.ofText text.toList start)
    cases hread : readForm limit (.ofText text.toList start) with
    | ok result =>
        obtain ⟨form, next⟩ := result
        obtain ⟨n, hpos, hn, rfl⟩ := hprogress.next form next hread
        rw [hlength] at hn
        rw [Cursor.advance_ofText]
        exact .inl ⟨form, start + n, rfl, by omega, by omega⟩
    | error e =>
        -- only nesting is reported without a place
        have hfault : e.fault ≠ .nestedTooDeep := fun hfault => h (nested_of_readForm hread hfault)
        obtain ⟨n, hn, hoffset⟩ := hprogress.place e hread hfault
        rw [hlength] at hn
        obtain ⟨fault, offset⟩ := e
        cases hoffset
        exact .inr ⟨fault, start + n, rfl, by omega, by omega⟩
  · intro limit closer opening bound hbound
    exact itemsLoop_readItems (progresses_readForm limit) closer opening (by omega)
  · exact formsLoop_readForms (Nat.lt_succ_self _)

/-- A bracket that is not closed, with a comment inside, behind a form. -/
theorem read_makes_progress_in_open_bracket :
    (∃ fault o, readForm nestingLimit (.ofText "a (b ; c\n".toList 2) = .error ⟨fault, some o⟩ ∧
      2 ≤ o ∧ o ≤ 9) ∧
    IsLeast {o | 4 ≤ o ∧ BlanksEnd "a (b ; c\n".toList 4 o} 9 := by
  have hflat : ¬ Nested nestingLimit ("a (b ; c\n".toList.drop 2) := by
    intro h
    exact absurd h.le_length (by decide)
  have hfront : 2 ≤ "a (b ; c\n".toList.length := by decide
  have hinside : 4 ≤ "a (b ; c\n".toList.length := by decide
  obtain ⟨hreads, -⟩ := read_makes_progress _ hfront
  obtain ⟨-, ⟨o, hskip, -, hleast⟩, -⟩ := read_makes_progress _ hinside
  constructor
  · rcases (hreads nestingLimit).2 hflat with ⟨form, next, hread, -⟩ | herror
    · cases hread
    · exact herror
  · have ho : 9 = o := congrArg Cursor.offset hskip
    rwa [ho]

end DispatchLisp
