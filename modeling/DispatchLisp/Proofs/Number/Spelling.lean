import DispatchLisp.Proofs.Text.Characters
import DispatchLisp.Proofs.Text.Longest
import DispatchLisp.Reader.Cursor

/-!
# Proofs.Number.Spelling — numbers as they may be spelled

A number may be spelled in many ways: with digits of any script, with commas, and with an exponent
in several forms. The scanner takes the longest spelling at the front of a text
(`takesLongest_number`), and reads from it the number that is spelled
(`NumberSpelling.numberForm?_text`).
-/

namespace DispatchLisp

/-! ## Spellings -/

/-- An exponent as it may be spelled: a mark, perhaps a sign, and digits. -/
structure ExponentSpelling where
  mark : Char
  sign : Option Bool
  digits : List Char

namespace ExponentSpelling

/-- The text of a sign, of which minus is `true`. -/
def signText : Option Bool → List Char
  | none => []
  | some true => ['-']
  | some false => ['+']

def text (e : ExponentSpelling) : List Char :=
  e.mark :: (signText e.sign ++ e.digits)

structure Valid (e : ExponentSpelling) : Prop where
  mark : Decimal.isExponentMark e.mark = true
  nonempty : e.digits ≠ []
  digits : ∀ c ∈ e.digits, isDecimal c = true

def value (e : ExponentSpelling) : Int :=
  if e.sign = some true then -decimalNumber e.digits else decimalNumber e.digits

end ExponentSpelling

/-- A number as it may be spelled: perhaps a minus sign, digits with commas among them, perhaps a
point with digits behind it, and perhaps an exponent. -/
structure NumberSpelling where
  negative : Bool
  whole : List Char
  fraction : Option (List Char)
  exponent : Option ExponentSpelling

namespace NumberSpelling

def signText (n : NumberSpelling) : List Char :=
  if n.negative then ['-'] else []

def fractionText (n : NumberSpelling) : List Char :=
  n.fraction.elim [] ('.' :: ·)

def exponentText (n : NumberSpelling) : List Char :=
  n.exponent.elim [] ExponentSpelling.text

def text (n : NumberSpelling) : List Char :=
  n.signText ++ (n.whole ++ (n.fractionText ++ n.exponentText))

structure Valid (n : NumberSpelling) : Prop where
  nonempty : n.whole ≠ []
  whole : ∀ c ∈ n.whole, isDecimal c = true ∨ c = ','
  fraction : ∀ digits, n.fraction = some digits → ∀ c ∈ digits, isDecimal c = true
  exponent : ∀ e, n.exponent = some e → e.Valid

/-- Whether a number has a fraction or an exponent. -/
def fractional (n : NumberSpelling) : Bool :=
  n.fraction.isSome || n.exponent.isSome

/-- The digits before the point, without commas. -/
def wholeDigits (n : NumberSpelling) : List Char :=
  n.whole.filter (· != ',')

/-- The digits behind the point. -/
def fractionDigits (n : NumberSpelling) : List Char :=
  n.fraction.getD []

/-- The decimal that is spelled. -/
def decimal (n : NumberSpelling) : Decimal :=
  ⟨n.negative, decimalNumber (n.wholeDigits ++ n.fractionDigits),
    (n.exponent.elim 0 ExponentSpelling.value) - n.fractionDigits.length⟩

/-- The form that is spelled: a double if there is a fraction or an exponent, unless it is too
large for one, and a whole number otherwise. -/
def form? (n : NumberSpelling) : Option Form :=
  if n.fractional then
    if n.decimal.toBinary64.isInfinite then none else some (.float n.decimal.toBinary64)
  else if n.negative then some (.int (-decimalNumber n.wholeDigits))
  else some (.int (decimalNumber n.wholeDigits))

end NumberSpelling

/-- Whether a text spells a number. -/
def IsNumber (lexeme : List Char) : Prop :=
  ∃ n : NumberSpelling, n.Valid ∧ n.text = lexeme


/-! ## Scanning an exponent -/

theorem isDecimal_not_mark {c : Char} (h : isDecimal c = true) :
    c ∉ [',', '.', 'e', 'E', '-', '+'] := by
  intro hc
  have hmarks : [',', '.', 'e', 'E', '-', '+'].any isDecimal = false := by decide
  exact List.any_eq_false.mp hmarks c hc h

/-- There is no sign to be taken off in front of a digit. -/
theorem take_sign_of_isDecimal {c : Char} (h : isDecimal c = true) (rest : List Char) :
    takeMinus (c :: rest) = (false, c :: rest) ∧
      Decimal.takeSign (c :: rest) = (false, c :: rest) := by
  have hno := isDecimal_not_mark h
  simp only [List.mem_cons, not_or] at hno
  simp [takeMinus, Decimal.takeSign, hno]

theorem Decimal.isExponentMark_iff {c : Char} : isExponentMark c = true ↔ c = 'e' ∨ c = 'E' := by
  simp [isExponentMark]

namespace ExponentSpelling

variable {e : ExponentSpelling}

/-- The sign that the scanner finds in front of digits. -/
theorem scannedSign_eq (sign : Option Bool) {digits : List Char} (hne : digits ≠ [])
    (hdigits : ∀ c ∈ digits, isDecimal c = true) (rest : List Char) :
    ((signText sign ++ (digits ++ rest)).take 1).filter (fun c => c == '-' || c == '+') =
      signText sign := by
  rcases sign with _ | _ | _
  · cases digits with
    | nil => exact absurd rfl hne
    | cons c digits =>
        have hmark := isDecimal_not_mark (hdigits c List.mem_cons_self)
        simp only [List.mem_cons, not_or] at hmark
        simp [signText, hmark]
  · rfl
  · rfl

theorem signText_no_comma (sign : Option Bool) : ∀ c ∈ signText sign, (c != ',') = true := by
  rcases sign with _ | _ | _ <;> simp [signText]

theorem exists_scannedSign (text : List Char) : ∃ sign : Option Bool,
    (text.take 1).filter (fun c => c == '-' || c == '+') = signText sign ∧
      text = signText sign ++ text.drop (signText sign).length := by
  rcases text with _ | ⟨c, rest⟩
  · exact ⟨none, rfl, rfl⟩
  · by_cases hminus : c = '-'
    · subst hminus
      exact ⟨some true, rfl, rfl⟩
    · by_cases hplus : c = '+'
      · subst hplus
        exact ⟨some false, rfl, rfl⟩
      · exact ⟨none, by simp [signText, hminus, hplus], rfl⟩

/-- The scanner takes nothing or an exponent. -/
theorem exponentLexeme_sound (text : List Char) :
    ∃ e : Option ExponentSpelling, (∀ s, e = some s → s.Valid) ∧
      exponentLexeme text = e.elim [] ExponentSpelling.text ∧ exponentLexeme text <+: text := by
  have hnone : ∀ rest : List Char, exponentLexeme rest = [] →
      ∃ e : Option ExponentSpelling, (∀ s, e = some s → s.Valid) ∧
        exponentLexeme rest = e.elim [] ExponentSpelling.text ∧ exponentLexeme rest <+: rest := by
    intro rest hrest
    refine ⟨none, nofun, hrest, ?_⟩
    rw [hrest]
    exact List.nil_prefix
  rcases text with _ | ⟨mark, rest⟩
  · exact hnone _ rfl
  · by_cases hmark : Decimal.isExponentMark mark = true
    · obtain ⟨sign, hsign, hrest⟩ := exists_scannedSign rest
      have hlexeme : exponentLexeme (mark :: rest) =
          if ((rest.drop (signText sign).length).takeWhile isDecimal).isEmpty then []
          else mark :: signText sign ++ (rest.drop (signText sign).length).takeWhile isDecimal := by
        simp only [exponentLexeme, hmark, if_true, hsign]
      -- a mark without digits behind it is not taken
      by_cases hempty : ((rest.drop (signText sign).length).takeWhile isDecimal).isEmpty = true
      · exact hnone _ (by rw [hlexeme, if_pos hempty])
      · rw [if_neg hempty] at hlexeme
        refine ⟨some ⟨mark, sign, (rest.drop (signText sign).length).takeWhile isDecimal⟩, ?_,
          hlexeme, ?_⟩
        · rintro s hs
          cases hs
          exact ⟨hmark, by simpa using hempty, fun c hc => List.mem_takeWhile_imp hc⟩
        · rw [hlexeme, List.cons_append, List.cons_prefix_cons]
          refine ⟨rfl, ?_⟩
          conv_rhs => rw [hrest]
          exact (List.prefix_append_right_inj _).mpr (List.takeWhile_prefix _)
    · exact hnone _ (by simp [exponentLexeme, hmark])

/-- The scanner takes an exponent that is there, or a longer one. -/
theorem Valid.length_le_exponentLexeme (h : e.Valid) (rest : List Char) :
    e.text.length ≤ (exponentLexeme (e.text ++ rest)).length := by
  have hsign := scannedSign_eq e.sign h.nonempty h.digits rest
  have hlength : e.digits.length ≤ ((e.digits ++ rest).takeWhile isDecimal).length :=
    length_le_takeWhile (List.prefix_append _ _) h.digits
  have hne : ((e.digits ++ rest).takeWhile isDecimal).isEmpty = false := by
    have hpos := List.length_pos_iff.mpr h.nonempty
    rw [List.isEmpty_eq_false_iff, ← List.length_pos_iff]
    omega
  rw [text, List.cons_append, List.append_assoc]
  simp only [exponentLexeme, h.mark, if_true, hsign, List.drop_left, hne, Bool.false_eq_true,
    if_false, List.length_cons, List.length_append]
  omega

/-- No character of an exponent ends a token. -/
theorem Valid.not_endsToken (h : e.Valid) : ∀ c ∈ e.text, endsToken c = false := by
  intro c hc
  simp only [text, List.mem_cons, List.mem_append] at hc
  rcases hc with rfl | hc | hc
  · rcases Decimal.isExponentMark_iff.mp h.mark with hmark | hmark
    · rw [hmark]
      decide
    · rw [hmark]
      decide
  · unfold signText at hc
    split at hc
    · cases hc
    · rw [List.mem_singleton.mp hc]
      decide
    · rw [List.mem_singleton.mp hc]
      decide
  · exact endsToken_of_isDecimal (h.digits c hc)

theorem Valid.exponentValue?_text (h : e.Valid) :
    Decimal.exponentValue? e.text = some e.value := by
  have hempty : e.digits.isEmpty = false := List.isEmpty_eq_false_iff.mpr h.nonempty
  have hall : e.digits.all isDecimal = true := List.all_eq_true.mpr h.digits
  have hsign : Decimal.takeSign (signText e.sign ++ e.digits) =
      (decide (e.sign = some true), e.digits) := by
    rcases e.sign with _ | _ | _
    · cases hdigits : e.digits with
      | nil => exact absurd hdigits h.nonempty
      | cons c digits =>
          have hdigit := h.digits c (hdigits ▸ List.mem_cons_self)
          exact (take_sign_of_isDecimal hdigit digits).2
    · rfl
    · rfl
  simp only [text, Decimal.exponentValue?, h.mark, if_true, hsign, hempty, hall, Bool.not_true,
    Bool.or_self, Bool.false_eq_true, if_false, decide_eq_true_eq, value]

end ExponentSpelling

/-! ## Scanning a number -/

theorem ExponentSpelling.Valid.stops {e : ExponentSpelling} (h : e.Valid) (rest : List Char) :
    Stops isNumberChar (e.text ++ rest) := by
  show isNumberChar e.mark = false
  rcases Decimal.isExponentMark_iff.mp h.mark with hmark | hmark
  · rw [hmark]
    decide
  · rw [hmark]
    decide

/-- An exponent does not start with a point. -/
theorem ExponentSpelling.Valid.append_ne_point {e : ExponentSpelling} (h : e.Valid)
    (rest tail : List Char) : e.text ++ rest ≠ '.' :: tail := by
  intro heq
  have hpoint : e.mark = '.' := (List.cons.inj heq).1
  have hmark := h.mark
  rw [hpoint] at hmark
  cases hmark

theorem Stops.isDecimal {rest : List Char} (h : Stops isNumberChar rest) :
    Stops isDecimal rest := by
  cases rest with
  | nil => trivial
  | cons c rest => exact (Bool.or_eq_false_iff.mp h).1

/-- What the scanner takes behind the whole part of a number. -/
def scanTail : List Char → Bool × List Char
  | '.' :: rest =>
    (true, '.' :: rest.takeWhile isDecimal ++ exponentLexeme (rest.dropWhile isDecimal))
  | rest => (!(exponentLexeme rest).isEmpty, exponentLexeme rest)

theorem scanTail_of_ne_point {rest : List Char} (h : ∀ tail, rest ≠ '.' :: tail) :
    scanTail rest = (!(exponentLexeme rest).isEmpty, exponentLexeme rest) := by
  unfold scanTail
  split
  case h_1 tail => exact absurd rfl (h tail)
  case h_2 => rfl

theorem drop_takeWhile_length (p : Char → Bool) (text : List Char) :
    text.drop (text.takeWhile p).length = text.dropWhile p := by
  have hsplit : (text.takeWhile p ++ text.dropWhile p).drop (text.takeWhile p).length =
      text.dropWhile p := List.drop_left
  rwa [List.takeWhile_append_dropWhile] at hsplit

/-- The scanner takes a minus sign, the whole part and what belongs to the number behind it. -/
theorem numberLexeme?_eq (negative : Bool) {body : List Char}
    (hbody : negative = false → body.head? ≠ some '-') :
    numberLexeme? ((if negative then ['-'] else []) ++ body) =
      if (body.takeWhile isNumberChar).isEmpty then none
      else some ((scanTail (body.dropWhile isNumberChar)).1, (if negative then ['-'] else []) ++
        (body.takeWhile isNumberChar ++ (scanTail (body.dropWhile isNumberChar)).2)) := by
  have hsign : (((if negative then ['-'] else []) ++ body).take 1).filter (· == '-') =
      if negative then ['-'] else [] := by
    cases negative with
    | true => rfl
    | false =>
        cases body with
        | nil => rfl
        | cons c body =>
            have hc : c ≠ '-' := fun hc => hbody rfl (congrArg some hc)
            simp [hc]
  have hdrop : ((if negative then ['-'] else []) ++ body).drop
      ((if negative then ['-'] else []) ++ body.takeWhile isNumberChar).length =
        body.dropWhile isNumberChar := by
    rw [List.length_append, ← List.drop_drop, List.drop_left, drop_takeWhile_length]
  simp only [numberLexeme?, hsign, List.drop_left, hdrop]
  congr 1
  unfold scanTail
  split
  case h_1 rest hpoint =>
    simp only [hpoint, drop_takeWhile_length, List.append_assoc]
  case h_2 =>
    simp only [List.append_assoc]

/-- The tail of a number that the scanner takes is a fraction, an exponent, both or neither. -/
theorem scanTail_sound (rest : List Char) :
    ∃ (fraction : Option (List Char)) (exponent : Option ExponentSpelling),
      (∀ digits, fraction = some digits → ∀ c ∈ digits, isDecimal c = true) ∧
      (∀ e, exponent = some e → e.Valid) ∧
      scanTail rest = (fraction.isSome || exponent.isSome,
        fraction.elim [] ('.' :: ·) ++ exponent.elim [] ExponentSpelling.text) ∧
      (scanTail rest).2 <+: rest := by
  by_cases hpoint : ∃ tail, rest = '.' :: tail
  · obtain ⟨tail, rfl⟩ := hpoint
    obtain ⟨e, hvalid, hlexeme, hfront⟩ :=
      ExponentSpelling.exponentLexeme_sound (tail.dropWhile isDecimal)
    refine ⟨some (tail.takeWhile isDecimal), e, ?_, hvalid, ?_, ?_⟩
    · rintro digits hdigits c hc
      cases hdigits
      exact List.mem_takeWhile_imp hc
    · simp [scanTail, hlexeme]
    · show '.' :: tail.takeWhile isDecimal ++ _ <+: '.' :: tail
      rw [List.cons_append, List.cons_prefix_cons]
      refine ⟨rfl, ?_⟩
      conv_rhs => rw [← List.takeWhile_append_dropWhile (p := isDecimal) (l := tail)]
      exact (List.prefix_append_right_inj _).mpr hfront
  · have hne : ∀ tail, rest ≠ '.' :: tail := fun tail h => hpoint ⟨tail, h⟩
    obtain ⟨e, hvalid, hlexeme, hfront⟩ := ExponentSpelling.exponentLexeme_sound rest
    rw [scanTail_of_ne_point hne]
    refine ⟨none, e, nofun, hvalid, ?_, hfront⟩
    cases e with
    | none => simp [hlexeme]
    | some e => simp [hlexeme, ExponentSpelling.text]

namespace NumberSpelling

variable {n : NumberSpelling}

theorem Valid.isNumberChar (h : n.Valid) : ∀ c ∈ n.whole, isNumberChar c = true := by
  intro c hc
  rcases h.whole c hc with hdigit | hcomma
  · rw [DispatchLisp.isNumberChar, hdigit, Bool.true_or]
  · rw [hcomma]
    decide

theorem Valid.text_ne_nil (h : n.Valid) : n.text ≠ [] := by
  intro hnil
  have hrest := (List.append_eq_nil_iff.mp hnil).2
  exact h.nonempty (List.append_eq_nil_iff.mp hrest).1

theorem Valid.first_ne_minus (h : n.Valid) (rest : List Char) :
    (n.whole ++ rest).head? ≠ some '-' := by
  intro hminus
  cases hwhole : n.whole with
  | nil => exact absurd hwhole h.nonempty
  | cons c others =>
      rw [hwhole, List.cons_append, List.head?_cons, Option.some.injEq] at hminus
      have hchar := h.isNumberChar c (hwhole ▸ List.mem_cons_self)
      rw [hminus] at hchar
      exact absurd hchar (by decide)

/-- What the scanner takes is spelled, and stands at the front of the text. -/
theorem numberLexeme?_sound {text lexeme : List Char} {fractional : Bool}
    (h : numberLexeme? text = some (fractional, lexeme)) :
    ∃ n : NumberSpelling, n.Valid ∧ n.text = lexeme ∧ n.fractional = fractional ∧
      lexeme <+: text := by
  -- the sign, the whole part and the tail are taken one behind the other
  obtain ⟨negative, body, rfl, hbody⟩ : ∃ (negative : Bool) (body : List Char),
      text = (if negative then ['-'] else []) ++ body ∧
        (negative = false → body.head? ≠ some '-') := by
    by_cases hminus : text.head? = some '-'
    · cases text with
      | nil => cases hminus
      | cons c rest =>
          cases hminus
          exact ⟨true, rest, rfl, nofun⟩
    · exact ⟨false, text, rfl, fun _ => hminus⟩
  obtain ⟨fraction, exponent, hfraction, hexponent, htail, hfront⟩ :=
    scanTail_sound (body.dropWhile DispatchLisp.isNumberChar)
  rw [numberLexeme?_eq negative hbody] at h
  split at h
  case isTrue => cases h
  case isFalse hwhole =>
    rw [htail] at h hfront
    cases h
    refine ⟨⟨negative, body.takeWhile DispatchLisp.isNumberChar, fraction, exponent⟩,
      ⟨by simpa using hwhole, ?_, hfraction, hexponent⟩, rfl, rfl, ?_⟩
    · intro c hc
      have hchar : DispatchLisp.isNumberChar c = true := List.mem_takeWhile_imp hc
      simpa [DispatchLisp.isNumberChar] using hchar
    · refine (List.prefix_append_right_inj _).mpr ?_
      conv_rhs => rw [← List.takeWhile_append_dropWhile (p := DispatchLisp.isNumberChar) (l := body)]
      exact (List.prefix_append_right_inj _).mpr hfront

theorem texts_of_not_fractional (h : ¬ n.fractional = true) :
    n.fractionText = [] ∧ n.exponentText = [] := by
  unfold fractional at h
  simp only [Bool.or_eq_true, not_or, Bool.not_eq_true, Option.isSome_eq_false_iff,
    Option.isNone_iff_eq_none] at h
  simp [fractionText, exponentText, h]

/-- A point or an exponent does not continue the whole part. -/
theorem Valid.stops_after_whole (h : n.Valid) (hfractional : n.fractional = true)
    (rest : List Char) : Stops DispatchLisp.isNumberChar (n.fractionText ++ (n.exponentText ++ rest)) := by
  unfold fractional at hfractional
  unfold fractionText exponentText
  cases hfraction : n.fraction with
  | some digits => exact (by decide : DispatchLisp.isNumberChar '.' = false)
  | none =>
      cases hexponent : n.exponent with
      | some e => exact (h.exponent e hexponent).stops rest
      | none => simp [hfraction, hexponent] at hfractional

/-- The scanner takes a fraction and an exponent that are there, or more. -/
theorem Valid.length_le_scanTail (h : n.Valid) (rest : List Char) :
    (n.fractionText ++ n.exponentText).length ≤
      (scanTail (n.fractionText ++ (n.exponentText ++ rest))).2.length := by
  unfold fractionText exponentText
  cases hfraction : n.fraction with
  | none =>
      cases hexponent : n.exponent with
      | none => exact Nat.zero_le _
      | some e =>
          have hvalid := h.exponent e hexponent
          have hpoint : ∀ tail, e.text ++ rest ≠ '.' :: tail := hvalid.append_ne_point rest
          show (e.text).length ≤ (scanTail (e.text ++ rest)).2.length
          rw [scanTail_of_ne_point hpoint]
          exact hvalid.length_le_exponentLexeme rest
  | some digits =>
      have hdigits := h.fraction digits hfraction
      cases hexponent : n.exponent with
      | none =>
          have := length_le_takeWhile (List.prefix_append digits rest) hdigits
          simp only [Option.elim_some, Option.elim_none, List.append_nil, List.nil_append,
            List.cons_append, scanTail, List.length_cons, List.length_append]
          omega
      | some e =>
          -- the exponent ends the digits of the fraction
          have hvalid := h.exponent e hexponent
          have hstop : Stops isDecimal (e.text ++ rest) := (hvalid.stops rest).isDecimal
          have := hvalid.length_le_exponentLexeme rest
          simp only [Option.elim_some, List.cons_append, scanTail,
            hstop.takeWhile_append hdigits, hstop.dropWhile_append hdigits, List.length_cons,
            List.length_append]
          omega

/-- A spelled number at the front of a text is taken by the scanner, or a longer one is. -/
theorem Valid.numberLexeme?_complete (h : n.Valid) (rest : List Char) :
    ∃ fractional lexeme, numberLexeme? (n.text ++ rest) = some (fractional, lexeme) ∧
      n.text.length ≤ lexeme.length := by
  have hbody : n.negative = false →
      (n.whole ++ (n.fractionText ++ (n.exponentText ++ rest))).head? ≠ some '-' :=
    fun _ => h.first_ne_minus _
  have htext : n.text ++ rest = (if n.negative then ['-'] else []) ++
      (n.whole ++ (n.fractionText ++ (n.exponentText ++ rest))) := by
    simp [text, signText]
  have hlength : n.whole.length ≤
      ((n.whole ++ (n.fractionText ++ (n.exponentText ++ rest))).takeWhile
        DispatchLisp.isNumberChar).length :=
    length_le_takeWhile (List.prefix_append _ _) h.isNumberChar
  have hwhole : ((n.whole ++ (n.fractionText ++ (n.exponentText ++ rest))).takeWhile
      DispatchLisp.isNumberChar).isEmpty = false := by
    have hpos := List.length_pos_iff.mpr h.nonempty
    rw [List.isEmpty_eq_false_iff, ← List.length_pos_iff]
    omega
  have hscan := numberLexeme?_eq n.negative hbody
  rw [← htext, hwhole] at hscan
  refine ⟨_, _, hscan, ?_⟩
  by_cases hfractional : n.fractional = true
  · -- the whole part ends where the fraction or the exponent begins, so the rest is compared
    have hstop := h.stops_after_whole hfractional rest
    have htail := h.length_le_scanTail rest
    rw [hstop.takeWhile_append h.isNumberChar, hstop.dropWhile_append h.isNumberChar]
    simp only [text, signText, List.length_append] at htail ⊢
    omega
  · -- there is nothing but the whole part, and the scanner takes at least that
    have hnone := texts_of_not_fractional hfractional
    rw [hnone.1, hnone.2] at hlength ⊢
    simp only [text, signText, hnone, List.length_append, List.length_nil] at hlength ⊢
    omega

end NumberSpelling

/-- No character of a number ends a token. -/
theorem IsNumber.not_endsToken {lexeme : List Char} (h : IsNumber lexeme) :
    ∀ c ∈ lexeme, endsToken c = false := by
  obtain ⟨n, hvalid, rfl⟩ := h
  intro c hc
  simp only [NumberSpelling.text, List.mem_append] at hc
  rcases hc with hc | hc | hc | hc
  · unfold NumberSpelling.signText at hc
    split at hc
    · rw [List.mem_singleton.mp hc]
      decide
    · cases hc
  · rcases hvalid.whole c hc with hdigit | rfl
    · exact endsToken_of_isDecimal hdigit
    · decide
  · unfold NumberSpelling.fractionText at hc
    cases hfraction : n.fraction with
    | none =>
        rw [hfraction] at hc
        cases hc
    | some digits =>
        rw [hfraction, Option.elim_some, List.mem_cons] at hc
        rcases hc with rfl | hdigit
        · decide
        · exact endsToken_of_isDecimal (hvalid.fraction digits hfraction c hdigit)
  · unfold NumberSpelling.exponentText at hc
    cases hexponent : n.exponent with
    | none =>
        rw [hexponent] at hc
        cases hc
    | some e =>
        rw [hexponent] at hc
        exact (hvalid.exponent e hexponent).not_endsToken c hc

/-- The scanner takes the longest number. -/
theorem takesLongest_number :
    TakesLongest IsNumber fun text => (numberLexeme? text).map Prod.snd where
  sound h := by
    obtain ⟨⟨fractional, lexeme⟩, hscan, rfl⟩ := Option.map_eq_some_iff.mp h
    obtain ⟨n, hvalid, htext, _, hfront⟩ := NumberSpelling.numberLexeme?_sound hscan
    exact ⟨⟨n, hvalid, htext⟩, hfront⟩
  complete hother hfront := by
    obtain ⟨n, hvalid, rfl⟩ := hother
    obtain ⟨rest, rfl⟩ := hfront
    obtain ⟨fractional, lexeme, hscan, hlength⟩ := hvalid.numberLexeme?_complete rest
    exact ⟨lexeme, by rw [hscan]; rfl, hlength⟩

/-! ## The number that is spelled -/

namespace NumberSpelling

variable {n : NumberSpelling}

/-- A point or an exponent mark shows that a number is no whole number. -/
theorem Valid.fractional_eq (h : n.Valid) :
    n.fractional = n.text.any fun c => c == '.' || Decimal.isExponentMark c := by
  have hsign : n.signText.any (fun c => c == '.' || Decimal.isExponentMark c) = false := by
    unfold signText
    split <;> rfl
  -- digits and commas are no marks, so only a fraction or an exponent can show one
  have hwhole : n.whole.any (fun c => c == '.' || Decimal.isExponentMark c) = false := by
    rw [List.any_eq_false]
    intro c hc hmark
    rw [Bool.or_eq_true, beq_iff_eq, Decimal.isExponentMark_iff] at hmark
    rcases h.whole c hc with hdigit | hcomma
    · have hno := isDecimal_not_mark hdigit
      simp only [List.mem_cons, not_or] at hno
      rcases hmark with hpoint | hmark | hmark
      · exact hno.2.1 hpoint
      · exact hno.2.2.1 hmark
      · exact hno.2.2.2.1 hmark
    · rw [hcomma] at hmark
      exact absurd hmark (by decide)
  rw [text, List.any_append, List.any_append, List.any_append, hsign, hwhole, fractional]
  unfold fractionText exponentText
  cases hfraction : n.fraction with
  | some digits => simp
  | none =>
      cases hexponent : n.exponent with
      | some e => simp [ExponentSpelling.text, (h.exponent e hexponent).mark]
      | none => rfl

theorem Valid.isDecimal_wholeDigits (h : n.Valid) : ∀ c ∈ n.wholeDigits, isDecimal c = true := by
  intro c hc
  obtain ⟨hwhole, hcomma⟩ := List.mem_filter.mp hc
  rcases h.whole c hwhole with hdigit | rfl
  · exact hdigit
  · cases hcomma

theorem Valid.isDecimal_fractionDigits (h : n.Valid) :
    ∀ c ∈ n.fractionDigits, isDecimal c = true := by
  unfold fractionDigits
  cases hfraction : n.fraction with
  | none => exact fun c hc => absurd hc List.not_mem_nil
  | some digits => exact h.fraction digits hfraction

/-- Commas stand in the whole part only. -/
theorem Valid.filter_text (h : n.Valid) :
    n.text.filter (· != ',') =
      n.signText ++ (n.wholeDigits ++ (n.fractionText ++ n.exponentText)) := by
  have hdigit : ∀ c, isDecimal c = true → (c != ',') = true := by
    intro c hc
    have hno := isDecimal_not_mark hc
    simp only [List.mem_cons, not_or] at hno
    exact bne_iff_ne.mpr hno.1
  -- the parts are filtered one by one, and only the whole part can lose anything
  have hsign : n.signText.filter (· != ',') = n.signText := by
    unfold signText
    split <;> rfl
  have hfraction : n.fractionText.filter (· != ',') = n.fractionText := by
    have hall := h.isDecimal_fractionDigits
    unfold fractionDigits at hall
    unfold fractionText
    cases hf : n.fraction with
    | none => rfl
    | some digits =>
        rw [hf] at hall
        refine List.filter_eq_self.mpr fun c hc => ?_
        rcases List.mem_cons.mp hc with rfl | hc
        · decide
        · exact hdigit c (hall c hc)
  have hexponent : n.exponentText.filter (· != ',') = n.exponentText := by
    unfold exponentText
    cases he : n.exponent with
    | none => rfl
    | some e =>
        have hvalid := h.exponent e he
        refine List.filter_eq_self.mpr fun c hc => ?_
        simp only [Option.elim_some, ExponentSpelling.text, List.mem_cons, List.mem_append] at hc
        rcases hc with rfl | hc | hc
        · rcases Decimal.isExponentMark_iff.mp hvalid.mark with hmark | hmark
          · rw [hmark]
            decide
          · rw [hmark]
            decide
        · exact ExponentSpelling.signText_no_comma e.sign c hc
        · exact hdigit c (hvalid.digits c hc)
  rw [text, List.filter_append, List.filter_append, List.filter_append, hsign, hfraction, hexponent]
  rfl

/-- The sign of a number is taken off in front of its digits. -/
theorem Valid.take_signText (h : n.Valid) (hne : n.wholeDigits ≠ []) (rest : List Char) :
    takeMinus (n.signText ++ (n.wholeDigits ++ rest)) = (n.negative, n.wholeDigits ++ rest) ∧
      Decimal.takeSign (n.signText ++ (n.wholeDigits ++ rest)) =
        (n.negative, n.wholeDigits ++ rest) := by
  unfold signText
  cases n.negative with
  | true => exact ⟨rfl, rfl⟩
  | false =>
      cases hdigits : n.wholeDigits with
      | nil => exact absurd hdigits hne
      | cons c digits =>
          have hdigit := h.isDecimal_wholeDigits c (hdigits ▸ List.mem_cons_self)
          exact take_sign_of_isDecimal hdigit (digits ++ rest)

/-- A whole number is read as it is spelled. -/
theorem Valid.wholeNumber?_digits (h : n.Valid) (hne : n.wholeDigits ≠ []) :
    wholeNumber? (n.signText ++ n.wholeDigits) =
      some (if n.negative then -(decimalNumber n.wholeDigits : Int)
        else decimalNumber n.wholeDigits) := by
  have hempty : n.wholeDigits.isEmpty = false := List.isEmpty_eq_false_iff.mpr hne
  have hall : n.wholeDigits.all isDecimal = true := List.all_eq_true.mpr h.isDecimal_wholeDigits
  have hsign := (h.take_signText hne []).1
  rw [List.append_nil] at hsign
  simp only [wholeNumber?, hsign, hempty, hall, Bool.not_true, Bool.or_self, Bool.false_eq_true,
    if_false]

theorem Valid.exponentValue?_text (h : n.Valid) :
    Decimal.exponentValue? n.exponentText = some (n.exponent.elim 0 ExponentSpelling.value) := by
  unfold exponentText
  cases hexponent : n.exponent with
  | none => rfl
  | some e => exact (h.exponent e hexponent).exponentValue?_text

/-- What follows the digits of the whole part, or of the fraction, is no digit. -/
theorem Valid.stops_isDecimal (h : n.Valid) :
    Stops isDecimal (n.fractionText ++ n.exponentText) ∧ Stops isDecimal n.exponentText := by
  have hexponent : Stops isDecimal n.exponentText := by
    unfold exponentText
    cases he : n.exponent with
    | none => trivial
    | some e =>
        have := ((h.exponent e he).stops []).isDecimal
        rwa [List.append_nil] at this
  refine ⟨?_, hexponent⟩
  unfold fractionText
  cases n.fraction with
  | none => exact hexponent
  | some digits => exact (by decide : isDecimal '.' = false)

/-- A decimal is read as it is spelled. -/
theorem Valid.ofText?_digits (h : n.Valid) (hne : n.wholeDigits ≠ []) :
    Decimal.ofText? (n.signText ++ (n.wholeDigits ++ (n.fractionText ++ n.exponentText))) =
      some n.decimal := by
  have hempty : n.wholeDigits.isEmpty = false := List.isEmpty_eq_false_iff.mpr hne
  have hsign := (h.take_signText hne (n.fractionText ++ n.exponentText)).2
  obtain ⟨hstop, hexponent⟩ := h.stops_isDecimal
  have htake := hstop.takeWhile_append h.isDecimal_wholeDigits
  have hdrop := hstop.dropWhile_append h.isDecimal_wholeDigits
  have hvalue := h.exponentValue?_text
  have hdigits := h.isDecimal_fractionDigits
  simp only [Decimal.ofText?, hsign, htake, hdrop, hempty, Bool.false_and, Bool.false_eq_true,
    if_false]
  unfold fractionDigits at hdigits
  unfold fractionText decimal fractionDigits
  cases hfraction : n.fraction with
  | some digits =>
      rw [hfraction, Option.getD_some] at hdigits
      simp only [Option.elim_some, List.cons_append, Option.getD_some,
        hexponent.takeWhile_append hdigits, hexponent.dropWhile_append hdigits, hvalue,
        Option.map_some]
  | none =>
      simp only [Option.elim_none, List.nil_append, Option.getD_none]
      split
      -- an exponent does not start with a point
      case h_1 tail hpoint =>
        unfold exponentText at hpoint
        cases he : n.exponent with
        | none => simp [he] at hpoint
        | some e =>
            rw [he] at hpoint
            exact absurd ((List.append_nil _).trans hpoint)
              ((h.exponent e he).append_ne_point [] tail)
      case h_2 => rw [hvalue, Option.map_some]

/-- The form of the text of a number is the one that is spelled. -/
theorem Valid.numberForm?_text (h : n.Valid) (hne : n.wholeDigits ≠ []) :
    numberForm? n.fractional n.text = n.form? := by
  rw [numberForm?, h.filter_text, form?]
  by_cases hfractional : n.fractional = true
  · rw [if_pos hfractional, if_pos hfractional, h.ofText?_digits hne, Option.bind_some]
  · have hnone := texts_of_not_fractional hfractional
    rw [if_neg hfractional, if_neg hfractional, hnone.1, hnone.2, List.append_nil, List.append_nil,
      h.wholeNumber?_digits hne]
    cases n.negative <;> rfl

end NumberSpelling

end DispatchLisp
