import DispatchLisp.Proofs.Number.DecimalValue
import DispatchLisp.Proofs.Number.Spelling
import Mathlib.Data.List.TakeWhile

/-!
# Proofs.Number.Notation — numbers as they are written

A written number is a sign, digits, perhaps a point and more digits, and perhaps an exponent.
Every size is written in this shape (`Magnitude.render_written`), and a written number is one of the
spellings that the reader knows (`WrittenNumber.text_spelling`), with the same decimal
(`WrittenNumber.WellFormed.decimal_spelling`).
-/

namespace DispatchLisp

/-- A number as it is written, without its sign. -/
structure WrittenNumber where
  whole : List Char
  fraction : Option (List Char)
  exponent : Option Int

/-- The text of a sign. -/
def signText (negative : Bool) : List Char :=
  if negative then ['-'] else []

namespace WrittenNumber

/-- The digits behind the point. -/
def fractionDigits (w : WrittenNumber) : List Char :=
  w.fraction.getD []

/-- The point and what follows it. -/
def fractionText (w : WrittenNumber) : List Char :=
  w.fraction.elim [] ('.' :: ·)

/-- The exponent with its mark. -/
def exponentText (w : WrittenNumber) : List Char :=
  w.exponent.elim [] numberLayout.exponent

/-- The text of a number without its sign. -/
def text (w : WrittenNumber) : List Char :=
  w.whole ++ (w.fractionText ++ w.exponentText)

/-- Whether the number has a point or an exponent. -/
def fractional (w : WrittenNumber) : Bool :=
  w.fraction.isSome || w.exponent.isSome

/-- The decimal that is written. -/
def decimal (w : WrittenNumber) (negative : Bool) : Decimal :=
  ⟨negative, Nat.ofDigitChars 10 (w.whole ++ w.fractionDigits) 0,
    w.exponent.getD 0 - w.fractionDigits.length⟩

/-- At least one digit before the point, and only digits around it. -/
structure WellFormed (w : WrittenNumber) : Prop where
  nonempty : w.whole ≠ []
  whole : AllDigits w.whole
  fraction : AllDigits w.fractionDigits

end WrittenNumber

/-! ## Exponents -/

/-- The digits of an exponent, padded to the least width. -/
def exponentDigits (n : Int) : List Char :=
  List.replicate (numberLayout.exponentWidth - (Nat.toDigits 10 n.natAbs).length) '0' ++
    Nat.toDigits 10 n.natAbs

/-- The sign of an exponent, which is always written. -/
def exponentSign (n : Int) : Char :=
  if n < 0 then '-' else '+'

theorem exponent_eq (n : Int) :
    numberLayout.exponent n = 'e' :: exponentSign n :: exponentDigits n :=
  rfl

theorem allDigits_exponentDigits (n : Int) : AllDigits (exponentDigits n) :=
  (allDigits_replicate_zero _).append (allDigits_toDigits _)

theorem exponentDigits_ne_nil (n : Int) : exponentDigits n ≠ [] := by
  unfold exponentDigits
  intro h
  exact Nat.toDigits_ne_nil (List.append_eq_nil_iff.mp h).2

theorem decimalNumber_exponentDigits (n : Int) : decimalNumber (exponentDigits n) = n.natAbs := by
  rw [(allDigits_exponentDigits n).decimalNumber_eq, exponentDigits, Nat.ofDigitChars_append,
    Nat.ofDigitChars_replicate_zero, Nat.mul_zero, Nat.ofDigitChars_ten_toDigits]

namespace ExponentSpelling

/-- The spelling in which an exponent is written. -/
def written (n : Int) : ExponentSpelling :=
  ⟨'e', some (decide (n < 0)), exponentDigits n⟩

theorem text_written (n : Int) : (written n).text = numberLayout.exponent n := by
  rw [exponent_eq, exponentSign]
  by_cases hneg : n < 0
  · simp [text, written, signText, hneg]
  · simp [text, written, signText, hneg]

theorem valid_written (n : Int) : (written n).Valid where
  mark := rfl
  nonempty := exponentDigits_ne_nil n
  digits := (allDigits_exponentDigits n).isDecimal

theorem value_written (n : Int) : (written n).value = n := by
  simp only [value, written, decimalNumber_exponentDigits, Option.some.injEq, decide_eq_true_eq]
  split
  · omega
  · omega

end ExponentSpelling

/-! ## The spelling of a written number -/

namespace WrittenNumber

variable {w : WrittenNumber}

/-- The spelling in which a number is written. -/
def spelling (w : WrittenNumber) (negative : Bool) : NumberSpelling :=
  ⟨negative, w.whole, w.fraction, w.exponent.map ExponentSpelling.written⟩

theorem text_spelling (w : WrittenNumber) (negative : Bool) :
    (w.spelling negative).text = signText negative ++ w.text := by
  have hexponent : (w.spelling negative).exponentText = w.exponentText := by
    unfold NumberSpelling.exponentText exponentText spelling
    cases w.exponent with
    | none => rfl
    | some n => exact ExponentSpelling.text_written n
  rw [NumberSpelling.text, hexponent]
  rfl

theorem WellFormed.valid_spelling (h : w.WellFormed) (negative : Bool) :
    (w.spelling negative).Valid where
  nonempty := h.nonempty
  whole := fun c hc => .inl (h.whole.isDecimal c hc)
  fraction := by
    intro digits hdigits
    have hfraction := h.fraction.isDecimal
    rwa [fractionDigits, show w.fraction = some digits from hdigits] at hfraction
  exponent := by
    intro e he
    obtain ⟨n, _, rfl⟩ := Option.map_eq_some_iff.mp he
    exact ExponentSpelling.valid_written n

theorem fractional_spelling (w : WrittenNumber) (negative : Bool) :
    (w.spelling negative).fractional = w.fractional := by
  rw [NumberSpelling.fractional, spelling, Option.isSome_map, fractional]

theorem WellFormed.wholeDigits_spelling (h : w.WellFormed) (negative : Bool) :
    (w.spelling negative).wholeDigits = w.whole := by
  apply List.filter_eq_self.mpr
  intro c hc
  rw [bne_iff_ne]
  rintro rfl
  cases h.whole _ hc

/-- A written number is spelled as the decimal that is written. -/
theorem WellFormed.decimal_spelling (h : w.WellFormed) (negative : Bool) :
    (w.spelling negative).decimal = w.decimal negative := by
  have hdigits := (h.whole.append h.fraction).decimalNumber_eq
  have hexponent : (w.spelling negative).exponent.elim 0 ExponentSpelling.value =
      w.exponent.getD 0 := by
    unfold spelling
    cases w.exponent with
    | none => rfl
    | some n => exact ExponentSpelling.value_written n
  rw [NumberSpelling.decimal, hexponent, h.wholeDigits_spelling, decimal, ← hdigits]
  rfl

theorem WellFormed.exists_first (h : w.WellFormed) :
    ∃ c rest, w.whole = c :: rest ∧ isDecimal c = true := by
  cases hwhole : w.whole with
  | nil => exact absurd hwhole h.nonempty
  | cons c rest => exact ⟨c, rest, rfl, h.whole.isDecimal c (hwhole ▸ List.mem_cons_self)⟩

/-- A written decimal that reads as a finite double is spelled as the double. -/
theorem WellFormed.form?_spelling (h : w.WellFormed) (hfractional : w.fractional = true)
    {negative : Bool} {size : Magnitude}
    (hread : (w.decimal negative).toBinary64 = .finite negative size) :
    (w.spelling negative).form? = some (.float (.finite negative size)) := by
  rw [NumberSpelling.form?, fractional_spelling, if_pos hfractional, h.decimal_spelling, hread]
  rfl

end WrittenNumber

/-! ## The layout of a size -/

/-- The written number that digits are laid out as, when the first one stands for a power of
ten. -/
def writtenNumber (digits : List Char) (order : Int) : WrittenNumber :=
  if numberLayout.positionalFrom ≤ order && order < numberLayout.positionalBelow then
    if order < 0 then
      ⟨['0'], some (List.replicate (-order - 1).toNat '0' ++ digits), none⟩
    else if digits.length ≤ (order + 1).toNat then
      ⟨digits ++ List.replicate ((order + 1).toNat - digits.length) '0', some ['0'], none⟩
    else ⟨digits.take (order + 1).toNat, some (digits.drop (order + 1).toNat), none⟩
  else if digits.length ≤ 1 then ⟨digits, none, some order⟩
  else ⟨digits.take 1, some (digits.drop 1), some order⟩

theorem render_eq_text (digits : List Char) (order : Int) :
    numberLayout.render digits order = (writtenNumber digits order).text := by
  unfold NumberLayout.render writtenNumber
  split
  · split
    · simp [WrittenNumber.text, WrittenNumber.fractionText, WrittenNumber.exponentText]
    · simp only
      split <;>
        simp [WrittenNumber.text, WrittenNumber.fractionText, WrittenNumber.exponentText]
  · split
    case h_1 first second rest =>
      simp [WrittenNumber.text, WrittenNumber.fractionText, WrittenNumber.exponentText]
    case h_2 hshort =>
      have hlength : digits.length ≤ 1 := by
        rcases digits with _ | ⟨first, _ | ⟨second, rest⟩⟩
        · exact Nat.zero_le 1
        · exact Nat.le_refl 1
        · exact absurd rfl (hshort first second rest)
      simp [hlength, WrittenNumber.text, WrittenNumber.fractionText, WrittenNumber.exponentText]

theorem AllDigits.take {text : List Char} (h : AllDigits text) (n : Nat) :
    AllDigits (text.take n) := by
  intro c hc
  exact h c (List.mem_of_mem_take hc)

theorem AllDigits.drop {text : List Char} (h : AllDigits text) (n : Nat) :
    AllDigits (text.drop n) := by
  intro c hc
  exact h c (List.mem_of_mem_drop hc)

theorem wellFormed_writtenNumber {digits : List Char} (h : AllDigits digits) (hne : digits ≠ [])
    (order : Int) : (writtenNumber digits order).WellFormed := by
  have hzero : AllDigits ['0'] := by
    intro c hc
    rw [List.mem_singleton.mp hc]
    rfl
  unfold writtenNumber
  split
  · split
    · exact ⟨List.cons_ne_nil _ _, hzero, (allDigits_replicate_zero _).append h⟩
    · split
      · exact ⟨List.append_ne_nil_of_left_ne_nil hne _, h.append (allDigits_replicate_zero _), hzero⟩
      · refine ⟨?_, h.take _, h.drop _⟩
        simp only [ne_eq, List.take_eq_nil_iff, not_or]
        exact ⟨by omega, hne⟩
  · split
    · exact ⟨hne, h, fun _ hc => absurd hc List.not_mem_nil⟩
    · refine ⟨?_, h.take _, h.drop _⟩
      simp [hne]

theorem fractional_writtenNumber (digits : List Char) (order : Int) :
    (writtenNumber digits order).fractional = true := by
  unfold writtenNumber WrittenNumber.fractional
  repeat' split
  all_goals rfl

/-- Trailing zeros among the digits count into the exponent. -/
theorem Decimal.value_eq {d : Decimal} {n k : Nat} {e : ℤ} (hdigits : d.digits = 10 ^ k * n)
    (hexponent : d.exponent + k = e) : d.value = n * (10 : ℚ) ^ e := by
  rw [Decimal.value, hdigits, ← hexponent, zpow_add₀ (by norm_num), zpow_natCast]
  push_cast
  ring

theorem value_writtenNumber {digits : List Char} (hne : digits ≠ []) (order : Int)
    (negative : Bool) : ((writtenNumber digits order).decimal negative).value =
      Nat.ofDigitChars 10 digits 0 * (10 : ℚ) ^ (order + 1 - digits.length) := by
  unfold writtenNumber
  split
  · split
    case isTrue horder =>
      -- the zeros before the digits stand for nothing
      apply Decimal.value_eq (k := 0)
      · simp [WrittenNumber.decimal, WrittenNumber.fractionDigits, Nat.ofDigitChars_cons,
          Nat.ofDigitChars_append]
      · simp [WrittenNumber.decimal, WrittenNumber.fractionDigits]
        omega
    case isFalse horder =>
      split
      case isTrue hshort =>
        -- zeros fill up to the point, and one more stands behind it
        apply Decimal.value_eq (k := (order + 1).toNat - digits.length + 1)
        · simp [WrittenNumber.decimal, WrittenNumber.fractionDigits, Nat.ofDigitChars_append,
            Nat.ofDigitChars_cons, Nat.pow_succ']
          ring
        · simp [WrittenNumber.decimal, WrittenNumber.fractionDigits]
          omega
      case isFalse hlong =>
        -- the point only splits the digits
        apply Decimal.value_eq (k := 0)
        · simp [WrittenNumber.decimal, WrittenNumber.fractionDigits]
        · simp [WrittenNumber.decimal, WrittenNumber.fractionDigits]
          omega
  · split
    case isTrue hshort =>
      have hlength : digits.length = 1 := Nat.le_antisymm hshort (List.length_pos_iff.mpr hne)
      apply Decimal.value_eq (k := 0)
      · simp [WrittenNumber.decimal, WrittenNumber.fractionDigits]
      · simp [WrittenNumber.decimal, WrittenNumber.fractionDigits, hlength]
    case isFalse hlong =>
      apply Decimal.value_eq (k := 0)
      · simp [WrittenNumber.decimal, WrittenNumber.fractionDigits, -List.drop_one]
      · simp [WrittenNumber.decimal, WrittenNumber.fractionDigits]
        omega

theorem exists_trailing_zeros (digits : List Char) :
    ∃ k, digits = dropTrailingZeros digits ++ List.replicate k '0' := by
  have hzeros : digits.reverse.takeWhile (· == '0') =
      List.replicate (digits.reverse.takeWhile (· == '0')).length '0' := by
    apply List.eq_replicate_of_mem
    intro c hc
    simpa using List.mem_takeWhile_imp hc
  refine ⟨(digits.reverse.takeWhile (· == '0')).length, ?_⟩
  rw [← List.reverse_inj, dropTrailingZeros, List.reverse_append, List.reverse_replicate,
    List.reverse_reverse, ← hzeros, List.takeWhile_append_dropWhile]

/-- The digits of a decimal without the zeros at their end, laid out, read as the decimal. -/
theorem exists_written_decimal {d : Decimal} {size : Magnitude} (hne : d.digits ≠ 0)
    (hread : d.toBinary64 = .finite false size) :
    ∃ w : WrittenNumber, w.WellFormed ∧ w.fractional = true ∧
      numberLayout.render (dropTrailingZeros (Nat.toDigits 10 d.digits))
        (d.exponent + (Nat.toDigits 10 d.digits).length - 1) = w.text ∧
      ∀ negative, (w.decimal negative).toBinary64 = .finite negative size := by
  rcases exists_trailing_zeros (Nat.toDigits 10 d.digits) with ⟨k, hk⟩
  have hall : AllDigits (Nat.toDigits 10 d.digits) := allDigits_toDigits _
  have hnumber := Nat.ofDigitChars_ten_toDigits (n := d.digits)
  -- from here on the digits are any digits that stand for the number
  generalize Nat.toDigits 10 d.digits = digits at hk hall hnumber ⊢
  have hlength : digits.length = (dropTrailingZeros digits).length + k := by
    conv_lhs => rw [hk, List.length_append, List.length_replicate]
  have hkept : AllDigits (dropTrailingZeros digits) :=
    fun c hc => hall c (hk ▸ List.mem_append_left _ hc)
  have hdigits : d.digits = 10 ^ k * Nat.ofDigitChars 10 (dropTrailingZeros digits) 0 := by
    rw [← hnumber]
    conv_lhs => rw [hk, Nat.ofDigitChars_append, Nat.ofDigitChars_replicate_zero]
  generalize dropTrailingZeros digits = kept at hkept hlength hdigits ⊢
  -- digits that are all zeros would stand for zero
  have hkeptNe : kept ≠ [] := by
    rintro rfl
    exact hne (hdigits.trans (Nat.mul_zero _))
  refine ⟨writtenNumber kept (d.exponent + digits.length - 1), wellFormed_writtenNumber hkept hkeptNe _,
    fractional_writtenNumber _ _, render_eq_text _ _, ?_⟩
  intro negative
  -- the zeros that were dropped have gone into the power of ten
  have hvalue : ((writtenNumber kept (d.exponent + digits.length - 1)).decimal negative).value =
      d.value := by
    rw [value_writtenNumber hkeptNe, Decimal.value_eq hdigits rfl, hlength]
    congr 2
    push_cast
    ring
  exact Decimal.toBinary64_of_value_eq hvalue hread

/-- A size is written as a number that reads as the size, with either sign. -/
theorem Magnitude.render_written (size : Magnitude) :
    ∃ w : WrittenNumber, w.WellFormed ∧ w.fractional = true ∧ size.render = w.text ∧
      ∀ negative, (w.decimal negative).toBinary64 = .finite negative size := by
  by_cases hzero : size.units = 0
  · refine ⟨⟨['0'], some ['0'], none⟩, ?_, rfl, ?_, ?_⟩
    · have hdigit : AllDigits ['0'] := allDigits_replicate_zero 1
      exact ⟨List.cons_ne_nil _ _, hdigit, hdigit⟩
    · rw [Magnitude.render, if_pos hzero]
      rfl
    · intro negative
      rw [Decimal.toBinary64_of_digits_eq_zero rfl, Binary64.zero]
      cases size
      simp_all [Magnitude.zero, WrittenNumber.decimal]
  · have hne := Magnitude.digits_shortest_ne_zero hzero
    have hread := size.toBinary64_shortest
    rw [Magnitude.render, if_neg hzero]
    generalize size.shortest = d at hne hread ⊢
    exact exists_written_decimal hne hread

/-! ## The texts of numbers -/

/-- A finite double is written as a number that reads as the double. -/
theorem Binary64.render_written (negative : Bool) (size : Magnitude) :
    ∃ w : WrittenNumber, w.WellFormed ∧ w.fractional = true ∧
      (Binary64.finite negative size).render.toList = signText negative ++ w.text ∧
      (w.decimal negative).toBinary64 = .finite negative size := by
  rcases size.render_written with ⟨w, hw, hfractional, hrender, hread⟩
  refine ⟨w, hw, hfractional, ?_, hread negative⟩
  rw [← hrender]
  cases negative with
  | true => exact String.toList_ofList
  | false => exact String.toList_ofList

/-- A whole number as it is written. -/
def writtenInt (n : Int) : WrittenNumber :=
  ⟨Nat.toDigits 10 n.natAbs, none, none⟩

theorem wellFormed_writtenInt (n : Int) : (writtenInt n).WellFormed :=
  ⟨Nat.toDigits_ne_nil, allDigits_toDigits _, fun _ hc => absurd hc List.not_mem_nil⟩

theorem writtenInt_text (n : Int) : (writtenInt n).text = Nat.toDigits 10 n.natAbs := by
  simp [writtenInt, WrittenNumber.text, WrittenNumber.fractionText, WrittenNumber.exponentText]

theorem toList_toString_int (n : Int) :
    (toString n).toList = signText (decide (n < 0)) ++ (writtenInt n).text := by
  rw [Int.toString_eq_repr, Int.repr_eq_if, writtenInt_text]
  by_cases hneg : n < 0
  · have habs : (-n).toNat = n.natAbs := by omega
    rw [if_neg (by omega), String.toList_append, Nat.toList_repr, habs]
    simp [hneg, signText]
  · have habs : n.toNat = n.natAbs := by omega
    rw [if_pos (by omega), Nat.toList_repr, habs]
    simp [hneg, signText]

/-- A whole number is spelled as it is written. -/
theorem form?_writtenInt (n : Int) :
    ((writtenInt n).spelling (decide (n < 0))).form? = some (.int n) := by
  have hwhole : decimalNumber ((writtenInt n).spelling (decide (n < 0))).wholeDigits = n.natAbs := by
    rw [(wellFormed_writtenInt n).wholeDigits_spelling, writtenInt,
      (allDigits_toDigits _).decimalNumber_eq, Nat.ofDigitChars_ten_toDigits]
  have hfractional : ¬ ((writtenInt n).spelling (decide (n < 0))).fractional = true := nofun
  have hsign : ((writtenInt n).spelling (decide (n < 0))).negative = decide (n < 0) := rfl
  rw [NumberSpelling.form?, if_neg hfractional, hwhole, hsign]
  by_cases hneg : n < 0
  · have habs : -(n.natAbs : Int) = n := by omega
    rw [if_pos (decide_eq_true hneg), habs]
  · have habs : (n.natAbs : Int) = n := by omega
    rw [if_neg (by simpa using hneg), habs]

end DispatchLisp
