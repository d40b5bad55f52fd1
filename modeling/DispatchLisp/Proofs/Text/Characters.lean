import DispatchLisp.Reader.Token
import Mathlib.Data.List.Basic

/-!
# Proofs.Text.Characters — how the character classes lie to each other

The reader tells tokens apart by character classes. Here stands what it relies on: no digit ends
a token, and an ASCII digit is a decimal digit with the value that its place among the ten
says.
-/

namespace DispatchLisp

/-! ## Scanning -/

/-- Whether scanning characters of one class stops at a text, at once. -/
def Stops (p : Char → Bool) : List Char → Prop
  | [] => True
  | c :: _ => p c = false

theorem Stops.takeWhile_eq_nil {p : Char → Bool} {rest : List Char} (h : Stops p rest) :
    rest.takeWhile p = [] := by
  cases rest with
  | nil => rfl
  | cons c rest => exact List.takeWhile_cons_of_neg (ne_true_of_eq_false h)

theorem Stops.dropWhile_eq_self {p : Char → Bool} {rest : List Char} (h : Stops p rest) :
    rest.dropWhile p = rest := by
  cases rest with
  | nil => rfl
  | cons c rest => exact List.dropWhile_cons_of_neg (ne_true_of_eq_false h)

theorem Stops.takeWhile_append {p : Char → Bool} {lexeme rest : List Char} (h : Stops p rest)
    (hlexeme : ∀ c ∈ lexeme, p c = true) : (lexeme ++ rest).takeWhile p = lexeme := by
  rw [List.takeWhile_append_of_pos hlexeme, h.takeWhile_eq_nil, List.append_nil]

theorem Stops.dropWhile_append {p : Char → Bool} {lexeme rest : List Char} (h : Stops p rest)
    (hlexeme : ∀ c ∈ lexeme, p c = true) : (lexeme ++ rest).dropWhile p = rest := by
  rw [List.dropWhile_append_of_pos hlexeme, h.dropWhile_eq_self]

/-! ## ASCII digits -/

/-- Whether every character is an ASCII digit. -/
def AllDigits (text : List Char) : Prop :=
  ∀ c ∈ text, c.isDigit = true

theorem allDigits_toDigits (n : Nat) : AllDigits (Nat.toDigits 10 n) := by
  intro c hc
  exact Nat.isDigit_of_mem_toDigits (by decide) (by decide) hc

theorem allDigits_replicate_zero (n : Nat) : AllDigits (List.replicate n '0') := by
  intro c hc
  rw [List.eq_of_mem_replicate hc]
  rfl

theorem AllDigits.append {a b : List Char} (ha : AllDigits a) (hb : AllDigits b) :
    AllDigits (a ++ b) := by
  intro c hc
  rcases List.mem_append.mp hc with hc | hc
  · exact ha c hc
  · exact hb c hc

theorem decimalValue?_of_isDigit {c : Char} (h : c.isDigit = true) :
    decimalValue? c = some (c.toNat - '0'.toNat) := by
  have hrange : 48 ≤ c.toNat ∧ c.toNat ≤ 57 := Char.isDigit_iff_toNat.mp h
  -- the ASCII digits are the first of the runs of ten
  have hfirst : decimalZeros.find? (fun start => decide (start ≤ c.toNat) &&
      decide (c.toNat < start + 10)) = some 48 := by
    apply List.find?_cons_of_pos
    simp only [Bool.and_eq_true, decide_eq_true_eq]
    omega
  rw [decimalValue?, hfirst]
  rfl

theorem isDecimal_of_isDigit {c : Char} (h : c.isDigit = true) : isDecimal c = true := by
  rw [isDecimal, decimalValue?_of_isDigit h]
  rfl

theorem AllDigits.isDecimal {text : List Char} (h : AllDigits text) :
    ∀ c ∈ text, isDecimal c = true := by
  intro c hc
  exact isDecimal_of_isDigit (h c hc)

theorem AllDigits.decimalNumber_eq {text : List Char} (h : AllDigits text) :
    decimalNumber text = Nat.ofDigitChars 10 text 0 := by
  rw [decimalNumber, Nat.ofDigitChars_eq_foldl]
  apply List.foldl_ext
  intro n c hc
  rw [decimalValue?_of_isDigit (h c hc)]
  rfl

/-! ## Ranges -/

/-- Whether two sets of ranges have no character in common. -/
def CharRanges.apart (a b : CharRanges) : Bool :=
  a.all fun r => b.all fun q => decide (r.2 < q.1) || decide (q.2 < r.1)

theorem CharRanges.not_contains_of_apart {a b : CharRanges} (h : a.apart b = true) {c : Char}
    (hc : a.contains c = true) : b.contains c = false := by
  simp only [CharRanges.apart, List.all_eq_true, Bool.or_eq_true, decide_eq_true_eq] at h
  simp only [CharRanges.contains, List.any_eq_true, Bool.and_eq_true, decide_eq_true_eq] at hc
  -- a character in a range of each would put the two ranges over each other
  rcases hc with ⟨r, hr, hlow, hhigh⟩
  simp only [CharRanges.contains, List.any_eq_false, Bool.and_eq_true, decide_eq_true_eq]
  intro q hq hin
  have hrq := h r hr q hq
  omega

/-- The decimal digits as ranges of ten. -/
def decimalRanges : CharRanges :=
  decimalZeros.map fun start => (start, start + 9)

theorem isDecimal_eq_contains (c : Char) : isDecimal c = decimalRanges.contains c := by
  have hin : ∀ start : Nat, (decide (start ≤ c.toNat) && decide (c.toNat < start + 10)) =
      (decide (start ≤ c.toNat) && decide (c.toNat ≤ start + 9)) := by
    intro start
    have : c.toNat < start + 10 ↔ c.toNat ≤ start + 9 := by omega
    simp only [this]
  simp only [isDecimal, decimalValue?, decimalRanges, CharRanges.contains, Option.isSome_map,
    List.any_map, Function.comp_def, hin]
  rw [Bool.eq_iff_iff, List.find?_isSome, List.any_eq_true]

/-! ## Characters that end a token -/

/-- Whether a character ends every token but a string. -/
def endsToken (c : Char) : Bool :=
  isBlank c || isBracket c || c == ';'

/-- What may stand behind a token: nothing, or a character that ends it. -/
def TokenEnd : List Char → Prop
  | [] => True
  | c :: _ => endsToken c = true

theorem endsNumber_of_tokenEnd {rest : List Char} (h : TokenEnd rest) : endsNumber rest = true := by
  cases rest with
  | nil => rfl
  | cons c rest => exact h

/-- The brackets and the semicolon are the only characters that end a token without being
blank. -/
theorem endsToken_cases {c : Char} (h : endsToken c = true) :
    isBlank c = true ∨ c ∈ ['(', '[', '\x7b', ')', ']', '\x7d', ';'] := by
  simp only [endsToken, isBracket, isCloser, Bracket.ofOpener?, Bool.or_eq_true, beq_iff_eq] at h
  simp only [List.mem_cons, List.not_mem_nil, or_false]
  rcases h with (hblank | hopener | hcloser) | hsemicolon
  · exact .inl hblank
  · split at hopener
    · simp_all
    · split at hopener
      · simp_all
      · split at hopener <;> simp_all
  · rcases hcloser with (h | h) | h <;> simp [h]
  · simp [hsemicolon]

theorem isDigit_of_endsToken {c : Char} (h : endsToken c = true) : isDigit c = false := by
  rcases endsToken_cases h with hblank | hmark
  -- blanks and digits are ranges that are compared, without going through their characters
  · have hdecimal : decimalRanges.contains c = false :=
      CharRanges.not_contains_of_apart (a := blankRanges) (by decide) hblank
    have hother : otherDigitRanges.contains c = false :=
      CharRanges.not_contains_of_apart (a := blankRanges) (by decide) hblank
    simp [isDigit, isDecimal_eq_contains, hdecimal, hother]
  · have hmarks : ['(', '[', '\x7b', ')', ']', '\x7d', ';'].any isDigit = false := by decide
    exact Bool.eq_false_iff.mpr (List.any_eq_false.mp hmarks c hmark)

theorem isDecimal_of_endsToken {c : Char} (h : endsToken c = true) : isDecimal c = false := by
  have := isDigit_of_endsToken h
  simp only [isDigit, Bool.or_eq_false_iff] at this
  exact this.1

theorem endsToken_of_isDecimal {c : Char} (h : isDecimal c = true) : endsToken c = false := by
  apply Bool.eq_false_iff.mpr
  intro hend
  have hno := isDecimal_of_endsToken hend
  rw [h] at hno
  cases hno

theorem isNameChar_of_endsToken {c : Char} (h : endsToken c = true) : isNameChar c = false := by
  simp only [endsToken, Bool.or_eq_true] at h
  simp only [isNameChar, Bool.not_eq_false', Bool.or_eq_true]
  rcases h with (hblank | hbracket) | hsemicolon
  · exact .inl (.inl (.inl hblank))
  · exact .inl (.inl (.inr hbracket))
  · exact .inr hsemicolon

/-- Every scanner stops at the end of a token. -/
theorem TokenEnd.stops {p : Char → Bool} {rest : List Char} (h : TokenEnd rest)
    (hp : ∀ c, endsToken c = true → p c = false) : Stops p rest := by
  cases rest with
  | nil => trivial
  | cons c rest => exact hp c h

end DispatchLisp
