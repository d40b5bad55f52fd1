/-!
# Number.Magnitude — sizes of double precision numbers

The size of every finite double precision number is a whole number of *units* of `2 ^ -1074`,
the smallest positive one. A natural number of units fits the format when it has at most 53
significant bits and lies below the overflow threshold, so sizes are natural numbers and all
arithmetic on them is exact until one rounding at the end.

Main statement: `stepAt_nearestUnits_dvd`, a rounded quotient has at most 53 significant bits.
-/

namespace DispatchLisp

/-- How many units make up one. -/
def unitsPerOne : Nat := Nat.pow 2 1074

/-- The least number of units that is too large for the format. -/
def overflowUnits : Nat := Nat.pow 2 2098

/-- The step between neighbouring sizes that have the binary order of magnitude of `n`. -/
def stepAt (n : Nat) : Nat := Nat.pow 2 (n.log2 - 52)

/-- Whether a number of units is the size of a finite double precision number. -/
def Fits (n : Nat) : Prop :=
  n < overflowUnits ∧ stepAt n ∣ n

instance (n : Nat) : Decidable (Fits n) := by
  unfold Fits
  infer_instance

/-- The size of a finite double precision number, in units. -/
structure Magnitude where
  units : Nat
  fits : Fits units
deriving DecidableEq

/-- The whole number nearest to a quotient; of two equally near ones the even one. -/
def roundHalfEven (num den : Nat) : Nat :=
  let q := num / den
  let r := num % den
  if den < 2 * r then q + 1
  else if 2 * r = den then q + q % 2
  else q

/-- The number of units with at most 53 significant bits that is nearest to a quotient; of two
equally near ones the one whose last bit is zero. -/
def nearestUnits (num den : Nat) : Nat :=
  let step := stepAt (num / den)
  roundHalfEven num (den * step) * step

/-! ## Rounding stays inside the format -/

theorem roundHalfEven_le (num den : Nat) : roundHalfEven num den ≤ num / den + 1 := by
  unfold roundHalfEven
  simp only
  split
  · omega
  · split
    · have := Nat.mod_lt (num / den) (show 0 < 2 by decide)
      omega
    · omega

/-- A quotient has at most 53 bits before the point when measured in its own step. -/
theorem quotient_lt_of_stepAt (num den : Nat) :
    num / (den * stepAt (num / den)) < Nat.pow 2 53 := by
  rw [← Nat.div_div_eq_div_mul]
  have hpos : 0 < stepAt (num / den) := Nat.pow_pos (by decide)
  rw [Nat.div_lt_iff_lt_mul hpos]
  rcases Nat.eq_zero_or_pos (num / den) with h0 | h0
  · rw [h0]
    exact Nat.mul_pos (Nat.pow_pos (by decide)) (Nat.pow_pos (by decide))
  · have hlt : num / den < 2 ^ ((num / den).log2 + 1) := Nat.lt_log2_self
    refine Nat.lt_of_lt_of_le hlt ?_
    show 2 ^ ((num / den).log2 + 1) ≤ 2 ^ 53 * 2 ^ ((num / den).log2 - 52)
    rw [← Nat.pow_add]
    exact Nat.pow_le_pow_right (by decide) (by omega)

/-- The log of a product with a power of two, for a factor of at most 53 bits. -/
theorem stepAt_mul_dvd (k s : Nat) (hk : k ≤ Nat.pow 2 53) :
    stepAt (k * Nat.pow 2 s) ∣ k * Nat.pow 2 s := by
  show 2 ^ ((k * 2 ^ s).log2 - 52) ∣ k * 2 ^ s
  rcases Nat.lt_or_ge k (2 ^ 53) with hlt | hge
  · refine Nat.dvd_trans (Nat.pow_dvd_pow 2 ?_) (Nat.dvd_mul_left (2 ^ s) k)
    rcases Nat.eq_zero_or_pos k with h0 | h0
    · simp [h0]
    · have hne : k * 2 ^ s ≠ 0 := Nat.ne_of_gt (Nat.mul_pos h0 (Nat.pow_pos (by decide)))
      have hup : k * 2 ^ s < 2 ^ (53 + s) := by
        rw [Nat.pow_add]
        exact Nat.mul_lt_mul_of_pos_right hlt (Nat.pow_pos (by decide))
      have : (k * 2 ^ s).log2 < 53 + s := (Nat.log2_lt hne).2 hup
      omega
  · have hk' : k = 2 ^ 53 := Nat.le_antisymm hk hge
    rw [hk', ← Nat.pow_add, Nat.log2_two_pow]
    exact Nat.pow_dvd_pow 2 (by omega)

theorem stepAt_nearestUnits_dvd (num den : Nat) :
    stepAt (nearestUnits num den) ∣ nearestUnits num den := by
  unfold nearestUnits
  refine stepAt_mul_dvd _ ((num / den).log2 - 52) ?_
  have h := roundHalfEven_le num (den * stepAt (num / den))
  have := quotient_lt_of_stepAt num den
  omega

/-- The size nearest to a quotient of units, unless it is too large for the format. -/
def Magnitude.nearest? (num den : Nat) : Option Magnitude :=
  if h : nearestUnits num den < overflowUnits then
    some ⟨nearestUnits num den, h, stepAt_nearestUnits_dvd num den⟩
  else none

theorem overflowUnits_pos : 0 < overflowUnits := by
  unfold overflowUnits
  generalize 2098 = n
  exact Nat.pow_pos (by decide)

/-- The size of zero. -/
def Magnitude.zero : Magnitude :=
  ⟨0, overflowUnits_pos, Nat.dvd_zero _⟩

end DispatchLisp
