import DispatchLisp.Number.Shortest
import DispatchLisp.Proofs.Number.Rounding
import Mathlib.Algebra.Order.Field.Rat
import Mathlib.Algebra.Order.Field.Power
import Mathlib.Tactic.LinearCombination
import Mathlib.Tactic.NormNum
import Mathlib.Tactic.Positivity
import Mathlib.Tactic.Ring

/-!
# Proofs.Number.DecimalValue — a decimal stands for what its value rounds to

A decimal is read by one of several computations, chosen by its exponent. They agree: whatever
digits and exponent spell a value, the result is that value in units, rounded once
(`Decimal.toBinary64_eq_ofUnits`). So decimals of one value read alike, and the shortest decimal
of a size reads as the size.
-/

namespace DispatchLisp

/-! ## Units

The powers behind the format are too large to be computed in a proof, so they are compared by
their exponents, which stay variables. -/

theorem exists_unitsPerOne_eq : ∃ n, n = 1074 ∧ unitsPerOne = 2 ^ n := by
  unfold unitsPerOne
  -- a literal here would be computed as soon as anything looks at the power
  generalize 1074 = n
  exact ⟨n, rfl, Nat.pow_eq⟩

theorem exists_overflowUnits_eq : ∃ n, n = 2098 ∧ overflowUnits = 2 ^ n := by
  unfold overflowUnits
  generalize 2098 = n
  exact ⟨n, rfl, Nat.pow_eq⟩

theorem two_pow_le_ten_pow {a b : Nat} (h : a ≤ 3 * b) : 2 ^ a ≤ 10 ^ b :=
  calc 2 ^ a ≤ 2 ^ (3 * b) := Nat.pow_le_pow_right (by decide) h
    _ = (2 ^ 3) ^ b := Nat.pow_mul 2 3 b
    _ ≤ 10 ^ b := Nat.pow_le_pow_left (by decide) b

/-- Ten to the four hundred and first power lies above the range of the format. -/
theorem overflowUnits_le_ten_pow {b : Nat} (hb : 401 ≤ b) :
    overflowUnits ≤ 10 ^ b * unitsPerOne := by
  rcases exists_unitsPerOne_eq with ⟨n, hn, hunits⟩
  rcases exists_overflowUnits_eq with ⟨k, hk, hoverflow⟩
  rw [hunits, hoverflow]
  calc 2 ^ k = 2 ^ (k - n) * 2 ^ n := by rw [← Nat.pow_add, Nat.sub_add_cancel (by omega)]
    _ ≤ 10 ^ b * 2 ^ n := Nat.mul_le_mul_right _ (two_pow_le_ten_pow (by omega))

/-- Its inverse lies below half a unit. -/
theorem two_mul_unitsPerOne_lt_ten_pow {b : Nat} (hb : 401 ≤ b) :
    2 * unitsPerOne < 10 ^ b := by
  rcases exists_unitsPerOne_eq with ⟨n, hn, hunits⟩
  rw [hunits]
  calc 2 * 2 ^ n = 2 ^ (n + 1) := Nat.pow_succ'.symm
    _ < 2 ^ (n + 2) := Nat.pow_lt_pow_right (by decide) (by omega)
    _ ≤ 10 ^ b := two_pow_le_ten_pow (by omega)

/-! ## The result of rounding -/

theorem Magnitude.nearest?_eq_some {num den : Nat} {size : Magnitude}
    (h : nearestUnits num den = size.units) : Magnitude.nearest? num den = some size := by
  have hlt : nearestUnits num den < overflowUnits := h ▸ size.fits.1
  unfold Magnitude.nearest?
  rw [dif_pos hlt]
  cases size
  simp_all

theorem Magnitude.nearest?_eq_none {num den : Nat} (h : overflowUnits ≤ nearestUnits num den) :
    Magnitude.nearest? num den = none :=
  dif_neg (Nat.not_lt.mpr h)

theorem Magnitude.nearest?_congr {num den num' den' : Nat}
    (h : nearestUnits num den = nearestUnits num' den') :
    Magnitude.nearest? num den = Magnitude.nearest? num' den' := by
  -- a size carries proofs that mention the rounded quotient, so it cannot be rewritten inside
  by_cases hlt : nearestUnits num' den' < overflowUnits
  · have hsome : Magnitude.nearest? num' den' =
        some ⟨nearestUnits num' den', hlt, stepAt_nearestUnits_dvd num' den'⟩ := dif_pos hlt
    rw [hsome]
    exact Magnitude.nearest?_eq_some h
  · rw [Magnitude.nearest?_eq_none (Nat.not_lt.mp hlt),
      Magnitude.nearest?_eq_none (h ▸ Nat.not_lt.mp hlt)]

namespace Binary64

theorem ofUnits_congr {num den num' den' : Nat} (negative : Bool) (hden : 0 < den)
    (hden' : 0 < den') (h : num * den' = num' * den) :
    ofUnits negative num den = ofUnits negative num' den' := by
  unfold ofUnits
  rw [Magnitude.nearest?_congr (nearestUnits_congr hden hden' h)]

theorem ofUnits_eq_finite {num den : Nat} {size : Magnitude} (negative : Bool)
    (h : nearestUnits num den = size.units) : ofUnits negative num den = .finite negative size := by
  unfold ofUnits
  rw [Magnitude.nearest?_eq_some h]

theorem ofUnits_eq_zero {num den : Nat} (negative : Bool) (h : 2 * num < den) :
    ofUnits negative num den = zero negative :=
  ofUnits_eq_finite negative (nearestUnits_eq_zero h)

theorem ofUnits_eq_infinite {num den : Nat} (negative : Bool) (h : overflowUnits ≤ num / den) :
    ofUnits negative num den = .infinite negative := by
  have hlarge : overflowUnits ≤ nearestUnits num den := by
    rcases exists_overflowUnits_eq with ⟨k, _, hoverflow⟩
    -- the range ends at a power of two, which rounding cannot fall below
    rw [hoverflow] at h ⊢
    exact le_nearestUnits h
  unfold ofUnits
  rw [Magnitude.nearest?_eq_none hlarge]

/-- Rounding the same quotient gives the same size with either sign. -/
theorem ofUnits_of_eq_finite {num den : Nat} {negative negative' : Bool} {size : Magnitude}
    (h : ofUnits negative num den = .finite negative' size) (other : Bool) :
    ofUnits other num den = .finite other size := by
  unfold ofUnits at h ⊢
  cases hn : Magnitude.nearest? num den with
  | none => simp [hn] at h
  | some found =>
      simp only [hn, finite.injEq] at h
      simp [h.2]

end Binary64

/-! ## Values -/

namespace Decimal

/-- The value of a decimal without its sign. -/
def value (d : Decimal) : ℚ :=
  d.digits * (10 : ℚ) ^ d.exponent

theorem ten_zpow_toNat {e : ℤ} (h : 0 ≤ e) : (10 : ℚ) ^ e = (10 ^ e.toNat : Nat) := by
  obtain ⟨n, rfl⟩ := Int.eq_ofNat_of_zero_le h
  simp

theorem ten_zpow_neg_toNat {e : ℤ} (h : e < 0) :
    (10 : ℚ) ^ e * (10 ^ (-e).toNat : Nat) = 1 := by
  rw [← ten_zpow_toNat (by omega), ← zpow_add₀ (by norm_num)]
  simp

/-- A decimal with a nonnegative exponent, in units. -/
theorem units_of_nonneg {d : Decimal} {num den : Nat} (hden : 0 < den)
    (h : d.value * unitsPerOne = num / den) (he : 0 ≤ d.exponent) :
    num = d.digits * 10 ^ d.exponent.toNat * unitsPerOne * den := by
  have hden' : (den : ℚ) ≠ 0 := by exact_mod_cast hden.ne'
  rw [value, ten_zpow_toNat he, eq_div_iff hden'] at h
  exact_mod_cast h.symm

/-- A decimal with a negative exponent, in units. -/
theorem units_of_neg {d : Decimal} {num den : Nat} (hden : 0 < den)
    (h : d.value * unitsPerOne = num / den) (he : d.exponent < 0) :
    num * 10 ^ (-d.exponent).toNat = d.digits * unitsPerOne * den := by
  have hden' : (den : ℚ) ≠ 0 := by exact_mod_cast hden.ne'
  have hten := ten_zpow_neg_toNat he
  -- the power of ten is moved to the other side, where it is a natural number
  rw [value, eq_div_iff hden'] at h
  have : (num : ℚ) * (10 ^ (-d.exponent).toNat : Nat) = d.digits * unitsPerOne * den := by
    rw [← h]
    linear_combination (d.digits * unitsPerOne * den : ℚ) * hten
  exact_mod_cast this

/-- An exponent beyond the bound overflows. -/
theorem ofUnits_of_large {d : Decimal} {num den : Nat} (hden : 0 < den)
    (h : d.value * unitsPerOne = num / den) (hdigits : d.digits ≠ 0)
    (he : (exponentBound : Int) < d.exponent) :
    Binary64.ofUnits d.negative num den = .infinite d.negative := by
  have hbound : (exponentBound : Int) = 400 := rfl
  have hnum := units_of_nonneg hden h (by omega)
  have hten : 10 ^ d.exponent.toNat ≤ d.digits * 10 ^ d.exponent.toNat :=
    Nat.le_mul_of_pos_left _ (Nat.pos_of_ne_zero hdigits)
  apply Binary64.ofUnits_eq_infinite
  rw [Nat.le_div_iff_mul_le hden, hnum]
  apply Nat.mul_le_mul_right
  exact (overflowUnits_le_ten_pow (by omega)).trans (Nat.mul_le_mul_right unitsPerOne hten)

/-- An exponent far below the bound vanishes. -/
theorem ofUnits_of_small {d : Decimal} {num den : Nat} (hden : 0 < den)
    (h : d.value * unitsPerOne = num / den)
    (he : d.exponent + (d.digits.log2 + 1 : Nat) < -(exponentBound : Int)) :
    Binary64.ofUnits d.negative num den = .zero d.negative := by
  have hbound : (exponentBound : Int) = 400 := rfl
  have hneg : d.exponent < 0 := by omega
  have hnum := units_of_neg hden h hneg
  have hdigits : d.digits < 10 ^ (d.digits.log2 + 1) :=
    Nat.lt_log2_self.trans_le (Nat.pow_le_pow_left (by decide) _)
  apply Binary64.ofUnits_eq_zero
  by_contra hge
  -- otherwise the power of ten would be at most twice the digits in units
  have hle : 10 ^ (-d.exponent).toNat ≤ 2 * (d.digits * unitsPerOne) := by
    refine Nat.le_of_mul_le_mul_right (c := den) ?_ hden
    calc 10 ^ (-d.exponent).toNat * den ≤ 10 ^ (-d.exponent).toNat * (2 * num) :=
          Nat.mul_le_mul_left _ (by omega)
      _ = 2 * (d.digits * unitsPerOne) * den := by rw [Nat.mul_assoc 2, ← hnum]; ring
  -- the power splits into one that is above the digits and one that is above two units
  obtain ⟨b, hb, hsplit⟩ : ∃ b, 401 ≤ b ∧ (-d.exponent).toNat = d.digits.log2 + 1 + b :=
    ⟨(-d.exponent).toNat - (d.digits.log2 + 1), by omega, by omega⟩
  rw [hsplit, Nat.pow_add] at hle
  have : 10 ^ (d.digits.log2 + 1) * 10 ^ b < 10 ^ (d.digits.log2 + 1) * 10 ^ b :=
    calc 10 ^ (d.digits.log2 + 1) * 10 ^ b ≤ 2 * (d.digits * unitsPerOne) := hle
      _ = d.digits * (2 * unitsPerOne) := Nat.mul_left_comm 2 _ _
      _ ≤ 10 ^ (d.digits.log2 + 1) * (2 * unitsPerOne) := Nat.mul_le_mul_right _ hdigits.le
      _ < 10 ^ (d.digits.log2 + 1) * 10 ^ b :=
          Nat.mul_lt_mul_of_pos_left (two_mul_unitsPerOne_lt_ten_pow hb) (Nat.pow_pos (by decide))
  exact absurd this (lt_irrefl _)

/-- A decimal stands for its value in units, rounded once. -/
theorem toBinary64_eq_ofUnits {d : Decimal} {num den : Nat} (hden : 0 < den)
    (h : d.value * unitsPerOne = num / den) :
    d.toBinary64 = .ofUnits d.negative num den := by
  -- one case for each way of computing; all of them round the same quotient
  unfold toBinary64
  split
  case isTrue hzero =>
    have hnum : num = 0 := by
      rw [value, hzero, Nat.cast_zero, zero_mul, zero_mul, eq_comm, div_eq_zero_iff] at h
      rcases h with h | h
      · exact_mod_cast h
      · exact absurd (by exact_mod_cast h) hden.ne'
    exact (Binary64.ofUnits_eq_zero d.negative (by omega)).symm
  case isFalse hdigits =>
    split
    case isTrue he => exact (ofUnits_of_large hden h hdigits he).symm
    case isFalse =>
      split
      case isTrue he => exact (ofUnits_of_small hden h he).symm
      case isFalse =>
        split
        case isTrue he =>
          apply Binary64.ofUnits_congr _ Nat.one_pos hden
          rw [Nat.mul_one]
          exact (units_of_nonneg hden h he).symm
        case isFalse he =>
          apply Binary64.ofUnits_congr _ (Nat.pow_pos (by decide)) hden
          exact (units_of_neg hden h (by omega)).symm

theorem toBinary64_of_digits_eq_zero {d : Decimal} (h : d.digits = 0) :
    d.toBinary64 = .zero d.negative := by
  rw [toBinary64, if_pos h]

/-- Every decimal is a quotient of units. -/
theorem exists_units (d : Decimal) :
    ∃ num den : Nat, 0 < den ∧ d.value * unitsPerOne = num / den := by
  by_cases he : 0 ≤ d.exponent
  · refine ⟨d.digits * 10 ^ d.exponent.toNat * unitsPerOne, 1, Nat.one_pos, ?_⟩
    rw [value, ten_zpow_toNat he]
    push_cast
    ring
  · refine ⟨d.digits * unitsPerOne, 10 ^ (-d.exponent).toNat, Nat.pow_pos (by decide), ?_⟩
    have hten := ten_zpow_neg_toNat (e := d.exponent) (by omega)
    rw [eq_div_iff (by positivity), value]
    push_cast at hten ⊢
    linear_combination (d.digits * unitsPerOne : ℚ) * hten

/-- Decimals of one value read as one size. -/
theorem toBinary64_of_value_eq {d d' : Decimal} {negative : Bool} {size : Magnitude}
    (hvalue : d'.value = d.value) (h : d.toBinary64 = .finite negative size) :
    d'.toBinary64 = .finite d'.negative size := by
  rcases d.exists_units with ⟨num, den, hden, hunits⟩
  rw [toBinary64_eq_ofUnits hden hunits] at h
  rw [toBinary64_eq_ofUnits hden (hvalue ▸ hunits)]
  exact Binary64.ofUnits_of_eq_finite h _

/-- No decimal stands for something that is not a number. -/
theorem toBinary64_finite_or_infinite (d : Decimal) :
    (∃ size, d.toBinary64 = .finite d.negative size) ∨ d.toBinary64 = .infinite d.negative := by
  rcases d.exists_units with ⟨num, den, hden, hunits⟩
  rw [toBinary64_eq_ofUnits hden hunits]
  unfold Binary64.ofUnits
  cases Magnitude.nearest? num den with
  | none => exact .inr rfl
  | some size => exact .inl ⟨size, rfl⟩

end Decimal

/-! ## The shortest decimal of a size -/

namespace Magnitude

/-- Five to a power in units cancels that power of ten. -/
theorem ten_zpow_mul_five_pow (n : Nat) :
    (10 : ℚ) ^ (-(n : ℤ)) * (5 ^ n * 2 ^ n) = 1 := by
  rw [← mul_pow, show (5 : ℚ) * 2 = 10 by norm_num, zpow_neg, zpow_natCast]
  exact inv_mul_cancel₀ (by positivity)

theorem toBinary64_exactDecimal (size : Magnitude) :
    size.exactDecimal.toBinary64 = .finite false size := by
  have hvalue : size.exactDecimal.value * unitsPerOne = (size.units : Nat) / (1 : Nat) := by
    rcases exists_unitsPerOne_eq with ⟨n, hn, hunits⟩
    have hexponent : size.exactDecimal.exponent = -(n : ℤ) := by
      rw [hn]
      rfl
    have hdigits : size.exactDecimal.digits = size.units * 5 ^ n := by
      unfold exactDecimal
      rw [← hn, Nat.pow_eq]
    have hten := ten_zpow_mul_five_pow n
    rw [Decimal.value, hdigits, hexponent, hunits]
    push_cast
    linear_combination (size.units : ℚ) * hten
  rw [Decimal.toBinary64_eq_ofUnits Nat.one_pos hvalue]
  exact Binary64.ofUnits_eq_finite _ (nearestUnits_of_dvd size.fits.2)

/-- Of two candidates, the one that is chosen passes the check. -/
theorem check_of_choice {check : Decimal → Bool} {below above d : Decimal} {nearer : Bool}
    (h : (if check below then if check above && nearer then some above else some below
      else if check above then some above else none) = some d) : check d = true := by
  by_cases hbelow : check below = true
  · by_cases habove : (check above && nearer) = true
    · rw [if_pos hbelow, if_pos habove, Option.some.injEq] at h
      exact h ▸ (Bool.and_eq_true_iff.mp habove).1
    · rw [if_pos hbelow, if_neg habove, Option.some.injEq] at h
      exact h ▸ hbelow
  · by_cases habove : check above = true
    · rw [if_neg hbelow, if_pos habove, Option.some.injEq] at h
      exact h ▸ habove
    · rw [if_neg hbelow, if_neg habove] at h
      cases h

theorem readsBack_of_neighbour? {size : Magnitude} {num den : Nat} {power : ℤ} {d : Decimal}
    (h : size.neighbour? num den power = some d) : size.readsBack d = true := by
  unfold neighbour? at h
  exact check_of_choice h

theorem toBinary64_of_readsBack {size : Magnitude} {d : Decimal} (h : size.readsBack d = true) :
    d.toBinary64 = .finite false size := by
  unfold readsBack at h
  exact of_decide_eq_true h

/-- The shortest decimal of a size reads as the size. -/
theorem toBinary64_shortest (size : Magnitude) :
    size.shortest.toBinary64 = .finite false size := by
  unfold shortest
  -- a candidate was checked to read back; without one the exact decimal is taken
  cases hfound : (List.range 17).findSome? fun n => size.withDigits? (n + 1) with
  | none =>
      rw [Option.getD_none]
      exact size.toBinary64_exactDecimal
  | some d =>
      rcases List.exists_of_findSome?_eq_some hfound with ⟨n, _, hd⟩
      rw [Option.getD_some]
      exact toBinary64_of_readsBack (readsBack_of_neighbour? hd)

theorem digits_shortest_ne_zero {size : Magnitude} (h : size.units ≠ 0) :
    size.shortest.digits ≠ 0 := by
  intro hzero
  have hread := size.toBinary64_shortest
  rw [Decimal.toBinary64_of_digits_eq_zero hzero, Binary64.zero, Binary64.finite.injEq] at hread
  exact h (congrArg Magnitude.units hread.2).symm

end Magnitude

end DispatchLisp
