import DispatchLisp.Number.Magnitude
import Mathlib.Algebra.Group.Nat.Defs

/-!
# Proofs.Number.Rounding — what a rounded quotient depends on

Rounding looks at the value of a quotient only: quotients that are equal round to the same size
(`nearestUnits_congr`), a size rounds to itself (`nearestUnits_of_dvd`), less than half a unit
rounds to zero, and a power of two bounds the rounded size from below wherever it bounds the
quotient.
-/

namespace DispatchLisp

theorem stepAt_pos (n : Nat) : 0 < stepAt n :=
  Nat.pow_pos (by decide)

/-! ## Equal quotients -/

theorem roundHalfEven_mul_left {k : Nat} (hk : 0 < k) (num den : Nat) :
    roundHalfEven (k * num) (k * den) = roundHalfEven num den := by
  unfold roundHalfEven
  simp only [Nat.mul_div_mul_left num den hk, Nat.mul_mod_mul_left]
  have hlt : k * den < 2 * (k * (num % den)) ↔ den < 2 * (num % den) := by
    rw [Nat.mul_left_comm 2 k]
    exact Nat.mul_lt_mul_left hk
  have heq : 2 * (k * (num % den)) = k * den ↔ 2 * (num % den) = den := by
    rw [Nat.mul_left_comm 2 k]
    exact Nat.mul_right_inj (by omega)
  -- both comparisons with half the divisor come out as before
  simp only [hlt, heq]

theorem nearestUnits_mul_left {k : Nat} (hk : 0 < k) (num den : Nat) :
    nearestUnits (k * num) (k * den) = nearestUnits num den := by
  unfold nearestUnits
  simp only [Nat.mul_div_mul_left num den hk, Nat.mul_assoc, roundHalfEven_mul_left hk]

/-- Equal quotients round to the same size. -/
theorem nearestUnits_congr {num den num' den' : Nat} (hden : 0 < den) (hden' : 0 < den')
    (h : num * den' = num' * den) : nearestUnits num den = nearestUnits num' den' := by
  rw [← nearestUnits_mul_left hden' num den, ← nearestUnits_mul_left hden num' den',
    Nat.mul_comm den' num, h, Nat.mul_comm num' den, Nat.mul_comm den' den]

/-! ## Sizes -/

theorem roundHalfEven_of_mul (q : Nat) {den : Nat} (hden : 0 < den) :
    roundHalfEven (q * den) den = q := by
  unfold roundHalfEven
  simp only [Nat.mul_div_cancel q hden, Nat.mul_mod_left]
  split
  · omega
  · split
    · omega
    · rfl

/-- A number of units that fits the format rounds to itself. -/
theorem nearestUnits_of_dvd {n : Nat} (h : stepAt n ∣ n) : nearestUnits n 1 = n := by
  rcases h with ⟨q, hq⟩
  unfold nearestUnits
  simp only [Nat.div_one, Nat.one_mul]
  -- in steps the quotient is whole, so there is nothing to round
  have hround : roundHalfEven n (stepAt n) = q := by
    conv => lhs; arg 1; rw [hq, Nat.mul_comm]
    exact roundHalfEven_of_mul q (stepAt_pos n)
  rw [hround, Nat.mul_comm]
  exact hq.symm

/-! ## Bounds -/

theorem le_roundHalfEven (num den : Nat) : num / den ≤ roundHalfEven num den := by
  unfold roundHalfEven
  simp only
  split
  · omega
  · split <;> omega

theorem le_nearestUnits {k num den : Nat} (h : 2 ^ k ≤ num / den) :
    2 ^ k ≤ nearestUnits num den := by
  have hpos : num / den ≠ 0 := by
    have := Nat.pow_pos (n := k) (show 0 < 2 by decide)
    omega
  have hk : k ≤ (num / den).log2 := (Nat.le_log2 hpos).2 h
  have hstep : stepAt (num / den) = 2 ^ ((num / den).log2 - 52) := rfl
  -- the quotient in steps keeps its leading bit
  have hlead : 2 ^ ((num / den).log2 - ((num / den).log2 - 52)) ≤
      num / (den * stepAt (num / den)) := by
    rw [← Nat.div_div_eq_div_mul, hstep, Nat.le_div_iff_mul_le (Nat.pow_pos (by decide)),
      ← Nat.pow_add, Nat.sub_add_cancel (Nat.sub_le _ _)]
    exact Nat.log2_self_le hpos
  calc 2 ^ k ≤ 2 ^ (num / den).log2 := Nat.pow_le_pow_right (by decide) hk
    _ = 2 ^ ((num / den).log2 - ((num / den).log2 - 52)) * 2 ^ ((num / den).log2 - 52) := by
        rw [← Nat.pow_add, Nat.sub_add_cancel (Nat.sub_le _ _)]
    _ ≤ num / (den * stepAt (num / den)) * stepAt (num / den) :=
        Nat.mul_le_mul_right _ hlead
    _ ≤ nearestUnits num den := Nat.mul_le_mul_right _ (le_roundHalfEven _ _)

/-- Less than half a unit rounds to zero. -/
theorem nearestUnits_eq_zero {num den : Nat} (h : 2 * num < den) : nearestUnits num den = 0 := by
  have hdiv : num / den = 0 := Nat.div_eq_of_lt (by omega)
  have hmod : num % den = num := Nat.mod_eq_of_lt (by omega)
  have hstep : stepAt 0 = 1 := by decide
  have hround : roundHalfEven num den = 0 := by
    unfold roundHalfEven
    simp only [hdiv, hmod]
    split
    · omega
    · split
      · omega
      · rfl
  unfold nearestUnits
  simp only [hdiv, hstep, Nat.mul_one, hround]

end DispatchLisp
