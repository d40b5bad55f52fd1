import DispatchLisp.Proofs.Number.DecimalValue

/-!
# Proofs.Number.Range — which whole numbers become doubles

A whole number is rounded to the 53 bits of the format, and it becomes no double exactly when that
takes it to the end of the range: from the middle between the largest double and the power of two
above it (`Binary64.ofInt?_eq_none_iff`).
-/

namespace DispatchLisp

/-- Whether a whole number is too large to become a double: it lies, on either side of zero, at least
half a step above the largest one. -/
def IsTooLarge (n : Int) : Prop :=
  2 ^ 1024 - 2 ^ 970 ≤ n.natAbs

theorem isTooLarge_two_pow {k : Nat} (hk : 1024 ≤ k) : IsTooLarge (2 ^ k) := by
  -- the exponents stay variables, so that no power is computed
  have hle : ∀ a b : Nat, a ≤ k → 2 ^ a - 2 ^ b ≤ ((2 : Int) ^ k).natAbs := by
    intro a b ha
    rw [Int.natAbs_pow]
    exact Nat.le_trans (Nat.sub_le _ _) (Nat.pow_le_pow_right Nat.zero_lt_two ha)
  exact hle 1024 970 hk

theorem not_isTooLarge_zero : ¬ IsTooLarge 0 := by
  have hlt : ∀ a b : Nat, b < a → ¬ 2 ^ a - 2 ^ b ≤ 0 := fun a b h =>
    Nat.not_le.mpr (Nat.sub_pos_of_lt (Nat.pow_lt_pow_right Nat.one_lt_two h))
  exact hlt 1024 970 (by decide)

/-! ## The end of the range -/

/-- Rounding does not take a number past a power of two. -/
theorem nearestUnits_le_two_pow {n k : Nat} (h : n < 2 ^ k) : nearestUnits n 1 ≤ 2 ^ k := by
  rcases Nat.eq_zero_or_pos n with rfl | hpos
  · rw [nearestUnits_of_dvd (Nat.dvd_zero _)]
    exact Nat.zero_le _
  · have hlog : n.log2 < k := (Nat.log2_lt (Nat.ne_of_gt hpos)).mpr h
    have hstep : stepAt n = 2 ^ (n.log2 - 52) := rfl
    have hsteps : n / stepAt n < 2 ^ (k - (n.log2 - 52)) := by
      rw [hstep, Nat.div_lt_iff_lt_mul (Nat.pow_pos (by decide)), ← Nat.pow_add,
        Nat.sub_add_cancel (by omega)]
      exact h
    have hround := roundHalfEven_le n (stepAt n)
    calc nearestUnits n 1 = roundHalfEven n (stepAt n) * stepAt n := by
          simp only [nearestUnits, Nat.div_one, Nat.one_mul]
      _ ≤ 2 ^ (k - (n.log2 - 52)) * stepAt n := Nat.mul_le_mul_right _ (by omega)
      _ = 2 ^ k := by rw [hstep, ← Nat.pow_add, Nat.sub_add_cancel (by omega)]

/-- A quotient is rounded to a power of two from half a step below it on. -/
theorem roundHalfEven_lt_iff {n half : Nat} (hhalf : 0 < half) (h : n < 2 ^ 53 * (2 * half)) :
    roundHalfEven n (2 * half) < 2 ^ 53 ↔ n < 2 ^ 53 * (2 * half) - half := by
  have hquotient : n / (2 * half) < 2 ^ 53 := Nat.div_lt_of_lt_mul (by rwa [Nat.mul_comm])
  have hrest : n % (2 * half) < 2 * half := Nat.mod_lt _ (by omega)
  have hsplit : 2 * half * (n / (2 * half)) + n % (2 * half) = n := Nat.div_add_mod n _
  unfold roundHalfEven
  simp only
  generalize n / (2 * half) = q at *
  generalize n % (2 * half) = r at *
  rcases Nat.lt_or_ge q (2 ^ 53 - 1) with hq | hq
  · -- more than one step below the power of two
    have hsteps : 2 * half * (q + 2) ≤ 2 * half * 2 ^ 53 := Nat.mul_le_mul_left _ (by omega)
    rw [Nat.mul_add] at hsteps
    refine iff_of_true ?_ (by omega)
    split
    · omega
    · split <;> omega
  · -- in the last step, whose number is odd
    obtain rfl : q = 2 ^ 53 - 1 := by omega
    split
    · omega
    · split <;> omega

/-- A number is rounded to less than a power of two exactly if it lies more than half a step below. -/
theorem nearestUnits_lt_two_pow_iff {n k : Nat} (hk : 54 ≤ k) :
    nearestUnits n 1 < 2 ^ k ↔ n < 2 ^ k - 2 ^ (k - 54) := by
  obtain ⟨j, rfl⟩ := Nat.exists_eq_add_of_le hk
  rw [Nat.add_sub_cancel_left]
  have htop : 2 ^ (54 + j) = 2 ^ 53 * (2 * 2 ^ j) := by
    rw [Nat.pow_add]
    omega
  have hhalf : 0 < 2 ^ j := Nat.pow_pos (by decide)
  rcases Nat.lt_or_ge n (2 ^ (53 + j)) with hlow | hlow
  · -- half way up to the power or lower, rounding stays far below it
    have hround := nearestUnits_le_two_pow hlow
    have hlower : 2 ^ (53 + j) = 2 ^ 53 * 2 ^ j := Nat.pow_add _ _ _
    exact iff_of_true (by omega) (by omega)
  · rcases Nat.lt_or_ge n (2 ^ (54 + j)) with htopmost | hover
    · -- the last numbers below the power: all of them are rounded with one step
      have hpos : n ≠ 0 := by
        have := Nat.pow_pos (n := 53 + j) (show 0 < 2 by decide)
        omega
      have hlog : n.log2 = 53 + j := by
        rw [Nat.log2_eq_iff hpos]
        exact ⟨hlow, by rwa [Nat.add_right_comm]⟩
      have hstep : stepAt n = 2 * 2 ^ j := by
        have hexponent : n.log2 - 52 = j + 1 := by omega
        show 2 ^ (n.log2 - 52) = 2 * 2 ^ j
        rw [hexponent, Nat.pow_succ, Nat.mul_comm]
      have hunits : nearestUnits n 1 = roundHalfEven n (2 * 2 ^ j) * (2 * 2 ^ j) := by
        simp only [nearestUnits, Nat.div_one, Nat.one_mul, hstep]
      rw [hunits, htop, Nat.mul_lt_mul_right (by omega)]
      exact roundHalfEven_lt_iff hhalf (htop ▸ htopmost)
    · have hround : 2 ^ (54 + j) ≤ nearestUnits n 1 := le_nearestUnits (by rwa [Nat.div_one])
      exact iff_of_false (by omega) (by omega)

/-- A whole number becomes no double exactly if it is too large. -/
theorem Binary64.ofInt?_eq_none_iff (n : Int) : Binary64.ofInt? n = none ↔ IsTooLarge n := by
  rcases exists_unitsPerOne_eq with ⟨one, hone, hunits⟩
  rcases exists_overflowUnits_eq with ⟨top, htop, hoverflow⟩
  have hnone : Binary64.ofInt? n = none ↔
      ¬ nearestUnits (n.natAbs * unitsPerOne) 1 < overflowUnits := by
    rw [Binary64.ofInt?, Option.map_eq_none_iff, Magnitude.nearest?, dite_eq_right_iff]
    exact forall_congr' fun _ => iff_false_intro (Option.some_ne_none _)
  -- one is so many units that the end of the range is at `2 ^ 1024`, and half a step there is `2 ^ 970`
  have hrange : ∀ a b : Nat, top = a + one → top - 54 = b + one →
      2 ^ top - 2 ^ (top - 54) = (2 ^ a - 2 ^ b) * 2 ^ one := by
    intro a b ha hb
    rw [hb, ha, Nat.pow_add, Nat.pow_add, Nat.sub_mul]
  rw [hnone, hunits, hoverflow, nearestUnits_lt_two_pow_iff (by omega),
    hrange 1024 970 (by omega) (by omega), Nat.mul_lt_mul_right (Nat.pow_pos (by decide)),
    Nat.not_lt, IsTooLarge]

end DispatchLisp
