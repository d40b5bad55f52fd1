import DispatchLisp.Proofs.Builtin.Operators
import Mathlib.Algebra.BigOperators.Group.List.Basic
import Mathlib.Data.Rat.Floor

/-!
# Proofs.Builtin.Division — quotients of whole numbers are rounded once

A quotient of whole numbers is worked out from absolute values and signs. It is the exact quotient
rounded toward zero, and what `mod` answers is what is left over. Rounding toward zero and dividing
again is the same as dividing first (`roundTowardZero_div`), so a division by several numbers, which
rounds after each of them, comes to the quotient by their product rounded once.

Main statement: `division_rounds_once`.
-/

namespace DispatchLisp

/-! ## Rounding toward zero -/

/-- A rational number rounded to the next whole number on the side of zero. -/
def roundTowardZero (x : ℚ) : ℤ :=
  if 0 ≤ x then ⌊x⌋ else ⌈x⌉

theorem roundTowardZero_of_nonneg {x : ℚ} (h : 0 ≤ x) : roundTowardZero x = ⌊x⌋ :=
  if_pos h

theorem roundTowardZero_neg (x : ℚ) : roundTowardZero (-x) = -roundTowardZero x := by
  unfold roundTowardZero
  rcases lt_trichotomy x 0 with h | rfl | h
  · rw [if_pos (by linarith), if_neg (by linarith), Int.floor_neg]
  · simp
  · rw [if_neg (by linarith), if_pos h.le, Int.ceil_neg]

theorem roundTowardZero_intCast (n : ℤ) : roundTowardZero n = n := by
  unfold roundTowardZero
  rw [Int.floor_intCast, Int.ceil_intCast, ite_self]

/-- A rational number that is not negative, divided by a natural number, may be rounded before the
division. -/
theorem roundTowardZero_div_natCast {x : ℚ} (h : 0 ≤ x) (d : ℕ) :
    roundTowardZero (x / d) = (roundTowardZero x).tdiv d := by
  have hfloor : 0 ≤ ⌊x⌋ := Int.floor_nonneg.mpr h
  rw [roundTowardZero_of_nonneg (by positivity), roundTowardZero_of_nonneg h,
    Int.floor_div_natCast, Int.tdiv_eq_ediv_of_nonneg hfloor]

/-- Rounding before a division by a whole number changes nothing. -/
theorem roundTowardZero_div (x : ℚ) (d : ℤ) :
    roundTowardZero (x / d) = (roundTowardZero x).tdiv d := by
  -- a sign on either side goes through the division and through the rounding
  have hdivisor {x : ℚ} (hx : 0 ≤ x) : roundTowardZero (x / d) = (roundTowardZero x).tdiv d := by
    obtain ⟨n, rfl | rfl⟩ := d.eq_nat_or_neg
    · exact roundTowardZero_div_natCast hx n
    · rw [Int.cast_neg, Int.cast_natCast, div_neg, roundTowardZero_neg, Int.tdiv_neg,
        roundTowardZero_div_natCast hx]
  rcases le_total 0 x with hx | hx
  · exact hdivisor hx
  · have hnegated := hdivisor (neg_nonneg.mpr hx)
    rwa [neg_div, roundTowardZero_neg, roundTowardZero_neg, Int.neg_tdiv, neg_inj] at hnegated

/-! ## The quotient of two whole numbers -/

/-- Absolute values with the sign of the quotient put back are the quotient rounded toward zero. -/
theorem truncatedDiv_eq_tdiv (m n : Int) : truncatedDiv m n = m.tdiv n := by
  have hsize : ∀ k : Nat, ¬ (k : Int) < 0 := fun k => Int.not_lt.mpr (Int.natCast_nonneg k)
  cases m <;> cases n <;> simp [truncatedDiv, Int.tdiv, hsize]

theorem truncatedDiv_eq_round (m n : Int) : truncatedDiv m n = roundTowardZero (m / n) := by
  rw [truncatedDiv_eq_tdiv, roundTowardZero_div, roundTowardZero_intCast]

/-- What is left over after a division is smaller than the divisor, and on the same side of zero as
the number that was divided. -/
theorem leftOver_bounds (n : Int) {d : Int} (hd : d ≠ 0) :
    |n - d * truncatedDiv n d| < |d| ∧
      (n - d * truncatedDiv n d = 0 ∨ (n - d * truncatedDiv n d).sign = n.sign) := by
  rw [truncatedDiv_eq_tdiv, ← Int.tmod_def]
  constructor
  · rw [Int.abs_eq_natAbs, Int.abs_eq_natAbs, Int.natAbs_tmod]
    exact_mod_cast Nat.mod_lt _ (Int.natAbs_pos.mpr hd)
  · by_cases hdvd : d ∣ n
    · exact .inl (Int.tmod_eq_zero_of_dvd hdvd)
    · exact .inr (by rw [Int.sign_tmod, if_neg hdvd])

/-- Dividing one after another what was rounded already comes to a single division by the product. -/
theorem foldl_truncatedDiv (bs : List Int) (x : ℚ) :
    bs.foldl truncatedDiv (roundTowardZero x) = roundTowardZero (x / bs.prod) := by
  induction bs generalizing x with
  | nil => simp
  | cons b bs ih =>
      rw [List.foldl_cons, truncatedDiv_eq_tdiv, ← roundTowardZero_div, ih, div_div,
        List.prod_cons, Int.cast_mul]

/-! ## The operators -/

theorem apply_div_int (s : Store) (a b : Int) :
    Operation.div.apply s (.int a) (.int b) =
      if b = 0 then .error (.fault .divisionByZero) else .ok (.int (truncatedDiv a b)) := by
  by_cases hb : b = 0
  · simp [Operation.apply, Value.number?, Atom.number?, Number.isZero, hb]
  · simp [Operation.apply, Value.number?, Atom.number?, Number.isZero, hb, Operation.onValues,
      Operation.onNumbers, Operation.onInts]

theorem fold_div_int (s : Store) (a : Int) (bs : List Int) :
    Operation.div.fold s (.int a) (bs.map .int) =
      if 0 ∈ bs then .error (.fault .divisionByZero) else .ok (.int (bs.foldl truncatedDiv a)) := by
  induction bs generalizing a with
  | nil => rfl
  | cons b bs ih =>
      rw [List.map_cons, Operation.fold, apply_div_int]
      by_cases hb : b = 0
      · rw [if_pos hb, if_pos (List.mem_cons.mpr (.inl hb.symm))]
        rfl
      · have hother : 0 ∈ b :: bs ↔ 0 ∈ bs := List.mem_cons.trans (or_iff_right (Ne.symm hb))
        rw [if_neg hb, ok_bind, ih]
        simp only [hother, List.foldl_cons]

/-- A division of whole numbers ends with a fault if one of the divisors is zero, and with the
rounded quotient otherwise. -/
theorem run_div_int (a : Int) {bs : List Int} (hbs : bs ≠ []) (m : Machine) :
    Builtin.div.run (.int a :: bs.map .int) m =
      if 0 ∈ bs then (.error (.fault .divisionByZero), m)
      else (.ok (.int (roundTowardZero (a / bs.prod))), m) := by
  have hrest : bs.map Value.int ≠ [] := fun h => hbs (List.map_eq_nil_iff.mp h)
  by_cases hzero : 0 ∈ bs
  · rw [if_pos hzero]
    apply Operation.run_of_error hrest
    rw [fold_div_int, if_pos hzero]
  · rw [if_neg hzero, ← foldl_truncatedDiv, roundTowardZero_intCast]
    refine Operation.run_of_ok hrest ?_ fun x h => by cases h
    rw [fold_div_int, if_neg hzero]

theorem run_mod_int (n : Int) {d : Int} (hd : d ≠ 0) (m : Machine) :
    Builtin.mod.run [.int n, .int d] m = (.ok (.int (n - d * truncatedDiv n d)), m) := by
  have hcheck : (liftM (check (requireArguments "mod" [.int n, .int d] [[.int], [.int]])) :
      NativeEval Unit) m = (.ok (), m) := rfl
  rw [Builtin.run, remainder, Computation.bind_of_ok hcheck]
  simp only [if_neg hd]
  rfl

/-- Division and `mod` fit together, and a division by several numbers rounds once. For whole numbers
`n` and `d` other than zero, `/` answers the exact quotient rounded toward zero, and `mod` what is
left over: it is smaller than `d`, and it is zero or on the same side of zero as `n`. A division by
one or more whole numbers is an arithmetic fault exactly when one of them is zero; otherwise it
answers the quotient by their product, rounded once. Nothing changes. -/
theorem division_rounds_once (m : Machine) :
    (∀ n d : Int, d ≠ 0 → ∃ q r : Int,
      Builtin.div.run [.int n, .int d] m = (.ok (.int q), m) ∧
      Builtin.mod.run [.int n, .int d] m = (.ok (.int r), m) ∧
      q = roundTowardZero (n / d) ∧ n = d * q + r ∧ |r| < |d| ∧ (r = 0 ∨ r.sign = n.sign)) ∧
    ∀ (a : Int) (bs : List Int), bs ≠ [] →
      ((∃ e : Fault, e.kind = .arithmetic ∧
        Builtin.div.run (.int a :: bs.map .int) m = (.error (.fault e), m)) ↔ 0 ∈ bs) ∧
      (0 ∉ bs → Builtin.div.run (.int a :: bs.map .int) m =
        (.ok (.int (roundTowardZero (a / bs.prod))), m)) := by
  constructor
  · intro n d hd
    have hquotient := run_div_int n (List.cons_ne_nil d []) m
    rw [if_neg (by simpa using Ne.symm hd), List.prod_singleton] at hquotient
    obtain ⟨hsmaller, hside⟩ := leftOver_bounds n hd
    refine ⟨roundTowardZero (n / d), n - d * truncatedDiv n d, hquotient, run_mod_int n hd m, rfl,
      ?_, hsmaller, hside⟩
    rw [truncatedDiv_eq_round, add_sub_cancel]
  · intro a bs hbs
    have hrun := run_div_int a hbs m
    refine ⟨⟨?_, fun hzero => ⟨.divisionByZero, rfl, hrun.trans (if_pos hzero)⟩⟩,
      fun hzero => hrun.trans (if_neg hzero)⟩
    rintro ⟨e, _, hfault⟩
    by_contra hzero
    rw [if_neg hzero, hfault] at hrun
    cases hrun

/-- The quotient of `-7` and `2` is `-3`, which leaves `-1`; a hundred divided by `3`, `-7` and `2`
is `-2`, and divided by `3` and zero it is a fault. -/
theorem division_rounds_once_of_negatives :
    let m := Machine.initial .empty 0
    (∃ q r : Int, Builtin.div.run [.int (-7), .int 2] m = (.ok (.int q), m) ∧
      Builtin.mod.run [.int (-7), .int 2] m = (.ok (.int r), m) ∧ q = -3 ∧ r = -1) ∧
    Builtin.div.run [.int 100, .int 3, .int (-7), .int 2] m = (.ok (.int (-2)), m) ∧
    ∃ e : Fault, e.kind = .arithmetic ∧
      Builtin.div.run [.int 100, .int 3, .int 0] m = (.error (.fault e), m) := by
  intro m
  obtain ⟨hpair, hseveral⟩ := division_rounds_once m
  have hthree : roundTowardZero (-7 / 2) = -3 := by
    norm_num [roundTowardZero, Int.ceil_eq_iff]
  have htwo : roundTowardZero (100 / -42) = -2 := by
    norm_num [roundTowardZero, Int.ceil_eq_iff]
  refine ⟨?_, ?_, ?_⟩
  · obtain ⟨q, r, hdiv, hmod, hq, hleft, _⟩ := hpair (-7) 2 (by decide)
    have hq3 : q = -3 := hq.trans (by exact_mod_cast hthree)
    exact ⟨q, r, hdiv, hmod, hq3, by omega⟩
  · have hrun := (hseveral 100 [3, -7, 2] (by decide)).2 (by decide)
    have hround : roundTowardZero ((100 : Int) / ([3, -7, 2] : List Int).prod) = -2 := by
      simpa using htwo
    rwa [hround] at hrun
  · exact (hseveral 100 [3, 0] (by decide)).1.mpr (by decide)

end DispatchLisp
