import DispatchLisp.Value.Basic

/-!
# Proofs.Value.Sameness — what atoms that are the same have in common

Numbers are compared by their exact values across both kinds, texts and names by what they say,
functions, contexts and host objects by where they stand. All of these comparisons ask for one
thing that both atoms have: two atoms are the same exactly when they have the same identity
(`Atom.same_iff`). Only a number that is not one has no identity, so it is the only atom that is
not the same as itself. Sameness is symmetric and transitive, and being alike is an equivalence.
-/

namespace DispatchLisp

/-! ## Numbers -/

/-- The exact value of a number. -/
inductive ExactValue where
  /-- a whole number of units -/
  | finite (units : Int)
  | infinite (negative : Bool)

/-- The order of two exact values. -/
def ExactValue.compare : ExactValue → ExactValue → Ordering
  | .finite m, .finite n => Ord.compare m n
  | .finite _, .infinite negative => if negative then .gt else .lt
  | .infinite negative, .finite _ => if negative then .lt else .gt
  | .infinite s, .infinite t => if s = t then .eq else if s then .lt else .gt

theorem ExactValue.compare_eq_iff (v w : ExactValue) : v.compare w = .eq ↔ v = w := by
  rcases v with m | s <;> rcases w with n | t
  · simp only [compare, Int.compare_eq_eq, ExactValue.finite.injEq]
  · cases t <;> simp [compare]
  · cases s <;> simp [compare]
  · cases s <;> cases t <;> simp [compare]

namespace Number

/-- The exact value of a number, if it is one. -/
def exactValue? : Number → Option ExactValue
  | .int n => some (.finite (n * (unitsPerOne : Int)))
  | .float (.finite negative size) => some (.finite (Binary64.signedUnits negative size))
  | .float (.infinite negative) => some (.infinite negative)
  | .float (.nan _) => none

theorem compare_mul_unitsPerOne (m n : Int) :
    compare (m * (unitsPerOne : Int)) (n * (unitsPerOne : Int)) = compare m n := by
  have hpos : 0 < (unitsPerOne : Int) := by
    unfold unitsPerOne
    generalize 1074 = k
    exact Int.natCast_pos.mpr (Nat.pow_pos (by decide))
  simp only [compare, compareOfLessAndEq, Int.mul_lt_mul_right hpos,
    Int.mul_eq_mul_right_iff (Int.ne_of_gt hpos)]

/-- The order of two numbers is that of their exact values. -/
theorem compare?_eq (a b : Number) :
    a.compare? b = a.exactValue?.bind fun v => b.exactValue?.map v.compare := by
  rcases a with m | (⟨s, x⟩ | s | k) <;> rcases b with n | (⟨t, y⟩ | t | l)
  all_goals simp only [compare?, Binary64.compare?, Binary64.compareInt?, exactValue?,
    Option.bind_some, Option.bind_none, Option.map_some, Option.map_none, ExactValue.compare,
    compare_mul_unitsPerOne, Int.compare_swap]
  -- what is left is an infinity against a whole number, which is compared the other way round
  cases s <;> rfl

theorem sameValue_iff (a b : Number) :
    a.sameValue b = true ↔ ∃ v, a.exactValue? = some v ∧ b.exactValue? = some v := by
  rw [sameValue, compare?_eq, beq_iff_eq]
  cases a.exactValue? with
  | none => simp
  | some v =>
      cases b.exactValue? with
      | none => simp
      | some w =>
          simp only [Option.bind_some, Option.map_some, Option.some.injEq,
            ExactValue.compare_eq_iff, exists_eq_left']
          exact eq_comm

theorem sameValue_int (m n : Int) : (Number.int m).sameValue (.int n) = (m == n) := by
  rw [Bool.eq_iff_iff, sameValue, compare?, beq_iff_eq, Option.some_inj, Int.compare_eq_eq,
    beq_iff_eq]

end Number

/-! ## Atoms -/

/-- What tells an atom from others. -/
inductive AtomIdentity where
  | number (v : ExactValue)
  | bool (b : Bool)
  | string (text : String)
  | symbol (name : String)
  | keyword (name : String)
  | nothing
  | type (name : String)
  | native (id : Nat)
  | function (index : Nat)
  | object (handle : Nat)
  | context (index : Nat)

namespace Atom

/-- What tells an atom from others; a number that is not one has nothing. -/
def identity? : Atom → Option AtomIdentity
  | .int n => (Number.int n).exactValue?.map .number
  | .float x => (Number.float x).exactValue?.map .number
  | .bool b => some (.bool b)
  | .string text => some (.string text)
  | .symbol name => some (.symbol name)
  | .keyword name => some (.keyword name)
  | .nothing => some .nothing
  | .type name => some (.type name)
  | .native f => some (.native f.id)
  | .function id => some (.function id.index)
  | .object o => some (.object o.handle)
  | .context id => some (.context id.index)

theorem sameValue_iff_identity (a b : Number) :
    a.sameValue b = true ↔ ∃ i, a.exactValue?.map AtomIdentity.number = some i ∧
      b.exactValue?.map AtomIdentity.number = some i := by
  rw [Number.sameValue_iff]
  constructor
  · rintro ⟨v, ha, hb⟩
    exact ⟨.number v, by rw [ha]; rfl, by rw [hb]; rfl⟩
  · rintro ⟨i, ha, hb⟩
    rcases Option.map_eq_some_iff.mp ha with ⟨v, hv, rfl⟩
    rcases Option.map_eq_some_iff.mp hb with ⟨w, hw, hsame⟩
    cases hsame
    exact ⟨_, hv, hw⟩

/-- Two atoms are the same exactly when they have the same identity. -/
theorem same_iff (a b : Atom) :
    a.same b = true ↔ ∃ i, a.identity? = some i ∧ b.identity? = some i := by
  -- two numbers, two atoms of one variant, or two of different variants
  cases a <;> cases b <;>
    simp only [same, identity?, ← Number.sameValue_int, ← sameValue_iff_identity]
  all_goals simp
  all_goals exact eq_comm

theorem same_comm (a b : Atom) : a.same b = b.same a := by
  rw [Bool.eq_iff_iff, same_iff, same_iff]
  simp only [and_comm]

theorem same_trans {a b c : Atom} (hab : a.same b = true) (hbc : b.same c = true) :
    a.same c = true := by
  rw [same_iff] at hab hbc ⊢
  rcases hab with ⟨i, ha, hb⟩
  rcases hbc with ⟨j, hb', hc⟩
  rw [hb] at hb'
  cases hb'
  exact ⟨i, ha, hc⟩

/-- Atoms that are alike are the same as the same atoms. -/
theorem same_congr {a b : Atom} (h : a.alike b = true) (c : Atom) : a.same c = b.same c := by
  rw [alike, Bool.or_eq_true, decide_eq_true_eq] at h
  rcases h with rfl | hsame
  · rfl
  · rw [Bool.eq_iff_iff]
    exact ⟨same_trans (same_comm a b ▸ hsame), same_trans hsame⟩

/-! ## Being alike -/

theorem alike_refl (a : Atom) : a.alike a = true := by
  simp [alike]

theorem alike_comm (a b : Atom) : a.alike b = b.alike a := by
  rw [alike, alike, same_comm]
  simp only [eq_comm]

theorem alike_trans {a b c : Atom} (hab : a.alike b = true) (hbc : b.alike c = true) :
    a.alike c = true := by
  -- one object may stand for another; if neither does, sameness is transitive
  have hac := same_congr hab c
  rw [alike, Bool.or_eq_true, decide_eq_true_eq] at hbc
  rcases hbc with rfl | hsame
  · exact hab
  · rw [alike, hac, hsame, Bool.or_true]

end Atom

end DispatchLisp
