import DispatchLisp.Proofs.Evaluation.Calls
import DispatchLisp.Proofs.Number.DecimalValue
import DispatchLisp.Proofs.Signature
import DispatchLisp.Proofs.Store.Comparison
import Mathlib.Data.String.Basic
import Mathlib.Order.WithBot

/-!
# Proofs.Builtin.Ordering — a chain of comparisons asks whether its arguments are sorted

A number that is one stands for a quantity, a rational number or one of two infinities, and numbers of
both kinds are compared by what they stand for (`Number.compare?_eq_quantity`). So a comparison is a
relation of one linear order on numbers and of another on texts. It is transitive, which is why testing
neighbours is testing all pairs; and equality, which is computed another way, is the equality of these
orders.

Main statement: `comparisons_ask_for_sortedness`.
-/

namespace DispatchLisp

/-! ## Quantities -/

/-- The rational numbers between two infinities. -/
abbrev Quantity := WithBot (WithTop ℚ)

/-- What a whole number of units stands for. -/
def unitsQuantity (units : Int) : Quantity :=
  (((units / unitsPerOne : ℚ) : WithTop ℚ) : Quantity)

/-- What a number stands for: a whole number for itself, a double for its exact value. A double that
is not a number stands for nothing. -/
def Number.quantity? : Number → Option Quantity
  | .int n => some (((n : ℚ) : WithTop ℚ) : Quantity)
  | .float (.finite negative size) => some (unitsQuantity (Binary64.signedUnits negative size))
  | .float (.infinite negative) => some (if negative then ⊥ else ⊤)
  | .float (.nan _) => none

/-- What an exact value stands for. -/
def ExactValue.quantity : ExactValue → Quantity
  | .finite units => unitsQuantity units
  | .infinite negative => if negative then ⊥ else ⊤

theorem unitsPerOne_pos : (0 : ℚ) < unitsPerOne := by
  obtain ⟨n, -, hunits⟩ := exists_unitsPerOne_eq
  rw [hunits]
  positivity

theorem unitsQuantity_mul_unitsPerOne (n : Int) :
    unitsQuantity (n * unitsPerOne) = (((n : ℚ) : WithTop ℚ) : Quantity) := by
  rw [unitsQuantity, Int.cast_mul, Int.cast_natCast, mul_div_cancel_right₀ _ unitsPerOne_pos.ne']

theorem unitsQuantity_lt {m n : Int} (hmn : m < n) : unitsQuantity m < unitsQuantity n := by
  rw [unitsQuantity, unitsQuantity, WithBot.coe_lt_coe, WithTop.coe_lt_coe,
    div_lt_div_iff_of_pos_right unitsPerOne_pos]
  exact Int.cast_lt.mpr hmn

theorem unitsQuantity_lt_top (n : Int) : unitsQuantity n < ⊤ :=
  WithBot.coe_lt_coe.mpr (WithTop.coe_lt_top _)

theorem bot_lt_unitsQuantity (n : Int) : ⊥ < unitsQuantity n :=
  WithBot.bot_lt_coe _

theorem Number.quantity?_eq (n : Number) : n.quantity? = n.exactValue?.map ExactValue.quantity := by
  rcases n with n | (⟨s, x⟩ | s | mark)
  case int =>
    rw [quantity?, exactValue?, Option.map_some, ExactValue.quantity, unitsQuantity_mul_unitsPerOne]
  all_goals rfl

/-- Exact values are in the order of what they stand for. -/
theorem ExactValue.compare_eq (v w : ExactValue) :
    v.compare w = Ord.compare v.quantity w.quantity := by
  rcases v with m | s <;> rcases w with n | t
  · rw [compare, ← cmp_eq_compare, ← cmp_eq_compare]
    exact (StrictMono.cmp_map_eq (fun _ _ => unitsQuantity_lt) m n).symm
  · cases t
    · exact (compare_lt_iff_lt.mpr (unitsQuantity_lt_top m)).symm
    · exact (compare_gt_iff_gt.mpr (bot_lt_unitsQuantity m)).symm
  · cases s
    · exact (compare_gt_iff_gt.mpr (unitsQuantity_lt_top n)).symm
    · exact (compare_lt_iff_lt.mpr (bot_lt_unitsQuantity n)).symm
  · cases s <;> cases t
    · exact (compare_eq_iff_eq.mpr rfl).symm
    · exact (compare_gt_iff_gt.mpr bot_lt_top).symm
    · exact (compare_lt_iff_lt.mpr bot_lt_top).symm
    · exact (compare_eq_iff_eq.mpr rfl).symm

/-- Numbers are in the order of what they stand for. -/
theorem Number.compare?_eq_quantity (a b : Number) :
    a.compare? b = a.quantity?.bind fun x => b.quantity?.map (compare x) := by
  rw [compare?_eq, quantity?_eq, quantity?_eq]
  cases a.exactValue? with
  | none => rfl
  | some v =>
      cases b.exactValue? with
      | none => rfl
      | some w => exact congrArg some (v.compare_eq w)

theorem Comparison.ofTexts_eq (a b : String) : ofTexts a b = compare a b := by
  rw [ofTexts]
  rcases lt_trichotomy a b with hab | rfl | hab
  · rw [if_pos hab, compare_lt_iff_lt.mpr hab]
  · rw [if_neg (lt_irrefl a), if_pos rfl, compare_eq_iff_eq.mpr rfl]
  · rw [if_neg hab.not_gt, if_neg hab.ne', compare_gt_iff_gt.mpr hab]

/-! ## Comparisons as relations -/

/-- What a value stands for as a number. -/
def Value.quantity? (v : Value) : Option Quantity :=
  v.number?.bind Number.quantity?

/-- Whether two values are two numbers or two texts. -/
def OfOneKind (a b : Value) : Prop :=
  Kind.number.accepts a = true ∧ Kind.number.accepts b = true ∨
    Kind.string.accepts a = true ∧ Kind.string.accepts b = true

/-- Whether values stand for quantities, all of them, or are texts. -/
def InOneOrder (args : List Value) : Prop :=
  (∀ v ∈ args, ∃ q, v.quantity? = some q) ∨ ∀ v ∈ args, ∃ text, v = .string text

namespace Comparison

/-- A comparison as a relation of an order. -/
def Rel {α : Type} [LT α] [LE α] : Comparison → α → α → Prop
  | .lt, x, y => x < y
  | .le, x, y => x ≤ y
  | .gt, x, y => x > y
  | .ge, x, y => x ≥ y

/-- Whether two values stand for quantities that compare so, or are texts that do. -/
def HoldsOf (c : Comparison) (a b : Value) : Prop :=
  (∃ x y, a.quantity? = some x ∧ b.quantity? = some y ∧ c.Rel x y) ∨
    ∃ x y, a = .string x ∧ b = .string y ∧ c.Rel x y

/-- Whether some neighbours are neither two numbers nor two texts, and no neighbours before them fail
the comparison. -/
def MeetsMismatch (c : Comparison) (args : List Value) : Prop :=
  ∃ (i : Nat) (h : i + 1 < args.length), ¬ OfOneKind args[i] args[i + 1] ∧
    ∀ (j : Nat) (hj : j < i), OfOneKind args[j] args[j + 1] → c.HoldsOf args[j] args[j + 1]

/-- The native that makes a comparison. -/
def builtin : Comparison → Builtin
  | .lt => .lt
  | .le => .le
  | .gt => .gt
  | .ge => .ge

/-- The comparison the other way round. -/
def swap : Comparison → Comparison
  | .lt => .gt
  | .le => .ge
  | .gt => .lt
  | .ge => .le

section

variable {α : Type} [LinearOrder α]

theorem holds_compare (c : Comparison) (x y : α) :
    c.holds (some (compare x y)) = true ↔ c.Rel x y := by
  cases c with
  | lt => rw [holds, Rel, beq_iff_eq, compare_lt_iff_lt]
  | le => rw [holds, Rel, bne_iff_ne, ne_eq, compare_gt_iff_gt, not_lt]
  | gt => rw [holds, Rel, beq_iff_eq, compare_gt_iff_gt]
  | ge => rw [holds, Rel, bne_iff_ne, ne_eq, compare_lt_iff_lt, not_lt]

theorem Rel.trans {c : Comparison} {x y z : α} (hxy : c.Rel x y) (hyz : c.Rel y z) : c.Rel x z := by
  cases c with
  | lt => exact lt_trans hxy hyz
  | le => exact le_trans hxy hyz
  | gt => exact lt_trans hyz hxy
  | ge => exact le_trans hyz hxy

theorem rel_swap {c : Comparison} {x y : α} : c.swap.Rel x y ↔ c.Rel y x := by
  cases c <;> rfl

end

section

variable {c : Comparison} {a b v : Value}

theorem HoldsOf.trans {d : Value} (hab : c.HoldsOf a b) (hbd : c.HoldsOf b d) : c.HoldsOf a d := by
  rcases hab with ⟨x, y, ha, hb, hxy⟩ | ⟨x, y, ha, hb, hxy⟩ <;>
    rcases hbd with ⟨y', z, hb', hd, hyz⟩ | ⟨y', z, hb', hd, hyz⟩
  · obtain rfl : y = y' := Option.some.inj (hb.symm.trans hb')
    exact .inl ⟨x, z, ha, hd, hxy.trans hyz⟩
  · rw [hb'] at hb
    cases hb
  · rw [hb] at hb'
    cases hb'
  · rw [hb] at hb'
    cases hb'
    exact .inr ⟨x, z, ha, hd, hxy.trans hyz⟩

instance : IsTrans Value c.HoldsOf :=
  ⟨fun _ _ _ => HoldsOf.trans⟩

theorem holdsOf_swap : c.swap.HoldsOf a b ↔ c.HoldsOf b a := by
  constructor
  · rintro (⟨x, y, ha, hb, hxy⟩ | ⟨x, y, ha, hb, hxy⟩)
    · exact .inl ⟨y, x, hb, ha, rel_swap.mp hxy⟩
    · exact .inr ⟨y, x, hb, ha, rel_swap.mp hxy⟩
  · rintro (⟨y, x, hb, ha, hxy⟩ | ⟨y, x, hb, ha, hxy⟩)
    · exact .inl ⟨x, y, ha, hb, rel_swap.mpr hxy⟩
    · exact .inr ⟨x, y, ha, hb, rel_swap.mpr hxy⟩

/-! ## Two values -/

theorem holdsOf_string {x y : String} : c.HoldsOf (.string x) (.string y) ↔ c.Rel x y := by
  constructor
  · rintro (⟨_, _, hquantity, _⟩ | ⟨x', y', hx, hy, hrel⟩)
    · cases hquantity
    · cases hx
      cases hy
      exact hrel
  · exact fun hrel => .inr ⟨x, y, rfl, rfl, hrel⟩

theorem holdsOf_number {m n : Number} (ha : a.number? = some m) (hb : b.number? = some n) :
    c.HoldsOf a b ↔ c.holds (m.compare? n) = true := by
  have hquantity : ∀ {v : Value} {n : Number}, v.number? = some n → v.quantity? = n.quantity? := by
    intro v n hv
    rw [Value.quantity?, hv, Option.bind_some]
  rw [Number.compare?_eq_quantity, HoldsOf, hquantity ha, hquantity hb]
  constructor
  · rintro (⟨x, y, hx, hy, hrel⟩ | ⟨_, _, rfl, _⟩)
    · rw [hx, hy]
      exact (holds_compare c x y).mpr hrel
    · cases ha
  · intro hholds
    -- nothing holds of a number that stands for nothing
    cases hx : m.quantity? with
    | none =>
        rw [hx] at hholds
        cases c <;> cases hholds
    | some x =>
        cases hy : n.quantity? with
        | none =>
            rw [hx, hy] at hholds
            cases c <;> cases hholds
        | some y =>
            rw [hx, hy] at hholds
            exact .inl ⟨x, y, rfl, rfl, (holds_compare c x y).mp hholds⟩

theorem ofValues_number (name : String) {m n : Number} (ha : a.number? = some m)
    (hb : b.number? = some n) : ofValues name a b = .ok (m.compare? n) := by
  unfold ofValues
  split
  case h_1 => cases ha
  case h_2 => rw [ha, hb]

/-- Two numbers or two texts are compared. -/
theorem ofValues_of_oneKind (name : String) (h : OfOneKind a b) :
    ∃ order, ofValues name a b = .ok order ∧
      ∀ c : Comparison, c.holds order = true ↔ c.HoldsOf a b := by
  rcases h with ⟨ha, hb⟩ | ⟨ha, hb⟩
  · obtain ⟨m, hm⟩ := accepts_number_iff.mp ha
    obtain ⟨n, hn⟩ := accepts_number_iff.mp hb
    exact ⟨_, ofValues_number name hm hn, fun c => (holdsOf_number hm hn).symm⟩
  · obtain ⟨x, rfl⟩ := accepts_string_iff.mp ha
    obtain ⟨y, rfl⟩ := accepts_string_iff.mp hb
    refine ⟨some (ofTexts x y), rfl, fun c => ?_⟩
    rw [ofTexts_eq, holds_compare, holdsOf_string]

/-- Other values have no order. -/
theorem ofValues_of_mismatch (name : String) (h : ¬ OfOneKind a b) :
    ofValues name a b = .error (.incomparable name a.typeName b.typeName) := by
  unfold ofValues
  split
  case h_1 x y => exact absurd (.inr ⟨rfl, rfl⟩) h
  case h_2 =>
    split
    case h_1 m n hm hn =>
      exact absurd (.inl ⟨accepts_number_iff.mpr ⟨m, hm⟩, accepts_number_iff.mpr ⟨n, hn⟩⟩) h
    case h_2 => rfl

/-! ## Chains -/

theorem meetsMismatch_cons_cons {rest : List Value} :
    c.MeetsMismatch (a :: b :: rest) ↔
      ¬ OfOneKind a b ∨ (OfOneKind a b → c.HoldsOf a b) ∧ c.MeetsMismatch (b :: rest) := by
  constructor
  · rintro ⟨i, hi, hmismatch, hbefore⟩
    cases i with
    | zero => exact .inl hmismatch
    | succ i =>
        refine .inr ⟨hbefore 0 (Nat.succ_pos i), i, Nat.lt_of_succ_lt_succ hi, hmismatch, ?_⟩
        exact fun j hj => hbefore (j + 1) (Nat.succ_lt_succ hj)
  · rintro (hmismatch | ⟨hholds, i, hi, hmismatch, hbefore⟩)
    · exact ⟨0, by simp, hmismatch, fun j hj => absurd hj (Nat.not_lt_zero j)⟩
    · refine ⟨i + 1, Nat.succ_lt_succ hi, hmismatch, fun j hj => ?_⟩
      cases j with
      | zero => exact hholds
      | succ j => exact hbefore j (Nat.lt_of_succ_lt_succ hj)

/-- A chain ends with a fault of the types if it meets neighbours that have no order, and otherwise
answers whether all neighbours compare so. -/
theorem chain_cases (c : Comparison) (name : String) (args : List Value) :
    c.MeetsMismatch args ∧ (∃ e : Fault, e.kind = .type ∧ c.chain name args = .error e) ∨
      ¬ c.MeetsMismatch args ∧
        ∃ answer, c.chain name args = .ok answer ∧ (answer = true ↔ args.IsChain c.HoldsOf) := by
  induction args with
  | nil => exact .inr ⟨fun ⟨_, hi, _⟩ => absurd hi (by simp), true, rfl, by simp⟩
  | cons a rest ih =>
      cases rest with
      | nil => exact .inr ⟨fun ⟨_, hi, _⟩ => absurd hi (by simp), true, rfl, by simp⟩
      | cons b rest =>
          -- what comes after the first pair matters only if that pair compares so
          rw [chain, meetsMismatch_cons_cons, List.isChain_cons_cons]
          by_cases hkind : OfOneKind a b
          · obtain ⟨order, horder, hholds⟩ := ofValues_of_oneKind name hkind
            rw [horder, ok_bind, not_or, not_not]
            by_cases hab : c.HoldsOf a b
            · rw [if_pos ((hholds c).mpr hab)]
              simpa [hkind, hab] using ih
            · rw [if_neg fun h => hab ((hholds c).mp h)]
              exact .inr ⟨⟨hkind, fun h => hab (h.1 hkind)⟩, false, rfl, by simp [hab]⟩
          · rw [ofValues_of_mismatch name hkind, error_bind]
            exact .inl ⟨.inl hkind, _, rfl, rfl⟩

/-- A chain of two is one comparison. -/
theorem chain_pair {name : String} {order : Option Ordering} (h : ofValues name a b = .ok order) :
    c.chain name [a, b] = .ok (c.holds order) := by
  rw [chain, h, ok_bind]
  cases c.holds order <;> rfl

/-! ## Values with one order -/

theorem oneKind_of_inOneOrder {args : List Value} (h : InOneOrder args) (ha : a ∈ args)
    (hb : b ∈ args) : OfOneKind a b := by
  have hnumber : ∀ v : Value, (∃ q, v.quantity? = some q) → Kind.number.accepts v = true := by
    rintro v ⟨q, hq⟩
    obtain ⟨n, hn, -⟩ := Option.bind_eq_some_iff.mp hq
    exact accepts_number_iff.mpr ⟨n, hn⟩
  rcases h with hquantities | htexts
  · exact .inl ⟨hnumber a (hquantities a ha), hnumber b (hquantities b hb)⟩
  · obtain ⟨x, rfl⟩ := htexts a ha
    obtain ⟨y, rfl⟩ := htexts b hb
    exact .inr ⟨rfl, rfl⟩

theorem not_meetsMismatch {args : List Value} (h : InOneOrder args) : ¬ c.MeetsMismatch args :=
  fun ⟨_, _, hmismatch, _⟩ =>
    hmismatch (oneKind_of_inOneOrder h (List.getElem_mem _) (List.getElem_mem _))

/-- Neighbours compare so exactly if all values do. -/
theorem chain_of_inOneOrder (c : Comparison) (name : String) {args : List Value}
    (h : InOneOrder args) :
    ∃ answer, c.chain name args = .ok answer ∧ (answer = true ↔ args.Pairwise c.HoldsOf) := by
  rcases chain_cases c name args with ⟨hmismatch, _⟩ | ⟨_, answer, hanswer, hiff⟩
  · exact absurd hmismatch (not_meetsMismatch h)
  · exact ⟨answer, hanswer, hiff.trans List.isChain_iff_pairwise⟩

theorem inOneOrder_reverse {args : List Value} (h : InOneOrder args) : InOneOrder args.reverse := by
  simpa only [InOneOrder, List.mem_reverse] using h

/-- The comparison the other way round of the values in the other order is the same. -/
theorem chain_reverse (c : Comparison) (name name' : String) {args : List Value}
    (h : InOneOrder args) : c.swap.chain name args = c.chain name' args.reverse := by
  obtain ⟨answer, hanswer, hiff⟩ := chain_of_inOneOrder c.swap name h
  obtain ⟨answer', hanswer', hiff'⟩ := chain_of_inOneOrder c name' (inOneOrder_reverse h)
  rw [hanswer, hanswer', Except.ok.injEq, Bool.eq_iff_iff, hiff, hiff', List.pairwise_reverse]
  exact List.Pairwise.iff fun a b => holdsOf_swap

theorem equal_number {s : Store} {m n : Number} (ha : a.number? = some m) (hb : b.number? = some n) :
    s.equal a b = .ok (m.sameValue n) := by
  rcases int_or_float_of_number? ha with ⟨i, rfl⟩ | ⟨x, rfl⟩ <;>
    rcases int_or_float_of_number? hb with ⟨j, rfl⟩ | ⟨y, rfl⟩ <;> cases ha <;> cases hb
  · rw [Number.sameValue_int]
    rfl
  all_goals rfl

/-- Two values with one order come one way or the other, or are equal. -/
theorem exists_order (s : Store) {args : List Value} (h : InOneOrder args) (ha : a ∈ args)
    (hb : b ∈ args) :
    ∃ o : Ordering, (∀ name, ofValues name a b = .ok (some o)) ∧ s.equal a b = .ok (o == .eq) := by
  rcases h with hquantities | htexts
  · obtain ⟨x, hx⟩ := hquantities a ha
    obtain ⟨y, hy⟩ := hquantities b hb
    obtain ⟨m, hm, hmx⟩ := Option.bind_eq_some_iff.mp hx
    obtain ⟨n, hn, hny⟩ := Option.bind_eq_some_iff.mp hy
    have horder : m.compare? n = some (compare x y) := by
      rw [Number.compare?_eq_quantity, hmx, hny, Option.bind_some, Option.map_some]
    refine ⟨compare x y, fun name => by rw [ofValues_number name hm hn, horder], ?_⟩
    rw [equal_number hm hn, Number.sameValue, horder]
    rfl
  · obtain ⟨x, rfl⟩ := htexts a ha
    obtain ⟨y, rfl⟩ := htexts b hb
    refine ⟨ofTexts x y, fun _ => rfl, ?_⟩
    rw [Store.equal_atom rfl, ofTexts_eq, Except.ok.injEq, Bool.eq_iff_iff, Atom.same_iff,
      beq_iff_eq, compare_eq_iff_eq]
    simp [Atom.identity?, eq_comm]

/-! ## Calls -/

theorem run_builtin {m : Machine} (c : Comparison) {args : List Value} (hargs : 2 ≤ args.length) :
    (c.builtin.run args).guarded m =
      match c.chain c.builtin.name args with
      | .ok answer => (.ok (.bool answer), m)
      | .error e => (.error e, m) := by
  have harity := @check_requireArity c.builtin.name _ _ hargs m
  have hlift : c.builtin.run args = liftM (c.run c.builtin.name args) := by cases c <;> rfl
  rw [hlift]
  cases hchain : c.chain c.builtin.name args with
  | ok answer =>
      have hcheck : check (c.chain c.builtin.name args) m = (.ok answer, m) := by
        rw [check, hchain]
      refine guarded_of_ok (liftM_of_ok ?_)
      rw [run, Computation.bind_of_ok harity, Computation.bind_of_ok hcheck]
      rfl
  | error e =>
      have hcheck : check (c.chain c.builtin.name args) m = (.error e, m) := by
        rw [check, hchain]
      refine guarded_of_error (r := .fault e) (liftM_of_error ?_)
      rw [run, Computation.bind_of_ok harity, Computation.bind_of_error hcheck]

theorem run_builtin_pair {m : Machine} (c : Comparison) {o : Ordering}
    (h : ∀ name, ofValues name a b = .ok (some o)) :
    (c.builtin.run [a, b]).guarded m = (.ok (.bool (c.holds (some o))), m) := by
  have htwo : 2 ≤ [a, b].length := Nat.le_refl 2
  rw [run_builtin c htwo, chain_pair (h _)]

end

end Comparison

theorem run_eq_pair {m : Machine} {a b : Value} {answer : Bool}
    (h : m.store.equal a b = .ok answer) :
    (Builtin.eq.run [a, b]).guarded m = (.ok (.bool answer), m) := by
  have hall : m.store.equalsAll a [b] = .ok answer := by
    rw [Store.equalsAll, h, ok_bind]
    cases answer <;> rfl
  have hanswer : equalBuiltin [a, b] m = (.ok answer, m) := by
    show (m.store.equalsAll a [b], m) = _
    rw [hall]
  refine guarded_of_ok ?_
  rw [Builtin.run, Computation.bind_of_ok (liftM_of_ok hanswer)]
  rfl

/-- A comparison asks whether its arguments are sorted. If two arguments or more are all numbers that
are numbers, or all texts, `<` and `<=` answer whether each is less than, or at most, every later one;
`>` and `>=` answer what those answer for the arguments in the other order; and of any two arguments
exactly one of `<`, `=` and `>` is true. Whatever the arguments are, a comparison comes to a fault of
the types exactly if it meets two neighbours that are neither two numbers nor two texts before a pair
that fails, and otherwise answers a truth value. -/
theorem comparisons_ask_for_sortedness (m : Machine) {args : List Value} (hargs : 2 ≤ args.length) :
    (InOneOrder args →
      (∃ answer, (Builtin.lt.run args).guarded m = (.ok (.bool answer), m) ∧
        (answer = true ↔ args.Pairwise Comparison.lt.HoldsOf)) ∧
      (∃ answer, (Builtin.le.run args).guarded m = (.ok (.bool answer), m) ∧
        (answer = true ↔ args.Pairwise Comparison.le.HoldsOf)) ∧
      (Builtin.gt.run args).guarded m = (Builtin.lt.run args.reverse).guarded m ∧
      (Builtin.ge.run args).guarded m = (Builtin.le.run args.reverse).guarded m ∧
      ∀ a ∈ args, ∀ b ∈ args, ∃ o : Ordering,
        (Builtin.lt.run [a, b]).guarded m = (.ok (.bool (o == .lt)), m) ∧
        (Builtin.eq.run [a, b]).guarded m = (.ok (.bool (o == .eq)), m) ∧
        (Builtin.gt.run [a, b]).guarded m = (.ok (.bool (o == .gt)), m)) ∧
    ∀ c : Comparison,
      c.MeetsMismatch args ∧
          (∃ e : Fault, e.kind = .type ∧ (c.builtin.run args).guarded m = (.error e, m)) ∨
        ¬ c.MeetsMismatch args ∧
          ∃ answer, (c.builtin.run args).guarded m = (.ok (.bool answer), m) := by
  constructor
  · intro horder
    -- the comparison goes over neighbours, which is enough because it is transitive
    have hsorted : ∀ c : Comparison, ∃ answer,
        (c.builtin.run args).guarded m = (.ok (.bool answer), m) ∧
          (answer = true ↔ args.Pairwise c.HoldsOf) := by
      intro c
      obtain ⟨answer, hanswer, hiff⟩ := c.chain_of_inOneOrder c.builtin.name horder
      exact ⟨answer, by rw [Comparison.run_builtin c hargs, hanswer], hiff⟩
    have hreverse : ∀ c : Comparison,
        (c.swap.builtin.run args).guarded m = (c.builtin.run args.reverse).guarded m := by
      intro c
      have hlength : 2 ≤ args.reverse.length := by rwa [List.length_reverse]
      rw [Comparison.run_builtin _ hargs, Comparison.run_builtin _ hlength,
        Comparison.chain_reverse c _ c.builtin.name horder]
    refine ⟨hsorted .lt, hsorted .le, hreverse .lt, hreverse .le, fun a ha b hb => ?_⟩
    obtain ⟨o, hvalues, hequal⟩ := Comparison.exists_order m.store horder ha hb
    exact ⟨o, Comparison.run_builtin_pair .lt hvalues, run_eq_pair hequal,
      Comparison.run_builtin_pair .gt hvalues⟩
  · intro c
    rw [Comparison.run_builtin c hargs]
    rcases c.chain_cases c.builtin.name args with
      ⟨hmeets, e, hkind, he⟩ | ⟨hmeets, answer, hanswer, -⟩
    · exact .inl ⟨hmeets, e, hkind, by rw [he]⟩
    · exact .inr ⟨hmeets, answer, by rw [hanswer]⟩

/-- An infinity, a whole number and a double are in order. A truth value behind whole numbers is a fault
if these are in order; if they are not, the comparison is over before it comes to the truth value. -/
theorem comparisons_ask_for_sortedness_of_mixed_arguments :
    let m := Machine.initial .empty 0
    (Builtin.lt.run [.float (.infinite true), .int (-1), .float (.zero true)]).guarded m =
      (.ok (.bool true), m) ∧
    (∃ e : Fault, e.kind = .type ∧
      (Builtin.lt.run [.int 1, .int 3, .bool true]).guarded m = (.error e, m)) ∧
    ∃ answer, (Builtin.lt.run [.int 3, .int 1, .bool true]).guarded m = (.ok (.bool answer), m) := by
  intro m
  refine ⟨?_, ?_, ?_⟩
  · have hlow : (Value.float (.infinite true)).quantity? = some ⊥ := rfl
    have hone : (Value.int (-1)).quantity? = some (unitsQuantity (-1 * unitsPerOne)) := by
      rw [unitsQuantity_mul_unitsPerOne]
      rfl
    have hzero : (Value.float (.zero true)).quantity? = some (unitsQuantity 0) := rfl
    have hlt : (-1 * unitsPerOne : Int) < 0 := by
      rw [neg_one_mul, neg_lt_zero]
      exact_mod_cast unitsPerOne_pos
    obtain ⟨hsorted, -⟩ :=
      @comparisons_ask_for_sortedness m [.float (.infinite true), .int (-1), .float (.zero true)]
        (by simp)
    obtain ⟨⟨answer, hanswer, hiff⟩, -⟩ := hsorted (.inl (by
      rw [List.forall_mem_cons, List.forall_mem_cons, List.forall_mem_singleton]
      exact ⟨⟨_, hlow⟩, ⟨_, hone⟩, ⟨_, hzero⟩⟩))
    obtain rfl : answer = true := by
      rw [hiff]
      refine .cons ?_ (.cons ?_ (.cons (by simp) .nil))
      · rw [List.forall_mem_cons, List.forall_mem_singleton]
        exact ⟨.inl ⟨_, _, hlow, hone, bot_lt_unitsQuantity _⟩,
          .inl ⟨_, _, hlow, hzero, bot_lt_unitsQuantity _⟩⟩
      · rw [List.forall_mem_singleton]
        exact .inl ⟨_, _, hone, hzero, unitsQuantity_lt hlt⟩
    exact hanswer
  · obtain ⟨-, hall⟩ :=
      @comparisons_ask_for_sortedness m [.int 1, .int 3, .bool true] (by simp)
    rcases hall .lt with ⟨-, hfault⟩ | ⟨hmeets, -⟩
    · exact hfault
    · have hkind : ¬ OfOneKind (.int 3) (.bool true) := by
        rintro (⟨-, h⟩ | ⟨h, -⟩) <;> cases h
      have hholds : Comparison.lt.HoldsOf (.int 1) (.int 3) :=
        (Comparison.holdsOf_number rfl rfl).mpr (by decide)
      refine absurd ?_ hmeets
      rw [Comparison.meetsMismatch_cons_cons, Comparison.meetsMismatch_cons_cons]
      exact .inr ⟨fun _ => hholds, .inl hkind⟩
  · obtain ⟨-, hall⟩ :=
      @comparisons_ask_for_sortedness m [.int 3, .int 1, .bool true] (by simp)
    rcases hall .lt with ⟨hmeets, -⟩ | ⟨-, hanswer⟩
    · have hfails : ¬ Comparison.lt.HoldsOf (.int 3) (.int 1) := by
        rw [Comparison.holdsOf_number rfl rfl]
        decide
      rcases Comparison.meetsMismatch_cons_cons.mp hmeets with hkind | ⟨hholds, -⟩
      · exact absurd (.inl ⟨rfl, rfl⟩) hkind
      · exact absurd (hholds (.inl ⟨rfl, rfl⟩)) hfails
    · exact hanswer

end DispatchLisp
