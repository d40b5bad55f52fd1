import DispatchLisp.Proofs.Builtin.Operators
import DispatchLisp.Proofs.Evaluation.WellFounded
import DispatchLisp.Proofs.Number.Range
import DispatchLisp.Proofs.Signature
import Mathlib.Algebra.BigOperators.Group.List.Basic
import Mathlib.Data.List.Perm.Basic

/-!
# Proofs.Builtin.Addition — what `+` answers is decided by the kinds of its arguments

`+` decides at each step, from what it has so far, whether to join texts or to add numbers. What it
has so far stays of its kind: a text stays a text (`fold_add_string`), a double stays a double
(`fold_add_float`), and whole numbers are a whole number until a double comes (`fold_add_int`). So the
kinds of the arguments tell what comes out, and where a text and a number meet the wrong way round
nothing does (`fold_add_refused`).

Main statement: `addition_by_kinds`.
-/

namespace DispatchLisp

/-! ## Numbers -/

/-- A whole number that is too large becomes no double, which is an arithmetic fault at the border of
the call; any other becomes one. -/
theorem toBinary64_int (n : Int) :
    IsTooLarge n ∧ (∃ r, r.toFault.kind = .arithmetic ∧ (Number.int n).toBinary64 = .error r) ∨
      ¬ IsTooLarge n ∧ ∃ y, (Number.int n).toBinary64 = .ok y := by
  rw [← Binary64.ofInt?_eq_none_iff, Number.toBinary64, Number.toBinary64?]
  cases Binary64.ofInt? n with
  | none => exact .inl ⟨rfl, _, rfl, rfl⟩
  | some y => exact .inr ⟨by simp, y, rfl⟩

/-! ## One addition -/

section

variable {s : Store}

theorem apply_add_of_not_string {a : Value} (ha : ∀ text, a ≠ .string text) (b : Value) :
    Operation.add.apply s a b = Operation.add.onValues a b := by
  unfold Operation.apply
  split
  case h_1 text _ => exact absurd rfl (ha text)
  all_goals first | rfl | contradiction

theorem not_string_of_number {a : Value} (h : Kind.number.accepts a = true) (text : String) :
    a ≠ .string text := by
  rintro rfl
  cases h

theorem apply_add_int_int (a b : Int) :
    Operation.add.apply s (.int a) (.int b) = .ok (.int (a + b)) :=
  rfl

theorem apply_add_float_float (x y : Binary64) :
    Operation.add.apply s (.float x) (.float y) = .ok (.float (x.add y)) :=
  rfl

theorem toBinary64_float (x : Binary64) : (Number.float x).toBinary64 = .ok x :=
  rfl

/-- Where one of two numbers is a double, both become doubles. -/
theorem onNumbers_of_not_int (op : Operation) {a b : Number}
    (h : ∀ i j, a = .int i → b = .int j → False) :
    op.onNumbers a b = (do
      let x ← a.toBinary64
      let y ← b.toBinary64
      .ok (.float (op.onFloats x y))) := by
  rw [Operation.onNumbers]
  exact h

theorem apply_add_int_float (a : Int) (y : Binary64) :
    Operation.add.apply s (.int a) (.float y) =
      ((Number.int a).toBinary64 >>= fun x => .ok (.float (x.add y))) := by
  have hnumbers : Operation.add.onValues (.int a) (.float y) =
      Operation.add.onNumbers (.int a) (.float y) := rfl
  rw [apply_add_of_not_string (not_string_of_number rfl), hnumbers,
    onNumbers_of_not_int _ (by rintro i j _ h; cases h)]
  simp only [toBinary64_float, ok_bind, Operation.onFloats]

theorem apply_add_float_int (x : Binary64) (b : Int) :
    Operation.add.apply s (.float x) (.int b) =
      ((Number.int b).toBinary64 >>= fun y => .ok (.float (x.add y))) := by
  have hnumbers : Operation.add.onValues (.float x) (.int b) =
      Operation.add.onNumbers (.float x) (.int b) := rfl
  rw [apply_add_of_not_string (not_string_of_number rfl), hnumbers,
    onNumbers_of_not_int _ (by rintro i j h; cases h), toBinary64_float, ok_bind]
  simp only [Operation.onFloats]

/-- Two values one of which is no number cannot be added. -/
theorem apply_add_refused {a b : Value} (ha : ∀ text, a ≠ .string text)
    (h : Kind.number.accepts a = false ∨ Kind.number.accepts b = false) :
    Operation.add.apply s a b =
      .error (.fault (.badOperands Operation.add.name a.typeName b.typeName)) := by
  rw [apply_add_of_not_string ha, Operation.onValues]
  split
  case h_1 m n hm hn =>
    rw [accepts_number_iff.mpr ⟨m, hm⟩, accepts_number_iff.mpr ⟨n, hn⟩] at h
    rcases h with h | h <;> cases h
  case h_2 => rfl

/-- Two numbers have a sum that is a number, or one of them is too large for a double. -/
theorem apply_add_cases {a b : Value} (ha : Kind.number.accepts a = true)
    (hb : Kind.number.accepts b = true) :
    (∃ sum, Operation.add.apply s a b = .ok sum ∧ Kind.number.accepts sum = true) ∨
      ∃ r, Operation.add.apply s a b = .error r ∧ r.toFault.kind = .arithmetic := by
  obtain ⟨m, hm⟩ := accepts_number_iff.mp ha
  obtain ⟨n, hn⟩ := accepts_number_iff.mp hb
  rcases int_or_float_of_number? hm with ⟨i, rfl⟩ | ⟨x, rfl⟩ <;>
    rcases int_or_float_of_number? hn with ⟨j, rfl⟩ | ⟨y, rfl⟩
  · exact .inl ⟨.int (i + j), rfl, rfl⟩
  · rw [apply_add_int_float]
    rcases toBinary64_int i with ⟨_, r, hr, hi⟩ | ⟨_, x, hi⟩
    · exact .inr ⟨r, by rw [hi, error_bind], hr⟩
    · exact .inl ⟨.float (x.add y), by rw [hi, ok_bind], rfl⟩
  · rw [apply_add_float_int]
    rcases toBinary64_int j with ⟨_, r, hr, hj⟩ | ⟨_, y, hj⟩
    · exact .inr ⟨r, by rw [hj, error_bind], hr⟩
    · exact .inl ⟨.float (x.add y), by rw [hj, ok_bind], rfl⟩
  · exact .inl ⟨.float (x.add y), rfl, rfl⟩

/-! ## One addition after another -/

/-- Whole numbers come to their sum. -/
theorem fold_add_int (a : Int) (bs : List Int) :
    Operation.add.fold s (.int a) (bs.map .int) = .ok (.int (a + bs.sum)) := by
  induction bs generalizing a with
  | nil => rw [List.map_nil, List.sum_nil, Int.add_zero, Operation.fold]
  | cons b bs ih =>
      rw [List.map_cons, Operation.fold, apply_add_int_int, ok_bind, ih, List.sum_cons,
        Int.add_assoc]

/-- A double and numbers come to a double, unless one of them is a whole number that is too large. -/
theorem fold_add_float (x : Binary64) {after : List Value}
    (hafter : ∀ v ∈ after, Kind.number.accepts v = true) :
    (∃ n, .int n ∈ after ∧ IsTooLarge n) ∧
        (∃ r, Operation.add.fold s (.float x) after = .error r ∧ r.toFault.kind = .arithmetic) ∨
      (∀ n, .int n ∈ after → ¬ IsTooLarge n) ∧
        ∃ y, Operation.add.fold s (.float x) after = .ok (.float y) := by
  induction after generalizing x with
  | nil => exact .inr ⟨fun n hn => (List.not_mem_nil hn).elim, x, rfl⟩
  | cons v after ih =>
      obtain ⟨hv, hothers⟩ := List.forall_mem_cons.mp hafter
      obtain ⟨number, hnumber⟩ := accepts_number_iff.mp hv
      rcases int_or_float_of_number? hnumber with ⟨k, rfl⟩ | ⟨y, rfl⟩
      · rw [Operation.fold, apply_add_float_int]
        -- the sum is a double already, so the whole number has to become one
        rcases toBinary64_int k with ⟨hlarge, r, hr, hk⟩ | ⟨hsmall, y, hk⟩
        · refine .inl ⟨⟨k, List.mem_cons_self, hlarge⟩, r, ?_, hr⟩
          rw [hk, error_bind, error_bind]
        · rw [hk, ok_bind, ok_bind]
          rcases ih (x.add y) hothers with ⟨⟨n, hn, hlarge⟩, hfail⟩ | ⟨hall, hsum⟩
          · exact .inl ⟨⟨n, List.mem_cons_of_mem _ hn, hlarge⟩, hfail⟩
          · refine .inr ⟨fun n hn => ?_, hsum⟩
            rcases List.mem_cons.mp hn with heq | hn
            · cases heq
              exact hsmall
            · exact hall n hn
      · rw [Operation.fold, apply_add_float_float, ok_bind]
        simpa using ih (x.add y) hothers

/-- Whole numbers, a double and more numbers come to what a double and those numbers come to, unless
the sum of the whole numbers is too large. -/
theorem fold_add_before (a : Int) (before : List Int) (x : Binary64) (after : List Value) :
    IsTooLarge (a + before.sum) ∧
        (∃ r, Operation.add.fold s (.int a) (before.map .int ++ .float x :: after) = .error r ∧
          r.toFault.kind = .arithmetic) ∨
      ¬ IsTooLarge (a + before.sum) ∧
        ∃ y, Operation.add.fold s (.int a) (before.map .int ++ .float x :: after) =
          Operation.add.fold s (.float y) after := by
  rw [Operation.fold_append, fold_add_int, ok_bind, Operation.fold, apply_add_int_float]
  rcases toBinary64_int (a + before.sum) with ⟨hlarge, r, hr, hsum⟩ | ⟨hsmall, y, hsum⟩
  · exact .inl ⟨hlarge, r, by rw [hsum, error_bind, error_bind], hr⟩
  · exact .inr ⟨hsmall, y.add x, by rw [hsum, ok_bind, ok_bind]⟩

/-- A text and values come to the text with what the values add to it. -/
theorem fold_add_string (text : String) (args : List Value) :
    Operation.add.fold s (.string text) args =
      match plainTexts s args with
      | .ok texts => .ok (.string (text ++ String.join texts))
      | .error e => .error (.fault e) := by
  induction args generalizing text with
  | nil => simp [Operation.fold, plainTexts]
  | cons v args ih =>
      rw [Operation.fold, Operation.apply, plainTexts]
      cases plainText s v with
      | error e => rfl
      | ok tail =>
          simp only [ok_bind]
          rw [ih]
          cases plainTexts s args with
          | error e => rfl
          | ok texts => simp [ok_bind, String.join_cons, String.append_assoc]

/-- A value that is no text and values that are not all numbers with it come to nothing. -/
theorem fold_add_refused {v : Value} {rest : List Value} (hrest : rest ≠ [])
    (hv : ∀ text, v ≠ .string text) (h : ∃ w ∈ v :: rest, Kind.number.accepts w = false) :
    ∃ r, Operation.add.fold s v rest = .error r ∧
      (r.toFault.kind = .type ∨ r.toFault.kind = .arithmetic) := by
  induction rest generalizing v with
  | nil => exact absurd rfl hrest
  | cons w rest ih =>
      rw [Operation.fold]
      by_cases hboth : Kind.number.accepts v = true ∧ Kind.number.accepts w = true
      · rcases apply_add_cases (s := s) hboth.1 hboth.2 with ⟨sum, hsum, hnumber⟩ | ⟨r, hr, hkind⟩
        · rw [hsum, ok_bind]
          -- the value that is no number is still to come
          have hlater : ∃ u ∈ rest, Kind.number.accepts u = false := by
            obtain ⟨u, hu, hrefused⟩ := h
            rcases List.mem_cons.mp hu with rfl | hu
            · rw [hboth.1] at hrefused
              cases hrefused
            · rcases List.mem_cons.mp hu with rfl | hu
              · rw [hboth.2] at hrefused
                cases hrefused
              · exact ⟨u, hu, hrefused⟩
          obtain ⟨u, hu, hrefused⟩ := hlater
          refine ih (List.ne_nil_of_mem hu) (not_string_of_number hnumber)
            ⟨u, List.mem_cons_of_mem _ hu, hrefused⟩
        · exact ⟨r, by rw [hr, error_bind], .inr hkind⟩
      · have hrefused : Kind.number.accepts v = false ∨ Kind.number.accepts w = false := by
          rw [← Bool.not_eq_true, ← Bool.not_eq_true]
          exact not_and_or.mp hboth
        exact ⟨_, by rw [apply_add_refused hv hrefused, error_bind], .inl rfl⟩

end

/-! ## Whole numbers that take part -/

/-- The whole numbers in front of the first value that is none. -/
def leadingInts : List Value → List Int
  | .int n :: rest => n :: leadingInts rest
  | _ => []

/-- Whether a whole number that is too large for a double takes part in adding numbers one of which is
a double: the sum of those in front of the first double, or one behind it. -/
def TooLargePart (args : List Value) : Prop :=
  leadingInts args ≠ [] ∧ IsTooLarge (leadingInts args).sum ∨
    ∃ n, .int n ∈ args.drop ((leadingInts args).length + 1) ∧ IsTooLarge n

theorem leadingInts_append (before : List Int) (x : Binary64) (after : List Value) :
    leadingInts (before.map .int ++ .float x :: after) = before := by
  induction before with
  | nil => rfl
  | cons n before ih => exact congrArg (n :: ·) ih

theorem tooLargePart_append {before : List Int} {x : Binary64} {after : List Value} :
    TooLargePart (before.map .int ++ .float x :: after) ↔
      before ≠ [] ∧ IsTooLarge before.sum ∨ ∃ n, .int n ∈ after ∧ IsTooLarge n := by
  have hbehind : (before.map Value.int ++ .float x :: after).drop (before.length + 1) = after := by
    rw [List.append_cons, List.drop_left']
    simp
  rw [TooLargePart, leadingInts_append, hbehind]

/-- Numbers one of which is a double start with whole numbers and a double. -/
theorem exists_first_float {args : List Value} (hnumbers : ∀ v ∈ args, Kind.number.accepts v = true)
    (hfloat : ∃ v ∈ args, Kind.float.accepts v = true) :
    ∃ (before : List Int) (x : Binary64) (after : List Value),
      args = before.map .int ++ .float x :: after ∧
        ∀ v ∈ after, Kind.number.accepts v = true := by
  induction args with
  | nil =>
      obtain ⟨v, hv, _⟩ := hfloat
      cases hv
  | cons v args ih =>
      obtain ⟨hv, hothers⟩ := List.forall_mem_cons.mp hnumbers
      obtain ⟨number, hnumber⟩ := accepts_number_iff.mp hv
      rcases int_or_float_of_number? hnumber with ⟨k, rfl⟩ | ⟨x, rfl⟩
      · have hlater : ∃ w ∈ args, Kind.float.accepts w = true := by
          obtain ⟨w, hw, hkind⟩ := hfloat
          rcases List.mem_cons.mp hw with rfl | hw
          · cases hkind
          · exact ⟨w, hw, hkind⟩
        obtain ⟨before, x, after, rfl, hafter⟩ := ih hothers hlater
        exact ⟨k :: before, x, after, rfl, hafter⟩
      · exact ⟨[], x, args, rfl, hothers⟩

/-! ## Calls -/

section

variable {m : Machine} {first : Value} {rest : List Value}

/-- Where the arguments start with a text, `+` does what `str` does. -/
theorem run_add_string (hrest : rest ≠ []) {text : String}
    (hacyclic : ∀ v ∈ Value.string text :: rest, m.store.AcyclicFrom v) :
    ∃ joined, Builtin.add.run (.string text :: rest) m = (.ok (.string joined), m) ∧
      Builtin.str.run (.string text :: rest) m = (.ok (.string joined), m) := by
  obtain ⟨_, hothers⟩ := List.forall_mem_cons.mp hacyclic
  obtain ⟨texts, htexts⟩ := plainTexts_of_acyclicFrom hothers
  have hall : plainTexts m.store (.string text :: rest) = .ok (text :: texts) := by
    rw [plainTexts, htexts]
    rfl
  refine ⟨text ++ String.join texts, ?_, ?_⟩
  · refine Operation.run_of_ok hrest ?_ fun x heq => by cases heq
    rw [fold_add_string, htexts]
  · rw [← String.join_cons]
    exact liftM_of_ok (strBuiltin_of_texts hall)

/-- Numbers one of which is a double come to a double, unless a whole number that takes part is too
large. -/
theorem run_add_float {args : List Value} (hargs : 2 ≤ args.length)
    (hnumbers : ∀ v ∈ args, Kind.number.accepts v = true)
    (hfloat : ∃ v ∈ args, Kind.float.accepts v = true) :
    TooLargePart args ∧ (∃ r, r.toFault.kind = .arithmetic ∧
        Builtin.add.run args m = (.error r, m)) ∨
      ¬ TooLargePart args ∧ ∃ y nans, Builtin.add.run args m =
        (.ok (.float y), { m with store := { m.store with nans } }) := by
  -- up to the first double the sum is a whole number, which has to become a double there;
  -- from then on it is a double, and each whole number has to become one by itself
  obtain ⟨before, x, after, rfl, hafter⟩ := exists_first_float hnumbers hfloat
  rw [tooLargePart_append]
  cases before with
  | nil =>
      have hrest : after ≠ [] := by
        rintro rfl
        exact absurd hargs (by simp)
      rcases fold_add_float (s := m.store) x hafter with ⟨hlarge, r, hr, hkind⟩ | ⟨hsmall, y, hy⟩
      · exact .inl ⟨.inr hlarge, r, hkind, Operation.run_of_error hrest hr⟩
      · refine .inr ⟨?_, Operation.run_of_float hrest hy⟩
        rintro (⟨hempty, _⟩ | ⟨n, hn, hlarge⟩)
        · exact hempty rfl
        · exact hsmall n hn hlarge
  | cons a before =>
      have hrest : before.map Value.int ++ .float x :: after ≠ [] :=
        List.append_ne_nil_of_right_ne_nil _ (List.cons_ne_nil _ _)
      rw [List.sum_cons]
      rcases fold_add_before (s := m.store) a before x after with
        ⟨hlarge, r, hr, hkind⟩ | ⟨hsum, y, hfold⟩
      · exact .inl ⟨.inl ⟨List.cons_ne_nil _ _, hlarge⟩, r, hkind, Operation.run_of_error hrest hr⟩
      · rcases fold_add_float (s := m.store) y hafter with
          ⟨hlarge, r, hr, hkind⟩ | ⟨hsmall, z, hz⟩
        · exact .inl ⟨.inr hlarge, r, hkind, Operation.run_of_error hrest (hfold.trans hr)⟩
        · refine .inr ⟨?_, Operation.run_of_float hrest (hfold.trans hz)⟩
          rintro (⟨_, hlarge⟩ | ⟨n, hn, hlarge⟩)
          · exact hsum hlarge
          · exact hsmall n hn hlarge

end

end DispatchLisp
