import DispatchLisp.Proofs.Except
import DispatchLisp.Signature
import Mathlib.Data.List.Forall2

/-!
# Proofs.Signature — what arguments have passed a check

A check of arguments succeeds exactly when there are as many as expected and each of them is of one of
the kinds that are expected at its position (`requireArguments_eq_ok_iff`). What is of the kind of
lists, dicts or whole numbers is one.
-/

namespace DispatchLisp

/-- Whether a value is of one of some kinds. -/
def Kinds.Accept (kinds : Kinds) (v : Value) : Prop :=
  ∃ kind ∈ kinds, kind.accepts v = true

theorem requireArity_eq_ok_iff {name : String} {count least : Nat} {most : Option Nat} :
    requireArity name count least most = .ok () ↔ least ≤ count ∧ ∀ n ∈ most, count ≤ n := by
  unfold requireArity
  split
  case isTrue hfew => simp [Nat.not_le.mpr hfew]
  case isFalse henough =>
    cases most with
    | none => simp [Nat.not_lt.mp henough]
    | some n => by_cases hn : n < count <;> simp [hn, Nat.not_lt.mp henough] ; omega

theorem requireKind_eq_ok_iff {name : String} {v : Value} {kinds : Kinds} {position : Nat} :
    requireKind name v kinds position = .ok () ↔ kinds.Accept v := by
  unfold requireKind Kinds.Accept
  rw [← List.any_eq_true]
  split
  case isTrue h => simp [h]
  case isFalse h => simp [h]

/-- Kinds are checked at the positions that both have. -/
theorem requireKinds_cons_eq_ok_iff {name : String} {position : Nat} {v : Value} {args : List Value}
    {kinds : Kinds} {expected : List Kinds} :
    requireKinds name position (v :: args) (kinds :: expected) = .ok () ↔
      kinds.Accept v ∧ requireKinds name (position + 1) args expected = .ok () := by
  rw [requireKinds, bind_eq_ok]
  constructor
  · rintro ⟨_, hkind, hrest⟩
    exact ⟨requireKind_eq_ok_iff.mp hkind, hrest⟩
  · rintro ⟨hkind, hrest⟩
    exact ⟨(), requireKind_eq_ok_iff.mpr hkind, hrest⟩

theorem requireKinds_eq_ok_iff {name : String} {position : Nat} {args : List Value}
    {expected : List Kinds} (h : args.length = expected.length) :
    requireKinds name position args expected = .ok () ↔
      List.Forall₂ (fun v kinds => Kinds.Accept kinds v) args expected := by
  induction args generalizing expected position with
  | nil =>
      rw [List.length_eq_zero_iff.mp h.symm]
      exact ⟨fun _ => .nil, fun _ => rfl⟩
  | cons v args ih =>
      obtain _ | ⟨kinds, expected⟩ := expected
      · cases h
      · rw [requireKinds_cons_eq_ok_iff, ih (Nat.succ.inj h), List.forall₂_cons]

/-- Checked arguments are those that are expected, one for one. -/
theorem requireArguments_eq_ok_iff {name : String} {args : List Value} {expected : List Kinds} :
    requireArguments name args expected = .ok () ↔
      List.Forall₂ (fun v kinds => Kinds.Accept kinds v) args expected := by
  rw [requireArguments, bind_eq_ok]
  constructor
  · rintro ⟨_, harity, hkinds⟩
    obtain ⟨hleast, hmost⟩ := requireArity_eq_ok_iff.mp harity
    exact (requireKinds_eq_ok_iff (Nat.le_antisymm (hmost _ rfl) hleast)).mp hkinds
  · intro h
    have hlength := h.length_eq
    have harity : requireArity name args.length expected.length (some expected.length) = .ok () :=
      requireArity_eq_ok_iff.mpr ⟨Nat.le_of_eq hlength.symm, by simp [hlength]⟩
    exact ⟨(), harity, (requireKinds_eq_ok_iff hlength).mpr h⟩

/-! ## Kinds of values -/

theorem Kinds.accept_singleton {kind : Kind} {v : Value} :
    Kinds.Accept [kind] v ↔ kind.accepts v = true := by
  simp [Kinds.Accept]

/-- What is of the kind of lists, dicts or whole numbers is one. -/
theorem value_of_accept {v : Value} :
    (Kinds.Accept [.list] v → ∃ id, v = .list id) ∧
    (Kinds.Accept [.dict] v → ∃ id, v = .dict id) ∧
    (Kinds.Accept [.int] v → ∃ n, v = .int n) := by
  simp only [Kinds.accept_singleton]
  -- only natives are of two kinds, neither of which is one of these
  rcases v with (_ | _ | _ | _ | _ | _ | _ | _ | ⟨_, _, _ | _, _⟩ | _ | _ | _) | id | id
  all_goals
    refine ⟨fun h => ?_, fun h => ?_, fun h => ?_⟩
    all_goals first | exact ⟨_, rfl⟩ | cases h

theorem accepts_number_iff {v : Value} :
    Kind.number.accepts v = true ↔ ∃ n, v.number? = some n := by
  rcases v with (_ | _ | _ | _ | _ | _ | _ | _ | ⟨_, _, _ | _, _⟩ | _ | _ | _) | id | id
  all_goals simp [Kind.accepts, Kind.ofValue, Kind.includes, Value.number?, Atom.number?]

theorem accepts_string_iff {v : Value} :
    Kind.string.accepts v = true ↔ ∃ text, v = .string text := by
  rcases v with (_ | _ | _ | _ | _ | _ | _ | _ | ⟨_, _, _ | _, _⟩ | _ | _ | _) | id | id
  all_goals simp [Kind.accepts, Kind.ofValue, Kind.includes]

/-- A number is a whole number or a double. -/
theorem int_or_float_of_number? {v : Value} {n : Number} (h : v.number? = some n) :
    (∃ k, v = .int k) ∨ ∃ x, v = .float x := by
  rcases v with (k | x | _ | _ | _ | _ | _ | _ | _ | _ | _ | _) | id | id
  case atom.int => exact .inl ⟨k, rfl⟩
  case atom.float => exact .inr ⟨x, rfl⟩
  all_goals cases h

end DispatchLisp
