import DispatchLisp.Dispatch.Pattern
import DispatchLisp.Proofs.Value.Sameness

/-!
# Proofs.Dispatch.Shape — what a pattern asks, and which calls it takes

Having the same shape is an equivalence on patterns, although a literal may be written as a whole
number in one and as a double in the other. Patterns of one shape accept the same arguments
(`Pattern.accept_congr`). So a pattern that is added to a table takes over the calls of the one
whose place it takes, and otherwise only calls that no earlier pattern takes
(`addPattern_steals_no_call`).
-/

namespace DispatchLisp

/-! ## Declarations -/

namespace Declaration

theorem sameShape_refl (d : Declaration) : d.sameShape d = true := by
  cases d with
  | binder name => rfl
  | typed type name => exact beq_self_eq_true type
  | literal a => exact Atom.alike_refl a

theorem sameShape_comm (d e : Declaration) : d.sameShape e = e.sameShape d := by
  cases d with
  | binder name => cases e <;> rfl
  | typed type name =>
      cases e with
      | typed type' name' => exact BEq.comm
      | binder _ => rfl
      | literal _ => rfl
  | literal a =>
      cases e with
      | literal b => exact Atom.alike_comm a b
      | binder _ => rfl
      | typed _ _ => rfl

theorem sameShape_trans (d e f : Declaration) (hde : d.sameShape e = true)
    (hef : e.sameShape f = true) : d.sameShape f = true := by
  -- all three are of one variant
  cases d <;> cases e <;> simp only [sameShape, Bool.false_eq_true] at hde <;>
    cases f <;> simp only [sameShape, Bool.false_eq_true] at hef ⊢
  case typed.typed.typed =>
    rw [beq_iff_eq] at hde hef ⊢
    exact hde.trans hef
  case literal.literal.literal => exact Atom.alike_trans hde hef

/-- Declarations of one shape accept the same values. -/
theorem accepts_congr (d e : Declaration) (h : d.sameShape e = true) (v : Value) :
    d.accepts v = e.accepts v := by
  cases d with
  | binder name =>
      cases e with
      | binder _ => rfl
      | typed _ _ => cases h
      | literal _ => cases h
  | typed type name =>
      cases e with
      | typed type' name' =>
          have htype : type = type' := beq_iff_eq.mp h
          rw [accepts, accepts, htype]
      | binder _ => cases h
      | literal _ => cases h
  | literal a =>
      cases e with
      | literal b =>
          cases v with
          | atom c => exact Atom.same_congr h c
          | list _ => rfl
          | dict _ => rfl
      | binder _ => cases h
      | typed _ _ => cases h

end Declaration

/-! ## Lists that agree place by place -/

namespace Parameters

section Agree

variable {α β : Type}

theorem length_eq_of_agree {test : α → β → Bool} {as : List α} {bs : List β}
    (h : agree test as bs = true) : as.length = bs.length := by
  induction as generalizing bs with
  | nil =>
      cases bs with
      | nil => rfl
      | cons b bs => cases h
  | cons a as ih =>
      cases bs with
      | nil => cases h
      | cons b bs =>
          rw [agree, Bool.and_eq_true] at h
          rw [List.length_cons, List.length_cons, ih h.2]

theorem agree_refl {test : α → α → Bool} (htest : ∀ a, test a a = true) (as : List α) :
    agree test as as = true := by
  induction as with
  | nil => rfl
  | cons a as ih => rw [agree, htest, ih, Bool.and_self]

theorem agree_comm {test : α → α → Bool} (htest : ∀ a b, test a b = test b a) (as bs : List α) :
    agree test as bs = agree test bs as := by
  induction as generalizing bs with
  | nil => cases bs <;> rfl
  | cons a as ih =>
      cases bs with
      | nil => rfl
      | cons b bs => rw [agree, agree, htest, ih]

theorem agree_trans {test : α → α → Bool}
    (htest : ∀ a b c, test a b = true → test b c = true → test a c = true) {as bs cs : List α}
    (hab : agree test as bs = true) (hbc : agree test bs cs = true) :
    agree test as cs = true := by
  induction as generalizing bs cs with
  | nil =>
      cases bs with
      | nil => exact hbc
      | cons b bs => cases hab
  | cons a as ih =>
      cases bs with
      | nil => cases hab
      | cons b bs =>
          cases cs with
          | nil => cases hbc
          | cons c cs =>
              rw [agree, Bool.and_eq_true] at hab hbc ⊢
              exact ⟨htest a b c hab.1 hbc.1, ih hab.2 hbc.2⟩

/-- If what is tested may be replaced in one place, then it may in all of them. -/
theorem agree_congr {same : α → α → Bool} {test : α → β → Bool}
    (hsame : ∀ a b, same a b = true → ∀ c, test a c = test b c) {as bs : List α}
    (h : agree same as bs = true) (cs : List β) : agree test as cs = agree test bs cs := by
  induction as generalizing bs cs with
  | nil =>
      cases bs with
      | nil => rfl
      | cons b bs => cases h
  | cons a as ih =>
      cases bs with
      | nil => cases h
      | cons b bs =>
          rw [agree, Bool.and_eq_true] at h
          cases cs with
          | nil => rfl
          | cons c cs => rw [agree, agree, hsame a b h.1, ih h.2]

end Agree

/-- Parameters of one shape accept the same arguments. -/
theorem accept_congr {p q : Parameters} (h : p.sameShape q = true) (args : List Value) :
    p.accept args = q.accept args := by
  rw [sameShape, Bool.and_eq_true, beq_iff_eq] at h
  have hlength := length_eq_of_agree h.1
  have hfixed := agree_congr Declaration.accepts_congr h.1
  rw [accept, accept, hlength, h.2, hfixed]

end Parameters

/-! ## Patterns -/

namespace Pattern

theorem sameShape_refl (p : Pattern) : p.sameShape p = true := by
  rw [sameShape, Parameters.sameShape, Parameters.agree_refl Declaration.sameShape_refl,
    beq_self_eq_true, Bool.and_self]

theorem sameShape_comm (p q : Pattern) : p.sameShape q = q.sameShape p := by
  rw [sameShape, sameShape, Parameters.sameShape, Parameters.sameShape,
    Parameters.agree_comm Declaration.sameShape_comm, BEq.comm (a := p.parameters.rest.isSome)]

theorem sameShape_trans {p q r : Pattern} (hpq : p.sameShape q = true)
    (hqr : q.sameShape r = true) : p.sameShape r = true := by
  rw [sameShape, Parameters.sameShape, Bool.and_eq_true, beq_iff_eq] at hpq hqr ⊢
  exact ⟨Parameters.agree_trans Declaration.sameShape_trans hpq.1 hqr.1, hpq.2.trans hqr.2⟩

/-- A shape differs from one of two patterns of one shape exactly when it differs from the other. -/
theorem sameShape_congr {p q : Pattern} (h : p.sameShape q = true) (r : Pattern) :
    p.sameShape r = q.sameShape r := by
  rw [Bool.eq_iff_iff]
  constructor
  · intro hpr
    exact sameShape_trans (sameShape_comm p q ▸ h) hpr
  · intro hqr
    exact sameShape_trans h hqr

/-- Patterns of one shape accept the same arguments. -/
theorem accept_congr {p q : Pattern} (h : p.sameShape q = true) (args : List Value) :
    p.accept args = q.accept args :=
  Parameters.accept_congr h args

end Pattern

/-! ## Adding a pattern -/

/-- A pattern that is added goes to the end, or in the place of the first one of its shape. -/
theorem addPattern_cases (p : Pattern) (table : List Pattern) :
    ((∀ q ∈ table, q.sameShape p = false) ∧ addPattern p table = table ++ [p]) ∨
      ∃ earlier q later, table = earlier ++ q :: later ∧ q.sameShape p = true ∧
        (∀ r ∈ earlier, r.sameShape p = false) ∧
        addPattern p table = earlier ++ p :: later := by
  induction table with
  | nil =>
      left
      exact ⟨fun q hq => absurd hq List.not_mem_nil, rfl⟩
  | cons q rest ih =>
      cases hq : q.sameShape p with
      | true =>
          right
          refine ⟨[], q, rest, rfl, hq, fun r hr => absurd hr List.not_mem_nil, ?_⟩
          rw [addPattern, hq]
          rfl
      | false =>
          have hadd : addPattern p (q :: rest) = q :: addPattern p rest := by
            rw [addPattern, hq]
            rfl
          -- the first pattern has another shape and stays, whatever becomes of the others
          rcases ih with ⟨hnew, hrest⟩ | ⟨earlier, r, later, hrest, hr, hearlier, hadded⟩
          · left
            refine ⟨List.forall_mem_cons.mpr ⟨hq, hnew⟩, ?_⟩
            rw [hadd, hrest, List.cons_append]
          · right
            refine ⟨q :: earlier, r, later, ?_, hr, List.forall_mem_cons.mpr ⟨hq, hearlier⟩, ?_⟩
            · rw [hrest, List.cons_append]
            · rw [hadd, hadded, List.cons_append]

/-- A pattern of a new shape goes to the end. -/
theorem addPattern_of_new {p : Pattern} {table : List Pattern}
    (h : ∀ q ∈ table, q.sameShape p = false) : addPattern p table = table ++ [p] := by
  rcases addPattern_cases p table with ⟨_, hadd⟩ | ⟨earlier, q, later, htable, hq, _, _⟩
  · exact hadd
  · have hmem : q ∈ table := by
      rw [htable]
      exact List.mem_append_right _ List.mem_cons_self
    rw [h q hmem] at hq
    cases hq

/-- The patterns of a table after one has been added are that one and some from before. -/
theorem mem_addPattern {p q : Pattern} {table : List Pattern} (h : q ∈ addPattern p table) :
    q = p ∨ q ∈ table := by
  rcases addPattern_cases p table with ⟨_, hadd⟩ | ⟨earlier, old, later, htable, _, _, hadd⟩
  · rw [hadd] at h
    rcases List.mem_append.mp h with h | h
    · exact .inr h
    · exact .inl (List.mem_singleton.mp h)
  · rw [hadd] at h
    rw [htable]
    rcases List.mem_append.mp h with h | h
    · exact .inr (List.mem_append_left _ h)
    · exact (List.mem_cons.mp h).imp_right fun h =>
        List.mem_append_right _ (List.mem_cons_of_mem _ h)

/-! ## Calls -/

/-- A pattern whose shape is in the table leaves every call at its place. -/
theorem selectPosition?_addPattern_of_old {p : Pattern} {table : List Pattern}
    (h : ∃ q ∈ table, q.sameShape p = true) (args : List Value) :
    selectPosition? (addPattern p table) args = selectPosition? table args := by
  rcases addPattern_cases p table with ⟨hnew, _⟩ | ⟨earlier, q, later, htable, hq, _, hadd⟩
  · rcases h with ⟨q, hmem, hq⟩
    rw [hnew q hmem] at hq
    cases hq
  · -- the pattern that is replaced accepts what the new one does
    rw [hadd, htable, selectPosition?, selectPosition?, List.findIdx?_append,
      List.findIdx?_append, List.findIdx?_cons, List.findIdx?_cons, Pattern.accept_congr hq]

/-- A pattern of a new shape takes calls that no pattern in the table takes. -/
theorem selectPattern?_addPattern_of_new {p : Pattern} {table : List Pattern}
    (h : ∀ q ∈ table, q.sameShape p = false) (args : List Value) :
    selectPattern? (addPattern p table) args =
      (selectPattern? table args).or (if p.accept args then some p else none) := by
  rw [addPattern_of_new h, selectPattern?, selectPattern?, List.find?_append, List.find?_singleton]

/-- Adding a pattern steals no call. Patterns of one shape accept the same arguments. If the shape
of the new pattern is in the table, every call goes to the place that it went to before. If it is
not, every call that was taken goes to the same pattern as before, and the new pattern takes
exactly the calls that it accepts and no earlier pattern does. -/
theorem addPattern_steals_no_call (p : Pattern) (table : List Pattern) (args : List Value) :
    (∀ q : Pattern, q.sameShape p = true → q.accept args = p.accept args) ∧
    ((∃ q ∈ table, q.sameShape p = true) →
      selectPosition? (addPattern p table) args = selectPosition? table args) ∧
    ((∀ q ∈ table, q.sameShape p = false) →
      (∀ q, selectPattern? table args = some q →
        selectPattern? (addPattern p table) args = some q) ∧
      (selectPattern? (addPattern p table) args = some p ↔
        p.accept args = true ∧ ∀ q ∈ table, q.accept args = false)) := by
  refine ⟨fun q hq => Pattern.accept_congr hq args,
    fun hold => selectPosition?_addPattern_of_old hold args, fun hnew => ?_⟩
  rw [selectPattern?_addPattern_of_new hnew]
  have hearlier : selectPattern? table args = none ↔ ∀ q ∈ table, q.accept args = false := by
    simp only [selectPattern?, List.find?_eq_none, Bool.not_eq_true]
  constructor
  · intro q hq
    rw [hq, Option.some_or]
  · rw [← hearlier]
    cases hfound : selectPattern? table args with
    | none => simp
    | some q =>
        -- an earlier pattern cannot be the new one, whose shape was not there
        have hne : q ≠ p := by
          intro hsame
          have hdiffers := hnew q (List.mem_of_find?_eq_some hfound)
          rw [hsame, Pattern.sameShape_refl] at hdiffers
          cases hdiffers
        simp [hne]

/-- A pattern for a literal. -/
def literalPattern (a : Atom) (answer : String) : Pattern :=
  ⟨⟨[.literal a], none⟩, .string answer, ⟨0, "main"⟩⟩

/-- A pattern for zero as a double takes the place of one for zero as a whole number, and one for
a text takes the calls with that text. -/
theorem addPattern_steals_no_call_of_zeros :
    selectPosition? (addPattern (literalPattern (.float (.zero true)) "double")
        [literalPattern (.string "zero") "text", literalPattern (.int 0) "whole"]) [.int 0] =
      selectPosition? [literalPattern (.string "zero") "text", literalPattern (.int 0) "whole"]
        [.int 0] ∧
    selectPattern? (addPattern (literalPattern (.string "zero") "text")
        [literalPattern (.int 0) "whole"]) [.string "zero"] =
      some (literalPattern (.string "zero") "text") := by
  constructor
  · refine (addPattern_steals_no_call _ _ _).2.1 ⟨literalPattern (.int 0) "whole", ?_, ?_⟩
    · exact List.mem_cons_of_mem _ List.mem_cons_self
    · decide +kernel
  · refine ((addPattern_steals_no_call _ _ _).2.2 ?_).2.mpr ⟨?_, ?_⟩
    · decide +kernel
    · decide +kernel
    · decide +kernel

end DispatchLisp
