import DispatchLisp.Store.Equality

/-!
# Builtin.Comparison — equality and order of several values

Numbers are ordered by value and strings by their characters; other values have no order. A
chain of comparisons stops at the first pair that fails.
-/

namespace DispatchLisp

/-- The comparisons of order. -/
inductive Comparison where
  | lt
  | le
  | gt
  | ge
deriving DecidableEq

namespace Comparison

/-- Whether a comparison holds of two things with an order; nothing holds without one. -/
def holds : Comparison → Option Ordering → Bool
  | _, none => false
  | .lt, some o => o == .lt
  | .le, some o => o != .gt
  | .gt, some o => o == .gt
  | .ge, some o => o != .lt

/-- The order of two texts by their characters. -/
def ofTexts (a b : String) : Ordering :=
  if a < b then .lt else if a = b then .eq else .gt

/-- The order of two values; two numbers have none if one of them is not a number. -/
def ofValues (name : String) (a b : Value) : Except Fault (Option Ordering) :=
  match a, b with
  | .string a, .string b => .ok (some (ofTexts a b))
  | a, b =>
    match a.number?, b.number? with
    | some m, some n => .ok (m.compare? n)
    | _, _ => .error (.incomparable name a.typeName b.typeName)

/-- Whether a comparison holds of each two neighbours, up to the first that fail. -/
def chain (c : Comparison) (name : String) : List Value → Except Fault Bool
  | a :: b :: rest => do
    let order ← ofValues name a b
    if c.holds order then c.chain name (b :: rest) else .ok false
  | _ => .ok true

end Comparison

/-- Whether a value equals each of some others, up to the first that differs. -/
def Store.equalsAll (s : Store) (a : Value) : List Value → Except Fault Bool
  | [] => .ok true
  | b :: rest => do
    if ← s.equal a b then s.equalsAll a rest else .ok false

end DispatchLisp
