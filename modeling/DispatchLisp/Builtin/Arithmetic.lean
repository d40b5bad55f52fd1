import DispatchLisp.Evaluation.Machine
import DispatchLisp.Signature

/-!
# Builtin.Arithmetic — the operators on numbers and strings

Operators take two or more arguments and combine them from the left. Whole numbers stay whole;
as soon as a double takes part the result is a double. A string on the left of `+` takes the
text of the other operand to itself, and `*` repeats a string.
-/

namespace DispatchLisp

/-- The arithmetic operations. -/
inductive Operation where
  | add
  | sub
  | mul
  | div
deriving DecidableEq

/-- The quotient of two whole numbers, rounded toward zero: absolute values are divided, and the
quotient is negative if just one of the numbers is. -/
def truncatedDiv (m n : Int) : Int :=
  let quotient : Int := ↑(m.natAbs / n.natAbs)
  if decide (m < 0) = decide (n < 0) then quotient else -quotient

namespace Operation

/-- The name of an operation in messages. -/
def name : Operation → String
  | .add => "Addition"
  | .sub => "Subtraction"
  | .mul => "Multiplication"
  | .div => "Division"

/-- An operation on whole numbers. -/
def onInts : Operation → Int → Int → Int
  | .add, m, n => m + n
  | .sub, m, n => m - n
  | .mul, m, n => m * n
  | .div, m, n => truncatedDiv m n

/-- An operation on double precision numbers. -/
def onFloats : Operation → Binary64 → Binary64 → Binary64
  | .add, x, y => x.add y
  | .sub, x, y => x.sub y
  | .mul, x, y => x.mul y
  | .div, x, y => x.div y

end Operation

/-- A number as a double; a whole number may be too large for one. -/
def Number.toBinary64 (n : Number) : Except Raised Binary64 :=
  match n.toBinary64? with
  | some x => .ok x
  | none => .error (.host ⟨.overflow, some "int too large to convert to float"⟩)

/-- An operation on two numbers. -/
def Operation.onNumbers (op : Operation) : Number → Number → Except Raised Value
  | .int m, .int n => .ok (.int (op.onInts m n))
  | a, b => do
    let x ← a.toBinary64
    let y ← b.toBinary64
    .ok (.float (op.onFloats x y))

/-- An operation on two values that have to be numbers. -/
def Operation.onValues (op : Operation) (a b : Value) : Except Raised Value :=
  match a.number?, b.number? with
  | some m, some n => op.onNumbers m n
  | _, _ => .error (.fault (.badOperands op.name a.typeName b.typeName))

/-! ## Strings -/

/-- The largest number of characters that a repetition may ask for. -/
def sizeLimit : Nat := 9223372036854775807

/-- A number of characters that no memory holds. -/
def memoryLimit : Nat := 1099511627776

/-- A text repeated; a negative number of times is none. -/
def repeatText (text : String) (count : Int) : Except Raised Value :=
  let times := count.toNat
  if sizeLimit < times then
    .error (.host ⟨.overflow, some "cannot fit 'int' into an index-sized integer"⟩)
  else if times = 0 || text.isEmpty then .ok (.string "")
  else if sizeLimit / times < text.length then
    .error (.host ⟨.overflow, some "repeated string is too long"⟩)
  else if memoryLimit ≤ times * text.length then .error (.host ⟨.other "MemoryError", none⟩)
  else .ok (.string (String.join (List.replicate times text)))

/-- What a value adds to a string: a string its own text, any other value its rendering. -/
def plainText (s : Store) : Value → Except Fault String
  | .string text => .ok text
  | v => s.render v

/-! ## Operators -/

/-- One operator on two values. -/
def Operation.apply (op : Operation) (s : Store) (a b : Value) : Except Raised Value :=
  match op, a, b with
  | .add, .string text, b =>
    match plainText s b with
    | .ok tail => .ok (.string (text ++ tail))
    | .error e => .error (.fault e)
  | .mul, .string text, .int n => repeatText text n
  | .mul, .int n, .string text => repeatText text n
  | .div, a, b =>
    if (b.number?.map Number.isZero).getD false then .error (.fault .divisionByZero)
    else Operation.div.onValues a b
  | op, a, b => op.onValues a b

/-- Combines values from the left. -/
def Operation.fold (op : Operation) (s : Store) (start : Value) :
    List Value → Except Raised Value
  | [] => .ok start
  | v :: rest => do
    let next ← op.apply s start v
    op.fold s next rest

/-- An operator on its arguments. -/
def Operation.run (op : Operation) (name : String) (args : List Value) : NativeEval Value := do
  check (requireArity name args.length 2 none)
  match args with
  | first :: rest =>
    match ← queryNative fun s => op.fold s first rest with
    | .float x => allocate fun s => s.newFloat x
    | v => return v
  | [] => return .nothing

/-- The remainder of the quotient rounded toward zero. -/
def remainder (args : List Value) : NativeEval Value := do
  check (requireArguments "mod" args [[.int], [.int]])
  match args with
  | [.int n, .int d] =>
    if d = 0 then throw (.fault .moduloByZero) else return .int (n - d * truncatedDiv n d)
  | _ => return .nothing

end DispatchLisp
