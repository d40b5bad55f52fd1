import DispatchLisp.Builtin.Arithmetic
import DispatchLisp.Builtin.Collection
import DispatchLisp.Builtin.Comparison

/-!
# Builtin.Run — what each native on finished values computes
-/

namespace DispatchLisp

/-- A comparison of neighbours among two or more arguments. -/
def Comparison.run (c : Comparison) (name : String) (args : List Value) : Eval Value := do
  check (requireArity name args.length 2 none)
  let answer ← check (c.chain name args)
  return .bool answer

/-- Whether every argument equals the first. -/
def equalBuiltin (args : List Value) : Eval Bool := do
  check (requireArity "=" args.length 1 none)
  match args with
  | first :: rest => queryStore fun s => s.equalsAll first rest
  | [] => return true

/-- The plain texts of values. -/
def plainTexts (s : Store) : List Value → Except Fault (List String)
  | [] => .ok []
  | v :: rest => do
    let text ← plainText s v
    let texts ← plainTexts s rest
    .ok (text :: texts)

/-- The plain texts of the arguments in one string. -/
def strBuiltin (args : List Value) : Eval Value := do
  let texts ← queryStore fun s => plainTexts s args
  return .string (String.join texts)

/-- What a native on finished values computes. -/
def Builtin.run (b : Builtin) (args : List Value) : NativeEval Value :=
  match b with
  | .add => Operation.add.run b.name args
  | .sub => Operation.sub.run b.name args
  | .mul => Operation.mul.run b.name args
  | .div => Operation.div.run b.name args
  | .mod => remainder args
  | .eq => do return .bool (← equalBuiltin args)
  | .ne => do return .bool !(← equalBuiltin args)
  | .lt => Comparison.lt.run b.name args
  | .le => Comparison.le.run b.name args
  | .gt => Comparison.gt.run b.name args
  | .ge => Comparison.ge.run b.name args
  | .not => do
    check (requireArity b.name args.length 1 (some 1))
    match args with
    | v :: _ => return .bool !v.truthy
    | [] => return .nothing
  | .list => makeList args true
  | .dict => makeDict args
  | .get => getBuiltin args
  | .set => setBuiltin args
  | .put => putBuiltin args
  | .first => elementBuiltin b.name 0 args
  | .last => elementBuiltin b.name (-1) args
  | .len => lengthBuiltin args
  | .slice => sliceBuiltin args
  | .concat => concatBuiltin args
  | .keys => keysBuiltin args
  | .type => do
    check (requireArity b.name args.length 1 (some 1))
    match args with
    | v :: _ => return .type v.typeName
    | [] => return .nothing
  | .symbol => do
    check (requireArguments b.name args [[.string]])
    match args with
    | .string name :: _ => return .symbol name
    | _ => return .nothing
  | .str => strBuiltin args

end DispatchLisp
