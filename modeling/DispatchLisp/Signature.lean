import DispatchLisp.Value.Kind

/-!
# Signature — checks on the arguments of natives

A native may ask for a number of arguments and for kinds of values at positions. Checks go from
left to right, the number first.
-/

namespace DispatchLisp

/-- The kinds that an argument may be of. -/
abbrev Kinds := List Kind

/-- How a message names several kinds. -/
def Kinds.describe (kinds : Kinds) : String :=
  String.intercalate " or " (kinds.map Kind.name)

/-- Checks a number of arguments. -/
def requireArity (name : String) (count least : Nat) (most : Option Nat) : Except Fault Unit :=
  if count < least then .error (.tooFewArguments name least count)
  else
    match most with
    | some most =>
      if most < count then .error (.tooManyArguments name most count) else .ok ()
    | none => .ok ()

/-- Checks the kind of the argument at a position, which counts from zero. -/
def requireKind (name : String) (arg : Value) (kinds : Kinds) (position : Nat) :
    Except Fault Unit :=
  if kinds.any fun kind => kind.accepts arg then .ok ()
  else .error (.wrongArgument name kinds.describe (position + 1) arg.typeName)

/-- Checks the kinds of arguments from a position on. -/
def requireKinds (name : String) : Nat → List Value → List Kinds → Except Fault Unit
  | position, arg :: args, kinds :: expected => do
    requireKind name arg kinds position
    requireKinds name (position + 1) args expected
  | _, _, _ => .ok ()

/-- Checks that arguments are exactly of the expected kinds. -/
def requireArguments (name : String) (args : List Value) (expected : List Kinds) :
    Except Fault Unit := do
  requireArity name args.length expected.length (some expected.length)
  requireKinds name 0 args expected

end DispatchLisp
