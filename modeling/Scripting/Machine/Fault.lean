import Scripting.Code.Opcode
import Scripting.Operator
import Scripting.Value.Error
import Scripting.Value.Slice
/-!
# `Machine.Fault` — why a run is aborted

Faults are of three kinds: a limit is reached, the program does something its values do not allow, or
the code itself is broken. Compiled programs never cause faults of the third kind.
-/

namespace Scripting

inductive Fault
  -- limits
  | stepLimit (max : Nat)
  | stackOverflow
  | allocationLimit
  | callDepth (max : Nat)
  -- operations that values do not allow
  | invalidBinary (lhs : String) (op : Operator) (rhs : String)
  /-- A sign in front of a value of this type. -/
  | invalidUnary (sign found : String)
  | notIterable (found : String)
  | notIndexable (found : String)
  | notIndexAssignable (found : String)
  | invalidIndexType (found : String)
  | notArray (found : String)
  | notCallable (found : String)
  | wrongArguments (expected got : Nat)
  /-- Too few arguments for a function that takes any number beyond `least`. -/
  | tooFewArguments (least got : Nat)
  | slice (cause : SliceError)
  | operation (cause : ValueError)
  -- broken code
  | invalidOpcode (byte : Nat)
  | truncated (op : Opcode)
  | stackUnderflow
  | invalidConstant (index : Nat)
  | invalidLocal (index : Nat)
  | invalidFree (index : Nat)
  | invalidBuiltin (index : Nat)
  | notFunction (constant : Nat)
  | invalidOperator (code : Nat)
  | invalidMapKey (found : String)
  | missingSelector
  deriving DecidableEq, Repr

namespace Fault

def message : Fault → String
  | stepLimit max => "execution step limit exceeded (" ++ max.repr ++ ")"
  | stackOverflow => "stack overflow"
  | allocationLimit => "allocation limit exceeded"
  | callDepth max => "stack overflow: call depth limit exceeded (" ++ max.repr ++ ")"
  | invalidBinary lhs op rhs => "invalid operation: " ++ lhs ++ " " ++ op.text ++ " " ++ rhs
  | invalidUnary sign found => "invalid operation: " ++ sign ++ found
  | notIterable found => "not iterable: " ++ found
  | notIndexable found => "not indexable: " ++ found
  | notIndexAssignable found => "not index-assignable: " ++ found
  | invalidIndexType found => "invalid index type: " ++ found
  | notArray found => "not an array: " ++ found
  | notCallable found => "not callable: " ++ found
  | wrongArguments expected got =>
    "wrong number of arguments: want=" ++ expected.repr ++ ", got=" ++ got.repr
  | tooFewArguments least got =>
    "wrong number of arguments: want>=" ++ least.repr ++ ", got=" ++ got.repr
  | slice cause => cause.message
  | operation cause => cause.message
  | invalidOpcode byte => "invalid opcode: " ++ byte.repr
  | truncated op => "truncated instruction: " ++ op.name
  | stackUnderflow => "stack underflow"
  | invalidConstant index => "invalid constant index: " ++ index.repr
  | invalidLocal index => "invalid local index: " ++ index.repr
  | invalidFree index => "invalid free variable index: " ++ index.repr
  | invalidBuiltin index => "invalid builtin index: " ++ index.repr
  | notFunction constant => "not a function: constant " ++ constant.repr
  | invalidOperator code => "invalid operator code: " ++ code.repr
  | invalidMapKey found => "invalid map key type: " ++ found
  | missingSelector => "missing selector"

def isBrokenCode : Fault → Bool
  | invalidOpcode _ | truncated _ | stackUnderflow | invalidConstant _ | invalidLocal _
  | invalidFree _ | invalidBuiltin _ | notFunction _ | invalidOperator _ | invalidMapKey _
  | missingSelector => true
  | _ => false

end Fault

end Scripting
