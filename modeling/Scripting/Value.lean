import Scripting.Flonum
import Scripting.Instant
import Scripting.Builtin
/-!
# `Value` — run-time values

Numbers, characters, texts and instants are values by themselves. Everything that can be changed, or
whose identity a program can observe, lives in the heap, and the value is a reference to it: the
number of the object in the heap's table for its kind. Copying such a value copies the reference, so
all copies see a change.
-/

namespace Scripting

/-- The number of an object in its table of the heap. -/
abbrev Ref := Nat

/-- May a container be changed? -/
inductive Mutability
  | mutable
  | frozen
  deriving DecidableEq, Repr

inductive Value
  | undefined
  | int (value : Int64)
  | float (value : Flonum)
  | char (value : Char)
  | bool (value : Bool)
  | str (value : String)
  | time (value : Instant)
  | bytes (ref : Ref)
  | array (kind : Mutability) (ref : Ref)
  | map (kind : Mutability) (ref : Ref)
  /-- An error with a payload. -/
  | error (ref : Ref)
  /-- A compiled function that captures nothing. -/
  | function (ref : Ref)
  /-- A compiled function with the cells it captured. -/
  | closure (ref : Ref)
  | builtin (function : Builtin)
  /-- A function supplied by the host program. -/
  | host (ref : Ref)
  | iterator (ref : Ref)
  deriving DecidableEq, Repr, Inhabited

namespace Value

def isUndefined : Value → Bool
  | undefined => true
  | _ => false

def isCallable : Value → Bool
  | function _ | closure _ | builtin _ | host _ => true
  | _ => false

def isIterable : Value → Bool
  | str _ | array _ _ | map _ _ => true
  | _ => false

/-- Can the value hold other values that programs reach by indexing? -/
def isContainer : Value → Bool
  | array _ _ | map _ _ => true
  | _ => false

end Value

end Scripting
