import Scripting.Heap
import Scripting.Value.Error
/-!
# `Value.Action` — operations on the heap that may fail

An action reads and changes the heap and either gives a result or fails with a `ValueError`. A failed
action keeps the changes made before the failure, so its caller always has one current heap.
-/

namespace Scripting

abbrev Action (α : Type) := EStateM ValueError Heap α

namespace Action

/-- Lift a result that does not depend on the heap. -/
def ofExcept {α : Type} : Except ValueError α → Action α
  | .ok a => pure a
  | .error e => throw e

@[inline] def read {α : Type} (f : Heap → α) : Action α := fun h => .ok (f h) h

@[inline] def make {α : Type} (f : Heap → α × Heap) : Action α := modifyGet f

def newBytes (bs : Array UInt8) : Action Value := make (·.newBytes bs)

def newArray (xs : Array Value) : Action Value := make (·.newArray .mutable xs)

def newMap (d : Dict Value) : Action Value := make (·.newMap .mutable d)

def newError (payload : Value) : Action Value := make (·.newError payload)

end Action

end Scripting
