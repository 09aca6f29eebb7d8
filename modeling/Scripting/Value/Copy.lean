import Scripting.Limits
import Scripting.Value.Action
/-!
# `Value.Copy` — copies and frozen forms

`Value.copy` makes a copy that shares no changeable container with the source: byte buffers, arrays
and maps are duplicated all the way down, and frozen containers come back changeable. Functions are
shared. Below `Limits.nesting` levels the copy shares the containers of the source.

`Value.freeze` is shallow: it gives a frozen array or map with the same items.
-/

namespace Scripting.Value

/-- A copy that duplicates `depth` levels of containers. -/
def copyTo : Nat → Value → Action Value
  | 0, v => pure v
  | depth + 1, v =>
    match v with
    | bytes r => do Action.newBytes (← Action.read (·.bytesAt r))
    | array _ r => do
      let items ← Action.read (·.arrayAt r)
      Action.newArray (← items.mapM (copyTo depth))
    | map _ r => do
      let d ← Action.read (·.mapAt r)
      Action.newMap (d.withValues (← d.values.mapM (copyTo depth)))
    | error r => do
      let payload ← Action.read (·.errorAt r)
      Action.newError (← copyTo depth payload)
    | iterator r => do
      let i ← Action.read (·.iteratorAt r)
      Action.make (·.newIterator i)
    | v => pure v

def copy (v : Value) : Action Value := copyTo Limits.nesting v

/-- The frozen form of a changeable container; any other value as it is. -/
def freeze (v : Value) : Action Value :=
  match v with
  | array .mutable r => Action.make fun h => let xs := h.arrayAt r; h.newArray .frozen xs
  | map .mutable r => Action.make fun h => let d := h.mapAt r; h.newMap .frozen d
  | v => pure v

end Scripting.Value
