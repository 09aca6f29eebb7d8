import Scripting.Code.Routine
import Scripting.Dict
import Scripting.Value
/-!
# `Heap` — the objects behind values

One table for each kind of object. A reference is an index into its table, tables only grow, and a
new object always takes the next free index, so two objects are the same exactly when their
references are equal.

Reading is total: a reference past the end of its table reads as an empty object. Every operation
that makes an object returns the value that refers to it together with the new heap.
-/

namespace Scripting

/-- What an iterator walks over: a snapshot taken when the iteration began. -/
inductive Snapshot
  | items (xs : Array Value)
  | chars (cs : Array Char)
  | entries (es : Array (String × Value))
  deriving Inhabited

/-- An iterator: the snapshot and the number of steps taken, which stops one past the end. -/
structure Iterator where
  source : Snapshot
  pos : Nat := 0
  deriving Inhabited

/-- A compiled function together with the cells of the variables it captured. -/
structure Closure where
  routine : Ref
  cells : Array Ref
  deriving Inhabited

structure Heap where
  bytes : Array (Array UInt8) := #[]
  arrays : Array (Array Value) := #[]
  maps : Array (Dict Value) := #[]
  errors : Array Value := #[]
  routines : Array Routine := #[]
  closures : Array Closure := #[]
  /-- Variables shared between a function and the closures that captured them. -/
  cells : Array Value := #[]
  /-- Names of the host functions. -/
  hosts : Array String := #[]
  iterators : Array Iterator := #[]
  deriving Inhabited

namespace Heap

/-! ## Reading -/

def bytesAt (h : Heap) (r : Ref) : Array UInt8 := h.bytes.getD r #[]

def arrayAt (h : Heap) (r : Ref) : Array Value := h.arrays.getD r #[]

def mapAt (h : Heap) (r : Ref) : Dict Value := h.maps.getD r .empty

def errorAt (h : Heap) (r : Ref) : Value := h.errors.getD r .undefined

def routineAt (h : Heap) (r : Ref) : Routine := h.routines.getD r {}

def closureAt (h : Heap) (r : Ref) : Closure := h.closures.getD r default

def cellAt (h : Heap) (r : Ref) : Value := h.cells.getD r .undefined

def hostAt (h : Heap) (r : Ref) : String := h.hosts.getD r ""

def iteratorAt (h : Heap) (r : Ref) : Iterator := h.iterators.getD r default

def items? (h : Heap) : Value → Option (Array Value)
  | .array _ r => some (h.arrayAt r)
  | _ => none

def entries? (h : Heap) : Value → Option (Dict Value)
  | .map _ r => some (h.mapAt r)
  | _ => none

/-! ## Making objects -/

def newBytes (h : Heap) (bs : Array UInt8) : Value × Heap :=
  (.bytes h.bytes.size, { h with bytes := h.bytes.push bs })

def newArray (h : Heap) (kind : Mutability) (xs : Array Value) : Value × Heap :=
  (.array kind h.arrays.size, { h with arrays := h.arrays.push xs })

def newMap (h : Heap) (kind : Mutability) (d : Dict Value) : Value × Heap :=
  (.map kind h.maps.size, { h with maps := h.maps.push d })

def newError (h : Heap) (payload : Value) : Value × Heap :=
  (.error h.errors.size, { h with errors := h.errors.push payload })

def newFunction (h : Heap) (f : Routine) : Ref × Heap :=
  (h.routines.size, { h with routines := h.routines.push f })

def newClosure (h : Heap) (c : Closure) : Value × Heap :=
  (.closure h.closures.size, { h with closures := h.closures.push c })

def newCell (h : Heap) (v : Value) : Ref × Heap :=
  (h.cells.size, { h with cells := h.cells.push v })

def newHost (h : Heap) (name : String) : Value × Heap :=
  (.host h.hosts.size, { h with hosts := h.hosts.push name })

def newIterator (h : Heap) (i : Iterator) : Value × Heap :=
  (.iterator h.iterators.size, { h with iterators := h.iterators.push i })

/-! ## Changing objects -/

def setArray (h : Heap) (r : Ref) (xs : Array Value) : Heap :=
  { h with arrays := h.arrays.setIfInBounds r xs }

def setItem (h : Heap) (r : Ref) (i : Nat) (v : Value) : Heap :=
  { h with arrays := h.arrays.modify r (·.setIfInBounds i v) }

def setEntry (h : Heap) (r : Ref) (key : String) (v : Value) : Heap :=
  { h with maps := h.maps.modify r (·.insert key v) }

def eraseEntry (h : Heap) (r : Ref) (key : String) : Heap :=
  { h with maps := h.maps.modify r (·.erase key) }

def setCell (h : Heap) (r : Ref) (v : Value) : Heap :=
  { h with cells := h.cells.setIfInBounds r v }

def setIterator (h : Heap) (r : Ref) (i : Iterator) : Heap :=
  { h with iterators := h.iterators.setIfInBounds r i }

end Heap

end Scripting
