import Scripting.Value.Action
import Scripting.Value.Basic
/-!
# `Value.Slice` — contiguous parts of a sequence

`x[low:high]` is the part of an array, a text (by characters) or a byte buffer between two bounds. A
missing lower bound is the start and a missing upper bound the end. Bounds outside the sequence are
clamped to it; only a lower bound above the upper one is refused.
-/

namespace Scripting

inductive SliceError
  /-- A bound of this type. -/
  | boundType (found : String)
  | inverted (low high : Int)
  /-- The sliced value has this type. -/
  | notIndexable (found : String)
  deriving DecidableEq, Repr

def SliceError.message : SliceError → String
  | boundType found => "invalid slice index type: " ++ found
  | inverted low high => "invalid slice index: " ++ low.repr ++ " > " ++ high.repr
  | notIndexable found => "not indexable: " ++ found

namespace Value

/-- A bound: an integer, or the undefined value for a missing one. -/
def sliceBound (h : Heap) : Value → Except SliceError (Option Int)
  | undefined => .ok none
  | int n => .ok (some n.toInt)
  | v => .error (.boundType (v.typeName h))

/-- Clamp an integer to `0 … length`. -/
def clampTo (length : Nat) (n : Int) : Nat := min n.toNat length

/-- The bounds of a slice of a sequence of the given length. -/
def sliceRange (length : Nat) (low high : Option Int) : Except SliceError (Nat × Nat) :=
  let l := low.getD 0
  let r := high.getD length
  if r < l then .error (.inverted l r) else .ok (clampTo length l, clampTo length r)

inductive Sequence
  | items (xs : Array Value)
  | chars (cs : Array Char)
  | bytes (bs : Array UInt8)

namespace Sequence

def length : Sequence → Nat
  | items xs => xs.size
  | chars cs => cs.size
  | bytes bs => bs.size

/-- The part from `l` up to but not including `r`. -/
def extract (l r : Nat) : Sequence → Sequence
  | items xs => items (xs.extract l r)
  | chars cs => chars (cs.extract l r)
  | bytes bs => bytes (bs.extract l r)

/-- A value with the contents of a sequence; arrays and byte buffers are new and changeable. -/
def toValue (h : Heap) : Sequence → Value × Heap
  | items xs => h.newArray .mutable xs
  | chars cs => (.str (String.ofList cs.toList), h)
  | bytes bs => h.newBytes bs

end Sequence

def sequence? (h : Heap) : Value → Option Sequence
  | array _ r => some (.items (h.arrayAt r))
  | str s => some (.chars s.toList.toArray)
  | bytes r => some (.bytes (h.bytesAt r))
  | _ => none

/-- The part that a slice selects. -/
def slicePart (h : Heap) (target low high : Value) : Except SliceError Sequence := do
  let l ← sliceBound h low
  let r ← sliceBound h high
  match target.sequence? h with
  | none => .error (.notIndexable (target.typeName h))
  | some s =>
    let (l, r) ← sliceRange s.length l r
    return s.extract l r

/-- **Slice a value.** -/
def slice (target low high : Value) : EStateM SliceError Heap Value := fun h =>
  match slicePart h target low high with
  | .ok s =>
    let (v, h) := s.toValue h
    .ok v h
  | .error e => .error e h

end Value

end Scripting
