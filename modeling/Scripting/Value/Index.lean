import Scripting.Value.Action
/-!
# `Value.Index` — reading and writing parts of a value

Reading a part that is not there gives the undefined value; writing past the end of an array is an
error. Only changeable arrays and maps can be written.
-/

namespace Scripting.Value

/-- An index as a natural number, if it is not negative. -/
def indexOf? (i : Int64) : Option Nat := if i < 0 then none else some i.toInt.toNat

/-- **Read a part.** Arrays, byte buffers and texts are indexed by integers, maps by texts; the only
part of an error is its payload, called `value`. -/
def indexGet (h : Heap) (target key : Value) : Except ValueError Value :=
  match target with
  | array _ r =>
    match key with
    | int i => .ok (((indexOf? i).bind ((h.arrayAt r)[·]?)).getD undefined)
    | _ => .error .invalidIndexType
  | map _ r =>
    match key with
    | str k => .ok (((h.mapAt r).get? k).getD undefined)
    | _ => .error .invalidIndexType
  | str s =>
    match key with
    | int i => .ok (((indexOf? i).bind (s.toList[·]?)).elim undefined char)
    | _ => .error .invalidIndexType
  | bytes r =>
    match key with
    | int i =>
      .ok (((indexOf? i).bind ((h.bytesAt r)[·]?)).elim undefined fun b => int (Int64.ofNat b.toNat))
    | _ => .error .invalidIndexType
  | error r =>
    match key with
    | str k => if k = "value" then .ok (h.errorAt r) else .error .invalidIndexOnError
    | _ => .error .invalidIndexOnError
  | _ => .error .notIndexable

/-- **Write a part** of a changeable array or map. -/
def indexSet (target key value : Value) : Action Unit := fun h =>
  match target with
  | array .mutable r =>
    match key with
    | int i =>
      match indexOf? i with
      | some n =>
        if n < (h.arrayAt r).size then .ok () (h.setItem r n value)
        else .error .indexOutOfBounds h
      | none => .error .indexOutOfBounds h
    | _ => .error .invalidIndexType h
  | map .mutable r =>
    match key with
    | str k => .ok () (h.setEntry r k value)
    | _ => .error .invalidIndexType h
  | _ => .error .notIndexAssignable h

end Scripting.Value
