import Scripting.Value.Action
/-!
# `Value.Iteration` — walking over a value

An iterator works on a snapshot, so changes made during the walk do not show. `next` must be called
before the first element is read, and once it has answered `false` it always does.
-/

namespace Scripting

namespace Snapshot

def size : Snapshot → Nat
  | items xs => xs.size
  | chars cs => cs.size
  | entries es => es.size

end Snapshot

namespace Iterator

/-- Move to the next element; is there one? -/
def next (i : Iterator) : Bool × Iterator :=
  let i' := if i.pos ≤ i.source.size then { i with pos := i.pos + 1 } else i
  (i'.pos ≤ i.source.size, i')

/-- The index of the current element, or its key in a map. -/
def key (i : Iterator) : Value :=
  match i.source with
  | .items _ | .chars _ => .int (Int64.ofNat (i.pos - 1))
  | .entries es => if i.pos = 0 then .undefined else es[i.pos - 1]?.elim .undefined fun e => .str e.1

def value (i : Iterator) : Value :=
  if i.pos = 0 then .undefined
  else
    match i.source with
    | .items xs => xs[i.pos - 1]?.getD .undefined
    | .chars cs => cs[i.pos - 1]?.elim .undefined .char
    | .entries es => es[i.pos - 1]?.elim .undefined Prod.snd

end Iterator

namespace Value

/-- What an iteration over a value walks over. -/
def snapshot? (h : Heap) : Value → Option Snapshot
  | array _ r => some (.items (h.arrayAt r))
  | map _ r => some (.entries (h.mapAt r).entries.toArray)
  | str s => some (.chars s.toList.toArray)
  | _ => none

/-- Start an iteration; `none` if the value cannot be iterated over. -/
def iterate? (v : Value) : Action (Option Value) := fun h =>
  match v.snapshot? h with
  | some source =>
    let (it, h) := h.newIterator { source }
    .ok (some it) h
  | none => .ok none h

/-- Move an iterator on; is there an element? -/
def iterNext (v : Value) : Action Bool := fun h =>
  match v with
  | iterator r =>
    let (more, it) := (h.iteratorAt r).next
    .ok more (h.setIterator r it)
  | _ => .error .notIterable h

def iterKey (h : Heap) : Value → Except ValueError Value
  | iterator r => .ok (h.iteratorAt r).key
  | _ => .error .notIterable

def iterValue (h : Heap) : Value → Except ValueError Value
  | iterator r => .ok (h.iteratorAt r).value
  | _ => .error .notIterable

end Value

end Scripting
