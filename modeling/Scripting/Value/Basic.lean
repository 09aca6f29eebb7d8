import Scripting.Heap
import Scripting.Limits
/-!
# `Value.Basic` — type, truth and size of a value
-/

namespace Scripting

def Iterator.typeName (i : Iterator) : String :=
  match i.source with
  | .items _ => "array-iterator"
  | .chars _ => "string-iterator"
  | .entries _ => "map-iterator"

namespace Value

def typeName (h : Heap) : Value → String
  | undefined => "undefined"
  | int _ => "int"
  | float _ => "float"
  | char _ => "char"
  | bool _ => "bool"
  | str _ => "string"
  | time _ => "time"
  | bytes _ => "bytes"
  | array .mutable _ => "array"
  | array .frozen _ => "immutable-array"
  | map .mutable _ => "map"
  | map .frozen _ => "immutable-map"
  | error _ => "error"
  | function _ | closure _ => "compiled-function"
  | builtin b => "builtin-function:" ++ b.name
  | host r => "user-function:" ++ h.hostAt r
  | iterator r => (h.iteratorAt r).typeName

/-- Does the value count as false? Zero, the zero character, empty texts and containers, errors,
iterators and the undefined value do; of the floating-point numbers only those that are not a
number. -/
def isFalsy (h : Heap) : Value → Bool
  | undefined => true
  | int v => v == 0
  | float x => x.isNaN
  | char c => c == Char.ofNat 0
  | bool b => !b
  | str s => s.isEmpty
  | bytes r => (h.bytesAt r).isEmpty
  | array _ r => (h.arrayAt r).isEmpty
  | map _ r => (h.mapAt r).isEmpty
  | error _ | iterator _ => true
  | time _ | function _ | closure _ | builtin _ | host _ => false

/-- How many values are reachable, each counted as often as it occurs. Containers below `depth`
levels count as one. -/
def countTo (h : Heap) : Nat → Value → Nat
  | 0, _ => 1
  | depth + 1, v =>
    match v with
    | array _ r => 1 + ((h.arrayAt r).toList.map (countTo h depth)).foldr (· + ·) 0
    | map _ r => 1 + ((h.mapAt r).values.map (countTo h depth)).foldr (· + ·) 0
    | error r => 1 + countTo h depth (h.errorAt r)
    | _ => 1

def count (h : Heap) (v : Value) : Nat := countTo h Limits.nesting v

end Value

end Scripting
