import Scripting.Value.Basic
/-!
# `Value.Equality` — when two values are equal

Numbers, texts, instants and byte buffers are equal by content; errors, functions and iterators by
identity. Containers are equal when their contents are, whether they may be changed or not. The
comparison goes down at most `Limits.nesting` levels, which makes it total on containers that contain
themselves; below that, containers are equal only if they are the same object.
-/

namespace Scripting.Value

/-- Equality of values that are not containers. -/
def atomEq (h : Heap) : Value → Value → Bool
  | undefined, undefined => true
  | int a, int b => a == b
  | float a, float b => a.eq b
  | char a, char b => a == b
  | bool a, bool b => a == b
  | str a, str b => a == b
  | time a, time b => a.nanos == b.nanos
  | bytes a, bytes b => h.bytesAt a == h.bytesAt b
  | error a, error b => a == b
  | function a, function b => a == b
  | closure a, closure b => a == b
  | builtin a, builtin b => a == b
  | host a, host b => a == b
  | iterator a, iterator b => a == b
  | _, _ => false

def sameContainer : Value → Value → Bool
  | array k a, array k' b => k == k' && a == b
  | map k a, map k' b => k == k' && a == b
  | _, _ => false

/-- Equality that looks `depth` levels down into containers. -/
def equalsTo (h : Heap) : Nat → Value → Value → Bool
  | 0, a, b => if a.isContainer then sameContainer a b else atomEq h a b
  | depth + 1, a, b =>
    match a, b with
    | array _ r, array _ s =>
      let xs := (h.arrayAt r).toList
      let ys := (h.arrayAt s).toList
      xs.length == ys.length && (xs.zip ys).all fun (x, y) => equalsTo h depth x y
    | map _ r, map _ s =>
      let d := h.mapAt r
      let e := h.mapAt s
      d.size == e.size && d.entries.all fun (k, x) => (e.get? k).any fun y => equalsTo h depth x y
    | a, b => atomEq h a b

def equals (h : Heap) (a b : Value) : Bool := equalsTo h Limits.nesting a b

end Scripting.Value
