import Scripting.Program
import Scripting.Value.Equality
/-!
# `Program.Equality` — when two programs are equal

Programs are compared by content: functions by their code, numbers by their bits, containers and
errors by what they hold. Only in that respect does it differ from the equality of values, which is
what a running program sees.
-/

namespace Scripting

/-- Equality of constants, down to `depth` levels of containers. -/
def Value.sameConstantTo (h : Heap) : Nat → Value → Value → Bool
  | 0, _, _ => false
  | depth + 1, a, b =>
    a.typeName h == b.typeName h &&
    match a, b with
    | .function f, .function g => h.routineAt f == h.routineAt g
    | .float x, .float y => x == y
    | .error x, .error y => sameConstantTo h depth (h.errorAt x) (h.errorAt y)
    | .array _ r, .array _ s =>
      let xs := (h.arrayAt r).toList
      let ys := (h.arrayAt s).toList
      xs.length == ys.length && (xs.zip ys).all fun (x, y) => sameConstantTo h depth x y
    | .map _ r, .map _ s =>
      let d := h.mapAt r
      let e := h.mapAt s
      d.size == e.size &&
        d.entries.all fun (k, x) => (e.get? k).any fun y => sameConstantTo h depth x y
    | a, b => a.equals h b

namespace Heap

/-- A bound on the nesting of containers that do not contain themselves. -/
def nestingBound (h : Heap) : Nat := h.arrays.size + h.maps.size + h.errors.size + 1

end Heap

def Value.sameConstant (h : Heap) (a b : Value) : Bool := sameConstantTo h h.nestingBound a b

def Program.same (h : Heap) (p q : Program) : Bool :=
  p.files == q.files && h.routineAt p.main == h.routineAt q.main &&
    p.constants.size == q.constants.size &&
    (p.constants.toList.zip q.constants.toList).all fun (a, b) => a.sameConstant h b

end Scripting
