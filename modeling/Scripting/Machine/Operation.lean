import Scripting.Machine.State
import Scripting.Value.Arithmetic
import Scripting.Value.Copy
import Scripting.Value.Equality
import Scripting.Value.Index
import Scripting.Value.Iteration
/-!
# `Machine.Operation` — instructions that work on values

Operands come off the stack and the result goes onto it. Only results that may be new objects count as
allocations.
-/

namespace Scripting.Machine

def compareEqual (expected : Bool) : Exec Unit := do
  let rhs ← pop
  let lhs ← pop
  push (.bool ((← readHeap (lhs.equals · rhs)) == expected))

/-- A failed binary operation, with the types that do not allow it. -/
def binaryFault (op : Operator) (lhs rhs : Value) (h : Heap) : ValueError → Fault
  | .invalidOperator => .invalidBinary (lhs.typeName h) op (rhs.typeName h)
  | e => .operation e

/-- Pop two values and apply a binary operator. -/
def applyBinary (code : Nat) : Exec Unit := do
  let some op := Operator.ofCode? code | throw (.invalidOperator code)
  let rhs ← pop
  let lhs ← pop
  pushNew (← onHeap (binaryFault op lhs rhs) (lhs.binary op rhs))

def negate : Exec Unit := do
  match ← pop with
  | .int n => pushNew (.int (-n))
  | .float x => pushNew (.float x.neg)
  | v => refuse (.invalidUnary "-") v

def complement : Exec Unit := do
  match ← pop with
  | .int n => pushNew (.int (~~~n))
  | v => refuse (.invalidUnary "^") v

def isFalsy (v : Value) : Exec Bool := readHeap v.isFalsy

def logicalNot : Exec Unit := do push (.bool (← isFalsy (← pop)))

def jumpFalsy (target : Nat) : Exec Unit := do
  if ← isFalsy (← pop) then jump target

/-- Jump if the truth of the top of the stack decides the result, which is then the top itself;
otherwise pop it. -/
def jumpDecided (decisive : Bool) (target : Nat) : Exec Unit := do
  if (← isFalsy (← peek)) != decisive then jump target else discard pop

def makeArray (n : Nat) : Exec Unit := do
  let items ← popMany n
  countAllocation
  push (← make (·.newArray .mutable items.toArray))

/-- The entries of a map from keys and values in turn. A last key without a value is ignored. -/
def pairUp : List Value → Exec (List (String × Value))
  | .str key :: value :: rest => return (key, value) :: (← pairUp rest)
  | key :: _ :: _ => refuse .invalidMapKey key
  | _ => return []

def makeMap (n : Nat) : Exec Unit := do
  let entries ← pairUp (← popMany n)
  countAllocation
  push (← make (·.newMap .mutable (Dict.ofList entries)))

def makeError : Exec Unit := do
  let payload ← pop
  countAllocation
  push (← make (·.newError payload))

def freeze : Exec Unit := do
  let v ← pop
  match v with
  | .array .mutable _ | .map .mutable _ => countAllocation
  | _ => pure ()
  push (← act v.freeze)

/-- A failed look-up or assignment, with the type that does not allow it. -/
def indexFault (target key : Value) (h : Heap) : ValueError → Fault
  | .notIndexable => .notIndexable (target.typeName h)
  | .notIndexAssignable => .notIndexAssignable (target.typeName h)
  | .invalidIndexType => .invalidIndexType (key.typeName h)
  | e => .operation e

def lookup (target key : Value) : Exec Value := fun m =>
  match target.indexGet m.heap key with
  | .ok v => .ok v m
  | .error e => .error (indexFault target key m.heap e) m

def index : Exec Unit := do
  let key ← pop
  let target ← pop
  push (← lookup target key)

/-- Pop two bounds and a value and push the part between the bounds. -/
def slice : Exec Unit := do
  let high ← pop
  let low ← pop
  let target ← pop
  pushNew (← onHeap (fun _ => .slice) (target.slice low high))

/-- Follow selectors from a value, one after the other. -/
def follow (target : Value) : List Value → Exec Value
  | [] => pure target
  | key :: keys => do follow (← lookup target key) keys

/-- Change the part of `target` to which selectors lead. They come off the stack last one first. -/
def assignPart (target value : Value) : List Value → Exec Unit
  | [] => throw .missingSelector
  | last :: path => do
    let holder ← follow target path.reverse
    onHeap (indexFault holder last) (holder.indexSet last value)

/-- Pop selectors and a value, and assign it to a part of a variable. -/
def assignSelected (read : Exec Value) (selectors : Nat) : Exec Unit := do
  let keys ← popMany selectors
  let value ← pop
  assignPart (← read) value keys

def startIteration : Exec Unit := do
  let v ← pop
  match ← act v.iterate? with
  | some iterator => pushNew iterator
  | none => refuse .notIterable v

/-- Pop an iterator and move it on; push whether there is an element. -/
def iterationNext : Exec Unit := do push (.bool (← act (← pop).iterNext))

/-- Pop an iterator and push something about its current element. -/
def iterationPart (part : Heap → Value → Except ValueError Value) : Exec Unit := do
  let iterator ← pop
  push (← act fun h =>
    match part h iterator with
    | .ok v => .ok v h
    | .error e => .error e h)

def pushBuiltin (i : Nat) : Exec Unit :=
  match Builtin.ofIndex? i with
  | some b => push (.builtin b)
  | none => throw (.invalidBuiltin i)

/-- Make a closure from a function among the constants and the cells that wait for it. -/
def makeClosure (env : Env) (i n : Nat) : Exec Unit := do
  let .function routine ← constant env i | throw (.notFunction i)
  let cells ← fun m =>
    if m.captures.size < n then .error .stackUnderflow m
    else
      let rest := m.captures.size - n
      .ok (m.captures.extract rest) { m with captures := m.captures.shrink rest }
  countAllocation
  push (← make (·.newClosure { routine, cells }))

def currentFunction : Exec Value := fun m => .ok m.frame.callee m

end Scripting.Machine
