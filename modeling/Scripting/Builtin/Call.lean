import Scripting.Format
import Scripting.Value.Convert
import Scripting.Value.Copy
import Scripting.Value.Slice
/-!
# `Builtin.Call` — what the built-in functions do

`Builtin.call` runs a built-in on its arguments. Only `splice` and `delete` change an object that
exists already, and both check all of their arguments first, so a failed call changes nothing.
-/

namespace Scripting.Builtin

/-- Fail with a note on the argument at a place. -/
def badArgument {α : Type} (place expected : String) (v : Value) : Action α := fun h =>
  .error (.invalidArgumentType place expected (v.typeName h)) h

/-- The integer argument at a place counted from zero. -/
def intArgument (place : Nat) : Value → Action Int64
  | .int n => pure n
  | v => badArgument (ordinal place) "int" v

/-- Is the value of the kind that a test built-in asks for? -/
def isKind : Builtin → Value → Bool
  | isInt, .int _ | isFloat, .float _ | isString, .str _ | isBool, .bool _ | isChar, .char _
  | isBytes, .bytes _ | isArray, .array .mutable _ | isImmutableArray, .array .frozen _
  | isMap, .map .mutable _ | isImmutableMap, .map .frozen _ | isTime, .time _
  | isError, .error _ | isUndefined, .undefined | isFunction, .function _
  | isFunction, .closure _ => true
  | isIterable, v => v.isIterable
  | isCallable, v => v.isCallable
  | _, _ => false

def lengthOf (v : Value) : Action Value := fun h =>
  let length? : Option Nat :=
    match v with
    | .array _ r => some (h.arrayAt r).size
    | .str s => some s.length
    | .bytes r => some (h.bytesAt r).size
    | .map _ r => some (h.mapAt r).size
    | _ => none
  match length? with
  | some n => .ok (.int (Int64.ofNat n)) h
  | none => badArgument "first" "array/string/bytes/map" v h

def appendTo (target : Value) (more : List Value) : Action Value := fun h =>
  match h.items? target with
  | some items => Action.newArray (items ++ more.toArray) h
  | none => badArgument "first" "array" target h

def deleteFrom (target key : Value) : Action Value :=
  match target, key with
  | .map .mutable r, .str k => fun h => .ok .undefined (h.eraseEntry r k)
  | .map .mutable _, key => badArgument "second" "string" key
  | target, _ => badArgument "first" "map" target

/-- Where a splice of an array with `length` items starts: at the front if nothing else is said. -/
def spliceStart (length : Nat) : Option Value → Action Nat
  | none => pure 0
  | some v => do
    let n ← intArgument 1 v
    if 0 ≤ n.toInt ∧ n.toInt ≤ length then pure n.toInt.toNat else throw .indexOutOfBounds

/-- How many items a splice removes: all that follow the start if nothing else is said. -/
def spliceCount (rest : Nat) : Option Value → Action Nat
  | none => pure rest
  | some v => do
    let n ← intArgument 2 v
    if 0 ≤ n.toInt then pure n.toInt.toNat else throw .indexOutOfBounds

/-- Replace the items from `start` up to `stop` by others; gives the new items and the removed
ones. -/
def spliceItems (items : Array Value) (start stop : Nat) (inserted : List Value) :
    Array Value × Array Value :=
  (items.extract 0 start ++ inserted.toArray ++ items.extract stop items.size,
    items.extract start stop)

/-- Cut a part out of an array, put other items in its place and give the part. -/
def spliceArray (target : Value) (args : List Value) : Action Value :=
  match target with
  | .array .mutable r => do
    let items ← Action.read (·.arrayAt r)
    let start ← spliceStart items.size args[0]?
    let count ← spliceCount (items.size - start) args[1]?
    let (kept, removed) := spliceItems items start (min (start + count) items.size) (args.drop 2)
    modify (·.setArray r kept)
    Action.newArray removed
  | v => badArgument "first" "array" v

/-- The most items that `range` makes. -/
def rangeLimit : Nat := 67108863

/-- How many steps of size `step` lead from `start` up to or past `stop`. -/
def rangeCount (start stop : Int) (step : Nat) : Nat :=
  ((stop - start).natAbs + (step - 1)) / step

/-- The item of a range after `i` steps toward `stop`. -/
def rangeItem (start stop : Int) (step i : Nat) : Int :=
  if start ≤ stop then start + i * step else start - i * step

/-- The integers from `start` toward `stop`, which is not one of them. -/
def rangeOf (start stop step : Int64) : Action Value :=
  if step.toInt ≤ 0 then throw (.invalidRangeStep step.toInt)
  else
    let count := rangeCount start.toInt stop.toInt step.toInt.toNat
    if rangeLimit < count then throw (.rangeTooLarge count rangeLimit)
    else
      Action.newArray (Array.ofFn fun (i : Fin count) =>
        .int (Int64.ofInt (rangeItem start.toInt stop.toInt step.toInt.toNat i)))

def rangeArguments (start stop : Value) (step : Option Value) : Action Value := do
  let start ← intArgument 0 start
  let stop ← intArgument 1 stop
  match step with
  | none => rangeOf start stop 1
  | some step => rangeOf start stop (← intArgument 2 step)

/-- A buffer: a number of zero bytes, or the bytes of a text. A buffer is given back as it is. -/
def bytesOf (v fallback : Value) : Action Value :=
  match v with
  | .int n =>
    if n.toInt < 0 then throw .indexOutOfBounds
    else if Limits.bytesSize < n.toInt.toNat then throw .bytesLimit
    else Action.newBytes (Array.replicate n.toInt.toNat 0)
  | .bytes r => pure (.bytes r)
  | .str s => Action.newBytes (Text.encode s).toArray
  | _ => pure fallback

/-- Convert a value; where that fails, the result is the fallback. -/
def convert (b : Builtin) (v fallback : Value) : Action Value := fun h =>
  match b with
  | string =>
    match v with
    | .undefined => .ok fallback h
    | v => .ok (.str (v.plain h)) h
  | int => .ok (v.toInt?.elim fallback .int) h
  | float => .ok (v.toFloat?.elim fallback .float) h
  | char => .ok (v.toChar?.elim fallback .char) h
  | time => .ok (v.toTime?.elim fallback .time) h
  | _ => bytesOf v fallback h

/-- Fill a template; without arguments the template itself is the result. -/
def formatOf (template : Value) (args : List Value) : Action Value :=
  match template with
  | .str t =>
    if args.isEmpty then pure template
    else fun h => Action.ofExcept ((Format.format h t args).map .str) h
  | v => badArgument "format" "string" v

/-- **Call a built-in function.** -/
def call (b : Builtin) (args : List Value) : Action Value :=
  match b, args with
  | len, [v] => lengthOf v
  | copy, [v] => v.copy
  | append, v :: more => appendTo v more
  | delete, [v, k] => deleteFrom v k
  | splice, v :: more => spliceArray v more
  | string, [v] | int, [v] | float, [v] | char, [v] | bytes, [v] | time, [v] =>
    b.convert v .undefined
  | string, [v, w] | int, [v, w] | float, [v, w] | char, [v, w] | bytes, [v, w] | time, [v, w] =>
    b.convert v w
  | bool, [v] => Action.read fun h => .bool !(v.isFalsy h)
  | typeName, [v] => Action.read fun h => .str (v.typeName h)
  | format, t :: more => formatOf t more
  | range, [a, z] => rangeArguments a z none
  | range, [a, z, s] => rangeArguments a z (some s)
  | isInt, [v] | isFloat, [v] | isString, [v] | isBool, [v] | isChar, [v] | isBytes, [v]
  | isArray, [v] | isImmutableArray, [v] | isMap, [v] | isImmutableMap, [v] | isIterable, [v]
  | isTime, [v] | isError, [v] | isUndefined, [v] | isFunction, [v] | isCallable, [v] =>
    pure (.bool (b.isKind v))
  | _, _ => throw .wrongNumArguments

end Scripting.Builtin
