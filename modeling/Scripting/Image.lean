import Scripting.Program.Equality
import Scripting.Wire
/-!
# `Image` — programs without a heap

An image holds a program as a tree, so that it can be stored. Constants become literals; functions are
part of the tree by content. Closures, host functions and iterators exist only while a program runs and
have no literal.
-/

namespace Scripting

/-- A constant as a tree. -/
inductive Literal
  | int (value : Int64)
  | float (value : Flonum)
  | char (value : Char)
  | bool (value : Bool)
  | str (value : String)
  | bytes (value : List UInt8)
  | array (kind : Mutability) (items : List Literal)
  | map (kind : Mutability) (entries : List (String × Literal))
  | error (payload : Literal)
  | undefined
  | function (routine : Routine)
  | builtin (name : String)
  /-- An instant, as nanoseconds since 1970-01-01 00:00:00 UTC. -/
  | time (nanos : Int64)
  deriving Inhabited

structure Image where
  files : FileSet := {}
  main : Routine := {}
  constants : List Literal := []
  deriving Inhabited

/-! ## Storing -/

namespace Value

/-- The literal of a value nested at most `depth` levels. -/
def literalTo (h : Heap) : Nat → Value → Except WireError Literal
  | 0, v => .error (.unsupported (v.typeName h))
  | depth + 1, v =>
    match v with
    | .int n => return .int n
    | .float x => return .float x
    | .char c => return .char c
    | .bool b => return .bool b
    | .str s => return .str s
    | .bytes r => return .bytes (h.bytesAt r).toList
    | .array kind r => return .array kind (← (h.arrayAt r).toList.mapM (literalTo h depth))
    | .map kind r => do
      let values ← (h.mapAt r).values.mapM (literalTo h depth)
      return .map kind ((h.mapAt r).keys.zip values)
    | .error r => return .error (← literalTo h depth (h.errorAt r))
    | .undefined => return .undefined
    | .function r => return .function (h.routineAt r)
    | .builtin b => return .builtin b.name
    | .time t =>
      if (Int64.ofInt t.nanos).toInt = t.nanos then return .time (Int64.ofInt t.nanos)
      else throw (.unsupported (v.typeName h))
    | .closure _ | .host _ | .iterator _ => throw (.unsupported (v.typeName h))

def literal (h : Heap) (v : Value) : Except WireError Literal := literalTo h h.nestingBound v

end Value

def Program.image (h : Heap) (p : Program) : Except WireError Image := do
  return {
    files := p.files
    main := h.routineAt p.main
    constants := ← p.constants.toList.mapM (Value.literal h) }

/-! ## Loading -/

/-- Every count of nanoseconds in 64 bits is an instant. -/
def Instant.ofInt64 (n : Int64) : Instant where
  nanos := n.toInt
  inRange := by
    have low := n.le_toInt
    have high := n.toInt_lt
    simp only [Instant.least, Instant.greatest, Instant.firstSecond, Instant.lastSecond,
      Instant.perSecond]
    omega

mutual

def Literal.load : Literal → Heap → Except WireError (Value × Heap)
  | .int n, h => .ok (.int n, h)
  | .float x, h => .ok (.float x, h)
  | .char c, h => .ok (.char c, h)
  | .bool b, h => .ok (.bool b, h)
  | .str s, h => .ok (.str s, h)
  | .bytes bs, h => .ok (h.newBytes bs.toArray)
  | .array kind items, h => do
    let (values, h) ← loadItems items h
    return h.newArray kind values.toArray
  | .map kind entries, h => do
    let (entries, h) ← loadEntries entries h
    return h.newMap kind (Dict.ofList entries)
  | .error payload, h => do
    let (v, h) ← payload.load h
    return h.newError v
  | .undefined, h => .ok (.undefined, h)
  | .function f, h =>
    let (r, h) := h.newFunction f
    .ok (.function r, h)
  | .builtin name, h =>
    match Builtin.ofName? name with
    | some b => .ok (.builtin b, h)
    | none => .error (.unknownBuiltin name)
  | .time n, h => .ok (.time (Instant.ofInt64 n), h)

def loadItems : List Literal → Heap → Except WireError (List Value × Heap)
  | [], h => .ok ([], h)
  | l :: ls, h => do
    let (v, h) ← l.load h
    let (vs, h) ← loadItems ls h
    return (v :: vs, h)

def loadEntries : List (String × Literal) → Heap → Except WireError (List (String × Value) × Heap)
  | [], h => .ok ([], h)
  | (key, l) :: ls, h => do
    let (v, h) ← l.load h
    let (vs, h) ← loadEntries ls h
    return ((key, v) :: vs, h)

end

def Image.load (image : Image) (h : Heap) : Except WireError (Program × Heap) := do
  let (main, h) := h.newFunction image.main
  let (constants, h) ← loadItems image.constants h
  return ({ files := image.files, main, constants := constants.toArray }, h)

end Scripting
