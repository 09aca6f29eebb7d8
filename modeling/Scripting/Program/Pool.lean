import Std.Data.HashMap
import Scripting.Program
import Scripting.Value.Equality
/-!
# `Program.Pool` — merging equal constants

Equal constants need to be stored only once. `Program.merged` keeps the first of all constants that
belong together and renumbers the operands that refer to the others.

What belongs together: numbers with the same bits, equal characters, truth values and texts, one and
the same function, and frozen containers that compare as equal. Nothing else is merged; two functions
with the same code are different values. Containers are compared as a program compares them, which
does not tell the two zeros apart, nor a frozen item from one that can be changed, nor maps by the
order of their entries; what is merged may differ in these.
-/

namespace Scripting

namespace Value

/-- Constants that are merged when they are the same value. -/
def isPlainConstant : Value → Bool
  | function _ | int _ | float _ | char _ | bool _ | str _ => true
  | _ => false

/-- Plain constants are spread by what they stand for; all others are never looked up. -/
instance : Hashable Value where
  hash
    | function r => hash r
    | int n => hash n.toInt
    | float x => hash x.bits
    | char c => hash c.toNat
    | bool b => hash b
    | str s => hash s
    | _ => 0

/-- Constants that are merged when they are equal. -/
def isFrozenContainer : Value → Bool
  | array .frozen _ | map .frozen _ => true
  | _ => false

end Value

/-- The constants that are kept. -/
structure Pool where
  kept : Array Value := #[]
  /-- The place of every kept plain constant. -/
  places : Std.HashMap Value Nat := {}

namespace Pool

/-- The place of the kept constant that stands for `v`, if there is one. -/
def find? (h : Heap) (pool : Pool) (v : Value) : Option Nat :=
  if v.isPlainConstant then pool.places[v]?
  else if v.isFrozenContainer then
    pool.kept.findIdx? fun w => w.isFrozenContainer && w.equals h v
  else none

def push (pool : Pool) (v : Value) : Pool :=
  let place := pool.kept.size
  { kept := pool.kept.push v
    places := if v.isPlainConstant then pool.places.insert v place else pool.places }

/-- Find a place for each constant, in order. Gives the places and the pool. -/
def place (h : Heap) : List Value → Pool → Array Nat → Array Nat × Pool
  | [], pool, places => (places, pool)
  | v :: vs, pool, places =>
    match pool.find? h v with
    | some i => place h vs pool (places.push i)
    | none =>
      let next := pool.kept.size
      place h vs (pool.push v) (places.push next)

end Pool

namespace Code

/-- Renumber the constants that code refers to. Numbers beyond the table stay. -/
def renumber (places : Array Nat) (code : Bytes) : Bytes :=
  (decode code).foldl (fun code (offset, i) =>
    match i.op with
    | .constant | .closure =>
      match places[readU16 code (offset + 1)]? with
      | some place => patchU16 code (offset + 1) place
      | none => code
    | _ => code) code

end Code

namespace Program

def renumbered (places : Array Nat) (h : Heap) (r : Ref) : Ref × Heap :=
  let f := h.routineAt r
  h.newFunction { f with code := Code.renumber places f.code }

/-- Renumber the functions among constants. -/
def renumberAll (places : Array Nat) : List Value → Array Value → Heap → Array Value × Heap
  | [], done, h => (done, h)
  | .function r :: vs, done, h =>
    let (r, h) := renumbered places h r
    renumberAll places vs (done.push (.function r)) h
  | v :: vs, done, h => renumberAll places vs (done.push v) h

/-- **Merge equal constants.** The functions of the result are new, the given program stays as it
is. -/
def merged (p : Program) (h : Heap) : Program × Heap :=
  let (places, pool) := Pool.place h p.constants.toList {} #[]
  let (main, h) := renumbered places h p.main
  let (constants, h) := renumberAll places pool.kept.toList #[] h
  ({ p with main, constants }, h)

end Program

end Scripting
