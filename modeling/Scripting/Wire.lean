import Scripting.Flonum
import Scripting.Text.Utf8
/-!
# `Wire` — the binary form of numbers, texts and sequences

Natural numbers are written in groups of seven bits, the lowest first, each in a byte whose highest
bit says whether more follow. Integers are folded onto the natural numbers first, so that numbers near
zero are short. Texts and sequences begin with their length.

A reader takes what it needs from the front of the input and leaves the rest. It accepts numbers that
are longer than needed, up to a fixed number of bytes.
-/

namespace Scripting

/-- Why bytes cannot be read, or a value cannot be written. -/
inductive WireError
  | endOfInput
  | endlessNumber
  | invalidBool
  | invalidText
  | invalidChar
  | invalidVariant
  /-- A value of a type that has no binary form. -/
  | unsupported (typeName : String)
  | unknownBuiltin (name : String)
  deriving DecidableEq, Repr

def WireError.message : WireError → String
  | endOfInput => "postcard: Hit the end of buffer, expected more data"
  | endlessNumber =>
    "postcard: Found a varint that didn't terminate. Is the usize too big for this platform?"
  | invalidBool => "postcard: Found a bool that wasn't 0 or 1"
  | invalidText => "postcard: Tried to parse invalid utf-8"
  | invalidChar => "postcard: Found an invalid unicode char"
  | invalidVariant => "postcard: Serde Deserialization Error"
  | unsupported typeName => "cannot encode object of type " ++ typeName
  | unknownBuiltin name => "unknown builtin function '" ++ name ++ "'"

namespace Wire

/-! ## Writing -/

def nat (n : Nat) : List UInt8 :=
  if n < 128 then [UInt8.ofNat n] else UInt8.ofNat (n % 128 + 128) :: nat (n / 128)

/-- The integers folded onto the natural numbers: 0, -1, 1, -2, 2, … -/
def fold (n : Int) : Nat := if 0 ≤ n then 2 * n.toNat else 2 * (-n).toNat - 1

def int (n : Int64) : List UInt8 := nat (fold n.toInt)

def bool (b : Bool) : List UInt8 := [if b then 1 else 0]

/-- Eight bytes, the lowest first. -/
def word (w : UInt64) : List UInt8 :=
  (List.range 8).map fun i => UInt8.ofNat (w.toNat / Nat.pow 256 i)

def text (s : String) : List UInt8 := nat s.utf8ByteSize ++ Text.encode s

/-- A sequence: the number of items, then the items. -/
def seq {α : Type} (item : α → List UInt8) (xs : List α) : List UInt8 :=
  nat xs.length ++ xs.flatMap item

/-! ## Reading -/

/-- Read something from the front of the input. -/
abbrev Reader (α : Type) := StateT (List UInt8) (Except WireError) α

namespace Reader

def byte : Reader UInt8 := fun
  | [] => .error .endOfInput
  | b :: bs => .ok (b, bs)

def take (n : Nat) : Reader (List UInt8) := fun bs =>
  let taken := bs.take n
  if taken.length < n then .error .endOfInput else .ok (taken, bs.drop n)

/-- A natural number of at most `left` bytes, whose last possible byte is at most `last`. -/
def natIn (last : Nat) : Nat → Reader Nat
  | 0 => throw .endlessNumber
  | left + 1 => do
    let b := (← byte).toNat
    if 128 ≤ b then
      let rest ← natIn last left
      return b - 128 + 128 * rest
    else if left = 0 && last < b then throw .endlessNumber
    else return b

/-- A natural number below 2 ^ 64. -/
def nat : Reader Nat := natIn 1 10

/-- The number of a variant, below 2 ^ 32. -/
def variant : Reader Nat := natIn 15 5

/-- The integer that `fold` maps to this number. -/
def unfold (n : Nat) : Int := if n % 2 = 0 then (n / 2 : Nat) else -((n / 2 : Nat) : Int) - 1

def int : Reader Int64 := return Int64.ofInt (unfold (← nat))

def bool : Reader Bool := do
  match (← byte).toNat with
  | 0 => return false
  | 1 => return true
  | _ => throw .invalidBool

/-- The number whose bytes these are, the lowest first. -/
def ofBytes : List UInt8 → Nat
  | [] => 0
  | b :: bs => b.toNat + 256 * ofBytes bs

def word : Reader UInt64 := return UInt64.ofNat (ofBytes (← take 8))

def text : Reader String := do
  match Text.decode? (← take (← nat)) with
  | some s => return s
  | none => throw .invalidText

/-- A character, written as a text. Of a longer text the first character counts. -/
def char : Reader Char := do
  let size ← nat
  if 4 < size then throw .invalidChar
  match (Text.decode? (← take size)).bind (·.toList.head?) with
  | some c => return c
  | none => throw .invalidChar

def times {α : Type} (item : Reader α) : Nat → Reader (List α)
  | 0 => return []
  | n + 1 => do
    let x ← item
    let xs ← times item n
    return x :: xs

def seq {α : Type} (item : Reader α) : Reader (List α) := do times item (← nat)

end Reader

end Wire

end Scripting
