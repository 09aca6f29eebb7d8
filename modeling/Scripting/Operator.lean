/-!
# `Operator` — the operator symbols of the language

One inductive type for every operator a program can write. The eleven *arithmetic* operators are a
type of their own, because each of them also gives a compound assignment (`+` gives `+=`), and the
four *order* comparisons are another, because every ordered kind of value supports all four.

Each operator has a one-byte **code**. The code is part of the instruction format: the operand of a
binary-operation instruction is the code of its operator. Reading a code back succeeds only for the
operators such an instruction can carry (`Operator.ofCode?`).
-/

namespace Scripting

/-- The arithmetic and bit operators, in the order of their codes. -/
inductive Arith
  | add | sub | mul | quo | rem | and | or | xor | shl | shr | andNot
  deriving DecidableEq, Repr

namespace Arith

def all : List Arith := [add, sub, mul, quo, rem, and, or, xor, shl, shr, andNot]

def index : Arith → Nat
  | add => 0 | sub => 1 | mul => 2 | quo => 3 | rem => 4 | and => 5
  | or => 6 | xor => 7 | shl => 8 | shr => 9 | andNot => 10

def text : Arith → String
  | add => "+" | sub => "-" | mul => "*" | quo => "/" | rem => "%" | and => "&"
  | or => "|" | xor => "^" | shl => "<<" | shr => ">>" | andNot => "&^"

end Arith

inductive Order
  | less | greater | lessEq | greaterEq
  deriving DecidableEq, Repr

namespace Order

def text : Order → String
  | less => "<" | greater => ">" | lessEq => "<=" | greaterEq => ">="

/-- The comparison that holds of `b` and `a` exactly when this one holds of `a` and `b`. -/
def swap : Order → Order
  | less => greater | greater => less | lessEq => greaterEq | greaterEq => lessEq

end Order

inductive Operator
  | arith (op : Arith)
  /-- A compound assignment: `x += y`. -/
  | update (op : Arith)
  | logicalAnd
  | logicalOr
  | increment
  | decrement
  | equal
  | notEqual
  | order (cmp : Order)
  | assign
  | not
  | define
  deriving DecidableEq, Repr

namespace Operator

def code : Operator → Nat
  | arith op => 11 + op.index
  | update op => 22 + op.index
  | logicalAnd => 33
  | logicalOr => 34
  | increment => 35
  | decrement => 36
  | equal => 37
  | order .less => 38
  | order .greater => 39
  | assign => 40
  | not => 41
  | notEqual => 42
  | order .lessEq => 43
  | order .greaterEq => 44
  | define => 45

/-- **Read the operand of a binary-operation instruction.** Compound assignments, `++`, `--`, `=`
and `:=` are never operands, so their codes are refused. -/
def ofCode? : Nat → Option Operator
  | 33 => some logicalAnd
  | 34 => some logicalOr
  | 37 => some equal
  | 38 => some (order .less)
  | 39 => some (order .greater)
  | 41 => some not
  | 42 => some notEqual
  | 43 => some (order .lessEq)
  | 44 => some (order .greaterEq)
  | n => if 11 ≤ n then (Arith.all[n - 11]?).map arith else none

def text : Operator → String
  | arith op => op.text
  | update op => op.text ++ "="
  | logicalAnd => "&&"
  | logicalOr => "||"
  | increment => "++"
  | decrement => "--"
  | equal => "=="
  | notEqual => "!="
  | order cmp => cmp.text
  | assign => "="
  | not => "!"
  | define => ":="

/-- The arithmetic operator that a compound assignment applies. -/
def updates? : Operator → Option Arith
  | update op => some op
  | _ => none

def all : List Operator :=
  Arith.all.map arith ++ Arith.all.map update ++
    [logicalAnd, logicalOr, increment, decrement, equal, order .less, order .greater, assign, not,
      notEqual, order .lessEq, order .greaterEq, define]

def ofText? (s : String) : Option Operator := all.find? (fun op => op.text == s)

theorem ofCode?_code_arith (op : Arith) : ofCode? (arith op).code = some (arith op) := by
  cases op <;> rfl

end Operator

end Scripting
