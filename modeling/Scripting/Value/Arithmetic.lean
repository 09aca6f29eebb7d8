import Scripting.Integer
import Scripting.Limits
import Scripting.Operator
import Scripting.Value.Action
/-!
# `Value.Arithmetic` — the binary operators on values

Integers, floating-point numbers and characters mix: an integer next to a floating-point number
becomes one, and a sum or difference with a character is a character. Texts, byte buffers and arrays
can be joined with `+`, instants can be moved by nanoseconds and subtracted, and everything with an
order can be compared. All other combinations are invalid.
-/

namespace Scripting

/-- Evaluate a comparison from a strict and a weak order. `a > b` is `b < a`, and `a >= b` is
`b <= a`. -/
def Order.eval {α : Type} (o : Order) (lt le : α → α → Bool) (a b : α) : Bool :=
  match o with
  | .less => lt a b
  | .greater => lt b a
  | .lessEq => le a b
  | .greaterEq => le b a

namespace Value

def compareInt (op : Operator) (a b : Int) : Except ValueError Value :=
  match op with
  | .order o => .ok (.bool (o.eval (fun x y => x < y) (fun x y => x ≤ y) a b))
  | _ => .error .invalidOperator

def intBinary (op : Operator) (a b : Int64) : Except ValueError Value :=
  match op with
  | .arith .add => .ok (.int (a + b))
  | .arith .sub => .ok (.int (a - b))
  | .arith .mul => .ok (.int (a * b))
  | .arith .quo => if b = 0 then .error .divisionByZero else .ok (.int (a / b))
  | .arith .rem => if b = 0 then .error .divisionByZero else .ok (.int (a % b))
  | .arith .and => .ok (.int (a &&& b))
  | .arith .or => .ok (.int (a ||| b))
  | .arith .xor => .ok (.int (a ^^^ b))
  | .arith .andNot => .ok (.int (a &&& ~~~b))
  | .arith .shl => .ok (.int (Integer.shiftLeft a b))
  | .arith .shr => .ok (.int (Integer.shiftRight a b))
  | op => compareInt op a.toInt b.toInt

def floatBinary (op : Operator) (x y : Flonum) : Except ValueError Value :=
  match op with
  | .arith .add => .ok (.float (x.add y))
  | .arith .sub => .ok (.float (x.sub y))
  | .arith .mul => .ok (.float (x.mul y))
  | .arith .quo => .ok (.float (x.div y))
  | .order o => .ok (.bool (o.eval Flonum.lt Flonum.le x y))
  | _ => .error .invalidOperator

/-- The character with a code point that must first of all be an integer of the language. -/
def charOfSum (n : Int) : Except ValueError Value :=
  if (Integer.ofInt? n).isNone then .error .invalidOperator
  else
    match Integer.toChar? n with
    | some c => .ok (.char c)
    | none => .error (.invalidChar n)

/-- Operators on code points, where at least one operand is a character. -/
def charBinary (op : Operator) (a b : Int) : Except ValueError Value :=
  match op with
  | .arith .add => charOfSum (a + b)
  | .arith .sub => charOfSum (a - b)
  | op => compareInt op a b

def joinText (a b : String) : Except ValueError Value :=
  if Limits.textSize < a.utf8ByteSize + b.utf8ByteSize then .error .textLimit
  else .ok (.str (a ++ b))

def textBinary (op : Operator) (a b : String) : Except ValueError Value :=
  match op with
  | .arith .add => joinText a b
  | .order o => .ok (.bool (o.eval (fun x y => x < y) (fun x y => !(y < x)) a b))
  | _ => .error .invalidOperator

def moveTime (t : Instant) (n : Int64) : Except ValueError Value :=
  match t.add? n.toInt with
  | some u => .ok (.time u)
  | none => .error .invalidOperator

/-- Operators on an instant and a number of nanoseconds. Going back is going forward by the negated
word. -/
def timeIntBinary (op : Operator) (t : Instant) (n : Int64) : Except ValueError Value :=
  match op with
  | .arith .add => moveTime t n
  | .arith .sub => moveTime t (-n)
  | _ => .error .invalidOperator

def timeBinary (op : Operator) (t u : Instant) : Except ValueError Value :=
  match op with
  | .arith .sub =>
    match Integer.ofInt? (t.since u) with
    | some n => .ok (.int n)
    | none => .error .invalidOperator
  | op => compareInt op t.nanos u.nanos

/-- Operators on values that are kept without the heap. -/
def plainBinary (op : Operator) : Value → Value → Except ValueError Value
  | int a, int b => intBinary op a b
  | int a, float y => floatBinary op (Flonum.ofInt a.toInt) y
  | int a, char d => charBinary op a.toInt d.toNat
  | float x, float y => floatBinary op x y
  | float x, int b => floatBinary op x (Flonum.ofInt b.toInt)
  | char c, char d => charBinary op c.toNat d.toNat
  | char c, int b => charBinary op c.toNat b.toInt
  | str a, str b => textBinary op a b
  | str a, char d => if op = .arith .add then joinText a d.toString else .error .invalidOperator
  | time t, int n => timeIntBinary op t n
  | time t, time u => timeBinary op t u
  | _, _ => .error .invalidOperator

/-- **Apply a binary operator.** Joining byte buffers or arrays makes a new, changeable object. -/
def binary (op : Operator) (a b : Value) : Action Value := fun h =>
  match op, a, b with
  | .arith .add, bytes r, bytes s =>
    let xs := h.bytesAt r
    let ys := h.bytesAt s
    if Limits.bytesSize < xs.size + ys.size then .error .bytesLimit h
    else Action.newBytes (xs ++ ys) h
  | .arith .add, array _ r, array _ s => Action.newArray (h.arrayAt r ++ h.arrayAt s) h
  | op, a, b => Action.ofExcept (plainBinary op a b) h

end Value

end Scripting
