/-!
# `Flonum` — floating-point numbers

The floating-point values of the language are IEEE binary64 numbers, kept as their 64 bits: numbers
that differ in bits are different constants of a program even where arithmetic cannot tell them
apart (two zeros, or two not-a-numbers). Arithmetic and comparison go through `Float`.
-/

namespace Scripting

/-- A binary64 number, as its bits. -/
structure Flonum where
  bits : UInt64
  deriving DecidableEq, Repr, Inhabited

namespace Flonum

def toFloat (x : Flonum) : Float := Float.ofBits x.bits

def ofFloat (f : Float) : Flonum := ⟨f.toBits⟩

/-- The number nearest to an integer. -/
def ofInt (n : Int) : Flonum := ofFloat (Float.ofInt n)

/-! ## The parts of a number -/

/-- Is the sign bit set? -/
def isNegative (x : Flonum) : Bool := x.bits.toNat ≥ 0x8000000000000000

def exponentField (x : Flonum) : Nat := x.bits.toNat / 0x10000000000000 % 2048

def fraction (x : Flonum) : Nat := x.bits.toNat % 0x10000000000000

def isNaN (x : Flonum) : Bool := x.exponentField == 2047 && x.fraction != 0

def isInfinite (x : Flonum) : Bool := x.exponentField == 2047 && x.fraction == 0

/-- The `m` of a finite number `m * 2 ^ q`, without its sign. -/
def mantissa (x : Flonum) : Nat :=
  if x.exponentField == 0 then x.fraction else 0x10000000000000 + x.fraction

/-- The `q` of a finite number `m * 2 ^ q`. -/
def scale (x : Flonum) : Int :=
  if x.exponentField == 0 then -1074 else (x.exponentField : Int) - 1075

/-- Is the number below a finite number only half as far away as the number above it? -/
def isTight (x : Flonum) : Bool := x.fraction == 0 && 1 < x.exponentField

/-- The size of a finite number as a fraction of natural numbers. -/
def magnitude (x : Flonum) : Nat × Nat :=
  match x.scale with
  | .ofNat e => (x.mantissa * Nat.pow 2 e, 1)
  | .negSucc e => (x.mantissa, Nat.pow 2 (e + 1))

/-! ## Constants -/

def nan : Flonum := ⟨0x7ff8000000000000⟩

def infinity : Flonum := ⟨0x7ff0000000000000⟩

/-! ## Operations -/

def neg (x : Flonum) : Flonum := ⟨x.bits ^^^ 0x8000000000000000⟩

def add (x y : Flonum) : Flonum := ofFloat (x.toFloat + y.toFloat)

def sub (x y : Flonum) : Flonum := ofFloat (x.toFloat - y.toFloat)

def mul (x y : Flonum) : Flonum := ofFloat (x.toFloat * y.toFloat)

def div (x y : Flonum) : Flonum := ofFloat (x.toFloat / y.toFloat)

/-- Numeric equality: the zeros are equal, a not-a-number equals nothing. -/
def eq (x y : Flonum) : Bool := x.toFloat == y.toFloat

def lt (x y : Flonum) : Bool := Float.lt x.toFloat y.toFloat

def le (x y : Flonum) : Bool := Float.le x.toFloat y.toFloat

/-- Toward zero, into the range of 64-bit integers; a not-a-number gives zero. -/
def truncate (x : Flonum) : Int64 :=
  if x.isNaN then 0
  else
    let limit : Nat := 9223372036854775808
    let (num, den) := x.magnitude
    let size := if x.isInfinite then limit else num / den
    if x.isNegative then Int64.ofInt (-(min size limit : Nat))
    else Int64.ofInt (min size (limit - 1) : Nat)

end Flonum

end Scripting
