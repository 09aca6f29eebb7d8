/-!
# `Decimal.Numeral` — reading decimal digits

The pieces shared by the readers of integers and of floating-point numbers. Digits are the ten ASCII
digits and nothing else.
-/

namespace Scripting.Decimal

def digitsValue (ds : List Char) : Nat :=
  ds.foldl (fun n c => n * 10 + (c.toNat - 48)) 0

/-- Split off the leading digits. -/
def spanDigits (cs : List Char) : List Char × List Char :=
  (cs.takeWhile Char.isDigit, cs.dropWhile Char.isDigit)

/-- Split off an optional sign; `true` for minus. -/
def takeSign : List Char → Bool × List Char
  | '-' :: rest => (true, rest)
  | '+' :: rest => (false, rest)
  | cs => (false, cs)

/-- One or more digits and nothing else. -/
def numeral? (ds : List Char) : Option Nat :=
  if ds.isEmpty || !ds.all Char.isDigit then none else some (digitsValue ds)

/-- An optional sign, then one or more digits and nothing else. -/
def signedNumeral? (cs : List Char) : Option Int :=
  let (negative, ds) := takeSign cs
  (numeral? ds).map fun (n : Nat) => if negative then -(n : Int) else n

end Scripting.Decimal
