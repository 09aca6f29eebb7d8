import Scripting.Decimal.Numeral
/-!
# `Integer` — the integers of the language

Integers are 64-bit words in two's complement. Sums, differences and products wrap; this module adds
what the word type does not fix: reading and writing decimals, the way to characters, and shifts whose
count is a full word.
-/

namespace Scripting.Integer

def least : Int := -9223372036854775808

def greatest : Int := 9223372036854775807

/-- A mathematical integer as a word, if it fits. -/
def ofInt? (n : Int) : Option Int64 :=
  if least ≤ n ∧ n ≤ greatest then some (Int64.ofInt n) else none

/-- The decimal numeral. -/
def text (n : Int64) : String := n.toInt.repr

/-- Read a decimal numeral with an optional sign; `none` for anything else and for numbers that do
not fit a word. -/
def ofText? (s : String) : Option Int64 :=
  (Decimal.signedNumeral? s.toList).bind ofInt?

/-- Shift left. The count is read as an unsigned word; from 64 on nothing is left. -/
def shiftLeft (a b : Int64) : Int64 :=
  if 64 ≤ b.toUInt64.toNat then 0 else a <<< b

/-- Shift right, keeping the sign. The count is read as an unsigned word; from 64 on only the sign is
left. -/
def shiftRight (a b : Int64) : Int64 :=
  if 64 ≤ b.toUInt64.toNat then (if a < 0 then -1 else 0) else a >>> b

/-- The character with this code point, if there is one. -/
def toChar? (n : Int) : Option Char :=
  if h : 0 ≤ n ∧ n.toNat.isValidChar then some (Char.ofNatAux n.toNat h.2) else none

end Scripting.Integer
