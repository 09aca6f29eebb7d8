import Scripting.Flonum
import Scripting.Decimal.Numeral
/-!
# `Flonum.Reader` — reading floating-point numbers

The accepted texts are an optional sign followed by `inf`, `infinity`, `nan` (in any case of letters)
or a decimal number: digits with an optional point, at least one digit in all, and an optional
exponent. The value is the number nearest to the decimal.
-/

namespace Scripting.Flonum

open Decimal

/-- An optional exponent, up to the end of the text. -/
def exponent? : List Char → Option Int
  | [] => some 0
  | c :: rest =>
    if c == 'e' || c == 'E' then signedNumeral? rest else none

/-- The number nearest to `m * 10 ^ e`. A decimal whose first digit is far beyond the range of the
format is infinite or zero, whatever its other digits are. -/
def ofDecimal (m : Nat) (e : Int) : Flonum :=
  let lead : Int := (Nat.toDigits 10 m).length + e
  if m == 0 || lead < -400 then ⟨0⟩
  else if 400 < lead then infinity
  else
    match e with
    | .ofNat e => ofFloat (Float.ofScientific m false e)
    | .negSucc e => ofFloat (Float.ofScientific m true (e + 1))

def decimal? (cs : List Char) : Option Flonum :=
  let (whole, rest) := spanDigits cs
  let (frac, rest) : List Char × List Char :=
    match rest with
    | '.' :: rest => spanDigits rest
    | _ => ([], rest)
  if whole.isEmpty && frac.isEmpty then none
  else do
    let e ← exponent? rest
    return ofDecimal (digitsValue (whole ++ frac)) (e - frac.length)

def magnitude? (cs : List Char) : Option Flonum :=
  let word := String.ofList (cs.map Char.toLower)
  if word == "inf" || word == "infinity" then some infinity
  else if word == "nan" then some nan
  else decimal? cs

/-- Read a number; the whole text must be used. -/
def ofText? (s : String) : Option Flonum :=
  let (negative, cs) := takeSign s.toList
  (magnitude? cs).map fun x => if negative then x.neg else x

end Scripting.Flonum
