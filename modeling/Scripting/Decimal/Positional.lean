/-!
# `Decimal.Positional` — decimals without an exponent

A finite decimal is a whole number of units `10 ^ exponent`. `positional` writes it with all of its
digits: zeros fill up to the point on either side, and there is no point when there is no fraction.
-/

namespace Scripting.Decimal

def zeros (n : Nat) : String := String.ofList (List.replicate n '0')

/-- The decimal `digits * 10 ^ exponent`, written out. With a negative exponent exactly `-exponent`
digits follow the point. -/
def positional (digits : Nat) (exponent : Int) : String :=
  let ds := Nat.toDigits 10 digits
  match exponent with
  | .ofNat e => String.ofList ds ++ zeros e
  | .negSucc e =>
    let places := e + 1
    let padded := List.replicate (places + 1 - ds.length) '0' ++ ds
    let whole := padded.length - places
    String.ofList (padded.take whole) ++ "." ++ String.ofList (padded.drop whole)

end Scripting.Decimal
