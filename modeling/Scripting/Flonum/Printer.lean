import Scripting.Flonum
import Scripting.Decimal.Positional
import Scripting.Decimal.Rounding
import Scripting.Decimal.Shortest
/-!
# `Flonum.Printer` — the text of a floating-point number

Numbers are always written positionally. `text` uses the fewest digits that read back and writes no
fraction for whole numbers; `textFixed` rounds the exact value to a number of places. A sign stands
in front exactly when the sign bit is set; a not-a-number has none.
-/

namespace Scripting.Flonum

/-- Put the sign in front of the text of the absolute value. -/
def signed (x : Flonum) (body : String) : String := if x.isNegative then "-" ++ body else body

/-- The shortest text that reads back. -/
def text (x : Flonum) : String :=
  if x.isNaN then "NaN"
  else if x.isInfinite then x.signed "inf"
  else if x.mantissa == 0 then x.signed "0"
  else
    let d := Decimal.shortest x.mantissa x.scale x.isTight
    x.signed (Decimal.positional d.digits d.exponent)

/-- The exact value rounded to `places` digits after the point, a half to the even neighbour. -/
def textFixed (x : Flonum) (places : Nat) : String :=
  if x.isNaN then "NaN"
  else if x.isInfinite then x.signed "inf"
  else
    let (num, den) := x.magnitude
    x.signed (Decimal.positional (Decimal.roundHalfEven (num * Nat.pow 10 places) den) (-(places : Int)))

end Scripting.Flonum
