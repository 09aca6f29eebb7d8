/-!
# `Decimal.Rounding` — quotients to the nearest whole number

`roundHalfEven a b` is the whole number nearest to `a / b`; when two are equally near, the even one.
-/

namespace Scripting.Decimal

/-- The whole number nearest to `num / den`; a half goes to the even neighbour. -/
def roundHalfEven (num den : Nat) : Nat :=
  let q := num / den
  let r := num % den
  if 2 * r < den || (2 * r == den && q % 2 == 0) then q else q + 1

end Scripting.Decimal
