/-!
# `Decimal.Shortest` — the fewest digits that identify a binary fraction

A binary floating-point number `m * 2 ^ q` stands for every real that rounds to it: an interval that
reaches half way to its neighbours, and includes its ends when `m` is even. `shortest` finds the
decimal with the fewest significant digits in that interval. For each number of digits it tries the
two grid points next to the number; of two hits it takes the nearer one, and the upper one when both
are equally near.

All the arithmetic is in natural numbers. The number, the ends of its interval and the grid points
are counted in units of `2 ^ (q - 2) / 10 ^ shift`, so the half steps to the neighbours are whole.
-/

namespace Scripting.Decimal

/-- A decimal: `digits * 10 ^ exponent`. -/
structure Scientific where
  digits : Nat
  exponent : Int
  deriving DecidableEq, Repr

/-- A number and the interval of reals that round to it, all over one common denominator. -/
structure RoundingInterval where
  value : Nat
  low : Nat
  high : Nat
  /-- Do the ends themselves round to the number? -/
  closed : Bool

namespace RoundingInterval

def mem (i : RoundingInterval) (x : Nat) : Bool :=
  if i.closed then i.low ≤ x && x ≤ i.high else i.low < x && x < i.high

/-- The grid point to use for a grid of the given step, if one of the two neighbours lies in the
interval. The result counts steps. -/
def gridPoint? (i : RoundingInterval) (step : Nat) : Option Nat :=
  let d := i.value / step
  let down := d * step
  let up := down + step
  match i.mem down, i.mem up with
  | true, true => some (if i.value - down < up - i.value then d else d + 1)
  | true, false => some d
  | false, true => some (d + 1)
  | false, false => none

end RoundingInterval

/-- Every finite number of the format is scaled by this power of ten before its digits are counted,
so that the smallest of them still has an integer part. -/
def shift : Nat := 400

/-- The shortest decimal for `m * 2 ^ q`, with `m` not zero. `tight` says that the number below is
only half as far away as the number above, as it is for powers of two. -/
def shortest (m : Nat) (q : Int) (tight : Bool) : Scientific :=
  let up := if 2 ≤ q then Nat.pow 2 (q - 2).toNat else 1
  let den := if 2 ≤ q then 1 else Nat.pow 2 (2 - q).toNat
  let unit := up * Nat.pow 10 shift
  let interval : RoundingInterval :=
    { value := 4 * m * unit
      low := (4 * m - if tight then 1 else 2) * unit
      high := (4 * m + 2) * unit
      closed := m % 2 == 0 }
  -- the number lies between `10 ^ (places - 1)` and `10 ^ places` in scaled units
  let places := (Nat.toDigits 10 (interval.value / den)).length
  let found := (List.range 17).findSome? fun i =>
    (interval.gridPoint? (den * Nat.pow 10 (places - (i + 1)))).map fun d => (i + 1, d)
  match found with
  | some (n, d) =>
    let exponent : Int := (places : Int) - n - shift
    if d % 10 == 0 then ⟨d / 10, exponent + 1⟩ else ⟨d, exponent⟩
  | none => ⟨interval.value / den, -(shift : Int)⟩

end Scripting.Decimal
