/-!
# `Instant` — points in time

An instant is a whole number of nanoseconds since 1970-01-01 00:00:00 UTC, inside the range of years
that dates are defined for. Sums and differences are exact; a sum that would leave the range does not
exist. `Instant.text` writes the proleptic Gregorian date and the time of day.
-/

namespace Scripting

namespace Instant

def perSecond : Int := 1000000000

def firstSecond : Int := -8334601228800

def lastSecond : Int := 8210266876799

def least : Int := firstSecond * perSecond

def greatest : Int := lastSecond * perSecond + (perSecond - 1)

end Instant

structure Instant where
  nanos : Int
  inRange : Instant.least ≤ nanos ∧ nanos ≤ Instant.greatest := by decide
  deriving DecidableEq, Repr

instance : Inhabited Instant := ⟨{ nanos := 0 }⟩

namespace Instant

/-- The instant that many nanoseconds after the epoch, if it is in range. -/
def ofNanos? (n : Int) : Option Instant :=
  if h : least ≤ n ∧ n ≤ greatest then some ⟨n, h⟩ else none

/-- The instant that many seconds after the epoch, if it is in range. -/
def ofSeconds? (n : Int) : Option Instant := ofNanos? (n * perSecond)

/-- Whole seconds since the epoch, rounded down. -/
def seconds (t : Instant) : Int := t.nanos.fdiv perSecond

/-- Nanoseconds since the last whole second. -/
def subsecond (t : Instant) : Nat := (t.nanos.fmod perSecond).toNat

/-- The instant `n` nanoseconds later. -/
def add? (t : Instant) (n : Int) : Option Instant := ofNanos? (t.nanos + n)

/-- Nanoseconds from `u` to `t`. -/
def since (t u : Instant) : Int := t.nanos - u.nanos

/-! ## Dates -/

structure Date where
  year : Int
  month : Nat
  day : Nat
  deriving DecidableEq, Repr

/-- The date that many days after 1970-01-01. Years are counted from March, so that the leap day is
the last of its year, in cycles of 400 years that start at a year divisible by 400. -/
def Date.ofDays (days : Int) : Date :=
  let z := days + 719468
  let era := z.fdiv 146097
  let dayOfEra := (z.fmod 146097).toNat
  let yearOfEra := (dayOfEra - dayOfEra / 1460 + dayOfEra / 36524 - dayOfEra / 146096) / 365
  let dayOfYear := dayOfEra - (365 * yearOfEra + yearOfEra / 4 - yearOfEra / 100)
  let marchMonth := (5 * dayOfYear + 2) / 153
  let day := dayOfYear - (153 * marchMonth + 2) / 5 + 1
  let month := if marchMonth < 10 then marchMonth + 3 else marchMonth - 9
  let year := era * 400 + yearOfEra + (if month ≤ 2 then 1 else 0)
  { year, month, day }

/-- A number with zeros in front, at least `width` digits long. -/
def padded (width n : Nat) : String :=
  let ds := Nat.toDigits 10 n
  String.ofList (List.replicate (width - ds.length) '0' ++ ds)

/-- Years from 0 to 9999 have four digits; all others have a sign as well. -/
def yearText (y : Int) : String :=
  if 0 ≤ y ∧ y ≤ 9999 then padded 4 y.toNat
  else if y < 0 then "-" ++ padded 4 y.natAbs
  else "+" ++ padded 4 y.natAbs

def Date.text (d : Date) : String := yearText d.year ++ "-" ++ padded 2 d.month ++ "-" ++ padded 2 d.day

/-- The fraction of a second, in as few groups of three digits as hold it. -/
def fractionText (n : Nat) : String :=
  if n == 0 then ""
  else if n % 1000000 == 0 then "." ++ padded 3 (n / 1000000)
  else if n % 1000 == 0 then "." ++ padded 6 (n / 1000)
  else "." ++ padded 9 n

def text (t : Instant) : String :=
  let s := t.seconds
  let day := s.fdiv 86400
  let clock := (s.fmod 86400).toNat
  (Date.ofDays day).text ++ " " ++ padded 2 (clock / 3600) ++ ":" ++ padded 2 (clock / 60 % 60) ++
    ":" ++ padded 2 (clock % 60) ++ fractionText t.subsecond ++ " UTC"

end Instant

end Scripting
