/-!
# `Value.Error` — why an operation on values fails

Each constructor is one cause. What it says to a reader is fixed in `ValueError.message` alone.
-/

namespace Scripting

inductive ValueError
  | wrongNumArguments
  /-- An argument of the wrong type; `argument` says which one. -/
  | invalidArgumentType (argument expected found : String)
  | invalidOperator
  | invalidIndexType
  | invalidIndexValueType
  | invalidIndexOnError
  | indexOutOfBounds
  | notIndexable
  | notIndexAssignable
  | notCallable
  | notIterable
  | textLimit
  | bytesLimit
  | divisionByZero
  /-- The sum or difference is no code point. -/
  | invalidChar (code : Int)
  | invalidRangeStep (step : Int)
  | rangeTooLarge (count limit : Nat)
  /-- A failure reported by the host program in its own words. -/
  | custom (text : String)
  deriving DecidableEq, Repr

namespace ValueError

def message : ValueError → String
  | wrongNumArguments => "wrong number of arguments"
  | invalidArgumentType argument expected found =>
    s!"invalid type for argument '{argument}': expected {expected}, found {found}"
  | invalidOperator => "invalid operator"
  | invalidIndexType => "invalid index type"
  | invalidIndexValueType => "invalid index value type"
  | invalidIndexOnError => "invalid index on error"
  | indexOutOfBounds => "index out of bounds"
  | notIndexable => "not indexable"
  | notIndexAssignable => "not index-assignable"
  | notCallable => "not callable"
  | notIterable => "not iterable"
  | textLimit => "exceeding string size limit"
  | bytesLimit => "exceeding bytes size limit"
  | divisionByZero => "division by zero"
  | invalidChar code => "invalid char value: " ++ code.repr
  | invalidRangeStep step => "invalid range step: must be > 0, got " ++ step.repr
  | rangeTooLarge count limit =>
    "range too large: " ++ count.repr ++ " elements (max " ++ limit.repr ++ ")"
  | custom text => text

end ValueError

/-- The word for the place of an argument, counted from zero. -/
def ordinal (i : Nat) : String :=
  ["first", "second", "third", "fourth", "fifth", "sixth", "seventh", "eighth", "ninth",
    "tenth"].getD i "nth"

end Scripting
