import Scripting.Code.Instruction
import Scripting.Code.SourceMap
/-!
# `Code.Routine` — compiled functions

A routine is what a function literal, a module or a whole program compiles to: code with the number
of local slots it needs and the way its arguments are bound.
-/

namespace Scripting

/-- The compiled form of one function body. -/
structure Routine where
  code : Bytes := #[]
  /-- Number of local slots, parameters included. -/
  locals : Nat := 0
  params : Nat := 0
  /-- The last parameter collects the remaining arguments. -/
  variadic : Bool := false
  /-- Names of the captured variables, in the order of capture. -/
  free : List String := []
  positions : SourceMap := .empty
  deriving DecidableEq, Inhabited

end Scripting
