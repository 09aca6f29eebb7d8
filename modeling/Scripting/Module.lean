import Scripting.Heap
import Scripting.Syntax
/-!
# `Module` — what programs can import
-/

namespace Scripting

inductive Module
  /-- Attributes supplied by the host program; imported as a frozen map. -/
  | builtin (attributes : Dict Value)
  /-- Source code; imported as the value it exports. -/
  | source (body : List Stmt)

/-- The modules that a program can import, by name. -/
abbrev ModuleMap := Dict Module

def ModuleMap.names (m : ModuleMap) : List String := m.keys.mergeSort (fun a b => a ≤ b)

end Scripting
