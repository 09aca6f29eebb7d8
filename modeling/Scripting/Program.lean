import Scripting.Heap
/-!
# `Program` — compiled programs

A program is a main routine and the constants that its code, and the code of the functions among the
constants, refer to by number. Constants are values, so a program belongs to a heap. The file set
gives error messages their places.
-/

namespace Scripting

/-- A compiled program. `main` is a routine of the heap that the program belongs to. -/
structure Program where
  files : FileSet := {}
  main : Ref
  constants : Array Value := #[]
  deriving Inhabited

end Scripting
