/-!
# `Limits` — how large values may become
-/

namespace Scripting.Limits

/-- The largest text, in bytes, that an operation may make. -/
def textSize : Nat := 2147483647

/-- The largest byte buffer that an operation may make. -/
def bytesSize : Nat := 2147483647

/-- How deep comparing, copying, counting and printing look into nested containers. A container can
hold itself, so every walk stops at this depth. -/
def nesting : Nat := 256

end Scripting.Limits
