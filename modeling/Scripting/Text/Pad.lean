/-!
# `Text.Pad` — columns
-/

namespace Scripting.Text

/-- Fill a text up on the left to at least `width` characters. -/
def padStart (width : Nat) (fill : Char) (s : String) : String :=
  String.ofList (List.replicate (width - s.length) fill) ++ s

/-- Fill a text up on the right to at least `width` characters. -/
def padEnd (width : Nat) (fill : Char) (s : String) : String :=
  s ++ String.ofList (List.replicate (width - s.length) fill)

end Scripting.Text
