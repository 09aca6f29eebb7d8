import Scripting.Flonum.Printer
import Scripting.Integer
import Scripting.Text.Quoted
import Scripting.Text.Utf8
import Scripting.Value.Basic
/-!
# `Value.Text` — values as text

`Value.text` is the written form of a value: texts stand in quotes, byte buffers are read as UTF-8,
and containers list their contents. Containers below `Limits.nesting` levels are only hinted at, so
the text of a container that contains itself is finite. `Value.plain` is the same, except that a text
stands for itself.
-/

namespace Scripting.Value

/-- The text of a value at `depth` levels below the outermost one. A chain of errors is always written
in full; `fuel` bounds the walk and exceeds every depth that is reached. -/
def textAt (h : Heap) : (fuel depth : Nat) → Value → String
  | 0, _, _ => ""
  | fuel + 1, depth, v =>
    match v with
    | undefined => "<undefined>"
    | int n => Integer.text n
    | float x => x.text
    | char c => c.toString
    | bool b => if b then "true" else "false"
    | str s => Text.quoted s
    | time t => t.text
    | bytes r => Text.decodeLossy (h.bytesAt r)
    | array _ r =>
      if Limits.nesting ≤ depth then "[...]"
      else "[" ++ ", ".intercalate ((h.arrayAt r).toList.map (textAt h fuel (depth + 1))) ++ "]"
    | map _ r =>
      if Limits.nesting ≤ depth then "\x7b...\x7d"
      else
        let entry := fun (e : String × Value) => e.1 ++ ": " ++ textAt h fuel (depth + 1) e.2
        "\x7b" ++ ", ".intercalate ((h.mapAt r).entries.map entry) ++ "\x7d"
    | error r =>
      match h.errorAt r with
      | undefined => "error"
      | payload => "error: " ++ textAt h fuel (depth + 1) payload
    | function _ | closure _ => "<compiled-function>"
    | builtin _ => "<builtin-function>"
    | host _ => "<user-function>"
    | iterator r => "<" ++ (h.iteratorAt r).typeName ++ ">"

/-- More levels than the text of any value has: only chains of errors lead below `Limits.nesting` of them,
and no error is its own payload. -/
def ampleLevels : Nat := 1000000000000000000

/-- The written form of a value. -/
def text (h : Heap) (v : Value) : String := textAt h ampleLevels 0 v

/-- The written form, but a text stands for itself. -/
def plain (h : Heap) : Value → String
  | str s => s
  | v => text h v

end Scripting.Value
