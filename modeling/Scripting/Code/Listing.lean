import Scripting.Code.Instruction
import Scripting.Text.Blank
import Scripting.Text.Pad
/-!
# `Code.Listing` — instructions as text
-/

namespace Scripting

/-- An instruction in columns: its name, then its operands. -/
def Instruction.text (i : Instruction) : String :=
  Text.trimEnd (Text.padEnd 7 ' ' i.op.name ++
    String.join (i.operands.map fun v => " " ++ Text.padEnd 5 ' ' v.repr))

namespace Code

/-- An offset with at least four digits. -/
def offsetText (offset : Nat) : String := Text.padStart 4 '0' offset.repr

/-- One line for each instruction; `shift` is added to every offset. -/
def listing (code : Bytes) (shift : Nat := 0) : List String :=
  (decode code).map fun (offset, i) => offsetText (shift + offset) ++ " " ++ i.text

end Code

end Scripting
