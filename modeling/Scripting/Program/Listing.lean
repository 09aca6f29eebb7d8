import Scripting.Code.Listing
import Scripting.Operator
import Scripting.Program
import Scripting.Value.Text
/-!
# `Program.Listing` — programs as text

`Program.constantLines` lists the constants of a program, functions with their code.
`Program.listing` shows the whole program for people: every function with its jump targets marked and
what its operands refer to, then the constants.
-/

namespace Scripting.Program

/-- How many objects the constants hold. -/
def count (h : Heap) (p : Program) : Nat :=
  (p.constants.toList.map (Value.count h)).foldr (· + ·) 0

def constantLine (h : Heap) (v : Value) (i : Nat) : List String :=
  let number := "[" ++ Text.padStart 3 ' ' i.repr ++ "] "
  match v with
  | .function r =>
    (number ++ "(compiled-function)") :: (Code.listing (h.routineAt r).code).map ("     " ++ ·)
  | v => [number ++ v.text h ++ " (" ++ v.typeName h ++ ")"]

def constantLines (h : Heap) (p : Program) : List String :=
  p.constants.toList.zipIdx.flatMap fun (v, i) => constantLine h v i

/-- An instruction with a remark on its first operand. -/
def remark (h : Heap) (constants : Array Value) (i : Instruction) : String :=
  let operand := i.operands.headD 0
  let noted (note : String) := Text.padEnd 20 ' ' i.text ++ " ; " ++ note
  match i.op with
  | .constant | .closure =>
    match constants[operand]? with
    | some (.function _) => noted ("<fn const[" ++ operand.repr ++ "]>")
    | some v => noted (v.text h)
    | none => noted "<missing>"
  | .binaryOp =>
    match Operator.ofCode? operand with
    | some op => noted op.text
    | none => i.text
  | op => if op.isJump then noted ("→ " ++ Code.offsetText operand) else i.text

/-- The offsets that jumps lead to. -/
def jumpTargets (code : List (Nat × Instruction)) : List Nat :=
  (code.filter (·.2.op.isJump)).map (·.2.operands.headD 0)

/-- The instructions of a function with remarks and marks. -/
def codeLines (h : Heap) (constants : Array Value) (code : Bytes) : List String :=
  let located := Code.decode code
  let targets := jumpTargets located
  located.flatMap fun (offset, i) =>
    let line (mark : String) := Code.offsetText offset ++ " " ++ mark ++ remark h constants i
    if targets.contains offset then
      ["      ┌──────────────────────────────────", line "► "]
    else [line "  "]

def functionLines (h : Heap) (constants : Array Value) (name : String) (f : Routine) :
    List String :=
  let rule := "════════════════════════════════════════"
  [rule, " " ++ name,
    " " ++ f.code.size.repr ++ " bytes, " ++ f.locals.repr ++ " locals, " ++ f.params.repr ++
      " params" ++ (if f.variadic then " (variadic)" else "")] ++
    (if f.free.isEmpty then [] else [" free: " ++ ", ".intercalate f.free]) ++
    [rule] ++ codeLines h constants f.code ++ [""]

def lines (h : Heap) (p : Program) : List String :=
  ["=== BYTECODE PROGRAM ===", ""] ++
    functionLines h p.constants "main" (h.routineAt p.main) ++
    (p.constants.toList.zipIdx.flatMap fun (v, i) =>
      match v with
      | .function r => functionLines h p.constants ("const[" ++ i.repr ++ "]") (h.routineAt r)
      | _ => []) ++
    ["=== CONSTANTS ===", ""] ++ p.constantLines h

def listing (h : Heap) (p : Program) : String := String.join ((p.lines h).map (· ++ "\n"))

end Scripting.Program
