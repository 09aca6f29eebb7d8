/-!
# `Code.Opcode` — the instruction set

The 44 instructions of the machine. An opcode is written as one byte, its place in `Opcode.all`, and
is followed by operands whose widths depend on the opcode alone (`Opcode.widths`). So the length of
an instruction is known from its first byte.
-/

namespace Scripting

/-- What an instruction does. Jump targets are byte offsets in the code of the same function. -/
inductive Opcode
  /-- Push a constant of the pool. -/
  | constant
  | complement
  | pop
  | true
  | false
  | equal
  | notEqual
  | minus
  | not
  /-- Pop; jump if falsy. -/
  | jumpFalsy
  /-- Jump and keep the value if it is falsy; otherwise pop it. -/
  | andJump
  /-- Jump and keep the value if it is truthy; otherwise pop it. -/
  | orJump
  | jump
  /-- Push the undefined value. -/
  | null
  | array
  | map
  | error
  | immutable
  | index
  | slice
  | call
  | ret
  | getGlobal
  | setGlobal
  | setSelGlobal
  | getLocal
  | setLocal
  /-- Start a new binding in a local slot. -/
  | defineLocal
  | setSelLocal
  /-- Take the cell of a captured variable for the next closure. -/
  | getFreePtr
  | getFree
  | setFree
  /-- Take the cell of a local variable for the next closure. -/
  | getLocalPtr
  | setSelFree
  | getBuiltin
  | closure
  | iterInit
  | iterNext
  | iterKey
  | iterValue
  | binaryOp
  /-- End the run. -/
  | suspend
  /-- Push the function that is running. -/
  | currentFunc
  /-- Put the function that is running into a cell for the next closure. -/
  | currentFuncPtr
  deriving DecidableEq, Repr, Inhabited

namespace Opcode

/-- Every opcode, in the order of their bytes. -/
def all : Array Opcode := #[
  constant, complement, pop, true, false, equal, notEqual, minus, not, jumpFalsy, andJump, orJump,
  jump, null, array, map, error, immutable, index, slice, call, ret, getGlobal, setGlobal,
  setSelGlobal, getLocal, setLocal, defineLocal, setSelLocal, getFreePtr, getFree, setFree,
  getLocalPtr, setSelFree, getBuiltin, closure, iterInit, iterNext, iterKey, iterValue, binaryOp,
  suspend, currentFunc, currentFuncPtr]

def code (op : Opcode) : Nat := op.ctorIdx

def byte (op : Opcode) : UInt8 := UInt8.ofNat op.code

def ofByte? (b : UInt8) : Option Opcode := all[b.toNat]?

def name : Opcode → String
  | constant => "CONST"
  | complement => "COMPL"
  | pop => "POP"
  | true => "TRUE"
  | false => "FALSE"
  | equal => "EQL"
  | notEqual => "NEQ"
  | minus => "NEG"
  | not => "NOT"
  | jumpFalsy => "JMPF"
  | andJump => "ANDJMP"
  | orJump => "ORJMP"
  | jump => "JMP"
  | null => "NULL"
  | array => "ARR"
  | map => "MAP"
  | error => "ERROR"
  | immutable => "IMMUT"
  | index => "INDEX"
  | slice => "SLICE"
  | call => "CALL"
  | ret => "RET"
  | getGlobal => "GETG"
  | setGlobal => "SETG"
  | setSelGlobal => "SETSG"
  | getLocal => "GETL"
  | setLocal => "SETL"
  | defineLocal => "DEFL"
  | setSelLocal => "SETSL"
  | getFreePtr => "GETFP"
  | getFree => "GETF"
  | setFree => "SETF"
  | getLocalPtr => "GETLP"
  | setSelFree => "SETSF"
  | getBuiltin => "BUILTIN"
  | closure => "CLOSURE"
  | iterInit => "ITER"
  | iterNext => "ITNXT"
  | iterKey => "ITKEY"
  | iterValue => "ITVAL"
  | binaryOp => "BINARYOP"
  | suspend => "SUSPEND"
  | currentFunc => "CURFN"
  | currentFuncPtr => "CURFNP"

def ofName? (s : String) : Option Opcode := all.find? (fun op => op.name == s)

/-- The width in bytes of each operand. -/
def widths : Opcode → List Nat
  | constant | jumpFalsy | andJump | orJump | jump | array | map | getGlobal | setGlobal => [2]
  | setSelGlobal | closure => [2, 1]
  | getLocal | setLocal | defineLocal | getFreePtr | getFree | setFree | getLocalPtr | getBuiltin
  | ret | binaryOp => [1]
  | setSelLocal | setSelFree | call => [1, 1]
  | _ => []

def length (op : Opcode) : Nat := 1 + op.widths.foldr (· + ·) 0

/-- Is the operand a jump target? -/
def isJump : Opcode → Bool
  | jumpFalsy | andJump | orJump | jump => Bool.true
  | _ => Bool.false

theorem length_pos (op : Opcode) : 0 < op.length := by
  unfold length; omega

@[simp] theorem ofByte?_byte (op : Opcode) : ofByte? op.byte = some op := by
  cases op <;> rfl

end Opcode

end Scripting
