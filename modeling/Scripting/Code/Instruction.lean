import Scripting.Code.Opcode
/-!
# `Code.Instruction` — assembling and reading instructions

An instruction is an opcode with the list of its operands. `Instruction.assemble` writes it as bytes:
the opcode byte, then each operand, most significant byte first, in the width its opcode declares.
`decode` splits a whole code array back into located instructions. It is meant for inspection and
never fails: operand bytes past the end read as zero, and it stops at the first byte that is no
opcode.

The machine does not go through `decode`; it reads operands in place with `readU8` and `readU16`.
-/

namespace Scripting

abbrev Bytes := Array UInt8

namespace Code

/-- The byte at `i`; zero past the end. -/
def readU8 (code : Bytes) (i : Nat) : Nat := (code.getD i 0).toNat

def readU16 (code : Bytes) (i : Nat) : Nat := readU8 code i * 256 + readU8 code (i + 1)

/-- Overwrite the two-byte operand at `i`, if both of its bytes are there. -/
def patchU16 (code : Bytes) (i value : Nat) : Bytes :=
  if i + 2 ≤ code.size then
    (code.setIfInBounds i (UInt8.ofNat (value / 256))).setIfInBounds (i + 1) (UInt8.ofNat value)
  else code

/-- The largest operand that `width` bytes can hold. -/
def maxOperand : Nat → Nat
  | 1 => 255
  | 2 => 65535
  | _ => 4294967295

/-- One operand in `width` bytes, most significant first. Higher bits are lost, so writers compare
with `maxOperand` before. Operands have width one, two or four. -/
def operandBytes (width value : Nat) : List UInt8 :=
  match width with
  | 1 => [UInt8.ofNat value]
  | 2 => [UInt8.ofNat (value / 256), UInt8.ofNat value]
  | 4 => [UInt8.ofNat (value / 16777216), UInt8.ofNat (value / 65536), UInt8.ofNat (value / 256),
      UInt8.ofNat value]
  | _ => []

def readOperand (code : Bytes) (width i : Nat) : Nat :=
  match width with
  | 1 => readU8 code i
  | 2 => readU16 code i
  | 4 => readU16 code i * 65536 + readU16 code (i + 2)
  | _ => 0

/-- Operands of the given widths, one after the other from `i`. -/
def readOperands (code : Bytes) : List Nat → Nat → List Nat
  | [], _ => []
  | w :: ws, i => readOperand code w i :: readOperands code ws (i + w)

end Code

structure Instruction where
  op : Opcode
  operands : List Nat := []
  deriving DecidableEq, Repr

namespace Instruction

open Code

/-- The bytes of an instruction. Operands that the opcode does not have are left out. -/
def assemble (i : Instruction) : List UInt8 :=
  i.op.byte :: ((i.op.widths.zip i.operands).flatMap fun (w, v) => operandBytes w v)

/-- As many operands as the opcode declares, each within its width. -/
def Fits (i : Instruction) : Prop :=
  i.operands.length = i.op.widths.length ∧ ∀ p ∈ i.op.widths.zip i.operands, p.2 ≤ maxOperand p.1

instance (i : Instruction) : Decidable i.Fits := by unfold Fits; infer_instance

end Instruction

namespace Code

/-- The instructions from offset `ip` on, each with its offset. -/
def decodeFrom (code : Bytes) (ip : Nat) : List (Nat × Instruction) :=
  if h : ip < code.size then
    match Opcode.ofByte? code[ip] with
    | none => []
    | some op =>
      (ip, { op, operands := readOperands code op.widths (ip + 1) }) ::
        decodeFrom code (ip + op.length)
  else []
termination_by code.size - ip
decreasing_by have := op.length_pos; omega

def decode (code : Bytes) : List (Nat × Instruction) := decodeFrom code 0

end Code

end Scripting
